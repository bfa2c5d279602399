import QuicVibe.Tls.Message
/-!
# Certificates

What the client reads of a server's certificate: the DER elements (`der.c`, `derseq.c`), the outer
structure and the public key of an X.509 certificate (`x509.c`, `spki.c`, `ec_pubkey.c`,
`rsa_pubkey.c`), the entries of a Certificate message and the signature of a CertificateVerify
(`cert.c`, `certverify.c`). The signature algorithms and the checks of validity, names and chains are
arbitrary functions.
-/

namespace QuicVibe

namespace Tls

open Crypto Packet

/-! ## DER -/

def derInteger : UInt8 := 0x02
def derBitString : UInt8 := 0x03
def derOid : UInt8 := 0x06
def derSequence : UInt8 := 0x30

/-- `der_long_n`: octets of a long-form length, 0 when it is not supported. -/
def derLongN (lead : UInt8) : ℕ := if lead = 0x81 then 1 else if lead = 0x82 then 2 else 0

/-- `der_len`: the length and the octets of the length field. -/
def derLen : Bytes → Option (ℕ × ℕ)
  | [] => none
  | lead :: rest =>
    if lead < 0x80 then some (lead.toNat, 1)
    else
      let nb := derLongN lead
      if nb = 0 ∨ rest.length < nb then none else some (readBe (rest.take nb), 1 + nb)

/-- One DER element. -/
structure DerElem where
  tag : UInt8
  val : Bytes
  /-- The octets of header and value. -/
  consumed : ℕ

def derRead (buf : Bytes) : Option DerElem :=
  match buf with
  | [] => none
  | tag :: rest =>
    if rest.length < 1 then none
    else
      match derLen rest with
      | none => none
      | some (len, hdr) =>
        let head := 1 + hdr
        if len > buf.length - head then none
        else some { tag := tag, val := (buf.drop head).take len, consumed := head + len }

@[simp] theorem derRead_nil : derRead [] = none := rfl

/-- `quic_derseq_next`, requiring the tag: the value and the rest of the sequence. -/
def nextTagged (seq : Bytes) (want : UInt8) : Option (Bytes × Bytes) := do
  let e ← derRead seq
  if e.tag = want then some (e.val, seq.drop e.consumed) else none

/-- Skip `n` elements. -/
def skipElems : ℕ → Bytes → Option Bytes
  | 0, seq => some seq
  | n + 1, seq => do
    let e ← derRead seq
    skipElems n (seq.drop e.consumed)

/-! ## X.509 -/

structure X509 where
  /-- tbsCertificate with its header. -/
  tbs : Bytes
  sigAlgOid : Bytes
  sig : Bytes

def x509Parse (cert : Bytes) : Option X509 := do
  let (seq, _) ← nextTagged cert derSequence
  let tbs ← derRead seq
  if tbs.tag ≠ derSequence then none
  else
    let (alg, rest) ← nextTagged (seq.drop tbs.consumed) derSequence
    let (oid, _) ← nextTagged alg derOid
    let (sig, _) ← nextTagged rest derBitString
    return { tbs := seq.take tbs.consumed, sigAlgOid := oid, sig := sig }

@[simp] theorem x509Parse_nil : x509Parse [] = none := rfl

/-- `skip_version`: the version element is optional. -/
def skipVersion (seq : Bytes) : Option Bytes :=
  if seq.getD 0 0 = 0xa0 then skipElems 1 seq else some seq

/-- `quic_x509_public_key`: the algorithm and the key bits of a tbsCertificate. -/
def x509PublicKey (tbs : Bytes) : Option (Bytes × Bytes) := do
  let (seq, _) ← nextTagged tbs derSequence
  let seq ← skipVersion seq
  let seq ← skipElems 5 seq
  let (spki, _) ← nextTagged seq derSequence
  let (alg, rest) ← nextTagged spki derSequence
  let (key, _) ← nextTagged rest derBitString
  let (oid, _) ← nextTagged alg derOid
  return (oid, key)

/-- `cert_spki_key`: the key bits of a certificate. -/
def certSpkiKey (cert : Bytes) : Option Bytes := do
  let x ← x509Parse cert
  let (_, key) ← x509PublicKey x.tbs
  return key

/-- `quic_x509_ec_pubkey`: the coordinates of an uncompressed point. -/
def x509EcPubkey (key : Bytes) : Option (Bytes32 × Bytes32) :=
  if key.length = 66 ∧ key.getD 0 0 = 0x00 ∧ key.getD 1 0 = 0x04
  then some (Bytes.fit 32 (key.drop 2), Bytes.fit 32 (key.drop 34)) else none

/-- One sign pad of an INTEGER is dropped (`strip_pad`). -/
def stripPad (v : Bytes) : Bytes := if v.length > 1 ∧ v.getD 0 0 = 0x00 then v.drop 1 else v

def canonOdd (v : Bytes) : Bool := v.getD 0 0 != 0x00 && v.getD (v.length - 1) 0 &&& 1 != 0

/-- `quic_x509_rsa_pubkey`: modulus and exponent. -/
def x509RsaPubkey (key : Bytes) : Option (Bytes × Bytes) := do
  if key.length ≥ 1 ∧ key.getD 0 0 = 0x00 then
    let (seq, _) ← nextTagged (key.drop 1) derSequence
    let (n, rest) ← nextTagged seq derInteger
    let (e, _) ← nextTagged rest derInteger
    if n.length = 0 ∨ e.length = 0 then none
    else
      let n := stripPad n
      let e := stripPad e
      if n.length ≥ 256 ∧ canonOdd n ∧ e.length ≥ 1 ∧ e.length ≤ 8 ∧
          (e.length > 1 ∨ e.getD 0 0 ≥ 3) ∧ canonOdd e
      then some (n, e) else none
  else none

/-! ## The messages -/

/-- A view: offset and length. -/
structure View where
  off : ℕ
  len : ℕ
  deriving DecidableEq, Repr

/-- The bytes a view shows. -/
def View.of (v : View) (buf : Bytes) : Bytes := (buf.drop v.off).take v.len

/-- `take_vec` within the first `stop` bytes: a `k`-byte length and that many bytes; the view of
them and the offset behind. -/
def takeVec (buf : Bytes) (stop off k : ℕ) : Option (View × ℕ) :=
  if off + k > stop then none
  else
    let len := readBe ((buf.drop off).take k)
    if off + k + len > stop then none else some (⟨off + k, len⟩, off + k + len)

/-- `QUIC_TLS_CERT_CHAIN_MAX`. -/
def certChainMax : ℕ := 4

/-- `entries_loop`: every entry of the list up to `stop`, at most `cap` of them. -/
def certEntries (buf : Bytes) (stop : ℕ) : ℕ → ℕ → Option (List View)
  | cap, off =>
    if off ≥ stop then some []
    else
      match cap with
      | 0 => none
      | cap + 1 => do
        let (cert, off) ← takeVec buf stop off 3
        let (_, off) ← takeVec buf stop off 2
        let rest ← certEntries buf stop cap off
        return cert :: rest

/-- `quic_tls_cert_chain`: the certificates of a Certificate message body, leaf first. -/
def certChain (body : Bytes) : Option (List View) := do
  let (_, off) ← takeVec body body.length 0 1
  let (list, _) ← takeVec body body.length off 3
  certEntries body (list.off + list.len) certChainMax list.off

/-- `quic_tls_certverify_parse`: scheme and signature. -/
def certverifyParse (body : Bytes) : Option (ℕ × Bytes) :=
  if 2 > body.length then none
  else do
    let (sig, _) ← takeVec body body.length 2 2
    return (readBe (body.take 2), sig.of body)

/-! ## CertificateVerify -/

/-- The algorithms behind the client's checks; `Store` is the type of trust stores. -/
structure ClientPrimitives (Store : Type) where
  x25519 : Bytes32 → Bytes32 → Bytes32
  ecdsaP256Verify : Bytes32 → Bytes32 → Bytes32 → Bytes32 → Digest → Bool
  rsaPssVerify : Bytes → Bytes → Bytes → Digest → Bool
  ed25519Verify : Bytes → Bytes → Bytes32 → Bool
  /-- `quic_x509_validity_ok`. -/
  validityOk : Bytes → ℕ → Bool
  /-- `quic_x509_san_matches`. -/
  sanMatches : Bytes → Bytes → Bool
  /-- `quic_castore_validate_chain`. -/
  validateChain : Store → List Bytes → Bool

/-- `copy_int32`: one INTEGER as a 32-byte field, and the rest. -/
def copyInt32 (seq : Bytes) : Option (Bytes32 × Bytes) := do
  let (v, rest) ← nextTagged seq derInteger
  let v := stripPad v
  if v.length ≥ 1 ∧ v.length ≤ 32
  then some (Bytes.fit 32 (List.replicate (32 - v.length) 0 ++ v), rest) else none

/-- `ecdsa_split`: the two INTEGERs of an ECDSA signature. -/
def ecdsaSplit (sig : Bytes) : Option (Bytes32 × Bytes32) := do
  let (seq, _) ← nextTagged sig derSequence
  let (r, rest) ← copyInt32 seq
  let (s, _) ← copyInt32 rest
  return (r, s)

/-- SignatureScheme codepoints. -/
def schemeRsaPssSha256 : ℕ := 0x0804
def schemeEcdsaP256 : ℕ := 0x0403
def schemeEd25519 : ℕ := 0x0807

/-- `quic_tls_verify_cert_signature`: the signature of the transcript hash under the key of `cert`,
by the algorithm of `scheme`. -/
def verifyCertSignature {Store : Type} (P : ClientPrimitives Store) (scheme : ℕ)
    (cert sig : Bytes) (transcriptHash : Digest) : Bool :=
  let content := signedContent transcriptHash
  let verdict : Option Bool := do
    let key ← certSpkiKey cert
    if scheme = schemeEd25519 then
      if sig.length = 64 ∧ key.length = 33 ∧ key.getD 0 0 = 0x00
      then some (P.ed25519Verify sig content (Bytes.fit 32 (key.drop 1))) else none
    else if scheme = schemeEcdsaP256 then do
      let (x, y) ← x509EcPubkey key
      let (r, s) ← ecdsaSplit sig
      return P.ecdsaP256Verify x y r s (sha256 content)
    else if scheme = schemeRsaPssSha256 then do
      let (n, e) ← x509RsaPubkey key
      return P.rsaPssVerify n e sig (sha256 content)
    else none
  verdict.getD false

@[simp] theorem verifyCertSignature_nil {Store : Type} (P : ClientPrimitives Store) (scheme : ℕ)
    (sig : Bytes) (th : Digest) : verifyCertSignature P scheme [] sig th = false := rfl

end Tls

end QuicVibe
