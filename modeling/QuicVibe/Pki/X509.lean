import QuicVibe.Tls.Certificate
/-!
# Certificates as links of a chain

What path validation reads of a certificate: names (`chain.c`), basicConstraints
(`basicconstraints.c`), the fields of a tbsCertificate (`fields.c`, `sigalg.c`), the allowlist of
signature algorithms (`sigalgoid.c`), and the check of its signature under the key of its issuer
(`chainverify.c`). The signature schemes and the two longer hashes are arbitrary functions.
-/

namespace QuicVibe

namespace Pki

open Crypto Tls

/-! ## Names -/

/-- The next element with its header, a SEQUENCE (`ch_next_seq_tlv`), and the rest. -/
def nextSeqTlv (seq : Bytes) : Option (Bytes × Bytes) := do
  let e ← derRead seq
  if e.tag = derSequence then some (seq.take e.consumed, seq.drop e.consumed) else none

/-- `ch_tbs_cursor`: before serialNumber. -/
def tbsCursor (tbs : Bytes) : Option Bytes := do
  let (seq, _) ← nextTagged tbs derSequence
  skipVersion seq

/-- `ch_at_issuer`: behind serialNumber and signature. -/
def atIssuer (tbs : Bytes) : Option Bytes := do
  let seq ← tbsCursor tbs
  skipElems 2 seq

def x509Issuer (tbs : Bytes) : Option Bytes := do
  let seq ← atIssuer tbs
  let (dn, _) ← nextSeqTlv seq
  return dn

/-- `quic_x509_subject`: behind the issuer and validity. -/
def x509Subject (tbs : Bytes) : Option Bytes := do
  let seq ← atIssuer tbs
  let (_, seq) ← nextSeqTlv seq
  let seq ← skipElems 1 seq
  let (dn, _) ← nextSeqTlv seq
  return dn

/-! ## basicConstraints -/

def derBoolean : UInt8 := 0x01
def derOctetString : UInt8 := 0x04
def extensionsTag : UInt8 := 0xa3

/-- id-ce-basicConstraints. -/
def oidBc : Bytes := [0x55, 0x1d, 0x13]

/-- The elements of a sequence up to the first that does not read; every element takes two octets
at least, so `fuel` is the length. -/
def derElems : ℕ → Bytes → List DerElem
  | 0, _ => []
  | fuel + 1, seq =>
    match derRead seq with
    | none => []
    | some e => e :: derElems fuel (seq.drop e.consumed)

def bcReachExtensions (tbs : Bytes) : Option Bytes := do
  let seq ← tbsCursor tbs
  let seq ← skipElems 6 seq
  let (val, _) ← nextTagged seq extensionsTag
  let (ext, _) ← nextTagged val derSequence
  return ext

def bcExtIdIs (e oid : Bytes) : Bool :=
  match derRead e with
  | none => false
  | some id => id.tag == derOid && id.val == oid

/-- `bc_ext_value`: the first OCTET STRING of an Extension. -/
def bcExtValue (e : Bytes) : Option Bytes :=
  ((derElems e.length e).find? fun o => o.tag == derOctetString).map DerElem.val

/-- `bc_find_ext`: the value of the first extension with the OID. -/
def bcFindExt (ext oid : Bytes) : Option Bytes := do
  let e ← (derElems ext.length ext).find? fun e => bcExtIdIs e.val oid
  bcExtValue e.val

/-- `bc_ca_true`: the leading BOOLEAN is present and true. -/
def bcCaTrue (val : Bytes) : Bool :=
  let verdict : Option Bool := do
    let (bc, _) ← nextTagged val derSequence
    let b ← derRead bc
    return b.tag == derBoolean && b.val.length == 1 && b.val.getD 0 0 != 0x00
  verdict.getD false

def bcLocate (tbs : Bytes) : Option Bytes := do
  let ext ← bcReachExtensions tbs
  bcFindExt ext oidBc

def x509IsCa (tbs : Bytes) : Bool :=
  match bcLocate tbs with
  | none => false
  | some val => bcCaTrue val

/-- `bc_pathlen_elem`: tag and value of the element behind cA. -/
def bcPathlenElem (val : Bytes) : Option (UInt8 × Bytes) := do
  let (bc, _) ← nextTagged val derSequence
  let ca ← derRead bc
  let e ← derRead (bc.drop ca.consumed)
  return (e.tag, e.val)

def bcUintWf (b : Bytes) : Bool := b.length ≥ 1 && b.length ≤ 8 && b.getD 0 0 &&& 0x80 == 0

def bcPathlenOk (tag : UInt8) (b : Bytes) (depth : ℕ) : Bool :=
  if tag ≠ derInteger ∨ ¬ bcUintWf b then false else readBe b ≥ depth

/-- `quic_x509_pathlen_allows`: no extension and no element behind cA allow any depth. -/
def x509PathlenAllows (tbs : Bytes) (depth : ℕ) : Bool :=
  match bcLocate tbs with
  | none => true
  | some val =>
    match bcPathlenElem val with
    | none => true
    | some (tag, b) => bcPathlenOk tag b depth

/-! ## The fields of a tbsCertificate -/

/-- `quic_tbscert`: the values of the elements; an absent one is empty. -/
structure TbsCert where
  version : Bytes
  serial : Bytes
  sigAlg : Bytes
  issuer : Bytes
  validity : Bytes
  subject : Bytes
  spki : Bytes
  extensions : Bytes

/-- The next element's value, and the rest (`take_slot`). -/
def takeSlot (seq : Bytes) : Option (Bytes × Bytes) := do
  let e ← derRead seq
  return (e.val, seq.drop e.consumed)

/-- An optional explicitly tagged element: the value of the element inside (`opt_version`,
`opt_extensions`). -/
def optExplicit (seq : Bytes) (want : UInt8) : Option (Bytes × Bytes) :=
  if seq.getD 0 0 = want then do
    let (outer, rest) ← takeSlot seq
    let inner ← derRead outer
    return (inner.val, rest)
  else some ([], seq)

def tbscertParse (tbs : Bytes) : Option TbsCert := do
  let (seq, _) ← nextTagged tbs derSequence
  let (version, seq) ← optExplicit seq 0xa0
  let (serial, seq) ← takeSlot seq
  let (sigAlg, seq) ← takeSlot seq
  let (issuer, seq) ← takeSlot seq
  let (validity, seq) ← takeSlot seq
  let (subject, seq) ← takeSlot seq
  let (spki, seq) ← takeSlot seq
  let (extensions, _) ← optExplicit seq extensionsTag
  return { version, serial, sigAlg, issuer, validity, subject, spki, extensions }

def tbscertSigalgMatches (t : TbsCert) (outerOid : Bytes) : Bool :=
  match nextTagged t.sigAlg derOid with
  | none => false
  | some (oid, _) => oid == outerOid

/-! ## Signature algorithms -/

inductive KeyKind
  | ecdsa | rsaPkcs1
  deriving DecidableEq, Repr

inductive HashKind
  | sha256 | sha384 | sha512
  deriving DecidableEq, Repr

structure Sigalg where
  keyKind : KeyKind
  hashKind : HashKind
  deriving DecidableEq, Repr

def saoTable : List (Bytes × Sigalg) :=
  [([0x2a, 0x86, 0x48, 0xce, 0x3d, 0x04, 0x03, 0x02], ⟨.ecdsa, .sha256⟩),
   ([0x2a, 0x86, 0x48, 0xce, 0x3d, 0x04, 0x03, 0x03], ⟨.ecdsa, .sha384⟩),
   ([0x2a, 0x86, 0x48, 0x86, 0xf7, 0x0d, 0x01, 0x01, 0x0b], ⟨.rsaPkcs1, .sha256⟩),
   ([0x2a, 0x86, 0x48, 0x86, 0xf7, 0x0d, 0x01, 0x01, 0x0c], ⟨.rsaPkcs1, .sha384⟩),
   ([0x2a, 0x86, 0x48, 0x86, 0xf7, 0x0d, 0x01, 0x01, 0x0d], ⟨.rsaPkcs1, .sha512⟩)]

def sigalgLookup (oid : Bytes) : Option Sigalg :=
  (saoTable.find? fun row => oid == row.1).map Prod.snd

def oidEc : Bytes := [0x2a, 0x86, 0x48, 0xce, 0x3d, 0x02, 0x01]
def oidRsa : Bytes := [0x2a, 0x86, 0x48, 0x86, 0xf7, 0x0d, 0x01, 0x01, 0x01]

/-! ## A certificate under the key of its issuer -/

/-- The algorithms behind the signatures of certificates. -/
structure ChainPrimitives where
  ecdsaP256Verify : Bytes32 → Bytes32 → Bytes32 → Bytes32 → Bytes32 → Bool
  rsaPkcs1Verify : Bytes → Bytes → Bytes → Bytes → Bool
  sha384 : Bytes → Vector UInt8 48
  sha512 : Bytes → Vector UInt8 64

variable (P : ChainPrimitives)

/-- `chv_hash_select`, applied. -/
def chvHash : HashKind → Bytes → Bytes
  | .sha256, data => (sha256 data).toList
  | .sha384, data => (P.sha384 data).toList
  | .sha512, data => (P.sha512 data).toList

/-- `issuer_key`: algorithm and key bits. -/
def issuerKey (issuerCert : Bytes) : Option (Bytes × Bytes) := do
  let c ← x509Parse issuerCert
  x509PublicKey c.tbs

def sigalgConsistent (cert : Bytes) : Bool :=
  let verdict : Option Bool := do
    let c ← x509Parse cert
    let t ← tbscertParse c.tbs
    return tbscertSigalgMatches t c.sigAlgOid
  verdict.getD false

/-- `tbs_hash`: the algorithm, and the digest of the tbsCertificate by its hash. -/
def tbsHash (cert : Bytes) : Option (Sigalg × Bytes) := do
  let c ← x509Parse cert
  let sa ← sigalgLookup c.sigAlgOid
  return (sa, chvHash P sa.hashKind c.tbs)

/-- `cert_sig`: without the unused-bits octet. -/
def certSig (cert : Bytes) : Option Bytes := do
  let c ← x509Parse cert
  if c.sig.length < 1 then none else some (c.sig.drop 1)

def certSigned (cert : Bytes) : Option (Sigalg × Bytes × Bytes) :=
  if sigalgConsistent cert then do
    let (sa, hash) ← tbsHash P cert
    let sig ← certSig cert
    return (sa, hash, sig)
  else none

/-- `chv_verify_ecdsa`, under the leftmost 32 bytes of the digest. -/
def chvVerifyEcdsa (key sig hash : Bytes) : Bool :=
  let verdict : Option Bool := do
    let (x, y) ← x509EcPubkey key
    let (r, s) ← ecdsaSplit sig
    return P.ecdsaP256Verify x y r s (Bytes.fit 32 hash)
  verdict.getD false

def chvVerifyRsa (key sig hash : Bytes) : Bool :=
  match x509RsaPubkey key with
  | none => false
  | some (n, e) => P.rsaPkcs1Verify n e sig hash

/-- `verify_by_key`: the issuer's key must be of the kind the algorithm names. -/
def verifyByKey (sa : Sigalg) (alg key sig hash : Bytes) : Bool :=
  match sa.keyKind with
  | .ecdsa => alg == oidEc && chvVerifyEcdsa P key sig hash
  | .rsaPkcs1 => alg == oidRsa && chvVerifyRsa P key sig hash

def verifySignedBy (cert issuerCert : Bytes) : Bool :=
  let verdict : Option Bool := do
    let (alg, key) ← issuerKey issuerCert
    let (sa, hash, sig) ← certSigned P cert
    return verifyByKey P sa alg key sig hash
  verdict.getD false

end Pki

end QuicVibe
