import QuicVibe.Frame.Codec
import QuicVibe.Keys.Schedule
/-!
# Handshake messages

The framing of TLS handshake messages (`handshake.c`), the parts of a ClientHello the server reads
(`sdrv.c` over `ext_keyshare.c`), and the messages of the server's flight (`shbuild.c`, `eebuild.c`,
`server_tp.c`, `certmsg.c`, `cvecdsa.c`, `finished_build.c`). The ClientHello walk can read behind the
message, which is therefore a function from offsets to bytes.
-/

namespace QuicVibe

namespace Tls

open Crypto Packet Keys

/-- A 32-byte key, random or scalar. -/
abbrev Bytes32 := Vector UInt8 32

/-! ## Framing -/

/-- A message: type, 24-bit length, body (`quic_hs_begin`, `quic_hs_finish`). -/
def hsMessage (type : UInt8) (body : Bytes) : Bytes := type :: (putBe 3 body.length ++ body)

/-- `quic_hs_parse`: the type and the length of the body, which starts at offset 4. -/
def hsParse (buf : Bytes) : Option (UInt8 × ℕ) :=
  if buf.length < 4 then none
  else
    let len := readBe ((buf.drop 1).take 3)
    if 4 + len > buf.length then none else some (buf.getD 0 0, len)

theorem hsParse_eq_some {buf : Bytes} {type : UInt8} {len : ℕ} (h : hsParse buf = some (type, len)) :
    4 + len ≤ buf.length ∧ buf = type :: (putBe 3 len ++ buf.drop 4) := by
  simp only [hsParse] at h
  split at h
  · cases h
  · rename_i hfour
    split at h
    · cases h
    · rename_i hlen
      obtain ⟨rfl, rfl⟩ := Prod.mk.inj (Option.some.inj h)
      refine ⟨Nat.le_of_not_lt hlen, ?_⟩
      obtain ⟨b, tail, rfl⟩ := List.exists_cons_of_length_pos (l := buf) (by omega)
      have hthree : (tail.take 3).length = 3 := by
        rw [List.length_take]
        simp only [List.length_cons] at hfour
        omega
      have hbe := putBe_readBe (tail.take 3)
      rw [hthree] at hbe
      simp [hbe]

@[simp] theorem length_hsMessage (type : UInt8) (body : Bytes) :
    (hsMessage type body).length = 4 + body.length := by
  simp [hsMessage]
  omega

theorem hsParse_hsMessage (type : UInt8) (body : Bytes) (h : body.length < 2 ^ 24) (rest : Bytes) :
    hsParse (hsMessage type body ++ rest) = some (type, body.length) := by
  have hbe : ((hsMessage type body ++ rest).drop 1).take 3 = putBe 3 body.length := by
    simp [hsMessage, List.take_left' (length_putBe 3 body.length)]
  have hval : readBe (putBe 3 body.length) = body.length := by
    rw [readBe_putBe, Nat.mod_eq_of_lt (by omega)]
  simp only [hsParse, hbe, hval]
  rw [if_neg (by simp; omega), if_neg (by simp)]
  rfl

/-- Handshake message types. -/
def hsClientHello : UInt8 := 1
def hsServerHello : UInt8 := 2
def hsEncryptedExt : UInt8 := 8
def hsCertificate : UInt8 := 11
def hsCertificateVerify : UInt8 := 15
def hsFinished : UInt8 := 20

/-! ## Reading a ClientHello -/

/-- A message in memory: its bytes, and whatever lies behind them. -/
def inMemory (msg : Bytes) (beyond : ℕ → UInt8) : ℕ → UInt8 := fun i => msg.getD i (beyond i)

/-- The big-endian 16-bit number at `p`. -/
def be16At (b : ℕ → UInt8) (p : ℕ) : ℕ := (b p).toNat * 256 + (b (p + 1)).toNat

/-- The 32 bytes at `p`. -/
def bytes32At (b : ℕ → UInt8) (p : ℕ) : Bytes32 := Vector.ofFn fun i => b (p + i)

/-- The entry at `e` names x25519 and declares a 32-byte key within `n` (`entry_ok`). -/
def entryOk (b : ℕ → UInt8) (e n : ℕ) : Bool :=
  if n < 36 then false else be16At b e == 0x001d && be16At b (e + 2) == 32

def ksEntryFits (b : ℕ → UInt8) (e avail : ℕ) : Bool :=
  if avail < 4 then false else 4 + be16At b (e + 2) ≤ avail

/-- The scan of the KeyShareEntry list up to `stop`; an entry has at least four bytes, which bounds
the number of rounds. -/
def ksFindX25519 (b : ℕ → UInt8) (stop : ℕ) : ℕ → ℕ → Option Bytes32
  | 0, _ => none
  | fuel + 1, off =>
    if !ksEntryFits b off (stop - off) then none
    else if entryOk b off (stop - off) then
      if off + 4 + 32 > stop then none else some (bytes32At b (off + 4))
    else ksFindX25519 b stop fuel (off + 4 + be16At b (off + 2))

/-- `quic_tls_ext_key_share_scan` over the `n` bytes at `p`. -/
def keyShareScan (b : ℕ → UInt8) (p n : ℕ) : Option Bytes32 :=
  if n < 2 then none
  else
    let list := be16At b p
    if 2 + list > n then none else ksFindX25519 b (p + 2 + list) (list + 1) (p + 2)

/-- The walk over the extensions (`sdrv_ch_walk`): it ends with the first key share taken, with an
extension that overruns, or at the end. -/
def chWalk (b : ℕ → UInt8) (stop : ℕ) : ℕ → ℕ → Option Bytes32
  | 0, _ => none
  | fuel + 1, q =>
    if q + 4 > stop then none
    else
      let type := be16At b q
      let dlen := be16At b (q + 2)
      if q + 4 + dlen > stop then none
      else
        match if type = 51 then keyShareScan b (q + 4) dlen else none with
        | some pub => some pub
        | none => chWalk b stop fuel (q + 4 + dlen)

def prefixFits (p w n : ℕ) : Bool := p != 0 && p + w ≤ n

/-- The `w`-byte length at `p`. -/
def prefixLen (b : ℕ → UInt8) (p w : ℕ) : ℕ := if w = 1 then (b p).toNat else be16At b p

/-- `skip_vec`: the offset behind a length-prefixed vector, 0 on an overrun. -/
def skipVec (b : ℕ → UInt8) (n p w : ℕ) : ℕ :=
  if !prefixFits p w n then 0
  else
    let p' := p + w + prefixLen b p w
    if p' ≤ n then p' else 0

/-- `sdrv_ch_prefix`: session id, cipher suites and compression methods are skipped; the offset of
the extensions length, 0 on an overrun. -/
def chPrefix (b : ℕ → UInt8) (n : ℕ) : ℕ :=
  let p := skipVec b n 34 1
  let p := skipVec b n p 2
  let p := skipVec b n p 1
  if prefixFits p 2 n then p else 0

/-- `take_client_keyshare`: the client's x25519 key. -/
def takeClientKeyshare (ch : Bytes) (beyond : ℕ → UInt8) : Option Bytes32 :=
  match hsParse ch with
  | none => none
  | some (type, bodyLen) =>
    if type ≠ hsClientHello then none
    else
      let b := fun i => inMemory ch beyond (4 + i)
      let exts := chPrefix b bodyLen
      if exts = 0 then none
      else
        let stop := exts + 2 + be16At b exts
        chWalk b stop (stop + 1) (exts + 2)

/-- `take_client_sid`: the legacy session id. -/
def takeClientSid (ch : Bytes) : Option Bytes :=
  let len := (ch.getD 38 0).toNat
  if ch.length ≥ 39 ∧ len ≤ 32 ∧ ch.length ≥ 39 + len then some ((ch.drop 39).take len) else none

/-! ## The server's messages -/

/-- An extension: type, 16-bit length, data. -/
def extension (type : ℕ) (data : Bytes) : Bytes := putBe 2 type ++ (putBe 2 data.length ++ data)

/-- `quic_shbuild_server_hello` into a buffer of `cap` bytes. -/
def shbuildServerHello (random : Bytes32) (sessionId : Bytes) (cipherSuite : ℕ)
    (serverPub : Bytes32) (cap : ℕ) : Option Bytes := do
  if cap < 4 ∨ 4 + 38 + sessionId.length + 2 > cap then none
  else
    let head := putBe 2 0x0303 ++ random.toList ++ UInt8.ofNat sessionId.length :: sessionId ++
      putBe 2 cipherSuite ++ [0]
    let versions := extension 43 (putBe 2 0x0304)
    let keyShare := extension 51 (putBe 2 0x001d ++ putBe 2 32 ++ serverPub.toList)
    if 4 + head.length + 2 + versions.length + keyShare.length > cap then none
    else
      let exts := versions ++ keyShare
      some (hsMessage hsServerHello (head ++ (putBe 2 exts.length ++ exts)))

/-- The integer transport parameters the server advertises (`int_params`). -/
def intParams : List (ℕ × ℕ) :=
  [(0x01, 30000), (0x04, 1048576), (0x05, 262144), (0x06, 262144), (0x07, 262144), (0x08, 100),
   (0x09, 100)]

/-- `quic_tparam_put_int` behind what was written so far. -/
def tparamPutInt (out : Bytes) (cap : ℕ) (p : ℕ × ℕ) : Option Bytes :=
  let vlen := varintLen p.2
  if vlen = 0 ∨ out.length + (varintLen p.1 + 1 + vlen) > cap then none
  else some (out ++ (varintEncode p.1 ++ (varintEncode vlen ++ varintEncode p.2)))

/-- `quic_tparam_put_blob` behind what was written so far. -/
def tparamPutBlob (out : Bytes) (cap id : ℕ) (val : Bytes) : Option Bytes := do
  let out ← Frame.putVarints out cap [id, val.length]
  putBytes out cap val

def stpBuildServer (originalDcid initialScid : Bytes) (cap : ℕ) : Option Bytes := do
  let out ← tparamPutBlob [] cap 0x00 originalDcid
  let out ← intParams.foldlM (fun out p => tparamPutInt out cap p) out
  tparamPutBlob out cap 0x0f initialScid

/-- The ALPN extension naming `h3` (`quic_salpn_build_response`). -/
def alpnH3 : Bytes := [0x00, 0x10, 0x00, 0x05, 0x00, 0x03, 0x02, 0x68, 0x33]

def eebuildEncryptedExtensions (transportParams : Bytes) (cap : ℕ) : Option Bytes :=
  if transportParams.length ≤ 0xFFFF ∧ 4 + 2 + 9 + 4 + transportParams.length ≤ cap then
    let exts := alpnH3 ++ extension 0x39 transportParams
    some (hsMessage hsEncryptedExt (putBe 2 exts.length ++ exts))
  else none

/-- `quic_sflight_certificate`: one entry without extensions. -/
def sflightCertificate (cert : Bytes) (cap : ℕ) : Option Bytes :=
  if cert.length ≤ 0xFFFFFF ∧ 4 + 1 + 3 + 3 + cert.length + 2 ≤ cap then
    some (hsMessage hsCertificate
      (0 :: (putBe 3 (cert.length + 5) ++ (putBe 3 cert.length ++ (cert ++ [0, 0])))))
  else none

/-- `quic_cvecdsa_signed_content`: what a server's CertificateVerify signs. -/
def signedContent (transcriptHash : Digest) : Bytes :=
  List.replicate 64 0x20 ++ ascii "TLS 1.3, server CertificateVerify" ++ [0] ++
    transcriptHash.toList

/-- `quic_cvecdsa_build`, over the DER encoding `sig` of the signature. -/
def cvecdsaBuild (sig : Option Bytes) (cap : ℕ) : Option Bytes := do
  let der ← sig
  if cap < der.length + 8 then none
  else some (hsMessage hsCertificateVerify (putBe 2 0x0403 ++ (putBe 2 der.length ++ der)))

def sflightFinished (finishedKey transcriptHash : Digest) (cap : ℕ) : Option Bytes :=
  if cap < 4 + 32 then none
  else some (hsMessage hsFinished (finishedVerifyData finishedKey transcriptHash).toList)

/-- `quic_srvfin_verify_client_finished`: a Finished whose body is the expected verify data. -/
def verifyClientFinished (msg : Bytes) (clientHsTraffic transcriptHash : Digest) : Bool :=
  match hsParse msg with
  | none => false
  | some (type, bodyLen) =>
    type == hsFinished && bodyLen == 32 &&
      finishedCheck clientHsTraffic transcriptHash (Bytes.fit 32 (msg.drop 4))

theorem verifyClientFinished_hsMessage (clientHsTraffic transcriptHash : Digest) :
    verifyClientFinished (hsMessage hsFinished
      (finishedVerifyData clientHsTraffic transcriptHash).toList) clientHsTraffic transcriptHash =
        true := by
  set data := finishedVerifyData clientHsTraffic transcriptHash with hdata
  have hparse := hsParse_hsMessage hsFinished data.toList (by simp) []
  have hbody : Bytes.fit 32 ((hsMessage hsFinished data.toList).drop 4) = data := by
    have hdrop : (hsMessage hsFinished data.toList).drop 4 = data.toList := by
      rw [hsMessage, List.drop_succ_cons, List.drop_left' (length_putBe 3 _)]
    rw [hdrop]
    exact Bytes.fit_toList data
  rw [List.append_nil] at hparse
  rw [verifyClientFinished, hparse]
  simp only [hbody, finishedCheck_iff.2 hdata]
  simp

end Tls

end QuicVibe
