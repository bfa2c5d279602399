import QuicVibe.Crypto.ChaPoly
import QuicVibe.Packet.RoundTrip
/-!
# Packet protection under either cipher suite

`quic_protectcs_seal` and `quic_protectcs_open` (`protectcs.c`) pick the AEAD (`aead_suite.c`) and
the header-protection mask (`hp_suite.c`, `hp_chacha.c`) by the cipher suite. `quic_aead_suite_open`
answers with the length of the plaintext, and zero is also its answer for a wrong tag.
-/

namespace QuicVibe

open Crypto

namespace Packet

/-! ## The calls -/

/-- `QUIC_TLS_AES_128_GCM_SHA256` and `QUIC_TLS_CHACHA20_POLY1305_SHA256`. -/
def TLS_AES_128_GCM_SHA256 : ℕ := 0x1301
def TLS_CHACHA20_POLY1305_SHA256 : ℕ := 0x1303

/-- The keys of a call. AES reads the first 16 bytes of a key, ChaCha20 the first 32. -/
structure SuiteKeys where
  key : Bytes
  iv : Nonce
  hpKey : Bytes

/-- `suite_nonce`: the same loop as `quic_protect_nonce`. -/
def suiteNonce (iv : Nonce) (pn : ℕ) : Nonce := protectNonce iv pn

def hpChachaMask (hpKey : ChaCha.Key) (sample : Bytes) : Bytes :=
  (ChaCha.chacha20Block hpKey (ChaCha.rd32 sample) (Bytes.fit 12 (sample.drop 4))).take 5

variable (aes : Block → Block → Block) (mac : ChaCha.Scratch)

def hpSuiteMask (suite : ℕ) (hpKey sample : Bytes) : Option Bytes :=
  if suite = TLS_AES_128_GCM_SHA256 then some (hpMask (aes (Bytes.fit 16 hpKey)) sample)
  else if suite = TLS_CHACHA20_POLY1305_SHA256 then
    some (hpChachaMask (Bytes.fit 32 hpKey) sample)
  else none

/-- `quic_aead_suite_seal`: ciphertext and tag. -/
def aeadSuiteSeal (suite : ℕ) (keys : SuiteKeys) (pn : ℕ) (aad pt : Bytes) : Option Bytes :=
  let nonce := suiteNonce keys.iv pn
  if suite = TLS_AES_128_GCM_SHA256 then
    let (ct, tag) := Gcm.gcmSeal (aes (Bytes.fit 16 keys.key)) nonce aad pt
    some (ct ++ tag.toList)
  else if suite = TLS_CHACHA20_POLY1305_SHA256 then
    let (ct, tag) := ChaCha.chapolySeal mac (Bytes.fit 32 keys.key) nonce aad pt
    some (ct ++ tag.toList)
  else none

/-- `quic_aead_suite_open` in place: the count it answers with, and what stands in the place of the
ciphertext afterwards. -/
def aeadSuiteOpen (suite : ℕ) (keys : SuiteKeys) (pn : ℕ) (aad ct : Bytes)
    (tag : Vector UInt8 16) : ℕ × Bytes :=
  let nonce := suiteNonce keys.iv pn
  let pt :=
    if suite = TLS_AES_128_GCM_SHA256 then
      Gcm.gcmOpen (aes (Bytes.fit 16 keys.key)) nonce aad ct tag
    else if suite = TLS_CHACHA20_POLY1305_SHA256 then
      ChaCha.chapolyOpen mac (Bytes.fit 32 keys.key) nonce aad ct tag
    else none
  match pt with
  | some pt => (ct.length, pt)
  | none => (0, ct)

def formMask (byte0 : UInt8) : UInt8 := if byte0 &&& 0x80 ≠ 0 then hpLongMask else hpShortMask

/-- `quic_protectcs_seal`: the protected packet and `*out_len`. -/
def protectcsSeal (suite : ℕ) (keys : SuiteKeys) (pn : ℕ) (pkt : Bytes)
    (pnOff pnLen payloadLen : ℕ) : Option (Bytes × ℕ) := do
  let hdrLen := pnOff + pnLen
  let out ← aeadSuiteSeal aes mac suite keys pn (pkt.take hdrLen)
    ((pkt.drop hdrLen).take payloadLen)
  let pkt := pkt.take hdrLen ++ out
  let mask ← hpSuiteMask aes suite keys.hpKey (pkt.drop (pnOff + 4))
  return (hpApply mask (formMask (pkt.getD 0 0)) pkt pnOff pnLen, hdrLen + out.length)

def pcsReadPn (pkt : Bytes) (pnOff pnLen : ℕ) : ℕ := readBe ((pkt.drop pnOff).take pnLen)

/-- `pcs_remove_hp`: the packet without header protection, and the length of its packet number. -/
def pcsRemoveHp (suite : ℕ) (hpKey pkt : Bytes) (pnOff : ℕ) : Option (Bytes × ℕ) := do
  let mask ← hpSuiteMask aes suite hpKey (pkt.drop (pnOff + 4))
  let pkt := hpByte0 mask (formMask (pkt.getD 0 0)) pkt
  let pnLen := pnLenOf (pkt.getD 0 0)
  return (hpProtectPn mask pkt pnOff pnLen, pnLen)

/-- `quic_protectcs_open`, on a packet that is at least a header and a tag long. -/
def protectcsOpen (suite : ℕ) (keys : SuiteKeys) (pkt : Bytes) (pnOff : ℕ) : Option Opened := do
  let (pkt, pnLen) ← pcsRemoveHp aes suite keys.hpKey pkt pnOff
  let hdrLen := pnOff + pnLen
  let ctLen := pkt.length - hdrLen - 16
  let (n, pt) := aeadSuiteOpen aes mac suite keys (pcsReadPn pkt pnOff pnLen) (pkt.take hdrLen)
    ((pkt.drop hdrLen).take ctLen) (Bytes.fit 16 (pkt.drop (hdrLen + ctLen)))
  if n = 0 then none
  else some { pkt := pkt.take hdrLen ++ pt ++ pkt.drop (hdrLen + ctLen), payload := pt }

/-! ## One suite at a time -/

/-- The suites with an implementation. -/
def SuiteSupported (suite : ℕ) : Prop :=
  suite = TLS_AES_128_GCM_SHA256 ∨ suite = TLS_CHACHA20_POLY1305_SHA256

theorem length_hpChachaMask (hpKey : ChaCha.Key) (sample : Bytes) :
    (hpChachaMask hpKey sample).length = 5 := by
  rw [hpChachaMask, List.length_take, ChaCha.length_chacha20Block]
  rfl

variable {suite : ℕ}

theorem hpSuiteMask_of_supported (hsuite : SuiteSupported suite) (hpKey : Bytes) :
    ∃ maskOf : Bytes → Bytes, (∀ sample, (maskOf sample).length = 5) ∧
      ∀ sample, hpSuiteMask aes suite hpKey sample = some (maskOf sample) := by
  rcases hsuite with rfl | rfl
  · exact ⟨_, length_hpMask (aes (Bytes.fit 16 hpKey)), fun _ => rfl⟩
  · exact ⟨_, length_hpChachaMask (Bytes.fit 32 hpKey), fun _ => rfl⟩

/-- **Either AEAD opens what it sealed**; ChaCha20-Poly1305 does for what its scratch array holds. -/
theorem aeadSuiteOpen_aeadSuiteSeal (hsuite : SuiteSupported suite) (keys : SuiteKeys) (pn : ℕ)
    {aad pt : Bytes}
    (hfits : suite = TLS_CHACHA20_POLY1305_SHA256 → ChaCha.ScratchFits aad pt) :
    ∃ (ct : Bytes) (tag : Vector UInt8 16), ct.length = pt.length ∧
      aeadSuiteSeal aes mac suite keys pn aad pt = some (ct ++ tag.toList) ∧
      ∀ mac', aeadSuiteOpen aes mac' suite keys pn aad ct tag = (pt.length, pt) := by
  rcases hsuite with rfl | rfl
  · set E := aes (Bytes.fit 16 keys.key) with hE
    have hopen := Gcm.gcmOpen_gcmSeal E (suiteNonce keys.iv pn) aad pt
    have hlen := Gcm.length_gcmSeal E (suiteNonce keys.iv pn) aad pt
    refine ⟨(Gcm.gcmSeal E (suiteNonce keys.iv pn) aad pt).1,
      (Gcm.gcmSeal E (suiteNonce keys.iv pn) aad pt).2, hlen, rfl, fun mac' => ?_⟩
    simp only [aeadSuiteOpen, if_true, ← hE, hopen, hlen]
  · set k : ChaCha.Key := Bytes.fit 32 keys.key with hk
    have hopen := fun mac' => ChaCha.chapolyOpen_chapolySeal mac k (suiteNonce keys.iv pn) mac'
      (hfits rfl)
    have hlen := ChaCha.length_chapolySeal mac k (suiteNonce keys.iv pn) aad pt
    refine ⟨(ChaCha.chapolySeal mac k (suiteNonce keys.iv pn) aad pt).1,
      (ChaCha.chapolySeal mac k (suiteNonce keys.iv pn) aad pt).2, hlen, rfl, fun mac' => ?_⟩
    have hne : TLS_CHACHA20_POLY1305_SHA256 ≠ TLS_AES_128_GCM_SHA256 := by decide
    simp only [aeadSuiteOpen, hne, if_true, if_false, ← hk, hopen mac', hlen]

/-! ## Round trip -/

theorem formMask_masked (b x : UInt8) : formMask (b ^^^ (x &&& formMask b)) = formMask b := by
  have hform : (b ^^^ (x &&& formMask b)) &&& 0x80 = b &&& 0x80 := by
    apply xor_and_of_disjoint
    unfold formMask
    split_ifs <;> rfl
  rw [formMask, hform, formMask]

variable (keys : SuiteKeys) {b : UInt8} (mid : Bytes) {field : Bytes} (pn : ℕ) {payload : Bytes}

/-- **What `quic_protectcs_seal` leaves in the buffer**, and what the opener's AEAD makes of it. -/
theorem protectcsSeal_eq (hsuite : SuiteSupported suite)
    (hfits : suite = TLS_CHACHA20_POLY1305_SHA256 →
      ChaCha.ScratchFits (b :: (mid ++ field)) payload) :
    ∃ (maskOf : Bytes → Bytes) (ct : Bytes) (tag : Vector UInt8 16),
      (∀ sample, (maskOf sample).length = 5) ∧
      (∀ sample, hpSuiteMask aes suite keys.hpKey sample = some (maskOf sample)) ∧
      ct.length = payload.length ∧
      (∀ mac', aeadSuiteOpen aes mac' suite keys pn (b :: (mid ++ field)) ct tag =
        (payload.length, payload)) ∧
      protectcsSeal aes mac suite keys pn (b :: (mid ++ field) ++ payload) (1 + mid.length)
        field.length payload.length =
          some (maskedPacket maskOf (formMask b) b mid field (ct ++ tag.toList),
            1 + mid.length + field.length + (payload.length + 16)) := by
  obtain ⟨maskOf, hmask, hsome⟩ := hpSuiteMask_of_supported aes hsuite keys.hpKey
  obtain ⟨ct, tag, hct, hseal, hopen⟩ :=
    aeadSuiteOpen_aeadSuiteSeal aes mac hsuite keys pn hfits
  refine ⟨maskOf, ct, tag, hmask, hsome, hct, hopen, ?_⟩
  have hhdr : (b :: (mid ++ field)).length = 1 + mid.length + field.length := by
    simp
    omega
  have hsample : (b :: (mid ++ field) ++ (ct ++ tag.toList)).drop (1 + mid.length + 4) =
      (field ++ (ct ++ tag.toList)).drop 4 := by
    have happ : b :: (mid ++ field) ++ (ct ++ tag.toList) =
        (b :: mid) ++ (field ++ (ct ++ tag.toList)) := by simp
    rw [happ, ← List.drop_drop, List.drop_left' (by simp; omega)]
  have hlen : (ct ++ tag.toList).length = payload.length + 16 := by simp [hct]
  simp only [protectcsSeal, List.take_left' hhdr, List.drop_left' hhdr, List.take_length, hseal,
    hsome, hsample, hlen, Option.bind_eq_bind, Option.bind_some, Option.pure_def]
  rw [maskedPacket]
  simp

theorem protectcsOpen_maskedPacket {maskOf : Bytes → Bytes} {ct : Bytes} {tag : Vector UInt8 16}
    (hmask : ∀ sample, (maskOf sample).length = 5)
    (hsome : ∀ sample, hpSuiteMask aes suite keys.hpKey sample = some (maskOf sample))
    (hfield : pnLenOf b = field.length)
    (hopen : aeadSuiteOpen aes mac suite keys (readBe field) (b :: (mid ++ field)) ct tag =
      (ct.length, payload)) :
    protectcsOpen aes mac suite keys (maskedPacket maskOf (formMask b) b mid field
      (ct ++ tag.toList)) (1 + mid.length) =
        if ct.length = 0 then none
        else some { pkt := b :: (mid ++ field) ++ payload ++ tag.toList, payload := payload } := by
  have hfour : field.length ≤ 4 := hfield ▸ pnLenOf_le b
  set body := ct ++ tag.toList with hbody
  have hbyte0 := getD_hpByte0_maskedPacket (formMask b) b mid body hmask hfour
  have hunmask := hpApply_maskedPacket (formMask b) b mid body hmask hfour
  have hform : formMask ((maskedPacket maskOf (formMask b) b mid field body).getD 0 0) =
      formMask b := by
    rw [maskedPacket_eq]
    exact formMask_masked b _
  rw [hpApply] at hunmask
  have hremove : pcsRemoveHp aes suite keys.hpKey (maskedPacket maskOf (formMask b) b mid field body)
      (1 + mid.length) = some (b :: (mid ++ field) ++ body, field.length) := by
    simp only [pcsRemoveHp, hsome, hform, hbyte0, hfield, hunmask, Option.bind_eq_bind,
      Option.bind_some, Option.pure_def]
  have hhdr : (b :: (mid ++ field)).length = 1 + mid.length + field.length := by
    simp
    omega
  have hlen : (b :: (mid ++ field) ++ body).length - (1 + mid.length + field.length) - 16 =
      ct.length := by
    rw [List.length_append, hhdr, hbody, List.length_append, Vector.length_toList]
    omega
  have htag : (b :: (mid ++ field) ++ body).drop (1 + mid.length + field.length + ct.length) =
      tag.toList := by
    rw [← List.drop_drop, List.drop_left' hhdr, hbody, List.drop_left]
  simp only [protectcsOpen, hremove, Option.bind_eq_bind, Option.bind_some, hlen, htag, pcsReadPn,
    take_field_unmasked, List.take_left' hhdr, List.drop_left' hhdr, Bytes.fit_toList]
  rw [hbody, List.take_left, hopen]

/-- **Suite-generic protection round trip.** For either suite, any block function in place of AES, a
long or short header whose byte 0 announces the length of the packet number field, a field that
holds the whole packet number, and a payload that fits: sealing succeeds and the sample lies in the
packet. Opening it restores the header and returns the payload exactly if the payload is not empty. -/
theorem protectcs_round_trip_iff (mac' : ChaCha.Scratch) (hsuite : SuiteSupported suite)
    (hfield : pnLenOf b = field.length) (hpn : readBe field = pn) (hmin : 4 ≤ field.length + payload.length)
    (hfits : suite = TLS_CHACHA20_POLY1305_SHA256 →
      ChaCha.ScratchFits (b :: (mid ++ field)) payload) :
    ∃ out, protectcsSeal aes mac suite keys pn (b :: (mid ++ field) ++ payload) (1 + mid.length)
        field.length payload.length = some (out, out.length) ∧
      1 + mid.length + 4 + 16 ≤ out.length ∧
      ((∃ o, protectcsOpen aes mac' suite keys out (1 + mid.length) = some o ∧
          o.pkt.take (1 + mid.length + field.length) = b :: (mid ++ field) ∧
          o.payload = payload) ↔
        payload ≠ []) := by
  obtain ⟨maskOf, ct, tag, hmask, hsome, hct, hopen, hseal⟩ :=
    protectcsSeal_eq aes mac keys mid pn hsuite hfits
  have hlen : (maskedPacket maskOf (formMask b) b mid field (ct ++ tag.toList)).length =
      1 + mid.length + field.length + (payload.length + 16) := by
    rw [length_maskedPacket _ _ _ _ hmask (hfield ▸ pnLenOf_le b), List.length_append, hct,
      Vector.length_toList]
  have hopened := protectcsOpen_maskedPacket aes mac' keys mid hmask hsome hfield
    (by rw [hpn, hopen mac', hct])
  refine ⟨_, by rw [hlen]; exact hseal, by omega, ?_⟩
  rw [hopened, hct, ← List.length_pos_iff]
  constructor
  · rintro ⟨o, ho, -, -⟩
    by_contra hzero
    rw [if_pos (by omega)] at ho
    cases ho
  · intro hpos
    refine ⟨_, if_neg (by omega), ?_, rfl⟩
    rw [List.append_assoc, List.take_left' (by simp; omega)]

/-- A short header with a 1-byte packet number, under ChaCha20-Poly1305. -/
theorem protectcs_round_trip_chacha :
    let keys : SuiteKeys := ⟨List.replicate 32 1, Vector.replicate 12 2, List.replicate 32 3⟩
    let mac : ChaCha.Scratch := Vector.replicate _ 0
    ∃ out, protectcsSeal (fun _ b => b) mac TLS_CHACHA20_POLY1305_SHA256 keys 7
        (0x40 :: ([0xaa] ++ [7]) ++ [1, 2, 3]) (1 + [(0xaa : UInt8)].length) [(7 : UInt8)].length
        [(1 : UInt8), 2, 3].length = some (out, out.length) ∧
      1 + [(0xaa : UInt8)].length + 4 + 16 ≤ out.length ∧
      ((∃ o, protectcsOpen (fun _ b => b) mac TLS_CHACHA20_POLY1305_SHA256 keys out
            (1 + [(0xaa : UInt8)].length) = some o ∧
          o.pkt.take (1 + [(0xaa : UInt8)].length + [(7 : UInt8)].length) =
            0x40 :: ([0xaa] ++ [7]) ∧ o.payload = [1, 2, 3]) ↔
        [(1 : UInt8), 2, 3] ≠ []) := by
  intro keys mac
  exact protectcs_round_trip_iff (fun _ b => b) mac keys [0xaa] 7 mac (Or.inr rfl) (by decide)
    (by decide) (by decide) fun _ => ChaCha.scratchFits_of_le (by decide)

/-- Under AES-128-GCM a header with a 4-byte packet number and no payload is sealed to 21 bytes,
which do not open. -/
theorem protectcsOpen_no_payload :
    let keys : SuiteKeys := ⟨List.replicate 16 1, Vector.replicate 12 2, List.replicate 16 3⟩
    let mac : ChaCha.Scratch := Vector.replicate _ 0
    ∃ out, protectcsSeal (fun _ b => b) mac TLS_AES_128_GCM_SHA256 keys 7 [0x43, 0, 0, 0, 7] 1 4 0 =
        some (out, 21) ∧
      protectcsOpen (fun _ b => b) mac TLS_AES_128_GCM_SHA256 keys out 1 = none := by
  intro keys mac
  have hfits : TLS_AES_128_GCM_SHA256 = TLS_CHACHA20_POLY1305_SHA256 →
      ChaCha.ScratchFits (0x43 :: ([] ++ [0, 0, 0, 7])) [] := nofun
  obtain ⟨maskOf, ct, tag, hmask, hsome, hct, hopen, hseal⟩ :=
    protectcsSeal_eq (fun _ b => b) mac keys [] 7 (Or.inl rfl) hfits
  refine ⟨_, hseal, ?_⟩
  rw [List.length_nil] at hct
  exact (protectcsOpen_maskedPacket (fun _ b => b) mac keys [] hmask hsome rfl
    (by rw [hct]; exact hopen mac)).trans (if_pos hct)

end Packet

end QuicVibe
