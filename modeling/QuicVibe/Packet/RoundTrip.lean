import QuicVibe.Packet.Protect
/-!
# Packets open to what was sealed

What one side seals, the other side opens to the same payload, for any block function in place of
AES. Header protection is its own inverse because the sample lies behind the packet number.
-/

namespace QuicVibe

open Crypto

namespace Packet

/-! ## Header protection -/

@[simp] theorem length_hpMask (hp : Block → Block) (sample : Bytes) :
    (hpMask hp sample).length = 5 := by
  simp [hpMask]

theorem hpProtectPn_append (mask pre pn body : Bytes) :
    hpProtectPn mask (pre ++ (pn ++ body)) pre.length pn.length =
      pre ++ (xorBytes pn (mask.drop 1) ++ body) := by
  have h₁ : (pre ++ (pn ++ body)).drop (pre.length + pn.length) = body := by
    rw [← List.append_assoc, ← List.length_append, List.drop_left]
  simp [hpProtectPn, h₁]

theorem hpApply_eq (mask : Bytes) (bits b : UInt8) (mid field body : Bytes) :
    hpApply mask bits (b :: (mid ++ (field ++ body))) (1 + mid.length) field.length =
      (b ^^^ (mask.getD 0 0 &&& bits)) :: (mid ++ (xorBytes field (mask.drop 1) ++ body)) := by
  have := hpProtectPn_append mask ((b ^^^ (mask.getD 0 0 &&& bits)) :: mid) field body
  rw [List.length_cons, Nat.add_comm] at this
  simpa [hpApply, hpByte0] using this

theorem hpApply_hpApply {mask : Bytes} (bits b : UInt8) (mid : Bytes) {field : Bytes}
    (body : Bytes) (hmask : mask.length = 5) (hfield : field.length ≤ 4) :
    hpApply mask bits
      (hpApply mask bits (b :: (mid ++ (field ++ body))) (1 + mid.length) field.length)
      (1 + mid.length) field.length = b :: (mid ++ (field ++ body)) := by
  have hle : field.length ≤ (mask.drop 1).length := by
    rw [List.length_drop]
    omega
  have hlen : (xorBytes field (mask.drop 1)).length = field.length := by
    rw [length_xorBytes, Nat.min_eq_left hle]
  have hback := hpApply_eq mask bits (b ^^^ (mask.getD 0 0 &&& bits)) mid
    (xorBytes field (mask.drop 1)) body
  rw [hlen] at hback
  rw [hpApply_eq, hback, xorBytes_xorBytes hle, UInt8.xor_assoc, UInt8.xor_self, UInt8.xor_zero]

/-- A packet masked under the mask of its own sample, the bytes from the fourth on behind the start
of the packet number field, wherever that field ends. -/
def maskedPacket (maskOf : Bytes → Bytes) (bits b : UInt8) (mid field body : Bytes) : Bytes :=
  hpApply (maskOf ((field ++ body).drop 4)) bits (b :: (mid ++ (field ++ body))) (1 + mid.length)
    field.length

section

variable (maskOf : Bytes → Bytes) (bits b : UInt8) (mid field body : Bytes)

theorem maskedPacket_eq :
    maskedPacket maskOf bits b mid field body =
      (b ^^^ ((maskOf ((field ++ body).drop 4)).getD 0 0 &&& bits)) ::
        (mid ++ (xorBytes field ((maskOf ((field ++ body).drop 4)).drop 1) ++ body)) :=
  hpApply_eq _ _ _ _ _ _

variable {maskOf field} (hmask : ∀ sample, (maskOf sample).length = 5) (hfield : field.length ≤ 4)
include hmask hfield

theorem length_xorBytes_mask (sample : Bytes) :
    (xorBytes field ((maskOf sample).drop 1)).length = field.length := by
  rw [length_xorBytes, List.length_drop, hmask]
  omega

theorem length_maskedPacket :
    (maskedPacket maskOf bits b mid field body).length =
      1 + mid.length + field.length + body.length := by
  rw [maskedPacket_eq]
  simp only [List.length_cons, List.length_append, length_xorBytes_mask hmask hfield]
  omega

/-- **The sample survives the mask**: the packet number field ends before it begins. -/
theorem drop_maskedPacket :
    (maskedPacket maskOf bits b mid field body).drop (1 + mid.length + 4) =
      (field ++ body).drop 4 := by
  have hskip : ∀ (b' : UInt8) (f : Bytes), f.length = field.length →
      (b' :: (mid ++ (f ++ body))).drop (1 + mid.length + 4) = body.drop (4 - field.length) := by
    intro b' f hf
    have happ : b' :: (mid ++ (f ++ body)) = (b' :: (mid ++ f)) ++ body := by simp
    rw [happ, List.drop_append, List.drop_eq_nil_of_le (by simp; omega), List.nil_append]
    congr 1
    simp
    omega
  rw [maskedPacket_eq, hskip _ _ (length_xorBytes_mask hmask hfield _), List.drop_append,
    List.drop_eq_nil_of_le hfield, List.nil_append]

theorem getD_hpByte0_maskedPacket :
    (hpByte0 (maskOf ((maskedPacket maskOf bits b mid field body).drop (1 + mid.length + 4))) bits
      (maskedPacket maskOf bits b mid field body)).getD 0 0 = b := by
  rw [drop_maskedPacket _ _ _ _ hmask hfield, maskedPacket_eq]
  simp [hpByte0]

theorem hpApply_maskedPacket :
    hpApply (maskOf ((maskedPacket maskOf bits b mid field body).drop (1 + mid.length + 4))) bits
      (maskedPacket maskOf bits b mid field body) (1 + mid.length) field.length =
        b :: (mid ++ field) ++ body := by
  rw [drop_maskedPacket _ _ _ _ hmask hfield, maskedPacket, hpApply_hpApply _ _ _ _ (hmask _) hfield]
  simp

end

theorem take_field_unmasked (b : UInt8) (mid field body : Bytes) :
    ((b :: (mid ++ field) ++ body).drop (1 + mid.length)).take field.length = field := by
  have : b :: (mid ++ field) ++ body = (b :: mid) ++ (field ++ body) := by simp
  rw [this, List.drop_left' (by simp; omega), List.take_left]

/-! ## The AEAD over a packet -/

variable (aes : Block → Block → Block) (keys : InitialKeys)

theorem aeadOpen_seal (hdr payload : Bytes) (pn : ℕ) :
    let sealed := Gcm.gcmSeal (aes keys.key) (protectNonce keys.iv pn) hdr payload
    aeadOpen aes keys (hdr ++ (sealed.1 ++ sealed.2.toList)) hdr.length payload.length pn =
      some { pkt := hdr ++ payload ++ sealed.2.toList, payload := payload } := by
  intro sealed
  have hct : sealed.1.length = payload.length := Gcm.length_gcmSeal _ _ _ _
  have htag : (hdr ++ (sealed.1 ++ sealed.2.toList)).drop (hdr.length + payload.length) =
      sealed.2.toList := by
    rw [← List.append_assoc, ← hct, ← List.length_append, List.drop_left]
  have hopen := Gcm.gcmOpen_gcmSeal (aes keys.key) (protectNonce keys.iv pn) hdr payload
  rw [aeadOpen, htag, List.take_left, List.drop_left, List.take_left' hct, Bytes.fit_toList]
  simp only [sealed, hopen, Option.bind_eq_bind, Option.bind_some, Option.pure_def]

/-! ## The long header -/

/-- A connection id on the wire. -/
def cidField (cid : Bytes) : Bytes := UInt8.ofNat cid.length :: cid

/-- The Token field; only Initial packets have one. -/
def tokenField (isInitial : Bool) (token : Bytes) : Bytes :=
  if isInitial then varintEncode token.length ++ token else []

/-- The long header between byte 0 and the packet number. -/
def lhdrMid (version : ℕ) (dcid scid : Bytes) (isInitial : Bool) (token : Bytes) (length : ℕ) :
    Bytes :=
  putBe 4 version ++ (cidField dcid ++ (cidField scid ++
    (tokenField isInitial token ++ varintEncode length)))

@[simp] theorem length_cidField (cid : Bytes) : (cidField cid).length = 1 + cid.length := by
  simp [cidField, Nat.add_comm]

variable {cap pnLen payloadLen pn : ℕ} {byte0 b : UInt8} {dcid scid out token frames : Bytes}
  {isInitial : Bool} {h : LongHeader} {version total : ℕ} {hdr buf cid : Bytes} {hp : Block → Block}

/-- The connection ids go behind byte 0 and the version, or what was written is too short. -/
theorem headerBuildLong_spec :
    if 5 + 1 + h.dcid.length + 1 + h.scid.length ≤ cap then
      headerBuildLong cap h = ((0xC0 : UInt8) ||| (h.longType <<< 4)) ::
        (putBe 4 h.version ++ (cidField h.dcid ++ cidField h.scid))
    else (headerBuildLong cap h).length ≠ 5 + 1 + h.dcid.length + 1 + h.scid.length := by
  have hcid : ∀ buf cid : Bytes, (writeCid buf cap cid).getD [] =
      if buf.length + 1 + cid.length ≤ cap then buf ++ cidField cid else [] := by
    intro buf cid
    rw [writeCid]
    by_cases hfit : buf.length + 1 + cid.length ≤ cap
    · rw [if_neg (by omega), if_pos hfit]
      rfl
    · rw [if_pos (by omega), if_neg hfit]
      rfl
  by_cases hpre : cap < 5
  · rw [if_neg (by omega)]
    simp [headerBuildLong, putLongPrefix, hpre]
    omega
  simp only [headerBuildLong, putLongPrefix, if_neg hpre, writeCids, List.foldl_cons,
    List.foldl_nil, hcid, List.length_cons, length_putBe]
  by_cases hfits : 5 + 1 + h.dcid.length + 1 + h.scid.length ≤ cap
  · simp only [if_pos hfits, List.length_append, List.length_cons, length_putBe, length_cidField,
      if_pos (show 4 + 1 + 1 + h.dcid.length ≤ cap by omega)]
    rw [if_pos (by omega), if_pos (by omega)]
    simp
  · -- an overflow leaves at most one connection id
    rw [if_neg hfits]
    split_ifs <;> simp at * <;> omega

theorem lhdrPutPrefix_eq_some :
    lhdrPutPrefix cap byte0 version dcid scid pnLen = some out ↔
      dcid.length ≤ maxCidLen ∧ scid.length ≤ maxCidLen ∧
        5 + 1 + dcid.length + 1 + scid.length ≤ cap ∧
        lhdrByte0Pnlen byte0 pnLen :: (putBe 4 version ++ (cidField dcid ++ cidField scid)) = out := by
  have hspec := @headerBuildLong_spec cap ⟨0, version, dcid, scid⟩
  rw [lhdrPutPrefix]
  by_cases hcid : dcid.length ≤ maxCidLen ∧ scid.length ≤ maxCidLen
  · rw [if_pos hcid]
    by_cases hfits : 5 + 1 + dcid.length + 1 + scid.length ≤ cap
    · rw [if_pos hfits] at hspec
      rw [hspec, if_neg (by simp; omega)]
      simp [hcid, hfits]
    · rw [if_neg hfits] at hspec
      rw [if_pos hspec]
      simp [hfits]
  · rw [if_neg hcid, ← and_assoc]
    simp [hcid]

theorem putToken_eq_some {out' : Bytes} :
    putToken out cap isInitial token = some out' ↔
      (isInitial = true → token.length ≤ varintMax ∧
        (out ++ tokenField isInitial token).length ≤ cap) ∧
        out ++ tokenField isInitial token = out' := by
  cases isInitial with
  | false => simp [putToken, tokenField]
  | true =>
    simp only [putToken, inittokenPut, Bool.not_true, Bool.false_eq_true, if_false, tokenField,
      if_true, true_implies, Option.bind_eq_bind]
    constructor
    · intro h
      obtain ⟨w, h, hout⟩ := Option.bind_eq_some_iff.1 h
      obtain ⟨l, hput, hw⟩ := Option.bind_eq_some_iff.1 h
      obtain ⟨hmax, rfl, hlen⟩ := varintPut_eq_some hput
      obtain ⟨hfit, rfl⟩ := putBytes_eq_some.1 hw
      obtain rfl := Option.some.inj hout
      have hpos := varintLen_pos hmax
      simp only [List.nil_append, List.length_append, length_varintEncode] at hfit ⊢
      exact ⟨⟨hmax, by omega⟩, by simp⟩
    · rintro ⟨⟨hmax, hlen⟩, rfl⟩
      simp only [List.length_append, length_varintEncode] at hlen
      rw [varintPut_eq hmax (by rw [List.length_nil]; omega), Option.bind_some,
        putBytes_eq_some.2 ⟨by simp; omega, rfl⟩]
      simp

/-- **A built long header** is byte 0, the fields of `lhdrMid`, and the packet number; it fails only
for an illegal connection id, for a length no varint holds, or for want of room. -/
theorem lhdrBuild_eq_some :
    lhdrBuild byte0 version dcid scid isInitial token payloadLen pn pnLen cap = some hdr ↔
      dcid.length ≤ maxCidLen ∧ scid.length ≤ maxCidLen ∧
      (isInitial = true → token.length ≤ varintMax) ∧ pnLen + payloadLen + 16 ≤ varintMax ∧
      hdr.length ≤ cap ∧
      lhdrByte0Pnlen byte0 pnLen ::
        (lhdrMid version dcid scid isInitial token (pnLen + payloadLen + 16) ++ putBe pnLen pn) =
          hdr := by
  simp only [lhdrBuild, putLenPn, Option.bind_eq_bind, Option.bind_eq_some_iff, pnumEncode]
  constructor
  · rintro ⟨out₁, h₁, out₂, h₂, out₃, hput, h₃⟩
    obtain ⟨hd, hs, -, rfl⟩ := lhdrPutPrefix_eq_some.1 h₁
    obtain ⟨ht, rfl⟩ := putToken_eq_some.1 h₂
    obtain ⟨hmax, rfl, -⟩ := varintPut_eq_some hput
    obtain ⟨hcap, h₃⟩ := Option.ite_none_left_eq_some.1 h₃
    obtain rfl := Option.some.inj h₃
    refine ⟨hd, hs, fun hi => (ht hi).1, hmax, ?_, by simp [lhdrMid]⟩
    rw [List.length_append, length_putBe]
    omega
  · rintro ⟨hd, hs, ht, hmax, hcap, rfl⟩
    simp only [lhdrMid, List.length_cons, List.length_append, length_putBe, length_cidField,
      length_varintEncode] at hcap
    refine ⟨_, lhdrPutPrefix_eq_some.2 ⟨hd, hs, by omega, rfl⟩, _, putToken_eq_some.2
      ⟨fun hi => ⟨ht hi, by simp; omega⟩, rfl⟩, _, varintPut_eq hmax (by simp; omega), ?_⟩
    rw [if_neg (by simp; omega)]
    simp [lhdrMid]

/-- Without a token the header fits the buffer it is built in. -/
theorem length_lhdrMid_le {length : ℕ} (isInitial : Bool) (hd : dcid.length ≤ maxCidLen)
    (hs : scid.length ≤ maxCidLen) :
    1 + (lhdrMid 1 dcid scid isInitial [] length).length + 4 ≤ 64 + 2 * maxCidLen := by
  have hcid : maxCidLen = 20 := rfl
  have hlen : varintLen length ≤ 8 := by
    simp only [varintLen]
    split_ifs <;> omega
  have hfield : (tokenField isInitial []).length ≤ 1 := by
    cases isInitial <;> decide
  simp only [lhdrMid, List.length_append, length_putBe, length_cidField, length_varintEncode]
  omega

theorem readCid_of_drop {rest : Bytes} {off : ℕ} (hcid : cid.length ≤ maxCidLen)
    (hdrop : buf.drop off = cidField cid ++ rest) :
    readCid buf off = some (cid, off + (1 + cid.length)) := by
  have hmax : maxCidLen = 20 := rfl
  have hnat : (UInt8.ofNat cid.length).toNat = cid.length := by
    rw [UInt8.toNat_ofNat']
    omega
  have hhead : buf[off]? = some (UInt8.ofNat cid.length) := by
    rw [← List.head?_drop, hdrop]
    rfl
  have htail : buf.drop (off + 1) = cid ++ rest := by
    rw [← List.drop_drop, hdrop]
    rfl
  have hlen : buf.length = off + (1 + cid.length + rest.length) := by
    have h₁ := congrArg List.length hdrop
    have h₂ : off < buf.length := (List.getElem?_eq_some_iff.1 hhead).1
    simp only [List.length_drop, List.length_append, length_cidField] at h₁
    omega
  simp only [readCid, hhead, hnat]
  rw [if_pos ⟨hcid, by omega⟩, htail, List.take_left]
  simp [Nat.add_assoc]

theorem inittokenGet_append (ht : token.length ≤ varintMax) (rest : Bytes) :
    inittokenGet (tokenField true token ++ rest) =
      some (token, varintLen token.length + token.length) := by
  have hbuf : tokenField true token ++ rest = varintEncode token.length ++ (token ++ rest) := by
    simp [tokenField]
  have htake : varintTake (varintEncode token.length ++ (token ++ rest)) 0 = some _ :=
    varintTake_of_drop 0 ht rfl
  have hskip : (varintEncode token.length ++ (token ++ rest)).drop (varintLen token.length) =
      token ++ rest := List.drop_left' (length_varintEncode _)
  rw [Nat.zero_add] at htake
  simp only [inittokenGet, hbuf, htake, Option.bind_eq_bind, Option.bind_some, hskip,
    List.take_left]
  rw [if_pos (by simp)]

/-- **Parsing a long header** followed by anything gives its fields back and the offset of the
packet number. -/
theorem lhdrParse_mid (version : ℕ) (isInitial : Bool) (token : Bytes) {length : ℕ} (rest : Bytes)
    (hb : b &&& 0x80 ≠ 0) (hd : dcid.length ≤ maxCidLen) (hs : scid.length ≤ maxCidLen)
    (ht : isInitial = true → token.length ≤ varintMax) (hl : length ≤ varintMax) :
    lhdrParse (b :: (lhdrMid version dcid scid isInitial token length ++ rest)) isInitial =
      some { dcid := dcid, scid := scid, token := if isInitial then token else [],
             length := length,
             pnOff := 1 + (lhdrMid version dcid scid isInitial token length).length } := by
  set pkt := b :: (lhdrMid version dcid scid isInitial token length ++ rest) with hpkt
  have hlong : isLongHeader pkt = true := by simp [isLongHeader, hpkt, hb]
  have hdrop₅ : pkt.drop 5 = cidField dcid ++ (cidField scid ++ (tokenField isInitial token ++
      (varintEncode length ++ rest))) := by
    rw [hpkt, List.drop_succ_cons, lhdrMid, List.append_assoc,
      List.drop_left' (length_putBe 4 version)]
    simp
  have hdcid := readCid_of_drop hd hdrop₅
  have hdrop₆ : pkt.drop (5 + (1 + dcid.length)) = cidField scid ++
      (tokenField isInitial token ++ (varintEncode length ++ rest)) := by
    rw [← List.drop_drop, hdrop₅, List.drop_left' (length_cidField dcid)]
  have hscid := readCid_of_drop hs hdrop₆
  have hdrop₇ : pkt.drop (5 + (1 + dcid.length) + (1 + scid.length)) =
      tokenField isInitial token ++ (varintEncode length ++ rest) := by
    rw [← List.drop_drop, hdrop₆, List.drop_left' (length_cidField scid)]
  have htoken : readToken pkt isInitial (5 + (1 + dcid.length) + (1 + scid.length)) =
      some (if isInitial then token else [],
        5 + (1 + dcid.length) + (1 + scid.length) + (tokenField isInitial token).length) := by
    cases isInitial with
    | false => simp [readToken, tokenField]
    | true =>
      have hget := inittokenGet_append (ht rfl) (varintEncode length ++ rest)
      simp only [readToken, hdrop₇, hget, Bool.not_true, Bool.false_eq_true, if_false,
        Option.bind_eq_bind, Option.bind_some, Option.pure_def, if_true]
      simp [tokenField]
  have hdrop₈ : pkt.drop (5 + (1 + dcid.length) + (1 + scid.length) +
      (tokenField isInitial token).length) = varintEncode length ++ rest := by
    rw [← List.drop_drop, hdrop₇, List.drop_left]
  have hlength := varintTake_of_drop _ hl hdrop₈
  simp only [lhdrParse, hlong, Bool.not_true, Bool.false_eq_true, if_false, parseLong, hdcid,
    hscid, htoken, hlength, Option.bind_eq_bind, Option.bind_some, Option.pure_def]
  simp [lhdrMid]
  omega

/-! ## Long-header packets -/

theorem xor_and_of_disjoint {x bits m : UInt8} (h : bits &&& m = 0) :
    (b ^^^ (x &&& bits)) &&& m = b &&& m := by
  rw [xor_and_distrib, UInt8.and_assoc, h, UInt8.and_zero, UInt8.xor_zero]

theorem lhdrByte0Pnlen_form (byte0 : UInt8) (pnLen : ℕ) :
    lhdrByte0Pnlen byte0 pnLen &&& 0x80 = byte0 &&& 0x80 := by
  have h₁ : (0xFC &&& 0x80 : UInt8) = 0x80 := rfl
  have h₂ : (0x3 &&& 0x80 : UInt8) = 0 := rfl
  rw [lhdrByte0Pnlen, or_and_distrib, UInt8.and_assoc, UInt8.and_assoc, h₁, h₂, UInt8.and_zero,
    UInt8.or_zero]

/-- **Long header round trip.** For a byte 0 of any long packet type, any version, connection ids
of a legal length, and a token and a Length a varint holds: in a buffer with room
`quic_lhdr_build` produces a header, and `quic_lhdr_parse` of it, whatever follows, returns the
same connection ids, token and Length and the offset of the packet number. -/
theorem lhdrParse_lhdrBuild (byte0 : UInt8) (version : ℕ) (dcid scid : Bytes) (isInitial : Bool)
    (token : Bytes) (payloadLen pn pnLen cap : ℕ) (payload : Bytes) (hform : byte0 &&& 0x80 ≠ 0)
    (hd : dcid.length ≤ maxCidLen) (hs : scid.length ≤ maxCidLen)
    (ht : isInitial = true → token.length ≤ varintMax)
    (hmax : pnLen + payloadLen + 16 ≤ varintMax)
    (hcap : 1 + (lhdrMid version dcid scid isInitial token (pnLen + payloadLen + 16)).length +
      pnLen ≤ cap) :
    ∃ hdr, lhdrBuild byte0 version dcid scid isInitial token payloadLen pn pnLen cap = some hdr ∧
      hdr.drop (hdr.length - pnLen) = pnumEncode pn pnLen ∧
      lhdrParse (hdr ++ payload) isInitial =
        some { dcid := dcid, scid := scid, token := if isInitial then token else [],
               length := pnLen + payloadLen + 16, pnOff := hdr.length - pnLen } := by
  set mid := lhdrMid version dcid scid isInitial token (pnLen + payloadLen + 16) with hmid
  have hbuild : lhdrBuild byte0 version dcid scid isInitial token payloadLen pn pnLen cap =
      some (lhdrByte0Pnlen byte0 pnLen :: (mid ++ putBe pnLen pn)) :=
    lhdrBuild_eq_some.2 ⟨hd, hs, ht, hmax, by simp; omega, rfl⟩
  have hform' : lhdrByte0Pnlen byte0 pnLen &&& 0x80 ≠ 0 := by
    rw [lhdrByte0Pnlen_form]
    exact hform
  have hoff : (lhdrByte0Pnlen byte0 pnLen :: (mid ++ putBe pnLen pn)).length - pnLen =
      1 + mid.length := by
    simp
    omega
  have hparse := lhdrParse_mid version isInitial token (putBe pnLen pn ++ payload) hform' hd hs ht
    hmax
  refine ⟨lhdrByte0Pnlen byte0 pnLen :: (mid ++ putBe pnLen pn), hbuild, ?_, ?_⟩
  · have hlen : (lhdrByte0Pnlen byte0 pnLen :: mid).length = 1 + mid.length := by
      rw [List.length_cons, Nat.add_comm]
    rw [hoff, ← List.cons_append, List.drop_left' hlen, pnumEncode]
  · rw [hoff, List.cons_append, List.append_assoc]
    exact hparse

/-- An Initial header with a 3-byte token and a 2-byte packet number, in front of two bytes. -/
theorem lhdrParse_lhdrBuild_initial :
    ∃ hdr, lhdrBuild 0xc0 1 [1, 2] [3] true [7, 8, 9] 100 300 2 64 = some hdr ∧
      hdr.drop (hdr.length - 2) = pnumEncode 300 2 ∧
      lhdrParse (hdr ++ [5, 6]) true =
        some { dcid := [1, 2], scid := [3], token := [7, 8, 9], length := 118,
               pnOff := hdr.length - 2 } :=
  lhdrParse_lhdrBuild 0xc0 1 [1, 2] [3] true [7, 8, 9] 100 300 2 64 [5, 6] (by decide) (by decide)
    (by decide) (by decide) (by decide) (by decide)

theorem lhdrByte0Pnlen_type (byte0 : UInt8) :
    (lhdrByte0Pnlen byte0 txPnLen >>> 4) &&& (0x3 : UInt8) = (byte0 >>> 4) &&& 0x3 := by
  have h : ∀ n < 256, (lhdrByte0Pnlen (UInt8.ofNat n) txPnLen >>> 4) &&& (0x3 : UInt8) =
      (UInt8.ofNat n >>> 4) &&& 0x3 := by decide +kernel
  simpa using h byte0.toNat byte0.toNat_lt

theorem pnLenOf_le (b : UInt8) : pnLenOf b ≤ 4 := by
  have h : b.toNat &&& 3 ≤ 3 := Nat.and_le_right
  rw [pnLenOf, UInt8.toNat_and, show (0x03 : UInt8).toNat = 3 from rfl]
  omega

theorem pnLenOf_lhdrByte0 (byte0 : UInt8) : pnLenOf (lhdrByte0Pnlen byte0 txPnLen) = 4 := by
  have h : lhdrByte0Pnlen byte0 txPnLen &&& 0x03 = 3 := by
    rw [lhdrByte0Pnlen, or_and_distrib, UInt8.and_assoc, show (0xFC &&& 0x03 : UInt8) = 0 from rfl]
    simp [txPnLen]
  rw [pnLenOf, h]
  rfl

/-- The payload of a packet sealed under `hdr`, with its tag. -/
def sealedBody (keys : InitialKeys) (hdr : Bytes) (pn : ℕ) (payload : Bytes) : Bytes :=
  let sealed := Gcm.gcmSeal (aes keys.key) (protectNonce keys.iv pn) hdr payload
  sealed.1 ++ sealed.2.toList

@[simp] theorem length_sealedBody (hdr : Bytes) (pn : ℕ) (payload : Bytes) :
    (sealedBody aes keys hdr pn payload).length = payload.length + 16 := by
  simp [sealedBody]

/-- A packet with a 4-byte packet number, sealed under its header and header-protected. -/
def protectedPacket (keys : InitialKeys) (hp : Block → Block) (bits b : UInt8) (mid : Bytes)
    (pn : ℕ) (payload : Bytes) : Bytes :=
  let body := sealedBody aes keys (b :: (mid ++ putBe 4 pn)) pn payload
  hpApply (hpMask hp body) bits (b :: (mid ++ (putBe 4 pn ++ body))) (1 + mid.length) 4

/-- The same packet as opening leaves it: header and payload in the clear, the tag behind them. -/
def openedPacket (keys : InitialKeys) (b : UInt8) (mid : Bytes) (pn : ℕ) (payload : Bytes) :
    Opened where
  pkt := b :: (mid ++ putBe 4 pn) ++ payload ++
    (Gcm.gcmSeal (aes keys.key) (protectNonce keys.iv pn) (b :: (mid ++ putBe 4 pn))
      payload).2.toList
  payload := payload

section

variable (keys : InitialKeys) (hp : Block → Block) (bits b : UInt8) (mid : Bytes) (pn : ℕ)
  (payload : Bytes)

theorem protectedPacket_eq_masked :
    protectedPacket aes keys hp bits b mid pn payload =
      maskedPacket (hpMask hp) bits b mid (putBe 4 pn)
        (sealedBody aes keys (b :: (mid ++ putBe 4 pn)) pn payload) := by
  rw [protectedPacket, maskedPacket, List.drop_left' (length_putBe 4 pn), length_putBe]

theorem protectedPacket_eq : ∃ b' pn', b' = b ^^^
    ((hpMask hp (sealedBody aes keys (b :: (mid ++ putBe 4 pn)) pn payload)).getD 0 0 &&& bits) ∧
    pn'.length = 4 ∧
    protectedPacket aes keys hp bits b mid pn payload = b' :: (mid ++ (pn' ++
      sealedBody aes keys (b :: (mid ++ putBe 4 pn)) pn payload)) := by
  have h := protectedPacket_eq_masked aes keys hp bits b mid pn payload
  rw [maskedPacket_eq, List.drop_left' (length_putBe 4 pn)] at h
  refine ⟨_, _, rfl, ?_, h⟩
  rw [length_xorBytes_mask (length_hpMask hp) (Nat.le_of_eq (length_putBe 4 pn)), length_putBe]

@[simp] theorem length_protectedPacket :
    (protectedPacket aes keys hp bits b mid pn payload).length =
      1 + mid.length + 4 + payload.length + 16 := by
  rw [protectedPacket_eq_masked, length_maskedPacket _ _ _ _ (length_hpMask hp)
    (Nat.le_of_eq (length_putBe 4 pn)), length_putBe, length_sealedBody]
  omega

theorem hpApply_protectedPacket :
    hpApply (hpMask hp ((protectedPacket aes keys hp bits b mid pn payload).drop
      (1 + mid.length + 4))) bits (protectedPacket aes keys hp bits b mid pn payload)
      (1 + mid.length) 4 =
        b :: (mid ++ putBe 4 pn) ++ sealedBody aes keys (b :: (mid ++ putBe 4 pn)) pn payload := by
  have h := hpApply_maskedPacket bits b mid (sealedBody aes keys (b :: (mid ++ putBe 4 pn)) pn
    payload) (length_hpMask hp) (Nat.le_of_eq (length_putBe 4 pn))
  rwa [length_putBe, ← protectedPacket_eq_masked] at h

theorem getD_hpByte0_protectedPacket :
    (hpByte0 (hpMask hp ((protectedPacket aes keys hp bits b mid pn payload).drop
      (1 + mid.length + 4))) bits (protectedPacket aes keys hp bits b mid pn payload)).getD 0 0 =
      b := by
  rw [protectedPacket_eq_masked]
  exact getD_hpByte0_maskedPacket bits b mid _ (length_hpMask hp) (Nat.le_of_eq (length_putBe 4 pn))

theorem take_pn_unmasked (body : Bytes) :
    ((b :: (mid ++ putBe 4 pn) ++ body).drop (1 + mid.length)).take 4 = putBe 4 pn := by
  have h := take_field_unmasked b mid (putBe 4 pn) body
  rwa [length_putBe] at h

/-- **A protected long-header packet opens to its payload.** -/
theorem vpnOpen_protectedPacket (hb : pnLenOf b = 4) (hpn : pn < 2 ^ 32) :
    vpnOpen aes keys hp (protectedPacket aes keys hp hpLongMask b mid pn payload)
      (1 + mid.length) (4 + payload.length + 16) =
        some (openedPacket aes keys b mid pn payload) := by
  have hregion : regionOk (1 + mid.length + 4 + payload.length + 16) (1 + mid.length)
      (4 + payload.length + 16) = true := by
    simp only [regionOk, gcmTag]
    rw [if_neg (by omega)]
    simp
    omega
  have hpnval : readBe (putBe 4 pn) = pn := by
    rw [readBe_putBe, Nat.mod_eq_of_lt (by omega)]
  have hlen : (b :: (mid ++ putBe 4 pn)).length = 1 + mid.length + 4 := by
    simp
    omega
  have hopen := aeadOpen_seal aes keys (b :: (mid ++ putBe 4 pn)) payload pn
  have hunmask := hpApply_protectedPacket aes keys hp hpLongMask b mid pn payload
  rw [hpApply] at hunmask
  simp only [vpnOpen, length_protectedPacket, hregion, Bool.not_true, Bool.false_eq_true, if_false,
    getD_hpByte0_protectedPacket, hb, hunmask, take_pn_unmasked, hpnval, gcmTag]
  rw [hlen] at hopen
  rw [show 4 + payload.length + 16 - 4 - 16 = payload.length by omega]
  exact hopen

end

theorem protectHeader_eq (hp : Block → Block) (b : UInt8) (mid pn body : Bytes)
    (hpn : pn.length = 4) :
    protectHeader hp (b :: (mid ++ pn) ++ body) ((b :: (mid ++ pn)).length - txPnLen) txPnLen =
      hpApply (hpMask hp body) hpLongMask (b :: (mid ++ (pn ++ body))) (1 + mid.length) 4 := by
  have hoff : (b :: (mid ++ pn)).length - txPnLen = 1 + mid.length := by
    simp [hpn, txPnLen]
    omega
  have hdrop : (b :: (mid ++ pn) ++ body).drop (1 + mid.length + 4) = body :=
    List.drop_left' (by simp [hpn]; omega)
  rw [protectHeader, hoff, hdrop, txPnLen]
  simp

theorem protectSeal_eq_some {mid payload : Bytes} :
    protectSeal aes keys hp (b :: (mid ++ putBe 4 pn))
      ((b :: (mid ++ putBe 4 pn)).length - txPnLen) txPnLen pn payload cap = some (out, total) ↔
      out = protectedPacket aes keys hp hpLongMask b mid pn payload ∧ total = out.length ∧
        out.length ≤ cap := by
  have hout : protectHeader hp (_ ++ sealedBody ..) _ _ =
      protectedPacket aes keys hp hpLongMask b mid pn payload :=
    protectHeader_eq hp b mid (putBe 4 pn) _ (length_putBe 4 pn)
  have hlen : (b :: (mid ++ putBe 4 pn)).length + payload.length + gcmTag =
      (protectedPacket aes keys hp hpLongMask b mid pn payload).length := by
    rw [length_protectedPacket]
    simp [gcmTag]
    omega
  rw [sealedBody, ← List.append_assoc] at hout
  simp only [protectSeal, sealInto, hlen, Option.bind_eq_bind]
  by_cases hcap : (protectedPacket aes keys hp hpLongMask b mid pn payload).length ≤ cap
  · rw [if_neg (by omega), Option.bind_some, hout, Option.pure_def, Option.some.injEq,
      Prod.mk.injEq]
    constructor
    · rintro ⟨rfl, rfl⟩
      exact ⟨rfl, rfl, hcap⟩
    · rintro ⟨rfl, rfl, -⟩
      exact ⟨rfl, rfl⟩
  · rw [if_pos (by omega), Option.bind_none]
    constructor
    · intro h
      cases h
    · rintro ⟨rfl, -, hle⟩
      exact absurd hle hcap

theorem txPacket_eq_some {keys : InitialKeys} :
    txPacket aes keys hp byte0 dcid scid isInitial token pn frames cap = some (out, total) ↔
      dcid.length ≤ maxCidLen ∧ scid.length ≤ maxCidLen ∧
      (isInitial = true → token.length ≤ varintMax) ∧ 4 + frames.length + 16 ≤ varintMax ∧
      1 + (lhdrMid 1 dcid scid isInitial token (4 + frames.length + 16)).length + 4 ≤
        64 + 2 * maxCidLen ∧
      out = protectedPacket aes keys hp hpLongMask (lhdrByte0Pnlen byte0 txPnLen)
        (lhdrMid 1 dcid scid isInitial token (4 + frames.length + 16)) pn frames ∧
      total = out.length ∧ out.length ≤ cap := by
  simp only [txPacket, Option.bind_eq_bind, Option.bind_eq_some_iff]
  constructor
  · rintro ⟨hdr, hbuild, h⟩
    obtain ⟨hd, hs, ht, hmax, hroom, rfl⟩ := lhdrBuild_eq_some.1 hbuild
    exact ⟨hd, hs, ht, hmax, by simp [txPnLen] at hroom ⊢; omega, (protectSeal_eq_some aes keys).1 h⟩
  · rintro ⟨hd, hs, ht, hmax, hroom, h⟩
    exact ⟨_, lhdrBuild_eq_some.2 ⟨hd, hs, ht, hmax, by simp [txPnLen]; omega, rfl⟩,
      (protectSeal_eq_some aes keys).2 h⟩

/-- **`quic_tx_packet` without a token**: it fails only for an illegal connection id or for want of
room. -/
theorem txPacket_eq_some_iff (hp : Block → Block) (byte0 : UInt8) (dcid scid : Bytes)
    (isInitial : Bool) (pn : ℕ) (frames : Bytes) (cap : ℕ) (out : Bytes) (total : ℕ) :
    txPacket aes keys hp byte0 dcid scid isInitial [] pn frames cap = some (out, total) ↔
      dcid.length ≤ maxCidLen ∧ scid.length ≤ maxCidLen ∧ 4 + frames.length + 16 ≤ varintMax ∧
        out = protectedPacket aes keys hp hpLongMask (lhdrByte0Pnlen byte0 txPnLen)
          (lhdrMid 1 dcid scid isInitial [] (4 + frames.length + 16)) pn frames ∧
        total = out.length ∧ out.length ≤ cap := by
  rw [txPacket_eq_some]
  constructor
  · rintro ⟨hd, hs, -, hmax, -, h⟩
    exact ⟨hd, hs, hmax, h⟩
  · rintro ⟨hd, hs, hmax, h⟩
    exact ⟨hd, hs, fun _ => Nat.zero_le _, hmax, length_lhdrMid_le isInitial hd hs, h⟩

/-- **`quic_hspkt_build` fails only for want of room**, for connection ids of a legal length. -/
theorem hspktBuild_eq (hp : Block → Block) (pn : ℕ) (payload : Bytes) (cap : ℕ)
    (hd : dcid.length ≤ maxCidLen) (hs : scid.length ≤ maxCidLen)
    (hmax : 4 + payload.length + 16 ≤ varintMax)
    (hcap : 1 + (lhdrMid 1 dcid scid false [] (4 + payload.length + 16)).length + 4 + payload.length +
      gcmTag ≤ cap) :
    hspktBuild aes keys hp dcid scid pn payload cap =
      some (protectedPacket aes keys hp hpLongMask (lhdrByte0Pnlen hspktByte0 txPnLen)
        (lhdrMid 1 dcid scid false [] (4 + payload.length + 16)) pn payload) := by
  have htx := (txPacket_eq_some_iff aes keys hp hspktByte0 dcid scid false pn payload cap _ _).2
    ⟨hd, hs, hmax, rfl, rfl, by rw [length_protectedPacket]; exact hcap⟩
  simp only [hspktBuild, htx, Option.bind_eq_bind, Option.bind_some, List.take_length]
  rfl

/-- A protected packet with a well-formed long header opens to its payload. -/
theorem rxPacket_protectedPacket (hp : Block → Block) (isInitial : Bool) (token : Bytes)
    (hform : b &&& 0x80 ≠ 0) (hb : pnLenOf b = 4) (hd : dcid.length ≤ maxCidLen)
    (hs : scid.length ≤ maxCidLen) (ht : isInitial = true → token.length ≤ varintMax)
    (hmax : 4 + frames.length + 16 ≤ varintMax) (hpn : pn < 2 ^ 32) :
    rxPacket aes keys hp (protectedPacket aes keys hp hpLongMask b
      (lhdrMid 1 dcid scid isInitial token (4 + frames.length + 16)) pn frames) isInitial =
        some (openedPacket aes keys b
          (lhdrMid 1 dcid scid isInitial token (4 + frames.length + 16)) pn frames) := by
  set mid := lhdrMid 1 dcid scid isInitial token (4 + frames.length + 16) with hmid
  obtain ⟨b', pn', hb', -, heq⟩ := protectedPacket_eq aes keys hp hpLongMask b mid pn frames
  -- header protection leaves the form bit of byte 0 alone
  have hform' : b' &&& 0x80 ≠ 0 := by
    rw [hb', xor_and_of_disjoint (by rfl)]
    exact hform
  have hparse := lhdrParse_mid 1 isInitial token
    (pn' ++ sealedBody aes keys (b :: (mid ++ putBe 4 pn)) pn frames) hform' hd hs ht hmax
  rw [← hmid, ← heq] at hparse
  simp only [rxPacket, hparse, Option.bind_eq_bind, Option.bind_some,
    vpnOpen_protectedPacket aes keys hp b mid pn frames hb hpn]

/-- **Long-header packet round trip.** For any block function in place of AES and any
header-protection function: what `quic_tx_packet` seals, for a long-header byte 0 and a packet
number that fits its four bytes, is as long as the call reports and opens under the same keys to
the same frames. -/
theorem rxPacket_txPacket (keys : InitialKeys) (hp : Block → Block) (byte0 : UInt8)
    (dcid scid : Bytes) (isInitial : Bool) (token : Bytes) (pn : ℕ) (frames : Bytes) (cap : ℕ)
    (out : Bytes) (total : ℕ) (hlong : byte0 &&& 0x80 ≠ 0) (hpn : pn < 2 ^ 32)
    (h : txPacket aes keys hp byte0 dcid scid isInitial token pn frames cap = some (out, total)) :
    out.length = total ∧
      ∃ pkt, rxPacket aes keys hp out isInitial = some { pkt := pkt, payload := frames } := by
  obtain ⟨hd, hs, ht, hmax, -, rfl, htotal, -⟩ := (txPacket_eq_some aes).1 h
  exact ⟨htotal.symm, _, rxPacket_protectedPacket aes keys hp isInitial token
    ((lhdrByte0Pnlen_form byte0 txPnLen).symm ▸ hlong) (pnLenOf_lhdrByte0 byte0) hd hs ht hmax hpn⟩

/-- An Initial packet with a token and one PING frame. -/
theorem rxPacket_txPacket_ping :
    let keys : InitialKeys := ⟨Vector.replicate 16 1, Vector.replicate 12 2, Vector.replicate 16 3⟩
    ∃ out total,
      txPacket (fun _ b => b) keys id 0xc3 [0xaa] [0xbb, 0xcc] true [0x07] 9 [0x01] 1500 =
        some (out, total) ∧
      out.length = total ∧
      ∃ pkt, rxPacket (fun _ b => b) keys id out true = some { pkt := pkt, payload := [0x01] } :=
  ⟨_, _, rfl, rxPacket_txPacket (fun _ b => b) _ id 0xc3 [0xaa] [0xbb, 0xcc] true [0x07] 9 [0x01]
    1500 _ _ (by decide) (by decide) rfl⟩

end Packet

end QuicVibe
