import QuicVibe.Packet.OneRtt
import QuicVibe.Crypto.Gcm

/-!
# Coalesced packets

Packing concatenates packets (`txloop.c`); cutting walks the datagram with an offset, measures each
long-header packet with a walk over its header, and gives the rest to the first short-header one
(`coalesce.c`, `rxloop.c`). Where the parser accepts a header, that walk measures the same packet.
`udploopSplit` is the walk on what is left of the datagram; here it has the offsets the code computes,
and the two are shown to agree.
-/

namespace QuicVibe

open Crypto

namespace Packet

section

/-! ## The two header walks agree -/

variable {buf pkt dcid scid frames : Bytes} {off pn : ℕ} {b : UInt8}

theorem skipCid_of_readCid {cid : Bytes} {next : ℕ} (h : readCid buf off = some (cid, next)) :
    skipCid buf off = some next := by
  simp only [readCid] at h
  split at h
  · cases h
  · rename_i len hget
    split at h
    · rename_i hfits
      obtain ⟨-, rfl⟩ := Prod.mk.inj (Option.some.inj h)
      simp [skipCid, hget, hfits.2]
    · cases h

theorem skipToken_of_inittokenGet {token : Bytes} {used : ℕ}
    (h : inittokenGet (buf.drop off) = some (token, used)) :
    skipToken buf off = some (off + used) := by
  simp only [inittokenGet, varintTake, List.drop_zero, Option.bind_eq_bind,
    Option.bind_eq_some_iff] at h
  obtain ⟨⟨tlen, p⟩, ⟨⟨v, n⟩, hdec, hpair⟩, h⟩ := h
  obtain ⟨rfl, rfl⟩ := Prod.mk.inj (Option.some.inj hpair)
  have hn := (varintDecode_eq_some hdec).2.2
  split at h
  · rename_i hfits
    obtain ⟨-, rfl⟩ := Prod.mk.inj (Option.some.inj h)
    rw [List.length_drop] at hn hfits
    have hne : buf.drop off ≠ [] := by
      rintro hnil
      rw [hnil] at hdec
      cases hdec
    have hoff : off < buf.length := by
      by_contra hle
      exact hne (List.drop_eq_nil_of_le (by omega))
    simp only [skipToken, varintTake, hdec, Option.bind_eq_bind, Option.bind_some,
      Option.pure_def]
    rw [if_pos (by omega)]
    congr 1
    omega
  · cases h

/-- **Measuring a packet.** A header the parser accepts, with a Length field that stays inside the
datagram, is measured the same way when the datagram is cut. -/
theorem longPacketLen_of_lhdrParse {isInitial : Bool} {h : Lhdr}
    (htype : ((pkt.getD 0 0 >>> 4) &&& 0x3 = 0) ↔ isInitial = true)
    (hparse : lhdrParse pkt isInitial = some h) (hlen : h.pnOff + h.length ≤ pkt.length) :
    longPacketLen pkt = some (h.pnOff + h.length) := by
  simp only [lhdrParse] at hparse
  split at hparse
  · cases hparse
  · simp only [parseLong, Option.bind_eq_bind, Option.bind_eq_some_iff] at hparse
    obtain ⟨⟨hdr, off⟩, ⟨⟨dcid, p₁⟩, hd, ⟨scid, p₂⟩, hs, hhdr⟩, ⟨token, p₃⟩, ht, ⟨length, p₄⟩, hl,
      hout⟩ := hparse
    obtain ⟨-, rfl⟩ := Prod.mk.inj (Option.some.inj hhdr)
    obtain rfl := Option.some.inj hout
    have hfive : 5 < pkt.length := by
      by_contra hle
      rw [readCid, List.getElem?_eq_none (by omega)] at hd
      cases hd
    have hend : ¬ p₄ + length > pkt.length := Nat.not_lt.2 hlen
    cases isInitial with
    | false =>
      obtain ⟨-, rfl⟩ := Prod.mk.inj (Option.some.inj ht)
      simp only [longPacketLen, skipCid_of_readCid hd, skipCid_of_readCid hs, Option.bind_eq_bind,
        Option.bind_some]
      rw [if_neg (by omega), if_neg fun h => Bool.false_ne_true (htype.1 h), hl, Option.bind_some, if_neg hend]
    | true =>
      simp only [readToken, Bool.not_true, Bool.false_eq_true, if_false, Option.bind_eq_bind,
        Option.bind_eq_some_iff] at ht
      obtain ⟨⟨tok, used⟩, hget, hpair⟩ := ht
      obtain ⟨-, rfl⟩ := Prod.mk.inj (Option.some.inj hpair)
      simp only [longPacketLen, skipCid_of_readCid hd, skipCid_of_readCid hs, Option.bind_eq_bind,
        Option.bind_some]
      rw [if_neg (by omega), if_pos (htype.2 rfl), skipToken_of_inittokenGet hget, Option.bind_some,
        hl, Option.bind_some, if_neg hend]

/-! ## One packet -/

theorem longType_of_protected (b x : UInt8) :
    ((b ^^^ (x &&& hpLongMask)) >>> 4) &&& (0x3 : UInt8) = (b >>> 4) &&& 0x3 := by
  have hzero : x.toNat &&& 15 < 2 ^ 4 := Nat.lt_of_le_of_lt Nat.and_le_right (by decide)
  simp only [← UInt8.toNat_inj, hpLongMask, UInt8.toNat_and, UInt8.toNat_shiftRight,
    UInt8.toNat_xor]
  have hshift : (x.toNat &&& 15) >>> 4 = 0 := by
    rw [Nat.shiftRight_eq_div_pow, Nat.div_eq_of_lt hzero]
  simp [Nat.shiftRight_xor_distrib, hshift]

theorem udploopSplit_of_coalesceNext (n : ℕ) (h : coalesceNext pkt = some (pkt, [])) :
    udploopSplit (n + 1) pkt = [pkt] := by
  simp only [udploopSplit, h]
  cases n <;> rfl

variable (aes : Block → Block → Block)

/-- **A sealed long-header packet** is cut off what follows it. -/
theorem coalesceNext_long (keys : InitialKeys) (hp : Block → Block) (isInitial : Bool)
    (token : Bytes) (hform : b &&& 0x80 ≠ 0) (htype : (b >>> 4) &&& 0x3 = 0 ↔ isInitial = true)
    (hd : dcid.length ≤ maxCidLen) (hs : scid.length ≤ maxCidLen)
    (ht : isInitial = true → token.length ≤ varintMax) (hmax : 4 + frames.length + 16 ≤ varintMax)
    (rest : Bytes) :
    let pkt := protectedPacket aes keys hp hpLongMask b
      (lhdrMid 1 dcid scid isInitial token (4 + frames.length + 16)) pn frames
    coalesceNext (pkt ++ rest) = some (pkt, rest) := by
  intro pkt
  set mid := lhdrMid 1 dcid scid isInitial token (4 + frames.length + 16) with hmid
  have hlength : pkt.length = 1 + mid.length + 4 + frames.length + 16 :=
    length_protectedPacket aes keys hp hpLongMask b mid pn frames
  obtain ⟨b', pn', hb', -, heq⟩ := protectedPacket_eq aes keys hp hpLongMask b mid pn frames
  have hpkt : pkt ++ rest = b' :: (mid ++ (pn' ++
      sealedBody aes keys (b :: (mid ++ putBe 4 pn)) pn frames ++ rest)) := by
    rw [show pkt = _ from heq]
    simp
  have hform' : b' &&& 0x80 ≠ 0 := by
    rw [hb', xor_and_of_disjoint (by rfl)]
    exact hform
  have hparse := lhdrParse_mid 1 isInitial token
    (pn' ++ sealedBody aes keys (b :: (mid ++ putBe 4 pn)) pn frames ++ rest) hform' hd hs ht hmax
  rw [← hmid, ← hpkt] at hparse
  have hhead : (pkt ++ rest).getD 0 0 = b' := by rw [hpkt]; rfl
  have hlen : longPacketLen (pkt ++ rest) = some pkt.length := by
    rw [longPacketLen_of_lhdrParse (by rw [hhead, hb', longType_of_protected]; exact htype) hparse
      (by rw [List.length_append]; dsimp only; omega)]
    congr 1
    dsimp only
    omega
  have hne : (pkt ++ rest).isEmpty = false := by rw [hpkt]; rfl
  rw [coalesceNext, hne, hhead, if_neg (by simp), if_neg hform', hlen]
  simp

/-- **A datagram of one long-header packet** is cut into that packet. -/
theorem udploopSplit_long (n : ℕ) (keys : InitialKeys) (hp : Block → Block) (isInitial : Bool)
    (token : Bytes) (hform : b &&& 0x80 ≠ 0) (htype : (b >>> 4) &&& 0x3 = 0 ↔ isInitial = true)
    (hd : dcid.length ≤ maxCidLen) (hs : scid.length ≤ maxCidLen)
    (ht : isInitial = true → token.length ≤ varintMax) (hmax : 4 + frames.length + 16 ≤ varintMax) :
    let pkt := protectedPacket aes keys hp hpLongMask b
      (lhdrMid 1 dcid scid isInitial token (4 + frames.length + 16)) pn frames
    udploopSplit (n + 1) pkt = [pkt] := by
  intro pkt
  have hnext : coalesceNext (pkt ++ []) = some (pkt, []) :=
    coalesceNext_long aes keys hp isInitial token hform htype hd hs ht hmax []
  rw [List.append_nil] at hnext
  exact udploopSplit_of_coalesceNext n hnext

theorem coalesceNext_short (hb : b &&& 0x80 = 0) (rest : Bytes) :
    coalesceNext (b :: rest) = some (b :: rest, []) := by
  rw [coalesceNext, if_neg (by simp)]
  exact if_pos hb

/-- **A datagram of one short-header packet** is cut into that packet. -/
theorem udploopSplit_short (n : ℕ) (keys : InitialKeys) (hp : Block → Block) (dcid : Bytes) (pn : ℕ)
    (payload : Bytes) :
    let pkt := protectedPacket aes keys hp hpShortMask onerttByte0 dcid pn payload
    udploopSplit (n + 1) pkt = [pkt] := by
  intro pkt
  refine udploopSplit_of_coalesceNext n ?_
  obtain ⟨b', pn', hb', -, heq⟩ :=
    protectedPacket_eq aes keys hp hpShortMask onerttByte0 dcid pn payload
  have hform : b' &&& 0x80 = 0 := by
    rw [hb', xor_and_of_disjoint (by rfl)]
    rfl
  rw [show pkt = _ from heq]
  exact coalesceNext_short hform _

end

/-! ## The walk with offsets -/

/-- `quic_coalesced`: a slice of the datagram. -/
structure Slice where
  offset : ℕ
  len : ℕ
  deriving DecidableEq, Repr

/-- The bytes of a slice. -/
def Slice.bytes (s : Slice) (dgram : Bytes) : Bytes := (dgram.drop s.offset).take s.len

/-- `long_packet_len`: the length of the packet at `off`. -/
def longPacketLenAt (buf : Bytes) (off : ℕ) : Option ℕ :=
  if off + 5 > buf.length then none
  else do
    let p ← skipCid buf (off + 5)
    let p ← skipCid buf p
    let p ← if (buf.getD off 0 >>> 4) &&& 0x3 = 0 then skipToken buf p else some p
    let (length, p) ← varintTake buf p
    if p + length > buf.length then none else some (p - off + length)

/-- `coalesce_emit`: the slice, and the offset behind it. -/
def coalesceEmit (off len : ℕ) : Option (Slice × ℕ) :=
  if len = 0 then none else some ({ offset := off, len := len }, off + len)

/-- `quic_coalesce_next`. -/
def coalesceNextAt (dgram : Bytes) (off : ℕ) : Option (Slice × ℕ) :=
  if off ≥ dgram.length then none
  else if dgram.getD off 0 &&& 0x80 = 0 then coalesceEmit off (dgram.length - off)
  else do
    let len ← longPacketLenAt dgram off
    coalesceEmit off len

/-- The loop of `quic_udploop_split`, from `off` on. -/
def udploopSplitFrom (dgram : Bytes) : ℕ → ℕ → List Slice
  | 0, _ => []
  | maxPkts + 1, off =>
    match coalesceNextAt dgram off with
    | none => []
    | some (s, off) => s :: udploopSplitFrom dgram maxPkts off

/-- `quic_udploop_split`: the offsets and lengths of at most `maxPkts` packets. -/
def udploopSlices (maxPkts : ℕ) (dgram : Bytes) : List Slice := udploopSplitFrom dgram maxPkts 0

/-- `quic_udploop_pack`, behind what is packed already. -/
def udploopPack (cap : ℕ) (out : Bytes) : List Bytes → Option Bytes
  | [] => some out
  | pkt :: pkts => if out.length + pkt.length > cap then none else udploopPack cap (out ++ pkt) pkts

/-! ## Offsets and what is left -/

section

variable {buf : Bytes} {off : ℕ}

theorem varintTake_add (p : ℕ) :
    varintTake buf (off + p) = (varintTake (buf.drop off) p).map fun r => (r.1, off + r.2) := by
  rw [varintTake, varintTake, List.drop_drop]
  cases varintDecode (buf.drop (off + p)) with
  | none => rfl
  | some r => simp [Nat.add_assoc]

variable (hoff : off ≤ buf.length)

include hoff

theorem skipCid_add (p : ℕ) :
    skipCid buf (off + p) = (skipCid (buf.drop off) p).map (off + ·) := by
  rw [skipCid, skipCid, List.getElem?_drop]
  cases buf[off + p]? with
  | none => rfl
  | some len =>
    simp only [Option.bind_eq_bind, Option.bind_some, List.length_drop]
    by_cases hfit : off + p + 1 + len.toNat ≤ buf.length
    · rw [if_pos hfit, if_pos (by omega), Option.map_some, Nat.add_assoc, Nat.add_assoc, Nat.add_assoc]
    · rw [if_neg hfit, if_neg (by omega), Option.map_none]

theorem skipToken_add (p : ℕ) :
    skipToken buf (off + p) = (skipToken (buf.drop off) p).map (off + ·) := by
  rw [skipToken, skipToken, varintTake_add]
  cases varintTake (buf.drop off) p with
  | none => rfl
  | some r =>
    simp only [Option.bind_eq_bind, Option.bind_some, List.length_drop, Option.map_some]
    by_cases hfit : off + r.2 + r.1 ≤ buf.length
    · rw [if_pos hfit, if_pos (by omega), Option.map_some, Nat.add_assoc]
    · rw [if_neg hfit, if_neg (by omega), Option.map_none]

theorem packetBound_add (p : ℕ) :
    ((varintTake buf (off + p)).bind fun r =>
      if r.2 + r.1 > buf.length then none else some (r.2 - off + r.1)) =
    (varintTake (buf.drop off) p).bind fun r =>
      if r.2 + r.1 > buf.length - off then none else some (r.2 + r.1) := by
  rw [varintTake_add]
  cases varintTake (buf.drop off) p with
  | none => rfl
  | some r =>
    simp only [Option.map_some, Option.bind_some]
    by_cases hlong : off + r.2 + r.1 > buf.length
    · rw [if_pos hlong, if_pos (by omega)]
    · rw [if_neg hlong, if_neg (by omega), Nat.add_sub_cancel_left]

/-- The packet at `off` is measured like the packet at the front of what is left. -/
theorem longPacketLenAt_eq : longPacketLenAt buf off = longPacketLen (buf.drop off) := by
  have hget : (buf.drop off).getD 0 0 = buf.getD off 0 := by simp
  rw [longPacketLenAt, longPacketLen, List.length_drop, hget]
  by_cases hfive : off + 5 > buf.length
  · rw [if_pos hfive, if_pos (by omega)]
  · rw [if_neg hfive, if_neg (by omega), skipCid_add hoff]
    cases skipCid (buf.drop off) 5 with
    | none => rfl
    | some p₁ =>
      simp only [Option.bind_eq_bind, Option.map_some, Option.bind_some, skipCid_add hoff]
      cases skipCid (buf.drop off) p₁ with
      | none => rfl
      | some p₂ =>
        simp only [Option.map_some, Option.bind_some, skipToken_add hoff, packetBound_add hoff]
        split
        · cases skipToken (buf.drop off) p₂ with
          | none => rfl
          | some p₃ => exact packetBound_add hoff p₃
        · rfl

end

theorem longPacketLen_eq_some {buf : Bytes} {len : ℕ} (h : longPacketLen buf = some len) :
    0 < len ∧ len ≤ buf.length := by
  have hbound : ∀ p, (varintTake buf p).bind (fun r =>
      if r.2 + r.1 > buf.length then none else some (r.2 + r.1)) = some len →
      0 < len ∧ len ≤ buf.length := by
    intro p hp
    simp only [Option.bind_eq_some_iff] at hp
    obtain ⟨⟨length, p'⟩, htake, hp⟩ := hp
    obtain ⟨-, hpos, -⟩ := varintTake_eq_some htake
    split at hp
    · cases hp
    · obtain rfl := Option.some.inj hp
      dsimp only at *
      omega
  simp only [longPacketLen] at h
  split at h
  · cases h
  · simp only [Option.bind_eq_bind, Option.bind_eq_some_iff] at h
    obtain ⟨p₁, -, p₂, -, h⟩ := h
    split at h
    · obtain ⟨p₃, -, h⟩ := Option.bind_eq_some_iff.1 h
      exact hbound p₃ h
    · exact hbound p₂ h

/-! ## The slices -/

variable {dgram pkt : Bytes} {off : ℕ}

/-- **One step** of the walk: a slice that starts where the walk stands, is not empty and stays
inside, and the walk stands behind it. -/
theorem coalesceNextAt_eq_some {off' : ℕ} {s : Slice}
    (h : coalesceNextAt dgram off = some (s, off')) :
    s.offset = off ∧ 0 < s.len ∧ off' = off + s.len ∧ off' ≤ dgram.length := by
  have hemit : ∀ len, off + len ≤ dgram.length → coalesceEmit off len = some (s, off') →
      s.offset = off ∧ 0 < s.len ∧ off' = off + s.len ∧ off' ≤ dgram.length := by
    intro len hlen he
    rw [coalesceEmit] at he
    split at he
    · cases he
    · rename_i hpos
      obtain ⟨rfl, rfl⟩ := Prod.mk.inj (Option.some.inj he)
      exact ⟨rfl, Nat.pos_of_ne_zero hpos, rfl, hlen⟩
  rw [coalesceNextAt] at h
  split at h
  · cases h
  · rename_i hoff
    split at h
    · exact hemit _ (by omega) h
    · simp only [Option.bind_eq_bind, Option.bind_eq_some_iff] at h
      obtain ⟨len, hlen, h⟩ := h
      rw [longPacketLenAt_eq (by omega)] at hlen
      have := (longPacketLen_eq_some hlen).2
      rw [List.length_drop] at this
      exact hemit len (by omega) h

/-- Slices that follow one another without a gap, none of them empty, from `start` to `stop`. -/
def Tiles : ℕ → List Slice → ℕ → Prop
  | start, [], stop => start = stop
  | start, s :: rest, stop => s.offset = start ∧ 0 < s.len ∧ Tiles (start + s.len) rest stop

/-- **The whole walk** tiles what it covers. -/
theorem tiles_udploopSplitFrom (dgram : Bytes) (maxPkts : ℕ) (hoff : off ≤ dgram.length) :
    ∃ stop ≤ dgram.length, Tiles off (udploopSplitFrom dgram maxPkts off) stop := by
  induction maxPkts generalizing off with
  | zero => exact ⟨off, hoff, rfl⟩
  | succ maxPkts ih =>
    rw [udploopSplitFrom]
    cases hnext : coalesceNextAt dgram off with
    | none => exact ⟨off, hoff, rfl⟩
    | some r =>
      obtain ⟨s, off'⟩ := r
      obtain ⟨hs, hpos, rfl, hin⟩ := coalesceNextAt_eq_some hnext
      obtain ⟨stop, hstop, htiles⟩ := ih hin
      exact ⟨stop, hstop, hs, hpos, htiles⟩

section

variable {start stop : ℕ} {slices : List Slice}

/-- Every slice of a tiling lies inside it, and their number is bounded by what they cover. -/
theorem Tiles.bounds (h : Tiles start slices stop) :
    start + slices.length ≤ stop ∧
      ∀ s ∈ slices, start ≤ s.offset ∧ 0 < s.len ∧ s.offset + s.len ≤ stop := by
  induction slices generalizing start with
  | nil =>
    obtain rfl : start = stop := h
    simp
  | cons s rest ih =>
    obtain ⟨rfl, hpos, hrest⟩ := h
    obtain ⟨hlen, hall⟩ := ih hrest
    refine ⟨by rw [List.length_cons]; omega, ?_⟩
    intro t ht
    rcases List.mem_cons.1 ht with rfl | ht
    · omega
    · have := hall t ht
      omega

theorem Tiles.pairwise (h : Tiles start slices stop) :
    slices.Pairwise fun s t => s.offset + s.len ≤ t.offset := by
  induction slices generalizing start with
  | nil => exact .nil
  | cons s rest ih =>
    obtain ⟨rfl, -, hrest⟩ := h
    exact .cons (fun t ht => (hrest.bounds.2 t ht).1) (ih hrest)

end

/-! ## The two walks agree -/

theorem coalesceNext_drop (hoff : off ≤ dgram.length) :
    coalesceNext (dgram.drop off) =
      (coalesceNextAt dgram off).map fun r => (r.1.bytes dgram, dgram.drop r.2) := by
  have hget : (dgram.drop off).getD 0 0 = dgram.getD off 0 := by simp
  have hemit : ∀ len, 0 < len → (coalesceEmit off len).map
      (fun r => (r.1.bytes dgram, dgram.drop r.2)) =
      some ((dgram.drop off).take len, (dgram.drop off).drop len) := by
    intro len hpos
    rw [coalesceEmit, if_neg (by omega), List.drop_drop]
    rfl
  have hempty : (dgram.drop off).isEmpty = true ↔ dgram.length ≤ off := by
    rw [List.isEmpty_iff, List.drop_eq_nil_iff]
  rw [coalesceNext, coalesceNextAt, hget]
  by_cases hend : dgram.length ≤ off
  · rw [if_pos (hempty.2 hend), if_pos hend, Option.map_none]
  · rw [if_neg (mt hempty.1 hend), if_neg hend]
    split
    · rw [hemit _ (by omega), List.take_of_length_le (Nat.le_of_eq (List.length_drop ..)),
        List.drop_eq_nil_of_le (Nat.le_of_eq (List.length_drop ..))]
    · rw [longPacketLenAt_eq hoff]
      cases hlen : longPacketLen (dgram.drop off) with
      | none => rfl
      | some len => exact (hemit len (longPacketLen_eq_some hlen).1).symm

/-- **The packets** are the bytes of the slices. -/
theorem map_bytes_udploopSplitFrom (dgram : Bytes) (maxPkts : ℕ) (hoff : off ≤ dgram.length) :
    (udploopSplitFrom dgram maxPkts off).map (·.bytes dgram) =
      udploopSplit maxPkts (dgram.drop off) := by
  induction maxPkts generalizing off with
  | zero => rfl
  | succ maxPkts ih =>
    rw [udploopSplitFrom, udploopSplit, coalesceNext_drop hoff]
    cases hnext : coalesceNextAt dgram off with
    | none => rfl
    | some r =>
      obtain ⟨s, off'⟩ := r
      exact congrArg _ (ih (coalesceNextAt_eq_some hnext).2.2.2)

theorem coalesceNext_length_le {rest rest' : Bytes} (h : coalesceNext rest = some (pkt, rest')) :
    pkt.length ≤ rest.length ∧ rest'.length ≤ rest.length := by
  rw [coalesceNext] at h
  split at h
  · cases h
  · split at h
    · obtain ⟨rfl, rfl⟩ := Prod.mk.inj (Option.some.inj h)
      exact ⟨le_rfl, Nat.zero_le _⟩
    · simp only [Option.bind_eq_bind, Option.bind_eq_some_iff] at h
      obtain ⟨len, -, h⟩ := h
      obtain ⟨rfl, rfl⟩ := Prod.mk.inj (Option.some.inj h)
      exact ⟨List.length_take_le' _ _, by rw [List.length_drop]; omega⟩

theorem length_le_of_mem_udploopSplit {maxPkts : ℕ} {rest : Bytes}
    (h : pkt ∈ udploopSplit maxPkts rest) : pkt.length ≤ rest.length := by
  induction maxPkts generalizing rest with
  | zero => cases h
  | succ maxPkts ih =>
    rw [udploopSplit] at h
    cases hnext : coalesceNext rest with
    | none =>
      rw [hnext] at h
      cases h
    | some r =>
      obtain ⟨hfirst, hrest⟩ := coalesceNext_length_le hnext
      rw [hnext] at h
      rcases List.mem_cons.1 h with rfl | h
      · exact hfirst
      · exact (ih h).trans hrest

/-- **A long-header datagram is cut into itself** exactly if its Length field reaches its end. -/
theorem mem_udploopSplit_self_iff (n : ℕ) (hlong : dgram.getD 0 0 &&& 0x80 ≠ 0) :
    (dgram ∈ udploopSplit (n + 1) dgram ↔ longPacketLen dgram = some dgram.length) ∧
      (longPacketLen dgram = some dgram.length → udploopSplit (n + 1) dgram = [dgram]) := by
  have hne : dgram.isEmpty = false := by
    cases dgram with
    | nil => exact absurd rfl hlong
    | cons b rest => rfl
  have hnext : coalesceNext dgram =
      (longPacketLen dgram).map fun len => (dgram.take len, dgram.drop len) := by
    rw [coalesceNext, hne, if_neg Bool.false_ne_true, if_neg hlong]
    cases longPacketLen dgram <;> rfl
  have hwhole : longPacketLen dgram = some dgram.length → udploopSplit (n + 1) dgram = [dgram] := by
    intro hlen
    apply udploopSplit_of_coalesceNext
    rw [hnext, hlen, Option.map_some, List.take_length, List.drop_length]
  refine ⟨⟨fun hmem => ?_, fun hlen => by rw [hwhole hlen]; exact List.mem_singleton.2 rfl⟩, hwhole⟩
  rw [udploopSplit, hnext] at hmem
  cases hlen : longPacketLen dgram with
  | none =>
    rw [hlen] at hmem
    cases hmem
  | some len =>
    obtain ⟨hpos, hle⟩ := longPacketLen_eq_some hlen
    rw [hlen] at hmem
    -- a shorter slice leaves less than the datagram for every slice
    rcases List.mem_cons.1 hmem with heq | hmem
    · have := congrArg List.length heq
      rw [List.length_take] at this
      congr 1
      omega
    · have := length_le_of_mem_udploopSplit hmem
      rw [List.length_drop] at this
      omega

/-! ## Packing -/

theorem udploopPack_eq {cap : ℕ} {out : Bytes} {pkts : List Bytes}
    (h : out.length + pkts.flatten.length ≤ cap) :
    udploopPack cap out pkts = some (out ++ pkts.flatten) := by
  induction pkts generalizing out with
  | nil => simp [udploopPack]
  | cons pkt pkts ih =>
    rw [List.flatten_cons, List.length_append] at h
    rw [udploopPack, if_neg (by omega), ih (by rw [List.length_append]; omega)]
    simp

variable (aes : Block → Block → Block)

/-- A packet `quic_tx_packet` made: a long-header one, with a token exactly if it is an Initial. -/
def IsTxPacket (pkt : Bytes) : Prop :=
  ∃ keys hp, ∃ byte0 : UInt8, ∃ dcid scid isInitial token pn frames cap total,
    byte0 &&& 0x80 ≠ 0 ∧ ((byte0 >>> 4) &&& 0x3 = 0 ↔ isInitial = true) ∧
    txPacket aes keys hp byte0 dcid scid isInitial token pn frames cap = some (pkt, total)

/-- A short-header packet. -/
def IsShortPacket (pkt : Bytes) : Prop := ∃ b rest, pkt = b :: rest ∧ b &&& 0x80 = 0

variable {aes}

theorem IsTxPacket.coalesceNext (h : IsTxPacket aes pkt) (rest : Bytes) :
    Packet.coalesceNext (pkt ++ rest) = some (pkt, rest) := by
  obtain ⟨keys, hp, byte0, dcid, scid, isInitial, token, pn, frames, cap, total, hform, htype, h⟩ := h
  obtain ⟨hd, hs, ht, hmax, -, rfl, -⟩ := (txPacket_eq_some aes).1 h
  exact coalesceNext_long aes keys hp isInitial token ((lhdrByte0Pnlen_form byte0 _).symm ▸ hform)
    ((lhdrByte0Pnlen_type byte0).symm ▸ htype) hd hs ht hmax rest

/-- **Cutting undoes packing.** -/
theorem udploopSplit_flatten {pkts : List Bytes} (hpkts : ∀ p ∈ pkts, IsTxPacket aes p)
    {last : Option Bytes} (hlast : ∀ p ∈ last, IsShortPacket p) {maxPkts : ℕ}
    (hmax : (pkts ++ last.toList).length ≤ maxPkts) :
    udploopSplit maxPkts (pkts ++ last.toList).flatten = pkts ++ last.toList := by
  induction pkts generalizing maxPkts with
  | nil =>
    cases last with
    | none => cases maxPkts <;> rfl
    | some p =>
      obtain ⟨b, rest, rfl, hb⟩ := hlast p rfl
      obtain ⟨n, rfl⟩ := Nat.exists_eq_succ_of_ne_zero (n := maxPkts) (by rintro rfl; simp at hmax)
      have hnext := coalesceNext_short hb rest
      simpa using udploopSplit_of_coalesceNext n hnext
  | cons pkt pkts ih =>
    obtain ⟨n, rfl⟩ := Nat.exists_eq_succ_of_ne_zero (n := maxPkts) (by rintro rfl; simp at hmax)
    have hnext := (hpkts pkt (List.mem_cons_self ..)).coalesceNext (pkts ++ last.toList).flatten
    rw [List.cons_append, List.flatten_cons, udploopSplit, hnext]
    refine congrArg _ (ih (fun p hp => hpkts p (List.mem_cons_of_mem _ hp)) ?_)
    rw [List.cons_append, List.length_cons] at hmax
    omega

variable (aes)

/-- **Coalescing.** For every datagram, the slices the splitter yields are not empty, start at
offset 0, follow one another without gap or overlap and stay inside, so there are no more of them
than bytes. And packets of `quic_tx_packet`, with one short-header packet behind them or none, are
packed into one datagram whenever they fit, and the slices of that datagram are those packets. -/
theorem coalescing :
    (∀ (dgram : Bytes) (maxPkts : ℕ), let slices := udploopSlices maxPkts dgram
      (∃ stop ≤ dgram.length, Tiles 0 slices stop) ∧
      (slices.Pairwise fun s t => s.offset + s.len ≤ t.offset) ∧
      (∀ s ∈ slices, 0 < s.len ∧ s.offset + s.len ≤ dgram.length) ∧
      slices.length ≤ dgram.length) ∧
    (∀ (pkts : List Bytes) (last : Option Bytes), (∀ p ∈ pkts, IsTxPacket aes p) →
      (∀ p ∈ last, IsShortPacket p) → ∀ cap, (pkts ++ last.toList).flatten.length ≤ cap →
      ∃ dgram, udploopPack cap [] (pkts ++ last.toList) = some dgram ∧
        ∀ maxPkts, (pkts ++ last.toList).length ≤ maxPkts →
          (udploopSlices maxPkts dgram).map (·.bytes dgram) = pkts ++ last.toList) := by
  constructor
  · intro dgram maxPkts slices
    obtain ⟨stop, hstop, htiles⟩ := tiles_udploopSplitFrom dgram maxPkts (Nat.zero_le _)
    obtain ⟨hlen, hall⟩ := htiles.bounds
    refine ⟨⟨stop, hstop, htiles⟩, htiles.pairwise, fun s hs => ?_, ?_⟩
    · obtain ⟨-, hpos, hend⟩ := hall s hs
      exact ⟨hpos, by omega⟩
    · rw [Nat.zero_add] at hlen
      exact Nat.le_trans hlen hstop
  · intro pkts last hpkts hlast cap hcap
    refine ⟨_, udploopPack_eq (by simpa using hcap), fun maxPkts hmax => ?_⟩
    rw [udploopSlices, map_bytes_udploopSplitFrom _ _ (Nat.zero_le _), List.drop_zero,
      List.nil_append]
    exact udploopSplit_flatten hpkts hlast hmax

/-- A packet with a PING. -/
theorem txPacket_ping (keys : InitialKeys) (byte0 : UInt8) (isInitial : Bool) :
    ∃ pkt, pkt = protectedPacket aes128 keys (aes128 keys.hp) hpLongMask
        (lhdrByte0Pnlen byte0 txPnLen) (lhdrMid 1 [] [] isInitial [] 21) 0 [0x01] ∧
      8 < pkt.length ∧ pkt.length ≤ 30 ∧
      txPacket aes128 keys (aes128 keys.hp) byte0 [] [] isInitial [] 0 [0x01] 1500 =
        some (pkt, pkt.length) := by
  have hlen := length_protectedPacket aes128 keys (aes128 keys.hp) hpLongMask
    (lhdrByte0Pnlen byte0 txPnLen) (lhdrMid 1 [] [] isInitial [] 21) 0 [0x01]
  have hmid : (lhdrMid 1 [] [] isInitial [] 21).length ≤ 8 := by cases isInitial <;> decide
  rw [List.length_singleton] at hlen
  refine ⟨_, rfl, by omega, by omega, ?_⟩
  exact (txPacket_eq_some_iff ..).2 ⟨by decide, by decide, by decide, rfl, rfl, by omega⟩

/-- A datagram with an Initial and a Handshake packet, a PING in each. -/
theorem coalescing_two :
    let keys : InitialKeys := ⟨Vector.replicate 16 1, Vector.replicate 12 2, Vector.replicate 16 3⟩
    ∃ p q total total',
      txPacket aes128 keys (aes128 keys.hp) 0xc3 [] [] true [] 0 [0x01] 1500 = some (p, total) ∧
      txPacket aes128 keys (aes128 keys.hp) 0xe3 [] [] false [] 0 [0x01] 1500 = some (q, total') ∧
      ∃ dgram, udploopPack 1500 [] [p, q] = some dgram ∧
        (udploopSlices 8 dgram).map (·.bytes dgram) = [p, q] := by
  intro keys
  obtain ⟨p, -, -, hlenp, hp⟩ := txPacket_ping keys 0xc3 true
  obtain ⟨q, -, -, hlenq, hq⟩ := txPacket_ping keys 0xe3 false
  obtain ⟨dgram, hpack, hsplit⟩ := (coalescing aes128).2 [p, q] none (by
    intro x hx
    rcases List.mem_pair.1 hx with rfl | rfl
    · exact ⟨_, _, _, _, _, _, _, _, _, _, _, by decide, by decide, hp⟩
    · exact ⟨_, _, _, _, _, _, _, _, _, _, _, by decide, by decide, hq⟩) (by simp) 1500 (by
    simp only [Option.toList_none, List.append_nil, List.flatten_cons, List.flatten_nil,
      List.length_append]
    omega)
  exact ⟨_, _, _, _, hp, hq, dgram, hpack, hsplit 8 (by simp)⟩

/-- The type bits of byte 0 decide whether a token is skipped: under a Handshake byte 0 the empty
token of an Initial packet is read as a Length of 0. -/
theorem coalesceNext_mismatch (keys : InitialKeys) (hp : Block → Block) (pn : ℕ) (frames : Bytes) :
    let pkt := protectedPacket aes keys hp hpLongMask (lhdrByte0Pnlen 0xe3 txPnLen)
      (lhdrMid 1 [] [] true [] (4 + frames.length + 16)) pn frames
    coalesceNext pkt = some (pkt.take 8, pkt.drop 8) := by
  intro pkt
  obtain ⟨b', pn', hb', -, heq⟩ := protectedPacket_eq aes keys hp hpLongMask
    (lhdrByte0Pnlen 0xe3 txPnLen) (lhdrMid 1 [] [] true [] (4 + frames.length + 16)) pn frames
  have hmid : lhdrMid 1 [] [] true [] (4 + frames.length + 16) =
      lhdrMid 1 [] [] false [] 0 ++ varintEncode (4 + frames.length + 16) := rfl
  have hform : b' &&& 0x80 ≠ 0 := by
    rw [hb', xor_and_of_disjoint (by rfl)]
    decide
  obtain ⟨rest, hpkt⟩ : ∃ rest, pkt = b' :: (lhdrMid 1 [] [] false [] 0 ++ rest) := by
    rw [hmid, List.append_assoc] at heq
    exact ⟨_, heq⟩
  have hparse : lhdrParse pkt false =
      some { dcid := [], scid := [], token := [], length := 0, pnOff := 8 } := by
    rw [hpkt]
    exact lhdrParse_mid 1 false [] rest hform (by decide) (by decide) (by decide) (by decide)
  have hhead : pkt.getD 0 0 = b' := by rw [hpkt]; rfl
  have height : 8 ≤ pkt.length := by
    rw [hpkt, List.length_cons, List.length_append]
    have : (lhdrMid 1 [] [] false [] 0).length = 7 := rfl
    omega
  have hlen : longPacketLen pkt = some 8 :=
    longPacketLen_of_lhdrParse (by rw [hhead, hb', longType_of_protected]; decide) hparse height
  have hne : pkt.isEmpty = false := by rw [hpkt]; rfl
  rw [coalesceNext, hne, hhead, if_neg (by simp), if_neg hform, hlen]
  rfl

/-- **A packet under the wrong type is torn apart**: `quic_tx_packet` takes the type and the flag
for the token apart, and where they disagree the splitter does not give the packet back. -/
theorem coalescing_mismatch :
    let keys : InitialKeys := ⟨Vector.replicate 16 1, Vector.replicate 12 2, Vector.replicate 16 3⟩
    ∃ pkt total,
      txPacket aes128 keys (aes128 keys.hp) 0xe3 [] [] true [] 0 [0x01] 1500 = some (pkt, total) ∧
      udploopPack 1500 [] [pkt] = some pkt ∧
      ∀ maxPkts, (udploopSlices maxPkts pkt).map (·.bytes pkt) ≠ [pkt] := by
  intro keys
  obtain ⟨pkt, hpkt, hlong, hlen, htx⟩ := txPacket_ping keys 0xe3 true
  have hnext : coalesceNext pkt = some (pkt.take 8, pkt.drop 8) := by
    rw [hpkt]
    exact coalesceNext_mismatch aes128 keys (aes128 keys.hp) 0 [0x01]
  refine ⟨pkt, _, htx, ?_, fun maxPkts heq => ?_⟩
  · rw [udploopPack_eq (by simp only [List.flatten_singleton, List.length_nil]; omega)]
    simp
  · rw [udploopSlices, map_bytes_udploopSplitFrom _ _ (Nat.zero_le _), List.drop_zero] at heq
    cases maxPkts with
    | zero => cases heq
    | succ n =>
      rw [udploopSplit, hnext] at heq
      have hshort := congrArg List.length (List.cons.inj heq).1
      rw [List.length_take] at hshort
      omega

end Packet

end QuicVibe
