import QuicVibe.Frame.Spans
/-!
# The frames a peer may send

The frames of RFC 9000 19 on the wire in all their layouts: an integer may be written longer than it
has to be, a STREAM frame may leave out its offset and its length.
-/

namespace QuicVibe

namespace Frame

open Packet

/-! ## Integers and data -/

/-- An integer in any of the four lengths that hold it (RFC 9000 16). -/
structure Vint where
  value : ℕ
  cls : Fin 4
  fits : value < 2 ^ (8 * 2 ^ cls.val - 2)

namespace Vint

def wire (v : Vint) : Bytes := varintBytes (2 ^ v.cls.val) v.value

/-- A number in one byte. -/
def short (value : ℕ) (h : value < 64) : Vint := ⟨value, 0, h⟩

theorem le_varintMax (v : Vint) : v.value ≤ varintMax := by
  have hlt := v.fits
  have hpow : 2 ^ (8 * 2 ^ v.cls.val - 2) ≤ 2 ^ 62 := by
    refine Nat.pow_le_pow_right (by decide) ?_
    have : 2 ^ v.cls.val ≤ 2 ^ 3 := Nat.pow_le_pow_right (by decide) (by omega)
    omega
  have hmax : varintMax = 2 ^ 62 - 1 := rfl
  omega

theorem varintDecode_wire (v : Vint) (rest : Bytes) :
    varintDecode (v.wire ++ rest) = some (v.value, v.wire.length) := by
  obtain ⟨value, cls, hfits⟩ := v
  have hread : ∀ n, n + 1 ∈ [1, 2, 4, 8] → value / 256 ^ n < 64 →
      varintDecode (varintBytes (n + 1) value ++ rest) =
        some (value, (varintBytes (n + 1) value).length) := by
    intro n hmem hhigh
    rw [varintDecode_varintBytes hmem hhigh, length_varintBytes]
  match cls, hfits with
  | 0, hfits => exact hread 0 (by decide) (by simpa using hfits)
  | 1, hfits => exact hread 1 (by decide) (Nat.div_lt_of_lt_mul hfits)
  | 2, hfits => exact hread 3 (by decide) (Nat.div_lt_of_lt_mul hfits)
  | 3, hfits => exact hread 7 (by decide) (Nat.div_lt_of_lt_mul hfits)

end Vint

variable {buf rest tail : Bytes} {off : ℕ}

theorem RestAt.vintTake {v : Vint} (h : RestAt buf off (v.wire ++ rest)) :
    varintTake buf off = some (v.value, off + v.wire.length) ∧
      RestAt buf (off + v.wire.length) rest := by
  obtain ⟨front, rfl, rfl⟩ := h
  refine ⟨?_, front ++ v.wire, by simp, (List.append_assoc ..).symm⟩
  simp [varintTake, v.varintDecode_wire]

/-- Data behind its length. -/
structure Blob where
  length : Vint
  data : Bytes
  length_eq : length.value = data.length

def Blob.wire (b : Blob) : Bytes := b.length.wire ++ b.data

theorem RestAt.blobTake {b : Blob} (h : RestAt buf off (b.wire ++ rest)) :
    varintTake buf off = some (b.data.length, off + b.length.wire.length) ∧
      readBytes buf (off + b.length.wire.length) b.data.length =
        some (b.data, off + b.wire.length) := by
  rw [Blob.wire, List.append_assoc] at h
  obtain ⟨hlength, h⟩ := RestAt.vintTake h
  rw [b.length_eq] at hlength
  refine ⟨hlength, ?_⟩
  rw [readBytes_of_restAt h, Blob.wire, List.length_append, Nat.add_assoc]

/-! ## STREAM -/

/-- A STREAM frame (RFC 9000 19.8): the offset is there with the OFF bit and the length with the LEN
bit, so the eight types are the choices of offset, length and FIN. -/
structure StreamLayout where
  streamId : Vint
  offset : Option Vint
  length : Option Vint
  fin : Bool
  data : Bytes
  length_eq : ∀ l ∈ length, l.value = data.length

/-- A field that may be left out. -/
def optWire (v : Option Vint) : Bytes := v.elim [] Vint.wire

namespace StreamLayout

variable (f : StreamLayout)

def type : UInt8 :=
  streamBase ||| (if f.offset.isSome then streamOff else 0) |||
    (if f.length.isSome then streamLen else 0) ||| (if f.fin then streamFin else 0)

/-- What stands in front of the length. -/
def head : Bytes := f.type :: (f.streamId.wire ++ optWire f.offset)

def wire : Bytes := f.head ++ (optWire f.length ++ f.data)

/-- What the frame says. Without an offset the data starts the stream. -/
def frame : StreamFrame where
  streamId := f.streamId.value
  offset := f.offset.elim 0 Vint.value
  data := f.data
  fin := f.fin

theorem type_off : f.type &&& streamOff = 0 ↔ f.offset = none := by
  unfold type
  cases f.offset <;> split_ifs <;> simp_all +decide

theorem type_fin : decide (f.type &&& streamFin ≠ 0) = f.fin := by
  unfold type
  split_ifs <;> simp_all +decide

theorem frameLen_type (buf : Bytes) : frameLen f.type.toNat buf = (getStream buf).map (·.2) := by
  unfold type
  split_ifs <;> rfl

theorem type_le : f.type.toNat ≤ 63 := by
  unfold type
  split_ifs <;> decide

/-- The decoder reads the head as it is meant, and then a length whether or not there is one. -/
theorem getStream_head (back : Bytes) :
    getStream (f.head ++ back) =
      (varintTake (f.head ++ back) f.head.length).bind fun p =>
        (readBytes (f.head ++ back) p.2 p.1).map fun q =>
          ({ f.frame with data := q.1 }, q.2) := by
  have hbyte : (f.head ++ back).getD 0 0 = f.type := rfl
  have hrest : RestAt (f.head ++ back) 1 (f.streamId.wire ++ (optWire f.offset ++ back)) :=
    ⟨[f.type], rfl, by simp [head]⟩
  obtain ⟨hid, hrest⟩ := RestAt.vintTake hrest
  have hoffset : takeOptOffset (f.head ++ back) (1 + f.streamId.wire.length) f.type =
      some (f.frame.offset, f.head.length) := by
    unfold takeOptOffset
    cases hoff : f.offset with
    | none =>
      rw [if_pos ((f.type_off).2 hoff)]
      simp [frame, head, optWire, hoff, Nat.add_comm]
    | some v =>
      rw [if_neg (by rw [f.type_off, hoff]; simp)]
      rw [hoff] at hrest
      rw [(RestAt.vintTake hrest).1]
      simp [frame, head, optWire, hoff, Nat.add_comm, Nat.add_left_comm]
  unfold getStream
  simp only [hbyte, hid, hoffset, Option.bind_eq_bind, Option.bind_some, type_fin]
  cases varintTake (f.head ++ back) f.head.length with
  | none => rfl
  | some p =>
    simp only [Option.bind_some]
    cases readBytes (f.head ++ back) p.2 p.1 <;> rfl

theorem getStream_of_some {l : Vint} (hl : f.length = some l) (tail : Bytes) :
    getStream (f.wire ++ tail) = some (f.frame, f.wire.length) := by
  have hwire : f.wire ++ tail = f.head ++ (l.wire ++ (f.data ++ tail)) := by
    simp [wire, hl, optWire]
  have hrest : RestAt (f.head ++ (l.wire ++ (f.data ++ tail))) f.head.length
      (l.wire ++ (f.data ++ tail)) := ⟨f.head, rfl, rfl⟩
  obtain ⟨hlength, hrest⟩ := RestAt.vintTake hrest
  rw [f.length_eq l hl] at hlength
  rw [hwire, getStream_head, hlength, Option.bind_some, readBytes_of_restAt hrest, Option.map_some]
  simp [frame, wire, hl, optWire, Nat.add_assoc]

theorem getStream_of_none (hl : f.length = none) :
    getStream f.wire = (varintDecode f.data).bind fun p =>
      if p.2 + p.1 ≤ f.data.length then
        some ({ f.frame with data := (f.data.drop p.2).take p.1 }, f.head.length + (p.2 + p.1))
      else none := by
  have hwire : f.wire = f.head ++ f.data := by simp [wire, hl, optWire]
  rw [hwire, getStream_head, varintTake, List.drop_left]
  cases varintDecode f.data with
  | none => rfl
  | some p =>
    obtain ⟨v, n⟩ := p
    simp only [Option.bind_eq_bind, Option.bind_some, Option.pure_def, readBytes,
      List.length_append, ← List.drop_drop, List.drop_left]
    by_cases hfit : n + v ≤ f.data.length
    · rw [if_pos hfit, if_neg (by omega), Option.map_some, Nat.add_assoc]
    · rw [if_neg hfit, if_pos (by omega)]
      rfl

end StreamLayout

/-- **STREAM frames are read as they are meant exactly when they carry their length.** For every
layout of the frame, followed by anything if it says where it ends and by nothing if it does not. -/
theorem getStream_layout_iff (f : StreamLayout) (tail : Bytes) (hend : f.length = none → tail = []) :
    (getStream (f.wire ++ tail)).map (·.1) = some f.frame ↔ f.length.isSome := by
  cases hl : f.length with
  | some l => simp [f.getStream_of_some hl]
  | none =>
    rw [hend hl, List.append_nil, f.getStream_of_none hl]
    constructor
    · intro h
      cases hdec : varintDecode f.data with
      | none => simp [hdec] at h
      | some p =>
        obtain ⟨v, n⟩ := p
        obtain ⟨-, hpos, hle⟩ := varintDecode_eq_some hdec
        rw [hdec, Option.bind_some] at h
        split at h
        · -- the data that is read is a proper part of the data that was sent
          have hdata := congrArg (fun g : Option StreamFrame => g.map (·.data.length)) h
          simp only [Option.map_some, Option.some.injEq, List.length_take, List.length_drop,
            StreamLayout.frame] at hdata
          omega
        · cases h
    · intro h
      cases h

/-- Two bytes at offset 5 of stream 4, with their length. -/
def countedStream : StreamLayout where
  streamId := ⟨4, 0, by decide⟩
  offset := some ⟨5, 1, by decide⟩
  length := some ⟨2, 0, by decide⟩
  fin := true
  data := [0x01, 0x61]
  length_eq := by simp

theorem getStream_countedStream :
    (countedStream.length = none → ([0x01] : Bytes) = []) ∧
      (getStream (countedStream.wire ++ [0x01])).map (·.1) = some countedStream.frame :=
  ⟨nofun, (getStream_layout_iff countedStream [0x01] nofun).2 rfl⟩

/-- The same bytes at the start of stream 4, in a frame that reaches to the end of the packet. -/
def bareStream : StreamLayout where
  streamId := ⟨4, 0, by decide⟩
  offset := none
  length := none
  fin := false
  data := [0x01, 0x61]
  length_eq := by simp

/-- The first of the two bytes is taken for a length. -/
theorem getStream_bareStream :
    bareStream.wire = [0x08, 0x04, 0x01, 0x61] ∧ bareStream.frame.data = [0x01, 0x61] ∧
      getStream bareStream.wire = some ({ bareStream.frame with data := [0x61] }, 4) := by
  decide

/-! ## ACK -/

/-- Each gap and length stays above zero below the range before it. -/
def PairsFit : ℕ → List (Vint × Vint) → Prop
  | _, [] => True
  | lo, (gap, len) :: pairs =>
    gap.value + 2 + len.value ≤ lo ∧ PairsFit (lo - gap.value - 2 - len.value) pairs

/-- An ACK frame (RFC 9000 19.3), with ECN counts or without. -/
structure AckLayout where
  largest : Vint
  delay : Vint
  count : Vint
  first : Vint
  pairs : List (Vint × Vint)
  ecn : Option (Vint × Vint × Vint)
  count_eq : count.value = pairs.length
  first_le : first.value ≤ largest.value
  pairs_fit : PairsFit (largest.value - first.value) pairs

def pairsWire (pairs : List (Vint × Vint)) : Bytes := pairs.flatMap fun p => p.1.wire ++ p.2.wire

def ecnWire : Option (Vint × Vint × Vint) → Bytes
  | none => []
  | some (ect0, ect1, ce) => ect0.wire ++ (ect1.wire ++ ce.wire)

namespace AckLayout

variable (f : AckLayout)

def type : UInt8 := if f.ecn.isSome then frameAckEcn else frameAck

def body : Bytes :=
  f.largest.wire ++ (f.delay.wire ++ (f.count.wire ++ (f.first.wire ++
    (pairsWire f.pairs ++ ecnWire f.ecn))))

def wire : Bytes := f.type :: f.body

theorem type_le : f.type.toNat ≤ 63 := by
  unfold type
  split_ifs <;> decide

end AckLayout

theorem takeAckPairs_pairsWire {pairs : List (Vint × Vint)} {lo : ℕ} (hlo : lo ≤ varintMax)
    (hfit : PairsFit lo pairs) (h : RestAt buf off (pairsWire pairs ++ tail)) :
    ∃ ranges, takeAckPairs buf pairs.length off lo =
        some (ranges, off + (pairsWire pairs).length) ∧
      RestAt buf (off + (pairsWire pairs).length) tail := by
  induction pairs generalizing lo off with
  | nil => exact ⟨[], rfl, h⟩
  | cons p pairs ih =>
    obtain ⟨gap, len⟩ := p
    have hmax : varintMax = 4611686018427387903 := rfl
    obtain ⟨hroom, hfit⟩ := hfit
    have hwire : pairsWire ((gap, len) :: pairs) = gap.wire ++ (len.wire ++ pairsWire pairs) := by
      simp [pairsWire]
    rw [hwire] at h ⊢
    simp only [List.append_assoc] at h
    obtain ⟨hgap, h⟩ := RestAt.vintTake h
    obtain ⟨hlen, h⟩ := RestAt.vintTake h
    have hhi : sub64 (sub64 lo gap.value) 2 = lo - gap.value - 2 := gap_eq hlo (by omega)
    have hlow : sub64 (lo - gap.value - 2) len.value = lo - gap.value - 2 - len.value :=
      sub64_of_le (by omega) (by omega)
    have hpair : pairFits lo gap.value len.value = true := by
      rw [pairFits, hhi, u64_of_lt (by omega)]
      simp
      omega
    obtain ⟨ranges, hrest, h⟩ := ih (by omega) hfit h
    refine ⟨⟨lo - gap.value - 2, lo - gap.value - 2 - len.value⟩ :: ranges, ?_, ?_⟩
    · simp only [List.length_cons, takeAckPairs, hgap, hlen, hpair, hhi, hlow, hrest,
        Option.bind_eq_bind, Option.bind_some, Bool.not_true, Bool.false_eq_true, if_false]
      simp [Nat.add_assoc]
    · simpa [Nat.add_assoc] using h

theorem takeAckEcn_ecnWire {ecn : Option (Vint × Vint × Vint)}
    (h : RestAt buf off (ecnWire ecn ++ tail)) :
    ∃ counts, takeAckEcn buf off ecn.isSome = some (counts, off + (ecnWire ecn).length) := by
  cases ecn with
  | none => exact ⟨none, rfl⟩
  | some e =>
    obtain ⟨ect0, ect1, ce⟩ := e
    simp only [ecnWire, List.append_assoc] at h ⊢
    obtain ⟨htake0, h⟩ := RestAt.vintTake h
    obtain ⟨htake1, h⟩ := RestAt.vintTake h
    obtain ⟨htakeCe, -⟩ := RestAt.vintTake h
    refine ⟨some ⟨ect0.value, ect1.value, ce.value⟩, ?_⟩
    simp only [takeAckEcn, Option.isSome_some, htake0, htake1, htakeCe, Option.bind_eq_bind,
      Option.bind_some, Bool.not_true, Bool.false_eq_true, if_false]
    simp [Nat.add_assoc]

/-- **An ACK frame is measured exactly when its ranges fit the array.** -/
theorem ackDecode_layout_iff (f : AckLayout) (tail : Bytes) :
    (ackDecode (f.wire ++ tail)).map (·.2) = some f.wire.length ↔
      f.pairs.length + 1 ≤ ackMaxRanges := by
  have hmax : varintMax = 4611686018427387903 := rfl
  have hbyte : ((f.wire ++ tail).getD 0 0 == frameAckEcn) = f.ecn.isSome := by
    simp only [AckLayout.wire, AckLayout.type, List.cons_append, List.getD_cons_zero]
    cases f.ecn <;> rfl
  have h : RestAt (f.wire ++ tail) 1 (f.body ++ tail) := ⟨[f.type], rfl, rfl⟩
  have hlength : f.wire.length = 1 + f.body.length := Nat.add_comm ..
  simp only [AckLayout.body, List.append_assoc] at h
  obtain ⟨hlargest, h⟩ := RestAt.vintTake h
  obtain ⟨hdelay, h⟩ := RestAt.vintTake h
  obtain ⟨hcount, h⟩ := RestAt.vintTake h
  obtain ⟨hfirst, h⟩ := RestAt.vintTake h
  have hlow := f.largest.le_varintMax
  have hcountMax := f.count.le_varintMax
  have hlo : sub64 f.largest.value f.first.value = f.largest.value - f.first.value :=
    sub64_of_le f.first_le (by omega)
  obtain ⟨ranges, hpairs, h⟩ := takeAckPairs_pairsWire (by omega) f.pairs_fit h
  obtain ⟨counts, hecn⟩ := takeAckEcn_ecnWire h
  have hle := f.first_le
  rw [f.count_eq] at hcount hcountMax
  unfold ackDecode
  simp only [hlargest, hdelay, hcount, hfirst, hlo, hpairs, hbyte, hecn, Option.bind_eq_bind,
    Option.bind_some, Option.pure_def]
  rw [u64_of_lt (by omega)]
  by_cases hmany : f.pairs.length + 1 ≤ ackMaxRanges
  · rw [if_neg (by omega), Option.map_some, hlength, AckLayout.body]
    simp [hmany, Nat.add_assoc]
  · rw [if_pos (by omega)]
    simp [hmany]

/-! ## All frames -/

/-- The frames of RFC 9000 19. -/
inductive WireFrame
  | padding
  | ping
  | ack (f : AckLayout)
  | resetStream (streamId errorCode finalSize : Vint)
  | stopSending (streamId errorCode : Vint)
  | crypto (offset : Vint) (data : Blob)
  | newToken (token : Blob) (nonempty : token.data ≠ [])
  | stream (f : StreamLayout)
  | maxData (maximum : Vint)
  | maxStreamData (streamId maximum : Vint)
  | maxStreams (uni : Bool) (maximum : Vint)
  | dataBlocked (limit : Vint)
  | streamDataBlocked (streamId limit : Vint)
  | streamsBlocked (uni : Bool) (limit : Vint)
  | newConnectionId (seq retirePriorTo : Vint) (cid : Bytes)
      (hcid : 1 ≤ cid.length ∧ cid.length ≤ 20) (token : Vector UInt8 16)
  | retireConnectionId (seq : Vint)
  | pathChallenge (data : Vector UInt8 8)
  | pathResponse (data : Vector UInt8 8)
  | connectionClose (errorCode frameType : Vint) (reason : Blob)
  | connectionCloseApp (errorCode : Vint) (reason : Blob)
  | handshakeDone

namespace WireFrame

def type : WireFrame → UInt8
  | .padding => 0x00
  | .ping => 0x01
  | .ack f => f.type
  | .resetStream .. => 0x04
  | .stopSending .. => 0x05
  | .crypto .. => 0x06
  | .newToken .. => 0x07
  | .stream f => f.type
  | .maxData .. => 0x10
  | .maxStreamData .. => 0x11
  | .maxStreams uni _ => if uni then 0x13 else 0x12
  | .dataBlocked .. => 0x14
  | .streamDataBlocked .. => 0x15
  | .streamsBlocked uni _ => if uni then 0x17 else 0x16
  | .newConnectionId .. => 0x18
  | .retireConnectionId .. => 0x19
  | .pathChallenge .. => 0x1a
  | .pathResponse .. => 0x1b
  | .connectionClose .. => 0x1c
  | .connectionCloseApp .. => 0x1d
  | .handshakeDone => 0x1e

/-- What stands behind the type. -/
def body : WireFrame → Bytes
  | .padding | .ping | .handshakeDone => []
  | .ack f => f.body
  | .resetStream id code size => id.wire ++ (code.wire ++ size.wire)
  | .stopSending id code => id.wire ++ code.wire
  | .crypto offset data => offset.wire ++ data.wire
  | .newToken token _ => token.wire
  | .stream f => f.streamId.wire ++ (optWire f.offset ++ (optWire f.length ++ f.data))
  | .maxData v | .maxStreams _ v | .dataBlocked v | .streamsBlocked _ v | .retireConnectionId v =>
    v.wire
  | .maxStreamData id v | .streamDataBlocked id v => id.wire ++ v.wire
  | .newConnectionId seq retire cid _ token =>
    seq.wire ++ (retire.wire ++ (UInt8.ofNat cid.length :: (cid ++ token.toList)))
  | .pathChallenge data | .pathResponse data => data.toList
  | .connectionClose code type reason => code.wire ++ (type.wire ++ reason.wire)
  | .connectionCloseApp code reason => code.wire ++ reason.wire

def wire (f : WireFrame) : Bytes := f.type :: f.body

/-- The frame has no end of its own: nothing can follow it in a packet. -/
def ToEnd : WireFrame → Prop
  | .stream f => f.length = none
  | _ => False

/-- The frames the walker measures right. It knows seven kinds; of the ACK frames those that fit its
array, and of the STREAM frames without a length those whose data happens to start with one. -/
def Measured : WireFrame → Prop
  | .padding | .ping | .handshakeDone | .crypto .. | .connectionClose .. | .connectionCloseApp .. =>
    True
  | .ack f => f.pairs.length + 1 ≤ ackMaxRanges
  | .stream f => f.length = none →
      ∃ v n, varintDecode f.data = some (v, n) ∧ n + v = f.data.length
  | _ => False

end WireFrame

theorem getCrypto_wire (offset : Vint) (data : Blob) (tail : Bytes) :
    (getCrypto ((WireFrame.crypto offset data).wire ++ tail)).map (·.2) =
      some (WireFrame.crypto offset data).wire.length := by
  have h : RestAt ((WireFrame.crypto offset data).wire ++ tail) 1
      (offset.wire ++ (data.wire ++ tail)) :=
    ⟨[0x06], rfl, by simp [WireFrame.wire, WireFrame.type, WireFrame.body]⟩
  obtain ⟨hoffset, h⟩ := RestAt.vintTake h
  obtain ⟨hlength, hdata⟩ := RestAt.blobTake h
  unfold getCrypto
  simp only [hoffset, hlength, hdata, Option.bind_eq_bind, Option.bind_some, Option.pure_def,
    Option.map_some]
  simp only [WireFrame.wire, WireFrame.body, List.length_cons, List.length_append,
    Option.some.injEq]
  omega

theorem getConnClose_wire (code type : Vint) (reason : Blob) (tail : Bytes) :
    (getConnClose ((WireFrame.connectionClose code type reason).wire ++ tail)).map (·.2) =
      some (WireFrame.connectionClose code type reason).wire.length := by
  have h : RestAt ((WireFrame.connectionClose code type reason).wire ++ tail) 1
      (code.wire ++ (type.wire ++ (reason.wire ++ tail))) :=
    ⟨[0x1c], rfl, by simp [WireFrame.wire, WireFrame.type, WireFrame.body]⟩
  have hbyte : (((WireFrame.connectionClose code type reason).wire ++ tail).getD 0 0 ==
      connCloseApp) = false := rfl
  obtain ⟨hcode, h⟩ := RestAt.vintTake h
  obtain ⟨htype, h⟩ := RestAt.vintTake h
  obtain ⟨hlength, hdata⟩ := RestAt.blobTake h
  unfold getConnClose
  simp only [hbyte, hcode, htype, hlength, hdata, Option.bind_eq_bind, Option.bind_some,
    Option.pure_def, Option.map_some, Bool.false_eq_true, if_false]
  simp only [WireFrame.wire, WireFrame.body, List.length_cons, List.length_append,
    Option.some.injEq]
  omega

theorem getConnClose_app_wire (code : Vint) (reason : Blob) (tail : Bytes) :
    (getConnClose ((WireFrame.connectionCloseApp code reason).wire ++ tail)).map (·.2) =
      some (WireFrame.connectionCloseApp code reason).wire.length := by
  have h : RestAt ((WireFrame.connectionCloseApp code reason).wire ++ tail) 1
      (code.wire ++ (reason.wire ++ tail)) :=
    ⟨[0x1d], rfl, by simp [WireFrame.wire, WireFrame.type, WireFrame.body]⟩
  have hbyte : (((WireFrame.connectionCloseApp code reason).wire ++ tail).getD 0 0 ==
      connCloseApp) = true := rfl
  obtain ⟨hcode, h⟩ := RestAt.vintTake h
  obtain ⟨hlength, hdata⟩ := RestAt.blobTake h
  unfold getConnClose
  simp only [hbyte, hcode, hlength, hdata, Option.bind_eq_bind, Option.bind_some, Option.pure_def,
    Option.map_some, if_true]
  simp only [WireFrame.wire, WireFrame.body, List.length_cons, List.length_append,
    Option.some.injEq]
  omega

/-- A STREAM frame is measured right exactly when it carries its length, or its data does. -/
theorem getStream_measured_iff (f : StreamLayout) (tail : Bytes)
    (hend : f.length = none → tail = []) :
    (getStream (f.wire ++ tail)).map (·.2) = some f.wire.length ↔
      (WireFrame.stream f).Measured := by
  cases hl : f.length with
  | some l => simp [f.getStream_of_some hl, WireFrame.Measured, hl]
  | none =>
    have hlen : f.wire.length = f.head.length + f.data.length := by
      simp [StreamLayout.wire, hl, optWire]
    rw [hend hl, List.append_nil, f.getStream_of_none hl, WireFrame.Measured, hlen]
    constructor
    · intro h _
      cases hdec : varintDecode f.data with
      | none => simp [hdec] at h
      | some p =>
        rw [hdec, Option.bind_some] at h
        split at h
        · have hn := Option.some.inj h
          dsimp only at hn
          exact ⟨p.1, p.2, rfl, by omega⟩
        · cases h
    · intro h
      obtain ⟨v, n, hdec, hn⟩ := h hl
      rw [hdec, Option.bind_some, if_pos (by dsimp only; omega), Option.map_some]
      dsimp only
      rw [hn]

namespace WireFrame

theorem type_le (f : WireFrame) : f.type.toNat ≤ 63 := by
  cases f with
  | ack f => exact f.type_le
  | stream f => exact f.type_le
  | maxStreams uni _ => cases uni <;> exact Nat.le_of_ble_eq_true rfl
  | streamsBlocked uni _ => cases uni <;> exact Nat.le_of_ble_eq_true rfl
  | _ => exact Nat.le_of_ble_eq_true rfl

theorem wire_stream (f : StreamLayout) : (stream f).wire = f.wire := by
  simp [wire, type, body, StreamLayout.wire, StreamLayout.head]

/-- **What the walker measures right**, among all frames. -/
theorem frameLen_iff (f : WireFrame) (tail : Bytes) (hend : f.ToEnd → tail = []) :
    frameLen f.type.toNat (f.wire ++ tail) = some f.wire.length ↔ f.Measured := by
  cases f with
  | padding => exact iff_of_true rfl trivial
  | ping => exact iff_of_true rfl trivial
  | handshakeDone => exact iff_of_true rfl trivial
  | ack f =>
    have hlen : frameLen f.type.toNat (f.wire ++ tail) = (ackDecode (f.wire ++ tail)).map (·.2) := by
      unfold AckLayout.type
      split <;> rfl
    exact (Eq.congr_left hlen).trans (ackDecode_layout_iff f tail)
  | stream f =>
    rw [wire_stream]
    exact (Eq.congr_left (f.frameLen_type _)).trans (getStream_measured_iff f tail hend)
  | crypto offset data => exact iff_of_true (getCrypto_wire offset data tail) trivial
  | connectionClose code type reason =>
    exact iff_of_true (getConnClose_wire code type reason tail) trivial
  | connectionCloseApp code reason =>
    exact iff_of_true (getConnClose_app_wire code reason tail) trivial
  | maxStreams uni v => cases uni <;> exact iff_of_false nofun id
  | streamsBlocked uni v => cases uni <;> exact iff_of_false nofun id
  | _ => exact iff_of_false nofun id

/-- The frames of a packet, by their types. -/
def typed (frames : List WireFrame) : List (ℕ × Bytes) := frames.map fun f => (f.type.toNat, f.wire)

/-- A frame that reaches to the end of the packet is the last one. -/
def EndsLast : List WireFrame → Prop
  | [] => True
  | f :: frames => (f.ToEnd → frames = []) ∧ EndsLast frames

theorem measures_typed_iff {frames : List WireFrame} (h : EndsLast frames) :
    Measures (typed frames) ↔ ∀ f ∈ frames, f.Measured := by
  induction frames with
  | nil => simp [typed, Measures]
  | cons f frames ih =>
    obtain ⟨hend, h⟩ := h
    have hmax : varintMax = 4611686018427387903 := rfl
    have htype := f.type_le
    have hwire : f.wire = varintEncode f.type.toNat ++ f.body := by
      rw [varintEncode_type htype, UInt8.ofNat_toNat]
      rfl
    have hmeasure := measure_append_iff (by omega : f.type.toNat ≤ varintMax) f.body
      (joined (typed frames))
    rw [← hwire] at hmeasure
    have htail : f.ToEnd → joined (typed frames) = [] := fun ht => by rw [hend ht]; rfl
    rw [List.forall_mem_cons, ← ih h, ← frameLen_iff f _ htail, ← hmeasure]
    rfl

end WireFrame

/-- **A packet is walked as it was sent** exactly when the walker measures each of its frames. -/
theorem spans_payload_iff {frames : List WireFrame} (h : WireFrame.EndsLast frames) :
    spans (joined (WireFrame.typed frames)) = layout 0 (WireFrame.typed frames) ↔
      ∀ f ∈ frames, f.Measured :=
  (spans_joined_iff _).trans (WireFrame.measures_typed_iff h)

end Frame

end QuicVibe
