import QuicVibe.Frame.Codec
/-!
# Frames round trip

Every encoder appends its fields one after the other and fails as soon as one does not fit; every
decoder moves a cursor over the same fields. Both halves are proved field by field.
-/

namespace QuicVibe

namespace Frame

open Packet

/-! ## Writers -/

/-- Varints one after the other. -/
def varints (vs : List ℕ) : Bytes := vs.flatMap varintEncode

@[simp] theorem varints_nil : varints [] = [] := rfl

@[simp] theorem varints_append (vs ws : List ℕ) : varints (vs ++ ws) = varints vs ++ varints ws :=
  List.flatMap_append

@[simp] theorem varints_cons (v : ℕ) (vs : List ℕ) :
    varints (v :: vs) = varintEncode v ++ varints vs := List.flatMap_cons ..

variable {out : Bytes} {cap : ℕ} {vs : List ℕ} {f : StreamFrame}

/-- **Appending values in range** succeeds exactly when all of them fit. -/
theorem putVarints_eq_ite (hout : out.length ≤ cap) (hvs : ∀ v ∈ vs, v ≤ varintMax) :
    putVarints out cap vs =
      if (out ++ varints vs).length ≤ cap then some (out ++ varints vs) else none := by
  induction vs generalizing out with
  | nil => simp [putVarints, hout]
  | cons v vs ih =>
    have hv := hvs v (List.mem_cons_self ..)
    have hrest : ∀ w ∈ vs, w ≤ varintMax := fun w hw => hvs w (List.mem_cons_of_mem _ hw)
    rw [putVarints, varintPut_eq_ite out cap hv, varints_cons, ← List.append_assoc]
    by_cases hfit : (out ++ varintEncode v).length ≤ cap
    · rw [if_pos hfit]
      exact ih hfit hrest
    · -- the first value that does not fit ends it, and the rest only adds to the length
      have hlong : ¬ (out ++ varintEncode v ++ varints vs).length ≤ cap := by
        rw [List.length_append]
        omega
      rw [if_neg hfit, if_neg hlong]
      rfl

theorem putVarints_of_gt (h : ∃ v ∈ vs, varintMax < v) : putVarints out cap vs = none := by
  induction vs generalizing out with
  | nil =>
    obtain ⟨v, hv, -⟩ := h
    cases hv
  | cons v vs ih =>
    rw [putVarints, Option.bind_eq_bind, Option.bind_eq_none_iff]
    intro out' hput
    obtain ⟨w, hw, hgt⟩ := h
    rcases List.mem_cons.1 hw with rfl | hw
    · rw [varintPut_of_gt hgt] at hput
      cases hput
    · exact ih ⟨w, hw, hgt⟩

theorem le_varintMax_of_putVarints {out' : Bytes} (h : putVarints out cap vs = some out') :
    ∀ v ∈ vs, v ≤ varintMax := by
  intro v hv
  by_contra hgt
  rw [putVarints_of_gt ⟨v, hv, Nat.lt_of_not_ge hgt⟩] at h
  cases h

theorem bind_writeBytes (head data : Bytes) :
    ((if head.length ≤ cap then some head else none) >>= fun out => writeBytes out cap data) =
      if (head ++ data).length ≤ cap then some (head ++ data) else none := by
  rw [List.length_append]
  by_cases hhead : head.length ≤ cap
  · rw [if_pos hhead, Option.bind_eq_bind, Option.bind_some, writeBytes]
    by_cases hfit : head.length + data.length ≤ cap
    · rw [if_pos hfit, if_neg (by omega)]
    · rw [if_neg hfit, if_pos (by omega)]
  · rw [if_neg hhead, if_neg (by omega)]
    rfl

/-! ## Readers -/

theorem readBytes_of_restAt {buf data rest : Bytes} {off : ℕ} (h : RestAt buf off (data ++ rest)) :
    readBytes buf off data.length = some (data, off + data.length) := by
  obtain ⟨front, rfl, rfl⟩ := h
  rw [readBytes, if_neg (by simp), List.drop_left, List.take_left]

theorem varintEncode_type {type : ℕ} (h : type ≤ 63) : varintEncode type = [UInt8.ofNat type] := by
  have hlen : varintLen type = 1 := by rw [varintLen, if_pos h]
  have hmod : type % 256 = type := Nat.mod_eq_of_lt (by omega)
  rw [varintEncode, hlen]
  simp [putBe, varintPrefix, hmod]

/-! ## Frames -/

/-- The value has the form `wire`: the encoder writes it exactly when it fits, and the decoder reads
the value back, to its end, from that form followed by anything. -/
def HasWire {F : Type} (encode : ℕ → F → Option Bytes) (decode : Bytes → Option (F × ℕ)) (f : F)
    (wire : Bytes) : Prop :=
  (∀ cap, encode cap f = if wire.length ≤ cap then some wire else none) ∧
    ∀ tail, decode (wire ++ tail) = some (f, wire.length)

theorem HasWire.eq_of_encode {F : Type} {encode : ℕ → F → Option Bytes}
    {decode : Bytes → Option (F × ℕ)} {f : F} {wire : Bytes}
    (hwire : HasWire encode decode f wire) (h : encode cap f = some out) :
    out = wire ∧ out.length ≤ cap := by
  rw [hwire.1] at h
  obtain ⟨hfit, hout⟩ := Option.ite_none_right_eq_some.1 h
  obtain rfl := Option.some.inj hout
  exact ⟨rfl, hfit⟩

/-- The value has a form on the wire. -/
def RoundTrips {F : Type} (encode : ℕ → F → Option Bytes) (decode : Bytes → Option (F × ℕ))
    (f : F) : Prop := ∃ wire, HasWire encode decode f wire

section

variable {F : Type} {encode : ℕ → F → Option Bytes} {decode : Bytes → Option (F × ℕ)} {f : F}
  {type : ℕ} (htype : type ≤ 63) {vs : List ℕ}

include htype

theorem hasWire_of_type (data : Bytes)
    (henc : ∀ cap, encode cap f = if (varints (type :: vs) ++ data).length ≤ cap then
      some (varints (type :: vs) ++ data) else none)
    (hdec : ∀ buf tail, buf.head? = some (UInt8.ofNat type) →
      RestAt buf 1 (varints vs ++ (data ++ tail)) →
      decode buf = some (f, 1 + (varints vs).length + data.length)) :
    HasWire encode decode f (varints (type :: vs) ++ data) := by
  have hwire : varints (type :: vs) = UInt8.ofNat type :: varints vs := by
    rw [varints_cons, varintEncode_type htype]
    rfl
  refine ⟨henc, fun tail => ?_⟩
  have hread := hdec (UInt8.ofNat type :: (varints vs ++ (data ++ tail))) tail
    (List.head?_cons ..) ⟨[UInt8.ofNat type], rfl, rfl⟩
  rw [hwire, List.append_assoc, List.cons_append, hread]
  simp only [List.length_append, List.length_cons, Nat.add_comm 1]

variable (hvs : ∀ v ∈ vs, v ≤ varintMax)

include hvs

theorem forall_type_cons : ∀ v ∈ type :: vs, v ≤ varintMax := by
  have hmax : varintMax = 4611686018427387903 := rfl
  intro v hv
  rcases List.mem_cons.1 hv with rfl | hv
  · omega
  · exact hvs v hv

/-- **A frame with data**: a type byte, varints, and the data. -/
theorem hasWire_of_data {data : Bytes}
    (henc : ∀ cap, encode cap f =
      putVarints [] cap (type :: vs) >>= fun out => writeBytes out cap data)
    (hdec : ∀ buf tail, buf.head? = some (UInt8.ofNat type) →
      RestAt buf 1 (varints vs ++ (data ++ tail)) →
      decode buf = some (f, 1 + (varints vs).length + data.length)) :
    HasWire encode decode f (varints (type :: vs) ++ data) := by
  refine hasWire_of_type htype data (fun cap => ?_) hdec
  rw [henc, putVarints_eq_ite (Nat.zero_le _) (forall_type_cons htype hvs), List.nil_append,
    bind_writeBytes]

/-- **A frame of varints** behind its type byte. -/
theorem hasWire_of_varints (henc : ∀ cap, encode cap f = putVarints [] cap (type :: vs))
    (hdec : ∀ buf tail, buf.head? = some (UInt8.ofNat type) → RestAt buf 1 (varints vs ++ tail) →
      decode buf = some (f, 1 + (varints vs).length)) :
    HasWire encode decode f (varints (type :: vs)) := by
  rw [← List.append_nil (varints (type :: vs))]
  refine hasWire_of_type htype [] (fun cap => ?_) hdec
  rw [henc, putVarints_eq_ite (Nat.zero_le _) (forall_type_cons htype hvs), List.nil_append,
    List.append_nil]

end

/-! ### Data -/

/-- A CRYPTO frame on the wire. -/
def cryptoBytes (f : CryptoFrame) : Bytes :=
  varintEncode frameCrypto ++ (varintEncode f.offset ++ (varintEncode f.data.length ++ f.data))

theorem hasWire_crypto {f : CryptoFrame} (hoff : f.offset ≤ varintMax)
    (hlen : f.data.length ≤ varintMax) : HasWire putCrypto getCrypto f (cryptoBytes f) := by
  have hvs : ∀ v ∈ [f.offset, f.data.length], v ≤ varintMax := by simp [hoff, hlen]
  have hwire : cryptoBytes f = varints [frameCrypto, f.offset, f.data.length] ++ f.data := by
    simp [cryptoBytes]
  rw [hwire]
  refine hasWire_of_data (by decide : frameCrypto ≤ 63) hvs (fun cap => rfl) ?_
  intro buf tail _ h
  simp only [varints_cons, varints_nil, List.append_nil, List.append_assoc] at h
  obtain ⟨hoffset, h⟩ := h.varintTake hoff
  obtain ⟨hlength, h⟩ := h.varintTake hlen
  have hdata := readBytes_of_restAt h
  simp only [getCrypto, hoffset, hlength, hdata, Option.bind_eq_bind, Option.bind_some]
  simp [Nat.add_assoc]

theorem putCrypto_eq_some {f : CryptoFrame} (h : putCrypto cap f = some out) :
    out = cryptoBytes f ∧ HasWire putCrypto getCrypto f out := by
  obtain ⟨head, hhead, -⟩ := Option.bind_eq_some_iff.1 h
  have hrange := le_varintMax_of_putVarints hhead
  have hwire := hasWire_crypto (hrange f.offset (by simp)) (hrange f.data.length (by simp))
  obtain rfl := (hwire.eq_of_encode h).1
  exact ⟨rfl, hwire⟩

section

variable (f : StreamFrame)

theorem streamType_le : (streamType f).toNat ≤ 63 := by
  simp only [streamType]
  split_ifs <;> decide

theorem streamType_off : streamType f &&& streamOff = 0 ↔ f.offset = 0 := by
  simp only [streamType]
  split_ifs <;> simp_all +decide

theorem streamType_fin : decide (streamType f &&& streamFin ≠ 0) = f.fin := by
  simp only [streamType]
  split_ifs <;> simp_all +decide

end

theorem takeOptOffset_of_restAt (hoff : f.offset ≤ varintMax) {buf rest : Bytes} {off : ℕ}
    (h : RestAt buf off (varints (if f.offset = 0 then [] else [f.offset]) ++ rest)) :
    takeOptOffset buf off (streamType f) =
        some (f.offset, off + (varints (if f.offset = 0 then [] else [f.offset])).length) ∧
      RestAt buf (off + (varints (if f.offset = 0 then [] else [f.offset])).length) rest := by
  by_cases hzero : f.offset = 0
  · rw [if_pos hzero] at h ⊢
    rw [takeOptOffset, if_pos ((streamType_off f).2 hzero), hzero]
    exact ⟨rfl, h⟩
  · rw [if_neg hzero] at h ⊢
    rw [takeOptOffset, if_neg (mt (streamType_off f).1 hzero)]
    simp only [varints_cons, varints_nil, List.append_nil, length_varintEncode] at h ⊢
    exact h.varintTake hoff

/-- The varints behind the type of a STREAM frame. -/
def streamFields (f : StreamFrame) : List ℕ :=
  f.streamId :: ((if f.offset = 0 then [] else [f.offset]) ++ [f.data.length])

/-- A STREAM frame on the wire. -/
def streamBytes (f : StreamFrame) : Bytes :=
  varints ((streamType f).toNat :: streamFields f) ++ f.data

theorem putStream_eq (cap : ℕ) (f : StreamFrame) :
    putStream cap f = putVarints [] cap ((streamType f).toNat :: streamFields f) >>=
      fun out => writeBytes out cap f.data := rfl

theorem hasWire_stream (hid : f.streamId ≤ varintMax) (hoff : f.offset ≤ varintMax)
    (hlen : f.data.length ≤ varintMax) : HasWire putStream getStream f (streamBytes f) := by
  have hvs : ∀ v ∈ streamFields f, v ≤ varintMax := by
    simp only [streamFields]
    split_ifs <;> simp [hid, hoff, hlen]
  refine hasWire_of_data (streamType_le f) hvs (fun cap => putStream_eq cap f) ?_
  intro buf tail hhead h
  have hbyte : buf.getD 0 0 = streamType f := by
    rw [List.getD_eq_getElem?_getD, ← List.head?_eq_getElem?, hhead]
    simp
  simp only [streamFields, varints_cons, varints_append, varints_nil, List.append_nil,
    List.append_assoc] at h
  obtain ⟨hstream, h⟩ := h.varintTake hid
  obtain ⟨hoffset, h⟩ := takeOptOffset_of_restAt hoff h
  obtain ⟨hlength, h⟩ := h.varintTake hlen
  have hdata := readBytes_of_restAt h
  simp only [getStream, hbyte, hstream, hoffset, hlength, hdata, Option.bind_eq_bind,
    Option.bind_some, streamType_fin, streamFields]
  simp [Nat.add_assoc]

theorem putStream_eq_some (h : putStream cap f = some out) :
    out = streamBytes f ∧ out.length ≤ cap ∧ HasWire putStream getStream f out := by
  obtain ⟨head, hhead, -⟩ := Option.bind_eq_some_iff.1 ((putStream_eq cap f).symm.trans h)
  have hrange := le_varintMax_of_putVarints hhead
  have hoff : f.offset ≤ varintMax := by
    by_cases hzero : f.offset = 0
    · rw [hzero]
      exact Nat.zero_le _
    · exact hrange _ (by simp [streamFields, hzero])
  have hwire := hasWire_stream (hrange f.streamId (by simp [streamFields])) hoff
    (hrange f.data.length (by simp [streamFields]))
  obtain ⟨rfl, hfit⟩ := hwire.eq_of_encode h
  exact ⟨rfl, hfit, hwire⟩

/-- The type of a CONNECTION_CLOSE frame, and the varints behind it. -/
def connCloseType (f : ConnCloseFrame) : ℕ := (if f.isApp then connCloseApp else connCloseTpt).toNat

def connCloseFields (f : ConnCloseFrame) : List ℕ :=
  f.errorCode :: ((if f.isApp then [] else [f.frameType]) ++ [f.reason.length])

/-- A CONNECTION_CLOSE frame on the wire. -/
def connCloseBytes (f : ConnCloseFrame) : Bytes :=
  varints (connCloseType f :: connCloseFields f) ++ f.reason

theorem connCloseType_le (f : ConnCloseFrame) : connCloseType f ≤ 63 := by
  unfold connCloseType
  split_ifs <;> decide

theorem hasWire_connClose {f : ConnCloseFrame} (hcode : f.errorCode ≤ varintMax)
    (htype : f.frameType ≤ varintMax) (hlen : f.reason.length ≤ varintMax)
    (happ : f.isApp = true → f.frameType = 0) :
    HasWire putConnClose getConnClose f (connCloseBytes f) := by
  have hvs : ∀ v ∈ connCloseFields f, v ≤ varintMax := by
    unfold connCloseFields
    split_ifs <;> simp_all
  refine hasWire_of_data (connCloseType_le f) hvs (fun cap => rfl) ?_
  obtain ⟨isApp, code, frameType, reason⟩ := f
  unfold connCloseType connCloseFields
  intro buf tail hhead h
  have hbyte : (buf.getD 0 0 == connCloseApp) = isApp := by
    rw [List.getD_eq_getElem?_getD, ← List.head?_eq_getElem?, hhead]
    cases isApp <;> rfl
  cases isApp with
  | true =>
    obtain rfl : frameType = 0 := happ rfl
    simp only [if_true, List.nil_append, varints_cons, varints_nil, List.append_nil,
      List.append_assoc] at h
    obtain ⟨herror, h⟩ := h.varintTake hcode
    obtain ⟨hlength, h⟩ := h.varintTake hlen
    have hdata := readBytes_of_restAt h
    simp only [getConnClose, hbyte, herror, hlength, hdata, Option.bind_eq_bind, Option.bind_some,
      if_true]
    simp [Nat.add_assoc]
  | false =>
    simp only [Bool.false_eq_true, if_false, List.cons_append, List.nil_append, varints_cons,
      varints_nil, List.append_nil, List.append_assoc] at h
    obtain ⟨herror, h⟩ := h.varintTake hcode
    obtain ⟨hframe, h⟩ := h.varintTake htype
    obtain ⟨hlength, h⟩ := h.varintTake hlen
    have hdata := readBytes_of_restAt h
    simp only [getConnClose, hbyte, herror, hframe, hlength, hdata, Option.bind_eq_bind,
      Option.bind_some, Bool.false_eq_true, if_false]
    simp [Nat.add_assoc]

theorem roundTrips_connClose {f : ConnCloseFrame} (hcode : f.errorCode ≤ varintMax)
    (htype : f.frameType ≤ varintMax) (hlen : f.reason.length ≤ varintMax)
    (happ : f.isApp = true → f.frameType = 0) : RoundTrips putConnClose getConnClose f :=
  ⟨_, hasWire_connClose hcode htype hlen happ⟩

/-- The part of a CONNECTION_CLOSE frame that is written: no frame type for an application. -/
def ConnCloseFrame.written (f : ConnCloseFrame) : ConnCloseFrame :=
  { f with frameType := if f.isApp then 0 else f.frameType }

theorem putConnClose_eq_some {f : ConnCloseFrame} (h : putConnClose cap f = some out) :
    out = connCloseBytes f ∧ HasWire putConnClose getConnClose f.written out := by
  obtain ⟨head, hhead, -⟩ := Option.bind_eq_some_iff.1 h
  have hrange := le_varintMax_of_putVarints hhead
  obtain ⟨isApp, code, frameType, reason⟩ := f
  cases isApp with
  | true =>
    have hwire := hasWire_connClose (f := ⟨true, code, 0, reason⟩) (hrange code (by simp))
      (Nat.zero_le _) (hrange reason.length (by simp)) fun _ => rfl
    have hput : putConnClose cap ⟨true, code, 0, reason⟩ = some out := h
    obtain rfl := (hwire.eq_of_encode hput).1
    exact ⟨rfl, hwire⟩
  | false =>
    have hwire := hasWire_connClose (f := ⟨false, code, frameType, reason⟩) (hrange code (by simp))
      (hrange frameType (by simp)) (hrange reason.length (by simp)) fun happ => nomatch happ
    obtain rfl := (hwire.eq_of_encode h).1
    exact ⟨rfl, hwire⟩

theorem roundTrips_newToken {f : NewTokenFrame} (hlen : f.token.length ≤ varintMax) :
    RoundTrips newTokenEncode newTokenDecode f := by
  have hvs : ∀ v ∈ [f.token.length], v ≤ varintMax := by simp [hlen]
  refine ⟨_, hasWire_of_data (by decide : frameNewToken ≤ 63) hvs (fun cap => rfl) ?_⟩
  intro buf tail _ h
  simp only [varints_cons, varints_nil, List.append_nil] at h
  obtain ⟨hlength, h⟩ := h.varintTake hlen
  have hdata := readBytes_of_restAt h
  simp only [newTokenDecode, hlength, hdata, Option.bind_eq_bind, Option.bind_some]
  simp

/-! ### Varints -/

section

variable {F : Type} {encode : ℕ → F → Option Bytes} {decode : Bytes → Option (F × ℕ)} {f : F}
  {type : ℕ} (htype : type ≤ 63) {a b : ℕ} (ha : a ≤ varintMax)

include htype ha

theorem roundTrips_one (henc : ∀ cap, encode cap f = putVarints [] cap [type, a])
    (hdec : ∀ buf off, buf.head? = some (UInt8.ofNat type) → varintTake buf 1 = some (a, off) →
      decode buf = some (f, off)) : RoundTrips encode decode f := by
  have hvs : ∀ v ∈ [a], v ≤ varintMax := by simp [ha]
  refine ⟨_, hasWire_of_varints htype hvs henc ?_⟩
  intro buf tail hhead h
  simp only [varints_cons, varints_nil, List.append_nil] at h ⊢
  obtain ⟨hvalue, -⟩ := h.varintTake ha
  rw [hdec buf _ hhead hvalue, length_varintEncode]

theorem roundTrips_two (hb : b ≤ varintMax)
    (henc : ∀ cap, encode cap f = putVarints [] cap [type, a, b])
    (hdec : ∀ buf off off', varintTake buf 1 = some (a, off) →
      varintTake buf off = some (b, off') → decode buf = some (f, off')) :
    RoundTrips encode decode f := by
  have hvs : ∀ v ∈ [a, b], v ≤ varintMax := by simp [ha, hb]
  refine ⟨_, hasWire_of_varints htype hvs henc ?_⟩
  intro buf tail _ h
  simp only [varints_cons, varints_nil, List.append_nil, List.append_assoc] at h ⊢
  obtain ⟨hfst, h⟩ := h.varintTake ha
  obtain ⟨hsnd, -⟩ := h.varintTake hb
  rw [hdec buf _ _ hfst hsnd]
  simp [Nat.add_assoc]

end

theorem putOneVarintFrame_eq (cap type value : ℕ) :
    putOneVarintFrame cap type value = putVarints [] cap [type, value] := by
  simp [putOneVarintFrame, putVarints]

theorem putTwoVarintFrame_eq (cap type a b : ℕ) :
    putTwoVarintFrame cap type a b = putVarints [] cap [type, a, b] := by
  simp [putTwoVarintFrame, putOneVarintFrame, putVarints, Option.bind_assoc]

theorem roundTrips_retireCid {seq : ℕ} (h : seq ≤ varintMax) :
    RoundTrips retireCidEncode retireCidDecode seq :=
  roundTrips_one (by decide : frameRetireCid ≤ 63) h (fun _ => rfl) fun _ _ _ hvalue => hvalue

theorem roundTrips_maxData {f : DataFrame} (h : f.value ≤ varintMax) :
    RoundTrips maxDataEncode maxDataDecode f :=
  roundTrips_one (by decide : frameMaxData ≤ 63) h (fun _ => putOneVarintFrame_eq ..)
    fun _ _ _ hvalue => by simp [maxDataDecode, getOneVarintFrame, hvalue]

theorem roundTrips_dataBlocked {f : DataFrame} (h : f.value ≤ varintMax) :
    RoundTrips dataBlockedEncode dataBlockedDecode f :=
  roundTrips_one (by decide : frameDataBlocked ≤ 63) h (fun _ => putOneVarintFrame_eq ..)
    fun _ _ _ hvalue => by simp [dataBlockedDecode, getOneVarintFrame, hvalue]

theorem roundTrips_maxStreamData {f : StreamDataFrame} (hid : f.streamId ≤ varintMax)
    (h : f.value ≤ varintMax) : RoundTrips maxStreamDataEncode maxStreamDataDecode f :=
  roundTrips_two (by decide : frameMaxStreamData ≤ 63) hid h (fun _ => putTwoVarintFrame_eq ..)
    fun _ _ _ hstream hvalue => by
      simp [maxStreamDataDecode, getTwoVarintFrame, getOneVarintFrame, hstream, hvalue]

theorem roundTrips_streamDataBlocked {f : StreamDataFrame} (hid : f.streamId ≤ varintMax)
    (h : f.value ≤ varintMax) : RoundTrips streamDataBlockedEncode streamDataBlockedDecode f :=
  roundTrips_two (by decide : frameStreamDataBlocked ≤ 63) hid h (fun _ => putTwoVarintFrame_eq ..)
    fun _ _ _ hstream hvalue => by
      simp [streamDataBlockedDecode, getTwoVarintFrame, getOneVarintFrame, hstream, hvalue]

theorem streamsType_uni {bidiType : ℕ} (h : bidiType = 0x12 ∨ bidiType = 0x16) (uni : Bool) :
    streamsType bidiType uni ≤ 63 ∧
      decide (UInt8.ofNat (streamsType bidiType uni) &&& 1 ≠ 0) = uni := by
  rcases h with rfl | rfl <;> cases uni <;> decide

theorem roundTrips_streams {encode : ℕ → StreamsFrame → Option Bytes}
    {decode : Bytes → Option (StreamsFrame × ℕ)} {f : StreamsFrame} {bidiType : ℕ}
    (htype : bidiType = 0x12 ∨ bidiType = 0x16) (h : f.maxStreams ≤ varintMax)
    (henc : ∀ cap, encode cap f = putOneVarintFrame cap (streamsType bidiType f.uni) f.maxStreams)
    (hdec : ∀ buf v off, getOneVarintFrame buf = some (v, off) →
      decode buf = some ({ maxStreams := v, uni := buf.getD 0 0 &&& 1 ≠ 0 }, off)) :
    RoundTrips encode decode f := by
  obtain ⟨hsmall, huni⟩ := streamsType_uni htype f.uni
  refine roundTrips_one hsmall h (fun cap => (henc cap).trans (putOneVarintFrame_eq ..)) ?_
  intro buf off hhead hvalue
  have hbyte : buf.getD 0 0 = UInt8.ofNat (streamsType bidiType f.uni) := by
    rw [List.getD_eq_getElem?_getD, ← List.head?_eq_getElem?, hhead]
    rfl
  rw [hdec buf _ _ hvalue, hbyte, huni]

theorem roundTrips_maxStreams {f : StreamsFrame} (h : f.maxStreams ≤ varintMax) :
    RoundTrips maxStreamsEncode maxStreamsDecode f :=
  roundTrips_streams (Or.inl rfl) h (fun _ => rfl) fun _ _ _ hvalue => by
    simp only [maxStreamsDecode, hvalue, Option.bind_eq_bind, Option.bind_some, Option.pure_def]

theorem roundTrips_streamsBlocked {f : StreamsFrame} (h : f.maxStreams ≤ varintMax) :
    RoundTrips streamsBlockedEncode streamsBlockedDecode f :=
  roundTrips_streams (Or.inr rfl) h (fun _ => rfl) fun _ _ _ hvalue => by
    simp only [streamsBlockedDecode, hvalue, Option.bind_eq_bind, Option.bind_some, Option.pure_def]

theorem roundTrips_resetStream {f : ResetStreamFrame} (hid : f.streamId ≤ varintMax)
    (hcode : f.errorCode ≤ varintMax) (hsize : f.finalSize ≤ varintMax) :
    RoundTrips resetStreamEncode resetStreamDecode f := by
  have hvs : ∀ v ∈ [f.streamId, f.errorCode, f.finalSize], v ≤ varintMax := by
    simp [hid, hcode, hsize]
  refine ⟨_, hasWire_of_varints (by decide : frameResetStream ≤ 63) hvs (fun cap => rfl) ?_⟩
  intro buf tail _ h
  simp only [varints_cons, varints_nil, List.append_nil, List.append_assoc] at h
  obtain ⟨hstream, h⟩ := h.varintTake hid
  obtain ⟨herror, h⟩ := h.varintTake hcode
  obtain ⟨hfinal, -⟩ := h.varintTake hsize
  simp only [resetStreamDecode, hstream, herror, hfinal, Option.bind_eq_bind, Option.bind_some]
  simp [Nat.add_assoc]

theorem roundTrips_stopSending {f : StopSendingFrame} (hid : f.streamId ≤ varintMax)
    (hcode : f.errorCode ≤ varintMax) : RoundTrips stopSendingEncode stopSendingDecode f :=
  roundTrips_two (by decide : frameStopSending ≤ 63) hid hcode (fun _ => rfl)
    fun _ _ _ hstream herror => by simp [stopSendingDecode, hstream, herror]

/-! ### Paths -/

theorem roundTrips_path (type : UInt8) (data : Vector UInt8 pathData) :
    RoundTrips (fun cap data => pathEncode cap type data) (fun buf => pathDecode buf type) data := by
  have hlen : data.toList.length = pathData := by simp
  refine ⟨type :: data.toList, fun cap => ?_, fun tail => ?_⟩
  · simp only [pathEncode, writeBytes, List.length_cons, List.length_nil, List.singleton_append]
    by_cases hcap : data.toList.length + 1 ≤ cap
    · rw [if_pos hcap, if_neg (by omega), if_neg (by omega)]
    · rw [if_neg hcap]
      split
      · rfl
      · exact if_pos (by omega)
  · have hread : readBytes (type :: (data.toList ++ tail)) 1 pathData =
        some (data.toList, 1 + pathData) := by
      have hread := readBytes_of_restAt
        (⟨[type], rfl, rfl⟩ : RestAt ([type] ++ (data.toList ++ tail)) 1 (data.toList ++ tail))
      rw [hlen] at hread
      exact hread
    simp only [pathDecode, List.cons_append, List.head?_cons, ne_eq, not_true_eq_false, if_false,
      hread, Option.bind_eq_bind, Option.bind_some, Bytes.fit_toList]
    simp [hlen, Nat.add_comm]

/-! ## All of them -/

/-- **Frame codecs.** For every value whose integers are in range, the encoder of its frame type
writes it exactly when it fits the buffer, and the decoder reads the value back from what was
written, followed by anything, and stops where the encoder did. The frame type of a
CONNECTION_CLOSE of the application is not on the wire, so there it is the 0 the decoder leaves. -/
theorem frame_codecs_round_trip :
    (∀ f : CryptoFrame, f.offset ≤ varintMax → f.data.length ≤ varintMax →
      RoundTrips putCrypto getCrypto f) ∧
    (∀ f : StreamFrame, f.streamId ≤ varintMax → f.offset ≤ varintMax →
      f.data.length ≤ varintMax → RoundTrips putStream getStream f) ∧
    (∀ f : ConnCloseFrame, f.errorCode ≤ varintMax → f.frameType ≤ varintMax →
      f.reason.length ≤ varintMax → (f.isApp = true → f.frameType = 0) →
      RoundTrips putConnClose getConnClose f) ∧
    (∀ f : NewTokenFrame, f.token.length ≤ varintMax →
      RoundTrips newTokenEncode newTokenDecode f) ∧
    (∀ seq, seq ≤ varintMax → RoundTrips retireCidEncode retireCidDecode seq) ∧
    (∀ f : ResetStreamFrame, f.streamId ≤ varintMax → f.errorCode ≤ varintMax →
      f.finalSize ≤ varintMax → RoundTrips resetStreamEncode resetStreamDecode f) ∧
    (∀ f : StopSendingFrame, f.streamId ≤ varintMax → f.errorCode ≤ varintMax →
      RoundTrips stopSendingEncode stopSendingDecode f) ∧
    (∀ f : DataFrame, f.value ≤ varintMax → RoundTrips maxDataEncode maxDataDecode f ∧
      RoundTrips dataBlockedEncode dataBlockedDecode f) ∧
    (∀ f : StreamDataFrame, f.streamId ≤ varintMax → f.value ≤ varintMax →
      RoundTrips maxStreamDataEncode maxStreamDataDecode f ∧
      RoundTrips streamDataBlockedEncode streamDataBlockedDecode f) ∧
    (∀ f : StreamsFrame, f.maxStreams ≤ varintMax →
      RoundTrips maxStreamsEncode maxStreamsDecode f ∧
      RoundTrips streamsBlockedEncode streamsBlockedDecode f) ∧
    (∀ type ∈ [framePathChallenge, framePathResponse], ∀ data : Vector UInt8 pathData,
      RoundTrips (fun cap data => pathEncode cap type data) (fun buf => pathDecode buf type)
        data) :=
  ⟨fun _ hoff hlen => ⟨_, hasWire_crypto hoff hlen⟩,
    fun _ hid hoff hlen => ⟨_, hasWire_stream hid hoff hlen⟩,
    fun _ hcode htype hlen happ => roundTrips_connClose hcode htype hlen happ,
    fun _ hlen => roundTrips_newToken hlen,
    fun _ hseq => roundTrips_retireCid hseq,
    fun _ hid hcode hsize => roundTrips_resetStream hid hcode hsize,
    fun _ hid hcode => roundTrips_stopSending hid hcode,
    fun _ h => ⟨roundTrips_maxData h, roundTrips_dataBlocked h⟩,
    fun _ hid h => ⟨roundTrips_maxStreamData hid h, roundTrips_streamDataBlocked hid h⟩,
    fun _ h => ⟨roundTrips_maxStreams h, roundTrips_streamsBlocked h⟩,
    fun type _ data => roundTrips_path type data⟩

/-- A STREAM frame that ends at the largest offset. -/
theorem frame_codecs_round_trip_stream :
    RoundTrips putStream getStream
      { streamId := 4, offset := varintMax - 2, data := [1, 2], fin := true } :=
  frame_codecs_round_trip.2.1 _ (by decide) (by decide) (by decide)

end Frame

end QuicVibe
