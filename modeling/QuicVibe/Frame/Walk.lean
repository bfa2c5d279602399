import QuicVibe.Frame.AckCodec
/-!
# Walking a payload

The walker (`framewalk.c`) measures each frame with its decoder and stops at the end of the payload or
at the first frame it cannot measure. Every consumer of a payload is a loop over this walk; the CRYPTO
stream (`crecv/collect.c`, `message.c`) is the first.
-/

namespace QuicVibe

namespace Frame

open Packet

/-! ## The walker -/

/-- Length of a frame whose decoder measures it (`decoded_len`). -/
def decodedLen (buf : Bytes) : Kind → Option ℕ
  | .ack => (ackDecode buf).map (·.2)
  | .crypto => (getCrypto buf).map (·.2)
  | .stream => (getStream buf).map (·.2)
  | .connectionClose => (getConnClose buf).map (·.2)
  | _ => none

/-- Bytes the frame occupies (`frame_len`), if the walker can measure it. -/
def frameLen (type : ℕ) (buf : Bytes) : Option ℕ :=
  match classify type with
  | .padding | .ping | .handshakeDone => some 1
  | kind => decodedLen buf kind

/-- `measure`: the type and the length of the frame at the cursor. -/
def measure (cur : Bytes) : Option (ℕ × ℕ) := do
  let (type, _) ← varintDecode cur
  let len ← frameLen type cur
  if len = 0 ∨ len > cur.length then none else some (type, len)

/-- A frame as the walker yields it: its type, and the payload from the frame on. -/
structure Walked where
  type : ℕ
  rest : Bytes
  deriving DecidableEq, Repr

/-- `quic_framewalk_next`: the frame at the cursor and the cursor behind it. -/
def framewalkNext (cur : Bytes) : Option (Walked × Bytes) := do
  let (type, len) ← measure cur
  return ({ type := type, rest := cur }, cur.drop len)

/-- The frames of a payload, with fuel for the number of frames. -/
def walkFuel : ℕ → Bytes → List Walked
  | 0, _ => []
  | fuel + 1, cur =>
    match framewalkNext cur with
    | none => []
    | some (f, next) => f :: walkFuel fuel next

/-- The frames of a payload. Every frame has at least one byte, so the fuel suffices. -/
def walk (payload : Bytes) : List Walked := walkFuel payload.length payload

variable {cur : Bytes} {type : ℕ}

theorem measure_eq_some {len : ℕ} (h : measure cur = some (type, len)) :
    0 < len ∧ len ≤ cur.length := by
  simp only [measure, Option.bind_eq_bind, Option.bind_eq_some_iff] at h
  obtain ⟨_, -, _, -, hlen⟩ := h
  split at hlen
  · cases hlen
  · rename_i hpos
    obtain ⟨-, rfl⟩ := Prod.mk.inj (Option.some.inj hlen)
    omega

theorem framewalkNext_of_measure {len : ℕ} (h : measure cur = some (type, len)) :
    framewalkNext cur = some ({ type := type, rest := cur }, cur.drop len) := by
  simp only [framewalkNext, h, Option.bind_eq_bind, Option.bind_some, Option.pure_def]

theorem length_lt_of_framewalkNext (p : Walked × Bytes) (h : framewalkNext cur = some p) :
    p.2.length < cur.length := by
  simp only [framewalkNext, Option.bind_eq_bind, Option.bind_eq_some_iff] at h
  obtain ⟨⟨type, len⟩, hmeasure, h⟩ := h
  obtain rfl := Option.some.inj h
  have := measure_eq_some hmeasure
  rw [List.length_drop]
  omega

theorem walkFuel_eq_of_le {fuel fuel' : ℕ} (h : cur.length ≤ fuel) (h' : cur.length ≤ fuel') :
    walkFuel fuel cur = walkFuel fuel' cur := by
  induction fuel generalizing fuel' cur with
  | zero =>
    obtain rfl := List.length_eq_zero_iff.1 (Nat.le_zero.1 h)
    cases fuel' <;> rfl
  | succ fuel ih =>
    cases fuel' with
    | zero =>
      obtain rfl := List.length_eq_zero_iff.1 (Nat.le_zero.1 h')
      rfl
    | succ fuel' =>
      simp only [walkFuel]
      cases hnext : framewalkNext cur with
      | none => rfl
      | some p =>
        have hlt := length_lt_of_framewalkNext p hnext
        simp only [ih (by omega : p.2.length ≤ fuel) (by omega : p.2.length ≤ fuel')]

theorem walk_eq (payload : Bytes) :
    walk payload = match framewalkNext payload with
      | none => []
      | some (f, next) => f :: walk next := by
  cases payload with
  | nil => rfl
  | cons b payload =>
    simp only [walk, List.length_cons, walkFuel]
    cases hnext : framewalkNext (b :: payload) with
    | none => rfl
    | some p =>
      have hlt := length_lt_of_framewalkNext p hnext
      rw [List.length_cons] at hlt
      simp only [walkFuel_eq_of_le (by omega : p.2.length ≤ payload.length) (Nat.le_refl _)]

@[simp] theorem walk_nil : walk [] = [] := rfl

theorem measure_append_iff (htype : type ≤ varintMax) (back rest : Bytes) :
    measure (varintEncode type ++ back ++ rest) = some (type, (varintEncode type ++ back).length) ↔
      frameLen type (varintEncode type ++ back ++ rest) =
        some (varintEncode type ++ back).length := by
  have hpos := varintLen_pos htype
  have hdec : varintDecode (varintEncode type ++ back ++ rest) = some (type, varintLen type) := by
    rw [List.append_assoc]
    exact varintDecode_encode htype _
  have hlong : ¬ ((varintEncode type ++ back).length = 0 ∨
      (varintEncode type ++ back).length > (varintEncode type ++ back ++ rest).length) := by
    simp only [List.length_append, length_varintEncode]
    omega
  unfold measure
  simp only [hdec, Option.bind_eq_bind, Option.bind_some]
  cases frameLen type (varintEncode type ++ back ++ rest) with
  | none => simp
  | some len =>
    rw [Option.bind_some]
    constructor
    · intro h
      split at h
      · cases h
      · rw [(Prod.mk.inj (Option.some.inj h)).2]
    · intro h
      rw [Option.some.inj h, if_neg hlong]

theorem walk_of_measure {wire rest : Bytes}
    (h : measure (wire ++ rest) = some (type, wire.length)) :
    walk (wire ++ rest) = { type := type, rest := wire ++ rest } :: walk rest := by
  rw [walk_eq, framewalkNext_of_measure h, List.drop_left]

/-- **A frame in front of a payload** is walked first, and then the payload. -/
theorem walk_append (htype : type ≤ varintMax) (back rest : Bytes)
    (hlen : frameLen type (varintEncode type ++ back ++ rest) =
      some (varintEncode type ++ back).length) :
    walk (varintEncode type ++ back ++ rest) =
      { type := type, rest := varintEncode type ++ back ++ rest } :: walk rest :=
  walk_of_measure ((measure_append_iff htype back rest).2 hlen)

theorem walk_stream {f : StreamFrame} {wire : Bytes} (hwire : wire = streamBytes f)
    (hhas : HasWire putStream getStream f wire) (rest : Bytes) :
    walk (wire ++ rest) = { type := (streamType f).toNat, rest := wire ++ rest } :: walk rest := by
  have hkind : classify (streamType f).toNat = .stream := by
    simp only [streamType]
    split_ifs <;> decide
  have hmax : varintMax = 4611686018427387903 := rfl
  have hle := streamType_le f
  have hget := hhas.2 rest
  rw [hwire, streamBytes, varints_cons, List.append_assoc (varintEncode _)] at hget ⊢
  refine walk_append (by omega) _ rest ?_
  simp only [frameLen, hkind, decodedLen, hget, Option.map_some]

theorem walk_handshakeDone (rest : Bytes) :
    walk (0x1e :: rest) = { type := 0x1e, rest := 0x1e :: rest } :: walk rest :=
  walk_append (by decide : 0x1e ≤ varintMax) [] rest rfl

theorem type_of_mem_walk_padding {n : ℕ} {w : Walked} (h : w ∈ walk (List.replicate n 0)) :
    w.type = 0 := by
  induction n with
  | zero => cases h
  | succ n ih =>
    have hwalk : walk (0 :: List.replicate n 0) =
        { type := 0, rest := 0 :: List.replicate n 0 } :: walk (List.replicate n 0) :=
      walk_append (by decide : 0 ≤ varintMax) [] _ rfl
    rw [List.replicate_succ, hwalk] at h
    rcases List.mem_cons.1 h with rfl | h
    · rfl
    · exact ih h

theorem walk_ackOne {pn : ℕ} (h : pn ≤ varintMax) (rest : Bytes) :
    walk (ackOneBytes pn ++ rest) =
      { type := frameAck.toNat, rest := ackOneBytes pn ++ rest } :: walk rest := by
  have hkind : classify frameAck.toNat = .ack := by decide
  have hdec := (ackOne_eq h).2 rest
  rw [ackOneBytes, varints_cons] at hdec ⊢
  refine walk_append (by decide) _ rest ?_
  simp only [frameLen, hkind, decodedLen, hdec]

/-! ## A CRYPTO frame -/

theorem length_cryptoBytes (f : CryptoFrame) : (cryptoBytes f).length =
    1 + varintLen f.offset + varintLen f.data.length + f.data.length := by
  have htype : (varintEncode frameCrypto).length = 1 := rfl
  simp [cryptoBytes, htype]
  omega

theorem walk_crypto_append {f : CryptoFrame} (hoff : f.offset ≤ varintMax)
    (hlen : f.data.length ≤ varintMax) (rest : Bytes) :
    walk (cryptoBytes f ++ rest) =
      { type := frameCrypto, rest := cryptoBytes f ++ rest } :: walk rest := by
  have hget := (hasWire_crypto hoff hlen).2 rest
  have hkind : classify frameCrypto = .crypto := by decide
  refine walk_append (by decide) _ rest ?_
  rw [frameLen, hkind]
  exact congrArg (Option.map (·.2)) hget

theorem walk_cryptoBytes {f : CryptoFrame} (hoff : f.offset ≤ varintMax)
    (hlen : f.data.length ≤ varintMax) :
    walk (cryptoBytes f) = [{ type := frameCrypto, rest := cryptoBytes f }] := by
  have h := walk_crypto_append hoff hlen []
  rwa [List.append_nil] at h

/-! ## The CRYPTO stream -/

/-- `QUIC_CRECV_BUF`. -/
def crecvBuf : ℕ := 2048

structure Crecv where
  buf : Vector UInt8 crecvBuf
  filled : Vector Bool crecvBuf
  receivedTo : ℕ

namespace Crecv

/-- `quic_crecv_init` leaves the buffer as it is. -/
def init (s : Crecv) : Crecv :=
  { s with receivedTo := 0, filled := Vector.replicate crecvBuf false }

def place (s : Crecv) (f : CryptoFrame) : Bool × Crecv :=
  if f.offset + f.data.length > crecvBuf then (false, s)
  else (true, { s with buf := Buf.writeAt s.buf f.offset f.data
                       filled := Buf.writeAt s.filled f.offset (f.data.map fun _ => true) })

/-- The loop of `advance_prefix`, over the flags from `receivedTo` on. -/
def advanceOver : List Bool → ℕ → ℕ
  | true :: rest, n => advanceOver rest (n + 1)
  | _, n => n

def advancePrefix (s : Crecv) : Crecv :=
  { s with receivedTo := advanceOver (s.filled.toList.drop s.receivedTo) s.receivedTo }

/-- `on_frame`: place CRYPTO, skip everything else. -/
def onFrame (s : Crecv) (f : Walked) : Bool × Crecv :=
  if f.type ≠ frameCrypto then (true, s)
  else match getCrypto f.rest with
    | none => (false, s)
    | some (frame, _) => s.place frame

/-- The loop of `quic_crecv_collect`: it stops at the first frame that does not fit, keeping what
was placed before it. -/
def collectFrames (s : Crecv) : List Walked → Bool × Crecv
  | [] => (true, s.advancePrefix)
  | f :: fs =>
    match s.onFrame f with
    | (false, s) => (false, s)
    | (true, s) => collectFrames s fs

def collect (s : Crecv) (frames : Bytes) : Bool × Crecv := s.collectFrames (walk frames)

/-- `quic_crecv_message`: the contiguous prefix. -/
def message (s : Crecv) : Bytes := s.buf.toList.take s.receivedTo

/-- `quic_crecv_complete_message`: a header and the body it declares are there. -/
def completeMessage (s : Crecv) : Bool :=
  if s.receivedTo < 4 then false
  else 4 + readBe ((s.buf.toList.drop 1).take 3) ≤ s.receivedTo

theorem advanceOver_replicate (n k : ℕ) (rest : List Bool) :
    advanceOver (List.replicate n true ++ rest) k = advanceOver rest (k + n) := by
  induction n generalizing k with
  | zero => rfl
  | succ n ih =>
    rw [List.replicate_succ, List.cons_append, advanceOver, ih]
    congr 1
    omega

/-- **A message in one frame.** A fresh stream that gets the data of one CRYPTO frame at offset 0
holds exactly this data. -/
theorem collect_cryptoBytes (s : Crecv) (data : Bytes) (h : data.length ≤ crecvBuf) :
    ∃ s', s.init.collect (cryptoBytes { offset := 0, data := data }) = (true, s') ∧
      s'.receivedTo = data.length ∧ s'.buf.toList = data ++ s.buf.toList.drop data.length := by
  have hbuf : crecvBuf = 2048 := rfl
  have hmax : varintMax = 4611686018427387903 := rfl
  have hlen : data.length ≤ varintMax := by omega
  have hget := (hasWire_crypto (f := { offset := 0, data := data }) (Nat.zero_le _) hlen).2 []
  rw [List.append_nil] at hget
  rw [collect, walk_cryptoBytes (Nat.zero_le _) hlen]
  simp only [collectFrames, onFrame, hget, place, ne_eq, not_true_eq_false, if_false, Nat.zero_add]
  rw [if_neg (by omega)]
  refine ⟨_, rfl, ?_, Buf.toList_writeAt_zero _ h⟩
  simp only [advancePrefix, init, List.drop_zero, List.map_const']
  rw [Buf.toList_writeAt_zero _ (by simpa using h), advanceOver_replicate]
  cases hrest : (Vector.replicate crecvBuf false).toList.drop
      (List.replicate data.length true).length with
  | nil => simp [advanceOver]
  | cons b rest =>
    have hb : b = false := by
      have : b ∈ (Vector.replicate crecvBuf false).toList :=
        List.mem_of_mem_drop (hrest ▸ List.mem_cons_self)
      exact (by simpa using this : crecvBuf ≠ 0 ∧ b = false).2
    simp [hb, advanceOver]

end Crecv

end Frame

end QuicVibe
