import QuicVibe.Frame.Walk
/-!
# Where the frames lie

The walker gives each frame as its type and the rest of the payload from it on. The spans of a walk
say which bytes the frames occupy: they follow each other from the first byte, and what lies behind
the last one was not looked at.
-/

namespace QuicVibe

namespace Frame

open Packet

/-! ## Spans -/

/-- A frame of a payload: its type, the offset of its first byte and the bytes it occupies. -/
structure Span where
  type : ℕ
  start : ℕ
  len : ℕ
  deriving DecidableEq, Repr

/-- The offset behind the frame. -/
def Span.stop (s : Span) : ℕ := s.start + s.len

/-- The bytes by which the walker moves over a frame. -/
def Walked.len (f : Walked) : ℕ := ((measure f.rest).map (·.2)).getD 0

/-- The frames the walker yields from `cur` on, as they lie in a payload of `total` bytes that ends
with `cur`. -/
def spansIn (total : ℕ) (cur : Bytes) : List Span :=
  (walk cur).map fun f => { type := f.type, start := total - f.rest.length, len := f.len }

/-- The frames the walker yields, as they lie in the payload. -/
def spans (payload : Bytes) : List Span := spansIn payload.length payload

/-- Each frame starts where the one before it ends, and the first at `start`. -/
def Contiguous : ℕ → List Span → Prop
  | _, [] => True
  | start, s :: ss => s.start = start ∧ Contiguous s.stop ss

/-- Where the walk ends. -/
def stopOf : ℕ → List Span → ℕ
  | start, [] => start
  | _, s :: ss => stopOf s.stop ss

variable {cur : Bytes} {total : ℕ}

theorem spansIn_of_none (total : ℕ) (h : measure cur = none) : spansIn total cur = [] := by
  rw [spansIn, walk_eq, framewalkNext, h]
  rfl

theorem spansIn_of_some {type len : ℕ} (total : ℕ) (h : measure cur = some (type, len)) :
    spansIn total cur = { type := type, start := total - cur.length, len := len } ::
      spansIn total (cur.drop len) := by
  rw [spansIn, walk_eq, framewalkNext_of_measure h, List.map_cons, Walked.len, h]
  rfl

/-- **Induction along the walk**: over the frames up to the first that is not measured. -/
theorem walk_induction {P : Bytes → Prop} (stop : ∀ cur, measure cur = none → P cur)
    (next : ∀ cur type len, measure cur = some (type, len) → P (cur.drop len) → P cur)
    (cur : Bytes) : P cur := by
  induction hn : cur.length using Nat.strongRecOn generalizing cur with
  | ind n ih =>
    cases h : measure cur with
    | none => exact stop cur h
    | some p =>
      obtain ⟨type, len⟩ := p
      have hpos := measure_eq_some h
      refine next cur type len h (ih (cur.drop len).length ?_ _ rfl)
      rw [List.length_drop]
      omega

theorem contiguous_spansIn (h : cur.length ≤ total) :
    Contiguous (total - cur.length) (spansIn total cur) := by
  induction cur using walk_induction with
  | stop cur hnone =>
    rw [spansIn_of_none total hnone]
    trivial
  | next cur type len hsome ih =>
    have hpos := measure_eq_some hsome
    rw [List.length_drop] at ih
    have hstop : total - (cur.length - len) = total - cur.length + len := by omega
    rw [spansIn_of_some total hsome]
    refine ⟨rfl, ?_⟩
    rw [hstop] at ih
    exact ih (by omega)

theorem mem_spansIn (h : cur.length ≤ total) :
    ∀ s ∈ spansIn total cur, 0 < s.len ∧ s.stop ≤ total := by
  induction cur using walk_induction with
  | stop cur hnone =>
    rw [spansIn_of_none total hnone]
    intro s hs
    cases hs
  | next cur type len hsome ih =>
    have hpos := measure_eq_some hsome
    rw [List.length_drop] at ih
    rw [spansIn_of_some total hsome]
    intro s hs
    rcases List.mem_cons.1 hs with rfl | hs
    · refine ⟨hpos.1, ?_⟩
      rw [Span.stop]
      dsimp only
      omega
    · exact ih (by omega) s hs

/-- The walker hands out each frame with the payload from its first byte on. -/
theorem walk_eq_map_spansIn (payload : Bytes) {start : ℕ} (hcur : payload.drop start = cur)
    (h : start ≤ payload.length) :
    walk cur = (spansIn payload.length cur).map
      fun s => { type := s.type, rest := payload.drop s.start } := by
  induction cur using walk_induction generalizing start with
  | stop cur hnone =>
    rw [spansIn_of_none _ hnone, walk_eq, framewalkNext, hnone]
    rfl
  | next cur type len hsome ih =>
    have hpos := measure_eq_some hsome
    have hlen : cur.length = payload.length - start := by rw [← hcur, List.length_drop]
    have hstart : payload.length - cur.length = start := by omega
    have hrest : payload.drop (start + len) = cur.drop len := by rw [← hcur, List.drop_drop]
    rw [spansIn_of_some _ hsome, walk_eq, framewalkNext_of_measure hsome, hstart, List.map_cons,
      hcur]
    exact congrArg _ (ih hrest (by omega))

theorem measure_drop_stopOf (payload : Bytes) {start : ℕ} (hcur : payload.drop start = cur)
    (h : start ≤ payload.length) :
    measure (payload.drop (stopOf start (spansIn payload.length cur))) = none := by
  induction cur using walk_induction generalizing start with
  | stop cur hnone =>
    rw [spansIn_of_none _ hnone, stopOf, hcur]
    exact hnone
  | next cur type len hsome ih =>
    have hpos := measure_eq_some hsome
    have hlen : cur.length = payload.length - start := by rw [← hcur, List.length_drop]
    have hstart : payload.length - cur.length = start := by omega
    have hrest : payload.drop (start + len) = cur.drop len := by rw [← hcur, List.drop_drop]
    rw [spansIn_of_some _ hsome, hstart]
    exact ih hrest (show start + len ≤ payload.length by omega)

/-! ## Payloads put together frame by frame -/

/-- Frames with their types, as they lie one behind the other from `start` on. -/
def layout : ℕ → List (ℕ × Bytes) → List Span
  | _, [] => []
  | start, (type, wire) :: ps =>
    { type := type, start := start, len := wire.length } :: layout (start + wire.length) ps

/-- The frames one behind the other. -/
def joined (ps : List (ℕ × Bytes)) : Bytes := ps.flatMap (·.2)

@[simp] theorem joined_nil : joined [] = [] := rfl

@[simp] theorem joined_cons (type : ℕ) (wire : Bytes) (ps : List (ℕ × Bytes)) :
    joined ((type, wire) :: ps) = wire ++ joined ps := List.flatMap_cons ..

/-- The walker measures each frame right, with the ones behind it following. -/
def Measures : List (ℕ × Bytes) → Prop
  | [] => True
  | (type, wire) :: ps => measure (wire ++ joined ps) = some (type, wire.length) ∧ Measures ps

theorem spansIn_joined_iff {ps : List (ℕ × Bytes)} (h : (joined ps).length ≤ total) :
    spansIn total (joined ps) = layout (total - (joined ps).length) ps ↔ Measures ps := by
  induction ps with
  | nil => simp [spansIn, layout, Measures]
  | cons p ps ih =>
    obtain ⟨type, wire⟩ := p
    rw [joined_cons, List.length_append] at h
    rw [joined_cons, layout, Measures]
    cases hm : measure (wire ++ joined ps) with
    | none =>
      rw [spansIn_of_none total hm]
      simp
    | some q =>
      obtain ⟨type', len⟩ := q
      rw [spansIn_of_some total hm, List.cons.injEq, Span.mk.injEq]
      constructor
      · rintro ⟨⟨rfl, -, rfl⟩, hrest⟩
        refine ⟨rfl, (ih (by omega)).1 ?_⟩
        rw [List.drop_left, List.length_append] at hrest
        rw [hrest]
        congr 1
        omega
      · rintro ⟨hq, hrest⟩
        obtain ⟨rfl, rfl⟩ := Prod.mk.inj (Option.some.inj hq)
        refine ⟨⟨rfl, rfl, rfl⟩, ?_⟩
        rw [List.drop_left, (ih (by omega)).2 hrest, List.length_append]
        congr 1
        omega

/-- **A payload is walked as it was put together** exactly when each of its frames is measured
right. -/
theorem spans_joined_iff (ps : List (ℕ × Bytes)) : spans (joined ps) = layout 0 ps ↔ Measures ps := by
  have h := spansIn_joined_iff (Nat.le_refl (joined ps).length)
  rwa [Nat.sub_self] at h

/-! ## What the encoders write -/

def putSimple (cap : ℕ) (type : UInt8) : Option Bytes := if cap = 0 then none else some [type]

/-- The frames that are only a type. -/
inductive Simple
  | padding
  | ping
  | handshakeDone
  deriving DecidableEq, Repr

def Simple.type : Simple → UInt8
  | .padding => 0x00
  | .ping => 0x01
  | .handshakeDone => 0x1e

/-- A frame for one of the encoders. The ranges of an ACK frame descend (`ack.h`). -/
inductive Outgoing
  | simple (s : Simple)
  | ack (f : AckFrame) (descending : Descending f.ranges)
  | crypto (f : CryptoFrame)
  | stream (f : StreamFrame)
  | connClose (f : ConnCloseFrame)

namespace Outgoing

def type : Outgoing → ℕ
  | .simple s => s.type.toNat
  | .ack f _ => ackType f
  | .crypto _ => frameCrypto
  | .stream f => (streamType f).toNat
  | .connClose f => connCloseType f

/-- The encoder of the frame. -/
def encode (cap : ℕ) : Outgoing → Option Bytes
  | .simple s => putSimple cap s.type
  | .ack f _ => ackEncode cap f
  | .crypto f => putCrypto cap f
  | .stream f => putStream cap f
  | .connClose f => putConnClose cap f

theorem frameLen_ack (f : AckFrame) (buf : Bytes) :
    frameLen (ackType f) buf = (ackDecode buf).map (·.2) := by
  unfold ackType
  split <;> rfl

theorem frameLen_stream (f : StreamFrame) (buf : Bytes) :
    frameLen (streamType f).toNat buf = (getStream buf).map (·.2) := by
  unfold streamType
  split_ifs <;> rfl

theorem frameLen_connClose (f : ConnCloseFrame) (buf : Bytes) :
    frameLen (connCloseType f) buf = (getConnClose buf).map (·.2) := by
  unfold connCloseType
  split <;> rfl

/-- What was written for the frame is measured right, whatever follows. -/
def WalkedAs (o : Outgoing) (wire : Bytes) : Prop :=
  ∀ rest, measure (wire ++ rest) = some (o.type, wire.length)

theorem walkedAs_of_decoded {o : Outgoing} {F : Type} {decode : Bytes → Option (F × ℕ)} {f : F}
    {back : Bytes} (htype : o.type ≤ 63)
    (hlen : ∀ buf, frameLen o.type buf = (decode buf).map (·.2))
    (hdec : ∀ rest, decode (varintEncode o.type ++ back ++ rest) =
      some (f, (varintEncode o.type ++ back).length)) :
    o.WalkedAs (varintEncode o.type ++ back) := by
  intro rest
  have hmax : varintMax = 4611686018427387903 := rfl
  rw [measure_append_iff (by omega), hlen, hdec]
  rfl

theorem walkedAs_simple (s : Simple) : (simple s).WalkedAs [s.type] := by
  intro rest
  have hmeasure : ∀ b : UInt8, b.toNat ≤ 63 → frameLen b.toNat ([b] ++ rest) = some 1 →
      measure ([b] ++ rest) = some (b.toNat, 1) := by
    intro b hb hlen
    have hwire : varintEncode b.toNat = [b] := by rw [varintEncode_type hb, UInt8.ofNat_toNat]
    have hmax : varintMax = 4611686018427387903 := rfl
    have h := (measure_append_iff (by omega : b.toNat ≤ varintMax) [] rest).2
    rw [List.append_nil, hwire] at h
    exact h hlen
  cases s <;> exact hmeasure _ (by decide) rfl

/-- **Everything the encoders write** is measured right. -/
theorem walkedAs_of_encode {o : Outgoing} {cap : ℕ} {wire : Bytes} (h : o.encode cap = some wire) :
    o.WalkedAs wire := by
  cases o with
  | simple s =>
    obtain ⟨-, hwire⟩ := Option.ite_none_left_eq_some.1 h
    obtain rfl := Option.some.inj hwire
    exact walkedAs_simple s
  | ack f hdesc =>
    obtain ⟨r0, rfl, hhas⟩ := ackEncode_eq_some hdesc h
    rw [varints_cons] at hhas ⊢
    exact walkedAs_of_decoded (ackType_le f) (frameLen_ack f) hhas.2
  | crypto f =>
    obtain ⟨rfl, hhas⟩ := putCrypto_eq_some h
    exact walkedAs_of_decoded (by decide : frameCrypto ≤ 63) (fun _ => rfl) hhas.2
  | stream f =>
    obtain ⟨rfl, -, hhas⟩ := putStream_eq_some h
    rw [streamBytes, varints_cons, List.append_assoc] at hhas ⊢
    exact walkedAs_of_decoded (streamType_le f) (frameLen_stream f) hhas.2
  | connClose f =>
    obtain ⟨rfl, hhas⟩ := putConnClose_eq_some h
    rw [connCloseBytes, varints_cons, List.append_assoc] at hhas ⊢
    exact walkedAs_of_decoded (connCloseType_le f) (frameLen_connClose f) hhas.2

/-- The frames with what was written for them, by their types. -/
def typed (written : List (Outgoing × Bytes)) : List (ℕ × Bytes) :=
  written.map fun p => (p.1.type, p.2)

theorem measures_of_encode {written : List (Outgoing × Bytes)}
    (h : ∀ p ∈ written, ∃ cap, p.1.encode cap = some p.2) : Measures (typed written) := by
  induction written with
  | nil => trivial
  | cons p written ih =>
    obtain ⟨cap, henc⟩ := h p (List.mem_cons_self ..)
    exact ⟨walkedAs_of_encode henc _, ih fun q hq => h q (List.mem_cons_of_mem _ hq)⟩

end Outgoing

/-- **The frame walker.** Whatever the payload, the frames of the walk start at its first byte and
follow each other without a gap, each has at least one byte and lies inside the payload, and the walk
is over behind the last of them. And when frames were written one behind the other by the encoders,
the walk yields exactly these, with their types and lengths. -/
theorem framewalk_exact :
    (∀ payload, Contiguous 0 (spans payload) ∧
      (∀ s ∈ spans payload, 0 < s.len ∧ s.stop ≤ payload.length) ∧
      framewalkNext (payload.drop (stopOf 0 (spans payload))) = none) ∧
    ∀ written : List (Outgoing × Bytes), (∀ p ∈ written, ∃ cap, p.1.encode cap = some p.2) →
      spans (joined (Outgoing.typed written)) = layout 0 (Outgoing.typed written) := by
  refine ⟨fun payload => ⟨?_, ?_, ?_⟩, fun written h => ?_⟩
  · have h := contiguous_spansIn (Nat.le_refl payload.length)
    rwa [Nat.sub_self] at h
  · exact mem_spansIn (Nat.le_refl _)
  · have h := measure_drop_stopOf payload List.drop_zero (Nat.zero_le _)
    rw [framewalkNext, spans, h]
    rfl
  · exact (spans_joined_iff _).2 (Outgoing.measures_of_encode h)

end Frame

end QuicVibe
