import QuicVibe.Common.Bytes
import QuicVibe.Common.Run
import QuicVibe.Common.Assembly

/-!
# Stream reassembly

The receive buffer of one stream (`transport/stream/flow/flow/reassemble.c`) and the ordered reader
over it (`stream_read.c`). `init` clears the marks and the counters but not the buffer, so every
result starts from an arbitrary structure. Whatever the order, overlap and loss of the pushed pieces,
the application sees the stream without gaps and without repeats. The final size is compared with the
capacity only when it is set, so the record stays consistent as long as no call conflicts with it.
-/

namespace QuicVibe

namespace Stream

/-- `QUIC_REASM_CAP`. -/
def reasmCap : ℕ := 4096

structure Reasm where
  buf : Vector UInt8 reasmCap
  /-- Whether that byte offset has been received (`have`). -/
  has : Vector Bool reasmCap
  /-- Length of the contiguous prefix consumed. -/
  delivered : ℕ
  finalSize : ℕ
  haveFinal : Bool

namespace Reasm

def init (r : Reasm) : Reasm :=
  { r with has := Vector.replicate reasmCap false, delivered := 0, finalSize := 0,
           haveFinal := false }

/-- True if `[offset, offset + len)` fits the buffer and any known final size. -/
def insertFits (r : Reasm) (offset len : ℕ) : Bool :=
  if u64 (offset + len) > reasmCap then false
  else !r.haveFinal || u64 (offset + len) ≤ r.finalSize

def insert (r : Reasm) (offset : ℕ) (data : Bytes) : Bool × Reasm :=
  if r.insertFits offset data.length then
    (true, { r with buf := Buf.writeAt r.buf offset data
                    has := Buf.writeAt r.has offset (data.map fun _ => true) })
  else (false, r)

def setFinal (r : Reasm) (finalSize : ℕ) : Bool × Reasm :=
  if finalSize > reasmCap then (false, r)
  else (true, { r with finalSize := finalSize, haveFinal := true })

/-- The scan of `deliver`: step over the marks that are set, stop at the first that is not or
at the end of the buffer. -/
def scan : List Bool → ℕ → ℕ
  | true :: rest, d => scan rest (d + 1)
  | _, d => d

/-- Advance over the contiguous received prefix. -/
def deliver (r : Reasm) : ℕ × Reasm :=
  let d := scan (r.has.toList.drop r.delivered) r.delivered
  (d, { r with delivered := d })

end Reasm

structure StreamRead where
  r : Reasm
  /-- Bytes already pulled by the application. -/
  readOff : ℕ

namespace StreamRead

def init (s : StreamRead) : StreamRead :=
  { r := s.r.init, readOff := 0 }

def push (s : StreamRead) (offset : ℕ) (data : Bytes) : Bool × StreamRead :=
  let (ok, r) := s.r.insert offset data
  (ok, { s with r := r })

/-- Contiguous bytes available past the read position, at most `cap`. -/
def readable (s : StreamRead) (cap : ℕ) : ℕ × StreamRead :=
  let (d, r) := s.r.deliver
  let avail := sub64 d s.readOff
  (if avail < cap then avail else cap, { s with r := r })

def pull (s : StreamRead) (cap : ℕ) : Bytes × StreamRead :=
  let (n, s) := s.readable cap
  ((s.r.buf.toList.drop s.readOff).take n, { s with readOff := u64 (s.readOff + n) })

end StreamRead

section

/-! ## The abstract reading of a push history -/

/-- Position `i` of the stream lies in one of the pieces. -/
def Covered (pieces : List (ℕ × Bytes)) (i : ℕ) : Prop :=
  ∃ p ∈ pieces, p.1 ≤ i ∧ i < p.1 + p.2.length

/-- `n` is the length of the longest contiguous prefix the pieces cover. -/
def CoveredPrefix (pieces : List (ℕ × Bytes)) (n : ℕ) : Prop :=
  IsGreatest {n | ∀ i < n, Covered pieces i} n

/-- The piece at `offset` agrees with the stream `S`. The offset is a legal stream offset and
the piece fits in memory, so the sum `offset + len` of the code does not wrap. -/
def AgreesWith (S : Bytes) (offset : ℕ) (data : Bytes) : Prop :=
  offset < 2 ^ 62 ∧ data.length < 2 ^ 63 ∧ data <+: S.drop offset

/-- A call on the reader. -/
inductive ReadOp where
  | push (offset : ℕ) (data : Bytes)
  | pull (cap : ℕ)

/-- Every pushed piece agrees with `S`; a pull is unconstrained. -/
def ReadOp.AgreesWith (S : Bytes) : ReadOp → Prop
  | push offset data => Stream.AgreesWith S offset data
  | pull _ => True

/-- The reader with the pushes it accepted and the bytes it handed up so far. -/
structure Trace where
  s : StreamRead
  accepted : List (ℕ × Bytes)
  pulled : Bytes

namespace Trace

/-- A freshly initialised reader, whatever its memory held before. -/
def start (memory : StreamRead) : Trace :=
  { s := memory.init, accepted := [], pulled := [] }

def step (t : Trace) : ReadOp → Trace
  | .push offset data =>
    let (ok, s) := t.s.push offset data
    { t with s := s, accepted := if ok then t.accepted ++ [(offset, data)] else t.accepted }
  | .pull cap =>
    let (out, s) := t.s.pull cap
    { t with s := s, pulled := t.pulled ++ out }

end Trace

/-! ## What the scan finds -/

theorem Reasm.scan_eq (marks : List Bool) (d : ℕ) : Reasm.scan marks d = Assembly.scan marks d := by
  induction marks generalizing d with
  | nil => rfl
  | cons b rest ih =>
    cases b with
    | false => rfl
    | true => exact ih (d + 1)

theorem Reasm.deliver_spec (r : Reasm) (h : r.delivered ≤ reasmCap) :
    r.delivered ≤ r.deliver.1 ∧ r.deliver.1 ≤ reasmCap ∧
      (∀ i (_ : i < reasmCap), r.delivered ≤ i → i < r.deliver.1 → r.has[i] = true) ∧
      ∀ _ : r.deliver.1 < reasmCap, r.has[r.deliver.1] = false := by
  simp only [Reasm.deliver, Reasm.scan_eq]
  exact Assembly.scan_vector_spec r.has h

/-! ## The invariant -/

/-- The reader's memory means what the accepted pushes say it means. -/
structure Trace.Inv (S : Bytes) (t : Trace) : Prop where
  fits : ∀ p ∈ t.accepted, p.1 + p.2.length ≤ reasmCap
  has_iff : ∀ i (_ : i < reasmCap), t.s.r.has[i] = true ↔ Covered t.accepted i
  buf_eq : ∀ i (_ : i < reasmCap), t.s.r.has[i] = true → S[i]? = some t.s.r.buf[i]
  delivered_le : t.s.r.delivered ≤ reasmCap
  delivered_has : ∀ i (_ : i < reasmCap), i < t.s.r.delivered → t.s.r.has[i] = true
  readOff_le : t.s.readOff ≤ t.s.r.delivered
  pulled_eq : t.pulled = S.take t.s.readOff

variable {S : Bytes} {t : Trace}

theorem Trace.Inv.assembled (h : t.Inv S) : Assembly.Assembled S t.s.r.buf t.s.r.has t.accepted :=
  ⟨h.fits, h.has_iff, h.buf_eq⟩

theorem Trace.inv_start (S : Bytes) (memory : StreamRead) : (Trace.start memory).Inv S where
  fits := by simp [Trace.start]
  has_iff i hi := by simp [Trace.start, StreamRead.init, Reasm.init, Covered]
  buf_eq i hi := by simp [Trace.start, StreamRead.init, Reasm.init]
  delivered_le := Nat.zero_le _
  delivered_has i hi h := absurd h (Nat.not_lt_zero i)
  readOff_le := le_rfl
  pulled_eq := by simp [Trace.start, StreamRead.init]

/-- An insert is accepted only when the whole piece lies in the buffer, and then it is written
and marked; a refused one changes nothing. -/
theorem StreamRead.push_cases (s : StreamRead) (offset : ℕ) (data : Bytes)
    (ho : offset < 2 ^ 62) (hd : data.length < 2 ^ 63) :
    s.push offset data = (false, s) ∨
      (offset + data.length ≤ reasmCap ∧ s.push offset data = (true, { s with r := { s.r with
        buf := Buf.writeAt s.r.buf offset data
        has := Buf.writeAt s.r.has offset (data.map fun _ => true) } })) := by
  have hsum : u64 (offset + data.length) = offset + data.length := u64_of_lt (by omega)
  simp only [StreamRead.push, Reasm.insert]
  split
  · rename_i hfits
    refine Or.inr ⟨?_, rfl⟩
    simp only [Reasm.insertFits, hsum] at hfits
    split at hfits
    · exact absurd hfits (by simp)
    · omega
  · exact Or.inl rfl

theorem Trace.Inv.push (h : t.Inv S) {offset : ℕ} {data : Bytes} (ha : AgreesWith S offset data) :
    (t.step (.push offset data)).Inv S := by
  obtain ⟨ho, hd, hdata⟩ := ha
  rcases t.s.push_cases offset data ho hd with he | ⟨hcap, he⟩
  · simpa [Trace.step, he] using h
  · simp only [Trace.step, he, if_true]
    have hwrite := h.assembled.write hcap hdata
    refine ⟨hwrite.fits, hwrite.mark_iff, hwrite.eq, h.delivered_le, ?_, h.readOff_le, h.pulled_eq⟩
    intro i hi hid
    exact (Assembly.mark_writeAt_iff _ _ _ hi).2 (Or.inl (h.delivered_has i hi hid))

theorem Trace.Inv.take_drop_buf (h : t.Inv S) {a n : ℕ} (hle : a + n ≤ reasmCap)
    (hm : ∀ i (_ : i < reasmCap), a ≤ i → i < a + n → t.s.r.has[i] = true) :
    (t.s.r.buf.toList.drop a).take n = (S.drop a).take n :=
  h.assembled.take_drop hle hm

/-- A pull hands up what lies between the read position and the contiguous prefix, as far as
the capacity reaches. -/
theorem Trace.Inv.pull_eq (h : t.Inv S) (cap : ℕ) :
    t.s.pull cap =
      ((S.drop t.s.readOff).take (min (t.s.r.deliver.1 - t.s.readOff) cap),
        { r := t.s.r.deliver.2,
          readOff := t.s.readOff + min (t.s.r.deliver.1 - t.s.readOff) cap }) := by
  obtain ⟨hd, hcap, hmarks, -⟩ := t.s.r.deliver_spec h.delivered_le
  have hro := h.readOff_le
  have hsmall : reasmCap < 2 ^ 64 := by decide
  have hmin : (if sub64 t.s.r.deliver.1 t.s.readOff < cap
      then sub64 t.s.r.deliver.1 t.s.readOff else cap) =
        min (t.s.r.deliver.1 - t.s.readOff) cap := by
    rw [sub64_of_le (by omega) (by omega)]
    split <;> omega
  simp only [StreamRead.pull, StreamRead.readable, hmin]
  rw [u64_of_lt (by omega)]
  refine Prod.ext ?_ rfl
  refine h.take_drop_buf (by omega) fun i hi h₁ h₂ => ?_
  by_cases hid : i < t.s.r.delivered
  · exact h.delivered_has i hi hid
  · exact hmarks i hi (by omega) (by omega)

theorem Trace.Inv.pull (h : t.Inv S) (cap : ℕ) : (t.step (.pull cap)).Inv S := by
  obtain ⟨hd, hcap, hmarks, -⟩ := t.s.r.deliver_spec h.delivered_le
  have hro := h.readOff_le
  simp only [Trace.step, h.pull_eq cap]
  refine ⟨h.fits, h.has_iff, h.buf_eq, hcap, fun i hi hid => ?_, ?_, ?_⟩
  · by_cases hold : i < t.s.r.delivered
    · exact h.delivered_has i hi hold
    · exact hmarks i hi (by omega) hid
  · change t.s.readOff + min (t.s.r.deliver.1 - t.s.readOff) cap ≤ t.s.r.deliver.1
    omega
  · simp only [h.pulled_eq, List.take_add]

/-- **The invariant holds throughout every run** whose pushes agree with the stream. -/
theorem Trace.inv_run (memory : StreamRead) (ops : List ReadOp)
    (hops : ∀ op ∈ ops, op.AgreesWith S) : (Run.run Trace.step (Trace.start memory) ops).Inv S := by
  refine Run.run_invariant ops (Trace.inv_start S memory) fun t op hop h => ?_
  cases op with
  | push offset data => exact h.push (hops _ hop)
  | pull cap => exact h.pull cap

/-! ## Results -/

/-- What `deliver` reports is the longest prefix the accepted pushes cover. -/
theorem Trace.Inv.coveredPrefix_deliver (h : t.Inv S) :
    CoveredPrefix t.accepted t.s.r.deliver.1 := by
  obtain ⟨hd, hcap, hmarks, hstop⟩ := t.s.r.deliver_spec h.delivered_le
  refine ⟨fun i hi => (h.has_iff i (by omega)).1 ?_, fun n hn => ?_⟩
  · by_cases hid : i < t.s.r.delivered
    · exact h.delivered_has i (by omega) hid
    · exact hmarks i (by omega) (by omega) hi
  · by_contra hlt
    have hc : Covered t.accepted t.s.r.deliver.1 := hn _ (by omega)
    rcases Nat.lt_or_ge t.s.r.deliver.1 reasmCap with hin | hout
    · have := (h.has_iff _ hin).2 hc
      rw [hstop hin] at this
      exact absurd this (by simp)
    · obtain ⟨p, hp, -, hp₂⟩ := hc
      have := h.fits p hp
      omega

theorem Trace.Inv.pulled_of_large_cap (h : t.Inv S) {cap n : ℕ} (hn : CoveredPrefix t.accepted n)
    (hcap : n ≤ t.s.readOff + cap) : (t.step (.pull cap)).pulled = S.take n := by
  obtain rfl := h.coveredPrefix_deliver.unique hn
  have hro := h.readOff_le
  have hd := (t.s.r.deliver_spec h.delivered_le).1
  simp only [Trace.step, h.pull_eq cap, h.pulled_eq, ← List.take_add]
  congr 1
  omega

theorem Trace.Inv.deliver_le_length (h : t.Inv S) : t.s.r.deliver.1 ≤ S.length := by
  by_contra hlt
  obtain ⟨-, hcap, -, -⟩ := t.s.r.deliver_spec h.delivered_le
  have hm := (h.has_iff S.length (by omega)).2 (h.coveredPrefix_deliver.1 _ (by omega))
  have := h.buf_eq S.length (by omega) hm
  simp at this

theorem Trace.Inv.length_pulled (h : t.Inv S) : t.pulled.length = t.s.readOff := by
  have hd := (t.s.r.deliver_spec h.delivered_le).1
  have hro := h.readOff_le
  have hlen := h.deliver_le_length
  rw [h.pulled_eq, List.length_take]
  omega

/-- **Ordered delivery.** In every run of pushes that agree with a stream `S`, interleaved with
pulls of any capacities: the bytes handed up are a prefix of `S`; the read position counts them
and the next pull continues right behind them, so none is repeated or skipped; a pull with
enough capacity completes the longest contiguous prefix the accepted pushes cover; and a refused
push changes nothing. -/
theorem stream_read_delivers_in_order (S : Bytes) (memory : StreamRead) (ops : List ReadOp)
    (hops : ∀ op ∈ ops, op.AgreesWith S) :
    let t := Run.run Trace.step (Trace.start memory) ops
    t.pulled <+: S ∧
      t.s.readOff = t.pulled.length ∧
      (∀ cap, (t.s.pull cap).1 <+: S.drop t.pulled.length) ∧
      (∃ n, CoveredPrefix t.accepted n ∧ n ≤ S.length ∧
        ∀ cap, n ≤ t.pulled.length + cap → (t.step (.pull cap)).pulled = S.take n) ∧
      ∀ offset data, (t.s.push offset data).1 = false → (t.s.push offset data).2 = t.s := by
  intro t
  have h : t.Inv S := Trace.inv_run memory ops hops
  refine ⟨?_, h.length_pulled.symm, fun cap => ?_,
    ⟨t.s.r.deliver.1, h.coveredPrefix_deliver, h.deliver_le_length, fun cap hcap => ?_⟩,
    fun offset data hrej => ?_⟩
  · rw [h.pulled_eq]
    exact List.take_prefix _ _
  · rw [h.length_pulled, h.pull_eq cap]
    exact List.take_prefix _ _
  · exact h.pulled_of_large_cap h.coveredPrefix_deliver (by rwa [← h.length_pulled])
  · simp only [StreamRead.push, Reasm.insert] at hrej ⊢
    split at hrej
    · exact absurd hrej (by simp)
    · rename_i hfits
      simp [hfits]

/-- The second half first, a pull across the gap, then the first half. -/
theorem stream_read_delivers_in_order_swapped :
    (Run.run Trace.step (Trace.start ⟨⟨.replicate _ 0, .replicate _ true, 7, 9, true⟩, 3⟩)
      [.push 1 [2, 3], .pull 10, .push 0 [1], .pull 2]).pulled <+: [1, 2, 3] :=
  (stream_read_delivers_in_order [1, 2, 3] _
    [.push 1 [2, 3], .pull 10, .push 0 [1], .pull 2]
    (by simp [ReadOp.AgreesWith, AgreesWith])).1

end

/-- A call on the receive buffer. -/
inductive ReasmOp
  | insert (offset : ℕ) (data : Bytes)
  | setFinal (finalSize : ℕ)

/-- The end of inserted data does not wrap: past `2 ^ 64` the code writes outside the buffer. -/
def ReasmOp.Fits : ReasmOp → Prop
  | insert offset data => offset + data.length < 2 ^ 64
  | setFinal _ => True

namespace Reasm

/-- One call. -/
def step (r : Reasm) : ReasmOp → Reasm
  | .insert offset data => (r.insert offset data).2
  | .setFinal finalSize => (r.setFinal finalSize).2

/-- Data at or past the proposed size was received, or a different final size is known. -/
def Conflicts (r : Reasm) (finalSize : ℕ) : Prop :=
  (∃ i, ∃ _ : i < reasmCap, finalSize ≤ i ∧ r.has[i] = true) ∨
    r.haveFinal = true ∧ r.finalSize ≠ finalSize

/-- No received byte lies at or past the known final size. -/
def Consistent (r : Reasm) : Prop :=
  r.haveFinal = true → ∀ i (_ : i < reasmCap), r.has[i] = true → i < r.finalSize

/-- A conflicting final size is refused, and nothing changes. -/
def RefusesConflict (r : Reasm) : ReasmOp → Prop
  | .insert _ _ => True
  | .setFinal finalSize => r.Conflicts finalSize → r.setFinal finalSize = (false, r)

/-- A conflicting final size is beyond the capacity. -/
def ConflictBeyondCap (r : Reasm) : ReasmOp → Prop
  | .insert _ _ => True
  | .setFinal finalSize => r.Conflicts finalSize → reasmCap < finalSize

variable {r : Reasm}

theorem consistent_init (memory : Reasm) : memory.init.Consistent := fun h => nomatch h

theorem Consistent.insert (h : r.Consistent) {offset : ℕ} {data : Bytes}
    (hfits : offset + data.length < 2 ^ 64) : (r.insert offset data).2.Consistent := by
  unfold Reasm.insert
  split
  · rename_i hok
    intro hfinal i hi hhas
    rcases (Assembly.mark_writeAt_iff _ _ _ hi).1 hhas with hold | ⟨-, hend⟩
    · exact h hfinal i hi hold
    · simp only [insertFits, u64_of_lt hfits, show r.haveFinal = true from hfinal, Bool.not_true,
        Bool.false_or] at hok
      split at hok
      · cases hok
      · exact Nat.lt_of_lt_of_le hend (of_decide_eq_true hok)
  · exact h

theorem setFinal_step_iff (h : r.Consistent) (finalSize : ℕ) :
    (r.setFinal finalSize).2.Consistent ∧
        (r.Conflicts finalSize → r.setFinal finalSize = (false, r)) ↔
      (r.Conflicts finalSize → reasmCap < finalSize) := by
  unfold setFinal
  split
  · rename_i hcap
    exact ⟨fun _ _ => hcap, fun _ => ⟨h, fun _ => rfl⟩⟩
  · rename_i hcap
    constructor
    · rintro ⟨-, hrefuse⟩ hconf
      exact Bool.noConfusion (congrArg Prod.fst (hrefuse hconf))
    · intro hok
      refine ⟨fun _ i hi hhas => ?_, fun hconf => absurd (hok hconf) hcap⟩
      by_contra hle
      exact hcap (hok (Or.inl ⟨i, hi, Nat.le_of_not_lt hle, hhas⟩))

/-- **When the final size is consistent.** In a run of inserts and final sizes every conflicting
final size is refused without effect and no received byte ever lies at or past the known final
size, if and only if every conflicting call names a size beyond the capacity. -/
theorem final_size_iff (memory : Reasm) (ops : List ReasmOp) (hfits : ∀ op ∈ ops, op.Fits) :
    ((∀ past, past <+: ops → (Run.run step memory.init past).Consistent) ∧
        ∀ e ∈ Run.steps step memory.init ops, e.1.RefusesConflict e.2) ↔
      ∀ e ∈ Run.steps step memory.init ops, e.1.ConflictBeyondCap e.2 := by
  refine Run.run_keeps_iff (P := fun _ => True) trivial (consistent_init memory)
    (fun _ _ _ _ => trivial) fun r op hmem _ h => ?_
  cases op with
  | insert offset data =>
    obtain ⟨past, hpre, -⟩ := Run.mem_steps_iff.1 hmem
    have hop := hfits (.insert offset data) (hpre.subset (by simp))
    exact ⟨fun _ => trivial, fun _ => ⟨h.insert hop, trivial⟩⟩
  | setFinal finalSize => exact setFinal_step_iff h finalSize

/-- A buffer of zeros. -/
def blank : Reasm := ⟨Vector.replicate _ 0, Vector.replicate _ false, 0, 0, false⟩

/-- Ten bytes are received, and a final size of 5 is accepted after them. -/
theorem final_size_below_data :
    let r := (blank.init.insert 0 (List.replicate 10 0)).2
    r.Conflicts 5 ∧ (r.setFinal 5).1 = true ∧ ¬ (r.setFinal 5).2.Consistent := by
  intro r
  have hcap : 9 < reasmCap := by decide
  have hhas : r.has[9] = true :=
    (Assembly.mark_writeAt_iff _ _ _ hcap).2 (Or.inr (by decide))
  refine ⟨Or.inl ⟨9, hcap, by decide, hhas⟩, rfl, fun h => ?_⟩
  exact absurd (h rfl 9 hcap hhas) (by decide)

/-- Two bytes and then their length as the final size. -/
theorem final_size_after_data :
    (Run.run step blank.init [.insert 0 [1, 2], .setFinal 2]).Consistent := by
  refine ((final_size_iff blank [.insert 0 [1, 2], .setFinal 2] ?_).2 ?_).1 _ List.prefix_rfl
  · intro op hop
    rcases List.mem_pair.1 hop with rfl | rfl
    · show 0 + 2 < 2 ^ 64
      decide
    · trivial
  · intro e he
    rcases List.mem_pair.1 he with rfl | rfl
    · trivial
    · rintro (⟨i, hi, hle, hhas⟩ | ⟨hfinal, -⟩)
      · rcases (Assembly.mark_writeAt_iff (α := UInt8) _ 0 [1, 2] hi).1 hhas with hold | ⟨-, hlt⟩
        · exact absurd ((Vector.getElem_replicate hi).symm.trans hold) Bool.false_ne_true
        · exact absurd hlt (Nat.not_lt.2 hle)
      · cases hfinal

end Reasm

end Stream

end QuicVibe
