import QuicVibe.Frame.AckCodec
/-!
# The sent-packet table

`sentpkt.c` keeps the packets in flight in a fixed array of slots, and `ack_process.c` removes from
it what an ACK names. Recording a packet fills the first free slot and touches no other, and
processing an ACK is `remove`: it frees exactly the slots in flight whose number a range covers.
-/

namespace QuicVibe

namespace Recovery

open Frame Packet

/-- `QUIC_SENTPKT_CAP`. -/
abbrev sentpktCap : ℕ := 256

/-- `QUIC_SP_INFLIGHT`, `QUIC_SP_ACKED` and `QUIC_SP_LOST`. -/
inductive SpState
  | inflight
  | acked
  | lost
  deriving DecidableEq, Repr

structure SentpktEntry where
  pn : ℕ
  timeSent : ℕ
  size : ℕ
  ackEliciting : Bool
  state : SpState
  used : Bool
  deriving DecidableEq, Repr

/-- The slot tracks a packet in flight. -/
def SentpktEntry.inflight (p : SentpktEntry) : Bool := p.used && p.state == .inflight

/-- The slot after its packet was acknowledged. -/
def SentpktEntry.ack (p : SentpktEntry) : SentpktEntry := { p with state := .acked, used := false }

@[simp] theorem SentpktEntry.inflight_ack (p : SentpktEntry) : p.ack.inflight = false := rfl

structure Sentpkt where
  e : Vector SentpktEntry sentpktCap

namespace Sentpkt

def init (t : Sentpkt) : Sentpkt := ⟨t.e.map fun p => { p with used := false }⟩

/-- First free slot, or `QUIC_SENTPKT_CAP` when the table is full (`sentpkt_free_slot`). -/
def freeSlot (t : Sentpkt) : ℕ := (t.e.toList.takeWhile (·.used)).length

def onSend (t : Sentpkt) (pn time : ℕ) (ackEliciting : Bool) (size : ℕ) : Bool × Sentpkt :=
  let i := t.freeSlot
  if i = sentpktCap then (false, t)
  else
    let entry : SentpktEntry :=
      { pn := pn, timeSent := time, size := size, ackEliciting := ackEliciting,
        state := .inflight, used := true }
    (true, ⟨t.e.setIfInBounds i entry⟩)

def count (t : Sentpkt) : ℕ := t.e.toList.countP (·.used)

/-- `slot_in_range`: the slot holds a packet in flight whose number is in `[lo, hi]`. -/
def slotInRange (lo hi : ℕ) (p : SentpktEntry) : Bool :=
  p.inflight && (decide (p.pn ≥ lo) && decide (p.pn ≤ hi))

/-- `ack_range`: remove every packet in flight in `[lo, hi]`, with the numbers removed. -/
def ackRange (t : Sentpkt) (lo hi : ℕ) : List ℕ × Sentpkt :=
  ((t.e.toList.filter (slotInRange lo hi)).map (·.pn),
    ⟨t.e.map fun p => if slotInRange lo hi p then p.ack else p⟩)

/-- The loop of `quic_ack_process` over the (gap, length) pairs below `lo`. -/
def ackPairsBelow (t : Sentpkt) (lo : ℕ) : List ℕ → List ℕ × Sentpkt
  | gap :: len :: rest =>
    let hi := sub64 (sub64 lo gap) 2
    let lo := sub64 hi len
    let (acked, t) := t.ackRange lo hi
    let (more, t) := t.ackPairsBelow lo rest
    (acked ++ more, t)
  | _ => ([], t)

/-- `quic_ack_process`: the numbers newly acknowledged, and the table without them. -/
def ackProcess (t : Sentpkt) (ackLargest : ℕ) : List ℕ → List ℕ × Sentpkt
  | [] => ([], t)
  | first :: pairs =>
    let lo := sub64 ackLargest first
    let (acked, t) := t.ackRange lo ackLargest
    let (more, t) := t.ackPairsBelow lo pairs
    (acked ++ more, t)

variable (t : Sentpkt)

theorem count_pos_iff : 0 < t.count ↔ ∃ i : Fin sentpktCap, t.e[i].used = true := by
  rw [count, List.countP_pos_iff]
  constructor
  · rintro ⟨p, hp, hused⟩
    obtain ⟨i, hi, rfl⟩ := Vector.getElem_of_mem (Vector.mem_toList_iff.1 hp)
    exact ⟨⟨i, hi⟩, hused⟩
  · rintro ⟨i, hused⟩
    exact ⟨_, Vector.mem_toList_iff.2 (Vector.getElem_mem i.isLt), hused⟩

/-! ## Recording a packet -/

theorem onSend_getElem (pn time : ℕ) (ae : Bool) (size : ℕ) {i : ℕ} (hi : i < sentpktCap) :
    (t.onSend pn time ae size).2.e[i] = if t.freeSlot = i then
      { pn := pn, timeSent := time, size := size, ackEliciting := ae, state := .inflight,
        used := true } else t.e[i] := by
  by_cases hfull : t.freeSlot = sentpktCap
  · have hne : t.freeSlot ≠ i := by omega
    rw [onSend, if_pos hfull, if_neg hne]
  · rw [onSend, if_neg hfull]
    exact Vector.getElem_setIfInBounds hi

theorem used_of_lt_freeSlot {i : ℕ} (hi : i < sentpktCap) (hlt : i < t.freeSlot) :
    t.e[i].used = true := by
  have hpre := List.takeWhile_prefix (fun p : SentpktEntry => p.used) (l := t.e.toList)
  have hget := hpre.getElem (i := i) hlt
  rw [Vector.getElem_toList] at hget
  rw [← hget]
  exact List.mem_takeWhile_imp (List.getElem_mem _)

theorem freeSlot_le : t.freeSlot ≤ sentpktCap := by
  have hlen := (List.takeWhile_sublist (·.used) (l := t.e.toList)).length_le
  simpa [freeSlot] using hlen

theorem freeSlot_init : t.init.freeSlot = 0 := by
  by_contra hne
  have hused := t.init.used_of_lt_freeSlot (i := 0) (by decide) (Nat.pos_of_ne_zero hne)
  simp [init] at hused

theorem count_onSend_pos (pn time : ℕ) (ae : Bool) (size : ℕ) :
    0 < (t.onSend pn time ae size).2.count := by
  rw [count_pos_iff]
  by_cases hfull : t.freeSlot = sentpktCap
  · refine ⟨0, ?_⟩
    rw [Fin.getElem_fin, onSend_getElem t pn time ae size (by decide),
      if_neg (by rw [hfull]; decide)]
    exact t.used_of_lt_freeSlot (by decide) (by rw [hfull]; decide)
  · have hlt : t.freeSlot < sentpktCap := Nat.lt_of_le_of_ne t.freeSlot_le hfull
    refine ⟨⟨t.freeSlot, hlt⟩, ?_⟩
    rw [Fin.getElem_fin, onSend_getElem t pn time ae size hlt, if_pos rfl]

/-! ## Removing packets -/

/-- The table without the packets in flight whose number is `covered`. -/
def remove (t : Sentpkt) (covered : ℕ → Bool) : Sentpkt :=
  ⟨t.e.map fun p => if p.inflight && covered p.pn then p.ack else p⟩

theorem remove_getElem (covered : ℕ → Bool) {i : ℕ} (hi : i < sentpktCap) :
    (t.remove covered).e[i] =
      if t.e[i].inflight && covered t.e[i].pn then t.e[i].ack else t.e[i] := by
  rw [remove, Vector.getElem_map]

theorem inflight_remove (covered : ℕ → Bool) {i : ℕ} (hi : i < sentpktCap) :
    (t.remove covered).e[i].inflight = (t.e[i].inflight && !covered t.e[i].pn) := by
  rw [remove_getElem t covered hi]
  by_cases hcov : covered t.e[i].pn = true <;> by_cases hflight : t.e[i].inflight = true <;>
    simp [hflight, hcov]

@[simp] theorem remove_false : t.remove (fun _ => false) = t := by
  simp [remove]

theorem remove_remove (c₁ c₂ : ℕ → Bool) :
    (t.remove c₁).remove c₂ = t.remove fun pn => c₁ pn || c₂ pn := by
  simp only [remove, Vector.map_map, mk.injEq]
  congr 1
  funext p
  by_cases hflight : p.inflight = true <;> by_cases h₁ : c₁ p.pn = true <;> simp [hflight, h₁]

theorem ackRange_snd (lo hi : ℕ) :
    (t.ackRange lo hi).2 = t.remove fun pn => decide (pn ≥ lo) && decide (pn ≤ hi) := rfl

theorem ackPairsBelow_eq_remove (lo : ℕ) (pairs : List ℕ) :
    ∃ covered, (t.ackPairsBelow lo pairs).2 = t.remove covered := by
  fun_induction ackPairsBelow t lo pairs with
  | case1 t lo gap len rest hi lo' acked t₁ hrange more t₂ hrest ih =>
    obtain ⟨covered, hcovered⟩ := ih
    have hfirst := ackRange_snd t lo' hi
    rw [hrange] at hfirst
    rw [hrest] at hcovered
    dsimp only at hfirst hcovered ⊢
    rw [hcovered, hfirst, remove_remove]
    exact ⟨_, rfl⟩
  | case2 => exact ⟨_, (remove_false _).symm⟩

theorem ackProcess_eq_remove (ackLargest : ℕ) (ranges : List ℕ) :
    ∃ covered, (t.ackProcess ackLargest ranges).2 = t.remove covered := by
  cases ranges with
  | nil => exact ⟨_, (remove_false t).symm⟩
  | cons first pairs =>
    obtain ⟨covered, hcovered⟩ := ackPairsBelow_eq_remove
      (t.ackRange (sub64 ackLargest first) ackLargest).2 (sub64 ackLargest first) pairs
    rw [ackRange_snd, remove_remove] at hcovered
    exact ⟨_, hcovered⟩

end Sentpkt

/-! ## The ranges of an ACK frame -/

/-- One of the ranges covers the packet number. -/
def coveredBy (ranges : List AckRange) (pn : ℕ) : Bool :=
  ranges.any fun r => decide (pn ≥ r.lo) && decide (pn ≤ r.hi)

namespace Sentpkt

/-- The loop of `quic_ackrange_process` over the ranges of a frame. -/
def ackRanges (t : Sentpkt) : List AckRange → List ℕ × Sentpkt
  | [] => ([], t)
  | r :: rest =>
    let (acked, t) := t.ackRange r.lo r.hi
    let (more, t) := t.ackRanges rest
    (acked ++ more, t)

/-- **The gaps name the ranges they were made of**, one after the other. -/
theorem ackPairsBelow_ackPairs {prev : AckRange} {rest : List AckRange}
    (hdesc : Descending (prev :: rest))
    (hmax : ∀ r ∈ prev :: rest, r.hi ≤ varintMax ∧ r.lo ≤ varintMax) (t : Sentpkt) :
    t.ackPairsBelow prev.lo (ackPairs (prev :: rest)) = t.ackRanges rest := by
  have hbound : varintMax = 4611686018427387903 := rfl
  induction rest generalizing prev t with
  | nil => rfl
  | cons cur rest ih =>
    obtain ⟨horder, hchain⟩ := hdesc
    obtain ⟨hstep, htailChain⟩ := List.isChain_cons_cons.1 hchain
    have hcur : cur.lo ≤ cur.hi := horder cur (by simp)
    have hprev := hmax prev (by simp)
    have hcurMax := hmax cur (by simp)
    have hhi : sub64 (sub64 prev.lo (sub64 (sub64 prev.lo cur.hi) 2)) 2 = cur.hi := by
      rw [gap_eq hprev.2 hstep, gap_eq hprev.2 (by omega)]
      omega
    have hlo : sub64 cur.hi (sub64 cur.hi cur.lo) = cur.lo := sub64_sub64 hcur (by omega)
    have htail : Descending (cur :: rest) :=
      ⟨fun r hr => horder r (List.mem_cons_of_mem _ hr), htailChain⟩
    have ih' := fun t => ih htail (fun r hr => hmax r (List.mem_cons_of_mem _ hr)) t
    simp only [ackPairs, ackPairsBelow, ackRanges, hhi, hlo, ih']

theorem ackRanges_snd (t : Sentpkt) (ranges : List AckRange) :
    (t.ackRanges ranges).2 = t.remove (coveredBy ranges) := by
  induction ranges generalizing t with
  | nil => exact (remove_false t).symm
  | cons r ranges ih =>
    simp only [ackRanges, ih, ackRange_snd, remove_remove]
    rfl

/-- **Processing a decoded ACK** removes exactly what its ranges cover. -/
theorem ackProcess_ackPairs {r₀ : AckRange} {rest : List AckRange} (hdesc : Descending (r₀ :: rest))
    (hmax : ∀ r ∈ r₀ :: rest, r.hi ≤ varintMax ∧ r.lo ≤ varintMax) (t : Sentpkt) :
    (t.ackProcess r₀.hi (sub64 r₀.hi r₀.lo :: ackPairs (r₀ :: rest))).2 =
      t.remove (coveredBy (r₀ :: rest)) := by
  have hbound : varintMax = 4611686018427387903 := rfl
  have horder : r₀.lo ≤ r₀.hi := hdesc.1 r₀ (by simp)
  have hr₀ := hmax r₀ (by simp)
  have hlo : sub64 r₀.hi (sub64 r₀.hi r₀.lo) = r₀.lo := sub64_sub64 horder (by omega)
  simp only [ackProcess, hlo, ackRange_snd]
  rw [ackPairsBelow_ackPairs hdesc hmax, ackRanges_snd, remove_remove]
  rfl

end Sentpkt

end Recovery

end QuicVibe
