import Mathlib
/-!
# Descending interval lists

A finite set of natural numbers written as its maximal runs, highest first.
-/

namespace QuicVibe

/-- A non-empty run of consecutive natural numbers. -/
structure Interval where
  lo : ℕ
  hi : ℕ
  lo_le_hi : lo ≤ hi

namespace Interval

instance : Membership ℕ Interval where
  mem b p := b.lo ≤ p ∧ p ≤ b.hi

theorem mem_def {b : Interval} {p : ℕ} : p ∈ b ↔ b.lo ≤ p ∧ p ≤ b.hi := Iff.rfl

/-- `b` lies below `a` and does not touch it. -/
def Below (a b : Interval) : Prop := b.hi + 1 < a.lo

end Interval

/-- Runs in descending order, disjoint and not adjacent; there is at least one. -/
structure Intervals where
  top : Interval
  rest : List Interval
  separated : (top :: rest).IsChain Interval.Below

namespace Intervals

/-- All runs, highest first. -/
def toList (bs : Intervals) : List Interval := bs.top :: bs.rest

instance : Membership ℕ Intervals where
  mem bs p := ∃ b ∈ bs.toList, p ∈ b

theorem mem_def {bs : Intervals} {p : ℕ} : p ∈ bs ↔ ∃ b ∈ bs.toList, p ∈ b := Iff.rfl

/-- A single run. -/
def single (b : Interval) : Intervals := ⟨b, [], .singleton b⟩

/-- Put a run on top of those below it. -/
def cons (b : Interval) (bs : Intervals) (h : b.Below bs.top) : Intervals :=
  ⟨b, bs.top :: bs.rest, .cons_cons h bs.separated⟩

@[simp] theorem mem_single {b : Interval} {p : ℕ} : p ∈ single b ↔ p ∈ b := by
  simp [mem_def, single, toList]

@[simp] theorem mem_cons {b : Interval} {bs : Intervals} {h : b.Below bs.top} {p : ℕ} :
    p ∈ cons b bs h ↔ p ∈ b ∨ p ∈ bs := by
  simp [mem_def, cons, toList]

end Intervals

end QuicVibe
