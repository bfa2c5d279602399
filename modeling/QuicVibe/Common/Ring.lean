import Mathlib
/-!
# Rings

A fixed array used as a queue. What the queue holds is the window of `count` slots from `head` on,
read as a list; dropping the oldest element moves the head, appending writes behind the window.
-/

namespace QuicVibe

namespace Ring

variable {α : Type*} {N : ℕ} [NeZero N]

/-- The element in slot `k`, counted around the ring. -/
def slot (ring : Vector α N) (k : ℕ) : α := ring.get (Fin.ofNat N k)

/-- Replace the element in slot `k`. -/
def setSlot (ring : Vector α N) (k : ℕ) (x : α) : Vector α N :=
  ring.set (Fin.ofNat N k).val x

/-- The elements of the queue, oldest first. -/
def window (ring : Vector α N) (head count : ℕ) : List α :=
  (List.range count).map fun i => slot ring (head + i)

variable (ring : Vector α N) (head count : ℕ)

theorem slot_mod_add (k i : ℕ) : slot ring (k % N + i) = slot ring (k + i) := by
  have hslot : Fin.ofNat N (k % N + i) = Fin.ofNat N (k + i) := Fin.ext (Nat.mod_add_mod k N i)
  rw [slot, hslot, slot]

theorem slot_setSlot_self (k : ℕ) (x : α) : slot (setSlot ring k x) k = x :=
  Vector.getElem_set_self _

theorem slot_setSlot_of_ne {k j : ℕ} (x : α) (h : k % N ≠ j % N) :
    slot (setSlot ring k x) j = slot ring j :=
  Vector.getElem_set_ne _ _ h

@[simp] theorem window_zero : window ring head 0 = [] := rfl

@[simp] theorem length_window : (window ring head count).length = count := by
  simp [window]

theorem getElem?_window {i : ℕ} (hi : i < count) :
    (window ring head count)[i]? = some (slot ring (head + i)) := by
  simp [window, hi]

@[simp] theorem window_mod : window ring (head % N) count = window ring head count :=
  List.map_congr_left fun i _ => slot_mod_add ring head i

/-- **Dequeue.** The oldest element, and the window behind it. -/
theorem window_succ :
    window ring head (count + 1) = slot ring head :: window ring (head + 1) count := by
  rw [window, List.range_succ_eq_map, List.map_cons, List.map_map, Nat.add_zero, window]
  refine congrArg _ (List.map_congr_left fun i _ => ?_)
  have hcomm : head + (i + 1) = head + 1 + i := by omega
  rw [Function.comp_apply, Nat.succ_eq_add_one, hcomm]

/-- **Enqueue.** Writing the slot behind the window appends, unless the ring is full. -/
theorem window_setSlot (x : α) (hcount : count < N) :
    window (setSlot ring (head + count) x) head (count + 1) = window ring head count ++ [x] := by
  rw [window, List.range_succ, List.map_append, List.map_singleton, slot_setSlot_self, window]
  congr 1
  refine List.map_congr_left fun i hi => slot_setSlot_of_ne ring x ?_
  rw [List.mem_range] at hi
  -- two slots less than a round apart are different
  intro heq
  have hsub : head + count - (head + i) = count - i := by omega
  have hdvd : N ∣ count - i := by
    rw [← hsub]
    exact (Nat.modEq_iff_dvd' (by omega)).1 heq.symm
  have hle := Nat.le_of_dvd (by omega) hdvd
  omega

end Ring

end QuicVibe
