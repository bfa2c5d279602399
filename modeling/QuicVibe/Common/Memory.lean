import QuicVibe.Common.Bytes
/-!
# Memory

A byte-addressed memory, for functions whose input and output may overlap. `transform_eq_write` is
the rule for a loop that transforms bytes in place; `Holds` says that a string lies at an address,
and splits along appends, so that a parser is run over a message field by field.
-/

namespace QuicVibe

/-- What every address holds. -/
abbrev Mem := ℕ → UInt8

namespace Mem

variable (m : Mem)

/-- The `n` bytes from `p` on. -/
def bytes (p n : ℕ) : Bytes := (List.range n).map fun i => m (p + i)

/-- The array of `n` bytes at `p`. -/
def array (n p : ℕ) : Vector UInt8 n := Bytes.fit n (m.bytes p n)

/-- One byte stored. -/
def store (p : ℕ) (b : UInt8) : Mem := fun a => if a = p then b else m a

/-- A string stored from `p` on. -/
def write (p : ℕ) (bs : Bytes) : Mem := fun a =>
  if p ≤ a ∧ a < p + bs.length then bs.getD (a - p) 0 else m a

/-- The loop `out[i] = f i (in[i])` over the indices from `off` on, `n` of them. -/
def transform (f : ℕ → UInt8 → UInt8) (src dst off n : ℕ) : Mem :=
  (List.range n).foldl (fun m i => m.store (dst + (off + i)) (f (off + i) (m (src + (off + i))))) m

@[simp] theorem length_bytes (p n : ℕ) : (m.bytes p n).length = n := by simp [bytes]

theorem getD_bytes {p n i : ℕ} (hi : i < n) : (m.bytes p n).getD i 0 = m (p + i) := by
  simp [bytes, hi]

theorem bytes_congr {m m' : Mem} {p n : ℕ} (h : ∀ a, p ≤ a → a < p + n → m a = m' a) :
    m.bytes p n = m'.bytes p n := by
  refine List.map_congr_left fun i hi => h _ (by omega) ?_
  have := List.mem_range.1 hi
  omega

theorem write_of_notMem {p a : ℕ} {bs : Bytes} (h : ¬ (p ≤ a ∧ a < p + bs.length)) :
    m.write p bs a = m a := if_neg h

@[simp] theorem bytes_write (p : ℕ) (bs : Bytes) : (m.write p bs).bytes p bs.length = bs := by
  refine List.ext_getElem (by simp) fun i h₁ h₂ => ?_
  simp [bytes, write, h₂]

theorem array_write {n : ℕ} (p : ℕ) (v : Vector UInt8 n) : (m.write p v.toList).array n p = v := by
  have hread := m.bytes_write p v.toList
  rw [Vector.length_toList] at hread
  rw [array, hread, Bytes.fit_toList]

theorem bytes_write_of_apart {p q n : ℕ} {bs : Bytes}
    (h : q + n ≤ p ∨ p + bs.length ≤ q) : (m.write p bs).bytes q n = m.bytes q n :=
  bytes_congr fun _ _ _ => write_of_notMem m (by omega)

theorem transform_add (f : ℕ → UInt8 → UInt8) (src dst off n k : ℕ) :
    m.transform f src dst off (n + k) =
      (m.transform f src dst off n).transform f src dst (off + n) k := by
  simp only [transform, List.range_add, List.foldl_append, List.foldl_map, Nat.add_assoc]

/-- **In-place loops.** Where the output starts at or before the input, or behind it, the loop
writes the transformed input. -/
theorem transform_eq_write (f : ℕ → UInt8 → UInt8) {src dst n : ℕ}
    (h : dst ≤ src ∨ src + n ≤ dst) :
    m.transform f src dst 0 n = m.write dst ((List.range n).map fun i => f i (m (src + i))) := by
  induction n with
  | zero =>
    funext a
    rw [write_of_notMem m (by simp)]
    rfl
  | succ n ih =>
    rw [transform_add, ih (by omega)]
    funext a
    -- byte `n` of the input has not been written over
    have hread : m.write dst ((List.range n).map fun i => f i (m (src + i))) (src + n) =
        m (src + n) := write_of_notMem m (by simp; omega)
    simp only [transform, List.range_one, List.foldl_cons, List.foldl_nil, Nat.zero_add,
      Nat.add_zero, store, hread]
    by_cases ha : a = dst + n
    · subst ha
      simp [write]
    · rw [if_neg ha]
      by_cases hin : dst ≤ a ∧ a < dst + n
      · have hi : a - dst < n := by omega
        simp [write, hin.1, hin.2, hi, show a < dst + (n + 1) by omega,
          show a - dst < n + 1 by omega]
      · rw [write_of_notMem m (by simpa using hin), write_of_notMem m (by simp; omega)]

/-- **Loops in chunks.** A loop that transforms `B` bytes a round, and in its last round what is
left, with a state `st k` that only depends on the round, is one loop over all bytes. -/
theorem chunks_eq_transform {σ : Type*} (B : ℕ) (st : ℕ → σ) {loop : ℕ → ℕ → Mem → σ → Mem}
    {f : ℕ → UInt8 → UInt8} {src dst len : ℕ}
    (hstop : ∀ fuel off m s, len ≤ off → loop fuel off m s = m)
    (hstep : ∀ fuel k m, B * k < len → loop (fuel + 1) (B * k) m (st k) =
      loop fuel (B * k + min B (len - B * k))
        (m.transform f src dst (B * k) (min B (len - B * k))) (st (k + 1)))
    (hB : 0 < B) {fuel : ℕ} (k : ℕ) (hfuel : len - B * k ≤ fuel) :
    loop fuel (B * k) m (st k) = m.transform f src dst (B * k) (len - B * k) := by
  induction fuel generalizing k m with
  | zero =>
    rw [hstop _ _ _ _ (by omega), Nat.le_zero.1 hfuel]
    rfl
  | succ fuel ih =>
    by_cases hlt : B * k < len
    · rw [hstep _ _ _ hlt]
      by_cases hfull : B ≤ len - B * k
      · have hnext : B * k + B = B * (k + 1) := by rw [Nat.mul_succ]
        have hsplit : len - B * k = B + (len - B * (k + 1)) := by omega
        rw [Nat.min_eq_left hfull, hnext, ih _ (k + 1) (by omega), hsplit, transform_add, hnext]
      · rw [Nat.min_eq_right (by omega), hstop _ _ _ _ (by omega)]
    · rw [hstop _ _ _ _ (by omega), Nat.sub_eq_zero_of_le (by omega)]
      rfl

/-! ## Strings in memory -/

/-- The string lies at `p`. -/
def Holds (m : Mem) (p : ℕ) (bs : Bytes) : Prop := ∀ i, (h : i < bs.length) → m (p + i) = bs[i]

namespace Holds

variable {m : Mem} {p : ℕ} {xs ys : Bytes} {x : UInt8}

@[simp] theorem nil (m : Mem) (p : ℕ) : m.Holds p [] := by
  intro i h
  cases h

theorem cons_iff : m.Holds p (x :: xs) ↔ m p = x ∧ m.Holds (p + 1) xs := by
  constructor
  · intro h
    refine ⟨h 0 (by simp), fun i hi => ?_⟩
    rw [Nat.add_assoc, Nat.add_comm 1 i]
    exact h (i + 1) (Nat.succ_lt_succ hi)
  · rintro ⟨hfirst, hrest⟩ i hi
    cases i with
    | zero => exact hfirst
    | succ i =>
      have hnext := hrest i (Nat.lt_of_succ_lt_succ hi)
      rwa [Nat.add_assoc, Nat.add_comm 1 i] at hnext

theorem append_iff : m.Holds p (xs ++ ys) ↔ m.Holds p xs ∧ m.Holds (p + xs.length) ys := by
  induction xs generalizing p with
  | nil => simp
  | cons x xs ih =>
    rw [List.cons_append, cons_iff, cons_iff, ih, and_assoc, List.length_cons, Nat.add_assoc,
      Nat.add_comm 1]

theorem left (h : m.Holds p (xs ++ ys)) : m.Holds p xs := (append_iff.1 h).1

theorem right (h : m.Holds p (xs ++ ys)) : m.Holds (p + xs.length) ys := (append_iff.1 h).2

theorem congr {m' : Mem} (h : m.Holds p xs) (hsame : ∀ i, p ≤ i → i < p + xs.length → m' i = m i) :
    m'.Holds p xs := by
  intro i hi
  rw [hsame _ (by omega) (by omega)]
  exact h i hi

theorem take_eq (h : m.Holds p xs) (h' : m.Holds p ys) (hlen : xs.length ≤ ys.length) :
    ys.take xs.length = xs := by
  refine List.ext_getElem (by rw [List.length_take]; omega) fun i h₁ h₂ => ?_
  rw [List.getElem_take, ← h i h₂, h' i (by omega)]

theorem eq (h : m.Holds p xs) (h' : m.Holds p ys) (hlen : xs.length = ys.length) : xs = ys := by
  rw [← take_eq h h' (Nat.le_of_eq hlen), hlen, List.take_length]

theorem bytes (m : Mem) (p n : ℕ) : m.Holds p (m.bytes p n) := by
  intro i hi
  simp [Mem.bytes]

theorem getD (xs : Bytes) (d : ℕ → UInt8) : Holds (fun i => xs.getD i (d i)) 0 xs := by
  intro i hi
  simp [hi]

theorem drop (h : m.Holds p xs) (k : ℕ) : m.Holds (p + k) (xs.drop k) := by
  intro i hi
  rw [List.length_drop] at hi
  rw [List.getElem_drop, Nat.add_assoc]
  exact h (k + i) (by omega)

theorem take (h : m.Holds p xs) (k : ℕ) : m.Holds p (xs.take k) := by
  intro i hi
  rw [List.length_take] at hi
  rw [List.getElem_take]
  exact h i (by omega)

theorem bytes_eq (h : m.Holds p xs) : m.bytes p xs.length = xs :=
  (bytes m p xs.length).eq h (by simp)

end Holds

end Mem

end QuicVibe
