import QuicVibe.Common.Bytes
/-!
# Assembling a string from pieces

A receiver that gets the pieces of a string in any order copies each to its place in a buffer, marks
the places it has written, and hands out the part that is marked without a gap from the front on.
-/

namespace QuicVibe

namespace Assembly

variable {α : Type*} {n : ℕ}

/-! ## Marks -/

/-- Step over the marks that are set, and stop at the first that is not. -/
def scan : List Bool → ℕ → ℕ
  | true :: rest, d => scan rest (d + 1)
  | _, d => d

/-- The scan passes only over set marks and does not stop before a set one. -/
theorem scan_spec (marks : List Bool) (d : ℕ) :
    d ≤ scan marks d ∧ scan marks d ≤ d + marks.length ∧
      (∀ k, d + k < scan marks d → marks[k]? = some true) ∧
      ∀ k, scan marks d = d + k → marks[k]? ≠ some true := by
  induction marks generalizing d with
  | nil => simp [scan]
  | cons b rest ih =>
    cases b with
    | false =>
      have hstop : scan (false :: rest) d = d := rfl
      rw [hstop]
      refine ⟨Nat.le_refl d, by omega, fun k hk => by omega, fun k hk => ?_⟩
      obtain rfl : k = 0 := by omega
      simp
    | true =>
      obtain ⟨h₁, h₂, h₃, h₄⟩ := ih (d + 1)
      rw [scan]
      refine ⟨by omega, by simp only [List.length_cons]; omega, fun k hk => ?_, fun k hk => ?_⟩
      · cases k with
        | zero => rfl
        | succ k => exact h₃ k (by omega)
      · obtain ⟨k, rfl⟩ : ∃ j, k = j + 1 := ⟨k - 1, by omega⟩
        exact h₄ k (by omega)

/-- The scan of a vector of marks from `d` on ends at the end of the vector or at the first mark that
is not set. -/
theorem scan_vector_spec (marks : Vector Bool n) {d : ℕ} (h : d ≤ n) :
    d ≤ scan (marks.toList.drop d) d ∧ scan (marks.toList.drop d) d ≤ n ∧
      (∀ i (_ : i < n), d ≤ i → i < scan (marks.toList.drop d) d → marks[i] = true) ∧
      ∀ _ : scan (marks.toList.drop d) d < n, marks[scan (marks.toList.drop d) d] = false := by
  obtain ⟨h₁, h₂, h₃, h₄⟩ := scan_spec (marks.toList.drop d) d
  rw [List.length_drop, Vector.length_toList] at h₂
  simp only [List.getElem?_drop] at h₃ h₄
  generalize scan (marks.toList.drop d) d = e at *
  refine ⟨h₁, by omega, fun i hi hdi hie => ?_, fun hi => ?_⟩
  · obtain ⟨k, rfl⟩ : ∃ k, i = d + k := ⟨i - d, by omega⟩
    simpa [hi] using h₃ k hie
  · obtain ⟨k, rfl⟩ : ∃ k, e = d + k := ⟨e - d, by omega⟩
    simpa [hi] using h₄ k rfl

/-! ## Pieces -/

/-- Pieces of the string `S`, each at its offset, have been copied to `buf` and marked. -/
structure Assembled (S : List α) (buf : Vector α n) (marks : Vector Bool n)
    (pieces : List (ℕ × List α)) : Prop where
  fits : ∀ p ∈ pieces, p.1 + p.2.length ≤ n
  mark_iff : ∀ i (_ : i < n), marks[i] = true ↔ ∃ p ∈ pieces, p.1 ≤ i ∧ i < p.1 + p.2.length
  eq : ∀ i (_ : i < n), marks[i] = true → S[i]? = some buf[i]

theorem mark_writeAt_iff (marks : Vector Bool n) (off : ℕ) (xs : List α) {i : ℕ} (hi : i < n) :
    (Buf.writeAt marks off (xs.map fun _ => true))[i] = true ↔
      marks[i] = true ∨ (off ≤ i ∧ i < off + xs.length) := by
  by_cases hin : off ≤ i ∧ i < off + xs.length
  · rw [Buf.getElem_writeAt_of_mem hi hin.1 (by simp; omega)]
    simp [hin]
  · rw [Buf.getElem_writeAt_of_not_mem hi (by simpa using hin)]
    simp only [hin, or_false]

variable {S : List α} {buf : Vector α n} {marks : Vector Bool n} {pieces : List (ℕ × List α)}

theorem Assembled.start (S : List α) (buf : Vector α n) :
    Assembled S buf (Vector.replicate n false) [] where
  fits := by simp
  mark_iff i hi := by simp
  eq i hi := by simp

/-- **Another piece.** -/
theorem Assembled.write (h : Assembled S buf marks pieces) {off : ℕ} {xs : List α}
    (hfits : off + xs.length ≤ n) (hpiece : xs <+: S.drop off) :
    Assembled S (Buf.writeAt buf off xs) (Buf.writeAt marks off (xs.map fun _ => true))
      (pieces ++ [(off, xs)]) := by
  refine ⟨?_, ?_, ?_⟩
  · intro p hp
    rcases List.mem_append.1 hp with hp | hp
    · exact h.fits p hp
    · obtain rfl := List.mem_singleton.1 hp
      exact hfits
  · intro i hi
    rw [mark_writeAt_iff marks off xs hi, h.mark_iff i hi]
    simp [or_and_right, exists_or]
  · intro i hi hm
    by_cases hin : off ≤ i ∧ i < off + xs.length
    · have hlt : i - off < xs.length := by omega
      rw [Buf.getElem_writeAt_of_mem hi hin.1 hlt, ← List.getElem?_eq_getElem hlt]
      obtain ⟨rest, hrest⟩ := hpiece
      rw [← List.getElem?_append_left hlt, hrest, List.getElem?_drop]
      congr 1
      omega
    · rw [Buf.getElem_writeAt_of_not_mem hi hin]
      exact h.eq i hi (((mark_writeAt_iff marks off xs hi).1 hm).resolve_right hin)

theorem Assembled.take_drop (h : Assembled S buf marks pieces) {a k : ℕ} (hle : a + k ≤ n)
    (hm : ∀ i (_ : i < n), a ≤ i → i < a + k → marks[i] = true) :
    (buf.toList.drop a).take k = (S.drop a).take k := by
  refine List.ext_getElem? fun j => ?_
  rw [List.getElem?_take, List.getElem?_take]
  split
  · have hj : a + j < n := by omega
    rw [List.getElem?_drop, List.getElem?_drop, h.eq (a + j) hj (hm _ hj (by omega) (by omega))]
    simp [hj]
  · rfl

theorem Assembled.lt_length (h : Assembled S buf marks pieces) {i : ℕ} (hi : i < n)
    (hm : marks[i] = true) : i < S.length :=
  (List.getElem?_eq_some_iff.1 (h.eq i hi hm)).1

end Assembly

end QuicVibe
