import QuicVibe.Ack.Model
/-!
# The receive window

What the word-sized record of a packet number space means. `RecvPn.Represents r recorded` says
that `r` is the record of the numbers `recorded`: the largest of them, and one bit for each of the
64 numbers below it. Recording a number keeps it, and `seen` then answers membership exactly as
far as the window reaches.
-/

namespace QuicVibe

namespace Ack

/-- `p` was recorded and is at most a window below every recorded number. -/
def InWindow (recorded : List ℕ) (p : ℕ) : Prop :=
  p ∈ recorded ∧ ∀ q ∈ recorded, q ≤ p + recvpnWindow

/-- `r` is the record of the packet numbers `recorded`. -/
structure RecvPn.Represents (r : RecvPn) (recorded : List ℕ) : Prop where
  bounded : ∀ q ∈ recorded, q < 2 ^ 64
  any_iff : r.any = true ↔ recorded ≠ []
  largest_mem : recorded ≠ [] → r.largest ∈ recorded
  le_largest : ∀ q ∈ recorded, q ≤ r.largest
  bit_iff : ∀ i < 64, r.bitmap.getLsbD i = true ↔
    i + 1 ≤ r.largest ∧ r.largest - (i + 1) ∈ recorded

namespace RecvPn

theorem represents_init : RecvPn.init.Represents [] where
  bounded := by simp
  any_iff := by simp [init]
  largest_mem := by simp
  le_largest := by simp
  bit_iff := by simp [init]

theorem getLsbD_one_shiftLeft {k i : ℕ} (hi : i < 64) :
    (1#64 <<< k).getLsbD i = true ↔ i = k := by
  simp [hi]
  omega

variable {r : RecvPn} {pn : ℕ} {recorded : List ℕ}

/-- The bits of the shifted window: the old largest, and the old bits moved up. -/
theorem getLsbD_advance {i : ℕ} (h : r.largest < pn) (hpn : pn < 2 ^ 64) (hi : i < 64) :
    (r.advance pn).bitmap.getLsbD i = true ↔
      i + 1 = pn - r.largest ∨
        (pn - r.largest ≤ i ∧ r.bitmap.getLsbD (i - (pn - r.largest)) = true) := by
  have hs : sub64 pn r.largest = pn - r.largest := sub64_of_le h.le hpn
  simp only [advance, hs, BitVec.getLsbD_or, Bool.or_eq_true]
  rcases Nat.lt_trichotomy (pn - r.largest) 64 with hlt | heq | hgt
  · rw [if_neg (by omega), if_pos (by omega), getLsbD_one_shiftLeft hi]
    simp only [BitVec.getLsbD_shiftLeft, hi, decide_true, Bool.true_and, Bool.and_eq_true,
      Bool.not_eq_true', decide_eq_false_iff_not]
    constructor
    · rintro (⟨h₁, h₂⟩ | h₁)
      · exact Or.inr ⟨by omega, h₂⟩
      · exact Or.inl (by omega)
    · rintro (h₁ | ⟨h₁, h₂⟩)
      · exact Or.inr (by omega)
      · exact Or.inl ⟨by omega, h₂⟩
  · rw [if_pos (by omega), if_pos (by omega), getLsbD_one_shiftLeft hi]
    simp
    omega
  · rw [if_pos (by omega), if_neg (by omega)]
    simp
    omega

theorem Represents.advance (h : r.Represents recorded) (hany : recorded ≠ [])
    (hgt : r.largest < pn) (hpn : pn < 2 ^ 64) :
    (r.advance pn).Represents (recorded ++ [pn]) where
  bounded q hq := by
    rcases List.mem_append.1 hq with hq | hq
    · exact h.bounded q hq
    · simp only [List.mem_singleton] at hq
      omega
  any_iff := by
    have : (r.advance pn).any = r.any := rfl
    simp [this, h.any_iff, hany]
  largest_mem _ := List.mem_append_right _ (List.mem_singleton.2 rfl)
  le_largest q hq := by
    change q ≤ pn
    rcases List.mem_append.1 hq with hq | hq
    · exact (h.le_largest q hq).trans hgt.le
    · exact (List.mem_singleton.1 hq).le
  bit_iff i hi := by
    rw [getLsbD_advance hgt hpn hi]
    change _ ↔ i + 1 ≤ pn ∧ pn - (i + 1) ∈ recorded ++ [pn]
    have hmem : i + 1 ≤ pn → (pn - (i + 1) ∈ recorded ++ [pn] ↔ pn - (i + 1) ∈ recorded) := by
      intro hle
      simp only [List.mem_append, List.mem_singleton, or_iff_left_iff_imp]
      omega
    -- below, at, or above the old largest
    rcases Nat.lt_trichotomy (i + 1) (pn - r.largest) with hlt | heq | hgt'
    · refine iff_of_false (by omega) ?_
      rintro ⟨hle, hin⟩
      have := h.le_largest _ ((hmem hle).1 hin)
      omega
    · refine iff_of_true (Or.inl heq) ⟨by omega, (hmem (by omega)).2 ?_⟩
      rw [show pn - (i + 1) = r.largest by omega]
      exact h.largest_mem hany
    · have hbit := h.bit_iff (i - (pn - r.largest)) (by omega)
      constructor
      · rintro (h₁ | ⟨-, h₂⟩)
        · omega
        · obtain ⟨hle, hin⟩ := hbit.1 h₂
          refine ⟨by omega, (hmem (by omega)).2 ?_⟩
          rwa [show pn - (i + 1) = r.largest - (i - (pn - r.largest) + 1) by omega]
      · rintro ⟨hle, hin⟩
        refine Or.inr ⟨by omega, hbit.2 ?_⟩
        rw [show r.largest - (i - (pn - r.largest) + 1) = pn - (i + 1) by omega]
        exact ⟨by omega, (hmem hle).1 hin⟩

theorem Represents.markBelow (h : r.Represents recorded) (hany : recorded ≠ [])
    (hle : pn ≤ r.largest) : (r.markBelow pn).Represents (recorded ++ [pn]) := by
  have hlargest := h.bounded _ (h.largest_mem hany)
  have hs : sub64 r.largest pn = r.largest - pn := sub64_of_le hle hlargest
  have hl : (r.markBelow pn).largest = r.largest := by
    simp only [RecvPn.markBelow]
    split <;> rfl
  have ha : (r.markBelow pn).any = r.any := by
    simp only [RecvPn.markBelow]
    split <;> rfl
  -- the bit set, if any, is the one of `pn`
  have hbit : ∀ i < 64, (r.markBelow pn).bitmap.getLsbD i = true ↔
      r.bitmap.getLsbD i = true ∨ pn + (i + 1) = r.largest := by
    intro i hi
    simp only [RecvPn.markBelow, hs, recvpnWindow]
    split
    · rw [or_iff_left (by omega)]
    · simp only [BitVec.getLsbD_or, Bool.or_eq_true, getLsbD_one_shiftLeft hi]
      exact or_congr_right (by omega)
  refine ⟨fun q hq => ?_, ?_, fun _ => ?_, fun q hq => ?_, fun i hi => ?_⟩
  · rcases List.mem_append.1 hq with hq | hq
    · exact h.bounded q hq
    · rw [List.mem_singleton.1 hq]
      omega
  · simp [ha, h.any_iff, hany]
  · rw [hl]
    exact List.mem_append_left _ (h.largest_mem hany)
  · rw [hl]
    rcases List.mem_append.1 hq with hq | hq
    · exact h.le_largest q hq
    · rwa [List.mem_singleton.1 hq]
  · rw [hbit i hi, hl, h.bit_iff i hi, List.mem_append, List.mem_singleton, and_or_left]
    exact or_congr_right (by omega)

theorem Represents.record (h : r.Represents recorded) (hpn : pn < 2 ^ 64) :
    (r.record pn).Represents (recorded ++ [pn]) := by
  by_cases hany : recorded = []
  · subst hany
    have ha : r.any = false := by simpa using h.any_iff
    refine ⟨by simpa using hpn, by simp [RecvPn.record, ha], by simp [RecvPn.record, ha],
      by simp [RecvPn.record, ha], fun i hi => ?_⟩
    have hbit := h.bit_iff i hi
    simp only [List.not_mem_nil, and_false, iff_false] at hbit
    simp only [RecvPn.record, ha, Bool.not_false, if_true, List.nil_append, List.mem_singleton]
    exact iff_of_false hbit (by omega)
  · have ha : r.any = true := h.any_iff.2 hany
    simp only [RecvPn.record, ha, Bool.not_true, Bool.false_eq_true, if_false]
    split
    · exact h.advance hany (by omega) hpn
    · exact h.markBelow hany (by omega)

theorem Represents.seen_iff (h : r.Represents recorded) (hany : recorded ≠ []) :
    r.seen pn = true ↔ pn ∈ recorded ∧ r.largest ≤ pn + recvpnWindow := by
  have ha : r.any = true := h.any_iff.2 hany
  have hlargest := h.bounded _ (h.largest_mem hany)
  simp only [RecvPn.seen, ha, Bool.not_true, Bool.false_eq_true, if_false, RecvPn.seenAtOrAbove]
  rcases Nat.lt_trichotomy pn r.largest with hlt | rfl | hgt
  · rw [if_neg (by omega), if_neg (by omega), RecvPn.belowSeen, sub64_of_le hlt.le hlargest]
    by_cases hw : r.largest - pn > recvpnWindow
    · rw [if_pos hw]
      simp only [Bool.false_eq_true, false_iff]
      omega
    · rw [if_neg hw, h.bit_iff _ (by simp only [recvpnWindow] at hw; omega),
        show r.largest - (r.largest - pn - 1 + 1) = pn by omega]
      exact ⟨fun ⟨_, h₂⟩ => ⟨h₂, by omega⟩, fun ⟨h₁, _⟩ => ⟨by omega, h₁⟩⟩
  · simp [h.largest_mem hany]
  · rw [if_neg (by omega), if_pos hgt]
    refine iff_of_false (by simp) fun ⟨h₁, _⟩ => ?_
    have := h.le_largest _ h₁
    omega

theorem Represents.inWindow_iff (h : r.Represents recorded) (hany : recorded ≠ []) {p : ℕ} :
    InWindow recorded p ↔ p ∈ recorded ∧ r.largest ≤ p + recvpnWindow := by
  refine ⟨fun ⟨h₁, h₂⟩ => ⟨h₁, h₂ _ (h.largest_mem hany)⟩, fun ⟨h₁, h₂⟩ => ⟨h₁, fun q hq => ?_⟩⟩
  have := h.le_largest q hq
  omega

/-! ## How long a number is remembered -/

theorem Represents.mem_collectPns (h : r.Represents recorded) (hany : recorded ≠ []) {p : ℕ} :
    p ∈ RecvSpaces.collectPns r ↔ InWindow recorded p := by
  have hlargest := h.bounded _ (h.largest_mem hany)
  rw [h.inWindow_iff hany]
  simp only [RecvSpaces.collectPns, List.mem_append, List.mem_filterMap, List.mem_reverse,
    List.mem_range, List.mem_singleton, Option.ite_none_right_eq_some, Option.some.injEq]
  constructor
  · rintro (⟨i, -, hs, rfl⟩ | rfl)
    · exact (h.seen_iff hany).1 hs
    · exact ⟨h.largest_mem hany, by omega⟩
  · rintro ⟨hp, hw⟩
    have hple := h.le_largest p hp
    rcases hple.eq_or_lt with rfl | hlt
    · exact Or.inr rfl
    · have he : sub64 r.largest (r.largest - p - 1 + 1) = p := by
        rw [sub64_of_le (by omega) hlargest]
        omega
      refine Or.inl ⟨r.largest - p - 1, by simp only [recvpnWindow] at hw ⊢; omega, ?_, he⟩
      rw [he]
      exact (h.seen_iff hany).2 ⟨hp, hw⟩

theorem Represents.collectPns_descending (h : r.Represents recorded) (hany : recorded ≠ []) :
    (RecvSpaces.collectPns r).reverse.Pairwise (· > ·) := by
  have hlargest := h.bounded _ (h.largest_mem hany)
  -- a seen number is not past zero, so the subtraction that names it is exact
  have hval : ∀ i p, (if r.seen (sub64 r.largest (i + 1)) = true
      then some (sub64 r.largest (i + 1)) else none) = some p → i < recvpnWindow →
        p + (i + 1) = r.largest := by
    intro i p hp hi
    simp only [Option.ite_none_right_eq_some, Option.some.injEq] at hp
    obtain ⟨hs, rfl⟩ := hp
    have hle := h.le_largest _ ((h.seen_iff hany).1 hs).1
    simp only [sub64, recvpnWindow] at hle hi ⊢
    omega
  rw [List.pairwise_reverse, RecvSpaces.collectPns, List.pairwise_append]
  refine ⟨?_, List.pairwise_singleton _ _, ?_⟩
  · rw [List.pairwise_filterMap, List.pairwise_reverse]
    refine List.pairwise_lt_range.imp_of_mem fun {a b} ha hb hab p hp q hq => ?_
    have h₁ := hval _ _ hp (by simpa using hb)
    have h₂ := hval _ _ hq (by simpa using ha)
    omega
  · intro p hp q hq
    obtain ⟨i, hi, hp⟩ := List.mem_filterMap.1 hp
    have := hval i p hp (by simpa using hi)
    have := List.mem_singleton.1 hq
    omega

end RecvPn

end Ack

end QuicVibe
