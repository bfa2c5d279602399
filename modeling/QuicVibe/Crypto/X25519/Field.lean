import QuicVibe.Crypto.X25519.Model
/-!
# The field arithmetic of X25519

What the operations of the code on limbs do in the field, and why none of them overflows: products
leave limbs a little above 51 bits (`Tight`), sums and differences of such numbers stay below 53 bits
(`Loose`), and loose factors are what the product can bear.
-/

namespace QuicVibe

namespace Crypto

namespace X25519

open Checked

/-! ## Limbs and field elements -/

/-- The number in five limbs of 51 bits. -/
def value (f : Fe) : ℕ := Nat.ofDigits (2 ^ 51) f.toList

theorem value_mk (a b c d e : ℕ) :
    value #v[a, b, c, d, e] = a + 2 ^ 51 * b + 2 ^ 102 * c + 2 ^ 153 * d + 2 ^ 204 * e := by
  simp [value, Nat.ofDigits_cons]
  ring

/-- The field element in five limbs. -/
def toF (f : Fe) : F := (value f : F)

/-- The radix. -/
def radix : F := (2 : ℕ) ^ 51

theorem radix_pow_five : radix ^ 5 = 19 := by
  have hprime : ((2 ^ 255 - 19 : ℕ) : F) = 0 := ZMod.natCast_self prime
  rw [Nat.cast_sub (by norm_num)] at hprime
  push_cast at hprime
  rw [radix]
  linear_combination hprime

theorem value_eq (f : Fe) :
    value f = limb f 0 + 2 ^ 51 * limb f 1 + 2 ^ 102 * limb f 2 + 2 ^ 153 * limb f 3 +
      2 ^ 204 * limb f 4 := by
  obtain ⟨f0, f1, f2, f3, f4, rfl⟩ := Limbs.exists_five f
  exact value_mk f0 f1 f2 f3 f4

/-- What is above `2 ^ 255`, folded in with the factor 19. -/
def fold (n : ℕ) : ℕ := n % 2 ^ 255 + 19 * (n / 2 ^ 255)

theorem cast_add_fold (lo hi : ℕ) : ((lo + 19 * hi : ℕ) : F) = (lo + 2 ^ 255 * hi : ℕ) := by
  have hfold := radix_pow_five
  rw [radix] at hfold
  push_cast
  linear_combination -(hi : F) * hfold

theorem cast_fold (n : ℕ) : (fold n : F) = n := by
  rw [fold, cast_add_fold, Nat.mod_add_div]

theorem returns_limbs {f : ℕ → Checked ℕ} {g : ℕ → ℕ} (h : ∀ i < 5, Returns (f i) (· = g i)) :
    Returns (array f 5) fun v => ∀ i < 5, limb v i = g i := by
  refine (returns_array h).mono fun v hv i hi => ?_
  simp [hv, limb, hi]

@[simp] theorem limb_mk (a b c d e : ℕ) :
    limb #v[a, b, c, d, e] 0 = a ∧ limb #v[a, b, c, d, e] 1 = b ∧ limb #v[a, b, c, d, e] 2 = c ∧
      limb #v[a, b, c, d, e] 3 = d ∧ limb #v[a, b, c, d, e] 4 = e := ⟨rfl, rfl, rfl, rfl, rfl⟩

theorem land_mask (x : ℕ) : x &&& MASK51 = x % 2 ^ 51 := Nat.and_two_pow_sub_one_eq_mod x 51

/-- Limbs as a product leaves them. -/
def Tight (f : Fe) : Prop := ∀ i < 5, limb f i < 2 ^ 51 + 2 ^ 13

/-- Limbs of sums and differences of tight numbers. -/
def Loose (f : Fe) : Prop := ∀ i < 5, limb f i < 2 ^ 53

/-- Limbs as a product may take them. -/
def Wide (f : Fe) : Prop := ∀ i < 5, limb f i < 2 ^ 54

variable {f : Fe} {i m : ℕ} {a : F}

theorem Tight.loose (h : Tight f) : Loose f := fun i hi => by
  have := h i hi
  omega

theorem Loose.wide (h : Loose f) : Wide f := fun i hi => by
  have := h i hi
  omega

theorem Loose.getElem_lt (h : Loose f) (hi : i < 5) : f[i] < 2 ^ 64 := by
  have hlimb := h i hi
  rw [limb, List.getD_eq_getElem _ _ (by simpa using hi), Vector.getElem_toList] at hlimb
  omega

/-- A tight number that stands for the element `a`. -/
structure TightAt (a : F) (f : Fe) : Prop where
  tight : Tight f
  eq : toF f = a

/-- A loose number that stands for the element `a`. -/
structure LooseAt (a : F) (f : Fe) : Prop where
  loose : Loose f
  eq : toF f = a

/-- A wide number that stands for the element `a`. -/
structure WideAt (a : F) (f : Fe) : Prop where
  wide : Wide f
  eq : toF f = a

theorem TightAt.looseAt (h : TightAt a f) : LooseAt a f := ⟨h.tight.loose, h.eq⟩

theorem LooseAt.wideAt (h : LooseAt a f) : WideAt a f := ⟨h.loose.wide, h.eq⟩

theorem value_fe0 : value fe0 = 0 := rfl

theorem value_fe1 : value fe1 = 1 := rfl

theorem tightAt_zero : TightAt 0 fe0 := by
  refine ⟨?_, by rw [toF, value_fe0, Nat.cast_zero]⟩
  unfold Tight
  decide

theorem tightAt_one : TightAt 1 fe1 := by
  refine ⟨?_, by rw [toF, value_fe1, Nat.cast_one]⟩
  unfold Tight
  decide

/-! ## Sums and differences -/

variable {f g : Fe} {a b : F}

theorem feAdd_value (h : ∀ i < 5, limb f i + limb g i < 2 ^ 64) :
    Returns (feAdd f g) fun s =>
      (∀ i < 5, limb s i = limb f i + limb g i) ∧ value s = value f + value g := by
  refine (returns_limbs fun i hi => returns_add (h i hi)).mono fun s hs => ⟨hs, ?_⟩
  rw [value_eq, value_eq f, value_eq g]
  simp only [hs, Nat.reduceLT]
  ring

theorem feAdd_spec (hf : TightAt a f) (hg : TightAt b g) : Returns (feAdd f g) (LooseAt (a + b)) := by
  refine (feAdd_value fun i hi => ?_).mono fun s ⟨hs, hval⟩ => ⟨fun i hi => ?_, ?_⟩
  · have := hf.tight i hi
    have := hg.tight i hi
    omega
  · have := hf.tight i hi
    have := hg.tight i hi
    rw [hs i hi]
    omega
  · rw [toF, hval, Nat.cast_add, ← hf.eq, ← hg.eq, toF, toF]

theorem twop_spec : (∀ i < 5, 2 ^ 51 + 2 ^ 13 ≤ limb twop i ∧ limb twop i < 2 ^ 52) ∧
    value twop = 2 * prime := by decide

/-- Limbs are subtracted one by one where twice the prime makes up for the difference. -/
theorem feSub_value (hle : ∀ i < 5, limb g i ≤ limb f i + limb twop i)
    (hf : ∀ i < 5, limb f i < 2 ^ 63) :
    Returns (feSub f g) fun s => (∀ i < 5, limb s i = limb f i + limb twop i - limb g i) ∧
      value s + value g = value f + 2 * prime := by
  have hlimb : ∀ i < 5, Returns (do
      let t ← add 64 (limb f i) (limb twop i)
      sub 64 t (limb g i)) (· = limb f i + limb twop i - limb g i) := by
    intro i hi
    have := hf i hi
    have := (twop_spec.1 i hi).2
    refine (returns_add (by omega)).bind fun t ht => ?_
    rw [← ht]
    exact returns_sub (ht ▸ hle i hi) (by omega)
  refine (returns_limbs hlimb).mono fun s hs => ⟨hs, ?_⟩
  have h0 := hle 0 (by decide)
  have h1 := hle 1 (by decide)
  have h2 := hle 2 (by decide)
  have h3 := hle 3 (by decide)
  have h4 := hle 4 (by decide)
  rw [← twop_spec.2, value_eq s, value_eq f, value_eq g, value_eq twop]
  simp only [hs, Nat.reduceLT]
  omega

theorem toF_sub {s : Fe} (h : value s + value g = value f + 2 * prime) :
    toF s = toF f - toF g := by
  have hcast := congrArg (Nat.cast : ℕ → F) h
  rw [Nat.cast_add, Nat.cast_add, Nat.cast_mul, ZMod.natCast_self, mul_zero, add_zero] at hcast
  rw [toF, toF, toF, ← hcast, add_sub_cancel_right]

theorem feSub_spec (hf : TightAt a f) (hg : TightAt b g) : Returns (feSub f g) (LooseAt (a - b)) := by
  refine (feSub_value (fun i hi => ?_) fun i hi => ?_).mono fun s ⟨hs, hval⟩ =>
    ⟨fun i hi => ?_, ?_⟩
  · have := hg.tight i hi
    have := (twop_spec.1 i hi).1
    omega
  · have := hf.tight i hi
    omega
  · have := hf.tight i hi
    have := (twop_spec.1 i hi).2
    rw [hs i hi]
    omega
  · rw [toF_sub hval, hf.eq, hg.eq]

/-! ## Products -/

/-- What a step of the reduction does to a column when nothing is lost. -/
def splitStep (c t : ℕ) : ℕ × ℕ := ((t + c) % 2 ^ 51, (t + c) / 2 ^ 51)

theorem reduceStep_spec {c t : ℕ} (hc : c < 2 ^ 64) (ht : t ≤ 95 * 2 ^ 108) :
    Returns (reduceStep c t) fun r => r = splitStep c t ∧ r.2 < 2 ^ 64 := by
  refine (returns_add (by omega)).bind fun s hs => ?_
  subst hs
  rw [Nat.shiftRight_eq_div_pow]
  refine (returns_word (by omega)).map fun q hq => ?_
  subst hq
  rw [land_mask, Nat.mod_mod_of_dvd _ (pow_dvd_pow 2 (by decide))]
  exact ⟨rfl, by omega⟩

/-- The limbs of a sweep of five, the number they spell with the carry, and their bounds. -/
theorem sweep_split (t0 t1 t2 t3 t4 : ℕ) :
    ∃ x0 x1 x2 x3 x4 k, Limbs.sweep splitStep 0 [t0, t1, t2, t3, t4] = ([x0, x1, x2, x3, x4], k) ∧
      (x0 < 2 ^ 51 ∧ x1 < 2 ^ 51 ∧ x2 < 2 ^ 51 ∧ x3 < 2 ^ 51 ∧ x4 < 2 ^ 51) ∧
      x0 + 2 ^ 51 * x1 + 2 ^ 102 * x2 + 2 ^ 153 * x3 + 2 ^ 204 * x4 + 2 ^ 255 * k =
        t0 + 2 ^ 51 * t1 + 2 ^ 102 * t2 + 2 ^ 153 * t3 + 2 ^ 204 * t4 := by
  have hstep : ∀ c, ∀ t ∈ [t0, t1, t2, t3, t4], True →
      (splitStep c t).1 + 2 ^ 51 * (splitStep c t).2 = c + t ∧ True := by
    intro c t _ _
    refine ⟨?_, trivial⟩
    rw [splitStep]
    omega
  have hval := Limbs.sweep_carry splitStep hstep (c := 0) trivial
  have hdig : ∀ y ∈ (Limbs.sweep splitStep 0 [t0, t1, t2, t3, t4]).1, y < 2 ^ 51 :=
    (Limbs.sweep_forall (fun _ => True) (· < 2 ^ 51)
      (fun c t _ _ => ⟨Nat.mod_lt _ (by decide), trivial⟩) trivial).1
  have hlen := Limbs.length_sweep splitStep 0 [t0, t1, t2, t3, t4]
  rw [List.map_id'] at hval
  generalize Limbs.sweep splitStep 0 [t0, t1, t2, t3, t4] = res at hval hdig hlen ⊢
  obtain ⟨h, k⟩ := res
  match h, hlen with
  | [x0, x1, x2, x3, x4], _ =>
    simp only [List.forall_mem_cons] at hdig
    obtain ⟨l0, l1, l2, l3, l4, -⟩ := hdig
    refine ⟨x0, x1, x2, x3, x4, k, rfl, ⟨l0, l1, l2, l3, l4⟩, ?_⟩
    simp only [Nat.ofDigits_cons, Nat.ofDigits_nil, List.length_cons, List.length_nil] at hval
    omega

/-- **Reduction** of column sums: the top one stays smaller than the others, since nothing is
folded into it. -/
theorem feReduce_spec {t : Vector ℕ 5} (ht : ∀ i < 5, limb t i ≤ 95 * 2 ^ 108)
    (h4 : limb t 4 ≤ 5 * 2 ^ 108) :
    Returns (feReduce t) fun h => Tight h ∧ value h = fold (value t) := by
  obtain ⟨t0, t1, t2, t3, t4, rfl⟩ := Limbs.exists_five t
  have b0 : t0 ≤ 95 * 2 ^ 108 := ht 0 (by decide)
  have b1 : t1 ≤ 95 * 2 ^ 108 := ht 1 (by decide)
  have b2 : t2 ≤ 95 * 2 ^ 108 := ht 2 (by decide)
  have b3 : t3 ≤ 95 * 2 ^ 108 := ht 3 (by decide)
  have b4 : t4 ≤ 5 * 2 ^ 108 := h4
  have hsweep : Returns (Checked.sweep reduceStep 0 [t0, t1, t2, t3, t4])
      (· = Limbs.sweep splitStep 0 [t0, t1, t2, t3, t4]) := by
    refine returns_sweep (P := (· < 2 ^ 64)) (fun c t hmem hc => reduceStep_spec hc ?_) (by decide)
    simp only [List.mem_cons, List.not_mem_nil, or_false] at hmem
    omega
  obtain ⟨x0, x1, x2, x3, x4, k, hres, ⟨l0, l1, l2, l3, l4⟩, hval⟩ := sweep_split t0 t1 t2 t3 t4
  have hk : k ≤ 6 * 2 ^ 57 := by omega
  refine hsweep.bind fun r hr => ?_
  rw [hres] at hr
  subst hr
  refine (returns_mul (by omega)).bind fun m hm => (returns_add ?_).bind fun h0 hh0 => ?_
  · simp only [List.getD_cons_zero]
    omega
  simp only [List.getD_cons_zero, List.getD_cons_succ] at hh0 ⊢
  subst hm hh0
  rw [Nat.shiftRight_eq_div_pow]
  refine (returns_add (by omega)).map fun h1 hh1 => ?_
  subst hh1
  rw [land_mask]
  constructor
  · intro i hi
    match i, hi with
    | 0, _ | 1, _ | 2, _ | 3, _ | 4, _ =>
      simp only [limb_mk]
      omega
  · rw [value_mk, value_mk, fold, ← hval]
    omega

/-- The term of a column that limb `j` of the first factor enters. -/
def term (f g : Fe) (i j : ℕ) : ℕ :=
  limb f j * if i ≥ j then limb g (i - j) else limb g (5 + i - j) * 19

theorem term_le (hf : Wide f) (hg : Wide g) {j : ℕ} (hi : i < 5) (hj : j < 5) :
    term f g i j ≤ 19 * 2 ^ 108 ∧ (i ≥ j → term f g i j ≤ 2 ^ 108) := by
  have hfj := hf j hj
  rw [term]
  split
  · have hgj := hg (i - j) (by omega)
    have hprod : limb f j * limb g (i - j) ≤ 2 ^ 54 * 2 ^ 54 := Nat.mul_le_mul hfj.le hgj.le
    omega
  · have hgj := hg (5 + i - j) (by omega)
    have hprod : limb f j * limb g (5 + i - j) ≤ 2 ^ 54 * 2 ^ 54 := Nat.mul_le_mul hfj.le hgj.le
    rw [← Nat.mul_assoc]
    omega

theorem mulCol_spec (hf : Wide f) (hg : Wide g) (hi : i < 5) :
    Returns (mulCol f g i) (· = ((List.range 5).map (term f g i)).sum) := by
  have hterm : ∀ j < 5, Returns (do
      let gj ← if i ≥ j then pure (limb g (i - j)) else mul 64 (limb g (5 + i - j)) 19
      mul 128 (limb f j) gj) (· = term f g i j) := by
    intro j hj
    have hle := (term_le hf hg hi hj).1
    rw [term] at hle ⊢
    by_cases hij : i ≥ j
    · rw [if_pos hij] at hle ⊢
      simp only [if_pos hij]
      exact (returns_pure rfl).bind fun gj hgj => hgj ▸ returns_mul (by omega)
    · rw [if_neg hij] at hle ⊢
      have hgj := hg (5 + i - j) (by omega)
      simp only [if_neg hij]
      refine (returns_mul (by omega)).bind fun gj hgj => ?_
      subst hgj
      exact returns_mul (by omega)
  exact (returns_sum hterm (fun j hj => (term_le hf hg hi hj).1) (by decide)).mono
    fun t ht => ht.1

theorem sum_terms_le {B : ℕ} (h : ∀ j < 5, term f g i j ≤ B) :
    ((List.range 5).map (term f g i)).sum ≤ 5 * B := by
  have hsum := List.sum_le_card_nsmul ((List.range 5).map (term f g i)) B fun x hx => by
    obtain ⟨j, hj, rfl⟩ := List.mem_map.1 hx
    exact h j (List.mem_range.1 hj)
  simpa using hsum

/-- **Multiplication.** The part of the product above `2 ^ 255` is folded in with the factor 19
column by column, and what then overflows once more; the last column takes no folded term. -/
theorem feMul_value (hf : Wide f) (hg : Wide g) :
    Returns (feMul f g) fun h => Tight h ∧ ∃ lo hi, value f * value g = lo + 2 ^ 255 * hi ∧
      value h = fold (lo + 19 * hi) := by
  refine (returns_limbs fun i hi => mulCol_spec hf hg hi).bind fun t ht => ?_
  refine (feReduce_spec (fun i hi => ?_) ?_).mono fun h ⟨hh, hval⟩ => ⟨hh,
    limb f 0 * limb g 0 + 2 ^ 51 * (limb f 0 * limb g 1 + limb f 1 * limb g 0) +
      2 ^ 102 * (limb f 0 * limb g 2 + limb f 1 * limb g 1 + limb f 2 * limb g 0) +
      2 ^ 153 * (limb f 0 * limb g 3 + limb f 1 * limb g 2 + limb f 2 * limb g 1 +
        limb f 3 * limb g 0) +
      2 ^ 204 * (limb f 0 * limb g 4 + limb f 1 * limb g 3 + limb f 2 * limb g 2 +
        limb f 3 * limb g 1 + limb f 4 * limb g 0),
    limb f 1 * limb g 4 + limb f 2 * limb g 3 + limb f 3 * limb g 2 + limb f 4 * limb g 1 +
      2 ^ 51 * (limb f 2 * limb g 4 + limb f 3 * limb g 3 + limb f 4 * limb g 2) +
      2 ^ 102 * (limb f 3 * limb g 4 + limb f 4 * limb g 3) +
      2 ^ 153 * (limb f 4 * limb g 4), ?_, ?_⟩
  · rw [ht i hi]
    exact sum_terms_le fun j hj => (term_le hf hg hi hj).1
  · rw [ht 4 (by decide)]
    exact sum_terms_le fun j hj => (term_le hf hg (by decide) hj).2 (by omega)
  · rw [value_eq f, value_eq g]
    ring
  · rw [hval, value_eq t]
    congr 1
    simp only [ht, term, Nat.reduceLT, List.range_succ, List.range_zero, List.nil_append,
      List.cons_append, List.map_cons, List.map_nil, List.sum_cons, List.sum_nil]
    simp only [ge_iff_le, Nat.reduceLeDiff, if_true, if_false, Nat.reduceSub, Nat.reduceAdd]
    ring

theorem feMul_wide (hf : WideAt a f) (hg : WideAt b g) : Returns (feMul f g) (TightAt (a * b)) := by
  refine (feMul_value hf.wide hg.wide).mono fun h ⟨hh, lo, hi, hprod, hval⟩ => ⟨hh, ?_⟩
  rw [toF, hval, cast_fold, cast_add_fold, ← hprod, Nat.cast_mul, ← hf.eq, ← hg.eq, toF, toF]

theorem feMul_spec (hf : LooseAt a f) (hg : LooseAt b g) : Returns (feMul f g) (TightAt (a * b)) :=
  feMul_wide hf.wideAt hg.wideAt

theorem feSq_spec (hf : LooseAt a f) : Returns (feSq f) (TightAt (a * a)) := feMul_spec hf hf

theorem feMul121666_spec (hf : LooseAt a f) : Returns (feMul121666 f) (TightAt (121666 * a)) := by
  have hcols : ∀ i < 5, Returns (mul 128 (limb f i) 121666) (· = limb f i * 121666) := by
    intro i hi
    have := hf.loose i hi
    exact returns_mul (by omega)
  refine (returns_limbs hcols).bind fun t ht => ?_
  have hprod : value t = 121666 * value f := by
    rw [value_eq t, value_eq f]
    simp only [ht, Nat.reduceLT]
    ring
  have hle : ∀ i < 5, limb t i ≤ 5 * 2 ^ 108 := by
    intro i hi
    have := hf.loose i hi
    rw [ht i hi]
    omega
  refine (feReduce_spec (fun i hi => (hle i hi).trans (by decide)) (hle 4 (by decide))).mono
    fun h ⟨hh, hval⟩ => ⟨hh, ?_⟩
  rw [toF, hval, cast_fold, hprod, Nat.cast_mul, ← hf.eq, toF]
  rfl

/-! ## Inversion -/

/-- A relation between residues and the numbers that stand for them, kept by the product. -/
def MulClosed (R : F → Fe → Prop) : Prop :=
  ∀ ⦃a b : F⦄ ⦃f g : Fe⦄, R a f → R b g → Returns (feMul f g) (R (a * b))

variable {R : F → Fe → Prop}

theorem MulClosed.feMul_pow {n : ℕ} (hR : MulClosed R) (hf : R (a ^ m) f) (hg : R (a ^ n) g)
    (k : ℕ) (hk : m + n = k) : Returns (feMul f g) (R (a ^ k)) := by
  rw [← hk, pow_add]
  exact hR hf hg

theorem MulClosed.feSqn_pow (hR : MulClosed R) (hf : R (a ^ m) f) (n k : ℕ) (hk : m * 2 ^ n = k) :
    Returns (feSqn f n) (R (a ^ k)) := by
  induction n generalizing k with
  | zero => exact returns_pure (by simpa [← hk] using hf)
  | succ n ih =>
    refine (ih _ rfl).bind fun h hh => hR.feMul_pow hh hh k ?_
    rw [← hk]
    ring

/-- The chain that the inversion and the root begin with: the powers 11 and `2 ^ 250 - 1`. -/
def feChain (z : Fe) (next : Fe → Fe → Checked Fe) : Checked Fe := do
  let t0 ← feSq z
  let t1 ← feSqn t0 2
  let t1 ← feMul z t1
  let t0 ← feMul t0 t1
  let t2 ← feSq t0
  let t1 ← feMul t1 t2
  let t2 ← feSqn t1 5
  let t1 ← feMul t2 t1
  let t2 ← feSqn t1 10
  let t2 ← feMul t2 t1
  let t3 ← feSqn t2 20
  let t2 ← feMul t3 t2
  let t2 ← feSqn t2 10
  let t1 ← feMul t2 t1
  let t2 ← feSqn t1 50
  let t2 ← feMul t2 t1
  let t3 ← feSqn t2 100
  let t2 ← feMul t3 t2
  let t2 ← feSqn t2 50
  let t1 ← feMul t2 t1
  next t0 t1

/-- **The chain**, whatever follows it. -/
theorem MulClosed.feChain_spec {next : Fe → Fe → Checked Fe} {Q : Fe → Prop} (hR : MulClosed R)
    (hz : R (a ^ 1) f)
    (hnext : ∀ t0 t1, R (a ^ 11) t0 → R (a ^ (2 ^ 250 - 1)) t1 → Returns (next t0 t1) Q) :
    Returns (feChain f next) Q := by
  refine (hR.feMul_pow hz hz 2 rfl).bind fun t0 h0 => ?_
  refine (hR.feSqn_pow h0 2 8 rfl).bind fun t1 h1 => ?_
  refine (hR.feMul_pow hz h1 9 rfl).bind fun t1 h1 => ?_
  refine (hR.feMul_pow h0 h1 11 rfl).bind fun t0 h0 => ?_
  refine (hR.feMul_pow h0 h0 22 rfl).bind fun t2 h2 => ?_
  refine (hR.feMul_pow h1 h2 (2 ^ 5 - 1) rfl).bind fun t1 h1 => ?_
  refine (hR.feSqn_pow h1 5 (2 ^ 10 - 2 ^ 5) (by decide)).bind fun t2 h2 => ?_
  refine (hR.feMul_pow h2 h1 (2 ^ 10 - 1) (by decide)).bind fun t1 h1 => ?_
  refine (hR.feSqn_pow h1 10 (2 ^ 20 - 2 ^ 10) (by decide)).bind fun t2 h2 => ?_
  refine (hR.feMul_pow h2 h1 (2 ^ 20 - 1) (by decide)).bind fun t2 h2 => ?_
  refine (hR.feSqn_pow h2 20 (2 ^ 40 - 2 ^ 20) (by decide)).bind fun t3 h3 => ?_
  refine (hR.feMul_pow h3 h2 (2 ^ 40 - 1) (by decide)).bind fun t2 h2 => ?_
  refine (hR.feSqn_pow h2 10 (2 ^ 50 - 2 ^ 10) (by decide)).bind fun t2 h2 => ?_
  refine (hR.feMul_pow h2 h1 (2 ^ 50 - 1) (by decide)).bind fun t1 h1 => ?_
  refine (hR.feSqn_pow h1 50 (2 ^ 100 - 2 ^ 50) (by decide)).bind fun t2 h2 => ?_
  refine (hR.feMul_pow h2 h1 (2 ^ 100 - 1) (by decide)).bind fun t2 h2 => ?_
  refine (hR.feSqn_pow h2 100 (2 ^ 200 - 2 ^ 100) (by decide)).bind fun t3 h3 => ?_
  refine (hR.feMul_pow h3 h2 (2 ^ 200 - 1) (by decide)).bind fun t2 h2 => ?_
  refine (hR.feSqn_pow h2 50 (2 ^ 250 - 2 ^ 50) (by decide)).bind fun t2 h2 => ?_
  refine (hR.feMul_pow h2 h1 (2 ^ 250 - 1) (by decide)).bind fun t1 h1 => ?_
  exact hnext t0 t1 h0 h1

theorem mulClosed_tightAt : MulClosed TightAt := fun _ _ _ _ hf hg =>
  feMul_spec hf.looseAt hg.looseAt

/-- **Inversion.** The chain of squarings and products ends at the exponent `p - 2`. -/
theorem feInvert_spec (hf : TightAt a f) : Returns (feInvert f) (TightAt (a ^ (prime - 2))) := by
  have hR := mulClosed_tightAt
  refine hR.feChain_spec (by rwa [pow_one]) fun t0 t1 h0 h1 => ?_
  refine (hR.feSqn_pow h1 5 (2 ^ 255 - 2 ^ 5) (by decide)).bind fun t1 h1 => ?_
  exact hR.feMul_pow h1 h0 (prime - 2) (by decide)

end X25519

end Crypto

end QuicVibe
