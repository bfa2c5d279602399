import Mathlib
/-!
# Bit strings as polynomials over GF(2)

A string of `n` bits is a polynomial of degree below `n` over the field of two elements. Code
multiplies two of them modulo a fixed polynomial by shifting and adding; `foldl_shiftAdd` is that
loop over an arbitrary commutative semiring.
-/

namespace QuicVibe

namespace BitPoly

open Polynomial

/-! ## Strings and polynomials -/

/-- The coefficient a bit stands for. -/
def coeffOf (b : Bool) : ZMod 2 := if b then 1 else 0

@[simp] theorem coeffOf_false : coeffOf false = 0 := rfl

@[simp] theorem coeffOf_true : coeffOf true = 1 := rfl

theorem coeffOf_xor (a b : Bool) : coeffOf (a ^^ b) = coeffOf a + coeffOf b := by
  cases a <;> cases b <;> decide

theorem coeffOf_injective : Function.Injective coeffOf := by decide

/-- The polynomial of the first `n` bits. -/
noncomputable def ofBits (n : ℕ) (b : ℕ → Bool) : (ZMod 2)[X] :=
  ∑ i ∈ Finset.range n, C (coeffOf (b i)) * X ^ i

variable {n : ℕ} (b : ℕ → Bool)

theorem coeff_ofBits (i : ℕ) : (ofBits n b).coeff i = if i < n then coeffOf (b i) else 0 := by
  simp only [ofBits, finsetSum_coeff, coeff_C_mul_X_pow, Finset.sum_ite_eq, Finset.mem_range]

theorem degree_ofBits_lt : (ofBits n b).degree < n := by
  refine (degree_lt_iff_coeff_zero _ _).2 fun i hi => ?_
  rw [coeff_ofBits, if_neg (by omega)]

theorem ofBits_inj {b c : ℕ → Bool} : ofBits n b = ofBits n c ↔ ∀ i < n, b i = c i := by
  constructor
  · intro h i hi
    have hcoeff := congrArg (fun p => p.coeff i) h
    simp only [coeff_ofBits, if_pos hi] at hcoeff
    exact coeffOf_injective hcoeff
  · intro h
    refine Finset.sum_congr rfl fun i hi => ?_
    rw [h i (Finset.mem_range.1 hi)]

theorem ofBits_false : ofBits n (fun _ => false) = 0 := by simp [ofBits]

theorem ofBits_xor (c : ℕ → Bool) : ofBits n (fun i => b i ^^ c i) = ofBits n b + ofBits n c := by
  rw [ofBits, ofBits, ofBits, ← Finset.sum_add_distrib]
  refine Finset.sum_congr rfl fun i _ => ?_
  rw [coeffOf_xor, C_add, add_mul]

theorem ofBits_and (c : Bool) : ofBits n (fun i => b i && c) = C (coeffOf c) * ofBits n b := by
  cases c <;> simp [ofBits]

theorem ofBits_shift :
    ofBits (n + 1) (fun i => decide (0 < i) && b (i - 1)) + C (coeffOf (b n)) * X ^ (n + 1) =
      X * ofBits (n + 1) b := by
  rw [ofBits, Finset.sum_range_succ', ofBits, Finset.sum_range_succ, mul_add, Finset.mul_sum]
  have hterm : ∀ i, C (coeffOf (b i)) * X ^ (i + 1) = X * (C (coeffOf (b i)) * X ^ i) := by
    intro i
    ring
  simp [hterm]

/-! ## Shifting and adding -/

/-- **Shift and add.** A loop over the bits of `b` that adds a running value `v` at every set bit
and multiplies `v` by `r` collects the product of the first `v` with the number `b` in base `r`. -/
theorem foldl_shiftAdd {σ R : Type*} [CommSemiring R] (step : σ → Bool → σ) {z v : σ → R} {r : R}
    (hz : ∀ s b, z (step s b) = z s + if b then v s else 0)
    (hv : ∀ s b, v (step s b) = r * v s) (b : ℕ → Bool) (s : σ) (n : ℕ) :
    z ((List.range n).foldl (fun s i => step s (b i)) s) =
        z s + v s * ∑ i ∈ Finset.range n, (if b i then r ^ i else 0) ∧
      v ((List.range n).foldl (fun s i => step s (b i)) s) = r ^ n * v s := by
  induction n with
  | zero => simp
  | succ n ih =>
    rw [List.range_succ, List.foldl_append, List.foldl_cons, List.foldl_nil, hz, hv, ih.1, ih.2,
      Finset.sum_range_succ]
    refine ⟨?_, by ring⟩
    split
    · ring
    · ring

variable {f : (ZMod 2)[X]}

theorem mk_ofBits :
    AdjoinRoot.mk f (ofBits n b) =
      ∑ i ∈ Finset.range n, (if b i then AdjoinRoot.root f ^ i else 0) := by
  rw [ofBits, map_sum]
  refine Finset.sum_congr rfl fun i _ => ?_
  cases b i <;> simp

theorem ofBits_eq_modByMonic (hf : f.Monic) (hdeg : f.degree = n) {b : ℕ → Bool}
    {p : (ZMod 2)[X]} (h : AdjoinRoot.mk f (ofBits n b) = AdjoinRoot.mk f p) :
    ofBits n b = p %ₘ f := by
  have hself : ofBits n b %ₘ f = ofBits n b :=
    (modByMonic_eq_self_iff hf).2 (hdeg ▸ degree_ofBits_lt b)
  rw [← hself]
  exact modByMonic_eq_of_dvd_sub hf (AdjoinRoot.mk_eq_mk.1 h)

/-! ## Moduli

The modulus of a field of strings of `n` bits is `X ^ n` and lower terms, given by a string. -/

theorem monic_X_pow_add_ofBits (c : ℕ → Bool) : (X ^ n + ofBits n c).Monic :=
  monic_X_pow_add (degree_ofBits_lt c)

theorem degree_X_pow_add_ofBits (c : ℕ → Bool) :
    (X ^ n + ofBits n c : (ZMod 2)[X]).degree = (n : WithBot ℕ) := by
  rw [degree_add_eq_left_of_degree_lt (by rw [degree_X_pow]; exact degree_ofBits_lt c),
    degree_X_pow]

/-- **Doubling.** A shift by one place that adds the lower terms where a bit leaves the string
multiplies by the root. -/
theorem mk_shift {m : ℕ} (hm : n = m + 1) (b c : ℕ → Bool) :
    AdjoinRoot.mk (X ^ n + ofBits n c)
        (ofBits n fun i => (decide (0 < i) && b (i - 1)) ^^ (c i && b m)) =
      AdjoinRoot.root _ * AdjoinRoot.mk _ (ofBits n b) := by
  subst hm
  -- the two sides differ by the modulus where the last bit is set
  have hsum : X * ofBits (m + 1) b =
      (ofBits (m + 1) fun i => (decide (0 < i) && b (i - 1)) ^^ (c i && b m)) +
        C (coeffOf (b m)) * (X ^ (m + 1) + ofBits (m + 1) c) := by
    rw [ofBits_xor, ofBits_and, ← ofBits_shift b]
    have htwo : C (coeffOf (b m)) * ofBits (m + 1) c + C (coeffOf (b m)) * ofBits (m + 1) c = 0 :=
      CharTwo.add_self_eq_zero _
    linear_combination -htwo
  rw [← AdjoinRoot.mk_X, ← map_mul, hsum, map_add, map_mul, AdjoinRoot.mk_self, mul_zero,
    add_zero]

end BitPoly

end QuicVibe
