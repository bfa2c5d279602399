import QuicVibe.Common.Words
/-!
# Short Weierstrass curves

The chord and tangent law on pairs of coordinates, with `none` for the point at infinity, and the
Jacobian formulas that compute it without a division for `a = -3`. `Jac.toAffine` takes each of them
to the affine law, which on the points of a curve is Mathlib's addition.
-/

namespace QuicVibe

namespace Weierstrass

open Words

variable {K : Type*}

/-! ## The affine law -/

section Affine

variable [Field K] [DecidableEq K]

/-- The third point of the line of slope `l` through two points, reflected. -/
def chord (l x₁ y₁ x₂ : K) : K × K := (l * l - x₁ - x₂, l * (x₁ - (l * l - x₁ - x₂)) - y₁)

/-- Twice a point. -/
def double (a : K) : Option (K × K) → Option (K × K)
  | none => none
  | some (x, y) => if y = 0 then none else some (chord ((3 * (x * x) + a) / (y + y)) x y x)

/-- The sum of two points. -/
def add (a : K) : Option (K × K) → Option (K × K) → Option (K × K)
  | none, Q => Q
  | some P, none => some P
  | some (x₁, y₁), some (x₂, y₂) =>
    if x₁ = x₂ then if y₁ = y₂ then double a (some (x₁, y₁)) else none
    else some (chord ((y₂ - y₁) / (x₂ - x₁)) x₁ y₁ x₂)

@[simp] theorem double_none (a : K) : double a none = none := rfl

@[simp] theorem none_add (a : K) (Q : Option (K × K)) : add a none Q = Q := rfl

@[simp] theorem add_none (a : K) (P : Option (K × K)) : add a P none = P := by
  cases P <;> rfl

/-- One round of double-and-add. -/
def mulStep (a : K) (b : ℕ → Bool) (P acc : Option (K × K)) (i : ℕ) : Option (K × K) :=
  if b i then add a (double a acc) P else double a acc

/-- Double-and-add over `m` bits, the most significant first. -/
def mulBits (a : K) (b : ℕ → Bool) (P : Option (K × K)) (m : ℕ) : Option (K × K) :=
  forUp (mulStep a b P) none m

end Affine

/-! ## Jacobian coordinates -/

/-- Three coordinates; the point is `(X / Z ^ 2, Y / Z ^ 3)`, and infinity when `Z = 0`. -/
@[ext] structure Jac (K : Type*) where
  X : K
  Y : K
  Z : K

namespace Jac

section Formulas

variable [Add K] [Sub K] [Mul K]

/-- Eight times a number, in three doublings. -/
def eight (x : K) : K := x + x + (x + x) + (x + x + (x + x))

/-- Twice a point, for `a = -3`. -/
def double (P : Jac K) : Jac K :=
  let δ := P.Z * P.Z
  let γ := P.Y * P.Y
  let β := P.X * γ
  let α := (P.X - δ) * (P.X + δ) + ((P.X - δ) * (P.X + δ) + (P.X - δ) * (P.X + δ))
  let X := α * α - eight β
  { X := X
    Y := α * (β + β + (β + β) - X) - eight (γ * γ)
    Z := (P.Y + P.Z) * (P.Y + P.Z) - γ - δ }

/-- The first coordinates of two points over a common denominator. -/
def u (P Q : Jac K) : K := P.X * (Q.Z * Q.Z)

/-- The second coordinates of two points over a common denominator. -/
def s (P Q : Jac K) : K := P.Y * Q.Z * (Q.Z * Q.Z)

/-- The sum of two points with different first coordinates. -/
def addDistinct (P Q : Jac K) : Jac K :=
  let h := u Q P - u P Q
  let rr := s Q P - s P Q + (s Q P - s P Q)
  let i := (h + h) * (h + h)
  let j := h * i
  let v := u P Q * i
  let X := rr * rr - j - (v + v)
  { X := X
    Y := rr * (v - X) - (s P Q * j + s P Q * j)
    Z := ((P.Z + Q.Z) * (P.Z + Q.Z) - P.Z * P.Z - Q.Z * Q.Z) * h }

variable [Zero K] [DecidableEq K]

/-- The sum of two points; the second may be infinity only if the first is. -/
def add (P Q : Jac K) : Jac K :=
  if P.Z = 0 then Q
  else if u P Q = u Q P then if s P Q = s Q P then P.double else { P with Z := 0 }
  else addDistinct P Q

/-- One round of double-and-add. -/
def mulStep (b : ℕ → Bool) (P acc : Jac K) (i : ℕ) : Jac K :=
  if b i then acc.double.add P else acc.double

end Formulas

section Map

variable {L : Type*} [Add K] [Sub K] [Mul K] [Zero K] [DecidableEq K]
  [Add L] [Sub L] [Mul L] [Zero L] [DecidableEq L] (f : K → L)

/-- A point over another field. -/
def map (P : Jac K) : Jac L := ⟨f P.X, f P.Y, f P.Z⟩

variable (hadd : ∀ x y, f (x + y) = f x + f y) (hsub : ∀ x y, f (x - y) = f x - f y)
  (hmul : ∀ x y, f (x * y) = f x * f y) (hzero : f 0 = 0) (hf : Function.Injective f)

include hadd hsub hmul hzero hf

theorem map_mulStep (b : ℕ → Bool) (P acc : Jac K) (i : ℕ) :
    (mulStep b P acc i).map f = mulStep b (P.map f) (acc.map f) i := by
  have hdouble : ∀ Q : Jac K, Q.double.map f = (Q.map f).double := by
    intro Q
    simp only [map, double, eight, hadd, hsub, hmul]
  have hu : ∀ Q R : Jac K, u (Q.map f) (R.map f) = f (u Q R) := by
    intro Q R
    simp only [map, u, hmul]
  have hs : ∀ Q R : Jac K, s (Q.map f) (R.map f) = f (s Q R) := by
    intro Q R
    simp only [map, s, hmul]
  have hsum : ∀ Q R : Jac K, (Q.add R).map f = (Q.map f).add (R.map f) := by
    intro Q R
    have hZ : (Q.map f).Z = 0 ↔ Q.Z = 0 := by
      rw [← hzero]
      exact hf.eq_iff
    simp only [add, hZ, hu, hs, hf.eq_iff, ← hdouble]
    split_ifs
    · rfl
    · rfl
    · simp only [map, hzero]
    · simp only [addDistinct, u, s, map, hadd, hsub, hmul]
  rw [mulStep, mulStep, ← hdouble, ← hsum]
  split <;> rfl

end Map

theorem double_Z [Field K] (P : Jac K) : P.double.Z = 2 * P.Y * P.Z := by
  simp only [double]
  ring

section Field

variable [Field K] [DecidableEq K] {P Q : Jac K}

/-- The affine point. -/
def toAffine (P : Jac K) : Option (K × K) :=
  if P.Z = 0 then none else some (P.X / P.Z ^ 2, P.Y / P.Z ^ 3)

theorem toAffine_of_zero (h : P.Z = 0) : P.toAffine = none := if_pos h

theorem toAffine_of_ne (h : P.Z ≠ 0) : P.toAffine = some (P.X / P.Z ^ 2, P.Y / P.Z ^ 3) := if_neg h

theorem toAffine_one (x y : K) : (⟨x, y, 1⟩ : Jac K).toAffine = some (x, y) := by
  rw [toAffine_of_ne one_ne_zero]
  simp

variable (h2 : (2 : K) ≠ 0)

include h2

/-- **Doubling** is the tangent law. -/
theorem toAffine_double (P : Jac K) : P.double.toAffine = Weierstrass.double (-3) P.toAffine := by
  by_cases hZ : P.Z = 0
  · rw [toAffine_of_zero hZ, double_none, toAffine_of_zero (by rw [double_Z, hZ, mul_zero])]
  by_cases hY : P.Y = 0
  · rw [toAffine_of_ne hZ, toAffine_of_zero (by rw [double_Z, hY, mul_zero, zero_mul])]
    simp [Weierstrass.double, hY]
  have hZ3 : P.double.Z ≠ 0 := by
    rw [double_Z]
    exact mul_ne_zero (mul_ne_zero h2 hY) hZ
  have hy : P.Y / P.Z ^ 3 ≠ 0 := div_ne_zero hY (pow_ne_zero 3 hZ)
  rw [toAffine_of_ne hZ3, toAffine_of_ne hZ, Weierstrass.double, if_neg hy, double_Z]
  simp only [double, chord, eight, Option.some.injEq, Prod.mk.injEq, ← two_mul]
  constructor <;> (field_simp; ring)

/-- **Addition** is the affine law. Two points over a common denominator have equal coordinates
exactly when the affine ones are equal. -/
theorem toAffine_add (hinf : Q.Z = 0 → P.Z = 0) :
    (P.add Q).toAffine = Weierstrass.add (-3) P.toAffine Q.toAffine := by
  by_cases hP : P.Z = 0
  · rw [add, if_pos hP, toAffine_of_zero hP, none_add]
  have hQ : Q.Z ≠ 0 := fun h => hP (hinf h)
  have hx : P.X / P.Z ^ 2 = Q.X / Q.Z ^ 2 ↔ u P Q = u Q P := by
    rw [u, u, div_eq_div_iff (pow_ne_zero 2 hP) (pow_ne_zero 2 hQ), pow_two, pow_two]
  have hy : P.Y / P.Z ^ 3 = Q.Y / Q.Z ^ 3 ↔ s P Q = s Q P := by
    rw [s, s, div_eq_div_iff (pow_ne_zero 3 hP) (pow_ne_zero 3 hQ)]
    constructor <;> intro h <;> linear_combination h
  rw [add, if_neg hP, toAffine_of_ne hQ]
  conv_rhs => rw [toAffine_of_ne hP]
  rw [Weierstrass.add]
  simp only [hx, hy]
  by_cases hu : u P Q = u Q P
  · rw [if_pos hu, if_pos hu]
    by_cases hs : s P Q = s Q P
    · rw [if_pos hs, if_pos hs, toAffine_double h2, toAffine_of_ne hP]
    · rw [if_neg hs, if_neg hs]
      exact toAffine_of_zero rfl
  rw [if_neg hu, if_neg hu]
  have hh : Q.X * P.Z ^ 2 - P.X * Q.Z ^ 2 ≠ 0 := by
    intro h
    apply hu
    simp only [u]
    linear_combination -h
  have hZ : (addDistinct P Q).Z = 2 * P.Z * Q.Z * (Q.X * P.Z ^ 2 - P.X * Q.Z ^ 2) := by
    simp only [addDistinct, u]
    ring
  have hZ3 : (addDistinct P Q).Z ≠ 0 := by
    rw [hZ]
    exact mul_ne_zero (mul_ne_zero (mul_ne_zero h2 hP) hQ) hh
  have hdiff : Q.X / Q.Z ^ 2 - P.X / P.Z ^ 2 =
      (Q.X * P.Z ^ 2 - P.X * Q.Z ^ 2) / (P.Z ^ 2 * Q.Z ^ 2) := by
    field_simp
  rw [toAffine_of_ne hZ3, hZ, hdiff]
  simp only [addDistinct, chord, u, s, Option.some.injEq, Prod.mk.injEq]
  generalize hd : Q.X * P.Z ^ 2 - P.X * Q.Z ^ 2 = d at hh
  have hd' : Q.X * (P.Z * P.Z) - P.X * (Q.Z * Q.Z) = d := by
    rw [← hd]
    ring
  rw [hd']
  constructor
  · field_simp
    rw [← hd]
    ring
  · field_simp
    rw [← hd]
    ring

/-- **The loop** is the loop of the affine law. The start is infinity, so that adding infinity never
meets a finite point. -/
theorem toAffine_mulStep (b : ℕ → Bool) (P start : Jac K) (hstart : start.Z = 0) (m : ℕ) :
    (forUp (mulStep b P) start m).toAffine = mulBits (-3) b P.toAffine m := by
  have hinv : (P.Z = 0 → (forUp (mulStep b P) start m).Z = 0) ∧
      (forUp (mulStep b P) start m).toAffine = mulBits (-3) b P.toAffine m := by
    induction m with
    | zero => exact ⟨fun _ => hstart, toAffine_of_zero hstart⟩
    | succ m ih =>
      obtain ⟨hinf, hval⟩ := ih
      rw [mulBits, forUp_succ, forUp_succ, ← mulBits, ← hval, mulStep, Weierstrass.mulStep]
      generalize forUp (mulStep b P) start m = acc at hinf
      have hdouble : P.Z = 0 → acc.double.Z = 0 := fun h => by rw [double_Z, hinf h, mul_zero]
      cases b m with
      | false => exact ⟨hdouble, toAffine_double h2 acc⟩
      | true =>
        refine ⟨fun h => ?_, ?_⟩
        · rw [if_pos rfl, add, if_pos (hdouble h), h]
        · rw [if_pos rfl, if_pos rfl, toAffine_add h2 hdouble, toAffine_double h2]
  exact hinv.2

end Field

end Jac

/-! ## Scalars -/

/-- The number `m` bits spell, the most significant first. -/
def ofBits (b : ℕ → Bool) (m : ℕ) : ℕ := forUp (fun k i => 2 * k + (b i).toNat) 0 m

@[simp] theorem ofBits_zero (b : ℕ → Bool) : ofBits b 0 = 0 := rfl

theorem ofBits_succ (b : ℕ → Bool) (m : ℕ) : ofBits b (m + 1) = 2 * ofBits b m + (b m).toNat := rfl

theorem ofBits_eq {b : ℕ → Bool} {m k : ℕ} (hk : k < 2 ^ m)
    (hb : ∀ i < m, b i = k.testBit (m - 1 - i)) : ofBits b m = k := by
  have hinv : ofBits b m = k / 2 ^ (m - m) := by
    refine forUp_induct (fun j v => v = k / 2 ^ (m - j)) ?_ ?_
    · rw [Nat.sub_zero, Nat.div_eq_of_lt hk]
    · intro j hj v hv
      have hsplit : 2 ^ (m - j) = 2 ^ (m - 1 - j) * 2 := by
        rw [← pow_succ]
        congr 1
        omega
      rw [hv, hb j hj, Nat.toNat_testBit, hsplit, ← Nat.div_div_eq_div_mul,
        show m - (j + 1) = m - 1 - j by omega]
      omega
  rw [hinv, Nat.sub_self, pow_zero, Nat.div_one]

/-! ## The group -/

section Group

variable [Field K] {W : WeierstrassCurve.Affine K}

open WeierstrassCurve WeierstrassCurve.Affine

/-- The coordinates of a point of a curve. -/
def coords : W.Point → Option (K × K)
  | .zero => none
  | .some x y _ => some (x, y)

@[simp] theorem coords_zero : coords (0 : W.Point) = none := rfl

@[simp] theorem coords_some {x y : K} (h : W.Nonsingular x y) :
    coords (Point.some x y h) = some (x, y) := rfl

theorem coords_injective : Function.Injective (coords : W.Point → Option (K × K)) := by
  intro P Q h
  cases P <;> cases Q <;> simp_all [coords]

variable [DecidableEq K] [W.IsShortNF] (h2 : (2 : K) ≠ 0)

include h2

theorem coords_double (P : W.Point) : coords (P + P) = double W.a₄ (coords P) := by
  cases P with
  | zero => rfl
  | some x y h =>
    by_cases hy : y = 0
    · rw [Point.add_self_of_Y_eq (by simp [negY, hy])]
      simp [double, hy]
    · have hne : y ≠ W.negY x y := by
        intro h
        simp only [negY, a₁_of_isShortNF, a₃_of_isShortNF, zero_mul, sub_zero] at h
        exact mul_ne_zero h2 hy (by linear_combination h)
      rw [Point.add_self_of_Y_ne hne, coords_some, coords_some, double, if_neg hy,
        slope_of_Y_ne rfl hne]
      simp only [addX, addY, negAddY, negY, chord, a₁_of_isShortNF, a₂_of_isShortNF,
        a₃_of_isShortNF, Option.some.injEq, Prod.mk.injEq]
      constructor <;> ring

/-- **The affine law is the addition of the group.** -/
theorem coords_add (P Q : W.Point) : coords (P + Q) = add W.a₄ (coords P) (coords Q) := by
  cases P with
  | zero => exact congrArg coords (zero_add Q)
  | some x₁ y₁ h₁ =>
    cases Q with
    | zero => exact congrArg coords (add_zero _)
    | some x₂ y₂ h₂ =>
      rw [coords_some, coords_some, add]
      by_cases hx : x₁ = x₂
      · subst hx
        rw [if_pos rfl]
        by_cases hy : y₁ = y₂
        · subst hy
          rw [if_pos rfl, coords_double h2, coords_some]
        · -- on the curve, two points over one first coordinate are equal or opposite
          rw [if_neg hy, Point.add_of_Y_eq rfl ((Y_eq_of_X_eq h₁.1 h₂.1 rfl).resolve_left hy),
            coords_zero]
      · rw [if_neg hx, Point.add_of_X_ne hx, coords_some, slope_of_X_ne hx]
        have hd : x₁ - x₂ ≠ 0 := sub_ne_zero.2 hx
        have hl : (y₁ - y₂) / (x₁ - x₂) = (y₂ - y₁) / (x₂ - x₁) := by
          rw [← neg_sub y₂, ← neg_sub x₂, neg_div_neg_eq]
        simp only [hl, addX, addY, negAddY, negY, chord, a₁_of_isShortNF, a₂_of_isShortNF,
          a₃_of_isShortNF, Option.some.injEq, Prod.mk.injEq]
        constructor <;> ring

/-- **Double-and-add** over the bits of `k` is `k • P`. -/
theorem mulBits_coords (b : ℕ → Bool) (P : W.Point) (m : ℕ) :
    mulBits W.a₄ b (coords P) m = coords (ofBits b m • P) := by
  induction m with
  | zero => rw [ofBits_zero, zero_nsmul, coords_zero, mulBits, forUp_zero]
  | succ m ih =>
    rw [mulBits, forUp_succ, ← mulBits, ih, ofBits_succ, mulStep]
    cases b m with
    | false =>
      rw [if_neg (by decide), ← coords_double h2, ← two_nsmul, smul_smul, Bool.toNat_false,
        Nat.add_zero]
    | true =>
      rw [if_pos rfl, ← coords_double h2, ← coords_add h2, ← two_nsmul, smul_smul, ← succ_nsmul,
        Bool.toNat_true]

/-! ## The order -/

omit [DecidableEq K] [W.IsShortNF] h2 in
theorem card_point_le [Finite K] : Finite W.Point ∧ Nat.card W.Point ≤ 2 * Nat.card K + 1 := by
  classical
  -- one of the two is chosen, and a point is recorded by its first coordinate and the choice
  let root (x : K) : K := Classical.epsilon (W.Equation x)
  let code : W.Point → Option (K × Bool) := fun P =>
    (coords P).map fun xy => (xy.1, decide (xy.2 = root xy.1))
  have hcode : Function.Injective code := by
    intro P Q h
    cases P with
    | zero => cases Q <;> simp_all [code, coords]
    | some x₁ y₁ h₁ =>
      cases Q with
      | zero => simp_all [code, coords]
      | some x₂ y₂ h₂ =>
        simp only [code, coords_some, Option.map_some, Option.some.injEq, Prod.mk.injEq,
          decide_eq_decide] at h
        obtain ⟨rfl, hy⟩ := h
        have hroot : W.Equation x₁ (root x₁) := Classical.epsilon_spec ⟨y₁, h₁.1⟩
        have hopp₁ := Y_eq_of_X_eq h₁.1 hroot rfl
        have hopp₂ := Y_eq_of_X_eq h₂.1 hroot rfl
        have heq : y₁ = y₂ := by
          by_cases hr : y₁ = root x₁
          · rw [hr, hy.1 hr]
          · rw [hopp₁.resolve_left hr, hopp₂.resolve_left fun h => hr (hy.2 h)]
        simp only [heq]
  refine ⟨Finite.of_injective code hcode, ?_⟩
  have hle := Nat.card_le_card_of_injective code hcode
  rwa [Finite.card_option, Nat.card_prod, @Nat.card_eq_fintype_card Bool _, Fintype.card_bool,
    Nat.mul_comm] at hle

/-- **The order of the group** from one point of prime order `n`. There is room for `n` or `2 * n`
points, and the second needs a point of order two, which is a root of the cubic. -/
theorem nsmul_eq_zero_of_order [Finite K] {n : ℕ} (hn : n.Prime) (hbig : 2 * Nat.card K + 1 < 3 * n)
    (hroot : ∀ x : K, x ^ 3 + W.a₄ * x + W.a₆ ≠ 0) {G : W.Point} (hG : G ≠ 0) (hnG : n • G = 0)
    (Q : W.Point) : n • Q = 0 := by
  obtain ⟨hfin, hle⟩ := card_point_le (W := W)
  have htwo : ∀ P : W.Point, P + P = 0 → P = 0 := by
    intro P hP
    cases P with
    | zero => rfl
    | some x y h =>
      have hdouble := coords_double h2 (Point.some x y h)
      rw [hP, coords_zero, coords_some, double] at hdouble
      split at hdouble
      · rename_i hy
        have heq := (equation_iff _ _).1 h.1
        simp only [hy, a₁_of_isShortNF, a₂_of_isShortNF, a₃_of_isShortNF] at heq
        exact absurd (by linear_combination -heq) (hroot x)
      · cases hdouble
  have hord : addOrderOf G = n := by
    have : Fact n.Prime := ⟨hn⟩
    exact addOrderOf_eq_prime hnG hG
  obtain ⟨k, hk⟩ := hord ▸ addOrderOf_dvd_natCard G
  have hpos : 0 < Nat.card W.Point := Nat.card_pos
  have hk3 : k < 3 := by
    by_contra hge
    have : n * 3 ≤ n * k := Nat.mul_le_mul_left n (by omega)
    omega
  have hk2 : k ≠ 2 := by
    intro hk2
    have : Fact (Nat.Prime 2) := ⟨Nat.prime_two⟩
    have hdvd : 2 ∣ Nat.card W.Point := ⟨n, by rw [hk, hk2, mul_comm]⟩
    obtain ⟨P, hP⟩ := exists_prime_addOrderOf_dvd_card' 2 hdvd
    have hPP : P + P = 0 := by rw [← two_nsmul, ← hP, addOrderOf_nsmul_eq_zero]
    rw [htwo P hPP, addOrderOf_zero] at hP
    omega
  have hk0 : k ≠ 0 := by
    rintro rfl
    omega
  obtain rfl : k = 1 := by omega
  rw [← Nat.mul_one n, ← hk, card_nsmul_eq_zero']

end Group

end Weierstrass

end QuicVibe
