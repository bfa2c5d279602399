import Mathlib
/-!
# Twisted Edwards curves

The curve `-x² + y² = 1 + d x² y²` over a field in which -1 is a square and `d` is not, where the
addition law is complete. `Ext` are extended coordinates, with the formulas of Hisil, Wong, Carter
and Dawson.
-/

namespace QuicVibe

namespace Edwards

variable {K : Type*} [Field K] {d : K} {P Q : K × K}

/-! ## The law -/

/-- The curve. -/
def OnCurve (d : K) (P : K × K) : Prop := -P.1 ^ 2 + P.2 ^ 2 = 1 + d * P.1 ^ 2 * P.2 ^ 2

/-- What is added to one and taken from one in the denominators. -/
def cross (d : K) (P Q : K × K) : K := d * P.1 * Q.1 * P.2 * Q.2

/-- The sum of two points. -/
def add (d : K) (P Q : K × K) : K × K :=
  ((P.1 * Q.2 + Q.1 * P.2) / (1 + cross d P Q), (P.2 * Q.2 + P.1 * Q.1) / (1 - cross d P Q))

/-- The loop of double-and-add, from the bit below the given one down to bit zero. -/
def mulLoop (d : K) (k : ℕ) (P : K × K) : ℕ → K × K → K × K
  | 0, Q => Q
  | i + 1, Q => mulLoop d k P i (if k.testBit i then add d (add d Q Q) P else add d Q Q)

/-- `k` times a point by double-and-add over so many bits, from the neutral element. -/
def mul (d : K) (bits k : ℕ) (P : K × K) : K × K := mulLoop d k P bits (0, 1)

theorem onCurve_neutral (d : K) : OnCurve d (0, 1) := by simp [OnCurve]

/-! ## Completeness -/

/-- What makes the law complete. -/
structure Complete (d : K) : Prop where
  two_ne : (2 : K) ≠ 0
  sqrt_neg_one : ∃ i : K, i ^ 2 = -1
  nonsquare : ∀ s : K, s ^ 2 ≠ d

theorem square_eq {i : K} (hi : i ^ 2 = -1) (hP : OnCurve d P) (hQ : OnCurve d Q)
    (hone : cross d P Q ^ 2 = 1) :
    (i * P.1 + cross d P Q * P.2) ^ 2 = d * (P.1 * P.2) ^ 2 * (i * Q.1 + Q.2) ^ 2 := by
  unfold OnCurve at hP hQ
  unfold cross at *
  linear_combination (P.1 ^ 2 - d * P.1 ^ 2 * P.2 ^ 2 * Q.1 ^ 2) * hi + (P.2 ^ 2 - 1) * hone +
    hP - d * P.1 ^ 2 * P.2 ^ 2 * hQ

theorem cross_sq_ne_one (hd : Complete d) (hP : OnCurve d P) (hQ : OnCurve d Q) :
    cross d P Q ^ 2 ≠ 1 := by
  intro hone
  have hne : cross d P Q ≠ 0 := by
    intro hzero
    rw [hzero] at hone
    simp at hone
  have hP0 : P.1 * P.2 ≠ 0 := by
    intro hzero
    apply hne
    unfold cross
    linear_combination d * Q.1 * Q.2 * hzero
  -- a square root of `d`, unless the second factor of the right side is zero
  have hfactor : ∀ i : K, i ^ 2 = -1 → i * Q.1 + Q.2 = 0 := by
    intro i hi
    by_contra hQ0
    apply hd.nonsquare ((i * P.1 + cross d P Q * P.2) / (P.1 * P.2 * (i * Q.1 + Q.2)))
    rw [div_pow, square_eq hi hP hQ hone, mul_pow (P.1 * P.2) _ 2, mul_assoc]
    exact mul_div_cancel_right₀ _ (mul_ne_zero (pow_ne_zero 2 hP0) (pow_ne_zero 2 hQ0))
  obtain ⟨i, hi⟩ := hd.sqrt_neg_one
  have hplus := hfactor i hi
  have hminus := hfactor (-i) (by rw [neg_sq, hi])
  have hQ2 : Q.2 = 0 := by
    have hdouble : 2 * Q.2 = 0 := by linear_combination hplus + hminus
    exact (mul_eq_zero.1 hdouble).resolve_left hd.two_ne
  apply hne
  rw [cross, hQ2, mul_zero]

theorem one_add_cross_ne (hd : Complete d) (hP : OnCurve d P) (hQ : OnCurve d Q) :
    1 + cross d P Q ≠ 0 := by
  intro hzero
  apply cross_sq_ne_one hd hP hQ
  linear_combination (cross d P Q - 1) * hzero

theorem one_sub_cross_ne (hd : Complete d) (hP : OnCurve d P) (hQ : OnCurve d Q) :
    1 - cross d P Q ≠ 0 := by
  intro hzero
  apply cross_sq_ne_one hd hP hQ
  linear_combination -(cross d P Q + 1) * hzero

/-- **The sum is on the curve.** -/
theorem OnCurve.add (hd : Complete d) (hP : OnCurve d P) (hQ : OnCurve d Q) :
    OnCurve d (add d P Q) := by
  have hplus := one_add_cross_ne hd hP hQ
  have hminus := one_sub_cross_ne hd hP hQ
  have hnum : -(P.1 * Q.2 + Q.1 * P.2) ^ 2 * (1 - cross d P Q) ^ 2 +
      (P.2 * Q.2 + P.1 * Q.1) ^ 2 * (1 + cross d P Q) ^ 2 =
      (1 + cross d P Q) ^ 2 * (1 - cross d P Q) ^ 2 +
        d * (P.1 * Q.2 + Q.1 * P.2) ^ 2 * (P.2 * Q.2 + P.1 * Q.1) ^ 2 := by
    unfold OnCurve at hP hQ
    unfold cross
    linear_combination
      ((Q.2 ^ 2 - Q.1 ^ 2) * (1 + d * P.1 ^ 2 * P.2 ^ 2 * (d * Q.1 ^ 2 * Q.2 ^ 2)) -
        d * Q.1 ^ 2 * Q.2 ^ 2 * (P.2 ^ 2 - P.1 ^ 2 + 1 + d * P.1 ^ 2 * P.2 ^ 2)) * hP +
      ((1 + d * P.1 ^ 2 * P.2 ^ 2) * (1 + d * P.1 ^ 2 * P.2 ^ 2 * (d * Q.1 ^ 2 * Q.2 ^ 2)) -
        d * P.1 ^ 2 * P.2 ^ 2 * (Q.2 ^ 2 - Q.1 ^ 2 + 1 + d * Q.1 ^ 2 * Q.2 ^ 2)) * hQ
  unfold OnCurve Edwards.add
  field_simp
  linear_combination hnum

/-! ## Extended coordinates -/

/-- Extended coordinates. -/
structure Ext (K : Type*) where
  X : K
  Y : K
  Z : K
  T : K

/-- The coordinates are those of a point. -/
structure Ext.Rep (p : Ext K) (P : K × K) : Prop where
  Z_ne : p.Z ≠ 0
  X : p.X = P.1 * p.Z
  Y : p.Y = P.2 * p.Z
  T : p.T = P.1 * P.2 * p.Z

/-- The addition of extended coordinates. -/
def Ext.add (d : K) (p q : Ext K) : Ext K :=
  let a := (p.Y - p.X) * (q.Y - q.X)
  let b := (p.Y + p.X) * (q.Y + q.X)
  let c := p.T * q.T * (d + d)
  let D := p.Z * q.Z + p.Z * q.Z
  { X := (b - a) * (D - c), Y := (D + c) * (b + a), Z := (D - c) * (D + c), T := (b - a) * (b + a) }

/-- **The formulas follow the law.** -/
theorem Ext.Rep.add (hd : Complete d) (hP : OnCurve d P) (hQ : OnCurve d Q) {p q : Ext K}
    (hp : p.Rep P) (hq : q.Rep Q) : (Ext.add d p q).Rep (Edwards.add d P Q) := by
  have hplus := one_add_cross_ne hd hP hQ
  have hminus := one_sub_cross_ne hd hP hQ
  have hZ : 2 * p.Z * q.Z ≠ 0 := mul_ne_zero (mul_ne_zero hd.two_ne hp.Z_ne) hq.Z_ne
  -- the four intermediate values are the numerators and denominators, scaled
  have he : (p.Y + p.X) * (q.Y + q.X) - (p.Y - p.X) * (q.Y - q.X) =
      2 * p.Z * q.Z * (P.1 * Q.2 + Q.1 * P.2) := by
    rw [hp.X, hp.Y, hq.X, hq.Y]
    ring
  have hh : (p.Y + p.X) * (q.Y + q.X) + (p.Y - p.X) * (q.Y - q.X) =
      2 * p.Z * q.Z * (P.2 * Q.2 + P.1 * Q.1) := by
    rw [hp.X, hp.Y, hq.X, hq.Y]
    ring
  have hf : p.Z * q.Z + p.Z * q.Z - p.T * q.T * (d + d) = 2 * p.Z * q.Z * (1 - cross d P Q) := by
    rw [hp.T, hq.T, cross]
    ring
  have hg : p.Z * q.Z + p.Z * q.Z + p.T * q.T * (d + d) = 2 * p.Z * q.Z * (1 + cross d P Q) := by
    rw [hp.T, hq.T, cross]
    ring
  have hx : (Edwards.add d P Q).1 * (1 + cross d P Q) = P.1 * Q.2 + Q.1 * P.2 :=
    div_mul_cancel₀ _ hplus
  have hy : (Edwards.add d P Q).2 * (1 - cross d P Q) = P.2 * Q.2 + P.1 * Q.1 :=
    div_mul_cancel₀ _ hminus
  simp only [Ext.add, he, hh, hf, hg, ← hx, ← hy]
  refine ⟨mul_ne_zero (mul_ne_zero hZ hminus) (mul_ne_zero hZ hplus), ?_, ?_, ?_⟩ <;> ring

end Edwards

end QuicVibe
