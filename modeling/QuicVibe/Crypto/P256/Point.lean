import QuicVibe.Common.Weierstrass
import QuicVibe.Crypto.P256.Solinas
/-!
# Points of P-256

The functions of `p256_point.c`. `quic_ec_add` and `quic_ec_double` are the affine law on reduced
coordinates; `quic_ec_mul` works in Jacobian coordinates, with the fast reduction. A word array
stands for a coordinate without being reduced to it (`Rep`).
-/

namespace QuicVibe

namespace Crypto

namespace P256

open Words Weierstrass

/-! ## Affine coordinates -/

structure EcPoint where
  x : Fe
  y : Fe
  inf : Bool
deriving DecidableEq

def p256B : Fe :=
  #v[0x3bce3c3e27d2604b, 0x651d06b0cc53b0f6, 0xb3ebbd55769886bc, 0x5ac635d8aa3a93e7]

def p256G : EcPoint where
  x := #v[0xf4a13945d898c296, 0x77037d812deb33a0, 0xf8bce6e563a440f2, 0x6b17d1f2e12c4247]
  y := #v[0xcbb6406837bf51f5, 0x2bce33576b315ece, 0x8ee7eb4a7c0f9e16, 0x4fe342e2fe1a7f9b]
  inf := false

/-- The number 3. -/
def feThree : Fe := #v[3, 0, 0, 0]

/-- The number 0. -/
def feZero : Fe := #v[0, 0, 0, 0]

/-- `rhs_lhs`: the two sides of the curve equation, the left one first. -/
def rhsLhs (P : EcPoint) : Fe × Fe :=
  let lhs := fpSqr P.y p256P
  let x2 := fpSqr P.x p256P
  let rhs := fpMul x2 P.x p256P
  let threeX := fpMul feThree P.x p256P
  let rhs := fpSub rhs threeX p256P
  (lhs, fpAdd rhs p256B p256P)

def ecOnCurve (P : EcPoint) : Bool :=
  if P.inf then true
  else
    let sides := rhsLhs P
    fpEq sides.1 sides.2

def slopeAdd (P Q : EcPoint) : Fe :=
  let num := fpSub Q.y P.y p256P
  let den := fpSub Q.x P.x p256P
  fpMul num (fpInv den p256P) p256P

def slopeDouble (P : EcPoint) : Fe :=
  let x2 := fpSqr P.x p256P
  let num := fpMul feThree x2 p256P
  let num := fpSub num feThree p256P
  let den := fpAdd P.y P.y p256P
  fpMul num (fpInv den p256P) p256P

def fromSlope (lam x1 y1 x2 : Fe) : EcPoint :=
  let x3 := fpSqr lam p256P
  let x3 := fpSub x3 x1 p256P
  let x3 := fpSub x3 x2 p256P
  let t := fpSub x1 x3 p256P
  let t := fpMul lam t p256P
  { x := x3, y := fpSub t y1 p256P, inf := false }

/-- `quic_ec_double`: infinity only sets the flag of the result `r`. -/
def ecDouble (r P : EcPoint) : EcPoint :=
  if P.inf || fpIsZero P.y then { r with inf := true }
  else fromSlope (slopeDouble P) P.x P.y P.x

def addDistinct (P Q : EcPoint) : EcPoint := fromSlope (slopeAdd P Q) P.x P.y Q.x

def isInversePair (P Q : EcPoint) : Bool := fpEq P.x Q.x && !fpEq P.y Q.y

def addSameX (r P Q : EcPoint) : EcPoint :=
  if isInversePair P Q then { r with inf := true } else ecDouble r P

/-- `add_infinity`: the sum if one of the points is infinity. -/
def addInfinity (P Q : EcPoint) : Option EcPoint :=
  if P.inf then some Q else if Q.inf then some P else none

def ecAdd (r P Q : EcPoint) : EcPoint :=
  match addInfinity P Q with
  | some R => R
  | none => if fpEq P.x Q.x then addSameX r P Q else addDistinct P Q

/-! ## Jacobian coordinates -/

def fpDbl (a : Fe) : Fe := fpAddP a a

def jacFromAffine (P : EcPoint) : Jac Fe := ⟨P.x, P.y, if P.inf then feZero else feOne⟩

def jacIsInf (j : Jac Fe) : Bool := fpIsZero j.Z

def dblX (alpha beta : Fe) : Fe :=
  let x3 := fpSqrP alpha
  let t := fpDbl beta
  let t := fpDbl t
  let t := fpDbl t
  fpSubP x3 t

def dblY (alpha beta x3 gamma : Fe) : Fe :=
  let t := fpDbl beta
  let t := fpDbl t
  let t := fpSubP t x3
  let t := fpMulP alpha t
  let g2 := fpSqrP gamma
  let g2 := fpDbl g2
  let g2 := fpDbl g2
  let g2 := fpDbl g2
  fpSubP t g2

def jacDouble (P : Jac Fe) : Jac Fe :=
  let delta := fpSqrP P.Z
  let gamma := fpSqrP P.Y
  let beta := fpMulP P.X gamma
  let t := fpSubP P.X delta
  let s := fpAddP P.X delta
  let alpha := fpMulP t s
  let t := fpDbl alpha
  let alpha := fpAddP alpha t
  let x3 := dblX alpha beta
  let t := fpAddP P.Y P.Z
  let t := fpSqrP t
  let t := fpSubP t gamma
  let z3 := fpSubP t delta
  { X := x3, Y := dblY alpha beta x3 gamma, Z := z3 }

/-- The cross terms of two points. -/
structure Cross where
  u1 : Fe
  u2 : Fe
  s1 : Fe
  s2 : Fe

def addUv (P Q : Jac Fe) : Cross :=
  let z1z1 := fpSqrP P.Z
  let z2z2 := fpSqrP Q.Z
  { u1 := fpMulP P.X z2z2
    u2 := fpMulP Q.X z1z1
    s1 := fpMulP (fpMulP P.Y Q.Z) z2z2
    s2 := fpMulP (fpMulP Q.Y P.Z) z1z1 }

def addFinish (P Q : Jac Fe) (u1 s1 h rr : Fe) : Jac Fe :=
  let t := fpDbl h
  let i := fpSqrP t
  let j := fpMulP h i
  let v := fpMulP u1 i
  let x := fpSqrP rr
  let x := fpSubP x j
  let t := fpDbl v
  let x := fpSubP x t
  let t := fpSubP v x
  let t := fpMulP rr t
  let v := fpMulP s1 j
  let v := fpDbl v
  let y := fpSubP t v
  let t := fpAddP P.Z Q.Z
  let t := fpSqrP t
  let v := fpSqrP P.Z
  let t := fpSubP t v
  let v := fpSqrP Q.Z
  let t := fpSubP t v
  { X := x, Y := y, Z := fpMulP t h }

def jacAdd (P Q : Jac Fe) : Jac Fe :=
  let c := addUv P Q
  let h := fpSubP c.u2 c.u1
  let rr := fpSubP c.s2 c.s1
  let rr := fpDbl rr
  addFinish P Q c.u1 c.s1 h rr

def addSameXJac (acc : Jac Fe) (s1 s2 : Fe) : Jac Fe :=
  if fpEq s1 s2 then jacDouble acc else { acc with Z := feZero }

def jacAddStep (acc base : Jac Fe) : Jac Fe :=
  if jacIsInf acc then base
  else
    let c := addUv acc base
    if fpEq c.u1 c.u2 then addSameXJac acc c.s1 c.s2 else jacAdd acc base

/-- Bit `bit` of a scalar, from the most significant one. -/
def scalarBit (k : Vector UInt8 32) (bit : ℕ) : Bool :=
  (dig UInt8.toNat k (bit / 8) >>> (7 - (bit &&& 7))) &&& 1 ≠ 0

def ecMulStep (k : Vector UInt8 32) (base acc : Jac Fe) (bit : ℕ) : Jac Fe :=
  let acc := jacDouble acc
  if scalarBit k bit then jacAddStep acc base else acc

/-- `jac_to_affine`: infinity only sets the flag of the result `r`. -/
def jacToAffine (r : EcPoint) (j : Jac Fe) : EcPoint :=
  if jacIsInf j then { r with inf := true }
  else
    let zi := fpInvP j.Z
    let zi2 := fpSqrP zi
    let zi3 := fpMulP zi2 zi
    { x := fpMulP j.X zi2, y := fpMulP j.Y zi3, inf := false }

def ecMul (r : EcPoint) (k : Vector UInt8 32) (P : EcPoint) : EcPoint :=
  jacToAffine r (forUp (ecMulStep k (jacFromAffine P)) ⟨feZero, feZero, feZero⟩ 256)

/-! ## What the words stand for -/

/-- The point of the plane. -/
def EcPoint.point (P : EcPoint) : Option (F × F) :=
  if P.inf then none else some ((val P.x : F), (val P.y : F))

/-- The coordinates are least residues. -/
def EcPoint.Reduced (P : EcPoint) : Prop := P.inf = false → val P.x < p ∧ val P.y < p

theorem EcPoint.point_of_inf {P : EcPoint} (h : P.inf = true) : P.point = none := if_pos h

theorem EcPoint.point_of_finite {P : EcPoint} (h : P.inf = false) :
    P.point = some ((val P.x : F), (val P.y : F)) := if_neg (by simp [h])

theorem EcPoint.reduced_of_inf {P : EcPoint} (h : P.inf = true) : P.Reduced := by
  intro hf
  rw [h] at hf
  cases hf

theorem EcPoint.of_holds {a b : Fe} {x y : F} (ha : Holds a x) (hb : Holds b y) :
    (EcPoint.mk a b false).point = some (x, y) ∧ (EcPoint.mk a b false).Reduced := by
  refine ⟨?_, fun _ => ⟨ha.lt, hb.lt⟩⟩
  rw [point_of_finite rfl, ha.cast, hb.cast]

/-- One point: both at infinity, or the same coordinates. -/
def SamePoint (P Q : EcPoint) : Prop :=
  P.inf = Q.inf ∧ (P.inf = false → P.x = Q.x ∧ P.y = Q.y)

theorem samePoint_of_point_eq {P Q : EcPoint} (hP : P.Reduced) (hQ : Q.Reduced)
    (h : P.point = Q.point) : SamePoint P Q := by
  cases hPi : P.inf with
  | true =>
    rw [EcPoint.point_of_inf hPi] at h
    cases hQi : Q.inf with
    | true => exact ⟨by rw [hPi, hQi], fun hf => by rw [hPi] at hf; cases hf⟩
    | false => cases h.trans (EcPoint.point_of_finite hQi)
  | false =>
    rw [EcPoint.point_of_finite hPi] at h
    cases hQi : Q.inf with
    | true =>
      rw [EcPoint.point_of_inf hQi] at h
      cases h
    | false =>
      rw [EcPoint.point_of_finite hQi, Option.some.injEq, Prod.mk.injEq] at h
      obtain ⟨hPx, hPy⟩ := hP hPi
      obtain ⟨hQx, hQy⟩ := hQ hQi
      refine ⟨by rw [hPi, hQi], fun _ => ⟨?_, ?_⟩⟩
      · exact ((holds_of_lt hPx rfl).inj (holds_of_lt hQx rfl)).2 h.1
      · exact ((holds_of_lt hPy rfl).inj (holds_of_lt hQy rfl)).2 h.2

theorem two_ne_zero_F : (2 : F) ≠ 0 := by decide

theorem holds_feZero : Holds feZero (0 : F) := by
  rw [Holds, ZMod.val_zero]
  decide

theorem holds_feThree : Holds feThree (3 : F) := by
  have hval : val feThree = 3 := by decide
  exact holds_of_lt (by rw [hval]; decide) (by rw [hval, Nat.cast_ofNat])

theorem val_p256B_lt : val p256B < p := by decide

/-! ## The affine functions -/

section Affine

variable {P Q : EcPoint} (r : EcPoint)

theorem fromSlope_spec {lam x1 y1 x2 : Fe} {l a b c : F} (hl : Holds lam l) (ha : Holds x1 a)
    (hb : Holds y1 b) (hc : Holds x2 c) :
    (fromSlope lam x1 y1 x2).point = some (chord l a b c) ∧
      (fromSlope lam x1 y1 x2).Reduced := by
  have hx := ((hl.sqr val_p256P).sub val_p256P ha).sub val_p256P hc
  have hy := (hl.mul val_p256P (ha.sub val_p256P hx)).sub val_p256P hb
  simp only [fromSlope]
  exact EcPoint.of_holds hx hy

theorem holds_slopeDouble {x y : F} (hx : Holds P.x x) (hy : Holds P.y y) :
    Holds (slopeDouble P) ((3 * (x * x) + -3) / (y + y)) := by
  have hnum := ((holds_feThree.mul val_p256P (hx.sqr val_p256P)).sub val_p256P holds_feThree)
  have hden := (hy.add val_p256P hy).inv val_p256P (by decide)
  exact (hnum.mul val_p256P hden).of_eq (by rw [div_eq_mul_inv, sub_eq_add_neg])

/-- **Doubling** is the tangent law. -/
theorem ecDouble_spec (hP : P.Reduced) :
    (ecDouble r P).point = Weierstrass.double (-3) P.point ∧ (ecDouble r P).Reduced := by
  rw [ecDouble]
  cases hinf : P.inf with
  | true =>
    rw [Bool.true_or, if_pos rfl, EcPoint.point_of_inf hinf]
    exact ⟨EcPoint.point_of_inf rfl, EcPoint.reduced_of_inf rfl⟩
  | false =>
    obtain ⟨hx, hy⟩ := hP hinf
    have hx := holds_of_lt (x := (val P.x : F)) hx rfl
    have hy := holds_of_lt (x := (val P.y : F)) hy rfl
    rw [EcPoint.point_of_finite hinf, Weierstrass.double, Bool.false_or]
    simp only [hy.fpIsZero]
    split
    · exact ⟨EcPoint.point_of_inf rfl, EcPoint.reduced_of_inf rfl⟩
    · exact fromSlope_spec (holds_slopeDouble hx hy) hx hy hx

/-- **Addition** is the affine law. -/
theorem ecAdd_spec (hP : P.Reduced) (hQ : Q.Reduced) :
    (ecAdd r P Q).point = Weierstrass.add (-3) P.point Q.point ∧ (ecAdd r P Q).Reduced := by
  rw [ecAdd, addInfinity]
  cases hPi : P.inf with
  | true =>
    rw [EcPoint.point_of_inf hPi]
    exact ⟨rfl, hQ⟩
  | false =>
    cases hQi : Q.inf with
    | true =>
      rw [EcPoint.point_of_inf hQi, add_none]
      exact ⟨rfl, hP⟩
    | false =>
      have hdouble := ecDouble_spec r hP
      obtain ⟨hPx, hPy⟩ := hP hPi
      obtain ⟨hQx, hQy⟩ := hQ hQi
      have hPx := holds_of_lt (x := (val P.x : F)) hPx rfl
      have hPy := holds_of_lt (x := (val P.y : F)) hPy rfl
      have hQx := holds_of_lt (x := (val Q.x : F)) hQx rfl
      have hQy := holds_of_lt (x := (val Q.y : F)) hQy rfl
      rw [EcPoint.point_of_finite hPi] at hdouble ⊢
      rw [EcPoint.point_of_finite hQi, Weierstrass.add]
      simp only [Bool.false_eq_true, if_false, hPx.fpEq hQx]
      split
      · rename_i hx
        have hpair : isInversePair P Q = true ↔ ¬(val P.y : F) = (val Q.y : F) := by
          rw [isInversePair, Bool.and_eq_true, hPx.fpEq hQx, Bool.not_eq_true', ← hPy.fpEq hQy,
            Bool.not_eq_true]
          exact and_iff_right hx
        rw [addSameX]
        simp only [hpair]
        by_cases hy : (val P.y : F) = (val Q.y : F)
        · rw [if_neg (not_not.2 hy), if_pos hy]
          exact hdouble
        · rw [if_pos hy, if_neg hy]
          exact ⟨EcPoint.point_of_inf rfl, EcPoint.reduced_of_inf rfl⟩
      · have hl := (hQy.sub val_p256P hPy).mul val_p256P
          ((hQx.sub val_p256P hPx).inv val_p256P (by decide))
        exact fromSlope_spec (hl.of_eq (div_eq_mul_inv _ _).symm) hPx hPy hQx

end Affine

/-! ## The Jacobian functions -/

section Jacobian

variable {a b : Fe} {x y : F}

theorem holds_mulP (ha : (val a : F) = x) (hb : (val b : F) = y) : Holds (fpMulP a b) (x * y) :=
  (holds_fpMulP a b).of_eq (by rw [ha, hb])

theorem holds_sqrP (ha : (val a : F) = x) : Holds (fpSqrP a) (x * x) := holds_mulP ha ha

theorem Holds.sqrP (ha : Holds a x) : Holds (fpSqrP a) (x * x) := holds_sqrP ha.cast

theorem Holds.addP (ha : Holds a x) (hb : Holds b y) : Holds (fpAddP a b) (x + y) :=
  ha.add val_p256P hb

theorem Holds.subP (ha : Holds a x) (hb : Holds b y) : Holds (fpSubP a b) (x - y) :=
  ha.sub val_p256P hb

theorem cast_addP (ha : (val a : F) = x) (hb : Holds b y) : (val (fpAddP a b) : F) = x + y := by
  rw [fpAddP, cast_fpAdd val_p256P a hb, ha]

theorem cast_subP (ha : (val a : F) = x) (hb : Holds b y) : (val (fpSubP a b) : F) = x - y := by
  rw [fpSubP, cast_fpSub val_p256P a hb, ha]

theorem Holds.dbl (ha : Holds a x) : Holds (fpDbl a) (x + x) := ha.addP ha

/-- The coordinates of a point of `Jac F`; the first two need not be reduced. -/
structure Rep (j : Jac Fe) (P : Jac F) : Prop where
  X : (val j.X : F) = P.X
  Y : (val j.Y : F) = P.Y
  Z : Holds j.Z P.Z

theorem rep_of_holds {X Y Z : Fe} {x y z : F} (hX : Holds X x) (hY : Holds Y y) (hZ : Holds Z z) :
    Rep ⟨X, Y, Z⟩ ⟨x, y, z⟩ := ⟨hX.cast, hY.cast, hZ⟩

variable {i j : Jac Fe} {P Q : Jac F}

theorem rep_jacDouble (h : Rep j P) : Rep (jacDouble j) P.double := by
  have hδ := h.Z.sqrP
  have hγ := holds_sqrP h.Y
  have hβ := holds_mulP h.X hγ.cast
  have hα₀ := holds_mulP (cast_subP h.X hδ) (cast_addP h.X hδ)
  have hα := hα₀.addP hα₀.dbl
  have hX := hα.sqrP.subP hβ.dbl.dbl.dbl
  have hY := (hα.mulP (hβ.dbl.dbl.subP hX)).subP hγ.sqrP.dbl.dbl.dbl
  have hZ := ((holds_sqrP (cast_addP h.Y h.Z)).subP hγ).subP hδ
  simp only [jacDouble, dblX, dblY]
  exact rep_of_holds hX hY hZ

theorem holds_u (hj : Rep j P) (hi : Rep i Q) :
    Holds (fpMulP j.X (fpSqrP i.Z)) (Jac.u P Q) :=
  holds_mulP hj.X hi.Z.sqrP.cast

theorem holds_s (hj : Rep j P) (hi : Rep i Q) :
    Holds (fpMulP (fpMulP j.Y i.Z) (fpSqrP i.Z)) (Jac.s P Q) :=
  (holds_mulP hj.Y hi.Z.cast).mulP hi.Z.sqrP

theorem rep_jacAdd (hj : Rep j P) (hi : Rep i Q) : Rep (jacAdd j i) (Jac.addDistinct P Q) := by
  have hu := holds_u hj hi
  have hs := holds_s hj hi
  have hh := (holds_u hi hj).subP hu
  have hrr := ((holds_s hi hj).subP hs).dbl
  have hI := hh.dbl.sqrP
  have hJ := hh.mulP hI
  have hv := hu.mulP hI
  have hX := (hrr.sqrP.subP hJ).subP hv.dbl
  have hY := (hrr.mulP (hv.subP hX)).subP (hs.mulP hJ).dbl
  have hZ := (((hj.Z.addP hi.Z).sqrP.subP hj.Z.sqrP).subP hi.Z.sqrP).mulP hh
  simp only [jacAdd, addFinish, addUv]
  exact rep_of_holds hX hY hZ

theorem rep_jacAddStep (hj : Rep j P) (hi : Rep i Q) : Rep (jacAddStep j i) (P.add Q) := by
  rw [jacAddStep, Jac.add, jacIsInf]
  simp only [hj.Z.fpIsZero, addUv, (holds_u hj hi).fpEq (holds_u hi hj)]
  split
  · exact hi
  · split
    · rw [addSameXJac]
      simp only [(holds_s hj hi).fpEq (holds_s hi hj)]
      split
      · exact rep_jacDouble hj
      · exact ⟨hj.X, hj.Y, holds_feZero⟩
    · exact rep_jacAdd hj hi

theorem rep_ecMulStep (k : Vector UInt8 32) (hj : Rep j P) (hi : Rep i Q) (bit : ℕ) :
    Rep (ecMulStep k i j bit) (Jac.mulStep (scalarBit k) Q P bit) := by
  rw [ecMulStep, Jac.mulStep]
  split
  · exact rep_jacAddStep (rep_jacDouble hj) hi
  · exact rep_jacDouble hj

theorem jacToAffine_spec (r : EcPoint) (h : Rep j P) :
    (jacToAffine r j).point = P.toAffine ∧ (jacToAffine r j).Reduced := by
  rw [jacToAffine, jacIsInf]
  simp only [h.Z.fpIsZero]
  split
  · rename_i hz
    rw [Jac.toAffine_of_zero hz]
    exact ⟨EcPoint.point_of_inf rfl, EcPoint.reduced_of_inf rfl⟩
  · rename_i hz
    have hzi := h.Z.invP
    have hzi2 := hzi.sqrP
    have hx := holds_mulP h.X hzi2.cast
    have hy := holds_mulP h.Y (hzi2.mulP hzi).cast
    rw [Jac.toAffine_of_ne hz]
    refine EcPoint.of_holds (hx.of_eq ?_) (hy.of_eq ?_)
    · rw [div_eq_mul_inv, pow_two, mul_inv]
    · rw [div_eq_mul_inv, pow_succ, pow_two, mul_inv, mul_inv]

theorem rep_jacFromAffine (P : EcPoint) :
    ∃ B : Jac F, Rep (jacFromAffine P) B ∧ B.toAffine = P.point := by
  refine ⟨⟨(val P.x : F), (val P.y : F), if P.inf then 0 else 1⟩, ⟨rfl, rfl, ?_⟩, ?_⟩
  · rw [jacFromAffine]
    cases P.inf with
    | true => exact holds_feZero
    | false => exact holds_feOne
  · rw [EcPoint.point]
    cases P.inf with
    | true => exact Jac.toAffine_of_zero rfl
    | false => exact Jac.toAffine_one _ _

end Jacobian

/-- **Scalar multiplication** is double-and-add of the affine law, for a point with any coordinates. -/
theorem ecMul_spec (r : EcPoint) (k : Vector UInt8 32) (P : EcPoint) :
    (ecMul r k P).point = mulBits (-3) (scalarBit k) P.point 256 ∧ (ecMul r k P).Reduced := by
  obtain ⟨B, hB, hpoint⟩ := rep_jacFromAffine P
  have hrep : Rep (forUp (ecMulStep k (jacFromAffine P)) ⟨feZero, feZero, feZero⟩ 256)
      (forUp (Jac.mulStep (scalarBit k) B) ⟨0, 0, 0⟩ 256) := by
    refine forUp_rel Rep ⟨holds_feZero.cast, holds_feZero.cast, holds_feZero⟩ ?_
    intro bit _ j A hj
    exact rep_ecMulStep k hj hB bit
  have hspec := jacToAffine_spec r hrep
  rw [Jac.toAffine_mulStep two_ne_zero_F _ _ _ rfl, hpoint] at hspec
  exact hspec

/-! ## The two ways to multiply -/

/-- The point at infinity. -/
def EcPoint.infinity : EcPoint := ⟨feZero, feZero, true⟩

/-- Double-and-add from the most significant bit, with `quic_ec_double` and `quic_ec_add`. -/
def affineMul (k : Vector UInt8 32) (P : EcPoint) : EcPoint :=
  forUp (fun acc bit =>
    let acc := ecDouble acc acc
    if scalarBit k bit then ecAdd acc acc P else acc) EcPoint.infinity 256

theorem affineMul_spec (k : Vector UInt8 32) {P : EcPoint} (hP : P.Reduced) :
    (affineMul k P).point = mulBits (-3) (scalarBit k) P.point 256 ∧ (affineMul k P).Reduced := by
  refine forUp_rel (fun (A : EcPoint) B => A.point = B ∧ A.Reduced)
    ⟨EcPoint.point_of_inf rfl, EcPoint.reduced_of_inf rfl⟩ ?_
  rintro bit _ A _ ⟨rfl, hA⟩
  obtain ⟨hdouble, hred⟩ := ecDouble_spec A hA
  rw [mulStep, ← hdouble]
  dsimp only
  split
  · exact ecAdd_spec _ hred hP
  · exact ⟨rfl, hred⟩

/-- **The Jacobian multiplication is the affine one**, for every scalar and every point with reduced
coordinates or at infinity. -/
theorem ecMul_eq_affineMul (r : EcPoint) (k : Vector UInt8 32) (P : EcPoint) (hP : P.Reduced) :
    SamePoint (ecMul r k P) (affineMul k P) := by
  obtain ⟨hmul, hred⟩ := ecMul_spec r k P
  obtain ⟨hmul', hred'⟩ := affineMul_spec k hP
  exact samePoint_of_point_eq hred hred' (hmul.trans hmul'.symm)

/-- The base point times the largest scalar. -/
theorem ecMul_eq_affineMul_base :
    p256G.Reduced ∧ SamePoint (ecMul p256G (Vector.replicate 32 0xff) p256G)
      (affineMul (Vector.replicate 32 0xff) p256G) := by
  have hG : p256G.Reduced := fun _ => by decide
  exact ⟨hG, ecMul_eq_affineMul p256G _ p256G hG⟩

end P256

end Crypto

end QuicVibe
