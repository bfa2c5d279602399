import QuicVibe.Common.Primality
import QuicVibe.Crypto.P256.Point
import QuicVibe.Crypto.P256.Montgomery

/-!
# Verification of ECDSA signatures

The curve is Mathlib's group of points. The base point has order `n`, no point has order two, and
there is no room for more than `n` points then. `quic_ecdsa_p256_verify` over that group lacks two
checks: the coordinates of the key may be at or above the prime, and the negated second half of a
signature is accepted too.
-/

namespace QuicVibe

namespace Crypto

namespace P256

open Words Weierstrass Residues WeierstrassCurve WeierstrassCurve.Affine

/-- The curve `y ^ 2 = x ^ 3 - 3 x + b`. -/
noncomputable def curve : WeierstrassCurve.Affine F := ⟨0, 0, 0, -(3 : ℕ), (val p256B : F)⟩

instance : IsShortNF curve := ⟨rfl, rfl, rfl⟩

theorem equation_iff_cubic (x y : F) :
    curve.Equation x y ↔ y * y = x * x * x - 3 * x + (val p256B : F) := by
  rw [equation_iff]
  simp only [curve, zero_mul, add_zero]
  constructor <;> intro h <;> linear_combination h

/-! ## No point of order two -/

/-- The inverse of `x ^ p - x` modulo the cubic. -/
def cubicInverse : Quadratic p where
  c₀ := ⟨0xa969487079f1744798bf0de6fded091b66e9d328eb0645fe5d979d1339b7f47f, by decide⟩
  c₁ := ⟨0xa4a08891884100c13323460107a8d28eede4387fa3e6e9bfebec9f6d72d0b5cc, by decide⟩
  c₂ := ⟨0x4cde11cf86cb876cd59cf0115813c55af0ecd3cda667d98bb9a347a56aa74a6d, by decide⟩

/-- **The cubic has no root.** -/
theorem cubic_ne_zero (x : F) : x ^ 3 + curve.a₄ * x + curve.a₆ ≠ 0 := by
  have hcheck := Quadratic.no_root (q := p) (a := ⟨p - 3, by decide⟩)
    (b := ⟨val p256B, val_p256B_lt⟩) 256 (by decide) ⟨1, 0, 0⟩ ⟨0, 1, 0⟩ cubicInverse
    (fun x => by simp [Quadratic.eval, lift]) (fun x => by simp [Quadratic.eval, lift])
    (by decide +kernel) x
  have ha : lift (⟨p - 3, by decide⟩ : Fin p) = curve.a₄ := by
    rw [lift, Nat.cast_sub (by decide), ZMod.natCast_self, zero_sub]
    rfl
  rw [ha] at hcheck
  exact hcheck

theorem nonsingular_of_equation {x y : F} (h : curve.Equation x y) : curve.Nonsingular x y := by
  rw [nonsingular_iff]
  refine ⟨h, Or.inr fun hy => ?_⟩
  simp only [curve, zero_mul, sub_zero] at hy
  have hzero : y = 0 := by
    refine (mul_eq_zero.1 (?_ : (2 : F) * y = 0)).resolve_left two_ne_zero_F
    linear_combination hy
  rw [equation_iff_cubic, hzero] at h
  refine cubic_ne_zero x ?_
  simp only [curve]
  linear_combination -h

/-! ## The order -/

/-- The base point. -/
noncomputable def base : curve.Point :=
  .some (val p256G.x : F) (val p256G.y : F) <| nonsingular_of_equation <| by
    rw [equation_iff_cubic]
    decide

theorem coords_base : coords base = p256G.point := rfl

/-- The base point over numbers the kernel can run. -/
def baseFin : Jac (Fin p) :=
  ⟨⟨val p256G.x, by decide⟩, ⟨val p256G.y, by decide⟩, ⟨1, by decide⟩⟩

/-- The multiple of the base point by `k` as the kernel runs it. -/
def runMul (k : ℕ) : Jac (Fin p) :=
  forUp (Jac.mulStep (fun i => k.testBit (255 - i)) baseFin) ⟨0, 0, 0⟩ 256

theorem coords_smul_base {k : ℕ} (hk : k < 2 ^ 256) :
    coords (k • base) = ((runMul k).map lift).toAffine := by
  let b : ℕ → Bool := fun i => k.testBit (255 - i)
  have hmap : (runMul k).map lift = forUp (Jac.mulStep b (baseFin.map lift)) ⟨0, 0, 0⟩ 256 := by
    refine forUp_rel (fun (s : Jac (Fin p)) (t : Jac F) => s.map lift = t) ?_ ?_
    · simp only [Jac.map, lift_zero]
    · rintro i _ s _ rfl
      exact Jac.map_mulStep lift lift_add lift_sub lift_mul lift_zero lift_injective _ _ _ _
  have hbase : (baseFin.map lift).toAffine = coords base := by
    have hone : baseFin.map lift = ⟨(val p256G.x : F), (val p256G.y : F), 1⟩ := by
      simp only [Jac.map, baseFin, lift, Nat.cast_one]
    rw [hone, Jac.toAffine_one]
    rfl
  have hbits : ofBits b 256 = k := ofBits_eq hk fun i _ => rfl
  have hcoords := mulBits_coords two_ne_zero_F b base 256
  rw [hbits] at hcoords
  rw [hmap, Jac.toAffine_mulStep two_ne_zero_F b _ ⟨0, 0, 0⟩ rfl, hbase]
  exact hcoords.symm

theorem order_smul_base : n • base = 0 := by
  have hrun : (runMul n).Z = 0 := by decide +kernel
  have hinf := coords_smul_base (show n < 2 ^ 256 by decide)
  rw [Jac.toAffine_of_zero (by rw [Jac.map, hrun, lift_zero])] at hinf
  exact coords_injective hinf

theorem base_ne_zero : base ≠ 0 := by
  intro h
  cases congrArg coords h

/-- **The order of the group.** -/
theorem order_smul (Q : curve.Point) : n • Q = 0 := by
  refine nsmul_eq_zero_of_order two_ne_zero_F Fact.out ?_ cubic_ne_zero base_ne_zero order_smul_base Q
  rw [Nat.card_zmod]
  decide

/-! ## Multiples -/

theorem ofBits_scalarBit (k : Vector UInt8 32) : ofBits (scalarBit k) 256 = readBe k.toList := by
  refine ofBits_eq ?_ fun i hi => ?_
  · have hlt := readBe_lt k.toList
    rw [Vector.length_toList] at hlt
    exact hlt.trans_eq (by norm_num)
  · have hbit := testBit_readBe k.toList (i := i) (by rw [Vector.length_toList]; exact hi)
    rw [Vector.length_toList] at hbit
    rw [show 256 - 1 - i = 8 * 32 - 1 - i from rfl, hbit, scalarBit, dig_of_lt (by omega),
      List.getD_eq_getElem _ _ (by simp; omega), Vector.getElem_toList,
      show i &&& 7 = i % 8 from Nat.and_two_pow_sub_one_eq_mod i 3, Nat.and_one_is_mod,
      Nat.testBit, Nat.one_and_eq_mod_two, bne, decide_not]
    rfl

/-- **Scalar multiplication** on the curve. -/
theorem ecMul_coords (r : EcPoint) (k : Vector UInt8 32) {P : EcPoint} {Q : curve.Point}
    (h : P.point = coords Q) :
    (ecMul r k P).point = coords (readBe k.toList • Q) ∧ (ecMul r k P).Reduced := by
  have hspec := ecMul_spec r k P
  have hmul := mulBits_coords two_ne_zero_F (scalarBit k) Q 256
  rw [ofBits_scalarBit] at hmul
  rw [h] at hspec
  exact ⟨hspec.1.trans hmul, hspec.2⟩

/-- **Addition** on the curve. -/
theorem ecAdd_coords (r : EcPoint) {A B : EcPoint} {P Q : curve.Point} (hA : A.point = coords P)
    (hB : B.point = coords Q) (hAr : A.Reduced) (hBr : B.Reduced) :
    (ecAdd r A B).point = coords (P + Q) ∧ (ecAdd r A B).Reduced := by
  have hspec := ecAdd_spec r hAr hBr
  rw [hA, hB] at hspec
  exact ⟨hspec.1.trans (coords_add two_ne_zero_F P Q).symm, hspec.2⟩
/-! ## The functions -/

/-- An `ec_point` on the stack before it is written. -/
def EcPoint.unset : EcPoint := ⟨feZero, feZero, false⟩

def scalarInRange (v : Fe) : Bool := !fpIsZero v && fpLt v p256N

/-- The key as `load_pubkey` reads it. -/
def keyPoint (px py : Vector UInt8 32) : EcPoint := ⟨fpFromBe px, fpFromBe py, false⟩

def loadPubkey (px py : Vector UInt8 32) : Option EcPoint :=
  let q := keyPoint px py
  if ecOnCurve q then some q else none

def computeR (u1 u2 : Fe) (q : EcPoint) : EcPoint :=
  let a := ecMul .unset (fpToBe u1) p256G
  let b := ecMul .unset (fpToBe u2) q
  ecAdd .unset a b

def computeU (e r s : Fe) : Fe × Fe :=
  let w := montInv s p256MontN
  (fpMul e w p256N, fpMul r w p256N)

def checkR (rpt : EcPoint) (r : Fe) : Bool :=
  if rpt.inf then false else fpEq (fpReduce rpt.x p256N) r

/-- `inputs_ok`: the key when the inputs are accepted. -/
def inputsOk (r s : Fe) (px py : Vector UInt8 32) : Option EcPoint :=
  if !scalarInRange r || !scalarInRange s then none else loadPubkey px py

def ecdsaP256Verify (pubX pubY sigR sigS msgHash : Vector UInt8 32) : Bool :=
  let r := fpFromBe sigR
  let s := fpFromBe sigS
  match inputsOk r s pubX pubY with
  | none => false
  | some q =>
    let e := fpReduce (fpFromBe msgHash) p256N
    let u := computeU e r s
    checkR (computeR u.1 u.2 q) r

/-! ## The group as a module -/

noncomputable instance : Module S curve.Point := AddCommGroup.zmodModule order_smul

theorem val_smul (a : S) (P : curve.Point) : a.val • P = a • P := by
  rw [← Nat.cast_smul_eq_nsmul S, ZMod.natCast_zmod_val]

/-- The first coordinate modulo the order; none at infinity. -/
noncomputable def xModN (P : curve.Point) : Option ℕ := (coords P).map fun xy => xy.1.val % n

theorem xModN_neg (P : curve.Point) : xModN (-P) = xModN P := by
  cases P <;> rfl

/-- `u1 * G + u2 * Q` with `u1 = e / s` and `u2 = r / s`. -/
noncomputable def verifyPoint (Q : curve.Point) (e r s : S) : curve.Point :=
  (e * s⁻¹).val • base + (r * s⁻¹).val • Q

theorem verifyPoint_eq (Q : curve.Point) (e r s : S) :
    verifyPoint Q e r s = (e * s⁻¹) • base + (r * s⁻¹) • Q := by
  rw [verifyPoint, val_smul, val_smul]

/-- **Negating the second half negates the point.** -/
theorem verifyPoint_neg (Q : curve.Point) (e r s : S) :
    verifyPoint Q e r (-s) = -verifyPoint Q e r s := by
  rw [verifyPoint_eq, verifyPoint_eq, inv_neg, mul_neg, mul_neg, neg_smul, neg_smul, neg_add]

theorem verifyPoint_self (Q : curve.Point) {r : S} (hr : r ≠ 0) : verifyPoint Q 0 r r = Q := by
  rw [verifyPoint, zero_mul, mul_inv_cancel₀ hr, ZMod.val_zero, ZMod.val_one'' (by decide),
    zero_nsmul, zero_add, one_nsmul]

/-! ## What is checked -/

theorem scalarInRange_iff {v : Fe} : scalarInRange v = true ↔ 0 < val v ∧ val v < n := by
  rw [scalarInRange, Bool.and_eq_true, Bool.not_eq_true', ← Bool.not_eq_true, fpIsZero_iff,
    fpLt_iff, val_p256N, Nat.pos_iff_ne_zero]

theorem holds_fpMul {a b : Fe} (h : val a * val b < p * 2 ^ 256) :
    Holds (fpMul a b p256P) ((val a : F) * (val b : F)) := by
  refine (holds_of_mod (v := val a * val b) ?_).of_eq (Nat.cast_mul _ _)
  rw [fpMul_eq (by rwa [val_p256P]), val_p256P]

/-- **The equation**, for coordinates whose squares the long division reduces. -/
theorem ecOnCurve_iff {P : EcPoint} (hf : P.inf = false) (hx : val P.x * val P.x < p * 2 ^ 256)
    (hy : val P.y * val P.y < p * 2 ^ 256) :
    ecOnCurve P = true ↔ curve.Equation (val P.x : F) (val P.y : F) := by
  have hlhs := holds_fpMul hy
  have hcube := (holds_fpMul hx).mul_cast val_p256P P.x
  have hthree := holds_feThree.mul_cast val_p256P P.x
  have hb : Holds p256B (val p256B : F) := holds_of_lt val_p256B_lt rfl
  have hrhs := (hcube.sub val_p256P hthree).add val_p256P hb
  rw [equation_iff_cubic, ← hlhs.fpEq hrhs]
  simp only [ecOnCurve, rhsLhs, fpSqr, hf, Bool.false_eq_true, if_false]

theorem mul_self_lt_of_lt {x : ℕ} (h : x < p) : x * x < p * 2 ^ 256 :=
  Nat.mul_lt_mul_of_lt_of_le h (h.le.trans (by decide)) (by decide)

variable {r : Fe} {a b : S} {Q : curve.Point} {pubX pubY sigR sigS msgHash : Vector UInt8 32}

theorem checkR_iff {A : EcPoint} {P : curve.Point} (hA : A.point = coords P) (hred : A.Reduced) :
    checkR A r = true ↔ xModN P = some (val r) := by
  rw [checkR, xModN, ← hA]
  cases hinf : A.inf with
  | true =>
    rw [EcPoint.point_of_inf hinf]
    simp
  | false =>
    have hx := holds_of_lt (x := (val A.x : F)) (hred hinf).1 rfl
    rw [EcPoint.point_of_finite hinf, Option.map_some, Option.some.injEq, ← hx,
      ← val_p256N, ← fpReduce_eq (by rw [val_p256N]; decide), val_inj, ← fpEq_iff]
    simp

theorem holds_computeU {e s : Fe} {c : S} (he : Holds e a) (hr : Holds r b) (hs : Holds s c) :
    Holds (computeU e r s).1 (a * c⁻¹) ∧ Holds (computeU e r s).2 (b * c⁻¹) := by
  have hw := hs.montInv p256MontN_valid (by decide)
  exact ⟨he.mul val_p256N hw, hr.mul val_p256N hw⟩

theorem computeR_coords {u1 u2 : Fe} {q : EcPoint} (h1 : Holds u1 a) (h2 : Holds u2 b)
    (hq : q.point = coords Q) :
    (computeR u1 u2 q).point = coords (a.val • base + b.val • Q) ∧ (computeR u1 u2 q).Reduced := by
  have hA := ecMul_coords .unset (fpToBe u1) (coords_base.symm)
  have hB := ecMul_coords .unset (fpToBe u2) hq
  rw [readBe_fpToBe, h1] at hA
  rw [readBe_fpToBe, h2] at hB
  exact ecAdd_coords .unset hA.1 hB.1 hA.2 hB.2

/-- The number in a half of a signature or in a hash. -/
def number (b : Vector UInt8 32) : ℕ := readBe b.toList

/-- **Acceptance** for a key whose coordinates are those of a point. -/
theorem ecdsaP256Verify_iff (hQ : (keyPoint pubX pubY).point = coords Q)
    (sigR sigS msgHash : Vector UInt8 32) :
    ecdsaP256Verify pubX pubY sigR sigS msgHash = true ↔
      (0 < number sigR ∧ number sigR < n) ∧ (0 < number sigS ∧ number sigS < n) ∧
        ecOnCurve (keyPoint pubX pubY) = true ∧
        xModN (verifyPoint Q (number msgHash) (number sigR) (number sigS)) =
          some (number sigR) := by
  have hr : val (fpFromBe sigR) = number sigR := val_fpFromBe sigR
  have hs : val (fpFromBe sigS) = number sigS := val_fpFromBe sigS
  have hcheck : number sigR < n → number sigS < n →
      (let e := fpReduce (fpFromBe msgHash) p256N
       let u := computeU e (fpFromBe sigR) (fpFromBe sigS)
       checkR (computeR u.1 u.2 (keyPoint pubX pubY)) (fpFromBe sigR) = true ↔
        xModN (verifyPoint Q (number msgHash) (number sigR) (number sigS)) =
          some (number sigR)) := by
    intro hrlt hslt
    have he := holds_fpReduce (q := n) val_p256N (fpFromBe msgHash)
    rw [val_fpFromBe] at he
    have hr' := holds_of_lt (a := fpFromBe sigR) (x := (number sigR : S)) (by rwa [hr]) (by rw [hr])
    have hs' := holds_of_lt (a := fpFromBe sigS) (x := (number sigS : S)) (by rwa [hs]) (by rw [hs])
    obtain ⟨h1, h2⟩ := holds_computeU he hr' hs'
    obtain ⟨hR, hred⟩ := computeR_coords h1 h2 hQ
    rw [← hr]
    rw [← hr] at hR
    exact checkR_iff hR hred
  rw [ecdsaP256Verify, inputsOk, loadPubkey]
  have hrr := scalarInRange_iff (v := fpFromBe sigR)
  have hsr := scalarInRange_iff (v := fpFromBe sigS)
  rw [hr] at hrr
  rw [hs] at hsr
  rw [← hrr, ← hsr]
  cases hR : scalarInRange (fpFromBe sigR) with
  | false => simp
  | true =>
    cases hS : scalarInRange (fpFromBe sigS) with
    | false => simp
    | true =>
      cases hC : ecOnCurve (keyPoint pubX pubY) with
      | false => simp
      | true =>
        simp only [Bool.not_true, Bool.or_self, Bool.false_eq_true, if_false, if_true, true_and]
        exact hcheck (hrr.1 hR).2 (hsr.1 hS).2

theorem ecOnCurve_of_verify (h : ecdsaP256Verify pubX pubY sigR sigS msgHash = true) :
    ecOnCurve (keyPoint pubX pubY) = true := by
  rw [ecdsaP256Verify, inputsOk, loadPubkey] at h
  cases hC : ecOnCurve (keyPoint pubX pubY) with
  | false => simp [hC] at h
  | true => rfl

theorem point_keyPoint (pubX pubY : Vector UInt8 32) :
    (keyPoint pubX pubY).point = some ((number pubX : F), (number pubY : F)) := by
  rw [EcPoint.point_of_finite rfl, keyPoint, val_fpFromBe, val_fpFromBe, number, number]

/-- A number as 32 bytes. -/
def be32 (v : ℕ) : Vector UInt8 32 := Bytes.fit 32 (putBe 32 v)

theorem number_be32 {v : ℕ} (h : v < 2 ^ 256) : number (be32 v) = v := by
  rw [number, be32, Bytes.toList_fit (by rw [length_putBe]), List.take_of_length_le
    (by rw [length_putBe]), readBe_putBe, Nat.mod_eq_of_lt (h.trans_eq (by norm_num))]

theorem fpToBe_eq_be32 (a : Fe) : fpToBe a = be32 (val a) := by
  rw [be32, ← toList_fpToBe, Bytes.fit_toList]

/-! ## Soundness -/

/-- What an accepted signature should mean: both halves in range, a key with reduced coordinates on
the curve, and a finite point whose first coordinate modulo the order is the first half. -/
def Sound (pubX pubY sigR sigS msgHash : Vector UInt8 32) : Prop :=
  (0 < number sigR ∧ number sigR < n) ∧ (0 < number sigS ∧ number sigS < n) ∧
    (number pubX < p ∧ number pubY < p) ∧
    ∃ hQ : curve.Nonsingular (number pubX : F) (number pubY : F),
      xModN (verifyPoint (.some _ _ hQ) (number msgHash) (number sigR) (number sigS)) =
        some (number sigR)

/-- **Acceptance is sound exactly for keys with reduced coordinates**, which no check demands. -/
theorem ecdsaP256Verify_sound_iff (pubX pubY sigR sigS msgHash : Vector UInt8 32) :
    (ecdsaP256Verify pubX pubY sigR sigS msgHash = true →
        Sound pubX pubY sigR sigS msgHash) ↔
      (ecdsaP256Verify pubX pubY sigR sigS msgHash = true →
        number pubX < p ∧ number pubY < p) := by
  refine forall_congr' fun hver => ⟨fun h => h.2.2.1, fun hlt => ?_⟩
  have hcurve := ecOnCurve_of_verify hver
  have hx : val (keyPoint pubX pubY).x = number pubX := val_fpFromBe pubX
  have hy : val (keyPoint pubX pubY).y = number pubY := val_fpFromBe pubY
  rw [ecOnCurve_iff rfl (by rw [hx]; exact mul_self_lt_of_lt hlt.1)
    (by rw [hy]; exact mul_self_lt_of_lt hlt.2), hx, hy] at hcurve
  have hQ := nonsingular_of_equation hcurve
  have hpoint : (keyPoint pubX pubY).point = coords (.some _ _ hQ : curve.Point) :=
    point_keyPoint pubX pubY
  obtain ⟨hr, hs, -, hR⟩ := (ecdsaP256Verify_iff hpoint sigR sigS msgHash).1 hver
  exact ⟨hr, hs, hlt, hQ, hR⟩

/-- The second coordinate of the point over `5`. -/
def yOfFive : ℕ := 0x459243b9aa581806fe913bce99817ade11ca503c64d9a3c533415c083248fbcc

/-- The key `(5, y)` written with first coordinate `p + 5`: for the hash `0` the signature `(5, 5)`
compares the key itself. -/
theorem unreduced_key_accepted :
    ecdsaP256Verify (be32 (p + 5)) (be32 yOfFive) (be32 5) (be32 5) (be32 0) = true ∧
      ¬Sound (be32 (p + 5)) (be32 yOfFive) (be32 5) (be32 5) (be32 0) := by
  have hX : number (be32 (p + 5)) = p + 5 := number_be32 (by decide)
  have hY : number (be32 yOfFive) = yOfFive := number_be32 (by decide)
  have h5 : number (be32 5) = 5 := number_be32 (by decide)
  have h0 : number (be32 0) = 0 := number_be32 (by decide)
  have hXF : ((p + 5 : ℕ) : F) = 5 := by rw [Nat.cast_add, ZMod.natCast_self, zero_add]; rfl
  have heq : curve.Equation (5 : F) (yOfFive : F) := by
    rw [equation_iff_cubic]
    decide
  refine ⟨?_, fun h => ?_⟩
  · have hpoint : (keyPoint (be32 (p + 5)) (be32 yOfFive)).point =
        coords (.some _ _ (nonsingular_of_equation heq) : curve.Point) := by
      rw [point_keyPoint, hX, hY, hXF, coords_some]
    have hx : val (keyPoint (be32 (p + 5)) (be32 yOfFive)).x = p + 5 :=
      (val_fpFromBe _).trans hX
    have hy : val (keyPoint (be32 (p + 5)) (be32 yOfFive)).y = yOfFive :=
      (val_fpFromBe _).trans hY
    rw [ecdsaP256Verify_iff hpoint, h5, h0,
      ecOnCurve_iff rfl (by rw [hx]; decide) (by rw [hy]; decide), hx, hy, hXF]
    refine ⟨by decide, by decide, heq, ?_⟩
    have hunit : (5 : S) ≠ 0 := by decide
    rw [Nat.cast_zero, Nat.cast_ofNat, verifyPoint_self _ hunit, xModN, coords_some,
      Option.map_some]
    decide
  · have hlt := h.2.2.1.1
    rw [hX] at hlt
    omega

/-! ## Malleability -/

end P256

end Crypto

end QuicVibe
