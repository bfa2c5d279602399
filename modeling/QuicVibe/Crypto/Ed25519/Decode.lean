import QuicVibe.Crypto.Ed25519.Group
/-!
# Decoding points of Ed25519

The decoding takes `y` from the string without reducing it, computes a candidate for a root of
`u / v` and accepts if it is one, possibly after a factor that is a root of -1. All comparisons are
comparisons of what `fe_tobytes` writes (`spelled`), and the numbers compared are heavy, so that all
residues below 19 are written 19 too large alike (`bump`). The decision whether there is a root stays
correct (`eq_of_bump_eq`); a zero `x` is not seen to be zero.
-/

namespace QuicVibe

namespace Crypto

namespace Ed25519

open Checked
open X25519 hiding feTobytes

/-! ## Heavy numbers -/

/-- A tight number that stands for `a` and is no small residue. -/
structure HeavyAt (a : F) (f : Fe) : Prop where
  tight : TightAt a f
  heavy : 19 ≤ value f

/-- A residue as it is written when it comes from a heavy number. -/
def bump (r : ℕ) : ℕ := if r < 19 then r + 19 else r

theorem bump_ne_zero (r : ℕ) : bump r ≠ 0 := by
  unfold bump
  split <;> omega

theorem spelled_heavy {f : Fe} (h : 19 ≤ value f) : spelled (value f) = bump (toF f).val := by
  rw [toF, ZMod.val_natCast, spelled, bump]
  by_cases hsmall : value f % prime < 19
  · -- a number below the prime is its own residue
    have hle : prime ≤ value f := by
      by_contra hlt
      rw [Nat.mod_eq_of_lt (by omega)] at hsmall
      omega
    rw [if_pos ⟨hle, hsmall⟩, if_pos hsmall]
  · rw [if_neg fun h => hsmall h.2, if_neg hsmall, Nat.add_zero]

variable {f g : Fe} {a b : F}

theorem feMul_heavy (hf : WideAt a f) (hg : WideAt b g) (hf19 : 19 ≤ value f) (hg1 : 1 ≤ value g) :
    Returns (feMul f g) (HeavyAt (a * b)) := by
  have hval := feMul_value hf.wide hg.wide
  refine ((feMul_wide hf hg).and hval).mono fun h ⟨htight, _, lo, hi, hprod, hh⟩ => ⟨htight, ?_⟩
  have hle : 19 ≤ value f * value g := hf19.trans (Nat.le_mul_of_pos_right _ hg1)
  rw [hh, fold]
  omega

variable {n : ℕ} {x : F} {s : Vector UInt8 32} {p : Ge}

theorem mulClosed_heavyAt : MulClosed HeavyAt := fun _ _ _ _ hf hg =>
  feMul_heavy hf.tight.looseAt.wideAt hg.tight.looseAt.wideAt hf.heavy
    (le_trans (by decide) hg.heavy)

/-- **The exponent** of the candidate root. -/
theorem fePowP58_spec (hf : HeavyAt a f) :
    Returns (fePowP58 f) (HeavyAt (a ^ ((prime - 5) / 8))) := by
  have hR := mulClosed_heavyAt
  have hz : HeavyAt (a ^ 1) f := by rwa [pow_one]
  refine hR.feChain_spec hz fun _ t0 _ h0 => ?_
  refine (hR.feMul_pow h0 h0 (2 ^ 251 - 2) (by decide)).bind fun t0 h0 => ?_
  refine (hR.feMul_pow h0 h0 (2 ^ 252 - 4) (by decide)).bind fun t0 h0 => ?_
  exact hR.feMul_pow h0 hz ((prime - 5) / 8) (by decide)

/-- **Negation** of a loose number is heavy. -/
theorem feNeg_spec (hf : LooseAt a f) :
    Returns (feNeg f) fun h => LooseAt (-a) h ∧ 19 ≤ value h := by
  refine carryTwice_spec hf.loose fun r hr hval => ?_
  have hlt := value_lt_of_carried hr
  refine (feSub_value (fun i hi => ?_) fun i hi => ?_).mono fun h ⟨hh, hsub⟩ =>
    ⟨⟨fun i hi => ?_, ?_⟩, ?_⟩
  · have := hr i hi
    have := (twop_spec.1 i hi).1
    omega
  · exact (tightAt_zero.tight i hi).trans (by decide)
  · have := tightAt_zero.tight i hi
    have := (twop_spec.1 i hi).2
    rw [hh i hi]
    omega
  · have hres : toF r = a := by rw [toF, hval, cast_fold, cast_fold, ← hf.eq, toF]
    rw [toF_sub hsub, tightAt_zero.eq, hres, zero_sub]
  · rw [value_fe0, prime] at hsub
    omega

/-! ## The root -/

/-- `u` of the decoding, `y ^ 2 - 1`. -/
def uOf (y : F) : F := y ^ 2 - 1

/-- `v` of the decoding, `d * y ^ 2 + 1`. -/
def vOf (y : F) : F := d * y ^ 2 + 1

theorem onCurve_iff (x y : F) : Edwards.OnCurve d (x, y) ↔ vOf y * x ^ 2 = uOf y := by
  unfold Edwards.OnCurve vOf uOf
  constructor
  · intro h
    linear_combination -h
  · intro h
    linear_combination -h

theorem vOf_ne_zero (y : F) : vOf y ≠ 0 := by
  intro hzero
  have hy : y ≠ 0 := by
    rintro rfl
    simp [vOf] at hzero
  apply d_nonsquare (toF feSqrtm1 / y)
  rw [div_pow, sq_toF_feSqrtm1, div_eq_iff (pow_ne_zero 2 hy)]
  unfold vOf at hzero
  linear_combination -hzero

/-- The candidate of RFC 8032 5.1.3 for a root of `u / v`. -/
def candidate (u v : F) : F := v ^ 3 * u * (u * v ^ 7) ^ ((prime - 5) / 8)

variable {u v : F}

theorem v_mul_candidate_sq (u v : F) :
    v * candidate u v ^ 2 = u * (u * v ^ 7) ^ ((prime - 1) / 4) := by
  have hexp : (prime - 1) / 4 = (prime - 5) / 8 * 2 + 1 := by decide
  rw [candidate, hexp, pow_succ (u * v ^ 7), pow_mul]
  ring

theorem pow_four_candidate (hv : v ≠ 0) : (v * candidate u v ^ 2) ^ 4 = u ^ 4 := by
  rw [v_mul_candidate_sq, mul_pow, ← pow_mul, show (prime - 1) / 4 * 4 = prime - 1 by decide]
  by_cases hu : u = 0
  · rw [hu, zero_pow (by decide), zero_mul]
  · rw [ZMod.pow_card_sub_one_eq_one (mul_ne_zero hu (pow_ne_zero 7 hv)), mul_one]

/-- **There is a root** exactly when the candidate is one, or becomes one with the root of -1. -/
theorem exists_root_iff (hv : v ≠ 0) : (∃ r, v * r ^ 2 = u) ↔
    v * candidate u v ^ 2 = u ∨ v * candidate u v ^ 2 = -u := by
  constructor
  · rintro ⟨r, rfl⟩
    rw [v_mul_candidate_sq]
    by_cases hr : r = 0
    · left
      rw [hr, zero_pow (by decide), mul_zero, zero_mul]
    · -- `u * v ^ 7` is the square of `v ^ 4 * r`, so its power here squares to one
      have hsq : ((v * r ^ 2 * v ^ 7) ^ ((prime - 1) / 4)) ^ 2 = 1 := by
        rw [← pow_mul, show v * r ^ 2 * v ^ 7 = (v ^ 4 * r) ^ 2 by ring, ← pow_mul,
          show 2 * ((prime - 1) / 4 * 2) = prime - 1 by decide]
        exact ZMod.pow_card_sub_one_eq_one (mul_ne_zero (pow_ne_zero 4 hv) hr)
      rw [sq, mul_self_eq_one_iff] at hsq
      rcases hsq with hone | hone
      · left
        rw [hone, mul_one]
      · right
        rw [hone, mul_neg_one]
  · rintro (hroot | hroot)
    · exact ⟨_, hroot⟩
    · refine ⟨candidate u v * toF feSqrtm1, ?_⟩
      linear_combination -hroot + v * candidate u v ^ 2 * sq_toF_feSqrtm1

theorem eq_of_bump_eq (h4 : a ^ 4 = b ^ 4) (h : bump a.val = bump b.val) : a = b := by
  -- otherwise one is a small `k` and the other is `k + 19`
  have hsmall : ∀ {a b : F}, a ^ 4 = b ^ 4 → a.val < 19 → b.val = a.val + 19 → False := by
    intro a b h4 ha hb
    have hcast : ((a.val ^ 4 : ℕ) : F) = ((a.val + 19) ^ 4 : ℕ) := by
      rw [Nat.cast_pow, Nat.cast_pow, ← hb, ZMod.natCast_zmod_val, ZMod.natCast_zmod_val, h4]
    have hmod := (ZMod.natCast_eq_natCast_iff _ _ _).1 hcast
    have hlt : ∀ k, k < 38 → k ^ 4 < prime := by
      intro k hk
      exact (Nat.pow_le_pow_left hk.le 4).trans_lt (by decide)
    have heq := Nat.ModEq.eq_of_lt_of_lt hmod (hlt _ (by omega)) (hlt _ (by omega))
    have := Nat.pow_left_injective (n := 4) (by decide) heq
    omega
  unfold bump at h
  apply ZMod.val_injective
  split at h <;> split at h
  · omega
  · rename_i ha hb
    exact (hsmall h4 ha h.symm).elim
  · rename_i ha hb
    exact (hsmall h4.symm hb h).elim
  · exact h

/-- The root the decoding finds, before its sign is chosen. -/
def rootOf (u v : F) : F :=
  if v * candidate u v ^ 2 = u then candidate u v else candidate u v * toF feSqrtm1

theorem v_mul_rootOf_sq (hv : v ≠ 0) (h : ∃ r, v * r ^ 2 = u) : v * rootOf u v ^ 2 = u := by
  unfold rootOf
  split
  · assumption
  · rename_i hne
    have hneg := ((exists_root_iff hv).1 h).resolve_left hne
    linear_combination -hneg + v * candidate u v ^ 2 * sq_toF_feSqrtm1

/-! ## The steps of the decoding -/

/-- A loose number that stands for `a` and is no small residue. -/
structure LooseHeavyAt (a : F) (f : Fe) : Prop where
  loose : LooseAt a f
  heavy : 19 ≤ value f

/-- A wide number that stands for `a` and is no small residue. -/
structure WideHeavyAt (a : F) (f : Fe) : Prop where
  wide : WideAt a f
  heavy : 19 ≤ value f

theorem HeavyAt.loose (h : HeavyAt a f) : LooseHeavyAt a f := ⟨h.tight.looseAt, h.heavy⟩

theorem LooseHeavyAt.wide (h : LooseHeavyAt a f) : WideHeavyAt a f := ⟨h.loose.wideAt, h.heavy⟩

theorem WideHeavyAt.mul (hf : WideHeavyAt a f) (hg : WideHeavyAt b g) :
    Returns (feMul f g) (HeavyAt (a * b)) :=
  feMul_heavy hf.wide hg.wide hf.heavy (le_trans (by decide) hg.heavy)

theorem heavy_feSqrtm1 : WideHeavyAt (toF feSqrtm1) feSqrtm1 :=
  ⟨⟨(feFrombytes_value _).1.tight.loose.wide, rfl⟩, by decide⟩

theorem LooseHeavyAt.spelled (h : LooseHeavyAt a f) : spelled (value f) = bump a.val := by
  rw [spelled_heavy h.heavy, h.loose.eq]

/-- `u` and `v` are heavy: the difference adds twice the prime, the sum has the constant `d` in
it. -/
theorem decodeUv_spec {y : Fe} {c : F} (hy : TightAt c y) : Returns (decodeUv y) fun uv =>
    LooseHeavyAt (uOf c) uv.1 ∧ WideHeavyAt (vOf c) uv.2 := by
  have hd : TightAt d feD := ⟨(feFrombytes_value dBytes).1.tight, toF_feD⟩
  have hd19 : 19 ≤ value feD := by decide
  refine (feSq_spec hy.looseAt).bind fun u hu => ?_
  have hsub := feSub_value (f := u) (g := fe1) (fun i hi => ?_) fun i hi => ?_
  · refine ((feSub_spec hu tightAt_one).and hsub).bind fun u' hu'' => ?_
    obtain ⟨hu', -, hval⟩ := hu''
    have hu19 : 19 ≤ value u' := by
      rw [value_fe1, prime] at hval
      omega
    refine (feMul_spec hu' hd.looseAt).bind fun v hv => ?_
    have hadd := feAdd_value (f := v) (g := feD) fun i hi => ?_
    · refine ((feAdd_spec hv hd).and hadd).bind fun v' hv'' => ?_
      obtain ⟨hv', -, hval'⟩ := hv''
      have hone := feAdd_value (f := v') (g := fe1) fun i hi => ?_
      · refine ((feAdd_wide hv'.loose tightAt_one.tight.loose).and hone).map fun w hw' => ?_
        obtain ⟨hw, -, hvalw⟩ := hw'
        refine ⟨⟨⟨hu'.loose, ?_⟩, hu19⟩, ⟨⟨hw.wide, ?_⟩, ?_⟩⟩
        · rw [hu'.eq, uOf]
          ring
        · rw [hw.eq, hv'.eq, tightAt_one.eq, vOf]
          ring
        · dsimp only
          omega
      · have := hv'.loose i hi
        have := tightAt_one.tight i hi
        omega
    · have := hv.tight i hi
      have := hd.tight i hi
      omega
  · have := tightAt_one.tight i hi
    have := (twop_spec.1 i hi).1
    omega
  · have := hu.tight i hi
    omega

/-- **Recovering `x`.** The two comparisons decide whether there is a root, since what is compared
has the same fourth power. -/
theorem recoverX_spec {u v : F} {fu fv : Fe} (hu : LooseHeavyAt u fu) (hv : WideHeavyAt v fv)
    (hv0 : v ≠ 0) : Returns (recoverX fu fv) fun r =>
      (r.1 = true ↔ ∃ x, v * x ^ 2 = u) ∧ HeavyAt (rootOf u v) r.2 := by
  refine (hv.mul hv).bind fun v3 hv3 => ?_
  refine (hv3.loose.wide.mul hv).bind fun v3 hv3 => ?_
  refine (hv3.loose.wide.mul hv3.loose.wide).bind fun uv7 huv7 => ?_
  refine (huv7.loose.wide.mul hv).bind fun uv7 huv7 => ?_
  refine (huv7.loose.wide.mul hu.wide).bind fun uv7 huv7 => ?_
  have hw : v * v * v * (v * v * v) * v * u = u * v ^ 7 := by ring
  rw [hw] at huv7
  refine (fePowP58_spec huv7).bind fun t ht => ?_
  refine (hv3.loose.wide.mul hu.wide).bind fun x hx => ?_
  refine (hx.loose.wide.mul ht.loose.wide).bind fun x hx => ?_
  have hcand : v * v * v * u * (u * v ^ 7) ^ ((prime - 5) / 8) = candidate u v := by
    rw [candidate]
    ring
  rw [hcand] at hx
  refine (hx.loose.wide.mul hx.loose.wide).bind fun vx2 hvx2 => ?_
  refine (hvx2.loose.wide.mul hv).bind fun vx2 hvx2 => ?_
  have hvx : candidate u v * candidate u v * v = v * candidate u v ^ 2 := by ring
  rw [hvx] at hvx2
  have h4 := pow_four_candidate (u := u) hv0
  refine (feNeg_spec hu.loose).bind fun nu ⟨hnu, hnu19⟩ => ?_
  refine (feEqual_eq hvx2.loose.loose.loose hu.loose.loose).bind fun found hfound => ?_
  rw [hvx2.loose.spelled, hu.spelled] at hfound
  have hfirst : found = true ↔ v * candidate u v ^ 2 = u := by
    rw [hfound, decide_eq_true_eq]
    exact ⟨eq_of_bump_eq h4, fun h => by rw [h]⟩
  by_cases hyes : v * candidate u v ^ 2 = u
  · rw [if_pos (hfirst.2 hyes)]
    refine returns_pure ⟨?_, ?_⟩
    · rw [exists_root_iff hv0]
      exact ⟨fun _ => Or.inl hyes, fun _ => rfl⟩
    · rw [rootOf, if_pos hyes]
      exact hx
  · rw [if_neg fun h => hyes (hfirst.1 h)]
    refine (hx.loose.wide.mul heavy_feSqrtm1).bind fun x' hx' => ?_
    refine (feEqual_eq hvx2.loose.loose.loose hnu.loose).map fun found' hfound' => ⟨?_, ?_⟩
    · rw [hvx2.loose.spelled, (LooseHeavyAt.mk hnu hnu19).spelled] at hfound'
      have hsecond : found' = true ↔ v * candidate u v ^ 2 = -u := by
        rw [hfound', decide_eq_true_eq]
        refine ⟨eq_of_bump_eq ?_, fun h => by rw [h]⟩
        rw [h4, Even.neg_pow (by decide)]
      dsimp only
      rw [hsecond, exists_root_iff hv0]
      exact ⟨Or.inr, fun h => h.resolve_left hyes⟩
    · rw [rootOf, if_neg hyes]
      exact hx'

theorem decodeSignFails_spec {x : Fe} (hx : LooseHeavyAt a x) (x0 : ℕ) :
    Returns (decodeSignFails x x0) (· = false) := by
  refine (feIsnonzero_eq hx.loose.loose).map fun b hb => ?_
  rw [hb, hx.spelled, decide_eq_true (bump_ne_zero _), Bool.not_true, Bool.false_and]

/-- The root of the sign that is asked for, as the code sees signs. -/
def signed (a : F) (x0 : ℕ) : F := if x0 ≠ bump a.val % 2 then -a else a

/-- **Choosing the sign.** -/
theorem applySign_spec {x : Fe} (hx : LooseHeavyAt a x) (x0 : ℕ) :
    Returns (applySign x x0) (LooseHeavyAt (signed a x0)) := by
  refine (feNeg_spec hx.loose).bind fun nx ⟨hnx, hnx19⟩ => ?_
  refine (feIsnegative_eq hx.loose.loose).map fun sign hsign => ?_
  rw [hx.spelled] at hsign
  have hbit : (if x0 ≠ sign then 1 else 0) = (decide (x0 ≠ sign)).toNat := by
    by_cases h : x0 = sign <;> simp [h]
  rw [hbit, feCmov_eq hx.loose.loose hnx.loose, signed, ← hsign]
  by_cases h : x0 = sign
  · rw [if_neg (by simp [h]), if_neg (by simp [h])]
    exact hx
  · rw [if_pos h, if_pos (by simp [h])]
    exact ⟨hnx, hnx19⟩

/-! ## Decoding -/

/-- The number of the `y` coordinate in a string. -/
def yNum (s : Vector UInt8 32) : ℕ := Limbs.readLe s.toList % 2 ^ 255

/-- The sign bit of a string. -/
def signBit (s : Vector UInt8 32) : ℕ := Limbs.readLe s.toList / 2 ^ 255

/-- The `y` coordinate of a string. -/
def yOf (s : Vector UInt8 32) : F := (yNum s : F)

/-- Some point of the curve has the `y` coordinate of the string. -/
def HasPoint (s : Vector UInt8 32) : Prop := ∃ x, Edwards.OnCurve d (x, yOf s)

/-- The `x` coordinate the code decodes from a string. -/
def xOf (s : Vector UInt8 32) : F := signed (rootOf (uOf (yOf s)) (vOf (yOf s))) (signBit s)

/-- What an accepted string leaves. -/
structure Decoded (s : Vector UInt8 32) (p : Ge) : Prop where
  X : LooseHeavyAt (xOf s) p.X
  Y : p.Y = feFrombytes s
  Z : p.Z = fe1
  T : TightAt (xOf s * yOf s) p.T

theorem readLe_lt_two_pow (s : Vector UInt8 32) : Limbs.readLe s.toList < 2 ^ 256 := by
  have hlt := Limbs.readLe_lt s.toList
  rw [Vector.length_toList] at hlt
  exact hlt.trans_eq (by norm_num)

theorem signBit_lt (s : Vector UInt8 32) : signBit s < 2 := by
  have hlt := readLe_lt_two_pow s
  unfold signBit
  omega

theorem toNat_shiftRight_seven (s : Vector UInt8 32) :
    (s.toList.getD 31 0 >>> 7).toNat = signBit s := by
  have hbit := Limbs.bit_readLe s.toList 255
  rw [show 255 / 8 = 31 from rfl, Nat.toNat_testBit, show 255 &&& 7 = 7 from rfl,
    Nat.shiftRight_eq_div_pow, Nat.and_one_is_mod] at hbit
  have hbyte := (s.toList.getD 31 0).toNat_lt
  have hlt := signBit_lt s
  unfold signBit at hlt ⊢
  rw [UInt8.toNat_shiftRight, show (7 : UInt8).toNat % 8 = 7 from rfl, Nat.shiftRight_eq_div_pow]
  omega

theorem tightAt_yOf (s : Vector UInt8 32) : TightAt (yOf s) (feFrombytes s) := by
  obtain ⟨hcarried, hval⟩ := feFrombytes_value s
  exact ⟨hcarried.tight, by rw [toF, hval, yOf, yNum]⟩

/-- **Decoding** accepts a string exactly when its `y` is that of a point. -/
theorem geDecode_spec (s : Vector UInt8 32) : Returns (geDecode s) fun r =>
    (HasPoint s → ∃ p, r = some p ∧ Decoded s p) ∧ (¬ HasPoint s → r = none) := by
  have hroot : HasPoint s ↔ ∃ x, vOf (yOf s) * x ^ 2 = uOf (yOf s) :=
    exists_congr fun x => onCurve_iff x (yOf s)
  have hy := tightAt_yOf s
  rw [geDecode, toNat_shiftRight_seven]
  refine (decodeUv_spec hy).bind fun uv ⟨hu, hv⟩ => ?_
  refine (recoverX_spec hu hv (vOf_ne_zero _)).bind fun rx ⟨hfound, hx⟩ => ?_
  rw [← hroot] at hfound
  by_cases hpoint : HasPoint s
  · rw [hfound.2 hpoint, Bool.not_true, if_neg (by decide)]
    refine (decodeSignFails_spec hx.loose _).bind fun fails hfails => ?_
    subst hfails
    rw [if_neg (by decide)]
    refine (applySign_spec hx.loose _).bind fun x hx => ?_
    refine (feMul_spec hx.loose hy.looseAt).map fun t ht => ⟨fun _ => ?_, fun h => ?_⟩
    · exact ⟨_, rfl, hx, rfl, rfl, ht⟩
    · exact absurd hpoint h
  · have hno : rx.1 = false := by
      rw [← Bool.not_eq_true]
      exact fun h => hpoint (hfound.1 h)
    rw [hno, Bool.not_false, if_pos rfl]
    exact returns_pure ⟨fun h => absurd h hpoint, fun _ => rfl⟩

theorem signed_sq (a : F) (x0 : ℕ) : signed a x0 ^ 2 = a ^ 2 := by
  unfold signed
  split
  · rw [neg_sq]
  · rfl

theorem onCurve_xOf (h : HasPoint s) : Edwards.OnCurve d (xOf s, yOf s) := by
  obtain ⟨x, hx⟩ := h
  rw [onCurve_iff, xOf, signed_sq]
  exact v_mul_rootOf_sq (vOf_ne_zero _) ⟨x, (onCurve_iff x _).1 hx⟩

theorem Decoded.represents (h : Decoded s p) (hs : HasPoint s) : Represents p (xOf s, yOf s) := by
  refine ⟨onCurve_xOf hs, ?_⟩
  have hone : toF fe1 = 1 := tightAt_one.eq
  simp only [Ge.toExt, h.X.loose.eq, h.Y, h.Z, h.T.eq, (tightAt_yOf s).eq, hone]
  exact ⟨one_ne_zero, (mul_one _).symm, (mul_one _).symm, (mul_one _).symm⟩

/-! ## Encoding what was decoded -/

theorem feMul_one_one : feMul fe1 fe1 = pure fe1 := by rfl

theorem feSqn_one (n : ℕ) : feSqn fe1 n = pure fe1 := by
  induction n with
  | zero => rfl
  | succ n ih => rw [feSqn, ih, pure_bind, feSq, feMul_one_one]

theorem feInvert_one : feInvert fe1 = pure fe1 := by
  simp only [feInvert, feSq, feMul_one_one, feSqn_one, pure_bind]

theorem feMul_fe1 (hf : X25519.Loose f) (hlt : value f < 2 ^ 255) :
    Returns (feMul f fe1) fun h => X25519.Tight h ∧ value h = value f := by
  refine (feMul_value hf.wide tightAt_one.tight.loose.wide).mono
    fun h ⟨hh, lo, hi, hprod, hval⟩ => ⟨hh, ?_⟩
  rw [value_fe1, Nat.mul_one] at hprod
  rw [hval, fold]
  omega

theorem modify_length_append {α : Type} (xs : List α) (x : α) (f : α → α) :
    (xs ++ [x]).modify xs.length f = xs ++ [f x] := by
  induction xs with
  | nil => rfl
  | cons y xs ih => rw [List.cons_append, List.length_cons, List.modify_succ_cons, ih, List.cons_append]

theorem putLe_modify_sign {b : ℕ} (hn : n < 2 ^ 255) (hb : b < 2) :
    (Limbs.putLe 32 n).modify 31 (· ^^^ UInt8.ofNat (b <<< 7)) =
      Limbs.putLe 32 (n + 2 ^ 255 * b) := by
  have hxor : ∀ x < 128, ∀ b < 2,
      UInt8.ofNat x ^^^ UInt8.ofNat (b <<< 7) = UInt8.ofNat (x + 128 * b) := by decide
  have hsplit : ∀ m, Limbs.putLe 32 m = Limbs.putLe 31 m ++ [UInt8.ofNat (m / 256 ^ 31)] :=
    fun m => Limbs.putLe_add 31 1 m
  have hlow : Limbs.putLe 31 (n + 2 ^ 255 * b) = Limbs.putLe 31 n := by
    rw [← Limbs.putLe_mod 31 (n + 2 ^ 255 * b), ← Limbs.putLe_mod 31 n]
    congr 1
    omega
  have hhigh : (n + 2 ^ 255 * b) / 256 ^ 31 = n / 256 ^ 31 + 128 * b := by omega
  have hlast := modify_length_append (Limbs.putLe 31 n) (UInt8.ofNat (n / 256 ^ 31))
    (· ^^^ UInt8.ofNat (b <<< 7))
  rw [Limbs.length_putLe] at hlast
  rw [hsplit, hsplit, hlow, hhigh, ← hxor _ (by omega) _ hb, hlast]

/-- **Encoding a decoded point.** -/
theorem Decoded.geEncode (h : Decoded s p) :
    Returns (Ed25519.geEncode p)
      (· = Limbs.putLe 32 (spelled (yNum s) + 2 ^ 255 * (bump (xOf s).val % 2))) := by
  obtain ⟨hcarried, hval⟩ := feFrombytes_value s
  have hlt : value (feFrombytes s) < 2 ^ 255 := value_lt_of_carried hcarried
  have hone : WideAt 1 fe1 := tightAt_one.looseAt.wideAt
  have hinv : Returns (feInvert p.Z) (· = fe1) := by
    rw [h.Z, feInvert_one]
    exact returns_pure rfl
  refine hinv.bind fun zi hzi => ?_
  subst hzi
  refine (feMul_heavy h.X.loose.wideAt hone h.X.heavy (by rw [value_fe1])).bind fun x hx => ?_
  rw [mul_one] at hx
  rw [h.Y]
  refine (feMul_fe1 hcarried.tight.loose hlt).bind fun y ⟨hy, hyval⟩ => ?_
  refine (feTobytes_eq hy.loose).bind fun out hout => ?_
  refine (feIsnegative_eq hx.loose.loose.loose).map fun sign hsign => ?_
  have hspell : spelled (yNum s) < 2 ^ 255 := (spelled_lt _).trans (by decide)
  rw [hout, hsign, hyval, hval, ← yNum, hx.loose.spelled, putLe_modify_sign hspell (by omega)]

/-! ## Strings and numbers -/

theorem readLe_eq (s : Vector UInt8 32) :
    Limbs.readLe s.toList = yNum s + 2 ^ 255 * signBit s :=
  (Nat.mod_add_div _ _).symm

theorem putLe_readLe_toList (s : Vector UInt8 32) :
    Limbs.putLe 32 (Limbs.readLe s.toList) = s.toList := by
  have h := Limbs.putLe_readLe s.toList
  rwa [Vector.length_toList] at h

theorem yNum_lt (s : Vector UInt8 32) : yNum s < 2 ^ 255 := Nat.mod_lt _ (by decide)

theorem eq_of_yNum_signBit {s' : Vector UInt8 32} (hy : yNum s = yNum s')
    (hsign : signBit s = signBit s') : s = s' := by
  apply Vector.toList_inj.1
  rw [← putLe_readLe_toList s, ← putLe_readLe_toList s', readLe_eq, readLe_eq, hy, hsign]

theorem exists_string {y b : ℕ} (hy : y < 2 ^ 255) (hb : b < 2) :
    ∃ s, yNum s = y ∧ signBit s = b := by
  refine ⟨Bytes.fit 32 (Limbs.putLe 32 (y + 2 ^ 255 * b)), ?_⟩
  have hread : Limbs.readLe (Bytes.fit 32 (Limbs.putLe 32 (y + 2 ^ 255 * b))).toList =
      y + 2 ^ 255 * b := by
    rw [Bytes.toList_fit (by rw [Limbs.length_putLe]),
      List.take_of_length_le (by rw [Limbs.length_putLe]), Limbs.readLe_putLe]
    exact Nat.mod_eq_of_lt (by omega)
  unfold yNum signBit
  rw [hread]
  omega

theorem spelled_eq_self_iff (hn : n < 2 ^ 255) : spelled n = n ↔ n < prime := by
  have hprime : prime = 2 ^ 255 - 19 := rfl
  rw [spelled]
  by_cases hlt : n < prime
  · rw [Nat.mod_eq_of_lt hlt, if_neg fun h => by omega]
    omega
  · have hmod : n % prime = n - prime := by
      rw [Nat.mod_eq_sub_mod (by omega), Nat.mod_eq_of_lt (by omega)]
    rw [hmod, if_pos ⟨by omega, by omega⟩]
    omega

theorem encoding_eq_iff (s : Vector UInt8 32) :
    Limbs.putLe 32 (spelled (yNum s) + 2 ^ 255 * (bump (xOf s).val % 2)) = s.toList ↔
      yNum s < prime ∧ bump (xOf s).val % 2 = signBit s := by
  have hspell : spelled (yNum s) < 2 ^ 255 := (spelled_lt _).trans (by decide)
  have hy := yNum_lt s
  rw [← spelled_eq_self_iff hy]
  constructor
  · intro h
    have hread := congrArg Limbs.readLe h
    rw [Limbs.readLe_putLe, Nat.mod_eq_of_lt (by omega), readLe_eq] at hread
    omega
  · rintro ⟨hys, hsign⟩
    rw [← putLe_readLe_toList s, readLe_eq, hys, hsign]

/-! ## Roots and signs -/

theorem eq_or_eq_neg_of_onCurve {x' y : F} (h : Edwards.OnCurve d (x, y))
    (h' : Edwards.OnCurve d (x', y)) : x' = x ∨ x' = -x := by
  rw [onCurve_iff] at h h'
  exact sq_eq_sq_iff_eq_or_eq_neg.1 (mul_left_cancel₀ (vOf_ne_zero y) (h'.trans h.symm))

theorem val_neg (hx : x ≠ 0) : (-x).val = prime - x.val := by
  have : NeZero x := ⟨hx⟩
  exact ZMod.val_neg_of_ne_zero x

theorem rootOf_onCurve (h : HasPoint s) :
    Edwards.OnCurve d (rootOf (uOf (yOf s)) (vOf (yOf s)), yOf s) := by
  obtain ⟨x, hx⟩ := h
  rw [onCurve_iff]
  exact v_mul_rootOf_sq (vOf_ne_zero _) ⟨x, (onCurve_iff x _).1 hx⟩

/-- Where some root is large and has the sign of the string, the decoded one is written with that
sign. -/
theorem bump_xOf (hx : Edwards.OnCurve d (x, yOf s)) (hlarge : 19 ≤ x.val)
    (hsign : x.val % 2 = signBit s) : bump (xOf s).val % 2 = signBit s := by
  have hbump : bump x.val = x.val := if_neg (by omega)
  rw [xOf, signed]
  split
  · rename_i hne
    rcases eq_or_eq_neg_of_onCurve hx (rootOf_onCurve ⟨x, hx⟩) with heq | hneg
    · rw [heq, hbump, hsign] at hne
      exact absurd rfl hne
    · rw [hneg, neg_neg, hbump, hsign]
  · rename_i heq
    exact (not_ne_iff.1 heq).symm

/-- A decoded root that is written with the sign of the string is large, or its opposite is. -/
theorem exists_large_root (h : HasPoint s) (hx0 : xOf s ≠ 0)
    (hsign : bump (xOf s).val % 2 = signBit s) :
    ∃ x, Edwards.OnCurve d (x, yOf s) ∧ 19 ≤ x.val ∧ x.val % 2 = signBit s := by
  have hprime : prime = 2 ^ 255 - 19 := rfl
  by_cases hsmall : (xOf s).val < 19
  · refine ⟨-xOf s, ?_, ?_, ?_⟩
    · have hcurve := onCurve_xOf h
      rw [onCurve_iff] at hcurve ⊢
      rw [neg_sq, hcurve]
    · rw [val_neg hx0]
      omega
    · -- the prime is odd, as 19 is
      rw [bump, if_pos hsmall] at hsign
      rw [val_neg hx0]
      omega
  · rw [bump, if_neg hsmall] at hsign
    exact ⟨xOf s, onCurve_xOf h, by omega, hsign⟩

/-! ## When the decoding is that of the RFC -/

theorem Represents.unique {P Q : F × F} (hP : Represents p P) (hQ : Represents p Q) : P = Q := by
  have hX := hP.rep.X.symm.trans hQ.rep.X
  have hY := hP.rep.Y.symm.trans hQ.rep.Y
  exact Prod.ext (mul_right_cancel₀ hP.rep.Z_ne hX) (mul_right_cancel₀ hP.rep.Z_ne hY)

/-- The strings RFC 8032 5.1.3 accepts: `y` is reduced, it is that of a point, and a zero `x` has
no sign. -/
def RfcAccepts (s : Vector UInt8 32) : Prop :=
  yNum s < prime ∧ ∃ x, Edwards.OnCurve d (x, yOf s) ∧ ¬ (x = 0 ∧ signBit s = 1)

/-- What the decoding should do with a string. -/
structure DecodesFaithfully (s : Vector UInt8 32) : Prop where
  accepts : (geDecode s).val.isSome = true ↔ RfcAccepts s
  onCurve : ∀ p, (geDecode s).val = some p → ∃ P, Represents p P
  encode : ∀ p, (geDecode s).val = some p → (geEncode p).val = s.toList
  unique : ∀ s' p p' P, (geDecode s).val = some p → (geDecode s').val = some p' →
    Represents p P → Represents p' P → s' = s

theorem hasPoint_of_geDecode (h : (geDecode s).val = some p) : HasPoint s ∧ Decoded s p := by
  obtain ⟨-, hyes, hno⟩ := geDecode_spec s
  by_cases hpoint : HasPoint s
  · obtain ⟨q, hq, hdec⟩ := hyes hpoint
    obtain rfl : q = p := Option.some.inj (hq.symm.trans h)
    exact ⟨hpoint, hdec⟩
  · rw [hno hpoint] at h
    cases h

/-- Two strings that decode to one point, one of them with a `y` that has no second spelling. -/
theorem eq_of_same_point {s' : Vector UInt8 32} (hlow : 19 ≤ yNum s) (hhigh : yNum s < prime)
    (hx0 : xOf s ≠ 0) (hx : xOf s' = xOf s) (hy : yOf s' = yOf s) : s' = s := by
  have hprime : prime = 2 ^ 255 - 19 := rfl
  have hyNum : yNum s' = yNum s := by
    have hmod : yNum s' % prime = yNum s % prime := (ZMod.natCast_eq_natCast_iff _ _ _).1 hy
    have hlt := yNum_lt s'
    rw [Nat.mod_eq_of_lt hhigh] at hmod
    by_cases hsmall : yNum s' < prime
    · rwa [Nat.mod_eq_of_lt hsmall] at hmod
    · rw [Nat.mod_eq_sub_mod (by omega), Nat.mod_eq_of_lt (by omega)] at hmod
      omega
  refine eq_of_yNum_signBit hyNum ?_
  by_contra hne
  -- the two signs take the root and its opposite
  have hc : rootOf (uOf (yOf s)) (vOf (yOf s)) ≠ 0 := by
    intro hzero
    apply hx0
    rw [xOf, hzero, signed]
    split <;> simp
  have hopp : ∀ c : F, c ≠ 0 → c ≠ -c := by
    intro c hc heq
    have htwo : (2 : F) * c = 0 := by linear_combination heq
    exact hc ((mul_eq_zero.1 htwo).resolve_left complete_d.two_ne)
  have hlt := signBit_lt s
  have hlt' := signBit_lt s'
  rw [xOf, xOf, hy, signed, signed] at hx
  generalize rootOf (uOf (yOf s)) (vOf (yOf s)) = c at hc hx
  have hbit : bump c.val % 2 < 2 := Nat.mod_lt _ (by decide)
  split at hx <;> split at hx
  · omega
  · exact hopp c hc hx.symm
  · exact hopp c hc hx
  · omega

/-- **Point decoding.** The code decodes a string as the RFC does, and to a point no other string
decodes to, exactly when the string is no point at all, or its `y` is at least 19 and below the
prime and a root of its sign is at least 19. -/
theorem geDecode_faithful_iff (s : Vector UInt8 32) : DecodesFaithfully s ↔
    ¬ HasPoint s ∨ (19 ≤ yNum s ∧ yNum s < prime ∧
      ∃ x, Edwards.OnCurve d (x, yOf s) ∧ 19 ≤ x.val ∧ x.val % 2 = signBit s) := by
  obtain ⟨-, hyes, hno⟩ := geDecode_spec s
  constructor
  · intro h
    by_cases hpoint : HasPoint s
    · right
      obtain ⟨p, hp, hdec⟩ := hyes hpoint
      obtain ⟨hlt, x, hx, hzero⟩ := h.accepts.1 (by rw [hp]; rfl)
      have hsame := h.encode p hp
      rw [hdec.geEncode.2, encoding_eq_iff] at hsame
      refine ⟨?_, hlt, ?_⟩
      · -- a `y` below 19 has a second spelling, which decodes to the same point
        by_contra hsmall
        obtain ⟨s', hy', hsign'⟩ := exists_string (y := yNum s + prime) (b := signBit s)
          (by rw [prime]; omega) (signBit_lt s)
        have hyOf : yOf s' = yOf s := by
          rw [yOf, hy', Nat.cast_add, ZMod.natCast_self, add_zero, yOf]
        have hxOf : xOf s' = xOf s := by rw [xOf, hyOf, hsign', xOf]
        have hpoint' : HasPoint s' := by rwa [HasPoint, hyOf]
        obtain ⟨p', hp', hdec'⟩ := (geDecode_spec s').2.1 hpoint'
        have hrep' := hdec'.represents hpoint'
        rw [hyOf, hxOf] at hrep'
        have heq := h.unique s' p p' _ hp hp' (hdec.represents hpoint) hrep'
        rw [heq] at hy'
        have : 0 < prime := by decide
        omega
      · refine exists_large_root hpoint ?_ hsame.2
        intro hx0
        have hsign := hsame.2
        rw [hx0, ZMod.val_zero] at hsign
        refine hzero ⟨?_, hsign.symm⟩
        rcases eq_or_eq_neg_of_onCurve (onCurve_xOf hpoint) hx with heq | heq
        · rw [heq, hx0]
        · rw [heq, hx0, neg_zero]
    · exact Or.inl hpoint
  · rintro (hpoint | ⟨hlow, hhigh, x, hx, hlarge, hsign⟩)
    · -- nothing is accepted
      have hnone := hno hpoint
      refine ⟨?_, ?_, ?_, ?_⟩
      · rw [hnone]
        refine ⟨fun h => absurd h (by decide), ?_⟩
        rintro ⟨-, x, hx, -⟩
        exact absurd ⟨x, hx⟩ hpoint
      · intro p hp
        rw [hnone] at hp
        cases hp
      · intro p hp
        rw [hnone] at hp
        cases hp
      · intro s' p p' P hp
        rw [hnone] at hp
        cases hp
    · have hpoint : HasPoint s := ⟨x, hx⟩
      have hxne : x ≠ 0 := by
        rintro rfl
        rw [ZMod.val_zero] at hlarge
        omega
      have hx0 : xOf s ≠ 0 := by
        intro hzero
        rcases eq_or_eq_neg_of_onCurve (onCurve_xOf hpoint) hx with heq | heq
        · exact hxne (heq.trans hzero)
        · exact hxne (by rw [heq, hzero, neg_zero])
      refine ⟨?_, ?_, ?_, ?_⟩
      · obtain ⟨p, hp, -⟩ := hyes hpoint
        rw [hp]
        exact ⟨fun _ => ⟨hhigh, x, hx, fun h => hxne h.1⟩, fun _ => rfl⟩
      · intro p hp
        obtain ⟨-, hdec⟩ := hasPoint_of_geDecode hp
        exact ⟨_, hdec.represents hpoint⟩
      · intro p hp
        obtain ⟨-, hdec⟩ := hasPoint_of_geDecode hp
        rw [hdec.geEncode.2, encoding_eq_iff]
        exact ⟨hhigh, bump_xOf hx hlarge hsign⟩
      · intro s' p p' P hp hp' hP hP'
        obtain ⟨-, hdec⟩ := hasPoint_of_geDecode hp
        obtain ⟨hpoint', hdec'⟩ := hasPoint_of_geDecode hp'
        have hsame : (xOf s', yOf s') = (xOf s, yOf s) :=
          ((hdec'.represents hpoint').unique hP').trans (hP.unique (hdec.represents hpoint))
        exact eq_of_same_point hlow hhigh hx0 (congrArg Prod.fst hsame) (congrArg Prod.snd hsame)

/-- The strings of the neutral element, without and with a sign. -/
def neutralBytes (sign : UInt8) : Vector UInt8 32 :=
  Bytes.fit 32 (1 :: (List.replicate 30 0 ++ [sign]))

/-- The neutral element with the sign bit set: the RFC refuses the string, the code accepts it. The
neutral element itself is accepted and comes back with the sign bit. -/
theorem geDecode_neutral_sign :
    (¬ RfcAccepts (neutralBytes 0x80) ∧ (geDecode (neutralBytes 0x80)).val.isSome = true) ∧
    ∃ p, (geDecode (neutralBytes 0)).val = some p ∧
      (geEncode p).val = (neutralBytes 0x80).toList := by
  have hnum : yNum (neutralBytes 0) = 1 ∧ yNum (neutralBytes 0x80) = 1 ∧
      signBit (neutralBytes 0x80) = 1 := by decide
  have hy : yOf (neutralBytes 0) = 1 ∧ yOf (neutralBytes 0x80) = 1 := by
    rw [yOf, yOf, hnum.1, hnum.2.1, Nat.cast_one]
    exact ⟨rfl, rfl⟩
  have honly : ∀ x, Edwards.OnCurve d (x, 1) → x = 0 := by
    intro x hx
    rw [onCurve_iff, uOf, one_pow, sub_self] at hx
    exact (pow_eq_zero_iff (by decide)).1 ((mul_eq_zero.1 hx).resolve_left (vOf_ne_zero 1))
  have hpoint : ∀ s, yOf s = 1 → HasPoint s := by
    intro s hs
    rw [HasPoint, hs]
    exact ⟨0, Edwards.onCurve_neutral d⟩
  refine ⟨⟨?_, ?_⟩, ?_⟩
  · rintro ⟨-, x, hx, hzero⟩
    rw [hy.2] at hx
    exact hzero ⟨honly x hx, hnum.2.2⟩
  · obtain ⟨p, hp, -⟩ := (geDecode_spec _).2.1 (hpoint _ hy.2)
    rw [hp]
    rfl
  · obtain ⟨p, hp, hdec⟩ := (geDecode_spec _).2.1 (hpoint _ hy.1)
    have hcurve := onCurve_xOf (hpoint _ hy.1)
    rw [hy.1] at hcurve
    refine ⟨p, hp, ?_⟩
    rw [hdec.geEncode.2, honly _ hcurve, hnum.1, ZMod.val_zero]
    decide

end Ed25519

end Crypto

end QuicVibe
