import QuicVibe.Crypto.Sha256
import QuicVibe.Crypto.P256.Ecdsa
/-!
# Signing

`quic_p256sign_sign` with the nonce of RFC 6979. The loop that draws candidates is given a number of
rounds; no signature comes out of fewer rounds than it needs.
-/

namespace QuicVibe

namespace Crypto

namespace P256

open Words Weierstrass

/-! ## The nonce -/

def psHashModN (hash : Vector UInt8 32) : Vector UInt8 32 :=
  fpToBe (fpReduce (fpFromBe hash) p256N)

def psBuildSeed (v : Digest) (sep : UInt8) (priv hred : Vector UInt8 32) : Bytes :=
  v.toList ++ [sep] ++ priv.toList ++ hred.toList

/-- `ps_mix`: the key and the value. -/
def psMix (k v : Digest) (sep : UInt8) (priv hred : Vector UInt8 32) : Digest × Digest :=
  let k := hmacSha256 k.toList (psBuildSeed v sep priv hred)
  let v := hmacSha256 k.toList v.toList
  (k, v)

def psKInRange (cand : Vector UInt8 32) : Bool :=
  let c := fpFromBe cand
  !fpIsZero c && fpLt c p256N

/-- `ps_gen_candidate`, for at most `fuel` rounds. -/
def psGenCandidate : ℕ → Digest → Digest → Option Digest
  | 0, _, _ => none
  | fuel + 1, k, v =>
    let v := hmacSha256 k.toList v.toList
    if psKInRange v then some v
    else
      let k := hmacSha256 k.toList (v.toList ++ [0x00])
      let v := hmacSha256 k.toList v.toList
      psGenCandidate fuel k v

def p256signK (fuel : ℕ) (priv hash : Vector UInt8 32) : Option Digest :=
  let k := Vector.replicate 32 0x00
  let v := Vector.replicate 32 0x01
  let hred := psHashModN hash
  let kv := psMix k v 0x00 priv hred
  let kv := psMix kv.1 kv.2 0x01 priv hred
  psGenCandidate fuel kv.1 kv.2

/-! ## The signature -/

/-- `ps_compute_r`: the first half, and whether it is not zero. -/
def psComputeR (kb : Vector UInt8 32) : Fe × Bool :=
  let rp := ecMul .unset kb p256G
  let r := fpReduce rp.x p256N
  (r, !fpIsZero r)

def psComputeS (kb : Vector UInt8 32) (e r d : Fe) : Fe :=
  let k := fpFromBe kb
  let kinv := montInv k p256MontN
  let rd := fpMul r d p256N
  let sum := fpAdd e rd p256N
  fpMul kinv sum p256N

def psLowS (s : Fe) : Fe :=
  let ns := fpSub p256N s p256N
  if fpLt ns s then ns else s

/-- The part of `quic_p256sign_sign` after the nonce: the two halves, or none for the result `0`. -/
def signWith (kb priv hash : Vector UInt8 32) : Option (Vector UInt8 32 × Vector UInt8 32) :=
  let rv := psComputeR kb
  if !rv.2 then none
  else
    let e := fpReduce (fpFromBe hash) p256N
    let d := fpFromBe priv
    let sv := psLowS (psComputeS kb e rv.1 d)
    if fpIsZero sv then none else some (fpToBe rv.1, fpToBe sv)

/-- `quic_p256sign_sign`; none while the nonce is not found. -/
def p256signSign (fuel : ℕ) (priv hash : Vector UInt8 32) :
    Option (Option (Vector UInt8 32 × Vector UInt8 32)) :=
  (p256signK fuel priv hash).map fun kb => signWith kb priv hash

/-! ## The nonce is in range -/

theorem psKInRange_iff {cand : Vector UInt8 32} :
    psKInRange cand = true ↔ 0 < number cand ∧ number cand < n := by
  have hrange := scalarInRange_iff (v := fpFromBe cand)
  rw [val_fpFromBe] at hrange
  exact hrange

theorem psGenCandidate_range {fuel : ℕ} {k v kb : Digest} (h : psGenCandidate fuel k v = some kb) :
    0 < number kb ∧ number kb < n := by
  induction fuel generalizing k v with
  | zero => cases h
  | succ fuel ih =>
    rw [psGenCandidate] at h
    dsimp only at h
    split at h
    · rename_i hin
      obtain rfl := Option.some.inj h
      exact psKInRange_iff.1 hin
    · exact ih h

/-! ## The halves -/

variable {k e r d c : S} {kb priv hash : Vector UInt8 32}

theorem smul_base_ne_zero (hk : k ≠ 0) : k • base ≠ 0 := by
  intro h
  refine base_ne_zero ?_
  have hone : (1 : S) • base = base := one_smul S base
  rw [← hone, ← inv_mul_cancel₀ hk, mul_smul, h]
  exact (smul_zero k⁻¹ : k⁻¹ • (0 : curve.Point) = 0)

theorem psComputeR_spec (hk : Holds (fpFromBe kb) k) (h0 : k ≠ 0) :
    val (psComputeR kb).1 < n ∧ xModN (k • base) = some (val (psComputeR kb).1) ∧
      ((psComputeR kb).2 = true ↔ val (psComputeR kb).1 ≠ 0) := by
  obtain ⟨hpoint, hred⟩ := ecMul_coords .unset kb coords_base.symm
  rw [← val_fpFromBe, hk, val_smul] at hpoint
  have hval : val (psComputeR kb).1 = val (ecMul .unset kb p256G).x % n := by
    rw [psComputeR, fpReduce_eq (by rw [val_p256N]; decide), val_p256N]
  refine ⟨by rw [hval]; exact Nat.mod_lt _ (by decide), ?_, ?_⟩
  · cases hinf : (ecMul .unset kb p256G).inf with
    | true =>
      rw [EcPoint.point_of_inf hinf] at hpoint
      exact absurd (coords_injective (hpoint.symm.trans coords_zero.symm)) (smul_base_ne_zero h0)
    | false =>
      have hx := holds_of_lt (x := (val (ecMul .unset kb p256G).x : F)) (hred hinf).1 rfl
      rw [xModN, ← hpoint, EcPoint.point_of_finite hinf, Option.map_some, hval, ← hx]
  · rw [psComputeR, Bool.not_eq_true', ← Bool.not_eq_true, fpIsZero_iff]

theorem holds_psComputeS {e r d : Fe} {a b : S} (hk : Holds (fpFromBe kb) k) (he : Holds e a)
    (hr : Holds r b) (hd : Holds d c) : Holds (psComputeS kb e r d) (k⁻¹ * (a + b * c)) := by
  have hkinv := hk.montInv p256MontN_valid (by decide)
  have hsum := he.add val_p256N (hr.mul val_p256N hd)
  exact hkinv.mul val_p256N hsum

/-- **The low half**: the number or its opposite, whichever is at most half the order. -/
theorem psLowS_spec {s : Fe} (hs : Holds s c) :
    ∃ c', (c' = c ∨ c' = -c) ∧ Holds (psLowS s) c' ∧ val (psLowS s) ≤ n / 2 := by
  have hlt := hs.lt
  have hns : val (fpSub p256N s p256N) = n - val s := by
    rw [fpSub, if_pos (feGe_iff.2 (by rw [val_p256N]; omega)),
      feSubRaw_of_le (by rw [val_p256N]; omega), val_p256N]
  have hodd : n % 2 = 1 := by decide
  rw [psLowS]
  split
  · rename_i hless
    rw [fpLt_iff, hns] at hless
    refine ⟨-c, Or.inr rfl, holds_of_lt (by omega) ?_, by omega⟩
    rw [hns, Nat.cast_sub hlt.le, ZMod.natCast_self, hs.cast, zero_sub]
  · rename_i hless
    rw [fpLt_iff, hns] at hless
    exact ⟨c, Or.inl rfl, hs, by omega⟩

/-- **The verifier computes the multiple of the nonce.** -/
theorem verifyPoint_signed (hk : k ≠ 0) (hs : k⁻¹ * (e + r * d) ≠ 0) :
    verifyPoint (d • base) e r (k⁻¹ * (e + r * d)) = k • base := by
  have hsum : e + r * d ≠ 0 := right_ne_zero_of_mul hs
  rw [verifyPoint_eq, smul_smul, ← add_smul]
  congr 1
  field_simp

theorem xModN_verifyPoint_signed {c' : S} (hk : k ≠ 0) (hs : k⁻¹ * (e + r * d) ≠ 0)
    (hc : c' = k⁻¹ * (e + r * d) ∨ c' = -(k⁻¹ * (e + r * d))) :
    xModN (verifyPoint (d • base) e r c') = xModN (k • base) := by
  rcases hc with rfl | rfl
  · rw [verifyPoint_signed hk hs]
  · rw [verifyPoint_neg, verifyPoint_signed hk hs, xModN_neg]

/-! ## Signing and verifying -/

/-- The key of a private scalar: reduced coordinates of its multiple of the base point. -/
structure IsPublicKey (priv pubX pubY : Vector UInt8 32) : Prop where
  x_lt : number pubX < p
  y_lt : number pubY < p
  coords_eq : coords (number priv • base) = some ((number pubX : F), (number pubY : F))

/-- What a pair of halves has to satisfy. -/
structure ValidSignature (pubX pubY r s hash : Vector UInt8 32) : Prop where
  r_range : 0 < number r ∧ number r < n
  s_range : 0 < number s ∧ number s < n
  low : number s ≤ n / 2
  accepted : ecdsaP256Verify pubX pubY r s hash = true

theorem holds_number {b : Vector UInt8 32} (hb : 0 < number b ∧ number b < n) :
    Holds (fpFromBe b) (number b : S) ∧ (number b : S) ≠ 0 := by
  have hval : val (fpFromBe b) = number b := val_fpFromBe b
  have hb' := holds_of_lt (x := (number b : S)) (a := fpFromBe b) (by omega) (by rw [hval])
  refine ⟨hb', fun hzero => ?_⟩
  rw [← hb'.fpIsZero, fpIsZero_iff] at hzero
  omega

theorem signWith_valid {pubX pubY r s : Vector UInt8 32} (hk : 0 < number kb ∧ number kb < n)
    (hd : 0 < number priv ∧ number priv < n) (hpub : IsPublicKey priv pubX pubY)
    (h : signWith kb priv hash = some (r, s)) : ValidSignature pubX pubY r s hash := by
  obtain ⟨hkb, hk0⟩ := holds_number hk
  obtain ⟨hdb, -⟩ := holds_number hd
  obtain ⟨hrlt, hrx, hrnz⟩ := psComputeR_spec hkb hk0
  have he := holds_fpReduce (q := n) val_p256N (fpFromBe hash)
  rw [val_fpFromBe] at he
  have hr := holds_of_lt (x := (val (psComputeR kb).1 : S)) hrlt rfl
  obtain ⟨c', hc', hlow, hhalf⟩ := psLowS_spec (holds_psComputeS hkb he hr hdb)
  rw [signWith] at h
  dsimp only at h
  split at h
  · cases h
  rename_i hr0
  split at h
  · cases h
  rename_i hs0
  obtain ⟨rfl, rfl⟩ := Prod.mk.inj (Option.some.inj h)
  rw [hlow.fpIsZero] at hs0
  rw [Bool.not_eq_true', Bool.not_eq_false, hrnz] at hr0
  have hs1 : val (psLowS (psComputeS kb (fpReduce (fpFromBe hash) p256N) (psComputeR kb).1
      (fpFromBe priv))) ≠ 0 := by rwa [Ne, ← fpIsZero_iff, hlow.fpIsZero]
  have hcne : (number kb : S)⁻¹ * ((number hash : S) + val (psComputeR kb).1 * number priv) ≠ 0 := by
    intro hzero
    rcases hc' with rfl | rfl
    · exact hs0 hzero
    · refine hs0 ?_
      rw [neg_eq_zero]
      exact hzero
  -- the key is the point of the private scalar, so it is on the curve
  have hpoint : (keyPoint pubX pubY).point = coords ((number priv : S) • base) := by
    rw [point_keyPoint, ← hpub.coords_eq, Nat.cast_smul_eq_nsmul]
  have hcurve : ecOnCurve (keyPoint pubX pubY) = true := by
    have hx : val (keyPoint pubX pubY).x = number pubX := val_fpFromBe pubX
    have hy : val (keyPoint pubX pubY).y = number pubY := val_fpFromBe pubY
    rw [ecOnCurve_iff rfl (by rw [hx]; exact mul_self_lt_of_lt hpub.x_lt)
      (by rw [hy]; exact mul_self_lt_of_lt hpub.y_lt), hx, hy]
    have hcoords := hpub.coords_eq
    cases hP : number priv • base with
    | zero =>
      rw [hP] at hcoords
      cases hcoords
    | some x y hxy =>
      rw [hP, coords_some, Option.some.injEq, Prod.mk.injEq] at hcoords
      rw [← hcoords.1, ← hcoords.2]
      exact hxy.1
  have hnr : number (fpToBe (psComputeR kb).1) = val (psComputeR kb).1 := readBe_fpToBe _
  have hns := readBe_fpToBe (psLowS (psComputeS kb (fpReduce (fpFromBe hash) p256N)
    (psComputeR kb).1 (fpFromBe priv)))
  rw [← number] at hns
  have hslt := hlow.lt
  refine ⟨by omega, by omega, by omega, ?_⟩
  rw [ecdsaP256Verify_iff hpoint, hnr, hns]
  refine ⟨by omega, by omega, hcurve, ?_⟩
  rw [hlow.cast, ← hrx]
  exact xModN_verifyPoint_signed hk0 hcne hc'

theorem signWith_isSome {x : ℕ} (hk : 0 < number kb ∧ number kb < n)
    (hd : 0 < number priv ∧ number priv < n) (hx : xModN (number kb • base) = some x)
    (hx0 : x ≠ 0) (hsum : (number hash : S) + x * number priv ≠ 0) :
    ∃ rs, signWith kb priv hash = some rs := by
  obtain ⟨hkb, hk0⟩ := holds_number hk
  obtain ⟨hdb, -⟩ := holds_number hd
  obtain ⟨hrlt, hrx, hrnz⟩ := psComputeR_spec hkb hk0
  rw [Nat.cast_smul_eq_nsmul, hx, Option.some.injEq] at hrx
  have he := holds_fpReduce (q := n) val_p256N (fpFromBe hash)
  rw [val_fpFromBe] at he
  have hr := holds_of_lt (x := (val (psComputeR kb).1 : S)) hrlt rfl
  obtain ⟨c', hc', hlow, -⟩ := psLowS_spec (holds_psComputeS hkb he hr hdb)
  have hc0 : c' ≠ 0 := by
    rw [← hrx] at hc'
    have hne := mul_ne_zero (inv_ne_zero hk0) hsum
    rcases hc' with rfl | rfl
    · exact hne
    · exact neg_ne_zero.2 hne
  have hsv : fpIsZero (psLowS (psComputeS kb (fpReduce (fpFromBe hash) p256N) (psComputeR kb).1
      (fpFromBe priv))) = false := by
    rw [← Bool.not_eq_true, hlow.fpIsZero]
    exact hc0
  have hrv : (psComputeR kb).2 = true := hrnz.2 (by rwa [← hrx])
  simp only [signWith, hrv, hsv, Bool.not_true, Bool.false_eq_true, if_false]
  exact ⟨_, rfl⟩

/-- **A signature that is returned verifies.** -/
theorem p256signSign_verifies (fuel : ℕ) (priv hash pubX pubY r s : Vector UInt8 32)
    (hd : 0 < number priv ∧ number priv < n) (hpub : IsPublicKey priv pubX pubY)
    (h : p256signSign fuel priv hash = some (some (r, s))) :
    ValidSignature pubX pubY r s hash := by
  rw [p256signSign, Option.map_eq_some_iff] at h
  obtain ⟨kb, hkb, hsign⟩ := h
  exact signWith_valid (psGenCandidate_range hkb) hd hpub hsign

/-- The nonce of the private scalar `1` for the hash `0`. -/
def nonceOne : ℕ := 0x010497d369b3d525ca15ec29c104a694210bb59ff6cabfc10afe6df0283896df

/-- The first coordinate of its multiple of the base point. -/
def nonceOneX : ℕ := 0xe6b3bb68d65aa645104de3abb94cbc6f568e2d55ea511d0e6d300e177002159

theorem hmacSha256_eq_be32 {key msg : Bytes} {v : ℕ} (hkey : key.length ≤ 64)
    (h : hmacBytes key msg = putBe 32 v) : hmacSha256 key msg = be32 v := by
  rw [be32, ← h, ← toList_hmacSha256 hkey, Bytes.fit_toList]

theorem toList_be32 (v : ℕ) : (be32 v).toList = putBe 32 v := by
  rw [be32, Bytes.toList_fit (by rw [length_putBe]), List.take_of_length_le
    (by rw [length_putBe])]

theorem p256signK_one : p256signK 1 (be32 1) (be32 0) = some (be32 nonceOne) := by
  have hhash : psHashModN (be32 0) = be32 0 := by
    rw [psHashModN, fpToBe_eq_be32, fpReduce_eq (by rw [val_p256N]; decide), val_fpFromBe,
      ← number, number_be32 (by decide), Nat.zero_mod]
  have hzero : (Vector.replicate 32 0x00 : Digest) = be32 0 := by decide
  have hones : (Vector.replicate 32 0x01 : Digest) = be32 (readBe (List.replicate 32 1)) := by
    decide
  -- the five steps of the generator, each from the values before it
  have hk₁ : hmacBytes (putBe 32 0) (putBe 32 (readBe (List.replicate 32 1)) ++ [0x00] ++
      putBe 32 1 ++ putBe 32 0) =
        putBe 32 0xac1077c2cdd7ea3c564277908253f03cb84b409a174f5b23066111b3966e9a69 := by
    decide +kernel
  have hv₁ : hmacBytes
      (putBe 32 0xac1077c2cdd7ea3c564277908253f03cb84b409a174f5b23066111b3966e9a69)
      (putBe 32 (readBe (List.replicate 32 1))) =
        putBe 32 0x161c307475397945d974689381d26b74d1c6ee39ccb33b25a89df6507612f471 := by
    decide +kernel
  have hk₂ : hmacBytes
      (putBe 32 0xac1077c2cdd7ea3c564277908253f03cb84b409a174f5b23066111b3966e9a69)
      (putBe 32 0x161c307475397945d974689381d26b74d1c6ee39ccb33b25a89df6507612f471 ++ [0x01] ++
        putBe 32 1 ++ putBe 32 0) =
        putBe 32 0x47a9905e12a565c913f97badf5a62f87fc047a202d0acefd8a14919958065971 := by
    decide +kernel
  have hv₂ : hmacBytes
      (putBe 32 0x47a9905e12a565c913f97badf5a62f87fc047a202d0acefd8a14919958065971)
      (putBe 32 0x161c307475397945d974689381d26b74d1c6ee39ccb33b25a89df6507612f471) =
        putBe 32 0x6510f939bad19793248d396e4feefa03ab2bcfb1b718f4d818f60b36d5b0a009 := by
    decide +kernel
  have hv₃ : hmacBytes
      (putBe 32 0x47a9905e12a565c913f97badf5a62f87fc047a202d0acefd8a14919958065971)
      (putBe 32 0x6510f939bad19793248d396e4feefa03ab2bcfb1b718f4d818f60b36d5b0a009) =
        putBe 32 nonceOne := by
    decide +kernel
  have hrange : psKInRange (be32 nonceOne) = true := by
    rw [psKInRange_iff, number_be32 (by decide)]
    decide
  simp only [p256signK, psMix, psBuildSeed, hhash, hzero, hones, toList_be32,
    hmacSha256_eq_be32 (by rw [length_putBe]; decide) hk₁,
    hmacSha256_eq_be32 (by rw [length_putBe]; decide) hv₁,
    hmacSha256_eq_be32 (by rw [length_putBe]; decide) hk₂,
    hmacSha256_eq_be32 (by rw [length_putBe]; decide) hv₂, psGenCandidate,
    hmacSha256_eq_be32 (by rw [length_putBe]; decide) hv₃, hrange, if_true]

/-- The private scalar `1` signs the hash `0`. -/
theorem p256signSign_verifies_one :
    ∃ r s, p256signSign 1 (be32 1) (be32 0) = some (some (r, s)) ∧
      ValidSignature (fpToBe p256G.x) (fpToBe p256G.y) r s (be32 0) := by
  have hone : number (be32 1) = 1 := number_be32 (by decide)
  have hzero : number (be32 0) = 0 := number_be32 (by decide)
  have hnonce : number (be32 nonceOne) = nonceOne := number_be32 (by decide)
  have hd : 0 < number (be32 1) ∧ number (be32 1) < n := by
    rw [hone]
    decide
  have hpub : IsPublicKey (be32 1) (fpToBe p256G.x) (fpToBe p256G.y) := by
    refine ⟨?_, ?_, ?_⟩
    · rw [number, readBe_fpToBe]
      decide
    · rw [number, readBe_fpToBe]
      decide
    · rw [hone, one_nsmul, coords_base, number, number, readBe_fpToBe, readBe_fpToBe]
      rfl
  have hx : xModN (number (be32 nonceOne) • base) = some nonceOneX := by
    have hrun : (runMul nonceOne).Z ≠ 0 ∧ (runMul nonceOne).X =
        ⟨nonceOneX, by decide⟩ * ((runMul nonceOne).Z * (runMul nonceOne).Z) := by decide +kernel
    have hZ : ((runMul nonceOne).map Residues.lift).Z ≠ 0 := fun h =>
      hrun.1 (Residues.lift_injective (h.trans Residues.lift_zero.symm))
    have hX : ((runMul nonceOne).map Residues.lift).X = (nonceOneX : F) *
        ((runMul nonceOne).map Residues.lift).Z ^ 2 := by
      rw [Jac.map, hrun.2, Residues.lift_mul, Residues.lift_mul, pow_two]
      rfl
    rw [hnonce, xModN, coords_smul_base (by decide), Jac.toAffine_of_ne hZ, Option.map_some, hX,
      mul_div_cancel_right₀ _ (pow_ne_zero 2 hZ), ZMod.val_natCast_of_lt (by decide),
      Nat.mod_eq_of_lt (by decide)]
  obtain ⟨⟨r, s⟩, hrs⟩ : ∃ rs, signWith (be32 nonceOne) (be32 1) (be32 0) = some rs :=
    signWith_isSome (by rw [hnonce]; decide) hd hx (by decide)
      (by rw [hzero, hone]; decide)
  have hsign : p256signSign 1 (be32 1) (be32 0) = some (some (r, s)) := by
    rw [p256signSign, p256signK_one, Option.map_some, hrs]
  exact ⟨r, s, hsign, p256signSign_verifies 1 _ _ _ _ r s hd hpub hsign⟩

end P256

end Crypto

end QuicVibe
