import QuicVibe.Common.Edwards
import QuicVibe.Common.Primality
import QuicVibe.Crypto.Ed25519.Field

/-!
# The curve and the group of Ed25519

The constants of the code are those of RFC 8032 5.1, and with `d` no square the addition law of the
curve is complete. Of the addition in extended coordinates only `Y - X` can go wrong: the subtraction
adds twice the prime, limb by limb, and wraps where a limb of `X` exceeds the sum. In the field the
formulas are those of `Edwards.Ext.add`.
-/

namespace QuicVibe

namespace Crypto

namespace Ed25519

open Primality Checked
open X25519 hiding feTobytes

/-! ## The prime -/

/-- The primes the certificate starts from. -/
def smallPrimes : List ℕ := [97, 103, 127, 419, 991, 1723, 4153]

theorem prime_of_mem_smallPrimes : ∀ q ∈ smallPrimes, q.Prime := by
  simp only [smallPrimes, List.forall_mem_cons, List.not_mem_nil, false_implies, implies_true,
    and_true]
  norm_num

/-- A chain of numbers, each with primes that divide its predecessor. -/
def certificate : List Entry :=
  [⟨8574133, 2, [991, 103]⟩,
   ⟨1919519569386763, 2, [8574133, 127]⟩,
   ⟨569003, 2, [419, 97]⟩,
   ⟨2773320623, 2, [569003]⟩,
   ⟨72106336199, 2, [2773320623]⟩,
   ⟨75445702479781427272750846543864801, 2, [1919519569386763, 72106336199]⟩,
   ⟨430751, 2, [1723]⟩,
   ⟨31757755568855353, 2, [430751, 4153]⟩,
   ⟨74058212732561358302231226437062788676166966415465897661863160754340907, 2,
     [75445702479781427272750846543864801, 31757755568855353]⟩,
   ⟨prime, 2, [74058212732561358302231226437062788676166966415465897661863160754340907]⟩]

theorem prime_of_mem_certificate : ∀ q ∈ certificate.map Entry.number, q.Prime :=
  prime_of_check 256 prime_of_mem_smallPrimes (by decide +kernel)

instance : Fact prime.Prime := ⟨prime_of_mem_certificate prime (by simp [certificate])⟩

/-! ## The constants -/

/-- The constant of the curve, RFC 8032 5.1. -/
def d : F := -(121665 : ℕ) / 121666

theorem cast_eq_zero {n : ℕ} (h : n % prime = 0) : (n : F) = 0 :=
  (ZMod.natCast_eq_zero_iff _ _).2 (Nat.dvd_of_mod_eq_zero h)

theorem cast_ne_zero {n : ℕ} (h : n % prime ≠ 0) : (n : F) ≠ 0 := fun hzero =>
  h (Nat.mod_eq_zero_of_dvd ((ZMod.natCast_eq_zero_iff _ _).1 hzero))

theorem toF_feD : toF feD = d := by
  have hprod : ((121666 * value feD + 121665 : ℕ) : F) = 0 := cast_eq_zero (by decide)
  have hne : ((121666 : ℕ) : F) ≠ 0 := cast_ne_zero (by decide)
  push_cast at hprod hne
  rw [toF, d, eq_div_iff hne]
  linear_combination hprod

theorem sq_toF_feSqrtm1 : toF feSqrtm1 ^ 2 = -1 := by
  have hprod : ((value feSqrtm1 ^ 2 + 1 : ℕ) : F) = 0 := cast_eq_zero (by decide)
  push_cast at hprod
  rw [toF]
  linear_combination hprod

/-- **Euler's criterion** for `d`. -/
theorem d_nonsquare (s : F) : s ^ 2 ≠ d := by
  intro hs
  have hpow : d ^ ((prime - 1) / 2) = -1 := by
    have hnat : value feD ^ ((prime - 1) / 2) % prime = prime - 1 := by
      rw [← powMod_eq prime (show (prime - 1) / 2 < 2 ^ 255 by decide)]
      decide +kernel
    have hcast : ((value feD ^ ((prime - 1) / 2) + 1 : ℕ) : F) = 0 := by
      apply cast_eq_zero
      rw [Nat.add_mod, hnat]
      decide
    rw [Nat.cast_add, Nat.cast_pow, Nat.cast_one] at hcast
    rw [← toF_feD, toF]
    exact eq_neg_of_add_eq_zero_left hcast
  have hs0 : s ≠ 0 := by
    rintro rfl
    rw [← hs, zero_pow (by decide), zero_pow (by decide)] at hpow
    exact one_ne_zero (neg_eq_zero.1 hpow.symm)
  rw [← hs, ← pow_mul, show 2 * ((prime - 1) / 2) = prime - 1 by decide,
    ZMod.pow_card_sub_one_eq_one hs0] at hpow
  -- one is not minus one
  have htwo : ((2 : ℕ) : F) = 0 := by
    push_cast
    linear_combination hpow
  exact cast_ne_zero (by decide) htwo

/-- **The addition law of the curve is complete.** -/
theorem complete_d : Edwards.Complete d := by
  refine ⟨?_, ⟨_, sq_toF_feSqrtm1⟩, d_nonsquare⟩
  have htwo : ((2 : ℕ) : F) ≠ 0 := cast_ne_zero (by decide)
  exact_mod_cast htwo
/-! ## Points -/

/-- The field elements of a point's coordinates. -/
def Ge.toExt (p : Ge) : Edwards.Ext F := { X := toF p.X, Y := toF p.Y, Z := toF p.Z, T := toF p.T }

/-- The coordinates are those of a point of the curve. -/
structure Represents (p : Ge) (P : F × F) : Prop where
  onCurve : Edwards.OnCurve d P
  rep : p.toExt.Rep P

/-- All limbs are below 53 bits. -/
structure Ge.Loose (p : Ge) : Prop where
  X : X25519.Loose p.X
  Y : X25519.Loose p.Y
  Z : X25519.Loose p.Z
  T : X25519.Loose p.T

/-- All limbs are as a product leaves them. -/
structure Ge.Tight (p : Ge) : Prop where
  X : X25519.Tight p.X
  Y : X25519.Tight p.Y
  Z : X25519.Tight p.Z
  T : X25519.Tight p.T

/-- Twice the prime makes up for the difference `Y - X`. -/
def Ge.SubFits (p : Ge) : Prop := ∀ i < 5, limb p.X i ≤ limb p.Y i + limb twop i

theorem Ge.Tight.loose {p : Ge} (h : p.Tight) : p.Loose :=
  ⟨h.X.loose, h.Y.loose, h.Z.loose, h.T.loose⟩

theorem Ge.Tight.subFits {p : Ge} (h : p.Tight) : p.SubFits := by
  intro i hi
  have hX := h.X i hi
  have htwop := (twop_spec.1 i hi).1
  omega

theorem represents_geZero : geZero.Tight ∧ Represents geZero (0, 1) := by
  refine ⟨⟨tightAt_zero.tight, tightAt_one.tight, tightAt_one.tight, tightAt_zero.tight⟩,
    Edwards.onCurve_neutral d, ?_⟩
  have hzero : toF fe0 = 0 := tightAt_zero.eq
  have hone : toF fe1 = 1 := tightAt_one.eq
  simp only [Ge.toExt, geZero, hzero, hone]
  exact ⟨one_ne_zero, (zero_mul _).symm, (one_mul _).symm, by simp⟩

/-! ## Sums and differences of loose numbers -/

variable {f g : Fe}

theorem feAdd_wide (hf : X25519.Loose f) (hg : X25519.Loose g) :
    Returns (feAdd f g) (WideAt (toF f + toF g)) := by
  refine (feAdd_value fun i hi => ?_).mono fun s ⟨hs, hval⟩ => ⟨fun i hi => ?_, ?_⟩
  · have := hf i hi
    have := hg i hi
    omega
  · have := hf i hi
    have := hg i hi
    rw [hs i hi]
    omega
  · rw [toF, hval, Nat.cast_add, toF, toF]

theorem feSub_wide (hf : X25519.Loose f) (hle : ∀ i < 5, limb g i ≤ limb f i + limb twop i) :
    Returns (feSub f g) (WideAt (toF f - toF g)) := by
  refine (feSub_value hle fun i hi => ?_).mono fun s ⟨hs, hval⟩ => ⟨fun i hi => ?_, toF_sub hval⟩
  · have := hf i hi
    omega
  · have := hf i hi
    have := (twop_spec.1 i hi).2
    rw [hs i hi]
    omega

theorem le_of_feSub_ok (h : (feSub f g).ok = true) : ∀ i < 5, limb g i ≤ limb f i + limb twop i := by
  intro i hi
  have hstep := (ok_bind.1 (ok_array.1 h i hi)).2
  have hle : limb g i ≤ (limb f i + limb twop i) % 2 ^ 64 := of_decide_eq_true hstep
  exact hle.trans (Nat.mod_le _ _)

/-! ## Addition -/

variable {p1 p2 : Ge} {P1 P2 : F × F}

/-- **Addition on limbs**: nothing overflows, and the field elements are those of the formulas. -/
theorem geAdd_toExt (h1 : p1.Loose) (h2 : p2.Loose) (fits1 : p1.SubFits) (fits2 : p2.SubFits) :
    Returns (geAdd p1 p2) fun r => r.Tight ∧ r.toExt = Edwards.Ext.add d p1.toExt p2.toExt := by
  have hd : TightAt d feD := ⟨(feFrombytes_value dBytes).1.tight, toF_feD⟩
  refine (feAdd_spec hd hd).bind fun d2 hd2 => ?_
  refine (feSub_wide h1.Y fits1).bind fun a ha => ?_
  refine (feSub_wide h2.Y fits2).bind fun t ht => ?_
  refine (feMul_wide ha ht).bind fun a ha => ?_
  refine (feAdd_wide h1.Y h1.X).bind fun b hb => ?_
  refine (feAdd_wide h2.Y h2.X).bind fun t ht => ?_
  refine (feMul_wide hb ht).bind fun b hb => ?_
  refine (feMul_spec ⟨h1.T, rfl⟩ ⟨h2.T, rfl⟩).bind fun c hc => ?_
  refine (feMul_spec hc.looseAt hd2).bind fun c hc => ?_
  refine (feMul_spec ⟨h1.Z, rfl⟩ ⟨h2.Z, rfl⟩).bind fun D hD => ?_
  refine (feAdd_spec hD hD).bind fun D hD => ?_
  refine (feSub_spec hb ha).bind fun e he => ?_
  -- `D` is no longer tight, so the next two are wide
  refine (feSub_wide hD.loose fun i hi => ?_).bind fun f hf => ?_
  · have := hc.tight i hi
    have := (twop_spec.1 i hi).1
    omega
  refine (feAdd_wide hD.loose hc.tight.loose).bind fun g hg => ?_
  refine (feAdd_spec hb ha).bind fun h hh => ?_
  rw [hD.eq, hc.eq] at hf hg
  refine (feMul_wide he.wideAt hf).bind fun X hX => ?_
  refine (feMul_wide hg hh.wideAt).bind fun Y hY => ?_
  refine (feMul_spec he hh).bind fun T hT => ?_
  refine (feMul_wide hf hg).map fun Z hZ => ⟨⟨hX.tight, hY.tight, hZ.tight, hT.tight⟩, ?_⟩
  simp only [Ge.toExt, hX.eq, hY.eq, hZ.eq, hT.eq]
  rfl

/-- **Addition of points.** -/
theorem geAdd_spec (h1 : p1.Loose) (h2 : p2.Loose) (fits1 : p1.SubFits) (fits2 : p2.SubFits)
    (hP1 : Represents p1 P1) (hP2 : Represents p2 P2) :
    Returns (geAdd p1 p2) fun r => r.Tight ∧ Represents r (Edwards.add d P1 P2) := by
  refine (geAdd_toExt h1 h2 fits1 fits2).mono fun r ⟨hr, hext⟩ => ⟨hr, ?_⟩
  refine ⟨hP1.onCurve.add complete_d hP2.onCurve, ?_⟩
  rw [hext]
  exact hP1.rep.add complete_d hP1.onCurve hP2.onCurve hP2.rep

theorem subFits_of_geAdd_ok (h : (geAdd p1 p2).ok = true) : p1.SubFits ∧ p2.SubFits := by
  obtain ⟨-, hrest⟩ := ok_bind.1 h
  obtain ⟨ha, hrest⟩ := ok_bind.1 hrest
  obtain ⟨ht, -⟩ := ok_bind.1 hrest
  exact ⟨le_of_feSub_ok ha, le_of_feSub_ok ht⟩

/-! ## Scalar multiplication -/

theorem feCmov_eq (hf : X25519.Loose f) (hg : X25519.Loose g) (b : Bool) :
    feCmov f g b.toNat = if b then g else f := by
  cases b with
  | false =>
    refine Vector.ext fun i hi => ?_
    simp [feCmov]
  | true =>
    refine Vector.ext fun i hi => ?_
    have hmask : (2 ^ 64 - 1) &&& (f[i] ^^^ g[i]) = f[i] ^^^ g[i] :=
      Limbs.ones_land_xor (hf.getElem_lt hi) (hg.getElem_lt hi)
    simp [feCmov] at hmask ⊢
    rw [hmask, ← Nat.xor_assoc, Nat.xor_self, Nat.zero_xor]

theorem geCmov_eq {q t : Ge} (hq : q.Tight) (ht : t.Tight) (b : Bool) :
    geCmov q t b.toNat = if b then t else q := by
  have hq := hq.loose
  have ht := ht.loose
  rw [geCmov, feCmov_eq hq.X ht.X, feCmov_eq hq.Y ht.Y, feCmov_eq hq.Z ht.Z, feCmov_eq hq.T ht.T]
  cases b <;> rfl

/-- **The loop** follows double-and-add. -/
theorem geScalarmultLoop_spec {scalar : Vector UInt8 32} {p q : Ge} {P Q : F × F}
    (hp : p.Loose) (fits : p.SubFits) (hP : Represents p P) (hq : q.Tight) (hQ : Represents q Q)
    (i : ℕ) : Returns (geScalarmultLoop scalar p i q) fun r => r.Tight ∧
      Represents r (Edwards.mulLoop d (Limbs.readLe scalar.toList) P i Q) := by
  induction i generalizing q Q with
  | zero => exact returns_pure ⟨hq, hQ⟩
  | succ i ih =>
    refine (geAdd_spec hq.loose hq.loose hq.subFits hq.subFits hQ hQ).bind fun q' ⟨hq', hQ'⟩ => ?_
    refine (geAdd_spec hq'.loose hp hq'.subFits fits hQ' hP).bind fun t ⟨ht, hT⟩ => ?_
    have hbit : scalarBit scalar i = ((Limbs.readLe scalar.toList).testBit i).toNat :=
      Limbs.bit_readLe _ i
    rw [hbit, geCmov_eq hq' ht]
    apply ih
    · split
      · exact ht
      · exact hq'
    · split
      · exact hT
      · exact hQ'

/-! ## The base point -/

/-- The base point of RFC 8032 5.1. -/
def base : F × F := (toF (feFrombytes baseXBytes), toF (feFrombytes baseYBytes))

theorem onCurve_base : Edwards.OnCurve d base := by
  have hcurve : ((121666 * value (feFrombytes baseYBytes) ^ 2 +
      121665 * (value (feFrombytes baseXBytes) * value (feFrombytes baseYBytes)) ^ 2 : ℕ) : F) =
      (121666 + 121666 * value (feFrombytes baseXBytes) ^ 2 : ℕ) :=
    (ZMod.natCast_eq_natCast_iff _ _ _).2 (by decide)
  have hne : ((121666 : ℕ) : F) ≠ 0 := cast_ne_zero (by decide)
  push_cast at hcurve hne
  simp only [Edwards.OnCurve, base, toF, d]
  field_simp
  linear_combination hcurve

/-- **The base point** is one of the curve. -/
theorem geBase_spec : Returns geBase fun p => p.Tight ∧ Represents p base := by
  have hX := (feFrombytes_value baseXBytes).1.tight
  have hY := (feFrombytes_value baseYBytes).1.tight
  refine (feMul_spec ⟨hX.loose, rfl⟩ ⟨hY.loose, rfl⟩).map fun T hT => ?_
  refine ⟨⟨hX, hY, tightAt_one.tight, hT.tight⟩, onCurve_base, ?_⟩
  have hone : toF fe1 = 1 := tightAt_one.eq
  simp only [Ge.toExt, hT.eq, hone]
  exact ⟨one_ne_zero, (mul_one _).symm, (mul_one _).symm, (mul_one _).symm⟩

/-! ## The two operations -/

/-- **Addition and scalar multiplication.** For points with limbs below 53 bits the addition is
exact if and only if no limb of `X` exceeds that of `Y` by more than twice the prime has there, and
then it returns coordinates of the sum; for such a point and every scalar the multiplication is
exact and returns coordinates of what double-and-add gives. The neutral element and equal operands
are points like any other. -/
theorem geAdd_geScalarmult_exact :
    (∀ (p1 p2 : Ge) (P1 P2 : F × F), p1.Loose → p2.Loose → Represents p1 P1 → Represents p2 P2 →
      ((geAdd p1 p2).ok = true ↔ p1.SubFits ∧ p2.SubFits) ∧
      (p1.SubFits ∧ p2.SubFits →
        (geAdd p1 p2).val.Tight ∧ Represents (geAdd p1 p2).val (Edwards.add d P1 P2))) ∧
    (∀ (scalar : Vector UInt8 32) (p : Ge) (P : F × F), p.Loose → p.SubFits → Represents p P →
      (geScalarmult scalar p).ok = true ∧
        Represents (geScalarmult scalar p).val
          (Edwards.mul d 256 (Limbs.readLe scalar.toList) P)) := by
  constructor
  · intro p1 p2 P1 P2 h1 h2 hP1 hP2
    refine ⟨⟨subFits_of_geAdd_ok, ?_⟩, ?_⟩
    · rintro ⟨fits1, fits2⟩
      exact (geAdd_spec h1 h2 fits1 fits2 hP1 hP2).1
    · rintro ⟨fits1, fits2⟩
      exact (geAdd_spec h1 h2 fits1 fits2 hP1 hP2).2
  · intro scalar p P hp fits hP
    obtain ⟨hzero, hneutral⟩ := represents_geZero
    have hloop : Returns (geScalarmultLoop scalar p 256 geZero) _ :=
      geScalarmultLoop_spec hp fits hP hzero hneutral 256
    exact ⟨hloop.1, hloop.2.2⟩

theorem geAdd_geScalarmult_base :
    (geAdd geBase.val geBase.val).ok = true ∧
      Represents (geAdd geBase.val geBase.val).val (Edwards.add d base base) ∧
      (geScalarmult (Vector.replicate 32 0xff) geBase.val).ok = true ∧
      Represents (geScalarmult (Vector.replicate 32 0xff) geBase.val).val
        (Edwards.mul d 256 (Limbs.readLe (Vector.replicate 32 0xff).toList) base) := by
  obtain ⟨-, htight, hbase⟩ := geBase_spec
  have hfits := htight.subFits
  obtain ⟨hadd, hmul⟩ := geAdd_geScalarmult_exact
  obtain ⟨hok, hsum⟩ := hadd _ _ _ _ htight.loose htight.loose hbase hbase
  exact ⟨hok.2 ⟨hfits, hfits⟩, (hsum ⟨hfits, hfits⟩).2, hmul _ _ _ htight.loose hfits hbase⟩

/-- The prime as a string. -/
def primeBytes : Vector UInt8 32 := Bytes.fit 32 (0xed :: (List.replicate 30 0xff ++ [0x7f]))

/-- The neutral element with three times the prime for its zero. -/
def tripleZero : Ge := { geZero with X := (feSub (feFrombytes primeBytes) fe0).val }

/-- A difference of field elements may be too large for the margin of the next one: the prime less
zero, as `X` of the neutral element, makes the addition wrap and return another point. -/
theorem geAdd_tripleZero_wraps :
    (feSub (feFrombytes primeBytes) fe0).ok = true ∧ tripleZero.Loose ∧
      Represents tripleZero (0, 1) ∧ (geAdd tripleZero geZero).ok = false ∧
      ¬ Represents (geAdd tripleZero geZero).val (Edwards.add d (0, 1) (0, 1)) := by
  obtain ⟨htight, hzero⟩ := represents_geZero
  have hX : toF tripleZero.X = toF fe0 := by
    rw [tightAt_zero.eq]
    exact cast_eq_zero (by decide)
  refine ⟨by decide, ⟨?_, htight.loose.Y, htight.loose.Z, htight.loose.T⟩,
    ⟨hzero.onCurve, ?_⟩, by decide, fun h => ?_⟩
  · unfold X25519.Loose
    decide
  · have hext : tripleZero.toExt = geZero.toExt := by
      rw [Ge.toExt, hX]
      rfl
    rw [hext]
    exact hzero.rep
  · have hsum := h.rep.X
    rw [Edwards.add, zero_mul, zero_mul, add_zero, zero_div, zero_mul] at hsum
    exact cast_ne_zero (by decide) hsum

end Ed25519

end Crypto

end QuicVibe
