import QuicVibe.Crypto.P256.Modular
/-!
# Montgomery arithmetic

The product without division of `quic_mont_mul` (CIOS): four rounds, each of which adds a row of
the product, adds the multiple of the modulus that clears the lowest word and drops that word.
-/

namespace QuicVibe

namespace Crypto

namespace P256

open Words

/-! ## The code -/

/-- `quic_mont`: a modulus and the constants for it. -/
structure Mont where
  m : Fe
  rr : Fe
  one : Fe
  n0inv : UInt64

def p256MontP : Mont where
  m := p256P
  rr := #v[0x0000000000000003, 0xfffffffbffffffff, 0xfffffffffffffffe, 0x00000004fffffffd]
  one := #v[0x0000000000000001, 0xffffffff00000000, 0xffffffffffffffff, 0x00000000fffffffe]
  n0inv := 0x0000000000000001

def p256MontN : Mont where
  m := p256N
  rr := #v[0x83244c95be79eea2, 0x4699799c49bd6fa6, 0x2845b2392b6bec59, 0x66e12d94f3d95620]
  one := #v[0x0c46353d039cdaaf, 0x4319055258e8617b, 0x0000000000000000, 0x00000000ffffffff]
  n0inv := 0xccd1c8aaee00bc4f

/-- The running value: five words in use and one for a carry. -/
abbrev Acc := Vector UInt64 6

def ciosMulRow (t : Acc) (ai : ℕ) (b : Fe) : Acc :=
  let r := mulAdd t ai (limb b) 0 4
  let c := (r.2 + limb r.1 4) % 2 ^ 128
  (r.1.setIfInBounds 4 (UInt64.ofNat c)).setIfInBounds 5 (UInt64.ofNat (c >>> 64))

/-- The loop body of `cios_reduce_row`, for the word after `j`. -/
def ciosReduceStep (u : ℕ) (m : Fe) (s : Acc × ℕ) (j : ℕ) : Acc × ℕ :=
  let c := (s.2 + (u * limb m (j + 1) + limb s.1 (j + 1))) % 2 ^ 128
  (s.1.setIfInBounds j (UInt64.ofNat c), c >>> 64)

def ciosReduceRow (t : Acc) (mont : Mont) : Acc :=
  let u := limb t 0 * mont.n0inv.toNat % 2 ^ 64
  let c := (u * limb mont.m 0 + limb t 0) % 2 ^ 128
  let r := forUp (ciosReduceStep u mont.m) (t, c >>> 64) 3
  let c := (r.2 + limb r.1 4) % 2 ^ 128
  let t := r.1.setIfInBounds 3 (UInt64.ofNat c)
  let t := t.setIfInBounds 4 (UInt64.ofNat (limb t 5 + (c >>> 64)))
  t.setIfInBounds 5 0

/-- The low four words. -/
def lowWords (t : Acc) : Fe := Vector.ofFn fun i : Fin 4 => t[i]

def montNeedsSub (t : Acc) (m : Fe) : Bool := limb t 4 != 0 || feGe (lowWords t) m

def montFinalize (t : Acc) (m : Fe) : Fe :=
  if montNeedsSub t m then feSubRaw (lowWords t) m else lowWords t

/-- One round of `quic_mont_mul`. -/
def montRound (a b : Fe) (mont : Mont) (t : Acc) (i : ℕ) : Acc :=
  ciosReduceRow (ciosMulRow t (limb a i) b) mont

def montMul (a b : Fe) (mont : Mont) : Fe :=
  montFinalize (forUp (montRound a b mont) (Vector.replicate 6 0) 4) mont.m

def montFrom (a : Fe) (mont : Mont) : Fe := montMul a feOne mont

def montInv (a : Fe) (mont : Mont) : Fe :=
  let e := feSubRaw mont.m feTwo
  let base := montMul a mont.rr mont
  let acc := powLoop (fun a b => montMul a b mont) e mont.one base
  montFrom acc mont

/-! ## One round -/

variable {t : Acc} {mont : Mont}

theorem val_ciosMulRow {ai : ℕ} (b : Fe) (hai : ai < 2 ^ 64) (ht : limb t 5 = 0) :
    val (ciosMulRow t ai b) = val t + ai * val b := by
  have hrow := mulAdd_spec t hai (fun j _ => limb_lt b j) (show 0 + 4 ≤ 6 by decide)
  have h4 := hrow.above 4 le_rfl
  have hcarry := hrow.carry
  have ht4 := limb_lt t 4
  have hval := hrow.value
  rw [ciosMulRow]
  generalize mulAdd t ai (limb b) 0 4 = r at h4 hcarry hval
  have hfits : r.2 + limb t 4 < 2 ^ 128 := by omega
  simp only [h4, Nat.mod_eq_of_lt hfits, Nat.shiftRight_eq_div_pow]
  generalize hc : r.2 + limb t 4 = c at hfits
  have hc4 : (UInt64.ofNat c).toNat = c % 2 ^ 64 := UInt64.toNat_ofNat'
  have hc5 : (UInt64.ofNat (c / 2 ^ 64)).toNat = c / 2 ^ 64 := by
    rw [UInt64.toNat_ofNat', Nat.mod_eq_of_lt (by omega)]
  have hnew : val ((r.1.setIfInBounds 4 (UInt64.ofNat c)).setIfInBounds 5
      (UInt64.ofNat (c / 2 ^ 64))) =
        low (2 ^ 64) (limb r.1) 4 + c % 2 ^ 64 * (2 ^ 64) ^ 4 + c / 2 ^ 64 * (2 ^ 64) ^ 5 := by
    rw [val, low_succ, low_succ, low_limb_set _ _ (by decide), low_limb_set _ _ le_rfl,
      limb_set_self _ _ (by decide), limb_set_ne _ _ (by decide), limb_set_self _ _ (by decide),
      hc4, hc5]
  have hold : val t = low (2 ^ 64) (limb t) 4 + limb t 4 * (2 ^ 64) ^ 4 := by
    rw [val, low_succ, low_succ, ht, Nat.zero_mul, Nat.add_zero]
  have hb : low (2 ^ 64) (limb b) 4 = val b := rfl
  rw [hnew, hold]
  simp only [Nat.zero_add, pow_zero, Nat.one_mul, hb] at hval
  have hsplit := Nat.mod_add_div c (2 ^ 64)
  omega

/-- What the second half of a round has done after `j` words: they are those of the sum, moved one
place down. -/
structure ReduceInv (t : Acc) (u : ℕ) (m : Fe) (j : ℕ) (s : Acc × ℕ) : Prop where
  carry : s.2 < 2 ^ 64
  above : ∀ k, j ≤ k → limb s.1 k = limb t k
  value : 2 ^ 64 * low (2 ^ 64) (limb s.1) j + (2 ^ 64) ^ (j + 1) * s.2 =
    low (2 ^ 64) (limb t) (j + 1) + u * low (2 ^ 64) (limb m) (j + 1)

theorem ReduceInv.step {u : ℕ} {m : Fe} {j : ℕ} {s : Acc × ℕ} (h : ReduceInv t u m j s)
    (hu : u < 2 ^ 64) (hj : j < 3) : ReduceInv t u m (j + 1) (ciosReduceStep u m s j) := by
  have hm := limb_lt m (j + 1)
  have ht := limb_lt t (j + 1)
  have hc := h.carry
  have hprod : u * limb m (j + 1) ≤ (2 ^ 64 - 1) * (2 ^ 64 - 1) :=
    Nat.mul_le_mul (Nat.le_sub_one_of_lt hu) (Nat.le_sub_one_of_lt hm)
  have hread := h.above (j + 1) (Nat.le_succ j)
  have hfits : s.2 + (u * limb m (j + 1) + limb t (j + 1)) < 2 ^ 128 := by omega
  rw [ciosReduceStep]
  simp only [hread, Nat.mod_eq_of_lt hfits, Nat.shiftRight_eq_div_pow]
  generalize hsum : s.2 + (u * limb m (j + 1) + limb t (j + 1)) = c at hfits
  have hword : (UInt64.ofNat c).toNat = c % 2 ^ 64 := UInt64.toNat_ofNat'
  refine ⟨by dsimp only; omega, fun k hk => ?_, ?_⟩
  · rw [limb_set_ne _ _ (by omega)]
    exact h.above k (by omega)
  · have hval := h.value
    have hsplit := congrArg (· * (2 ^ 64) ^ (j + 1)) (Nat.mod_add_div c (2 ^ 64))
    rw [low_succ, low_limb_set _ _ le_rfl, limb_set_self _ _ (by omega), hword,
      low_succ _ _ (j + 1), low_succ _ _ (j + 1)]
    simp only [← hsum, pow_succ] at hsplit hval ⊢
    linarith

theorem low_word_clear (t₀ : ℕ) {m₀ k : ℕ} (hk : m₀ * k % 2 ^ 64 = 2 ^ 64 - 1) :
    (t₀ * k % 2 ^ 64 * m₀ + t₀) % 2 ^ 64 = 0 := by
  have hmod : (t₀ * k % 2 ^ 64 * m₀ + t₀) % 2 ^ 64 = (t₀ * (m₀ * k % 2 ^ 64 + 1)) % 2 ^ 64 := by
    rw [Nat.mul_add, Nat.mul_one, Nat.add_mod, Nat.mod_mul_mod, Nat.add_mod (t₀ * _),
      Nat.mul_mod_mod, Nat.mul_right_comm, Nat.mul_assoc]
  rw [hmod, hk]
  omega

/-- The second half of a round adds a multiple of the modulus and drops the lowest word. -/
theorem val_ciosReduceRow (hk : limb mont.m 0 * mont.n0inv.toNat % 2 ^ 64 = 2 ^ 64 - 1)
    (ht : limb t 5 ≤ 1) :
    ∃ u < 2 ^ 64, 2 ^ 64 * val (ciosReduceRow t mont) = val t + u * val mont.m ∧
      limb (ciosReduceRow t mont) 5 = 0 := by
  have hclear := low_word_clear (limb t 0) hk
  have hu : limb t 0 * mont.n0inv.toNat % 2 ^ 64 < 2 ^ 64 := Nat.mod_lt _ (by decide)
  rw [ciosReduceRow]
  generalize limb t 0 * mont.n0inv.toNat % 2 ^ 64 = u at hclear hu
  refine ⟨u, hu, ?_⟩
  have hm0 := limb_lt mont.m 0
  have ht0 := limb_lt t 0
  have hprod : u * limb mont.m 0 ≤ (2 ^ 64 - 1) * (2 ^ 64 - 1) :=
    Nat.mul_le_mul (Nat.le_sub_one_of_lt hu) (Nat.le_sub_one_of_lt hm0)
  have hfits : u * limb mont.m 0 + limb t 0 < 2 ^ 128 := by omega
  have hstart : ReduceInv t u mont.m 0 (t, (u * limb mont.m 0 + limb t 0) / 2 ^ 64) := by
    refine ⟨by dsimp only; omega, fun _ _ => rfl, ?_⟩
    simp only [low_zero, low_succ, pow_zero, Nat.mul_one, Nat.mul_zero, Nat.zero_add, pow_one]
    omega
  have hloop : ReduceInv t u mont.m 3 (forUp (ciosReduceStep u mont.m)
      (t, (u * limb mont.m 0 + limb t 0) / 2 ^ 64) 3) :=
    forUp_induct (ReduceInv t u mont.m) hstart fun j hj s hs => hs.step hu hj
  simp only [Nat.mod_eq_of_lt hfits, Nat.shiftRight_eq_div_pow]
  generalize forUp (ciosReduceStep u mont.m) _ 3 = r at hloop
  have h4 := hloop.above 4 (by decide)
  have h5 := hloop.above 5 (by decide)
  have hcarry := hloop.carry
  have ht4 := limb_lt t 4
  have hval := hloop.value
  have hfits' : r.2 + limb t 4 < 2 ^ 128 := by omega
  rw [h4, limb_set_ne _ _ (by decide), h5, Nat.mod_eq_of_lt hfits']
  generalize hc : r.2 + limb t 4 = c at hfits'
  have hc3 : (UInt64.ofNat c).toNat = c % 2 ^ 64 := UInt64.toNat_ofNat'
  have hc4 : (UInt64.ofNat (limb t 5 + c / 2 ^ 64)).toNat = limb t 5 + c / 2 ^ 64 := by
    rw [UInt64.toNat_ofNat', Nat.mod_eq_of_lt (by omega)]
  have hzero : (0 : UInt64).toNat = 0 := rfl
  have hnew : val (((r.1.setIfInBounds 3 (UInt64.ofNat c)).setIfInBounds 4
      (UInt64.ofNat (limb t 5 + c / 2 ^ 64))).setIfInBounds 5 0) =
        low (2 ^ 64) (limb r.1) 3 + c % 2 ^ 64 * (2 ^ 64) ^ 3 +
          (limb t 5 + c / 2 ^ 64) * (2 ^ 64) ^ 4 := by
    rw [val, low_succ, low_succ, low_succ, low_limb_set _ _ (by decide), low_limb_set _ _ (by decide),
      low_limb_set _ _ le_rfl, limb_set_self _ _ (by decide), limb_set_ne _ _ (by decide),
      limb_set_ne _ _ (by decide), limb_set_self _ _ (by decide), limb_set_ne _ _ (by decide),
      limb_set_self _ _ (by decide), hc3, hc4, hzero, Nat.zero_mul, Nat.add_zero]
  have hold : val t = low (2 ^ 64) (limb t) 4 + limb t 4 * (2 ^ 64) ^ 4 +
      limb t 5 * (2 ^ 64) ^ 5 := by
    rw [val, low_succ, low_succ]
  have hmod : low (2 ^ 64) (limb mont.m) 4 = val mont.m := rfl
  refine ⟨?_, by rw [limb_set_self _ _ (by decide), hzero]⟩
  rw [hnew, hold, ← hmod]
  have hsplit := Nat.mod_add_div c (2 ^ 64)
  simp only [Nat.reduceAdd] at hval
  omega

/-! ## The product -/

/-- The radix of the Montgomery form. -/
def montRadix : ℕ := 2 ^ 256

/-- What the rounds need of a context. -/
structure Mont.Valid (mont : Mont) (q : ℕ) : Prop where
  modulus : val mont.m = q
  inverse : limb mont.m 0 * mont.n0inv.toNat % 2 ^ 64 = 2 ^ 64 - 1
  rr_eq : val mont.rr = montRadix * montRadix % q
  one_eq : val mont.one = montRadix % q

theorem p256MontP_valid : p256MontP.Valid p where
  modulus := by decide
  inverse := by decide
  rr_eq := by decide
  one_eq := by decide

theorem p256MontN_valid : p256MontN.Valid n where
  modulus := by decide
  inverse := by decide
  rr_eq := by decide
  one_eq := by decide

/-- The running value after `i` rounds. -/
structure RoundInv (a b : Fe) (q i : ℕ) (t : Acc) : Prop where
  bound : val t < 2 * q
  free : limb t 5 = 0
  value : ∃ u, (2 ^ 64) ^ i * val t = low (2 ^ 64) (limb a) i * val b + u * q

variable {q : ℕ} {a b : Fe}

/-- **One round.** -/
theorem RoundInv.step (hv : mont.Valid q) (hb : val b < q) {i : ℕ} (h : RoundInv a b q i t) :
    RoundInv a b q (i + 1) (montRound a b mont t i) := by
  have ha := limb_lt a i
  have hq : q < 2 ^ 256 := hv.modulus ▸ val_lt_two_pow mont.m
  have hrow := val_ciosMulRow b ha h.free
  have hprod : limb a i * val b ≤ (2 ^ 64 - 1) * (q - 1) :=
    Nat.mul_le_mul (Nat.le_sub_one_of_lt ha) (Nat.le_sub_one_of_lt hb)
  -- the row leaves at most a bit in the word of the carry
  have hcarry : limb (ciosMulRow t (limb a i) b) 5 ≤ 1 := by
    have hlt : val (ciosMulRow t (limb a i) b) < (2 ^ 64) ^ 5 * 2 := by
      have := h.bound
      omega
    rw [← val_div_mod _ (by decide)]
    exact (Nat.mod_le _ _).trans (Nat.le_of_lt_succ (Nat.div_lt_of_lt_mul hlt))
  obtain ⟨u, hu, hval, hfree⟩ := val_ciosReduceRow hv.inverse hcarry
  rw [hv.modulus, hrow] at hval
  rw [← montRound] at hval hfree
  have hmult : u * q ≤ (2 ^ 64 - 1) * q := Nat.mul_le_mul_right q (Nat.le_sub_one_of_lt hu)
  refine ⟨?_, hfree, ?_⟩
  · have := h.bound
    omega
  · obtain ⟨v, hv⟩ := h.value
    refine ⟨v + (2 ^ 64) ^ i * u, ?_⟩
    calc (2 ^ 64) ^ (i + 1) * val (montRound a b mont t i)
        = (2 ^ 64) ^ i * (2 ^ 64 * val (montRound a b mont t i)) := by ring
      _ = (2 ^ 64) ^ i * val t + limb a i * (2 ^ 64) ^ i * val b + (2 ^ 64) ^ i * u * q := by
        rw [hval]
        ring
      _ = low (2 ^ 64) (limb a) (i + 1) * val b + (v + (2 ^ 64) ^ i * u) * q := by
        rw [hv, low_succ]
        ring

theorem val_lowWords (t : Acc) : val (lowWords t) = low (2 ^ 64) (limb t) 4 := by
  refine low_congr fun i hi => ?_
  rw [limb, limb, dig_of_lt hi, dig_of_lt (by omega), lowWords, Vector.getElem_ofFn]
  rfl

theorem val_montFinalize (hv : mont.Valid q) (ht : val t < 2 * q) (h5 : limb t 5 = 0) :
    val (montFinalize t mont.m) = if q ≤ val t then val t - q else val t := by
  have hq : q < 2 ^ 256 := hv.modulus ▸ val_lt_two_pow mont.m
  have hlow := val_lowWords t
  have hsplit : val t = val (lowWords t) + limb t 4 * (2 ^ 64) ^ 4 := by
    rw [hlow, val, low_succ, low_succ, h5, Nat.zero_mul, Nat.add_zero]
  have hlt := val_lt_two_pow (lowWords t)
  obtain ⟨br, hbr, hsub⟩ := feSubRaw_balance (lowWords t) mont.m
  have hres := val_lt_two_pow (feSubRaw (lowWords t) mont.m)
  rw [hv.modulus] at hsub
  simp only [montFinalize, montNeedsSub, Bool.or_eq_true, bne_iff_ne, feGe_iff, hv.modulus]
  by_cases hge : q ≤ val t
  · have hneed : limb t 4 ≠ 0 ∨ q ≤ val (lowWords t) := by omega
    rw [if_pos hneed, if_pos hge]
    omega
  · have hneed : ¬ (limb t 4 ≠ 0 ∨ q ≤ val (lowWords t)) := by omega
    rw [if_neg hneed, if_neg hge]
    omega

/-- **The Montgomery product**, in numbers. -/
theorem montMul_spec (hv : mont.Valid q) (a : Fe) (hb : val b < q) :
    val (montMul a b mont) < q ∧ montRadix * val (montMul a b mont) ≡ val a * val b [MOD q] := by
  have hstart : RoundInv a b q 0 (Vector.replicate 6 0) := by
    refine ⟨?_, by decide, 0, ?_⟩
    · rw [show val (Vector.replicate 6 0 : Acc) = 0 by decide]
      omega
    · rw [low_zero, show val (Vector.replicate 6 0 : Acc) = 0 by decide]
      simp
  have hloop := forUp_induct (RoundInv a b q) (n := 4) hstart fun i _ t ht => ht.step hv hb
  rw [montMul]
  generalize forUp (montRound a b mont) (Vector.replicate 6 0) 4 = t at hloop
  obtain ⟨u, hu⟩ := hloop.value
  have hmod : montRadix * val t ≡ val a * val b [MOD q] := by
    rw [← pow_mul] at hu
    rw [Nat.ModEq, montRadix, hu, Nat.add_mul_mod_self_right]
    rfl
  rw [val_montFinalize hv hloop.bound hloop.free]
  have hbound := hloop.bound
  split
  · rename_i hge
    refine ⟨by omega, (Nat.ModEq.mul_left _ ?_).trans hmod⟩
    exact (Nat.modEq_iff_dvd' (Nat.sub_le _ _)).2 ⟨1, by omega⟩
  · exact ⟨by omega, hmod⟩

/-! ## The inverse -/

section

variable [Fact q.Prime]

theorem montRadix_ne_zero (hq : 2 < q) : (montRadix : ZMod q) ≠ 0 := by
  intro hzero
  have hdvd : q ∣ 2 := (Fact.out : q.Prime).dvd_of_dvd_pow ((ZMod.natCast_eq_zero_iff _ q).1 hzero)
  have := Nat.le_of_dvd (by decide) hdvd
  omega

/-- **The Montgomery product**, in the field. -/
theorem cast_montMul (hv : mont.Valid q) (hq : 2 < q) (a : Fe) (hb : val b < q) :
    (val (montMul a b mont) : ZMod q) = val a * val b * (montRadix : ZMod q)⁻¹ := by
  have hmod := (ZMod.natCast_eq_natCast_iff _ _ _).2 (montMul_spec hv a hb).2
  rw [Nat.cast_mul, Nat.cast_mul] at hmod
  rw [← hmod, mul_comm, inv_mul_cancel_left₀ (montRadix_ne_zero hq)]

/-- The words are the Montgomery form of `x`. -/
def MontForm (a : Fe) (x : ZMod q) : Prop := Holds a (x * (montRadix : ZMod q))

theorem MontForm.mul (hv : mont.Valid q) (hq : 2 < q) {x y : ZMod q} (ha : MontForm a x)
    (hb : MontForm b y) : MontForm (montMul a b mont) (x * y) := by
  refine holds_of_lt (montMul_spec hv a hb.lt).1 ?_
  rw [cast_montMul hv hq a hb.lt, ha.cast, hb.cast]
  field_simp [montRadix_ne_zero hq]

/-- **The inverse** by powers in Montgomery form. -/
theorem Holds.montInv (hv : mont.Valid q) (hq : 2 < q) {x : ZMod q} (ha : Holds a x) :
    Holds (montInv a mont) x⁻¹ := by
  have hR := montRadix_ne_zero hq
  have hrr : Holds mont.rr (montRadix * montRadix : ZMod q) :=
    (holds_of_mod hv.rr_eq).of_eq (Nat.cast_mul _ _)
  have hone : MontForm mont.one (1 : ZMod q) :=
    (holds_of_mod hv.one_eq).of_eq (one_mul _).symm
  have hbase : MontForm (montMul a mont.rr mont) x := by
    refine holds_of_lt (montMul_spec hv a hrr.lt).1 ?_
    rw [cast_montMul hv hq a hrr.lt, ha.cast, hrr.cast]
    field_simp
  have hexp : val (feSubRaw mont.m feTwo) = q - 2 := by
    rw [val_sub_two (by rw [hv.modulus]; omega), hv.modulus]
  have hpow := powLoop_rel (fun ha hb => MontForm.mul hv hq ha hb) (feSubRaw mont.m feTwo) hone hbase
  rw [hexp, pow_sub_two hq] at hpow
  have hfeOne : Holds feOne (1 : ZMod q) := holds_feOne
  rw [P256.montInv, montFrom]
  refine holds_of_lt (montMul_spec hv _ hfeOne.lt).1 ?_
  rw [cast_montMul hv hq _ hfeOne.lt, hpow.cast, hfeOne.cast, mul_one, mul_inv_cancel_right₀ hR]

/-- The context is one for the modulus `q`, products of reduced numbers are reduced and carry the
inverse of the radix, and inverses are inverses, as those over long division are. -/
def Mont.Correct (mont : Mont) (q : ℕ) [Fact q.Prime] : Prop :=
  val mont.m = q ∧
    (∀ a b : Fe, val a < q → val b < q → val (montMul a b mont) < q ∧
      (val (montMul a b mont) : ZMod q) = val a * val b * (montRadix : ZMod q)⁻¹) ∧
    ∀ a : Fe, 0 < val a → val a < q →
      val a * val (montInv a mont) % q = 1 ∧ montInv a mont = fpInv a mont.m

theorem Mont.Valid.correct (hv : mont.Valid q) (hq : 2 < q) : mont.Correct q := by
  refine ⟨hv.modulus, fun a b _ hb => ⟨(montMul_spec hv a hb).1, cast_montMul hv hq a hb⟩,
    fun a hpos hlt => ?_⟩
  have ha : Holds a (val a : ZMod q) := holds_of_lt hlt rfl
  have hinv := ha.montInv hv hq
  refine ⟨?_, (hinv.inj (ha.inv hv.modulus hq)).2 rfl⟩
  have hne : (val a : ZMod q) ≠ 0 := fun hzero =>
    absurd (Nat.le_of_dvd hpos ((ZMod.natCast_eq_zero_iff _ _).1 hzero)) (by omega)
  have hone : ((val a * val (P256.montInv a mont) : ℕ) : ZMod q) = ((1 : ℕ) : ZMod q) := by
    rw [Nat.cast_mul, hinv.cast, mul_inv_cancel₀ hne, Nat.cast_one]
  have hmod := (ZMod.natCast_eq_natCast_iff' _ _ _).1 hone
  rwa [Nat.mod_eq_of_lt (show 1 < q by omega)] at hmod

end

/-- **Montgomery arithmetic is right in both contexts.** -/
theorem montgomery_correct : p256MontP.Correct p ∧ p256MontN.Correct n :=
  ⟨p256MontP_valid.correct (by decide), p256MontN_valid.correct (by decide)⟩

/-- A product and an inverse modulo the order. -/
theorem montgomery_correct_sample :
    val (montMul feTwo feTwo p256MontN) < n ∧ 2 * val (montInv feTwo p256MontN) % n = 1 := by
  obtain ⟨-, hmul, hinv⟩ := montgomery_correct.2
  have htwo : val feTwo = 2 := val_feTwo
  have hlt : val feTwo < n := by
    rw [htwo]
    decide
  refine ⟨(hmul feTwo feTwo hlt hlt).1, ?_⟩
  have hone := (hinv feTwo (by omega) hlt).1
  rwa [htwo] at hone

end P256

end Crypto

end QuicVibe
