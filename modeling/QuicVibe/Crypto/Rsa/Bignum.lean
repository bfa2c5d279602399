import QuicVibe.Common.Words
/-!
# Numbers of many words

The functions of `bignum.c` and `modexp.c`. A product modulo `m` is computed by doubling and adding,
each followed by at most one subtraction; a power goes through the exponent from its highest bit
down. The only case it misses is the modulus `1` with the exponent `0`.
-/

namespace QuicVibe

namespace Crypto

namespace Rsa

open Words Limbs

/-- `quic_bn`: words, least significant first. `L` is `QUIC_L`. -/
abbrev Bn (L : ℕ) := Vector UInt64 L

variable {L : ℕ}

/-! ## Bytes -/

def bnZero : Bn L := Vector.replicate L 0

/-- The body of `quic_bn_from_be`: byte `i` from the end goes into its word. -/
def fromBeStep (be : Bytes) (out : Bn L) (i : ℕ) : Bn L :=
  let pos := be.length - 1 - i
  out.setIfInBounds (i >>> 3)
    (UInt64.ofNat (limb out (i >>> 3) ||| (be.getD pos 0).toNat <<< ((i &&& 7) * 8)))

def bnFromBe (be : Bytes) : Bn L := forUp (fromBeStep be) bnZero be.length

def bnToBe (a : Bn L) (len : ℕ) : Bytes :=
  (List.range len).map fun i =>
    let fromLsb := len - 1 - i
    UInt8.ofNat (limb a (fromLsb >>> 3) >>> ((fromLsb &&& 7) * 8))

theorem val_bnZero : val (bnZero : Bn L) = 0 := by
  refine (low_eq_zero_iff (by decide)).2 fun i hi => ?_
  rw [limb, dig_of_lt hi, bnZero, Vector.getElem_replicate]
  rfl

theorem land_seven (i : ℕ) : i &&& 7 = i % 8 := Nat.and_two_pow_sub_one_eq_mod i 3

variable {be : Bytes} {a b r m mod : Bn L}

theorem val_fromBeStep {out : Bn L} {i : ℕ} (hi : i < 8 * L) (hout : val out < 256 ^ i) :
    val (fromBeStep be out i) = val out + (be.getD (be.length - 1 - i) 0).toNat * 256 ^ i := by
  have hb := (be.getD (be.length - 1 - i) 0).toNat_lt
  have hword : i / 8 < L := by omega
  -- the word holds the bytes below this one and nothing above them
  have hsplit : 256 ^ i = (2 ^ 64) ^ (i / 8) * 2 ^ (i % 8 * 8) := by
    rw [show 256 = 2 ^ 8 from rfl, ← pow_mul, ← pow_mul, ← pow_add]
    congr 1
    omega
  have hlimb : limb out (i / 8) < 2 ^ (i % 8 * 8) := by
    rw [← val_div_mod out hword]
    refine (Nat.mod_le _ _).trans_lt ?_
    rw [Nat.div_lt_iff_lt_mul (Nat.pow_pos (by decide)), Nat.mul_comm, ← hsplit]
    exact hout
  have hpow : 2 ^ (i % 8 * 8) ≤ 2 ^ 56 := Nat.pow_le_pow_right (by decide) (by omega)
  have hfits : limb out (i / 8) + 2 ^ (i % 8 * 8) * (be.getD (be.length - 1 - i) 0).toNat <
      2 ^ 64 := by
    have hmul : 2 ^ (i % 8 * 8) * (be.getD (be.length - 1 - i) 0).toNat ≤ 2 ^ (i % 8 * 8) * 255 :=
      Nat.mul_le_mul_left _ (by omega)
    omega
  have hset := val_set out hword (UInt64.ofNat (limb out (i / 8) +
    2 ^ (i % 8 * 8) * (be.getD (be.length - 1 - i) 0).toNat))
  rw [UInt64.toNat_ofNat_of_lt' hfits] at hset
  rw [fromBeStep, show i >>> 3 = i / 8 from Nat.shiftRight_eq_div_pow i 3, land_seven,
    lor_shiftLeft_eq_add _ hlimb, hsplit]
  linarith

/-- **Reading** a string that fits. -/
theorem val_bnFromBe (hlen : be.length ≤ 8 * L) : val (bnFromBe be : Bn L) = readBe be := by
  rw [readBe_eq_low, bnFromBe]
  refine forUp_induct
    (fun i (out : Bn L) => val out = low 256 (fun i => (be.getD (be.length - 1 - i) 0).toNat) i) val_bnZero ?_
  intro i hi out hout
  have hlt : val out < 256 ^ i := by
    rw [hout]
    exact low_lt fun j _ => (be.getD (be.length - 1 - j) 0).toNat_lt
  rw [val_fromBeStep (by omega) hlt, hout, low_succ]

/-- **Writing.** -/
theorem bnToBe_eq (a : Bn L) (len : ℕ) : bnToBe a len = putBe len (val a) := by
  rw [putBe_eq_map, bnToBe]
  refine List.map_congr_left fun i _ => ?_
  dsimp only
  rw [land_seven, show (len - 1 - i) >>> 3 = (len - 1 - i) / 8 from Nat.shiftRight_eq_div_pow _ 3,
    ofNat_limb_shift]

/-! ## Comparison -/

def limbCmp (x y : ℕ) : ℤ := if x < y then -1 else if x > y then 1 else 0

/-- The loop of `quic_bn_cmp`, from the word below `k` down. -/
def cmpFrom (a b : Bn L) : ℕ → ℤ
  | 0 => 0
  | k + 1 =>
    let c := limbCmp (limb a k) (limb b k)
    if c ≠ 0 then c else cmpFrom a b k

def bnCmp (a b : Bn L) : ℤ := cmpFrom a b L

theorem cmpFrom_nonneg_iff (a b : Bn L) (k : ℕ) :
    0 ≤ cmpFrom a b k ↔ geFrom (limb a) (limb b) k = true := by
  induction k with
  | zero => simp [cmpFrom, geFrom]
  | succ k ih =>
    rw [cmpFrom, geFrom, limbCmp]
    rcases Nat.lt_trichotomy (limb a k) (limb b k) with hlt | heq | hgt
    · rw [if_pos hlt, if_pos (by decide), if_pos hlt.ne, decide_eq_true_eq]
      omega
    · rw [heq, if_neg (lt_irrefl _), if_neg (lt_irrefl _), if_neg (by simp), if_neg (by simp), ih]
    · rw [if_neg (Nat.not_lt.2 hgt.le), if_pos hgt, if_pos (by decide), if_pos hgt.ne',
        decide_eq_true_eq]
      exact ⟨fun _ => hgt, fun _ => by decide⟩

theorem bnCmp_nonneg_iff : 0 ≤ bnCmp a b ↔ val b ≤ val a := by
  rw [bnCmp, cmpFrom_nonneg_iff, geFrom_iff (fun i _ => limb_lt a i) fun i _ => limb_lt b i]
  rfl

/-! ## Sums, differences, doubling -/

/-- `bn_add`: the sum and the carry. -/
def bnAdd (a b : Bn L) : Bn L × ℕ := addWrap a b

def bnSub (a b : Bn L) : Bn L := (subWrap a b).1

/-- `bn_shl1`: twice the number, and the bit shifted out. -/
def bnShl1 (a : Bn L) : Bn L × ℕ := doubleWords a

theorem val_bnAdd (a b : Bn L) :
    val (bnAdd a b).1 + (2 ^ 64) ^ L * (bnAdd a b).2 = val a + val b ∧ (bnAdd a b).2 ≤ 1 := by
  exact addWrap_spec a b

theorem val_bnSub (a b : Bn L) : ∃ br ≤ 1, val (bnSub a b) + val b = val a + (2 ^ 64) ^ L * br := by
  exact ⟨_, (subWrap_spec a b).2, (subWrap_spec a b).1⟩

theorem val_bnShl1 (a : Bn L) :
    val (bnShl1 a).1 + (2 ^ 64) ^ L * (bnShl1 a).2 = 2 * val a ∧ (bnShl1 a).2 ≤ 1 := by
  exact doubleWords_spec a

/-! ## Products -/

def needReduce (overflow : ℕ) (a m : Bn L) : Bool := if overflow ≠ 0 then true else decide (bnCmp a m ≥ 0)

def reduceOnce (r : Bn L) (overflow : ℕ) (m : Bn L) : Bn L := if needReduce overflow r m then bnSub r m else r

def mulStep (r : Bn L) (addA : Bool) (a m : Bn L) : Bn L :=
  let d := bnShl1 r
  let r := reduceOnce d.1 d.2 m
  if addA then
    let s := bnAdd r a
    reduceOnce s.1 s.2 m
  else r

def bnBit (x : Bn L) (i : ℕ) : Bool := bit x i ≠ 0

/-- The loop of `bn_top_limb`. -/
def topLimbFrom (x : Bn L) : ℕ → ℕ
  | 0 => 0
  | i + 1 => if limb x i = 0 then topLimbFrom x i else i + 1

def bnTopLimb (x : Bn L) : ℕ := topLimbFrom x L

/-- The loop of `bn_limb_bits`. -/
def limbBitsFrom : ℕ → ℕ → ℕ
  | 0, _ => 0
  | n + 1, v =>
    if v &&& 0x8000000000000000 = 0 then limbBitsFrom n ((v <<< 1) % 2 ^ 64) else n + 1

def bnLimbBits (v : ℕ) : ℕ := limbBitsFrom 64 v

def bnBits (x : Bn L) : ℕ :=
  let i := bnTopLimb x
  if i = 0 then 0 else (i - 1) * 64 + bnLimbBits (limb x (i - 1))

def modmul (a b m : Bn L) : Bn L :=
  forDown (fun acc i => mulStep acc (bnBit b i) a m) (bnBits b) bnZero

/-- One subtraction is enough below twice the modulus; the bit shifted out makes it due. -/
theorem val_reduceOnce {overflow X : ℕ} (hX : val r + (2 ^ 64) ^ L * overflow = X)
    (hlt : X < 2 * val m) (hover : overflow ≤ 1) : val (reduceOnce r overflow m) = X % val m := by
  have hm := val_lt m
  have hr := val_lt r
  obtain ⟨br, hbr, hsub⟩ := val_bnSub r m
  have hr' := val_lt (bnSub r m)
  have hneed : needReduce overflow r m = true ↔ val m ≤ X := by
    rw [needReduce]
    split
    · rename_i hone
      obtain rfl : overflow = 1 := by omega
      simp only [true_iff]
      omega
    · rename_i hzero
      obtain rfl : overflow = 0 := by omega
      rw [decide_eq_true_eq, ge_iff_le, bnCmp_nonneg_iff]
      omega
  rw [reduceOnce]
  simp only [hneed]
  split
  · rename_i hge
    have hval : val (bnSub r m) = X - val m := by
      interval_cases overflow <;> interval_cases br <;> omega
    rw [hval, Nat.mod_eq_sub_mod hge, Nat.mod_eq_of_lt (by omega)]
  · rename_i hless
    obtain rfl : overflow = 0 := by
      interval_cases overflow <;> omega
    rw [Nat.mod_eq_of_lt (by omega)]
    omega

/-- **One round** of the product. -/
theorem val_mulStep (hr : val r < val m) (ha : val a ≤ val m) (addA : Bool) :
    val (mulStep r addA a m) = (2 * val r + addA.toNat * val a) % val m := by
  obtain ⟨hshl, hover⟩ := val_bnShl1 r
  have hdouble := val_reduceOnce (m := m) hshl (by omega) hover
  have hlt : 2 * val r % val m < val m := Nat.mod_lt _ (by omega)
  rw [mulStep]
  dsimp only
  cases addA with
  | false => simpa using hdouble
  | true =>
    obtain ⟨hadd, hcarry⟩ := val_bnAdd (reduceOnce (bnShl1 r).1 (bnShl1 r).2 m) a
    rw [if_pos rfl, val_reduceOnce hadd (by omega) hcarry, hdouble, Nat.mod_add_mod,
      Bool.toNat_true, Nat.one_mul]

theorem topLimbFrom_spec (x : Bn L) (k : ℕ) :
    topLimbFrom x k ≤ k ∧ (∀ i, topLimbFrom x k ≤ i → i < k → limb x i = 0) := by
  induction k with
  | zero => exact ⟨le_rfl, fun i _ hi => absurd hi (Nat.not_lt_zero i)⟩
  | succ k ih =>
    rw [topLimbFrom]
    split
    · rename_i hzero
      refine ⟨ih.1.trans (Nat.le_succ k), fun i hle hlt => ?_⟩
      rcases Nat.lt_succ_iff_lt_or_eq.1 hlt with hk | rfl
      · exact ih.2 i hle hk
      · exact hzero
    · exact ⟨le_rfl, fun i hle hlt => by omega⟩

theorem lt_two_pow_limbBitsFrom {n v : ℕ} (hn : n ≤ 64) (hv : v < 2 ^ 64)
    (hdvd : 2 ^ (64 - n) ∣ v) : v < 2 ^ (64 - n) * 2 ^ limbBitsFrom n v := by
  induction n generalizing v with
  | zero => simpa [limbBitsFrom] using hv
  | succ n ih =>
    rw [limbBitsFrom]
    split
    · rename_i htop
      have hlow : v < 2 ^ 63 := by
        by_contra hge
        have hbit : v.testBit 63 = true := by
          rw [Nat.testBit_eq_decide_div_mod_eq, decide_eq_true_eq]
          omega
        have hand : (v &&& 2 ^ 63).testBit 63 = true := by
          rw [Nat.testBit_and, hbit, Nat.testBit_two_pow_self, Bool.and_self]
        rw [show 2 ^ 63 = 0x8000000000000000 from rfl, htop] at hand
        simp at hand
      have hshift : (v <<< 1) % 2 ^ 64 = 2 * v := by
        rw [Nat.shiftLeft_eq]
        omega
      have hpow : 2 ^ (64 - n) = 2 * 2 ^ (64 - (n + 1)) := by
        rw [← pow_succ']
        congr 1
        omega
      have hnext := ih (v := 2 * v) (by omega) (by omega) (by
        rw [hpow]
        exact Nat.mul_dvd_mul_left 2 hdvd)
      rw [hpow, Nat.mul_assoc] at hnext
      rw [hshift]
      omega
    · rw [← pow_add, show 64 - (n + 1) + (n + 1) = 64 by omega]
      exact hv

/-- **The number of bits** bounds the number. -/
theorem lt_two_pow_bnBits (x : Bn L) : val x < 2 ^ bnBits x := by
  obtain ⟨hle, hzero⟩ := topLimbFrom_spec x L
  have hval : val x = low (2 ^ 64) (limb x) (bnTopLimb x) := by
    refine val_eq_low hle fun k hk => ?_
    by_cases hlt : k < L
    · exact hzero k hk hlt
    · exact dif_neg hlt
  rw [bnBits]
  split
  · rename_i h0
    rw [hval, h0, low_zero]
    decide
  · rename_i h0
    obtain ⟨j, hj⟩ : ∃ j, bnTopLimb x = j + 1 := ⟨bnTopLimb x - 1, by omega⟩
    have htop := lt_two_pow_limbBitsFrom le_rfl (limb_lt x j) (by simp)
    rw [Nat.sub_self, pow_zero, Nat.one_mul] at htop
    have hlow : low (2 ^ 64) (limb x) j < (2 ^ 64) ^ j := low_lt fun i _ => limb_lt x i
    rw [hval, hj, low_succ, Nat.add_sub_cancel, pow_add, Nat.mul_comm j, pow_mul]
    calc low (2 ^ 64) (limb x) j + limb x j * (2 ^ 64) ^ j
        < (limb x j + 1) * (2 ^ 64) ^ j := by linarith
      _ ≤ 2 ^ bnLimbBits (limb x j) * (2 ^ 64) ^ j := Nat.mul_le_mul_right _ htop
      _ = (2 ^ 64) ^ j * 2 ^ bnLimbBits (limb x j) := Nat.mul_comm _ _

theorem val_div_two_pow (x : Bn L) (i : ℕ) :
    val x / 2 ^ i = 2 * (val x / 2 ^ (i + 1)) + (bnBit x i).toNat := by
  have hbit : (bnBit x i).toNat = val x / 2 ^ i % 2 := by
    have hlt := bit_lt x i
    rw [bnBit, ← bit_eq]
    interval_cases bit x i <;> rfl
  rw [hbit, pow_succ, ← Nat.div_div_eq_div_mul]
  omega

/-- **The product** modulo `m`. -/
theorem val_modmul (hm : 0 < val m) (ha : val a ≤ val m) :
    val (modmul a b m) = val a * val b % val m := by
  have hinv : val (modmul a b m) = val a * (val b / 2 ^ 0) % val m := by
    refine forDown_induct (fun i acc => val acc = val a * (val b / 2 ^ i) % val m) ?_ ?_
    · rw [Nat.div_eq_of_lt (lt_two_pow_bnBits b), val_bnZero, Nat.mul_zero, Nat.zero_mod]
    · intro i _ acc hacc
      have hlt : val acc < val m := hacc ▸ Nat.mod_lt _ hm
      rw [val_mulStep hlt ha, hacc, val_div_two_pow b i, Nat.add_mod, Nat.mul_mod_mod, ← Nat.add_mod]
      congr 1
      ring
  rwa [pow_zero, Nat.div_one] at hinv

/-! ## Powers -/

/-- The number 1. -/
def bnOne : Bn L := bnZero.setIfInBounds 0 1

/-- One round of `quic_bn_modexp`. -/
def modexpStep (base exp mod : Bn L) (result : Bn L) (i : ℕ) : Bn L :=
  let result := modmul result result mod
  if bnBit exp i then modmul result base mod else result

def bnModexp (base exp mod : Bn L) : Bn L :=
  forDown (modexpStep base exp mod) (bnBits exp) bnOne

theorem val_bnOne (hL : 0 < L) : val (bnOne : Bn L) = 1 := by
  have hset := val_set (bnZero : Bn L) hL 1
  have hlimb : limb (bnZero : Bn L) 0 = 0 := by
    rw [limb, dig_of_lt hL, bnZero, Vector.getElem_replicate]
    rfl
  rw [val_bnZero, hlimb] at hset
  simpa [bnOne] using hset

theorem val_modexpStep (base exp : Bn L) {result : Bn L} (hm : 0 < val mod)
    (hr : val result ≤ val mod) (i : ℕ) : val (modexpStep base exp mod result i) =
      val result * val result * val base ^ (bnBit exp i).toNat % val mod := by
  have hsq := val_modmul (b := result) hm hr
  have hlt : val (modmul result result mod) < val mod := hsq ▸ Nat.mod_lt _ hm
  rw [modexpStep]
  cases bnBit exp i with
  | false => rw [if_neg (by decide), hsq, Bool.toNat_false, pow_zero, Nat.mul_one]
  | true => rw [if_pos rfl, val_modmul hm hlt.le, hsq, Nat.mod_mul_mod, Bool.toNat_true, pow_one]

/-- **The power** modulo `m`, for every base. -/
theorem val_bnModexp {base exp : Bn L} (hm : 0 < val mod) (hcase : val mod ≠ 1 ∨ val exp ≠ 0) :
    val (bnModexp base exp mod) = val base ^ val exp % val mod := by
  have hL : 0 < L := by
    by_contra hzero
    obtain rfl : L = 0 := by omega
    exact lt_irrefl 0 hm
  -- the start value is reduced after one round; before, it is up to the modulus
  have hinv : val (bnModexp base exp mod) ≤ val mod ∧
      (val (bnModexp base exp mod) = val base ^ (val exp / 2 ^ 0) % val mod ∨
        val mod = 1 ∧ val exp / 2 ^ 0 = 0) := by
    refine forDown_induct (fun i result => val result ≤ val mod ∧
      (val result = val base ^ (val exp / 2 ^ i) % val mod ∨
        val mod = 1 ∧ val exp / 2 ^ i = 0)) ?_ ?_
    · rw [Nat.div_eq_of_lt (lt_two_pow_bnBits exp), val_bnOne hL, pow_zero]
      refine ⟨hm, ?_⟩
      by_cases hone : val mod = 1
      · exact Or.inr ⟨hone, rfl⟩
      · exact Or.inl (Nat.mod_eq_of_lt (by omega)).symm
    · rintro i _ result ⟨hle, hval⟩
      have hstep := val_modexpStep base exp hm hle i
      refine ⟨hstep ▸ (Nat.mod_lt _ hm).le, Or.inl ?_⟩
      rw [hstep]
      rcases hval with hval | ⟨hone, -⟩
      · rw [val_div_two_pow exp i, pow_add, pow_mul', pow_two, hval]
        exact ((Nat.mod_modEq _ _).mul (Nat.mod_modEq _ _)).mul rfl
      · rw [hone, Nat.mod_one, Nat.mod_one]
  rw [pow_zero, Nat.div_one] at hinv
  rcases hinv.2 with hval | ⟨hone, hzero⟩
  · exact hval
  · rcases hcase with h | h
    · exact absurd hone h
    · exact absurd hzero h

end Rsa

end Crypto

end QuicVibe
