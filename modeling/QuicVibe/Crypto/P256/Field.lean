import QuicVibe.Common.Bytes
import QuicVibe.Common.Words
/-!
# Arithmetic modulo the prime and the group order of P-256

The functions of `p256_field.c` over any modulus of 256 bits, on numbers in four words of 64 bits.
Every function has one lemma that says what it does to the numbers; nothing after this module looks
at words again.
-/

namespace QuicVibe

namespace Crypto

namespace P256

open Words

/-- `p256_fe`: four words, least significant first. -/
abbrev Fe := Vector UInt64 4

/-- The product of two numbers. -/
abbrev Wide := Vector UInt64 8

def p256P : Fe :=
  #v[0xffffffffffffffff, 0x00000000ffffffff, 0x0000000000000000, 0xffffffff00000001]

def p256N : Fe :=
  #v[0xf3b9cac2fc632551, 0xbce6faada7179e84, 0xffffffffffffffff, 0xffffffff00000000]

theorem val_lt_two_pow (a : Fe) : val a < 2 ^ 256 := (val_lt a).trans_eq (by norm_num)

/-! ## Comparisons -/

def fpIsZero (a : Fe) : Bool := forUp (fun d i => d ||| limb a i) 0 4 == 0

def fpEq (a b : Fe) : Bool := forUp (fun d i => d ||| (limb a i ^^^ limb b i)) 0 4 == 0

def feGe (a b : Fe) : Bool := geFrom (limb a) (limb b) 4

def fpLt (a b : Fe) : Bool := !feGe a b

theorem forUp_lor_eq_zero_iff (f : ℕ → ℕ) (n : ℕ) :
    forUp (fun d i => d ||| f i) 0 n = 0 ↔ ∀ i < n, f i = 0 := by
  induction n with
  | zero => simp
  | succ n ih => rw [forUp_succ, Nat.or_eq_zero_iff, ih, Nat.forall_lt_succ_right]

variable {a b m : Fe} {w : Wide} {sh : ℕ}

theorem fpIsZero_iff : fpIsZero a = true ↔ val a = 0 := by
  rw [fpIsZero, beq_iff_eq, forUp_lor_eq_zero_iff, val, low_eq_zero_iff (by decide)]

theorem fpEq_iff : fpEq a b = true ↔ a = b := by
  rw [fpEq, beq_iff_eq, forUp_lor_eq_zero_iff]
  simp only [xor_eq_zero_iff]
  exact ⟨fun h => val_inj.1 (low_congr h), fun h i _ => by rw [h]⟩

theorem feGe_iff : feGe a b = true ↔ val b ≤ val a :=
  geFrom_iff (fun i _ => limb_lt a i) fun i _ => limb_lt b i

theorem fpLt_iff : fpLt a b = true ↔ val a < val b := by
  rw [fpLt, Bool.not_eq_true', ← Bool.not_eq_true, feGe_iff, Nat.not_le]

/-! ## Sums and differences -/

def feSubRaw (a b : Fe) : Fe := (subWords (limb a) (limb b) 4).1

/-- `fe_add_raw`: the sum and the carry. -/
def feAddRaw (a b : Fe) : Fe × ℕ := addWords (limb a) (limb b) 4

def fpAdd (a b m : Fe) : Fe :=
  let t := feAddRaw a b
  if t.2 ≠ 0 ∨ feGe t.1 m then feSubRaw t.1 m else t.1

def fpSub (a b m : Fe) : Fe :=
  if feGe a b then feSubRaw a b else feSubRaw m (feSubRaw b a)

theorem feSubRaw_balance (a b : Fe) :
    ∃ br ≤ 1, val (feSubRaw a b) + val b = val a + 2 ^ 256 * br := by
  obtain ⟨hval, hbr⟩ := subWords_spec (n := 4) (fun i _ => limb_lt a i) (fun i _ => limb_lt b i)
  refine ⟨_, hbr, ?_⟩
  rw [← pow_mul] at hval
  exact hval

theorem feSubRaw_of_le (h : val b ≤ val a) : val (feSubRaw a b) = val a - val b := by
  obtain ⟨br, hbr, hval⟩ := feSubRaw_balance a b
  have := val_lt_two_pow a
  have := val_lt_two_pow (feSubRaw a b)
  omega

theorem feAddRaw_balance (a b : Fe) :
    val (feAddRaw a b).1 + 2 ^ 256 * (feAddRaw a b).2 = val a + val b := by
  have hval := addWords_spec (n := 4) (fun i _ => limb_lt a i) (fun i _ => limb_lt b i)
  rw [← pow_mul] at hval
  exact hval

theorem val_fpAdd (h : val a + val b < 2 ^ 256 + val m) :
    val (fpAdd a b m) = if val m ≤ val a + val b then val a + val b - val m else val a + val b := by
  have hsum := feAddRaw_balance a b
  have hlt := val_lt_two_pow (feAddRaw a b).1
  have hm := val_lt_two_pow m
  have ha := val_lt_two_pow a
  have hb := val_lt_two_pow b
  simp only [fpAdd, feGe_iff]
  generalize feAddRaw a b = t at hsum hlt
  obtain ⟨br, hbr, hsub⟩ := feSubRaw_balance t.1 m
  have hres := val_lt_two_pow (feSubRaw t.1 m)
  by_cases hge : val m ≤ val a + val b
  · have hover : t.2 ≠ 0 ∨ val m ≤ val t.1 := by omega
    rw [if_pos hge, if_pos hover]
    omega
  · have hunder : ¬ (t.2 ≠ 0 ∨ val m ≤ val t.1) := by omega
    rw [if_neg hge, if_neg hunder]
    omega

/-- **Addition** of reduced numbers. -/
theorem fpAdd_eq (ha : val a < val m) (hb : val b < val m) :
    val (fpAdd a b m) = (val a + val b) % val m := by
  have hm := val_lt_two_pow m
  rw [val_fpAdd (by omega)]
  split
  · rename_i hge
    rw [Nat.mod_eq_sub_mod hge, Nat.mod_eq_of_lt (by omega)]
  · rename_i hlt
    rw [Nat.mod_eq_of_lt (by omega)]

theorem val_fpSub (hb : val b ≤ val m) :
    val (fpSub a b m) = if val b ≤ val a then val a - val b else val m - (val b - val a) := by
  simp only [fpSub, feGe_iff]
  split
  · rename_i hle
    exact feSubRaw_of_le hle
  · rename_i hlt
    have hdiff := feSubRaw_of_le (a := b) (b := a) (by omega)
    rw [feSubRaw_of_le (by omega), hdiff]

/-! ## Products -/

def feMulRow (w : Wide) (ai : ℕ) (b : Fe) (i : ℕ) : Wide :=
  let r := mulAdd w ai (limb b) i 4
  r.1.setIfInBounds (i + 4) (UInt64.ofNat r.2)

def feMulWide (a b : Fe) : Wide :=
  forUp (fun w i => feMulRow w (limb a i) b i) (Vector.replicate 8 0) 4

theorem feMulRow_spec {ai : ℕ} (b : Fe) {i : ℕ} (hai : ai < 2 ^ 64) (hi : i < 4)
    (hw : val w < (2 ^ 64) ^ (i + 4)) :
    val (feMulRow w ai b i) = val w + (2 ^ 64) ^ i * (ai * val b) := by
  have hrow := mulAdd_spec w hai (fun j _ => limb_lt b j) (show i + 4 ≤ 8 by omega)
  have hfree : ∀ k, i + 4 ≤ k → limb w k = 0 := fun k hk => limb_eq_zero hw hk
  generalize hr : mulAdd w ai (limb b) i 4 = r at hrow
  have hcarry : (UInt64.ofNat r.2).toNat = r.2 := by
    rw [UInt64.toNat_ofNat', Nat.mod_eq_of_lt hrow.carry]
  have habove : ∀ k, i + 4 + 1 ≤ k →
      limb (r.1.setIfInBounds (i + 4) (UInt64.ofNat r.2)) k = 0 := by
    intro k hk
    rw [limb_set_ne _ _ (by omega), hrow.above k (by omega), hfree k (by omega)]
  rw [feMulRow]
  simp only [hr]
  rw [val_eq_low (by omega) habove, low_succ, low_limb_set _ _ le_rfl,
    limb_set_self _ _ (by omega), hcarry, Nat.mul_comm r.2, hrow.value, ← val_eq_low (by omega) hfree]
  rfl

/-- **The product** of two numbers, in full. -/
theorem val_feMulWide (a b : Fe) : val (feMulWide a b) = val a * val b := by
  have hb := val_lt_two_pow b
  have hinv : val (feMulWide a b) = low (2 ^ 64) (limb a) 4 * val b := by
    refine forUp_induct (fun i w => val w = low (2 ^ 64) (limb a) i * val b) ?_ ?_
    · rw [low_zero, Nat.zero_mul]
      decide
    · intro i hi w hw
      have hlow : low (2 ^ 64) (limb a) i < (2 ^ 64) ^ i := low_lt fun j _ => limb_lt a j
      have hfits : val w < (2 ^ 64) ^ (i + 4) := by
        rw [hw, pow_add]
        exact Nat.mul_lt_mul_of_lt_of_le hlow (hb.le.trans (by norm_num)) (by positivity)
      rw [feMulRow_spec b (limb_lt a i) hi hfits, hw, low_succ]
      ring
  exact hinv

/-! ## Long division -/

/-- `mshift_bit`: a bit of the modulus shifted left. -/
def mshiftBit (m : Fe) (sh b : ℕ) : ℕ :=
  if b < sh then 0
  else if b - sh ≥ 256 then 0
  else bit m (b - sh)

def wideGeShifted (w : Wide) (m : Fe) (sh : ℕ) : Bool := geFrom (bit w) (mshiftBit m sh) 512

/-- A word of the shifted modulus, put together bit by bit. -/
def mlimb (m : Fe) (sh i : ℕ) : ℕ :=
  forUp (fun l b => l ||| (mshiftBit m sh (i * 64 + b) <<< b)) 0 64

def wideSubShifted (w : Wide) (m : Fe) (sh : ℕ) : Wide := (subWords (limb w) (mlimb m sh) 8).1

def feReduceStep (m : Fe) (w : Wide) (sh : ℕ) : Wide :=
  if wideGeShifted w m sh then wideSubShifted w m sh else w

def feReduceWide (w : Wide) (m : Fe) : Fe :=
  let w := forDown (feReduceStep m) 256 w
  Vector.ofFn fun i : Fin 4 => w[i]

def fpMul (a b m : Fe) : Fe := feReduceWide (feMulWide a b) m

def fpSqr (a m : Fe) : Fe := fpMul a a m

def fpReduce (a m : Fe) : Fe :=
  feReduceWide #v[a[0], a[1], a[2], a[3], 0, 0, 0, 0] m

theorem mshiftBit_eq (m : Fe) (sh b : ℕ) : mshiftBit m sh b = val m * 2 ^ sh / 2 ^ b % 2 := by
  rw [mshiftBit]
  split
  · rename_i hb
    obtain ⟨k, rfl⟩ : ∃ k, sh = b + (k + 1) := ⟨sh - b - 1, by omega⟩
    rw [pow_add, Nat.mul_left_comm, Nat.mul_div_cancel_left _ (Nat.two_pow_pos b), pow_succ,
      ← Nat.mul_assoc, Nat.mul_mod_left]
  · rename_i hb
    have hdiv : val m * 2 ^ sh / 2 ^ b = val m / 2 ^ (b - sh) := by
      conv_lhs => rw [show b = sh + (b - sh) by omega, pow_add, Nat.mul_comm,
        Nat.mul_div_mul_left _ _ (Nat.two_pow_pos sh)]
    rw [hdiv]
    split
    · rename_i hs
      have hlt : val m < 2 ^ (b - sh) :=
        (val_lt_two_pow m).trans_le (Nat.pow_le_pow_right (by decide) hs)
      rw [Nat.div_eq_of_lt hlt, Nat.zero_mod]
    · exact bit_eq m (b - sh)

theorem forUp_lor_shiftLeft {f : ℕ → ℕ} {n : ℕ} (hf : ∀ i < n, f i < 2) :
    forUp (fun l b => l ||| (f b <<< b)) 0 n = low 2 f n := by
  induction n with
  | zero => rfl
  | succ n ih =>
    have hlt : low 2 f n < 2 ^ n := low_lt fun i hi => hf i (Nat.lt_succ_of_lt hi)
    rw [forUp_succ, ih fun i hi => hf i (Nat.lt_succ_of_lt hi), low_succ, Nat.shiftLeft_eq,
      Nat.or_comm, Nat.mul_comm (f n), ← Nat.two_pow_add_eq_or_of_lt hlt, Nat.add_comm]

theorem mlimb_eq (m : Fe) (sh i : ℕ) :
    mlimb m sh i = val m * 2 ^ sh / (2 ^ 64) ^ i % 2 ^ 64 := by
  have hbit : ∀ b, mshiftBit m sh (i * 64 + b) =
      val m * 2 ^ sh / (2 ^ 64) ^ i / 2 ^ b % 2 := by
    intro b
    rw [mshiftBit_eq, pow_add, ← Nat.div_div_eq_div_mul, Nat.mul_comm i, pow_mul]
  rw [mlimb, forUp_lor_shiftLeft fun b _ => by rw [hbit]; exact Nat.mod_lt _ (by decide)]
  simp only [hbit]
  exact low_div_mod_self 2 _ 64

theorem wideGeShifted_iff (w : Wide) (m : Fe) (hsh : sh ≤ 256) :
    wideGeShifted w m sh = true ↔ val m * 2 ^ sh ≤ val w := by
  have hm : val m * 2 ^ sh < 2 ^ 512 := by
    rw [show 512 = 256 + 256 from rfl, pow_add]
    exact Nat.mul_lt_mul_of_lt_of_le (val_lt_two_pow m) (Nat.pow_le_pow_right (by decide) hsh)
      (by positivity)
  have hw : val w < 2 ^ 512 := (val_lt w).trans_eq (by rw [← pow_mul])
  have hlow : low 2 (bit w) 512 = val w := by
    rw [low_congr fun i _ => bit_eq w i, low_div_mod_self, Nat.mod_eq_of_lt hw]
  have hmlow : low 2 (mshiftBit m sh) 512 = val m * 2 ^ sh := by
    rw [low_congr fun i _ => mshiftBit_eq m sh i, low_div_mod_self, Nat.mod_eq_of_lt hm]
  rw [wideGeShifted, geFrom_iff (fun i _ => bit_lt w i)
    (fun i _ => by rw [mshiftBit_eq]; exact Nat.mod_lt _ (by decide)), hlow, hmlow]

theorem wideSubShifted_of_le (h : val m * 2 ^ sh ≤ val w) :
    val (wideSubShifted w m sh) = val w - val m * 2 ^ sh := by
  have hw : val w < (2 ^ 64) ^ 8 := val_lt w
  have hlow : low (2 ^ 64) (mlimb m sh) 8 = val m * 2 ^ sh := by
    rw [low_congr fun i _ => mlimb_eq m sh i, low_div_mod_self, Nat.mod_eq_of_lt (by omega)]
  have hword : ∀ i < 8, mlimb m sh i < 2 ^ 64 := by
    intro i _
    rw [mlimb_eq]
    exact Nat.mod_lt _ (by decide)
  obtain ⟨hval, hbr⟩ := subWords_spec (n := 8) (fun i _ => limb_lt w i) hword
  have hres := val_lt (wideSubShifted w m sh)
  rw [hlow] at hval
  rw [wideSubShifted] at hres ⊢
  rw [← val] at hval
  omega

theorem feReduceStep_spec (hsh : sh ≤ 256) (hw : val w < val m * 2 ^ (sh + 1)) :
    val (feReduceStep m w sh) < val m * 2 ^ sh ∧ val (feReduceStep m w sh) ≡ val w [MOD val m] := by
  have hdouble : val m * 2 ^ (sh + 1) = val m * 2 ^ sh + val m * 2 ^ sh := by ring
  simp only [feReduceStep, wideGeShifted_iff w m hsh]
  split
  · rename_i hge
    rw [wideSubShifted_of_le hge]
    refine ⟨by omega, (Nat.modEq_iff_dvd' (Nat.sub_le _ _)).2 ⟨2 ^ sh, ?_⟩⟩
    omega
  · rename_i hlt
    exact ⟨Nat.lt_of_not_le hlt, rfl⟩

/-- **Long division** from the top bit of the quotient down. -/
theorem val_feReduceWide (hw : val w < val m * 2 ^ 256) :
    val (feReduceWide w m) = val w % val m := by
  have hloop : val (forDown (feReduceStep m) 256 w) < val m * 2 ^ 0 ∧
      val (forDown (feReduceStep m) 256 w) ≡ val w [MOD val m] := by
    refine forDown_induct (fun sh v => val v < val m * 2 ^ sh ∧ val v ≡ val w [MOD val m])
      ⟨hw, rfl⟩ ?_
    intro sh hsh v ⟨hlt, hmod⟩
    obtain ⟨hlt', hmod'⟩ := feReduceStep_spec (by omega) hlt
    exact ⟨hlt', hmod'.trans hmod⟩
  rw [pow_zero, Nat.mul_one] at hloop
  have hm := val_lt m
  have hlow : val (feReduceWide w m) = val (forDown (feReduceStep m) 256 w) := by
    rw [feReduceWide]
    generalize forDown (feReduceStep m) 256 w = v at hloop
    rw [val_eq_low (v := v) (j := 4) (by decide) fun k hk => limb_eq_zero (by omega) hk, val]
    refine low_congr fun i hi => ?_
    rw [limb, limb, dig_of_lt hi, dig_of_lt (by omega)]
    simp
  rw [hlow, ← hloop.2, Nat.mod_eq_of_lt hloop.1]

/-- **Multiplication**, where the product is below `2 ^ 256` times the modulus. -/
theorem fpMul_eq (h : val a * val b < val m * 2 ^ 256) :
    val (fpMul a b m) = val a * val b % val m := by
  rw [fpMul, val_feReduceWide (by rwa [val_feMulWide]), val_feMulWide]

theorem fpMul_eq_of_lt (ha : val a < val m) : val (fpMul a b m) = val a * val b % val m :=
  fpMul_eq (Nat.mul_lt_mul_of_lt_of_le ha (val_lt_two_pow b).le (by positivity))

/-- **Reduction** of any number. -/
theorem fpReduce_eq (hm : 0 < val m) : val (fpReduce a m) = val a % val m := by
  have hwide : val (#v[a[0], a[1], a[2], a[3], 0, 0, 0, 0] : Wide) = val a := by
    rw [val_eq_low (j := 4) (by decide)]
    · refine low_congr fun i hi => ?_
      rw [limb, limb, dig_of_lt hi, dig_of_lt (by omega)]
      interval_cases i <;> rfl
    · intro k hk
      rw [limb, dig]
      split
      · rename_i hlt
        interval_cases k <;> rfl
      · rfl
  have hlt : val a < val m * 2 ^ 256 :=
    (val_lt_two_pow a).trans_le (Nat.le_mul_of_pos_left _ hm)
  rw [fpReduce, val_feReduceWide (by rwa [hwide]), hwide]

/-! ## Bytes -/

/-- One word of `quic_fp_from_be`. -/
def wordFromBe (b : Vector UInt8 32) (i : ℕ) : ℕ :=
  forUp (fun v j => (v <<< 8 ||| dig UInt8.toNat b (i * 8 + j)) % 2 ^ 64) 0 8

def fpFromBe (b : Vector UInt8 32) : Fe :=
  Vector.ofFn fun i : Fin 4 => UInt64.ofNat (wordFromBe b (3 - i))

def fpToBe (a : Fe) : Vector UInt8 32 :=
  Vector.ofFn fun k : Fin 32 => UInt8.ofNat (limb a (3 - k.val / 8) >>> (56 - 8 * (k.val % 8)))

theorem wordFromBe_eq (b : Vector UInt8 32) (i : ℕ) :
    wordFromBe b i = low 256 (fun j => dig UInt8.toNat b (i * 8 + (7 - j))) 8 :=
  forUp_shift_in (fun _ => dig_lt UInt8.toNat_lt (by decide) b _) le_rfl

theorem val_fpFromBe (b : Vector UInt8 32) : val (fpFromBe b) = readBe b.toList := by
  have hword : ∀ i < 4, limb (fpFromBe b) i = wordFromBe b (3 - i) := by
    intro i hi
    have hlt : wordFromBe b (3 - i) < 256 ^ 8 := by
      rw [wordFromBe_eq]
      exact low_lt fun j _ => dig_lt UInt8.toNat_lt (by decide) b _
    rw [limb, dig_of_lt hi, fpFromBe, Vector.getElem_ofFn, UInt64.toNat_ofNat_of_lt' hlt]
  have hbytes : readBe b.toList = low 256 (fun i => dig UInt8.toNat b (31 - i)) (8 * 4) := by
    rw [readBe_eq_low, Vector.length_toList]
    refine low_congr fun i hi => ?_
    rw [dig_of_lt (by omega), List.getD_eq_getElem _ _ (by simp; omega), Vector.getElem_toList]
  rw [hbytes, low_mul, val]
  refine low_congr fun i hi => ?_
  rw [hword i hi, wordFromBe_eq]
  refine low_congr fun j hj => ?_
  congr 1
  omega

theorem toList_fpToBe (a : Fe) : (fpToBe a).toList = putBe 32 (val a) := by
  rw [putBe_eq_map, fpToBe, Vector.toList_ofFn]
  refine List.ext_getElem (by simp) fun k h₁ h₂ => ?_
  have hk : k < 32 := by simpa using h₂
  rw [List.getElem_ofFn, List.getElem_map, List.getElem_range, ← ofNat_limb_shift]
  congr 3
  · show 3 - k / 8 = _
    omega
  · show 56 - 8 * (k % 8) = _
    omega

@[simp] theorem readBe_fpToBe (a : Fe) : readBe (fpToBe a).toList = val a := by
  rw [toList_fpToBe, readBe_putBe, Nat.mod_eq_of_lt ((val_lt_two_pow a).trans_eq (by norm_num))]

end P256

end Crypto

end QuicVibe
