import QuicVibe.Common.BitPoly
import QuicVibe.Crypto.Gcm
/-!
# GHASH

The standard (SP 800-38D) reads a block as a polynomial over GF(2), the first bit the constant term,
and multiplies modulo `X ^ 128 + X ^ 7 + X ^ 2 + X + 1`; `mul`, `ghash` and `specTag` are written in
those terms. The code multiplies one bit at a time on 16-byte arrays.
-/

namespace QuicVibe

namespace Crypto

namespace Gcm

open Polynomial BitPoly

/-! ## Bits of a block -/

/-- Bit `i` of a block, counted from the most significant bit of the first byte. -/
def bit (b : Block) (i : ℕ) : Bool := (b.toList.getD (i / 8) 0).toNat.testBit (7 - i % 8)

theorem getD_toList (b : Block) {j : ℕ} (hj : j < 16) : b.toList.getD j 0 = b[j] := by
  simp [hj]

theorem ext_bit {a b : Block} (h : ∀ i < 128, bit a i = bit b i) : a = b := by
  refine Vector.ext fun j hj => UInt8.toNat_inj.1 (Nat.eq_of_testBit_eq fun k => ?_)
  by_cases hk : k < 8
  · have hjk := h (8 * j + (7 - k)) (by omega)
    rw [bit, bit, show (8 * j + (7 - k)) / 8 = j by omega,
      show 7 - (8 * j + (7 - k)) % 8 = k by omega, getD_toList a hj, getD_toList b hj] at hjk
    exact hjk
  · have hhigh : ∀ x : UInt8, x.toNat.testBit k = false := fun x =>
      Nat.testBit_lt_two_pow (lt_of_lt_of_le x.toNat_lt (Nat.pow_le_pow_right (by decide) (by omega)))
    rw [hhigh, hhigh]

/-- The mask a bit is spread to. -/
def maskOf (b : Bool) : UInt8 := if b then 0xff else 0

variable (x : UInt8) (zv : Block × Block)

theorem testBit_and_maskOf (b : Bool) (k : ℕ) :
    (x &&& maskOf b).toNat.testBit k = (x.toNat.testBit k && b) := by
  cases b
  · simp [maskOf]
  · have h : x &&& 255 = x := by
      apply UInt8.toNat_inj.1
      have := Nat.and_two_pow_sub_one_eq_mod x.toNat 8
      rw [UInt8.toNat_and]
      exact this.trans (Nat.mod_eq_of_lt x.toNat_lt)
    simp [maskOf, h]

theorem mask_eq {k : ℕ} (hk : k < 8) :
    (0 : UInt8) - ((x >>> UInt8.ofNat k) &&& 1) = maskOf (x.toNat.testBit k) := by
  have hbit : (x >>> UInt8.ofNat k &&& 1).toNat = (x.toNat.testBit k).toNat := by
    have hk8 : (UInt8.ofNat k).toNat % 8 = k := by
      rw [UInt8.toNat_ofNat']
      omega
    rw [UInt8.toNat_and, UInt8.toNat_shiftRight, hk8, Nat.toNat_testBit,
      Nat.shiftRight_eq_div_pow]
    exact Nat.and_one_is_mod _
  cases h : x.toNat.testBit k
  · have h0 : x >>> UInt8.ofNat k &&& 1 = 0 := UInt8.toNat_inj.1 (by rw [hbit, h]; rfl)
    rw [h0]
    rfl
  · have h1 : x >>> UInt8.ofNat k &&& 1 = 1 := UInt8.toNat_inj.1 (by rw [hbit, h]; rfl)
    rw [h1]
    rfl

theorem testBit_shr_one (k : ℕ) : (x >>> 1).toNat.testBit k = x.toNat.testBit (k + 1) := by
  rw [UInt8.toNat_shiftRight, Nat.testBit_shiftRight, Nat.add_comm]
  rfl

theorem testBit_shl_seven {k : ℕ} (hk : k < 8) :
    (x <<< 7).toNat.testBit k = (decide (k = 7) && x.toNat.testBit 0) := by
  rw [UInt8.toNat_shiftLeft, Nat.testBit_mod_two_pow, Nat.testBit_shiftLeft]
  rcases Nat.lt_or_eq_of_le (Nat.le_of_lt_succ hk) with hlt | rfl
  · simp [show ¬ 7 ≤ k by omega, show k ≠ 7 by omega]
  · simp

theorem bit_shr1 (x : Block) {i : ℕ} (hi : i < 128) :
    bit (shr1 x) i = (decide (0 < i) && bit x (i - 1)) := by
  have hj : i / 8 < 16 := by omega
  have hjp : (i - 1) / 8 < 16 := by omega
  rw [bit, bit, getD_toList _ hj, getD_toList _ hjp, shr1, Vector.getElem_ofFn]
  by_cases h0 : i / 8 = 0
  · have hp : (i - 1) / 8 = 0 := by omega
    simp only [h0, hp, if_true, testBit_shr_one]
    rcases Nat.eq_zero_or_pos i with rfl | hpos
    · exact Nat.testBit_lt_two_pow x[0].toNat_lt
    · rw [decide_eq_true hpos, Bool.true_and, show 7 - i % 8 + 1 = 7 - (i - 1) % 8 by omega]
  · have hpos : 0 < i := by omega
    simp only [h0, if_false, Vector.get_eq_getElem, UInt8.toNat_or, Nat.testBit_or, testBit_shr_one,
      hpos, decide_true, Bool.true_and, testBit_shl_seven _ (show 7 - i % 8 < 8 by omega)]
    -- within a byte the bit comes from the same byte, at its start from the last bit before
    by_cases h8 : i % 8 = 0
    · have hp : (i - 1) / 8 = i / 8 - 1 := by omega
      have hhigh : x[i / 8].toNat.testBit 8 = false := Nat.testBit_lt_two_pow x[i / 8].toNat_lt
      simp [h8, hp, show (i - 1) % 8 = 7 by omega, hhigh]
    · have hp : (i - 1) / 8 = i / 8 := by omega
      simp [hp, show 7 - i % 8 + 1 = 7 - (i - 1) % 8 by omega, show 7 - i % 8 ≠ 7 by omega]

/-- What the code adds to a shifted block whose last bit was set. -/
def reduction (i : ℕ) : Bool := decide (i = 0 ∨ i = 1 ∨ i = 2 ∨ i = 7)

theorem testBit_e1 {k : ℕ} (hk : k < 8) : (0xe1 : UInt8).toNat.testBit (7 - k) = reduction k := by
  interval_cases k <;> decide

/-- The second half of a step: the shift, and the constant where the last bit was set. -/
theorem bit_gfStep_snd (mask : UInt8) {i : ℕ} (hi : i < 128) :
    bit (gfStep zv mask).2 i =
      ((decide (0 < i) && bit zv.2 (i - 1)) ^^ (reduction i && bit zv.2 127)) := by
  have hlast : (0 : UInt8) - (zv.2[15] &&& 1) = maskOf (bit zv.2 127) := by
    have hmask := mask_eq zv.2[15] (k := 0) (by decide)
    rw [show zv.2[15] >>> UInt8.ofNat 0 = zv.2[15] from UInt8.toNat_inj.1 (by simp)] at hmask
    rw [hmask, bit, getD_toList _ (by decide)]
  have hj : i / 8 < 16 := by omega
  rw [← bit_shr1 zv.2 hi, gfStep, bit, bit, getD_toList _ hj, getD_toList _ hj]
  simp only [hlast]
  by_cases h0 : i / 8 = 0
  · have hk : 7 - i % 8 = 7 - i := by omega
    simp only [h0, Vector.getElem_set_self, UInt8.toNat_xor, Nat.testBit_xor, testBit_and_maskOf,
      hk, testBit_e1 (show i < 8 by omega)]
  · have hr : reduction i = false := decide_eq_false (by omega)
    rw [Vector.getElem_set_ne _ _ (Ne.symm h0), hr, Bool.false_and, Bool.xor_false]

theorem bit_gfStep_fst (b : Bool) {i : ℕ} (hi : i < 128) :
    bit (gfStep zv (maskOf b)).1 i = (bit zv.1 i ^^ (bit zv.2 i && b)) := by
  have hj : i / 8 < 16 := by omega
  simp only [bit, getD_toList _ hj, gfStep, Vector.getElem_zipWith, UInt8.toNat_xor,
    Nat.testBit_xor, testBit_and_maskOf]

/-! ## The field -/

/-- The polynomial of a block: bit `i` is the coefficient of `X ^ i`. -/
noncomputable def poly (b : Block) : (ZMod 2)[X] := ofBits 128 (bit b)

/-- The polynomial that defines the field. -/
noncomputable def modulus : (ZMod 2)[X] := X ^ 128 + (X ^ 7 + X ^ 2 + X + 1)

theorem ofBits_reduction : ofBits 128 reduction = X ^ 7 + X ^ 2 + X + 1 := by
  ext i
  rw [coeff_ofBits]
  simp only [coeff_add, coeff_X_pow, coeff_X, coeff_one]
  by_cases hi : i < 8
  · interval_cases i <;> decide
  · rw [if_neg (show i ≠ 7 by omega), if_neg (show i ≠ 2 by omega), if_neg (show ¬ 1 = i by omega),
      if_neg (show i ≠ 0 by omega), show reduction i = false from decide_eq_false (by omega),
      coeffOf_false, ite_self]
    rfl

theorem modulus_eq : modulus = X ^ 128 + ofBits 128 reduction := by
  unfold modulus
  rw [ofBits_reduction]

theorem monic_modulus : modulus.Monic := by
  rw [modulus_eq]
  exact monic_X_pow_add_ofBits reduction

theorem degree_modulus : modulus.degree = (128 : ℕ) := by
  rw [modulus_eq]
  exact degree_X_pow_add_ofBits reduction

theorem mk_gfStep_snd (mask : UInt8) :
    AdjoinRoot.mk modulus (poly (gfStep zv mask).2) =
      AdjoinRoot.root modulus * AdjoinRoot.mk modulus (poly zv.2) := by
  have hbits : poly (gfStep zv mask).2 = ofBits 128 fun i =>
      (decide (0 < i) && bit zv.2 (i - 1)) ^^ (reduction i && bit zv.2 127) :=
    ofBits_inj.2 fun i hi => bit_gfStep_snd zv mask hi
  rw [hbits, modulus_eq]
  exact mk_shift (n := 128) (m := 127) (by decide) (bit zv.2) reduction

theorem mk_gfStep_fst (b : Bool) :
    AdjoinRoot.mk modulus (poly (gfStep zv (maskOf b)).1) =
      AdjoinRoot.mk modulus (poly zv.1) + if b then AdjoinRoot.mk modulus (poly zv.2) else 0 := by
  have hbits : poly (gfStep zv (maskOf b)).1 = poly zv.1 + C (coeffOf b) * poly zv.2 := by
    rw [poly, poly, poly, ← ofBits_and, ← ofBits_xor]
    exact ofBits_inj.2 fun i hi => bit_gfStep_fst zv b hi
  cases b <;> simp [hbits]

/-- The block of a polynomial of degree below 128. -/
noncomputable def ofPoly (p : (ZMod 2)[X]) : Block :=
  Vector.ofFn fun j : Fin 16 =>
    UInt8.ofNat (Nat.ofBits fun k : Fin 8 => decide (p.coeff (8 * j + (7 - k)) = 1))

/-- The product of the field: that of the polynomials, modulo the modulus. -/
noncomputable def mul (x y : Block) : Block := ofPoly ((poly x * poly y) %ₘ modulus)

theorem bit_ofPoly (p : (ZMod 2)[X]) {i : ℕ} (hi : i < 128) :
    bit (ofPoly p) i = decide (p.coeff i = 1) := by
  have hj : i / 8 < 16 := by omega
  rw [bit, getD_toList _ hj, ofPoly, Vector.getElem_ofFn, UInt8.toNat_ofNat',
    Nat.mod_eq_of_lt (Nat.ofBits_lt_two_pow _), Nat.testBit_ofBits_lt _ _ (by omega)]
  simp only [show 8 * (i / 8) + (7 - (7 - i % 8)) = i by omega]

theorem ofPoly_poly (b : Block) : ofPoly (poly b) = b := by
  refine ext_bit fun i hi => ?_
  rw [bit_ofPoly _ hi, poly, coeff_ofBits, if_pos hi]
  cases bit b i <;> decide

/-- **The code's product is the field's.** -/
theorem gfMul_eq_mul (x y : Block) : gfMul x y = mul x y := by
  have hloop := (foldl_shiftAdd (fun zv b => gfStep zv (maskOf b))
    (z := fun zv => AdjoinRoot.mk modulus (poly zv.1))
    (v := fun zv => AdjoinRoot.mk modulus (poly zv.2)) (r := AdjoinRoot.root modulus)
    mk_gfStep_fst (fun zv b => mk_gfStep_snd zv (maskOf b)) (bit y)
    (Vector.replicate 16 0, x) 128).1
  have hcode : gfMul x y = ((List.range 128).foldl (fun zv i => gfStep zv (maskOf (bit y i)))
      (Vector.replicate 16 0, x)).1 := by
    rw [gfMul]
    refine congrArg Prod.fst (List.foldl_ext _ _ _ fun zv i _ => ?_)
    rw [mask_eq _ (by omega), bit]
  have hzero : poly (Vector.replicate 16 0) = 0 := by
    rw [poly, ← ofBits_false]
    refine ofBits_inj.2 fun i hi => ?_
    rw [bit, getD_toList _ (by omega), Vector.getElem_replicate]
    exact Nat.zero_testBit _
  rw [← hcode, ← mk_ofBits, hzero, map_zero, zero_add, ← map_mul] at hloop
  have hpoly := ofBits_eq_modByMonic monic_modulus degree_modulus hloop
  rw [mul, ← ofPoly_poly (gfMul x y)]
  exact congrArg ofPoly hpoly

/-! ## The hash -/

/-- The string filled up with zero bytes to a block multiple. -/
def pad (bs : Bytes) : Bytes := bs ++ List.replicate (16 * ((bs.length + 15) / 16) - bs.length) 0

/-- The blocks of a string. -/
def blocks (bs : Bytes) : List Block := (chunks 16 bs).map (Bytes.fit 16)

/-- GHASH under the hash key `h`: every block is added and the sum multiplied by the key. -/
noncomputable def ghash (h : Block) (bs : List Block) : Block :=
  bs.foldl (fun y b => mul (xor16 y b) h) (Vector.replicate 16 0)

/-- The string that is hashed: associated data and ciphertext, each filled up to whole blocks,
and their lengths in bits as 64-bit numbers. -/
def hashInput (aad ct : Bytes) : Bytes :=
  pad aad ++ pad ct ++ (putBe 8 (8 * aad.length) ++ putBe 8 (8 * ct.length))

/-- The tag of SP 800-38D for a 96-bit nonce: the hash under the key `E 0`, encrypted in counter
mode at `J0`. -/
noncomputable def specTag (E : Block → Block) (nonce : Nonce) (aad ct : Bytes) : Block :=
  xor16 (ghash (E (Vector.replicate 16 0)) (blocks (hashInput aad ct))) (E (j0 nonce))

/-! ## The code computes it -/

theorem blocks_of_pos {bs : Bytes} (h : 0 < bs.length) :
    blocks bs = Bytes.fit 16 (bs.take 16) :: blocks (bs.drop 16) := by
  rw [blocks, chunks_of_pos (by decide) h, List.map_cons, blocks]

theorem fit_take (bs : Bytes) : Bytes.fit 16 (bs.take 16) = Bytes.fit 16 bs := by
  refine Vector.ext fun i hi => ?_
  simp [Bytes.fit]

/-- Filling up changes no block: the last one is read with zeros beyond the end anyway. -/
theorem blocks_pad (bs : Bytes) : blocks (pad bs) = blocks bs := by
  have hlen : (pad bs).length = 16 * ((bs.length + 15) / 16) := by
    rw [pad, List.length_append, List.length_replicate]
    omega
  have hcount : ((pad bs).length + 16 - 1) / 16 = (bs.length + 16 - 1) / 16 := by omega
  have hget : ∀ j, (pad bs).getD j 0 = bs.getD j 0 := by
    intro j
    rw [pad]
    by_cases hj : j < bs.length
    · exact List.getD_append _ _ _ _ hj
    · rw [List.getD_append_right _ _ _ _ (by omega), List.getD_eq_default bs 0 (by omega)]
      simp only [List.getD_eq_getElem?_getD, List.getElem?_replicate]
      split <;> rfl
  rw [blocks, blocks, chunks, chunks, hcount, List.map_map, List.map_map]
  refine List.map_congr_left fun i _ => ?_
  rw [Function.comp_apply, Function.comp_apply, fit_take, fit_take]
  refine Vector.ext fun j hj => ?_
  have hij := hget (16 * i + j)
  simpa [Bytes.fit, List.getElem?_drop] using hij

theorem blocks_append {a : Bytes} (ha : 16 ∣ a.length) (b : Bytes) :
    blocks (a ++ b) = blocks a ++ blocks b := by
  obtain ⟨k, hk⟩ := ha
  induction k generalizing a with
  | zero =>
    obtain rfl : a = [] := List.eq_nil_of_length_eq_zero hk
    rfl
  | succ k ih =>
    rw [blocks_of_pos (show 0 < (a ++ b).length by rw [List.length_append]; omega),
      blocks_of_pos (show 0 < a.length by omega),
      List.take_append_of_le_length (by omega), List.drop_append_of_le_length (by omega),
      ih (by rw [List.length_drop]; omega), List.cons_append]

theorem ghashBytes_eq (h y : Block) {fuel : ℕ} {p : Bytes} (hfuel : p.length ≤ fuel) :
    ghashBytes h fuel y p = (blocks p).foldl (fun y b => mul (xor16 y b) h) y := by
  induction fuel generalizing y p with
  | zero =>
    obtain rfl : p = [] := List.eq_nil_of_length_eq_zero (by omega)
    rfl
  | succ fuel ih =>
    rw [ghashBytes]
    by_cases hp : p = []
    · subst hp
      rfl
    · have hpos : 0 < p.length := List.length_pos_iff.2 hp
      rw [if_neg hp, blocks_of_pos hpos, List.foldl_cons, fit_take, ghashBlock, gfMul_eq_mul]
      exact ih _ (by rw [List.length_drop]; omega)

theorem putBe64_u64 (n : ℕ) : putBe64 (u64 (n * 8)) = putBe 8 (8 * n) := by
  have hbyte : ∀ a b : ℕ, a % 256 = b % 256 → UInt8.ofNat a = UInt8.ofNat b := fun a b h =>
    UInt8.toNat_inj.1 (by rw [UInt8.toNat_ofNat', UInt8.toNat_ofNat']; exact h)
  simp only [putBe64, putBe, List.range_succ, List.range_zero, List.map_cons,
    List.map_nil, Nat.shiftRight_eq_div_pow, u64, Nat.div_div_eq_div_mul, List.nil_append, List.cons_append, List.cons.injEq, and_true]
  refine ⟨?_, ?_, ?_, ?_, ?_, ?_, ?_, ?_⟩ <;> exact hbyte _ _ (by omega)

/-- **The code's tag is that of the standard.** -/
theorem tag_eq_specTag (E : Block → Block) (nonce : Nonce) (aad ct : Bytes) :
    tag E nonce aad ct = specTag E nonce aad ct := by
  have hdvd : ∀ bs : Bytes, 16 ∣ (pad bs).length := by
    intro bs
    rw [pad, List.length_append, List.length_replicate]
    omega
  have hlens : blocks (putBe 8 (8 * aad.length) ++ putBe 8 (8 * ct.length)) =
      [Bytes.fit 16 (putBe 8 (8 * aad.length) ++ putBe 8 (8 * ct.length))] := by
    rw [blocks_of_pos (by simp), fit_take]
    rw [List.drop_eq_nil_of_le (by simp)]
    rfl
  rw [tag, specTag, hashInput, ghash, blocks_append (by rw [List.length_append]; exact (hdvd aad).add (hdvd ct)),
    blocks_append (hdvd aad), blocks_pad, blocks_pad, hlens, List.foldl_append, List.foldl_append,
    List.foldl_cons, List.foldl_nil, ghashBytes_eq _ _ le_rfl, ghashBytes_eq _ _ le_rfl,
    putBe64_u64, putBe64_u64, ghashBlock, gfMul_eq_mul]

end Gcm

end Crypto

end QuicVibe
