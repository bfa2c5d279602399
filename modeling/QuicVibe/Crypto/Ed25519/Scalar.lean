import QuicVibe.Common.Words
/-!
# The scalars of Ed25519

Arithmetic modulo the order of the group, as `ed25519_sign.c` does it on little-endian strings: a
string of 64 bytes is reduced bit by bit from the top, and the product of two strings is collected in
columns of 64-bit words.
-/

namespace QuicVibe

namespace Crypto

namespace Ed25519

open Words Limbs

variable {n : ℕ}

/-- The byte at an index. -/
def byte (v : Vector UInt8 n) (i : ℕ) : ℕ := dig UInt8.toNat v i

/-- The number in an array of bytes, least significant first. -/
def num (v : Vector UInt8 n) : ℕ := readLe v.toList

/-! ## The code -/

/-- `ORDER_L`. -/
def orderL : Vector UInt8 32 :=
  #v[0xed, 0xd3, 0xf5, 0x5c, 0x1a, 0x63, 0x12, 0x58, 0xd6, 0x9c, 0xf7, 0xa2, 0xde, 0xf9, 0xde, 0x14,
     0x00, 0x00, 0x00, 0x00, 0x00, 0x00, 0x00, 0x00, 0x00, 0x00, 0x00, 0x00, 0x00, 0x00, 0x00, 0x10]

def scGe (a b : Vector UInt8 32) : Bool := geFrom (byte a) (byte b) 32

/-- The loop body of `sc_subl`. -/
def sublStep (l r : Vector UInt8 n) (i borrow : ℕ) : UInt8 × ℕ :=
  let v : ℤ := byte r i - byte l i - borrow
  let borrow := (decide (v < 0)).toNat
  (UInt8.ofInt (v + (borrow <<< 8 : ℕ)), borrow)

/-- The loop of `sc_subl`. -/
def subl (l r : Vector UInt8 n) : Vector UInt8 n := (pass (sublStep l r) 0 n).1

def scSubl (r : Vector UInt8 32) : Vector UInt8 32 := subl orderL r

/-- The loop body of `sc_shl1`. -/
def shl1Step (r : Vector UInt8 n) (i carry : ℕ) : UInt8 × ℕ :=
  let v := byte r i <<< 1 ||| carry
  (UInt8.ofNat v, v >>> 8)

/-- `sc_shl1`, for arrays of any length: the shifted array and the bit that left it. -/
def scShl1 (r : Vector UInt8 n) (bit : ℕ) : Vector UInt8 n × ℕ := pass (shl1Step r) bit n

def scDblAddBit (r : Vector UInt8 32) (bit : ℕ) : Vector UInt8 32 :=
  let s := scShl1 r bit
  if s.2 ≠ 0 ∨ scGe s.1 orderL = true then scSubl s.1 else s.1

def scReduce64 (inp : Vector UInt8 64) : Vector UInt8 32 :=
  forDown (fun out i => scDblAddBit out (((inp.toList.getD (i / 8) 0).toNat >>> (i &&& 7)) &&& 1))
    512 (Vector.replicate 32 0)

/-- The loop body of `sc_mul_row`. -/
def mulRowStep {m : ℕ} (a b : Vector UInt8 n) (i : ℕ) (t : Vector ℕ m) (j : ℕ) : Vector ℕ m :=
  t.setIfInBounds (i + j) ((dig id t (i + j) + byte a i * byte b j) % 2 ^ 64)

/-- `sc_mul_row`, for factors of any length. -/
def scMulRow {m : ℕ} (a b : Vector UInt8 n) (t : Vector ℕ m) (i : ℕ) : Vector ℕ m :=
  forUp (mulRowStep a b i) t n

/-- The second loop body of `sc_mul512`. -/
def carryStep (t : Vector ℕ n) (i c : ℕ) : UInt8 × ℕ :=
  let v := (dig id t i + c) % 2 ^ 64
  (UInt8.ofNat v, v >>> 8)

/-- The second loop of `sc_mul512`. -/
def carryColumns (t : Vector ℕ n) : Vector UInt8 n × ℕ := pass (carryStep t) 0 n

def scMul512 (a b : Vector UInt8 32) : Vector UInt8 64 :=
  (carryColumns (forUp (scMulRow a b) (Vector.replicate 64 0) 32)).1

/-- The loop body of `sc_add32`. -/
def add32Step {m : ℕ} (prod : Vector UInt8 m) (c : Vector UInt8 n) (i carry : ℕ) : UInt8 × ℕ :=
  let v := byte prod i + carry + if i < n then byte c i else 0
  (UInt8.ofNat v, v >>> 8)

/-- The loop of `sc_add32`. -/
def addBytes {m : ℕ} (prod : Vector UInt8 m) (c : Vector UInt8 n) : Vector UInt8 m × ℕ :=
  pass (add32Step prod c) 0 m

def scAdd32 (prod : Vector UInt8 64) (c : Vector UInt8 32) : Vector UInt8 64 := (addBytes prod c).1

def scMuladd (a b c : Vector UInt8 32) : Vector UInt8 32 := scReduce64 (scAdd32 (scMul512 a b) c)

/-! ## Numbers -/

/-- The order of the group. -/
def order : ℕ := 2 ^ 252 + 27742317777372353535851937790883648493

theorem num_orderL : num orderL = order := by decide

theorem byte_lt (v : Vector UInt8 n) (i : ℕ) : byte v i < 256 :=
  dig_lt UInt8.toNat_lt (by decide) v i

theorem num_eq_low (v : Vector UInt8 n) : num v = low 256 (byte v) n := by
  rw [num, readLe_eq_low, Vector.length_toList]
  refine low_congr fun i hi => ?_
  rw [byte, dig_of_lt hi, List.getD_eq_getElem _ _ (by simpa using hi), Vector.getElem_toList]

theorem num_lt (v : Vector UInt8 n) : num v < 256 ^ n := by
  rw [num_eq_low]
  exact low_lt fun i _ => byte_lt v i

theorem num_replicate_zero (n : ℕ) : num (Vector.replicate n 0) = 0 := by
  rw [num, readLe_eq_zero_iff]
  intro b hb
  simp at hb
  exact hb.2

/-! ## Reduction -/

theorem scGe_iff (a b : Vector UInt8 32) : scGe a b = true ↔ num b ≤ num a := by
  rw [scGe, geFrom_iff (fun i _ => byte_lt a i) fun i _ => byte_lt b i, num_eq_low, num_eq_low]

theorem num_subl (l r : Vector UInt8 n) :
    ∃ borrow ≤ 1, num (subl l r) + num l = num r + 256 ^ n * borrow := by
  have hstep : ∀ i < n, ∀ br, br ≤ 1 →
      (sublStep l r i br).1.toNat + byte l i + br + 256 * 0 =
        byte r i + 0 + 256 * (sublStep l r i br).2 ∧ (sublStep l r i br).2 ≤ 1 := by
    intro i _ br hbr
    have hr := byte_lt r i
    have hl := byte_lt l i
    rw [sublStep]
    by_cases hneg : (byte r i : ℤ) - byte l i - br < 0
    · simp only [hneg, decide_true, Bool.toNat_true, UInt8.ofInt, UInt8.toNat_ofNat']
      omega
    · simp only [hneg, decide_false, Bool.toNat_false, UInt8.ofInt, UInt8.toNat_ofNat']
      omega
  obtain ⟨hval, hborrow⟩ := pass_balance (fun _ => 0) (fun br => br) (P := (· ≤ 1)) hstep
    (Nat.zero_le 1)
  simp only [Nat.mul_zero, Nat.add_zero] at hval
  refine ⟨_, hborrow, ?_⟩
  rw [num_eq_low, num_eq_low, num_eq_low]
  exact hval

variable {bit m i : ℕ}

theorem num_scShl1 (r : Vector UInt8 n) (hbit : bit ≤ 1) :
    num (scShl1 r bit).1 + 256 ^ n * (scShl1 r bit).2 = 2 * num r + bit := by
  have hstep : ∀ i < n, ∀ c, c ≤ 1 →
      (shl1Step r i c).1.toNat + 0 + 0 + 256 * (shl1Step r i c).2 =
        2 * byte r i + c + 256 * 0 ∧ (shl1Step r i c).2 ≤ 1 := by
    intro i _ c hc
    have hr := byte_lt r i
    have hlor : byte r i <<< 1 ||| c = 2 * byte r i + c := by
      rw [Nat.or_comm, lor_shiftLeft_eq_add _ (by omega)]
      omega
    simp only [shl1Step, hlor, UInt8.toNat_ofNat', Nat.shiftRight_eq_div_pow]
    omega
  have hval := (pass_balance (fun c => c) (fun _ => 0) (P := (· ≤ 1)) (f := fun i => 2 * byte r i)
    (g := fun _ => 0) hstep hbit).1
  have hdouble : low 256 (fun i => 2 * byte r i) n = 2 * num r := by
    rw [num_eq_low]
    simp only [low, Nat.mul_assoc, ← Finset.mul_sum]
  have hzero : low 256 (fun _ => 0) n = 0 := by simp [low]
  simp only [hdouble, hzero, Nat.mul_zero, Nat.add_zero] at hval
  rw [num_eq_low (scShl1 r bit).1]
  exact hval

/-- **One bit.** -/
theorem num_scDblAddBit {r : Vector UInt8 32} (hr : num r < order) (hbit : bit ≤ 1) :
    num (scDblAddBit r bit) = (2 * num r + bit) % order := by
  have hshl := num_scShl1 r hbit
  obtain ⟨borrow, -, hsub⟩ := num_subl orderL (scShl1 r bit).1
  have hlt := num_lt (subl orderL (scShl1 r bit).1)
  have horder : order < 2 ^ 253 := by decide
  -- twice the remainder fits in the array
  have hout : (scShl1 r bit).2 = 0 := by omega
  rw [hout, Nat.mul_zero, Nat.add_zero] at hshl
  rw [scDblAddBit]
  simp only [hout, ne_eq, not_true_eq_false, false_or, scGe_iff, num_orderL, hshl]
  rw [hshl, num_orderL] at hsub
  split
  · rename_i hge
    rw [scSubl, Nat.mod_eq_sub_mod hge, Nat.mod_eq_of_lt (by omega)]
    omega
  · rename_i hless
    rw [hshl, Nat.mod_eq_of_lt (by omega)]

/-- **Reduction** of 64 bytes, from the top bit down. -/
theorem num_scReduce64 (inp : Vector UInt8 64) : num (scReduce64 inp) = num inp % order := by
  have hinv : num (scReduce64 inp) = num inp / 2 ^ 0 % order := by
    refine forDown_induct (fun i out => num out = num inp / 2 ^ i % order) ?_ ?_
    · have hlt : num inp < 2 ^ 512 := (num_lt inp).trans_eq (by rw [show 256 = 2 ^ 8 from rfl, ← pow_mul])
      rw [num_replicate_zero, Nat.div_eq_of_lt hlt, Nat.zero_mod]
    · intro i _ out hout
      have hlt : num out < order := hout ▸ Nat.mod_lt _ (by decide)
      have hbit := bit_readLe inp.toList i
      rw [Nat.toNat_testBit] at hbit
      have hsplit : num inp / 2 ^ i = 2 * (num inp / 2 ^ (i + 1)) + num inp / 2 ^ i % 2 := by
        rw [pow_succ, ← Nat.div_div_eq_div_mul]
        omega
      rw [hbit, num_scDblAddBit hlt (by omega), hout, hsplit, Nat.add_mod, Nat.mul_mod_mod,
        ← Nat.add_mod]
      rfl
  rwa [pow_zero, Nat.div_one] at hinv

/-! ## Products -/

/-- What `j` steps of a row have done to the columns: one product of bytes was added to each of
those from `i` on, and none above. -/
structure RowInv {m : ℕ} (a b : Vector UInt8 n) (i : ℕ) (t : Vector ℕ m) (j : ℕ) (s : Vector ℕ m) :
    Prop where
  above : ∀ k, i + j ≤ k → dig id s k = dig id t k
  bound : ∀ k, dig id s k ≤ dig id t k + 255 * 255
  value : low 256 (dig id s) m = low 256 (dig id t) m + 256 ^ i * (byte a i * low 256 (byte b) j)

theorem RowInv.step {a b : Vector UInt8 n} {j : ℕ} {t s : Vector ℕ m} (h : RowInv a b i t j s)
    (ht : ∀ k, dig id t k ≤ 2 ^ 32) (hij : i + j < m) :
    RowInv a b i t (j + 1) (mulRowStep a b i s j) := by
  have hprod : byte a i * byte b j ≤ 255 * 255 :=
    Nat.mul_le_mul (Nat.le_of_lt_succ (byte_lt a i)) (Nat.le_of_lt_succ (byte_lt b j))
  have hread := h.above (i + j) le_rfl
  have htij := ht (i + j)
  have hnew : (dig id s (i + j) + byte a i * byte b j) % 2 ^ 64 =
      dig id t (i + j) + byte a i * byte b j := by
    rw [hread]
    exact Nat.mod_eq_of_lt (by omega)
  rw [mulRowStep, hnew]
  refine ⟨fun k hk => ?_, fun k => ?_, ?_⟩
  · rw [dig_set_ne _ _ (by omega)]
    exact h.above k (by omega)
  · rw [dig_set]
    split
    · rename_i hk
      obtain ⟨rfl, -⟩ := hk
      dsimp only [id]
      omega
    · exact h.bound k
  · have hset : low 256 (dig id (s.setIfInBounds (i + j) (dig id t (i + j) + byte a i * byte b j)))
        m + dig id s (i + j) * 256 ^ (i + j) = low 256 (dig id s) m +
          id (dig id t (i + j) + byte a i * byte b j) * 256 ^ (i + j) := low_dig_set s hij _
    rw [hread, h.value, id, pow_add] at hset
    rw [low_succ]
    linarith

/-- **A row** adds its multiple of the second factor. -/
theorem scMulRow_spec (a b : Vector UInt8 n) {t : Vector ℕ m} (ht : ∀ k, dig id t k ≤ 2 ^ 32)
    (him : i + n ≤ m) : RowInv a b i t n (scMulRow a b t i) := by
  refine forUp_induct (RowInv a b i t) ⟨fun _ _ => rfl, fun _ => Nat.le_add_right _ _, by simp⟩ ?_
  intro j hj s hs
  exact hs.step ht (by omega)

theorem num_carryColumns {t : Vector ℕ n} (ht : ∀ k, dig id t k ≤ 2 ^ 32) :
    num (carryColumns t).1 + 256 ^ n * (carryColumns t).2 = low 256 (dig id t) n := by
  have hstep : ∀ i < n, ∀ c, c ≤ 2 ^ 32 →
      (carryStep t i c).1.toNat + 0 + 0 + 256 * (carryStep t i c).2 =
        dig id t i + c + 256 * 0 ∧ (carryStep t i c).2 ≤ 2 ^ 32 := by
    intro i _ c hc
    have hti := ht i
    simp only [carryStep, UInt8.toNat_ofNat', Nat.shiftRight_eq_div_pow]
    omega
  have hval := (pass_balance (fun c => c) (fun _ => 0) (P := (· ≤ 2 ^ 32)) (g := fun _ => 0) hstep
    (Nat.zero_le _)).1
  have hzero : low 256 (fun _ => 0) n = 0 := by simp [low]
  simp only [hzero, Nat.mul_zero, Nat.add_zero] at hval
  rw [num_eq_low]
  exact hval

theorem columns_spec (a b : Vector UInt8 n) (hm : n + n ≤ m) (hn : n ≤ 32) :
    low 256 (dig id (forUp (scMulRow a b) (Vector.replicate m 0) n)) m = num a * num b ∧
      ∀ k, dig id (forUp (scMulRow a b) (Vector.replicate m 0) n) k ≤ 2 ^ 32 := by
  have hrows : low 256 (dig id (forUp (scMulRow a b) (Vector.replicate m 0) n)) m =
      low 256 (byte a) n * num b ∧
        ∀ k, dig id (forUp (scMulRow a b) (Vector.replicate m 0) n) k ≤ n * (255 * 255) := by
    refine forUp_induct (fun i (t : Vector ℕ m) => low 256 (dig id t) m = low 256 (byte a) i * num b ∧
      ∀ k, dig id t k ≤ i * (255 * 255)) ⟨?_, fun k => ?_⟩ ?_
    · rw [low_zero, Nat.zero_mul, low_eq_zero_iff (by decide)]
      intro k hk
      rw [dig_of_lt hk, Vector.getElem_replicate, id]
    · rw [dig]
      split
      · rw [Vector.getElem_replicate, id, Nat.zero_mul]
      · exact Nat.zero_le _
    · rintro i hi t ⟨hval, hbound⟩
      have hrow := scMulRow_spec a b (fun k => (hbound k).trans (by omega)) (show i + n ≤ m by omega)
      refine ⟨?_, fun k => (hrow.bound k).trans ?_⟩
      · rw [hrow.value, hval, ← num_eq_low b, low_succ]
        ring
      · have := hbound k
        omega
  rw [num_eq_low a]
  exact ⟨hrows.1, fun k => (hrows.2 k).trans (by omega)⟩

theorem eq_of_no_carry {B x c y : ℕ} (h : x + B * c = y) (hy : y < B) : x = y := by
  rcases Nat.eq_zero_or_pos c with rfl | hpos
  · rwa [Nat.mul_zero, Nat.add_zero] at h
  · have := Nat.le_mul_of_pos_right B hpos
    omega

theorem num_scMul512 (a b : Vector UInt8 32) : num (scMul512 a b) = num a * num b := by
  obtain ⟨hval, hbound⟩ := columns_spec (m := 64) a b le_rfl le_rfl
  have hcarry := num_carryColumns hbound
  have hlt : num a * num b < 256 ^ 64 :=
    calc num a * num b < 256 ^ 32 * 256 ^ 32 := Nat.mul_lt_mul'' (num_lt a) (num_lt b)
      _ = 256 ^ 64 := by rw [← pow_add]
  rw [hval] at hcarry
  rw [scMul512]
  exact eq_of_no_carry hcarry hlt

theorem num_addBytes (prod : Vector UInt8 m) (c : Vector UInt8 n) (hnm : n ≤ m) :
    num (addBytes prod c).1 + 256 ^ m * (addBytes prod c).2 = num prod + num c := by
  have hstep : ∀ i < m, ∀ carry, carry ≤ 1 →
      (add32Step prod c i carry).1.toNat + 0 + 0 + 256 * (add32Step prod c i carry).2 =
        byte prod i + byte c i + carry + 256 * 0 ∧ (add32Step prod c i carry).2 ≤ 1 := by
    intro i _ carry hcarry
    have hp := byte_lt prod i
    have hc := byte_lt c i
    have hread : (if i < n then byte c i else 0) = byte c i := by
      split
      · rfl
      · rename_i hi
        rw [byte, dig, dif_neg hi]
    simp only [add32Step, hread, UInt8.toNat_ofNat', Nat.shiftRight_eq_div_pow]
    omega
  have hval := (pass_balance (fun c => c) (fun _ => 0) (P := (· ≤ 1))
    (f := fun i => byte prod i + byte c i) (g := fun _ => 0) hstep (Nat.zero_le 1)).1
  have hlong : low 256 (byte c) m = num c := by
    obtain ⟨k, rfl⟩ := Nat.exists_eq_add_of_le hnm
    have hzero : low 256 (fun i => byte c (n + i)) k = 0 :=
      (low_eq_zero_iff (by decide)).2 fun i _ => dif_neg (by omega)
    rw [low_add, hzero, Nat.mul_zero, Nat.add_zero, num_eq_low]
  have hsum : low 256 (fun i => byte prod i + byte c i) m = num prod + num c := by
    rw [num_eq_low prod, ← hlong]
    simp only [low, Nat.add_mul, Finset.sum_add_distrib]
  have hzero : low 256 (fun _ => 0) m = 0 := by simp [low]
  simp only [hsum, hzero, Nat.mul_zero, Nat.add_zero] at hval
  rw [num_eq_low (addBytes prod c).1]
  exact hval

theorem num_scAdd32_scMul512 (a b c : Vector UInt8 32) :
    num (scAdd32 (scMul512 a b) c) = num a * num b + num c := by
  have hadd := num_addBytes (scMul512 a b) c (by decide)
  have ha := num_lt a
  have hb := num_lt b
  have hc := num_lt c
  have hprod : num a * num b ≤ (256 ^ 32 - 1) * (256 ^ 32 - 1) :=
    Nat.mul_le_mul (Nat.le_sub_one_of_lt ha) (Nat.le_sub_one_of_lt hb)
  have hroom : (256 ^ 32 - 1) * (256 ^ 32 - 1) + 256 ^ 32 < 256 ^ 64 := by decide
  rw [num_scMul512] at hadd
  rw [scAdd32]
  exact eq_of_no_carry hadd (by omega)

/-- **Scalar arithmetic.** A string of 64 bytes is reduced modulo the order of the group, the
product of two strings plus a third is computed modulo the order, and both results are below it. -/
theorem scReduce64_scMuladd_exact :
    (∀ inp : Vector UInt8 64,
      num (scReduce64 inp) = num inp % order ∧ num (scReduce64 inp) < order) ∧
    (∀ a b c : Vector UInt8 32,
      num (scMuladd a b c) = (num a * num b + num c) % order ∧ num (scMuladd a b c) < order) := by
  have hlt : ∀ x, x % order < order := fun x => Nat.mod_lt x (by decide)
  refine ⟨fun inp => ?_, fun a b c => ?_⟩
  · rw [num_scReduce64]
    exact ⟨rfl, hlt _⟩
  · rw [scMuladd, num_scReduce64, num_scAdd32_scMul512]
    exact ⟨rfl, hlt _⟩

end Ed25519

end Crypto

end QuicVibe
