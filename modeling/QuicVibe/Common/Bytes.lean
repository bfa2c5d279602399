import Mathlib
/-!
# Byte strings, words and fixed buffers

Byte strings as lists of `UInt8`, the arithmetic of an unsigned machine word as natural numbers
reduced where the code may wrap, and fixed-size arrays as vectors. `Buf.writeAt` is the copy loop
`for (i = 0; i < n; i++) buf[off + i] = src[i]`.
-/

namespace QuicVibe

/-- A byte string. -/
abbrev Bytes := List UInt8

/-- The first `n` bytes copied into an `n`-byte array, zero beyond the end. -/
def Bytes.fit (n : ℕ) (xs : Bytes) : Vector UInt8 n := Vector.ofFn fun i => xs.getD i 0

variable {n : ℕ}

theorem Bytes.toList_fit {xs : Bytes} (h : n ≤ xs.length) :
    (Bytes.fit n xs).toList = xs.take n := by
  refine List.ext_getElem (by simp [h]) fun i h₁ h₂ => ?_
  have hi : i < xs.length := by
    rw [List.length_take] at h₂
    omega
  simp [Bytes.fit, hi]

theorem Bytes.fit_toList (v : Vector UInt8 n) : Bytes.fit n v.toList = v := by
  ext i
  simp [Bytes.fit]

/-- The bytes of an ASCII string. -/
def ascii (s : String) : Bytes := s.toUTF8.toList

theorem toList_loop (b : ByteArray) (i : ℕ) (r : Bytes) :
    ByteArray.toList.loop b i r = r.reverse ++ b.data.toList.drop i := by
  fun_induction ByteArray.toList.loop b i r with
  | case1 i r hi ih =>
    have hi' : i < b.data.toList.length := by simpa using hi
    rw [ih, List.drop_eq_getElem_cons hi', List.reverse_cons, List.append_assoc]
    simp [ByteArray.get!, hi]
  | case2 i r hi =>
    have hi' : b.data.toList.length ≤ i := by simpa using hi
    rw [List.drop_eq_nil_of_le hi', List.append_nil]

theorem ascii_eq (s : String) : ascii s = s.toUTF8.data.toList := by
  unfold ascii ByteArray.toList
  rw [toList_loop]
  rfl

/-! ## Exclusive or and comparison -/

theorem xor_and_distrib (a b c : UInt8) : (a ^^^ b) &&& c = (a &&& c) ^^^ (b &&& c) := by
  simp only [← UInt8.toNat_inj, UInt8.toNat_and, UInt8.toNat_xor, Nat.and_xor_distrib_right]

theorem or_and_distrib (a b c : UInt8) : (a ||| b) &&& c = (a &&& c) ||| (b &&& c) := by
  simp only [← UInt8.toNat_inj, UInt8.toNat_and, UInt8.toNat_or, Nat.and_or_distrib_right]

/-- Bytewise exclusive or, as long as both strings last. -/
def xorBytes (a b : Bytes) : Bytes := List.zipWith (· ^^^ ·) a b

@[simp] theorem length_xorBytes (a b : Bytes) :
    (xorBytes a b).length = min a.length b.length := List.length_zipWith

theorem xorBytes_xorBytes {a mask : Bytes} (h : a.length ≤ mask.length) :
    xorBytes (xorBytes a mask) mask = a := by
  induction a generalizing mask with
  | nil => rfl
  | cons x a ih =>
    obtain ⟨m, mask, rfl⟩ := List.exists_cons_of_length_pos (l := mask) (by simp at h; omega)
    have hx : x ^^^ m ^^^ m = x := by rw [UInt8.xor_assoc, UInt8.xor_self, UInt8.xor_zero]
    have ih' := @ih mask (by simpa using h)
    simp only [xorBytes, List.zipWith_cons_cons, hx, List.cons.injEq, true_and] at ih' ⊢
    exact ih'

/-- The difference of two arrays, accumulated without an early exit (`quic_ct_diff16`,
`quic_ct_diff32`). -/
def ctDiff {n : ℕ} (a b : Vector UInt8 n) : UInt8 :=
  (xorBytes a.toList b.toList).foldl (· ||| ·) 0

theorem foldl_or_eq_zero_iff (xs : Bytes) (d : UInt8) :
    xs.foldl (· ||| ·) d = 0 ↔ d = 0 ∧ ∀ x ∈ xs, x = 0 := by
  induction xs generalizing d with
  | nil => simp
  | cons x xs ih =>
    have hor : d ||| x = 0 ↔ d = 0 ∧ x = 0 := by
      simp only [← UInt8.toNat_inj, UInt8.toNat_or, UInt8.toNat_zero, Nat.or_eq_zero_iff]
    rw [List.foldl_cons, ih, hor, List.forall_mem_cons, and_assoc]

theorem xorBytes_eq_zero_iff {a b : Bytes} (h : a.length = b.length) :
    (∀ z ∈ xorBytes a b, z = 0) ↔ a = b := by
  induction a generalizing b with
  | nil => simp [xorBytes, List.length_eq_zero_iff.1 h.symm]
  | cons x xs ih =>
    obtain ⟨y, ys, rfl⟩ := List.exists_cons_of_length_pos (l := b) (by rw [← h]; simp)
    have ih' := ih (b := ys) (by simpa using h)
    simp only [xorBytes, List.zipWith_cons_cons, List.forall_mem_cons, List.cons.injEq,
      UInt8.xor_eq_zero_iff] at ih' ⊢
    rw [ih']

theorem ctDiff_eq_zero_iff (a b : Vector UInt8 n) : ctDiff a b = 0 ↔ a = b := by
  rw [ctDiff, foldl_or_eq_zero_iff, xorBytes_eq_zero_iff (by simp)]
  simp [Vector.toList_inj]

/-- Comparison of two strings by their lengths and the accumulated difference. -/
def bytesEq (a b : Bytes) : Bool := a.length == b.length && (xorBytes a b).foldl (· ||| ·) 0 == 0

@[simp] theorem bytesEq_iff (a b : Bytes) : bytesEq a b = true ↔ a = b := by
  rw [bytesEq, Bool.and_eq_true, beq_iff_eq, beq_iff_eq]
  constructor
  · rintro ⟨hlen, hdiff⟩
    exact (xorBytes_eq_zero_iff hlen).1 ((foldl_or_eq_zero_iff _ _).1 hdiff).2
  · rintro rfl
    exact ⟨rfl, (foldl_or_eq_zero_iff _ _).2 ⟨rfl, (xorBytes_eq_zero_iff rfl).2 rfl⟩⟩

/-! ## Blocks -/

/-- The string in blocks of `n` bytes, the last one as long as what is left. -/
def chunks (n : ℕ) (bs : Bytes) : List Bytes :=
  (List.range ((bs.length + n - 1) / n)).map fun i => (bs.drop (n * i)).take n

@[simp] theorem chunks_nil (hn : 0 < n) : chunks n [] = [] := by
  have h : (([] : Bytes).length + n - 1) / n = 0 := Nat.div_eq_of_lt (by simp; omega)
  rw [chunks, h, List.range_zero, List.map_nil]

theorem chunks_of_pos (hn : 0 < n) {bs : Bytes} (hbs : 0 < bs.length) :
    chunks n bs = bs.take n :: chunks n (bs.drop n) := by
  have hcount : (bs.length + n - 1) / n = ((bs.drop n).length + n - 1) / n + 1 := by
    rw [← Nat.add_div_right _ hn, List.length_drop]
    by_cases h : n ≤ bs.length
    · congr 1
      omega
    · have h₁ : (bs.length + n - 1) / n = 1 :=
        Nat.div_eq_of_lt_le (by omega) (by omega)
      have h₂ : (bs.length - n + n - 1 + n) / n = 1 :=
        Nat.div_eq_of_lt_le (by omega) (by omega)
      rw [h₁, h₂]
  rw [chunks, hcount, List.range_succ_eq_map, List.map_cons, List.map_map, Nat.mul_zero,
    List.drop_zero, chunks]
  congr 1
  refine List.map_congr_left fun i _ => ?_
  rw [Function.comp_apply, List.drop_drop, Nat.mul_succ, Nat.add_comm]

/-! ## 64-bit words -/

/-- The value a `u64` expression has after the reduction modulo `2 ^ 64`. -/
def u64 (n : ℕ) : ℕ := n % 2 ^ 64

/-- The value a `u32` expression has after the reduction modulo `2 ^ 32`. -/
def u32 (n : ℕ) : ℕ := n % 2 ^ 32

/-- Subtraction of two `u64` values. -/
def sub64 (a b : ℕ) : ℕ := (a + 2 ^ 64 - b) % 2 ^ 64

theorem u64_of_lt (h : n < 2 ^ 64) : u64 n = n := Nat.mod_eq_of_lt h

theorem sub64_sub64 {a b : ℕ} (h : b ≤ a) (ha : a < 2 ^ 64) : sub64 a (sub64 a b) = b := by
  simp only [sub64]
  omega

theorem sub64_of_le {a b : ℕ} (h : b ≤ a) (ha : a < 2 ^ 64) : sub64 a b = a - b := by
  have : a + 2 ^ 64 - b = a - b + 2 ^ 64 := by omega
  rw [sub64, this, Nat.add_mod_right, Nat.mod_eq_of_lt (by omega)]

/-! ## Big-endian numbers -/

/-- The low `n` bytes of `v`, most significant first. -/
def putBe : ℕ → ℕ → Bytes
  | 0, _ => []
  | n + 1, v => putBe n (v / 256) ++ [UInt8.ofNat (v % 256)]

/-- The number a byte string spells, most significant byte first. -/
def readBe (bs : Bytes) : ℕ := bs.foldl (fun v b => v * 256 + b.toNat) 0

@[simp] theorem length_putBe (n v : ℕ) : (putBe n v).length = n := by
  induction n generalizing v with
  | zero => rfl
  | succ n ih => simp [putBe, ih]

variable (bs : Bytes)

theorem readBe_snoc (b : UInt8) : readBe (bs ++ [b]) = readBe bs * 256 + b.toNat := by
  simp [readBe]

theorem readBe_putBe (n v : ℕ) : readBe (putBe n v) = v % 256 ^ n := by
  induction n generalizing v with
  | zero => simp [putBe, readBe, Nat.mod_one]
  | succ n ih =>
    have hb : (UInt8.ofNat (v % 256)).toNat = v % 256 := by simp
    rw [putBe, readBe_snoc, ih, hb, Nat.pow_succ, Nat.mul_comm (256 ^ n), Nat.mod_mul]
    omega

theorem readBe_cons_lt (b : UInt8) (bs : Bytes) :
    readBe (b :: bs) < (b.toNat + 1) * 256 ^ bs.length := by
  induction bs using List.reverseRecOn with
  | nil => simp [readBe]
  | append_singleton bs x ih =>
    have hx := x.toNat_lt
    rw [← List.cons_append, readBe_snoc, List.length_append, List.length_singleton, Nat.pow_succ,
      ← Nat.mul_assoc]
    omega

theorem putBe_readBe : putBe bs.length (readBe bs) = bs := by
  induction bs using List.reverseRecOn with
  | nil => rfl
  | append_singleton bs b ih =>
    have hb := b.toNat_lt
    have hdiv : (readBe bs * 256 + b.toNat) / 256 = readBe bs := by omega
    have hmod : (readBe bs * 256 + b.toNat) % 256 = b.toNat := by omega
    rw [List.length_append, List.length_singleton, putBe, readBe_snoc, hdiv, hmod, ih,
      UInt8.ofNat_toNat]

theorem readBe_lt : readBe bs < 256 ^ bs.length := by
  rw [← putBe_readBe bs, readBe_putBe, length_putBe]
  exact Nat.mod_lt _ (Nat.pow_pos (by omega))

/-! ## Fixed buffers -/

namespace Buf

variable {α : Type*} {n : ℕ}

/-- Copy `xs` into the buffer from index `off` on. -/
def writeAt (v : Vector α n) : ℕ → List α → Vector α n
  | _, [] => v
  | off, x :: xs => writeAt (v.setIfInBounds off x) (off + 1) xs

variable (v : Vector α n)

@[simp] theorem writeAt_nil (off : ℕ) : writeAt v off [] = v := rfl

theorem getElem_writeAt (off : ℕ) (xs : List α) (i : ℕ) (hi : i < n) :
    (writeAt v off xs)[i] = if off ≤ i then xs[i - off]?.getD v[i] else v[i] := by
  induction xs generalizing v off with
  | nil => simp
  | cons x xs ih =>
    rw [writeAt, ih, Vector.getElem_setIfInBounds hi]
    rcases Nat.lt_trichotomy off i with h | rfl | h
    · obtain ⟨k, rfl⟩ : ∃ k, i = off + 1 + k := ⟨i - (off + 1), by omega⟩
      have hk : off + 1 + k - off = k + 1 := by omega
      simp [hk, show off ≤ off + 1 + k by omega, show off ≠ off + 1 + k by omega]
    · simp [show ¬ off + 1 ≤ off by omega]
    · simp [show ¬ off ≤ i by omega, show ¬ off + 1 ≤ i by omega, show off ≠ i by omega]

variable {off : ℕ} {xs : List α}

theorem getElem_writeAt_of_mem {v : Vector α n} {i : ℕ} (hi : i < n) (h₁ : off ≤ i)
    (h₂ : i - off < xs.length) : (writeAt v off xs)[i] = xs[i - off] := by
  rw [getElem_writeAt, if_pos h₁, List.getElem?_eq_getElem h₂, Option.getD_some]

theorem getElem_writeAt_of_not_mem {v : Vector α n} {i : ℕ} (hi : i < n)
    (h : ¬ (off ≤ i ∧ i < off + xs.length)) : (writeAt v off xs)[i] = v[i] := by
  rw [getElem_writeAt]
  split
  · rw [List.getElem?_eq_none (by omega), Option.getD_none]
  · rfl

theorem toList_writeAt_zero (h : xs.length ≤ n) :
    (writeAt v 0 xs).toList = xs ++ v.toList.drop xs.length := by
  refine List.ext_getElem (by simp; omega) fun i h₁ h₂ => ?_
  have hi : i < n := by simpa using h₁
  rw [Vector.getElem_toList]
  by_cases hx : i < xs.length
  · rw [getElem_writeAt_of_mem hi (Nat.zero_le i) (by simpa using hx), List.getElem_append_left hx]
    rfl
  · rw [getElem_writeAt_of_not_mem hi (by omega), List.getElem_append_right (by omega)]
    simp [show xs.length + (i - xs.length) = i by omega]

theorem take_toList_writeAt (h : off + xs.length ≤ n) :
    (writeAt v off xs).toList.take (off + xs.length) = v.toList.take off ++ xs := by
  refine List.ext_getElem (by simp; omega) fun i h₁ h₂ => ?_
  have hi : i < min (off + xs.length) n := by simpa using h₁
  rw [List.getElem_take, Vector.getElem_toList]
  by_cases hx : i < off
  · rw [getElem_writeAt_of_not_mem (by omega) (by omega), List.getElem_append_left (by simp; omega),
      List.getElem_take, Vector.getElem_toList]
  · rw [getElem_writeAt_of_mem (by omega) (by omega) (by omega),
      List.getElem_append_right (by simp; omega)]
    simp [show min off n = off by omega]

end Buf

end QuicVibe
