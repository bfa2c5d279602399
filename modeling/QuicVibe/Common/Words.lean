import QuicVibe.Common.Limbs

/-!
# Numbers in arrays of words

What code that keeps a number in an array of machine words is built from: loops with an index, passes
that carry something along, the comparison from the top, the row of a schoolbook product. The number
is `low B f n`, for any radix and any way to read a digit at an index. The bytes of a big-endian
string are digits counted from its end, and words are groups of eight.
-/

namespace QuicVibe

namespace Words

open Limbs

section

variable {α β σ τ : Type*}

/-! ## Loops -/

/-- `for (i = 0; i < n; i++)`. -/
def forUp (body : σ → ℕ → σ) (s : σ) : ℕ → σ
  | 0 => s
  | n + 1 => body (forUp body s n) n

/-- `for (i = n; i-- > 0;)`. -/
def forDown (body : σ → ℕ → σ) : ℕ → σ → σ
  | 0, s => s
  | n + 1, s => forDown body n (body s n)

variable (body : σ → ℕ → σ)

@[simp] theorem forUp_zero (s : σ) : forUp body s 0 = s := rfl

theorem forUp_succ (s : σ) (n : ℕ) :
    forUp body s (n + 1) = body (forUp body s n) n := rfl

@[simp] theorem forDown_zero (s : σ) : forDown body 0 s = s := rfl

theorem forDown_succ (n : ℕ) (s : σ) :
    forDown body (n + 1) s = forDown body n (body s n) := rfl

variable {body : σ → ℕ → σ} {s : σ} {i j : ℕ} {b : ℕ → ℕ}

/-- **Invariant rule** for the loop up: the invariant may speak of the index. -/
theorem forUp_induct (P : ℕ → σ → Prop) {n : ℕ} (h₀ : P 0 s)
    (hstep : ∀ i < n, ∀ s, P i s → P (i + 1) (body s i)) : P n (forUp body s n) := by
  induction n with
  | zero => exact h₀
  | succ n ih =>
    exact hstep n (Nat.lt_succ_self n) _ (ih fun i hi => hstep i (Nat.lt_succ_of_lt hi))

/-- **Invariant rule** for the loop down. -/
theorem forDown_induct (P : ℕ → σ → Prop) {n : ℕ} (hn : P n s)
    (hstep : ∀ i < n, ∀ s, P (i + 1) s → P i (body s i)) : P 0 (forDown body n s) := by
  induction n generalizing s with
  | zero => exact hn
  | succ n ih =>
    exact ih (hstep n (Nat.lt_succ_self n) s hn) fun i hi => hstep i (Nat.lt_succ_of_lt hi)

/-- **Simulation rule**: two loops in step. -/
theorem forUp_rel {body' : τ → ℕ → τ} (R : σ → τ → Prop) {t : τ} {n : ℕ} (h₀ : R s t)
    (hstep : ∀ i < n, ∀ s t, R s t → R (body s i) (body' t i)) :
    R (forUp body s n) (forUp body' t n) := by
  induction n with
  | zero => exact h₀
  | succ n ih =>
    exact hstep n (Nat.lt_succ_self n) _ _ (ih fun i hi => hstep i (Nat.lt_succ_of_lt hi))

/-! ## Digits -/

/-- The number whose digits are `f 0, …, f (n - 1)`, least significant first. -/
def low (B : ℕ) (f : ℕ → ℕ) (n : ℕ) : ℕ := ∑ i ∈ Finset.range n, f i * B ^ i

variable {B : ℕ} {f g : ℕ → ℕ} {n : ℕ}

@[simp] theorem low_zero (B : ℕ) (f : ℕ → ℕ) : low B f 0 = 0 := rfl

theorem low_succ (B : ℕ) (f : ℕ → ℕ) (n : ℕ) : low B f (n + 1) = low B f n + f n * B ^ n :=
  Finset.sum_range_succ ..

theorem low_succ' (B : ℕ) (f : ℕ → ℕ) (n : ℕ) :
    low B f (n + 1) = f 0 + B * low B (fun i => f (i + 1)) n := by
  rw [low, Finset.sum_range_succ', low, Finset.mul_sum, pow_zero, mul_one, Nat.add_comm]
  refine congrArg (f 0 + ·) (Finset.sum_congr rfl fun i _ => ?_)
  ring

theorem low_congr (h : ∀ i < n, f i = g i) : low B f n = low B g n :=
  Finset.sum_congr rfl fun i hi => by rw [h i (Finset.mem_range.1 hi)]

theorem low_add (B : ℕ) (f : ℕ → ℕ) (m n : ℕ) :
    low B f (m + n) = low B f m + B ^ m * low B (fun i => f (m + i)) n := by
  induction n with
  | zero => simp
  | succ n ih =>
    rw [← Nat.add_assoc, low_succ, ih, low_succ, pow_add]
    ring

theorem low_lt (hf : ∀ i < n, f i < B) : low B f n < B ^ n := by
  induction n with
  | zero => simp
  | succ n ih =>
    have hn := hf n (Nat.lt_succ_self n)
    have hlow := ih fun i hi => hf i (Nat.lt_succ_of_lt hi)
    calc low B f (n + 1) = low B f n + f n * B ^ n := low_succ ..
      _ < (f n + 1) * B ^ n := by linarith
      _ ≤ B ^ (n + 1) := by
        rw [pow_succ']
        exact Nat.mul_le_mul_right _ hn

theorem low_div_mod (hf : ∀ i < n, f i < B) (hi : i < n) : low B f n / B ^ i % B = f i := by
  have hB : 0 < B := lt_of_le_of_lt (Nat.zero_le _) (hf i hi)
  obtain ⟨m, rfl⟩ : ∃ m, n = i + (m + 1) := ⟨n - i - 1, by omega⟩
  have hlow : low B f i < B ^ i := low_lt fun j hj => hf j (by omega)
  rw [low_add, Nat.add_mul_div_left _ _ (Nat.pow_pos hB), Nat.div_eq_of_lt hlow, Nat.zero_add,
    low_succ', Nat.add_mul_mod_self_left, Nat.add_zero, Nat.mod_eq_of_lt (hf i hi)]

theorem digits_eq_of_low (hf : ∀ i < n, f i < B) (hg : ∀ i < n, g i < B)
    (h : low B f n = low B g n) : ∀ i < n, f i = g i := by
  intro i hi
  rw [← low_div_mod hf hi, h, low_div_mod hg hi]

theorem low_div_mod_self (B x n : ℕ) : low B (fun i => x / B ^ i % B) n = x % B ^ n := by
  induction n with
  | zero => simp [Nat.mod_one]
  | succ n ih => rw [low_succ, ih, pow_succ, Nat.mod_mul, Nat.mul_comm (B ^ n)]

theorem low_eq_zero_iff (hB : 0 < B) : low B f n = 0 ↔ ∀ i < n, f i = 0 := by
  rw [low, Finset.sum_eq_zero_iff]
  simp only [Finset.mem_range, Nat.mul_eq_zero, Nat.pow_eq_zero]
  exact forall₂_congr fun i _ => or_iff_left fun h => by omega

/-! ## Comparison -/

/-- From the digit below `n` down to the first that differs: whether `f` is at least `g`. -/
def geFrom (f g : ℕ → ℕ) : ℕ → Bool
  | 0 => true
  | i + 1 => if f i ≠ g i then decide (g i < f i) else geFrom f g i

/-- **The comparison from the top** compares the numbers. -/
theorem geFrom_iff (hf : ∀ i < n, f i < B) (hg : ∀ i < n, g i < B) :
    geFrom f g n = true ↔ low B g n ≤ low B f n := by
  induction n with
  | zero => simp [geFrom]
  | succ n ih =>
    have hf' : low B f n < B ^ n := low_lt fun i hi => hf i (Nat.lt_succ_of_lt hi)
    have hg' : low B g n < B ^ n := low_lt fun i hi => hg i (Nat.lt_succ_of_lt hi)
    rw [geFrom, low_succ, low_succ]
    by_cases heq : f n = g n
    · rw [if_neg (by simpa using heq), ih (fun i hi => hf i (Nat.lt_succ_of_lt hi))
        (fun i hi => hg i (Nat.lt_succ_of_lt hi)), heq]
      omega
    · rw [if_pos heq, decide_eq_true_eq]
      -- the first digit that differs decides: one unit of it outweighs all digits below
      have hunit : ∀ {a b : ℕ}, a < b → a * B ^ n + B ^ n ≤ b * B ^ n := by
        intro a b hab
        rw [← Nat.succ_mul]
        exact Nat.mul_le_mul_right _ hab
      constructor
      · intro hlt
        have := hunit hlt
        omega
      · intro hle
        by_contra hnot
        have := hunit (lt_of_le_of_ne (Nat.le_of_not_lt hnot) heq)
        omega

/-! ## Passes -/

/-- An array filled from the lowest index up, with a state carried along. -/
def pass (step : ℕ → σ → α × σ) (s : σ) : (n : ℕ) → Vector α n × σ
  | 0 => (#v[], s)
  | n + 1 =>
    let r := pass step s n
    let x := step n r.2
    (r.1.push x.1, x.2)

/-- The digit at an index, `0` behind the end. -/
def dig (toNat : α → ℕ) (v : Vector α n) (i : ℕ) : ℕ := if h : i < n then toNat v[i] else 0

variable {toNat : α → ℕ}

theorem dig_of_lt {v : Vector α n} (h : i < n) : dig toNat v i = toNat v[i] := dif_pos h

theorem dig_lt (hα : ∀ x, toNat x < B) (hB : 0 < B) (v : Vector α n) (i : ℕ) :
    dig toNat v i < B := by
  rw [dig]
  split
  · exact hα _
  · exact hB

theorem low_dig_push (v : Vector α n) (x : α) :
    low B (dig toNat (v.push x)) (n + 1) = low B (dig toNat v) n + toNat x * B ^ n := by
  have hlow : low B (dig toNat (v.push x)) n = low B (dig toNat v) n := by
    refine low_congr fun i hi => ?_
    rw [dig_of_lt hi, dig_of_lt (Nat.lt_succ_of_lt hi), Vector.getElem_push_lt]
  rw [low_succ, hlow, dig_of_lt (Nat.lt_succ_self n), Vector.getElem_push_eq]

theorem dig_set (v : Vector α n) (i : ℕ) (x : α) (j : ℕ) :
    dig toNat (v.setIfInBounds i x) j = if i = j ∧ j < n then toNat x else dig toNat v j := by
  rw [dig, dig]
  by_cases hj : j < n
  · rw [dif_pos hj, dif_pos hj, Vector.getElem_setIfInBounds hj]
    by_cases hij : i = j
    · rw [if_pos hij, if_pos ⟨hij, hj⟩]
    · rw [if_neg hij, if_neg fun h => hij h.1]
  · rw [dif_neg hj, dif_neg hj, if_neg fun h => hj h.2]

theorem dig_set_ne (v : Vector α n) (x : α) (hij : i ≠ j) :
    dig toNat (v.setIfInBounds i x) j = dig toNat v j := by rw [dig_set, if_neg fun h => hij h.1]

theorem low_dig_set (v : Vector α n) (hj : j < n) (x : α) :
    low B (dig toNat (v.setIfInBounds j x)) n + dig toNat v j * B ^ j =
      low B (dig toNat v) n + toNat x * B ^ j := by
  obtain ⟨m, rfl⟩ : ∃ m, n = j + (m + 1) := ⟨n - j - 1, by omega⟩
  have hbelow : low B (dig toNat (v.setIfInBounds j x)) j = low B (dig toNat v) j :=
    low_congr fun i hi => dig_set_ne v x (by omega)
  have habove : low B (fun i => dig toNat (v.setIfInBounds j x) (j + (i + 1))) m =
      low B (fun i => dig toNat v (j + (i + 1))) m :=
    low_congr fun i _ => dig_set_ne v x (by omega)
  have hself : dig toNat (v.setIfInBounds j x) (j + 0) = toNat x := by
    rw [dig_set, if_pos ⟨rfl, hj⟩]
  rw [low_add _ _ j (m + 1), low_add _ _ j (m + 1), hbelow, low_succ' _ _ m, low_succ' _ _ m,
    habove, hself, show dig toNat v (j + 0) = dig toNat v j from rfl]
  ring

/-- **Balance rule.** When every step keeps the balance of digits read and written with what the
state is worth, as a carry (`up`) or as a borrow (`down`), so does the pass with the numbers. -/
theorem pass_balance {step : ℕ → σ → α × σ} (up down : σ → ℕ) {P : σ → Prop}
    (h : ∀ i < n, ∀ c, P c →
      toNat (step i c).1 + g i + down c + B * up (step i c).2 =
        f i + up c + B * down (step i c).2 ∧ P (step i c).2) (hs : P s) :
    low B (dig toNat (pass step s n).1) n + low B g n + down s + B ^ n * up (pass step s n).2 =
        low B f n + up s + B ^ n * down (pass step s n).2 ∧ P (pass step s n).2 := by
  induction n with
  | zero => exact ⟨by simp [pass, Nat.add_comm], hs⟩
  | succ n ih =>
    obtain ⟨hval, hP⟩ := ih fun i hi => h i (Nat.lt_succ_of_lt hi)
    obtain ⟨hstep, hP'⟩ := h n (Nat.lt_succ_self n) _ hP
    refine ⟨?_, hP'⟩
    have hmul := congrArg (· * B ^ n) hstep
    simp only [pass]
    rw [low_dig_push, low_succ, low_succ, pow_succ]
    linarith

/-! ## Words of 64 bits -/

/-- The word at an index, `0` behind the end. -/
def limb (v : Vector UInt64 n) (i : ℕ) : ℕ := dig UInt64.toNat v i

/-- The number in an array of words. -/
def val (v : Vector UInt64 n) : ℕ := low (2 ^ 64) (limb v) n

theorem limb_lt (v : Vector UInt64 n) (i : ℕ) : limb v i < 2 ^ 64 :=
  dig_lt UInt64.toNat_lt (by decide) v i

theorem val_lt (v : Vector UInt64 n) : val v < (2 ^ 64) ^ n := low_lt fun i _ => limb_lt v i

theorem val_div_mod (v : Vector UInt64 n) (hi : i < n) :
    val v / (2 ^ 64) ^ i % 2 ^ 64 = limb v i := low_div_mod (fun i _ => limb_lt v i) hi

variable {v : Vector UInt64 n} {w : Vector UInt64 n} {k c x : ℕ} {a : ℕ → ℕ}

theorem val_inj : val v = val w ↔ v = w := by
  refine ⟨fun h => Vector.ext fun i hi => ?_, congrArg val⟩
  have hlimb := digits_eq_of_low (fun i _ => limb_lt v i) (fun i _ => limb_lt w i) h i hi
  rw [limb, limb, dig_of_lt hi, dig_of_lt hi] at hlimb
  exact UInt64.toNat_inj.1 hlimb

theorem limb_eq_zero (h : val v < (2 ^ 64) ^ j) (hk : j ≤ k) : limb v k = 0 := by
  by_cases hn : k < n
  · have hlt : val v < (2 ^ 64) ^ k := h.trans_le (Nat.pow_le_pow_right (by decide) hk)
    rw [← val_div_mod v hn, Nat.div_eq_of_lt hlt, Nat.zero_mod]
  · exact dif_neg hn

theorem val_eq_low (hj : j ≤ n) (h : ∀ k, j ≤ k → limb v k = 0) :
    val v = low (2 ^ 64) (limb v) j := by
  obtain ⟨m, rfl⟩ := Nat.exists_eq_add_of_le hj
  have hzero : low (2 ^ 64) (fun i => limb v (j + i)) m = 0 :=
    (low_eq_zero_iff (by decide)).2 fun i _ => h (j + i) (Nat.le_add_right j i)
  rw [val, low_add, hzero, Nat.mul_zero, Nat.add_zero]

theorem limb_window (v : Vector UInt64 n) {s : ℕ} (h : s % 64 + k ≤ 64) :
    limb v (s / 64) / 2 ^ (s % 64) % 2 ^ k = val v / 2 ^ s % 2 ^ k := by
  by_cases hs : s / 64 < n
  · have hsplit : 2 ^ 64 = 2 ^ (s % 64) * (2 ^ k * 2 ^ (64 - s % 64 - k)) := by
      rw [← pow_add, ← pow_add]
      congr 1
      omega
    rw [← val_div_mod v hs, hsplit, Nat.mod_mul_right_div_self, Nat.mod_mul_right_mod, ← hsplit,
      Nat.div_div_eq_div_mul, ← pow_mul, ← pow_add, Nat.div_add_mod]
  · have hzero : limb v (s / 64) = 0 := dif_neg hs
    have hlt : val v < 2 ^ s := by
      refine (val_lt v).trans_le ?_
      rw [← pow_mul]
      exact Nat.pow_le_pow_right (by decide) (by omega)
    rw [hzero, Nat.div_eq_of_lt hlt, Nat.zero_div]

/-- Bit `s` of the number. -/
def bit (v : Vector UInt64 n) (s : ℕ) : ℕ := (limb v (s / 64) >>> (s % 64)) &&& 1

theorem bit_eq (v : Vector UInt64 n) (s : ℕ) : bit v s = val v / 2 ^ s % 2 := by
  rw [bit, Nat.shiftRight_eq_div_pow, Nat.and_one_is_mod]
  exact limb_window v (k := 1) (by omega)

theorem bit_lt (v : Vector UInt64 n) (s : ℕ) : bit v s < 2 := by
  rw [bit_eq]
  exact Nat.mod_lt _ (by decide)

theorem limb_set_self (v : Vector UInt64 n) (x : UInt64) (hi : i < n) :
    limb (v.setIfInBounds i x) i = x.toNat := by rw [limb, dig_set, if_pos ⟨rfl, hi⟩]

theorem limb_set_ne (v : Vector UInt64 n) (x : UInt64) (hij : i ≠ j) :
    limb (v.setIfInBounds i x) j = limb v j := dig_set_ne v x hij

theorem low_limb_set (v : Vector UInt64 n) (x : UInt64) (hij : j ≤ i) :
    low (2 ^ 64) (limb (v.setIfInBounds i x)) j = low (2 ^ 64) (limb v) j :=
  low_congr fun k hk => limb_set_ne v x (by omega)

theorem val_set (v : Vector UInt64 n) (hj : j < n) (x : UInt64) :
    val (v.setIfInBounds j x) + limb v j * (2 ^ 64) ^ j = val v + x.toNat * (2 ^ 64) ^ j :=
  low_dig_set v hj x

/-! ## Sums and differences -/

/-- `t = a[i] - b[i] - br; r[i] = t; br = (t >> 64) & 1` in a register of 128 bits. -/
def subStep (a b : ℕ → ℕ) (i br : ℕ) : UInt64 × ℕ :=
  let t := (a i + 2 ^ 128 - b i - br) % 2 ^ 128
  (UInt64.ofNat t, (t >>> 64) &&& 1)

/-- The difference of `n` words, and the borrow out of the last. -/
def subWords (a b : ℕ → ℕ) (n : ℕ) : Vector UInt64 n × ℕ := pass (subStep a b) 0 n

theorem subWords_spec {n : ℕ} (ha : ∀ i < n, a i < 2 ^ 64) (hb : ∀ i < n, b i < 2 ^ 64) :
    val (subWords a b n).1 + low (2 ^ 64) b n =
        low (2 ^ 64) a n + (2 ^ 64) ^ n * (subWords a b n).2 ∧ (subWords a b n).2 ≤ 1 := by
  have hstep : ∀ i < n, ∀ br, br ≤ 1 →
      (subStep a b i br).1.toNat + b i + br + 2 ^ 64 * 0 =
        a i + 0 + 2 ^ 64 * (subStep a b i br).2 ∧ (subStep a b i br).2 ≤ 1 := by
    intro i hi br hbr
    have hai := ha i hi
    have hbi := hb i hi
    simp only [subStep, UInt64.toNat_ofNat', Nat.shiftRight_eq_div_pow, Nat.and_one_is_mod]
    omega
  obtain ⟨hval, hborrow⟩ := pass_balance (fun _ => 0) (fun br => br) (P := (· ≤ 1)) hstep
    (Nat.zero_le 1)
  simp only [Nat.mul_zero, Nat.add_zero] at hval
  exact ⟨hval, hborrow⟩

/-- `c += a[i] + b[i]; t[i] = c; c >>= 64` in a register of 128 bits. -/
def addStep (a b : ℕ → ℕ) (i c : ℕ) : UInt64 × ℕ :=
  let c := (c + (a i + b i)) % 2 ^ 128
  (UInt64.ofNat c, c >>> 64)

/-- The sum of `n` words, and the carry out of the last. -/
def addWords (a b : ℕ → ℕ) (n : ℕ) : Vector UInt64 n × ℕ := pass (addStep a b) 0 n

theorem addWords_spec {n : ℕ} (ha : ∀ i < n, a i < 2 ^ 64) (hb : ∀ i < n, b i < 2 ^ 64) :
    val (addWords a b n).1 + (2 ^ 64) ^ n * (addWords a b n).2 =
      low (2 ^ 64) a n + low (2 ^ 64) b n := by
  have hstep : ∀ i < n, ∀ c, c ≤ 1 →
      (addStep a b i c).1.toNat + 0 + 0 + 2 ^ 64 * (addStep a b i c).2 =
        (a i + b i) + c + 2 ^ 64 * 0 ∧ (addStep a b i c).2 ≤ 1 := by
    intro i hi c hc
    have hai := ha i hi
    have hbi := hb i hi
    simp only [addStep, UInt64.toNat_ofNat', Nat.shiftRight_eq_div_pow]
    omega
  have hval := (pass_balance (fun c => c) (fun _ => 0) (P := (· ≤ 1)) (f := fun i => a i + b i)
    (g := fun _ => 0) hstep (Nat.zero_le 1)).1
  have hsum : low (2 ^ 64) (fun i => a i + b i) n = low (2 ^ 64) a n + low (2 ^ 64) b n := by
    simp only [low, Nat.add_mul, Finset.sum_add_distrib]
  have hzero : low (2 ^ 64) (fun _ => 0) n = 0 := by simp [low]
  simp only [hsum, hzero, Nat.mul_zero, Nat.add_zero] at hval
  exact hval

/-! ## Words without a wider register -/

/-- `s = a[i] + b[i]; c1 = s < a[i]; a[i] = s + c; c = c1 | (a[i] < c)`: a wrapped sum is smaller than
its operands. -/
def addWrapStep (a b : Vector UInt64 n) (i c : ℕ) : UInt64 × ℕ :=
  let s := (limb a i + limb b i) % 2 ^ 64
  let c1 := (decide (s < limb a i)).toNat
  let v := (s + c) % 2 ^ 64
  (UInt64.ofNat v, c1 ||| (decide (v < c)).toNat)

/-- `d = a[i] - b[i]; b1 = a[i] < b[i]; a[i] = d - borrow; borrow = b1 | (d < borrow)`. -/
def subWrapStep (a b : Vector UInt64 n) (i borrow : ℕ) : UInt64 × ℕ :=
  let d := (limb a i + 2 ^ 64 - limb b i) % 2 ^ 64
  let b1 := (decide (limb a i < limb b i)).toNat
  (UInt64.ofNat ((d + 2 ^ 64 - borrow) % 2 ^ 64), b1 ||| (decide (d < borrow)).toNat)

/-- `top = a[i] >> 63; a[i] = (a[i] << 1) | carry; carry = top`. -/
def doubleStep (a : Vector UInt64 n) (i carry : ℕ) : UInt64 × ℕ :=
  let top := limb a i >>> 63
  (UInt64.ofNat ((limb a i <<< 1) % 2 ^ 64 ||| carry), top)

/-- The sum, and the carry out of the last word. -/
def addWrap (a b : Vector UInt64 n) : Vector UInt64 n × ℕ := pass (addWrapStep a b) 0 n

/-- The difference, and the borrow out of the last word. -/
def subWrap (a b : Vector UInt64 n) : Vector UInt64 n × ℕ := pass (subWrapStep a b) 0 n

/-- Twice the number, and the bit shifted out. -/
def doubleWords (a : Vector UInt64 n) : Vector UInt64 n × ℕ := pass (doubleStep a) 0 n

variable (a : Vector UInt64 n)

theorem addWrapStep_balance (b : Vector UInt64 n) (i : ℕ) (hc : c ≤ 1) :
    (addWrapStep a b i c).1.toNat + 2 ^ 64 * (addWrapStep a b i c).2 = limb a i + limb b i + c ∧
      (addWrapStep a b i c).2 ≤ 1 := by
  have ha := limb_lt a i
  have hb := limb_lt b i
  simp only [addWrapStep, UInt64.toNat_ofNat']
  by_cases h1 : (limb a i + limb b i) % 2 ^ 64 < limb a i <;>
    by_cases h2 : ((limb a i + limb b i) % 2 ^ 64 + c) % 2 ^ 64 < c <;>
    simp only [h1, h2, decide_true, decide_false, Bool.toNat_true, Bool.toNat_false,
      Nat.or_self, Nat.zero_or, Nat.or_zero] <;> omega

theorem subWrapStep_balance (b : Vector UInt64 n) (i : ℕ) {br : ℕ} (hbr : br ≤ 1) :
    (subWrapStep a b i br).1.toNat + limb b i + br =
        limb a i + 2 ^ 64 * (subWrapStep a b i br).2 ∧ (subWrapStep a b i br).2 ≤ 1 := by
  have ha := limb_lt a i
  have hb := limb_lt b i
  simp only [subWrapStep, UInt64.toNat_ofNat']
  by_cases h1 : limb a i < limb b i <;>
    by_cases h2 : (limb a i + 2 ^ 64 - limb b i) % 2 ^ 64 < br <;>
    simp only [h1, h2, decide_true, decide_false, Bool.toNat_true, Bool.toNat_false,
      Nat.or_self, Nat.zero_or, Nat.or_zero] <;> omega

theorem doubleStep_balance (i : ℕ) (hc : c ≤ 1) :
    (doubleStep a i c).1.toNat + 2 ^ 64 * (doubleStep a i c).2 = 2 * limb a i + c ∧
      (doubleStep a i c).2 ≤ 1 := by
  have ha := limb_lt a i
  have hlor : (limb a i * 2 ^ 1) % 2 ^ 64 ||| c = (limb a i * 2 ^ 1) % 2 ^ 64 + c := by
    obtain ⟨k, hk⟩ : 2 ∣ (limb a i * 2 ^ 1) % 2 ^ 64 := by omega
    rw [hk, Nat.two_pow_add_eq_or_of_lt (i := 1) (by omega) k]
  simp only [doubleStep, UInt64.toNat_ofNat', Nat.shiftLeft_eq, Nat.shiftRight_eq_div_pow, hlor]
  omega

theorem addWrap_spec (b : Vector UInt64 n) :
    val (addWrap a b).1 + (2 ^ 64) ^ n * (addWrap a b).2 = val a + val b ∧
      (addWrap a b).2 ≤ 1 := by
  have hstep : ∀ i < n, ∀ c, c ≤ 1 →
      (addWrapStep a b i c).1.toNat + 0 + 0 + 2 ^ 64 * (addWrapStep a b i c).2 =
        (limb a i + limb b i) + c + 2 ^ 64 * 0 ∧ (addWrapStep a b i c).2 ≤ 1 := by
    intro i _ c hc
    simp only [Nat.mul_zero, Nat.add_zero]
    exact addWrapStep_balance a b i hc
  obtain ⟨hval, hcarry⟩ := pass_balance (fun c => c) (fun _ => 0) (P := (· ≤ 1))
    (f := fun i => limb a i + limb b i) (g := fun _ => 0) hstep (Nat.zero_le 1)
  have hsum : low (2 ^ 64) (fun i => limb a i + limb b i) n = val a + val b := by
    simp only [val, low, Nat.add_mul, Finset.sum_add_distrib]
  have hzero : low (2 ^ 64) (fun _ => 0) n = 0 := by simp [low]
  simp only [hsum, hzero, Nat.mul_zero, Nat.add_zero] at hval
  exact ⟨hval, hcarry⟩

theorem subWrap_spec (b : Vector UInt64 n) :
    val (subWrap a b).1 + val b = val a + (2 ^ 64) ^ n * (subWrap a b).2 ∧
      (subWrap a b).2 ≤ 1 := by
  have hstep : ∀ i < n, ∀ br, br ≤ 1 →
      (subWrapStep a b i br).1.toNat + limb b i + br + 2 ^ 64 * 0 =
        limb a i + 0 + 2 ^ 64 * (subWrapStep a b i br).2 ∧ (subWrapStep a b i br).2 ≤ 1 := by
    intro i _ br hbr
    simp only [Nat.mul_zero, Nat.add_zero]
    exact subWrapStep_balance a b i hbr
  obtain ⟨hval, hborrow⟩ := pass_balance (fun _ => 0) (fun br => br) (P := (· ≤ 1)) hstep
    (Nat.zero_le 1)
  simp only [Nat.mul_zero, Nat.add_zero] at hval
  exact ⟨hval, hborrow⟩

theorem doubleWords_spec :
    val (doubleWords a).1 + (2 ^ 64) ^ n * (doubleWords a).2 = 2 * val a ∧
      (doubleWords a).2 ≤ 1 := by
  have hstep : ∀ i < n, ∀ c, c ≤ 1 →
      (doubleStep a i c).1.toNat + 0 + 0 + 2 ^ 64 * (doubleStep a i c).2 =
        2 * limb a i + c + 2 ^ 64 * 0 ∧ (doubleStep a i c).2 ≤ 1 := by
    intro i _ c hc
    simp only [Nat.mul_zero, Nat.add_zero]
    exact doubleStep_balance a i hc
  obtain ⟨hval, hcarry⟩ := pass_balance (fun c => c) (fun _ => 0) (P := (· ≤ 1))
    (f := fun i => 2 * limb a i) (g := fun _ => 0) hstep (Nat.zero_le 1)
  have hsum : low (2 ^ 64) (fun i => 2 * limb a i) n = 2 * val a := by
    simp only [val, low, Nat.mul_assoc, ← Finset.mul_sum]
  have hzero : low (2 ^ 64) (fun _ => 0) n = 0 := by simp [low]
  simp only [hsum, hzero, Nat.mul_zero, Nat.add_zero] at hval
  exact ⟨hval, hcarry⟩

/-! ## A row of a product -/

/-- One step of `c += x * b[j] + w[i + j]; w[i + j] = c; c >>= 64` in a register of 128 bits. -/
def mulAddStep (x : ℕ) (b : ℕ → ℕ) (i : ℕ) (s : Vector UInt64 n × ℕ) (j : ℕ) :
    Vector UInt64 n × ℕ :=
  let c := (s.2 + (x * b j + limb s.1 (i + j))) % 2 ^ 128
  (s.1.setIfInBounds (i + j) (UInt64.ofNat c), c >>> 64)

/-- `x` times the number of `m` words `b`, added to the words of `w` from `i` on: the array, and
the carry out of the last word. -/
def mulAdd (w : Vector UInt64 n) (x : ℕ) (b : ℕ → ℕ) (i m : ℕ) : Vector UInt64 n × ℕ :=
  forUp (mulAddStep x b i) (w, 0) m

/-- What a row has done after `j` steps. -/
structure MulAddInv (w : Vector UInt64 n) (x : ℕ) (b : ℕ → ℕ) (i j : ℕ) (s : Vector UInt64 n × ℕ) :
    Prop where
  carry : s.2 < 2 ^ 64
  above : ∀ k, i + j ≤ k → limb s.1 k = limb w k
  value : low (2 ^ 64) (limb s.1) (i + j) + (2 ^ 64) ^ (i + j) * s.2 =
    low (2 ^ 64) (limb w) (i + j) + (2 ^ 64) ^ i * (x * low (2 ^ 64) b j)

theorem MulAddInv.step {s : Vector UInt64 n × ℕ} (h : MulAddInv w x b i j s) (hx : x < 2 ^ 64)
    (hb : b j < 2 ^ 64) (hij : i + j < n) : MulAddInv w x b i (j + 1) (mulAddStep x b i s j) := by
  have hw := limb_lt w (i + j)
  have hc := h.carry
  have hprod : x * b j ≤ (2 ^ 64 - 1) * (2 ^ 64 - 1) :=
    Nat.mul_le_mul (Nat.le_sub_one_of_lt hx) (Nat.le_sub_one_of_lt hb)
  have hread := h.above (i + j) le_rfl
  -- the register holds the sum without loss
  have hfits : s.2 + (x * b j + limb s.1 (i + j)) < 2 ^ 128 := by
    rw [hread]
    omega
  rw [mulAddStep]
  simp only [Nat.mod_eq_of_lt hfits, Nat.shiftRight_eq_div_pow]
  rw [hread] at hfits ⊢
  generalize hsum : s.2 + (x * b j + limb w (i + j)) = c at hfits ⊢
  have hword : (UInt64.ofNat c).toNat = c % 2 ^ 64 := UInt64.toNat_ofNat'
  refine ⟨by dsimp only; omega, fun k hk => ?_, ?_⟩
  · rw [limb_set_ne _ _ (by omega)]
    exact h.above k (by omega)
  · have hval := h.value
    have hsplit := congrArg (· * (2 ^ 64) ^ (i + j)) (Nat.mod_add_div c (2 ^ 64))
    rw [← Nat.add_assoc, low_succ, low_succ, low_limb_set _ _ le_rfl, limb_set_self _ _ hij, hword,
      low_succ]
    simp only [← hsum, pow_succ, pow_add] at hsplit hval ⊢
    linarith

/-- **A row of a product**, where the carry is the next word of the sum. -/
theorem mulAdd_spec (w : Vector UInt64 n) {m : ℕ} (hx : x < 2 ^ 64) (hb : ∀ j < m, b j < 2 ^ 64)
    (him : i + m ≤ n) : MulAddInv w x b i m (mulAdd w x b i m) := by
  refine forUp_induct (MulAddInv w x b i) ⟨Nat.two_pow_pos 64, fun _ _ => rfl, by simp⟩ ?_
  intro j hj s hs
  exact hs.step hx (hb j hj) (by omega)

end

variable {n : ℕ}

theorem readBe_eq_readLe (bs : Bytes) : readBe bs = readLe bs.reverse := by
  induction bs using List.reverseRecOn with
  | nil => rfl
  | append_singleton bs b ih =>
    rw [readBe_snoc, ih, List.reverse_append, List.reverse_singleton, List.singleton_append,
      readLe_cons]
    omega

theorem readBe_cons (b : UInt8) (bs : Bytes) :
    readBe (b :: bs) = b.toNat * 256 ^ bs.length + readBe bs := by
  induction bs using List.reverseRecOn with
  | nil => simp [readBe]
  | append_singleton bs x ih =>
    rw [← List.cons_append, readBe_snoc, readBe_snoc, ih, List.length_append, List.length_singleton,
      Nat.pow_succ, Nat.add_mul, Nat.mul_assoc, Nat.add_assoc]

theorem readLe_eq_low (bs : Bytes) :
    readLe bs = low 256 (fun i => (bs.getD i 0).toNat) bs.length := by
  induction bs with
  | nil => rfl
  | cons b bs ih => rw [readLe_cons, List.length_cons, low_succ', ih, List.getD_cons_zero]; rfl

theorem readBe_eq_low (bs : Bytes) :
    readBe bs = low 256 (fun i => (bs.getD (bs.length - 1 - i) 0).toNat) bs.length := by
  rw [readBe_eq_readLe, readLe_eq_low, List.length_reverse]
  refine low_congr fun i hi => ?_
  rw [List.getD_eq_getElem _ _ (by simpa using hi), List.getElem_reverse,
    List.getD_eq_getElem _ _ (by omega)]

theorem putBe_eq_map (n v : ℕ) :
    putBe n v = (List.range n).map fun i => UInt8.ofNat (v / 256 ^ (n - 1 - i)) := by
  induction n generalizing v with
  | zero => rfl
  | succ n ih =>
    have hlast : UInt8.ofNat (v % 256) = UInt8.ofNat v := by
      apply UInt8.toNat_inj.1
      rw [UInt8.toNat_ofNat', UInt8.toNat_ofNat']
      exact Nat.mod_mod v 256
    rw [putBe, ih, List.range_succ, List.map_append, hlast]
    congr 1
    · refine List.map_congr_left fun i hi => ?_
      have hi := List.mem_range.1 hi
      rw [Nat.div_div_eq_div_mul, ← pow_succ', show n - 1 - i + 1 = n + 1 - 1 - i by omega]
    · simp

theorem low_mul (B : ℕ) (f : ℕ → ℕ) (m n : ℕ) :
    low B f (m * n) = low (B ^ m) (fun i => low B (fun j => f (m * i + j)) m) n := by
  induction n with
  | zero => rfl
  | succ n ih => rw [Nat.mul_succ, low_add, ih, low_succ, ← pow_mul, Nat.mul_comm (B ^ (m * n))]

theorem forUp_shift_in {f : ℕ → ℕ} (hf : ∀ i, f i < 256) (hn : n ≤ 8) :
    forUp (fun v j => (v <<< 8 ||| f j) % 2 ^ 64) 0 n = low 256 (fun j => f (n - 1 - j)) n := by
  induction n with
  | zero => rfl
  | succ n ih =>
    have hlt : low 256 (fun j => f (n - 1 - j)) n < 256 ^ n := low_lt fun j _ => hf _
    have hpow : 256 ^ n ≤ 256 ^ 7 := Nat.pow_le_pow_right (by decide) (by omega)
    have hbyte := hf n
    have hdigits : (fun i => f (n + 1 - 1 - (i + 1))) = fun j => f (n - 1 - j) := by
      funext j
      congr 1
      omega
    rw [forUp_succ, ih (by omega), Nat.or_comm, lor_shiftLeft_eq_add _ (show f n < 2 ^ 8 from hbyte),
      low_succ', hdigits, Nat.add_sub_cancel, Nat.sub_zero, Nat.mod_eq_of_lt (by omega)]
    omega

theorem ofNat_limb_shift (v : Vector UInt64 n) (k : ℕ) :
    UInt8.ofNat (limb v (k / 8) >>> (k % 8 * 8)) = UInt8.ofNat (val v / 256 ^ k) := by
  have hwin := limb_window v (s := 8 * k) (k := 8) (by omega)
  rw [show 8 * k / 64 = k / 8 by omega, show 8 * k % 64 = k % 8 * 8 by omega,
    pow_mul 2 8 k] at hwin
  apply UInt8.toNat_inj.1
  rw [UInt8.toNat_ofNat', UInt8.toNat_ofNat', Nat.shiftRight_eq_div_pow]
  exact hwin

theorem testBit_readBe (bs : Bytes) {i : ℕ} (hi : i < 8 * bs.length) :
    (readBe bs).testBit (8 * bs.length - 1 - i) =
      (bs.getD (i / 8) 0).toNat.testBit (7 - i % 8) := by
  have hbyte := low_div_mod (B := 256) (n := bs.length) (i := bs.length - 1 - i / 8)
    (fun j _ => (bs.getD (bs.length - 1 - j) 0).toNat_lt) (by omega)
  rw [← readBe_eq_low, show bs.length - 1 - (bs.length - 1 - i / 8) = i / 8 by omega,
    show 256 = 2 ^ 8 from rfl, ← pow_mul] at hbyte
  rw [← hbyte, Nat.testBit_mod_two_pow, Nat.testBit_div_two_pow, decide_eq_true (by omega),
    Bool.true_and]
  congr 1
  omega

end Words

end QuicVibe
