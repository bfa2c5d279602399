import QuicVibe.Common.Bytes
/-!
# Numbers in limbs

Multi-precision code keeps a number as an array of limbs, least significant first, and works on it
in sweeps: one pass from the low limb to the high one that carries a state along. What a sweep does
to the number is read off what one of its steps does to a limb.
-/

namespace QuicVibe

namespace Limbs

variable {α β σ : Type*}

/-- A pass from the first element to the last that carries a state. -/
def sweep (step : σ → α → β × σ) : σ → List α → List β × σ
  | s, [] => ([], s)
  | s, x :: xs =>
    let r := sweep step (step s x).2 xs
    ((step s x).1 :: r.1, r.2)

variable (step : σ → α → β × σ) (bs : Bytes) (n : ℕ)

@[simp] theorem sweep_nil (s : σ) : sweep step s [] = ([], s) := rfl

@[simp] theorem sweep_cons (s : σ) (x : α) (xs : List α) :
    sweep step s (x :: xs) =
      ((step s x).1 :: (sweep step (step s x).2 xs).1, (sweep step (step s x).2 xs).2) := rfl

@[simp] theorem length_sweep (s : σ) (xs : List α) : (sweep step s xs).1.length = xs.length := by
  induction xs generalizing s with
  | nil => rfl
  | cons x xs ih => simp [ih]

theorem map_sweep {γ : Type*} (f : β → γ) (step : σ → α → β × σ) (s : σ) (xs : List α) :
    (sweep (fun s x => (f (step s x).1, (step s x).2)) s xs) =
      ((sweep step s xs).1.map f, (sweep step s xs).2) := by
  induction xs generalizing s with
  | nil => rfl
  | cons x xs ih => simp [ih]

variable {xs : List α} {a b k w : ℕ}

theorem sweep_forall {step : σ → α → β × σ} (P : σ → Prop) (Q : β → Prop)
    (h : ∀ s, ∀ x ∈ xs, P s → Q (step s x).1 ∧ P (step s x).2) {s : σ} (hs : P s) :
    (∀ y ∈ (sweep step s xs).1, Q y) ∧ P (sweep step s xs).2 := by
  induction xs generalizing s with
  | nil => exact ⟨by simp, hs⟩
  | cons x xs ih =>
    obtain ⟨hy, hnext⟩ := h s x List.mem_cons_self hs
    obtain ⟨hys, hlast⟩ := ih (fun s x hx => h s x (List.mem_cons_of_mem _ hx)) hnext
    rw [sweep_cons, List.forall_mem_cons]
    exact ⟨⟨hy, hys⟩, hlast⟩

/-- **Carry rule.** When each step splits carry and limb into a limb and a new carry, the sweep
splits the whole number. `P` is what is known of the carries, `v` the value of an element. -/
theorem sweep_carry {B : ℕ} (step : ℕ → α → ℕ × ℕ) {v : α → ℕ} {P : ℕ → Prop}
    (h : ∀ c, ∀ x ∈ xs, P c → (step c x).1 + B * (step c x).2 = c + v x ∧ P (step c x).2) {c : ℕ}
    (hc : P c) :
    Nat.ofDigits B (sweep step c xs).1 + B ^ xs.length * (sweep step c xs).2 =
      c + Nat.ofDigits B (xs.map v) := by
  induction xs generalizing c with
  | nil => simp
  | cons x xs ih =>
    obtain ⟨hstep, hnext⟩ := h c x List.mem_cons_self hc
    have ih' := ih (fun c x hx => h c x (List.mem_cons_of_mem _ hx)) hnext
    rw [sweep_cons, List.map_cons, Nat.ofDigits_cons, Nat.ofDigits_cons, List.length_cons, pow_succ']
    calc (step c x).1 + B * Nat.ofDigits B (sweep step (step c x).2 xs).1 +
          B * B ^ xs.length * (sweep step (step c x).2 xs).2
        = (step c x).1 + B * (Nat.ofDigits B (sweep step (step c x).2 xs).1 +
            B ^ xs.length * (sweep step (step c x).2 xs).2) := by ring
      _ = (step c x).1 + B * (step c x).2 + B * Nat.ofDigits B (xs.map v) := by rw [ih']; ring
      _ = c + (v x + B * Nat.ofDigits B (xs.map v)) := by rw [hstep]; ring

/-! ## Fixed numbers of limbs -/

theorem exists_five (v : Vector α 5) : ∃ a b c d e, v = #v[a, b, c, d, e] := by
  refine ⟨v[0], v[1], v[2], v[3], v[4], Vector.ext fun i hi => ?_⟩
  match i with
  | 0 | 1 | 2 | 3 | 4 => rfl

/-! ## Cutting and joining words -/

theorem lor_eq_add (k : ℕ) (ha : a < 2 ^ k) (hb : 2 ^ k ∣ b) : a ||| b = a + b := by
  obtain ⟨q, rfl⟩ := hb
  rw [Nat.or_comm, ← Nat.two_pow_add_eq_or_of_lt ha, Nat.add_comm]

theorem lor_shiftLeft_eq_add (b : ℕ) (ha : a < 2 ^ k) : a ||| (b <<< k) = a + 2 ^ k * b := by
  rw [Nat.shiftLeft_eq, Nat.mul_comm, lor_eq_add k ha (Nat.dvd_mul_right ..)]

theorem lor_shiftLeft_mod_eq_add (b : ℕ) (ha : a < 2 ^ k) (hk : k ≤ w) :
    a ||| ((b <<< k) % 2 ^ w) = a + 2 ^ k * b % 2 ^ w := by
  rw [Nat.shiftLeft_eq, Nat.mul_comm b, lor_eq_add k ha]
  exact (Nat.dvd_mod_iff (pow_dvd_pow 2 hk)).2 (Nat.dvd_mul_right ..)

theorem ones_land_xor (ha : a < 2 ^ w) (hb : b < 2 ^ w) : (2 ^ w - 1) &&& (a ^^^ b) = a ^^^ b := by
  rw [Nat.and_comm, Nat.and_two_pow_sub_one_eq_mod]
  exact Nat.mod_eq_of_lt (Nat.xor_lt_two_pow ha hb)

theorem window_land (x m k n : ℕ) :
    (x &&& m) / 2 ^ k % 2 ^ n = (x / 2 ^ k % 2 ^ n) &&& (m / 2 ^ k % 2 ^ n) := by
  rw [← Nat.shiftRight_eq_div_pow, Nat.shiftRight_and_distrib, Nat.and_mod_two_pow,
    Nat.shiftRight_eq_div_pow, Nat.shiftRight_eq_div_pow]

/-! ## Little-endian strings -/

/-- The number a byte string spells, least significant byte first. -/
def readLe (bs : Bytes) : ℕ := Nat.ofDigits 256 (bs.map UInt8.toNat)

@[simp] theorem readLe_nil : readLe [] = 0 := rfl

@[simp] theorem readLe_cons (b : UInt8) (bs : Bytes) :
    readLe (b :: bs) = b.toNat + 256 * readLe bs := by
  rw [readLe, List.map_cons, Nat.ofDigits_cons, readLe]

theorem readLe_append (xs ys : Bytes) :
    readLe (xs ++ ys) = readLe xs + 256 ^ xs.length * readLe ys := by
  rw [readLe, List.map_append, Nat.ofDigits_append, List.length_map, readLe, readLe]

theorem readLe_flatten {n : ℕ} {bss : List Bytes} (h : ∀ bs ∈ bss, bs.length = n) :
    readLe bss.flatten = Nat.ofDigits (256 ^ n) (bss.map readLe) := by
  induction bss with
  | nil => rfl
  | cons bs bss ih =>
    rw [List.forall_mem_cons] at h
    rw [List.flatten_cons, readLe_append, ih h.2, h.1, List.map_cons, Nat.ofDigits_cons]

theorem readLe_lt : readLe bs < 256 ^ bs.length := by
  rw [← List.length_map (f := UInt8.toNat)]
  refine Nat.ofDigits_lt_base_pow_length (by decide) fun x hx => ?_
  obtain ⟨b, -, rfl⟩ := List.mem_map.1 hx
  exact b.toNat_lt

theorem readLe_eq_zero_iff : readLe bs = 0 ↔ ∀ b ∈ bs, b = 0 := by
  induction bs with
  | nil => simp
  | cons b bs ih =>
    rw [readLe_cons, List.forall_mem_cons, ← ih, ← UInt8.toNat_inj, UInt8.toNat_zero]
    omega

theorem testBit_readLe (i : ℕ) :
    (readLe bs).testBit i = (bs.getD (i / 8) 0).toNat.testBit (i % 8) := by
  induction bs generalizing i with
  | nil => simp
  | cons b bs ih =>
    rw [readLe_cons, Nat.add_comm, show 256 = 2 ^ 8 from rfl,
      Nat.testBit_two_pow_mul_add _ b.toNat_lt]
    by_cases hi : i < 8
    · rw [if_pos hi, Nat.div_eq_of_lt hi, Nat.mod_eq_of_lt hi, List.getD_cons_zero]
    · obtain ⟨j, rfl⟩ : ∃ j, i = j + 8 := ⟨i - 8, by omega⟩
      rw [if_neg hi, Nat.add_sub_cancel, ih, Nat.add_div_right _ (by decide), Nat.add_mod_right,
        List.getD_cons_succ]

theorem bit_readLe (i : ℕ) :
    ((bs.getD (i / 8) 0).toNat >>> (i &&& 7)) &&& 1 = ((readLe bs).testBit i).toNat := by
  rw [testBit_readLe, Nat.toNat_testBit,
    show i &&& 7 = i % 8 from Nat.and_two_pow_sub_one_eq_mod i 3, Nat.shiftRight_eq_div_pow,
    Nat.and_one_is_mod]

/-- The low `n` bytes of `v`, least significant first. -/
def putLe : ℕ → ℕ → Bytes
  | 0, _ => []
  | n + 1, v => UInt8.ofNat v :: putLe n (v / 256)

@[simp] theorem length_putLe (v : ℕ) : (putLe n v).length = n := by
  induction n generalizing v with
  | zero => rfl
  | succ n ih => simp [putLe, ih]

theorem readLe_putLe (v : ℕ) : readLe (putLe n v) = v % 256 ^ n := by
  induction n generalizing v with
  | zero => simp [putLe, Nat.mod_one]
  | succ n ih =>
    have hpow : 256 ^ (n + 1) = 256 * 256 ^ n := pow_succ' 256 n
    rw [putLe, readLe_cons, ih, UInt8.toNat_ofNat', hpow, Nat.mod_mul]

theorem putLe_eq_map (v : ℕ) :
    putLe n v = (List.range n).map fun j => UInt8.ofNat (v >>> (8 * j)) := by
  induction n generalizing v with
  | zero => rfl
  | succ n ih =>
    rw [putLe, ih, List.range_succ_eq_map, List.map_cons, List.map_map]
    congr 1
    refine List.map_congr_left fun j _ => ?_
    rw [Function.comp_apply, Nat.shiftRight_eq_div_pow, Nat.shiftRight_eq_div_pow,
      Nat.div_div_eq_div_mul, Nat.mul_succ, Nat.pow_add, Nat.mul_comm]

theorem putLe_add (m n v : ℕ) : putLe (m + n) v = putLe m v ++ putLe n (v / 256 ^ m) := by
  induction m generalizing v with
  | zero => simp [putLe]
  | succ m ih =>
    rw [Nat.succ_add, putLe, ih, putLe, List.cons_append, Nat.div_div_eq_div_mul, pow_succ']

theorem foldl_lor_eq_readLe (b : ℕ → UInt8) (n : ℕ) :
    (List.range n).foldl (fun t j => t ||| ((b j).toNat <<< (8 * j))) 0 =
      readLe ((List.range n).map b) := by
  induction n with
  | zero => rfl
  | succ n ih =>
    have hlt := readLe_lt ((List.range n).map b)
    rw [List.length_map, List.length_range, show 256 = 2 ^ 8 from rfl, ← pow_mul] at hlt
    rw [List.range_succ, List.foldl_append, List.map_append, readLe_append, ih, List.foldl_cons,
      List.foldl_nil, lor_shiftLeft_eq_add _ hlt, List.map_cons, List.map_nil, readLe_cons,
      readLe_nil, Nat.mul_zero, Nat.add_zero, List.length_map, List.length_range,
      show 256 = 2 ^ 8 from rfl, ← pow_mul]

theorem putLe_readLe : putLe bs.length (readLe bs) = bs := by
  induction bs with
  | nil => rfl
  | cons b bs ih =>
    have hb := b.toNat_lt
    have hmod : UInt8.ofNat (b.toNat + 256 * readLe bs) = b := by
      apply UInt8.toNat_inj.1
      rw [UInt8.toNat_ofNat']
      omega
    have hdiv : (b.toNat + 256 * readLe bs) / 256 = readLe bs := by omega
    rw [List.length_cons, readLe_cons, putLe, hmod, hdiv, ih]

theorem putLe_mod (v : ℕ) : putLe n (v % 256 ^ n) = putLe n v := by
  have hlen := length_putLe n v
  conv_rhs => rw [← putLe_readLe (putLe n v), hlen, readLe_putLe]

end Limbs

end QuicVibe
