import Mathlib
/-!
# Prefix codes

Where no word of a code is a prefix of another, a bit string splits in at most one way into words
and a rest that starts with none of them (`encode_append_inj`), and a decoder finds that way bit by
bit, without looking ahead (`foldl_feed_iff`).
-/

namespace QuicVibe

namespace PrefixCode

variable {ι : Type*} {code : ι → List Bool}

/-- No word is a prefix of another symbol's word. -/
def PrefixFree (code : ι → List Bool) : Prop := ∀ i j, code i <+: code j → i = j

/-- The words of a sequence of symbols. -/
def encode (code : ι → List Bool) (xs : List ι) : List Bool := xs.flatMap code

/-- Bits that do not start with a word. -/
def Unfinished (code : ι → List Bool) (p : List Bool) : Prop := ∀ i, ¬ code i <+: p

@[simp] theorem encode_nil : encode code [] = [] := rfl

@[simp] theorem encode_cons (x : ι) (xs : List ι) :
    encode code (x :: xs) = code x ++ encode code xs := rfl

@[simp] theorem encode_append (xs ys : List ι) :
    encode code (xs ++ ys) = encode code xs ++ encode code ys :=
  List.flatMap_append

theorem not_unfinished_append (x : ι) (w : List Bool) : ¬ Unfinished code (code x ++ w) :=
  fun h => h x (List.prefix_append _ _)

variable {p w : List Bool} {s : List ι × List Bool} {b : Bool} {c len : ℕ}

/-- **Unique decoding.** The words before an unfinished rest, and the rest, are determined. -/
theorem encode_append_inj (hfree : PrefixFree code) {q : List Bool} (hp : Unfinished code p)
    (hq : Unfinished code q) {xs ys : List ι} (heq : encode code xs ++ p = encode code ys ++ q) :
    xs = ys ∧ p = q := by
  induction xs generalizing ys with
  | nil =>
    cases ys with
    | nil => exact ⟨rfl, heq⟩
    | cons y ys =>
      rw [encode_nil, List.nil_append, encode_cons, List.append_assoc] at heq
      exact absurd (heq ▸ hp) (not_unfinished_append y _)
  | cons x xs ih =>
    cases ys with
    | nil =>
      rw [encode_nil, List.nil_append, encode_cons, List.append_assoc] at heq
      exact absurd (heq ▸ hq) (not_unfinished_append x _)
    | cons y ys =>
      rw [encode_cons, encode_cons, List.append_assoc, List.append_assoc] at heq
      -- both first words are prefixes of the same string, so one is a prefix of the other
      have hx : code x <+: code y ++ (encode code ys ++ q) := heq ▸ List.prefix_append _ _
      obtain rfl : x = y := by
        rcases List.prefix_or_prefix_of_prefix hx (List.prefix_append _ _) with h | h
        · exact hfree x y h
        · exact (hfree y x h).symm
      obtain ⟨rfl, rfl⟩ := ih (List.append_cancel_left heq)
      exact ⟨rfl, rfl⟩

/-! ## Decoding bit by bit -/

/-- `find` recognises the words. -/
def Finds (code : ι → List Bool) (find : List Bool → Option ι) : Prop :=
  ∀ w i, find w = some i ↔ w = code i

/-- One bit: the symbols so far, and the bits of the word being read. -/
def feed (find : List Bool → Option ι) (s : List ι × List Bool) (b : Bool) : List ι × List Bool :=
  match find (s.2 ++ [b]) with
  | some i => (s.1 ++ [i], [])
  | none => (s.1, s.2 ++ [b])

variable {find : List Bool → Option ι}

theorem feed_of_some {i : ι} (h : find (s.2 ++ [b]) = some i) :
    feed find s b = (s.1 ++ [i], []) := by
  rw [feed, h]

theorem feed_of_none (h : find (s.2 ++ [b]) = none) : feed find s b = (s.1, s.2 ++ [b]) := by
  rw [feed, h]

theorem Unfinished.concat (hfind : Finds code find) (hp : Unfinished code p)
    (h : find (p ++ [b]) = none) : Unfinished code (p ++ [b]) := by
  intro i hi
  rcases List.prefix_concat_iff.mp hi with heq | hpre
  · rw [(hfind _ _).mpr heq.symm] at h
    cases h
  · exact hp i hpre

/-- What has been read is the words of the symbols emitted and an unfinished rest. -/
theorem foldl_feed_spec (hfind : Finds code find) (hne : ∀ i, code i ≠ []) (bits : List Bool) :
    bits = encode code (bits.foldl (feed find) ([], [])).1 ++ (bits.foldl (feed find) ([], [])).2 ∧
      Unfinished code (bits.foldl (feed find) ([], [])).2 := by
  induction bits using List.reverseRecOn with
  | nil => exact ⟨rfl, fun i h => hne i (List.prefix_nil.mp h)⟩
  | append_singleton bits b ih =>
    rw [List.foldl_append, List.foldl_cons, List.foldl_nil]
    generalize bits.foldl (feed find) ([], []) = s at ih ⊢
    obtain ⟨hbits, hs⟩ := ih
    rcases h : find (s.2 ++ [b]) with _ | i
    · rw [feed_of_none h]
      exact ⟨by rw [← List.append_assoc, ← hbits], hs.concat hfind h⟩
    · rw [feed_of_some h]
      refine ⟨?_, fun i h => hne i (List.prefix_nil.mp h)⟩
      rw [encode_append, encode_cons, encode_nil, ← (hfind _ _).mp h, List.append_nil,
        List.append_nil, ← List.append_assoc, ← hbits]

/-- **The decoder finds the one decomposition there is.** -/
theorem foldl_feed_iff (hfree : PrefixFree code) (hfind : Finds code find) (hne : ∀ i, code i ≠ [])
    (bits : List Bool) (xs : List ι) (p : List Bool) :
    bits.foldl (feed find) ([], []) = (xs, p) ↔
      bits = encode code xs ++ p ∧ Unfinished code p := by
  have hspec := foldl_feed_spec hfind hne bits
  constructor
  · intro h
    rwa [h] at hspec
  · rintro ⟨hbits, hp⟩
    obtain ⟨h1, h2⟩ := encode_append_inj hfree hspec.2 hp (hspec.1.symm.trans hbits)
    exact Prod.ext h1 h2

/-! ## Words as numbers -/

/-- The number a word is, most significant bit first. -/
def value (w : List Bool) : ℕ := w.foldl (fun v b => v * 2 + b.toNat) 0

/-- The word of `len` bits that is the number `c`. -/
def word (c : ℕ) : ℕ → List Bool
  | 0 => []
  | len + 1 => word (c / 2) len ++ [c.testBit 0]

@[simp] theorem value_nil : value [] = 0 := rfl

@[simp] theorem value_concat (w : List Bool) (b : Bool) :
    value (w ++ [b]) = value w * 2 + b.toNat := by
  simp [value]

@[simp] theorem length_word (c len : ℕ) : (word c len).length = len := by
  induction len generalizing c with
  | zero => rfl
  | succ len ih => simp [word, ih]

theorem value_word (h : c < 2 ^ len) : value (word c len) = c := by
  induction len generalizing c with
  | zero => rw [Nat.pow_zero] at h; rw [word, value_nil]; omega
  | succ len ih =>
    rw [Nat.pow_succ] at h
    rw [word, value_concat, ih (by omega), Nat.testBit_zero]
    rcases Nat.mod_two_eq_zero_or_one c with hc | hc <;> simp [hc] <;> omega

theorem word_value (w : List Bool) : word (value w) w.length = w := by
  induction w using List.reverseRecOn with
  | nil => rfl
  | append_singleton w b ih =>
    have hdiv : (value w * 2 + b.toNat) / 2 = value w := by
      cases b <;> simp only [Bool.toNat_true, Bool.toNat_false] <;> omega
    have hbit : (value w * 2 + b.toNat).testBit 0 = b := by
      cases b <;> simp [Nat.testBit_zero]
    rw [value_concat, List.length_append, List.length_singleton, word, hdiv, hbit, ih]

theorem value_inj {w' : List Bool} (hlen : w.length = w'.length) (h : value w = value w') :
    w = w' := by
  rw [← word_value w, ← word_value w', h, hlen]

theorem eq_word_iff (h : c < 2 ^ len) : w = word c len ↔ value w = c ∧ w.length = len := by
  constructor
  · rintro rfl
    exact ⟨value_word h, length_word c len⟩
  · rintro ⟨rfl, rfl⟩
    exact (word_value w).symm

theorem take_word (d m : ℕ) : ∀ k, (word d (m + k)).take m = word (d / 2 ^ k) m
  | 0 => by simp [List.take_of_length_le]
  | k + 1 => by
    rw [← Nat.add_assoc, word, List.take_append_of_le_length (by simp), take_word (d / 2) m k,
      Nat.div_div_eq_div_mul, Nat.pow_succ']

theorem div_of_word_prefix {d m n : ℕ} (hc : c < 2 ^ m) (hd : d < 2 ^ n)
    (h : word c m <+: word d n) : m ≤ n ∧ d / 2 ^ (n - m) = c := by
  have hle : m ≤ n := by simpa using h.length_le
  obtain ⟨k, rfl⟩ := Nat.exists_eq_add_of_le hle
  refine ⟨hle, ?_⟩
  have htake := List.prefix_iff_eq_take.mp h
  rw [length_word, take_word] at htake
  have hlt : d / 2 ^ k < 2 ^ m := by
    rw [Nat.div_lt_iff_lt_mul (Nat.two_pow_pos k), ← Nat.pow_add]
    exact hd
  rw [Nat.add_sub_cancel_left, ← value_word hc, htake, value_word hlt]

theorem value_replicate_true (n : ℕ) : value (List.replicate n true) = 2 ^ n - 1 := by
  induction n with
  | zero => rfl
  | succ n ih =>
    have hpos := Nat.two_pow_pos n
    rw [List.replicate_succ', value_concat, ih, Bool.toNat_true, Nat.pow_succ]
    omega

theorem value_eq_ones_iff (w : List Bool) :
    value w = 2 ^ w.length - 1 ↔ w = List.replicate w.length true := by
  constructor
  · intro h
    exact value_inj List.length_replicate.symm (h.trans (value_replicate_true _).symm)
  · intro h
    conv_lhs => rw [h]
    exact value_replicate_true _

end PrefixCode

end QuicVibe
