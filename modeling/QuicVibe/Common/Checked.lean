import QuicVibe.Common.Limbs
/-!
# Machine arithmetic that watches itself

Unsigned machine arithmetic wraps silently. Here its operations carry a flag: the value is the
wrapped one, as on the machine, and the flag says whether every operation so far was exact.
`Returns x P` is a triple: all operations of `x` are exact and its value satisfies `P`.
-/

namespace QuicVibe

/-- A value with a flag that says whether all operations that led to it were exact. -/
structure Checked (α : Type*) where
  val : α
  ok : Bool

namespace Checked

variable {α β : Type}

instance : Monad Checked where
  pure a := ⟨a, true⟩
  bind x f :=
    let y := f x.val
    ⟨y.val, x.ok && y.ok⟩

/-! ## Operations -/

/-- A result that is meant to fit in a word of `w` bits. -/
def word (w n : ℕ) : Checked ℕ := ⟨n % 2 ^ w, decide (n < 2 ^ w)⟩

/-- Addition in words of `w` bits. -/
def add (w a b : ℕ) : Checked ℕ := word w (a + b)

/-- Multiplication in words of `w` bits. -/
def mul (w a b : ℕ) : Checked ℕ := word w (a * b)

/-- Subtraction in words of `w` bits. -/
def sub (w a b : ℕ) : Checked ℕ := ⟨(a + 2 ^ w - b) % 2 ^ w, decide (b ≤ a)⟩

/-! ## Triples -/

/-- All operations are exact, and the value satisfies `P`. -/
def Returns (x : Checked α) (P : α → Prop) : Prop := x.ok = true ∧ P x.val

variable {x : Checked α} {P : α → Prop} {n : ℕ}

theorem Returns.mono {Q : α → Prop} (h : Returns x P) (hPQ : ∀ a, P a → Q a) :
    Returns x Q := ⟨h.1, hPQ _ h.2⟩

theorem Returns.and {Q : α → Prop} (hP : Returns x P) (hQ : Returns x Q) :
    Returns x fun a => P a ∧ Q a := ⟨hP.1, hP.2, hQ.2⟩

theorem returns_pure {a : α} (h : P a) : Returns (pure a) P := ⟨rfl, h⟩

/-- **Sequencing.** -/
theorem Returns.bind {f : α → Checked β} {Q : β → Prop} (hx : Returns x P)
    (hf : ∀ a, P a → Returns (f a) Q) : Returns (x >>= f) Q := by
  obtain ⟨hok, hval⟩ := hf _ hx.2
  exact ⟨Bool.and_eq_true_iff.2 ⟨hx.1, hok⟩, hval⟩

theorem Returns.map {f : α → β} {Q : β → Prop} (hx : Returns x P) (hf : ∀ a, P a → Q (f a)) :
    Returns (x >>= fun a => pure (f a)) Q :=
  hx.bind fun a ha => returns_pure (hf a ha)

@[simp] theorem pure_bind (a : α) (f : α → Checked β) : (pure a >>= f : Checked β) = f a := rfl

theorem ok_bind {f : α → Checked β} :
    (x >>= f).ok = true ↔ x.ok = true ∧ (f x.val).ok = true := Bool.and_eq_true_iff

variable {w a b : ℕ}

theorem returns_word (h : n < 2 ^ w) : Returns (word w n) (· = n) :=
  ⟨decide_eq_true h, Nat.mod_eq_of_lt h⟩

theorem returns_add (h : a + b < 2 ^ w) : Returns (add w a b) (· = a + b) := returns_word h

theorem returns_mul (h : a * b < 2 ^ w) : Returns (mul w a b) (· = a * b) := returns_word h

theorem returns_sub (hba : b ≤ a) (ha : a < 2 ^ w) : Returns (sub w a b) (· = a - b) := by
  refine ⟨decide_eq_true hba, ?_⟩
  have hsplit : a + 2 ^ w - b = a - b + 2 ^ w := by omega
  change (a + 2 ^ w - b) % 2 ^ w = a - b
  rw [hsplit, Nat.add_mod_right, Nat.mod_eq_of_lt (by omega)]

/-! ## Loops over limbs -/

/-- An array filled one index after another. -/
def array (f : ℕ → Checked α) : (n : ℕ) → Checked (Vector α n)
  | 0 => pure #v[]
  | n + 1 => do
    let xs ← array f n
    let x ← f n
    pure (xs.push x)

theorem returns_array {f : ℕ → Checked α} {g : ℕ → α} (h : ∀ i < n, Returns (f i) (· = g i)) :
    Returns (array f n) (· = Vector.ofFn fun i : Fin n => g i) := by
  induction n with
  | zero => exact returns_pure rfl
  | succ n ih =>
    refine (ih fun i hi => h i (by omega)).bind fun xs hxs => (h n (by omega)).map fun x hx => ?_
    rw [hxs, hx, Vector.ofFn_succ]
    rfl

theorem ok_array {f : ℕ → Checked α} : (array f n).ok = true ↔ ∀ i < n, (f i).ok = true := by
  induction n with
  | zero => exact ⟨fun _ i hi => absurd hi (Nat.not_lt_zero i), fun _ => rfl⟩
  | succ n ih =>
    rw [array, ok_bind, ok_bind, ih]
    constructor
    · rintro ⟨hall, hlast, -⟩ i hi
      rcases Nat.lt_succ_iff_lt_or_eq.1 hi with hlt | rfl
      · exact hall i hlt
      · exact hlast
    · intro h
      exact ⟨fun i hi => h i (by omega), h n (by omega), rfl⟩

/-- A sum accumulated over the indices below `n`. -/
def sum (w : ℕ) (f : ℕ → Checked ℕ) : ℕ → Checked ℕ
  | 0 => pure 0
  | n + 1 => do
    let t ← sum w f n
    let x ← f n
    add w t x

theorem returns_sum {f : ℕ → Checked ℕ} {g : ℕ → ℕ} {B : ℕ} (h : ∀ i < n, Returns (f i) (· = g i))
    (hB : ∀ i < n, g i ≤ B) (hw : n * B < 2 ^ w) :
    Returns (sum w f n) fun t => t = ((List.range n).map g).sum ∧ t ≤ n * B := by
  induction n with
  | zero => exact returns_pure ⟨rfl, by omega⟩
  | succ n ih =>
    have hn : (n + 1) * B = n * B + B := Nat.succ_mul n B
    refine (ih (fun i hi => h i (by omega)) (fun i hi => hB i (by omega)) (by omega)).bind
      fun t ⟨ht, hle⟩ => (h n (by omega)).bind fun x hx => ?_
    have hxB : x ≤ B := hx ▸ hB n (by omega)
    refine (returns_add (by omega)).mono fun s hs => ⟨?_, by omega⟩
    rw [hs, ht, hx, List.range_succ, List.map_append, List.sum_append, List.map_cons, List.map_nil,
      List.sum_cons, List.sum_nil, Nat.add_zero]

/-- A pass over limbs that carries a state, each step checked. -/
def sweep {σ : Type} (step : σ → α → Checked (β × σ)) : σ → List α → Checked (List β × σ)
  | s, [] => pure ([], s)
  | s, x :: xs => do
    let r ← step s x
    let t ← sweep step r.2 xs
    pure (r.1 :: t.1, t.2)

theorem returns_sweep {σ : Type} {step : σ → α → Checked (β × σ)} {exact : σ → α → β × σ}
    {P : σ → Prop} {xs : List α}
    (h : ∀ s, ∀ x ∈ xs, P s → Returns (step s x) fun r => r = exact s x ∧ P r.2) {s : σ}
    (hs : P s) : Returns (sweep step s xs) (· = Limbs.sweep exact s xs) := by
  induction xs generalizing s with
  | nil => exact returns_pure rfl
  | cons x xs ih =>
    refine (h s x List.mem_cons_self hs).bind fun r ⟨hr, hP⟩ => ?_
    refine (ih (fun s x hx => h s x (List.mem_cons_of_mem _ hx)) hP).map fun t ht => ?_
    rw [ht, hr, Limbs.sweep_cons]

end Checked

end QuicVibe
