import Mathlib

/-!
# Large primes and residues

Pocklington's criterion, and a certificate for it: a list of entries in which the primes of an entry
are certified by earlier ones, with a test that the kernel can evaluate. Residues are computed in
`Fin q`, the same ring as `ZMod q` but with operations that evaluate; as an application, a test that
a cubic has no root in the field of `q` elements.
-/

namespace QuicVibe

namespace Primality

/-- `a ^ n % m` for `n < 2 ^ bits`, by squaring. -/
def powMod (m : ℕ) : ℕ → ℕ → ℕ → ℕ
  | 0, _, _ => 1 % m
  | bits + 1, a, n =>
    let r := powMod m bits (a * a % m) (n / 2)
    if n % 2 = 1 then a * r % m else r

theorem powMod_eq (m : ℕ) {bits n : ℕ} (hn : n < 2 ^ bits) (a : ℕ) :
    powMod m bits a n = a ^ n % m := by
  induction bits generalizing a n with
  | zero =>
    obtain rfl : n = 0 := by omega
    rfl
  | succ bits ih =>
    have hhalf : powMod m bits (a * a % m) (n / 2) = a ^ (2 * (n / 2)) % m := by
      rw [ih (by omega), ← Nat.pow_mod, pow_mul, pow_two]
    rw [powMod, hhalf]
    split
    · rename_i hodd
      rw [Nat.mul_mod_mod, ← pow_succ', show 2 * (n / 2) + 1 = n by omega]
    · rename_i heven
      rw [show 2 * (n / 2) = n by omega]

/-- **Pocklington's criterion.** -/
theorem prime_of_pocklington {N F a : ℕ} (hN : 1 < N) (hF : F ∣ N - 1) (hbig : N < F * F)
    (hpow : a ^ (N - 1) % N = 1)
    (hgcd : ∀ q, q.Prime → q ∣ F → Nat.Coprime (a ^ ((N - 1) / q) % N + (N - 1)) N) : N.Prime := by
  by_contra hno
  -- the least prime factor is too small for an element of order `F`
  have hr := Nat.minFac_prime (show N ≠ 1 by omega)
  have hdvd := Nat.minFac_dvd N
  have hsq := Nat.minFac_sq_le_self (show 0 < N by omega) hno
  generalize N.minFac = r at hr hdvd hsq
  have : Fact r.Prime := ⟨hr⟩
  have hcast : ∀ x : ℕ, ((x % N : ℕ) : ZMod r) = x := by
    intro x
    rw [ZMod.natCast_eq_natCast_iff, Nat.ModEq, Nat.mod_mod_of_dvd x hdvd]
  have hone : (a : ZMod r) ^ (N - 1) = 1 := by
    rw [← Nat.cast_pow, ← hcast, hpow, Nat.cast_one]
  have hne : ∀ q, q.Prime → q ∣ F → (a : ZMod r) ^ ((N - 1) / q) ≠ 1 := by
    intro q hq hqF heq
    have hzero : ((a ^ ((N - 1) / q) % N + (N - 1) : ℕ) : ZMod r) = 0 := by
      rw [Nat.cast_add, hcast, Nat.cast_pow, heq, Nat.cast_sub (by omega), Nat.cast_one,
        (ZMod.natCast_eq_zero_iff N r).2 hdvd]
      ring
    have hr1 := Nat.dvd_gcd ((ZMod.natCast_eq_zero_iff _ _).1 hzero) hdvd
    rw [hgcd q hq hqF] at hr1
    exact hr.one_lt.ne' (Nat.dvd_one.1 hr1)
  obtain ⟨k, hk⟩ := hF
  have hFpos : 0 < F := Nat.pos_of_ne_zero fun h => by simp [h] at hk; omega
  have hx : orderOf ((a : ZMod r) ^ k) = F := by
    refine orderOf_eq_of_pow_and_pow_div_prime hFpos ?_ fun q hq hqF => ?_
    · rw [← pow_mul, Nat.mul_comm, ← hk, hone]
    · rw [← pow_mul, ← Nat.mul_div_assoc k hqF, Nat.mul_comm, ← hk]
      exact hne q hq hqF
  have hx0 : (a : ZMod r) ^ k ≠ 0 := by
    intro hzero
    rw [hk, Nat.mul_comm, pow_mul, hzero, zero_pow hFpos.ne'] at hone
    exact zero_ne_one hone
  have hle : F ≤ r - 1 := by
    refine Nat.le_of_dvd (Nat.sub_pos_of_lt hr.one_lt) ?_
    rw [← hx]
    exact orderOf_dvd_of_pow_eq_one (ZMod.pow_card_sub_one_eq_one hx0)
  have hlt : F < r := by
    have := hr.one_lt
    omega
  have : F * F < r * r := Nat.mul_lt_mul_of_lt_of_lt hlt hlt
  rw [pow_two] at hsq
  omega

/-- A number, a base, and primes of the number's predecessor. -/
structure Entry where
  number : ℕ
  base : ℕ
  primes : List ℕ

/-- Pocklington's criterion for one entry, over exponents of so many bits. -/
def Entry.check (bits : ℕ) (proven : List ℕ) (e : Entry) : Bool :=
  decide (1 < e.number) && decide (e.number ≤ 2 ^ bits) &&
    e.primes.all (fun q => decide (q ∈ proven)) &&
    decide (e.primes.prod ∣ e.number - 1) &&
    decide (e.number < e.primes.prod * e.primes.prod) &&
    powMod e.number bits e.base (e.number - 1) == 1 &&
    e.primes.all fun q => Nat.gcd
      (powMod e.number bits e.base ((e.number - 1) / q) + (e.number - 1)) e.number == 1

theorem Entry.check_sound {bits : ℕ} {proven : List ℕ} {e : Entry}
    (hproven : ∀ q ∈ proven, q.Prime) (h : e.check bits proven = true) : e.number.Prime := by
  simp only [Entry.check, Bool.and_eq_true, decide_eq_true_eq, List.all_eq_true, beq_iff_eq] at h
  obtain ⟨⟨⟨⟨⟨⟨hone, hbits⟩, hprimes⟩, hdvd⟩, hbig⟩, hpow⟩, hgcd⟩ := h
  refine prime_of_pocklington hone hdvd hbig (a := e.base) ?_ fun q hq hqF => ?_
  · rw [← powMod_eq e.number (show e.number - 1 < 2 ^ bits by omega), hpow]
  · obtain ⟨r, hr, hqr⟩ := (Prime.dvd_prod_iff hq.prime).1 hqF
    obtain rfl := (Nat.prime_dvd_prime_iff_eq hq (hproven r (hprimes r hr))).1 hqr
    have hexp : (e.number - 1) / q < 2 ^ bits := by
      have := Nat.div_le_self (e.number - 1) q
      omega
    rw [← powMod_eq e.number hexp]
    exact hgcd q hr

/-- The entries in order, each against the numbers certified before it. -/
def check (bits : ℕ) : List ℕ → List Entry → Bool
  | _, [] => true
  | proven, e :: es => e.check bits proven && check bits (e.number :: proven) es

/-- **Every number of a certificate is prime.** -/
theorem prime_of_check (bits : ℕ) {proven : List ℕ} {es : List Entry}
    (hproven : ∀ q ∈ proven, q.Prime) (h : check bits proven es = true) :
    ∀ q ∈ es.map Entry.number, q.Prime := by
  induction es generalizing proven with
  | nil => simp
  | cons e es ih =>
    rw [check, Bool.and_eq_true] at h
    have he := Entry.check_sound hproven h.1
    have hnext := ih (List.forall_mem_cons.2 ⟨he, hproven⟩) h.2
    rw [List.map_cons]
    exact List.forall_mem_cons.2 ⟨he, hnext⟩

end Primality

namespace Residues

variable {q : ℕ}

/-- The residue of a number below the modulus. -/
def lift (x : Fin q) : ZMod q := (x.val : ZMod q)

theorem lift_add (x y : Fin q) : lift (x + y) = lift x + lift y := by
  rw [lift, Fin.val_add, ZMod.natCast_mod, Nat.cast_add, lift, lift]

theorem lift_mul (x y : Fin q) : lift (x * y) = lift x * lift y := by
  rw [lift, Fin.val_mul, ZMod.natCast_mod, Nat.cast_mul, lift, lift]

theorem lift_sub (x y : Fin q) : lift (x - y) = lift x - lift y := by
  rw [lift, Fin.sub_def, ZMod.natCast_mod, Nat.cast_add, Nat.cast_sub y.isLt.le, ZMod.natCast_self,
    lift, lift]
  ring

theorem lift_zero [NeZero q] : lift (0 : Fin q) = 0 := Nat.cast_zero

theorem lift_injective [NeZero q] : Function.Injective (lift : Fin q → ZMod q) := by
  intro x y h
  have hval := congrArg ZMod.val h
  rw [lift, lift, ZMod.val_natCast_of_lt x.isLt, ZMod.val_natCast_of_lt y.isLt] at hval
  exact Fin.ext hval

/-! ## Modulo a cubic -/

/-- A polynomial of degree at most two. -/
structure Quadratic (q : ℕ) where
  c₀ : Fin q
  c₁ : Fin q
  c₂ : Fin q
deriving DecidableEq

namespace Quadratic

/-- The value at a point. -/
def eval (u : Quadratic q) (x : ZMod q) : ZMod q := lift u.c₀ + lift u.c₁ * x + lift u.c₂ * x ^ 2

/-- The product modulo `x ^ 3 + a x + b`. -/
def mul (a b : Fin q) (u v : Quadratic q) : Quadratic q :=
  let d₃ := u.c₁ * v.c₂ + u.c₂ * v.c₁
  let d₄ := u.c₂ * v.c₂
  { c₀ := u.c₀ * v.c₀ - b * d₃
    c₁ := u.c₀ * v.c₁ + u.c₁ * v.c₀ - a * d₃ - b * d₄
    c₂ := u.c₀ * v.c₂ + u.c₁ * v.c₁ + u.c₂ * v.c₀ - a * d₄ }

/-- The difference. -/
def sub (u v : Quadratic q) : Quadratic q := ⟨u.c₀ - v.c₀, u.c₁ - v.c₁, u.c₂ - v.c₂⟩

/-- `u ^ k` modulo the cubic for `k < 2 ^ bits`, by squaring. -/
def pow (a b : Fin q) (one : Quadratic q) : ℕ → Quadratic q → ℕ → Quadratic q
  | 0, _, _ => one
  | bits + 1, u, k =>
    let r := pow a b one bits (mul a b u u) (k / 2)
    if k % 2 = 1 then mul a b u r else r

theorem eval_sub (u v : Quadratic q) (x : ZMod q) : (u.sub v).eval x = u.eval x - v.eval x := by
  simp only [eval, sub, lift_sub]
  ring

section Root

variable {a b : Fin q} {x : ZMod q} (hroot : x ^ 3 + lift a * x + lift b = 0)

include hroot

theorem eval_mul (u v : Quadratic q) : (mul a b u v).eval x = u.eval x * v.eval x := by
  simp only [eval, mul, lift_sub, lift_add, lift_mul]
  linear_combination
    -(lift u.c₁ * lift v.c₂ + lift u.c₂ * lift v.c₁ + lift u.c₂ * lift v.c₂ * x) * hroot

theorem eval_pow {one : Quadratic q} (hone : one.eval x = 1) {bits k : ℕ} (hk : k < 2 ^ bits)
    (u : Quadratic q) : (pow a b one bits u k).eval x = u.eval x ^ k := by
  induction bits generalizing u k with
  | zero =>
    obtain rfl : k = 0 := by omega
    rw [pow, hone, pow_zero]
  | succ bits ih =>
    have hhalf : (pow a b one bits (mul a b u u) (k / 2)).eval x = u.eval x ^ (2 * (k / 2)) := by
      rw [ih (by omega), eval_mul hroot, pow_mul, pow_two]
    rw [pow]
    split
    · rename_i hodd
      rw [eval_mul hroot, hhalf, ← pow_succ', show 2 * (k / 2) + 1 = k by omega]
    · rename_i heven
      rw [hhalf, show 2 * (k / 2) = k by omega]

end Root

/-- **A cubic without roots.** Some multiple of `x ^ q - x` is one modulo the cubic. -/
theorem no_root [Fact q.Prime] {a b : Fin q} (bits : ℕ) (hq : q < 2 ^ bits)
    (one X inverse : Quadratic q) (hone : ∀ x, one.eval x = 1) (hX : ∀ x, X.eval x = x)
    (hcheck : mul a b inverse ((pow a b one bits X q).sub X) = one) (x : ZMod q) :
    x ^ 3 + lift a * x + lift b ≠ 0 := by
  intro hroot
  have hunit := congrArg (fun u => eval u x) hcheck
  simp only [eval_mul hroot, eval_sub, eval_pow hroot (hone x) hq, hX, hone, ZMod.pow_card,
    sub_self, mul_zero] at hunit
  exact zero_ne_one hunit

end Quadratic

end Residues

end QuicVibe
