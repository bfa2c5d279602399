import QuicVibe.Common.Primality
import QuicVibe.Crypto.P256.Field

/-!
# Numbers modulo the primes of P-256

The two moduli of the curve (FIPS 186-4 D.1.2.3) are prime, by a certificate that the kernel checks.
`Holds a x` says that four words spell the least residue of `x`; a formula of the code is read as one
chain of lemmas about it, with the algebra left over.
-/

namespace QuicVibe

namespace Crypto

namespace P256

open Words Primality

/-- The prime of the field. -/
def p : ℕ := 2 ^ 256 - 2 ^ 224 + 2 ^ 192 + 2 ^ 96 - 1

/-- The order of the base point. -/
def n : ℕ := 0xffffffff00000000ffffffffffffffffbce6faada7179e84f3b9cac2fc632551

@[simp] theorem val_p256P : val p256P = p := by decide

@[simp] theorem val_p256N : val p256N = n := by decide

/-- The primes the certificate starts from. -/
def smallPrimes : List ℕ := [5, 197, 313, 3023, 3677, 78283, 104471, 155317]

theorem prime_of_mem_smallPrimes : ∀ q ∈ smallPrimes, q.Prime := by
  simp only [smallPrimes, List.forall_mem_cons, List.not_mem_nil, false_implies, implies_true,
    and_true]
  norm_num

/-- Two chains of numbers, each with primes that divide its predecessor. -/
def certificate : List Entry :=
  [⟨704251, 2, [313, 5]⟩,
   ⟨46076956964474543, 2, [704251, 78283]⟩,
   ⟨66417393611, 2, [3677, 197]⟩,
   ⟨11290956913871, 2, [66417393611]⟩,
   ⟨774023187263532362759620327192479577272145303, 2, [46076956964474543, 11290956913871]⟩,
   ⟨835945042244614951780389953367877943453916927241, 2,
     [774023187263532362759620327192479577272145303]⟩,
   ⟨p, 2, [835945042244614951780389953367877943453916927241]⟩,
   ⟨191039911, 2, [155317]⟩,
   ⟨208150935158385979, 2, [191039911, 3023]⟩,
   ⟨2624747550333869278416773953, 2, [208150935158385979]⟩,
   ⟨3969899, 2, [104471]⟩,
   ⟨1002328039319, 2, [3969899]⟩,
   ⟨n, 2, [2624747550333869278416773953, 1002328039319]⟩]

theorem prime_of_mem_certificate : ∀ q ∈ certificate.map Entry.number, q.Prime :=
  prime_of_check 256 prime_of_mem_smallPrimes (by decide +kernel)

instance : Fact p.Prime := ⟨prime_of_mem_certificate p (by simp [certificate])⟩

instance : Fact n.Prime := ⟨prime_of_mem_certificate n (by simp [certificate])⟩

/-- The field. -/
abbrev F := ZMod p

/-- The numbers modulo the order. -/
abbrev S := ZMod n
section

variable {q : ℕ} {a b m : Fe} {x y : ZMod q}

/-- The words spell the least residue of `x`. -/
def Holds (a : Fe) (x : ZMod q) : Prop := val a = x.val

theorem holds_of_lt (hlt : val a < q) (hx : (val a : ZMod q) = x) : Holds a x := by
  rw [Holds, ← hx, ZMod.val_natCast_of_lt hlt]

theorem holds_of_mod {v : ℕ} (h : val a = v % q) : Holds a (v : ZMod q) := by
  rw [Holds, h, ZMod.val_natCast]

theorem Holds.of_eq (h : Holds a x) (hxy : x = y) : Holds a y := hxy ▸ h

theorem Holds.fpIsZero (ha : Holds a x) : fpIsZero a = true ↔ x = 0 := by
  rw [fpIsZero_iff, ha, ZMod.val_eq_zero]

variable [NeZero q]

theorem Holds.lt (h : Holds a x) : val a < q := h ▸ ZMod.val_lt x

theorem Holds.cast (h : Holds a x) : (val a : ZMod q) = x := by
  rw [h, ZMod.natCast_zmod_val]

theorem Holds.inj (ha : Holds a x) (hb : Holds b y) : a = b ↔ x = y := by
  rw [← val_inj, ha, hb, ZMod.val_injective q |>.eq_iff]

theorem Holds.fpEq (ha : Holds a x) (hb : Holds b y) : fpEq a b = true ↔ x = y := by
  rw [fpEq_iff, ha.inj hb]

variable (hm : val m = q)

include hm

theorem Holds.add (ha : Holds a x) (hb : Holds b y) : Holds (fpAdd a b m) (x + y) := by
  rw [Holds, fpAdd_eq (hm ▸ ha.lt) (hm ▸ hb.lt), hm, ha, hb, ZMod.val_add]

theorem cast_fpSub (a : Fe) (hb : Holds b y) :
    (val (fpSub a b m) : ZMod q) = val a - y := by
  have hlt := hb.lt
  rw [val_fpSub (by omega), ← hb.cast]
  split
  · rename_i hle
    rw [Nat.cast_sub hle]
  · rename_i hgt
    rw [Nat.cast_sub (by omega), Nat.cast_sub (by omega), hm, ZMod.natCast_self]
    ring

theorem Holds.sub (ha : Holds a x) (hb : Holds b y) : Holds (fpSub a b m) (x - y) := by
  have hlta := ha.lt
  have hltb := hb.lt
  refine holds_of_lt ?_ ?_
  · rw [val_fpSub (by omega)]
    split <;> omega
  · rw [cast_fpSub hm a hb, ha.cast]

theorem cast_fpAdd (a : Fe) (hb : Holds b y) :
    (val (fpAdd a b m) : ZMod q) = val a + y := by
  have hlt := hb.lt
  have ha := val_lt_two_pow a
  rw [val_fpAdd (by omega), ← hb.cast]
  split
  · rename_i hge
    rw [Nat.cast_sub hge, hm, ZMod.natCast_self, Nat.cast_add, sub_zero]
  · rw [Nat.cast_add]

theorem Holds.mul_cast (ha : Holds a x) (b : Fe) : Holds (fpMul a b m) (x * (val b : ZMod q)) := by
  refine (holds_of_mod (v := val a * val b) ?_).of_eq ?_
  · rw [fpMul_eq_of_lt (hm ▸ ha.lt), hm]
  · rw [Nat.cast_mul, ha.cast]

theorem Holds.mul (ha : Holds a x) (hb : Holds b y) : Holds (fpMul a b m) (x * y) :=
  (ha.mul_cast hm b).of_eq (by rw [hb.cast])

theorem Holds.sqr (ha : Holds a x) : Holds (fpSqr a m) (x * x) := ha.mul hm ha

theorem holds_fpReduce (a : Fe) : Holds (fpReduce a m) (val a : ZMod q) := by
  have hpos : 0 < val m := hm ▸ Nat.pos_of_ne_zero (NeZero.ne q)
  refine holds_of_mod ?_
  rw [fpReduce_eq hpos, hm]

end

/-! ## Powers -/

/-- One round of a power, from the lowest bit of the exponent up: the result and the base. -/
def powStep (mul : Fe → Fe → Fe) (e : Fe) (s : Fe × Fe) (i : ℕ) : Fe × Fe :=
  (if bit e i = 1 then mul s.1 s.2 else s.1, mul s.2 s.2)

/-- The loop of `fp_pow`, `quic_fp_inv_p` and `quic_mont_inv`. -/
def powLoop (mul : Fe → Fe → Fe) (e one base : Fe) : Fe := (forUp (powStep mul e) (one, base) 256).1

/-- **The loop computes a power**, in any structure the multiplication is one of. -/
theorem powLoop_rel {M : Type*} [Monoid M] {mul : Fe → Fe → Fe} {R : Fe → M → Prop}
    (hmul : ∀ {a b x y}, R a x → R b y → R (mul a b) (x * y)) (e : Fe) {one base : Fe} {x : M}
    (hone : R one 1) (hbase : R base x) : R (powLoop mul e one base) (x ^ val e) := by
  have hbits : low 2 (bit e) 256 = val e := by
    rw [low_congr fun i _ => bit_eq e i, low_div_mod_self, Nat.mod_eq_of_lt (val_lt_two_pow e)]
  -- after `i` rounds the exponent is the number of the bits read, and the base is squared `i` times
  have hinv : R (forUp (powStep mul e) (one, base) 256).1 (x ^ low 2 (bit e) 256) ∧
      R (forUp (powStep mul e) (one, base) 256).2 (x ^ 2 ^ 256) := by
    refine forUp_induct
      (fun i (s : Fe × Fe) => R s.1 (x ^ low 2 (bit e) i) ∧ R s.2 (x ^ 2 ^ i)) ?_ ?_
    · rw [low_zero, pow_zero, pow_zero, pow_one]
      exact ⟨hone, hbase⟩
    · intro i _ s ⟨hr, hb⟩
      refine ⟨?_, ?_⟩
      · have hlt := bit_lt e i
        rw [powStep, low_succ]
        dsimp only
        split
        · rename_i hset
          rw [hset, Nat.one_mul, pow_add]
          exact hmul hr hb
        · rename_i hclear
          rw [show bit e i = 0 by omega, Nat.zero_mul, Nat.add_zero]
          exact hr
      · rw [powStep, pow_succ, Nat.mul_comm, Nat.two_mul, pow_add]
        exact hmul hb hb
  rw [← hbits]
  exact hinv.1

/-- The number 1. -/
def feOne : Fe := #v[1, 0, 0, 0]

/-- The number 2. -/
def feTwo : Fe := #v[2, 0, 0, 0]

def fpPow (a e m : Fe) : Fe := powLoop (fun a b => fpMul a b m) e feOne a

def fpInv (a m : Fe) : Fe := fpPow a (feSubRaw m feTwo) m

theorem val_feOne : val feOne = 1 := by decide

theorem val_feTwo : val feTwo = 2 := by decide

theorem val_sub_two {m : Fe} (h : 2 ≤ val m) : val (feSubRaw m feTwo) = val m - 2 := by
  rw [feSubRaw_of_le (by rwa [val_feTwo]), val_feTwo]

theorem pow_sub_two {q : ℕ} [Fact q.Prime] (hq : 2 < q) (x : ZMod q) : x ^ (q - 2) = x⁻¹ := by
  by_cases hx : x = 0
  · rw [hx, inv_zero, zero_pow (by omega)]
  · refine eq_inv_of_mul_eq_one_left ?_
    rw [← pow_succ, show q - 2 + 1 = q - 1 by omega, ZMod.pow_card_sub_one_eq_one hx]

theorem holds_feOne {q : ℕ} [Fact q.Prime] : Holds feOne (1 : ZMod q) := by
  have hq := (Fact.out : q.Prime).one_lt
  refine holds_of_lt (by rwa [val_feOne]) ?_
  rw [val_feOne, Nat.cast_one]

/-- **Inversion** modulo a prime; zero goes to zero. -/
theorem Holds.inv {q : ℕ} [Fact q.Prime] {a m : Fe} {x : ZMod q} (hm : val m = q) (hq : 2 < q)
    (ha : Holds a x) : Holds (fpInv a m) x⁻¹ := by
  have hexp : val (feSubRaw m feTwo) = q - 2 := by rw [val_sub_two (by omega), hm]
  have hpow := powLoop_rel (fun ha hb => ha.mul hm hb) (feSubRaw m feTwo) holds_feOne ha
  rw [hexp, pow_sub_two hq] at hpow
  exact hpow

end P256

end Crypto

end QuicVibe
