import QuicVibe.Crypto.P256.Modular
/-!
# The fast reduction modulo the prime of P-256

The sixteen words of a product are folded into nine numbers of eight words each that are added and
subtracted (FIPS 186-4 D.2.5). What the folding does is one polynomial identity in `2 ^ 32`
(`solinas_identity`); the code follows it term by term.
-/

namespace QuicVibe

namespace Crypto

namespace P256

open Words

/-! ## The code -/

/-- `w32`: a word of 32 bits of the product. -/
def w32 (w : Wide) (c : ℕ) : ℕ := (limb w (c / 2) >>> (32 * (c &&& 1))) &&& 0xffffffff

def fromWords (e : ℕ → ℕ) : Fe :=
  Vector.ofFn fun i : Fin 4 => UInt64.ofNat (e (2 * i) ||| (e (2 * i + 1) <<< 32))

/-- `P256_TERMS`: the words of the nine terms, with `0xff` for a zero. -/
def p256Terms : List (List ℕ) :=
  [[0, 1, 2, 3, 4, 5, 6, 7],
   [0xff, 0xff, 0xff, 11, 12, 13, 14, 15],
   [0xff, 0xff, 0xff, 12, 13, 14, 15, 0xff],
   [8, 9, 10, 0xff, 0xff, 0xff, 14, 15],
   [9, 10, 11, 13, 14, 15, 13, 8],
   [11, 12, 13, 0xff, 0xff, 0xff, 8, 10],
   [12, 13, 14, 15, 0xff, 0xff, 9, 11],
   [13, 14, 15, 8, 9, 10, 0xff, 12],
   [14, 15, 0xff, 9, 10, 11, 0xff, 13]]

/-- A word of a term, over any sixteen words. -/
def termWord {R : Type*} [Zero R] (c : ℕ → R) (t i : ℕ) : R :=
  let k := (p256Terms.getD t []).getD i 0xff
  if k = 0xff then 0 else c k

def reduceOnceP (r : Fe) : Fe := if feGe r p256P then feSubRaw r p256P else r

def buildTerm (w : Wide) (t : ℕ) : Fe := reduceOnceP (fromWords (termWord (w32 w) t))

def fpAddP (r t : Fe) : Fe := fpAdd r t p256P

def fpSubP (r t : Fe) : Fe := fpSub r t p256P

def reduceAddHalf (w : Wide) : Fe :=
  let r := buildTerm w 0
  let t := buildTerm w 1
  let r := fpAddP r t
  let r := fpAddP r t
  let t := buildTerm w 2
  let r := fpAddP r t
  let r := fpAddP r t
  let t := buildTerm w 3
  let r := fpAddP r t
  let t := buildTerm w 4
  fpAddP r t

def reduceSubHalf (r : Fe) (w : Wide) : Fe :=
  forUp (fun r k => fpSubP r (buildTerm w (5 + k))) r 4

def fpReduceP256 (w : Wide) : Fe := reduceSubHalf (reduceAddHalf w) w

def fpMulP (a b : Fe) : Fe := fpReduceP256 (feMulWide a b)

def fpSqrP (a : Fe) : Fe := fpMulP a a

def fpInvP (a : Fe) : Fe := powLoop fpMulP (feSubRaw p256P feTwo) feOne a

/-! ## The identity -/

/-- `2 ^ 32` in the field. -/
def radix : F := 2 ^ 32

theorem radix_relation : radix ^ 8 - radix ^ 7 + radix ^ 6 + radix ^ 3 - 1 = 0 := by
  have hp : ((2 ^ 256 - 2 ^ 224 + 2 ^ 192 + 2 ^ 96 - 1 : ℕ) : F) = 0 := ZMod.natCast_self p
  have hle : 1 ≤ 2 ^ 256 - 2 ^ 224 + 2 ^ 192 + 2 ^ 96 := by norm_num
  rw [Nat.cast_sub hle, Nat.cast_add, Nat.cast_add, Nat.cast_sub (by norm_num)] at hp
  push_cast at hp
  rw [radix]
  linear_combination hp

/-- A term as an element of the field. -/
def term (c : ℕ → F) (t : ℕ) : F := ∑ i ∈ Finset.range 8, termWord c t i * radix ^ i

/-- **The folding** of sixteen words into nine terms. -/
theorem solinas_identity (c : ℕ → F) :
    ∑ i ∈ Finset.range 16, c i * radix ^ i =
      term c 0 + term c 1 + term c 1 + term c 2 + term c 2 + term c 3 + term c 4 - term c 5 -
        term c 6 - term c 7 - term c 8 := by
  simp only [term, termWord, p256Terms, Finset.sum_range_succ, Finset.sum_range_zero,
    List.getD_cons_zero, List.getD_cons_succ, Nat.reduceEqDiff, if_true, if_false]
  -- the quotients of the powers above the seventh by the relation
  linear_combination (c 8 + c 9 * (radix + 1) + c 10 * (radix ^ 2 + radix) +
    c 11 * (radix ^ 3 + radix ^ 2 - 1) + c 12 * (radix ^ 4 + radix ^ 3 - radix - 1) +
    c 13 * (radix ^ 5 + radix ^ 4 - radix ^ 2 - radix - 1) +
    c 14 * (radix ^ 6 + radix ^ 5 - radix ^ 3 - radix ^ 2 - radix - 1) +
    c 15 * (radix ^ 7 + radix ^ 6 - radix ^ 4 - radix ^ 3 - radix ^ 2 - radix)) * radix_relation

/-! ## The terms -/

theorem w32_eq (w : Wide) (c : ℕ) : w32 w c = val w / (2 ^ 32) ^ c % 2 ^ 32 := by
  have hindex : c / 2 = 32 * c / 64 := by omega
  have hshift : 32 * (c % 2) = 32 * c % 64 := by omega
  rw [w32, Nat.shiftRight_eq_div_pow, Nat.and_one_is_mod,
    show 0xffffffff = 2 ^ 32 - 1 from rfl, Nat.and_two_pow_sub_one_eq_mod, hindex, hshift,
    limb_window w (by omega), ← pow_mul]

theorem w32_lt (w : Wide) (c : ℕ) : w32 w c < 2 ^ 32 := by
  rw [w32_eq]
  exact Nat.mod_lt _ (by decide)

theorem val_fromWords {e : ℕ → ℕ} (he : ∀ i, e i < 2 ^ 32) :
    val (fromWords e) = low (2 ^ 32) e 8 := by
  have hword : ∀ i < 4, limb (fromWords e) i = e (2 * i) + e (2 * i + 1) * 2 ^ 32 := by
    intro i hi
    have hlo := he (2 * i)
    have hhi := he (2 * i + 1)
    have hor : e (2 * i) ||| (e (2 * i + 1) <<< 32) = e (2 * i) + e (2 * i + 1) * 2 ^ 32 := by
      rw [Nat.or_comm, Nat.shiftLeft_eq, Nat.mul_comm (e (2 * i + 1)),
        ← Nat.two_pow_add_eq_or_of_lt hlo, Nat.add_comm]
    rw [limb, dig_of_lt hi, fromWords, Vector.getElem_ofFn, UInt64.toNat_ofNat', hor]
    omega
  rw [val, low_congr hword]
  simp only [low, Finset.sum_range_succ, Finset.sum_range_zero]
  ring

theorem termWord_lt {c : ℕ → ℕ} {B : ℕ} (hB : 0 < B) (hc : ∀ k, c k < B) (t i : ℕ) :
    termWord c t i < B := by
  rw [termWord]
  split
  · exact hB
  · exact hc _

theorem cast_termWord (c : ℕ → ℕ) (t i : ℕ) :
    ((termWord c t i : ℕ) : F) = termWord (fun k => (c k : F)) t i := by
  rw [termWord, termWord]
  split
  · exact Nat.cast_zero
  · rfl

/-- A number of 256 bits is brought below the prime by one subtraction. -/
theorem holds_reduceOnceP (r : Fe) : Holds (reduceOnceP r) (val r : F) := by
  have hr := val_lt_two_pow r
  have hp : 2 ^ 256 < 2 * p := by decide
  rw [reduceOnceP]
  split
  · rename_i hge
    rw [feGe_iff, val_p256P] at hge
    have hval : val (feSubRaw r p256P) = val r - p := by
      rw [feSubRaw_of_le (by rwa [val_p256P]), val_p256P]
    refine holds_of_lt (by omega) ?_
    rw [hval, Nat.cast_sub hge, ZMod.natCast_self, sub_zero]
  · rename_i hlt
    rw [feGe_iff, val_p256P] at hlt
    exact holds_of_lt (by omega) rfl

theorem holds_buildTerm (w : Wide) (t : ℕ) :
    Holds (buildTerm w t) (term (fun k => (w32 w k : F)) t) := by
  have hlt := termWord_lt (B := 2 ^ 32) (by decide) (w32_lt w) t
  refine (holds_reduceOnceP _).of_eq ?_
  rw [val_fromWords hlt, low, term, Nat.cast_sum]
  refine Finset.sum_congr rfl fun i _ => ?_
  rw [Nat.cast_mul, cast_termWord, radix]
  push_cast
  rfl

theorem sum_w32 (w : Wide) : ∑ i ∈ Finset.range 16, (w32 w i : F) * radix ^ i = (val w : F) := by
  have hw : val w < (2 ^ 32) ^ 16 := (val_lt w).trans_eq (by rw [← pow_mul, ← pow_mul])
  have hlow : low (2 ^ 32) (w32 w) 16 = val w := by
    rw [low_congr fun i _ => w32_eq w i, low_div_mod_self, Nat.mod_eq_of_lt hw]
  rw [← hlow, low, Nat.cast_sum]
  refine Finset.sum_congr rfl fun i _ => ?_
  rw [radix]
  push_cast
  rfl

/-! ## The reduction -/

/-- **The fast reduction** of any product. -/
theorem holds_fpReduceP256 (w : Wide) : Holds (fpReduceP256 w) (val w : F) := by
  have ht := holds_buildTerm w
  have hadd := (((((((ht 0).add val_p256P (ht 1)).add val_p256P (ht 1)).add val_p256P (ht 2)).add
    val_p256P (ht 2)).add val_p256P (ht 3)).add val_p256P (ht 4))
  have hsub := (((hadd.sub val_p256P (ht 5)).sub val_p256P (ht 6)).sub val_p256P (ht 7)).sub
    val_p256P (ht 8)
  rw [← sum_w32, solinas_identity, fpReduceP256, reduceSubHalf, reduceAddHalf]
  simp only [forUp_succ, forUp_zero, fpAddP, fpSubP]
  exact hsub

theorem holds_fpMulP (a b : Fe) : Holds (fpMulP a b) ((val a : F) * (val b : F)) := by
  refine (holds_fpReduceP256 _).of_eq ?_
  rw [val_feMulWide, Nat.cast_mul]

/-- **The fast product is the product modulo the prime**, fully reduced, for all numbers of 256
bits, and for reduced factors it is the product of the long division. -/
theorem fpMulP_eq_mul_mod (a b : Fe) :
    val (fpMulP a b) = val a * val b % p ∧
      (val a < p → val b < p → fpMulP a b = fpMul a b p256P) := by
  have hval : val (fpMulP a b) = val a * val b % p := by
    have hholds := holds_fpMulP a b
    rw [Holds, ← Nat.cast_mul, ZMod.val_natCast] at hholds
    exact hholds
  refine ⟨hval, fun ha _ => val_inj.1 ?_⟩
  rw [hval, fpMul_eq_of_lt (by rwa [val_p256P]), val_p256P]

/-- The square of the largest number, and two small factors. -/
theorem fpMulP_eq_mul_mod_sample :
    val (fpMulP (Vector.replicate 4 0xffffffffffffffff) (Vector.replicate 4 0xffffffffffffffff)) =
        (2 ^ 256 - 1) * (2 ^ 256 - 1) % p ∧
      fpMulP feTwo feTwo = fpMul feTwo feTwo p256P := by
  refine ⟨?_, (fpMulP_eq_mul_mod feTwo feTwo).2 (by decide) (by decide)⟩
  rw [(fpMulP_eq_mul_mod _ _).1]
  decide

/-! ## Field elements -/

variable {a b : Fe} {x y : F}

theorem Holds.mulP (ha : Holds a x) (hb : Holds b y) : Holds (fpMulP a b) (x * y) :=
  (holds_fpMulP a b).of_eq (by rw [ha.cast, hb.cast])

/-- **The fast inversion.** -/
theorem Holds.invP (ha : Holds a x) : Holds (fpInvP a) x⁻¹ := by
  have hexp : val (feSubRaw p256P feTwo) = p - 2 := by
    rw [val_sub_two (by rw [val_p256P]; decide), val_p256P]
  have hpow := powLoop_rel (fun ha hb => ha.mulP hb) (feSubRaw p256P feTwo) holds_feOne ha
  rw [hexp, pow_sub_two (by decide)] at hpow
  exact hpow

end P256

end Crypto

end QuicVibe
