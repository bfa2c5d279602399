import QuicVibe.Crypto.X25519.Model
import QuicVibe.Crypto.X25519.Ladder

/-!
# The field of Ed25519

`ed25519_field.c` carries its own copy of the field arithmetic of `x25519.c`, and one definition
stands for the two here; the copies part in `fe_tobytes`. It takes a number of loose limbs through two
carry passes, adds 19 where the result is at or above the prime, and ends in a third pass, which folds
the carry it should drop: the encoding is then 19 too large. `spelled` is the number that is written.
-/

namespace QuicVibe

namespace Crypto

namespace Ed25519

open Checked
open X25519 hiding feTobytes

/-! ## Encoding and comparison -/

def feTobytes (h : Fe) : Checked Bytes := do
  let r ← carryPass h
  let r ← carryPass r
  let q ← quotient r
  let m ← Checked.mul 64 19 q
  let r0 ← Checked.add 64 (limb r 0) m
  let r ← carryPass (setLow r r0)
  pure (storeReduced r)

/-- `fe_neg`: the limbs are carried first, so that twice the prime exceeds them. -/
def feNeg (f : Fe) : Checked Fe := do
  let r ← carryPass f
  let r ← carryPass r
  feSub fe0 r

def feIsnonzero (f : Fe) : Checked Bool := do
  let s ← feTobytes f
  pure (s.foldl (· ||| ·) 0 != 0)

/-- `fe_isnegative`: the low bit of the encoding. -/
def feIsnegative (f : Fe) : Checked ℕ := do
  let s ← feTobytes f
  pure (s.getD 0 0 &&& 1).toNat

/-- `fe_equal`: the encodings are compared. -/
def feEqual (a b : Fe) : Checked Bool := do
  let sa ← feTobytes a
  let sb ← feTobytes b
  pure ((xorBytes sa sb).foldl (· ||| ·) 0 == 0)

/-- `fe_cmov`: `g` replaces `h` under the mask `0 - (cond != 0)`. -/
def feCmov (h g : Fe) (cond : ℕ) : Fe :=
  let mask := (2 ^ 64 - if cond ≠ 0 then 1 else 0) % 2 ^ 64
  Vector.zipWith (fun a b => a ^^^ (mask &&& (a ^^^ b))) h g

/-- `fe_pow_p58`: the addition chain for `2 ^ 252 - 3`. -/
def fePowP58 (z : Fe) : Checked Fe := do
  let t0 ← feSq z
  let t1 ← feSqn t0 2
  let t1 ← feMul z t1
  let t0 ← feMul t0 t1
  let t0 ← feSq t0
  let t0 ← feMul t1 t0
  let t1 ← feSqn t0 5
  let t0 ← feMul t1 t0
  let t1 ← feSqn t0 10
  let t1 ← feMul t1 t0
  let t2 ← feSqn t1 20
  let t1 ← feMul t2 t1
  let t1 ← feSqn t1 10
  let t0 ← feMul t1 t0
  let t1 ← feSqn t0 50
  let t1 ← feMul t1 t0
  let t2 ← feSqn t1 100
  let t1 ← feMul t2 t1
  let t1 ← feSqn t1 50
  let t0 ← feMul t1 t0
  let t0 ← feSq t0
  let t0 ← feSq t0
  feMul t0 z

/-! ## Constants -/

def sqrtm1Bytes : Vector UInt8 32 :=
  #v[0xb0, 0xa0, 0x0e, 0x4a, 0x27, 0x1b, 0xee, 0xc4, 0x78, 0xe4, 0x2f, 0xad, 0x06, 0x18, 0x43, 0x2f,
     0xa7, 0xd7, 0xfb, 0x3d, 0x99, 0x00, 0x4d, 0x2b, 0x0b, 0xdf, 0xc1, 0x4f, 0x80, 0x24, 0x83, 0x2b]

def feSqrtm1 : Fe := feFrombytes sqrtm1Bytes

def dBytes : Vector UInt8 32 :=
  #v[0xa3, 0x78, 0x59, 0x13, 0xca, 0x4d, 0xeb, 0x75, 0xab, 0xd8, 0x41, 0x41, 0x4d, 0x0a, 0x70, 0x00,
     0x98, 0xe8, 0x79, 0x77, 0x79, 0x40, 0xc7, 0x8c, 0x73, 0xfe, 0x6f, 0x2b, 0xee, 0x6c, 0x03, 0x52]

def feD : Fe := feFrombytes dBytes

/-! ## The group -/

/-- `quic_ed_ge`: extended homogeneous coordinates. -/
structure Ge where
  X : Fe
  Y : Fe
  Z : Fe
  T : Fe

def geZero : Ge := { X := fe0, Y := fe1, Z := fe1, T := fe0 }

def baseXBytes : Vector UInt8 32 :=
  #v[0x1a, 0xd5, 0x25, 0x8f, 0x60, 0x2d, 0x56, 0xc9, 0xb2, 0xa7, 0x25, 0x95, 0x60, 0xc7, 0x2c, 0x69,
     0x5c, 0xdc, 0xd6, 0xfd, 0x31, 0xe2, 0xa4, 0xc0, 0xfe, 0x53, 0x6e, 0xcd, 0xd3, 0x36, 0x69, 0x21]

def baseYBytes : Vector UInt8 32 :=
  #v[0x58, 0x66, 0x66, 0x66, 0x66, 0x66, 0x66, 0x66, 0x66, 0x66, 0x66, 0x66, 0x66, 0x66, 0x66, 0x66,
     0x66, 0x66, 0x66, 0x66, 0x66, 0x66, 0x66, 0x66, 0x66, 0x66, 0x66, 0x66, 0x66, 0x66, 0x66, 0x66]

def geBase : Checked Ge := do
  let x := feFrombytes baseXBytes
  let y := feFrombytes baseYBytes
  let t ← feMul x y
  pure { X := x, Y := y, Z := fe1, T := t }

def geAdd (p1 p2 : Ge) : Checked Ge := do
  let d2 ← feAdd feD feD
  let a ← feSub p1.Y p1.X
  let t ← feSub p2.Y p2.X
  let a ← feMul a t
  let b ← feAdd p1.Y p1.X
  let t ← feAdd p2.Y p2.X
  let b ← feMul b t
  let c ← feMul p1.T p2.T
  let c ← feMul c d2
  let d ← feMul p1.Z p2.Z
  let d ← feAdd d d
  let e ← feSub b a
  let f ← feSub d c
  let g ← feAdd d c
  let h ← feAdd b a
  let X ← feMul e f
  let Y ← feMul g h
  let T ← feMul e h
  let Z ← feMul f g
  pure { X := X, Y := Y, Z := Z, T := T }

/-- The four moves of `quic_ed_ge_scalarmult`. -/
def geCmov (q t : Ge) (bit : ℕ) : Ge :=
  { X := feCmov q.X t.X bit
    Y := feCmov q.Y t.Y bit
    Z := feCmov q.Z t.Z bit
    T := feCmov q.T t.T bit }

/-- The loop of `quic_ed_ge_scalarmult`, from the position below the given one down to zero. -/
def geScalarmultLoop (scalar : Vector UInt8 32) (p : Ge) : ℕ → Ge → Checked Ge
  | 0, q => pure q
  | i + 1, q => do
    let bit := scalarBit scalar i
    let q ← geAdd q q
    let t ← geAdd q p
    geScalarmultLoop scalar p i (geCmov q t bit)

def geScalarmult (scalar : Vector UInt8 32) (p : Ge) : Checked Ge :=
  geScalarmultLoop scalar p 256 geZero

/-! ## Encoding and decoding of points -/

def geEncode (p : Ge) : Checked Bytes := do
  let zi ← feInvert p.Z
  let x ← feMul p.X zi
  let y ← feMul p.Y zi
  let out ← feTobytes y
  let sign ← feIsnegative x
  pure (out.modify 31 (· ^^^ UInt8.ofNat (sign <<< 7)))

/-- `recover_x`: the return value and `x`. -/
def recoverX (u v : Fe) : Checked (Bool × Fe) := do
  let v3 ← feSq v
  let v3 ← feMul v3 v
  let uv7 ← feSq v3
  let uv7 ← feMul uv7 v
  let uv7 ← feMul uv7 u
  let t ← fePowP58 uv7
  let x ← feMul v3 u
  let x ← feMul x t
  let vx2 ← feSq x
  let vx2 ← feMul vx2 v
  let nu ← feNeg u
  let found ← feEqual vx2 u
  if found then pure (true, x)
  else do
    let x ← feMul x feSqrtm1
    let found ← feEqual vx2 nu
    pure (found, x)

def decodeSignFails (x : Fe) (x0 : ℕ) : Checked Bool := do
  let nonzero ← feIsnonzero x
  pure (!nonzero && decide (x0 ≠ 0))

def applySign (x : Fe) (x0 : ℕ) : Checked Fe := do
  let nx ← feNeg x
  let sign ← feIsnegative x
  pure (feCmov x nx (if x0 ≠ sign then 1 else 0))

def decodeUv (y : Fe) : Checked (Fe × Fe) := do
  let u ← feSq y
  let u ← feSub u fe1
  let v ← feMul u feD
  let v ← feAdd v feD
  let v ← feAdd v fe1
  pure (u, v)

def geDecode (s : Vector UInt8 32) : Checked (Option Ge) := do
  let x0 := (s.toList.getD 31 0 >>> 7).toNat
  let y := feFrombytes s
  let uv ← decodeUv y
  let rx ← recoverX uv.1 uv.2
  if !rx.1 then pure none
  else do
    let fails ← decodeSignFails rx.2 x0
    if fails then pure none
    else do
      let x ← applySign rx.2 x0
      let t ← feMul x y
      pure (some { X := x, Y := y, Z := fe1, T := t })
/-! ## The number that is written -/

/-- The number `fe_tobytes` writes for the number of its limbs. -/
def spelled (n : ℕ) : ℕ := n % prime + if prime ≤ n ∧ n % prime < 19 then 19 else 0

/-- The numbers that are written as their least residue. -/
def Faithful (n : ℕ) : Prop := n < prime ∨ 19 ≤ n % prime

theorem spelled_eq_iff (n : ℕ) : spelled n = n % prime ↔ Faithful n := by
  unfold spelled Faithful
  split <;> omega

theorem spelled_lt (n : ℕ) : spelled n < prime := by
  have hlt : n % prime < prime := Nat.mod_lt n (by decide)
  have hprime : 38 < prime := by decide
  unfold spelled
  split <;> omega

/-- What two passes leave is at or above the prime only in the cases `spelled` adds 19 in. -/
theorem prime_le_fold_fold {n : ℕ} (hn : n < 2 ^ 258) :
    prime ≤ fold (fold n) ↔ prime ≤ n ∧ n % prime < 19 := by
  have hfirst : fold n < 2 ^ 255 + 152 := by
    rw [fold]
    omega
  -- a second fold either does nothing or leaves a small number that is no residue below 19
  have hlast : fold n < 2 ^ 255 ∧ fold (fold n) = fold n ∨
      19 ≤ fold (fold n) ∧ fold (fold n) < 171 := by
    generalize fold n = m at hfirst
    rw [fold]
    omega
  have hsmall : fold n < 19 ↔ n < 19 := by
    rw [fold]
    omega
  have hbelow : n < prime → fold n = n := by
    intro hlt
    rw [prime] at hlt
    rw [fold]
    omega
  rw [← fold_fold_mod]
  generalize fold (fold n) = w at hlast
  rw [prime] at *
  rcases hlast with ⟨hlt, rfl⟩ | ⟨hge, hlt⟩
  · by_cases hn : n < 2 ^ 255 - 19
    · have := hbelow hn
      omega
    · omega
  · omega

/-- **Encoding** of a loose number. -/
theorem feTobytes_eq {f : Fe} (hf : Loose f) :
    Returns (feTobytes f) (· = Limbs.putLe 32 (spelled (value f))) := by
  refine carryTwice_spec hf fun r hr hval => ?_
  have hlt := value_lt_of_carried hr
  have hcase := prime_le_fold_fold (value_lt_of_loose hf)
  rw [← hval] at hcase
  refine addQuotient_spec hr fun s hs hadd => (carryPass_spec hs).map fun t ⟨_, hfold, ht⟩ => ?_
  have hnear : value s < 2 ^ 255 + 2 ^ 50 := by
    rw [hadd]
    split <;> omega
  rw [storeReduced_eq (ht hnear), hfold, hadd, spelled]
  simp only [← hcase]
  rw [← fold_fold_mod, ← hval]
  congr 1
  by_cases hp : prime ≤ value r
  · -- the carry is the prime and comes back as 19
    rw [if_pos hp, fold]
    rw [prime] at *
    omega
  · rw [if_neg hp, fold]
    rw [prime] at *
    omega

/-! ## What is decided on encodings -/

theorem putLe_spelled_inj {m n : ℕ} :
    Limbs.putLe 32 (spelled m) = Limbs.putLe 32 (spelled n) ↔ spelled m = spelled n := by
  have hread : ∀ k, Limbs.readLe (Limbs.putLe 32 (spelled k)) = spelled k := by
    intro k
    rw [Limbs.readLe_putLe]
    exact Nat.mod_eq_of_lt ((spelled_lt k).trans (by decide))
  refine ⟨fun h => ?_, fun h => by rw [h]⟩
  rw [← hread m, h, hread]

theorem feIsnonzero_eq {f : Fe} (hf : Loose f) :
    Returns (feIsnonzero f) (· = decide (spelled (value f) ≠ 0)) := by
  refine (feTobytes_eq hf).map fun s hs => ?_
  have hzero : s.foldl (· ||| ·) 0 = 0 ↔ spelled (value f) = 0 := by
    have hread := Limbs.readLe_eq_zero_iff s
    rw [hs, Limbs.readLe_putLe, Nat.mod_eq_of_lt ((spelled_lt _).trans (by decide))] at hread
    rw [foldl_or_eq_zero_iff, hs, hread]
    exact and_iff_right rfl
  rw [Bool.eq_iff_iff, bne_iff_ne, decide_eq_true_eq]
  exact not_congr hzero

theorem feEqual_eq {f g : Fe} (hf : Loose f) (hg : Loose g) :
    Returns (feEqual f g) (· = decide (spelled (value f) = spelled (value g))) := by
  refine (feTobytes_eq hf).bind fun s hs => (feTobytes_eq hg).map fun t ht => ?_
  have hsame : (xorBytes s t).foldl (· ||| ·) 0 = 0 ↔ spelled (value f) = spelled (value g) := by
    have hlen : s.length = t.length := by rw [hs, ht, Limbs.length_putLe, Limbs.length_putLe]
    rw [foldl_or_eq_zero_iff, xorBytes_eq_zero_iff hlen, hs, ht, putLe_spelled_inj]
    exact and_iff_right rfl
  rw [Bool.eq_iff_iff, beq_iff_eq, decide_eq_true_eq]
  exact hsame

theorem feIsnegative_eq {f : Fe} (hf : Loose f) :
    Returns (feIsnegative f) (· = spelled (value f) % 2) := by
  refine (feTobytes_eq hf).map fun s hs => ?_
  rw [hs, Limbs.putLe, List.getD_cons_zero, UInt8.toNat_and, UInt8.toNat_ofNat', UInt8.toNat_one,
    Nat.and_one_is_mod]
  omega

/-! ## When the encoding is canonical -/

/-- Both numbers are written as their least residues, and zero and equality are those of the
field. -/
structure Canonical (f g : Fe) : Prop where
  left : Returns (feTobytes f) (· = Limbs.putLe 32 (value f % prime))
  right : Returns (feTobytes g) (· = Limbs.putLe 32 (value g % prime))
  encoding : (feTobytes f).val = (feTobytes g).val ↔ value f ≡ value g [MOD prime]
  nonzero : Returns (feIsnonzero f) (· = decide (¬ value f ≡ 0 [MOD prime]))
  equal : Returns (feEqual f g) (· = decide (value f ≡ value g [MOD prime]))

theorem feTobytes_residue_iff {f : Fe} (hf : Loose f) :
    Returns (feTobytes f) (· = Limbs.putLe 32 (value f % prime)) ↔ Faithful (value f) := by
  obtain ⟨hok, hval⟩ := feTobytes_eq hf
  rw [← spelled_eq_iff]
  constructor
  · rintro ⟨-, hres⟩
    have hread := congrArg Limbs.readLe (hval.symm.trans hres)
    have hlt : value f % prime < prime := Nat.mod_lt _ (by decide)
    have hbytes : prime < 256 ^ 32 := by decide
    rwa [Limbs.readLe_putLe, Limbs.readLe_putLe, Nat.mod_eq_of_lt ((spelled_lt _).trans hbytes),
      Nat.mod_eq_of_lt (hlt.trans hbytes)] at hread
  · intro heq
    rw [← heq]
    exact ⟨hok, hval⟩

/-- **Canonical encoding.** Exactly the numbers below the prime and those whose residue is at least
19 are encoded canonically, and among them encodings decide zero and equality. -/
theorem feTobytes_canonical_iff {f g : Fe} (hf : Loose f) (hg : Loose g) :
    Canonical f g ↔ Faithful (value f) ∧ Faithful (value g) := by
  constructor
  · intro h
    exact ⟨(feTobytes_residue_iff hf).1 h.left, (feTobytes_residue_iff hg).1 h.right⟩
  · rintro ⟨hff, hgg⟩
    have hfs := (spelled_eq_iff _).2 hff
    have hgs := (spelled_eq_iff _).2 hgg
    refine ⟨(feTobytes_residue_iff hf).2 hff, (feTobytes_residue_iff hg).2 hgg, ?_, ?_, ?_⟩
    · rw [(feTobytes_eq hf).2, (feTobytes_eq hg).2, putLe_spelled_inj, hfs, hgs, Nat.ModEq]
    · refine (feIsnonzero_eq hf).mono fun b hb => ?_
      rw [hb, hfs, decide_eq_decide, Nat.ModEq, Nat.zero_mod]
    · refine (feEqual_eq hf hg).mono fun b hb => ?_
      rw [hb, hfs, hgs, decide_eq_decide, Nat.ModEq]

theorem feTobytes_canonical_zero_one :
    Canonical fe0 fe1 ↔ Faithful (value fe0) ∧ Faithful (value fe1) :=
  feTobytes_canonical_iff tightAt_zero.tight.loose tightAt_one.tight.loose

/-- One minus one is twice the prime, which is encoded as 19: it is found nonzero, and different
from zero. -/
theorem feSub_self_not_canonical :
    (feSub fe1 fe1).val = twop ∧ (∀ i < 5, limb twop i < 2 ^ 53) ∧ value twop % prime = 0 ∧
      (feTobytes twop).val = Limbs.putLe 32 19 ∧ (feIsnonzero twop).val = true ∧
      (feEqual fe0 twop).val = false := by
  decide

end Ed25519

end Crypto

end QuicVibe
