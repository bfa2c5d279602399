import QuicVibe.Common.Checked
/-!
# X25519

The function of `x25519.c` and the one of RFC 7748 it is meant to be. The code keeps a number modulo
`2 ^ 255 - 19` in five limbs of 51 bits. Its operations on limbs are those of `Checked`: they wrap as
the machine does, and the flag of the result says whether one of them lost anything. Masks and the
shifts that cut words into limbs drop bits on purpose and carry no flag.
-/

namespace QuicVibe

namespace Crypto

namespace X25519

/-! ## Field elements -/

/-- `fe`: five limbs, least significant first. -/
abbrev Fe := Vector ℕ 5

def MASK51 : ℕ := 0x7ffffffffffff

/-- Limb `i`. -/
def limb (f : Fe) (i : ℕ) : ℕ := f.toList.getD i 0

def fe0 : Fe := #v[0, 0, 0, 0, 0]

def fe1 : Fe := #v[1, 0, 0, 0, 0]

def feAdd (f g : Fe) : Checked Fe := Checked.array (fun i => Checked.add 64 (limb f i) (limb g i)) 5

/-- Twice the prime, limb by limb. -/
def twop : Fe :=
  #v[0xfffffffffffda, 0xffffffffffffe, 0xffffffffffffe, 0xffffffffffffe, 0xffffffffffffe]

/-- `x25519_fe_sub`: twice the prime is added first, to stay above zero. -/
def feSub (f g : Fe) : Checked Fe :=
  Checked.array (fun i => do
    let t ← Checked.add 64 (limb f i) (limb twop i)
    Checked.sub 64 t (limb g i)) 5

/-- One column of the schoolbook product, with the terms that cross `2 ^ 255` folded. -/
def mulCol (f g : Fe) (i : ℕ) : Checked ℕ :=
  Checked.sum 128 (fun j => do
    let gj ← if i ≥ j then pure (limb g (i - j)) else Checked.mul 64 (limb g (5 + i - j)) 19
    Checked.mul 128 (limb f j) gj) 5

/-- The loop body of `x25519_fe_reduce`. -/
def reduceStep (c t : ℕ) : Checked (ℕ × ℕ) := do
  let t ← Checked.add 128 t c
  let c ← Checked.word 64 (t >>> 51)
  pure (t % 2 ^ 64 &&& MASK51, c)

/-- `x25519_fe_reduce`: column sums to limbs. -/
def feReduce (t : Vector ℕ 5) : Checked Fe := do
  let r ← Checked.sweep reduceStep 0 t.toList
  let m ← Checked.mul 64 r.2 19
  let h0 ← Checked.add 64 (r.1.getD 0 0) m
  let h1 ← Checked.add 64 (r.1.getD 1 0) (h0 >>> 51)
  pure #v[h0 &&& MASK51, h1, r.1.getD 2 0, r.1.getD 3 0, r.1.getD 4 0]

def feMul (f g : Fe) : Checked Fe := do
  let t ← Checked.array (mulCol f g) 5
  feReduce t

def feSq (f : Fe) : Checked Fe := feMul f f

def feMul121666 (f : Fe) : Checked Fe := do
  let t ← Checked.array (fun i => Checked.mul 128 (limb f i) 121666) 5
  feReduce t

/-- `fe_cswap`: exchange under the mask `0 - swap`. -/
def feCswap (f g : Fe) (swap : ℕ) : Fe × Fe :=
  let mask := (2 ^ 64 - swap) % 2 ^ 64
  let x := Vector.zipWith (fun a b => mask &&& (a ^^^ b)) f g
  (Vector.zipWith (· ^^^ ·) f x, Vector.zipWith (· ^^^ ·) g x)

/-- `x25519_fe_sqn`: repeated squaring. -/
def feSqn (f : Fe) : ℕ → Checked Fe
  | 0 => pure f
  | n + 1 => do
    let h ← feSqn f n
    feSq h

/-- `x25519_fe_invert`: the addition chain for `2 ^ 255 - 21`. -/
def feInvert (z : Fe) : Checked Fe := do
  let t0 ← feSq z
  let t1 ← feSqn t0 2
  let t1 ← feMul z t1
  let t0 ← feMul t0 t1
  let t2 ← feSq t0
  let t1 ← feMul t1 t2
  let t2 ← feSqn t1 5
  let t1 ← feMul t2 t1
  let t2 ← feSqn t1 10
  let t2 ← feMul t2 t1
  let t3 ← feSqn t2 20
  let t2 ← feMul t3 t2
  let t2 ← feSqn t2 10
  let t1 ← feMul t2 t1
  let t2 ← feSqn t1 50
  let t2 ← feMul t2 t1
  let t3 ← feSqn t2 100
  let t2 ← feMul t3 t2
  let t2 ← feSqn t2 50
  let t1 ← feMul t2 t1
  let t1 ← feSqn t1 5
  feMul t1 t0

/-! ## Bytes -/

/-- A 64-bit word of `x25519_fe_frombytes`. -/
def loadWord (s : Bytes) (i : ℕ) : ℕ :=
  (List.range 8).foldl (fun t j => t ||| ((s.getD (i * 8 + j) 0).toNat <<< (8 * j))) 0

/-- `x25519_fe_frombytes`: the top bit is dropped. -/
def feFrombytes (s : Vector UInt8 32) : Fe :=
  let t := loadWord s.toList
  #v[t 0 &&& MASK51,
     ((t 0 >>> 51) ||| u64 (t 1 <<< 13)) &&& MASK51,
     ((t 1 >>> 38) ||| u64 (t 2 <<< 26)) &&& MASK51,
     ((t 2 >>> 25) ||| u64 (t 3 <<< 39)) &&& MASK51,
     (t 3 >>> 12) &&& MASK51]

def storeReduced (r : Fe) : Bytes :=
  let w := [limb r 0 ||| u64 (limb r 1 <<< 51),
            (limb r 1 >>> 13) ||| u64 (limb r 2 <<< 38),
            (limb r 2 >>> 26) ||| u64 (limb r 3 <<< 25),
            (limb r 3 >>> 39) ||| u64 (limb r 4 <<< 12)]
  w.flatMap fun w => (List.range 8).map fun j => UInt8.ofNat (w >>> (8 * j))

/-- The loop body of `x25519_carry_pass` and `x25519_carry_final`. -/
def carryStep (c r : ℕ) : Checked (ℕ × ℕ) := do
  let r ← Checked.add 64 r c
  pure (r &&& MASK51, r >>> 51)

/-- `x25519_carry_pass`: the carry out of the top limb is folded. -/
def carryPass (r : Fe) : Checked Fe := do
  let h ← Checked.sweep carryStep 0 r.toList
  let m ← Checked.mul 64 h.2 19
  let r0 ← Checked.add 64 (h.1.getD 0 0) m
  pure #v[r0, h.1.getD 1 0, h.1.getD 2 0, h.1.getD 3 0, h.1.getD 4 0]

/-- `x25519_carry_final`: the carry out of the top limb is dropped. -/
def carryFinal (r : Fe) : Checked Fe := do
  let h ← Checked.sweep carryStep 0 r.toList
  pure #v[h.1.getD 0 0, h.1.getD 1 0, h.1.getD 2 0, h.1.getD 3 0, h.1.getD 4 0]

/-- The loop that finds whether `r + 19` reaches `2 ^ 255`. -/
def quotient (r : Fe) : Checked ℕ := do
  let t ← Checked.add 64 (limb r 0) 19
  let t ← Checked.add 64 (limb r 1) (t >>> 51)
  let t ← Checked.add 64 (limb r 2) (t >>> 51)
  let t ← Checked.add 64 (limb r 3) (t >>> 51)
  let t ← Checked.add 64 (limb r 4) (t >>> 51)
  pure (t >>> 51)

/-- The number with another low limb. -/
def setLow (r : Fe) (r0 : ℕ) : Fe := #v[r0, limb r 1, limb r 2, limb r 3, limb r 4]

def feTobytes (h : Fe) : Checked Bytes := do
  let r ← carryPass h
  let r ← carryPass r
  let q ← quotient r
  let m ← Checked.mul 64 19 q
  let r0 ← Checked.add 64 (limb r 0) m
  let r ← carryFinal (setLow r r0)
  pure (storeReduced r)

/-! ## The ladder -/

/-- The four coordinates of a ladder. -/
structure Ladder (R : Type*) where
  x2 : R
  z2 : R
  x3 : R
  z3 : R

def ladderStep (x1 : Fe) (s : Ladder Fe) : Checked (Ladder Fe) := do
  let a ← feAdd s.x2 s.z2
  let b ← feSub s.x2 s.z2
  let c ← feAdd s.x3 s.z3
  let d ← feSub s.x3 s.z3
  let da ← feMul d a
  let cb ← feMul c b
  let x3 ← feAdd da cb
  let x3 ← feSq x3
  let z3 ← feSub da cb
  let z3 ← feSq z3
  let z3 ← feMul z3 x1
  let a ← feSq a
  let b ← feSq b
  let x2 ← feMul a b
  let e ← feSub a b
  let da ← feMul121666 e
  let da ← feAdd da b
  let z2 ← feMul e da
  pure { x2 := x2, z2 := z2, x3 := x3, z3 := z3 }

/-- The two exchanges of the ladder. -/
def swapPair (s : Ladder Fe) (swap : ℕ) : Ladder Fe :=
  let (x2, x3) := feCswap s.x2 s.x3 swap
  let (z2, z3) := feCswap s.z2 s.z3 swap
  { x2 := x2, z2 := z2, x3 := x3, z3 := z3 }

def clamp (scalar : Vector UInt8 32) : Vector UInt8 32 :=
  let e := scalar.set 0 (scalar[0] &&& 248)
  e.set 31 ((e[31] &&& 127) ||| 64)

/-- The bit of the scalar the ladder reads at `pos`. -/
def scalarBit (e : Vector UInt8 32) (pos : ℕ) : ℕ :=
  ((e.toList.getD (pos / 8) 0).toNat >>> (pos &&& 7)) &&& 1

/-- The loop of `ladder`, from the position below the given one down to zero. -/
def ladderLoop (e : Vector UInt8 32) (x1 : Fe) : ℕ → Ladder Fe × ℕ → Checked (Ladder Fe × ℕ)
  | 0, s => pure s
  | pos + 1, (s, swap) => do
    let bit := scalarBit e pos
    let s ← ladderStep x1 (swapPair s (swap ^^^ bit))
    ladderLoop e x1 pos (s, bit)

/-- `ladder`: the coordinates `x2` and `z2` at the end. -/
def ladder (e : Vector UInt8 32) (x1 : Fe) : Checked (Fe × Fe) := do
  let (s, swap) ← ladderLoop e x1 255 ({ x2 := fe1, z2 := fe0, x3 := x1, z3 := fe1 }, 0)
  let s := swapPair s swap
  pure (s.x2, s.z2)

def nonzero (out : Bytes) : ℕ := if out.foldl (· ||| ·) 0 ≠ 0 then 1 else 0

/-- `quic_x25519`: the return value and the output. -/
def x25519 (scalar point : Vector UInt8 32) : Checked (ℕ × Bytes) := do
  let e := clamp scalar
  let x1 := feFrombytes point
  let (x2, z2) ← ladder e x1
  let zinv ← feInvert z2
  let x2 ← feMul x2 zinv
  let out ← feTobytes x2
  pure (nonzero out, out)

/-! ## The function of the RFC -/

/-- The prime of section 4.1. -/
def prime : ℕ := 2 ^ 255 - 19

/-- The field. -/
abbrev F := ZMod prime

/-- `decodeScalar25519`: the three low bits and the top bit are cleared, bit 254 is set. -/
def decodeScalar (k : Vector UInt8 32) : ℕ := 2 ^ 254 + Limbs.readLe k.toList % 2 ^ 254 / 8 * 8

/-- `decodeUCoordinate`: the top bit is masked, and the number is taken modulo the prime. -/
def decodeUCoordinate (u : Vector UInt8 32) : F := ((Limbs.readLe u.toList % 2 ^ 255 : ℕ) : F)

/-- `encodeUCoordinate`: the least residue, little-endian. -/
def encodeUCoordinate (u : F) : Bytes := Limbs.putLe 32 u.val

/-- The body of the loop of section 5, after the exchanges; `a24` is 121665. -/
def rfcStep (x1 : F) (s : Ladder F) : Ladder F :=
  let a := s.x2 + s.z2
  let aa := a ^ 2
  let b := s.x2 - s.z2
  let bb := b ^ 2
  let e := aa - bb
  let c := s.x3 + s.z3
  let d := s.x3 - s.z3
  let da := d * a
  let cb := c * b
  { x3 := (da + cb) ^ 2
    z3 := x1 * (da - cb) ^ 2
    x2 := aa * bb
    z2 := e * (aa + 121665 * e) }

/-- `cswap` of both pairs. -/
def rfcSwap (swap : Bool) (s : Ladder F) : Ladder F :=
  if swap then { x2 := s.x3, z2 := s.z3, x3 := s.x2, z3 := s.z2 } else s

/-- The loop of section 5, from the bit below the given one down to bit zero. -/
def rfcLoop (k : ℕ) (x1 : F) : ℕ → Ladder F × Bool → Ladder F × Bool
  | 0, s => s
  | t + 1, (s, swap) => rfcLoop k x1 t (rfcStep x1 (rfcSwap (swap ^^ k.testBit t) s), k.testBit t)

/-- The result of the ladder: `x2 * z2 ^ (p - 2)`. -/
def rfcLadder (k : ℕ) (u : F) : F :=
  let r := rfcLoop k u 255 ({ x2 := 1, z2 := 0, x3 := u, z3 := 1 }, false)
  let s := rfcSwap r.2 r.1
  s.x2 * s.z2 ^ (prime - 2)

/-- The function X25519 of section 5. -/
def rfcX25519 (scalar point : Vector UInt8 32) : Bytes :=
  encodeUCoordinate (rfcLadder (decodeScalar scalar) (decodeUCoordinate point))

end X25519

end Crypto

end QuicVibe
