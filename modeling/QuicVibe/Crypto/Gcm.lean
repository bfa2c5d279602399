import QuicVibe.Common.Bytes

/-!
# AES-128 and its GCM mode

The block cipher of `aes.c`, on the column-major state of the code with byte `(r, c)` at index
`4 * c + r`, and the authenticated encryption of `gcm.c`, over an arbitrary block function `E` in place
of AES under a fixed key. The field arithmetic of the tag is the code's own, on 16-byte arrays.
-/

namespace QuicVibe

namespace Crypto

/-- A 16-byte block (`QUIC_AES_BLOCK`), also the size of a key. -/
abbrev Block := Vector UInt8 16

namespace Aes

/-- The S-box (FIPS 197 figure 7). -/
def SBOX : List UInt8 :=
  [0x63, 0x7c, 0x77, 0x7b, 0xf2, 0x6b, 0x6f, 0xc5, 0x30, 0x01, 0x67, 0x2b,
   0xfe, 0xd7, 0xab, 0x76, 0xca, 0x82, 0xc9, 0x7d, 0xfa, 0x59, 0x47, 0xf0,
   0xad, 0xd4, 0xa2, 0xaf, 0x9c, 0xa4, 0x72, 0xc0, 0xb7, 0xfd, 0x93, 0x26,
   0x36, 0x3f, 0xf7, 0xcc, 0x34, 0xa5, 0xe5, 0xf1, 0x71, 0xd8, 0x31, 0x15,
   0x04, 0xc7, 0x23, 0xc3, 0x18, 0x96, 0x05, 0x9a, 0x07, 0x12, 0x80, 0xe2,
   0xeb, 0x27, 0xb2, 0x75, 0x09, 0x83, 0x2c, 0x1a, 0x1b, 0x6e, 0x5a, 0xa0,
   0x52, 0x3b, 0xd6, 0xb3, 0x29, 0xe3, 0x2f, 0x84, 0x53, 0xd1, 0x00, 0xed,
   0x20, 0xfc, 0xb1, 0x5b, 0x6a, 0xcb, 0xbe, 0x39, 0x4a, 0x4c, 0x58, 0xcf,
   0xd0, 0xef, 0xaa, 0xfb, 0x43, 0x4d, 0x33, 0x85, 0x45, 0xf9, 0x02, 0x7f,
   0x50, 0x3c, 0x9f, 0xa8, 0x51, 0xa3, 0x40, 0x8f, 0x92, 0x9d, 0x38, 0xf5,
   0xbc, 0xb6, 0xda, 0x21, 0x10, 0xff, 0xf3, 0xd2, 0xcd, 0x0c, 0x13, 0xec,
   0x5f, 0x97, 0x44, 0x17, 0xc4, 0xa7, 0x7e, 0x3d, 0x64, 0x5d, 0x19, 0x73,
   0x60, 0x81, 0x4f, 0xdc, 0x22, 0x2a, 0x90, 0x88, 0x46, 0xee, 0xb8, 0x14,
   0xde, 0x5e, 0x0b, 0xdb, 0xe0, 0x32, 0x3a, 0x0a, 0x49, 0x06, 0x24, 0x5c,
   0xc2, 0xd3, 0xac, 0x62, 0x91, 0x95, 0xe4, 0x79, 0xe7, 0xc8, 0x37, 0x6d,
   0x8d, 0xd5, 0x4e, 0xa9, 0x6c, 0x56, 0xf4, 0xea, 0x65, 0x7a, 0xae, 0x08,
   0xba, 0x78, 0x25, 0x2e, 0x1c, 0xa6, 0xb4, 0xc6, 0xe8, 0xdd, 0x74, 0x1f,
   0x4b, 0xbd, 0x8b, 0x8a, 0x70, 0x3e, 0xb5, 0x66, 0x48, 0x03, 0xf6, 0x0e,
   0x61, 0x35, 0x57, 0xb9, 0x86, 0xc1, 0x1d, 0x9e, 0xe1, 0xf8, 0x98, 0x11,
   0x69, 0xd9, 0x8e, 0x94, 0x9b, 0x1e, 0x87, 0xe9, 0xce, 0x55, 0x28, 0xdf,
   0x8c, 0xa1, 0x89, 0x0d, 0xbf, 0xe6, 0x42, 0x68, 0x41, 0x99, 0x2d, 0x0f,
   0xb0, 0x54, 0xbb, 0x16]

def RCON : List UInt8 := [0x01, 0x02, 0x04, 0x08, 0x10, 0x20, 0x40, 0x80, 0x1b, 0x36]

def sbox (x : UInt8) : UInt8 := SBOX.getD x.toNat 0

/-- Multiplication by 2 modulo the AES polynomial. -/
def xtime (x : UInt8) : UInt8 := (x <<< 1) ^^^ ((x >>> 7) * 0x1b)

def subWord (w : UInt32) : UInt32 :=
  (sbox (w >>> 24).toUInt8).toUInt32 <<< 24 ||| (sbox (w >>> 16).toUInt8).toUInt32 <<< 16 |||
    (sbox (w >>> 8).toUInt8).toUInt32 <<< 8 ||| (sbox w.toUInt8).toUInt32

/-- The per-word core of the key schedule: rotate, substitute and add the round constant on
multiples of 4. -/
def scheduleWord (prev : UInt32) (i : ℕ) : UInt32 :=
  if i % 4 ≠ 0 then prev
  else subWord (prev <<< 8 ||| prev >>> 24) ^^^ ((RCON.getD (i / 4 - 1) 0).toUInt32 <<< 24)

/-- The 44 round-key words of a key (`quic_aes128_init`). -/
def expandKey (key : Block) : List UInt32 :=
  (List.range' 4 40).foldl
    (fun rk i => rk ++ [rk.getD (i - 4) 0 ^^^ scheduleWord (rk.getD (i - 1) 0) i])
    ((List.range 4).map fun i =>
      (key.toList.getD (4 * i) 0).toUInt32 <<< 24 |||
        (key.toList.getD (4 * i + 1) 0).toUInt32 <<< 16 |||
        (key.toList.getD (4 * i + 2) 0).toUInt32 <<< 8 |||
        (key.toList.getD (4 * i + 3) 0).toUInt32)

/-- Xor the four round-key words from index `k` on into the state. -/
def addRoundKey (s : Block) (rk : List UInt32) (k : ℕ) : Block :=
  Vector.ofFn fun j : Fin 16 =>
    s.get j ^^^ (rk.getD (k + j.val / 4) 0 >>> UInt32.ofNat (24 - 8 * (j.val % 4))).toUInt8

def subBytes (s : Block) : Block := s.map sbox

/-- Row `r` moves left by `r` columns. -/
def shiftRows (s : Block) : Block :=
  Vector.ofFn fun j : Fin 16 => s[4 * ((j.val / 4 + j.val % 4) % 4) + j.val % 4]

/-- MixColumns on one column. -/
def mixOne (a0 a1 a2 a3 : UInt8) : Bytes :=
  [xtime a0 ^^^ (xtime a1 ^^^ a1) ^^^ a2 ^^^ a3,
   a0 ^^^ xtime a1 ^^^ (xtime a2 ^^^ a2) ^^^ a3,
   a0 ^^^ a1 ^^^ xtime a2 ^^^ (xtime a3 ^^^ a3),
   (xtime a0 ^^^ a0) ^^^ a1 ^^^ a2 ^^^ xtime a3]

def mixColumns (s : Block) : Block :=
  let a (i : ℕ) := s.toList.getD i 0
  Bytes.fit 16 ((List.range 4).flatMap fun c =>
    mixOne (a (4 * c)) (a (4 * c + 1)) (a (4 * c + 2)) (a (4 * c + 3)))

/-- One of the rounds 1 to 9. -/
def roundFull (s : Block) (rk : List UInt32) (r : ℕ) : Block :=
  addRoundKey (mixColumns (shiftRows (subBytes s))) rk (4 * r)

/-- The final round omits MixColumns. -/
def roundLast (s : Block) (rk : List UInt32) : Block :=
  addRoundKey (shiftRows (subBytes s)) rk 40

end Aes

/-- `quic_aes128_encrypt` under the schedule of `key`. -/
def aes128 (key block : Block) : Block :=
  let rk := Aes.expandKey key
  let s := (List.range' 1 9).foldl (fun s r => Aes.roundFull s rk r) (Aes.addRoundKey block rk 0)
  Aes.roundLast s rk

/-- A 12-byte nonce (`QUIC_GCM_NONCE`). -/
abbrev Nonce := Vector UInt8 12

namespace Gcm

def xor16 (a b : Block) : Block := Vector.zipWith (· ^^^ ·) a b

/-- Shift a 128-bit big-endian value right by one bit. -/
def shr1 (x : Block) : Block :=
  Vector.ofFn fun i : Fin 16 =>
    if i.val = 0 then x[0] >>> 1 else (x.get i >>> 1) ||| (x[i.val - 1] <<< 7)

/-- One bit of the product: add `v` under the mask, then multiply `v` by the indeterminate. -/
def gfStep (zv : Block × Block) (mask : UInt8) : Block × Block :=
  let (z, v) := zv
  let z := Vector.zipWith (fun a b => a ^^^ (b &&& mask)) z v
  let lsb := (0 : UInt8) - (v[15] &&& 1)
  let v := shr1 v
  (z, v.set 0 (v[0] ^^^ (0xe1 &&& lsb)))

/-- The product in GF(2^128). -/
def gfMul (x y : Block) : Block :=
  ((List.range 128).foldl
    (fun zv bit => gfStep zv (0 - ((y.toList.getD (bit / 8) 0 >>> UInt8.ofNat (7 - bit % 8)) &&& 1)))
    (Vector.replicate 16 0, x)).1

/-- Absorb one block into the accumulator. -/
def ghashBlock (h y block : Block) : Block := gfMul (xor16 y block) h

/-- Absorb bytes, zero-padded to a block multiple. The fuel bounds the number of blocks. -/
def ghashBytes (h : Block) : ℕ → Block → Bytes → Block
  | 0, y, _ => y
  | fuel + 1, y, p =>
    if p = [] then y else ghashBytes h fuel (ghashBlock h y (Bytes.fit 16 p)) (p.drop 16)

def putBe64 (v : ℕ) : Bytes := (List.range 8).map fun i => UInt8.ofNat (v >>> (56 - i * 8))

/-- Increment with carry the `k` bytes from index 12 on, the last one first. -/
def ctrIncFrom : ℕ → Block → Block
  | 0, c => c
  | k + 1, c =>
    let b := c.toList.getD (12 + k) 0 + 1
    let c := c.setIfInBounds (12 + k) b
    if b ≠ 0 then c else ctrIncFrom k c

/-- Increment the 32-bit counter of a counter block. -/
def ctrInc (c : Block) : Block := ctrIncFrom 4 c

variable (E : Block → Block)

/-- The key stream of consecutive counter blocks. -/
def keystream : ℕ → Block → Bytes
  | 0, _ => []
  | n + 1, ctr => (E ctr).toList ++ keystream n (ctrInc ctr)

/-- Xor the key stream over the input, the last block as far as the input reaches. -/
def ctrXor (ctr : Block) (input : Bytes) : Bytes :=
  xorBytes input (keystream E ((input.length + 15) / 16) ctr)

/-- `J0 = nonce || 0x00000001`. -/
def j0 (nonce : Nonce) : Block := nonce ++ (#v[0, 0, 0, 1] : Vector UInt8 4)

/-- The tag over the associated data and the ciphertext. -/
def tag (nonce : Nonce) (aad ct : Bytes) : Block :=
  let h := E (Vector.replicate 16 0)
  let y := ghashBytes h aad.length (Vector.replicate 16 0) aad
  let y := ghashBytes h ct.length y ct
  let y := ghashBlock h y (Bytes.fit 16 (putBe64 (u64 (aad.length * 8)) ++
    putBe64 (u64 (ct.length * 8))))
  xor16 y (E (j0 nonce))

/-- `quic_gcm_seal`: the ciphertext and its tag. -/
def gcmSeal (nonce : Nonce) (aad pt : Bytes) : Bytes × Block :=
  let ct := ctrXor E (ctrInc (j0 nonce)) pt
  (ct, tag E nonce aad ct)

/-- `quic_gcm_open`: the plaintext, unless the tag differs. -/
def gcmOpen (nonce : Nonce) (aad ct : Bytes) (t : Block) : Option Bytes :=
  if ctDiff (tag E nonce aad ct) t ≠ 0 then none
  else some (ctrXor E (ctrInc (j0 nonce)) ct)

/-! ## Round trip -/

theorem length_keystream (n : ℕ) (ctr : Block) : (keystream E n ctr).length = 16 * n := by
  induction n generalizing ctr with
  | zero => rfl
  | succ n ih =>
    rw [keystream, List.length_append, ih, Vector.length_toList]
    omega

@[simp] theorem length_ctrXor (ctr : Block) (input : Bytes) :
    (ctrXor E ctr input).length = input.length := by
  rw [ctrXor, length_xorBytes, length_keystream]
  omega

theorem ctrXor_ctrXor (ctr : Block) (input : Bytes) :
    ctrXor E ctr (ctrXor E ctr input) = input := by
  conv_lhs => rw [ctrXor, length_ctrXor]
  exact xorBytes_xorBytes (by rw [length_keystream]; omega)

@[simp] theorem length_gcmSeal (nonce : Nonce) (aad pt : Bytes) :
    (gcmSeal E nonce aad pt).1.length = pt.length := length_ctrXor E _ _

/-- **Opening a sealed plaintext returns it.** -/
theorem gcmOpen_gcmSeal (nonce : Nonce) (aad pt : Bytes) :
    gcmOpen E nonce aad (gcmSeal E nonce aad pt).1 (gcmSeal E nonce aad pt).2 = some pt := by
  have htag : ctDiff (tag E nonce aad (gcmSeal E nonce aad pt).1) (gcmSeal E nonce aad pt).2 = 0 :=
    (ctDiff_eq_zero_iff _ _).2 rfl
  rw [gcmOpen, if_neg (by rw [htag]; simp)]
  exact congrArg some (ctrXor_ctrXor E _ pt)

end Gcm

end Crypto

end QuicVibe
