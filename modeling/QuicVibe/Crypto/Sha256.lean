import QuicVibe.Common.Bytes

/-!
# SHA-256, HMAC and HKDF

The hash, the MAC and the key derivation of the code (`sha256.c`, `hmac.c`, `hkdf.c`). The code pads
byte by byte through the streaming interface; what comes out is the hash of the padded message as the
standard describes it (`final_update_init`). `toList_sha256` puts the same function in a form that is
cheap to evaluate.
-/

namespace QuicVibe

namespace Crypto

/-! ## SHA-256 -/

/-- `QUIC_SHA256_BLOCK`. -/
def sha256Block : ℕ := 64

/-- A 32-byte digest (`QUIC_SHA256_DIGEST`). -/
abbrev Digest := Vector UInt8 32

namespace Sha256

/-- The round constants (FIPS 180-4 4.2.2). -/
def K : List UInt32 :=
  [0x428a2f98, 0x71374491, 0xb5c0fbcf, 0xe9b5dba5, 0x3956c25b, 0x59f111f1,
   0x923f82a4, 0xab1c5ed5, 0xd807aa98, 0x12835b01, 0x243185be, 0x550c7dc3,
   0x72be5d74, 0x80deb1fe, 0x9bdc06a7, 0xc19bf174, 0xe49b69c1, 0xefbe4786,
   0x0fc19dc6, 0x240ca1cc, 0x2de92c6f, 0x4a7484aa, 0x5cb0a9dc, 0x76f988da,
   0x983e5152, 0xa831c66d, 0xb00327c8, 0xbf597fc7, 0xc6e00bf3, 0xd5a79147,
   0x06ca6351, 0x14292967, 0x27b70a85, 0x2e1b2138, 0x4d2c6dfc, 0x53380d13,
   0x650a7354, 0x766a0abb, 0x81c2c92e, 0x92722c85, 0xa2bfe8a1, 0xa81a664b,
   0xc24b8b70, 0xc76c51a3, 0xd192e819, 0xd6990624, 0xf40e3585, 0x106aa070,
   0x19a4c116, 0x1e376c08, 0x2748774c, 0x34b0bcb5, 0x391c0cb3, 0x4ed8aa4a,
   0x5b9cca4f, 0x682e6ff3, 0x748f82ee, 0x78a5636f, 0x84c87814, 0x8cc70208,
   0x90befffa, 0xa4506ceb, 0xbef9a3f7, 0xc67178f2]

/-- The eight words of the chaining value, or of the working vector. -/
structure Words where
  a : UInt32
  b : UInt32
  c : UInt32
  d : UInt32
  e : UInt32
  f : UInt32
  g : UInt32
  h : UInt32
  deriving DecidableEq

def H0 : Words :=
  ⟨0x6a09e667, 0xbb67ae85, 0x3c6ef372, 0xa54ff53a, 0x510e527f, 0x9b05688c, 0x1f83d9ab, 0x5be0cd19⟩

def ror (x n : UInt32) : UInt32 := (x >>> n) ||| (x <<< (32 - n))
def ch (x y z : UInt32) : UInt32 := (x &&& y) ^^^ (~~~x &&& z)
def maj (x y z : UInt32) : UInt32 := (x &&& y) ^^^ (x &&& z) ^^^ (y &&& z)
def bs0 (x : UInt32) : UInt32 := ror x 2 ^^^ ror x 13 ^^^ ror x 22
def bs1 (x : UInt32) : UInt32 := ror x 6 ^^^ ror x 11 ^^^ ror x 25
def ss0 (x : UInt32) : UInt32 := ror x 7 ^^^ ror x 18 ^^^ (x >>> 3)
def ss1 (x : UInt32) : UInt32 := ror x 17 ^^^ ror x 19 ^^^ (x >>> 10)

/-- A big-endian word. -/
def word (p : Bytes) : UInt32 :=
  (p.getD 0 0).toUInt32 <<< 24 ||| (p.getD 1 0).toUInt32 <<< 16 |||
    (p.getD 2 0).toUInt32 <<< 8 ||| (p.getD 3 0).toUInt32

/-- The 64-word message schedule of one 64-byte block. -/
def schedule (p : Bytes) : List UInt32 :=
  (List.range' 16 48).foldl
    (fun w i => w ++ [ss1 (w.getD (i - 2) 0) + w.getD (i - 7) 0 + ss0 (w.getD (i - 15) 0) +
      w.getD (i - 16) 0])
    ((List.range 16).map fun i => word (p.drop (i * 4)))

/-- One round over the working vector. -/
def roundStep (v : Words) (kw : UInt32) : Words :=
  let t1 := v.h + bs1 v.e + ch v.e v.f v.g + kw
  let t2 := bs0 v.a + maj v.a v.b v.c
  ⟨t1 + t2, v.a, v.b, v.c, v.d + t1, v.e, v.f, v.g⟩

/-- All 64 rounds, seeded from the chaining value. -/
def runRounds (h : Words) (w : List UInt32) : Words :=
  (List.zipWith (· + ·) K w).foldl roundStep h

def compress (h : Words) (p : Bytes) : Words :=
  let v := runRounds h (schedule p)
  ⟨h.a + v.a, h.b + v.b, h.c + v.c, h.d + v.d, h.e + v.e, h.f + v.f, h.g + v.g, h.h + v.h⟩

/-- `quic_sha256_ctx`; `buf` holds the `buf_len` pending bytes. -/
structure Ctx where
  h : Words
  total : ℕ
  buf : Bytes

def init : Ctx := { h := H0, total := 0, buf := [] }

/-- Absorb whole blocks; the bytes left over are the second component. The fuel bounds the
number of blocks. -/
def absorbBlocks : ℕ → Words → Bytes → Words × Bytes
  | 0, h, data => (h, data)
  | fuel + 1, h, data =>
    if data.length ≥ sha256Block
    then absorbBlocks fuel (compress h (data.take sha256Block)) (data.drop sha256Block)
    else (h, data)

/-- Bytes to pull from the data to complete a pending partial block, or 0. -/
def pendingTake (s : Ctx) (len : ℕ) : ℕ :=
  let want := sha256Block - s.buf.length
  if s.buf.length ≠ 0 ∧ len ≥ want then want else 0

/-- Top up a pending block and flush it when full; the rest of the data is returned. -/
def fillPending (s : Ctx) (data : Bytes) : Ctx × Bytes :=
  let take := pendingTake s data.length
  if take ≠ 0
  then ({ s with h := compress s.h (s.buf ++ data.take take), buf := [] }, data.drop take)
  else (s, data)

def update (s : Ctx) (data : Bytes) : Ctx :=
  let (s, rest) := fillPending s data
  let (h, rest) := absorbBlocks rest.length s.h rest
  { h := h, buf := s.buf ++ rest, total := u64 (s.total + data.length) }

/-- The zero bytes of the padding, one at a time until 56 bytes sit in the block. A block has 64
bytes, so 64 rounds suffice. -/
def padZeros : ℕ → Ctx → Ctx
  | 0, s => s
  | fuel + 1, s => if s.buf.length ≠ 56 then padZeros fuel (update s [0]) else s

def padMessage (s : Ctx) : Ctx := padZeros sha256Block (update s [0x80])

def putBe32 (v : UInt32) : Bytes :=
  [(v >>> 24).toUInt8, (v >>> 16).toUInt8, (v >>> 8).toUInt8, v.toUInt8]

def final (s : Ctx) : Digest :=
  let bits := u64 (s.total * 8)
  let lenbe := (List.range 8).map fun i => UInt8.ofNat (bits >>> (56 - i * 8))
  let h := (update (padMessage s) lenbe).h
  Bytes.fit 32 ([h.a, h.b, h.c, h.d, h.e, h.f, h.g, h.h].flatMap putBe32)

/-! ## Streaming -/

variable {h : Words} {data : Bytes} {s : Ctx}

/-- Whole blocks are absorbed as long as there are any, so rounds to spare change nothing. -/
theorem absorbBlocks_fuel {fuel fuel' : ℕ} (hf : data.length ≤ fuel) (hf' : data.length ≤ fuel') :
    absorbBlocks fuel h data = absorbBlocks fuel' h data := by
  induction fuel generalizing fuel' h data with
  | zero =>
    obtain rfl := List.eq_nil_of_length_eq_zero (Nat.le_zero.1 hf)
    cases fuel' with
    | zero => rfl
    | succ fuel' => rfl
  | succ fuel ih =>
    cases fuel' with
    | zero =>
      obtain rfl := List.eq_nil_of_length_eq_zero (Nat.le_zero.1 hf')
      rfl
    | succ fuel' =>
      have hblock : sha256Block = 64 := rfl
      simp only [absorbBlocks]
      by_cases hlen : data.length ≥ sha256Block
      · have hrest : (data.drop sha256Block).length < data.length := by
          rw [List.length_drop]
          omega
        rw [if_pos hlen, if_pos hlen]
        exact ih (by omega) (by omega)
      · rw [if_neg hlen, if_neg hlen]

/-- The chaining value and the pending bytes behind a chaining value and unabsorbed bytes. -/
def absorb (h : Words) (data : Bytes) : Words × Bytes := absorbBlocks data.length h data

theorem absorb_of_lt (hlen : data.length < sha256Block) : absorb h data = (h, data) := by
  rw [absorb]
  cases data.length with
  | zero => rfl
  | succ n => rw [absorbBlocks, if_neg (by omega)]

theorem absorb_of_ge (hlen : sha256Block ≤ data.length) :
    absorb h data = absorb (compress h (data.take sha256Block)) (data.drop sha256Block) := by
  have hblock : sha256Block = 64 := rfl
  obtain ⟨n, hn⟩ := Nat.exists_eq_succ_of_ne_zero (show data.length ≠ 0 by omega)
  rw [absorb, hn, absorbBlocks, if_pos hlen, absorb]
  refine absorbBlocks_fuel ?_ (Nat.le_refl _)
  rw [List.length_drop]
  omega

theorem length_absorb_lt (h : Words) (data : Bytes) : (absorb h data).2.length < sha256Block := by
  induction hn : data.length using Nat.strongRecOn generalizing h data with
  | _ n ih =>
    by_cases hlen : data.length < sha256Block
    · rw [absorb_of_lt hlen]
      exact hlen
    · have hblock : sha256Block = 64 := rfl
      rw [absorb_of_ge (by omega)]
      exact ih _ (by rw [List.length_drop]; omega) _ _ rfl

theorem absorb_append (h : Words) (xs ys : Bytes) :
    absorb h (xs ++ ys) = absorb (absorb h xs).1 ((absorb h xs).2 ++ ys) := by
  induction hn : xs.length using Nat.strongRecOn generalizing h xs with
  | _ n ih =>
    by_cases hlen : xs.length < sha256Block
    · rw [absorb_of_lt hlen]
    · have hblock : sha256Block = 64 := rfl
      rw [absorb_of_ge (show sha256Block ≤ xs.length by omega),
        absorb_of_ge (by rw [List.length_append]; omega), List.take_append_of_le_length (by omega),
        List.drop_append_of_le_length (by omega)]
      exact ih _ (by rw [List.length_drop]; omega) _ _ rfl

/-- **What an update does**: the pending bytes and the data are absorbed together. -/
theorem update_eq (hs : s.buf.length < sha256Block) (data : Bytes) :
    update s data = { h := (absorb s.h (s.buf ++ data)).1, buf := (absorb s.h (s.buf ++ data)).2,
                      total := u64 (s.total + data.length) } := by
  have hblock : sha256Block = 64 := rfl
  by_cases hfill : s.buf.length ≠ 0 ∧ data.length ≥ sha256Block - s.buf.length
  · have htake : pendingTake s data.length = sha256Block - s.buf.length := if_pos hfill
    have hone : (s.buf ++ data).take sha256Block =
        s.buf ++ data.take (sha256Block - s.buf.length) := by
      rw [List.take_append, List.take_of_length_le (by omega)]
    have hrest : (s.buf ++ data).drop sha256Block = data.drop (sha256Block - s.buf.length) := by
      rw [List.drop_append, List.drop_eq_nil_of_le (by omega), List.nil_append]
    rw [absorb_of_ge (by rw [List.length_append]; omega), hone, hrest]
    simp only [update, fillPending, htake]
    rw [if_pos (by omega)]
    simp [absorb]
  · have htake : pendingTake s data.length = 0 := if_neg hfill
    have hstep : update s data = { h := (absorb s.h data).1, buf := s.buf ++ (absorb s.h data).2,
                                   total := u64 (s.total + data.length) } := by
      simp [update, fillPending, htake, absorb]
    rw [hstep]
    by_cases hbuf : s.buf.length = 0
    · simp [List.eq_nil_of_length_eq_zero hbuf]
    · rw [absorb_of_lt (by omega), absorb_of_lt (by rw [List.length_append]; omega)]

theorem length_buf_update (hs : s.buf.length < sha256Block) (data : Bytes) :
    (update s data).buf.length < sha256Block := by
  rw [update_eq hs]
  exact length_absorb_lt _ _

/-- **Streaming.** Two updates are one update with the concatenation. -/
theorem update_update (hs : s.buf.length < sha256Block) (xs ys : Bytes) :
    update (update s xs) ys = update s (xs ++ ys) := by
  rw [update_eq (length_buf_update hs xs), update_eq hs, update_eq hs, ← List.append_assoc,
    absorb_append s.h (s.buf ++ xs) ys]
  simp [u64, Nat.add_assoc]

theorem length_buf_init : init.buf.length < sha256Block := by decide

end Sha256

def sha256 (data : Bytes) : Digest := Sha256.final (Sha256.update Sha256.init data)

theorem final_update_update (xs ys : Bytes) :
    Sha256.final (Sha256.update (Sha256.update Sha256.init xs) ys) = sha256 (xs ++ ys) := by
  rw [Sha256.update_update Sha256.length_buf_init, sha256]

/-! ## HMAC -/

/-- The key as a 64-byte block: hashed if it is too long, then zero-padded. -/
def keyBlock (key : Bytes) : Vector UInt8 64 :=
  if key.length > sha256Block then Bytes.fit 64 (sha256 key).toList else Bytes.fit 64 key

/-- The key block with every byte xored with `pad`. -/
def padded (kb : Vector UInt8 64) (pad : UInt8) : Bytes := (kb.map (· ^^^ pad)).toList

def hmacSha256 (key msg : Bytes) : Digest :=
  let kb := keyBlock key
  let inner := Sha256.final (Sha256.update (Sha256.update Sha256.init (padded kb 0x36)) msg)
  Sha256.final (Sha256.update (Sha256.update Sha256.init (padded kb 0x5c)) inner.toList)

/-! ## HKDF -/

def hkdfExtract (salt ikm : Bytes) : Digest := hmacSha256 salt ikm

/-- `T(i) = HMAC(prk, T(i-1) || info || i)`. -/
def expandBlock (prk : Digest) (prev info : Bytes) (counter : UInt8) : Digest :=
  hmacSha256 prk.toList (prev ++ info ++ [counter])

/-- `T(i) || T(i+1) || ...`, as many blocks as asked for. -/
def expandBlocks (prk : Digest) (info : Bytes) : ℕ → Bytes → UInt8 → Bytes
  | 0, _, _ => []
  | n + 1, prev, counter =>
    let t := (expandBlock prk prev info counter).toList
    t ++ expandBlocks prk info n t (counter + 1)

def hkdfExpand (prk : Digest) (info : Bytes) (len : ℕ) : Option (Vector UInt8 len) :=
  if len ≤ 255 * 32 ∧ info.length ≤ 256
  then some (Bytes.fit len (expandBlocks prk info ((len + 31) / 32) [] 1))
  else none

/-- The HkdfLabel structure (RFC 8446 7.1). -/
def buildLabel (label ctx : Bytes) (len : ℕ) : Bytes :=
  [UInt8.ofNat (len >>> 8), UInt8.ofNat len, UInt8.ofNat (6 + label.length)] ++
    "tls13 ".toUTF8.toList ++ label ++ [UInt8.ofNat ctx.length] ++ ctx

def hkdfExpandLabel (prk : Digest) (label ctx : Bytes) (len : ℕ) : Option (Vector UInt8 len) :=
  if label.length > 64 ∨ ctx.length > 64 then none
  else hkdfExpand prk (buildLabel label ctx len) len

namespace Sha256

/-! ## The padded message -/

/-- The zero bytes behind the end mark of a message of this length. -/
def zeroCount (n : ℕ) : ℕ := (119 - n % 64) % 64

/-- The number of bits, in eight bytes. -/
def lengthBytes (n : ℕ) : Bytes :=
  (List.range 8).map fun i => UInt8.ofNat (u64 (n * 8) >>> (56 - i * 8))

/-- The message with its padding (FIPS 180-4 5.1.1). -/
def paddedMessage (data : Bytes) : Bytes :=
  data ++ (0x80 :: List.replicate (zeroCount data.length) 0 ++ lengthBytes data.length)

/-- The bytes of a chaining value. -/
def wordBytes (h : Words) : Bytes :=
  [h.a, h.b, h.c, h.d, h.e, h.f, h.g, h.h].flatMap putBe32

theorem length_absorb (h : Words) (data : Bytes) : (absorb h data).2.length = data.length % 64 := by
  induction hn : data.length using Nat.strongRecOn generalizing h data with
  | _ n ih =>
    have hblock : sha256Block = 64 := rfl
    by_cases hlen : data.length < sha256Block
    · rw [absorb_of_lt hlen]
      dsimp only
      omega
    · rw [absorb_of_ge (by omega), ih _ (by rw [List.length_drop]; omega) _ _ rfl, List.length_drop]
      omega

theorem update_init (data : Bytes) : update init data =
    { h := (absorb H0 data).1, buf := (absorb H0 data).2, total := u64 data.length } := by
  rw [update_eq length_buf_init]
  simp [init]

theorem length_buf_update_init (data : Bytes) :
    (update init data).buf.length = data.length % 64 := by
  rw [update_init, length_absorb]

theorem padZeros_eq {fuel k : ℕ} {data : Bytes} (hk : k = (56 + (64 - data.length % 64)) % 64)
    (hfuel : k ≤ fuel) :
    padZeros fuel (update init data) = update init (data ++ List.replicate k 0) := by
  have hlen := length_buf_update_init data
  induction k generalizing fuel data with
  | zero =>
    rw [List.replicate_zero, List.append_nil]
    cases fuel with
    | zero => rfl
    | succ fuel => rw [padZeros, if_neg (by omega)]
  | succ k ih =>
    obtain ⟨fuel, rfl⟩ : ∃ n, fuel = n + 1 := ⟨fuel - 1, by omega⟩
    rw [padZeros, if_pos (by omega), update_update length_buf_init,
      ih (by rw [List.length_append]; simp only [List.length_singleton]; omega) (by omega)
        (length_buf_update_init _), List.append_assoc]
    rfl

/-- **The hash of the padded message.** -/
theorem final_update_init (data : Bytes) :
    final (update init data) = Bytes.fit 32 (wordBytes (absorb H0 (paddedMessage data)).1) := by
  have hpad : padMessage (update init data) =
      update init (data ++ ([0x80] ++ List.replicate (zeroCount data.length) 0)) := by
    rw [padMessage, update_update length_buf_init, padZeros_eq (k := zeroCount data.length),
      List.append_assoc]
    · rw [zeroCount, List.length_append, List.length_singleton]
      omega
    · have hblock : sha256Block = 64 := rfl
      rw [zeroCount]
      omega
  have htotal : u64 ((update init data).total * 8) = u64 (data.length * 8) := by
    rw [update_init]
    simp [u64]
  rw [final, hpad, update_update length_buf_init, htotal, update_init]
  simp only [paddedMessage, lengthBytes, wordBytes, List.append_assoc, List.cons_append,
    List.nil_append]

/-! ## Evaluation -/

/-- The message schedule behind a window of 16 words. -/
def scheduleFrom : ℕ → List UInt32 → List UInt32
  | n + 1, w0 :: w1 :: w2 :: w3 :: w4 :: w5 :: w6 :: w7 :: w8 :: w9 :: w10 :: w11 :: w12 :: w13 ::
      w14 :: w15 :: _ =>
    w0 :: scheduleFrom n [w1, w2, w3, w4, w5, w6, w7, w8, w9, w10, w11, w12, w13, w14, w15,
      ss1 w14 + w9 + ss0 w1 + w0]
  | _, w => w

/-- The words of a block. -/
def blockWords : ℕ → Bytes → List UInt32
  | 0, _ => []
  | n + 1, p => word p :: blockWords n (p.drop 4)

theorem foldl_schedule (n : ℕ) (front w : List UInt32) (hw : w.length = 16) :
    (List.range' (front.length + 16) n).foldl (fun w i => w ++ [ss1 (w.getD (i - 2) 0) +
      w.getD (i - 7) 0 + ss0 (w.getD (i - 15) 0) + w.getD (i - 16) 0]) (front ++ w) =
      front ++ scheduleFrom n w := by
  induction n generalizing front w with
  | zero => simp [scheduleFrom]
  | succ n ih =>
    match w, hw with
    | [w0, w1, w2, w3, w4, w5, w6, w7, w8, w9, w10, w11, w12, w13, w14, w15], _ =>
      have hget : ∀ k ≤ 16, ∀ x : List UInt32,
          (front ++ x).getD (front.length + 16 - k) 0 = x.getD (16 - k) 0 := by
        intro k hk x
        rw [List.getD_append_right _ _ _ _ (by omega)]
        congr 1
        omega
      rw [List.range'_succ, List.foldl_cons, hget 2 (by omega), hget 7 (by omega),
        hget 15 (by omega), hget 16 (by omega), scheduleFrom]
      have hnext := ih (front ++ [w0]) [w1, w2, w3, w4, w5, w6, w7, w8, w9, w10, w11, w12, w13, w14,
        w15, ss1 w14 + w9 + ss0 w1 + w0] rfl
      rw [List.length_append, List.length_singleton, List.append_assoc, List.append_assoc] at hnext
      rw [List.append_assoc, show front.length + 16 + 1 = front.length + 1 + 16 by omega]
      exact hnext

theorem blockWords_eq (n : ℕ) (p : Bytes) :
    blockWords n p = (List.range n).map fun i => word (p.drop (i * 4)) := by
  induction n generalizing p with
  | zero => rfl
  | succ n ih =>
    rw [blockWords, ih, List.range_succ_eq_map, List.map_cons, List.map_map]
    simp [Function.comp_def, Nat.succ_mul, Nat.add_comm]

theorem schedule_eq (p : Bytes) : schedule p = scheduleFrom 48 (blockWords 16 p) := by
  rw [schedule, ← blockWords_eq]
  exact foldl_schedule 48 [] (blockWords 16 p) (by rw [blockWords_eq]; simp)

/-- The chaining value behind so many blocks. -/
def hashBlocks : ℕ → Words → Bytes → Words
  | 0, h, _ => h
  | n + 1, h, data =>
    let v := runRounds h (scheduleFrom 48 (blockWords 16 (data.take sha256Block)))
    hashBlocks n
      ⟨h.a + v.a, h.b + v.b, h.c + v.c, h.d + v.d, h.e + v.e, h.f + v.f, h.g + v.g, h.h + v.h⟩
      (data.drop sha256Block)

theorem absorb_eq_hashBlocks {n : ℕ} {h : Words} {data : Bytes} (hlen : data.length = 64 * n) :
    (absorb h data).1 = hashBlocks n h data := by
  have hblock : sha256Block = 64 := rfl
  induction n generalizing h data with
  | zero => rw [absorb_of_lt (by omega), hashBlocks]
  | succ n ih =>
    rw [absorb_of_ge (by omega), ih (by rw [List.length_drop]; omega), hashBlocks, compress,
      schedule_eq]

/-- The bytes of the hash. -/
def hashBytes (data : Bytes) : Bytes :=
  wordBytes (hashBlocks ((data.length + 72) / 64) H0 (paddedMessage data))

theorem toList_final_update_init (data : Bytes) :
    (final (update init data)).toList = hashBytes data := by
  have hlen : (paddedMessage data).length = 64 * ((data.length + 72) / 64) := by
    simp only [paddedMessage, lengthBytes, zeroCount, List.length_append, List.length_cons,
      List.length_replicate, List.length_map, List.length_range]
    omega
  rw [final_update_init, absorb_eq_hashBlocks hlen, hashBytes]
  refine (Bytes.toList_fit ?_).trans (List.take_of_length_le ?_)
  · simp [wordBytes, putBe32]
  · simp [wordBytes, putBe32]

end Sha256

/-- **The hash** as it can be evaluated. -/
theorem toList_sha256 (data : Bytes) : (sha256 data).toList = Sha256.hashBytes data :=
  Sha256.toList_final_update_init data

/-- A short key, padded and masked. -/
def maskedKey (key : Bytes) (pad : UInt8) : Bytes :=
  (key ++ List.replicate (64 - key.length) 0).map (· ^^^ pad)

/-- The bytes of the MAC under a key of at most a block. -/
def hmacBytes (key msg : Bytes) : Bytes :=
  Sha256.hashBytes (maskedKey key 0x5c ++ Sha256.hashBytes (maskedKey key 0x36 ++ msg))

theorem padded_keyBlock {key : Bytes} (h : key.length ≤ 64) (pad : UInt8) :
    padded (keyBlock key) pad = maskedKey key pad := by
  have hblock : sha256Block = 64 := rfl
  rw [padded, keyBlock, if_neg (by omega), Vector.toList_map, maskedKey]
  refine congrArg (List.map (· ^^^ pad)) ?_
  refine List.ext_getElem (by simp; omega) fun i h₁ h₂ => ?_
  rw [List.getElem_append]
  split
  · rename_i hi
    simp [Bytes.fit, hi]
  · rename_i hi
    simp [Bytes.fit, List.getElem?_eq_none (Nat.le_of_not_lt hi)]

theorem toList_hmacSha256 {key : Bytes} (h : key.length ≤ 64) (msg : Bytes) :
    (hmacSha256 key msg).toList = hmacBytes key msg := by
  simp only [hmacSha256, padded_keyBlock h, final_update_update, toList_sha256, hmacBytes]

end Crypto

end QuicVibe
