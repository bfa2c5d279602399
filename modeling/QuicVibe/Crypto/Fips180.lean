import QuicVibe.Crypto.Sha256
/-!
# SHA-256 as the standard has it

The hash of FIPS 180-4 in the terms of the standard (`Fips180.digest`). The code keeps a context with
a partial block and may be handed the message in any pieces; whatever these are, it computes this
hash.
-/

namespace QuicVibe

namespace Crypto

namespace Fips180

open Sha256 (Words)

/-! ## The standard -/

/-- `ROTR` and `SHR` (3.2). -/
def rotr (n : ℕ) (x : UInt32) : UInt32 := ⟨x.toBitVec.rotateRight n⟩
def shr (n : ℕ) (x : UInt32) : UInt32 := ⟨x.toBitVec >>> n⟩

/-- The functions of 4.1.2. -/
def ch (x y z : UInt32) : UInt32 := (x &&& y) ^^^ (~~~x &&& z)
def maj (x y z : UInt32) : UInt32 := (x &&& y) ^^^ (x &&& z) ^^^ (y &&& z)
def bigSigma0 (x : UInt32) : UInt32 := rotr 2 x ^^^ rotr 13 x ^^^ rotr 22 x
def bigSigma1 (x : UInt32) : UInt32 := rotr 6 x ^^^ rotr 11 x ^^^ rotr 25 x
def smallSigma0 (x : UInt32) : UInt32 := rotr 7 x ^^^ rotr 18 x ^^^ shr 3 x
def smallSigma1 (x : UInt32) : UInt32 := rotr 17 x ^^^ rotr 19 x ^^^ shr 10 x

/-- The first 32 bits of the fractional part of the `k`-th root of `p`: the root of `p` in units of
`2 ^ -32`, rounded down, without its integer part. -/
def rootBits (k p : ℕ) : UInt32 :=
  UInt32.ofNat (Nat.findGreatest (fun r => r ^ k ≤ p * 2 ^ (32 * k)) (p * 2 ^ (32 * k)))

/-- The first 64 primes. -/
def firstPrimes : List ℕ :=
  [2, 3, 5, 7, 11, 13, 17, 19, 23, 29, 31, 37, 41, 43, 47, 53, 59, 61, 67, 71, 73, 79, 83, 89, 97,
   101, 103, 107, 109, 113, 127, 131, 137, 139, 149, 151, 157, 163, 167, 173, 179, 181, 191, 193,
   197, 199, 211, 223, 227, 229, 233, 239, 241, 251, 257, 263, 269, 271, 277, 281, 283, 293, 307,
   311]

/-- The constants of 4.2.2: cube roots. -/
def constant (t : ℕ) : UInt32 := rootBits 3 (firstPrimes.getD t 0)

/-- The initial hash value of 5.3.3: square roots. -/
def initial : Words :=
  ⟨rootBits 2 2, rootBits 2 3, rootBits 2 5, rootBits 2 7, rootBits 2 11, rootBits 2 13,
   rootBits 2 17, rootBits 2 19⟩

theorem exists_zeros (n : ℕ) : ∃ k, (n + 1 + k) % 64 = 56 := ⟨(119 - n % 64) % 64, by omega⟩

/-- The message with its padding (5.1.1): the end mark, the least number of zeros that leaves room
for the length at the end of a block, and the length in bits as a 64-bit number. -/
def pad (msg : Bytes) : Bytes :=
  msg ++ (0x80 :: (List.replicate (Nat.find (exists_zeros msg.length)) 0 ++
    putBe 8 (8 * msg.length)))

/-- The words of a block (5.2.1). -/
def blockWord (block : Bytes) (t : ℕ) : UInt32 := UInt32.ofNat (readBe ((block.drop (4 * t)).take 4))

/-- The message schedule of a block (6.2.2). -/
def schedule (block : Bytes) (t : ℕ) : UInt32 :=
  if t < 16 then blockWord block t
  else smallSigma1 (schedule block (t - 2)) + schedule block (t - 7) +
    smallSigma0 (schedule block (t - 15)) + schedule block (t - 16)

/-- Round `t` over the working variables. -/
def round (block : Bytes) (v : Words) (t : ℕ) : Words :=
  let t1 := v.h + bigSigma1 v.e + ch v.e v.f v.g + constant t + schedule block t
  let t2 := bigSigma0 v.a + maj v.a v.b v.c
  ⟨t1 + t2, v.a, v.b, v.c, v.d + t1, v.e, v.f, v.g⟩

/-- The hash value behind a block. -/
def hashBlock (h : Words) (block : Bytes) : Words :=
  let v := (List.range 64).foldl (round block) h
  ⟨v.a + h.a, v.b + h.b, v.c + h.c, v.d + h.d, v.e + h.e, v.f + h.f, v.g + h.g, v.h + h.h⟩

/-- **The message digest.** -/
def digest (msg : Bytes) : Bytes :=
  let h := (chunks 64 (pad msg)).foldl hashBlock initial
  [h.a, h.b, h.c, h.d, h.e, h.f, h.g, h.h].flatMap fun w => putBe 4 w.toNat

/-! ## The code's pieces -/

variable (x : UInt32) (msg : Bytes)

theorem bs0_eq : Sha256.bs0 x = bigSigma0 x := rfl

theorem bs1_eq : Sha256.bs1 x = bigSigma1 x := rfl

theorem ss0_eq : Sha256.ss0 x = smallSigma0 x := rfl

theorem ss1_eq : Sha256.ss1 x = smallSigma1 x := rfl

theorem rootBits_eq {k p r : ℕ} (hk : k ≠ 0) (hle : r ^ k ≤ p * 2 ^ (32 * k))
    (hlt : p * 2 ^ (32 * k) < (r + 1) ^ k) : rootBits k p = UInt32.ofNat r := by
  unfold rootBits
  congr 1
  rw [Nat.findGreatest_eq_iff]
  refine ⟨?_, fun _ => hle, fun j hj _ => ?_⟩
  · exact Nat.le_trans (Nat.le_self_pow hk r) hle
  · have := Nat.pow_le_pow_left (show r + 1 ≤ j from hj) k
    omega

/-- **The round constants** of the code are the fractional parts of the cube roots. -/
theorem K_eq : Sha256.K = (List.range 64).map constant := by
  have hroots : ∀ x ∈ firstPrimes.zip Sha256.K, ∃ i ∈ List.range 7,
      (i * 2 ^ 32 + x.2.toNat) ^ 3 ≤ x.1 * 2 ^ (32 * 3) ∧
        x.1 * 2 ^ (32 * 3) < (i * 2 ^ 32 + x.2.toNat + 1) ^ 3 := by decide
  have hlen : Sha256.K.length = 64 := rfl
  have hprimes : firstPrimes.length = 64 := rfl
  refine List.ext_getElem (by simp [hlen]) fun t h₁ h₂ => ?_
  have ht : t < firstPrimes.length := by omega
  have hmem : (firstPrimes[t], Sha256.K[t]) ∈ firstPrimes.zip Sha256.K := by
    rw [List.mem_iff_getElem]
    exact ⟨t, by rw [List.length_zip]; omega, List.getElem_zip⟩
  obtain ⟨i, -, hle, hlt⟩ := hroots _ hmem
  rw [List.getElem_map, List.getElem_range, constant, List.getD_eq_getElem _ _ ht,
    rootBits_eq (by decide) hle hlt]
  apply UInt32.toNat_inj.1
  have := (Sha256.K[t]).toNat_lt
  rw [UInt32.toNat_ofNat']
  dsimp only
  omega

/-- **The initial hash value** of the code holds the fractional parts of the square roots. -/
theorem H0_eq : Sha256.H0 = initial := by
  unfold initial
  rw [rootBits_eq (r := 0x16a09e667) (by decide) (by decide) (by decide),
    rootBits_eq (r := 0x1bb67ae85) (by decide) (by decide) (by decide),
    rootBits_eq (r := 0x23c6ef372) (by decide) (by decide) (by decide),
    rootBits_eq (r := 0x2a54ff53a) (by decide) (by decide) (by decide),
    rootBits_eq (r := 0x3510e527f) (by decide) (by decide) (by decide),
    rootBits_eq (r := 0x39b05688c) (by decide) (by decide) (by decide),
    rootBits_eq (r := 0x41f83d9ab) (by decide) (by decide) (by decide),
    rootBits_eq (r := 0x45be0cd19) (by decide) (by decide) (by decide)]
  rfl

theorem word_eq {p : Bytes} (hp : 4 ≤ p.length) :
    Sha256.word p = UInt32.ofNat (readBe (p.take 4)) := by
  match p, hp with
  | b₀ :: b₁ :: b₂ :: b₃ :: rest, _ =>
    have hb₀ := b₀.toNat_lt
    have hb₁ := b₁.toNat_lt
    have hb₂ := b₂.toNat_lt
    have hb₃ := b₃.toNat_lt
    apply UInt32.toNat_inj.1
    have hread : readBe ((b₀ :: b₁ :: b₂ :: b₃ :: rest).take 4) =
        ((b₀.toNat * 256 + b₁.toNat) * 256 + b₂.toNat) * 256 + b₃.toNat := by
      simp [readBe]
    rw [hread, UInt32.toNat_ofNat', Nat.mod_eq_of_lt (by omega)]
    simp only [Sha256.word, List.getD_cons_zero, List.getD_cons_succ, UInt32.toNat_or,
      UInt32.toNat_shiftLeft, UInt8.toNat_toUInt32, UInt32.reduceToNat, Nat.reduceMod]
    -- each byte is shifted above the ones behind it
    rw [Nat.or_assoc, Nat.or_assoc]
    simp only [Nat.shiftLeft_eq]
    rw [Nat.mod_eq_of_lt (by omega : b₀.toNat * 2 ^ 24 < 2 ^ 32),
      Nat.mod_eq_of_lt (by omega : b₁.toNat * 2 ^ 16 < 2 ^ 32),
      Nat.mod_eq_of_lt (by omega : b₂.toNat * 2 ^ 8 < 2 ^ 32)]
    simp only [← Nat.shiftLeft_eq]
    rw [← Nat.shiftLeft_add_eq_or_of_lt (show b₃.toNat < 2 ^ 8 by omega),
      ← Nat.shiftLeft_add_eq_or_of_lt (show b₂.toNat <<< 8 + b₃.toNat < 2 ^ 16 by
        rw [Nat.shiftLeft_eq]; omega),
      ← Nat.shiftLeft_add_eq_or_of_lt (show b₁.toNat <<< 16 + (b₂.toNat <<< 8 + b₃.toNat) < 2 ^ 24 by
        simp only [Nat.shiftLeft_eq]; omega)]
    simp only [Nat.shiftLeft_eq]
    omega

theorem putBe32_eq (v : UInt32) : Sha256.putBe32 v = putBe 4 v.toNat := by
  have hv := v.toNat_lt
  simp only [Sha256.putBe32, putBe, List.nil_append, List.cons_append, List.cons.injEq, and_true]
  refine ⟨?_, ?_, ?_, ?_⟩ <;> apply UInt8.toNat_inj.1 <;>
    simp [UInt32.toNat_shiftRight, Nat.shiftRight_eq_div_pow] <;> omega

/-- **The message schedule.** -/
theorem schedule_eq {block : Bytes} (hblock : block.length = 64) :
    Sha256.schedule block = (List.range 64).map (schedule block) := by
  have hfirst : (List.range 16).map (fun i => Sha256.word (block.drop (i * 4))) =
      (List.range 16).map (schedule block) := by
    refine List.map_congr_left fun t ht => ?_
    have ht := List.mem_range.1 ht
    rw [schedule, if_pos ht, word_eq (by rw [List.length_drop]; omega), blockWord, Nat.mul_comm t 4]
  -- the words so far are those of the recurrence, and the next one is read off them
  have hfold : ∀ n, (List.range' 16 n).foldl (fun w i => w ++ [Sha256.ss1 (w.getD (i - 2) 0) +
      w.getD (i - 7) 0 + Sha256.ss0 (w.getD (i - 15) 0) + w.getD (i - 16) 0])
        ((List.range 16).map (schedule block)) = (List.range (16 + n)).map (schedule block) := by
    intro n
    induction n with
    | zero => rfl
    | succ n ih =>
      have hget : ∀ j < 16 + n, ((List.range (16 + n)).map (schedule block)).getD j 0 =
          schedule block j := by
        intro j hj
        rw [List.getD_eq_getElem _ _ (by simpa using hj), List.getElem_map, List.getElem_range]
      have hword : schedule block (16 + n) = Sha256.ss1 (schedule block (16 + n - 2)) +
          schedule block (16 + n - 7) + Sha256.ss0 (schedule block (16 + n - 15)) +
          schedule block (16 + n - 16) := by
        rw [schedule, if_neg (by omega), ss0_eq, ss1_eq]
      rw [List.range'_1_concat, List.foldl_append, ih, List.foldl_cons, List.foldl_nil,
        hget _ (by omega), hget _ (by omega), hget _ (by omega), hget _ (by omega), ← hword,
        ← Nat.add_assoc, List.range_succ, List.map_append]
      rfl
  rw [Sha256.schedule, hfirst, hfold 48]

/-- **The compression function.** -/
theorem compress_eq {block : Bytes} (hblock : block.length = 64) (h : Words) :
    Sha256.compress h block = hashBlock h block := by
  have hround : (fun (v : Words) (t : ℕ) => Sha256.roundStep v (constant t + schedule block t)) =
      round block := by
    funext v t
    simp only [Sha256.roundStep, round, bs0_eq, bs1_eq, ← UInt32.add_assoc]
    rfl
  have hrounds : Sha256.runRounds h (Sha256.schedule block) = (List.range 64).foldl (round block) h := by
    rw [Sha256.runRounds, schedule_eq hblock, K_eq, List.zipWith_map, List.zipWith_self,
      List.foldl_map, hround]
  simp only [Sha256.compress, hashBlock, hrounds, UInt32.add_comm]

theorem pad_eq : Sha256.paddedMessage msg = pad msg := by
  have hzeros : Nat.find (exists_zeros msg.length) = Sha256.zeroCount msg.length := by
    rw [Nat.find_eq_iff, Sha256.zeroCount]
    exact ⟨by omega, fun k hk => by omega⟩
  have hlength : Sha256.lengthBytes msg.length = putBe 8 (8 * msg.length) := by
    simp only [Sha256.lengthBytes, u64, List.range_succ, List.range_zero, List.nil_append,
      List.map_cons, List.map_nil, putBe, List.cons_append, List.cons.injEq,
      and_true]
    refine ⟨?_, ?_, ?_, ?_, ?_, ?_, ?_, ?_⟩ <;> apply UInt8.toNat_inj.1 <;>
      simp only [UInt8.toNat_ofNat', Nat.shiftRight_eq_div_pow] <;> omega
  rw [Sha256.paddedMessage, pad, hzeros, hlength]
  rfl

theorem length_pad : (pad msg).length % 64 = 0 := by
  have hfind := Nat.find_spec (exists_zeros msg.length)
  simp only [pad, List.length_append, List.length_cons, List.length_replicate, length_putBe]
  omega

theorem absorb_eq_foldl {data : Bytes} (hdata : data.length % 64 = 0) (h : Words) :
    (Sha256.absorb h data).1 = (chunks 64 data).foldl hashBlock h := by
  have hblock : sha256Block = 64 := rfl
  induction hn : data.length using Nat.strongRecOn generalizing h data with
  | _ n ih =>
    by_cases hlen : data.length = 0
    · obtain rfl := List.eq_nil_of_length_eq_zero hlen
      rfl
    · have htake : (data.take 64).length = 64 := by rw [List.length_take]; omega
      have hchunks : chunks 64 data = data.take 64 :: chunks 64 (data.drop 64) :=
        chunks_of_pos (by decide) (by omega)
      rw [Sha256.absorb_of_ge (by omega), hblock, compress_eq htake,
        ih _ (by rw [List.length_drop]; omega) (by rw [List.length_drop]; omega) _ rfl, hchunks,
        List.foldl_cons]

/-- **A context that has absorbed a message** gives its digest. -/
theorem toList_final : (Sha256.final (Sha256.update Sha256.init msg)).toList = digest msg := by
  have hbytes : Sha256.putBe32 = fun w => putBe 4 w.toNat := funext putBe32_eq
  rw [Sha256.final_update_init, pad_eq, H0_eq, absorb_eq_foldl (length_pad msg), Sha256.wordBytes,
    hbytes]
  exact (Bytes.toList_fit (by simp)).trans (List.take_of_length_le (by simp))

end Fips180

/-! ## Messages in pieces, and transcripts -/

structure Transcript where
  h : Sha256.Ctx

namespace Transcript

def init : Transcript := { h := Sha256.init }

def add (t : Transcript) (msg : Bytes) : Transcript := { h := Sha256.update t.h msg }

/-- `quic_transcript_hash`: a copy is finished, and the running hash stays. -/
def hash (t : Transcript) : Digest × Transcript :=
  let copy := t.h
  (Sha256.final copy, t)

/-- A call on a transcript. -/
inductive Op
  | add (msg : Bytes)
  | hash

/-- The hashes a sequence of calls returns. -/
def hashes (t : Transcript) : List Op → List Digest
  | [] => []
  | .add msg :: ops => (t.add msg).hashes ops
  | .hash :: ops =>
    let (d, t) := t.hash
    d :: t.hashes ops

/-- What these are to be, behind the messages added before: each the digest of all messages so
far. -/
def digests (msgs : Bytes) : List Op → List Bytes
  | [] => []
  | .add msg :: ops => digests (msgs ++ msg) ops
  | .hash :: ops => Fips180.digest msgs :: digests msgs ops

theorem hashes_eq (msgs : Bytes) (ops : List Op) :
    (hashes { h := Sha256.update Sha256.init msgs } ops).map Vector.toList = digests msgs ops := by
  induction ops generalizing msgs with
  | nil => rfl
  | cons op ops ih =>
    cases op with
    | add msg =>
      rw [hashes, add, Sha256.update_update Sha256.length_buf_init, digests]
      exact ih (msgs ++ msg)
    | hash =>
      rw [hashes, hash, digests, List.map_cons, Fips180.toList_final, ih msgs]

end Transcript

theorem foldl_update (pieces : List Bytes) (msg : Bytes) :
    pieces.foldl Sha256.update (Sha256.update Sha256.init msg) =
      Sha256.update Sha256.init (msg ++ pieces.flatten) := by
  induction pieces generalizing msg with
  | nil => simp
  | cons piece pieces ih =>
    rw [List.foldl_cons, Sha256.update_update Sha256.length_buf_init, ih, List.flatten_cons,
      List.append_assoc]

/-- **SHA-256, in any pieces.** However a message is cut into updates, the final digest is that of
FIPS 180-4 for the whole message; and each hash taken of a transcript is the digest of the messages
added before it, wherever others were taken. -/
theorem sha256_streaming :
    (∀ pieces : List Bytes, (Sha256.final (pieces.foldl Sha256.update Sha256.init)).toList =
      Fips180.digest pieces.flatten) ∧
    ∀ ops, (Transcript.init.hashes ops).map Vector.toList = Transcript.digests [] ops := by
  have hnil : Sha256.init = Sha256.update Sha256.init [] := rfl
  constructor
  · intro pieces
    rw [hnil, foldl_update, List.nil_append, Fips180.toList_final]
  · exact Transcript.hashes_eq []

end Crypto

end QuicVibe
