import QuicVibe.Common.Memory
import QuicVibe.Crypto.Poly1305

/-!
# ChaCha20-Poly1305

The block function and the stream of `chacha20.c` (RFC 8439 2.3 and 2.4), and `quic_chapoly_seal` and
`quic_chapoly_open` on memory (2.8). The tag is Poly1305 over the associated data and the ciphertext,
each padded to whole blocks, and their lengths; the code lays that out in a scratch array of 3032
bytes.
-/

namespace QuicVibe

namespace Crypto

namespace ChaCha

open Limbs Poly1305

/-- `QUIC_CHACHA_KEY`, `QUIC_CHACHA_NONCE` and `QUIC_CHACHA_BLOCK`. -/
abbrev Key := Vector UInt8 32
abbrev Nonce := Vector UInt8 12
def CHACHA_BLOCK : ℕ := 64

/-! ## The block function -/

/-- The sixteen words of the state. -/
abbrev State := Vector UInt32 16

def rotl (x n : UInt32) : UInt32 := (x <<< n) ||| (x >>> (32 - n))

/-- `QR` on the words at four places of the state. -/
def qr (x : State) (ia ib ic id : Fin 16) : State :=
  let (a, b, c, d) := (x[ia], x[ib], x[ic], x[id])
  let a := a + b
  let d := rotl (d ^^^ a) 16
  let c := c + d
  let b := rotl (b ^^^ c) 12
  let a := a + b
  let d := rotl (d ^^^ a) 8
  let c := c + d
  let b := rotl (b ^^^ c) 7
  (((x.set ia a).set ib b).set ic c).set id d

def rd32 (p : Bytes) : UInt32 :=
  (p.getD 0 0).toUInt32 ||| (p.getD 1 0).toUInt32 <<< 8 ||| (p.getD 2 0).toUInt32 <<< 16 |||
    (p.getD 3 0).toUInt32 <<< 24

def doubleRound (x : State) : State :=
  let x := qr x 0 4 8 12
  let x := qr x 1 5 9 13
  let x := qr x 2 6 10 14
  let x := qr x 3 7 11 15
  let x := qr x 0 5 10 15
  let x := qr x 1 6 11 12
  let x := qr x 2 7 8 13
  qr x 3 4 9 14

def initState (key : Key) (counter : UInt32) (nonce : Nonce) : State :=
  let k i := rd32 (key.toList.drop (4 * i))
  let v i := rd32 (nonce.toList.drop (4 * i))
  #v[0x61707865, 0x3320646e, 0x79622d32, 0x6b206574, k 0, k 1, k 2, k 3, k 4, k 5, k 6, k 7,
     counter, v 0, v 1, v 2]

def serialize (x s : State) : Bytes :=
  (List.zipWith (· + ·) x.toList s.toList).flatMap fun v : UInt32 =>
    [v.toUInt8, (v >>> 8).toUInt8, (v >>> 16).toUInt8, (v >>> 24).toUInt8]

def chacha20Block (key : Key) (counter : UInt32) (nonce : Nonce) : Bytes :=
  let s := initState key counter nonce
  serialize (doubleRound^[10] s) s

theorem length_chacha20Block (key : Key) (counter : UInt32) (nonce : Nonce) :
    (chacha20Block key counter nonce).length = 64 := by
  have hserialize : ∀ x s : State, (serialize x s).length = 64 := by
    intro x s
    rw [serialize, List.length_flatMap]
    simp only [List.length_cons, List.length_nil]
    rw [List.map_const', List.sum_replicate_nat, List.length_zipWith, Vector.length_toList,
      Vector.length_toList]
    rfl
  exact hserialize _ _

/-! ## The stream -/

variable (key : Key) (nonce : Nonce)

/-- `xor_chunk`: xor up to one block of key stream over the input at `off`. The bytes done and the
memory. -/
def xorChunk (counter : UInt32) (m : Mem) (src off len dst : ℕ) : ℕ × Mem :=
  let n := if len - off < CHACHA_BLOCK then len - off else CHACHA_BLOCK
  let ks := chacha20Block key counter nonce
  (n, (List.range n).foldl
    (fun m i => m.store (dst + (off + i)) (m (src + (off + i)) ^^^ ks.getD i 0)) m)

/-- The loop of `quic_chacha20_xor`. Every round does at least one byte. -/
def chacha20XorLoop (src len dst : ℕ) : ℕ → ℕ → Mem → UInt32 → Mem
  | 0, _, m, _ => m
  | fuel + 1, off, m, c =>
    if off < len then
      let (n, m) := xorChunk key nonce c m src off len dst
      chacha20XorLoop src len dst fuel (off + n) m (c + 1)
    else m

def chacha20Xor (counter : UInt32) (m : Mem) (src len dst : ℕ) : Mem :=
  chacha20XorLoop key nonce src len dst len 0 m counter

/-- Byte `j` of the key stream from the block `counter` on. -/
def ksByte (counter : UInt32) (j : ℕ) : UInt8 :=
  (chacha20Block key (counter + UInt32.ofNat (j / 64)) nonce).getD (j % 64) 0

/-- A string xored with the key stream. -/
def stream (counter : UInt32) (data : Bytes) : Bytes :=
  (List.range data.length).map fun i => data.getD i 0 ^^^ ksByte key nonce counter i

@[simp] theorem length_stream (counter : UInt32) (data : Bytes) :
    (stream key nonce counter data).length = data.length := by
  rw [stream, List.length_map, List.length_range]

/-- **The stream is its own inverse.** -/
theorem stream_stream (counter : UInt32) (data : Bytes) :
    stream key nonce counter (stream key nonce counter data) = data := by
  refine List.ext_getElem (by rw [length_stream, length_stream]) fun i h₁ h₂ => ?_
  simp [stream, h₂, UInt8.xor_assoc]

theorem xorChunk_eq (counter : UInt32) (m : Mem) (src len dst k : ℕ) :
    xorChunk key nonce (counter + UInt32.ofNat k) m src (64 * k) len dst =
      (min 64 (len - 64 * k), m.transform (fun j b => b ^^^ ksByte key nonce counter j) src dst
        (64 * k) (min 64 (len - 64 * k))) := by
  have hn : (if len - 64 * k < CHACHA_BLOCK then len - 64 * k else CHACHA_BLOCK) =
      min 64 (len - 64 * k) := by
    rw [CHACHA_BLOCK]
    split <;> omega
  rw [xorChunk, hn, Mem.transform]
  refine Prod.ext rfl (List.foldl_ext _ _ _ fun m i hi => ?_)
  have hlt := List.mem_range.1 hi
  have hdiv : (64 * k + i) / 64 = k := by omega
  have hmod : (64 * k + i) % 64 = i := by omega
  rw [ksByte, hdiv, hmod]

/-- **The loop over blocks** writes the xored input, as long as the output does not start inside
the input behind its first byte. -/
theorem chacha20Xor_eq (counter : UInt32) (m : Mem) {src len dst : ℕ}
    (h : dst ≤ src ∨ src + len ≤ dst) :
    chacha20Xor key nonce counter m src len dst =
      m.write dst (stream key nonce counter (m.bytes src len)) := by
  have hloop : chacha20Xor key nonce counter m src len dst =
      m.transform (fun j b => b ^^^ ksByte key nonce counter j) src dst 0 len := by
    have hzero : counter + UInt32.ofNat 0 = counter := by simp
    rw [chacha20Xor]
    nth_rewrite 1 [← hzero]
    refine Mem.chunks_eq_transform m 64 (fun k => counter + UInt32.ofNat k) ?_ ?_ (by decide) 0
      (Nat.le_refl _)
    · intro fuel off m c hoff
      cases fuel with
      | zero => rfl
      | succ fuel => rw [chacha20XorLoop, if_neg (Nat.not_lt.2 hoff)]
    · intro fuel k m hlt
      have hnext : counter + UInt32.ofNat (k + 1) = counter + UInt32.ofNat k + 1 := by
        rw [UInt32.ofNat_add, UInt32.add_assoc]
        rfl
      rw [chacha20XorLoop, if_pos hlt, xorChunk_eq, hnext]
  rw [hloop, Mem.transform_eq_write _ _ h, stream, Mem.length_bytes]
  congr 1
  refine List.map_congr_left fun i hi => ?_
  rw [Mem.getD_bytes _ (List.mem_range.1 hi)]
/-! ## The calls -/

/-- The length of `mac` in `chapoly_tag`. -/
def MAC_LEN : ℕ := 16 + 1500 + 1500 + 16

/-- The scratch array. -/
abbrev Scratch := Vector UInt8 MAC_LEN

/-- `put_padded`: the array and the cursor behind what was written. -/
def putPadded (buf : Scratch) (off : ℕ) (src : Bytes) : Scratch × ℕ :=
  let n := src.length
  let pad := (16 - n % 16) % 16
  (Buf.writeAt (Buf.writeAt buf off src) (off + n) (List.replicate pad 0), off + n + pad)

def putLe64 (buf : Scratch) (off v : ℕ) : Scratch × ℕ := (Buf.writeAt buf off (putLe 8 v), off + 8)

def polyKey (key : Key) (nonce : Nonce) : Vector UInt8 32 :=
  Bytes.fit 32 ((chacha20Block key 0 nonce).take 32)

/-- The pointers and lengths of a call. -/
structure Call where
  aad : ℕ
  aadLen : ℕ
  input : ℕ
  len : ℕ
  output : ℕ
  tag : ℕ

variable (mac : Scratch) (key : Key) (nonce : Nonce)

/-- `chapoly_tag`, with what the scratch array holds before. -/
def chapolyTag (aad ct : Bytes) : Vector UInt8 16 :=
  let pk := polyKey key nonce
  let (mac, n) := putPadded mac 0 aad
  let (mac, n) := putPadded mac n ct
  let (mac, n) := putLe64 mac n aad.length
  let (mac, n) := putLe64 mac n ct.length
  Bytes.fit 16 (poly1305 pk (mac.toList.take n))

/-- `quic_chapoly_seal`: the length of the ciphertext, and the memory with ciphertext and tag. -/
def sealAt (c : Call) (m : Mem) : ℕ × Mem :=
  let m := chacha20Xor key nonce 1 m c.input c.len c.output
  let tag := chapolyTag mac key nonce (m.bytes c.aad c.aadLen) (m.bytes c.output c.len)
  (c.len, m.write c.tag tag.toList)

/-- `quic_chapoly_open`: whether the tag is right, and the memory with the plaintext if it is. -/
def openAt (c : Call) (m : Mem) : ℕ × Mem :=
  let want := chapolyTag mac key nonce (m.bytes c.aad c.aadLen) (m.bytes c.input c.len)
  if ctDiff want (m.array 16 c.tag) ≠ 0 then (0, m)
  else (1, chacha20Xor key nonce 1 m c.input c.len c.output)

/-! ## The input of the MAC -/

/-- A string padded with zeros to whole blocks. -/
def pad16 (bs : Bytes) : Bytes := bs ++ List.replicate ((16 - bs.length % 16) % 16) 0

/-- The construction of RFC 8439 2.8. -/
def macInput (aad ct : Bytes) : Bytes :=
  pad16 aad ++ pad16 ct ++ putLe 8 aad.length ++ putLe 8 ct.length

theorem length_pad16 (bs : Bytes) : (pad16 bs).length = bs.length + (16 - bs.length % 16) % 16 := by
  rw [pad16, List.length_append, List.length_replicate]

theorem putPadded_spec {buf : Scratch} {off : ℕ} {src : Bytes}
    (h : off + (pad16 src).length ≤ MAC_LEN) :
    (putPadded buf off src).2 = off + (pad16 src).length ∧
      (putPadded buf off src).1.toList.take (putPadded buf off src).2 =
        buf.toList.take off ++ pad16 src := by
  have hlen := length_pad16 src
  have hcursor : (putPadded buf off src).2 = off + (pad16 src).length := by
    rw [putPadded, hlen, Nat.add_assoc]
  refine ⟨hcursor, ?_⟩
  have hzeros : (List.replicate ((16 - src.length % 16) % 16) (0 : UInt8)).length =
      (16 - src.length % 16) % 16 := List.length_replicate
  rw [pad16, ← List.append_assoc, ← Buf.take_toList_writeAt buf (by omega),
    ← Buf.take_toList_writeAt _ (by omega), hzeros]
  rfl

theorem putLe64_cursor (buf : Scratch) (off v : ℕ) : (putLe64 buf off v).2 = off + 8 := rfl

theorem putLe64_spec {buf : Scratch} {off v : ℕ} (h : off + 8 ≤ MAC_LEN) :
    (putLe64 buf off v).1.toList.take (off + 8) = buf.toList.take off ++ putLe 8 v := by
  rw [← Buf.take_toList_writeAt buf (by rw [length_putLe]; exact h), length_putLe]
  rfl

/-- The input of the MAC fits the scratch array. -/
def ScratchFits (aad ct : Bytes) : Prop :=
  (pad16 aad).length + (pad16 ct).length + 16 ≤ MAC_LEN

variable {aad ct pt : Bytes} {c : Call} {m : Mem}

theorem scratchFits_of_le (h : aad.length + ct.length ≤ 2900) : ScratchFits aad ct := by
  have hcap : MAC_LEN = 3032 := rfl
  rw [ScratchFits, length_pad16, length_pad16]
  omega

theorem ScratchFits.congr {ct' : Bytes} (h : ScratchFits aad ct) (hlen : ct'.length = ct.length) :
    ScratchFits aad ct' := by
  rwa [ScratchFits, length_pad16 ct', hlen, ← length_pad16 ct]

/-- **The tag** of strings that fit the scratch array, whatever that held. -/
theorem chapolyTag_eq (h : ScratchFits aad ct) :
    (chapolyTag mac key nonce aad ct).toList = poly1305 (polyKey key nonce) (macInput aad ct) := by
  unfold ScratchFits at h
  have hlen := length_poly1305 (polyKey key nonce)
  simp only [chapolyTag, putLe64_cursor]
  obtain ⟨hn₁, h₁⟩ : (putPadded mac 0 aad).2 = _ ∧ _ := putPadded_spec (by omega)
  generalize putPadded mac 0 aad = p₁ at *
  obtain ⟨hn₂, h₂⟩ : (putPadded p₁.1 p₁.2 ct).2 = _ ∧ _ := putPadded_spec (by omega)
  generalize putPadded p₁.1 p₁.2 ct = p₂ at *
  have h₃ : (putLe64 p₂.1 p₂.2 aad.length).1.toList.take _ = _ := putLe64_spec (by omega)
  have h₄ : (putLe64 (putLe64 p₂.1 p₂.2 aad.length).1 (p₂.2 + 8) ct.length).1.toList.take _ = _ :=
    putLe64_spec (by omega)
  rw [Bytes.toList_fit (Nat.le_of_eq (hlen _).symm), List.take_of_length_le (Nat.le_of_eq (hlen _)),
    h₄, h₃, h₂, h₁, List.take_zero, List.nil_append, macInput]

/-! ## Seal and open -/

/-- The output does not start inside the input, behind its first byte. -/
def Call.Forward (c : Call) : Prop := c.output ≤ c.input ∨ c.input + c.len ≤ c.output

/-- What a call that seals must keep apart from its output, which is written first. -/
structure Call.Apart (c : Call) : Prop where
  forward : c.Forward
  aad : c.aad + c.aadLen ≤ c.output ∨ c.output + c.len ≤ c.aad
  tag : c.tag + 16 ≤ c.output ∨ c.output + c.len ≤ c.tag

/-- The memory holds the associated data and the input of a call. -/
structure Call.Reads (c : Call) (m : Mem) (aad input : Bytes) : Prop where
  aad : m.bytes c.aad c.aadLen = aad
  input : m.bytes c.input c.len = input

theorem Call.Reads.len {input : Bytes} (h : c.Reads m aad input) : c.len = input.length := by
  rw [← h.input, Mem.length_bytes]

/-- **Sealing** writes the stream and its tag. -/
theorem sealAt_eq (hc : c.Apart) (h : c.Reads m aad pt) :
    (sealAt mac key nonce c m).2.bytes c.output c.len = stream key nonce 1 pt ∧
      (sealAt mac key nonce c m).2.array 16 c.tag =
        chapolyTag mac key nonce aad (stream key nonce 1 pt) := by
  have hlen : (stream key nonce 1 pt).length = c.len := by rw [length_stream, h.len]
  have haad : (m.write c.output (stream key nonce 1 pt)).bytes c.aad c.aadLen = aad := by
    rw [Mem.bytes_write_of_apart _ (by rw [hlen]; exact hc.aad), h.aad]
  have hout : (m.write c.output (stream key nonce 1 pt)).bytes c.output c.len =
      stream key nonce 1 pt := by rw [← hlen, Mem.bytes_write]
  simp only [sealAt, chacha20Xor_eq key nonce 1 m hc.forward, h.input, haad, hout, Mem.array_write,
    and_true]
  rw [Mem.bytes_write_of_apart _ (by rw [Vector.length_toList]; exact hc.tag.symm), hout]

theorem openAt_eq (h : c.Reads m aad ct) :
    openAt mac key nonce c m =
      if m.array 16 c.tag = chapolyTag mac key nonce aad ct then
        (1, chacha20Xor key nonce 1 m c.input c.len c.output)
      else (0, m) := by
  rw [openAt, h.aad, h.input]
  by_cases htag : m.array 16 c.tag = chapolyTag mac key nonce aad ct
  · rw [if_pos htag, if_neg (not_not.2 ((ctDiff_eq_zero_iff _ _).2 htag.symm))]
  · rw [if_neg htag, if_pos fun hdiff => htag ((ctDiff_eq_zero_iff _ _).1 hdiff).symm]

theorem openAt_of_ne (h : (openAt mac key nonce c m).1 ≠ 1) :
    openAt mac key nonce c m = (0, m) := by
  have hopen := openAt_eq mac key nonce (c := c) (m := m) ⟨rfl, rfl⟩
  split at hopen
  · exact absurd (by rw [hopen]) h
  · exact hopen

/-- **Opening what was sealed** writes the plaintext, wherever ciphertext and tag were moved to. -/
theorem openAt_sealed (mac' : Scratch) {s o : Call} {m' : Mem} (h : ScratchFits aad pt)
    (hs : s.Apart) (ho : o.Forward) (hin : s.Reads m aad pt)
    (hct : o.Reads m' aad ((sealAt mac key nonce s m).2.bytes s.output s.len))
    (htag : m'.array 16 o.tag = (sealAt mac key nonce s m).2.array 16 s.tag) :
    (openAt mac' key nonce o m').1 = 1 ∧
      (openAt mac' key nonce o m').2.bytes o.output o.len = pt := by
  obtain ⟨hout, hsealed⟩ := sealAt_eq mac key nonce hs hin
  rw [hout] at hct
  have hlen : ScratchFits aad (stream key nonce 1 pt) := h.congr (length_stream _ _ _ _)
  have hsame : m'.array 16 o.tag = chapolyTag mac' key nonce aad (stream key nonce 1 pt) := by
    rw [htag, hsealed]
    apply Vector.toList_inj.1
    rw [chapolyTag_eq mac key nonce hlen, chapolyTag_eq mac' key nonce hlen]
  rw [openAt_eq mac' key nonce hct, if_pos hsame, chacha20Xor_eq key nonce 1 m' ho, hct.input,
    stream_stream, hct.len, length_stream, Mem.bytes_write]
  exact ⟨rfl, rfl⟩

/-! ## Strings

What the calls compute, apart from where it lies in memory. -/

/-- `quic_chapoly_seal` on strings. -/
def chapolySeal (aad pt : Bytes) : Bytes × Vector UInt8 16 :=
  let ct := stream key nonce 1 pt
  (ct, chapolyTag mac key nonce aad ct)

/-- `quic_chapoly_open` on strings. -/
def chapolyOpen (aad ct : Bytes) (tag : Vector UInt8 16) : Option Bytes :=
  if tag = chapolyTag mac key nonce aad ct then some (stream key nonce 1 ct) else none

@[simp] theorem length_chapolySeal (aad pt : Bytes) :
    (chapolySeal mac key nonce aad pt).1.length = pt.length := length_stream _ _ _ _

/-- **Opening a sealed plaintext returns it**, whatever the two scratch arrays held. -/
theorem chapolyOpen_chapolySeal (mac' : Scratch) (h : ScratchFits aad pt) :
    chapolyOpen mac' key nonce aad (chapolySeal mac key nonce aad pt).1
      (chapolySeal mac key nonce aad pt).2 = some pt := by
  have hfits : ScratchFits aad (stream key nonce 1 pt) := h.congr (length_stream _ _ _ _)
  have htag : chapolyTag mac key nonce aad (stream key nonce 1 pt) =
      chapolyTag mac' key nonce aad (stream key nonce 1 pt) := by
    apply Vector.toList_inj.1
    rw [chapolyTag_eq mac key nonce hfits, chapolyTag_eq mac' key nonce hfits]
  rw [chapolyOpen, chapolySeal, if_pos htag, stream_stream]

theorem openAt_accepts_iff (h : ScratchFits aad ct) (hc : c.Reads m aad ct) :
    (openAt mac key nonce c m).1 = 1 ↔
      (m.array 16 c.tag).toList = poly1305 (polyKey key nonce) (macInput aad ct) := by
  rw [openAt_eq mac key nonce hc, ← chapolyTag_eq mac key nonce h, Vector.toList_inj]
  split
  · exact iff_of_true rfl ‹_›
  · exact iff_of_false nofun ‹_›

/-- A memory for a call that opens a string with a tag. -/
def received (aad ct tag : Bytes) : Mem := fun a => (aad ++ (ct ++ tag)).getD a 0

/-- The call. -/
def receivedCall (aad ct : Bytes) : Call :=
  { aad := 0, aadLen := aad.length, input := aad.length, len := ct.length, output := aad.length,
    tag := aad.length + ct.length }

theorem received_reads (aad ct tag : Bytes) :
    (receivedCall aad ct).Reads (received aad ct tag) aad ct := by
  have hall : (received aad ct tag).Holds 0 (aad ++ (ct ++ tag)) := Mem.Holds.getD _ fun _ => 0
  have hrest := hall.right
  rw [Nat.zero_add] at hrest
  exact ⟨hall.left.bytes_eq, hrest.left.bytes_eq⟩

theorem received_tag (aad ct : Bytes) (tag : Vector UInt8 16) :
    (received aad ct tag.toList).array 16 (receivedCall aad ct).tag = tag := by
  have hall : (received aad ct tag.toList).Holds 0 (aad ++ (ct ++ tag.toList)) :=
    Mem.Holds.getD _ fun _ => 0
  have htag := hall.right.right.bytes_eq
  rw [Nat.zero_add, Vector.length_toList] at htag
  rw [Mem.array, receivedCall, htag, Bytes.fit_toList]

/-- **The contract of authenticated encryption**, for a key, a nonce, associated data and a plaintext
that fit the scratch array: opening what was sealed gives the plaintext back, a call that opens
accepts exactly the tag of the standard, and one that does not accept leaves memory as it was. It
holds exactly when the accumulator does not end between the prime and `2 ^ 130`. -/
theorem chapoly_contract_iff (key : Key) (nonce : Nonce) (aad pt : Bytes)
    (h : aad.length + pt.length ≤ 2900) :
    ((∀ (mac mac' : Scratch) (s o : Call) (m m' : Mem), s.Apart → o.Forward → s.Reads m aad pt →
        o.Reads m' aad ((sealAt mac key nonce s m).2.bytes s.output s.len) →
        m'.array 16 o.tag = (sealAt mac key nonce s m).2.array 16 s.tag →
        (openAt mac' key nonce o m').1 = 1 ∧
          (openAt mac' key nonce o m').2.bytes o.output o.len = pt) ∧
      (∀ (mac : Scratch) (o : Call) (m : Mem), o.Reads m aad (stream key nonce 1 pt) →
        ((openAt mac key nonce o m).1 = 1 ↔ (m.array 16 o.tag).toList =
          rfcTag (polyKey key nonce) (macInput aad (stream key nonce 1 pt)))) ∧
      ∀ (mac : Scratch) (o : Call) (m : Mem), o.Reads m aad (stream key nonce 1 pt) →
        (openAt mac key nonce o m).1 ≠ 1 → openAt mac key nonce o m = (0, m)) ↔
      ¬ Unreduced (polyKey key nonce) (macInput aad (stream key nonce 1 pt)) := by
  have hlen : ScratchFits aad (stream key nonce 1 pt) :=
    (scratchFits_of_le h).congr (length_stream _ _ _ _)
  rw [← tag_agrees_iff]
  constructor
  · rintro ⟨-, haccept, -⟩
    -- the code accepts its own tag
    generalize stream key nonce 1 pt = ct at hlen haccept ⊢
    have hcode := openAt_accepts_iff (Vector.replicate _ 0) key nonce hlen (received_reads aad ct
      (chapolyTag (Vector.replicate _ 0) key nonce aad ct).toList)
    rw [haccept _ _ _ (received_reads _ _ _), received_tag, chapolyTag_eq _ key nonce hlen] at hcode
    exact hcode.2 rfl
  · intro hagree
    refine ⟨fun mac mac' s o m m' hs ho hin hct htag =>
      openAt_sealed mac key nonce mac' (scratchFits_of_le h) hs ho hin hct htag, ?_,
      fun mac o m _ hne => openAt_of_ne mac key nonce hne⟩
    intro mac o m ho
    rw [openAt_accepts_iff mac key nonce hlen ho, hagree]

/-! ## A key, a nonce and a ciphertext -/

/-- The key and the nonce with all bytes zero. -/
def zeroKey : Key := Vector.replicate 32 0
def zeroNonce : Nonce := Vector.replicate 12 0

theorem polyKey_zero : polyKey zeroKey zeroNonce =
    Bytes.fit 32 (putBe 32 0x76b8e0ada0f13d90405d6ae55386bd28bdd219b8a08ded1aa836efcc8b770dc7) := by
  have hblock : (chacha20Block zeroKey 0 zeroNonce).take 32 =
      putBe 32 0x76b8e0ada0f13d90405d6ae55386bd28bdd219b8a08ded1aa836efcc8b770dc7 := by
    decide +kernel
  rw [polyKey, hblock]

/-- A ciphertext for which the accumulator ends at `2 ^ 130 - 2`. -/
def edgeText : Bytes := putBe 16 0x2055984903838a808fe013ebc165df4e

/-- The tag that the code computes for it. -/
def edgeTag : Vector UInt8 16 := Bytes.fit 16 (putBe 16 0xbbd219b8a08ded1aa836efcc8b770dc7)

/-- **A tag of the code's own.** It accepts a tag that is not the standard's. -/
theorem openAt_edge :
    (openAt (Vector.replicate _ 0) zeroKey zeroNonce (receivedCall [] edgeText)
        (received [] edgeText edgeTag.toList)).1 = 1 ∧
      edgeTag.toList ≠ rfcTag (polyKey zeroKey zeroNonce) (macInput [] edgeText) := by
  rw [openAt_accepts_iff _ zeroKey zeroNonce (scratchFits_of_le (by decide)) (received_reads [] edgeText _), received_tag,
    polyKey_zero]
  decide +kernel

/-- The tag of nothing. -/
def nothingTag : Vector UInt8 16 := Bytes.fit 16 (putBe 16 0x4eb972c9a8fb3a1b382bb4d36f5ffad1)

/-- It is accepted. -/
theorem chapoly_contract_nothing :
    (openAt (Vector.replicate _ 0) zeroKey zeroNonce (receivedCall [] [])
      (received [] [] nothingTag.toList)).1 = 1 := by
  have hreduced : ¬ Unreduced (polyKey zeroKey zeroNonce) (macInput [] []) := by
    rw [polyKey_zero]
    unfold Unreduced
    decide +kernel
  have hcontract := (chapoly_contract_iff zeroKey zeroNonce [] [] (by decide)).2 hreduced
  refine (hcontract.2.1 _ _ _ (received_reads [] [] _)).2 ?_
  rw [received_tag, polyKey_zero]
  decide +kernel

end ChaCha

end Crypto

end QuicVibe
