import QuicVibe.Common.Memory
import QuicVibe.Crypto.Ghash
/-!
# AES-128-GCM on buffers

`quic_gcm_seal` and `quic_gcm_open` with their pointers: a call names addresses, and the functions
take memories to memories. As long as the output does not start inside the input, behind its first
byte, they compute what the functions on strings do.
-/

namespace QuicVibe

namespace Crypto

namespace Gcm

/-! ## The calls -/

/-- The pointers and lengths of a call. -/
structure Call where
  nonce : ℕ
  aad : ℕ
  aadLen : ℕ
  input : ℕ
  len : ℕ
  output : ℕ
  tag : ℕ

/-- Bytes remaining at `off`, capped at one block. -/
def blockN (off len : ℕ) : ℕ := if len - off < 16 then len - off else 16

variable (E : Block → Block)

/-- `ctr_chunk`: xor up to 16 key-stream bytes over the input at `off`. The bytes done, the memory
and the next counter. -/
def ctrChunk (m : Mem) (ctr : Block) (src off len dst : ℕ) : ℕ × Mem × Block :=
  let n := blockN off len
  let ks := (E ctr).toList
  (n, (List.range n).foldl
    (fun m i => m.store (dst + (off + i)) (m (src + (off + i)) ^^^ ks.getD i 0)) m, ctrInc ctr)

/-- The loop of `ctr_xor`. The fuel bounds the number of chunks. -/
def ctrXorLoop (src len dst : ℕ) : ℕ → ℕ → Mem → Block → Mem
  | 0, _, m, _ => m
  | fuel + 1, off, m, ctr =>
    if off < len then
      let (n, m, ctr) := ctrChunk E m ctr src off len dst
      ctrXorLoop src len dst fuel (off + n) m ctr
    else m

/-- `ctr_xor`. -/
def ctrXorAt (m : Mem) (ctr : Block) (src len dst : ℕ) : Mem := ctrXorLoop E src len dst len 0 m ctr

/-- `quic_gcm_seal`: the length of the ciphertext, and the memory with ciphertext and tag. -/
def sealAt (c : Call) (m : Mem) : ℕ × Mem :=
  let nonce := m.array 12 c.nonce
  let m := ctrXorAt E m (ctrInc (j0 nonce)) c.input c.len c.output
  let t := tag E nonce (m.bytes c.aad c.aadLen) (m.bytes c.output c.len)
  (c.len, m.write c.tag t.toList)

/-- `quic_gcm_open`: whether the tag is right, and the memory with the plaintext if it is. -/
def openAt (c : Call) (m : Mem) : ℕ × Mem :=
  let nonce := m.array 12 c.nonce
  let want := tag E nonce (m.bytes c.aad c.aadLen) (m.bytes c.input c.len)
  if ctDiff want (m.array 16 c.tag) ≠ 0 then (0, m)
  else (1, ctrXorAt E m (ctrInc (j0 nonce)) c.input c.len c.output)

/-! ## The counter loop -/

/-- Byte `j` of the key stream from the counter block `ctr` on. -/
def ksByte (ctr : Block) (j : ℕ) : UInt8 := (E (ctrInc^[j / 16] ctr)).toList.getD (j % 16) 0

theorem getD_keystream {n j : ℕ} (ctr : Block) (hj : j < 16 * n) :
    (keystream E n ctr).getD j 0 = ksByte E ctr j := by
  induction n generalizing ctr j with
  | zero => omega
  | succ n ih =>
    rw [keystream, ksByte]
    by_cases h : j < 16
    · rw [List.getD_append _ _ _ _ (by simpa using h), Nat.div_eq_of_lt h, Nat.mod_eq_of_lt h,
        Function.iterate_zero, id]
    · obtain ⟨k, rfl⟩ : ∃ k, j = k + 16 := ⟨j - 16, by omega⟩
      rw [List.getD_append_right _ _ _ _ (by simp), Vector.length_toList, Nat.add_sub_cancel,
        ih _ (by omega), Nat.add_div_right _ (by decide), Nat.add_mod_right,
        Function.iterate_succ_apply, ksByte]

theorem ctrXor_bytes (m : Mem) (ctr : Block) (src len : ℕ) :
    ctrXor E ctr (m.bytes src len) =
      (List.range len).map fun i => m (src + i) ^^^ ksByte E ctr i := by
  refine List.ext_getElem (by simp) fun i h₁ h₂ => ?_
  have hi : i < len := by simpa using h₂
  have hks := getD_keystream E (n := (len + 15) / 16) ctr (j := i) (by omega)
  have hlen : i < (keystream E ((len + 15) / 16) ctr).length := by
    rw [length_keystream]
    omega
  rw [List.getD_eq_getElem _ _ hlen] at hks
  simp only [ctrXor, xorBytes, List.getElem_zipWith, Mem.length_bytes, hks]
  simp [Mem.bytes]

theorem blockN_eq_min (off len : ℕ) : blockN off len = min 16 (len - off) := by
  rw [blockN]
  split <;> omega

theorem ctrChunk_eq (m : Mem) (ctr : Block) (src len dst k : ℕ) :
    ctrChunk E m (ctrInc^[k] ctr) src (16 * k) len dst =
      (blockN (16 * k) len,
        m.transform (fun j b => b ^^^ ksByte E ctr j) src dst (16 * k) (blockN (16 * k) len),
        ctrInc^[k + 1] ctr) := by
  have hn := blockN_eq_min (16 * k) len
  rw [ctrChunk, Mem.transform, Function.iterate_succ_apply']
  refine Prod.ext rfl (Prod.ext ?_ rfl)
  refine List.foldl_ext _ _ _ fun m i hi => ?_
  have hi' := List.mem_range.1 hi
  have hdiv : (16 * k + i) / 16 = k := by omega
  have hmod : (16 * k + i) % 16 = i := by omega
  rw [ksByte, hdiv, hmod]

theorem ctrXorAt_eq_transform (m : Mem) (ctr : Block) (src len dst : ℕ) :
    ctrXorAt E m ctr src len dst =
      m.transform (fun j b => b ^^^ ksByte E ctr j) src dst 0 len := by
  refine Mem.chunks_eq_transform m 16 (fun k => ctrInc^[k] ctr) ?_ ?_ (by decide) 0
    (Nat.le_refl _)
  · intro fuel off m c hoff
    cases fuel with
    | zero => rfl
    | succ fuel => rw [ctrXorLoop, if_neg (Nat.not_lt.2 hoff)]
  · intro fuel k m hlt
    rw [ctrXorLoop, if_pos hlt, ctrChunk_eq, blockN_eq_min]

/-- The output does not start inside the input, behind its first byte: the loop then reads no
byte that it has written over. In particular the two may be one buffer, or apart. -/
def Call.Forward (c : Call) : Prop := c.output ≤ c.input ∨ c.input + c.len ≤ c.output

/-- **The counter loop** writes the xored input. -/
theorem ctrXorAt_eq (m : Mem) (ctr : Block) {c : Call} (hc : c.Forward) :
    ctrXorAt E m ctr c.input c.len c.output =
      m.write c.output (ctrXor E ctr (m.bytes c.input c.len)) := by
  rw [ctrXorAt_eq_transform, Mem.transform_eq_write _ _ hc, ctrXor_bytes]

/-! ## Seal and open -/

/-- What a call that seals must keep apart from its output, which is written first: the
associated data and the tag. -/
structure Call.Apart (c : Call) : Prop where
  forward : c.Forward
  aad : c.aad + c.aadLen ≤ c.output ∨ c.output + c.len ≤ c.aad
  tag : c.tag + 16 ≤ c.output ∨ c.output + c.len ≤ c.tag

theorem sealAt_eq {c : Call} (hc : c.Apart) (m : Mem) :
    ((sealAt E c m).2.bytes c.output c.len, (sealAt E c m).2.array 16 c.tag) =
      gcmSeal E (m.array 12 c.nonce) (m.bytes c.aad c.aadLen) (m.bytes c.input c.len) := by
  have hlen (ctr : Block) : (ctrXor E ctr (m.bytes c.input c.len)).length = c.len := by simp
  have haad (ctr : Block) := m.bytes_write_of_apart (show c.aad + c.aadLen ≤ c.output ∨
    c.output + (ctrXor E ctr (m.bytes c.input c.len)).length ≤ c.aad by rw [hlen]; exact hc.aad)
  have hout (ctr : Block) := m.bytes_write c.output (ctrXor E ctr (m.bytes c.input c.len))
  simp only [hlen] at hout
  simp only [sealAt, ctrXorAt_eq E m _ hc.forward, haad, hout, Mem.array_write]
  rw [Mem.bytes_write_of_apart _ (by rw [Vector.length_toList]; exact hc.tag.symm), hout]
  rfl

theorem openAt_cases (c : Call) (m : Mem) :
    m.array 16 c.tag = specTag E (m.array 12 c.nonce) (m.bytes c.aad c.aadLen)
        (m.bytes c.input c.len) ∧
      openAt E c m =
        (1, ctrXorAt E m (ctrInc (j0 (m.array 12 c.nonce))) c.input c.len c.output) ∨
    m.array 16 c.tag ≠ specTag E (m.array 12 c.nonce) (m.bytes c.aad c.aadLen)
        (m.bytes c.input c.len) ∧ openAt E c m = (0, m) := by
  rw [openAt, tag_eq_specTag]
  by_cases h : m.array 16 c.tag = specTag E (m.array 12 c.nonce) (m.bytes c.aad c.aadLen)
      (m.bytes c.input c.len)
  · rw [if_neg (not_not.2 ((ctDiff_eq_zero_iff _ _).2 h.symm))]
    exact .inl ⟨h, rfl⟩
  · rw [if_pos fun hdiff => h ((ctDiff_eq_zero_iff _ _).1 hdiff).symm]
    exact .inr ⟨h, rfl⟩

/-- The memory `m'` holds for the call `o` what the call `s` sealed in `m`: the same nonce and
associated data, the ciphertext and the tag, wherever they were moved to. -/
structure Carries (s o : Call) (m m' : Mem) : Prop where
  nonce : m'.array 12 o.nonce = m.array 12 s.nonce
  aad : m'.bytes o.aad o.aadLen = m.bytes s.aad s.aadLen
  len : o.len = s.len
  ciphertext : m'.bytes o.input o.len = (sealAt E s m).2.bytes s.output s.len
  tag : m'.array 16 o.tag = (sealAt E s m).2.array 16 s.tag

theorem openAt_of_carries {s o : Call} {m m' : Mem} (hs : s.Apart) (ho : o.Forward)
    (h : Carries E s o m m') :
    (openAt E o m').1 = 1 ∧
      (openAt E o m').2.bytes o.output o.len = m.bytes s.input s.len := by
  obtain ⟨hct, htag⟩ := Prod.mk.inj (sealAt_eq E hs m)
  have hgood : m'.array 16 o.tag = specTag E (m'.array 12 o.nonce) (m'.bytes o.aad o.aadLen)
      (m'.bytes o.input o.len) := by
    rw [h.tag, h.nonce, h.aad, h.ciphertext, ← tag_eq_specTag]
    exact htag.trans (congrArg (tag E _ _) hct.symm)
  rcases openAt_cases E o m' with ⟨-, hopen⟩ | ⟨hbad, -⟩
  · refine ⟨by rw [hopen], ?_⟩
    have hlen (ctr : Block) : (ctrXor E ctr (m'.bytes o.input o.len)).length = o.len := by simp
    have hread (ctr : Block) := m'.bytes_write o.output (ctrXor E ctr (m'.bytes o.input o.len))
    simp only [hlen] at hread
    rw [hopen, ctrXorAt_eq E m' _ ho, hread, h.ciphertext, h.nonce, hct]
    exact ctrXor_ctrXor E _ _
  · exact absurd hgood hbad

/-- **The contract of authenticated encryption**, for any block function. Opening what was sealed
gives the plaintext back, on strings and on buffers; a call that opens accepts exactly the tag the
standard defines for the ciphertext and the associated data it was given; and when it does not
accept it leaves all of memory as it was, wherever its buffers lie. -/
theorem gcm_contract (E : Block → Block) :
    (∀ (nonce : Nonce) (aad pt : Bytes),
      gcmOpen E nonce aad (gcmSeal E nonce aad pt).1 (gcmSeal E nonce aad pt).2 = some pt) ∧
    (∀ (s o : Call) (m m' : Mem), s.Apart → o.Forward → Carries E s o m m' →
      (openAt E o m').1 = 1 ∧
        (openAt E o m').2.bytes o.output o.len = m.bytes s.input s.len) ∧
    (∀ (nonce : Nonce) (aad ct : Bytes) (t : Block),
      (gcmOpen E nonce aad ct t).isSome ↔ t = specTag E nonce aad ct) ∧
    (∀ (o : Call) (m : Mem), (openAt E o m).1 = 1 ↔
      m.array 16 o.tag = specTag E (m.array 12 o.nonce) (m.bytes o.aad o.aadLen)
        (m.bytes o.input o.len)) ∧
    ∀ (o : Call) (m : Mem), (openAt E o m).1 ≠ 1 → openAt E o m = (0, m) := by
  refine ⟨gcmOpen_gcmSeal E, fun s o m m' => openAt_of_carries E, fun nonce aad ct t => ?_,
    fun o m => ?_, fun o m hne => ?_⟩
  · rw [gcmOpen, tag_eq_specTag]
    by_cases h : t = specTag E nonce aad ct
    · subst h
      simp [(ctDiff_eq_zero_iff _ _).2]
    · have hdiff : ctDiff (specTag E nonce aad ct) t ≠ 0 :=
        fun hz => h ((ctDiff_eq_zero_iff _ _).1 hz).symm
      simp [hdiff, h]
  · rcases openAt_cases E o m with ⟨hgood, hopen⟩ | ⟨hbad, hopen⟩
    · simp [hopen, hgood]
    · simp [hopen, hbad]
  · rcases openAt_cases E o m with ⟨-, hopen⟩ | ⟨-, hopen⟩
    · exact absurd (by rw [hopen]) hne
    · exact hopen

/-- A call whose input is its output. -/
def inPlace : Call :=
  { nonce := 0, aad := 12, aadLen := 3, input := 32, len := 20, output := 32, tag := 64 }

/-- Twenty bytes sealed in place and opened in place, in a memory full of sevens. -/
theorem gcm_contract_in_place :
    (openAt id inPlace (sealAt id inPlace fun _ => 7).2).1 = 1 ∧
      (openAt id inPlace (sealAt id inPlace fun _ => 7).2).2.bytes 32 20 =
        Mem.bytes (fun _ => 7) 32 20 := by
  have hsealed : Carries id inPlace inPlace (fun _ => 7) (sealAt id inPlace fun _ => 7).2 :=
    { nonce := by decide
      aad := by decide
      len := rfl
      ciphertext := rfl
      tag := rfl }
  exact (gcm_contract id).2.1 inPlace inPlace _ _
    ⟨.inl (by decide), .inl (by decide), .inr (by decide)⟩ (.inl (by decide)) hsealed

end Gcm

end Crypto

end QuicVibe
