import QuicVibe.Crypto.Sha256
/-!
# HKDF-Expand, block by block

`quic_hkdf_expand` keeps one block `t`: each round hands it to the MAC as the previous block and
receives the next block in it. The MAC is an arbitrary function here; `expand_hmacSha256` says that
the function the key schedule is built on is this loop over HMAC-SHA-256.
-/

namespace QuicVibe

namespace Crypto

namespace Hkdf

variable (hmac : Bytes → Bytes → Digest)

/-! ## The loop -/

/-- The locals of `quic_hkdf_expand`, with the output buffer. -/
structure Expander where
  t : Digest
  off : ℕ
  prevLen : ℕ
  counter : UInt8
  okm : Bytes

/-- `expand_block`: the previous block is copied to a buffer of its own before the MAC writes to
`t`. -/
def expandBlock (prk : Digest) (prev : Digest) (prevLen : ℕ) (info : Bytes) (counter : UInt8) :
    Digest :=
  hmac prk.toList (prev.toList.take prevLen ++ info ++ [counter])

/-- `emit`: the new offset and the output. -/
def emit (okm : Bytes) (off len : ℕ) (t : Digest) : ℕ × Bytes :=
  let take := if len - off < 32 then len - off else 32
  (off + take, okm.take off ++ t.toList.take take ++ okm.drop (off + take))

def expandOk (infoLen len : ℕ) : Bool := len ≤ 255 * 32 && infoLen ≤ 256

/-- One round of the loop of `quic_hkdf_expand`. -/
def expandStep (prk : Digest) (info : Bytes) (len : ℕ) (s : Expander) : Expander :=
  let t := expandBlock hmac prk s.t s.prevLen info s.counter
  let out := emit s.okm s.off len t
  { t := t, off := out.1, prevLen := 32, counter := s.counter + 1, okm := out.2 }

theorem off_lt_expandStep (prk : Digest) (info : Bytes) {len : ℕ} {s : Expander} (h : s.off < len) :
    s.off < (expandStep hmac prk info len s).off := by
  simp only [expandStep, emit]
  split <;> omega

/-- The loop of `quic_hkdf_expand`. -/
def expandLoop (prk : Digest) (info : Bytes) (len : ℕ) (s : Expander) : Expander :=
  if s.off < len then expandLoop prk info len (expandStep hmac prk info len s) else s
termination_by len - s.off
decreasing_by
  have := off_lt_expandStep hmac prk info ‹s.off < len›
  omega

/-- `quic_hkdf_expand`: the return value and the output buffer. -/
def expand (prk : Digest) (info okm : Bytes) (len : ℕ) : Bool × Bytes :=
  if !expandOk info.length len then (false, okm)
  else
    let start : Expander :=
      { t := Vector.replicate 32 0, off := 0, prevLen := 0, counter := 1, okm := okm }
    (true, (expandLoop hmac prk info len start).okm)

def expandLabel (prk : Digest) (label ctx okm : Bytes) (len : ℕ) : Bool × Bytes :=
  if label.length > 64 ∨ ctx.length > 64 then (false, okm)
  else expand hmac prk (buildLabel label ctx len) okm len

/-! ## RFC 5869 -/

/-- `T(i)`, with `T(0)` the empty string. -/
def rfcT (prk : Digest) (info : Bytes) : ℕ → Bytes
  | 0 => []
  | i + 1 => (hmac prk.toList (rfcT prk info i ++ info ++ [UInt8.ofNat (i + 1)])).toList

/-- `T(1) | T(2) | … | T(n)`. -/
def rfcBlocks (prk : Digest) (info : Bytes) (n : ℕ) : Bytes :=
  (List.range n).flatMap fun i => rfcT hmac prk info (i + 1)

/-- HKDF-Expand: the first `len` bytes of as many blocks as it takes. -/
def rfcExpand (prk : Digest) (info : Bytes) (len : ℕ) : Bytes :=
  (rfcBlocks hmac prk info ((len + 31) / 32)).take len

section

variable (prk : Digest) (info : Bytes)

@[simp] theorem length_rfcT_succ (i : ℕ) : (rfcT hmac prk info (i + 1)).length = 32 := by
  rw [rfcT, Vector.length_toList]

theorem rfcBlocks_succ (n : ℕ) :
    rfcBlocks hmac prk info (n + 1) = rfcBlocks hmac prk info n ++ rfcT hmac prk info (n + 1) := by
  simp [rfcBlocks, List.range_succ]

@[simp] theorem length_rfcBlocks (n : ℕ) : (rfcBlocks hmac prk info n).length = 32 * n := by
  induction n with
  | zero => rfl
  | succ n ih =>
    rw [rfcBlocks_succ, List.length_append, ih, length_rfcT_succ]
    omega

theorem rfcBlocks_prefix {m n : ℕ} (h : m ≤ n) :
    rfcBlocks hmac prk info m <+: rfcBlocks hmac prk info n := by
  induction h with
  | refl => exact List.prefix_rfl
  | step _ ih =>
    rw [rfcBlocks_succ]
    exact ih.trans (List.prefix_append _ _)

theorem take_rfcBlocks {n len : ℕ} (h : len ≤ 32 * n) :
    (rfcBlocks hmac prk info n).take len = rfcExpand hmac prk info len := by
  have hpre := rfcBlocks_prefix hmac prk info (show (len + 31) / 32 ≤ n by omega)
  obtain ⟨rest, hrest⟩ := hpre
  rw [rfcExpand, ← hrest, List.take_append_of_le_length (by rw [length_rfcBlocks]; omega)]

/-- **Prefixes.** A shorter output is the beginning of a longer one. -/
theorem rfcExpand_prefix {len len' : ℕ} (h : len ≤ len') :
    rfcExpand hmac prk info len <+: rfcExpand hmac prk info len' := by
  rw [← take_rfcBlocks hmac prk info (show len ≤ 32 * ((len' + 31) / 32) by omega), rfcExpand]
  exact List.take_prefix_take_left h

end

/-! ## The loop computes the blocks -/

/-- The state after `i` rounds: `t` holds `T(i)`, the output the blocks up to it. -/
structure After (prk : Digest) (info okm : Bytes) (len i : ℕ) (s : Expander) : Prop where
  prev : s.t.toList.take s.prevLen = rfcT hmac prk info i
  counter : s.counter = UInt8.ofNat (i + 1)
  off : s.off = min len (32 * i)
  okm : s.okm = (rfcBlocks hmac prk info i).take s.off ++ okm.drop s.off

variable {hmac} {prk : Digest} {info okm : Bytes} {len i : ℕ} {s : Expander}

/-- **One round** appends the next block. -/
theorem After.step (h : After hmac prk info okm len i s) (hoff : s.off < len) :
    After hmac prk info okm len (i + 1) (expandStep hmac prk info len s) := by
  have hi : s.off = 32 * i := by
    have := h.off
    omega
  have ht : (expandBlock hmac prk s.t s.prevLen info s.counter).toList =
      rfcT hmac prk info (i + 1) := by
    rw [expandBlock, h.prev, h.counter, rfcT]
  -- what the round copies: the block, or what is still wanted of it
  obtain ⟨take, htake⟩ : ∃ n, n = if len - s.off < 32 then len - s.off else 32 := ⟨_, rfl⟩
  have hout : emit s.okm s.off len (expandBlock hmac prk s.t s.prevLen info s.counter) =
      (s.off + take, s.okm.take s.off ++ (rfcT hmac prk info (i + 1)).take take ++
        s.okm.drop (s.off + take)) := by
    rw [emit, ← htake, ht]
  have hnew : s.off + take = min len (32 * (i + 1)) := by
    split at htake <;> omega
  have hblocks : (rfcBlocks hmac prk info i).take s.off = rfcBlocks hmac prk info i :=
    List.take_of_length_le (by rw [length_rfcBlocks]; omega)
  have hlen : (rfcBlocks hmac prk info i).length = s.off := by
    rw [length_rfcBlocks, hi]
  refine ⟨?_, ?_, ?_, ?_⟩
  · simp only [expandStep, ht]
    exact List.take_of_length_le (Nat.le_of_eq (length_rfcT_succ hmac prk info i))
  · simp only [expandStep, h.counter]
    simp [UInt8.ofNat_add]
  · simp only [expandStep, hout]
    exact hnew
  · have hrest : (rfcBlocks hmac prk info i ++ okm.drop s.off).drop (s.off + take) =
        okm.drop (s.off + take) := by
      rw [List.drop_append, List.drop_eq_nil_of_le (by omega), List.nil_append, List.drop_drop, hlen,
        Nat.add_sub_cancel_left]
    simp only [expandStep, hout]
    rw [h.okm, hblocks, hrest, List.take_append_of_le_length (Nat.le_of_eq hlen.symm), hblocks,
      rfcBlocks_succ, List.take_append, List.take_of_length_le (show _ ≤ s.off + take by omega), hlen,
      Nat.add_sub_cancel_left]

/-- **The whole loop**, from any round on. -/
theorem After.expandLoop_okm (h : After hmac prk info okm len i s) :
    (expandLoop hmac prk info len s).okm = rfcExpand hmac prk info len ++ okm.drop len := by
  induction hn : len - s.off using Nat.strongRecOn generalizing i s with
  | _ n ih =>
    rw [expandLoop]
    by_cases hoff : s.off < len
    · have hnext := off_lt_expandStep hmac prk info hoff
      rw [if_pos hoff]
      exact ih _ (by omega) (h.step hoff) rfl
    · have hend : s.off = len := by
        have := h.off
        omega
      have hcover : len ≤ 32 * i := by
        have := h.off
        omega
      rw [if_neg hoff, h.okm, hend, take_rfcBlocks hmac prk info hcover]

/-- **HKDF-Expand** is that of the RFC, and leaves the rest of the buffer alone. -/
theorem expand_eq (hinfo : info.length ≤ 256) (hlen : len ≤ 255 * 32) :
    expand hmac prk info okm len = (true, rfcExpand hmac prk info len ++ okm.drop len) := by
  have hok : expandOk info.length len = true := by
    unfold expandOk
    rw [decide_eq_true hlen, decide_eq_true hinfo]
    rfl
  have hstart : After hmac prk info okm len 0
      { t := Vector.replicate 32 0, off := 0, prevLen := 0, counter := 1, okm := okm } :=
    ⟨rfl, rfl, by simp, by simp⟩
  rw [expand, hok]
  simp only [Bool.not_true, Bool.false_eq_true, if_false]
  rw [hstart.expandLoop_okm]

/-! ## The label -/

theorem length_buildLabel (label ctx : Bytes) (len : ℕ) :
    (buildLabel label ctx len).length = 10 + label.length + ctx.length := by
  have hpre : ("tls13 ".toUTF8.toList : Bytes).length = 6 := by
    rw [show ("tls13 ".toUTF8.toList : Bytes) = ascii "tls13 " from rfl, ascii_eq]
    decide
  simp only [buildLabel, List.length_append, List.length_cons, List.length_nil, hpre]
  omega

/-- **The info string is injective** in the length, the label and the context. -/
theorem buildLabel_injective {label label' ctx ctx' : Bytes} {len len' : ℕ}
    (hlabel : label.length ≤ 64) (hlabel' : label'.length ≤ 64) (hlen : len < 2 ^ 16)
    (hlen' : len' < 2 ^ 16)
    (h : buildLabel label ctx len = buildLabel label' ctx' len') :
    len = len' ∧ label = label' ∧ ctx = ctx' := by
  simp only [buildLabel, List.append_assoc, List.cons_append, List.nil_append, List.cons.injEq,
    List.append_cancel_left_eq] at h
  obtain ⟨hhigh, hlow, hsize, hrest⟩ := h
  have hsizes : label.length = label'.length := by
    have := congrArg UInt8.toNat hsize
    simp only [UInt8.toNat_ofNat'] at this
    omega
  obtain ⟨rfl, htail⟩ := List.append_inj hrest hsizes
  obtain ⟨-, rfl⟩ := List.cons.inj htail
  refine ⟨?_, rfl, rfl⟩
  have hh := congrArg UInt8.toNat hhigh
  have hl := congrArg UInt8.toNat hlow
  simp only [UInt8.toNat_ofNat', Nat.shiftRight_eq_div_pow] at hh hl
  omega

theorem expandLabel_eq {label ctx : Bytes} (hlabel : label.length ≤ 64) (hctx : ctx.length ≤ 64)
    (hlen : len ≤ 255 * 32) :
    expandLabel hmac prk label ctx okm len =
      (true, rfcExpand hmac prk (buildLabel label ctx len) len ++ okm.drop len) := by
  rw [expandLabel, if_neg (by omega)]
  exact expand_eq (by rw [length_buildLabel]; omega) hlen

variable (hmac)

/-- **HKDF-Expand is exact** over every MAC: the output is the RFC's, shorter outputs are prefixes of
longer ones, and the TLS wrapper gives different requests different info strings. -/
theorem hkdf_expand_exact :
    (∀ prk info okm len, info.length ≤ 256 → len ≤ 8160 → len ≤ okm.length →
      expand hmac prk info okm len = (true, rfcExpand hmac prk info len ++ okm.drop len)) ∧
    (∀ prk info okm okm' len len', info.length ≤ 256 → len ≤ len' → len' ≤ 8160 →
      okm.length = len → okm'.length = len' →
      (expand hmac prk info okm len).2 <+: (expand hmac prk info okm' len').2) ∧
    (∀ label ctx okm len, label.length ≤ 64 → ctx.length ≤ 64 → len ≤ 8160 → len ≤ okm.length →
      ∀ prk, expandLabel hmac prk label ctx okm len =
        (true, rfcExpand hmac prk (buildLabel label ctx len) len ++ okm.drop len)) ∧
    ∀ label ctx len label' ctx' len', label.length ≤ 64 → ctx.length ≤ 64 → len ≤ 8160 →
      label'.length ≤ 64 → ctx'.length ≤ 64 → len' ≤ 8160 →
      buildLabel label ctx len = buildLabel label' ctx' len' →
      len = len' ∧ label = label' ∧ ctx = ctx' := by
  refine ⟨?_, ?_, ?_, ?_⟩
  · intro prk info okm len hinfo hlen _
    exact expand_eq hinfo hlen
  · rintro prk info okm okm' _ _ hinfo hle hlen' rfl rfl
    rw [expand_eq hinfo (by omega), expand_eq hinfo (by omega)]
    simpa using rfcExpand_prefix hmac prk info hle
  · intro label ctx okm len hlabel hctx hlen _ prk
    exact expandLabel_eq hlabel hctx hlen
  · intro label ctx len label' ctx' len' hlabel _ hlen hlabel' _ hlen' h
    exact buildLabel_injective hlabel hlabel' (by omega) (by omega) h

/-! ## Over HMAC-SHA-256 -/

theorem expandBlocks_eq (prk : Digest) (info : Bytes) (i n : ℕ) :
    rfcBlocks hmacSha256 prk info i ++
        expandBlocks prk info n (rfcT hmacSha256 prk info i) (UInt8.ofNat (i + 1)) =
      rfcBlocks hmacSha256 prk info (i + n) := by
  induction n generalizing i with
  | zero => simp [expandBlocks]
  | succ n ih =>
    have ht : (Crypto.expandBlock prk (rfcT hmacSha256 prk info i) info
        (UInt8.ofNat (i + 1))).toList = rfcT hmacSha256 prk info (i + 1) := rfl
    have hcounter : UInt8.ofNat (i + 1) + 1 = UInt8.ofNat (i + 1 + 1) := by
      simp [UInt8.ofNat_add]
    rw [expandBlocks]
    simp only [ht, hcounter]
    rw [← List.append_assoc, ← rfcBlocks_succ, ih, Nat.add_right_comm, Nat.add_assoc]

theorem expand_hmacSha256 {prk : Digest} {info okm : Bytes} {len : ℕ} (hroom : okm.length = len) :
    expand hmacSha256 prk info okm len =
      match hkdfExpand prk info len with
      | some out => (true, out.toList)
      | none => (false, okm) := by
  by_cases hok : len ≤ 255 * 32 ∧ info.length ≤ 256
  · have hblocks : expandBlocks prk info ((len + 31) / 32) [] 1 =
        rfcBlocks hmacSha256 prk info ((len + 31) / 32) := by
      have hall := expandBlocks_eq prk info 0 ((len + 31) / 32)
      rw [Nat.zero_add ((len + 31) / 32)] at hall
      exact hall
    rw [expand_eq hok.2 hok.1, hkdfExpand, if_pos hok]
    simp only [hblocks]
    rw [Bytes.toList_fit (by rw [length_rfcBlocks]; omega), List.drop_of_length_le
      (Nat.le_of_eq hroom), List.append_nil, rfcExpand]
  · have hrefused : expandOk info.length len = false := by
      unfold expandOk
      simpa [Bool.and_eq_false_iff, or_iff_not_imp_left, not_and] using hok
    rw [expand, hrefused, hkdfExpand, if_neg hok]
    rfl

end Hkdf

end Crypto

end QuicVibe
