import QuicVibe.Common.PrefixCode
import QuicVibe.Http3.Qpack
/-!
# Huffman strings

The string code of RFC 7541, Appendix B, as its table gives it. `quic_qpack_huffman_decode`
(`huffman.c`) holds its canonical form and reads a string bit by bit; its context mirrors the
bit-by-bit decoder of a prefix code until it stops with an error.
-/

namespace QuicVibe

namespace Http3

namespace Huffman

open PrefixCode

/-! ## The code of the RFC -/

/-- The table of RFC 7541, Appendix B, by symbol: the code and its length in bits. -/
def rfcTable : List (ℕ × ℕ) :=
  [(0x1ff8, 13), (0x7fffd8, 23), (0xfffffe2, 28), (0xfffffe3, 28), (0xfffffe4, 28),
   (0xfffffe5, 28), (0xfffffe6, 28), (0xfffffe7, 28), (0xfffffe8, 28), (0xffffea, 24),
   (0x3ffffffc, 30), (0xfffffe9, 28), (0xfffffea, 28), (0x3ffffffd, 30), (0xfffffeb, 28),
   (0xfffffec, 28), (0xfffffed, 28), (0xfffffee, 28), (0xfffffef, 28), (0xffffff0, 28),
   (0xffffff1, 28), (0xffffff2, 28), (0x3ffffffe, 30), (0xffffff3, 28), (0xffffff4, 28),
   (0xffffff5, 28), (0xffffff6, 28), (0xffffff7, 28), (0xffffff8, 28), (0xffffff9, 28),
   (0xffffffa, 28), (0xffffffb, 28), (0x14, 6), (0x3f8, 10), (0x3f9, 10), (0xffa, 12),
   (0x1ff9, 13), (0x15, 6), (0xf8, 8), (0x7fa, 11), (0x3fa, 10), (0x3fb, 10), (0xf9, 8),
   (0x7fb, 11), (0xfa, 8), (0x16, 6), (0x17, 6), (0x18, 6), (0x0, 5), (0x1, 5), (0x2, 5),
   (0x19, 6), (0x1a, 6), (0x1b, 6), (0x1c, 6), (0x1d, 6), (0x1e, 6), (0x1f, 6), (0x5c, 7),
   (0xfb, 8), (0x7ffc, 15), (0x20, 6), (0xffb, 12), (0x3fc, 10), (0x1ffa, 13), (0x21, 6),
   (0x5d, 7), (0x5e, 7), (0x5f, 7), (0x60, 7), (0x61, 7), (0x62, 7), (0x63, 7), (0x64, 7),
   (0x65, 7), (0x66, 7), (0x67, 7), (0x68, 7), (0x69, 7), (0x6a, 7), (0x6b, 7), (0x6c, 7),
   (0x6d, 7), (0x6e, 7), (0x6f, 7), (0x70, 7), (0x71, 7), (0x72, 7), (0xfc, 8), (0x73, 7),
   (0xfd, 8), (0x1ffb, 13), (0x7fff0, 19), (0x1ffc, 13), (0x3ffc, 14), (0x22, 6), (0x7ffd, 15),
   (0x3, 5), (0x23, 6), (0x4, 5), (0x24, 6), (0x5, 5), (0x25, 6), (0x26, 6), (0x27, 6), (0x6, 5),
   (0x74, 7), (0x75, 7), (0x28, 6), (0x29, 6), (0x2a, 6), (0x7, 5), (0x2b, 6), (0x76, 7),
   (0x2c, 6), (0x8, 5), (0x9, 5), (0x2d, 6), (0x77, 7), (0x78, 7), (0x79, 7), (0x7a, 7), (0x7b, 7),
   (0x7ffe, 15), (0x7fc, 11), (0x3ffd, 14), (0x1ffd, 13), (0xffffffc, 28), (0xfffe6, 20),
   (0x3fffd2, 22), (0xfffe7, 20), (0xfffe8, 20), (0x3fffd3, 22), (0x3fffd4, 22), (0x3fffd5, 22),
   (0x7fffd9, 23), (0x3fffd6, 22), (0x7fffda, 23), (0x7fffdb, 23), (0x7fffdc, 23), (0x7fffdd, 23),
   (0x7fffde, 23), (0xffffeb, 24), (0x7fffdf, 23), (0xffffec, 24), (0xffffed, 24), (0x3fffd7, 22),
   (0x7fffe0, 23), (0xffffee, 24), (0x7fffe1, 23), (0x7fffe2, 23), (0x7fffe3, 23), (0x7fffe4, 23),
   (0x1fffdc, 21), (0x3fffd8, 22), (0x7fffe5, 23), (0x3fffd9, 22), (0x7fffe6, 23), (0x7fffe7, 23),
   (0xffffef, 24), (0x3fffda, 22), (0x1fffdd, 21), (0xfffe9, 20), (0x3fffdb, 22), (0x3fffdc, 22),
   (0x7fffe8, 23), (0x7fffe9, 23), (0x1fffde, 21), (0x7fffea, 23), (0x3fffdd, 22), (0x3fffde, 22),
   (0xfffff0, 24), (0x1fffdf, 21), (0x3fffdf, 22), (0x7fffeb, 23), (0x7fffec, 23), (0x1fffe0, 21),
   (0x1fffe1, 21), (0x3fffe0, 22), (0x1fffe2, 21), (0x7fffed, 23), (0x3fffe1, 22), (0x7fffee, 23),
   (0x7fffef, 23), (0xfffea, 20), (0x3fffe2, 22), (0x3fffe3, 22), (0x3fffe4, 22), (0x7ffff0, 23),
   (0x3fffe5, 22), (0x3fffe6, 22), (0x7ffff1, 23), (0x3ffffe0, 26), (0x3ffffe1, 26), (0xfffeb, 20),
   (0x7fff1, 19), (0x3fffe7, 22), (0x7ffff2, 23), (0x3fffe8, 22), (0x1ffffec, 25), (0x3ffffe2, 26),
   (0x3ffffe3, 26), (0x3ffffe4, 26), (0x7ffffde, 27), (0x7ffffdf, 27), (0x3ffffe5, 26),
   (0xfffff1, 24), (0x1ffffed, 25), (0x7fff2, 19), (0x1fffe3, 21), (0x3ffffe6, 26),
   (0x7ffffe0, 27), (0x7ffffe1, 27), (0x3ffffe7, 26), (0x7ffffe2, 27), (0xfffff2, 24),
   (0x1fffe4, 21), (0x1fffe5, 21), (0x3ffffe8, 26), (0x3ffffe9, 26), (0xffffffd, 28),
   (0x7ffffe3, 27), (0x7ffffe4, 27), (0x7ffffe5, 27), (0xfffec, 20), (0xfffff3, 24), (0xfffed, 20),
   (0x1fffe6, 21), (0x3fffe9, 22), (0x1fffe7, 21), (0x1fffe8, 21), (0x7ffff3, 23), (0x3fffea, 22),
   (0x3fffeb, 22), (0x1ffffee, 25), (0x1ffffef, 25), (0xfffff4, 24), (0xfffff5, 24),
   (0x3ffffea, 26), (0x7ffff4, 23), (0x3ffffeb, 26), (0x7ffffe6, 27), (0x3ffffec, 26),
   (0x3ffffed, 26), (0x7ffffe7, 27), (0x7ffffe8, 27), (0x7ffffe9, 27), (0x7ffffea, 27),
   (0x7ffffeb, 27), (0xffffffe, 28), (0x7ffffec, 27), (0x7ffffed, 27), (0x7ffffee, 27),
   (0x7ffffef, 27), (0x7fffff0, 27), (0x3ffffee, 26), (0x3fffffff, 30)]

/-- An octet, or the end of string. -/
abbrev Symbol := Fin 257

def eos : Symbol := 256

/-- The row of a symbol. -/
def entry (s : Symbol) : ℕ × ℕ := rfcTable.getD s (0, 0)

/-- The word of a symbol. -/
def codeword (s : Symbol) : List Bool := word (entry s).1 (entry s).2

/-- The symbols of a string of octets. -/
def symbols (out : Bytes) : List Symbol := out.map fun b => ⟨b.toNat, by have := b.toNat_lt; omega⟩

/-- The bits of an octet, most significant first. -/
def octetBits (b : UInt8) : List Bool := [7, 6, 5, 4, 3, 2, 1, 0].map b.toNat.testBit

/-- The bits of a string of octets. -/
def bits (src : Bytes) : List Bool := src.flatMap octetBits

@[simp] theorem length_symbols (out : Bytes) : (symbols out).length = out.length := by
  simp [symbols]

theorem symbols_concat (out : Bytes) (s : Symbol) (h : s.val ≤ 255) :
    symbols (out ++ [UInt8.ofNat s.val]) = symbols out ++ [s] := by
  have hs : (UInt8.ofNat s.val).toNat = s.val := by
    rw [UInt8.toNat_ofNat']
    omega
  simp [symbols, hs]

theorem symbols_injective : Function.Injective symbols := by
  refine List.map_injective_iff.mpr fun a b h => ?_
  exact UInt8.toNat_inj.mp (Fin.mk.inj_iff.mp h)

theorem eos_notMem_symbols (out : Bytes) : eos ∉ symbols out := by
  intro h
  obtain ⟨b, -, hb⟩ := List.mem_map.mp h
  have hval : b.toNat = 256 := congrArg Fin.val hb
  have := b.toNat_lt
  omega

/-! ## What the table is like -/

theorem length_rfcTable : rfcTable.length = 257 := by decide +kernel

theorem entry_mem (s : Symbol) : entry s ∈ rfcTable := by
  have h : s.val < rfcTable.length := by rw [length_rfcTable]; exact s.isLt
  rw [entry, List.getD_eq_getElem?_getD, List.getElem?_eq_getElem h, Option.getD_some]
  exact List.getElem_mem h

theorem rfcTable_rows : ∀ e ∈ rfcTable,
    0 < e.2 ∧ e.2 ≤ huffMaxlen ∧ e.1 < 2 ^ e.2 ∧ (e.1 = 2 ^ e.2 - 1 → huffMaxlen ≤ e.2) := by
  decide +kernel

theorem entry_lt (s : Symbol) : (entry s).1 < 2 ^ (entry s).2 :=
  (rfcTable_rows _ (entry_mem s)).2.2.1

@[simp] theorem length_codeword (s : Symbol) : (codeword s).length = (entry s).2 :=
  length_word _ _

theorem codeword_ne_nil (s : Symbol) : codeword s ≠ [] := by
  have hpos := (rfcTable_rows _ (entry_mem s)).1
  rw [← length_codeword] at hpos
  exact List.ne_nil_of_length_pos hpos

theorem codeword_eos : codeword eos = List.replicate 30 true := by decide +kernel

theorem unfinished_ones {k : ℕ} (hk : k < huffMaxlen) : Unfinished codeword (List.replicate k true) := by
  intro s h
  have hones : codeword s = List.replicate (codeword s).length true :=
    List.eq_replicate_iff.mpr ⟨rfl, fun b hb => List.eq_of_mem_replicate (h.mem hb)⟩
  have hval : (entry s).1 = 2 ^ (entry s).2 - 1 := by
    rw [← value_word (entry_lt s)]
    exact (value_eq_ones_iff _).mpr hones |>.trans (by rw [length_codeword])
  have hlong := (rfcTable_rows _ (entry_mem s)).2.2.2 hval
  have hle := h.length_le
  rw [length_codeword, List.length_replicate] at hle
  omega

/-! ## The canonical tables -/

/-- The symbol of a code that is ready (`emit_code`). -/
def symbolAt (acc nbits : ℕ) : ℕ :=
  hsym.getD (hidx.getD nbits 0 + (acc - hfirst.getD nbits 0)) 0

/-- The number `acc` is one of the codes of `n` bits (`code_ready`). -/
def Ready (acc n : ℕ) : Prop :=
  hfirst.getD n 0 ≤ acc ∧ acc - hfirst.getD n 0 < hcnt.getD n 0

instance (acc n : ℕ) : Decidable (Ready acc n) := inferInstanceAs (Decidable (_ ∧ _))

theorem ready_rows : ∀ n < huffMaxlen + 1, ∀ off < hcnt.getD n 0,
    rfcTable[hsym.getD (hidx.getD n 0 + off) 0]? = some (hfirst.getD n 0 + off, n) := by
  decide +kernel

theorem rows_ready : ∀ r ∈ rfcTable.zipIdx,
    Ready r.1.1 r.1.2 ∧ symbolAt r.1.1 r.1.2 = r.2 := by
  decide +kernel

theorem first_above : ∀ n < huffMaxlen + 1, ∀ m < n, hcnt.getD n 0 ≠ 0 →
    hfirst.getD m 0 + hcnt.getD m 0 ≤ hfirst.getD n 0 / 2 ^ (n - m) := by
  decide +kernel

/-- A code is ready exactly when it is a code of the RFC, and then `emit_code` finds its symbol. -/
theorem ready_iff (acc n : ℕ) (hn : n ≤ huffMaxlen) (s : Symbol) :
    (Ready acc n ∧ symbolAt acc n = s) ↔ entry s = (acc, n) := by
  constructor
  · rintro ⟨⟨hle, hlt⟩, hsym⟩
    have hrow := ready_rows n (Nat.lt_succ_of_le hn) _ hlt
    rw [Nat.add_sub_cancel' hle] at hrow
    rw [symbolAt] at hsym
    rw [entry, List.getD_eq_getElem?_getD, ← hsym, hrow, Option.getD_some]
  · intro h
    have hs : s.val < rfcTable.length := by rw [length_rfcTable]; exact s.isLt
    have hmem : (entry s, s.val) ∈ rfcTable.zipIdx := by
      rw [List.mem_zipIdx_iff_getElem?, entry, List.getD_eq_getElem?_getD,
        List.getElem?_eq_getElem hs, Option.getD_some]
    have hready := rows_ready _ hmem
    rwa [h] at hready

/-- **The code is prefix-free.** Two words of one length are told apart by their symbol; a longer
word, cut to the length of a shorter one, is above all words of that length. -/
theorem codeword_prefixFree : PrefixFree codeword := by
  intro s t h
  obtain ⟨hle, hdiv⟩ := div_of_word_prefix (entry_lt s) (entry_lt t) h
  have hn (u : Symbol) : (entry u).2 ≤ huffMaxlen := (rfcTable_rows _ (entry_mem u)).2.1
  obtain ⟨⟨hsle, hslt⟩, hs⟩ := (ready_iff (entry s).1 _ (hn s) s).mpr rfl
  obtain ⟨⟨htle, htlt⟩, ht⟩ := (ready_iff (entry t).1 _ (hn t) t).mpr rfl
  rcases Nat.eq_or_lt_of_le hle with heq | hlt
  · rw [heq, Nat.sub_self, Nat.pow_zero, Nat.div_one] at hdiv
    rw [heq, ← hdiv, ht] at hs
    exact Fin.ext hs.symm
  · have habove := first_above _ (Nat.lt_succ_of_le (hn t)) _ hlt (by omega)
    have hmono : hfirst.getD (entry t).2 0 / 2 ^ ((entry t).2 - (entry s).2) ≤ (entry s).1 :=
      hdiv ▸ Nat.div_le_div_right htle
    omega

/-! ## The decoder mirrors the decoder of the code -/

/-- The symbol whose word this is, by the canonical tables. -/
def find (w : List Bool) : Option Symbol :=
  if w.length ≤ huffMaxlen ∧ Ready (value w) w.length then
    some (Fin.ofNat 257 (symbolAt (value w) w.length))
  else none

theorem symbolAt_lt (acc n : ℕ) : symbolAt acc n < 257 := by
  have hall : ∀ x ∈ hsym, x < 257 := by decide +kernel
  rw [symbolAt, List.getD_eq_getElem?_getD]
  rcases h : hsym[hidx.getD n 0 + (acc - hfirst.getD n 0)]? with _ | x
  · decide
  · exact hall x (List.mem_of_getElem? h)

theorem find_eq_some_iff (w : List Bool) (s : Symbol) :
    find w = some s ↔ w.length ≤ huffMaxlen ∧ Ready (value w) w.length ∧
      symbolAt (value w) w.length = s := by
  have hval : Fin.ofNat 257 (symbolAt (value w) w.length) = s ↔
      symbolAt (value w) w.length = s := by
    rw [Fin.ext_iff, Fin.val_ofNat, Nat.mod_eq_of_lt (symbolAt_lt _ _)]
  rw [find]
  split
  next h =>
    rw [Option.some.injEq, hval]
    exact ⟨fun hs => ⟨h.1, h.2, hs⟩, fun hs => hs.2.2⟩
  next h => exact iff_of_false nofun fun hs => h ⟨hs.1, hs.2.1⟩

theorem finds_find : Finds codeword find := by
  intro w s
  rw [find_eq_some_iff, codeword, eq_word_iff (entry_lt s)]
  constructor
  · rintro ⟨hlen, hready⟩
    have hrow := (ready_iff _ _ hlen s).mp hready
    exact ⟨congrArg Prod.fst hrow.symm, congrArg Prod.snd hrow.symm⟩
  · rintro ⟨hval, hlen⟩
    have hmax : w.length ≤ huffMaxlen := hlen ▸ (rfcTable_rows _ (entry_mem s)).2.1
    exact ⟨hmax, (ready_iff _ _ hmax s).mpr (Prod.ext hval.symm hlen.symm)⟩

variable {w : List Bool} {src : Bytes} {xs : List Symbol}

theorem find_of_long (h : huffMaxlen < w.length) : find w = none := by
  rw [find, if_neg fun hw => by omega]

theorem codeReady_iff {c : Hctx} (hacc : c.acc = value w) (hn : c.nbits = w.length)
    (hlen : w.length ≤ huffMaxlen) : c.codeReady = true ↔ (find w).isSome := by
  have hready : c.codeReady = true ↔ Ready (value w) w.length := by
    rw [Hctx.codeReady, Ready, hacc, hn]
    simp only [Bool.and_eq_true, bne_iff_ne, decide_eq_true_eq]
    omega
  rw [hready, find]
  split
  next h => simp [h.2]
  next h => simpa [hlen] using h

/-- The context of a decoder without an error: what it wrote, and the bits of the word it is in. -/
structure Tracks (dcap : ℕ) (c : Hctx) (s : List Symbol × List Bool) : Prop where
  ok : c.ok = true
  written : s.1 = symbols c.out
  acc : c.acc = value s.2
  nbits : c.nbits = s.2.length
  fits : c.out.length ≤ dcap
  short : s.2.length ≤ huffMaxlen

/-- Why a decoder stops: it read EOS, a symbol too many for the output, or more bits than any word
has. -/
def Broken (dcap : ℕ) (s : List Symbol × List Bool) : Prop :=
  eos ∈ s.1 ∨ dcap < s.1.length ∨ huffMaxlen < s.2.length

/-- A decoder with an error stopped for a reason. -/
def Mirrors (dcap : ℕ) (c : Hctx) (s : List Symbol × List Bool) : Prop :=
  Tracks dcap c s ∨ c.ok = false ∧ Broken dcap s

variable {dcap : ℕ} {c : Hctx} {s : List Symbol × List Bool}

theorem Broken.feed (h : Broken dcap s) (b : Bool) : Broken dcap (feed find s b) := by
  rcases hf : find (s.2 ++ [b]) with _ | i
  · rw [feed_of_none hf]
    rcases h with h | h | h
    · exact .inl h
    · exact .inr (.inl h)
    · exact .inr (.inr (by rw [List.length_append]; omega))
  · rw [feed_of_some hf]
    rcases h with h | h | h
    · exact .inl (List.mem_append_left _ h)
    · exact .inr (.inl (by rw [List.length_append]; omega))
    · rw [find_of_long (by rw [List.length_append]; omega)] at hf
      cases hf

/-- One bit, for a context without an error. -/
def stepOk (dcap : ℕ) (c : Hctx) (b : Bool) : Hctx := if c.ok then c.stepBit dcap b.toNat else c

theorem Tracks.emitCode {s : List Symbol} {i : Symbol} (h : Tracks dcap c (s, w))
    (hi : find w = some i) : Mirrors dcap (c.emitCode dcap) (s ++ [i], []) := by
  have hsym : symbolAt c.acc c.nbits = i := by
    rw [h.acc, h.nbits]
    exact ((find_eq_some_iff w i).mp hi).2.2
  rw [symbolAt] at hsym
  rw [Hctx.emitCode]
  simp only [hsym]
  split
  next hbad =>
    refine .inr ⟨rfl, ?_⟩
    rcases hbad with heos | hfull
    · have : i = eos := Fin.ext (by have := i.isLt; simp only [eos]; omega)
      exact .inl (by simp [this])
    · refine .inr (.inl ?_)
      have hs : s.length = c.out.length := by
        rw [show s = symbols c.out from h.written, length_symbols]
      simp only [List.length_append, List.length_singleton]
      omega
  next hgood =>
    exact .inl { ok := h.ok
                 written := by rw [symbols_concat _ _ (by omega), ← h.written]
                 acc := rfl
                 nbits := rfl
                 fits := by rw [List.length_append, List.length_singleton]; omega
                 short := Nat.zero_le _ }

/-- **One bit.** -/
theorem Mirrors.step (h : Mirrors dcap c s) (b : Bool) :
    Mirrors dcap (stepOk dcap c b) (feed find s b) := by
  rcases h with h | ⟨hok, hbroken⟩
  · rw [stepOk, if_pos h.ok, Hctx.stepBit]
    have hacc : c.acc * 2 + b.toNat = value (s.2 ++ [b]) := by rw [value_concat, h.acc]
    have hn : c.nbits + 1 = (s.2 ++ [b]).length := by rw [List.length_append, h.nbits]; rfl
    simp only [hacc, hn]
    by_cases hlong : (s.2 ++ [b]).length > huffMaxlen
    · rw [if_pos hlong, feed_of_none (find_of_long hlong)]
      exact .inr ⟨rfl, .inr (.inr hlong)⟩
    · rw [if_neg hlong]
      have hread : Tracks dcap { c with acc := value (s.2 ++ [b]), nbits := (s.2 ++ [b]).length }
          (s.1, s.2 ++ [b]) :=
        { ok := h.ok, written := h.written, acc := rfl, nbits := rfl, fits := h.fits,
          short := Nat.le_of_not_gt hlong }
      have hready := codeReady_iff hread.acc hread.nbits hread.short
      rcases hf : find (s.2 ++ [b]) with _ | i
      · rw [hf] at hready
        rw [feed_of_none hf, if_neg (by simpa using hready)]
        exact .inl hread
      · rw [hf] at hready
        rw [feed_of_some hf, if_pos (by simpa using hready)]
        exact hread.emitCode hf
  · rw [stepOk, if_neg (by simp [hok])]
    exact .inr ⟨hok, hbroken.feed b⟩

/-- **All bits.** -/
theorem Mirrors.foldl (h : Mirrors dcap c s) (bs : List Bool) :
    Mirrors dcap (bs.foldl (stepOk dcap) c) (bs.foldl (PrefixCode.feed find) s) := by
  induction bs generalizing c s with
  | nil => exact h
  | cons b bs ih => exact ih (h.step b)

theorem stepOctet_eq (dcap : ℕ) (c : Hctx) (byte : UInt8) :
    c.stepOctet dcap byte = (octetBits byte).foldl (stepOk dcap) c := by
  rw [octetBits, List.foldl_map, Hctx.stepOctet]
  refine congrArg (fun f => List.foldl f c _) ?_
  funext c i
  rw [stepOk, Nat.toNat_testBit, Nat.and_one_is_mod, Nat.shiftRight_eq_div_pow]

theorem foldl_stepOctet (dcap : ℕ) (c : Hctx) (src : Bytes) :
    src.foldl (Hctx.stepOctet dcap) c = (bits src).foldl (stepOk dcap) c := by
  rw [bits, List.foldl_flatMap]
  exact congrArg (fun f => List.foldl f c src) (funext₂ fun c b => stepOctet_eq dcap c b)

/-! ## What is accepted -/

theorem Tracks.padValid_iff (h : Tracks dcap c s) :
    c.padValid = true ↔ ∃ k < 8, s.2 = List.replicate k true := by
  have hones : (c.nbits = 0 ∨ c.acc = 2 ^ c.nbits - 1) ↔ s.2 = List.replicate s.2.length true := by
    rw [h.acc, h.nbits, value_eq_ones_iff]
    refine or_iff_right_of_imp fun h0 => ?_
    rw [List.length_eq_zero_iff.mp h0]
    rfl
  simp only [Hctx.padValid, Bool.and_eq_true, Bool.or_eq_true, decide_eq_true_eq, beq_iff_eq, hones]
  rw [h.nbits]
  constructor
  · exact fun hs => ⟨_, hs⟩
  · rintro ⟨k, hk, hs⟩
    rw [hs, List.length_replicate]
    exact ⟨hk, rfl⟩

/-- **The decoder.** It accepts words of octets that fit the output with fewer than eight ones
behind them. -/
theorem huffmanDecode_eq_some_iff (src : Bytes) (dcap : ℕ) (out : Bytes) :
    huffmanDecode src dcap = some out ↔ out.length ≤ dcap ∧
      ∃ k < 8, bits src = encode codeword (symbols out) ++ List.replicate k true := by
  have hstart : Mirrors dcap { acc := 0, nbits := 0, out := [], ok := true } ([], []) :=
    .inl { ok := rfl, written := rfl, acc := rfl, nbits := rfl, fits := Nat.zero_le _,
           short := Nat.zero_le _ }
  have hend := hstart.foldl (bits src)
  have hparse := foldl_feed_iff codeword_prefixFree finds_find codeword_ne_nil (bits src)
  rw [huffmanDecode, foldl_stepOctet]
  generalize (bits src).foldl (stepOk dcap) _ = c at hend ⊢
  generalize (bits src).foldl (feed find) ([], []) = s at hend hparse
  simp only [Option.ite_none_right_eq_some, Bool.and_eq_true, Option.some.injEq]
  constructor
  · rintro ⟨⟨hok, hpad⟩, rfl⟩
    have htracks : Tracks dcap c s := hend.resolve_right fun h => by simp [hok] at h
    obtain ⟨k, hk, hs⟩ := htracks.padValid_iff.mp hpad
    refine ⟨htracks.fits, k, hk, ?_⟩
    rw [← htracks.written, ← hs]
    exact ((hparse _ _).mp rfl).1
  · rintro ⟨hfits, k, hk, hbits⟩
    obtain rfl := (hparse _ _).mpr ⟨hbits, unfinished_ones (by rw [huffMaxlen]; omega)⟩
    have hbroken : ¬ Broken dcap (symbols out, List.replicate k true) := by
      rintro (hb | hb | hb)
      · exact eos_notMem_symbols _ hb
      · rw [length_symbols] at hb; omega
      · rw [List.length_replicate, huffMaxlen] at hb; omega
    have htracks := hend.resolve_right fun h => hbroken h.2
    exact ⟨⟨htracks.ok, htracks.padValid_iff.mpr ⟨k, hk, rfl⟩⟩,
      (symbols_injective htracks.written).symm⟩

theorem replicate_true_eq (j r : ℕ) : List.replicate (30 * j + r) true =
    encode codeword (List.replicate j eos) ++ List.replicate r true := by
  induction j with
  | zero => simp
  | succ j ih =>
    rw [List.replicate_succ, encode_cons, codeword_eos, List.append_assoc, ← ih,
      List.replicate_append_replicate]
    congr 1
    omega

theorem split_of_huffmanDecode {out : Bytes} (h : huffmanDecode src dcap = some out)
    {p : List Bool} (hp : Unfinished codeword p) (hbits : bits src = encode codeword xs ++ p) :
    xs = symbols out ∧ ∃ k < 8, p = List.replicate k true := by
  obtain ⟨-, k, hk, hout⟩ := (huffmanDecode_eq_some_iff src dcap out).mp h
  have hones : Unfinished codeword (List.replicate k true) :=
    unfinished_ones (by rw [huffMaxlen]; omega)
  obtain ⟨hxs, hpk⟩ := encode_append_inj codeword_prefixFree hp hones (hbits.symm.trans hout)
  exact ⟨hxs, k, hk, hpk⟩

theorem huffmanDecode_eq_none_of_rest {p : List Bool} (hp : Unfinished codeword p)
    (hbits : bits src = encode codeword xs ++ p) (hbad : eos ∈ xs ∨ 8 ≤ p.length ∨ false ∈ p) :
    huffmanDecode src dcap = none := by
  refine Option.eq_none_iff_forall_ne_some.mpr fun out h => ?_
  obtain ⟨rfl, k, hk, rfl⟩ := split_of_huffmanDecode h hp hbits
  rcases hbad with hb | hb | hb
  · exact eos_notMem_symbols out hb
  · rw [List.length_replicate] at hb
    omega
  · exact Bool.noConfusion (List.eq_of_mem_replicate hb)

theorem huffmanDecode_eq_none_of_ones {k : ℕ} (hk : 8 ≤ k)
    (hbits : bits src = encode codeword xs ++ List.replicate k true) :
    huffmanDecode src dcap = none := by
  -- thirty ones are a word of EOS, so only the ones beyond these are a rest
  have hrest : Unfinished codeword (List.replicate (k % 30) true) :=
    unfinished_ones (Nat.mod_lt _ (by decide))
  rw [← Nat.div_add_mod k 30, replicate_true_eq, ← List.append_assoc, ← encode_append] at hbits
  refine huffmanDecode_eq_none_of_rest hrest hbits ?_
  rcases Nat.eq_zero_or_pos (k / 30) with h0 | hpos
  · refine .inr (.inl ?_)
    rw [List.length_replicate]
    omega
  · exact .inl (List.mem_append_right _ (List.mem_replicate.mpr ⟨by omega, rfl⟩))

/-- **Huffman strings are decoded as the RFC describes them.** The code is prefix-free, a string
splits in one way into words and a rest without one, and the decoder accepts exactly the words of
octets that fit with fewer than eight ones behind them. EOS, a longer rest and a rest with a zero
are rejected. -/
theorem huffman_decode_exact (src : Bytes) (dcap : ℕ) :
    PrefixFree codeword ∧
    (∀ out, huffmanDecode src dcap = some out ↔ out.length ≤ dcap ∧
      ∃ k < 8, bits src = encode codeword (symbols out) ++ List.replicate k true) ∧
    (∀ xs ys p q, Unfinished codeword p → Unfinished codeword q →
      bits src = encode codeword xs ++ p → bits src = encode codeword ys ++ q →
        xs = ys ∧ p = q) ∧
    (∀ xs p, Unfinished codeword p → bits src = encode codeword xs ++ p →
      eos ∈ xs ∨ 8 ≤ p.length ∨ false ∈ p → huffmanDecode src dcap = none) ∧
    (∀ xs k, 8 ≤ k → bits src = encode codeword xs ++ List.replicate k true →
      huffmanDecode src dcap = none) := by
  refine ⟨codeword_prefixFree, huffmanDecode_eq_some_iff src dcap, ?_, ?_, ?_⟩
  · intro xs ys p q hp hq hxs hys
    exact encode_append_inj codeword_prefixFree hp hq (hxs.symm.trans hys)
  · exact fun xs p hp hbits hbad => huffmanDecode_eq_none_of_rest hp hbits hbad
  · exact fun xs k hk hbits => huffmanDecode_eq_none_of_ones hk hbits

-- the RFC's own example: `no-cache`
example : huffmanDecode [0xa8, 0xeb, 0x10, 0x64, 0x9c, 0xbf] 8 =
    some [0x6e, 0x6f, 0x2d, 0x63, 0x61, 0x63, 0x68, 0x65] := by
  decide +kernel

end Huffman

end Http3

end QuicVibe
