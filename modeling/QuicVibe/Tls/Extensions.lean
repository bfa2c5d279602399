import QuicVibe.Common.Memory
import QuicVibe.Tls.Client
/-!
# Vectors and extensions of a hello

A hello is a sequence of length-prefixed vectors, the last of which is a block of extensions. Every
reader walks the block in its own loop (`sdrv.c`, `serverhello.c`, `ch_ext.c`); each walk is an
operation on the list of extensions the loop meets, `extViews`.
-/

namespace QuicVibe

namespace Tls

open Crypto Packet Keys

variable {b m : Mem} {p q n stop : ℕ}

/-! ## Numbers and vectors -/

/-- A vector with a `w`-byte length prefix. -/
def vec (w : ℕ) (v : Bytes) : Bytes := putBe w v.length ++ v

@[simp] theorem length_vec (w : ℕ) (v : Bytes) : (vec w v).length = w + v.length := by
  simp [vec]

theorem putBe_one (v : ℕ) : putBe 1 v = [UInt8.ofNat (v % 256)] := rfl

theorem putBe_two (v : ℕ) : putBe 2 v = [UInt8.ofNat (v / 256 % 256), UInt8.ofNat (v % 256)] := rfl

theorem be16At_lt (b : Mem) (p : ℕ) : be16At b p < 65536 := by
  have h₁ := (b p).toNat_lt
  have h₂ := (b (p + 1)).toNat_lt
  rw [be16At]
  omega

variable {v : ℕ} {exts : List (ℕ × Bytes)} {pub : Bytes32}

theorem be16At_of_holds (h : b.Holds p (putBe 2 v)) (hv : v < 65536) : be16At b p = v := by
  rw [putBe_two, Mem.Holds.cons_iff, Mem.Holds.cons_iff] at h
  rw [be16At, h.1, h.2.1, UInt8.toNat_ofNat', UInt8.toNat_ofNat']
  omega

theorem holds_be16At (b : Mem) (p : ℕ) : b.Holds p (putBe 2 (be16At b p)) := by
  have h₁ := (b p).toNat_lt
  have h₂ := (b (p + 1)).toNat_lt
  rw [putBe_two, Mem.Holds.cons_iff, Mem.Holds.cons_iff]
  refine ⟨?_, ?_, Mem.Holds.nil _ _⟩
  · rw [be16At,
      show ((b p).toNat * 256 + (b (p + 1)).toNat) / 256 % 256 = (b p).toNat by omega]
    exact UInt8.ofNat_toNat.symm
  · refine UInt8.toNat_inj.1 ?_
    rw [be16At, UInt8.toNat_ofNat']
    omega

theorem bytes32At_of_holds {v : Bytes32} (h : b.Holds p v.toList) : bytes32At b p = v := by
  refine Vector.ext fun i hi => ?_
  have hbyte := h i (by simpa using hi)
  simpa [bytes32At] using hbyte

variable {w fuel k : ℕ}

theorem prefixLen_of_holds (hw : w = 1 ∨ w = 2) (h : b.Holds p (putBe w v)) (hv : v < 256 ^ w) :
    prefixLen b p w = v := by
  rcases hw with rfl | rfl
  · rw [putBe_one, Mem.Holds.cons_iff] at h
    rw [prefixLen, if_pos rfl, h.1, UInt8.toNat_ofNat']
    omega
  · rw [prefixLen, if_neg (by omega), be16At_of_holds h (by omega)]

theorem holds_prefixLen (hw : w = 1 ∨ w = 2) (b : Mem) (p : ℕ) :
    b.Holds p (putBe w (prefixLen b p w)) ∧ prefixLen b p w < 256 ^ w := by
  rcases hw with rfl | rfl
  · have hlt := (b p).toNat_lt
    rw [prefixLen, if_pos rfl, putBe_one, Mem.Holds.cons_iff, Nat.mod_eq_of_lt hlt,
      UInt8.ofNat_toNat]
    exact ⟨⟨rfl, Mem.Holds.nil _ _⟩, by omega⟩
  · have hlt := be16At_lt b p
    rw [prefixLen, if_neg (by omega)]
    exact ⟨holds_be16At b p, by omega⟩

theorem skipVec_of_holds {v : Bytes} (hw : w = 1 ∨ w = 2) (h : b.Holds p (vec w v))
    (hv : v.length < 256 ^ w) (hp : p ≠ 0) (hn : p + w + v.length ≤ n) :
    skipVec b n p w = p + w + v.length := by
  have hfits : prefixFits p w n = true := by simp [prefixFits, hp]; omega
  simp only [skipVec, hfits, prefixLen_of_holds hw h.left hv, Bool.not_true, Bool.false_eq_true,
    if_false]
  exact if_pos hn

theorem skipVec_exact (hw : w = 1 ∨ w = 2) (h : skipVec b n p w ≠ 0) :
    p ≠ 0 ∧ ∃ v, b.Holds p (vec w v) ∧ v.length < 256 ^ w ∧ p + w + v.length ≤ n ∧
      skipVec b n p w = p + w + v.length := by
  obtain ⟨hlen, hlt⟩ := holds_prefixLen hw b p
  by_cases hfits : prefixFits p w n = true
  · have hp : p ≠ 0 := by
      simp only [prefixFits, Bool.and_eq_true, bne_iff_ne] at hfits
      exact hfits.1
    by_cases hn : p + w + prefixLen b p w ≤ n
    · have hv := b.length_bytes (p + w) (prefixLen b p w)
      have hholds : b.Holds p (vec w (b.bytes (p + w) (prefixLen b p w))) := by
        rw [vec, Mem.Holds.append_iff, hv, length_putBe]
        exact ⟨hlen, Mem.Holds.bytes b _ _⟩
      refine ⟨hp, _, hholds, by rw [hv]; exact hlt, by rw [hv]; exact hn, ?_⟩
      exact skipVec_of_holds hw hholds (by rw [hv]; exact hlt) hp (by rw [hv]; exact hn)
    · exact absurd (by simp [skipVec, hn]) h
  · exact absurd (by simp [skipVec, hfits]) h

/-! ## The extensions of a block -/

/-- An extension as a walk meets it: its type, and where its data lie. -/
structure ExtView where
  type : ℕ
  off : ℕ
  len : ℕ
  deriving DecidableEq, Repr

/-- The extensions met from `q` on, and whether the walk got to `stop` rather than to an extension
that overruns it. -/
def extViews (b : Mem) (stop : ℕ) : ℕ → ℕ → List ExtView × Bool
  | 0, _ => ([], false)
  | fuel + 1, q =>
    if q + 4 > stop then ([], true)
    else
      let dlen := be16At b (q + 2)
      if q + 4 + dlen > stop then ([], false)
      else
        let rest := extViews b stop fuel (q + 4 + dlen)
        ({ type := be16At b q, off := q + 4, len := dlen } :: rest.1, rest.2)

/-- An extension with its data. -/
def ExtView.ext (b : Mem) (v : ExtView) : ℕ × Bytes := (v.type, b.bytes v.off v.len)

/-- What the server driver takes from an extension. -/
def ExtView.keyShare (b : Mem) (v : ExtView) : Option Bytes32 :=
  if v.type = 51 then keyShareScan b v.off v.len else none

theorem chWalk_eq (b : Mem) (stop fuel q : ℕ) :
    chWalk b stop fuel q = (extViews b stop fuel q).1.findSome? (ExtView.keyShare b) := by
  induction fuel generalizing q with
  | zero => rfl
  | succ fuel ih =>
    simp only [chWalk, extViews]
    split
    · rfl
    · split
      · rfl
      · rw [List.findSome?_cons, ih, ExtView.keyShare]
        split <;> simp_all

/-- What the client driver takes from an extension, behind what it took before. -/
def ExtView.visit (b : Mem) (acc : Option Bytes32 × Option ℕ) (v : ExtView) :
    Option Bytes32 × Option ℕ :=
  (if v.type = 51 then keyShareParse b v.off v.len else acc.1,
    if v.type = 43 ∧ v.len = 2 then some (be16At b v.off) else acc.2)

/-- The client driver's walk: the last key share and version of a block it can walk to its end. -/
theorem shWalk_eq (b : Mem) (stop fuel q : ℕ) (pub : Option Bytes32) (version : Option ℕ) :
    shWalk b stop fuel q pub version =
      if (extViews b stop fuel q).2 then
        let out := (extViews b stop fuel q).1.foldl (ExtView.visit b) (pub, version)
        out.1.map fun pub => (pub, out.2)
      else none := by
  induction fuel generalizing q pub version with
  | zero => rfl
  | succ fuel ih =>
    simp only [shWalk, extViews]
    by_cases hend : q + 4 > stop
    · rw [if_neg (by omega), if_pos hend]
      rfl
    · rw [if_pos (by omega), if_neg hend]
      by_cases hover : q + 4 + be16At b (q + 2) > stop
      · rw [if_pos hover, if_pos hover]
        rfl
      · rw [if_neg hover, if_neg hover, ih]
        rfl

/-! ## Blocks of extensions -/

/-- A block. -/
def encodeExts (exts : List (ℕ × Bytes)) : Bytes := exts.flatMap fun e => extension e.1 e.2

@[simp] theorem encodeExts_nil : encodeExts [] = [] := rfl

@[simp] theorem encodeExts_cons (e : ℕ × Bytes) (exts : List (ℕ × Bytes)) :
    encodeExts (e :: exts) = extension e.1 e.2 ++ encodeExts exts := rfl

theorem extension_eq (type : ℕ) (data : Bytes) :
    extension type data = putBe 2 type ++ vec 2 data := rfl

@[simp] theorem length_extension (type : ℕ) (data : Bytes) :
    (extension type data).length = 4 + data.length := by
  simp [extension_eq]
  omega

/-- The type and the length of an extension fit their fields. -/
def ExtFits (e : ℕ × Bytes) : Prop := e.1 < 65536 ∧ e.2.length < 65536

/-- Where the extensions of a block lie. -/
def viewsFrom : ℕ → List (ℕ × Bytes) → List ExtView
  | _, [] => []
  | q, e :: exts =>
    { type := e.1, off := q + 4, len := e.2.length } :: viewsFrom (q + 4 + e.2.length) exts

/-- **A block is met as it was written**, with fewer than four bytes behind it. -/
theorem extViews_of_holds (hfits : ∀ e ∈ exts, ExtFits e) (h : b.Holds q (encodeExts exts))
    (hle : q + (encodeExts exts).length ≤ stop) (hlt : stop < q + (encodeExts exts).length + 4)
    (hfuel : exts.length < fuel) : extViews b stop fuel q = (viewsFrom q exts, true) := by
  induction exts generalizing q fuel with
  | nil =>
    obtain ⟨fuel, rfl⟩ := Nat.exists_eq_succ_of_ne_zero (Nat.ne_of_gt hfuel)
    rw [extViews, if_pos (by simpa using hlt)]
    rfl
  | cons e exts ih =>
    obtain ⟨fuel, rfl⟩ := Nat.exists_eq_succ_of_ne_zero (Nat.ne_of_gt (Nat.zero_lt_of_lt hfuel))
    obtain ⟨htype, hlen⟩ := hfits e (by simp)
    simp only [encodeExts_cons, List.length_append, length_extension] at h hle hlt
    rw [extension_eq, List.append_assoc, Mem.Holds.append_iff, Mem.Holds.append_iff, length_putBe,
      length_vec] at h
    obtain ⟨hty, hvec, hrest⟩ := h
    have hdlen : be16At b (q + 2) = e.2.length := be16At_of_holds hvec.left hlen
    have hnext := ih (fun e he => hfits e (by simp [he]))
      (q := q + 4 + e.2.length) (by rwa [show q + 4 + e.2.length = q + 2 + (2 + e.2.length) by omega])
      (by omega) (by omega) (Nat.lt_of_succ_lt_succ hfuel)
    simp only [extViews, hdlen, be16At_of_holds hty htype]
    rw [if_neg (by omega), if_neg (by omega), hnext]
    rfl

theorem ext_viewsFrom (h : b.Holds q (encodeExts exts)) :
    (viewsFrom q exts).map (ExtView.ext b) = exts := by
  induction exts generalizing q with
  | nil => rfl
  | cons e exts ih =>
    rw [encodeExts_cons, extension_eq, vec, List.append_assoc, List.append_assoc,
      Mem.Holds.append_iff, Mem.Holds.append_iff, Mem.Holds.append_iff, length_putBe,
      length_putBe] at h
    obtain ⟨-, -, hdata, hrest⟩ := h
    have hext : ExtView.ext b { type := e.1, off := q + 4, len := e.2.length } = e :=
      congrArg (Prod.mk e.1) hdata.bytes_eq
    rw [viewsFrom, List.map_cons, hext, ih hrest]

/-- **What is met is a block**: the extensions with their data are encoded where they were met, and
a walk that got to the end leaves fewer than four bytes. -/
theorem extViews_exact (b : Mem) (fuel : ℕ) (hq : q ≤ stop) :
    ∃ exts, (∀ e ∈ exts, ExtFits e) ∧ b.Holds q (encodeExts exts) ∧
      (extViews b stop fuel q).1 = viewsFrom q exts ∧ q + (encodeExts exts).length ≤ stop ∧
      ((extViews b stop fuel q).2 = true → stop < q + (encodeExts exts).length + 4) := by
  induction fuel generalizing q with
  | zero => exact ⟨[], by simp, by simp, rfl, by simpa using hq, by simp [extViews]⟩
  | succ fuel ih =>
    simp only [extViews]
    by_cases hend : q + 4 > stop
    · rw [if_pos hend]
      exact ⟨[], by simp, by simp, rfl, by simpa using hq, fun _ => by simpa using hend⟩
    · rw [if_neg hend]
      by_cases hover : q + 4 + be16At b (q + 2) > stop
      · rw [if_pos hover]
        exact ⟨[], by simp, by simp, rfl, by simpa using hq, by simp⟩
      · rw [if_neg hover]
        obtain ⟨exts, hfits, hholds, hviews, hle, hlt⟩ := ih (q := q + 4 + be16At b (q + 2))
          (by omega)
        have hlen := b.length_bytes (q + 4) (be16At b (q + 2))
        refine ⟨(be16At b q, b.bytes (q + 4) (be16At b (q + 2))) :: exts, ?_, ?_, ?_, ?_, ?_⟩
        · rintro e he
          rcases List.mem_cons.1 he with rfl | he
          · exact ⟨be16At_lt b q, by rw [hlen]; exact be16At_lt b _⟩
          · exact hfits e he
        · rw [encodeExts_cons, extension_eq, vec, List.append_assoc, List.append_assoc,
            Mem.Holds.append_iff, Mem.Holds.append_iff, Mem.Holds.append_iff, length_putBe,
            length_putBe, hlen]
          exact ⟨holds_be16At b q, holds_be16At b _, Mem.Holds.bytes b _ _, hholds⟩
        · rw [viewsFrom, hlen, hviews]
        · rw [encodeExts_cons, List.length_append, length_extension, hlen]
          omega
        · intro hend
          have := hlt hend
          rw [encodeExts_cons, List.length_append, length_extension, hlen]
          omega

theorem length_le_length_encodeExts (exts : List (ℕ × Bytes)) :
    exts.length ≤ (encodeExts exts).length := by
  induction exts with
  | nil => simp
  | cons e exts ih =>
    rw [encodeExts_cons, List.length_append, length_extension, List.length_cons]
    omega

theorem extViews_fuel {fuel' : ℕ} (hq : q ≤ stop) (h : stop < q + fuel) (h' : stop < q + fuel') :
    extViews b stop fuel q = extViews b stop fuel' q := by
  induction fuel generalizing q fuel' with
  | zero => omega
  | succ fuel ih =>
    obtain ⟨fuel', rfl⟩ := Nat.exists_eq_succ_of_ne_zero (show fuel' ≠ 0 by omega)
    by_cases hover : q + 4 > stop ∨ q + 4 + be16At b (q + 2) > stop
    · simp only [extViews]
      split
      · rfl
      · rw [if_pos (by omega), if_pos (by omega)]
    · have hnext : extViews b stop fuel (q + 4 + be16At b (q + 2)) =
          extViews b stop fuel' (q + 4 + be16At b (q + 2)) := ih (by omega) (by omega) (by omega)
      simp only [extViews, hnext]

/-! ## What a walk depends on -/

/-- An extension at another address. -/
def ExtView.shift (k : ℕ) (v : ExtView) : ExtView := { v with off := k + v.off }

theorem be16At_congr (h : ∀ i, q ≤ i → i < stop → m (k + i) = b i) (hp : q ≤ p)
    (hlt : p + 1 < stop) : be16At m (k + p) = be16At b p := by
  rw [be16At, be16At, h p hp (by omega), Nat.add_assoc, h (p + 1) (by omega) hlt]

theorem bytes32At_congr (h : ∀ i, q ≤ i → i < stop → m (k + i) = b i) (hp : q ≤ p)
    (hle : p + 32 ≤ stop) : bytes32At m (k + p) = bytes32At b p := by
  refine Vector.ext fun i hi => ?_
  have hbyte := h (p + i) (by omega) (by omega)
  rw [← Nat.add_assoc] at hbyte
  simpa only [bytes32At, Vector.getElem_ofFn] using hbyte

theorem extViews_congr (fuel : ℕ) (h : ∀ i, q ≤ i → i < stop → m (k + i) = b i) :
    extViews m (k + stop) fuel (k + q) =
      ((extViews b stop fuel q).1.map (ExtView.shift k), (extViews b stop fuel q).2) := by
  induction fuel generalizing q with
  | zero => rfl
  | succ fuel ih =>
    simp only [extViews]
    by_cases hend : q + 4 > stop
    · rw [if_pos hend, if_pos (by omega)]
      rfl
    · have htype : be16At m (k + q) = be16At b q := be16At_congr h (Nat.le_refl q) (by omega)
      have hlen : be16At m (k + q + 2) = be16At b (q + 2) := by
        rw [Nat.add_assoc]
        exact be16At_congr h (by omega) (by omega)
      rw [if_neg hend, if_neg (by omega), htype, hlen]
      by_cases hover : q + 4 + be16At b (q + 2) > stop
      · rw [if_pos hover, if_pos (by omega)]
        rfl
      · have hnext := ih (q := q + 4 + be16At b (q + 2)) fun i hi => h i (by omega)
        rw [if_neg hover, if_neg (by omega),
          show k + q + 4 + be16At b (q + 2) = k + (q + 4 + be16At b (q + 2)) by omega, hnext]
        rfl

theorem extViews_inside {v : ExtView} (hv : v ∈ (extViews b stop fuel q).1) :
    q ≤ v.off ∧ v.off + v.len ≤ stop := by
  induction fuel generalizing q with
  | zero => cases hv
  | succ fuel ih =>
    simp only [extViews] at hv
    split at hv
    · cases hv
    · split at hv
      · cases hv
      · rcases List.mem_cons.1 hv with rfl | hv
        · dsimp only
          omega
        · have := ih hv
          omega

theorem ext_extViews_congr (h : ∀ i, q ≤ i → i < stop → m (k + i) = b i) :
    ((extViews b stop fuel q).1.map (ExtView.shift k)).map (ExtView.ext m) =
      (extViews b stop fuel q).1.map (ExtView.ext b) := by
  rw [List.map_map]
  refine List.map_congr_left fun v hv => ?_
  have hin := extViews_inside hv
  refine congrArg (Prod.mk v.type) (List.map_congr_left fun i hi => ?_)
  have hlt : i < v.len := List.mem_range.1 hi
  dsimp only [ExtView.shift]
  rw [Nat.add_assoc, h _ (by omega) (by omega)]

theorem ksFindX25519_congr {off : ℕ} (h : ∀ i, q ≤ i → i < stop → m (k + i) = b i)
    (hoff : q ≤ off) : ksFindX25519 m (k + stop) fuel (k + off) = ksFindX25519 b stop fuel off := by
  induction fuel generalizing off with
  | zero => rfl
  | succ fuel ih =>
    have hroom : k + stop - (k + off) = stop - off := by omega
    by_cases hfour : stop - off < 4
    · simp [ksFindX25519, ksEntryFits, hroom, hfour]
    · have hgroup : be16At m (k + off) = be16At b off := be16At_congr h hoff (by omega)
      have hlen : be16At m (k + off + 2) = be16At b (off + 2) := by
        rw [Nat.add_assoc]
        exact be16At_congr h (by omega) (by omega)
      have hfits : ksEntryFits m (k + off) (stop - off) = ksEntryFits b off (stop - off) := by
        simp only [ksEntryFits, hlen]
      have hok : entryOk m (k + off) (stop - off) = entryOk b off (stop - off) := by
        simp only [entryOk, hgroup, hlen]
      have hnext := ih (show q ≤ off + 4 + be16At b (off + 2) by omega)
      simp only [ksFindX25519, hroom, hfits, hok, hlen]
      rw [show k + off + 4 + be16At b (off + 2) = k + (off + 4 + be16At b (off + 2)) by omega, hnext]
      split
      · rfl
      · split
        · by_cases hkey : off + 4 + 32 > stop
          · rw [if_pos hkey, if_pos (by omega)]
          · rw [if_neg hkey, if_neg (by omega), Nat.add_assoc k off 4,
              bytes32At_congr h (by omega) (by omega)]
        · rfl

theorem keyShareScan_congr (h : ∀ i, p ≤ i → i < p + n → m (k + i) = b i) :
    keyShareScan m (k + p) n = keyShareScan b p n := by
  by_cases htwo : n < 2
  · simp [keyShareScan, htwo]
  · have hlist : be16At m (k + p) = be16At b p := be16At_congr h (Nat.le_refl p) (by omega)
    simp only [keyShareScan, hlist]
    rw [if_neg htwo, if_neg htwo]
    split
    · rfl
    · rw [show k + p + 2 + be16At b p = k + (p + 2 + be16At b p) by omega, Nat.add_assoc k p 2]
      exact ksFindX25519_congr (q := p) (fun i hi hlt => h i hi (by omega)) (by omega)

/-- The key share of an extension, from its data. -/
def keyShareOf (e : ℕ × Bytes) : Option Bytes32 :=
  if e.1 = 51 then keyShareScan (fun i => e.2.getD i 0) 0 e.2.length else none

theorem keyShare_eq (b : Mem) : ExtView.keyShare b = keyShareOf ∘ ExtView.ext b := by
  funext v
  have hscan : keyShareScan b (v.off + 0) v.len =
      keyShareScan (fun i => (b.bytes v.off v.len).getD i 0) 0 v.len :=
    keyShareScan_congr fun i _ hi => (b.getD_bytes (by omega)).symm
  simp only [ExtView.keyShare, Function.comp_apply, keyShareOf, ExtView.ext, Mem.length_bytes]
  rw [← hscan, Nat.add_zero]

theorem ksFindX25519_of_holds (h : b.Holds p (putBe 2 0x001d ++ (putBe 2 32 ++ pub.toList))) :
    ksFindX25519 b (p + 36) (fuel + 1) p = some pub := by
  rw [Mem.Holds.append_iff, Mem.Holds.append_iff, length_putBe, length_putBe] at h
  obtain ⟨hgroup, hlen, hkey⟩ := h
  have hgroup := be16At_of_holds hgroup (by omega)
  have hlen := be16At_of_holds hlen (by omega)
  have hroom : p + 36 - p = 36 := by omega
  rw [ksFindX25519, hroom, ksEntryFits, entryOk, hgroup, hlen, bytes32At_of_holds hkey]
  simp

theorem keyShareScan_of_holds
    (h : b.Holds p (putBe 2 36 ++ (putBe 2 0x001d ++ (putBe 2 32 ++ pub.toList)))) :
    keyShareScan b p 38 = some pub := by
  have hlist := be16At_of_holds h.left (by omega)
  rw [keyShareScan, if_neg (by omega), hlist, if_neg (by omega)]
  exact ksFindX25519_of_holds h.right

end Tls

end QuicVibe
