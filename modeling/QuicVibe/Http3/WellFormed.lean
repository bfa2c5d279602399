import QuicVibe.Http3.Message
/-!
# Well-formed requests

RFC 9114 4.3.1 asks that `:method`, `:scheme` and `:path` appear once each and before all regular
fields. `pseudoheader.c` has that check (`quic_h3_ph_request_ok`), but the request decoder does not
run it, and looks neither at the table flag of a line nor at the section prefix.
-/

namespace QuicVibe

namespace Http3

open Packet

/-! ## The pseudo-header check -/

/-- The bit of a kind (`BIT`), by the order of the enumeration. -/
def PhKind.bit : PhKind → UInt8
  | .none => 0x01
  | .method => 0x02
  | .scheme => 0x04
  | .authority => 0x08
  | .path => 0x10
  | .status => 0x20
  | .unknown => 0x40

structure PhSet where
  seen : UInt8
  sawRegular : Bool
  ok : Bool
  deriving DecidableEq, Repr

namespace PhSet

def init : PhSet := { seen := 0, sawRegular := false, ok := true }

def onPseudo (p : PhSet) (k : PhKind) : PhSet :=
  { p with
    ok := if p.sawRegular || p.seen &&& k.bit != 0 then false else p.ok
    seen := p.seen ||| k.bit }

def field (p : PhSet) (name : Bytes) : PhSet :=
  match phClassify name with
  | .none => { p with sawRegular := true }
  | .unknown => { p with ok := false }
  | k => p.onPseudo k

def hasAll (p : PhSet) (req : UInt8) : Bool := p.seen &&& req == req

def requestOk (p : PhSet) : Bool :=
  p.ok && p.hasAll (PhKind.method.bit ||| PhKind.scheme.bit ||| PhKind.path.bit)

end PhSet

/-! ## The lines of a section -/

/-- A field line: its name, and whether it refers to the dynamic table. -/
structure Line where
  name : Bytes
  dynamic : Bool
  deriving DecidableEq, Repr

/-- What a line is, by its name. -/
def Line.kind (l : Line) : PhKind := phClassify l.name

/-- The first byte of a line is an index or a name reference without the T bit. -/
def dynamicRef (b : UInt8) : Bool :=
  if b &&& 0x80 ≠ 0 then b &&& 0x40 == 0 else b &&& 0xc0 == 0x40 && b &&& 0x10 == 0

/-- The lines `scan_lines` decodes. -/
def sectionLines : ℕ → Bytes → ℕ → Option (List Line)
  | 0, fs, _ => if fs.isEmpty then some [] else none
  | fuel + 1, fs, scap =>
    if fs.isEmpty then some []
    else do
      let l ← decodeLine fs scap
      let rest ← sectionLines fuel (fs.drop l.used) (scap - l.scratchUsed)
      return { name := l.name, dynamic := dynamicRef (fs.getD 0 0) } :: rest

/-- The Required Insert Count and the lines of the request's field section. -/
def headerSection (streamData : Bytes) (scap : ℕ) : Option (ℕ × List Line) := do
  let (fs, _) ← requestSections streamData
  let ((requiredInsertCount, _), off) ← prefixDecode fs
  let lines ← sectionLines (fs.length - off) (fs.drop off) scap
  return (requiredInsertCount, lines)

/-- The pseudo-headers every request has. -/
def required : List PhKind := [.method, .scheme, .path]

/-- A section without a use of the dynamic table, with each required pseudo-header once, and none
of them behind a regular field. -/
structure WellFormed (requiredInsertCount : ℕ) (lines : List Line) : Prop where
  insertCount : requiredInsertCount = 0
  static : ∀ l ∈ lines, l.dynamic = false
  once : ∀ k ∈ required, lines.countP (fun l => l.kind = k) = 1
  first : ∀ k ∈ required, lines.Pairwise fun a b => a.kind = .none → b.kind ≠ k

/-- The lines the rule is about: the required pseudo-headers and the regular fields. -/
def ruled (lines : List Line) : List Line := lines.filter fun l => l.kind ∈ .none :: required

/-- The check run over lines. -/
def phCheck (lines : List Line) : PhSet := lines.foldl (fun p l => p.field l.name) PhSet.init

/-! ## What the check says -/

theorem bit_and_bit {k j : PhKind} : k.bit &&& j.bit = if k = j then k.bit else 0 := by
  cases k <;> cases j <;> decide

theorem bit_ne_zero (k : PhKind) : k.bit ≠ 0 := by cases k <;> decide

theorem or_bit_and_bit_eq_zero_iff (seen : UInt8) (k j : PhKind) :
    (seen ||| k.bit) &&& j.bit = 0 ↔ seen &&& j.bit = 0 ∧ k ≠ j := by
  have hor (a b : UInt8) : a ||| b = 0 ↔ a = 0 ∧ b = 0 := by
    simp only [← UInt8.toNat_inj, UInt8.toNat_or, UInt8.toNat_zero, Nat.or_eq_zero_iff]
  rw [or_and_distrib, hor, bit_and_bit]
  by_cases h : k = j
  · simp [h, bit_ne_zero]
  · simp [h]

/-- What the check knows after the lines `ls`. -/
structure Checked (p : PhSet) (ls : List Line) : Prop where
  regular : p.sawRegular = true ↔ ∃ l ∈ ls, l.kind = .none
  seen : ∀ k ∈ required, p.seen &&& k.bit = 0 ↔ ls.countP (fun l => l.kind = k) = 0
  ok : p.ok = true ↔ ∀ k ∈ required, ls.countP (fun l => l.kind = k) ≤ 1 ∧
    ls.Pairwise fun a b => a.kind = .none → b.kind ≠ k

theorem field_of_none (p : PhSet) {l : Line} (h : l.kind = .none) :
    p.field l.name = { p with sawRegular := true } := by
  rw [Line.kind] at h
  rw [PhSet.field, h]

theorem field_of_required (p : PhSet) {l : Line} (h : l.kind ∈ required) :
    p.field l.name = p.onPseudo l.kind := by
  rw [Line.kind] at h ⊢
  simp only [required, List.mem_cons, List.not_mem_nil, or_false] at h
  rcases h with h | h | h <;> rw [PhSet.field, h]

theorem countP_concat (ls : List Line) (l : Line) (k : PhKind) :
    (ls ++ [l]).countP (fun l => l.kind = k) =
      ls.countP (fun l => l.kind = k) + if l.kind = k then 1 else 0 := by
  rw [List.countP_append, List.countP_singleton]
  simp

theorem pairwise_concat_iff (ls : List Line) (l : Line) (k : PhKind) :
    ((ls ++ [l]).Pairwise fun a b => a.kind = .none → b.kind ≠ k) ↔
      (ls.Pairwise fun a b => a.kind = .none → b.kind ≠ k) ∧
        (l.kind = k → ¬ ∃ a ∈ ls, a.kind = .none) := by
  simp only [List.pairwise_append, List.pairwise_singleton, List.mem_singleton, forall_eq, true_and,
    not_exists, not_and, and_congr_right_iff]
  exact fun _ => ⟨fun h hk a ha hnone => h a ha hnone hk, fun h a ha hnone hk => h hk a ha hnone⟩

/-- **One name.** A regular field is noted; a required pseudo-header has to be the first of its kind
and to come before every regular field. -/
theorem Checked.step {p : PhSet} {ls : List Line} (h : Checked p ls) {l : Line}
    (hl : l.kind ∈ PhKind.none :: required) : Checked (p.field l.name) (ls ++ [l]) := by
  rcases List.mem_cons.1 hl with hnone | hreq
  · have hne : ∀ k ∈ required, l.kind ≠ k := by
      rw [hnone]
      decide
    rw [field_of_none p hnone]
    refine ⟨by simp [hnone], fun k hk => ?_, h.ok.trans (forall₂_congr fun k hk => ?_)⟩
    · rw [countP_concat, if_neg (hne k hk)]
      exact h.seen k hk
    · rw [countP_concat, if_neg (hne k hk), pairwise_concat_iff]
      simp [hne k hk]
  · have hkind : l.kind ≠ .none := by
      intro hnone
      rw [hnone] at hreq
      exact absurd hreq (by decide)
    rw [field_of_required p hreq]
    refine ⟨?_, fun k hk => ?_, ?_⟩
    · simpa [PhSet.onPseudo, hkind] using h.regular
    · rw [countP_concat, PhSet.onPseudo, or_bit_and_bit_eq_zero_iff, h.seen k hk]
      by_cases hlk : l.kind = k <;> simp [hlk]
    · have hold : (p.onPseudo l.kind).ok = true ↔ p.ok = true ∧ (¬ ∃ a ∈ ls, a.kind = .none) ∧
          ls.countP (fun a => a.kind = l.kind) = 0 := by
        rw [← h.regular, ← h.seen _ hreq, PhSet.onPseudo]
        by_cases hseen : p.seen &&& l.kind.bit = 0 <;> cases p.sawRegular <;> simp [hseen]
      rw [hold, h.ok]
      constructor
      · rintro ⟨hbefore, hfirst, hnew⟩ k hk
        obtain ⟨hcount, hpair⟩ := hbefore k hk
        rw [countP_concat, pairwise_concat_iff]
        refine ⟨?_, hpair, fun _ => hfirst⟩
        by_cases hlk : l.kind = k
        · subst hlk
          rw [if_pos rfl]
          omega
        · rw [if_neg hlk]
          exact hcount
      · intro hall
        simp only [countP_concat, pairwise_concat_iff] at hall
        obtain ⟨hcount, -, hfirst⟩ := hall _ hreq
        rw [if_pos rfl] at hcount
        exact ⟨fun k hk => ⟨by have := (hall k hk).1; omega, (hall k hk).2.1⟩, hfirst rfl, by omega⟩

theorem checked_init : Checked PhSet.init [] := by
  refine ⟨by simp [PhSet.init], fun k _ => by simp [PhSet.init], by simp [PhSet.init]⟩

/-- **All names.** -/
theorem checked_phCheck {ls : List Line} (hls : ∀ l ∈ ls, l.kind ∈ PhKind.none :: required) :
    Checked (phCheck ls) ls := by
  induction ls using List.reverseRecOn with
  | nil => exact checked_init
  | append_singleton ls l ih =>
    have hstep := (ih fun a ha => hls a (List.mem_append_left _ ha)).step (hls l (by simp))
    rwa [phCheck, List.foldl_append, List.foldl_cons, List.foldl_nil]

theorem hasAll_iff (p : PhSet) :
    p.hasAll (PhKind.method.bit ||| PhKind.scheme.bit ||| PhKind.path.bit) = true ↔
      ∀ k ∈ required, p.seen &&& k.bit ≠ 0 := by
  have hbyte : ∀ n < 256,
      UInt8.ofNat n &&& (PhKind.method.bit ||| PhKind.scheme.bit ||| PhKind.path.bit) =
          (PhKind.method.bit ||| PhKind.scheme.bit ||| PhKind.path.bit) ↔
        ∀ k ∈ required, UInt8.ofNat n &&& k.bit ≠ 0 := by
    decide +kernel
  rw [PhSet.hasAll, beq_iff_eq, ← UInt8.ofNat_toNat (x := p.seen)]
  exact hbyte _ p.seen.toNat_lt

/-- **The check of the source**, on the lines the rule is about. -/
theorem requestOk_iff {ls : List Line} (hls : ∀ l ∈ ls, l.kind ∈ PhKind.none :: required) :
    (phCheck ls).requestOk = true ↔ ∀ k ∈ required, ls.countP (fun l => l.kind = k) = 1 ∧
      ls.Pairwise fun a b => a.kind = .none → b.kind ≠ k := by
  have h := checked_phCheck hls
  rw [PhSet.requestOk, Bool.and_eq_true, h.ok, hasAll_iff]
  constructor
  · rintro ⟨hok, hall⟩ k hk
    have hpos := mt (h.seen k hk).2 (hall k hk)
    exact ⟨by have := (hok k hk).1; omega, (hok k hk).2⟩
  · intro hall
    refine ⟨fun k hk => ⟨Nat.le_of_eq (hall k hk).1, (hall k hk).2⟩, fun k hk hzero => ?_⟩
    have := (h.seen k hk).1 hzero
    rw [(hall k hk).1] at this
    cases this

/-! ## Accepted sections -/

theorem mem_ruled (lines : List Line) : ∀ l ∈ ruled lines, l.kind ∈ PhKind.none :: required :=
  fun _ hl => of_decide_eq_true (List.mem_filter.1 hl).2

theorem ruled_iff (lines : List Line) {k : PhKind} (hk : k ∈ required) :
    (ruled lines).countP (fun l => l.kind = k) = lines.countP (fun l => l.kind = k) ∧
      (((ruled lines).Pairwise fun a b => a.kind = .none → b.kind ≠ k) ↔
        lines.Pairwise fun a b => a.kind = .none → b.kind ≠ k) := by
  constructor
  · rw [ruled, List.countP_filter]
    refine List.countP_congr fun l _ => ?_
    simp only [Bool.and_eq_true, decide_eq_true_eq]
    exact ⟨fun h => h.1, fun h => ⟨h, List.mem_cons_of_mem _ (h ▸ hk)⟩⟩
  · rw [ruled, List.pairwise_filter]
    refine ⟨fun h => h.imp fun {a b} hab ha hb => ?_, fun h => h.imp fun {a b} hab _ _ => hab⟩
    exact hab (by simp [ha]) (by simp [hb, hk]) ha hb

theorem wellFormed_iff (requiredInsertCount : ℕ) (lines : List Line) :
    WellFormed requiredInsertCount lines ↔ requiredInsertCount = 0 ∧
      (∀ l ∈ lines, l.dynamic = false) ∧ (phCheck (ruled lines)).requestOk = true := by
  rw [requestOk_iff (mem_ruled lines)]
  constructor
  · rintro ⟨hcount, hstatic, honce, hfirst⟩
    refine ⟨hcount, hstatic, fun k hk => ?_⟩
    obtain ⟨hc, hp⟩ := ruled_iff lines hk
    rw [hc, hp]
    exact ⟨honce k hk, hfirst k hk⟩
  · rintro ⟨hcount, hstatic, hok⟩
    refine ⟨hcount, hstatic, fun k hk => ?_, fun k hk => ?_⟩
    · rw [← (ruled_iff lines hk).1]
      exact (hok k hk).1
    · exact (ruled_iff lines hk).2.1 (hok k hk).2

theorem exists_sectionLines : ∀ {fuel scap : ℕ} {fs : Bytes} {r r' : Request},
    scanLines fuel fs scap r = some r' → ∃ lines, sectionLines fuel fs scap = some lines := by
  intro fuel
  induction fuel with
  | zero =>
    intro scap fs r r' h
    rw [scanLines, Option.ite_none_right_eq_some] at h
    exact ⟨[], by rw [sectionLines, if_pos h.1]⟩
  | succ fuel ih =>
    intro scap fs r r' h
    rw [scanLines] at h
    rw [sectionLines]
    by_cases hempty : fs.isEmpty = true
    · exact ⟨[], by rw [if_pos hempty]⟩
    · rw [if_neg hempty] at h ⊢
      obtain ⟨l, hl, h⟩ := Option.bind_eq_some_iff.1 h
      obtain ⟨rest, hrest⟩ := ih h
      rw [hl, Option.bind_eq_bind, Option.bind_some, hrest]
      exact ⟨_, rfl⟩

/-- **An accepted request is well formed exactly when it passes the checks that are not made**: the
Required Insert Count is 0, no line refers to the dynamic table, and `quic_h3_ph_request_ok` accepts
the names of the regular fields and the required pseudo-headers. -/
theorem accepted_well_formed_iff (streamData : Bytes) (scap : ℕ) (r : Request)
    (hacc : recvGet streamData scap = some r) :
    ∃ requiredInsertCount lines,
      headerSection streamData scap = some (requiredInsertCount, lines) ∧
        (WellFormed requiredInsertCount lines ↔ requiredInsertCount = 0 ∧
          (∀ l ∈ lines, l.dynamic = false) ∧ (phCheck (ruled lines)).requestOk = true) := by
  obtain ⟨⟨fs, body⟩, hfs, h⟩ := Option.bind_eq_some_iff.1 hacc
  obtain ⟨⟨⟨ric, rest⟩, off⟩, hpfx, h⟩ := Option.bind_eq_some_iff.1 h
  obtain ⟨lines, hlines⟩ := exists_sectionLines h
  refine ⟨ric, lines, ?_, wellFormed_iff ric lines⟩
  simp only [headerSection, hfs, hpfx, hlines, Option.bind_eq_bind, Option.bind_some,
    Option.pure_def]

/-- `:method GET`, `:scheme https` and `:path /`, as static indices. -/
theorem accepted_well_formed_iff_get :
    ∃ r, recvGet [0x0a, 0x00, 0x07, 0x01, 0x05, 0x00, 0x00, 0xd1, 0xd7, 0xc1] 64 = some r ∧
      ∃ requiredInsertCount lines,
        headerSection [0x0a, 0x00, 0x07, 0x01, 0x05, 0x00, 0x00, 0xd1, 0xd7, 0xc1] 64 =
            some (requiredInsertCount, lines) ∧
          (WellFormed requiredInsertCount lines ↔ requiredInsertCount = 0 ∧
            (∀ l ∈ lines, l.dynamic = false) ∧ (phCheck (ruled lines)).requestOk = true) :=
  have hacc : recvGet [0x0a, 0x00, 0x07, 0x01, 0x05, 0x00, 0x00, 0xd1, 0xd7, 0xc1] 64 =
      some { method := ascii "GET", scheme := ascii "https", authority := [], path := ascii "/",
             body := [] } := by decide +kernel
  ⟨_, hacc, accepted_well_formed_iff _ _ _ hacc⟩

/-- A section with Required Insert Count 2 and one line, the index 17 of the dynamic table, is
accepted as a GET without a scheme and a path. -/
theorem dynamic_index_accepted :
    recvGet [0x0a, 0x00, 0x05, 0x01, 0x03, 0x02, 0x00, 0x91] 64 =
        some { Request.empty with method := ascii "GET" } ∧
      headerSection [0x0a, 0x00, 0x05, 0x01, 0x03, 0x02, 0x00, 0x91] 64 =
        some (2, [⟨ascii ":method", true⟩]) ∧
      ¬ WellFormed 2 [⟨ascii ":method", true⟩] := by
  refine ⟨by decide +kernel, by decide +kernel, fun h => ?_⟩
  exact absurd h.insertCount (by decide)

end Http3

end QuicVibe
