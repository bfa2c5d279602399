import QuicVibe.Pki.Der
/-!
# Host names

`quic_x509_san_matches` looks for the host in the dNSName entries of a certificate's subjectAltName
extension (`san.c`). An entry matches when it is the host up to ASCII case, or a wildcard for its
first label, which may be empty.
-/

namespace QuicVibe

namespace Pki

open Crypto Tls

/-! ## Names -/

/-- `.` and `*`. -/
def dot : UInt8 := 0x2e
def star : UInt8 := 0x2a

def sanLower (c : UInt8) : UInt8 := if c ≥ 0x41 ∧ c ≤ 0x5a then c ||| 0x20 else c

/-- `san_bytes_eq`, on names of one length. -/
def sanBytesEq (a b : Bytes) : Bool :=
  (List.zipWith (fun x y => sanLower x ^^^ sanLower y) a b).foldl (· ||| ·) 0 == 0

def dnsEq (a b : Bytes) : Bool := a.length == b.length && sanBytesEq a b

/-- `first_dot`: the offset of the first dot, or the length. -/
def firstDot (name : Bytes) : ℕ := (name.takeWhile (· != dot)).length

def isWildcard (entry : Bytes) : Bool :=
  decide (entry.length ≥ 2) && entry.getD 0 0 == star && entry.getD 1 0 == dot

def wildcardMatch (entry host : Bytes) : Bool :=
  let hdot := firstDot host
  if !isWildcard entry || hdot ≥ host.length then false
  else dnsEq (entry.drop 1) (host.drop hdot)

def entryMatches (entry host : Bytes) : Bool := dnsEq entry host || wildcardMatch entry host

/-! ## Certificates -/

/-- id-ce-subjectAltName. -/
def oidSan : Bytes := [0x55, 0x1d, 0x11]

/-- The tag of a dNSName. -/
def sanDnsnameTag : UInt8 := 0x82

def sanReachExtensions (tbs : Bytes) : Option Bytes := bcReachExtensions tbs

def findExtSan (ext : Bytes) : Option Bytes := bcFindExt ext oidSan

/-- `san_names`: the GeneralNames of the extension. -/
def sanNames (tbs : Bytes) : Option Bytes := do
  let ext ← sanReachExtensions tbs
  let san ← findExtSan ext
  let (names, _) ← nextTagged san derSequence
  return names

def dnsnameMatches (e : DerElem) (host : Bytes) : Bool :=
  e.tag == sanDnsnameTag && entryMatches e.val host

/-- The loop of `names_match`; every element takes two octets at least, so the fuel is the length. -/
def namesMatchFrom (host : Bytes) : ℕ → Bytes → Bool
  | 0, _ => false
  | fuel + 1, names =>
    match derRead names with
    | none => false
    | some e => if dnsnameMatches e host then true else namesMatchFrom host fuel (names.drop e.consumed)

def namesMatch (names host : Bytes) : Bool := namesMatchFrom host names.length names

def x509SanMatches (tbs host : Bytes) : Bool :=
  match sanNames tbs with
  | none => false
  | some names => namesMatch names host

/-! ## What is meant -/

/-- A letter in lower case. -/
def asciiLower (c : UInt8) : UInt8 := if 0x41 ≤ c ∧ c ≤ 0x5a then c + 0x20 else c

/-- Equal up to ASCII case. -/
def SameName (a b : Bytes) : Prop := a.map asciiLower = b.map asciiLower

/-- The name covers the host: it is the host, or `*.` and a suffix where the host is one non-empty
label without dots, a dot, and that suffix. -/
def NameCovers (name host : Bytes) : Prop :=
  SameName name host ∨ ∃ suffix label rest, name = star :: dot :: suffix ∧
    host = label ++ dot :: rest ∧ label ≠ [] ∧ dot ∉ label ∧ SameName suffix rest

/-- The wildcard stands for nothing: the host starts with the dot. -/
def EmptyLabel (name host : Bytes) : Prop :=
  ∃ suffix rest, name = star :: dot :: suffix ∧ host = dot :: rest ∧ SameName suffix rest

/-- The dNSName entries of a certificate. -/
def dnsNames (tbs : Bytes) : List Bytes :=
  match sanNames tbs with
  | none => []
  | some names => ((derElems names.length names).filter (·.tag == sanDnsnameTag)).map DerElem.val

/-! ## Comparing -/

theorem sanLower_eq (c : UInt8) : sanLower c = asciiLower c := by
  have hletters : ∀ k < 26, UInt8.ofNat (0x41 + k) ||| 0x20 = UInt8.ofNat (0x41 + k) + 0x20 := by
    decide
  unfold sanLower asciiLower
  split_ifs with hc
  · obtain ⟨hlow, hhigh⟩ := hc
    have hlow : 0x41 ≤ c.toNat := UInt8.le_iff_toNat_le.1 hlow
    have hhigh : c.toNat ≤ 0x5a := UInt8.le_iff_toNat_le.1 hhigh
    have hletter := hletters (c.toNat - 0x41) (by omega)
    rwa [Nat.add_sub_cancel' hlow, UInt8.ofNat_toNat] at hletter
  · rfl

theorem sanBytesEq_iff {a b : Bytes} (h : a.length = b.length) :
    sanBytesEq a b = true ↔ SameName a b := by
  have hmap : List.zipWith (fun x y => sanLower x ^^^ sanLower y) a b =
      xorBytes (a.map asciiLower) (b.map asciiLower) := by
    rw [xorBytes, List.zipWith_map]
    simp only [sanLower_eq]
  rw [sanBytesEq, hmap, beq_iff_eq, foldl_or_eq_zero_iff, xorBytes_eq_zero_iff (by simpa using h)]
  exact and_iff_right rfl

theorem SameName.length_eq {a b : Bytes} (h : SameName a b) : a.length = b.length := by
  have := congrArg List.length h
  simpa using this

theorem dnsEq_iff (a b : Bytes) : dnsEq a b = true ↔ SameName a b := by
  rw [dnsEq, Bool.and_eq_true, beq_iff_eq]
  constructor
  · rintro ⟨hlen, h⟩
    exact (sanBytesEq_iff hlen).1 h
  · intro h
    exact ⟨h.length_eq, (sanBytesEq_iff h.length_eq).2 h⟩

theorem sameName_cons_iff (c : UInt8) (a b : Bytes) : SameName (c :: a) (c :: b) ↔ SameName a b := by
  simp [SameName]

theorem isWildcard_iff (entry : Bytes) :
    isWildcard entry = true ↔ ∃ suffix, entry = star :: dot :: suffix := by
  constructor
  · intro h
    match entry with
    | [] => cases h
    | [_] => cases h
    | a :: b :: suffix =>
      simp only [isWildcard, Bool.and_eq_true, List.getD_cons_zero, List.getD_cons_succ,
        beq_iff_eq] at h
      exact ⟨suffix, by rw [h.1.2, h.2]⟩
  · rintro ⟨suffix, rfl⟩
    simp [isWildcard]

/-- What stands in front of the first dot has none, and the dot follows. -/
theorem firstDot_lt_iff (host : Bytes) :
    firstDot host < host.length ↔ ∃ label rest, host = label ++ dot :: rest ∧ dot ∉ label ∧
      host.drop (firstDot host) = dot :: rest := by
  induction host with
  | nil => simp [firstDot]
  | cons b host ih =>
    by_cases hb : b = dot
    · subst hb
      simp only [firstDot, List.takeWhile_cons, bne_self_eq_false, Bool.false_eq_true, if_false,
        List.length_nil, List.length_cons, List.drop_zero]
      exact iff_of_true (by omega) ⟨[], host, rfl, List.not_mem_nil, rfl⟩
    · have hdot : firstDot (b :: host) = firstDot host + 1 := by simp [firstDot, hb]
      rw [hdot, List.length_cons, Nat.add_lt_add_iff_right, ih, List.drop_succ_cons]
      constructor
      · rintro ⟨label, rest, hhost, hlabel, hdrop⟩
        refine ⟨b :: label, rest, by rw [hhost]; rfl, ?_, hdrop⟩
        rw [List.mem_cons, not_or]
        exact ⟨fun h => hb h.symm, hlabel⟩
      · rintro ⟨label, rest, hhost, hlabel, hdrop⟩
        cases label with
        | nil =>
          rw [List.nil_append, List.cons.injEq] at hhost
          exact absurd hhost.1 hb
        | cons c label =>
          rw [List.cons_append, List.cons.injEq] at hhost
          exact ⟨label, rest, hhost.2, fun h => hlabel (List.mem_cons_of_mem _ h), hdrop⟩

theorem wildcardMatch_iff (entry host : Bytes) :
    wildcardMatch entry host = true ↔ ∃ suffix label rest, entry = star :: dot :: suffix ∧
      host = label ++ dot :: rest ∧ dot ∉ label ∧ SameName suffix rest := by
  unfold wildcardMatch
  dsimp only
  constructor
  · intro h
    by_cases hskip : (!isWildcard entry || decide (firstDot host ≥ host.length)) = true
    · rw [if_pos hskip] at h
      cases h
    · rw [if_neg hskip, dnsEq_iff] at h
      simp only [Bool.or_eq_true, Bool.not_eq_true', decide_eq_true_eq, not_or, Bool.not_eq_false,
        Nat.not_le] at hskip
      obtain ⟨suffix, rfl⟩ := (isWildcard_iff entry).1 hskip.1
      obtain ⟨label, rest, hhost, hlabel, hdrop⟩ := (firstDot_lt_iff host).1 hskip.2
      rw [hdrop, List.drop_succ_cons, List.drop_zero, sameName_cons_iff] at h
      exact ⟨suffix, label, rest, rfl, hhost, hlabel, h⟩
  · rintro ⟨suffix, label, rest, rfl, rfl, hlabel, hsame⟩
    have hfirst : firstDot (label ++ dot :: rest) = label.length := by
      rw [firstDot, List.takeWhile_append_of_pos]
      · simp
      · intro b hb
        simpa using fun h : b = dot => hlabel (h ▸ hb)
    have hwild : isWildcard (star :: dot :: suffix) = true := (isWildcard_iff _).2 ⟨suffix, rfl⟩
    rw [hfirst, hwild, if_neg (by simp), List.drop_left, dnsEq_iff, List.drop_succ_cons,
      List.drop_zero, sameName_cons_iff]
    exact hsame

/-- **The matcher** accepts the names that are meant, and those with an empty first label. -/
theorem entryMatches_iff (entry host : Bytes) :
    entryMatches entry host = true ↔ NameCovers entry host ∨ EmptyLabel entry host := by
  rw [entryMatches, Bool.or_eq_true, dnsEq_iff, wildcardMatch_iff, NameCovers, or_assoc]
  refine or_congr_right ?_
  constructor
  · rintro ⟨suffix, label, rest, hentry, hhost, hlabel, hsame⟩
    by_cases hempty : label = []
    · exact .inr ⟨suffix, rest, hentry, by rw [hhost, hempty]; rfl, hsame⟩
    · exact .inl ⟨suffix, label, rest, hentry, hhost, hempty, hlabel, hsame⟩
  · rintro (⟨suffix, label, rest, hentry, hhost, -, hlabel, hsame⟩ |
      ⟨suffix, rest, hentry, hhost, hsame⟩)
    · exact ⟨suffix, label, rest, hentry, hhost, hlabel, hsame⟩
    · exact ⟨suffix, [], rest, hentry, hhost, List.not_mem_nil, hsame⟩

/-- A name that matches by an empty label covers nothing: it is one octet longer than the host, and no
label stands in front of the host's first dot. -/
theorem EmptyLabel.not_nameCovers {name host : Bytes} (h : EmptyLabel name host) :
    ¬ NameCovers name host := by
  obtain ⟨suffix, rest, rfl, rfl, hsame⟩ := h
  rintro (h | ⟨suffix', label, rest', -, hhost, hempty, hlabel, -⟩)
  · have hlong := h.length_eq
    have hlen := hsame.length_eq
    simp only [List.length_cons] at hlong
    omega
  · cases label with
    | nil => exact hempty rfl
    | cons b label =>
      rw [List.cons_append, List.cons.injEq] at hhost
      exact hlabel (hhost.1 ▸ List.mem_cons_self ..)

/-! ## The list of names -/

theorem namesMatchFrom_iff (host : Bytes) (fuel : ℕ) (names : Bytes) :
    namesMatchFrom host fuel names = true ↔
      ∃ e ∈ derElems fuel names, dnsnameMatches e host = true := by
  induction fuel generalizing names with
  | zero => simp [namesMatchFrom, derElems]
  | succ fuel ih =>
    rw [namesMatchFrom, derElems]
    cases derRead names with
    | none => simp
    | some e =>
      dsimp only
      rw [List.exists_mem_cons_iff, ← ih]
      by_cases he : dnsnameMatches e host = true
      · simp [he]
      · simp [he]

/-- **A certificate matches** exactly when one of its dNSName entries does. -/
theorem x509SanMatches_iff (tbs host : Bytes) :
    x509SanMatches tbs host = true ↔ ∃ name ∈ dnsNames tbs, entryMatches name host = true := by
  unfold x509SanMatches dnsNames
  cases sanNames tbs with
  | none => simp
  | some names =>
    dsimp only
    rw [namesMatch, namesMatchFrom_iff]
    simp [dnsnameMatches, and_assoc]

theorem dnsNames_of_flatMap {tbs : Bytes} {elems : List (UInt8 × Bytes)}
    (h : ∀ e ∈ elems, e.2.length < 65536)
    (hnames : sanNames tbs = some (elems.flatMap fun e => derTlv e.1 e.2)) :
    dnsNames tbs = (elems.filter (·.1 == sanDnsnameTag)).map (·.2) := by
  have helems := derElems_flatMap h (Nat.le_refl _)
  unfold dnsNames
  rw [hnames]
  dsimp only
  generalize derElems _ _ = read at helems ⊢
  rw [← helems, List.filter_map, List.map_map]
  rfl

/-- **Host name matching.** A certificate matches a host exactly when one of its dNSName entries does,
which are those of the list that was written into it; and an entry matches as it is meant to exactly
when its wildcard would not have to stand for an empty label. -/
theorem san_matches_iff (tbs name host : Bytes) :
    (x509SanMatches tbs host = true ↔ ∃ n ∈ dnsNames tbs, entryMatches n host = true) ∧
      (∀ elems : List (UInt8 × Bytes), (∀ e ∈ elems, e.2.length < 65536) →
        sanNames tbs = some (elems.flatMap fun e => derTlv e.1 e.2) →
        dnsNames tbs = (elems.filter (·.1 == sanDnsnameTag)).map (·.2)) ∧
      ((entryMatches name host = true ↔ NameCovers name host) ↔ ¬ EmptyLabel name host) := by
  refine ⟨x509SanMatches_iff tbs host, fun _ => dnsNames_of_flatMap, ?_⟩
  rw [entryMatches_iff]
  constructor
  · intro h hempty
    exact hempty.not_nameCovers (h.1 (.inr hempty))
  · intro hempty
    exact or_iff_left hempty

/-- The entry `*.a` matches the host `.a`. -/
theorem san_matches_empty_label :
    entryMatches [star, dot, 0x61] [dot, 0x61] = true ∧
      ¬ NameCovers [star, dot, 0x61] [dot, 0x61] :=
  ⟨by decide, EmptyLabel.not_nameCovers ⟨[0x61], [0x61], rfl, rfl, rfl⟩⟩

end Pki

end QuicVibe
