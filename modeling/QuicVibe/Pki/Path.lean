import QuicVibe.Pki.X509
/-!
# Path validation

The trust store (`castore.c`) and the validation of a certificate chain against it
(`pathvalidate.c`). A valid path is said over the chain with its anchor appended. The anchor that
`quic_castore_validate_chain` finds by name has to be a CA and to have signed the last certificate,
but its pathLenConstraint is not read.
-/

namespace QuicVibe

namespace Pki

open Crypto Tls

/-! ## The store -/

/-- `quic_castore`: the registered roots, at most `cap`. -/
structure Castore where
  roots : List Bytes
  cap : ℕ

def Castore.init (cap : ℕ) : Castore := { roots := [], cap := cap }

/-- `quic_castore_add`: a root that parses, while there is room. -/
def Castore.add (s : Castore) (cert : Bytes) : Bool × Castore :=
  if s.roots.length ≥ s.cap then (false, s)
  else
    match x509Parse cert with
    | none => (false, s)
    | some _ => (true, { s with roots := s.roots ++ [cert] })

def certIssuer (cert : Bytes) : Option Bytes := do
  let c ← x509Parse cert
  x509Issuer c.tbs

def certSubject (cert : Bytes) : Option Bytes := do
  let c ← x509Parse cert
  x509Subject c.tbs

/-- The certificate's subject is the name (`entry_subject_matches`). -/
def subjectMatches (dn cert : Bytes) : Bool :=
  match certSubject cert with
  | none => false
  | some subj => bytesEq dn subj

/-- `quic_castore_find_by_subject`: the first root with the name. -/
def Castore.findBySubject (s : Castore) (issuerDn : Bytes) : Option Bytes :=
  s.roots.find? (subjectMatches issuerDn)

/-! ## Validation -/

variable (P : ChainPrimitives)

def namesChain (child parent : Bytes) : Bool :=
  match certIssuer child with
  | none => false
  | some iss => subjectMatches iss parent

def certIsCa (cert : Bytes) : Bool :=
  match x509Parse cert with
  | none => false
  | some c => x509IsCa c.tbs

def linkOk (child parent : Bytes) : Bool :=
  namesChain child parent && certIsCa parent && verifySignedBy P child parent

def findCaAnchor (s : Castore) (iss : Bytes) : Option Bytes :=
  match s.findBySubject iss with
  | none => none
  | some root => if certIsCa root then some root else none

def tailAnchored (s : Castore) (tail : Bytes) : Bool :=
  let verdict : Option Bool := do
    let iss ← certIssuer tail
    let root ← findCaAnchor s iss
    return verifySignedBy P tail root
  verdict.getD false

def certPathlenOk (cert : Bytes) (below : ℕ) : Bool :=
  match x509Parse cert with
  | none => false
  | some c => x509PathlenAllows c.tbs below

/-- `step_ok`: the link from `certs[i]` to its issuer, with `i` intermediates below. -/
def stepOk (certs : List Bytes) (i : ℕ) : Bool :=
  linkOk P (certs.getD i []) (certs.getD (i + 1) []) && certPathlenOk (certs.getD (i + 1) []) i

def linksOk (certs : List Bytes) : Bool := (List.range (certs.length - 1)).all (stepOk P certs)

def validateChain (s : Castore) (certs : List Bytes) : Bool :=
  if certs.length < 1 then false
  else if ¬ linksOk P certs then false
  else tailAnchored P s (certs.getD (certs.length - 1) [])

/-! ## Valid paths -/

/-- The value of an INTEGER, in two's complement. -/
def derInt (v : Bytes) : ℤ :=
  if v.getD 0 0 &&& 0x80 = 0 then readBe v else (readBe v : ℤ) - 256 ^ v.length

/-- The pathLenConstraint of a certificate: the INTEGER behind cA in its basicConstraints. -/
def pathLenConstraint (cert : Bytes) : Option ℤ := do
  let c ← x509Parse cert
  let val ← bcLocate c.tbs
  let (bc, _) ← nextTagged val derSequence
  let (_, rest) ← nextTagged bc derBoolean
  let (v, _) ← nextTagged rest derInteger
  return derInt v

/-- A pathLenConstraint, when present, is at least the number of intermediates below. -/
def PathLenAdmits (cert : Bytes) (below : ℕ) : Prop :=
  ∀ limit, pathLenConstraint cert = some limit → (below : ℤ) ≤ limit

/-- The signature of a certificate by the key of another: the digest of its tbsCertificate verifies
under the algorithm both of its algorithm fields name, which is one for the issuer's kind of key. -/
inductive SignedBy (child parent : Bytes) : Prop
  | ecdsa {c : X509} {hash : HashKind} {key : Bytes} {x y r s : Bytes32}
      (parsed : x509Parse child = some c) (consistent : sigalgConsistent child = true)
      (listed : sigalgLookup c.sigAlgOid = some ⟨.ecdsa, hash⟩)
      (issuer : issuerKey parent = some (oidEc, key)) (point : x509EcPubkey key = some (x, y))
      (sig : ecdsaSplit (c.sig.drop 1) = some (r, s))
      (verifies : P.ecdsaP256Verify x y r s (Bytes.fit 32 (chvHash P hash c.tbs)) = true)
  | rsa {c : X509} {hash : HashKind} {key n e : Bytes}
      (parsed : x509Parse child = some c) (consistent : sigalgConsistent child = true)
      (listed : sigalgLookup c.sigAlgOid = some ⟨.rsaPkcs1, hash⟩)
      (issuer : issuerKey parent = some (oidRsa, key)) (modulus : x509RsaPubkey key = some (n, e))
      (verifies : P.rsaPkcs1Verify n e (c.sig.drop 1) (chvHash P hash c.tbs) = true)

/-- One certificate is issued by the next, with `below` intermediates below the issuer. -/
structure Link (child parent : Bytes) (below : ℕ) : Prop where
  names : ∃ dn, certIssuer child = some dn ∧ certSubject parent = some dn
  ca : certIsCa parent = true
  signed : SignedBy P child parent
  pathLen : PathLenAdmits parent below

/-- A path, leaf first: below the issuer of the certificate at `i` stand the intermediates at
`1, …, i`. -/
def ValidPath (path : List Bytes) : Prop :=
  ∀ i, i + 1 < path.length → Link P (path.getD i []) (path.getD (i + 1) []) i

/-- The root the last certificate of a chain is checked against. -/
def anchor (s : Castore) (certs : List Bytes) : Option Bytes :=
  (certIssuer (certs.getD (certs.length - 1) [])).bind s.findBySubject

/-! ## What the checks ask -/

theorem subjectMatches_iff (dn cert : Bytes) :
    subjectMatches dn cert = true ↔ certSubject cert = some dn := by
  rw [subjectMatches]
  rcases certSubject cert with _ | subj
  · exact iff_of_false nofun nofun
  · rw [bytesEq_iff, Option.some.injEq, eq_comm]

theorem nextTagged_eq_some {seq v rest : Bytes} {want : UInt8}
    (h : nextTagged seq want = some (v, rest)) :
    ∃ e, derRead seq = some e ∧ e.tag = want ∧ e.val = v ∧ seq.drop e.consumed = rest := by
  obtain ⟨e, he, h⟩ := Option.bind_eq_some_iff.1 h
  obtain ⟨htag, h⟩ := Option.ite_none_right_eq_some.1 h
  obtain ⟨rfl, rfl⟩ := Prod.mk.inj (Option.some.inj h)
  exact ⟨e, he, htag, rfl, rfl⟩

variable {child parent : Bytes} {certs : List Bytes} {s : Castore}

theorem names_of_namesChain (h : namesChain child parent = true) :
    ∃ dn, certIssuer child = some dn ∧ certSubject parent = some dn := by
  rw [namesChain] at h
  rcases hiss : certIssuer child with _ | dn
  · simp [hiss] at h
  · rw [hiss] at h
    exact ⟨dn, rfl, (subjectMatches_iff dn parent).1 h⟩

variable {P}

theorem getD_false_iff (o : Option Bool) : o.getD false = true ↔ o = some true := by
  rcases o with _ | _ | _ <;> simp

theorem certSigned_eq_some {cert hash sig : Bytes} {sa : Sigalg}
    (h : certSigned P cert = some (sa, hash, sig)) :
    ∃ c, x509Parse cert = some c ∧ sigalgConsistent cert = true ∧
      sigalgLookup c.sigAlgOid = some sa ∧ hash = chvHash P sa.hashKind c.tbs ∧
        sig = c.sig.drop 1 := by
  rw [certSigned, Option.ite_none_right_eq_some] at h
  obtain ⟨hconsistent, h⟩ := h
  obtain ⟨⟨sa', digest⟩, hhash, h⟩ := Option.bind_eq_some_iff.1 h
  obtain ⟨sig', hsig, h⟩ := Option.bind_eq_some_iff.1 h
  obtain ⟨rfl, rfl, rfl⟩ : sa' = sa ∧ digest = hash ∧ sig' = sig := by
    simpa using h
  obtain ⟨c, hc, hhash⟩ := Option.bind_eq_some_iff.1 hhash
  obtain ⟨sa'', hlisted, hhash⟩ := Option.bind_eq_some_iff.1 hhash
  obtain ⟨rfl, rfl⟩ : sa'' = sa' ∧ chvHash P sa''.hashKind c.tbs = digest := by
    simpa using hhash
  rw [certSig, hc, Option.bind_eq_bind, Option.bind_some, Option.ite_none_left_eq_some] at hsig
  exact ⟨c, hc, hconsistent, hlisted, rfl, (Option.some.inj hsig.2).symm⟩

theorem signedBy_of_verifySignedBy (h : verifySignedBy P child parent = true) :
    SignedBy P child parent := by
  rw [verifySignedBy, getD_false_iff] at h
  obtain ⟨⟨alg, key⟩, hissuer, h₁⟩ := Option.bind_eq_some_iff.1 h
  obtain ⟨⟨⟨kind, hash⟩, digest, sig⟩, hsigned, h₂⟩ := Option.bind_eq_some_iff.1 h₁
  obtain ⟨c, hc, hconsistent, hlisted, rfl, rfl⟩ := certSigned_eq_some hsigned
  have hverify := Option.some.inj h₂
  rw [verifyByKey] at hverify
  cases kind with
  | ecdsa =>
    obtain ⟨halg, hverify⟩ := (Bool.and_eq_true _ _).mp hverify
    rw [chvVerifyEcdsa, getD_false_iff] at hverify
    obtain ⟨⟨x, y⟩, hpoint, h₃⟩ := Option.bind_eq_some_iff.1 hverify
    obtain ⟨⟨r, s⟩, hsplit, h₄⟩ := Option.bind_eq_some_iff.1 h₃
    obtain rfl := beq_iff_eq.1 halg
    exact .ecdsa hc hconsistent hlisted hissuer hpoint hsplit (Option.some.inj h₄)
  | rsaPkcs1 =>
    obtain ⟨halg, hverify⟩ := (Bool.and_eq_true _ _).mp hverify
    obtain rfl := beq_iff_eq.1 halg
    rw [chvVerifyRsa] at hverify
    rcases hkey : x509RsaPubkey key with _ | ⟨n, e⟩
    · rw [hkey] at hverify
      cases hverify
    · rw [hkey] at hverify
      exact .rsa hc hconsistent hlisted hissuer hkey hverify

/-- Behind cA of a CA stands nothing, or an INTEGER that is at least the depth. -/
theorem pathLenAdmits_of_certPathlenOk {cert : Bytes} {below : ℕ}
    (h : certPathlenOk cert below = true) : PathLenAdmits cert below := by
  intro limit hlimit
  obtain ⟨c, hc, h₁⟩ := Option.bind_eq_some_iff.1 hlimit
  obtain ⟨val, hval, h₂⟩ := Option.bind_eq_some_iff.1 h₁
  obtain ⟨⟨bc, _⟩, hbc, h₃⟩ := Option.bind_eq_some_iff.1 h₂
  obtain ⟨⟨_, rest⟩, hbool, h₄⟩ := Option.bind_eq_some_iff.1 h₃
  obtain ⟨⟨v, _⟩, hint, h₅⟩ := Option.bind_eq_some_iff.1 h₄
  obtain ⟨ca, hca, -, -, rfl⟩ := nextTagged_eq_some hbool
  obtain ⟨e, he, htag, rfl, -⟩ := nextTagged_eq_some hint
  have helem : bcPathlenElem val = some (derInteger, e.val) := by
    simp only [bcPathlenElem, hbc, hca, he, htag, Option.bind_eq_bind, Option.bind_some,
      Option.pure_def]
  rw [certPathlenOk, hc] at h
  simp only [x509PathlenAllows, hval, helem, bcPathlenOk] at h
  split at h
  · cases h
  · rename_i hwf
    have hpos : e.val.getD 0 0 &&& 0x80 = 0 := by
      simp only [not_or, not_not, bcUintWf, Bool.and_eq_true, beq_iff_eq] at hwf
      exact hwf.2.2
    rw [← Option.some.inj h₅, derInt, if_pos hpos]
    exact Int.ofNat_le.2 (of_decide_eq_true h)

/-- **The links of a chain.** -/
theorem link_of_stepOk {i : ℕ} (h : stepOk P certs i = true) :
    Link P (certs.getD i []) (certs.getD (i + 1) []) i := by
  simp only [stepOk, linkOk, Bool.and_eq_true] at h
  obtain ⟨⟨⟨hnames, hca⟩, hsigned⟩, hpath⟩ := h
  exact ⟨names_of_namesChain hnames, hca, signedBy_of_verifySignedBy hsigned,
    pathLenAdmits_of_certPathlenOk hpath⟩

/-- **The anchor.** Everything of a link but the pathLenConstraint. -/
theorem anchor_of_tailAnchored (h : tailAnchored P s (certs.getD (certs.length - 1) []) = true) :
    ∃ root, anchor s certs = some root ∧ root ∈ s.roots ∧
      ∀ below, PathLenAdmits root below ↔
        Link P (certs.getD (certs.length - 1) []) root below := by
  rw [tailAnchored, getD_false_iff] at h
  obtain ⟨iss, hiss, h⟩ := Option.bind_eq_some_iff.1 h
  obtain ⟨root, hroot, h⟩ := Option.bind_eq_some_iff.1 h
  rw [findCaAnchor] at hroot
  rcases hfind : s.findBySubject iss with _ | found
  · rw [hfind] at hroot
    cases hroot
  rw [hfind] at hroot
  obtain ⟨hca, hroot⟩ := Option.ite_none_right_eq_some.1 hroot
  obtain rfl := Option.some.inj hroot
  have hsubject : certSubject found = some iss :=
    (subjectMatches_iff iss found).1 (List.find?_some hfind)
  have hsigned := signedBy_of_verifySignedBy (Option.some.inj h)
  refine ⟨found, ?_, List.mem_of_find?_eq_some hfind, fun below => ⟨fun hpath => ?_, Link.pathLen⟩⟩
  · rw [anchor, hiss, Option.bind_some, hfind]
  · exact ⟨⟨iss, hiss, hsubject⟩, hca, hsigned, hpath⟩

theorem validateChain_eq_true (h : validateChain P s certs = true) :
    0 < certs.length ∧ (∀ i, i + 1 < certs.length → stepOk P certs i = true) ∧
      tailAnchored P s (certs.getD (certs.length - 1) []) = true := by
  rw [validateChain] at h
  split at h
  · cases h
  split at h
  · cases h
  rename_i hlen hlinks
  rw [not_not, linksOk, List.all_eq_true] at hlinks
  exact ⟨by omega, fun i hi => hlinks i (List.mem_range.2 (by omega)), h⟩

/-- **An accepted chain is a valid path exactly when its anchor admits it.** The chain and the root
it was anchored at are a valid path if and only if the root has no pathLenConstraint or one of at
least the number of intermediates; nothing else can be missing. -/
theorem accepted_path_iff (P : ChainPrimitives) (s : Castore) (certs : List Bytes)
    (hacc : validateChain P s certs = true) :
    ∃ root, anchor s certs = some root ∧ root ∈ s.roots ∧
      (ValidPath P (certs ++ [root]) ↔ PathLenAdmits root (certs.length - 1)) := by
  obtain ⟨hpos, hsteps, htail⟩ := validateChain_eq_true hacc
  obtain ⟨root, hroot, hmem, hlink⟩ := anchor_of_tailAnchored htail
  refine ⟨root, hroot, hmem, ?_⟩
  have hin {i : ℕ} (hi : i < certs.length) : (certs ++ [root]).getD i [] = certs.getD i [] :=
    List.getD_append _ _ _ _ hi
  have hlast : (certs ++ [root]).getD certs.length [] = root := by
    rw [List.getD_append_right _ _ _ _ (Nat.le_refl _), Nat.sub_self]
    rfl
  have hnext : certs.length - 1 + 1 = certs.length := by omega
  rw [hlink]
  constructor
  · intro hpath
    have := hpath (certs.length - 1) (by rw [List.length_append]; simp; omega)
    rwa [hin (by omega), hnext, hlast] at this
  · intro hanchor i hi
    rw [List.length_append, List.length_singleton] at hi
    rw [hin (by omega)]
    rcases Nat.lt_or_ge (i + 1) certs.length with hlt | hge
    · rw [hin hlt]
      exact link_of_stepOk (hsteps i hlt)
    · obtain rfl : i = certs.length - 1 := by omega
      rwa [hnext, hlast]

/-! ## A root that admits no intermediate -/

namespace Sample

/-- A DER element of fewer than 256 octets. -/
def elem (tag : UInt8) (val : Bytes) : Bytes :=
  if val.length < 128 then tag :: UInt8.ofNat val.length :: val
  else tag :: 0x81 :: UInt8.ofNat val.length :: val

/-- A Name, told apart by one octet. -/
def name (who : UInt8) : Bytes := elem derSequence [who]

/-- The signature algorithm ecdsa-with-SHA256. -/
def sigAlg : Bytes :=
  elem derSequence (elem derOid [0x2a, 0x86, 0x48, 0xce, 0x3d, 0x04, 0x03, 0x02])

/-- A P-256 key. -/
def spki : Bytes :=
  elem derSequence (elem derSequence (elem derOid oidEc) ++
    elem derBitString (0x00 :: 0x04 :: List.replicate 64 1))

/-- The basicConstraints extension, with `rest` behind cA. -/
def caExtensions (rest : Bytes) : Bytes :=
  elem extensionsTag (elem derSequence (elem derSequence (elem derOid oidBc ++
    elem derOctetString (elem derSequence (elem derBoolean [0xff] ++ rest)))))

/-- A certificate: serialNumber, signature, issuer, validity, subject, key and extensions, with an
ECDSA signature. -/
def cert (issuer subject : UInt8) (extensions : Bytes) : Bytes :=
  elem derSequence
    (elem derSequence (elem derInteger [1] ++ sigAlg ++ name issuer ++ elem derSequence [] ++
      name subject ++ spki ++ extensions) ++
    sigAlg ++
    elem derBitString (0x00 :: elem derSequence (elem derInteger [1] ++ elem derInteger [1])))

def leaf : Bytes := cert 2 3 []

def intermediate : Bytes := cert 1 2 (caExtensions [])

/-- A root with `pathLenConstraint` 0: it may issue leaves, and no intermediates. -/
def root : Bytes := cert 1 1 (caExtensions (elem derInteger [0]))

/-- A root without a constraint. -/
def freeRoot : Bytes := cert 1 1 (caExtensions [])

def store (root : Bytes) : Castore := ((Castore.init 1).add root).2

/-- Every signature verifies. -/
def primitives : ChainPrimitives where
  ecdsaP256Verify _ _ _ _ _ := true
  rsaPkcs1Verify _ _ _ _ := true
  sha384 _ := Vector.replicate 48 0
  sha512 _ := Vector.replicate 64 0

theorem root_pathLen : pathLenConstraint root = some 0 := by decide +kernel

theorem store_roots : (store root).roots = [root] := by decide +kernel

end Sample

open Sample

/-- The chain with one intermediate is accepted under a root that admits none, and is no valid path
to any root of the store. -/
theorem constrained_root_accepted :
    validateChain primitives (store root) [leaf, intermediate] = true ∧
      ∀ anchor ∈ (store root).roots, ¬ ValidPath primitives ([leaf, intermediate] ++ [anchor]) := by
  refine ⟨by decide +kernel, fun anchor hmem hpath => ?_⟩
  rw [store_roots] at hmem
  have hlast (a b c : Bytes) (h : ValidPath primitives ([a, b] ++ [c])) : Link primitives b c 1 :=
    h 1 (Nat.lt_succ_self 2)
  have hlimit := (hlast _ _ _ hpath).pathLen 0 (List.mem_singleton.1 hmem ▸ root_pathLen)
  exact absurd hlimit (by decide)

theorem accepted_path_iff_freeRoot :
    validateChain primitives (store freeRoot) [leaf, intermediate] = true ∧
      ∃ root, anchor (store freeRoot) [leaf, intermediate] = some root ∧
        root ∈ (store freeRoot).roots ∧
          (ValidPath primitives ([leaf, intermediate] ++ [root]) ↔ PathLenAdmits root 1) :=
  have hacc : validateChain primitives (store freeRoot) [leaf, intermediate] = true := by
    decide +kernel
  ⟨hacc, accepted_path_iff _ _ _ hacc⟩

end Pki

end QuicVibe
