import QuicVibe.Tls.Extensions
import QuicVibe.Tls.ServerGate
/-!
# The ClientHello

Its writer (`clienthello.c` over the extension encoders), and its two readers: the server driver,
which takes the key share (`sdrv.c`), and the lookup of an extension by its type (`ch_ext.c`,
`sni_extract.c`). The lookup compares the declared end of the extensions with the length of the
message, the driver does not; and the lookup stops at the first key share, the driver at the first one
with an x25519 entry.
-/

namespace QuicVibe

namespace Tls

open Crypto Packet Keys

/-! ## The writer -/

def sniEncode (cap : ℕ) (host : Bytes) : Option Bytes :=
  if host.length > 0xFFFF ∨ 3 + host.length > cap then none
  else some (0 :: (putBe 2 host.length ++ host))

def alpnEncode (cap : ℕ) (proto : Bytes) : Option Bytes :=
  if proto.length = 0 ∨ proto.length > 0xFF ∨ 3 + proto.length > cap then none
  else some (putBe 2 (1 + proto.length) ++ UInt8.ofNat proto.length :: proto)

def tpextEncode (cap : ℕ) (tp : Bytes) : Option Bytes :=
  if tp.length > 0xFFFF ∨ 4 + tp.length > cap then none else some (extension 0x39 tp)

/-- `append_core`: supported_versions, supported_groups, signature_algorithms and key_share. -/
def coreExts (pub : Bytes32) : List Bytes :=
  [extension 43 (2 :: putBe 2 0x0304),
   extension 10 (putBe 2 2 ++ putBe 2 0x001d),
   extension 13 (putBe 2 6 ++ putBe 2 0x0403 ++ putBe 2 0x0804 ++ putBe 2 0x0807),
   extension 51 (putBe 2 36 ++ (putBe 2 0x001d ++ (putBe 2 32 ++ pub.toList)))]

/-- `append_sni`; without a name there is no extension. -/
def appendSni (out : Bytes) (cap : ℕ) (sni : Bytes) : Option Bytes :=
  if sni.length = 0 then some out
  else do
    let entry ← sniEncode 258 sni
    putBytes out cap (extension 0 (putBe 2 entry.length ++ entry))

/-- `append_exts` behind `out`. The source goes on behind an extension that does not fit and drops
the message at the end. -/
def appendExts (out : Bytes) (cap : ℕ) (pub : Bytes32) (sni tp : Bytes) : Option Bytes := do
  let out ← (coreExts pub).foldlM (fun out ext => putBytes out cap ext) out
  let out ← appendSni out cap sni
  let alpn ← alpnEncode 16 (ascii "h3")
  let out ← putBytes out cap (extension 0x10 alpn)
  let ext ← tpextEncode 2048 tp
  putBytes out cap ext

/-- `put_prefix`: legacy version, random, an empty session id, one cipher suite, null compression. -/
def helloPrefix (random : Bytes32) : Bytes :=
  putBe 2 0x0303 ++ random.toList ++ [0] ++ putBe 2 2 ++ putBe 2 0x1301 ++ [1, 0]

/-- `quic_tls_client_hello`. The extensions are written behind the 47 bytes of header, prefix and
block length. -/
def clientHello (random pub : Bytes32) (sni tp : Bytes) (cap : ℕ) : Option Bytes := do
  if cap < 4 ∨ 4 + 41 + 2 > cap then none
  else
    let exts ← appendExts [] (cap - 47) pub sni tp
    if exts.length > 0xFFFF then none
    else some (hsMessage hsClientHello (helloPrefix random ++ (putBe 2 exts.length ++ exts)))

/-! ## The lookup -/

/-- `salpn_skip_v8` and `salpn_skip_v16`. -/
def salpnSkip (w : ℕ) (m : Mem) (stop p : ℕ) : Option ℕ :=
  if p + w > stop then none
  else
    let p' := p + w + prefixLen m p w
    if p' ≤ stop then some p' else none

/-- `to_exts`, from the start of the body at offset 4. -/
def toExts (m : Mem) (stop : ℕ) : Option ℕ := do
  let p ← salpnSkip 1 m stop (4 + 2 + 32)
  let p ← salpnSkip 2 m stop p
  salpnSkip 1 m stop p

/-- `scan`: offset and length of the data of the first extension of the type. -/
def salpnScan (m : Mem) (stop type : ℕ) : ℕ → ℕ → Option (ℕ × ℕ)
  | 0, _ => none
  | fuel + 1, q =>
    if q + 4 ≤ stop then
      let dlen := be16At m (q + 2)
      if q + 4 + dlen > stop then none
      else if be16At m q = type then some (q + 4, dlen)
      else salpnScan m stop type fuel (q + 4 + dlen)
    else none

def salpnFindExtension (ch : Bytes) (type : ℕ) : Option (ℕ × ℕ) := do
  let m := fun i => ch.getD i 0
  let p ← toExts m ch.length
  if p + 2 > ch.length then none
  else
    let stop := p + 2 + be16At m p
    if stop ≤ ch.length then salpnScan m stop type (stop + 1) (p + 2) else none

/-- The data of an extension found in a message. -/
def foundData (ch : Bytes) (found : ℕ × ℕ) : Bytes := (ch.drop found.1).take found.2

/-- `quic_tls_sni_decode`: the name of the entry at the front of the buffer. -/
def sniDecode (buf : Bytes) : Option Bytes :=
  if buf.length < 3 then none
  else
    let len := readBe ((buf.drop 1).take 2)
    if buf.getD 0 0 = 0 ∧ 3 + len ≤ buf.length then some ((buf.drop 3).take len) else none

def salpnExtractSni (data : Bytes) : Option Bytes :=
  if data.length < 2 then none
  else
    let listLen := readBe (data.take 2)
    if 2 + listLen > data.length then none else sniDecode ((data.drop 2).take listLen)

/-! ## The vectors in front of the extensions -/

/-- Session id, cipher suites and compression methods of a ClientHello. -/
structure Preamble where
  sid : Bytes
  suites : Bytes
  comp : Bytes
  sid_lt : sid.length < 256
  suites_lt : suites.length < 65536
  comp_lt : comp.length < 256

namespace Preamble

def encode (v : Preamble) : Bytes := vec 1 v.sid ++ (vec 2 v.suites ++ vec 1 v.comp)

theorem length_encode (v : Preamble) :
    v.encode.length = 4 + v.sid.length + v.suites.length + v.comp.length := by
  simp [encode]
  omega

end Preamble

variable {b m : Mem} {n stop : ℕ}

theorem chPrefix_of_holds {v : Preamble} (h : b.Holds 34 v.encode)
    (hn : 34 + v.encode.length + 2 ≤ n) : chPrefix b n = 34 + v.encode.length := by
  obtain ⟨hsid, hsuites, hcomp⟩ : b.Holds 34 (vec 1 v.sid) ∧
      b.Holds (34 + 1 + v.sid.length) (vec 2 v.suites) ∧
      b.Holds (34 + 1 + v.sid.length + 2 + v.suites.length) (vec 1 v.comp) := by
    rw [Preamble.encode, Mem.Holds.append_iff, Mem.Holds.append_iff, length_vec, length_vec] at h
    simpa only [Nat.add_assoc] using h
  have hlen := v.length_encode
  simp only [chPrefix]
  rw [skipVec_of_holds (Or.inl rfl) hsid v.sid_lt (by omega) (by omega),
    skipVec_of_holds (Or.inr rfl) hsuites v.suites_lt (by omega) (by omega),
    skipVec_of_holds (Or.inl rfl) hcomp v.comp_lt (by omega) (by omega), if_pos]
  · omega
  · simp only [prefixFits, Bool.and_eq_true, bne_iff_ne, decide_eq_true_eq]
    omega

/-- What the driver steps over are the vectors, and the length of the block lies behind them. -/
theorem chPrefix_exact (h : chPrefix b n ≠ 0) :
    ∃ v : Preamble, b.Holds 34 v.encode ∧ chPrefix b n = 34 + v.encode.length ∧
      34 + v.encode.length + 2 ≤ n := by
  have hfits : prefixFits (skipVec b n (skipVec b n (skipVec b n 34 1) 2) 1) 2 n = true := by
    by_contra hno
    exact h (by simp [chPrefix, hno])
  simp only [prefixFits, Bool.and_eq_true, bne_iff_ne, decide_eq_true_eq] at hfits
  obtain ⟨hthird, hroom⟩ := hfits
  obtain ⟨hsecond, comp, hcomp, hcomplt, -, hq₃⟩ := skipVec_exact (Or.inl rfl) hthird
  obtain ⟨hfirst, suites, hsuites, hsuiteslt, -, hq₂⟩ := skipVec_exact (Or.inr rfl) hsecond
  obtain ⟨-, sid, hsid, hsidlt, -, hq₁⟩ := skipVec_exact (Or.inl rfl) hfirst
  rw [hq₁] at hsuites hq₂
  rw [hq₁, hq₂] at hcomp hq₃
  rw [hq₁, hq₂, hq₃] at hroom
  let v : Preamble := ⟨sid, suites, comp, hsidlt, hsuiteslt, hcomplt⟩
  have hlen : v.encode.length = 4 + sid.length + suites.length + comp.length := v.length_encode
  have hholds : b.Holds 34 v.encode := by
    rw [Preamble.encode, Mem.Holds.append_iff, Mem.Holds.append_iff, length_vec, length_vec]
    simpa only [Nat.add_assoc] using And.intro hsid (And.intro hsuites hcomp)
  exact ⟨v, hholds, chPrefix_of_holds hholds (by omega), by omega⟩

theorem chPrefix_congr (h : ∀ i < n, m i = b i) : chPrefix m n = chPrefix b n := by
  have hone : ∀ {m b : Mem}, (∀ i < n, m i = b i) → chPrefix b n ≠ 0 →
      chPrefix m n = chPrefix b n := by
    intro m b h hne
    obtain ⟨v, hholds, hoff, hroom⟩ := chPrefix_exact hne
    rw [hoff]
    exact chPrefix_of_holds (hholds.congr fun i _ hi => h i (by omega)) hroom
  by_cases hb : chPrefix b n = 0
  · by_contra hne
    exact hne (hone (fun i hi => (h i hi).symm) (by rwa [hb] at hne)).symm
  · exact hone h hb

theorem salpnSkip_of_holds {w p : ℕ} {v : Bytes} (hw : w = 1 ∨ w = 2) (h : m.Holds p (vec w v))
    (hv : v.length < 256 ^ w) (hn : p + w + v.length ≤ stop) :
    salpnSkip w m stop p = some (p + w + v.length) := by
  simp only [salpnSkip, prefixLen_of_holds hw h.left hv]
  rw [if_neg (by omega), if_pos hn]

theorem toExts_of_holds {v : Preamble} (h : m.Holds 38 v.encode)
    (hn : 38 + v.encode.length ≤ stop) : toExts m stop = some (38 + v.encode.length) := by
  obtain ⟨hsid, hsuites, hcomp⟩ : m.Holds 38 (vec 1 v.sid) ∧
      m.Holds (38 + 1 + v.sid.length) (vec 2 v.suites) ∧
      m.Holds (38 + 1 + v.sid.length + 2 + v.suites.length) (vec 1 v.comp) := by
    rw [Preamble.encode, Mem.Holds.append_iff, Mem.Holds.append_iff, length_vec, length_vec] at h
    simpa only [Nat.add_assoc] using h
  have hlen := v.length_encode
  simp only [toExts, Option.bind_eq_bind]
  rw [salpnSkip_of_holds (Or.inl rfl) hsid v.sid_lt (by omega), Option.bind_some,
    salpnSkip_of_holds (Or.inr rfl) hsuites v.suites_lt (by omega), Option.bind_some,
    salpnSkip_of_holds (Or.inl rfl) hcomp v.comp_lt (by omega)]
  congr 1
  omega

theorem salpnScan_eq (m : Mem) (stop type fuel q : ℕ) :
    salpnScan m stop type fuel q =
      ((extViews m stop fuel q).1.find? fun v => v.type = type).map fun v => (v.off, v.len) := by
  induction fuel generalizing q with
  | zero => rfl
  | succ fuel ih =>
    simp only [salpnScan, extViews]
    by_cases hend : q + 4 > stop
    · rw [if_neg (by omega), if_pos hend]
      rfl
    · rw [if_pos (by omega), if_neg hend]
      by_cases hover : q + 4 + be16At m (q + 2) > stop
      · rw [if_pos hover, if_pos hover]
        rfl
      · rw [if_neg hover, if_neg hover]
        by_cases htype : be16At m q = type
        · rw [if_pos htype, List.find?_cons_of_pos (by simpa using htype)]
          rfl
        · rw [if_neg htype, List.find?_cons_of_neg (by simpa using htype), ih]

/-! ## The two readers -/

/-- The body of a message in memory. -/
def bodyMem (msg : Bytes) (beyond : ℕ → UInt8) : Mem := fun i => inMemory msg beyond (4 + i)

/-- Where the extensions of a ClientHello start and where they are declared to end, in its body. -/
def declaredBlock (ch : Bytes) : Option (ℕ × ℕ) := do
  let (type, n) ← hsParse ch
  let b := bodyMem ch fun _ => 0
  let exts := chPrefix b n
  if type ≠ hsClientHello ∨ exts = 0 then none
  else some (exts + 2, exts + 2 + be16At b exts)

/-- The declared block of extensions ends inside the handshake message. -/
def ExtsInside (ch : Bytes) : Prop :=
  ∃ q stop n, declaredBlock ch = some (q, stop) ∧ hsParse ch = some (hsClientHello, n) ∧ stop ≤ n

/-- The extensions a walk over the block meets. -/
def helloExts (ch : Bytes) : List (ℕ × Bytes) :=
  match declaredBlock ch with
  | none => []
  | some (q, stop) =>
    (extViews (bodyMem ch fun _ => 0) stop (stop + 1) q).1.map (ExtView.ext (bodyMem ch fun _ => 0))

section Readers

variable {ch : Bytes} {beyond : ℕ → UInt8} {q : ℕ}

theorem bodyMem_eq (hn : 4 + n ≤ ch.length) (beyond beyond' : ℕ → UInt8) {i : ℕ} (hi : i < n) :
    bodyMem ch beyond i = bodyMem ch beyond' i := by
  have hlt : 4 + i < ch.length := by omega
  simp [bodyMem, inMemory, hlt]

theorem declaredBlock_eq_some (h : declaredBlock ch = some (q, stop)) :
    ∃ n v, hsParse ch = some (hsClientHello, n) ∧ 4 + n ≤ ch.length ∧
      (bodyMem ch fun _ => 0).Holds 34 (Preamble.encode v) ∧ q = 34 + v.encode.length + 2 ∧ q ≤ n ∧
      stop = q + be16At (bodyMem ch fun _ => 0) (34 + v.encode.length) := by
  obtain ⟨⟨type, n⟩, hparse, h⟩ := Option.bind_eq_some_iff.1 h
  simp only at h
  split at h
  · cases h
  · rename_i hcond
    obtain ⟨rfl, hexts⟩ : type = hsClientHello ∧ chPrefix (bodyMem ch fun _ => 0) n ≠ 0 := by
      simpa using hcond
    obtain ⟨v, hholds, hoff, hroom⟩ := chPrefix_exact hexts
    obtain ⟨rfl, rfl⟩ := Prod.mk.inj (Option.some.inj h)
    rw [hoff]
    exact ⟨n, v, hparse, (hsParse_eq_some hparse).1, hholds, rfl, hroom, rfl⟩

/-- **The server driver**: the first usable key share of the declared block, wherever it lies. -/
theorem takeClientKeyshare_eq (ch : Bytes) (beyond : ℕ → UInt8) :
    takeClientKeyshare ch beyond = (declaredBlock ch).bind fun e =>
      (extViews (bodyMem ch beyond) e.2 (e.2 + 1) e.1).1.findSome?
        (ExtView.keyShare (bodyMem ch beyond)) := by
  simp only [← chWalk_eq]
  rw [takeClientKeyshare, declaredBlock]
  cases hparse : hsParse ch with
  | none => rfl
  | some hdr =>
    obtain ⟨type, n⟩ := hdr
    have hsame : ∀ i < n, bodyMem ch beyond i = bodyMem ch (fun _ => 0) i :=
      fun i hi => bodyMem_eq (hsParse_eq_some hparse).1 _ _ hi
    have hexts := chPrefix_congr hsame
    change (if type ≠ hsClientHello then none
      else if chPrefix (bodyMem ch beyond) n = 0 then none else chWalk (bodyMem ch beyond) _ _ _) = _
    rw [hexts]
    dsimp only [Option.bind_eq_bind, Option.bind_some]
    by_cases htype : type = hsClientHello
    · by_cases hzero : chPrefix (bodyMem ch fun _ => 0) n = 0
      · rw [if_neg (not_not.2 htype), if_pos hzero, if_pos (Or.inr hzero)]
        rfl
      · -- the length of the block lies inside the message
        obtain ⟨v, -, hoff, hroom⟩ := chPrefix_exact hzero
        have hblock : be16At (bodyMem ch beyond) (chPrefix (bodyMem ch fun _ => 0) n) =
            be16At (bodyMem ch fun _ => 0) (chPrefix (bodyMem ch fun _ => 0) n) := by
          rw [be16At, be16At, hsame _ (by omega), hsame _ (by omega)]
        rw [if_neg (not_not.2 htype), if_neg hzero, if_neg (by simp [htype, hzero]), Option.bind_some,
          ← hblock, ← hexts]
        rfl
    · rw [if_pos htype, if_pos (Or.inl htype)]
      rfl

theorem takeClientKeyshare_of_inside (h : ExtsInside ch) (beyond : ℕ → UInt8) :
    takeClientKeyshare ch beyond = (helloExts ch).findSome? keyShareOf := by
  obtain ⟨q, stop, n, hblock, hparse, hstop⟩ := h
  have hlen := (hsParse_eq_some hparse).1
  have hsame : ∀ i, q ≤ i → i < stop → bodyMem ch beyond (0 + i) = bodyMem ch (fun _ => 0) i := by
    intro i _ hi
    rw [Nat.zero_add]
    exact bodyMem_eq hlen _ _ (by omega)
  have hviews := extViews_congr (stop + 1) hsame
  rw [Nat.zero_add, Nat.zero_add] at hviews
  rw [takeClientKeyshare_eq, helloExts, hblock, Option.bind_some, keyShare_eq, ← List.findSome?_map]
  dsimp only
  rw [hviews, ext_extViews_congr hsame]

/-- **The lookup** inside the message: the first extension of the type. -/
theorem salpnFindExtension_of_inside (h : ExtsInside ch) (type : ℕ) :
    (salpnFindExtension ch type).map (foundData ch) =
      ((helloExts ch).find? fun e => e.1 = type).map Prod.snd := by
  obtain ⟨q, stop, n, hblock, hparse, hstop⟩ := h
  obtain ⟨n', v, hparse', hlen, hholds, hq, hqn, hdecl⟩ := declaredBlock_eq_some hblock
  obtain rfl : n' = n := by simpa [hparse] using hparse'.symm
  -- the lookup reads the message, four bytes in front of its body
  have hsame : ∀ i, bodyMem ch (fun _ => 0) i = ch.getD (4 + i) 0 := fun i => rfl
  have hto : toExts (fun i => ch.getD i 0) ch.length = some (38 + v.encode.length) := by
    refine toExts_of_holds (fun i hi => ?_) (by omega)
    rw [← hholds i hi, hsame]
    congr 1
    omega
  have hbe : be16At (fun i => ch.getD i 0) (38 + v.encode.length) =
      be16At (bodyMem ch fun _ => 0) (34 + v.encode.length) := by
    rw [show 38 + v.encode.length = 4 + (34 + v.encode.length) by omega]
    exact be16At_congr (fun i (_ : 0 ≤ i) (_ : i < n') => rfl) (by omega) (by omega)
  have hwalk : salpnFindExtension ch type =
      salpnScan (fun i => ch.getD i 0) (4 + stop) type (4 + stop + 1) (4 + q) := by
    rw [salpnFindExtension, hto]
    dsimp only [Option.bind_eq_bind, Option.bind_some]
    rw [hbe, if_neg (by omega), if_pos (by omega)]
    congr 1 <;> omega
  have hviews := extViews_congr (m := fun i => ch.getD i 0) (b := bodyMem ch fun _ => 0) (k := 4)
    (4 + stop + 1) fun i (_ : q ≤ i) (_ : i < stop) => rfl
  rw [hwalk, salpnScan_eq, hviews, helloExts, hblock, List.find?_map, List.find?_map,
    extViews_fuel (by omega) (by omega) (show stop < q + (stop + 1) by omega), Option.map_map,
    Option.map_map, Option.map_map]
  change Option.map _ (List.find? (fun v : ExtView => decide (v.type = type)) _) =
    Option.map _ (List.find? (fun v : ExtView => decide (v.type = type)) _)
  cases hfind : List.find? (fun v : ExtView => decide (v.type = type))
      (extViews (bodyMem ch fun _ => 0) stop (stop + 1) q).1 with
  | none => rfl
  | some v =>
    have hin := extViews_inside (List.mem_of_find?_eq_some hfind)
    have hdata := (((Mem.Holds.getD ch fun _ => 0).drop (4 + v.off)).take v.len).bytes_eq
    rw [List.length_take, List.length_drop, Nat.min_eq_left (by omega), Nat.zero_add] at hdata
    refine congrArg some (hdata.symm.trans ?_)
    refine List.map_congr_left fun i _ => ?_
    rw [Nat.add_assoc]
    rfl

end Readers

/-! ## A ClientHello stays in its message -/

/-- The key share in the extension the lookup finds. -/
def locatedKeyShare (ch : Bytes) : Option Bytes32 :=
  (salpnFindExtension ch 51).bind fun found => keyShareOf (51, foundData ch found)

/-- What the driver makes of a ClientHello is decided by the message alone. -/
structure Confined (s : Sdrv) (ch : Bytes) : Prop where
  /-- An accepted message holds the extensions it declares. -/
  inside : ∀ beyond, (s.recvClientHello ch beyond).1 = true → ExtsInside ch
  /-- What lies behind the message changes neither the verdict nor what is recorded. -/
  independent : ∀ beyond beyond', (s.recvClientHello ch beyond).1 = true →
    s.recvClientHello ch beyond' = s.recvClientHello ch beyond
  /-- The recorded key is that of the key share the lookup finds. -/
  located : ∀ beyond, (s.recvClientHello ch beyond).1 = true →
    locatedKeyShare ch = some (s.recvClientHello ch beyond).2.clientPub

theorem recvClientHello_fst (s : Sdrv) (ch : Bytes) (beyond : ℕ → UInt8) :
    (s.recvClientHello ch beyond).1 =
      ((takeClientKeyshare ch beyond).isSome && (takeClientSid ch).isSome) := by
  simp only [Sdrv.recvClientHello]
  cases takeClientKeyshare ch beyond with
  | none => rfl
  | some pub =>
    cases takeClientSid ch with
    | none => rfl
    | some sid => rfl

variable {ch sni tp : Bytes} {pub : Bytes32} {cap : ℕ}

theorem recvClientHello_congr (s : Sdrv) {beyond beyond' : ℕ → UInt8}
    (h : takeClientKeyshare ch beyond' = takeClientKeyshare ch beyond) :
    s.recvClientHello ch beyond' = s.recvClientHello ch beyond := by
  simp only [Sdrv.recvClientHello, h]

theorem recvClientHello_accepts {s : Sdrv} {beyond : ℕ → UInt8}
    (h : (s.recvClientHello ch beyond).1 = true) :
    takeClientKeyshare ch beyond = some (s.recvClientHello ch beyond).2.clientPub :=
  Server.recvClientHello_clientPub (Prod.ext h rfl)

/-- The first element with a property is the one taken, if it gives a value and no element without
the property does. -/
theorem findSome?_of_find? {α β : Type} {p : α → Bool} {f : α → Option β} {xs : List α} {x : α}
    {y : β} (hf : ∀ x, p x = false → f x = none) (hx : xs.find? p = some x) (hy : f x = some y) :
    xs.findSome? f = some y := by
  induction xs with
  | nil => cases hx
  | cons a xs ih =>
    cases ha : p a with
    | true =>
      obtain rfl : a = x := by simpa [ha] using hx
      simp [hy]
    | false =>
      rw [List.findSome?_cons, hf a ha]
      exact ih (by simpa [ha] using hx)

theorem takeClientKeyshare_of_located (h : ExtsInside ch) (hpub : locatedKeyShare ch = some pub)
    (beyond : ℕ → UInt8) : takeClientKeyshare ch beyond = some pub := by
  obtain ⟨found, hfound, hkey⟩ := Option.bind_eq_some_iff.1 hpub
  have hlookup := salpnFindExtension_of_inside h 51
  rw [hfound, Option.map_some] at hlookup
  obtain ⟨e, he, hdata⟩ := Option.map_eq_some_iff.1 hlookup.symm
  have htype : e.1 = 51 := by simpa using List.find?_some he
  rw [takeClientKeyshare_of_inside h]
  refine findSome?_of_find? (fun e he => if_neg (by simpa using he)) he ?_
  rw [← hkey, ← hdata, ← htype]

/-- **The driver stays in the message** exactly when it rejects the message whatever lies behind it,
or the declared extensions end inside it and the first key share among them has an x25519 entry. -/
theorem client_hello_confined_iff (s : Sdrv) (ch : Bytes) :
    Confined s ch ↔ (∀ beyond, (s.recvClientHello ch beyond).1 = false) ∨
      (ExtsInside ch ∧ (locatedKeyShare ch).isSome = true) := by
  constructor
  · intro h
    by_cases hacc : ∃ beyond, (s.recvClientHello ch beyond).1 = true
    · obtain ⟨beyond, hacc⟩ := hacc
      exact Or.inr ⟨h.inside beyond hacc, by rw [h.located beyond hacc]; rfl⟩
    · exact Or.inl fun beyond => by simpa using fun h => hacc ⟨beyond, h⟩
  · rintro (hrej | ⟨hin, hloc⟩)
    · have hno : ∀ {beyond}, (s.recvClientHello ch beyond).1 = true → False := by
        intro beyond hacc
        simp [hrej beyond] at hacc
      exact ⟨fun _ h => (hno h).elim, fun _ _ h => (hno h).elim, fun _ h => (hno h).elim⟩
    · obtain ⟨pub, hpub⟩ := Option.isSome_iff_exists.1 hloc
      have htake := takeClientKeyshare_of_located hin hpub
      refine ⟨fun _ _ => hin, fun beyond beyond' _ => ?_, fun beyond hacc => ?_⟩
      · exact recvClientHello_congr s ((htake beyond').trans (htake beyond).symm)
      · rw [hpub, ← recvClientHello_accepts hacc, htake beyond]

/-- A ClientHello that declares 42 bytes of extensions and ends there. -/
def truncatedHello : Bytes :=
  hsMessage hsClientHello (List.replicate 34 0 ++
    (vec 1 [] ++ (vec 2 [] ++ (vec 1 [] ++ putBe 2 42))))

/-- A key share behind the 44 bytes of the message. -/
def strayKeyShare (i : ℕ) : UInt8 :=
  (extension 51 (putBe 2 36 ++ (putBe 2 0x001d ++ (putBe 2 32 ++ List.replicate 32 9)))).getD
    (i - 44) 0

/-- A driver that has not seen a message. -/
def freshDriver : Sdrv where
  serverPriv := Vector.replicate 32 0
  serverPub := Vector.replicate 32 0
  p256Priv := Vector.replicate 32 0
  cert := []
  clientPub := Vector.replicate 32 0
  clientSid := []
  hsSecret := Vector.replicate 32 0
  sHsTraffic := Vector.replicate 32 0
  hsReady := false
  tr := Sha256.init
  odcid := []
  iscid := []

/-- The driver accepts a message without extensions for what lies behind it, and rejects the same
message in front of other bytes; the lookup finds no key share in it. -/
theorem truncated_hello_accepted :
    (freshDriver.recvClientHello truncatedHello strayKeyShare).1 = true ∧
      (freshDriver.recvClientHello truncatedHello strayKeyShare).2.clientPub =
        Vector.replicate 32 9 ∧
      (freshDriver.recvClientHello truncatedHello fun _ => 0).1 = false ∧
      locatedKeyShare truncatedHello = none ∧ ¬ ExtsInside truncatedHello := by
  have hstray : takeClientKeyshare truncatedHello strayKeyShare = some (Vector.replicate 32 9) := by
    decide +kernel
  have hacc : (freshDriver.recvClientHello truncatedHello strayKeyShare).1 = true := by
    rw [recvClientHello_fst, hstray]
    decide
  refine ⟨hacc, ?_, ?_, by decide, ?_⟩
  · rw [recvClientHello_accepts hacc] at hstray
    exact Option.some.inj hstray
  · rw [recvClientHello_fst]
    decide
  · rintro ⟨q, stop, n, hblock, hparse, hstop⟩
    have hn : hsParse truncatedHello = some (hsClientHello, 40) := by decide
    have hdecl : declaredBlock truncatedHello = some (40, 82) := by decide
    obtain ⟨-, rfl⟩ := Prod.mk.inj (Option.some.inj (hn.symm.trans hparse))
    obtain ⟨-, rfl⟩ := Prod.mk.inj (Option.some.inj (hdecl.symm.trans hblock))
    omega

/-! ## What was written is read -/

section Written

variable {head : Bytes} {v : Preamble} {exts : List (ℕ × Bytes)}

/-- A ClientHello with given fields. -/
def helloMessage (head : Bytes) (v : Preamble) (exts : List (ℕ × Bytes)) : Bytes :=
  hsMessage hsClientHello (head ++ (v.encode ++ vec 2 (encodeExts exts)))

theorem bodyMem_holds (type : UInt8) (body : Bytes) (beyond : ℕ → UInt8) :
    (bodyMem (hsMessage type body) beyond).Holds 0 body := by
  have h : Mem.Holds (inMemory (hsMessage type body) beyond) 0 (hsMessage type body) :=
    Mem.Holds.getD _ _
  have hbody : Mem.Holds (inMemory (hsMessage type body) beyond) 4 body := by
    nth_rewrite 2 [hsMessage] at h
    rw [Mem.Holds.cons_iff, Mem.Holds.append_iff, length_putBe] at h
    exact h.2.2
  intro i hi
  rw [← hbody i hi, Nat.zero_add, bodyMem]

theorem holds_helloMessage (hhead : head.length = 34) (beyond : ℕ → UInt8) :
    (bodyMem (helloMessage head v exts) beyond).Holds 34 v.encode ∧
    (bodyMem (helloMessage head v exts) beyond).Holds (34 + v.encode.length)
      (putBe 2 (encodeExts exts).length) ∧
    (bodyMem (helloMessage head v exts) beyond).Holds (34 + v.encode.length + 2)
      (encodeExts exts) := by
  have h : (bodyMem (helloMessage head v exts) beyond).Holds 0
      (head ++ (v.encode ++ vec 2 (encodeExts exts))) := bodyMem_holds _ _ beyond
  rw [Mem.Holds.append_iff, Mem.Holds.append_iff, vec, Mem.Holds.append_iff, hhead, length_putBe,
    Nat.zero_add] at h
  exact h.2

/-- A written ClientHello holds its extensions, and they are the ones met. -/
theorem helloExts_helloMessage (hhead : head.length = 34) (hfits : ∀ e ∈ exts, ExtFits e)
    (hblock : (encodeExts exts).length < 65536) :
    ExtsInside (helloMessage head v exts) ∧ helloExts (helloMessage head v exts) = exts := by
  have hlen := v.length_encode
  have hsid := v.sid_lt
  have hsuites := v.suites_lt
  have hcomp := v.comp_lt
  have hn : (head ++ (v.encode ++ vec 2 (encodeExts exts))).length =
      34 + v.encode.length + 2 + (encodeExts exts).length := by
    simp [hhead]
    omega
  have hparse : hsParse (helloMessage head v exts) =
      some (hsClientHello, 34 + v.encode.length + 2 + (encodeExts exts).length) := by
    have := hsParse_hsMessage hsClientHello (head ++ (v.encode ++ vec 2 (encodeExts exts)))
      (by omega) []
    rwa [List.append_nil, hn] at this
  obtain ⟨hpre, hbe, hexts⟩ := @holds_helloMessage head v exts hhead fun _ => 0
  have hbefore := chPrefix_of_holds hpre (Nat.le_add_right _ (encodeExts exts).length)
  have hdecl : declaredBlock (helloMessage head v exts) = some (34 + v.encode.length + 2,
      34 + v.encode.length + 2 + (encodeExts exts).length) := by
    rw [declaredBlock, hparse]
    dsimp only [Option.bind_eq_bind, Option.bind_some]
    rw [hbefore, if_neg (by simp), be16At_of_holds hbe hblock]
  have hcount := length_le_length_encodeExts exts
  refine ⟨⟨_, _, _, hdecl, hparse, Nat.le_refl _⟩, ?_⟩
  rw [helloExts, hdecl]
  dsimp only
  rw [extViews_of_holds hfits hexts (Nat.le_refl _) (by omega) (by omega)]
  exact ext_viewsFrom hexts

theorem takeClientSid_helloMessage (hhead : head.length = 34) (hsid : v.sid.length ≤ 32) :
    takeClientSid (helloMessage head v exts) = some v.sid := by
  have h : Mem.Holds (fun i => (helloMessage head v exts).getD i 0) 0 (helloMessage head v exts) :=
    Mem.Holds.getD _ _
  have hlen : 39 + v.sid.length ≤ (helloMessage head v exts).length := by
    simp [helloMessage, hhead, Preamble.encode]
    omega
  have hvec : Mem.Holds (fun i => (helloMessage head v exts).getD i 0) 38 (vec 1 v.sid) := by
    have hall := h
    nth_rewrite 2 [helloMessage] at hall
    rw [hsMessage, Mem.Holds.cons_iff, Mem.Holds.append_iff, Mem.Holds.append_iff, length_putBe,
      hhead, Preamble.encode, List.append_assoc, Mem.Holds.append_iff] at hall
    exact hall.2.2.2.1
  rw [vec, putBe_one, List.singleton_append, Mem.Holds.cons_iff] at hvec
  have hbyte : ((helloMessage head v exts).getD 38 0).toNat = v.sid.length := by
    rw [hvec.1, UInt8.toNat_ofNat']
    omega
  have hbytes : ((helloMessage head v exts).drop 39).take v.sid.length = v.sid := by
    refine ((h.drop 39).take v.sid.length).eq hvec.2 ?_
    rw [List.length_take, List.length_drop]
    omega
  rw [takeClientSid, hbyte, if_pos ⟨by omega, hsid, hlen⟩, hbytes]

end Written

/-- The extensions of a ClientHello, in order. -/
def clientExts (pub : Bytes32) (sni tp : Bytes) : List (ℕ × Bytes) :=
  [(43, 2 :: putBe 2 0x0304), (10, putBe 2 2 ++ putBe 2 0x001d),
   (13, putBe 2 6 ++ putBe 2 0x0403 ++ putBe 2 0x0804 ++ putBe 2 0x0807),
   (51, putBe 2 36 ++ (putBe 2 0x001d ++ (putBe 2 32 ++ pub.toList)))] ++
  (if sni.length = 0 then [] else [(0, vec 2 (0 :: vec 2 sni))]) ++
  [(16, vec 2 (vec 1 (ascii "h3"))), (0x39, tp)]

/-- The vectors of a ClientHello: no session id, one cipher suite, null compression. -/
def clientPreamble : Preamble where
  sid := []
  suites := putBe 2 0x1301
  comp := [0]
  sid_lt := by decide
  suites_lt := by decide
  comp_lt := by decide

theorem length_clientExts (pub : Bytes32) (sni tp : Bytes) :
    (encodeExts (clientExts pub sni tp)).length =
      82 + tp.length + if sni.length = 0 then 0 else 9 + sni.length := by
  have hproto : (ascii "h3").length = 2 := by rw [ascii_eq]; rfl
  rw [clientExts]
  split
  · simp [encodeExts, hproto]
    omega
  · simp [encodeExts, hproto]
    omega

theorem foldlM_putBytes (exts : List Bytes) {out out' : Bytes} (h : out.length ≤ cap) :
    exts.foldlM (fun out ext => putBytes out cap ext) out = some out' ↔
      out.length + exts.flatten.length ≤ cap ∧ out ++ exts.flatten = out' := by
  induction exts generalizing out with
  | nil => simp [h]
  | cons ext exts ih =>
    rw [List.foldlM_cons, Option.bind_eq_bind, Option.bind_eq_some_iff]
    simp only [putBytes_eq_some, List.flatten_cons, List.length_append]
    constructor
    · rintro ⟨out₁, ⟨hroom, rfl⟩, hrest⟩
      obtain ⟨hle, rfl⟩ := (ih (by simpa using hroom)).1 hrest
      simp only [List.length_append] at hle
      exact ⟨by omega, by simp⟩
    · rintro ⟨hle, rfl⟩
      refine ⟨_, ⟨by omega, rfl⟩, (ih (by simp; omega)).2 ⟨?_, by simp⟩⟩
      simp only [List.length_append]
      omega

/-- The encoders have room for a name of at most 255 and for parameters of at most 2044 bytes. -/
theorem appendExts_eq (cap : ℕ) (pub : Bytes32) (sni tp : Bytes) (hsni : sni.length ≤ 255)
    (htp : tp.length ≤ 2044) :
    appendExts [] cap pub sni tp =
      ((clientExts pub sni tp).map fun e => extension e.1 e.2).foldlM
        (fun out ext => putBytes out cap ext) [] := by
  have halpn : alpnEncode 16 (ascii "h3") = some (vec 2 (vec 1 (ascii "h3"))) := by
    rw [ascii_eq]
    rfl
  have hname : ∀ out, appendSni out cap sni =
      ((if sni.length = 0 then [] else [(0, vec 2 (0 :: vec 2 sni))]).map fun e =>
        extension e.1 e.2).foldlM (fun out ext => putBytes out cap ext) out := by
    intro out
    rw [appendSni]
    split
    · rfl
    · rw [sniEncode, if_neg (by omega)]
      simp [vec]
  rw [appendExts, halpn, tpextEncode, if_neg (by omega), clientExts, List.map_append,
    List.map_append, List.foldlM_append, List.foldlM_append]
  simp only [hname, bind_assoc]
  refine bind_congr fun out₁ => bind_congr fun out₂ => ?_
  simp only [List.map_cons, List.map_nil, List.foldlM_cons, List.foldlM_nil, bind_pure]
  rfl

theorem appendExts_bounds {out : Bytes} (h : appendExts [] cap pub sni tp = some out) :
    sni.length ≤ 255 ∧ tp.length ≤ 2044 := by
  simp only [appendExts, Option.bind_eq_bind, Option.bind_eq_some_iff] at h
  obtain ⟨out₁, -, out₂, hsni, alpn, -, out₃, -, ext, htp, -⟩ := h
  constructor
  · by_contra hlong
    rw [appendSni, if_neg (by omega), sniEncode, if_pos (by omega)] at hsni
    cases hsni
  · by_contra hlong
    rw [tpextEncode, if_pos (by omega)] at htp
    cases htp

/-- **The writer** succeeds when the name has at most 255 bytes, the parameters at most 2044 and the
message fits, and then writes the fields. -/
theorem clientHello_eq_some {random : Bytes32} :
    clientHello random pub sni tp cap = some ch ↔
      (sni.length ≤ 255 ∧ tp.length ≤ 2044 ∧
        47 + (encodeExts (clientExts pub sni tp)).length ≤ cap) ∧
      ch = helloMessage (putBe 2 0x0303 ++ random.toList) clientPreamble
        (clientExts pub sni tp) := by
  have hflat : ((clientExts pub sni tp).map fun e => extension e.1 e.2).flatten =
      encodeExts (clientExts pub sni tp) := rfl
  have hmsg : hsMessage hsClientHello (helloPrefix random ++
      (putBe 2 (encodeExts (clientExts pub sni tp)).length ++
        encodeExts (clientExts pub sni tp))) =
      helloMessage (putBe 2 0x0303 ++ random.toList) clientPreamble (clientExts pub sni tp) := by
    simp [helloMessage, helloPrefix, clientPreamble, Preamble.encode, vec, putBe_one, putBe_two]
  have hlen := length_clientExts pub sni tp
  rw [clientHello]
  constructor
  · intro h
    split at h
    · cases h
    · obtain ⟨exts, hexts, h⟩ := Option.bind_eq_some_iff.1 h
      obtain ⟨hsni, htp⟩ := appendExts_bounds hexts
      rw [appendExts_eq _ _ _ _ hsni htp, foldlM_putBytes _ (Nat.zero_le _), hflat] at hexts
      obtain ⟨hroom, rfl⟩ := hexts
      split at h
      · cases h
      · refine ⟨⟨hsni, htp, ?_⟩, ?_⟩
        · simp only [List.length_nil] at hroom
          omega
        · rw [← Option.some.inj h, List.nil_append, hmsg]
  · rintro ⟨⟨hsni, htp, hroom⟩, rfl⟩
    have hexts := (foldlM_putBytes ((clientExts pub sni tp).map fun e => extension e.1 e.2)
      (show ([] : Bytes).length ≤ cap - 47 from Nat.zero_le _)).2
      ⟨by rw [hflat, List.length_nil]; omega, rfl⟩
    rw [List.nil_append, hflat] at hexts
    rw [if_neg (by omega), appendExts_eq _ _ _ _ hsni htp, hexts]
    dsimp only [Option.bind_eq_bind, Option.bind_some]
    rw [if_neg (by split at hlen <;> omega), hmsg]

theorem clientExts_fits (hsni : sni.length ≤ 255) (htp : tp.length ≤ 2044) :
    ∀ e ∈ clientExts pub sni tp, ExtFits e := by
  have hproto : (ascii "h3").length = 2 := by rw [ascii_eq]; rfl
  intro e he
  simp only [clientExts, List.mem_append, List.mem_cons, List.not_mem_nil, or_false] at he
  rcases he with ((rfl | rfl | rfl | rfl) | he) | (rfl | rfl)
  all_goals try (simp [ExtFits, hproto]; done)
  · split at he
    · cases he
    · obtain rfl := List.mem_singleton.1 he
      simp only [ExtFits, length_vec, List.length_cons]
      omega
  · simp only [ExtFits]
    omega

section ClientWritten

variable {random pub : Bytes32} {sni tp ch : Bytes} {cap : ℕ}

theorem helloExts_clientHello (h : clientHello random pub sni tp cap = some ch) :
    ExtsInside ch ∧ helloExts ch = clientExts pub sni tp := by
  obtain ⟨⟨hsni, htp, -⟩, rfl⟩ := clientHello_eq_some.1 h
  refine helloExts_helloMessage (by simp) (clientExts_fits hsni htp) ?_
  rw [length_clientExts]
  split <;> omega

/-- **The driver accepts what was written**, with the key it was written with and no session id. -/
theorem take_clientHello (h : clientHello random pub sni tp cap = some ch) (beyond : ℕ → UInt8) :
    takeClientKeyshare ch beyond = some pub ∧ takeClientSid ch = some [] := by
  obtain ⟨hin, hexts⟩ := helloExts_clientHello h
  have hkey : keyShareOf (51, putBe 2 36 ++ (putBe 2 0x001d ++ (putBe 2 32 ++ pub.toList))) =
      some pub := by
    rw [keyShareOf, if_pos rfl]
    have hentry : (putBe 2 36 ++ (putBe 2 0x001d ++ (putBe 2 32 ++ pub.toList)) : Bytes).length =
        38 := by simp
    rw [hentry]
    exact keyShareScan_of_holds (Mem.Holds.getD _ _)
  constructor
  · rw [takeClientKeyshare_of_inside hin, hexts, clientExts]
    simp only [List.cons_append, List.findSome?_cons, hkey]
    rfl
  · obtain ⟨-, rfl⟩ := clientHello_eq_some.1 h
    exact takeClientSid_helloMessage (by simp) (by decide)

theorem find_clientHello (h : clientHello random pub sni tp cap = some ch) (type : ℕ)
    (data : Bytes)
    (hfind : (clientExts pub sni tp).find? (fun e => e.1 = type) = some (type, data)) :
    ∃ found, salpnFindExtension ch type = some found ∧ foundData ch found = data := by
  obtain ⟨hin, hexts⟩ := helloExts_clientHello h
  have hlookup := salpnFindExtension_of_inside hin type
  rw [hexts, hfind] at hlookup
  exact Option.map_eq_some_iff.1 hlookup

end ClientWritten

theorem salpnExtractSni_vec (h : sni.length ≤ 255) :
    salpnExtractSni (vec 2 (0 :: vec 2 sni)) = some sni := by
  have hlist : readBe ((vec 2 (0 :: vec 2 sni)).take 2) = 3 + sni.length := by
    rw [vec, List.take_left' (length_putBe 2 _), readBe_putBe, List.length_cons, length_vec,
      Nat.mod_eq_of_lt (by omega)]
    omega
  have hentry : ((vec 2 (0 :: vec 2 sni)).drop 2).take (3 + sni.length) = 0 :: vec 2 sni := by
    rw [vec, List.drop_left' (length_putBe 2 _), List.take_of_length_le]
    rw [List.length_cons, length_vec]
    omega
  have hlen : readBe (((0 :: vec 2 sni).drop 1).take 2) = sni.length := by
    rw [List.drop_succ_cons, List.drop_zero, vec, List.take_left' (length_putBe 2 _), readBe_putBe,
      Nat.mod_eq_of_lt (by omega)]
  have hname : ((0 :: vec 2 sni).drop 3).take sni.length = sni := by
    rw [List.drop_succ_cons, vec, List.drop_left' (length_putBe 2 _), List.take_length]
  have hdecode : sniDecode (0 :: vec 2 sni) = some sni := by
    simp only [sniDecode, hlen, hname]
    rw [if_neg (by simp only [List.length_cons, length_vec]; omega),
      if_pos ⟨rfl, by simp only [List.length_cons, length_vec]; omega⟩]
  simp only [salpnExtractSni, hlist, hentry, hdecode]
  rw [if_neg (by simp only [List.length_cons, length_vec]; omega),
    if_neg (by simp only [List.length_cons, length_vec]; omega)]

end Tls

end QuicVibe
