import QuicVibe.Tls.ClientGate
import QuicVibe.Tls.ClientHello
/-!
# The ServerHello

`quic_tls_parse_server_hello` (`serverhello.c`) accepts a message exactly when it is the encoding of
`HelloFields` with a usable last key share; the writer (`shbuild.c`) writes such a message. The client
driver (`peer_keyshare` in `tlsdriver.c`) keeps the key share and drops the version and the cipher
suite, and never asks `quic_hrr_is_hello_retry` (`hrr_detect.c`).
-/

namespace QuicVibe

namespace Tls

open Crypto Packet Keys

/-! ## Fields -/

/-- The fields of a ServerHello. The block of extensions may end with up to three bytes no walk looks
at, and bytes may follow it in the body. -/
structure HelloFields where
  legacyVersion : ℕ
  random : Bytes32
  sid : Bytes
  cipher : ℕ
  compression : UInt8
  exts : List (ℕ × Bytes)
  slack : Bytes
  rest : Bytes
  legacyVersion_lt : legacyVersion < 65536
  sid_lt : sid.length < 256
  cipher_lt : cipher < 65536
  exts_fit : ∀ e ∈ exts, ExtFits e
  slack_lt : slack.length < 4
  block_lt : (encodeExts exts ++ slack).length < 65536
  body_lt : 40 + sid.length + (encodeExts exts ++ slack).length + rest.length < 2 ^ 24

/-- What the parser takes from an extension, behind what it took before. -/
def visitExt (acc : Option Bytes32 × Option ℕ) (e : ℕ × Bytes) : Option Bytes32 × Option ℕ :=
  (if e.1 = 51 then keyShareParse (fun i => e.2.getD i 0) 0 e.2.length else acc.1,
    if e.1 = 43 ∧ e.2.length = 2 then some (be16At (fun i => e.2.getD i 0) 0) else acc.2)

namespace HelloFields

variable (m : HelloFields)

/-- The body behind the session id. -/
def tail : Bytes :=
  putBe 2 m.cipher ++ (m.compression :: (vec 2 (encodeExts m.exts ++ m.slack) ++ m.rest))

def body : Bytes := putBe 2 m.legacyVersion ++ (m.random.toList ++ (vec 1 m.sid ++ m.tail))

/-- The message. -/
def encode : Bytes := hsMessage hsServerHello m.body

/-- What the parser makes of the fields. -/
def read : Option ServerHello :=
  let out := m.exts.foldl visitExt (none, none)
  out.1.map fun pub => { serverPub := pub, cipher := m.cipher, version := out.2 }

theorem length_body : m.body.length =
    40 + m.sid.length + (encodeExts m.exts ++ m.slack).length + m.rest.length := by
  simp only [body, tail, List.length_append, length_putBe, Vector.length_toList, length_vec,
    List.length_cons]
  omega

end HelloFields

variable {b m : Mem} {p q n stop : ℕ}

theorem visit_eq (b : Mem) : ExtView.visit b = fun acc v => visitExt acc (v.ext b) := by
  funext acc v
  have hlen := b.length_bytes v.off v.len
  have hsame : ∀ i, 0 ≤ i → i < v.len → b (v.off + i) = (b.bytes v.off v.len).getD i 0 :=
    fun i _ hi => (b.getD_bytes hi).symm
  have hkey : keyShareParse b v.off v.len =
      keyShareParse (fun i => (b.bytes v.off v.len).getD i 0) 0 v.len := by
    by_cases hn : v.len < 36
    · simp [keyShareParse, entryOk, hn]
    · have h₀ := be16At_congr (p := 0) hsame (Nat.le_refl 0) (by omega)
      have h₂ := be16At_congr (p := 2) hsame (Nat.zero_le _) (by omega)
      have h₄ := bytes32At_congr (p := 4) hsame (Nat.zero_le _) (by omega)
      rw [Nat.add_zero] at h₀
      simp only [keyShareParse, entryOk, h₀, h₂, h₄, Nat.zero_add]
  have hversion : v.len = 2 → be16At b v.off =
      be16At (fun i => (b.bytes v.off v.len).getD i 0) 0 := by
    intro htwo
    have h₀ := be16At_congr (p := 0) hsame (Nat.le_refl 0) (by omega)
    rwa [Nat.add_zero] at h₀
  simp only [ExtView.visit, visitExt, ExtView.ext, hlen, hkey]
  refine congrArg (Prod.mk _) ?_
  by_cases hv : v.type = 43 ∧ v.len = 2
  · rw [if_pos hv, if_pos hv, hversion hv.2]
  · rw [if_neg hv, if_neg hv]

theorem holds_body_iff {hello : HelloFields} {k : ℕ} (hk : hello.sid.length = k) :
    b.Holds 0 hello.body ↔
      b.Holds 0 (putBe 2 hello.legacyVersion) ∧ b.Holds 2 hello.random.toList ∧
      (b.Holds 34 (putBe 1 k) ∧ b.Holds 35 hello.sid) ∧ b.Holds (35 + k) (putBe 2 hello.cipher) ∧
      b (37 + k) = hello.compression ∧
      (b.Holds (38 + k) (putBe 2 (encodeExts hello.exts ++ hello.slack).length) ∧
        b.Holds (40 + k) (encodeExts hello.exts) ∧
        b.Holds (40 + k + (encodeExts hello.exts).length) hello.slack) ∧
      b.Holds (40 + k + (encodeExts hello.exts ++ hello.slack).length) hello.rest := by
  have h₁ : 2 + 32 + (1 + k) = 35 + k := by omega
  have h₂ : 35 + k + 2 = 37 + k := by omega
  have h₃ : 37 + k + 1 = 38 + k := by omega
  have h₄ : 38 + k + 2 = 40 + k := by omega
  rw [HelloFields.body, HelloFields.tail, vec, Mem.Holds.append_iff, Mem.Holds.append_iff,
    Mem.Holds.append_iff, Mem.Holds.append_iff, Mem.Holds.append_iff, Mem.Holds.cons_iff,
    Mem.Holds.append_iff, vec, Mem.Holds.append_iff, Mem.Holds.append_iff]
  simp only [List.length_append, length_putBe, Vector.length_toList, Nat.zero_add, hk, h₁, h₂, h₃,
    ← Nat.add_assoc (38 + k) 2, h₄]

theorem fields_of_holds {hello : HelloFields} (h : b.Holds 0 hello.body) :
    (b 34).toNat = hello.sid.length ∧ bytes32At b 2 = hello.random ∧
    be16At b (35 + hello.sid.length) = hello.cipher ∧
    be16At b (38 + hello.sid.length) = (encodeExts hello.exts ++ hello.slack).length ∧
    b.Holds (40 + hello.sid.length) (encodeExts hello.exts) := by
  obtain ⟨-, hrandom, ⟨hlen, -⟩, hcipher, -, ⟨hblock, hexts, -⟩, -⟩ := (holds_body_iff rfl).1 h
  have hsid := hello.sid_lt
  rw [putBe_one, Mem.Holds.cons_iff] at hlen
  refine ⟨?_, bytes32At_of_holds hrandom, be16At_of_holds hcipher hello.cipher_lt,
    be16At_of_holds hblock hello.block_lt, hexts⟩
  rw [hlen.1, UInt8.toNat_ofNat']
  omega

/-! ## The parser -/

variable {buf : Bytes}

theorem hsParse_lt {type : UInt8} (h : hsParse buf = some (type, n)) : n < 2 ^ 24 := by
  simp only [hsParse] at h
  split at h
  · cases h
  · split at h
    · cases h
    · obtain ⟨-, rfl⟩ := Prod.mk.inj (Option.some.inj h)
      refine Nat.lt_of_lt_of_le (readBe_lt _) ?_
      calc 256 ^ ((buf.drop 1).take 3).length
          _ ≤ 256 ^ 3 := Nat.pow_le_pow_right (by omega) (List.length_take_le _ _)
          _ = 2 ^ 24 := rfl

theorem bodyMem_encode (hello : HelloFields) (trailing : Bytes) (beyond : ℕ → UInt8) :
    (bodyMem (hello.encode ++ trailing) beyond).Holds 0 hello.body := by
  have h : Mem.Holds (inMemory (hello.encode ++ trailing) beyond) 0 (hello.encode ++ trailing) :=
    Mem.Holds.getD _ _
  have hbody : Mem.Holds (inMemory (hello.encode ++ trailing) beyond) 4 hello.body := by
    have hmsg := h.left
    nth_rewrite 2 [HelloFields.encode] at hmsg
    rw [hsMessage, Mem.Holds.cons_iff, Mem.Holds.append_iff, length_putBe] at hmsg
    exact hmsg.2.2
  intro i hi
  rw [← hbody i hi, Nat.zero_add, bodyMem]

theorem extViews_body {hello : HelloFields} (h : b.Holds 0 hello.body) {fuel : ℕ}
    (hfuel : (encodeExts hello.exts ++ hello.slack).length < fuel) :
    extViews b (40 + hello.sid.length + (encodeExts hello.exts ++ hello.slack).length) fuel
        (40 + hello.sid.length) = (viewsFrom (40 + hello.sid.length) hello.exts, true) := by
  obtain ⟨-, -, -, -, hexts⟩ := fields_of_holds h
  have hslack := hello.slack_lt
  have hcount := length_le_length_encodeExts hello.exts
  rw [List.length_append] at hfuel ⊢
  exact extViews_of_holds hello.exts_fit hexts (by omega) (by omega) (by omega)

/-- What the parser makes of a framed ServerHello with a session id of `k` bytes. -/
theorem parseServerHello_eq {k : ℕ} (hparse : hsParse buf = some (hsServerHello, n))
    (hk : (bodyMem buf (fun _ => 0) 34).toNat = k)
    (hstop : 40 + k + be16At (bodyMem buf fun _ => 0) (38 + k) = stop) :
    parseServerHello buf =
      if stop > n then none
      else (shWalk (bodyMem buf fun _ => 0) stop (stop + 1) (40 + k) none none).map fun out =>
        { serverPub := out.1, cipher := be16At (bodyMem buf fun _ => 0) (35 + k),
          version := out.2 } := by
  have hmem : (fun i => buf.getD (4 + i) 0) = bodyMem buf fun _ => 0 := rfl
  have hk : (buf.getD (4 + 34) 0).toNat = k := hk
  have hexts : 35 + k + 3 = 38 + k := by omega
  have hblock : 38 + k + 2 = 40 + k := by omega
  rw [parseServerHello, hparse]
  simp only [Option.bind_eq_bind, Option.bind_some, hmem, hk, hexts, hblock, hstop]
  by_cases hin : stop > n
  · rw [if_pos hin]
    split
    · rfl
    · rw [if_pos (Or.inr hin)]
  · rw [if_neg hin, if_neg (by simp; omega), if_neg (by omega)]
    cases shWalk (bodyMem buf fun _ => 0) stop (stop + 1) (40 + k) none none with
    | none => rfl
    | some out => rfl

/-- **An encoded ServerHello is read as its fields.** -/
theorem parseServerHello_encode (hello : HelloFields) (trailing : Bytes) :
    parseServerHello (hello.encode ++ trailing) = hello.read := by
  have hbody := hello.length_body
  have hlt := hello.body_lt
  have hparse : hsParse (hello.encode ++ trailing) = some (hsServerHello, hello.body.length) :=
    hsParse_hsMessage hsServerHello hello.body (by omega) trailing
  have hmem := bodyMem_encode hello trailing fun _ => 0
  obtain ⟨hsid, -, hcipher, hblock, hexts⟩ := fields_of_holds hmem
  rw [parseServerHello_eq hparse hsid (congrArg _ hblock), if_neg (by omega), shWalk_eq,
    extViews_body hmem (by omega), if_pos rfl, hcipher]
  have hvisit : (viewsFrom (40 + hello.sid.length) hello.exts).foldl
      (ExtView.visit (bodyMem (hello.encode ++ trailing) fun _ => 0)) (none, none) =
      hello.exts.foldl visitExt (none, none) := by
    nth_rewrite 2 [← ext_viewsFrom hexts]
    rw [List.foldl_map, visit_eq]
  simp only [hvisit, HelloFields.read, Option.map_map]
  rfl

theorem holds_bytes32At (b : Mem) (p : ℕ) : b.Holds p (bytes32At b p).toList := by
  intro i hi
  simp [bytes32At]

/-- **What the parser accepts is an encoded ServerHello**, in front of whatever follows it. -/
theorem parseServerHello_exact {sh : ServerHello} (h : parseServerHello buf = some sh) :
    ∃ (hello : HelloFields) (trailing : Bytes), buf = hello.encode ++ trailing := by
  obtain ⟨⟨type, n⟩, hparse, h'⟩ := Option.bind_eq_some_iff.1 h
  have htype : type = hsServerHello := by
    by_contra hne
    simp only [hne, ne_eq, not_false_eq_true, true_or, if_true] at h'
    cases h'
  subst htype
  clear h'
  obtain ⟨hfour, hbuf⟩ := hsParse_eq_some hparse
  have hn := hsParse_lt hparse
  generalize hb : (bodyMem buf fun _ => 0) = b
  generalize hk : (b 34).toNat = k
  generalize hstop : 40 + k + be16At b (38 + k) = stop
  rw [← hb] at hk hstop
  rw [parseServerHello_eq hparse hk hstop] at h
  rw [hb] at hk hstop h
  by_cases hin : stop > n
  · rw [if_pos hin] at h
    cases h
  · rw [if_neg hin, shWalk_eq] at h
    have hend : (extViews b stop (stop + 1) (40 + k)).2 = true := by
      by_contra hno
      rw [if_neg hno] at h
      cases h
    obtain ⟨exts, hfits, hexts, -, hle, hlt⟩ :=
      extViews_exact b (stop + 1) (show 40 + k ≤ stop by omega)
    have hlt := hlt hend
    have hk256 : k < 256 := by
      rw [← hk]
      exact (b 34).toNat_lt
    have hbe := be16At_lt b (38 + k)
    let slack := b.bytes (40 + k + (encodeExts exts).length)
      (stop - (40 + k + (encodeExts exts).length))
    have hslack : slack.length = stop - (40 + k + (encodeExts exts).length) := Mem.length_bytes _ _ _
    have hblock : (encodeExts exts ++ slack).length = be16At b (38 + k) := by
      rw [List.length_append, hslack]
      omega
    let hello : HelloFields := {
      legacyVersion := be16At b 0
      random := bytes32At b 2
      sid := b.bytes 35 k
      cipher := be16At b (35 + k)
      compression := b (37 + k)
      exts := exts
      slack := slack
      rest := b.bytes stop (n - stop)
      legacyVersion_lt := be16At_lt b 0
      sid_lt := by rw [Mem.length_bytes]; exact hk256
      cipher_lt := be16At_lt b _
      exts_fit := hfits
      slack_lt := by omega
      block_lt := by omega
      body_lt := by rw [Mem.length_bytes, Mem.length_bytes, hblock]; omega }
    have hlen : hello.body.length = n := by
      rw [hello.length_body]
      change 40 + (b.bytes 35 k).length + (encodeExts exts ++ slack).length +
        (b.bytes stop (n - stop)).length = n
      rw [Mem.length_bytes, Mem.length_bytes, hblock]
      omega
    have hholds : b.Holds 0 hello.body := by
      refine (holds_body_iff (Mem.length_bytes b 35 k)).2 ⟨holds_be16At b 0, holds_bytes32At b 2,
        ⟨?_, Mem.Holds.bytes b 35 k⟩, holds_be16At b _, rfl, ⟨?_, hexts, Mem.Holds.bytes b _ _⟩, ?_⟩
      · rw [putBe_one, Mem.Holds.cons_iff, Nat.mod_eq_of_lt hk256, ← hk, UInt8.ofNat_toNat]
        exact ⟨rfl, Mem.Holds.nil _ _⟩
      · rw [hblock]
        exact holds_be16At b _
      · rw [hblock, hstop]
        exact Mem.Holds.bytes b _ _
    have hbody : (buf.drop 4).take n = hello.body := by
      have hbuf : b.Holds 0 (buf.drop 4) := by
        rw [← hb]
        intro i hi
        rw [List.length_drop] at hi
        have hlt : 4 + i < buf.length := by omega
        simp [bodyMem, inMemory, hlt]
      refine (hbuf.take n).eq hholds ?_
      rw [List.length_take, List.length_drop, hlen]
      omega
    refine ⟨hello, (buf.drop 4).drop n, ?_⟩
    rw [HelloFields.encode, hsMessage, hlen, ← hbody, List.cons_append, List.append_assoc,
      List.take_append_drop]
    exact hbuf

/-! ## The writer -/

/-- `legacy_version`, TLS 1.2. -/
theorem legacyVersion_lt : 0x0303 < 65536 := by decide

theorem sid_lt_of_le {sid : Bytes} (hsid : sid.length ≤ 32) : sid.length < 256 := by omega

theorem builtHello_body_lt {sid : Bytes} (pub : Bytes32) (hsid : sid.length ≤ 32) :
    40 + sid.length + (encodeExts [(43, putBe 2 0x0304),
      (51, putBe 2 0x001d ++ putBe 2 32 ++ pub.toList)] ++ []).length + ([] : Bytes).length <
      2 ^ 24 := by
  simp
  omega

/-- The ServerHello that is written. -/
def builtHello (random : Bytes32) (sid : Bytes) (cipher : ℕ) (pub : Bytes32) (hsid : sid.length ≤ 32)
    (hcipher : cipher < 65536) : HelloFields where
  legacyVersion := 0x0303
  random := random
  sid := sid
  cipher := cipher
  compression := 0
  exts := [(43, putBe 2 0x0304), (51, putBe 2 0x001d ++ putBe 2 32 ++ pub.toList)]
  slack := []
  rest := []
  legacyVersion_lt := legacyVersion_lt
  sid_lt := sid_lt_of_le hsid
  cipher_lt := hcipher
  exts_fit := by simp [ExtFits]
  slack_lt := by simp
  block_lt := by simp
  body_lt := builtHello_body_lt pub hsid

theorem keyShareParse_of_holds {pub : Bytes32}
    (h : b.Holds p (putBe 2 0x001d ++ putBe 2 32 ++ pub.toList)) :
    keyShareParse b p 36 = some pub := by
  rw [List.append_assoc, Mem.Holds.append_iff, Mem.Holds.append_iff, length_putBe,
    length_putBe] at h
  obtain ⟨hgroup, hlen, hkey⟩ := h
  rw [keyShareParse, entryOk, be16At_of_holds hgroup (by omega), be16At_of_holds hlen (by omega),
    bytes32At_of_holds hkey]
  simp

section Built

variable {random pub : Bytes32} {sid : Bytes} {cipher cap : ℕ} (hsid : sid.length ≤ 32)
  (hcipher : cipher < 65536)

theorem read_builtHello : (builtHello random sid cipher pub hsid hcipher).read =
    some { serverPub := pub, cipher := cipher, version := some 0x0304 } := by
  have hkey : keyShareParse
      (fun i => (putBe 2 0x001d ++ putBe 2 32 ++ pub.toList : Bytes).getD i 0) 0 36 = some pub :=
    keyShareParse_of_holds (Mem.Holds.getD _ _)
  have hversion : be16At (fun i => (putBe 2 0x0304).getD i 0) 0 = 0x0304 := by decide
  have hlen : (putBe 2 0x001d ++ putBe 2 32 ++ pub.toList : Bytes).length = 36 := by simp
  simp only [HelloFields.read, builtHello, List.foldl_cons, List.foldl_nil, visitExt, hlen, hkey,
    hversion, length_putBe]
  simp

/-- **The writer** succeeds when the message fits and writes its fields. -/
theorem shbuildServerHello_eq : shbuildServerHello random sid cipher pub cap =
    if 90 + sid.length ≤ cap then some (builtHello random sid cipher pub hsid hcipher).encode
    else none := by
  have hmsg : (builtHello random sid cipher pub hsid hcipher).encode =
      hsMessage hsServerHello (putBe 2 0x0303 ++ random.toList ++ UInt8.ofNat sid.length :: sid ++
        putBe 2 cipher ++ [0] ++ (putBe 2 (extension 43 (putBe 2 0x0304) ++
          extension 51 (putBe 2 0x001d ++ putBe 2 32 ++ pub.toList)).length ++
          (extension 43 (putBe 2 0x0304) ++
            extension 51 (putBe 2 0x001d ++ putBe 2 32 ++ pub.toList)))) := by
    have hbyte : putBe 1 sid.length = [UInt8.ofNat sid.length] := by
      rw [putBe_one, Nat.mod_eq_of_lt (by omega)]
    simp [HelloFields.encode, HelloFields.body, HelloFields.tail, builtHello, vec, encodeExts, hbyte]
  rw [shbuildServerHello, hmsg]
  by_cases hcap : 90 + sid.length ≤ cap
  · rw [if_pos hcap, if_neg (by omega)]
    dsimp only
    rw [if_neg (by simp; omega)]
  · rw [if_neg hcap]
    split
    · rfl
    · dsimp only
      rw [if_pos (by simp; omega)]

end Built

/-- **Hello messages are read as they were written.** The ClientHello is written when its parts fit;
the server driver accepts it, whatever state it is in and whatever lies behind the message, with the
public key of the client, and the lookup finds the server name and the transport parameters in it.
The ServerHello is parsed to the key, the cipher suite and the version it was written with. -/
theorem hello_round_trip :
    (∀ (random pub : Bytes32) (sni tp : Bytes) (cap : ℕ), 1 ≤ sni.length → sni.length ≤ 255 →
      ((clientHello random pub sni tp cap).isSome = true ↔
        tp.length ≤ 2044 ∧ 138 + sni.length + tp.length ≤ cap) ∧
      ∀ ch, clientHello random pub sni tp cap = some ch →
        (∀ (s : Sdrv) (beyond : ℕ → UInt8), (s.recvClientHello ch beyond).1 = true ∧
          (s.recvClientHello ch beyond).2.clientPub = pub) ∧
        (∃ found, salpnFindExtension ch 0 = some found ∧
          salpnExtractSni (foundData ch found) = some sni) ∧
        (∃ found, salpnFindExtension ch 0x39 = some found ∧ foundData ch found = tp)) ∧
    (∀ (random : Bytes32) (sid : Bytes) (cipher : ℕ) (pub : Bytes32) (cap : ℕ), sid.length ≤ 32 →
      cipher < 65536 →
      ((shbuildServerHello random sid cipher pub cap).isSome = true ↔ 90 + sid.length ≤ cap) ∧
      ∀ sh, shbuildServerHello random sid cipher pub cap = some sh →
        parseServerHello sh =
          some { serverPub := pub, cipher := cipher, version := some 0x0304 }) := by
  constructor
  · intro random pub sni tp cap hpos hsni
    have hlen := length_clientExts pub sni tp
    rw [if_neg (by omega)] at hlen
    have hname : clientExts pub sni tp =
        [(43, 2 :: putBe 2 0x0304), (10, putBe 2 2 ++ putBe 2 0x001d),
         (13, putBe 2 6 ++ putBe 2 0x0403 ++ putBe 2 0x0804 ++ putBe 2 0x0807),
         (51, putBe 2 36 ++ (putBe 2 0x001d ++ (putBe 2 32 ++ pub.toList))),
         (0, vec 2 (0 :: vec 2 sni)), (16, vec 2 (vec 1 (ascii "h3"))), (0x39, tp)] := by
      rw [clientExts, if_neg (by omega)]
      rfl
    refine ⟨?_, fun ch hch => ⟨fun s beyond => ?_, ?_, ?_⟩⟩
    · rw [Option.isSome_iff_exists]
      constructor
      · rintro ⟨ch, hch⟩
        obtain ⟨⟨-, htp, hroom⟩, -⟩ := clientHello_eq_some.1 hch
        exact ⟨htp, by omega⟩
      · rintro ⟨htp, hroom⟩
        exact ⟨_, clientHello_eq_some.2 ⟨⟨hsni, htp, by omega⟩, rfl⟩⟩
    · obtain ⟨hkey, hsid⟩ := take_clientHello hch beyond
      have hacc : (s.recvClientHello ch beyond).1 = true := by
        rw [recvClientHello_fst, hkey, hsid]
        rfl
      refine ⟨hacc, ?_⟩
      rw [recvClientHello_accepts hacc] at hkey
      exact Option.some.inj hkey
    · obtain ⟨found, hfound, hdata⟩ :=
        find_clientHello hch 0 (vec 2 (0 :: vec 2 sni)) (by rw [hname]; rfl)
      exact ⟨found, hfound, by rw [hdata]; exact salpnExtractSni_vec hsni⟩
    · exact find_clientHello hch 0x39 tp (by rw [hname]; rfl)
  · intro random sid cipher pub cap hsid hcipher
    rw [shbuildServerHello_eq hsid hcipher]
    refine ⟨?_, fun sh hsh => ?_⟩
    · by_cases hcap : 90 + sid.length ≤ cap
      · simp [hcap]
      · simp [hcap]
    · split at hsh
      · have hparse := parseServerHello_encode (builtHello random sid cipher pub hsid hcipher) []
        rw [List.append_nil, read_builtHello] at hparse
        rw [← Option.some.inj hsh, hparse]
      · cases hsh

/-- Concrete hello messages make the round trip. -/
theorem hello_round_trip_example :
    (∀ ch, clientHello (Vector.replicate 32 1) (Vector.replicate 32 2) (ascii "example.org") [0, 1]
        512 = some ch → ∃ found, salpnFindExtension ch 0 = some found ∧
          salpnExtractSni (foundData ch found) = some (ascii "example.org")) ∧
    (shbuildServerHello (Vector.replicate 32 1) [7] 0x1301 (Vector.replicate 32 2) 512).isSome =
      true := by
  have hname : 1 ≤ (ascii "example.org").length ∧ (ascii "example.org").length ≤ 255 := by
    rw [ascii_eq]
    decide
  refine ⟨fun ch hch => ?_, ?_⟩
  · exact ((hello_round_trip.1 _ _ _ _ _ hname.1 hname.2).2 ch hch).2.1
  · exact (hello_round_trip.2 _ _ _ _ _ (by decide) (by omega)).1.2 (by decide)

/-! ## No downgrade -/

def hrrRandom : Bytes32 :=
  #v[0xcf, 0x21, 0xad, 0x74, 0xe5, 0x9a, 0x61, 0x11, 0xbe, 0x1d, 0x8c, 0x02, 0x1e, 0x65, 0xb8, 0x91,
     0xc2, 0xa2, 0x11, 0x16, 0x7a, 0xbb, 0x8c, 0x5e, 0x07, 0x9e, 0x09, 0xe2, 0xc8, 0xa8, 0x33, 0x9c]

def hrrIsHelloRetry (msg : Bytes) : Bool :=
  match hsParse msg with
  | none => false
  | some (type, n) =>
    type == hsServerHello && decide (34 ≤ n) && bytes32At (bodyMem msg fun _ => 0) 2 == hrrRandom

/-- The versions selected by the well-sized supported_versions extensions of a ServerHello. -/
def selectedVersions (msg : Bytes) : List ℕ :=
  let b := bodyMem msg fun _ => 0
  let k := (b 34).toNat
  let stop := 40 + k + be16At b (38 + k)
  (extViews b stop (stop + 1) (40 + k)).1.filterMap fun v =>
    if v.type = 43 ∧ v.len = 2 then some (be16At b v.off) else none

/-- A ServerHello that selects TLS 1.3 and the cipher suite the client offered, and is no
HelloRetryRequest. -/
structure HelloFields.NoDowngrade (m : HelloFields) : Prop where
  version : (43, putBe 2 0x0304) ∈ m.exts
  cipher : m.cipher = 0x1301
  random : m.random ≠ hrrRandom

theorem mem_selectedVersions_encode (hello : HelloFields) (trailing : Bytes) {v : ℕ}
    (hv : v < 65536) :
    v ∈ selectedVersions (hello.encode ++ trailing) ↔ (43, putBe 2 v) ∈ hello.exts := by
  have hmem := bodyMem_encode hello trailing fun _ => 0
  obtain ⟨hsid, -, -, hblock, hexts⟩ := fields_of_holds hmem
  have hviews := extViews_body hmem (Nat.lt_succ_of_le (Nat.le_add_left _ (40 + hello.sid.length)))
  simp only [selectedVersions, hsid, hblock]
  rw [hviews]
  generalize (bodyMem (hello.encode ++ trailing) fun _ => 0) = b at hexts ⊢
  have hmap := ext_viewsFrom hexts
  generalize viewsFrom (40 + hello.sid.length) hello.exts = views at hmap ⊢
  rw [List.mem_filterMap, ← hmap, List.mem_map]
  refine exists_congr fun view => and_congr_right fun _ => ?_
  have hbytes := Mem.Holds.bytes b view.off view.len
  constructor
  · intro h
    by_cases hcond : view.type = 43 ∧ view.len = 2
    · rw [if_pos hcond] at h
      obtain ⟨htype, hlen⟩ := hcond
      have hval := holds_be16At b view.off
      rw [Option.some.inj h] at hval
      refine Prod.ext htype (hbytes.eq hval ?_)
      rw [Mem.length_bytes, length_putBe, hlen]
    · rw [if_neg hcond] at h
      cases h
  · intro h
    obtain ⟨htype, hdata⟩ := Prod.mk.inj h
    have hlen : view.len = 2 := by
      rw [← b.length_bytes view.off view.len, hdata, length_putBe]
    rw [hdata] at hbytes
    rw [if_pos ⟨htype, hlen⟩, be16At_of_holds hbytes hv]

theorem recvCrypto_client {Store : Type} {P : ClientPrimitives Store} {d : Tlsdriver}
    {frames : Bytes} {beyond : ℕ → UInt8} (hrole : d.isServer = false)
    (hok : (d.recvCrypto P frames beyond).1 = true) :
    ∃ msg sh, (d.reassemble frames).1 = some msg ∧ parseServerHello msg = some sh := by
  obtain ⟨rx, hrx⟩ := d.reassemble_snd frames
  rw [Tlsdriver.recvCrypto] at hok
  generalize d.reassemble frames = r at hrx hok ⊢
  obtain ⟨out, d'⟩ := r
  obtain rfl : d' = { d with rx := rx } := hrx
  cases out with
  | none => cases hok
  | some msg =>
    cases hparse : parseServerHello msg with
    | none => simp [Tlsdriver.deriveHandshake, Tlsdriver.peerKeyshare, hrole, hparse] at hok
    | some sh => exact ⟨msg, sh, rfl, hparse⟩

/-- **What the client driver does not check.** What makes it succeed is an encoded ServerHello; it
selects TLS 1.3 and the offered cipher suite and is no HelloRetryRequest exactly when the values the
parser saw say so, which the driver drops. -/
theorem no_downgrade_iff {Store : Type} (P : ClientPrimitives Store) (d : Tlsdriver)
    (frames : Bytes) (beyond : ℕ → UInt8) (hrole : d.isServer = false)
    (hok : (d.recvCrypto P frames beyond).1 = true) :
    ∃ msg sh, (d.reassemble frames).1 = some msg ∧ parseServerHello msg = some sh ∧
      (∃ (hello : HelloFields) (trailing : Bytes), msg = hello.encode ++ trailing) ∧
      ∀ (hello : HelloFields) (trailing : Bytes), msg = hello.encode ++ trailing →
        (hello.NoDowngrade ↔ 0x0304 ∈ selectedVersions msg ∧ sh.cipher = 0x1301 ∧
          hrrIsHelloRetry msg = false) := by
  obtain ⟨msg, sh, hmsg, hparse⟩ := recvCrypto_client hrole hok
  refine ⟨msg, sh, hmsg, hparse, parseServerHello_exact hparse, ?_⟩
  rintro hello trailing rfl
  have hcipher : sh.cipher = hello.cipher := by
    rw [parseServerHello_encode] at hparse
    obtain ⟨pub, -, rfl⟩ := Option.map_eq_some_iff.1 hparse
    rfl
  have hretry : hrrIsHelloRetry (hello.encode ++ trailing) = decide (hello.random = hrrRandom) := by
    have hbody := hello.length_body
    have hlt := hello.body_lt
    have hframe : hsParse (hello.encode ++ trailing) = some (hsServerHello, hello.body.length) :=
      hsParse_hsMessage hsServerHello hello.body (by omega) trailing
    obtain ⟨-, hrandom, -⟩ := fields_of_holds (bodyMem_encode hello trailing fun _ => 0)
    have hroom : 34 ≤ hello.body.length := by omega
    simp [hrrIsHelloRetry, hframe, hrandom, hroom, beq_eq_decide]
  rw [mem_selectedVersions_encode hello trailing (by omega), hcipher, hretry, decide_eq_false_iff_not]
  exact ⟨fun h => ⟨h.version, h.cipher, h.random⟩, fun h => ⟨h.1, h.2.1, h.2.2⟩⟩

/-- The ServerHello of an honest server makes the driver succeed. -/
theorem no_downgrade_honest :
    let d := Repeated.memory.init (Vector.replicate 32 1) (Vector.replicate 32 1) false
    let frames := (Frame.putCrypto 512 ⟨0, Repeated.serverHello⟩).getD []
    (d.recvCrypto Repeated.primitives frames fun _ => 0).1 = true ∧
      ∃ msg, (d.reassemble frames).1 = some msg ∧
        ∃ (hello : HelloFields) (trailing : Bytes), msg = hello.encode ++ trailing := by
  intro d frames
  have hok : (d.recvCrypto Repeated.primitives frames fun _ => 0).1 = true := by decide +kernel
  obtain ⟨msg, sh, hmsg, -, hfields, -⟩ :=
    no_downgrade_iff Repeated.primitives d frames (fun _ => 0) rfl hok
  exact ⟨hok, msg, hmsg, hfields⟩

namespace Downgrade

/-- A HelloRetryRequest random, another cipher suite, and a key share as the only extension. -/
def hello : HelloFields where
  legacyVersion := 0x0303
  random := hrrRandom
  sid := []
  cipher := 0x1302
  compression := 0
  exts := [(51, putBe 2 0x001d ++ putBe 2 32 ++ List.replicate 32 9)]
  slack := []
  rest := []
  legacyVersion_lt := legacyVersion_lt
  sid_lt := clientPreamble.sid_lt
  cipher_lt := by omega
  exts_fit := by simp [ExtFits]
  slack_lt := by decide
  block_lt := by decide
  body_lt := by decide

/-- The message in one CRYPTO frame. -/
def frames : Bytes := (Frame.putCrypto 512 ⟨0, hello.encode⟩).getD []

def client : Tlsdriver :=
  Repeated.memory.init (Vector.replicate 32 1) (Vector.replicate 32 1) false

end Downgrade

/-- The client driver derives keys from it. -/
theorem downgraded_hello_accepted :
    (Downgrade.client.recvCrypto Repeated.primitives Downgrade.frames fun _ => 0).1 = true ∧
      (Downgrade.client.reassemble Downgrade.frames).1 = some Downgrade.hello.encode ∧
      (∀ e ∈ Downgrade.hello.exts, e.1 ≠ 43) ∧ Downgrade.hello.cipher ≠ 0x1301 ∧
      hrrIsHelloRetry Downgrade.hello.encode = true := by
  refine ⟨by decide +kernel, by decide +kernel, by decide, by decide, by decide +kernel⟩

end Tls

end QuicVibe
