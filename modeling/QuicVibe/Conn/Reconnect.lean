import QuicVibe.Crypto.Sha256
import QuicVibe.Conn.Runner
import QuicVibe.Packet.Coalesce

/-!
# Retry and Version Negotiation

What a retry token binds (`retrytoken.c`), the two packets that make a client start over (`retry.c`,
`vneg.c`), and that the reconnect logic (`reconnect.c`) acts on at most one of each. Neither packet
has a Length field, and the datagram splitter in front of the reconnect logic reads one in every long
header.
-/

namespace QuicVibe

open Crypto Packet Run

namespace Conn

/-! ## Retry tokens -/

section

/-- `QUIC_RETRYTOKEN_MSG`. -/
abbrev retrytokenMsg : ℕ := 64

/-- The bytes that are authenticated. -/
def buildMsg (addr odcid : Bytes) : Bytes :=
  if addr.length + odcid.length > retrytokenMsg then [] else addr ++ odcid

def retrytokenMake (key : Vector UInt8 32) (addr odcid : Bytes) : Digest :=
  hmacSha256 key.toList (buildMsg addr odcid)

def retrytokenVerify (key : Vector UInt8 32) (addr odcid : Bytes) (token : Digest) : Bool :=
  ctDiff (retrytokenMake key addr odcid) token == 0

variable {key : Vector UInt8 32} {addr odcid addr' odcid' : Bytes}

/-- The HMAC under `key` does not collide on the messages of the two pairs. -/
def NoCollision (key : Vector UInt8 32) (addr odcid addr' odcid' : Bytes) : Prop :=
  retrytokenMake key addr' odcid' = retrytokenMake key addr odcid →
    buildMsg addr' odcid' = buildMsg addr odcid

/-- A token is accepted for a pair with the same message, and for no other. -/
theorem retrytokenVerify_make_iff (h : NoCollision key addr odcid addr' odcid') :
    retrytokenVerify key addr' odcid' (retrytokenMake key addr odcid) = true ↔
      buildMsg addr' odcid' = buildMsg addr odcid := by
  rw [retrytokenVerify, beq_iff_eq, ctDiff_eq_zero_iff]
  refine ⟨h, fun heq => ?_⟩
  rw [retrytokenMake, heq, retrytokenMake]

/-- **What a token binds.** A token made for one pair is refused for every other exactly where the
two pairs have different messages. -/
theorem retrytoken_binds_iff (h : NoCollision key addr odcid addr' odcid') :
    (retrytokenVerify key addr' odcid' (retrytokenMake key addr odcid) = true →
        addr' = addr ∧ odcid' = odcid) ↔
      (addr' = addr ∧ odcid' = odcid) ∨ buildMsg addr' odcid' ≠ buildMsg addr odcid := by
  rw [retrytokenVerify_make_iff h]
  by_cases hmsg : buildMsg addr' odcid' = buildMsg addr odcid
  · exact ⟨fun hb => Or.inl (hb hmsg), fun hor _ => hor.resolve_right (not_not_intro hmsg)⟩
  · exact ⟨fun _ => Or.inr hmsg, fun _ he => absurd he hmsg⟩

/-- A token for one split of three bytes is accepted for another, and a token for an address that
does not fit for any other such address. -/
theorem retrytoken_rebinds :
    retrytokenVerify (Vector.replicate 32 0) [1] [2, 3]
        (retrytokenMake (Vector.replicate 32 0) [1, 2] [3]) = true ∧
      retrytokenVerify (Vector.replicate 32 0) (List.replicate 65 1) []
        (retrytokenMake (Vector.replicate 32 0) (List.replicate 65 0) []) = true := by
  refine ⟨(retrytokenVerify_make_iff fun _ => ?_).2 ?_,
    (retrytokenVerify_make_iff fun _ => ?_).2 ?_⟩
  all_goals decide

theorem retrytoken_binds_self :
    retrytokenVerify (Vector.replicate 32 0) [1] [2]
        (retrytokenMake (Vector.replicate 32 0) [1] [2]) = true ∧
      ([1] : Bytes) = [1] ∧ ([2] : Bytes) = [2] :=
  have hverify := (retrytokenVerify_make_iff fun _ => rfl).2 rfl
  ⟨hverify, (retrytoken_binds_iff fun _ => rfl).2 (Or.inl ⟨rfl, rfl⟩) hverify⟩

end

/-! ## Building -/

def retryBuild (cap version : ℕ) (dcid scid token : Bytes) (tag : Block) : Option Bytes :=
  if 5 + 1 + dcid.length + 1 + scid.length + token.length + 16 ≤ cap then
    some (0xF0 :: (putBe 4 version ++ (cidField dcid ++ (cidField scid ++ (token ++ tag.toList)))))
  else none

/-- `quic_vneg_build`: at least one version. -/
def vnegBuild (cap : ℕ) (dcid scid : Bytes) (versions : List ℕ) : Option Bytes :=
  if versions.length ≠ 0 ∧ 5 + 1 + dcid.length + 1 + scid.length + versions.length * 4 ≤ cap then
    some (0x80 :: (putBe 4 0 ++ (cidField dcid ++ (cidField scid ++ versions.flatMap (putBe 4)))))
  else none

/-! ## The connection ids in front -/

section

variable (b : UInt8) (version : ℕ) (dcid scid rest : Bytes)

/-- Byte 0, version, both connection ids, and what follows them. -/
def longBytes : Bytes := b :: (putBe 4 version ++ (cidField dcid ++ (cidField scid ++ rest)))

/-- The offset behind the connection ids. -/
def cidsEnd : ℕ := 5 + (1 + dcid.length) + (1 + scid.length)

theorem length_longBytes :
    (longBytes b version dcid scid rest).length = cidsEnd dcid scid + rest.length := by
  simp [longBytes, cidsEnd]
  omega

theorem drop_five_longBytes :
    (longBytes b version dcid scid rest).drop 5 = cidField dcid ++ (cidField scid ++ rest) := by
  rw [longBytes, List.drop_succ_cons, List.drop_left' (length_putBe 4 version)]

theorem drop_dcid_longBytes :
    (longBytes b version dcid scid rest).drop (5 + (1 + dcid.length)) = cidField scid ++ rest := by
  rw [← List.drop_drop, drop_five_longBytes, List.drop_left' (length_cidField dcid)]

theorem drop_cidsEnd_longBytes :
    (longBytes b version dcid scid rest).drop (cidsEnd dcid scid) = rest := by
  rw [cidsEnd, ← List.drop_drop, drop_dcid_longBytes, List.drop_left' (length_cidField scid)]

theorem version_longBytes :
    ((longBytes b version dcid scid rest).drop 1).take 4 = putBe 4 version := by
  rw [longBytes, List.drop_succ_cons, List.drop_zero, List.take_left' (length_putBe 4 version)]

variable {dcid scid}

theorem skipCid_of_drop {buf cid rest : Bytes} {off : ℕ} (hcid : cid.length < 256)
    (hdrop : buf.drop off = cidField cid ++ rest) :
    skipCid buf off = some (off + (1 + cid.length)) := by
  have hhead : buf[off]? = some (UInt8.ofNat cid.length) := by
    rw [← List.head?_drop, hdrop]
    rfl
  have hlen : buf.length = off + (1 + cid.length + rest.length) := by
    have h₁ := congrArg List.length hdrop
    have h₂ : off < buf.length := (List.getElem?_eq_some_iff.1 hhead).1
    simp only [List.length_drop, List.length_append, length_cidField] at h₁
    omega
  have hnat : (UInt8.ofNat cid.length).toNat = cid.length := by
    rw [UInt8.toNat_ofNat']
    omega
  simp only [skipCid, hhead, Option.bind_eq_bind, Option.bind_some, hnat]
  rw [if_pos (by omega), Nat.add_assoc]

theorem longPacketLen_longBytes (hd : dcid.length < 256) (hs : scid.length < 256) :
    longPacketLen (longBytes b version dcid scid rest) =
      ((if (b >>> 4) &&& 0x3 = 0 then skipToken rest 0 else some 0).bind fun p =>
        (varintTake rest p).bind fun r =>
          if r.2 + r.1 > rest.length then none
          else some (cidsEnd dcid scid + (r.2 + r.1))) := by
  set buf := longBytes b version dcid scid rest with hbuf
  have hlen : buf.length = cidsEnd dcid scid + rest.length := length_longBytes ..
  have hle : cidsEnd dcid scid ≤ buf.length := by omega
  have hdrop : buf.drop (cidsEnd dcid scid) = rest := drop_cidsEnd_longBytes ..
  have hfive : ¬ 5 > buf.length := by
    rw [hlen, cidsEnd]
    omega
  have hdcid : skipCid buf 5 = some (5 + (1 + dcid.length)) :=
    skipCid_of_drop hd (drop_five_longBytes b version dcid scid rest)
  have hscid : skipCid buf (5 + (1 + dcid.length)) = some (cidsEnd dcid scid) :=
    skipCid_of_drop hs (drop_dcid_longBytes b version dcid scid rest)
  have htoken : skipToken buf (cidsEnd dcid scid) =
      (skipToken rest 0).map (cidsEnd dcid scid + ·) := by
    rw [← hdrop, ← skipToken_add hle, Nat.add_zero]
  have hbound : ∀ p, ((varintTake buf (cidsEnd dcid scid + p)).bind fun r =>
      if r.2 + r.1 > buf.length then none else some (r.2 + r.1)) =
      (varintTake rest p).bind fun r =>
        if r.2 + r.1 > rest.length then none else some (cidsEnd dcid scid + (r.2 + r.1)) := by
    intro p
    rw [varintTake_add, hdrop]
    cases varintTake rest p with
    | none => rfl
    | some r =>
      simp only [Option.map_some, Option.bind_some, hlen]
      by_cases hlong : r.2 + r.1 > rest.length
      · rw [if_pos hlong, if_pos (by omega)]
      · rw [if_neg hlong, if_neg (by omega), Nat.add_assoc]
  have hhead : buf.getD 0 0 = b := rfl
  simp only [longPacketLen, hfive, if_false, hdcid, hscid, hhead, Option.bind_eq_bind,
    Option.bind_some]
  split
  · rw [htoken]
    cases skipToken rest 0 with
    | none => rfl
    | some p => exact hbound p
  · exact hbound 0

end

variable {cap : ℕ} {dcid scid : Bytes} {versions : List ℕ} {version : ℕ} {token out : Bytes}
  {tag : Block}

theorem retryBuild_eq_some (h : retryBuild cap version dcid scid token tag = some out) :
    out = longBytes 0xF0 version dcid scid (token ++ tag.toList) :=
  (Option.some.inj (Option.ite_none_right_eq_some.1 h).2).symm

theorem vnegBuild_eq_some (h : vnegBuild cap dcid scid versions = some out) :
    out = longBytes 0x80 0 dcid scid (versions.flatMap (putBe 4)) :=
  (Option.some.inj (Option.ite_none_right_eq_some.1 h).2).symm

/-! ## Parsing what was built -/

variable (aes : Block → Block → Block)

namespace Runner

variable (r : Runner)

/-- The packets of a datagram that the reconnect logic takes, out of what
`quic_connrunner_process_datagram` makes of each. -/
def reconnected (r : Runner) (dgram : Bytes) : List Bytes :=
  (((udploopSplit connrunnerMaxpkts dgram).zip (r.processDatagram aes dgram).1).filter
    fun e => e.2 = .reconnect).map Prod.fst

/-- Whether the reconnect logic takes a packet does not depend on the runner. -/
def takenByReconnect (pkt : Bytes) : Bool :=
  packetIsLong (pkt.getD 0 0) && (isVneg pkt || packetLongType (pkt.getD 0 0) = 3)

theorem recvReconnect_isSome (pkt : Bytes) :
    (r.recvReconnect aes pkt).isSome = takenByReconnect pkt := by
  unfold recvReconnect driveLong takenByReconnect
  cases packetIsLong (pkt.getD 0 0) with
  | false => rfl
  | true =>
    cases isVneg pkt with
    | true => rfl
    | false =>
      by_cases htype : packetLongType (pkt.getD 0 0) = 3 <;>
        simp only [htype, Bool.not_true, Bool.false_eq_true, if_false, if_true, Option.isSome_some,
          Option.isSome_none, Bool.false_or, Bool.true_and, decide_true, decide_false]

/-- What is answered with `.reconnect` is what the reconnect logic took. -/
theorem recvOne_reconnect_iff (pkt : Bytes) :
    (r.recvOne aes pkt).1 = .reconnect ↔ takenByReconnect pkt = true := by
  rw [← r.recvReconnect_isSome aes pkt]
  unfold recvOne
  cases r.recvReconnect aes pkt with
  | some r' => exact ⟨fun _ => rfl, fun _ => rfl⟩
  | none =>
    refine iff_of_false ?_ Bool.false_ne_true
    cases packetLevel (pkt.getD 0 0) with
    | none => exact nofun
    | some level =>
      dsimp only
      split
      · exact nofun
      · unfold openOne
        dsimp only
        split <;> exact nofun

theorem zip_processPackets (pkts : List Bytes) :
    ((pkts.zip (r.processPackets aes pkts).1).filter fun e => e.2 = .reconnect).map Prod.fst =
      pkts.filter takenByReconnect := by
  induction pkts generalizing r with
  | nil => rfl
  | cons pkt pkts ih =>
    have hfirst := r.recvOne_reconnect_iff aes pkt
    rw [← processPacket_fst] at hfirst
    simp only [processPackets, List.zip_cons_cons]
    by_cases htaken : takenByReconnect pkt = true
    · rw [List.filter_cons_of_pos (by simpa using hfirst.2 htaken), List.filter_cons_of_pos htaken,
        List.map_cons, ih]
    · rw [List.filter_cons_of_neg (by simpa using mt hfirst.1 htaken),
        List.filter_cons_of_neg htaken, ih]

theorem reconnected_eq (dgram : Bytes) :
    r.reconnected aes dgram = (udploopSplit connrunnerMaxpkts dgram).filter takenByReconnect :=
  r.zip_processPackets aes _

/-- A datagram that is for the reconnect logic gets there whole exactly if the splitter reads a
Length field that reaches its end. -/
theorem reconnected_eq_singleton_iff {dgram : Bytes} (htaken : takenByReconnect dgram = true) :
    r.reconnected aes dgram = [dgram] ↔ longPacketLen dgram = some dgram.length := by
  have hlong : dgram.getD 0 0 &&& 0x80 ≠ 0 := by
    rw [takenByReconnect, Bool.and_eq_true] at htaken
    exact of_decide_eq_true htaken.1
  obtain ⟨hself, hwhole⟩ := mem_udploopSplit_self_iff 7 hlong
  rw [reconnected_eq, connrunnerMaxpkts, ← hself]
  constructor
  · intro heq
    exact List.mem_of_mem_filter (heq ▸ List.mem_singleton.2 rfl)
  · intro hmem
    rw [hwhole (hself.1 hmem), List.filter_singleton, htaken]
    rfl

/-- From `p` on, the bytes read as a Length field that covers exactly what follows it. -/
def LengthAt (bytes : Bytes) (p : ℕ) : Prop :=
  ∃ length q, varintTake bytes p = some (length, q) ∧ q + length = bytes.length

theorem packetBound_iff (bytes : Bytes) (p n : ℕ) :
    ((varintTake bytes p).bind fun r =>
      if r.2 + r.1 > bytes.length then none else some (n + (r.2 + r.1))) =
        some (n + bytes.length) ↔ LengthAt bytes p := by
  unfold LengthAt
  cases varintTake bytes p with
  | none => simp
  | some r =>
    obtain ⟨length, q⟩ := r
    simp only [Option.bind_some, Option.some.injEq, Prod.mk.injEq]
    constructor
    · intro h
      split at h
      · cases h
      · have := Option.some.inj h
        exact ⟨length, q, ⟨rfl, rfl⟩, by omega⟩
    · rintro ⟨_, _, ⟨rfl, rfl⟩, heq⟩
      rw [if_neg (by omega), heq]

theorem takenByReconnect_retry (version : ℕ) (dcid scid rest : Bytes) :
    takenByReconnect (longBytes 0xF0 version dcid scid rest) = true := by
  have htype : packetLongType 0xF0 = 3 := by decide
  have hlong : packetIsLong 0xF0 = true := by decide
  rw [takenByReconnect, show (longBytes 0xF0 version dcid scid rest).getD 0 0 = 0xF0 from rfl, hlong,
    htype, decide_eq_true rfl, Bool.or_true]
  rfl

theorem takenByReconnect_vneg (dcid scid rest : Bytes) :
    takenByReconnect (longBytes 0x80 0 dcid scid rest) = true := by
  have hlong : packetIsLong 0x80 = true := by decide
  have hvn : isVneg (longBytes 0x80 0 dcid scid rest) = true := by
    have hfive : cidsEnd dcid scid + rest.length ≥ 5 := by
      rw [cidsEnd]
      omega
    rw [isVneg, version_longBytes, length_longBytes, readBe_putBe, decide_eq_true hfive]
    rfl
  rw [takenByReconnect, show (longBytes 0x80 0 dcid scid rest).getD 0 0 = 0x80 from rfl, hlong, hvn]
  rfl

/-- **Retry and Version Negotiation packets do not always reach their handlers.** For every runner
and connection ids of any length: the reconnect logic is invoked on exactly the bytes of a Retry
packet if and only if its token and tag begin with a varint that is the length of what follows; for
a Version Negotiation packet, if and only if its version list reads as a token with its length,
followed by such a varint. -/
theorem reconnect_delivery_iff (r : Runner) (dcid scid : Bytes) (hd : dcid.length < 256)
    (hs : scid.length < 256) :
    (∀ (cap version : ℕ) (token : Bytes) (tag : Block) (out : Bytes),
      retryBuild cap version dcid scid token tag = some out →
      (r.reconnected aes out = [out] ↔ LengthAt (token ++ tag.toList) 0)) ∧
    ∀ (cap : ℕ) (versions : List ℕ) (out : Bytes), vnegBuild cap dcid scid versions = some out →
      (r.reconnected aes out = [out] ↔
        ∃ p, skipToken (versions.flatMap (putBe 4)) 0 = some p ∧
          LengthAt (versions.flatMap (putBe 4)) p) := by
  constructor
  · intro cap version token tag out hbuild
    obtain rfl := retryBuild_eq_some hbuild
    rw [reconnected_eq_singleton_iff aes r (takenByReconnect_retry _ _ _ _),
      longPacketLen_longBytes _ _ _ hd hs, length_longBytes, if_neg (by decide)]
    exact packetBound_iff _ _ _
  · intro cap versions out hbuild
    obtain rfl := vnegBuild_eq_some hbuild
    set list := versions.flatMap (putBe 4)
    rw [reconnected_eq_singleton_iff aes r (takenByReconnect_vneg _ _ _),
      longPacketLen_longBytes _ _ _ hd hs, length_longBytes, if_pos (by decide)]
    cases skipToken list 0 with
    | none => simp
    | some p =>
      rw [Option.bind_some, packetBound_iff]
      exact ⟨fun h => ⟨p, rfl, h⟩, fun ⟨p', hp, h⟩ => Option.some.inj hp ▸ h⟩

/-- A client that has sent its first Initial and received nothing. -/
def freshClient : Runner := { generationZero false with io := Connio.blank }

/-- The client and the shortest connection ids. -/
theorem reconnect_delivery_freshClient :
    (∀ (cap version : ℕ) (token : Bytes) (tag : Block) (out : Bytes),
      retryBuild cap version [] [] token tag = some out →
      (freshClient.reconnected aes128 out = [out] ↔ LengthAt (token ++ tag.toList) 0)) ∧
    ∀ (cap : ℕ) (versions : List ℕ) (out : Bytes), vnegBuild cap [] [] versions = some out →
      (freshClient.reconnected aes128 out = [out] ↔
        ∃ p, skipToken (versions.flatMap (putBe 4)) 0 = some p ∧
          LengthAt (versions.flatMap (putBe 4)) p) :=
  reconnect_delivery_iff aes128 freshClient [] [] (by decide) (by decide)

/-- **A Version Negotiation packet that offers version 1** loses its last two bytes on the way: its
list reads as an empty token and a Length of zero. -/
theorem reconnected_version_one :
    let vn : Bytes := [0x80, 0, 0, 0, 0, 0, 0, 0, 0, 0, 1]
    vnegBuild 64 [] [] [1] = some vn ∧
      vnegParse vn = some { dcid := [], scid := [], versions := [1] } ∧
      freshClient.reconnected aes128 vn = [[0x80, 0, 0, 0, 0, 0, 0, 0, 0]] ∧
      vnegParse [0x80, 0, 0, 0, 0, 0, 0, 0, 0] = none := by
  refine ⟨by decide, by decide, ?_, by decide⟩
  rw [reconnected_eq]
  decide

end Runner

end Conn

end QuicVibe
