import QuicVibe.Conn.EventLoop
import QuicVibe.Keys.Schedule
import QuicVibe.Crypto.Gcm
import QuicVibe.Packet.Coalesce

/-!
# The connection runner's receive path

`connrunner/recv.c` takes a datagram apart and hands each packet on: to the reconnect logic
(`reconnect.c`), or, classified by its first byte (`level.c`) and past the key phase gate, to
`quic_connio_recv`. `RecvResult` keeps which check turned a packet away. The Key Phase bit is bit 2 of
the first byte of a short-header packet, and header protection masks it. The gate reads the byte
before the mask is removed, so what it decides is about the bit on the wire.
-/

namespace QuicVibe

namespace Conn

open Packet Crypto Keys

section

/-! ## State -/

/-- `quic_retrydrive_state`. -/
structure RetryState where
  received : Bool
  keyRederive : Bool
  token : Bytes
  dcid : Bytes

/-- The part of `quic_connrunner` the receive path uses: the connection, the receive queue of its
event loop (whether each packet elicits an ACK), the key update and the reconnect state. -/
structure Runner where
  io : Connio
  rx : List Bool
  ku : Kuswitch
  kuSecret : Digest
  kuPhase : UInt8
  kuCompletedAt : ℕ
  kuSentInPhase : ℕ
  kuUnacked : Bool
  retry : RetryState
  sentVersion : ℕ
  vnRetryCount : ℕ

/-- The index of a level. -/
def levelIndex : Keys.Level → Level
  | .initial => levelInitial
  | .handshake => levelHandshake
  | .onertt => levelOnertt

/-- The key set by level. -/
def Keyset.byLevel (s : Keyset) : Keys.Keyset where
  keys l := s.keys[levelIndex l]
  installed l := s.installed[levelIndex l]

namespace Runner

/-- What the key update sees of the runner. -/
def connRunner (r : Runner) : ConnRunner where
  keys := r.io.loop.keys.byLevel
  handshakeConfirmed := r.io.loop.handshakeConfirmed
  ku := r.ku
  kuSecret := r.kuSecret
  kuPhase := r.kuPhase
  kuCompletedAt := r.kuCompletedAt
  kuSentInPhase := r.kuSentInPhase
  kuUnacked := r.kuUnacked

end Runner

/-! ## Version Negotiation -/

def vnegHeadOk (buf : Bytes) : Bool :=
  if buf.length < 7 then false
  else if buf.getD 0 0 &&& 0x80 = 0 then false
  else readBe ((buf.drop 1).take 4) == 0

/-- The whole 4-byte versions of a list (`vn_version_at`). -/
def vnVersions : Bytes → List ℕ
  | a :: b :: c :: d :: rest => readBe [a, b, c, d] :: vnVersions rest
  | _ => []

/-- `quic_vneg_packet`, with the versions its view of the buffer holds. -/
structure VnegPacket where
  dcid : Bytes
  scid : Bytes
  versions : List ℕ
  deriving DecidableEq

def vnegParse (buf : Bytes) : Option VnegPacket :=
  if !vnegHeadOk buf then none
  else do
    let (dcid, off) ← readCid buf 5
    let (scid, off) ← readCid buf off
    let rest := buf.length - off
    if rest = 0 ∨ rest % 4 ≠ 0 then none
    else some { dcid := dcid, scid := scid, versions := vnVersions (buf.drop off) }

/-- `QUIC_VERS_OFFERED`. -/
def versOffered : ℕ := 16

/-- `QUIC_VERSION_2` and `QUIC_VERSION_1`, in order of preference (`g_supported`). -/
def supportedVersions : List ℕ := [0x6b3343cf, 0x00000001]

def vndriveAccept (handshakeComplete : Bool) (sentVersion : ℕ) (offered : List ℕ) : Bool :=
  if handshakeComplete then false else !offered.contains sentVersion

def vndriveSelect (offered supported : List ℕ) : Option ℕ := supported.find? (offered.contains ·)

/-- `quic_vndrive_should_retry`; `QUIC_VNDRIVE_MAX_RETRY` is 1. -/
def vndriveShouldRetry (chosenVersion vnRetryCount : ℕ) : Bool :=
  chosenVersion ≠ 0 && vnRetryCount < 1

namespace Runner

def vnOk (r : Runner) (offered : List ℕ) : Bool :=
  !r.io.loop.handshakeComplete &&
    vndriveAccept r.io.loop.handshakeComplete r.sentVersion offered

def vnReconnect (r : Runner) (chosen : ℕ) : Runner :=
  if !vndriveShouldRetry chosen r.vnRetryCount then r
  else { r with vnRetryCount := r.vnRetryCount + 1 }

def recvVn (r : Runner) (offered supported : List ℕ) : Runner :=
  if !r.vnOk offered then r
  else match vndriveSelect offered supported with
    | none => r
    | some chosen => r.vnReconnect chosen

/-- `drive_vn`: at most the first `QUIC_VERS_OFFERED` versions are looked at. -/
def driveVn (r : Runner) (pkt : Bytes) : Runner :=
  match vnegParse pkt with
  | none => r
  | some v => r.recvVn (v.versions.take versOffered) supportedVersions

end Runner

/-! ## Retry -/

/-- `RETRY_KEY`. -/
def retryKey : Block :=
  ⟨#[0xbe, 0x0c, 0x69, 0x0b, 0x9f, 0x66, 0x57, 0x5a, 0x1d, 0x76, 0x6b, 0x54, 0xe3, 0x68, 0xc8,
    0x4e], rfl⟩

/-- `RETRY_NONCE`. -/
def retryNonce : Nonce :=
  ⟨#[0x46, 0x15, 0x99, 0xd3, 0x5d, 0x63, 0x2b, 0xf2, 0x23, 0x98, 0x25, 0xbb], rfl⟩

structure RetryPacket where
  version : ℕ
  dcid : Bytes
  scid : Bytes
  token : Bytes
  tag : Block
  deriving DecidableEq

/-- `quic_retry_parse`; the last 16 bytes are the integrity tag. -/
def retryParse (buf : Bytes) : Option RetryPacket :=
  if buf.length < 5 + 1 + 1 + 16 then none
  else if buf.getD 0 0 &&& 0xf0 ≠ 0xf0 then none
  else do
    let (dcid, off) ← readCid buf 5
    let (scid, off) ← readCid buf off
    let tagOff := buf.length - 16
    if off > tagOff then none
    else some { version := readBe ((buf.drop 1).take 4), dcid := dcid, scid := scid,
                token := (buf.drop off).take (tagOff - off),
                tag := Bytes.fit 16 (buf.drop tagOff) }

variable (aes : Block → Block → Block)

/-- `quic_retry_tag`: the tag over the pseudo-packet of original connection id and Retry. -/
def retryTag (odcid retry : Bytes) : Block :=
  (Gcm.gcmSeal (aes retryKey) retryNonce (UInt8.ofNat odcid.length :: odcid ++ retry) []).2

def retryVerify (odcid pkt : Bytes) : Bool :=
  let retryLen := pkt.length - 16
  (retryTag aes odcid (pkt.take retryLen)).toList == pkt.drop retryLen

def retryProcess (pkt origDcid : Bytes) : Option RetryPacket := do
  let r ← retryParse pkt
  if !retryVerify aes origDcid pkt then none else some r

namespace Runner

def retryOk (r : Runner) (tagValid : Bool) : Bool :=
  !r.io.loop.handshakeComplete && (!r.retry.received && tagValid)

/-- `quic_connrunner_recv_retry` over `quic_retrydrive_apply`: token and connection id must fit. -/
def recvRetry (r : Runner) (retry : Option RetryPacket) : Runner :=
  match retry with
  | none => r
  | some p =>
    if !r.retryOk true then r
    else if p.token.length ≤ 256 ∧ p.scid.length ≤ maxCidLen then
      { r with
        retry := { received := true, keyRederive := true, token := p.token, dcid := p.scid } }
    else r

/-- `drive_retry`. By the time the token is found not to fit, `retry_emit` has copied it to an array of
256 bytes; what a longer one overwrites there is not modelled. -/
def driveRetry (r : Runner) (pkt : Bytes) : Runner := r.recvRetry (retryProcess aes pkt r.io.dcid)

end Runner

/-! ## Routing -/

def packetIsLong (byte0 : UInt8) : Bool := byte0 &&& 0x80 ≠ 0

/-- `quic_packet_long_type` of a long header. -/
def packetLongType (byte0 : UInt8) : UInt8 := (byte0 >>> 4) &&& 0x3

def isVneg (pkt : Bytes) : Bool :=
  pkt.length ≥ 5 && readBe ((pkt.drop 1).take 4) == 0

/-- `quic_connrunner_packet_level`: 0-RTT and Retry packets have no level here. -/
def packetLevel (byte0 : UInt8) : Option Level :=
  if packetIsLong byte0 then
    if packetLongType byte0 = 0 then some levelInitial
    else if packetLongType byte0 = 2 then some levelHandshake
    else none
  else some levelOnertt

/-- What became of a packet. -/
inductive RecvResult
  /-- A Retry or Version Negotiation packet, handled by the reconnect logic. -/
  | reconnect
  /-- No level takes packets of this type. -/
  | noLevel
  /-- No read key for the key phase. -/
  | keyPhase
  /-- `quic_connio_recv` returned 0. -/
  | refused
  | accepted (elicited : Bool)
  deriving DecidableEq, Repr

/-- `QUIC_CONNRUNNER_MAXPKTS`. -/
def connrunnerMaxpkts : ℕ := 8

namespace Runner

/-- `drive_long`: the reconnect logic, if the packet is for it. -/
def driveLong (r : Runner) (pkt : Bytes) : Option Runner :=
  if isVneg pkt then some (r.driveVn pkt)
  else if packetLongType (pkt.getD 0 0) = 3 then some (r.driveRetry aes pkt)
  else none

def recvReconnect (r : Runner) (pkt : Bytes) : Option Runner :=
  if !packetIsLong (pkt.getD 0 0) then none else r.driveLong aes pkt

/-- `phase_admits`: long-header levels are not gated. -/
def phaseAdmits (r : Runner) (byte0 : UInt8) (level : Level) : Bool :=
  if level ≠ levelOnertt then true else (recvKeygen r.connRunner byte0).isSome

/-- `open_one`: whether the packet was accepted and elicits an ACK. -/
def openOne (r : Runner) (level : Level) (pkt : Bytes) : RecvResult × Runner :=
  let io := { r.io with ackEliciting := false, hasAck := false }
  match io.recv aes level pkt with
  | (false, io) => (.refused, { r with io := io })
  | (true, io) => (.accepted io.ackEliciting, { r with io := io })

/-- `recv_one`, over `recv_level`. -/
def recvOne (r : Runner) (pkt : Bytes) : RecvResult × Runner :=
  match r.recvReconnect aes pkt with
  | some r => (.reconnect, r)
  | none =>
    match packetLevel (pkt.getD 0 0) with
    | none => (.noLevel, r)
    | some level =>
      if !r.phaseAdmits (pkt.getD 0 0) level then (.keyPhase, r) else r.openOne aes level pkt

/-- `feed_loop`: `quic_evloop_on_receive` drops what its queue has no room for. -/
def feedLoop (r : Runner) (elicited : Bool) : Runner :=
  if r.rx.length ≥ evloopQcap then r else { r with rx := r.rx ++ [elicited] }

/-- One turn of the loop of `quic_connrunner_process_datagram`. -/
def processPacket (r : Runner) (pkt : Bytes) : RecvResult × Runner :=
  match r.recvOne aes pkt with
  | (.accepted elicited, r) => (.accepted elicited, r.feedLoop elicited)
  | (result, r) => (result, r)

/-- The loop of `quic_connrunner_process_datagram`, with what became of each packet. -/
def processPackets (r : Runner) : List Bytes → List RecvResult × Runner
  | [] => ([], r)
  | pkt :: pkts =>
    let (result, r) := r.processPacket aes pkt
    let (results, r) := r.processPackets pkts
    (result :: results, r)

def processDatagram (r : Runner) (dgram : Bytes) : List RecvResult × Runner :=
  r.processPackets aes (udploopSplit connrunnerMaxpkts dgram)

/-- The number of accepted packets, which `quic_connrunner_process_datagram` returns. -/
def acceptedCount (results : List RecvResult) : ℕ :=
  results.countP fun
    | .accepted _ => true
    | _ => false

end Runner

end

/-! ## The bit under the mask -/

theorem keyphaseGet_xor (a b : UInt8) :
    keyphaseGet (a ^^^ b) = keyphaseGet a ^^^ keyphaseGet b := by
  simp only [keyphaseGet]
  rw [UInt8.shiftRight_xor]
  generalize a >>> 2 = x
  generalize b >>> 2 = y
  refine UInt8.toBitVec_inj.1 ?_
  ext i hi
  simp [Bool.and_xor_distrib_right]

theorem keyphaseGet_hpShortMask (m : UInt8) :
    keyphaseGet (m &&& hpShortMask) = if m &&& 0x04 = 0 then 0 else 1 := by
  have hbyte : ∀ n < 256, keyphaseGet (UInt8.ofNat n &&& hpShortMask) =
      if UInt8.ofNat n &&& 0x04 = 0 then 0 else 1 := by decide +kernel
  simpa using hbyte m.toNat m.toNat_lt

theorem keyphaseGet_eq (b : UInt8) : keyphaseGet b = 0 ∨ keyphaseGet b = 1 := by
  have hbyte : ∀ n < 256, keyphaseGet (UInt8.ofNat n) = 0 ∨ keyphaseGet (UInt8.ofNat n) = 1 := by
    decide +kernel
  simpa using hbyte b.toNat b.toNat_lt

theorem keyphaseBit_eq (g : ℕ) : keyphaseBit g = 0 ∨ keyphaseBit g = 1 := by
  rw [keyphaseBit, Nat.and_one_is_mod]
  rcases Nat.mod_two_eq_zero_or_one g with h | h <;> rw [h]
  · exact .inl rfl
  · exact .inr rfl

/-! ## The decision -/

theorem recvKeygen_isSome_iff (r : ConnRunner) (byte0 : UInt8) :
    (recvKeygen r byte0).isSome = true ↔ keyphaseGet byte0 = keyphaseBit r.ku.generation ∨
      r.ku.haveOld = true ∨ (r.ku.generation = 0 ∧ r.handshakeConfirmed = true) := by
  simp only [recvKeygen, selectNext, Kuswitch.keyForPhase]
  by_cases hbit : keyphaseGet byte0 = keyphaseBit r.ku.generation
  · simp [hbit]
  · by_cases hnext : r.ku.generation = 0 ∧ r.handshakeConfirmed = true
    · obtain ⟨hgen, hconf⟩ := hnext
      rw [hgen] at hbit
      simp [hbit, hgen, hconf]
    · cases hold : r.ku.haveOld <;> simp [hbit, hnext]

namespace Runner

/-- Both values of the bit are admitted. -/
def AdmitsBoth (r : Runner) : Prop :=
  r.ku.haveOld = true ∨ (r.ku.generation = 0 ∧ r.io.loop.handshakeConfirmed = true)

instance (r : Runner) : Decidable r.AdmitsBoth := inferInstanceAs (Decidable (_ ∨ _))

/-- **What the gate admits**: the bit of the current generation, and the other one in the states
that admit both. -/
theorem phaseAdmits_iff (r : Runner) (byte0 : UInt8) :
    r.phaseAdmits byte0 levelOnertt = true ↔
      keyphaseGet byte0 = keyphaseBit r.ku.generation ∨ r.AdmitsBoth := by
  rw [phaseAdmits, if_neg (not_not_intro rfl)]
  exact recvKeygen_isSome_iff r.connRunner byte0

theorem phaseAdmits_of_held {r : Runner} {byte0 : UInt8} {keys : InitialKeys}
    (h : r.ku.keyForPhase (keyphaseGet byte0) = some keys) :
    r.phaseAdmits byte0 levelOnertt = true := by
  rw [phaseAdmits_iff]
  by_cases hbit : keyphaseGet byte0 = keyphaseBit r.ku.generation
  · exact .inl hbit
  · rw [Kuswitch.keyForPhase, if_neg hbit] at h
    cases hold : r.ku.haveOld with
    | true => exact .inr (.inl hold)
    | false => simp [hold] at h

/-- **Masked and unmasked decision** are the same if and only if the mask leaves the bit alone or
both bits are admitted. -/
theorem phaseAdmits_masked_iff (r : Runner) (b m : UInt8) :
    r.phaseAdmits (b ^^^ (m &&& hpShortMask)) levelOnertt = r.phaseAdmits b levelOnertt ↔
      m &&& 0x04 = 0 ∨ r.AdmitsBoth := by
  have hmask := keyphaseGet_hpShortMask m
  rw [Bool.eq_iff_iff, phaseAdmits_iff, phaseAdmits_iff, keyphaseGet_xor]
  by_cases hboth : r.AdmitsBoth
  · simp [hboth]
  · by_cases hclear : m &&& 0x04 = 0
    · rw [if_pos hclear] at hmask
      simp [hclear, hmask]
    · -- the mask flips the bit, and only one of the two values is the current one
      rw [if_neg hclear] at hmask
      rw [hmask]
      simp only [hboth, or_false, hclear, iff_false]
      rcases keyphaseGet_eq b with hb | hb <;>
        rcases keyphaseBit_eq r.ku.generation with hg | hg <;> rw [hb, hg] <;> decide

end Runner

/-! ## The receive path -/

variable (aes : Block → Block → Block)

namespace Runner

theorem recvOne_short (r : Runner) {b : UInt8} (hform : b &&& 0x80 = 0) (rest : Bytes) :
    (r.recvOne aes (b :: rest)).1 = .keyPhase ↔ r.phaseAdmits b levelOnertt = false := by
  have hlong : packetIsLong b = false := by simp [packetIsLong, hform]
  have hreconnect : r.recvReconnect aes (b :: rest) = none := by simp [recvReconnect, hlong]
  have hlevel : packetLevel b = some levelOnertt := by simp [packetLevel, hlong]
  simp only [recvOne, hreconnect, List.getD_cons_zero, hlevel]
  cases hadmits : r.phaseAdmits b levelOnertt with
  | false => simp
  | true =>
    simp only [Bool.not_true, Bool.false_eq_true, if_false, openOne]
    split <;> simp

theorem processDatagram_short (r : Runner) {b : UInt8} (hform : b &&& 0x80 = 0) (rest : Bytes) :
    (r.processDatagram aes (b :: rest)).1 = [(r.processPacket aes (b :: rest)).1] := by
  rw [processDatagram, connrunnerMaxpkts,
    udploopSplit_of_coalesceNext 7 (coalesceNext_short hform rest)]
  rfl

theorem processPacket_fst (r : Runner) (pkt : Bytes) :
    (r.processPacket aes pkt).1 = (r.recvOne aes pkt).1 := by
  rw [processPacket]
  split <;> simp [*]

/-- **The key phase gate and the real bit.** A 1-RTT packet sealed under keys the endpoint holds,
with any header protection, is not dropped for its key phase, and the gate decides as it would for
the bit without the mask, if and only if the mask leaves the bit alone or both bits are admitted. -/
theorem keyphase_gate_iff (r : Runner) (keys : InitialKeys) (hp : Block → Block) (b : UInt8)
    (dcid : Bytes) (pn : ℕ) (payload : Bytes) (hform : b &&& 0x80 = 0)
    (hheld : r.ku.keyForPhase (keyphaseGet b) = some keys) :
    let pkt := protectedPacket aes keys hp hpShortMask b dcid pn payload
    let mask := hpMask hp (sealedBody aes keys (b :: (dcid ++ putBe 4 pn)) pn payload)
    (.keyPhase ∉ (r.processDatagram aes pkt).1 ∧
      r.phaseAdmits (pkt.getD 0 0) levelOnertt = r.phaseAdmits b levelOnertt) ↔
    mask.getD 0 0 &&& 0x04 = 0 ∨ r.AdmitsBoth := by
  intro pkt mask
  obtain ⟨b', pn', hb', -, heq⟩ := protectedPacket_eq aes keys hp hpShortMask b dcid pn payload
  have hform' : b' &&& 0x80 = 0 := by
    rw [hb', xor_and_of_disjoint (by rfl)]
    exact hform
  have hpkt : pkt = b' :: (dcid ++ (pn' ++
      sealedBody aes keys (b :: (dcid ++ putBe 4 pn)) pn payload)) := heq
  have hfirst : pkt.getD 0 0 = b' := by rw [hpkt]; rfl
  have hdecision : r.phaseAdmits b' levelOnertt = r.phaseAdmits b levelOnertt ↔
      mask.getD 0 0 &&& 0x04 = 0 ∨ r.AdmitsBoth := by
    rw [hb']
    exact r.phaseAdmits_masked_iff b _
  have hkept : RecvResult.keyPhase ∉ (r.processDatagram aes pkt).1 ↔
      r.phaseAdmits b' levelOnertt = r.phaseAdmits b levelOnertt := by
    rw [hpkt, processDatagram_short aes r hform', processPacket_fst, List.mem_singleton, eq_comm,
      recvOne_short aes r hform', phaseAdmits_of_held hheld, Bool.not_eq_false]
  rw [hfirst, hkept, and_self]
  exact hdecision

/-! ## A packet turned away -/

/-- A runner in generation 0, as `quic_connrunner_keyupdate_init` leaves it, with 1-RTT keys of
zeros. -/
def generationZero (confirmed : Bool) : Runner where
  io :=
    { Connio.blank with
      loop :=
        { Connio.blank.loop with
          keys := (Connio.blank.loop.keys.install levelOnertt.val zeroKeys).2
          handshakeConfirmed := confirmed } }
  rx := []
  ku := { cur := zeroKeys, old := zeroKeys, generation := 0, haveOld := false }
  kuSecret := Vector.replicate 32 0
  kuPhase := 0
  kuCompletedAt := unset
  kuSentInPhase := 0
  kuUnacked := false
  retry := { received := false, keyRederive := false, token := [], dcid := [] }
  sentVersion := 1
  vnRetryCount := 0

/-- The peer's packet under these keys: phase 0, 16 bytes of PADDING, packet number 0. -/
def paddingPacket : Bytes :=
  protectedPacket aes128 zeroKeys (aes128 zeroKeys.hp) hpShortMask onerttByte0 [] 0
    (List.replicate 16 0)

theorem keyphase_gate_confirmed :
    (onerttByte0 &&& 0x80 = 0 ∧
      (generationZero true).ku.keyForPhase (keyphaseGet onerttByte0) = some zeroKeys) ∧
    (.keyPhase ∉ ((generationZero true).processDatagram aes128 paddingPacket).1 ∧
      (generationZero true).phaseAdmits (paddingPacket.getD 0 0) levelOnertt =
        (generationZero true).phaseAdmits onerttByte0 levelOnertt) :=
  ⟨⟨rfl, rfl⟩, (keyphase_gate_iff aes128 (generationZero true) zeroKeys (aes128 zeroKeys.hp)
    onerttByte0 [] 0 (List.replicate 16 0) rfl rfl).2 (.inr (.inr ⟨rfl, rfl⟩))⟩

theorem paddingPacket_eq : ∃ rest, paddingPacket = 0x4c :: rest := by
  obtain ⟨b', pn', hb', -, heq⟩ := protectedPacket_eq aes128 zeroKeys (aes128 zeroKeys.hp)
    hpShortMask onerttByte0 [] 0 (List.replicate 16 0)
  have hbyte : b' = 0x4c := by
    rw [hb']
    decide +kernel
  exact ⟨_, by rw [paddingPacket, heq, hbyte]⟩

/-- **A packet of the current generation is dropped.** Before the handshake is confirmed, the packet
of phase 0, sealed under the current keys, goes on the wire with its bit flipped, and the gate finds
no key for phase 1. -/
theorem keyphase_gate_drops :
    (generationZero false).ku.keyForPhase (keyphaseGet onerttByte0) = some zeroKeys ∧
    (generationZero false).phaseAdmits onerttByte0 levelOnertt = true ∧
    ((generationZero false).processDatagram aes128 paddingPacket).1 = [.keyPhase] := by
  obtain ⟨rest, hpkt⟩ := paddingPacket_eq
  have hdrop : ((generationZero false).recvOne aes128 (0x4c :: rest)).1 = .keyPhase :=
    (recvOne_short aes128 _ (by rfl) rest).2 (by decide)
  refine ⟨rfl, by decide, ?_⟩
  rw [hpkt, processDatagram_short aes128 _ (by rfl), processPacket_fst, hdrop]

end Runner

end Conn

end QuicVibe
