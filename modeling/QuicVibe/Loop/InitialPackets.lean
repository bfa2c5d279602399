import QuicVibe.Frame.CryptoStream
import QuicVibe.Loop.Model
import QuicVibe.Packet.RoundTrip
/-!
# Initial packets

The first packet of either side: the client's (`initpkt.c`) and the server's (`wire.c`). Both put the
TLS message into one CRYPTO frame and fill the payload with PADDING so that the datagram reaches 1200
bytes, for a Length field of two bytes.
-/

namespace QuicVibe

open Crypto Packet Keys
open QuicVibe.Frame

namespace Loop

open ServerConn

variable (aes : Block → Block → Block)

/-! ## The calls -/

def padTarget (dcidLen scidLen : ℕ) : ℕ :=
  let overhead := 30 + dcidLen + scidLen
  if overhead < 1200 then 1200 - overhead else 0

def buildPayload (tls : Bytes) (target cap : ℕ) : Option Bytes := do
  let fill := min target cap
  let out ← cryptoStreamEmit tls 0 tls.length cap
  return out ++ List.replicate (fill - out.length) 0

def initpktBuild (dcid scid tls : Bytes) (pn cap : ℕ) : Option Bytes := do
  let k := initialDerive dcid false
  let payload ← buildPayload tls (padTarget dcid.length scid.length) 1200
  let (out, total) ← txPacket aes k (aes k.hp) 0xc3 dcid scid true [] pn payload cap
  return out.take total

/-- `quic_srvwire_seal_initial`; a negative `ack_pn` is `none`. -/
def srvwireSealInitial (dcid scid : Bytes) (pn : ℕ) (ackPn : Option ℕ) (tls : Bytes) (cap : ℕ) :
    Option Bytes := do
  let k := initialDerive dcid true
  let frames ← emitFrames ackPn tls 1200
  let fill := min (initPayloadFloor dcid.length scid.length) 1200
  let frames := frames ++ List.replicate (fill - frames.length) 0
  let (out, total) ← txPacket aes k (aes k.hp) 0xc3 dcid scid true [] pn frames cap
  return out.take total

/-! ## The payload -/

/-- A payload with one CRYPTO frame, for the whole message, in front. -/
structure CarriesMessage (tls payload : Bytes) : Prop where
  ne_nil : tls ≠ []
  length_le : tls.length ≤ crecvBuf
  eq : ∃ rest, payload = cryptoBytes { offset := 0, data := tls } ++ rest ∧
    ∀ w ∈ walk rest, w.type ≠ frameCrypto

variable {tls payload : Bytes} {cap : ℕ}

/-- **CRYPTO reassembly** returns the message. -/
theorem CarriesMessage.collect (h : CarriesMessage tls payload) (s : Crecv) :
    ∃ s', s.init.collect payload = (true, s') ∧ s'.message = tls := by
  obtain ⟨rest, rfl, hrest⟩ := h.eq
  have hpack : Packs tls [{ offset := 0, data := tls }] := by
    rw [← cryptoFrames_self h.ne_nil]
    exact packs_cryptoFrames tls (List.length_pos_iff.2 h.ne_nil)
  obtain ⟨t, hcollect, ht⟩ :=
    (Crecv.gathers_init tls s).collect h.length_le hpack.within hpack.agrees rest hrest
  rw [List.flatMap_singleton] at hcollect
  exact ⟨_, hcollect, ht.message_advance h.length_le hpack.covers⟩

theorem length_le_of_cryptoBytes (h : (cryptoBytes { offset := 0, data := tls }).length ≤ cap) :
    tls.length ≤ cap := by
  rw [length_cryptoBytes] at h
  dsimp only at h
  omega

theorem buildPayload_eq_some {target : ℕ} (h : buildPayload tls target 1200 = some payload) :
    CarriesMessage tls payload ∧ min target 1200 ≤ payload.length ∧ payload.length ≤ 1200 := by
  have hbuf : crecvBuf = 2048 := rfl
  simp only [buildPayload, Option.bind_eq_bind, Option.bind_eq_some_iff, Option.pure_def,
    Option.some.injEq] at h
  obtain ⟨out, hemit, rfl⟩ := h
  obtain ⟨hne, -, rfl, hcap⟩ := cryptoStreamEmit_self hemit
  have hlen := length_le_of_cryptoBytes hcap
  refine ⟨⟨hne, by omega, _, rfl, fun w hw => ?_⟩, ?_, ?_⟩
  · rw [type_of_mem_walk_padding hw]
    decide
  · rw [List.length_append, List.length_replicate]
    omega
  · rw [List.length_append, List.length_replicate]
    omega

/-- The ACK behind the CRYPTO frame. -/
def ackBytes : Option ℕ → Bytes
  | none => []
  | some pn => ackOneBytes pn

variable {ackPn : Option ℕ} {frames dcid scid : Bytes}

theorem emitFrames_eq_some (h : emitFrames ackPn tls cap = some frames) :
    tls ≠ [] ∧ frames = cryptoBytes { offset := 0, data := tls } ++ ackBytes ackPn ∧
      frames.length ≤ cap ∧ ∀ pn ∈ ackPn, pn ≤ varintMax := by
  simp only [emitFrames, Option.bind_eq_bind, Option.bind_eq_some_iff] at h
  obtain ⟨out, hemit, h⟩ := h
  obtain ⟨hne, -, rfl, hcap⟩ := cryptoStreamEmit_self hemit
  cases ackPn with
  | none =>
    obtain rfl := Option.some.inj h
    exact ⟨hne, (List.append_nil _).symm, hcap, nofun⟩
  | some pn =>
    simp only [Option.bind_eq_some_iff, Option.pure_def, Option.some.injEq] at h
    obtain ⟨ack, hack, rfl⟩ := h
    rcases Nat.lt_or_ge varintMax pn with hgt | hle
    · rw [ackOne_of_gt hgt] at hack
      cases hack
    · rw [(ackOne_eq hle).1] at hack
      obtain ⟨hroom, hack⟩ := Option.ite_none_right_eq_some.1 hack
      obtain rfl := Option.some.inj hack
      refine ⟨hne, rfl, by rw [List.length_append]; omega, fun q hq => ?_⟩
      obtain rfl := Option.some.inj hq
      exact hle

theorem carriesMessage_emitFrames (h : emitFrames ackPn tls 1200 = some frames) (n : ℕ) :
    CarriesMessage tls (frames ++ List.replicate n 0) := by
  have hbuf : crecvBuf = 2048 := rfl
  obtain ⟨hne, rfl, hcap, hpn⟩ := emitFrames_eq_some h
  rw [List.length_append] at hcap
  have hlen : tls.length ≤ 1200 := length_le_of_cryptoBytes (by omega)
  refine ⟨hne, by omega, _, List.append_assoc _ _ _, fun w hw => ?_⟩
  cases ackPn with
  | none =>
    rw [ackBytes, List.nil_append] at hw
    rw [type_of_mem_walk_padding hw]
    decide
  | some pn =>
    rw [ackBytes, walk_ackOne (hpn pn rfl)] at hw
    rcases List.mem_cons.1 hw with rfl | hw
    · exact (by decide : frameAck.toNat ≠ frameCrypto)
    · rw [type_of_mem_walk_padding hw]
      decide

/-! ## The packet -/

/-- A datagram of at least 1200 bytes that opens, under these keys, to a payload from which CRYPTO
reassembly returns the message. -/
def InitialRecoverable (keys : InitialKeys) (tls dgram : Bytes) : Prop :=
  1200 ≤ dgram.length ∧ ∃ o, rxPacket aes keys (aes keys.hp) dgram true = some o ∧
    ∀ s : Crecv, ∃ s', s.init.collect o.payload = (true, s') ∧ s'.message = tls

/-- **The overhead is 30 bytes and the connection ids** once the payload is padded: the Length field
then takes two bytes. -/
theorem length_initial (dcid scid : Bytes) {payloadLen : ℕ} (hlo : 44 ≤ payloadLen)
    (hhi : payloadLen ≤ 1200) :
    1 + (lhdrMid 1 dcid scid true [] (4 + payloadLen + 16)).length + 4 + payloadLen + 16 =
      30 + dcid.length + scid.length + payloadLen := by
  have hlen : varintLen (4 + payloadLen + 16) = 2 := by
    simp only [varintLen]
    split_ifs <;> omega
  have htoken : (tokenField true []).length = 1 := by decide
  simp only [lhdrMid, List.length_append, length_putBe, length_cidField, htoken,
    length_varintEncode, hlen]
  omega

theorem initialRecoverable_of_txPacket {keys : InitialKeys} {pn total : ℕ} {out : Bytes}
    (hpn : pn < 2 ^ 32) (hcarries : CarriesMessage tls payload)
    (hlo : 1200 - (30 + dcid.length + scid.length) ≤ payload.length) (hhi : payload.length ≤ 1200)
    (h : txPacket aes keys (aes keys.hp) 0xc3 dcid scid true [] pn payload cap = some (out, total)) :
    InitialRecoverable aes keys tls (out.take total) := by
  obtain ⟨hd, hs, hmax, hout, rfl, -⟩ := (txPacket_eq_some_iff ..).1 h
  have hcid : maxCidLen = 20 := rfl
  rw [List.take_length]
  refine ⟨?_, ?_⟩
  · rw [hout, length_protectedPacket, length_initial dcid scid (by omega) hhi]
    omega
  · have hform : lhdrByte0Pnlen 0xc3 txPnLen &&& 0x80 ≠ 0 := by decide
    have hopen := rxPacket_protectedPacket aes keys (aes keys.hp) true [] hform
      (pnLenOf_lhdrByte0 0xc3) hd hs (fun _ => Nat.zero_le _) hmax hpn
    rw [← hout] at hopen
    exact ⟨_, hopen, hcarries.collect⟩

/-- **Initial packets are padded and recoverable.** For connection ids of any length, a packet number
below 2^32 and a TLS message: whenever `quic_initpkt_build` or `quic_srvwire_seal_initial` succeeds,
the datagram is at least 1200 bytes long and opening it with the Initial keys of that side yields a
payload from which CRYPTO reassembly returns exactly the message. -/
theorem initial_padded_recoverable (dcid scid tls : Bytes) (pn cap : ℕ) (hpn : pn < 2 ^ 32) :
    (∀ out, initpktBuild aes dcid scid tls pn cap = some out →
      InitialRecoverable aes (initialDerive dcid false) tls out) ∧
    ∀ (ackPn : Option ℕ) (out : Bytes),
      srvwireSealInitial aes dcid scid pn ackPn tls cap = some out →
      InitialRecoverable aes (initialDerive dcid true) tls out := by
  constructor
  · intro out h
    simp only [initpktBuild, Option.bind_eq_bind, Option.bind_eq_some_iff, Option.pure_def,
      Option.some.injEq] at h
    obtain ⟨payload, hpayload, ⟨wire, total⟩, htx, rfl⟩ := h
    obtain ⟨hcarries, hlo, hhi⟩ := buildPayload_eq_some hpayload
    refine initialRecoverable_of_txPacket aes hpn hcarries ?_ hhi htx
    simp only [padTarget] at hlo
    split at hlo <;> omega
  · intro ackPn out h
    simp only [srvwireSealInitial, Option.bind_eq_bind, Option.bind_eq_some_iff, Option.pure_def,
      Option.some.injEq] at h
    obtain ⟨frames, hframes, ⟨wire, total⟩, htx, rfl⟩ := h
    have hcap := (emitFrames_eq_some hframes).2.2.1
    refine initialRecoverable_of_txPacket aes hpn (carriesMessage_emitFrames hframes _) ?_ ?_ htx
    · rw [List.length_append, List.length_replicate]
      simp only [initPayloadFloor]
      split <;> omega
    · rw [List.length_append, List.length_replicate]
      omega

/-- The calls do succeed: for every message that fits the payload, in a buffer of 1500 bytes. -/
theorem initpktBuild_isSome (pn : ℕ) (hne : tls ≠ []) (hd : dcid.length ≤ maxCidLen)
    (hs : scid.length ≤ maxCidLen)
    (hfits : (cryptoBytes { offset := 0, data := tls }).length ≤ 1200) :
    ∃ out, initpktBuild aes dcid scid tls pn 1500 = some out := by
  have hcid : maxCidLen = 20 := rfl
  have hvar : varintMax = 4611686018427387903 := rfl
  have hlen := length_le_of_cryptoBytes hfits
  obtain ⟨payload, hpayload⟩ :
      ∃ payload, buildPayload tls (padTarget dcid.length scid.length) 1200 = some payload := by
    rw [buildPayload, cryptoStreamEmit_eq 1200 (by omega) (List.length_pos_iff.2 hne),
      cryptoFrames_self hne, List.flatMap_singleton, if_pos hfits]
    exact ⟨_, rfl⟩
  obtain ⟨-, hlo, hhi⟩ := buildPayload_eq_some hpayload
  have hfloor : 1130 ≤ payload.length := by
    simp only [padTarget] at hlo
    split at hlo <;> omega
  have htx := (txPacket_eq_some_iff aes (initialDerive dcid false)
    (aes (initialDerive dcid false).hp) 0xc3 dcid scid true pn payload 1500 _ _).2
    ⟨hd, hs, by omega, rfl, rfl, by
      rw [length_protectedPacket, length_initial dcid scid (by omega) hhi]
      omega⟩
  simp only [initpktBuild, hpayload, htx, Option.bind_eq_bind, Option.bind_some, Option.pure_def]
  exact ⟨_, rfl⟩

/-- The client's first packet with three bytes of TLS. -/
theorem initial_padded_recoverable_three :
    ∃ out, initpktBuild aes128 [1, 2, 3, 4, 5, 6, 7, 8] [9] [1, 2, 3] 0 1500 = some out ∧
      InitialRecoverable aes128 (initialDerive [1, 2, 3, 4, 5, 6, 7, 8] false) [1, 2, 3] out := by
  obtain ⟨out, hout⟩ : ∃ out,
      initpktBuild aes128 [1, 2, 3, 4, 5, 6, 7, 8] [9] [1, 2, 3] 0 1500 = some out :=
    initpktBuild_isSome aes128 0 (by decide) (by decide) (by decide) (by decide)
  exact ⟨out, hout,
    (initial_padded_recoverable aes128 [1, 2, 3, 4, 5, 6, 7, 8] [9] [1, 2, 3] 0 1500 (by decide)).1
      out hout⟩

end Loop

end QuicVibe
