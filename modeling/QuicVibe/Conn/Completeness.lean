import QuicVibe.Conn.SendEffects
import QuicVibe.Conn.AckSpaces
import QuicVibe.Frame.Grammar
/-!
# Payloads handled in full

`quic_connio_recv` reports that every frame of a packet was handled when every frame the walker
yielded was. But the walker stops without a word at the first frame it cannot measure, and the frames
from there on are not dispatched.
-/

namespace QuicVibe

namespace Conn

open Packet Crypto
open QuicVibe.Frame

namespace Connio

variable (aes : Block → Block → Block)

/-- The frames `quic_connio_recv` hands to the dispatcher, as they lie in the payload. -/
def dispatched (io : Connio) (level : Level) (datagram : Bytes) : List Span :=
  ((io.opens aes level datagram).map spans).getD []

variable {io : Connio} {level : Level} {datagram payload : Bytes}

theorem recv_of_opens (h : io.opens aes level datagram = some payload) :
    ∃ io₀ : Connio, io.recv aes level datagram = io₀.dispatchFrames (walk payload) := by
  have hkeys := io.loop.onRecv_keys level.val datagram.length
  unfold opens at h
  unfold recv
  generalize io.loop.onRecv level.val datagram.length = r at h hkeys
  obtain ⟨admitted, loop⟩ := r
  cases admitted with
  | false => cases h
  | true =>
    simp only [Bool.not_true, Bool.false_eq_true, if_false, Option.bind_eq_bind,
      Option.bind_eq_some_iff] at h hkeys ⊢
    obtain ⟨keys, hlevel, opened, hrx, hpayload⟩ := h
    obtain rfl := Option.some.inj hpayload
    rw [hkeys, hlevel]
    simp only [hrx]
    exact ⟨_, rfl⟩

/-- **These are the frames that are handled**, each with the payload from it on. -/
theorem recv_eq_dispatchFrames (h : io.opens aes level datagram = some payload) :
    ∃ io₀ : Connio, io.recv aes level datagram = io₀.dispatchFrames
      ((io.dispatched aes level datagram).map
        fun s => { type := s.type, rest := payload.drop s.start }) := by
  have hwalk : walk payload = (io.dispatched aes level datagram).map
      fun s => { type := s.type, rest := payload.drop s.start } := by
    rw [dispatched, h, Option.map_some, Option.getD_some]
    exact walk_eq_map_spansIn payload List.drop_zero (Nat.zero_le _)
  rw [← hwalk]
  exact recv_of_opens aes h

/-- **A packet that is reported as handled was handled in full** exactly when the walker can measure
every frame of it. -/
theorem recv_complete_iff (io : Connio) (level : Level) (datagram : Bytes)
    (frames : List WireFrame) (hlast : WireFrame.EndsLast frames)
    (hopen : io.opens aes level datagram = some (joined (WireFrame.typed frames))) :
    ((io.recv aes level datagram).1 = true →
        io.dispatched aes level datagram = layout 0 (WireFrame.typed frames)) ↔
      ((io.recv aes level datagram).1 = true → ∀ f ∈ frames, f.Measured) := by
  have hspans := spans_payload_iff hlast
  rw [dispatched, hopen, Option.map_some, Option.getD_some]
  exact imp_congr_right fun _ => hspans

theorem opened_opens (hmax : 4 + payload.length + 16 ≤ varintMax)
    (hcap : 1 + (lhdrMid 1 [] [] true [] (4 + payload.length + 16)).length + 4 + payload.length + 16 ≤
      1500) :
    ∃ pkt total, txPacket aes Tagged.pingKeys (aes Tagged.pingKeys.hp) 0xc3 [] [] true [] 0 payload
        1500 = some (pkt, total) ∧
      (opened aes Tagged.pingKeys).opens aes levelInitial pkt = some payload := by
  have htx := (txPacket_eq_some_iff aes Tagged.pingKeys (aes Tagged.pingKeys.hp) 0xc3 [] [] true 0
    payload 1500 _ _).2
      ⟨by decide, by decide, hmax, rfl, rfl, by rw [length_protectedPacket]; exact hcap⟩
  exact ⟨_, _, htx, Tagged.opens_of_txPacket aes rfl rfl (by decide) (by decide) htx⟩

/-- A packet with a PING is handled in full. -/
theorem recv_complete_ping :
    ∃ pkt, (opened aes128 Tagged.pingKeys).opens aes128 levelInitial pkt =
        some (joined (WireFrame.typed [.ping])) ∧
      (((opened aes128 Tagged.pingKeys).recv aes128 levelInitial pkt).1 = true →
        (opened aes128 Tagged.pingKeys).dispatched aes128 levelInitial pkt =
          layout 0 (WireFrame.typed [.ping])) := by
  obtain ⟨pkt, total, -, hopen⟩ := opened_opens aes128
    (by decide : 4 + (joined (WireFrame.typed [.ping])).length + 16 ≤ varintMax) (by decide)
  refine ⟨pkt, hopen, (recv_complete_iff aes128 _ _ _ [.ping] ⟨nofun, trivial⟩ hopen).2 ?_⟩
  intro _ f hf
  obtain rfl := List.mem_singleton.1 hf
  trivial

/-- A PING and a MAX_DATA frame. -/
def pingMaxData : List WireFrame := [.ping, .maxData (.short 5 (by decide))]

/-- The peer's packet with both frames is reported as handled, and only the PING was. -/
theorem recv_stops_silently :
    ∃ pkt total, txPacket aes128 Tagged.pingKeys (aes128 Tagged.pingKeys.hp) 0xc3 [] [] true [] 0
        (joined (WireFrame.typed pingMaxData)) 1500 = some (pkt, total) ∧
      ((opened aes128 Tagged.pingKeys).recv aes128 levelInitial pkt).1 = true ∧
      (opened aes128 Tagged.pingKeys).dispatched aes128 levelInitial pkt =
        [{ type := 0x01, start := 0, len := 1 }] ∧
      layout 0 (WireFrame.typed pingMaxData) =
        [{ type := 0x01, start := 0, len := 1 }, { type := 0x10, start := 1, len := 2 }] := by
  obtain ⟨pkt, total, htx, hopen⟩ := opened_opens aes128
    (by decide : 4 + (joined (WireFrame.typed pingMaxData)).length + 16 ≤ varintMax) (by decide)
  have hspans : (opened aes128 Tagged.pingKeys).dispatched aes128 levelInitial pkt =
      [{ type := 0x01, start := 0, len := 1 }] := by
    rw [dispatched, hopen]
    rfl
  obtain ⟨io₀, hrecv⟩ := recv_eq_dispatchFrames aes128 hopen
  refine ⟨pkt, total, htx, ?_, hspans, rfl⟩
  rw [hrecv, hspans]
  rfl

end Connio

end Conn

end QuicVibe
