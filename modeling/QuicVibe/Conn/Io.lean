import QuicVibe.Conn.Gate
import QuicVibe.Frame.Walk
import QuicVibe.Frame.Codec
import QuicVibe.Packet.RoundTrip
import QuicVibe.Stream.Reassemble
/-!
# Connection input and output

`connio.c` carries out what the gate permits: it seals outbound frames into a long-header packet of
the level, and opens inbound packets and hands every frame to its handler (`dispatch_state.c`).
-/

namespace QuicVibe

namespace Conn

open Packet Recovery Crypto
open QuicVibe.Frame

structure FlowCredit where
  consumed : ℕ
  window : ℕ
  maxData : ℕ

/-- `quic_connio`, with the fields of its dispatch view that are not pointers into it. -/
structure Connio where
  loop : Connloop
  stream : Stream.StreamRead
  credit : FlowCredit
  /-- An ack-eliciting frame arrived (`disp.ack_eliciting`). -/
  ackEliciting : Bool
  /-- CONNECTION_CLOSE arrived (`disp.close`). -/
  close : Bool
  /-- An ACK frame arrived (`disp.has_ack`), and its Largest Acknowledged. -/
  hasAck : Bool
  largestAcked : ℕ
  dcid : Bytes
  byte0 : UInt8
  /-- Next packet number to send in each space. -/
  tx : Vector ℕ keysetLevels
  /-- Next packet number expected in each space. -/
  rxPn : Vector ℕ keysetLevels

namespace Connio

/-- `quic_connio_init`, over whatever the structure held. -/
def init (io : Connio) (isServer : Bool) (byte0 : UInt8) (dcid : Bytes) (initialMaxData : ℕ) :
    Connio where
  loop := io.loop.init isServer
  stream := io.stream.init
  credit := { consumed := 0, window := initialMaxData, maxData := initialMaxData }
  ackEliciting := false
  close := false
  hasAck := false
  largestAcked := io.largestAcked
  dcid := dcid
  byte0 := byte0
  tx := Vector.replicate keysetLevels 0
  rxPn := Vector.replicate keysetLevels 0

/-- A structure in zeroed memory. -/
def blank : Connio where
  loop :=
    { keys := { keys := Vector.replicate _ ⟨Vector.replicate _ 0, Vector.replicate _ 0,
                  Vector.replicate _ 0⟩
                installed := Vector.replicate _ false }
      sent := ⟨Vector.replicate _ { pn := 0, timeSent := 0, size := 0, ackEliciting := false,
                                    state := .inflight, used := false }⟩
      sendLevel := 0, handshakeComplete := false, handshakeConfirmed := false, validated := false
      isServer := false, phase := .active, ptoArmed := false, recvBytes := 0, sentBytes := 0 }
  stream :=
    { r := { buf := Vector.replicate _ 0, has := Vector.replicate _ false, delivered := 0
             finalSize := 0, haveFinal := false }
      readOff := 0 }
  credit := { consumed := 0, window := 0, maxData := 0 }
  ackEliciting := false
  close := false
  hasAck := false
  largestAcked := 0
  dcid := []
  byte0 := 0
  tx := Vector.replicate _ 0
  rxPn := Vector.replicate _ 0

/-! ## Frames -/

def onStream (io : Connio) (frame : Bytes) : Bool × Connio :=
  match getStream frame with
  | none => (false, io)
  | some (f, _) =>
    let (ok, stream) := io.stream.push f.offset f.data
    (ok, { io with stream := stream })

/-- `on_ack`: the decoded ranges, in the wire form the sent table takes. -/
def onAck (io : Connio) (frame : Bytes) : Bool × Connio :=
  match ackDecode frame with
  | none => (false, io)
  | some (f, _) =>
    match f.ranges with
    | [] => (false, io)
    | r₀ :: rest =>
      let wire := sub64 r₀.hi r₀.lo :: ackPairs (r₀ :: rest)
      let sent := (io.loop.sent.ackProcess r₀.hi wire).2
      (true, { io with hasAck := true, largestAcked := r₀.hi, loop := { io.loop with sent := sent } })

def onMaxData (io : Connio) (frame : Bytes) : Bool × Connio :=
  match maxDataDecode frame with
  | none => (false, io)
  | some (f, _) => (true, { io with credit := { io.credit with maxData := f.value } })

def frameAckEliciting (kind : Kind) : Bool :=
  kind != .unknown && !(kind == .padding || kind == .ack || kind == .connectionClose)

/-- The handlers of `dispatch_state.c`, by kind. -/
def handler (io : Connio) (frame : Bytes) : Kind → Option (Bool × Connio)
  | .padding | .ping => some (true, io)
  | .ack => some (io.onAck frame)
  | .stream => some (io.onStream frame)
  | .maxData => some (io.onMaxData frame)
  | .connectionClose => some (true, { io with close := true })
  | _ => none

/-- `quic_framedispatch_handle`: a frame without a handler is refused and leaves no trace. -/
def handle (io : Connio) (f : Walked) : Bool × Connio :=
  let kind := classify f.type
  let marked := { io with ackEliciting := io.ackEliciting || frameAckEliciting kind }
  (marked.handler f.rest kind).getD (false, io)

/-- The loop of `dispatch_all`. -/
def dispatchFrames (io : Connio) : List Walked → Bool × Connio
  | [] => (true, io)
  | f :: rest =>
    let (ok, io) := io.handle f
    let (all, io) := io.dispatchFrames rest
    (ok && all, io)

/-- `dispatch_all`: every frame of the payload, whether or not the ones before were handled. -/
def dispatchAll (io : Connio) (frames : Bytes) : Bool × Connio := io.dispatchFrames (walk frames)

/-! ## Sending -/

def levelIsInitial (level : Level) : Bool := level = levelInitial

def levelByte0 (level : Level) : UInt8 := if levelIsInitial level then 0xc3 else 0xe3

variable (aes : Block → Block → Block)

/-- `quic_connio_send`: the packet, if there is one. The packet number advances only then. -/
def send (io : Connio) (level : Level) (frames : Bytes) (cap : ℕ) :
    Option Bytes × Connio :=
  let (admitted, loop) := io.loop.onSend level.val true (io.tx.get level) frames.length
  let io := { io with loop := loop }
  if !admitted then (none, io)
  else match io.loop.keys.forLevel level.val with
    | none => (none, io)
    | some keys =>
      match txPacket aes keys (aes keys.hp) (levelByte0 level) io.dcid [] (levelIsInitial level) []
          (io.tx.get level) frames cap with
      | none => (none, io)
      | some (out, total) =>
        (some (out.take total),
          { io with tx := io.tx.set level (u64 (io.tx.get level + 1)) level.isLt })

@[simp] theorem send_loop (io : Connio) (level : Level) (frames : Bytes) (cap : ℕ) :
    (io.send aes level frames cap).2.loop =
      (io.loop.onSend level.val true (io.tx.get level) frames.length).2 := by
  unfold send
  generalize io.loop.onSend level.val true (io.tx.get level) frames.length = r
  obtain ⟨admitted, loop⟩ := r
  cases admitted with
  | false => rfl
  | true =>
    simp only [Bool.not_true, Bool.false_eq_true, if_false]
    split
    · rfl
    · split <;> rfl

/-! ## Receiving -/

/-- `recv_accept`: the inbound number advances, a server's first Handshake packet validates the
address, and the frames are dispatched. -/
def recvAccept (io : Connio) (level : Level) (frames : Bytes) : Bool × Connio :=
  let io := { io with rxPn := io.rxPn.set level (u64 (io.rxPn.get level + 1)) level.isLt }
  let io := if io.loop.isServer ∧ level = levelHandshake then { io with loop := io.loop.validate } else io
  io.dispatchAll frames

def recv (io : Connio) (level : Level) (datagram : Bytes) : Bool × Connio :=
  let (admitted, loop) := io.loop.onRecv level.val datagram.length
  let io := { io with loop := loop }
  if !admitted then (false, io)
  else match io.loop.keys.forLevel level.val with
    | none => (false, io)
    | some keys =>
      match rxPacket aes keys (aes keys.hp) datagram (levelIsInitial level) with
      | none => (false, io)
      | some opened => io.recvAccept level opened.payload

/-! What the frames of a packet do not touch. -/

@[simp] theorem handle_tx (io : Connio) (f : Walked) : (io.handle f).2.tx = io.tx := by
  unfold handle
  cases classify f.type with
  | ack =>
    simp only [handler, Option.getD_some]
    unfold onAck
    split
    · rfl
    · split <;> rfl
  | stream =>
    simp only [handler, Option.getD_some]
    unfold onStream
    split <;> rfl
  | maxData =>
    simp only [handler, Option.getD_some]
    unfold onMaxData
    split <;> rfl
  | _ => rfl

@[simp] theorem dispatchFrames_tx (io : Connio) (frames : List Walked) :
    (io.dispatchFrames frames).2.tx = io.tx := by
  induction frames generalizing io with
  | nil => rfl
  | cons f frames ih => exact (ih (io.handle f).2).trans (io.handle_tx f)

theorem recv_tx (io : Connio) (level : Level) (datagram : Bytes) :
    (io.recv aes level datagram).2.tx = io.tx := by
  unfold recv
  dsimp only
  split
  · rfl
  · split
    · rfl
    · split
      · rfl
      · unfold recvAccept dispatchAll
        dsimp only
        rw [dispatchFrames_tx]
        split <;> rfl

end Connio

/-! ## Runs -/

/-- A call on a connection. Keys and the handshake's progress are set by the TLS driver. -/
inductive ConnioOp
  | install (level : Level) (keys : InitialKeys)
  | progress (complete confirmed : Bool)
  | send (level : Level) (frames : Bytes) (cap : ℕ)
  | recv (level : Level) (datagram : Bytes)
  | pto (level : Level) (pn len : ℕ)
  | validate
  | close (peerClosed : Bool)

namespace Connio

variable (aes : Block → Block → Block)

/-- The state after a call. -/
def step (io : Connio) : ConnioOp → Connio
  | .install level keys =>
    { io with loop := { io.loop with keys := (io.loop.keys.install level.val keys).2 } }
  | .progress complete confirmed =>
    { io with loop := { io.loop with handshakeComplete := complete, handshakeConfirmed := confirmed } }
  | .send level frames cap => (io.send aes level frames cap).2
  | .recv level datagram => (io.recv aes level datagram).2
  | .pto level pn len => { io with loop := (io.loop.onPto level.val pn len).2 }
  | .validate => { io with loop := io.loop.validate }
  | .close peerClosed => { io with loop := io.loop.close peerClosed }

end Connio

end Conn

end QuicVibe
