import QuicVibe.Conn.Io
import QuicVibe.Common.Run

/-!
# Acknowledgements and packet number spaces

Packet numbers restart in each space, but the connection keeps one sent-packet table for all levels:
an ACK frame removes every packet in flight that carries one of its numbers. A tag beside each slot
remembers the level its packet was sent at. The frame dispatcher turns the decoded ranges back into
gaps and lengths for `quic_ack_process`; `quic_ackrange_process` goes over them as they are.
-/

namespace QuicVibe

namespace Conn

open Packet Recovery Crypto Run
open QuicVibe.Frame

/-! ## What a received packet acknowledges -/

/-- The frame is an ACK that covers the packet number. -/
def frameAcks (f : Walked) (pn : ℕ) : Bool :=
  classify f.type == .ack && ((ackDecode f.rest).map (coveredBy ·.1.ranges pn)).getD false

/-- An ACK frame of the payload covers the packet number. -/
def payloadAcks (payload : Bytes) (pn : ℕ) : Bool := (walk payload).any (frameAcks · pn)

namespace Connio

variable (aes : Block → Block → Block)

/-- The payload `quic_connio_recv` dispatches, if it gets that far. -/
def opens (io : Connio) (level : Level) (datagram : Bytes) : Option Bytes :=
  if !(io.loop.onRecv level.val datagram.length).1 then none
  else do
    let keys ← io.loop.keys.forLevel level.val
    let opened ← rxPacket aes keys (aes keys.hp) datagram (levelIsInitial level)
    return opened.payload

variable (io : Connio)

theorem onAck_sent (frame : Bytes) :
    (io.onAck frame).2.loop.sent =
      io.loop.sent.remove fun pn => ((ackDecode frame).map (coveredBy ·.1.ranges pn)).getD false := by
  unfold onAck
  cases hdec : ackDecode frame with
  | none => exact (Sentpkt.remove_false _).symm
  | some p =>
    obtain ⟨f, n⟩ := p
    obtain ⟨hpos, -, hdesc, hrange, -⟩ := ackDecode_eq_some hdec
    obtain ⟨delay, ranges, ecn⟩ := f
    cases ranges with
    | nil => cases hpos
    | cons r₀ rest => exact Sentpkt.ackProcess_ackPairs hdesc hrange.ranges _

theorem onStream_loop (frame : Bytes) : (io.onStream frame).2.loop = io.loop := by
  unfold onStream
  split <;> rfl

theorem onMaxData_loop (frame : Bytes) : (io.onMaxData frame).2.loop = io.loop := by
  unfold onMaxData
  split <;> rfl

theorem handle_sent (f : Walked) :
    (io.handle f).2.loop.sent = io.loop.sent.remove (frameAcks f) := by
  unfold handle frameAcks
  cases classify f.type with
  | ack => exact onAck_sent _ f.rest
  | stream =>
    refine (congrArg Connloop.sent (onStream_loop _ f.rest)).trans ?_
    exact (Sentpkt.remove_false _).symm
  | maxData =>
    refine (congrArg Connloop.sent (onMaxData_loop _ f.rest)).trans ?_
    exact (Sentpkt.remove_false _).symm
  | _ => exact (Sentpkt.remove_false _).symm

theorem handle_loop (f : Walked) :
    ∃ sent, (io.handle f).2.loop = { io.loop with sent := sent } := by
  unfold handle
  cases classify f.type with
  | ack =>
    simp only [handler, Option.getD_some]
    unfold onAck
    split
    · exact ⟨_, rfl⟩
    · split <;> exact ⟨_, rfl⟩
  | stream => exact ⟨_, onStream_loop _ f.rest⟩
  | maxData => exact ⟨_, onMaxData_loop _ f.rest⟩
  | _ => exact ⟨_, rfl⟩

theorem dispatchFrames_loop (frames : List Walked) :
    ∃ sent, (io.dispatchFrames frames).2.loop = { io.loop with sent := sent } := by
  induction frames generalizing io with
  | nil => exact ⟨_, rfl⟩
  | cons f frames ih =>
    obtain ⟨sent, hfirst⟩ := io.handle_loop f
    obtain ⟨sent', hrest⟩ := ih (io.handle f).2
    rw [hfirst] at hrest
    exact ⟨sent', hrest⟩

theorem dispatchFrames_sent (frames : List Walked) :
    (io.dispatchFrames frames).2.loop.sent =
      io.loop.sent.remove fun pn => frames.any (frameAcks · pn) := by
  induction frames generalizing io with
  | nil => exact (Sentpkt.remove_false _).symm
  | cons f frames ih =>
    refine (ih (io.handle f).2).trans ?_
    rw [handle_sent, Sentpkt.remove_remove]
    rfl

/-- **What a received packet removes.** -/
theorem recv_sent (level : Level) (datagram : Bytes) :
    (io.recv aes level datagram).2.loop.sent =
      match io.opens aes level datagram with
      | none => io.loop.sent
      | some payload => io.loop.sent.remove (payloadAcks payload) := by
  have hsent := io.loop.onRecv_sent level.val datagram.length
  have hkeys := io.loop.onRecv_keys level.val datagram.length
  unfold recv opens
  generalize io.loop.onRecv level.val datagram.length = r at hsent hkeys
  obtain ⟨admitted, loop⟩ := r
  cases admitted with
  | false => exact hsent
  | true =>
    simp only [Bool.not_true, Bool.false_eq_true, if_false] at hkeys hsent ⊢
    rw [hkeys]
    cases io.loop.keys.forLevel level.val with
    | none => exact hsent
    | some keys =>
      simp only [Option.bind_eq_bind, Option.bind_some]
      cases rxPacket aes keys (aes keys.hp) datagram (levelIsInitial level) with
      | none => exact hsent
      | some opened =>
        simp only [Option.bind_some, recvAccept, dispatchAll, dispatchFrames_sent]
        split
        · exact congrArg (Sentpkt.remove · _) hsent
        · exact congrArg (Sentpkt.remove · _) hsent

end Connio

/-! ## Runs with tagged slots -/

/-- A connection with, for each slot of its table, the level at which the packet recorded there was
sent. -/
structure Tagged where
  io : Connio
  space : ℕ → Option Level

namespace Tagged

variable (aes : Block → Block → Block)

/-- A fresh connection. -/
def start (memory : Connio) (isServer : Bool) (byte0 : UInt8) (dcid : Bytes)
    (initialMaxData : ℕ) : Tagged :=
  { io := memory.init isServer byte0 dcid initialMaxData, space := fun _ => none }

/-- A packet the gate records goes to the first free slot of the table. -/
def record (t : Tagged) (level : Level) (recorded : Bool) : ℕ → Option Level :=
  if recorded then Function.update t.space t.io.loop.sent.freeSlot (some level) else t.space

def step (t : Tagged) (o : ConnioOp) : Tagged where
  io := t.io.step aes o
  space :=
    match o with
    | .send level frames _ => t.record level (t.io.loop.sendOk level.val frames.length)
    | .pto level pn len => t.record level (t.io.loop.onPto level.val pn len).1
    | _ => t.space

/-- The packet in slot `i` is in flight. -/
def InFlight (t : Tagged) (i : Fin sentpktCap) : Prop := (t.io.loop.sent.e.get i).inflight = true

instance (t : Tagged) (i : Fin sentpktCap) : Decidable (t.InFlight i) :=
  inferInstanceAs (Decidable (_ = true))

/-- The packets a call takes out of flight by an ACK were sent at the level of the call. -/
def KeepsSpaces (t : Tagged) : ConnioOp → Prop
  | .recv level datagram => ∀ i, t.InFlight i →
    ¬ (t.step aes (.recv level datagram)).InFlight i → t.space i = some level
  | _ => True

/-- No packet of another space is in flight under a number that the payload acknowledges. -/
def NoCollision (t : Tagged) : ConnioOp → Prop
  | .recv level datagram => ∀ payload, t.io.opens aes level datagram = some payload →
    ∀ i, t.InFlight i → payloadAcks payload (t.io.loop.sent.e.get i).pn = true →
      t.space i = some level
  | _ => True

variable (t : Tagged) {level : Level} {datagram payload dcid scid pkt : Bytes} {k : InitialKeys}
  {pn cap total : ℕ}

theorem inFlight_recv_iff (hopen : t.io.opens aes level datagram = some payload)
    (i : Fin sentpktCap) :
    (t.step aes (.recv level datagram)).InFlight i ↔
      t.InFlight i ∧ payloadAcks payload (t.io.loop.sent.e.get i).pn = false := by
  have hsent := t.io.recv_sent aes level datagram
  rw [hopen] at hsent
  have hremove := Sentpkt.inflight_remove t.io.loop.sent (payloadAcks payload) i.isLt
  simp only [InFlight, Vector.get_eq_getElem, step, Connio.step, hsent, hremove, Bool.and_eq_true,
    Bool.not_eq_true']

theorem inFlight_recv_of_none (hopen : t.io.opens aes level datagram = none) (i : Fin sentpktCap) :
    (t.step aes (.recv level datagram)).InFlight i ↔ t.InFlight i := by
  have hsent := t.io.recv_sent aes level datagram
  rw [hopen] at hsent
  simp only [InFlight, step, Connio.step, hsent]

theorem keepsSpaces_iff (o : ConnioOp) : t.KeepsSpaces aes o ↔ t.NoCollision aes o := by
  cases o with
  | recv level datagram =>
    cases hopen : t.io.opens aes level datagram with
    | none =>
      have hstay := t.inFlight_recv_of_none aes hopen
      constructor
      · intro _ payload hpayload
        rw [hopen] at hpayload
        cases hpayload
      · intro _ i hi hgone
        exact absurd ((hstay i).2 hi) hgone
    | some payload =>
      have hafter : ∀ i, t.InFlight i → (¬ (t.step aes (.recv level datagram)).InFlight i ↔
          payloadAcks payload (t.io.loop.sent.e.get i).pn = true) := by
        intro i hi
        rw [t.inFlight_recv_iff aes hopen i, and_iff_right hi, Bool.not_eq_false]
      constructor
      · intro h payload' hpayload i hi hack
        obtain rfl : payload = payload' := Option.some.inj (hopen.symm.trans hpayload)
        exact h i hi ((hafter i hi).2 hack)
      · intro h i hi hgone
        exact h payload hopen i hi ((hafter i hi).1 hgone)
  | install | progress | send | pto | validate | close => exact Iff.rfl

/-! ## The tags -/

/-- **Acknowledgements stay in their space** along a run exactly when no ACK arrives while a packet
of another space is in flight under one of its numbers. -/
theorem acks_keep_spaces_iff (memory : Connio) (isServer : Bool) (byte0 : UInt8) (dcid : Bytes)
    (initialMaxData : ℕ) (ops : List ConnioOp) :
    (∀ t o, (t, o) ∈ steps (step aes) (start memory isServer byte0 dcid initialMaxData) ops →
        t.KeepsSpaces aes o) ↔
      ∀ t o, (t, o) ∈ steps (step aes) (start memory isServer byte0 dcid initialMaxData) ops →
        t.NoCollision aes o := by
  simp only [keepsSpaces_iff]

/-! ## The same number at two levels -/

/-- Keys for the run below. -/
def pingKeys : InitialKeys := ⟨Vector.replicate 16 1, Vector.replicate 12 2, Vector.replicate 16 3⟩

/-- A client that has sent a PING at the Initial and at the Handshake level. -/
def pinged : Tagged :=
  run (step aes128) (start Connio.blank false 0xc3 [] 0)
    [.install levelInitial pingKeys, .install levelHandshake pingKeys, .recv levelInitial [0x00],
     .send levelInitial [0x01] 1500, .send levelHandshake [0x01] 1500]

theorem pinged_spec :
    pinged.io.loop.recvAllowed levelHandshake.val = true ∧
      pinged.io.loop.keys.forLevel levelHandshake.val = some pingKeys ∧
      (pinged.InFlight 0 ∧ pinged.io.loop.sent.e[0].pn = 0 ∧ pinged.space 0 = some levelInitial) ∧
      pinged.InFlight 1 ∧ pinged.io.loop.sent.e[1].pn = 0 ∧
        pinged.space 1 = some levelHandshake := by
  decide +kernel

theorem opens_of_txPacket {io : Connio} {byte0 : UInt8}
    (hallowed : io.loop.recvAllowed level.val = true)
    (hkeys : io.loop.keys.forLevel level.val = some k) (hlong : byte0 &&& 0x80 ≠ 0)
    (hpn : pn < 2 ^ 32)
    (htx : txPacket aes k (aes k.hp) byte0 dcid scid (Connio.levelIsInitial level) [] pn payload cap =
      some (pkt, total)) : io.opens aes level pkt = some payload := by
  obtain ⟨-, opened, hrx⟩ := rxPacket_txPacket aes _ _ _ _ _ _ _ _ _ _ _ _ hlong hpn htx
  simp [Connio.opens, Connloop.onRecv_fst, hallowed, hkeys, hrx]

theorem not_inFlight_of_txPacket {t : Tagged}
    (hallowed : t.io.loop.recvAllowed levelHandshake.val = true)
    (hkeys : t.io.loop.keys.forLevel levelHandshake.val = some k) (hpn : pn < 2 ^ 32)
    (htx : txPacket aes k (aes k.hp) 0xe3 dcid scid false [] pn payload cap = some (pkt, total))
    {i : Fin sentpktCap} (hack : payloadAcks payload (t.io.loop.sent.e.get i).pn = true) :
    ¬ (t.step aes (.recv levelHandshake pkt)).InFlight i := by
  have hopen := opens_of_txPacket aes hallowed hkeys (by decide) hpn htx
  rw [t.inFlight_recv_iff aes hopen i, hack]
  simp

/-- The peer acknowledges the PING of the Handshake level, and both PINGs are gone. -/
theorem handshake_ack_removes_initial :
    ∃ pkt total, txPacket aes128 pingKeys (aes128 pingKeys.hp) 0xe3 [] [] false [] 0
        [0x02, 0, 0, 0, 0] 1500 = some (pkt, total) ∧
      pinged.InFlight 0 ∧ pinged.space 0 = some levelInitial ∧
      ¬ (pinged.step aes128 (.recv levelHandshake pkt)).InFlight 0 ∧
      ¬ (pinged.step aes128 (.recv levelHandshake pkt)).InFlight 1 := by
  obtain ⟨hallowed, hkeys, ⟨hflight, hpn₀, hspace⟩, -, hpn₁, -⟩ := pinged_spec
  have htx := (txPacket_eq_some_iff aes128 pingKeys (aes128 pingKeys.hp) 0xe3 [] [] false 0
    [0x02, 0, 0, 0, 0] 1500 _ _).2
      ⟨by decide, by decide, by decide, rfl, rfl, by rw [length_protectedPacket]; decide⟩
  have hack : payloadAcks [0x02, 0, 0, 0, 0] 0 = true := by decide
  refine ⟨_, _, htx, hflight, hspace, ?_, ?_⟩
  · exact not_inFlight_of_txPacket aes128 hallowed hkeys (by decide) htx (hpn₀.symm ▸ hack)
  · exact not_inFlight_of_txPacket aes128 hallowed hkeys (by decide) htx (hpn₁.symm ▸ hack)

end Tagged

end Conn

namespace Recovery

open Packet
open QuicVibe.Frame

namespace Sentpkt

/-- `quic_ackrange_process`: the return value, the numbers acknowledged and the table. Its
`akr_ack_range` is the `ack_range` of `ack_process.c`, line by line. -/
def ackrangeProcess (t : Sentpkt) (frame : Bytes) : Bool × List ℕ × Sentpkt :=
  match ackDecode frame with
  | none => (false, [], t)
  | some (f, _) => (true, t.ackRanges f.ranges)

/-- `on_ack` of the dispatcher, with the numbers that `quic_ack_process` leaves in its local array. -/
def onAckProcess (t : Sentpkt) (frame : Bytes) : Bool × List ℕ × Sentpkt :=
  match ackDecode frame with
  | none => (false, [], t)
  | some (f, _) =>
    match f.ranges with
    | [] => (false, [], t)
    | r₀ :: rest => (true, t.ackProcess r₀.hi (sub64 r₀.hi r₀.lo :: ackPairs (r₀ :: rest)))

/-- On every byte string the dispatcher's way and the direct way come to the same. -/
theorem onAckProcess_eq (t : Sentpkt) (frame : Bytes) :
    t.onAckProcess frame = t.ackrangeProcess frame := by
  have hbound : varintMax = 4611686018427387903 := rfl
  unfold onAckProcess ackrangeProcess
  cases hdecode : ackDecode frame with
  | none => rfl
  | some decoded =>
    obtain ⟨f, n⟩ := decoded
    obtain ⟨hpos, -, hdesc, hrange, -⟩ := ackDecode_eq_some hdecode
    obtain ⟨r₀, rest, hranges⟩ := List.exists_cons_of_length_pos hpos
    have hmax := hrange.ranges
    rw [hranges] at hdesc hmax
    have hr₀ := hmax r₀ (by simp)
    have hlo : sub64 r₀.hi (sub64 r₀.hi r₀.lo) = r₀.lo :=
      sub64_sub64 (hdesc.1 r₀ (by simp)) (by omega)
    simp only [hranges, ackProcess, hlo, ackPairsBelow_ackPairs hdesc hmax, ackRanges]

end Sentpkt

end Recovery

namespace Conn

open Packet Recovery
open QuicVibe.Frame

theorem Connio.onAck_eq (io : Connio) (frame : Bytes) :
    (io.onAck frame).1 = (io.loop.sent.onAckProcess frame).1 ∧
      (io.onAck frame).2.loop.sent = (io.loop.sent.onAckProcess frame).2.2 := by
  unfold onAck Sentpkt.onAckProcess
  cases ackDecode frame with
  | none => exact ⟨rfl, rfl⟩
  | some decoded =>
    obtain ⟨f, n⟩ := decoded
    dsimp only
    cases f.ranges with
    | nil => exact ⟨rfl, rfl⟩
    | cons r₀ rest => exact ⟨rfl, rfl⟩

/-- **Both ACK processors agree**: over every table and byte string they accept or refuse together,
acknowledge the same numbers in the same order and leave the same table, and the dispatcher's handler
leaves that table too. -/
theorem ack_processors_agree (io : Connio) (frame : Bytes) :
    io.loop.sent.onAckProcess frame = io.loop.sent.ackrangeProcess frame ∧
      (io.onAck frame).1 = (io.loop.sent.ackrangeProcess frame).1 ∧
      (io.onAck frame).2.loop.sent = (io.loop.sent.ackrangeProcess frame).2.2 := by
  have hagree := io.loop.sent.onAckProcess_eq frame
  obtain ⟨hreturn, htable⟩ := io.onAck_eq frame
  rw [hagree] at hreturn htable
  exact ⟨hagree, hreturn, htable⟩

end Conn

end QuicVibe
