import QuicVibe.Conn.Io
import QuicVibe.Common.Run
import QuicVibe.Recovery.Lifecycle

/-!
# What a send leaves behind

The gate enforces the amplification limit on the length of the frames it is asked about; what leaves
the connection is the packet around them (`wireLen`). A ledger beside the connection counts the
datagram bytes of both directions. `quic_connio_send` asks the gate first and builds the packet
afterwards, and the gate commits: when the packet then cannot be built, nothing is taken back.
`Unhindered` is a connection that sends at the Initial level, where every send returns a packet.
-/

namespace QuicVibe

namespace Conn

open Packet Crypto Run Connio Recovery

section

/-- The datagram bytes of a run so far, beside the connection. -/
structure Ledger where
  io : Connio
  /-- Bytes of the datagrams given to `quic_connio_recv`. -/
  received : ℕ
  /-- Bytes of the datagrams returned by `quic_connio_send`. -/
  returned : ℕ

/-- Length of the packet around `framesLen` bytes of frames. -/
def wireLen (dcidLen : ℕ) (level : Level) (framesLen : ℕ) : ℕ :=
  1 + 4 + (1 + dcidLen) + 1 + (if levelIsInitial level then 1 else 0) +
    varintLen (4 + framesLen + 16) + 4 + framesLen + 16

/-- `quic_connio_send` returns a packet: the gate admits the frames, and the packet can be built and
fits the output. -/
def Connio.Sends (io : Connio) (level : Level) (frames : Bytes) (cap : ℕ) : Prop :=
  io.loop.sendOk level.val frames.length = true ∧ io.dcid.length ≤ maxCidLen ∧
    4 + frames.length + 16 ≤ varintMax ∧ wireLen io.dcid.length level frames.length ≤ cap

instance (io : Connio) (level : Level) (frames : Bytes) (cap : ℕ) :
    Decidable (io.Sends level frames cap) := inferInstanceAs (Decidable (_ ∧ _))

variable (aes : Block → Block → Block)

/-- Bytes that a call receives. -/
def ConnioOp.received : ConnioOp → ℕ
  | .recv _ datagram => datagram.length
  | _ => 0

/-- Bytes that a call returns. -/
def Connio.returned (io : Connio) : ConnioOp → ℕ
  | .send level frames cap => ((io.send aes level frames cap).1.map List.length).getD 0
  | _ => 0

namespace Ledger

/-- A fresh connection. -/
def start (memory : Connio) (isServer : Bool) (byte0 : UInt8) (dcid : Bytes)
    (initialMaxData : ℕ) : Ledger :=
  { io := memory.init isServer byte0 dcid initialMaxData, received := 0, returned := 0 }

def step (l : Ledger) (o : ConnioOp) : Ledger where
  io := l.io.step aes o
  received := l.received + o.received
  returned := l.returned + l.io.returned aes o

/-- Three times the bytes received bound the bytes returned. -/
def WithinLimit (l : Ledger) : Prop := l.returned ≤ 3 * l.received

/-- A send that returns a packet has room for all of it. -/
def Fits (l : Ledger) : ConnioOp → Prop
  | .send level frames cap => l.io.Sends level frames cap →
    l.returned + wireLen l.io.dcid.length level frames.length ≤ 3 * l.received
  | _ => True

end Ledger

/-! ## The length of a packet -/

theorem length_lhdrMid (dcid : Bytes) (level : Level) (n : ℕ) :
    (lhdrMid 1 dcid [] (levelIsInitial level) [] n).length =
      4 + (1 + dcid.length) + 1 + (if levelIsInitial level then 1 else 0) + varintLen n := by
  have htoken : (tokenField (levelIsInitial level) []).length =
      if levelIsInitial level then 1 else 0 := by
    cases levelIsInitial level <;> rfl
  simp only [lhdrMid, List.length_append, length_putBe, length_cidField, htoken,
    length_varintEncode, List.length_nil]
  omega

/-- The packet of a send. -/
def Connio.sendPacket (io : Connio) (level : Level) (frames : Bytes) (keys : InitialKeys) : Bytes :=
  protectedPacket aes keys (aes keys.hp) hpLongMask (lhdrByte0Pnlen (levelByte0 level) txPnLen)
    (lhdrMid 1 io.dcid [] (levelIsInitial level) [] (4 + frames.length + 16)) (io.tx.get level) frames

theorem Connio.length_sendPacket (io : Connio) (level : Level) (frames : Bytes)
    (keys : InitialKeys) :
    (io.sendPacket aes level frames keys).length = wireLen io.dcid.length level frames.length := by
  unfold sendPacket wireLen
  rw [length_protectedPacket, length_lhdrMid]
  omega

/-- **What `quic_connio_send` does.** The gate refuses and nothing happens; or it admits the frames
and records them, and then the packet is there or not. -/
theorem Connio.send_cases (io : Connio) (level : Level) (frames : Bytes) (cap : ℕ) :
    (io.loop.sendOk level.val frames.length = false ∧ io.send aes level frames cap = (none, io)) ∨
      (io.loop.sendOk level.val frames.length = true ∧ ¬ io.Sends level frames cap ∧
        io.send aes level frames cap = (none,
          { io with loop := (io.loop.onSend level.val true (io.tx.get level) frames.length).2 })) ∨
      (io.Sends level frames cap ∧ ∃ keys, io.loop.keys.forLevel level.val = some keys ∧
        io.send aes level frames cap = (some (io.sendPacket aes level frames keys),
          { io with loop := (io.loop.onSend level.val true (io.tx.get level) frames.length).2
                    tx := io.tx.set level (u64 (io.tx.get level + 1)) level.isLt })) := by
  rcases io.loop.onSend_cases level.val (io.tx.get level) frames.length with ⟨hok, hsend⟩ | ⟨hok, hsend⟩
  · refine .inl ⟨hok, ?_⟩
    simp only [Connio.send, hsend, Bool.not_false, if_true]
  · obtain ⟨keys, hkeys⟩ := Connloop.forLevel_of_sendOk hok
    have hsync : ∀ c : Connloop, c.ptoSync.keys = c.keys := fun _ => rfl
    have hlen := io.length_sendPacket aes level frames keys
    refine .inr ?_
    simp only [Connio.send, hsend, Bool.not_true, Bool.false_eq_true, if_false, hsync, hkeys]
    cases htx : txPacket aes keys (aes keys.hp) (levelByte0 level) io.dcid [] (levelIsInitial level)
        [] (io.tx.get level) frames cap with
    | some sealed =>
      obtain ⟨out, total⟩ := sealed
      obtain ⟨hd, -, hmax, rfl, rfl, hcap⟩ := (txPacket_eq_some_iff aes ..).1 htx
      refine .inr ⟨⟨hok, hd, hmax, hlen ▸ hcap⟩, keys, rfl, ?_⟩
      dsimp only
      rw [List.take_length]
      rfl
    | none =>
      refine .inl ⟨hok, ?_, rfl⟩
      rintro ⟨-, hd, hmax, hcap⟩
      have hsome := (txPacket_eq_some_iff aes keys (aes keys.hp) (levelByte0 level) io.dcid []
        (levelIsInitial level) (io.tx.get level) frames cap _ _).2
          ⟨hd, Nat.zero_le _, hmax, rfl, rfl, hlen ▸ hcap⟩
      rw [htx] at hsome
      cases hsome

/-- **What `quic_connio_send` returns**, in bytes. -/
theorem Connio.returned_send (io : Connio) (level : Level) (frames : Bytes) (cap : ℕ) :
    io.returned aes (.send level frames cap) =
      if io.Sends level frames cap then wireLen io.dcid.length level frames.length else 0 := by
  unfold returned
  rcases io.send_cases aes level frames cap with
    ⟨hok, hsend⟩ | ⟨-, hno, hsend⟩ | ⟨hsends, keys, -, hsend⟩
  · have hno : ¬ io.Sends level frames cap := fun h => by simp [h.1] at hok
    simp [hsend, hno]
  · simp [hsend, hno]
  · simp [hsend, hsends, length_sendPacket]

theorem Ledger.withinLimit_step_iff (l : Ledger) (o : ConnioOp) (h : l.WithinLimit) :
    (l.step aes o).WithinLimit ↔ l.Fits o := by
  cases o with
  | send level frames cap =>
    simp only [WithinLimit, step, ConnioOp.received, Connio.returned_send, Fits, Nat.add_zero]
    by_cases hsend : l.io.Sends level frames cap
    · simp [hsend]
    · simpa [hsend, WithinLimit] using h
  | recv level datagram =>
    simp only [WithinLimit, step, ConnioOp.received, Connio.returned, Fits, iff_true] at h ⊢
    omega
  | install | progress | pto | validate | close =>
    simpa [WithinLimit, step, ConnioOp.received, Connio.returned, Fits] using h

/-- **The limit holds along a run** exactly when every packet fits the budget that is left, with
the length it has on the wire. -/
theorem wire_bytes_within_iff (memory : Connio) (isServer : Bool) (byte0 : UInt8) (dcid : Bytes)
    (initialMaxData : ℕ) (ops : List ConnioOp) :
    (∀ past, past <+: ops → (run (Ledger.step aes)
        (Ledger.start memory isServer byte0 dcid initialMaxData) past).WithinLimit) ↔
      ∀ l o, (l, o) ∈ steps (Ledger.step aes)
        (Ledger.start memory isServer byte0 dcid initialMaxData) ops → l.Fits o := by
  generalize hstart : Ledger.start memory isServer byte0 dcid initialMaxData = start
  have hinit : start.WithinLimit := by
    rw [← hstart]
    exact Nat.zero_le _
  constructor
  · intro h l o hmem
    obtain ⟨past, hpre, rfl⟩ := mem_steps_iff.1 hmem
    have hbefore := h past ((List.prefix_append past [o]).trans hpre)
    refine (Ledger.withinLimit_step_iff aes _ o hbefore).1 ?_
    exact run_snoc (Ledger.step aes) start past o ▸ h _ hpre
  · intro h past hpast
    refine run_history (P := fun _ (l : Ledger) => l.WithinLimit) past hinit fun before o hpre ih => ?_
    exact (Ledger.withinLimit_step_iff aes _ o ih).2
      (h _ o (mem_steps_iff.2 ⟨before, hpre.trans hpast, rfl⟩))

/-- A server that has received one byte may send three, and answers with a PING of one byte: the
packet around it has thirty. -/
theorem ping_amplifies :
    let keys : InitialKeys := ⟨Vector.replicate 16 1, Vector.replicate 12 2, Vector.replicate 16 3⟩
    let l := run (Ledger.step aes128) (Ledger.start Connio.blank true 0xc3 [] 0)
      [.install levelInitial keys, .recv levelInitial [0x00], .send levelInitial [0x01] 1500]
    l.io.loop.validated = false ∧ l.received = 1 ∧ l.returned = 30 ∧ ¬ l.WithinLimit := by
  intro keys l
  have hreturned : l.returned = 30 := by
    simp only [l, run_cons, run_nil]
    rw [Ledger.step, Connio.returned_send, if_pos (by decide)]
    rfl
  have hreceived : l.received = 1 := rfl
  refine ⟨?_, hreceived, hreturned, ?_⟩
  · decide
  · rw [Ledger.WithinLimit, hreceived, hreturned]
    decide

end

/-! ## A failed send -/

/-- The sent-byte counter, the send level, the in-flight table, the timer and the next packet numbers
are as they were. -/
structure SameSendState (io io' : Connio) : Prop where
  sentBytes : io'.loop.sentBytes = io.loop.sentBytes
  sendLevel : io'.loop.sendLevel = io.loop.sendLevel
  sent : io'.loop.sent = io.loop.sent
  ptoArmed : io'.loop.ptoArmed = io.loop.ptoArmed
  tx : io'.tx = io.tx

/-- The gate would record nothing new: the level is the send level, no bytes are counted, the table
is full and the timer armed. -/
structure GateIdle (io : Connio) (level : Level) (len : ℕ) : Prop where
  level : io.loop.sendLevel = level.val
  bytes : u64 (io.loop.sentBytes + len) = io.loop.sentBytes
  full : io.loop.sent.freeSlot = sentpktCap
  armed : io.loop.ptoArmed = true

variable (aes : Block → Block → Block)

theorem sameSendState_onSend_iff (io : Connio) (level : Level) (len : ℕ)
    (hok : io.loop.sendOk level.val len = true) :
    SameSendState io { io with loop := (io.loop.onSend level.val true (io.tx.get level) len).2 } ↔
      GateIdle io level len := by
  rcases io.loop.onSend_cases level.val (io.tx.get level) len with ⟨hno, -⟩ | ⟨-, hsend⟩
  · rw [hok] at hno
    cases hno
  · rw [hsend]
    constructor
    · rintro ⟨hbytes, hlevel, hsent, harmed, -⟩
      have hfull := (Sentpkt.onSend_eq_self_iff _ _ _ _ _).1 hsent
      refine ⟨hlevel.symm, hbytes, hfull, harmed.symm.trans ?_⟩
      exact decide_eq_true (Sentpkt.count_onSend_pos _ _ _ _ _)
    · rintro ⟨hlevel, hbytes, hfull, harmed⟩
      refine ⟨hbytes, hlevel.symm, (Sentpkt.onSend_eq_self_iff _ _ _ _ _).2 hfull, ?_, rfl⟩
      exact (decide_eq_true (Sentpkt.count_onSend_pos _ _ _ _ _)).trans harmed.symm

/-- **A failed send has no effect** exactly when the gate refuses it, or it does not fail, or the
gate has nothing to record. -/
theorem failed_send_iff (io : Connio) (level : Level) (frames : Bytes) (cap : ℕ) :
    ((io.send aes level frames cap).1 = none → SameSendState io (io.send aes level frames cap).2) ↔
      io.loop.sendOk level.val frames.length = false ∨ io.Sends level frames cap ∨
        GateIdle io level frames.length := by
  rcases io.send_cases aes level frames cap with
    ⟨hok, hsend⟩ | ⟨hok, hno, hsend⟩ | ⟨hsends, keys, -, hsend⟩
  · rw [hsend]
    exact iff_of_true (fun _ => ⟨rfl, rfl, rfl, rfl, rfl⟩) (.inl hok)
  · rw [hsend]
    have hidle := sameSendState_onSend_iff io level frames.length hok
    simp only [hok, hno, hidle, Bool.true_eq_false, false_or, forall_const]
  · rw [hsend]
    refine iff_of_true ?_ (.inr (.inl hsends))
    intro hnone
    cases hnone

/-- A client whose path is validated, with keys at the Initial level. -/
def Connio.opened (keys : InitialKeys) : Connio :=
  run (step aes) (blank.init false 0xc3 [] 0) [.install levelInitial keys, .validate]

/-- A PING into an output of ten bytes: there is no packet, but the gate has moved to the Initial
level, counted a byte, recorded packet 0 and armed the timer. -/
theorem failed_send_recorded :
    let keys : InitialKeys := ⟨Vector.replicate 16 1, Vector.replicate 12 2, Vector.replicate 16 3⟩
    let io := opened aes128 keys
    let failed := io.send aes128 levelInitial [0x01] 10
    failed.1 = none ∧ io.loop.sentBytes = 0 ∧ failed.2.loop.sentBytes = 1 ∧
      io.loop.sendLevel = -1 ∧ failed.2.loop.sendLevel = 0 ∧
      io.loop.sent.tracked = [] ∧ 0 ∈ failed.2.loop.sent.tracked ∧
      io.loop.ptoArmed = false ∧ failed.2.loop.ptoArmed = true := by
  intro keys io failed
  have hempty : io.loop.sent.tracked = [] := blank.loop.sent.tracked_init
  have hfree : io.loop.sent.freeSlot = 0 := blank.loop.sent.freeSlot_init
  rcases io.send_cases aes128 levelInitial [0x01] 10 with
    ⟨hok, -⟩ | ⟨-, -, hsend⟩ | ⟨⟨-, -, -, hcap⟩, -⟩
  · exact absurd hok (by decide)
  · rcases io.loop.onSend_cases levelInitial.val (io.tx.get levelInitial) 1 with
      ⟨hno, -⟩ | ⟨-, hgate⟩
    · exact absurd hno (by decide)
    · have hfailed : failed = _ := hsend
      simp only [List.length_singleton, hgate] at hfailed
      rw [hfailed]
      refine ⟨rfl, rfl, rfl, rfl, rfl, hempty, ?_, rfl, ?_⟩
      · refine (Sentpkt.mem_tracked_onSend_iff _ _ _ _ _ _).2 (.inr ⟨rfl, ?_⟩)
        rw [hfree]
        decide
      · exact decide_eq_true (Sentpkt.count_onSend_pos _ _ _ _ _)
  · exact absurd hcap (by decide)

/-! ## The numbers of the packets -/

/-- What a call seals: the level and the number of the packet that a send returns. -/
def Connio.sealedBy (io : Connio) : ConnioOp → Option (Level × ℕ)
  | .send level frames cap =>
    if (io.send aes level frames cap).1.isSome then some (level, io.tx.get level) else none
  | _ => none

theorem Connio.sealedBy_send (io : Connio) (level : Level) (frames : Bytes) (cap : ℕ) :
    io.sealedBy aes (.send level frames cap) =
      if io.Sends level frames cap then some (level, io.tx.get level) else none := by
  unfold sealedBy
  rcases io.send_cases aes level frames cap with
    ⟨hok, hsend⟩ | ⟨-, hno, hsend⟩ | ⟨hsends, keys, -, hsend⟩
  · have hno : ¬ io.Sends level frames cap := fun h => by simp [h.1] at hok
    simp [hsend, hno]
  · simp [hsend, hno]
  · simp [hsend, hsends]

/-- The counters move when a packet is sealed, and only that of its level. -/
theorem Connio.step_tx (io : Connio) (o : ConnioOp) :
    (io.step aes o).tx = match io.sealedBy aes o with
      | some (level, n) => io.tx.set level (u64 (n + 1)) level.isLt
      | none => io.tx := by
  cases o with
  | send level frames cap =>
    rw [sealedBy_send]
    rcases io.send_cases aes level frames cap with
      ⟨hok, hsend⟩ | ⟨-, hno, hsend⟩ | ⟨hsends, keys, -, hsend⟩
    · have hno : ¬ io.Sends level frames cap := fun h => by simp [h.1] at hok
      simp [step, hsend, hno]
    · simp [step, hsend, hno]
    · simp [step, hsend, hsends]
  | recv level datagram => exact io.recv_tx aes level datagram
  | install | progress | pto | validate | close => rfl

/-! ## A connection that only sends -/

/-- The gate admits a send at the Initial level, now and behind further ones, and its packet can be
built. -/
structure Unhindered (io : Connio) : Prop where
  phase : io.loop.phase = .active
  validated : io.loop.validated = true
  usable : io.loop.levelUsable levelInitial.val = true
  level : io.loop.sendLevel = -1 ∨ io.loop.sendLevel = 0
  dcid : io.dcid.length ≤ maxCidLen

theorem unhindered_opened (keys : InitialKeys) : Unhindered (opened aes keys) := by
  refine ⟨rfl, rfl, ?_, .inl rfl, Nat.zero_le _⟩
  rfl

/-- A PING of a connection that only sends. -/
def ping : ConnioOp := .send levelInitial [0x01] 1500

theorem Unhindered.sends {io : Connio} (h : Unhindered io) :
    io.Sends levelInitial [0x01] 1500 := by
  have hmax : varintMax = 4611686018427387903 := rfl
  have hcid : maxCidLen = 20 := rfl
  have hlen : varintLen (4 + 1 + 16) = 1 := rfl
  have hdcid := h.dcid
  refine ⟨Connloop.sendOk_iff.2 ⟨?_, h.phase, h.usable, .inl h.validated⟩, hdcid, ?_, ?_⟩
  · have hkey : (0 : ℤ) ≤ keySendLevel io.loop.handshakeComplete io.loop.handshakeConfirmed := by
      unfold keySendLevel
      split <;> decide
    rcases h.level with hlevel | hlevel
    · exact .inr ⟨by rw [hlevel]; rfl, hkey⟩
    · exact .inl hlevel.symm
  · rw [List.length_singleton, hmax]
    decide
  · have hinitial : levelIsInitial levelInitial = true := rfl
    rw [wireLen, List.length_singleton, hlen, hinitial, if_pos rfl]
    omega

/-- **Every PING is sealed** under the next number, and the connection stays as ready as it was. -/
theorem Unhindered.step {io : Connio} (h : Unhindered io) :
    Unhindered (io.step aes ping) ∧
      io.sealedBy aes ping = some (levelInitial, io.tx.get levelInitial) := by
  refine ⟨?_, by rw [ping, sealedBy_send, if_pos h.sends]⟩
  unfold ping Connio.step
  rcases io.send_cases aes levelInitial [0x01] 1500 with
    ⟨hok, -⟩ | ⟨-, hno, -⟩ | ⟨⟨hok, -⟩, keys, -, hsend⟩
  · rw [h.sends.1] at hok
    cases hok
  · exact absurd h.sends hno
  · rcases io.loop.onSend_cases levelInitial.val (io.tx.get levelInitial) ([0x01] : Bytes).length with
      ⟨hno, -⟩ | ⟨-, hgate⟩
    · rw [hok] at hno
      cases hno
    · dsimp only
      rw [hsend, hgate]
      exact ⟨h.phase, h.validated, h.usable, .inr rfl, h.dcid⟩

end Conn

end QuicVibe
