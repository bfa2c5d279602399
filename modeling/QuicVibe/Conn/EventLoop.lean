import QuicVibe.Conn.Io
import QuicVibe.Common.Run
/-!
# The event loop

`evloop.c` runs one connection in iterations: it drains the queued receives, runs the timers that are
due, and makes one send decision. `phases` takes an iteration apart, so that leaving the active phase
in the middle of it counts from that moment on.
-/

namespace QuicVibe

namespace Conn

open Packet Recovery Run

/-- `QUIC_EVLOOP_QCAP`. -/
def evloopQcap : ℕ := 64

structure EvloopRtx where
  pn : ℕ
  len : ℕ

structure EvloopTimer where
  armed : Bool
  deadline : ℕ

/-- `quic_evloop`, without the counters of the key update. -/
structure Evloop where
  gate : Connloop
  /-- The level the loop sends and receives at. -/
  level : ℤ
  nextPn : ℕ
  /-- The queued receives, each with whether it is ack-eliciting. -/
  rx : List Bool
  ackOwed : Bool
  rtx : List EvloopRtx
  haveNewData : Bool
  sendLen : ℕ
  pto : EvloopTimer
  loss : EvloopTimer
  idle : EvloopTimer
  cwnd : ℕ
  bytesInFlight : ℕ

namespace Evloop

/-- `quic_evloop_init`, over whatever the gate held. -/
def init (memory : Connloop) (level : ℤ) (cwnd sendLen : ℕ) : Evloop where
  gate := memory.init true
  level := level
  nextPn := 0
  rx := []
  ackOwed := false
  rtx := []
  haveNewData := false
  sendLen := sendLen
  pto := ⟨false, 0⟩
  loss := ⟨false, 0⟩
  idle := ⟨false, 0⟩
  cwnd := cwnd
  bytesInFlight := 0

def onReceive (c : Evloop) (ackEliciting : Bool) : Evloop :=
  if c.rx.length ≥ evloopQcap then c else { c with rx := c.rx ++ [ackEliciting] }

/-! ## Receives -/

def drainOne (c : Evloop) (ackEliciting : Bool) : Evloop :=
  { c with gate := (c.gate.onRecv c.level c.sendLen).2
           ackOwed := if ackEliciting then true else c.ackOwed }

def phaseReceive (c : Evloop) : Evloop := { c.rx.foldl drainOne c with rx := [] }

/-! ## Timers -/

def timerFires (t : EvloopTimer) (now : ℕ) : Bool := t.armed && decide (now ≥ t.deadline)

/-- `loss_act`: the packet that is queued stands for the oldest one in flight. -/
def lossAct (c : Evloop) : Evloop :=
  if c.rtx.length ≥ evloopQcap then c
  else
    let c := { c with rtx := c.rtx ++ [⟨c.nextPn, c.sendLen⟩] }
    if c.bytesInFlight ≥ c.sendLen then { c with bytesInFlight := c.bytesInFlight - c.sendLen } else c

def antiampOk (c : Evloop) : Bool :=
  udploopSendAllowed c.gate.recvBytes c.gate.sentBytes c.gate.validated c.sendLen

def ptoAct (c : Evloop) : Evloop :=
  if !c.antiampOk then c
  else
    let (probed, gate) := c.gate.onPto c.level c.nextPn c.sendLen
    let c := { c with gate := gate }
    if probed then { c with nextPn := u64 (c.nextPn + 1) } else c

def idleAct (c : Evloop) : Evloop := { c with gate := c.gate.close false }

/-- `run_timer`, for each of the three timers: it is disarmed before it acts. -/
def runPto (c : Evloop) (now : ℕ) : Evloop :=
  if !timerFires c.pto now then c else ptoAct { c with pto := { c.pto with armed := false } }

def runLoss (c : Evloop) (now : ℕ) : Evloop :=
  if !timerFires c.loss now then c else lossAct { c with loss := { c.loss with armed := false } }

def runIdle (c : Evloop) (now : ℕ) : Evloop :=
  if !timerFires c.idle now then c else idleAct { c with idle := { c.idle with armed := false } }

def phaseTimers (c : Evloop) (now : ℕ) : Evloop := ((c.runPto now).runLoss now).runIdle now

/-! ## Sends -/

def cwndctlCanSend (bytesInFlight cwnd nextPacketSize : ℕ) : Bool :=
  u64 (bytesInFlight + nextPacketSize) ≤ cwnd

def sendPermitted (c : Evloop) : Bool :=
  if c.gate.phase ≠ .active then false
  else if !cwndctlCanSend c.bytesInFlight c.cwnd c.sendLen then false
  else c.antiampOk

/-- `evloop_emit`: what the gate answers is not looked at. -/
def evloopEmit (c : Evloop) : Evloop :=
  { c with gate := (c.gate.onSend c.level true c.nextPn c.sendLen).2
           nextPn := u64 (c.nextPn + 1)
           bytesInFlight := u64 (c.bytesInFlight + c.sendLen) }

def emitRetransmit (c : Evloop) : Evloop := evloopEmit { c with rtx := c.rtx.dropLast }

def sendData (c : Evloop) : Evloop :=
  if c.rtx.length > 0 then c.emitRetransmit
  else if c.haveNewData then c.evloopEmit
  else c

def phaseSend (c : Evloop) : Evloop :=
  if !c.sendPermitted then c
  else if c.ackOwed then { c.evloopEmit with ackOwed := false }
  else c.sendData

def step (c : Evloop) (now : ℕ) : Evloop :=
  if c.gate.phase = .closed then c else ((c.phaseReceive).phaseTimers now).phaseSend

def close (c : Evloop) (peerClosed : Bool) : Evloop :=
  { c with gate := c.gate.close peerClosed }

end Evloop

/-! ## Runs -/

/-- The timers of a loop. -/
inductive EvloopTimerId
  | pto
  | loss
  | idle

/-- A call on the loop, or what its owner does to it between two calls: set a timer, offer data,
change the keys or the handshake flags, validate the path, or hand an ACK to the gate. -/
inductive EvloopOp
  | receive (ackEliciting : Bool)
  | arm (id : EvloopTimerId) (timer : EvloopTimer)
  | offer (haveNewData : Bool)
  | keys (keys : Keyset)
  | progress (complete confirmed : Bool)
  | validate
  | ack (ackLargest : ℕ) (ackRanges : List ℕ)
  | step (now : ℕ)
  | close (peerClosed : Bool)

namespace Evloop

/-- The loop after a call. -/
def apply (c : Evloop) : EvloopOp → Evloop
  | .receive ackEliciting => c.onReceive ackEliciting
  | .arm .pto timer => { c with pto := timer }
  | .arm .loss timer => { c with loss := timer }
  | .arm .idle timer => { c with idle := timer }
  | .offer haveNewData => { c with haveNewData := haveNewData }
  | .keys keys => { c with gate := { c.gate with keys := keys } }
  | .progress complete confirmed =>
    { c with gate := { c.gate with handshakeComplete := complete, handshakeConfirmed := confirmed } }
  | .validate => { c with gate := c.gate.validate }
  | .ack ackLargest ackRanges => { c with gate := (c.gate.onAck ackLargest ackRanges).2 }
  | .step now => c.step now
  | .close peerClosed => c.close peerClosed

/-- The iteration before its send decision. -/
def beforeSend (c : Evloop) (now : ℕ) : Evloop := c.phaseReceive.phaseTimers now

/-- The states an iteration goes through: behind the receives, each timer and the send. -/
def phases (c : Evloop) (now : ℕ) : List Evloop :=
  if c.gate.phase = .closed then [c]
  else
    let received := c.phaseReceive
    let probed := received.runPto now
    let timedOut := probed.runLoss now
    [c, received, probed, timedOut, c.beforeSend now, (c.beforeSend now).phaseSend]

theorem step_of_ne_closed {c : Evloop} (h : c.gate.phase ≠ .closed) (now : ℕ) :
    c.step now = (c.beforeSend now).phaseSend := if_neg h

/-! ## What a call changes -/

variable {c : Evloop} {now : ℕ}

theorem onReceive_eq (c : Evloop) (ackEliciting : Bool) :
    ∃ rx, c.onReceive ackEliciting = { c with rx := rx } := by
  unfold onReceive
  split
  · exact ⟨_, rfl⟩
  · exact ⟨_, rfl⟩

/-- The receives move the gate's counter of received bytes and the owed ACK. -/
theorem phaseReceive_eq (c : Evloop) : ∃ recvBytes ackOwed, c.phaseReceive =
    { c with gate := { c.gate with recvBytes := recvBytes }, ackOwed := ackOwed, rx := [] } := by
  have hfold : ∀ (rx : List Bool) (c : Evloop), ∃ recvBytes ackOwed, rx.foldl drainOne c =
      { c with gate := { c.gate with recvBytes := recvBytes }, ackOwed := ackOwed } := by
    intro rx
    induction rx with
    | nil => exact fun c => ⟨_, _, rfl⟩
    | cons r rx ih =>
      intro c
      obtain ⟨n, -, hrecv⟩ := c.gate.onRecv_eq c.level c.sendLen
      obtain ⟨recvBytes, ackOwed, hrest⟩ := ih (c.drainOne r)
      refine ⟨recvBytes, ackOwed, hrest.trans ?_⟩
      rw [drainOne, hrecv]
  obtain ⟨recvBytes, ackOwed, hrx⟩ := hfold c.rx c
  exact ⟨recvBytes, ackOwed, by rw [phaseReceive, hrx]⟩

/-- The PTO is due and its probe leaves: nothing here asks for the phase. -/
def Probes (c : Evloop) (now : ℕ) : Prop :=
  timerFires c.pto now = true ∧ c.antiampOk = true ∧ c.gate.levelUsable c.level = true ∧
    c.gate.sent.count ≠ 0

/-- The gate behind a probe. -/
def probedGate (c : Evloop) : Connloop :=
  { c.gate with sent := (c.gate.sent.onSend c.nextPn 0 true c.sendLen).2
                sentBytes := u64 (c.gate.sentBytes + c.sendLen), ptoArmed := true }

theorem runPto_eq (c : Evloop) (now : ℕ) : ∃ pto,
    (¬ c.Probes now ∧ c.runPto now = { c with pto := pto }) ∨
    (c.Probes now ∧ c.runPto now =
      { c with pto := pto, gate := c.probedGate, nextPn := u64 (c.nextPn + 1) }) := by
  unfold runPto
  by_cases hfires : timerFires c.pto now = true
  · refine ⟨{ c.pto with armed := false }, ?_⟩
    have hok : antiampOk { c with pto := { c.pto with armed := false } } = c.antiampOk := rfl
    simp only [hfires, Bool.not_true, Bool.false_eq_true, if_false, ptoAct, hok, Connloop.onPto_eq]
    by_cases hamp : c.antiampOk = true
    · by_cases hpto : c.gate.levelUsable c.level = true ∧ c.gate.sent.count ≠ 0
      · refine .inr ⟨⟨hfires, hamp, hpto⟩, ?_⟩
        simp [hamp, hpto, probedGate]
      · refine .inl ⟨fun h => hpto ⟨h.2.2.1, h.2.2.2⟩, ?_⟩
        simp [hamp, hpto]
    · exact .inl ⟨fun h => hamp h.2.1, by simp [hamp]⟩
  · exact ⟨c.pto, .inl ⟨fun h => hfires h.1, by simp [hfires]⟩⟩

theorem runLoss_eq (c : Evloop) (now : ℕ) : ∃ loss rtx bytesInFlight, c.runLoss now =
    { c with loss := loss, rtx := rtx, bytesInFlight := bytesInFlight } := by
  unfold runLoss lossAct
  dsimp only
  split
  · exact ⟨_, _, _, rfl⟩
  · split
    · exact ⟨_, _, _, rfl⟩
    · split <;> exact ⟨_, _, _, rfl⟩

theorem runIdle_eq (c : Evloop) (now : ℕ) : ∃ idle phase,
    (phase = .active → c.gate.phase = .active) ∧
      c.runIdle now = { c with idle := idle, gate := { c.gate with phase := phase } } := by
  unfold runIdle idleAct Connloop.close
  dsimp only
  split
  · exact ⟨_, _, id, rfl⟩
  · rw [if_neg (by simp)]
    refine ⟨_, _, fun hnext => ?_, rfl⟩
    cases hphase : c.gate.phase <;> rw [hphase] at hnext <;> cases hnext

theorem phaseSend_of_ne_active (h : c.gate.phase ≠ .active) : c.phaseSend = c := by
  rw [phaseSend, sendPermitted, if_pos h]
  rfl

/-! ## After the close -/

/-- Outside the active phase no packet number is consumed, and no slot of the table that was not in
flight is. -/
def Quiet (before after : Evloop) : Prop :=
  before.gate.phase ≠ .active → after.nextPn = before.nextPn ∧
    ∀ i : Fin sentpktCap, (after.gate.sent.e.get i).inflight = true →
      (before.gate.sent.e.get i).inflight = true

/-- The same through a call: an iteration is looked at phase by phase. -/
def QuietStep (c : Evloop) : EvloopOp → Prop
  | .step now => (c.phases now).IsChain Quiet
  | o => Quiet c (c.apply o)

/-- The iteration runs in the closing or the draining phase with a probe due. -/
def ProbesClosing (c : Evloop) : EvloopOp → Prop
  | .step now => c.gate.phase ≠ .active ∧ c.gate.phase ≠ .closed ∧ c.phaseReceive.Probes now
  | _ => False

theorem Quiet.of_eq {before after : Evloop} (hpn : after.nextPn = before.nextPn)
    (hsent : after.gate.sent = before.gate.sent) : Quiet before after :=
  fun _ => ⟨hpn, fun i hi => by rwa [hsent] at hi⟩

theorem u64_succ_ne (n : ℕ) : u64 (n + 1) ≠ n := by
  unfold u64
  omega

/-- **An iteration is quiet** exactly when it does not probe while closing. -/
theorem quietStep_iff (c : Evloop) (o : EvloopOp) : c.QuietStep o ↔ ¬ c.ProbesClosing o := by
  cases o with
  | step now =>
    unfold QuietStep phases
    obtain ⟨recvBytes, ackOwed, hrecv⟩ := c.phaseReceive_eq
    by_cases hclosed : c.gate.phase = .closed
    · simp [hclosed, ProbesClosing]
    · have hphase : c.phaseReceive.gate.phase = c.gate.phase := by rw [hrecv]
      have hfirst : Quiet c c.phaseReceive := .of_eq (by rw [hrecv]) (by rw [hrecv])
      obtain ⟨loss, rtx, bytesInFlight, hloss⟩ := (c.phaseReceive.runPto now).runLoss_eq now
      obtain ⟨idle, phase, -, hidle⟩ := ((c.phaseReceive.runPto now).runLoss now).runIdle_eq now
      have hsend : Quiet (c.beforeSend now) (c.beforeSend now).phaseSend := by
        intro hactive
        rw [phaseSend_of_ne_active hactive]
        exact ⟨rfl, fun _ hi => hi⟩
      have hlossQuiet : Quiet (c.phaseReceive.runPto now) ((c.phaseReceive.runPto now).runLoss now) :=
        .of_eq (by rw [hloss]) (by rw [hloss])
      have hidleQuiet : Quiet ((c.phaseReceive.runPto now).runLoss now) (c.beforeSend now) :=
        .of_eq (by rw [beforeSend, phaseTimers, hidle]) (by rw [beforeSend, phaseTimers, hidle])
      simp only [hclosed, if_false, List.isChain_cons_cons, hfirst, hlossQuiet, hidleQuiet, hsend,
        List.isChain_singleton, and_true, true_and, ProbesClosing, ne_eq, not_false_eq_true]
      obtain ⟨pto, ⟨hno, hpto⟩ | ⟨hprobes, hpto⟩⟩ := c.phaseReceive.runPto_eq now
      · refine iff_of_true (.of_eq (by rw [hpto]) (by rw [hpto])) fun h => hno h.2
      · rw [hpto]
        simp only [Quiet, hphase, hprobes, and_true, not_not]
        refine ⟨fun h => ?_, fun h => absurd h⟩
        by_contra hne
        exact u64_succ_ne _ (h hne).1
  | ack ackLargest ackRanges =>
    refine iff_of_true (fun _ => ⟨rfl, fun i hi => ?_⟩) id
    obtain ⟨covered, hsent⟩ := c.gate.sent.ackProcess_eq_remove ackLargest ackRanges
    have hi' : ((c.gate.sent.ackProcess ackLargest ackRanges).2.e.get i).inflight = true := hi
    rw [hsent, Vector.get_eq_getElem, Sentpkt.inflight_remove _ _ i.isLt, Bool.and_eq_true] at hi'
    exact hi'.1
  | receive ackEliciting =>
    obtain ⟨rx, hrx⟩ := c.onReceive_eq ackEliciting
    refine iff_of_true (.of_eq ?_ ?_) id
    · rw [apply, hrx]
    · rw [apply, hrx]
  | arm id timer => cases id <;> exact iff_of_true (.of_eq rfl rfl) id
  | close peerClosed =>
    refine iff_of_true (.of_eq rfl ?_) id
    exact Connloop.close_sent _ _
  | offer | keys | progress | validate => exact iff_of_true (.of_eq rfl rfl) id

/-- **Nothing is sent after the close** of a run exactly when no probe is due in an iteration of the
closing or the draining phase. -/
theorem quiet_after_close_iff (memory : Connloop) (level : ℤ) (cwnd sendLen : ℕ)
    (ops : List EvloopOp) :
    (∀ c o, (c, o) ∈ steps apply (init memory level cwnd sendLen) ops → c.QuietStep o) ↔
      ∀ c o, (c, o) ∈ steps apply (init memory level cwnd sendLen) ops → ¬ c.ProbesClosing o := by
  simp only [quietStep_iff]

/-- A loop that sent one packet and was closed, with its PTO armed. -/
def closing : Evloop :=
  run apply (init Connio.blank.loop 0 1000 10)
    [.keys { Connio.blank.loop.keys with installed := Vector.replicate _ true }, .validate,
     .offer true, .step 0, .close false, .arm .pto ⟨true, 0⟩]

/-- It probes: a packet number is consumed. -/
theorem closing_probes :
    closing.gate.phase = .closing ∧ closing.nextPn = 1 ∧
      (closing.phaseReceive.runPto 0).nextPn = 2 ∧ ¬ closing.QuietStep (.step 0) := by
  have hphase : closing.gate.phase = .closing := by decide
  have hcount : closing.phaseReceive.gate.sent.count ≠ 0 :=
    Nat.pos_iff_ne_zero.1 (Sentpkt.count_onSend_pos (Connio.blank.loop.init true).sent 0 0 true 10)
  have hprobes : closing.phaseReceive.Probes 0 := ⟨by decide, by decide, by decide, hcount⟩
  refine ⟨hphase, by decide, ?_, ?_⟩
  · obtain ⟨pto, ⟨hno, -⟩ | ⟨-, hpto⟩⟩ := closing.phaseReceive.runPto_eq 0
    · exact absurd hprobes hno
    · rw [hpto]
      rfl
  · rw [quietStep_iff, not_not]
    exact ⟨by rw [hphase]; decide, by rw [hphase]; decide, hprobes⟩

end Evloop

end Conn

end QuicVibe
