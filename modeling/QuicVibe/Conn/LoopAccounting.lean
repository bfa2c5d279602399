import QuicVibe.Conn.EventLoop
import QuicVibe.Recovery.Lifecycle
/-!
# The accounting of the event loop

The loop keeps `bytes_in_flight` beside the table of its gate, and `evloop_emit` looks neither at
whether the gate admits a packet nor at whether the table has room for it. A ghost list beside the
loop holds the packets of the send path that were neither acknowledged nor declared lost; `Account.Ok`
lists the calls that keep the three in step.
-/

namespace QuicVibe

namespace Conn

open Packet Recovery Run

namespace Evloop

variable {c : Evloop} {now : ℕ}

/-- The send decision puts a packet out. -/
def Emits (c : Evloop) : Prop :=
  c.sendPermitted = true ∧ (c.ackOwed = true ∨ 0 < c.rtx.length ∨ c.haveNewData = true)

/-- The loss timer is due and its packet fits the queue. -/
def DeclaresLost (c : Evloop) (now : ℕ) : Bool :=
  timerFires c.loss now && decide (c.rtx.length < evloopQcap)

instance (c : Evloop) : Decidable c.Emits := inferInstanceAs (Decidable (_ ∧ _))

/-! ## What an iteration does to the counters -/

theorem sendPermitted_iff : c.sendPermitted = true ↔ c.gate.phase = .active ∧
    u64 (c.bytesInFlight + c.sendLen) ≤ c.cwnd ∧
    (c.gate.validated = true ∨ c.sendLen ≤ antiampBudget c.gate.recvBytes c.gate.sentBytes) := by
  unfold sendPermitted cwndctlCanSend antiampOk udploopSendAllowed antiampCanSend
  by_cases hphase : c.gate.phase = .active
  · by_cases hwindow : u64 (c.bytesInFlight + c.sendLen) ≤ c.cwnd
    · cases hval : c.gate.validated <;> simp [hphase, hwindow]
    · simp [hphase, hwindow]
  · simp [hphase]

theorem phaseSend_of_not_emits (h : ¬ c.Emits) : c.phaseSend = c := by
  unfold phaseSend sendData
  by_cases hperm : c.sendPermitted = true
  · have hnone : ¬ (c.ackOwed = true ∨ 0 < c.rtx.length ∨ c.haveNewData = true) :=
      fun hsome => h ⟨hperm, hsome⟩
    simp only [not_or] at hnone
    simp [hnone.1, hnone.2.1, hnone.2.2]
  · simp [hperm]

theorem phaseSend_of_emits (h : c.Emits) : ∃ rtx ackOwed,
    c.phaseSend = { c.evloopEmit with rtx := rtx, ackOwed := ackOwed } := by
  obtain ⟨hperm, hsome⟩ := h
  unfold phaseSend sendData
  rw [hperm]
  by_cases howed : c.ackOwed = true
  · simp only [Bool.not_true, Bool.false_eq_true, if_false, howed, if_true]
    exact ⟨_, _, rfl⟩
  · by_cases hrtx : 0 < c.rtx.length
    · simp only [Bool.not_true, Bool.false_eq_true, if_false, howed, hrtx, if_true]
      exact ⟨_, _, rfl⟩
    · have hnew : c.haveNewData = true := (hsome.resolve_left howed).resolve_left hrtx
      simp only [Bool.not_true, Bool.false_eq_true, if_false, howed, hrtx, hnew, if_true]
      exact ⟨_, _, rfl⟩

theorem runLoss_bytes (c : Evloop) (now : ℕ) : (c.runLoss now).bytesInFlight =
    if c.DeclaresLost now = true ∧ c.sendLen ≤ c.bytesInFlight then c.bytesInFlight - c.sendLen
    else c.bytesInFlight := by
  unfold runLoss lossAct DeclaresLost
  by_cases hfires : timerFires c.loss now = true
  · by_cases hfull : evloopQcap ≤ c.rtx.length
    · simp [hfires, hfull]
    · by_cases hbytes : c.sendLen ≤ c.bytesInFlight <;> simp [hfires, hfull, hbytes]
  · simp [hfires]

/-- What no part of an iteration before the send changes. -/
structure Kept (before after : Evloop) : Prop where
  level : after.level = before.level
  sendLen : after.sendLen = before.sendLen
  keys : after.gate.keys = before.gate.keys
  sendLevel : after.gate.sendLevel = before.gate.sendLevel
  phase : after.gate.phase = .active → before.gate.phase = .active

theorem Kept.trans {a b c : Evloop} (h₁ : Kept a b) (h₂ : Kept b c) : Kept a c where
  level := h₂.level.trans h₁.level
  sendLen := h₂.sendLen.trans h₁.sendLen
  keys := h₂.keys.trans h₁.keys
  sendLevel := h₂.sendLevel.trans h₁.sendLevel
  phase h := h₁.phase (h₂.phase h)

/-- Up to the loss timer the bytes, the queue and the timer itself stay as well. -/
theorem kept_runPto (c : Evloop) (now : ℕ) : Kept c (c.phaseReceive.runPto now) ∧
    (c.phaseReceive.runPto now).loss = c.loss ∧ (c.phaseReceive.runPto now).rtx = c.rtx ∧
    (c.phaseReceive.runPto now).bytesInFlight = c.bytesInFlight := by
  obtain ⟨recvBytes, ackOwed, hrecv⟩ := c.phaseReceive_eq
  have hfirst : Kept c c.phaseReceive := by
    rw [hrecv]
    exact ⟨rfl, rfl, rfl, rfl, id⟩
  obtain ⟨pto, ⟨-, hpto⟩ | ⟨-, hpto⟩⟩ := c.phaseReceive.runPto_eq now
  · rw [hpto]
    refine ⟨hfirst.trans ⟨rfl, rfl, rfl, rfl, id⟩, ?_⟩
    rw [hrecv]
    exact ⟨rfl, rfl, rfl⟩
  · rw [hpto]
    refine ⟨hfirst.trans ⟨rfl, rfl, rfl, rfl, id⟩, ?_⟩
    rw [hrecv]
    exact ⟨rfl, rfl, rfl⟩

theorem kept_beforeSend (c : Evloop) (now : ℕ) : Kept c (c.beforeSend now) := by
  obtain ⟨loss, rtx, bytesInFlight, hloss⟩ := (c.phaseReceive.runPto now).runLoss_eq now
  obtain ⟨idle, phase, hactive, hidle⟩ := ((c.phaseReceive.runPto now).runLoss now).runIdle_eq now
  have hlast : Kept (c.phaseReceive.runPto now) (c.beforeSend now) := by
    rw [beforeSend, phaseTimers, hidle, hloss]
    refine ⟨rfl, rfl, rfl, rfl, fun h => ?_⟩
    have hbefore := hactive h
    rwa [hloss] at hbefore
  exact (c.kept_runPto now).1.trans hlast

theorem beforeSend_bytes (c : Evloop) (now : ℕ) : (c.beforeSend now).bytesInFlight =
    if c.DeclaresLost now = true ∧ c.sendLen ≤ c.bytesInFlight then c.bytesInFlight - c.sendLen
    else c.bytesInFlight := by
  obtain ⟨hkept, hloss, hrtx, hbytes⟩ := c.kept_runPto now
  obtain ⟨idle, phase, -, hidle⟩ := ((c.phaseReceive.runPto now).runLoss now).runIdle_eq now
  have hlost : (c.phaseReceive.runPto now).DeclaresLost now = c.DeclaresLost now := by
    rw [DeclaresLost, hloss, hrtx, DeclaresLost]
  rw [beforeSend, phaseTimers, hidle]
  dsimp only
  rw [runLoss_bytes, hlost, hkept.sendLen, hbytes]

/-! ## The gate of the loop -/

/-- The loop runs at this level, the level has keys, and the gate has not risen past Initial. -/
structure AtLevel (c : Evloop) (level : ℤ) : Prop where
  level_eq : c.level = level
  usable : c.gate.levelUsable level = true
  sendLevel : c.gate.sendLevel = -1 ∨ level = 0 ∧ c.gate.sendLevel = 0

variable {level : ℤ}

theorem AtLevel.of_kept {before after : Evloop} (h : before.AtLevel level)
    (hkept : Kept before after) : after.AtLevel level where
  level_eq := hkept.level.trans h.level_eq
  usable := by
    rw [Connloop.levelUsable, hkept.keys]
    exact h.usable
  sendLevel := by
    rw [hkept.sendLevel]
    exact h.sendLevel

/-- **The gate admits what the send path puts out** exactly at the Initial level: phase, keys and
budget were checked before, and a fresh gate rises to no other level. -/
theorem AtLevel.sendOk_iff (h : c.AtLevel level) (hemits : c.Emits) :
    c.gate.sendOk level c.sendLen = true ↔ level = 0 := by
  obtain ⟨hphase, -, hbudget⟩ := sendPermitted_iff.1 hemits.1
  have hnonneg := Connloop.nonneg_of_levelUsable h.usable
  have hhandshake : (0 : ℤ) ≤ keySendLevel c.gate.handshakeComplete c.gate.handshakeConfirmed := by
    unfold keySendLevel
    split <;> decide
  rw [Connloop.sendOk_iff, and_iff_left ⟨hphase, h.usable, hbudget⟩]
  rcases h.sendLevel with hlevel | ⟨hlevel, hsend⟩
  · rw [hlevel]
    constructor
    · rintro (hbad | ⟨hzero, -⟩)
      · omega
      · exact hzero
    · intro hzero
      exact .inr ⟨hzero, hzero ▸ hhandshake⟩
  · exact iff_of_true (.inl (hlevel.trans hsend.symm)) hlevel

theorem phaseSend_gate (hemits : c.Emits) :
    c.phaseSend.gate = (c.gate.onSend c.level true c.nextPn c.sendLen).2 ∧
      c.phaseSend.level = c.level ∧ c.phaseSend.sendLen = c.sendLen ∧
      c.phaseSend.bytesInFlight = u64 (c.bytesInFlight + c.sendLen) := by
  obtain ⟨rtx, ackOwed, hsend⟩ := phaseSend_of_emits hemits
  rw [hsend]
  exact ⟨rfl, rfl, rfl, rfl⟩

theorem AtLevel.phaseSend (h : c.AtLevel level) : c.phaseSend.AtLevel level := by
  by_cases hemits : c.Emits
  · obtain ⟨hgate, hlevel, -, -⟩ := phaseSend_gate hemits
    rw [h.level_eq] at hgate
    have hadm : (c.gate.onSend level true c.nextPn c.sendLen).2.keys = c.gate.keys ∧
        ((c.gate.onSend level true c.nextPn c.sendLen).2.sendLevel = -1 ∨
          level = 0 ∧ (c.gate.onSend level true c.nextPn c.sendLen).2.sendLevel = 0) := by
      rcases c.gate.onSend_cases level c.nextPn c.sendLen with ⟨-, hsend⟩ | ⟨hok, hsend⟩
      · rw [hsend]
        exact ⟨rfl, h.sendLevel⟩
      · have hzero := (h.sendOk_iff hemits).1 hok
        rw [hsend]
        exact ⟨rfl, .inr ⟨hzero, hzero⟩⟩
    refine ⟨hlevel.trans h.level_eq, ?_, ?_⟩
    · rw [Connloop.levelUsable, hgate, hadm.1]
      exact h.usable
    · rw [hgate]
      exact hadm.2
  · rwa [phaseSend_of_not_emits hemits]

/-- It is admitted and tracked exactly at the Initial level with a free slot. -/
theorem AtLevel.txTracked_iff (h : c.AtLevel level) (hemits : c.Emits) :
    (c.gate.onSend c.level true c.nextPn c.sendLen).1 = true ∧
        c.phaseSend.gate.sent.tracked.Perm (c.nextPn :: c.gate.sent.tracked) ↔
      level = 0 ∧ c.gate.sent.freeSlot < sentpktCap := by
  have hle := c.gate.sent.freeSlot_le
  rw [← h.sendOk_iff hemits, (phaseSend_gate hemits).1, h.level_eq]
  rcases c.gate.onSend_cases level c.nextPn c.sendLen with ⟨hok, hsend⟩ | ⟨hok, hsend⟩
  · simp [hsend, hok]
  · rw [hsend, hok]
    simp only [true_and, Connloop.ptoSync]
    constructor
    · intro hperm
      refine Nat.lt_of_le_of_ne hle fun hfull => ?_
      rw [Sentpkt.onSend, if_pos hfull] at hperm
      exact absurd hperm.length_eq (by simp)
    · intro hlt
      rcases c.gate.sent.onSend_cases c.nextPn 0 true c.sendLen with hfull | ⟨-, hperm⟩
      · rw [Sentpkt.onSend, if_neg (by omega)] at hfull
        exact absurd (congrArg Prod.fst hfull) (by simp)
      · exact hperm

theorem AtLevel.apply (h : c.AtLevel level) {o : EvloopOp}
    (hkeys : ∀ keys, o = .keys keys → (keys.forLevel level).isSome) :
    (c.apply o).AtLevel level := by
  cases o with
  | step now =>
    rw [Evloop.apply]
    by_cases hphase : c.gate.phase = .closed
    · rwa [Evloop.step, if_pos hphase]
    · rw [step_of_ne_closed hphase]
      exact (h.of_kept (c.kept_beforeSend now)).phaseSend
  | receive ackEliciting =>
    obtain ⟨rx, hrx⟩ := c.onReceive_eq ackEliciting
    rw [Evloop.apply, hrx]
    exact ⟨h.level_eq, h.usable, h.sendLevel⟩
  | close peerClosed =>
    rw [Evloop.apply, Evloop.close, Connloop.close]
    split <;> exact ⟨h.level_eq, h.usable, h.sendLevel⟩
  | arm id timer => cases id <;> exact ⟨h.level_eq, h.usable, h.sendLevel⟩
  | keys keys => exact ⟨h.level_eq, hkeys keys rfl, h.sendLevel⟩
  | ack | offer | progress | validate => exact ⟨h.level_eq, h.usable, h.sendLevel⟩

end Evloop

/-! ## The packets of the send path -/

/-- A loop with the packets of its send path, oldest first, that were neither acknowledged nor
declared lost. -/
structure Account where
  loop : Evloop
  flying : List ℕ

namespace Account

/-- A fresh loop with keys. -/
def start (memory : Connloop) (keys : Keyset) (level : ℤ) (cwnd sendLen : ℕ) : Account :=
  { loop := (Evloop.init memory level cwnd sendLen).apply (.keys keys), flying := [] }

/-- The packets behind a call: the loss timer gives up the oldest, a send adds its own, and an ACK
the gate processes takes out what it names. -/
def flyingAfter (a : Account) : EvloopOp → List ℕ
  | .step now =>
    if a.loop.gate.phase = .closed then a.flying
    else
      let kept := if a.loop.DeclaresLost now then a.flying.tail else a.flying
      if (a.loop.beforeSend now).Emits then kept ++ [(a.loop.beforeSend now).nextPn] else kept
  | .ack ackLargest ackRanges =>
    a.flying.filter fun pn => decide (pn ∉ (a.loop.gate.sent.ackProcess ackLargest ackRanges).1)
  | _ => a.flying

def step (a : Account) (o : EvloopOp) : Account :=
  { loop := a.loop.apply o, flying := a.flyingAfter o }

/-- The loop's counter is the bytes of the packets that fly. -/
def Accounted (a : Account) : Prop := a.loop.bytesInFlight = a.loop.sendLen * a.flying.length

/-- A packet that the send path puts out was admitted, and the table takes it up. -/
def Tracked (a : Account) : EvloopOp → Prop
  | .step now => (a.loop.beforeSend now).Emits →
    let b := a.loop.beforeSend now
    (b.gate.onSend b.level true b.nextPn b.sendLen).1 = true ∧
      b.phaseSend.gate.sent.tracked.Perm (b.nextPn :: b.gate.sent.tracked)
  | _ => True

/-- A packet is put out at the Initial level only, with a free slot and without wrapping the counter,
and no ACK names a packet that flies unless packets are empty. -/
def Ok (a : Account) : EvloopOp → Prop
  | .step now => (a.loop.beforeSend now).Emits → a.loop.level = levelInitial.val ∧
    (a.loop.beforeSend now).gate.sent.freeSlot < sentpktCap ∧
    (a.loop.beforeSend now).bytesInFlight + a.loop.sendLen < 2 ^ 64
  | .ack ackLargest ackRanges => a.loop.sendLen = 0 ∨
    ∀ pn ∈ a.flying, pn ∉ (a.loop.gate.sent.ackProcess ackLargest ackRanges).1
  | _ => True

variable {a : Account} {level : ℤ}

theorem Accounted.beforeSend (h : a.Accounted) (now : ℕ) :
    (a.loop.beforeSend now).bytesInFlight = a.loop.sendLen *
      (if a.loop.DeclaresLost now then a.flying.tail else a.flying).length := by
  unfold Accounted at h
  rw [Evloop.beforeSend_bytes, h]
  by_cases hlost : a.loop.DeclaresLost now = true
  · simp only [hlost, true_and, if_true, List.length_tail]
    cases a.flying.length with
    | zero => simp
    | succ n =>
      rw [if_pos (Nat.le_mul_of_pos_right _ (Nat.succ_pos n)), Nat.mul_succ, Nat.add_sub_cancel]
      rfl
  · simp [hlost]

/-- An iteration keeps the account and tracks its packet exactly when it is `Ok`. -/
theorem Accounted.step_iff (hacc : a.Accounted) (h : a.loop.AtLevel level) (now : ℕ) :
    (a.step (.step now)).Accounted ∧ a.Tracked (.step now) ↔ a.Ok (.step now) := by
  have hbefore := hacc.beforeSend now
  have hkept := a.loop.kept_beforeSend now
  by_cases hemits : (a.loop.beforeSend now).Emits
  · have hphase : a.loop.gate.phase ≠ .closed := by
      have hactive := hkept.phase (Evloop.sendPermitted_iff.1 hemits.1).1
      rw [hactive]
      decide
    obtain ⟨-, -, hlen, hbytes⟩ := Evloop.phaseSend_gate hemits
    have hstep : (a.step (.step now)).Accounted ↔
        (a.loop.beforeSend now).bytesInFlight + a.loop.sendLen < 2 ^ 64 := by
      simp only [Accounted, step, Evloop.apply, Evloop.step_of_ne_closed hphase, flyingAfter, hphase,
        hemits, if_false, if_true]
      rw [hlen, hbytes, hkept.sendLen, List.length_append, List.length_singleton, Nat.mul_add,
        Nat.mul_one, ← hbefore, u64]
      constructor
      · intro hmod
        exact hmod ▸ Nat.mod_lt _ (Nat.two_pow_pos 64)
      · exact Nat.mod_eq_of_lt
    simp only [Tracked, Ok, hemits, forall_const, hstep, (h.of_kept hkept).txTracked_iff hemits, h.level_eq]
    constructor
    · rintro ⟨hlt, hlevel, hfree⟩
      exact ⟨hlevel, hfree, hlt⟩
    · rintro ⟨hlevel, hfree, hlt⟩
      exact ⟨hlt, hlevel, hfree⟩
  · refine iff_of_true ⟨?_, fun h => absurd h hemits⟩ fun h => absurd h hemits
    by_cases hphase : a.loop.gate.phase = .closed
    · simp only [Accounted, step, Evloop.apply, Evloop.step, flyingAfter, hphase, if_true]
      exact hacc
    · simp only [Accounted, step, Evloop.apply, Evloop.step_of_ne_closed hphase, flyingAfter, hphase,
        hemits, if_false, Evloop.phaseSend_of_not_emits hemits, hkept.sendLen]
      exact hbefore

theorem Accounted.ack_iff (hacc : a.Accounted) (ackLargest : ℕ) (ackRanges : List ℕ) :
    (a.step (.ack ackLargest ackRanges)).Accounted ↔ a.Ok (.ack ackLargest ackRanges) := by
  unfold Accounted at hacc
  simp only [Accounted, step, Evloop.apply, flyingAfter, Ok]
  generalize (a.loop.gate.sent.ackProcess ackLargest ackRanges).1 = acked
  have hkeep : (a.flying.filter fun pn => decide (pn ∉ acked)).length = a.flying.length ↔
      ∀ pn ∈ a.flying, pn ∉ acked := by
    simp only [List.length_filter_eq_length_iff, decide_eq_true_iff]
  rw [hacc]
  by_cases hlen : a.loop.sendLen = 0
  · simp [hlen]
  · rw [Nat.mul_right_inj hlen, eq_comm, hkeep, or_iff_right hlen]

/-- **One call**: given that the account is right, it stays right and the packet of the call is
tracked exactly when the call is `Ok`. -/
theorem Accounted.keeps_iff (hacc : a.Accounted) (h : a.loop.AtLevel level) (o : EvloopOp) :
    (a.step o).Accounted ∧ a.Tracked o ↔ a.Ok o := by
  cases o with
  | step now => exact hacc.step_iff h now
  | ack ackLargest ackRanges =>
    rw [hacc.ack_iff]
    exact and_iff_left trivial
  | receive ackEliciting =>
    obtain ⟨rx, hrx⟩ := a.loop.onReceive_eq ackEliciting
    refine iff_of_true ⟨?_, trivial⟩ trivial
    simp only [Accounted, Account.step, Evloop.apply, hrx]
    exact hacc
  | arm id timer => cases id <;> exact iff_of_true ⟨hacc, trivial⟩ trivial
  | offer | keys | progress | validate | close => exact iff_of_true ⟨hacc, trivial⟩ trivial

/-- **The accounting of a run** at a level with keys: every packet of the send path is admitted and
tracked and the counter is right throughout exactly when all calls are `Ok`. -/
theorem accounting_iff (memory : Connloop) (keys : Keyset) (level : ℤ) (cwnd sendLen : ℕ)
    (ops : List EvloopOp) (husable : (keys.forLevel level).isSome)
    (hkeys : ∀ keys, .keys keys ∈ ops → (keys.forLevel level).isSome) :
    ((∀ past, past <+: ops → (run step (start memory keys level cwnd sendLen) past).Accounted) ∧
        ∀ e ∈ steps step (start memory keys level cwnd sendLen) ops, e.1.Tracked e.2) ↔
      ∀ e ∈ steps step (start memory keys level cwnd sendLen) ops, e.1.Ok e.2 := by
  refine run_keeps_iff (P := fun a => a.loop.AtLevel level) ⟨rfl, husable, .inl rfl⟩
    (Nat.mul_zero _).symm ?_ fun a o _ h hacc => hacc.keeps_iff h o
  intro a o hmem h
  obtain ⟨past, hpre, -⟩ := mem_steps_iff.1 hmem
  refine h.apply ?_
  rintro keys rfl
  exact hkeys keys (hpre.subset (by simp))

end Account

/-! ## Packets that are counted and not tracked -/

namespace Evloop

variable {c : Evloop} {n : ℕ}

/-- The loop has nothing to do but send new data, and has counted so many packets. -/
structure Sending (c : Evloop) (n : ℕ) : Prop where
  phase : c.gate.phase = .active
  validated : c.gate.validated = true
  data : c.haveNewData = true
  rx : c.rx = []
  pto : c.pto.armed = false
  loss : c.loss.armed = false
  idle : c.idle.armed = false
  bytes : c.bytesInFlight = c.sendLen * n

theorem Sending.beforeSend_eq (h : c.Sending n) (now : ℕ) : c.beforeSend now = c := by
  obtain ⟨-, -, -, hrx, hpto, hloss, hidle, -⟩ := h
  have hreceive : c.phaseReceive = c := by
    rw [phaseReceive, hrx, List.foldl_nil, ← hrx]
  rw [beforeSend, hreceive, phaseTimers]
  simp [runPto, runLoss, runIdle, timerFires, hpto, hloss, hidle]

variable (hroom : c.sendLen * (n + 1) ≤ c.cwnd) (hcwnd : c.cwnd < 2 ^ 64)
include hroom hcwnd

theorem Sending.emits (h : c.Sending n) : c.Emits := by
  refine ⟨sendPermitted_iff.2 ⟨h.phase, ?_, .inl h.validated⟩, .inr (.inr h.data)⟩
  rw [h.bytes, u64, ← Nat.mul_succ, Nat.mod_eq_of_lt (Nat.lt_of_le_of_lt hroom hcwnd)]
  exact hroom

theorem Sending.step (h : c.Sending n) (now : ℕ) : (c.step now).Sending (n + 1) ∧
    (c.step now).sendLen = c.sendLen ∧ (c.step now).cwnd = c.cwnd := by
  have hemits := h.emits hroom hcwnd
  have hopen : c.gate.phase ≠ .closed := by
    rw [h.phase]
    decide
  obtain ⟨rtx, ackOwed, hsend⟩ := phaseSend_of_emits hemits
  have hgate : (c.gate.onSend c.level true c.nextPn c.sendLen).2.phase = c.gate.phase ∧
      (c.gate.onSend c.level true c.nextPn c.sendLen).2.validated = c.gate.validated := by
    rcases c.gate.onSend_eq c.level true c.nextPn c.sendLen with ⟨-, hno⟩ | ⟨-, sent, armed, hyes⟩
    · rw [hno]
      exact ⟨rfl, rfl⟩
    · rw [hyes]
      exact ⟨rfl, rfl⟩
  rw [step_of_ne_closed hopen, h.beforeSend_eq, hsend]
  refine ⟨⟨hgate.1.trans h.phase, hgate.2.trans h.validated, h.data, h.rx, h.pto, h.loss, h.idle, ?_⟩,
    rfl, rfl⟩
  change u64 (c.bytesInFlight + c.sendLen) = c.sendLen * (n + 1)
  rw [h.bytes, u64, ← Nat.mul_succ]
  exact Nat.mod_eq_of_lt (Nat.lt_of_le_of_lt hroom hcwnd)

end Evloop

namespace Account

/-- Every tracked packet of a loop that only sends is one more in the table. -/
theorem length_tracked_run {now : ℕ} (n k : ℕ) (a : Account) (h : a.loop.Sending k)
    (hroom : a.loop.sendLen * (k + n) ≤ a.loop.cwnd) (hcwnd : a.loop.cwnd < 2 ^ 64)
    (htracked : ∀ e ∈ steps step a (List.replicate n (.step now)), e.1.Tracked e.2) :
    (run step a (List.replicate n (.step now))).loop.gate.sent.tracked.length =
      a.loop.gate.sent.tracked.length + n := by
  induction n generalizing k a with
  | zero => rfl
  | succ n ih =>
    have hone : a.loop.sendLen * (k + 1) ≤ a.loop.cwnd :=
      Nat.le_trans (Nat.mul_le_mul_left _ (by omega)) hroom
    obtain ⟨hnext, hlen, hwin⟩ := h.step hone hcwnd now
    rw [List.replicate_succ, steps_cons, List.forall_mem_cons] at htracked
    obtain ⟨hfirst, hrest⟩ := htracked
    have hperm := (hfirst (by rw [h.beforeSend_eq]; exact h.emits hone hcwnd)).2
    rw [h.beforeSend_eq] at hperm
    have hloop : (a.step (.step now)).loop = a.loop.step now := rfl
    have hsend : a.loop.step now = a.loop.phaseSend := by
      rw [Evloop.step_of_ne_closed (by rw [h.phase]; decide), h.beforeSend_eq]
    have htail := ih (k + 1) (a.step (.step now)) hnext
      (by rw [hloop, hlen, hwin, Nat.add_right_comm]; exact hroom) (by rwa [hloop, hwin]) hrest
    rw [List.replicate_succ, run_cons, htail, hloop, hsend, hperm.length_eq, List.length_cons]
    omega

/-- **The table bounds what is tracked**: a loop that only sends, with every packet tracked, has sent
no more than the table holds. -/
theorem tracked_le_cap {a : Account} {k n now : ℕ} (h : a.loop.Sending k)
    (hroom : a.loop.sendLen * (k + n) ≤ a.loop.cwnd) (hcwnd : a.loop.cwnd < 2 ^ 64)
    (htracked : ∀ e ∈ steps step a (List.replicate n (.step now)), e.1.Tracked e.2) :
    n ≤ sentpktCap := by
  have hlen := length_tracked_run n k a h hroom hcwnd htracked
  have hle := List.countP_le_length (p := fun p : SentpktEntry => p.used)
    (l := (run step a (List.replicate n (.step now))).loop.gate.sent.e.toList)
  rw [Sentpkt.length_tracked, Sentpkt.count] at hlen
  rw [hlen, Vector.length_toList] at hle
  omega

/-- Keys at every level. -/
def allKeys : Keyset := { Connio.blank.loop.keys with installed := Vector.replicate _ true }

/-- A loop with keys, a validated path and new data. -/
def ready (level : ℤ) : Account :=
  run step (start Connio.blank.loop allKeys level (2 ^ 20) 10) [.validate, .offer true]

theorem ready_sending (level : ℤ) : (ready level).loop.Sending 0 :=
  ⟨rfl, rfl, rfl, rfl, rfl, rfl, rfl, rfl⟩

/-- The first packet at the Initial level is counted and tracked. -/
theorem accounting_iff_initial :
    ((ready 0).step (.step 0)).Accounted ∧ (ready 0).Tracked (.step 0) := by
  have hsending := ready_sending 0
  have hok : (ready 0).Ok (.step 0) := by
    intro _
    rw [hsending.beforeSend_eq]
    have hfree : (ready 0).loop.gate.sent.freeSlot = 0 := Connio.blank.loop.sent.freeSlot_init
    rw [hfree]
    exact ⟨rfl, by decide, by decide⟩
  obtain ⟨hacc, htracked⟩ := (accounting_iff Connio.blank.loop allKeys 0 (2 ^ 20) 10
    [.validate, .offer true, .step 0] (by decide) (by simp)).2 (by
      simp only [steps_cons, steps_nil, List.forall_mem_cons]
      exact ⟨trivial, trivial, hok, fun _ h => absurd h List.not_mem_nil⟩)
  refine ⟨hacc _ List.prefix_rfl, ?_⟩
  simp only [steps_cons, steps_nil, List.forall_mem_cons] at htracked
  exact htracked.2.2.1

/-- At 1-RTT with keys the first packet number is consumed for a packet that the gate refuses. At
the Initial level, of 257 packets sent one after the other at least one is not tracked. -/
theorem packets_untracked :
    ((ready 2).loop.gate.levelUsable 2 = true ∧ ((ready 2).loop.beforeSend 0).Emits ∧
        ((ready 2).step (.step 0)).loop.nextPn = 1 ∧ ¬ (ready 2).Tracked (.step 0)) ∧
      (ready 0).loop.gate.levelUsable 0 = true ∧
        ¬ ∀ e ∈ steps step (ready 0) (List.replicate 257 (.step 0)), e.1.Tracked e.2 := by
  have hsending := ready_sending 2
  have hemits : ((ready 2).loop.beforeSend 0).Emits := by
    rw [hsending.beforeSend_eq]
    exact hsending.emits (by decide) (by decide)
  have hlevel : ((ready 2).loop.beforeSend 0).AtLevel 2 := by
    rw [hsending.beforeSend_eq]
    exact ⟨rfl, by decide, .inl rfl⟩
  refine ⟨⟨by decide, hemits, by decide, fun h => ?_⟩, by decide, fun h => ?_⟩
  · exact absurd ((hlevel.txTracked_iff hemits).1 (h hemits)).1 (by decide)
  · exact absurd (tracked_le_cap (ready_sending 0) (by decide) (by decide) h) (by decide)

end Account

end Conn

end QuicVibe
