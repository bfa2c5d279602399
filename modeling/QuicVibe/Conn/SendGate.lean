import QuicVibe.Conn.Io
import QuicVibe.Common.Run
/-!
# The send gate over whole runs

The five gates of `connloop.c` that guard a send (level, handshake, keys, phase, budget) through every
interleaving of the calls on one gate. Ghost counters beside the gate keep the bytes it was told of,
and whether the handshake was ever complete.
-/

namespace QuicVibe

namespace Conn

open Packet Recovery Run

/-- The lifecycle phases in the order of their codes. -/
def Phase.rank : Phase → ℕ
  | .active => 0
  | .closing => 1
  | .draining => 2
  | .closed => 3

/-- A call on the gate, or a change its owner makes between two calls: another key set, or the
progress of the handshake. -/
inductive GateOp
  | keys (keys : Keyset)
  | progress (complete confirmed : Bool)
  | recv (level : ℤ) (len : ℕ)
  | send (level : ℤ) (ackEliciting : Bool) (pn len : ℕ)
  | ack (ackLargest : ℕ) (ackRanges : List ℕ)
  | validate
  | close (peerClosed : Bool)

namespace Connloop

variable {c : Connloop} {level : ℤ} {len : ℕ}

/-- The gate after a call. -/
def step (c : Connloop) : GateOp → Connloop
  | .keys keys => { c with keys := keys }
  | .progress complete confirmed =>
    { c with handshakeComplete := complete, handshakeConfirmed := confirmed }
  | .recv level len => (c.onRecv level len).2
  | .send level ackEliciting pn len => (c.onSend level ackEliciting pn len).2
  | .ack ackLargest ackRanges => (c.onAck ackLargest ackRanges).2
  | .validate => c.validate
  | .close peerClosed => c.close peerClosed

/-- The handshake is complete; confirmation implies completion. -/
def handshakeDone (c : Connloop) : Bool := c.handshakeComplete || c.handshakeConfirmed

/-! ## What a call can do -/

theorem le_budget {received sent len : ℕ} (h : len ≤ antiampBudget received sent) :
    len = 0 ∨ sent + len ≤ 3 * received ∧ sent + len < 2 ^ 64 := by
  unfold antiampBudget at h
  have hcap : u64 (3 * received) ≤ 3 * received ∧ u64 (3 * received) < 2 ^ 64 :=
    ⟨Nat.mod_le _ _, Nat.mod_lt _ (by omega)⟩
  dsimp only at h
  split at h <;> omega

theorem close_eq (c : Connloop) (peerClosed : Bool) : ∃ phase : Phase,
    c.phase.rank ≤ phase.rank ∧ c.close peerClosed = { c with phase := phase } := by
  unfold close
  split
  · rename_i hactive
    exact ⟨.draining, by rw [hactive.1]; exact Nat.zero_le _, rfl⟩
  · refine ⟨next c.phase, ?_, rfl⟩
    cases c.phase <;> decide

theorem step_sendLevel (c : Connloop) (o : GateOp) :
    (c.step o).sendLevel = c.sendLevel ∨ (c.step o).sendLevel = c.sendLevel + 1 := by
  cases o with
  | send level ackEliciting pn len =>
    rw [step]
    rcases c.onSend_eq level ackEliciting pn len with ⟨-, hsend⟩ | ⟨hok, sent, armed, hsend⟩
    · rw [hsend]
      exact .inl rfl
    · rw [hsend]
      obtain ⟨hlevel | ⟨hlevel, -⟩, -⟩ := sendOk_iff.1 hok
      · exact .inl hlevel
      · exact .inr hlevel
  | recv level len =>
    obtain ⟨n, -, hrecv⟩ := c.onRecv_eq level len
    rw [step, hrecv]
    exact .inl rfl
  | close peerClosed =>
    obtain ⟨phase, -, hclose⟩ := c.close_eq peerClosed
    rw [step, hclose]
    exact .inl rfl
  | keys | progress | ack | validate => exact .inl rfl

theorem step_phase (c : Connloop) (o : GateOp) : c.phase.rank ≤ (c.step o).phase.rank := by
  cases o with
  | send level ackEliciting pn len =>
    rw [step]
    rcases c.onSend_eq level ackEliciting pn len with ⟨-, hsend⟩ | ⟨-, sent, armed, hsend⟩
    · rw [hsend]
    · rw [hsend]
  | recv level len =>
    obtain ⟨n, -, hrecv⟩ := c.onRecv_eq level len
    rw [step, hrecv]
  | close peerClosed =>
    obtain ⟨phase, hle, hclose⟩ := c.close_eq peerClosed
    rw [step, hclose]
    exact hle
  | keys | progress | ack | validate => exact Nat.le_refl _

end Connloop

/-! ## Runs -/

/-- A gate in the middle of a run, with what happened to it so far. -/
structure GateRun where
  loop : Connloop
  /-- Bytes of the datagrams it was told of. -/
  received : ℕ
  /-- Bytes of the sends it admitted. -/
  admitted : ℕ
  /-- The handshake was complete at some point. -/
  completed : Bool

namespace GateRun

/-- A fresh gate. -/
def start (memory : Connloop) (isServer : Bool) : GateRun :=
  { loop := memory.init isServer, received := 0, admitted := 0, completed := false }

/-- Bytes of the datagram a call tells of. -/
def receivedBy : GateOp → ℕ
  | .recv _ len => len
  | _ => 0

/-- Bytes of the send a call admits. -/
def admittedBy (g : GateRun) : GateOp → ℕ
  | .send level ackEliciting pn len =>
    if (g.loop.onSend level ackEliciting pn len).1 then len else 0
  | _ => 0

def step (g : GateRun) (o : GateOp) : GateRun where
  loop := g.loop.step o
  received := g.received + receivedBy o
  admitted := g.admitted + g.admittedBy o
  completed := g.completed || (g.loop.step o).handshakeDone

/-- The gate's counters against the bytes of the run, and its level against the handshake. -/
structure Inv (g : GateRun) : Prop where
  /-- The received bytes wrap at the word size, so the counter may be behind. -/
  received : g.loop.recvBytes ≤ g.received
  sent : g.loop.validated = false → g.loop.sentBytes = g.admitted ∧ g.admitted < 2 ^ 64
  budget : g.loop.validated = false → g.admitted ≤ 3 * g.received
  done : g.loop.handshakeDone = true → g.completed = true
  level : 2 ≤ g.loop.sendLevel → g.completed = true

theorem start_inv (memory : Connloop) (isServer : Bool) : (start memory isServer).Inv where
  received := Nat.le_refl _
  sent _ := ⟨rfl, Nat.two_pow_pos 64⟩
  budget _ := Nat.le_refl _
  done h := h
  level h := absurd (show (2 : ℤ) ≤ -1 from h) (by decide)

variable {g : GateRun}

theorem Inv.of_bytes (h : g.Inv) {loop : Connloop} (hrecv : loop.recvBytes = g.loop.recvBytes)
    (hsent : loop.sentBytes = g.loop.sentBytes) (hlevel : loop.sendLevel = g.loop.sendLevel)
    (hval : loop.validated = false → g.loop.validated = false) :
    Inv { g with loop := loop, completed := g.completed || loop.handshakeDone } where
  received := hrecv ▸ h.received
  sent hv := hsent ▸ h.sent (hval hv)
  budget hv := h.budget (hval hv)
  done hd := Bool.or_eq_true_iff.2 (.inr hd)
  level hl := Bool.or_eq_true_iff.2 (.inl (h.level (hlevel ▸ hl)))

theorem Inv.completed_of_sendOk (h : g.Inv) {level : ℤ} {len : ℕ}
    (hok : g.loop.sendOk level len = true) (hl : 2 ≤ level) : g.completed = true := by
  obtain ⟨hsame | ⟨-, hle⟩, -⟩ := Connloop.sendOk_iff.1 hok
  · exact h.level (hsame ▸ hl)
  · refine h.done ?_
    by_contra hd
    rw [keySendLevel, ← Connloop.handshakeDone, if_neg hd] at hle
    have hhandshake : level ≤ 1 := hle
    omega

theorem Inv.send (h : g.Inv) (level : ℤ) (ackEliciting : Bool) (pn len : ℕ) :
    (g.step (.send level ackEliciting pn len)).Inv := by
  rcases g.loop.onSend_eq level ackEliciting pn len with ⟨-, hsend⟩ | ⟨hok, sent, armed, hsend⟩
  · simp only [step, receivedBy, admittedBy, Connloop.step, hsend]
    exact h.of_bytes rfl rfl rfl id
  · obtain ⟨-, -, -, hbudget⟩ := Connloop.sendOk_iff.1 hok
    have hbytes : g.loop.validated = false →
        len = 0 ∨ g.loop.sentBytes + len ≤ 3 * g.loop.recvBytes ∧
          g.loop.sentBytes + len < 2 ^ 64 := by
      intro hval
      rcases hbudget with hv | hb
      · exact absurd (hv.symm.trans hval) (by decide)
      · exact Connloop.le_budget hb
    have hrecv := h.received
    simp only [step, receivedBy, admittedBy, Connloop.step, hsend, if_true, Nat.add_zero]
    refine ⟨hrecv, fun hval => ?_, fun hval => ?_, fun hd => ?_, fun hl => ?_⟩
    · obtain ⟨heq, hlt⟩ := h.sent hval
      have hno := hbytes hval
      have hmod : u64 (g.loop.sentBytes + len) = g.loop.sentBytes + len := Nat.mod_eq_of_lt (by omega)
      dsimp only
      omega
    · obtain ⟨heq, -⟩ := h.sent hval
      have hle := h.budget hval
      have hno := hbytes hval
      dsimp only
      omega
    · exact Bool.or_eq_true_iff.2 (.inl (h.done hd))
    · exact Bool.or_eq_true_iff.2 (.inl (h.completed_of_sendOk hok hl))

/-- **Every call keeps the invariant.** -/
theorem Inv.step (h : g.Inv) (o : GateOp) : (g.step o).Inv := by
  cases o with
  | send level ackEliciting pn len => exact h.send level ackEliciting pn len
  | recv level len =>
    obtain ⟨n, hn, hrecv⟩ := g.loop.onRecv_eq level len
    simp only [GateRun.step, receivedBy, admittedBy, Connloop.step, hrecv, Nat.add_zero]
    refine ⟨?_, h.sent, fun hv => ?_, fun hd => ?_, fun hl => ?_⟩
    · exact Nat.le_trans hn (Nat.add_le_add_right h.received _)
    · exact Nat.le_trans (h.budget hv) (Nat.mul_le_mul_left 3 (Nat.le_add_right _ _))
    · exact Bool.or_eq_true_iff.2 (.inl (h.done hd))
    · exact Bool.or_eq_true_iff.2 (.inl (h.level hl))
  | close peerClosed =>
    obtain ⟨phase, -, hclose⟩ := g.loop.close_eq peerClosed
    simp only [GateRun.step, receivedBy, admittedBy, Connloop.step, hclose, Nat.add_zero]
    exact h.of_bytes rfl rfl rfl id
  | validate => exact h.of_bytes rfl rfl rfl fun hv => nomatch hv
  | keys | progress | ack => exact h.of_bytes rfl rfl rfl id

/-- **The gates hold together** in every run. The send level stays or rises by one and the phase
never moves backwards; an admitted send is in the active phase, at a level with keys, and at 1-RTT
only behind a complete handshake; and until the path is validated, the admitted bytes are at most
three times the received ones. -/
theorem gates_hold (memory : Connloop) (isServer : Bool) (ops : List GateOp) :
    (∀ g o, (g, o) ∈ steps step (start memory isServer) ops →
      ((g.step o).loop.sendLevel = g.loop.sendLevel ∨
        (g.step o).loop.sendLevel = g.loop.sendLevel + 1) ∧
      g.loop.phase.rank ≤ (g.step o).loop.phase.rank ∧
      ∀ level ackEliciting pn len, o = .send level ackEliciting pn len →
        (g.loop.onSend level ackEliciting pn len).1 = true →
        g.loop.phase = .active ∧ g.loop.levelUsable level = true ∧
          (level = levelOnertt.val → g.completed = true)) ∧
    ∀ past, past <+: ops → (run step (start memory isServer) past).loop.validated = false →
      (run step (start memory isServer) past).admitted ≤
        3 * (run step (start memory isServer) past).received := by
  have hinv : ∀ past, (run step (start memory isServer) past).Inv := fun past =>
    run_invariant (P := Inv) past (start_inv memory isServer) fun g o _ h => h.step o
  refine ⟨fun g o hmem => ?_, fun past _ hval => (hinv past).budget hval⟩
  obtain ⟨past, -, hg⟩ := mem_steps_iff.1 hmem
  obtain rfl : g = run step (start memory isServer) past := hg
  refine ⟨Connloop.step_sendLevel _ o, Connloop.step_phase _ o, ?_⟩
  rintro level ackEliciting pn len rfl hadm
  rcases Connloop.onSend_eq _ level ackEliciting pn len with ⟨-, hsend⟩ | ⟨hok, sent, armed, hsend⟩
  · rw [hsend] at hadm
    cases hadm
  · obtain ⟨-, hphase, husable, -⟩ := Connloop.sendOk_iff.1 hok
    exact ⟨hphase, husable, fun hlevel => (hinv past).completed_of_sendOk hok (hlevel ▸ Int.le_refl _)⟩

/-- A server with keys that received 100 bytes may send 300 at the Initial level. -/
theorem gates_hold_initial :
    let keys : Keyset := { Connio.blank.loop.keys with installed := Vector.replicate _ true }
    let g := run step (start Connio.blank.loop true)
      [.keys keys, .recv 0 100, .send 0 false 0 300]
    g.loop.sendLevel = 0 ∧ g.loop.validated = false ∧ g.admitted = 300 ∧
      g.admitted ≤ 3 * g.received := by
  intro keys g
  have hval : g.loop.validated = false := by decide
  exact ⟨by decide, hval, by decide, (gates_hold _ _ _).2 _ List.prefix_rfl hval⟩

end GateRun

end Conn

end QuicVibe
