import QuicVibe.Packet.Protect
import QuicVibe.Recovery.Sent
/-!
# The send and receive gate of a connection

`connloop.c` decides whether a connection may send or process a packet: the level's keys are
installed (`keyset.c`), the send level rises one at a time (`promote.c`), the lifecycle phase is
open, and an unvalidated peer is not sent more than three times what it sent (`antiamp.c`). The
gate also records what it admits in the sent-packet table.
-/

namespace QuicVibe

namespace Conn

open Packet Recovery

/-! ## Keys by level -/

/-- `QUIC_KEYSET_LEVELS`. -/
abbrev keysetLevels : ℕ := 3

/-- A protection level that is an index; the gate itself takes any integer. -/
abbrev Level := Fin keysetLevels

/-- `QUIC_LEVEL_INITIAL`, `QUIC_LEVEL_HANDSHAKE` and `QUIC_LEVEL_ONERTT`. -/
def levelInitial : Level := 0
def levelHandshake : Level := 1
def levelOnertt : Level := 2

structure Keyset where
  keys : Vector InitialKeys keysetLevels
  installed : Vector Bool keysetLevels

namespace Keyset

def init (s : Keyset) : Keyset := { s with installed := Vector.replicate keysetLevels false }

/-- `quic_level_valid`: the level as an index. -/
def levelValid (level : ℤ) : Option Level :=
  if h : 0 ≤ level ∧ level < keysetLevels then some ⟨level.toNat, by omega⟩ else none

def install (s : Keyset) (level : ℤ) (keys : InitialKeys) : Bool × Keyset :=
  match levelValid level with
  | none => (false, s)
  | some i => (true, { keys := s.keys.set i keys, installed := s.installed.set i true })

def forLevel (s : Keyset) (level : ℤ) : Option InitialKeys := do
  let i ← levelValid level
  if !s.installed[i] then none else some s.keys[i]

end Keyset

/-! ## Levels and budget -/

def keyPromoteOk (currentMaxLevel newLevel : ℤ) : Bool := newLevel == currentMaxLevel + 1

/-- `quic_key_send_level`: 1-RTT once the handshake is complete, Handshake until then. -/
def keySendLevel (handshakeComplete handshakeConfirmed : Bool) : ℤ :=
  if handshakeComplete || handshakeConfirmed then levelOnertt.val else levelHandshake.val

def antiampBudget (received sent : ℕ) : ℕ :=
  let cap := u64 (3 * received)
  if sent ≥ cap then 0 else cap - sent

def antiampCanSend (received sent want : ℕ) : Bool := want ≤ antiampBudget received sent

/-- `quic_udploop_send_allowed`: no limit once the address is validated. -/
def udploopSendAllowed (received sent : ℕ) (addressValidated : Bool) (nextLen : ℕ) : Bool :=
  if addressValidated then true else antiampCanSend received sent nextLen

/-! ## The gate -/

/-- `QUIC_CONNLOOP_ACTIVE` and the later lifecycle phases. -/
inductive Phase
  | active
  | closing
  | draining
  | closed
  deriving DecidableEq, Repr

structure Connloop where
  keys : Keyset
  sent : Sentpkt
  /-- Highest protection level used to send so far. -/
  sendLevel : ℤ
  handshakeComplete : Bool
  handshakeConfirmed : Bool
  validated : Bool
  isServer : Bool
  phase : Phase
  ptoArmed : Bool
  recvBytes : ℕ
  sentBytes : ℕ

namespace Connloop

/-- `quic_connloop_init`; the send level starts one below Initial. -/
def init (c : Connloop) (isServer : Bool) : Connloop where
  keys := c.keys.init
  sent := c.sent.init
  sendLevel := -1
  handshakeComplete := false
  handshakeConfirmed := false
  validated := false
  isServer := isServer
  phase := .active
  ptoArmed := false
  recvBytes := 0
  sentBytes := 0

/-- The level's key is installed. -/
def levelUsable (c : Connloop) (level : ℤ) : Bool := (c.keys.forLevel level).isSome

def recvAllowed (c : Connloop) (level : ℤ) : Bool := c.phase != .closed && c.levelUsable level

/-- `quic_connloop_on_recv`: the budget grows even when the packet is dropped. -/
def onRecv (c : Connloop) (level : ℤ) (len : ℕ) : Bool × Connloop :=
  if c.phase = .closed then (false, c)
  else
    let c := { c with recvBytes := u64 (c.recvBytes + len) }
    (c.recvAllowed level, c)

/-- `send_level_ok`: the level stays, or rises by one to a level the handshake permits. -/
def sendLevelOk (c : Connloop) (level : ℤ) : Bool :=
  if level ≤ c.sendLevel then level == c.sendLevel
  else if !keyPromoteOk c.sendLevel level then false
  else level ≤ keySendLevel c.handshakeComplete c.handshakeConfirmed

def sendGated (c : Connloop) (level : ℤ) (len : ℕ) : Bool :=
  if c.phase ≠ .active then false
  else if !c.levelUsable level then false
  else udploopSendAllowed c.recvBytes c.sentBytes c.validated len

def ptoSync (c : Connloop) : Connloop := { c with ptoArmed := c.sent.count > 0 }

def sendOk (c : Connloop) (level : ℤ) (len : ℕ) : Bool :=
  c.sendLevelOk level && c.sendGated level len

def onSend (c : Connloop) (level : ℤ) (ackEliciting : Bool) (pn len : ℕ) : Bool × Connloop :=
  if !c.sendOk level len then (false, c)
  else
    let c := { c with sendLevel := level, sentBytes := u64 (c.sentBytes + len) }
    if !ackEliciting then (true, c)
    else (true, { c with sent := (c.sent.onSend pn 0 true len).2 }.ptoSync)

def validate (c : Connloop) : Connloop := { c with validated := true }

/-- `quic_connloop_on_ack`: how many packets were newly acknowledged. -/
def onAck (c : Connloop) (ackLargest : ℕ) (ackRanges : List ℕ) : ℕ × Connloop :=
  let (acked, sent) := c.sent.ackProcess ackLargest ackRanges
  (acked.length, { c with sent := sent }.ptoSync)

/-- `quic_connloop_on_pto`: a probe is a new packet, sent only while something is in flight. -/
def onPto (c : Connloop) (level : ℤ) (pn len : ℕ) : Bool × Connloop :=
  if !c.levelUsable level then (false, c)
  else if c.sent.count = 0 then (false, c)
  else (true, { c with sent := (c.sent.onSend pn 0 true len).2
                       sentBytes := u64 (c.sentBytes + len), ptoArmed := true })

def next : Phase → Phase
  | .active => .closing
  | .closing => .draining
  | .draining => .closed
  | .closed => .closed

def close (c : Connloop) (peerClosed : Bool) : Connloop :=
  if c.phase = .active ∧ peerClosed then { c with phase := .draining }
  else { c with phase := next c.phase }

/-! ## What a call changes -/

variable {c : Connloop} {level : ℤ} {len : ℕ}

theorem onSend_cases (c : Connloop) (level : ℤ) (pn len : ℕ) :
    (c.sendOk level len = false ∧ c.onSend level true pn len = (false, c)) ∨
      (c.sendOk level len = true ∧ c.onSend level true pn len =
        (true, { c with sendLevel := level, sentBytes := u64 (c.sentBytes + len)
                        sent := (c.sent.onSend pn 0 true len).2 }.ptoSync)) := by
  cases h : c.sendOk level len with
  | false => exact .inl ⟨rfl, by simp [onSend, h]⟩
  | true => exact .inr ⟨rfl, by simp [onSend, h]⟩

theorem nonneg_of_levelUsable (h : c.levelUsable level = true) : 0 ≤ level := by
  by_contra hneg
  have hnone : Keyset.levelValid level = none := by
    unfold Keyset.levelValid
    rw [dif_neg fun hvalid => hneg hvalid.1]
  unfold levelUsable Keyset.forLevel at h
  rw [hnone] at h
  cases h

theorem forLevel_of_sendOk (h : c.sendOk level len = true) :
    ∃ keys, c.keys.forLevel level = some keys := by
  simp only [sendOk, sendGated, Bool.and_eq_true] at h
  obtain ⟨-, h⟩ := h
  split_ifs at h with hphase husable
  exact Option.ne_none_iff_exists'.1 (by simpa [levelUsable] using husable)

/-- A send is refused and changes nothing, or it is admitted. Then the level, the counter of sent
bytes and, for an ack-eliciting packet, the table and the timer change. -/
theorem onSend_eq (c : Connloop) (level : ℤ) (ackEliciting : Bool) (pn len : ℕ) :
    (c.sendOk level len = false ∧ c.onSend level ackEliciting pn len = (false, c)) ∨
      (c.sendOk level len = true ∧ ∃ sent armed, c.onSend level ackEliciting pn len =
        (true, { c with sendLevel := level, sentBytes := u64 (c.sentBytes + len)
                        sent := sent, ptoArmed := armed })) := by
  unfold onSend
  cases c.sendOk level len with
  | false => exact .inl ⟨rfl, rfl⟩
  | true =>
    refine .inr ⟨rfl, ?_⟩
    cases ackEliciting with
    | false => exact ⟨_, _, rfl⟩
    | true => exact ⟨_, _, rfl⟩

/-- **The five gates** of an admitted send. -/
theorem sendOk_iff : c.sendOk level len = true ↔
    (level = c.sendLevel ∨ level = c.sendLevel + 1 ∧
      level ≤ keySendLevel c.handshakeComplete c.handshakeConfirmed) ∧
    c.phase = .active ∧ c.levelUsable level = true ∧
    (c.validated = true ∨ len ≤ antiampBudget c.recvBytes c.sentBytes) := by
  have hlevel : c.sendLevelOk level = true ↔ level = c.sendLevel ∨ level = c.sendLevel + 1 ∧
      level ≤ keySendLevel c.handshakeComplete c.handshakeConfirmed := by
    unfold sendLevelOk keyPromoteOk
    by_cases hle : level ≤ c.sendLevel
    · rw [if_pos hle, beq_iff_eq]
      omega
    · rw [if_neg hle]
      have hne : level ≠ c.sendLevel := by omega
      simp only [Bool.not_eq_true', beq_eq_false_iff_ne, ne_eq, hne, false_or]
      by_cases hnext : level = c.sendLevel + 1
      · rw [if_neg (by simpa using hnext), decide_eq_true_iff, and_iff_right hnext]
      · simp [hnext]
  have hgated : c.sendGated level len = true ↔ c.phase = .active ∧ c.levelUsable level = true ∧
      (c.validated = true ∨ len ≤ antiampBudget c.recvBytes c.sentBytes) := by
    unfold sendGated udploopSendAllowed antiampCanSend
    by_cases hphase : c.phase = .active
    · cases husable : c.levelUsable level <;> cases hval : c.validated <;> simp [hphase]
    · simp [hphase]
  rw [sendOk, Bool.and_eq_true, hlevel, hgated]

theorem onRecv_eq (c : Connloop) (level : ℤ) (len : ℕ) : ∃ n, n ≤ c.recvBytes + len ∧
    (c.onRecv level len).2 = { c with recvBytes := n } := by
  unfold onRecv
  split
  · exact ⟨c.recvBytes, Nat.le_add_right _ _, rfl⟩
  · exact ⟨u64 (c.recvBytes + len), Nat.mod_le _ _, rfl⟩

theorem onPto_cases (c : Connloop) (level : ℤ) (pn len : ℕ) :
    c.onPto level pn len = (false, c) ∨
      c.onPto level pn len = (true, { c with sent := (c.sent.onSend pn 0 true len).2
                                             sentBytes := u64 (c.sentBytes + len)
                                             ptoArmed := true }) := by
  unfold onPto
  split_ifs
  · exact .inl rfl
  · exact .inl rfl
  · exact .inr rfl

theorem onPto_eq (c : Connloop) (level : ℤ) (pn len : ℕ) : c.onPto level pn len =
    if c.levelUsable level = true ∧ c.sent.count ≠ 0 then
      (true, { c with sent := (c.sent.onSend pn 0 true len).2
                      sentBytes := u64 (c.sentBytes + len), ptoArmed := true })
    else (false, c) := by
  unfold onPto
  by_cases husable : c.levelUsable level = true
  · by_cases hcount : c.sent.count = 0 <;> simp [husable, hcount]
  · simp [husable]

@[simp] theorem close_sent (c : Connloop) (peerClosed : Bool) :
    (c.close peerClosed).sent = c.sent := by
  unfold close
  split <;> rfl

@[simp] theorem close_ptoArmed (c : Connloop) (peerClosed : Bool) :
    (c.close peerClosed).ptoArmed = c.ptoArmed := by
  unfold close
  split <;> rfl

theorem onRecv_fst (c : Connloop) (level : ℤ) (len : ℕ) :
    (c.onRecv level len).1 = c.recvAllowed level := by
  unfold onRecv
  split
  · rename_i hclosed
    simp [recvAllowed, hclosed]
  · rfl

@[simp] theorem onRecv_sent (c : Connloop) (level : ℤ) (len : ℕ) :
    (c.onRecv level len).2.sent = c.sent := by
  unfold onRecv
  split <;> rfl

@[simp] theorem onRecv_keys (c : Connloop) (level : ℤ) (len : ℕ) :
    (c.onRecv level len).2.keys = c.keys := by
  unfold onRecv
  split <;> rfl

end Connloop

end Conn

end QuicVibe
