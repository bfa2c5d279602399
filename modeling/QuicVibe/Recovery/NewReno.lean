import QuicVibe.Common.Bytes
import QuicVibe.Common.Run
/-!
# The congestion controller

`cc.c` against the pseudocode of RFC 9002 appendix B. The pseudocode decides from the time at which
the last recovery period began; the code also keeps a phase flag, which a loss sets and the first
acknowledgement of a later packet clears, and asks the flag first. `Conforms` says when the two do
not part.
-/

namespace QuicVibe

namespace Recovery

/-- `QUIC_MAX_DATAGRAM`. -/
abbrev maxDatagram : ℕ := 1200

/-- `QUIC_CC_MIN_WINDOW`. -/
abbrev ccMinWindow : ℕ := 2 * maxDatagram

/-- `QUIC_CC_INIT_WINDOW`. -/
abbrev ccInitWindow : ℕ := 10 * maxDatagram

/-! ## The code -/

structure Cc where
  cwnd : ℕ
  ssthresh : ℕ
  inRecovery : Bool
  recoveryStart : ℕ
  deriving DecidableEq, Repr

namespace Cc

def init : Cc := ⟨ccInitWindow, 2 ^ 64 - 1, false, 0⟩

/-- The increment of `grow`: slow start below the threshold, avoidance from there on. -/
def increment (c : Cc) (acked : ℕ) : ℕ :=
  if c.cwnd < c.ssthresh then acked else u64 (maxDatagram * acked) / c.cwnd

def grow (c : Cc) (acked : ℕ) : Cc := { c with cwnd := u64 (c.cwnd + c.increment acked) }

def maybeExitRecovery (c : Cc) (sentTime : ℕ) : Cc :=
  if c.inRecovery && decide (sentTime > c.recoveryStart) then { c with inRecovery := false } else c

def onAck (c : Cc) (acked sentTime : ℕ) : Cc :=
  let c := c.maybeExitRecovery sentTime
  if c.inRecovery then c else c.grow acked

def onLoss (c : Cc) (sentTime now : ℕ) : Cc :=
  if c.inRecovery || decide (sentTime < c.recoveryStart) then c
  else
    let ssthresh := max (c.cwnd / 2) ccMinWindow
    { cwnd := ssthresh, ssthresh := ssthresh, inRecovery := true, recoveryStart := now }

def onPersistent (c : Cc) : Cc := { c with cwnd := ccMinWindow }

end Cc

/-- An event the controller is told of. -/
inductive CcEvent
  | ack (acked sentTime : ℕ)
  | loss (sentTime now : ℕ)
  deriving DecidableEq, Repr

/-- A call of the controller: one of the two events, or persistent congestion. -/
inductive CcCall
  | event (e : CcEvent)
  | persistent
  deriving DecidableEq, Repr

/-- The bytes a call acknowledges. -/
def CcCall.acked : CcCall → ℕ
  | .event (.ack acked _) => acked
  | _ => 0

namespace Cc

/-- One event. -/
def step (c : Cc) : CcEvent → Cc
  | .ack acked sentTime => c.onAck acked sentTime
  | .loss sentTime now => c.onLoss sentTime now

/-- One call. -/
def call (c : Cc) : CcCall → Cc
  | .event e => c.step e
  | .persistent => c.onPersistent

end Cc

/-! ## The pseudocode -/

/-- The variables of RFC 9002 B.2 the two events use. A threshold of `none` is infinite. -/
structure RfcCc where
  congestionWindow : ℕ
  ssthresh : Option ℕ
  congestionRecoveryStartTime : ℕ
  deriving DecidableEq, Repr

namespace RfcCc

/-- RFC 9002 B.3. -/
def init : RfcCc := ⟨ccInitWindow, none, 0⟩

/-- RFC 9002 B.5, `InCongestionRecovery`. -/
def inCongestionRecovery (r : RfcCc) (sentTime : ℕ) : Bool :=
  decide (sentTime ≤ r.congestionRecoveryStartTime)

/-- The window is below the threshold. -/
def inSlowStart (r : RfcCc) : Bool := r.ssthresh.all (r.congestionWindow < ·)

/-- RFC 9002 B.5, `OnPacketAcked` of a packet in flight. -/
def onPacketAcked (r : RfcCc) (acked sentTime : ℕ) : RfcCc :=
  if r.inCongestionRecovery sentTime then r
  else if r.inSlowStart then { r with congestionWindow := r.congestionWindow + acked }
  else
    { r with
      congestionWindow := r.congestionWindow + maxDatagram * acked / r.congestionWindow }

/-- RFC 9002 B.6, `OnCongestionEvent`. -/
def onCongestionEvent (r : RfcCc) (sentTime now : ℕ) : RfcCc :=
  if r.inCongestionRecovery sentTime then r
  else
    { congestionWindow := max (r.congestionWindow / 2) ccMinWindow
      ssthresh := some (r.congestionWindow / 2)
      congestionRecoveryStartTime := now }

/-- One event. -/
def step (r : RfcCc) : CcEvent → RfcCc
  | .ack acked sentTime => r.onPacketAcked acked sentTime
  | .loss sentTime now => r.onCongestionEvent sentTime now

end RfcCc

namespace Cc

/-! ## The two side by side -/

/-- The code's state is that of the pseudocode, with the largest 64-bit value for infinity. -/
@[mk_iff]
structure Agrees (c : Cc) (r : RfcCc) : Prop where
  cwnd : c.cwnd = r.congestionWindow
  ssthresh : c.ssthresh = r.ssthresh.getD (2 ^ 64 - 1)
  recoveryStart : c.recoveryStart = r.congestionRecoveryStartTime

/-- The event does not overflow 64 bits: neither the sum nor, in avoidance, the product. -/
def Fits (c : Cc) : CcEvent → Prop
  | .ack acked _ => c.cwnd + acked < 2 ^ 64 ∧ (c.ssthresh ≤ c.cwnd → maxDatagram * acked < 2 ^ 64)
  | .loss _ _ => True

instance (c : Cc) (e : CcEvent) : Decidable (c.Fits e) :=
  match e with
  | .ack _ _ => inferInstanceAs (Decidable (_ ∧ _))
  | .loss _ _ => .isTrue trivial

/-- **The event is treated as the pseudocode treats it.** An acknowledgement is of a packet sent
after recovery began, or arrives while the flag is set, or would not grow the window. A loss of a
packet sent after recovery began finds the flag cleared and a window of at least twice the minimum;
any other loss finds the flag set or the packet sent before recovery began, or there is nothing left
to reduce. -/
def Conforms (c : Cc) : CcEvent → Prop
  | .ack acked sentTime =>
    c.recoveryStart < sentTime ∨ c.inRecovery = true ∨ c.increment acked = 0
  | .loss sentTime now =>
    (c.recoveryStart < sentTime ∧ c.inRecovery = false ∧ 2 * ccMinWindow ≤ c.cwnd) ∨
    (sentTime ≤ c.recoveryStart ∧ (c.inRecovery = true ∨ sentTime < c.recoveryStart ∨
      (c.cwnd = ccMinWindow ∧ c.ssthresh = ccMinWindow ∧ now = c.recoveryStart)))

instance (c : Cc) (e : CcEvent) : Decidable (c.Conforms e) :=
  match e with
  | .ack _ _ => inferInstanceAs (Decidable (_ ∨ _))
  | .loss _ _ => inferInstanceAs (Decidable (_ ∨ _))

/-- What every event keeps: neither the window nor the threshold is below the minimum. -/
def Floor (c : Cc) : Prop := ccMinWindow ≤ c.cwnd ∧ ccMinWindow ≤ c.ssthresh

theorem floor_init : init.Floor := ⟨by decide, by decide⟩

theorem agrees_init : init.Agrees RfcCc.init := ⟨rfl, rfl, rfl⟩

variable {c : Cc} {r : RfcCc} {acked sentTime now : ℕ}

theorem increment_le (hfloor : c.Floor) (hfits : c.Fits (.ack acked sentTime)) :
    c.increment acked ≤ acked := by
  rw [increment]
  split
  · exact Nat.le_refl acked
  · rename_i hca
    rw [u64_of_lt (hfits.2 (Nat.le_of_not_lt hca))]
    refine Nat.div_le_of_le_mul ?_
    refine Nat.mul_le_mul_right acked (Nat.le_trans ?_ hfloor.1)
    decide

theorem onAck_frame (c : Cc) (acked sentTime : ℕ) :
    (c.onAck acked sentTime).ssthresh = c.ssthresh ∧
      (c.onAck acked sentTime).recoveryStart = c.recoveryStart := by
  simp only [onAck, maybeExitRecovery, grow]
  split <;> split <;> exact ⟨rfl, rfl⟩

/-- The window grows unless the flag is set and the packet is in recovery. -/
theorem cwnd_onAck (hfloor : c.Floor) (hfits : c.Fits (.ack acked sentTime)) :
    (c.onAck acked sentTime).cwnd =
      if c.inRecovery = true ∧ sentTime ≤ c.recoveryStart then c.cwnd
      else c.cwnd + c.increment acked := by
  have hle := increment_le hfloor hfits
  have hgrow : u64 (c.cwnd + c.increment acked) = c.cwnd + c.increment acked :=
    u64_of_lt (by have hsum := hfits.1; omega)
  obtain ⟨cwnd, ssthresh, flag, start⟩ := c
  cases flag with
  | false => simpa [onAck, maybeExitRecovery, grow] using hgrow
  | true =>
    by_cases hlate : sentTime ≤ start
    · simp [onAck, maybeExitRecovery, hlate, Nat.not_lt.2 hlate]
    · simpa [onAck, maybeExitRecovery, hlate, Nat.lt_of_not_le hlate, grow, increment] using hgrow

theorem onPacketAcked_eq (hfits : c.Fits (.ack acked sentTime)) (h : c.Agrees r) :
    r.onPacketAcked acked sentTime =
      { r with congestionWindow :=
          if sentTime ≤ c.recoveryStart then c.cwnd else c.cwnd + c.increment acked } := by
  obtain ⟨window, ssthresh, start⟩ := r
  obtain ⟨rfl, hthresh, rfl⟩ := h
  by_cases hlate : sentTime ≤ c.recoveryStart
  · simp [RfcCc.onPacketAcked, RfcCc.inCongestionRecovery, hlate]
  · cases ssthresh with
    | none =>
      -- an infinite threshold: the code leaves slow start only where nothing can be added
      have hsum := hfits.1
      have hinc : c.increment acked = acked := by
        by_cases hss : c.cwnd < c.ssthresh
        · rw [increment, if_pos hss]
        · simp only [Option.getD_none] at hthresh
          have hzero : acked = 0 := by omega
          rw [increment, if_neg hss, hzero]
          exact Nat.zero_div _
      simp [RfcCc.onPacketAcked, RfcCc.inCongestionRecovery, RfcCc.inSlowStart, hlate, hinc]
    | some thresh =>
      simp only [Option.getD_some] at hthresh
      subst hthresh
      by_cases hss : c.cwnd < c.ssthresh
      · simp [RfcCc.onPacketAcked, RfcCc.inCongestionRecovery, RfcCc.inSlowStart, hlate, hss,
          increment]
      · have hprod := u64_of_lt (hfits.2 (Nat.le_of_not_lt hss))
        simp [RfcCc.onPacketAcked, RfcCc.inCongestionRecovery, RfcCc.inSlowStart, hlate, hss,
          increment, hprod]

/-- **An acknowledgement** keeps the agreement exactly if it conforms. -/
theorem agrees_ack_iff (hfloor : c.Floor) (hfits : c.Fits (.ack acked sentTime)) (h : c.Agrees r) :
    (c.step (.ack acked sentTime)).Agrees (r.step (.ack acked sentTime)) ↔
      c.Conforms (.ack acked sentTime) := by
  obtain ⟨hthresh, hstart⟩ := c.onAck_frame acked sentTime
  have hcwnd := cwnd_onAck hfloor hfits
  have hiff : (c.step (.ack acked sentTime)).Agrees (r.step (.ack acked sentTime)) ↔
      (c.onAck acked sentTime).cwnd =
        if sentTime ≤ c.recoveryStart then c.cwnd else c.cwnd + c.increment acked := by
    simp only [step, RfcCc.step, onPacketAcked_eq hfits h]
    exact ⟨fun hagrees => hagrees.cwnd, fun heq =>
      ⟨heq, hthresh.trans h.ssthresh, hstart.trans h.recoveryStart⟩⟩
  rw [hiff, hcwnd, Conforms]
  by_cases hlate : sentTime ≤ c.recoveryStart <;> cases hflag : c.inRecovery <;>
    simp [hlate] <;> omega

/-- **A loss** keeps the agreement exactly if it conforms. -/
theorem agrees_loss_iff (hfloor : c.Floor) (h : c.Agrees r) :
    (c.step (.loss sentTime now)).Agrees (r.step (.loss sentTime now)) ↔
      c.Conforms (.loss sentTime now) := by
  obtain ⟨window, ssthresh, start⟩ := r
  obtain ⟨rfl, hthresh, rfl⟩ := h
  obtain ⟨hcwnd, hfloor⟩ := hfloor
  simp only [ccMinWindow, maxDatagram] at hcwnd hfloor
  by_cases hlate : sentTime ≤ c.recoveryStart
  · -- the pseudocode ignores the loss
    have hrfc : (RfcCc.mk c.cwnd ssthresh c.recoveryStart).step (.loss sentTime now) =
        ⟨c.cwnd, ssthresh, c.recoveryStart⟩ := by
      simp [RfcCc.step, RfcCc.onCongestionEvent, RfcCc.inCongestionRecovery, hlate]
    rw [hrfc]
    by_cases hskip : c.inRecovery = true ∨ sentTime < c.recoveryStart
    · have hcode : c.step (.loss sentTime now) = c := by simp [step, onLoss, hskip]
      rw [hcode]
      exact ⟨fun _ => .inr ⟨hlate, hskip.imp_right .inl⟩, fun _ => ⟨rfl, hthresh, rfl⟩⟩
    · simp only [agrees_iff, step, onLoss, Conforms, ← hthresh, Bool.or_eq_true,
        decide_eq_true_eq, if_neg hskip, ccMinWindow, maxDatagram]
      simp only [not_or, Bool.not_eq_true] at hskip
      rw [hskip.1]
      simp only [Bool.false_eq_true, false_or, hskip.2, hlate, true_and, Nat.not_lt.2 hlate,
        false_and]
      omega
  · -- the pseudocode reduces the window
    have hrfc : (RfcCc.mk c.cwnd ssthresh c.recoveryStart).step (.loss sentTime now) =
        ⟨max (c.cwnd / 2) ccMinWindow, some (c.cwnd / 2), now⟩ := by
      simp [RfcCc.step, RfcCc.onCongestionEvent, RfcCc.inCongestionRecovery, hlate]
    have hafter := Nat.lt_of_not_le hlate
    rw [hrfc]
    cases hflag : c.inRecovery with
    | true =>
      simp only [agrees_iff, step, onLoss, Conforms, hflag, Bool.true_or, if_true, hafter, hlate,
        Option.getD_some, ccMinWindow, maxDatagram, Bool.true_eq_false, false_and, and_false,
        or_false, iff_false]
      omega
    | false =>
      have hnot : ¬ sentTime < c.recoveryStart := by omega
      simp only [agrees_iff, step, onLoss, Conforms, hflag, Bool.false_or, hnot, hafter, hlate,
        Option.getD_some, ccMinWindow, maxDatagram, decide_false, Bool.false_eq_true, if_false,
        true_and, and_true, false_and, or_false]
      omega

theorem Floor.step (hfloor : c.Floor) {e : CcEvent} (hfits : c.Fits e) : (c.step e).Floor := by
  cases e with
  | ack acked sentTime =>
    obtain ⟨hthresh, -⟩ := c.onAck_frame acked sentTime
    refine ⟨?_, hthresh ▸ hfloor.2⟩
    have hcwnd := cwnd_onAck hfloor hfits
    rw [Cc.step, hcwnd]
    split
    · exact hfloor.1
    · exact Nat.le_trans hfloor.1 (Nat.le_add_right _ _)
  | loss sentTime now =>
    rw [Cc.step, onLoss]
    split
    · exact hfloor
    · exact ⟨Nat.le_max_right _ _, Nat.le_max_right _ _⟩

/-! ## The floor over whole runs -/

/-- What a call may do to the window: an acknowledgement overflows nothing, and a loss leaves the
window or sets it to half, or to the minimum. -/
def Regular (c : Cc) : CcCall → Prop
  | .event (.ack acked sentTime) => c.Fits (.ack acked sentTime)
  | .event (.loss sentTime now) =>
    (c.onLoss sentTime now).cwnd = c.cwnd ∨
      (c.onLoss sentTime now).cwnd = max (c.cwnd / 2) ccMinWindow
  | .persistent => True

/-- One call, from a window that grew by at most the bytes acknowledged so far. -/
theorem call_spec {total : ℕ} {o : CcCall} (hfloor : c.Floor) (hcwnd : c.cwnd ≤ ccInitWindow + total)
    (htotal : total + o.acked < 2 ^ 51) :
    c.Regular o ∧ (c.call o).Floor ∧ (c.call o).cwnd ≤ ccInitWindow + (total + o.acked) := by
  have hmin : ccMinWindow ≤ c.cwnd := hfloor.1
  simp only [ccMinWindow, ccInitWindow, maxDatagram] at hcwnd hmin ⊢
  rcases o with (⟨acked, sentTime⟩ | ⟨sentTime, now⟩) | _ <;> simp only [CcCall.acked] at htotal ⊢
  · have hfits : c.Fits (.ack acked sentTime) :=
      ⟨by omega, fun _ => by simp only [maxDatagram]; omega⟩
    have hinc := increment_le hfloor hfits
    refine ⟨hfits, hfloor.step hfits, ?_⟩
    rw [call, step, cwnd_onAck hfloor hfits]
    split <;> omega
  · have hloss : c.Regular (.event (.loss sentTime now)) := by
      simp only [Regular, onLoss]
      split
      · exact .inl rfl
      · exact .inr rfl
    refine ⟨hloss, hfloor.step trivial, ?_⟩
    simp only [Regular, ccMinWindow, maxDatagram] at hloss
    rw [call, step]
    rcases hloss with h | h <;> rw [h] <;> omega
  · refine ⟨trivial, ⟨Nat.le_refl _, hfloor.2⟩, ?_⟩
    simp only [call, onPersistent, ccMinWindow, maxDatagram]
    omega

/-- **The window keeps its floor.** Over every sequence of calls that acknowledge fewer than `2 ^ 51`
bytes, every call finds and leaves window and threshold at the minimum or above, no sum and no
product overflows, and a loss leaves the window or sets it to the larger of half of it and the
minimum. -/
theorem cc_window_floor (calls : List CcCall) (htotal : (calls.map CcCall.acked).sum < 2 ^ 51) :
    ∀ e ∈ Run.steps call init calls, e.1.Floor ∧ (e.1.call e.2).Floor ∧ e.1.Regular e.2 := by
  intro e he
  obtain ⟨past, hpre, hstate⟩ := Run.mem_steps_iff.1 he
  have hsum : ∀ {past o}, past ++ [o] <+: calls →
      (past.map CcCall.acked).sum + o.acked < 2 ^ 51 := by
    intro past o hpast
    have hle := (hpast.map CcCall.acked).sublist.sum_le_sum (fun _ _ => Nat.zero_le _)
    simp only [List.map_append, List.sum_append, List.map_cons, List.map_nil,
      List.sum_singleton] at hle
    omega
  have hpast : (Run.run call init past).Floor ∧
      (Run.run call init past).cwnd ≤ ccInitWindow + (past.map CcCall.acked).sum := by
    refine Run.run_history (P := fun past (c : Cc) =>
      c.Floor ∧ c.cwnd ≤ ccInitWindow + (past.map CcCall.acked).sum) past
      ⟨floor_init, Nat.le_refl _⟩ fun p o hp h => ?_
    have hstep := call_spec h.1 h.2 (hsum (hp.trans ((List.prefix_append _ _).trans hpre)))
    rw [List.map_append, List.sum_append, List.map_singleton, List.sum_singleton]
    exact hstep.2
  rw [← hstate] at hpast
  obtain ⟨hregular, hfloor, -⟩ := call_spec hpast.1 hpast.2 (hsum hpre)
  exact ⟨hpast.1, hfloor, hregular⟩

theorem cc_window_floor_collapse :
    let calls : List CcCall := [.event (.ack 1200 3), .event (.loss 5 10), .persistent]
    (calls.map CcCall.acked).sum < 2 ^ 51 ∧
    ∀ e ∈ Run.steps call init calls, e.1.Floor ∧ (e.1.call e.2).Floor ∧ e.1.Regular e.2 :=
  ⟨by decide, cc_window_floor _ (by decide)⟩

/-! ## Runs -/

/-- **The controller and the pseudocode.** Over every sequence of events without overflow, window,
threshold and recovery start are those of the pseudocode after every event if and only if every
event conforms in the state it meets. -/
theorem newreno_agrees_iff (events : List CcEvent)
    (hfits : ∀ e ∈ Run.steps step init events, e.1.Fits e.2) :
    (∀ past, past <+: events →
      (Run.run step init past).Agrees (Run.run RfcCc.step .init past)) ↔
    ∀ e ∈ Run.steps step init events, e.1.Conforms e.2 := by
  refine Run.run_lockstep_iff floor_init agrees_init (fun c e hmem hfloor => ?_)
    fun c r e hmem hfloor hagrees => ?_
  · exact hfloor.step (hfits _ hmem)
  · cases e with
    | ack acked sentTime => exact agrees_ack_iff hfloor (hfits _ hmem) hagrees
    | loss sentTime now => exact agrees_loss_iff hfloor hagrees

/-- A loss and the acknowledgement of a packet sent after it. -/
def lossThenLaterAck : List CcEvent := [.loss 5 10, .ack 1200 11]

theorem newreno_agrees_lossThenLaterAck :
    (∀ e ∈ Run.steps step init lossThenLaterAck, e.1.Fits e.2) ∧
    ∀ past, past <+: lossThenLaterAck →
      (Run.run step init past).Agrees (Run.run RfcCc.step .init past) := by
  have hfits : ∀ e ∈ Run.steps step init lossThenLaterAck, e.1.Fits e.2 := by decide
  exact ⟨hfits, (newreno_agrees_iff lossThenLaterAck hfits).2 (by decide)⟩

/-- **A late acknowledgement grows the window.** The packet sent at time 8 was in flight when the
loss at time 10 began recovery; its acknowledgement arrives after that of a packet sent at time
11. -/
theorem late_ack_grows_window :
    let events : List CcEvent := [.loss 5 10, .ack 1200 11, .ack 1200 8]
    (∀ e ∈ Run.steps step init events, e.1.Fits e.2) ∧
    (Run.run step init events).cwnd = 6470 ∧
    (Run.run RfcCc.step .init events).congestionWindow = 6240 ∧
    ¬ (Run.run step init events).Agrees (Run.run RfcCc.step .init events) := by
  refine ⟨by decide, by decide, by decide, fun h => ?_⟩
  exact absurd h.cwnd (by decide)

end Cc

end Recovery

end QuicVibe
