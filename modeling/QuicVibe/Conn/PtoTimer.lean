import QuicVibe.Conn.AckSpaces
/-!
# The probe timer and the packets in flight

The gate keeps `pto_armed` in step with its table in the calls that go through it. The ACK frames of
a received packet do not: the dispatcher shares the table by pointer and empties slots on its own
(`on_ack` of `dispatch_state.c`), and nothing synchronises the timer afterwards.
-/

namespace QuicVibe

namespace Conn

open Packet Recovery Crypto Run

namespace Connio

variable (aes : Block → Block → Block)

/-- An ack-eliciting packet is in flight. -/
def Eliciting (io : Connio) : Prop :=
  ∃ i : Fin sentpktCap, (io.loop.sent.e.get i).inflight = true ∧
    (io.loop.sent.e.get i).ackEliciting = true

/-- The timer is armed exactly when an ack-eliciting packet is in flight. -/
def TimerRight (io : Connio) : Prop := io.loop.ptoArmed = true ↔ io.Eliciting

/-- The call receives a packet whose ACK frames take the last ack-eliciting packet out of flight. -/
def Empties (io : Connio) : ConnioOp → Prop
  | .recv level datagram => io.Eliciting ∧ ∃ payload, io.opens aes level datagram = some payload ∧
    ∀ i : Fin sentpktCap, (io.loop.sent.e.get i).inflight = true →
      payloadAcks payload (io.loop.sent.e.get i).pn = true
  | _ => False

/-- Every slot in use holds an ack-eliciting packet in flight. -/
def AllEliciting (io : Connio) : Prop := ∀ i : Fin sentpktCap, (io.loop.sent.e.get i).used = true →
  (io.loop.sent.e.get i).inflight = true ∧ (io.loop.sent.e.get i).ackEliciting = true

/-! ## The timer and the table -/

variable {io io' : Connio}

theorem AllEliciting.eliciting_iff (h : io.AllEliciting) :
    io.Eliciting ↔ 0 < io.loop.sent.count := by
  rw [Sentpkt.count_pos_iff]
  constructor
  · rintro ⟨i, hflight, -⟩
    exact ⟨i, (Bool.and_eq_true_iff.1 hflight).1⟩
  · rintro ⟨i, hused⟩
    exact ⟨i, h i hused⟩

theorem AllEliciting.of_onSend (h : io.AllEliciting) (pn len : ℕ)
    (hsent : io'.loop.sent = (io.loop.sent.onSend pn 0 true len).2) : io'.AllEliciting := by
  intro i hused
  rw [hsent, Vector.get_eq_getElem, Sentpkt.onSend_getElem _ _ _ _ _ i.isLt] at hused ⊢
  split at hused <;> rename_i hslot
  · rw [if_pos hslot]
    exact ⟨rfl, rfl⟩
  · rw [if_neg hslot]
    exact h i hused

theorem AllEliciting.of_remove (h : io.AllEliciting) (covered : ℕ → Bool)
    (hsent : io'.loop.sent = io.loop.sent.remove covered) : io'.AllEliciting := by
  intro i hused
  rw [hsent, Vector.get_eq_getElem, Sentpkt.remove_getElem _ _ i.isLt] at hused ⊢
  split at hused <;> rename_i hslot
  · cases hused
  · rw [if_neg hslot]
    exact h i hused

theorem eliciting_remove_iff (covered : ℕ → Bool)
    (hsent : io'.loop.sent = io.loop.sent.remove covered) :
    io'.Eliciting ↔ ∃ i : Fin sentpktCap, ((io.loop.sent.e.get i).inflight = true ∧
      (io.loop.sent.e.get i).ackEliciting = true) ∧ covered (io.loop.sent.e.get i).pn = false := by
  refine exists_congr fun i => ?_
  rw [hsent, Vector.get_eq_getElem, Sentpkt.inflight_remove _ _ i.isLt,
    Sentpkt.remove_getElem _ _ i.isLt]
  simp only [Vector.get_eq_getElem]
  cases covered (io.loop.sent.e[i.val]).pn <;> cases (io.loop.sent.e[i.val]).inflight <;> simp

theorem step_recv_ptoArmed (io : Connio) (level : Level) (datagram : Bytes) :
    (io.step aes (.recv level datagram)).loop.ptoArmed = io.loop.ptoArmed := by
  obtain ⟨n, -, hloop⟩ := io.loop.onRecv_eq level.val datagram.length
  unfold step recv
  dsimp only
  generalize io.loop.onRecv level.val datagram.length = r at hloop
  obtain ⟨admitted, loop⟩ := r
  obtain rfl : loop = _ := hloop
  cases admitted with
  | false => rfl
  | true =>
    simp only [Bool.not_true, Bool.false_eq_true, if_false]
    split
    · rfl
    · split
      · rfl
      · unfold recvAccept dispatchAll
        dsimp only
        obtain ⟨sent, hframes⟩ := dispatchFrames_loop _ _
        rw [hframes]
        split <;> rfl

/-! ## One call -/

theorem AllEliciting.of_sent_eq (h : io.AllEliciting) (hsent : io'.loop.sent = io.loop.sent) :
    io'.AllEliciting := by
  unfold AllEliciting
  rw [hsent]
  exact h

theorem TimerRight.of_eq (h : io.TimerRight) (hsent : io'.loop.sent = io.loop.sent)
    (harmed : io'.loop.ptoArmed = io.loop.ptoArmed) : io'.TimerRight := by
  unfold TimerRight Eliciting
  rw [hsent, harmed]
  exact h

theorem AllEliciting.step (h : io.AllEliciting) (o : ConnioOp) : (io.step aes o).AllEliciting := by
  cases o with
  | send level frames cap =>
    have hloop := io.send_loop aes level frames cap
    rcases io.loop.onSend_cases level.val (io.tx.get level) frames.length with
      ⟨-, hsend⟩ | ⟨-, hsend⟩
    · rw [hsend] at hloop
      exact h.of_sent_eq (congrArg Connloop.sent hloop)
    · rw [hsend] at hloop
      exact h.of_onSend _ _ (congrArg Connloop.sent hloop)
  | pto level pn len =>
    rcases io.loop.onPto_cases level.val pn len with hpto | hpto
    · exact h.of_sent_eq (congrArg (Connloop.sent ·.2) hpto)
    · exact h.of_onSend pn len (congrArg (Connloop.sent ·.2) hpto)
  | recv level datagram =>
    have hsent := io.recv_sent aes level datagram
    cases hopen : io.opens aes level datagram with
    | none =>
      rw [hopen] at hsent
      exact h.of_sent_eq hsent
    | some payload =>
      rw [hopen] at hsent
      exact h.of_remove _ hsent
  | close peerClosed => exact h.of_sent_eq (Connloop.close_sent _ _)
  | install | progress | validate => exact h.of_sent_eq rfl

/-- A received packet leaves the timer right exactly when it does not empty the table. -/
theorem TimerRight.recv_iff (h : io.TimerRight) (hall : io.AllEliciting) (level : Level)
    (datagram : Bytes) :
    (io.step aes (.recv level datagram)).TimerRight ↔
      ¬ io.Empties aes (.recv level datagram) := by
  have hsent := io.recv_sent aes level datagram
  have harmed := io.step_recv_ptoArmed aes level datagram
  cases hopen : io.opens aes level datagram with
  | none =>
    rw [hopen] at hsent
    refine iff_of_true (h.of_eq hsent harmed) ?_
    rintro ⟨-, payload, hpayload, -⟩
    rw [hopen] at hpayload
    cases hpayload
  | some payload =>
    rw [hopen] at hsent
    have hafter : (io.step aes (.recv level datagram)).Eliciting ↔ _ := eliciting_remove_iff _ hsent
    -- armed before is armed after, so the timer is right when `Eliciting` does not change
    unfold TimerRight at h ⊢
    rw [harmed, h, hafter]
    constructor
    · rintro hkeeps ⟨hbefore, payload', hpayload, hcovers⟩
      obtain rfl : payload = payload' := Option.some.inj (hopen.symm.trans hpayload)
      obtain ⟨i, ⟨hflight, -⟩, hnot⟩ := hkeeps.1 hbefore
      rw [hcovers i hflight] at hnot
      cases hnot
    · intro hnot
      refine ⟨fun hbefore => ?_, fun ⟨i, hi, _⟩ => ⟨i, hi⟩⟩
      by_contra hnone
      refine hnot ⟨hbefore, payload, hopen, fun i hflight => ?_⟩
      by_contra hcover
      have hused := (Bool.and_eq_true_iff.1 hflight).1
      exact hnone ⟨i, hall i hused, Bool.eq_false_of_not_eq_true hcover⟩

/-- **One call** leaves the timer right exactly when it does not empty the table. -/
theorem TimerRight.step_iff (h : io.TimerRight) (hall : io.AllEliciting) (o : ConnioOp) :
    (io.step aes o).TimerRight ↔ ¬ io.Empties aes o := by
  have hnext := hall.step aes o
  cases o with
  | recv level datagram => exact h.recv_iff aes hall level datagram
  | send level frames cap =>
    refine iff_of_true ?_ not_false
    have hloop := io.send_loop aes level frames cap
    rcases io.loop.onSend_cases level.val (io.tx.get level) frames.length with
      ⟨-, hsend⟩ | ⟨-, hsend⟩
    · rw [hsend] at hloop
      exact h.of_eq (congrArg Connloop.sent hloop) (congrArg Connloop.ptoArmed hloop)
    · -- `pto_sync` arms the timer exactly when the table is not empty
      unfold TimerRight
      rw [hnext.eliciting_iff]
      simp only [Connio.step, hloop, hsend, Connloop.ptoSync, decide_eq_true_eq, gt_iff_lt]
  | pto level pn len =>
    refine iff_of_true ?_ not_false
    rcases io.loop.onPto_cases level.val pn len with hpto | hpto
    · exact h.of_eq (congrArg (Connloop.sent ·.2) hpto) (congrArg (Connloop.ptoArmed ·.2) hpto)
    · -- the probe itself is recorded, so the table is not empty
      unfold TimerRight
      rw [hnext.eliciting_iff]
      simp only [Connio.step, hpto, Sentpkt.count_onSend_pos]
  | close peerClosed =>
    exact iff_of_true (h.of_eq (Connloop.close_sent _ _) (Connloop.close_ptoArmed _ _)) not_false
  | install | progress | validate => exact iff_of_true (h.of_eq rfl rfl) not_false

/-! ## Runs -/

end Connio

end Conn

end QuicVibe
