import QuicVibe.Loop.Model
import QuicVibe.Tls.ServerGate
/-!
# What a step of the server loop can do

Receiving moves the packet numbers to acknowledge, the request accumulator and the handshake, and
touches nothing the sender uses. Replying adds at most three events to the trace: a sealed Handshake
packet, a call of the handler, and a sealed 1-RTT packet. Every result over a run is read off these.
-/

namespace QuicVibe

namespace Loop

open Crypto Packet Keys Http3 Tls
open QuicVibe.Frame

/-- A received datagram and the room for the reply. -/
abbrev LoopOp := Bytes × ℕ

namespace ServerConn

variable {Ctx : Type} (aes : Block → Block → Block)

/-- The connection after a step. -/
def next (c : ServerConn Ctx) (o : LoopOp) : ServerConn Ctx := (c.step aes o.1 o.2).2

/-- The packets of a datagram, each with the connection and the request it is processed with. -/
def packetSteps (c : ServerConn Ctx) (dgram : Bytes) :
    List ((ServerConn Ctx × Option Request) × Bytes) :=
  Run.steps (stepOne aes) (c, none) (udploopSplit maxPkts dgram)

/-- How a packet opens, if it does. -/
def opens (c : ServerConn Ctx) (pkt : Bytes) : Option (Level × Opened) :=
  recv aes c.server pkt c.loop.appLargestPn

/-! ## Receiving -/

/-- Receiving touches nothing the sender uses. -/
structure Listens (c c' : ServerConn Ctx) : Prop where
  cliScid : c'.loop.cliScid = c.loop.cliScid
  txPn : c'.loop.txPn = c.loop.txPn
  hsTxPn : c'.loop.hsTxPn = c.loop.hsTxPn
  hsDoneSent : c'.loop.hsDoneSent = c.loop.hsDoneSent
  onRequest : c'.loop.onRequest = c.loop.onRequest
  reqCtx : c'.loop.reqCtx = c.loop.reqCtx
  trace : c'.trace = c.trace

theorem Listens.refl (c : ServerConn Ctx) : Listens c c := ⟨rfl, rfl, rfl, rfl, rfl, rfl, rfl⟩

theorem Listens.trans {c₁ c₂ c₃ : ServerConn Ctx} (h : Listens c₁ c₂) (h' : Listens c₂ c₃) :
    Listens c₁ c₃ where
  cliScid := h'.cliScid.trans h.cliScid
  txPn := h'.txPn.trans h.txPn
  hsTxPn := h'.hsTxPn.trans h.hsTxPn
  hsDoneSent := h'.hsDoneSent.trans h.hsDoneSent
  onRequest := h'.onRequest.trans h.onRequest
  reqCtx := h'.reqCtx.trans h.reqCtx
  trace := h'.trace.trans h.trace

variable (c : ServerConn Ctx) (level : Level) (payload : Bytes)
  (st : ServerConn Ctx × Option Request) (req : Option Request)

theorem listens_noteRx (pkt : Bytes) : Listens c (c.noteRx level pkt) := by
  cases level with
  | initial => exact Listens.refl c
  | onertt => exact ⟨rfl, rfl, rfl, rfl, rfl, rfl, rfl⟩
  | handshake =>
    simp only [noteRx, Srvloop.noteAppRx, Srvloop.noteHsRx]
    cases lhdrParse pkt false with
    | none => exact Listens.refl c
    | some h => exact ⟨rfl, rfl, rfl, rfl, rfl, rfl, rfl⟩

@[simp] theorem noteRx_server (pkt : Bytes) :
    (c.noteRx level pkt).server = c.server := rfl

@[simp] theorem noteRx_reqacc (pkt : Bytes) : (c.noteRx level pkt).loop.reqacc = c.loop.reqacc := by
  cases level with
  | initial => rfl
  | onertt => rfl
  | handshake =>
    simp only [noteRx, Srvloop.noteAppRx, Srvloop.noteHsRx]
    cases lhdrParse pkt false <;> rfl

@[simp] theorem dispatchNonRequest_loop : (c.dispatchNonRequest payload).loop = c.loop := by
  simp only [dispatchNonRequest]
  split
  · rfl
  · split <;> rfl

@[simp] theorem dispatchNonRequest_trace : (c.dispatchNonRequest payload).trace = c.trace := by
  simp only [dispatchNonRequest]
  split
  · rfl
  · split <;> rfl

theorem listens_driveComplete : Listens c c.driveComplete.2 := by
  simp only [driveComplete]
  split
  · exact ⟨rfl, rfl, rfl, rfl, rfl, rfl, rfl⟩
  · exact ⟨rfl, rfl, rfl, rfl, rfl, rfl, rfl⟩

theorem listens_dispatch : Listens c (c.dispatch payload).2 := by
  rw [dispatch]
  split
  · have hloop := c.dispatchNonRequest_loop payload
    exact ⟨by rw [hloop], by rw [hloop], by rw [hloop], by rw [hloop], by rw [hloop],
      by rw [hloop], c.dispatchNonRequest_trace payload⟩
  · rw [reassembleAndDrive]
    dsimp only
    split
    · refine Listens.trans ?_ (listens_driveComplete _)
      exact ⟨rfl, rfl, rfl, rfl, rfl, rfl, rfl⟩
    · exact ⟨rfl, rfl, rfl, rfl, rfl, rfl, rfl⟩

/-- **A packet** is skipped, or it opens and its payload is dispatched. -/
theorem stepOne_eq (pkt : Bytes) :
    stepOne aes st pkt = match st.1.opens aes pkt with
      | none => st
      | some (level, opened) =>
        (((st.1.noteRx level opened.pkt).dispatch opened.payload).2,
          ((st.1.noteRx level opened.pkt).dispatch opened.payload).1.or st.2) := by
  unfold stepOne opens
  rcases recv aes st.1.server pkt st.1.loop.appLargestPn with _ | ⟨level, opened⟩ <;> rfl

theorem listens_stepOne (pkt : Bytes) : Listens st.1 (stepOne aes st pkt).1 := by
  rw [stepOne_eq]
  rcases st.1.opens aes pkt with _ | ⟨level, opened⟩
  · exact Listens.refl _
  · exact (listens_noteRx st.1 level opened.pkt).trans (listens_dispatch _ _)

/-- **Receiving a datagram** touches nothing the sender uses. -/
theorem listens_stepPackets (dgram : Bytes) : Listens c (c.stepPackets aes dgram).1 :=
  Run.run_invariant (P := fun st => Listens c st.1) _ (Listens.refl c)
    fun st pkt _ h => h.trans (listens_stepOne aes st pkt)

/-- The Handshake keys stay what they are: a Finished only adds the 1-RTT keys. -/
theorem feed_serverHs (s : Server) (payload : Bytes) :
    (s.feed payload).2.sched.get .serverHs = s.sched.get .serverHs := by
  have hfin : ∀ (s : Server) (msg : Bytes),
      (s.onFinished msg).2.sched.get .serverHs = s.sched.get .serverHs := by
    intro s msg
    simp only [Server.onFinished]
    split
    · rfl
    · split
      · rfl
      · by_cases hstage : s.sched.stage = 1
        · simp [Server.srvfinComplete, Keysched.advanceMaster, Keysched.get, Keysched.available,
            hstage]
        · simp [Server.srvfinComplete, Keysched.advanceMaster, hstage]
  simp only [Server.feed]
  split
  · rfl
  · split
    · rfl
    · rw [hfin]

theorem dispatch_serverHs :
    (c.dispatch payload).2.server.sched.get .serverHs = c.server.sched.get .serverHs := by
  rw [dispatch]
  split
  · simp only [dispatchNonRequest]
    split
    · rfl
    · split
      · rfl
      · exact feed_serverHs c.server payload
  · simp only [reassembleAndDrive, driveComplete]
    split
    · split <;> rfl
    · rfl

theorem stepPackets_serverHs (dgram : Bytes) :
    (c.stepPackets aes dgram).1.server.sched.get .serverHs = c.server.sched.get .serverHs := by
  refine Run.run_invariant
    (P := fun st : ServerConn Ctx × Option Request =>
      st.1.server.sched.get .serverHs = c.server.sched.get .serverHs) _ rfl ?_
  intro st pkt _ h
  rw [stepOne_eq]
  rcases st.1.opens aes pkt with _ | ⟨level, opened⟩
  · exact h
  · rw [dispatch_serverHs]
    exact h

theorem dispatch_of_requestFrames_nil {payload : Bytes} (h : requestFrames payload = []) :
    c.dispatch payload = (none, c.dispatchNonRequest payload) := by
  rw [dispatch, h]
  rfl

/-! ## Replying -/

/-- What sealing at a level does to its counter and to the trace. -/
inductive Seals (level : Level) (key : Option InitialKeys) (pn : ℕ) : ℕ → List Event → Prop
  /-- Nothing was tried. -/
  | kept : Seals level key pn pn []
  /-- The number is used up, but no packet was built. -/
  | spent : Seals level key pn (u64 (pn + 1)) []
  | sealed (k : InitialKeys) (packet : Bytes) (hk : key = some k) :
    Seals level key pn (u64 (pn + 1)) [.sealed level k pn packet]

theorem Seals.not_handled {level : Level} {key : Option InitialKeys} {pn pn' : ℕ}
    {events : List Event} (h : Seals level key pn pn' events) {req : Request} :
    Event.handled req ∉ events := by
  cases h <;> simp

/-- The handler was called for the request of the step, or not at all. -/
def Calls (req : Option Request) (calls : List Event) : Prop :=
  calls = [] ∨ ∃ r, req = some r ∧ calls = [.handled r]

theorem emitHandshakeAck_cases (cap : ℕ) : ∃ n hs,
    (c.emitHandshakeAck aes cap).2 =
      { c with loop := { c.loop with hsTxPn := n }, trace := c.trace ++ hs } ∧
    Seals .handshake (c.server.sched.get .serverHs) c.loop.hsTxPn n hs ∧
    ((c.emitHandshakeAck aes cap).1.isSome ↔ hs ≠ []) := by
  simp only [emitHandshakeAck]
  cases hk : c.server.sched.get .serverHs with
  | none => exact ⟨_, [], by simp, .kept, by simp⟩
  | some k =>
    cases ackOne 16 c.loop.hsRxPn with
    | none => exact ⟨_, [], by simp, .kept, by simp⟩
    | some frames =>
      dsimp only
      cases hspktBuild aes k (aes k.hp) c.loop.cliScid c.server.sdrv.iscid c.loop.hsTxPn frames
        cap with
      | none => exact ⟨_, [], by simp [logSealed], .spent, by simp⟩
      | some packet => exact ⟨_, _, rfl, .sealed k packet rfl, by simp⟩

theorem sendOnertt_cases (cap : ℕ) : ∃ n one,
    (c.sendOnertt aes payload cap).2 =
      { c with loop := { c.loop with txPn := n }, trace := c.trace ++ one } ∧
    Seals .onertt (c.server.sched.get .serverAp) c.loop.txPn n one := by
  simp only [sendOnertt]
  cases hk : c.server.sched.get .serverAp with
  | none => exact ⟨_, [], by simp, .spent⟩
  | some k =>
    dsimp only
    cases onerttBuild aes k (aes k.hp) c.loop.cliScid c.loop.txPn payload cap with
    | none => exact ⟨_, [], by simp [logSealed], .spent⟩
    | some packet => exact ⟨_, _, rfl, .sealed k packet rfl⟩

theorem confirmPayload_cases (cap : ℕ) : ∃ h3 sent,
    (c.confirmPayload cap).2 =
      { c with loop := { c.loop with h3 := h3 }, server := { c.server with hsDoneSent := sent } } := by
  simp only [confirmPayload, buildSettingsFrame]
  rcases c.loop.h3.openControl 64 with ⟨_ | ctl, h3⟩
  · exact ⟨h3, c.server.hsDoneSent, rfl⟩
  · dsimp only
    cases putStream cap { streamId := 3, offset := 0, data := ctl, fin := false } with
    | none => exact ⟨h3, c.server.hsDoneSent, rfl⟩
    | some settings =>
      dsimp only
      rcases c.server.handshakeDone_cases (cap - settings.length) with hdone | ⟨-, -, hdone⟩
      · rw [hdone]
        exact ⟨h3, c.server.hsDoneSent, rfl⟩
      · rw [hdone]
        exact ⟨h3, true, rfl⟩

theorem buildBody_cases (r : Request) :
    (c.loop.onRequest = none ∧ c.buildBody r = ([], c)) ∨
    ∃ body ctx, c.loop.onRequest ≠ none ∧ c.buildBody r = (body,
      { c with loop := { c.loop with reqCtx := ctx }, trace := c.trace ++ [.handled r] }) := by
  rcases Option.eq_none_or_eq_some c.loop.onRequest with hon | ⟨handler, hon⟩
  · exact Or.inl ⟨hon, by rw [buildBody, hon]⟩
  · exact Or.inr ⟨_, _, by rw [hon]; simp, by rw [buildBody, hon]⟩

theorem responseFrame_cases (cap : ℕ) : ∃ ctx calls,
    (c.responseFrame req cap).2 =
      { c with loop := { c.loop with reqCtx := ctx }, trace := c.trace ++ calls } ∧
    Calls req calls := by
  cases req with
  | none => exact ⟨c.loop.reqCtx, [], by simp [responseFrame], Or.inl rfl⟩
  | some r =>
    simp only [responseFrame]
    rcases c.buildBody_cases r with ⟨-, hbody⟩ | ⟨body, ctx, -, hbody⟩
    · rw [hbody]
      exact ⟨c.loop.reqCtx, [], by simp, Or.inl rfl⟩
    · rw [hbody]
      exact ⟨ctx, _, rfl, Or.inr ⟨r, rfl, rfl⟩⟩

/-- What the 1-RTT part of a reply does. -/
structure Answers (req : Option Request) (c c' : ServerConn Ctx) (calls one : List Event) :
    Prop where
  trace : c'.trace = c.trace ++ (calls ++ one)
  handler : Calls req calls
  onertt : Seals .onertt (c.server.sched.get .serverAp) c.loop.txPn c'.loop.txPn one
  hsTxPn : c'.loop.hsTxPn = c.loop.hsTxPn
  sched : c'.server.sched = c.server.sched
  reqacc : c'.loop.reqacc = c.loop.reqacc

theorem answers_sealConfirmOnertt (cap : ℕ) :
    ∃ calls one, Answers req c (c.sealConfirmOnertt aes req cap).2 calls one := by
  simp only [sealConfirmOnertt, confirmThenMaybe200]
  obtain ⟨h3, sent, h₁⟩ := c.confirmPayload_cases payloadMax
  generalize c.confirmPayload payloadMax = r at h₁ ⊢
  rcases r with ⟨_ | confirm, c₁⟩
  · dsimp only at h₁ ⊢
    subst h₁
    exact ⟨[], [], by simp, Or.inl rfl, .kept, rfl, rfl, rfl⟩
  · obtain ⟨ctx, calls, h₂, hcalls⟩ := c₁.responseFrame_cases req (payloadMax - confirm.length)
    dsimp only at h₁ ⊢
    generalize c₁.responseFrame req (payloadMax - confirm.length) = r at h₂ ⊢
    rcases r with ⟨_ | resp, c₂⟩
    · dsimp only at h₂ ⊢
      subst h₂ h₁
      exact ⟨calls, [], by simp, hcalls, .kept, rfl, rfl, rfl⟩
    · dsimp only at h₂ ⊢
      obtain ⟨n, one, h₃, hseal⟩ := c₂.sendOnertt_cases aes
        (confirm ++ resp ++ c₂.appAckAppend (payloadMax - (confirm ++ resp).length)) cap
      rw [h₃]
      subst h₂ h₁
      exact ⟨calls, one, by simp, hcalls, hseal, rfl, rfl, rfl⟩

theorem answers_produceConfirmed (cap : ℕ) :
    ∃ calls one, Answers req c (c.produceConfirmed aes req cap).2 calls one := by
  cases req with
  | none =>
    simp only [produceConfirmed, emitAckOnly]
    split
    · exact ⟨[], [], by simp, Or.inl rfl, .kept, rfl, rfl, rfl⟩
    · obtain ⟨n, one, h, hseal⟩ := c.sendOnertt_cases aes (c.appAckAppend 16) cap
      rw [h]
      exact ⟨[], one, by simp, Or.inl rfl, hseal, rfl, rfl, rfl⟩
  | some r =>
    simp only [produceConfirmed, emitResponse]
    obtain ⟨ctx, calls, h₁, hcalls⟩ := c.responseFrame_cases (some r) payloadMax
    generalize c.responseFrame (some r) payloadMax = out at h₁ ⊢
    rcases out with ⟨_ | resp, c₁⟩
    · dsimp only at h₁ ⊢
      subst h₁
      exact ⟨calls, [], by simp, hcalls, .kept, rfl, rfl, rfl⟩
    · dsimp only at h₁ ⊢
      obtain ⟨n, one, h₂, hseal⟩ := c₁.sendOnertt_cases aes
        (resp ++ c₁.appAckAppend (payloadMax - resp.length)) cap
      rw [h₂]
      subst h₁
      exact ⟨calls, one, by simp, hcalls, hseal, rfl, rfl, rfl⟩

/-- **What replying does**: at most a sealed Handshake packet, a call of the handler for the request
of the step, and a sealed 1-RTT packet, in this order. The Handshake packet is sealed only while the
confirmation is pending, and then whenever it can be built. -/
structure Replies (req : Option Request) (cap : ℕ) (c c' : ServerConn Ctx)
    (hs calls one : List Event) : Prop where
  trace : c'.trace = c.trace ++ (hs ++ (calls ++ one))
  handshake : Seals .handshake (c.server.sched.get .serverHs) c.loop.hsTxPn c'.loop.hsTxPn hs
  pending : hs ≠ [] ↔ c.loop.hsDoneSent = false ∧ (c.emitHandshakeAck aes cap).1.isSome
  handler : Calls req calls
  onertt : Seals .onertt (c.server.sched.get .serverAp) c.loop.txPn c'.loop.txPn one
  sched : c'.server.sched = c.server.sched
  reqacc : c'.loop.reqacc = c.loop.reqacc

theorem replies_emitConfirm (hpending : c.loop.hsDoneSent = false) (req : Option Request)
    (cap : ℕ) : ∃ hs calls one, Replies aes req cap c (c.emitConfirm aes req cap).2 hs calls one := by
  simp only [emitConfirm]
  obtain ⟨n, hs, h₁, hseal, hsome⟩ := c.emitHandshakeAck_cases aes cap
  have hpend : hs ≠ [] ↔ c.loop.hsDoneSent = false ∧ (c.emitHandshakeAck aes cap).1.isSome := by
    rw [hsome, hpending, and_iff_right rfl]
  generalize hack : c.emitHandshakeAck aes cap = r at h₁ ⊢
  rcases r with ⟨_ | ack, c₁⟩
  · dsimp only at h₁ ⊢
    subst h₁
    exact ⟨hs, [], [], by simp, hseal, hpend, Or.inl rfl, .kept, rfl, rfl⟩
  · obtain ⟨calls, one, h⟩ := c₁.answers_sealConfirmOnertt aes req (cap - ack.length)
    dsimp only at h₁ ⊢
    have hfinal : ∀ c', Answers req c₁ c' calls one → Replies aes req cap c c' hs calls one := by
      intro c' h
      subst h₁
      exact ⟨by simp [h.trace], h.hsTxPn.symm ▸ hseal, hpend, h.handler, h.onertt, h.sched,
        h.reqacc⟩
    generalize c₁.sealConfirmOnertt aes req (cap - ack.length) = r at h ⊢
    rcases r with ⟨_ | out, c₂⟩
    · exact ⟨hs, calls, _, hfinal _ h⟩
    · exact ⟨hs, calls, _, hfinal _ h⟩

theorem replies_produce (cap : ℕ) :
    ∃ hs calls one, Replies aes req cap c (c.produce aes req cap).2 hs calls one := by
  by_cases hdone : c.loop.hsDoneSent = true
  · have hprod : c.produce aes req cap = c.produceConfirmed aes req cap := by
      rw [produce, hdone]
      rfl
    obtain ⟨calls, one, h⟩ := c.answers_produceConfirmed aes req cap
    rw [hprod]
    exact ⟨[], calls, one, by simp [h.trace], h.hsTxPn.symm ▸ .kept, by simp [hdone], h.handler,
      h.onertt, h.sched, h.reqacc⟩
  · have hpending : c.loop.hsDoneSent = false := Bool.eq_false_iff.2 hdone
    obtain ⟨hs, calls, one, h⟩ := c.replies_emitConfirm aes hpending req cap
    simp only [produce, hpending, Bool.not_false, if_true]
    generalize c.emitConfirm aes req cap = r at h ⊢
    rcases r with ⟨_ | out, c₁⟩
    · exact ⟨hs, calls, one, h⟩
    · exact ⟨hs, calls, one, { h with }⟩

@[simp] theorem rearmReqacc_trace : (c.rearmReqacc req).trace = c.trace := by
  cases req <;> rfl

@[simp] theorem rearmReqacc_server : (c.rearmReqacc req).server = c.server := by
  cases req <;> rfl

@[simp] theorem rearmReqacc_txPn : (c.rearmReqacc req).loop.txPn = c.loop.txPn := by
  cases req <;> rfl

@[simp] theorem rearmReqacc_hsTxPn : (c.rearmReqacc req).loop.hsTxPn = c.loop.hsTxPn := by
  cases req <;> rfl

theorem next_eq (o : LoopOp) :
    c.next aes o = rearmReqacc
      ((c.stepPackets aes o.1).1.produce aes (c.stepPackets aes o.1).2 o.2).2
      (c.stepPackets aes o.1).2 := rfl

/-! ## The flight -/

/-- Sealing the flight adds the Initial packet 1 and the Handshake packet 0, if they can be built,
and changes nothing else. -/
theorem sealAndSend_cases (serverScid sh flight : Bytes) : ∃ ini hs,
    c.sealAndSend aes serverScid sh flight = { c with trace := c.trace ++ (ini ++ hs) } ∧
    (ini = [] ∨ ∃ k p, ini = [.sealed .initial k 1 p]) ∧
    (hs = [] ∨ ∃ k p, c.server.sched.get .serverHs = some k ∧ hs = [.sealed .handshake k 0 p]) := by
  have hini : ∃ ini, (c.sendInitial aes 1 (some 0) sh 1500).2 = { c with trace := c.trace ++ ini } ∧
      (ini = [] ∨ ∃ k p, ini = [.sealed .initial k 1 p]) := by
    simp only [sendInitial]
    generalize (emitFrames (some 0) sh 1200 >>= _ : Option Bytes) = packet
    cases packet with
    | none => exact ⟨[], by simp [logSealed], Or.inl rfl⟩
    | some p => exact ⟨_, rfl, Or.inr ⟨_, p, rfl⟩⟩
  have hhs : ∀ c : ServerConn Ctx, ∃ hs,
      (c.sendHandshake aes serverScid 0 none flight 1500).2 = { c with trace := c.trace ++ hs } ∧
      (hs = [] ∨ ∃ k p, c.server.sched.get .serverHs = some k ∧
        hs = [.sealed .handshake k 0 p]) := by
    intro c
    simp only [sendHandshake]
    cases hk : c.server.sched.get .serverHs with
    | none => exact ⟨[], by simp, Or.inl rfl⟩
    | some k =>
      dsimp only
      generalize (emitFrames none flight 2048 >>= _ : Option Bytes) = packet
      cases packet with
      | none => exact ⟨[], by simp [logSealed], Or.inl rfl⟩
      | some p => exact ⟨_, rfl, Or.inr ⟨k, p, rfl, rfl⟩⟩
  obtain ⟨ini, h₁, hini⟩ := hini
  obtain ⟨hs, h₂, hhs⟩ := hhs { c with trace := c.trace ++ ini }
  refine ⟨ini, hs, ?_, hini, hhs⟩
  rw [sealAndSend, h₁, h₂, List.append_assoc]

end ServerConn

end Loop

end QuicVibe
