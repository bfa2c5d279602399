import QuicVibe.Loop.Session

/-!
# Where requests come from

Requests belong to 1-RTT packets, but the dispatcher does not look at the level a packet was opened
at: packets below 1-RTT leave the accumulator alone as long as none carries a request frame. Nor does
the loop remember which packets it has processed. A 1-RTT datagram that arrives again opens again, and
the request in it is answered again; a copy without request frames does nothing.
-/

namespace QuicVibe

namespace Loop

open Crypto Packet Keys Http3 Tls
open QuicVibe.Frame

namespace ServerConn

variable {Ctx : Type} (aes : Block → Block → Block)

/-- The packet does not open at a level below 1-RTT, or carries no request frame. -/
def Separated (p : (ServerConn Ctx × Option Request) × Bytes) : Prop :=
  ∀ level opened, p.1.1.opens aes p.2 = some (level, opened) → level ≠ .onertt →
    requestFrames opened.payload = []

/-- The packet opens under the 1-RTT key and carries a request frame. -/
def CarriesRequest (p : (ServerConn Ctx × Option Request) × Bytes) : Prop :=
  ∃ opened, p.1.1.opens aes p.2 = some (.onertt, opened) ∧ requestFrames opened.payload ≠ []

/-- The request handler was called in the step from `c` to `c'`. -/
def HandlerCalled (c c' : ServerConn Ctx) : Prop :=
  ∃ events req, c'.trace = c.trace ++ events ∧ Event.handled req ∈ events

/-! ## One packet -/

variable (c : ServerConn Ctx)

theorem dispatch_of_nil {payload : Bytes} (h : requestFrames payload = []) :
    (c.dispatch payload).1 = none ∧ (c.dispatch payload).2.loop.reqacc = c.loop.reqacc := by
  rw [c.dispatch_of_requestFrames_nil h]
  exact ⟨rfl, by rw [dispatchNonRequest_loop]⟩

theorem stepOne_of_nil {st : ServerConn Ctx × Option Request} {pkt : Bytes}
    (h : ∀ level opened, st.1.opens aes pkt = some (level, opened) →
      requestFrames opened.payload = []) :
    (stepOne aes st pkt).1.loop.reqacc = st.1.loop.reqacc ∧ (stepOne aes st pkt).2 = st.2 := by
  rw [stepOne_eq]
  cases hopen : st.1.opens aes pkt with
  | none => exact ⟨rfl, rfl⟩
  | some lo =>
    obtain ⟨level, opened⟩ := lo
    obtain ⟨hreq, hacc⟩ := (st.1.noteRx level opened.pkt).dispatch_of_nil (h level opened hopen)
    rw [noteRx_reqacc] at hacc
    exact ⟨hacc, congrArg (·.or st.2) hreq⟩

/-! ## One datagram -/

theorem stepPackets_of_nil {dgram : Bytes}
    (h : ∀ p ∈ c.packetSteps aes dgram, ∀ level opened, p.1.1.opens aes p.2 = some (level, opened) →
      requestFrames opened.payload = []) :
    (c.stepPackets aes dgram).1.loop.reqacc = c.loop.reqacc ∧ (c.stepPackets aes dgram).2 = none :=
  Run.run_of_steps
    (P := fun st : ServerConn Ctx × Option Request => st.1.loop.reqacc = c.loop.reqacc ∧ st.2 = none)
    ⟨rfl, rfl⟩ fun st pkt hmem hst => by
      obtain ⟨hacc, hreq⟩ := stepOne_of_nil aes (h (st, pkt) hmem)
      exact ⟨hacc.trans hst.1, hreq.trans hst.2⟩

/-- Without a decoded request the reply calls no handler and the step keeps the accumulator. -/
theorem next_of_no_request {o : LoopOp} (hacc : (c.stepPackets aes o.1).1.loop.reqacc = c.loop.reqacc)
    (hreq : (c.stepPackets aes o.1).2 = none) :
    (c.next aes o).loop.reqacc = c.loop.reqacc ∧ ¬ HandlerCalled c (c.next aes o) := by
  obtain ⟨hs, calls, one, htx⟩ :=
    (c.stepPackets aes o.1).1.replies_produce aes (c.stepPackets aes o.1).2 o.2
  have hrx := c.listens_stepPackets aes o.1
  have htrace : (c.next aes o).trace = c.trace ++ (hs ++ (calls ++ one)) := by
    rw [next_eq, rearmReqacc_trace, htx.trace, hrx.trace]
  constructor
  · rw [next_eq, hreq]
    rw [hreq] at htx
    exact htx.reqacc.trans hacc
  · rintro ⟨events, req, heq, hmem⟩
    rw [htrace] at heq
    obtain rfl := List.append_cancel_left heq
    rcases htx.handler with rfl | ⟨r, hr, -⟩
    · rcases List.mem_append.1 hmem with hmem | hmem
      · exact htx.handshake.not_handled hmem
      · exact htx.onertt.not_handled hmem
    · rw [hreq] at hr
      cases hr

/-! ## Runs -/

/-- **Requests come from 1-RTT packets** in every run whose packets below 1-RTT carry no request
frame: such packets leave the accumulator and the decoded request alone, and a step that changes the
accumulator or has the handler called holds an authenticated 1-RTT packet with a request frame. -/
theorem requests_from_onertt (c : ServerConn Ctx) (ops : List LoopOp)
    (h : ∀ e ∈ Run.steps (next aes) c ops, ∀ p ∈ e.1.packetSteps aes e.2.1, Separated aes p) :
    ∀ e ∈ Run.steps (next aes) c ops,
      (∀ p ∈ e.1.packetSteps aes e.2.1, ∀ level opened,
        p.1.1.opens aes p.2 = some (level, opened) → level ≠ .onertt →
        (stepOne aes p.1 p.2).1.loop.reqacc = p.1.1.loop.reqacc ∧
          (stepOne aes p.1 p.2).2 = p.1.2) ∧
      ((e.1.next aes e.2).loop.reqacc ≠ e.1.loop.reqacc ∨ HandlerCalled e.1 (e.1.next aes e.2) →
        ∃ p ∈ e.1.packetSteps aes e.2.1, CarriesRequest aes p) := by
  intro e he
  constructor
  · intro p hp level opened hopen hlevel
    refine stepOne_of_nil aes fun level' opened' hopen' => ?_
    obtain ⟨rfl, rfl⟩ := Prod.mk.inj (Option.some.inj (hopen.symm.trans hopen'))
    exact h e he p hp level opened hopen hlevel
  · intro hchange
    by_contra hnone
    -- without such a packet no packet of the datagram takes part in requests at all
    obtain ⟨hacc, hreq⟩ := e.1.stepPackets_of_nil aes fun p hp level opened hopen => by
      by_cases hlevel : level = .onertt
      · subst hlevel
        by_contra hne
        exact hnone ⟨p, hp, opened, hopen, hne⟩
      · exact h e he p hp level opened hopen hlevel
    obtain ⟨hkeep, hcalled⟩ := e.1.next_of_no_request aes hacc hreq
    rcases hchange with hchange | hchange
    · exact hchange hkeep
    · exact hcalled hchange

theorem separated_of_onertt {dgram : Bytes} (hsplit : udploopSplit maxPkts dgram = [dgram])
    {opened : Opened} (hopen : c.opens aes dgram = some (.onertt, opened)) :
    ∀ p ∈ c.packetSteps aes dgram, Separated aes p := by
  rw [packetSteps, hsplit]
  simp only [Run.steps_cons, Run.steps_nil, List.mem_singleton, forall_eq]
  intro level opened' h hlevel
  rw [hopen] at h
  cases h
  exact absurd rfl hlevel

/-- The session whose first request comes in a 1-RTT packet. -/
theorem requests_from_onertt_session :
    (∀ e ∈ Run.steps (next aes128) Session.confirmed [(Session.onertt Session.get, 1500)],
      ∀ p ∈ e.1.packetSteps aes128 e.2.1, Separated aes128 p) ∧
    ∃ p ∈ Session.confirmed.packetSteps aes128 (Session.onertt Session.get),
      CarriesRequest aes128 p := by
  have hsplit := Session.split_onertt Session.get
  have hopen := Session.opens_onertt Session.get (by decide)
  have hserving := Session.confirmed_eq.1
  -- what the connection and the datagram are plays no part from here
  generalize Session.onertt Session.get = dgram at hsplit hopen ⊢
  generalize Session.confirmed = c at hopen hserving ⊢
  have hsep : ∀ e ∈ Run.steps (next aes128) c [(dgram, 1500)],
      ∀ p ∈ e.1.packetSteps aes128 e.2.1, Separated aes128 p := by
    simpa using c.separated_of_onertt aes128 hsplit hopen
  obtain ⟨one, htrace, -, -, -⟩ := hserving.next aes128 c hsplit hopen Session.requests_get 1500
  exact ⟨hsep, (requests_from_onertt aes128 c _ hsep (c, (dgram, 1500)) (by simp)).2
    (Or.inr ⟨_, Session.getRequest, htrace, by simp⟩)⟩

/-- **An Initial packet has the handler called**: its keys come from the connection id on the wire,
and the request in it changes the accumulator and is answered. -/
theorem initial_packet_handled :
    udploopSplit maxPkts Session.forged = [Session.forged] ∧
    (∃ pkt, Session.confirmed.opens aes128 Session.forged =
      some (.initial, { pkt := pkt, payload := Session.get })) ∧
    (Session.confirmed.stepPackets aes128 Session.forged).1.loop.reqacc ≠
      Session.confirmed.loop.reqacc ∧
    HandlerCalled Session.confirmed (Session.confirmed.next aes128 (Session.forged, 1500)) := by
  obtain ⟨hserving, -⟩ := Session.confirmed_eq
  obtain ⟨pkt, hopen⟩ := Session.opens_forged
  refine ⟨Session.split_forged, ⟨pkt, hopen⟩, ?_, ?_⟩
  · obtain ⟨acc, -, hdone, hdispatch⟩ := (Session.confirmed.noteRx .initial pkt).dispatch_of_requests
      (by rw [noteRx_reqacc]; exact hserving.ready) Session.requests_get
    rw [Session.confirmed.stepPackets_single aes128 Session.split_forged hopen, hdispatch]
    intro hsame
    have hready := hserving.ready.2.2
    rw [← hsame, hdone] at hready
    cases hready
  · obtain ⟨one, htrace, -, -, -⟩ := Serving.next aes128 Session.confirmed hserving
      Session.split_forged hopen Session.requests_get 1500
    exact ⟨_, Session.getRequest, htrace, List.mem_cons_self ..⟩

/-- Some packet of the datagram opens under the 1-RTT key. -/
def Authenticated (dgram : Bytes) : Prop :=
  ∃ p ∈ c.packetSteps aes dgram, ∃ opened, p.1.1.opens aes p.2 = some (.onertt, opened)

/-- In the run `ops` from `c`, the connection is `c₂` when it receives a datagram that it has
received, and authenticated, before. -/
def Replayed (ops : List LoopOp) (c₂ : ServerConn Ctx) (dgram : Bytes) : Prop :=
  ∃ past cap mid cap' rest, ops = past ++ (dgram, cap) :: (mid ++ (dgram, cap') :: rest) ∧
    (Run.run (next aes) c past).Authenticated aes dgram ∧
    c₂ = Run.run (next aes) c (past ++ (dgram, cap) :: mid)

/-- No packet of the datagram opens to a payload with a request frame. -/
def Inert (dgram : Bytes) : Prop :=
  ∀ p ∈ c.packetSteps aes dgram, ∀ level opened, p.1.1.opens aes p.2 = some (level, opened) →
    requestFrames opened.payload = []

/-- **Replay safety** of every run whose replayed datagrams are inert: a second copy changes neither
the accumulator nor calls the handler. -/
theorem replays_ignored (ops : List LoopOp)
    (h : ∀ c₂ dgram, c.Replayed aes ops c₂ dgram → c₂.Inert aes dgram) :
    ∀ c₂ dgram, c.Replayed aes ops c₂ dgram →
      (c₂.stepPackets aes dgram).1.loop.reqacc = c₂.loop.reqacc ∧ ∀ cap,
        (c₂.next aes (dgram, cap)).loop.reqacc = c₂.loop.reqacc ∧
          ¬ HandlerCalled c₂ (c₂.next aes (dgram, cap)) := by
  intro c₂ dgram hreplay
  obtain ⟨hacc, hreq⟩ := c₂.stepPackets_of_nil aes (h c₂ dgram hreplay)
  exact ⟨hacc, fun cap => c₂.next_of_no_request aes (o := (dgram, cap)) hacc hreq⟩

/-! ## A packet received twice -/

section

variable {k : InitialKeys} {payload : Bytes} {pn : ℕ}

theorem noteRx_onerttPacket (k : InitialKeys) (pn : ℕ) (payload : Bytes) :
    (c.noteRx .onertt (openedPacket aes k onerttByte0 c.server.sdrv.iscid pn payload).pkt).loop =
      { c.loop with appRxPn := pnumDecode (putBe 4 pn) c.loop.appLargestPn, appRxSeen := true } := by
  have hlen : (putBe 4 pn).length = 4 := length_putBe 4 pn
  have hbyte : pnLenOf onerttByte0 = 4 := rfl
  simp [noteRx, Srvloop.noteAppRx, Srvloop.noteHsRx, openedPacket, hbyte, Nat.add_comm 1,
    List.take_left' hlen]

/-- **A 1-RTT request is served**, and its number is the largest afterwards. -/
theorem Serving.next_onertt (h : Serving c) (hk : c.server.sched.get .clientAp = some k)
    {req : Request} (hreq : Requests payload req)
    (hpn : pnumDecode (putBe 4 pn) c.loop.appLargestPn = pn) (cap : ℕ) :
    let c' := c.next aes (onerttPacket aes k c.server.sdrv.iscid pn payload, cap)
    (∃ one, c'.trace = c.trace ++ (.handled req :: one)) ∧ Serving c' ∧ c'.server = c.server ∧
      c'.loop.appLargestPn = pn := by
  obtain ⟨one, htrace, hserving, hserver, hlargest⟩ := h.next aes c
    (udploopSplit_short aes 7 k (aes k.hp) c.server.sdrv.iscid pn payload)
    (c.opens_onerttPacket aes hk hreq.ne_nil pn hpn) hreq cap
  rw [noteRx_onerttPacket, hpn] at hlargest
  exact ⟨⟨one, htrace⟩, hserving, hserver, hlargest⟩

theorem dispatch_of_streams (hnil : requestFrames payload = [])
    (hstream : ((walk payload).any fun f => isStream f.type) = true) :
    c.dispatch payload = (none, c) := by
  rw [c.dispatch_of_requestFrames_nil hnil]
  simp only [dispatchNonRequest, hstream, if_true]
  split <;> rfl

theorem Serving.next_streams (h : Serving c) (hk : c.server.sched.get .clientAp = some k)
    (hnil : requestFrames payload = [])
    (hstream : ((walk payload).any fun f => isStream f.type) = true)
    (hpn : pnumDecode (putBe 4 pn) c.loop.appLargestPn = pn) (cap : ℕ) :
    let c' := c.next aes (onerttPacket aes k c.server.sdrv.iscid pn payload, cap)
    c'.server = c.server ∧ c'.loop.appLargestPn = pn := by
  intro c'
  have hne : payload ≠ [] := by
    rintro rfl
    cases hstream
  have hpackets := c.stepPackets_single aes
    (udploopSplit_short aes 7 k (aes k.hp) c.server.sdrv.iscid pn payload)
    (c.opens_onerttPacket aes hk hne pn hpn)
  have hserver := c.noteRx_server .onertt
    (openedPacket aes k onerttByte0 c.server.sdrv.iscid pn payload).pkt
  have hloop := c.noteRx_onerttPacket aes k pn payload
  generalize hc₁ : c.noteRx .onertt _ = c₁ at hpackets hserver hloop
  rw [show (openedPacket aes k onerttByte0 c.server.sdrv.iscid pn payload).payload = payload from rfl,
    c₁.dispatch_of_streams hnil hstream, ← onerttPacket] at hpackets
  have hdone : c₁.loop.hsDoneSent = true := by rw [hloop]; exact h.confirmed
  have hc' : c' = (c₁.emitAckOnly aes cap).2 := by
    simp only [c', next_eq, hpackets, produce, hdone, produceConfirmed]
    rfl
  have hlargest : c₁.loop.appLargestPn = pn := by rw [hloop, hpn]; rfl
  rw [hc', emitAckOnly]
  split
  · exact ⟨hserver, hlargest⟩
  · obtain ⟨n, one, hsend, -⟩ := c₁.sendOnertt_cases aes (c₁.appAckAppend 16) cap
    rw [hsend]
    exact ⟨hserver, hlargest⟩

end

theorem replayed_pair_iff {d d' : Bytes} {cap cap' : ℕ} {c₂ : ServerConn Ctx} :
    c.Replayed aes [(d, cap), (d, cap')] c₂ d' ↔
      d' = d ∧ c.Authenticated aes d ∧ c₂ = c.next aes (d, cap) := by
  constructor
  · rintro ⟨past, cap₁, mid, cap₂, rest, hops, hauth, hc₂⟩
    have hlen := congrArg List.length hops
    simp only [List.length_append, List.length_cons, List.length_nil] at hlen
    obtain rfl := List.eq_nil_of_length_eq_zero (l := past) (by omega)
    obtain rfl := List.eq_nil_of_length_eq_zero (l := mid) (by omega)
    simp only [List.nil_append, List.cons.injEq, Prod.mk.injEq] at hops
    obtain ⟨⟨rfl, rfl⟩, -⟩ := hops
    exact ⟨rfl, hauth, hc₂⟩
  · rintro ⟨rfl, hauth, rfl⟩
    exact ⟨[], cap, [], cap', [], rfl, hauth, rfl⟩

section

variable {dgram : Bytes} (hsplit : udploopSplit maxPkts dgram = [dgram])

include hsplit

theorem authenticated_single {opened : Opened}
    (hopen : c.opens aes dgram = some (.onertt, opened)) : c.Authenticated aes dgram := by
  rw [Authenticated, packetSteps, hsplit]
  exact ⟨_, List.mem_cons_self .., opened, hopen⟩

theorem inert_single {level : Level} {opened : Opened}
    (hopen : c.opens aes dgram = some (level, opened)) (hnil : requestFrames opened.payload = []) :
    c.Inert aes dgram := by
  rw [Inert, packetSteps, hsplit]
  simp only [Run.steps_cons, Run.steps_nil, List.mem_singleton, forall_eq, hopen]
  rintro level' opened' ⟨⟩
  exact hnil

end

section

variable {k : InitialKeys} (payload : Bytes) (pn : ℕ) (h : Serving c)
  (hk : c.server.sched.get .clientAp = some k)
  (hpn : pnumDecode (putBe 4 pn) c.loop.appLargestPn = pn)
  (hagain : pnumDecode (putBe 4 pn) pn = pn) (cap : ℕ)

include h hk hpn hagain

/-- A second copy of a packet without requests opens again, to nothing. -/
theorem Serving.replayed_streams (hnil : requestFrames payload = [])
    (hstream : ((walk payload).any fun f => isStream f.type) = true) :
    let dgram := onerttPacket aes k c.server.sdrv.iscid pn payload
    c.Authenticated aes dgram ∧ (c.next aes (dgram, cap)).Inert aes dgram := by
  intro dgram
  have hne : payload ≠ [] := by
    rintro rfl
    cases hstream
  have hsplit := udploopSplit_short aes 7 k (aes k.hp) c.server.sdrv.iscid pn payload
  obtain ⟨hserver, hlargest⟩ := h.next_streams aes c hk hnil hstream hpn cap
  have hopen := (c.next aes (dgram, cap)).opens_onerttPacket aes (by rw [hserver]; exact hk) hne pn
    (by rw [hlargest]; exact hagain)
  rw [hserver] at hopen
  exact ⟨c.authenticated_single aes hsplit (c.opens_onerttPacket aes hk hne pn hpn),
    inert_single aes _ hsplit hopen hnil⟩

theorem Serving.replayed_request {req : Request} (hreq : Requests payload req) (cap' : ℕ) :
    let dgram := onerttPacket aes k c.server.sdrv.iscid pn payload
    let c₂ := c.next aes (dgram, cap)
    c.Replayed aes [(dgram, cap), (dgram, cap')] c₂ dgram ∧ HandlerCalled c c₂ ∧
      HandlerCalled c₂ (c₂.next aes (dgram, cap')) := by
  intro dgram c₂
  have hsplit := udploopSplit_short aes 7 k (aes k.hp) c.server.sdrv.iscid pn payload
  have hopen := c.opens_onerttPacket aes hk hreq.ne_nil pn hpn
  obtain ⟨⟨one, htrace⟩, hserving, hserver, hlargest⟩ := h.next_onertt aes c hk hreq hpn cap
  obtain ⟨⟨two, htrace'⟩, -⟩ := hserving.next_onertt aes c₂ (by rw [hserver]; exact hk) hreq
    (by rw [hlargest]; exact hagain) cap'
  rw [hserver] at htrace'
  exact ⟨(c.replayed_pair_iff aes).2 ⟨rfl, c.authenticated_single aes hsplit hopen, rfl⟩,
    ⟨_, req, htrace, List.mem_cons_self ..⟩, ⟨_, req, htrace', List.mem_cons_self ..⟩⟩

end

/-- The session in which a packet with the client's control stream arrives twice. -/
theorem replays_ignored_session :
    let dgram := Session.onertt [0x0b, 0x02, 0x01, 0x00]
    let ops := [(dgram, 1500), (dgram, 1500)]
    let c₂ := Session.confirmed.next aes128 (dgram, 1500)
    Session.confirmed.Replayed aes128 ops c₂ dgram ∧
    (∀ c₂ dgram, Session.confirmed.Replayed aes128 ops c₂ dgram → c₂.Inert aes128 dgram) ∧
    ¬ HandlerCalled c₂ (c₂.next aes128 (dgram, 1500)) := by
  obtain ⟨hserving, hlargest, hiscid⟩ := Session.confirmed_serving
  obtain ⟨hauth, hinert⟩ := hserving.replayed_streams aes128 _ [0x0b, 0x02, 0x01, 0x00] 0
    Session.get_clientAp (by rw [hlargest]; decide) (by decide) 1500
    (by decide) (by decide)
  rw [hiscid, ← Session.onertt] at hauth hinert
  generalize Session.onertt [0x0b, 0x02, 0x01, 0x00] = dgram at hauth hinert ⊢
  generalize Session.confirmed = c at hauth hinert ⊢
  have hreplayed : c.Replayed aes128 [(dgram, 1500), (dgram, 1500)] (c.next aes128 (dgram, 1500)) dgram :=
    (c.replayed_pair_iff aes128).2 ⟨rfl, hauth, rfl⟩
  have hops : ∀ c₂ d, c.Replayed aes128 [(dgram, 1500), (dgram, 1500)] c₂ d → c₂.Inert aes128 d := by
    intro c₂ d hc₂
    obtain ⟨rfl, -, rfl⟩ := (c.replayed_pair_iff aes128).1 hc₂
    exact hinert
  exact ⟨hreplayed, hops, ((replays_ignored aes128 c _ hops _ _ hreplayed).2 1500).2⟩

/-- **A replayed request is answered twice**: the copy opens again and the handler is called again
for it. -/
theorem replay_handled_twice :
    let dgram := Session.onertt Session.get
    let c₂ := Session.confirmed.next aes128 (dgram, 1500)
    Session.confirmed.Replayed aes128 [(dgram, 1500), (dgram, 1500)] c₂ dgram ∧
    HandlerCalled Session.confirmed c₂ ∧ HandlerCalled c₂ (c₂.next aes128 (dgram, 1500)) := by
  obtain ⟨hserving, hlargest, hiscid⟩ := Session.confirmed_serving
  have htwice := hserving.replayed_request aes128 _ _ 0 Session.get_clientAp
    (by rw [hlargest]; decide) (by decide) 1500 Session.requests_get 1500
  rw [hiscid, ← Session.onertt] at htwice
  exact htwice

end ServerConn

end Loop

end QuicVibe
