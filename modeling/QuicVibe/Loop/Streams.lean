import QuicVibe.Loop.Assembly
/-!
# Request streams side by side

The accumulator does not know which stream its bytes came on, `response_frame` answers every request
on stream 0, and a stream whose contents do not decode closes the accumulator for good
(`rearm_reqacc`).
-/

namespace QuicVibe

namespace Loop

open Crypto Packet Keys Http3 Tls
open QuicVibe.Frame

namespace ServerConn

variable {Ctx : Type} (aes : Block → Block → Block)

/-! ## The request of a step -/

variable {c : ServerConn Ctx} {dgram data : Bytes} {s : ℕ}

theorem exists_decodes_of_request {r : Request} (h : (c.stepPackets aes dgram).2 = some r) :
    ∃ pre p post d,
      c.packetSteps aes dgram = pre ++ p :: post ∧ decodes aes p = some d ∧
      decodeStream d = some r := by
  revert r
  refine Run.steps_history (P := fun past (st : ServerConn Ctx × Option Request) =>
    ∀ {r}, st.2 = some r → ∃ pre p post d,
      past = pre ++ p :: post ∧ decodes aes p = some d ∧ decodeStream d = some r) ?_ ?_ _
  · intro past st pkt ih r hr
    rw [(stepOne_requests aes (st, pkt)).1] at hr
    rcases Option.or_eq_some_iff.1 hr with hnew | ⟨-, hold⟩
    · obtain ⟨d, hd, hreq⟩ := Option.bind_eq_some_iff.1 hnew
      exact ⟨past, (st, pkt), [], d, rfl, hd, hreq⟩
    · obtain ⟨pre, p, post, d, rfl, hd, hreq⟩ := ih hold
      exact ⟨pre, p, post ++ [(st, pkt)], d, by simp, hd, hreq⟩
  · simp

theorem stepPackets_isSome {p : (ServerConn Ctx × Option Request) × Bytes}
    {post : List ((ServerConn Ctx × Option Request) × Bytes)}
    (hsteps : c.packetSteps aes dgram = p :: post) (h : (stepOne aes p.1 p.2).2.isSome = true) :
    (c.stepPackets aes dgram).2.isSome = true := by
  rw [packetSteps] at hsteps
  rw [stepPackets]
  cases hsplit : udploopSplit maxPkts dgram with
  | nil =>
    rw [hsplit] at hsteps
    cases hsteps
  | cons pkt pkts =>
    rw [hsplit] at hsteps
    obtain ⟨rfl, -⟩ := List.cons.inj hsteps
    rw [Run.run_cons]
    refine Run.run_invariant (P := fun st : ServerConn Ctx × Option Request => st.2.isSome = true)
      pkts h fun st pkt _ hst => ?_
    rw [(stepOne_requests aes (st, pkt)).1, Option.isSome_or, hst, Bool.or_true]

theorem responses_of_returned {o : LoopOp} {r : Reply} (h : returned aes (c, o) = some r) :
    Responses (c.stepPackets aes o.1).2 (requestFrames r.payload) := by
  cases hstep : (c.step aes o.1 o.2).1 with
  | none =>
    rw [returned_eq_none aes c hstep] at h
    cases h
  | some d =>
    obtain ⟨pl, hreply, hret⟩ := c.returned_eq_some aes hstep
    obtain rfl := Option.some.inj (hreply.symm.trans h)
    exact hret.responses

/-! ## One stream after the other -/

/-- The decoding a packet starts is that of a whole request on stream 0. -/
structure Sound (log : List StreamFrame) (d : Bytes) : Prop where
  whole : ∃ n, Whole log n
  zero : ∀ f ∈ log, f.streamId = 0
  decodes : decodeStream d ≠ none

/-- Every decoding of a datagram is sound. -/
def SoundStep (e : (ServerConn Ctx × List StreamFrame) × LoopOp) : Prop :=
  ∀ pre p post, e.1.1.packetSteps aes e.2.1 = pre ++ p :: post → ∀ d, decodes aes p = some d →
    Sound (logAt aes e.1.2 pre p) d

/-- A datagram whose decodings succeed leaves the accumulator open for the next request. -/
theorem done_track {e : (ServerConn Ctx × List StreamFrame) × LoopOp} (hsound : SoundStep aes e)
    (h : e.1.1.loop.reqacc.done = false) : (track aes e.1 e.2).1.loop.reqacc.done = false := by
  have hpackets : (e.1.1.stepPackets aes e.2.1).2 = none →
      (e.1.1.stepPackets aes e.2.1).1.loop.reqacc.done = false := by
    refine Run.run_of_steps (P := fun st : ServerConn Ctx × Option Request =>
      st.2 = none → st.1.loop.reqacc.done = false) (fun _ => h) fun st pkt hmem ih hnone => ?_
    obtain ⟨pre, post, hsteps⟩ := List.append_of_mem hmem
    obtain ⟨hreq, hacc⟩ := stepOne_requests aes (st, pkt)
    rw [hreq] at hnone
    obtain ⟨hnew, hold⟩ := Option.or_eq_none_iff.1 hnone
    have hno : decodes aes (st, pkt) = none := by
      cases hd : decodes aes (st, pkt) with
      | none => rfl
      | some d =>
        rw [hd, Option.bind_some] at hnew
        exact absurd hnew (hsound pre (st, pkt) post hsteps d hd).decodes
    rw [hacc, hno]
    simpa using ih hold
  obtain ⟨hs, calls, one, htx⟩ :=
    (e.1.1.stepPackets aes e.2.1).1.replies_produce aes (e.1.1.stepPackets aes e.2.1).2 e.2.2
  simp only [track, next_eq]
  generalize hreq : (e.1.1.stepPackets aes e.2.1).2 = req at htx hpackets ⊢
  cases req with
  | none =>
    rw [rearmReqacc, htx.reqacc]
    exact hpackets rfl
  | some r => rfl

/-- **Request streams do not disturb each other** in every run from an empty accumulator in which
every decoding is sound: the frames since the accumulator was last emptied make up one whole stream,
this stream is stream 0, and it decodes. Then each request is decoded from the bytes of its own
stream; a response is on the stream of the request it answers; and a request that arrives in one
frame, on whatever stream, while no frames are pending, is answered. -/
theorem request_streams_independent {c₀ : ServerConn Ctx} (hready : Ready c₀.loop.reqacc)
    (ops : List LoopOp) (hsound : ∀ e ∈ Run.steps (track aes) (c₀, []) ops, SoundStep aes e) :
    ∀ e ∈ Run.steps (track aes) (c₀, []) ops,
      (∀ pre p post, e.1.1.packetSteps aes e.2.1 = pre ++ p :: post →
        ∀ d, decodes aes p = some d → Received (logAt aes e.1.2 pre p) d) ∧
      (∀ r, returned aes (e.1.1, e.2) = some r → ∀ sf ∈ requestFrames r.payload,
        ∃ pre p post d, e.1.1.packetSteps aes e.2.1 = pre ++ p :: post ∧
          decodes aes p = some d ∧ decodeStream d = (e.1.1.stepPackets aes e.2.1).2 ∧
          ∀ f ∈ logAt aes e.1.2 pre p, sf.streamId = f.streamId) ∧
      (e.1.2 = [] → ∀ p post, e.1.1.packetSteps aes e.2.1 = p :: post →
        ∀ s data, framesOf aes p = [wholeFrame s data] → data.length ≤ reqCap →
        decodeStream data ≠ none → (e.1.1.stepPackets aes e.2.1).2 ≠ none ∧
          ∀ r, returned aes (e.1.1, e.2) = some r → requestFrames r.payload ≠ []) := by
  intro e he
  have hacc := assembles_run aes hready he
  refine ⟨?_, ?_, ?_⟩
  · intro pre p post hsteps d hd
    obtain ⟨n, hwhole⟩ := (hsound e he pre p post hsteps d hd).whole
    exact received_of_decodes aes hacc hsteps hd hwhole
  · intro r hr sf hsf
    rcases responses_of_returned aes hr with ⟨-, hnil⟩ | ⟨data, hreq, hresp⟩
    · rw [hnil] at hsf
      cases hsf
    · obtain ⟨req, hreq⟩ := Option.ne_none_iff_exists'.1 hreq
      obtain ⟨pre, p, post, d, hsteps, hd, hdec⟩ := exists_decodes_of_request aes hreq
      refine ⟨pre, p, post, d, hsteps, hd, by rw [hdec, hreq], fun f hf => ?_⟩
      rw [hresp, List.mem_singleton] at hsf
      rw [hsf, (hsound e he pre p post hsteps d hd).zero f hf]
  · intro hlog p post hsteps s data hframes hlen hdec
    have hdone : e.1.1.loop.reqacc.done = false :=
      Run.of_mem_steps (P := fun t : ServerConn Ctx × List StreamFrame =>
        t.1.loop.reqacc.done = false) hready.2.2
        (fun t o hmem ht => done_track aes (hsound (t, o) hmem) ht) he
    -- the packet finds the accumulator as the step does
    have hnil : e.1.1.packetSteps aes e.2.1 = [] ++ p :: post := hsteps
    have hfirst : p.1 = (e.1.1, none) := (Run.of_steps_eq hnil).2
    have hp : Ready p.1.1.loop.reqacc := by
      rw [hlog] at hacc
      rw [hfirst]
      exact ⟨hacc.empty.1, hacc.empty.2, hdone⟩
    have hsome : (e.1.1.stepPackets aes e.2.1).2 ≠ none := by
      refine Option.isSome_iff_ne_none.1 (stepPackets_isSome aes hsteps ?_)
      rw [(stepOne_requests aes p).1, decodes_of_wholeFrame aes hp hframes hlen, Option.bind_some,
        Option.isSome_or, Option.isSome_iff_ne_none.2 hdec, Bool.true_or]
    refine ⟨hsome, fun r hr => ?_⟩
    rcases responses_of_returned aes hr with ⟨hreq, -⟩ | ⟨body, -, hresp⟩
    · exact absurd hreq hsome
    · rw [hresp]
      exact List.cons_ne_nil _ _

/-- A datagram of one packet that brings a whole request on stream 0 is sound. -/
theorem soundStep_wholeFrame {o : LoopOp} (hready : Ready c.loop.reqacc)
    (hsteps : c.packetSteps aes o.1 = [((c, none), o.1)])
    (hframes : framesOf aes ((c, none), o.1) = [wholeFrame 0 data]) (hlen : data.length ≤ reqCap)
    (hdec : decodeStream data ≠ none) : SoundStep aes ((c, []), o) := by
  intro pre p post heq d hd
  obtain ⟨rfl, rfl, rfl⟩ : pre = [] ∧ p = ((c, none), o.1) ∧ post = [] := by
    have hone : [((c, none), o.1)] = pre ++ p :: post := hsteps.symm.trans heq
    cases pre with
    | nil =>
      obtain ⟨rfl, rfl⟩ := List.cons.inj hone
      exact ⟨rfl, rfl, rfl⟩
    | cons q pre =>
      have := congrArg List.length hone
      simp at this
  rw [decodes_of_wholeFrame aes hready hframes hlen] at hd
  obtain rfl := Option.some.inj hd
  rw [logAt_nil, hframes]
  exact ⟨⟨_, whole_wholeFrame hlen⟩, by simp [wholeFrame], hdec⟩

/-- The session in which a GET arrives on stream 0 is answered. -/
theorem request_streams_independent_session :
    Ready Session.confirmed.loop.reqacc ∧
    (Session.confirmed.stepPackets aes128 (Session.onertt (Session.getOn 0))).2 ≠ none := by
  have key : ∀ (c : ServerConn Unit) (dgram : Bytes), Ready c.loop.reqacc →
      c.packetSteps aes128 dgram = [((c, none), dgram)] →
      framesOf aes128 ((c, none), dgram) = [wholeFrame 0 Session.getData] →
      (c.stepPackets aes128 dgram).2 ≠ none := by
    intro c dgram hready hsteps hframes
    have hlen : Session.getData.length ≤ reqCap := by decide
    have hdec : decodeStream Session.getData ≠ none := by
      rw [Session.decodeStream_getData]
      exact Option.some_ne_none _
    obtain ⟨-, -, h⟩ := request_streams_independent aes128 hready [(dgram, 1500)]
      (by simpa using soundStep_wholeFrame aes128 hready hsteps hframes hlen hdec)
      ((c, []), (dgram, 1500)) (by simp)
    exact (h rfl _ _ hsteps 0 Session.getData hframes hlen hdec).1
  refine ⟨Session.confirmed_eq.1.ready, key _ _ Session.confirmed_eq.1.ready
    (Session.packetSteps_onertt (Session.getOn 0)) ?_⟩
  rw [Session.framesOf_onertt (by decide), Session.requestFrames_getOn_zero]

/-! ## Where it goes wrong -/

/-- **A failed decoding is final**: while the mark of the decoder is set no request is decoded, and
without a request it stays set. -/
theorem stuck_run (h : c.loop.reqacc.done = true) (ops : List LoopOp) :
    ∀ e ∈ Run.steps (next aes) c ops, (e.1.stepPackets aes e.2.1).2 = none := by
  have hpackets : ∀ (c : ServerConn Ctx) (dgram : Bytes), c.loop.reqacc.done = true →
      (c.stepPackets aes dgram).1.loop.reqacc.done = true ∧ (c.stepPackets aes dgram).2 = none := by
    intro c dgram hc
    refine Run.run_invariant (P := fun st : ServerConn Ctx × Option Request =>
      st.1.loop.reqacc.done = true ∧ st.2 = none) _ ⟨hc, rfl⟩ fun st pkt _ hst => ?_
    have hno : decodes aes (st, pkt) = none := by
      cases hd : decodes aes (st, pkt) with
      | none => rfl
      | some d =>
        obtain ⟨-, -, hopen, -⟩ := decodes_eq_some aes hd
        rw [gathered_done, hst.1] at hopen
        cases hopen
    obtain ⟨hreq, hacc⟩ := stepOne_requests aes (st, pkt)
    rw [hreq, hacc, hno]
    exact ⟨by simp [hst.1], hst.2⟩
  intro e he
  refine (hpackets e.1 e.2.1 ?_).2
  refine Run.of_mem_steps (P := fun c : ServerConn Ctx => c.loop.reqacc.done = true) h
    (fun c o _ hc => ?_) he
  obtain ⟨hdone, hnone⟩ := hpackets c o.1 hc
  obtain ⟨hs, calls, one, htx⟩ := (c.stepPackets aes o.1).1.replies_produce aes none o.2
  rw [next_eq, hnone, rearmReqacc, htx.reqacc]
  exact hdone

@[simp] theorem noteRx_h3 (c : ServerConn Ctx) (level : Level) (pkt : Bytes) :
    (c.noteRx level pkt).loop.h3 = c.loop.h3 := by
  cases level with
  | initial => rfl
  | onertt => rfl
  | handshake =>
    simp only [noteRx, Srvloop.noteAppRx, Srvloop.noteHsRx]
    cases lhdrParse pkt false <;> rfl

theorem stepPackets_wholeFrame (hsplit : udploopSplit maxPkts dgram = [dgram])
    (hready : Ready c.loop.reqacc)
    (hframes : framesOf aes ((c, none), dgram) = [wholeFrame s data])
    (hlen : data.length ≤ reqCap) :
    (c.stepPackets aes dgram).2 = decodeStream data ∧
      (c.stepPackets aes dgram).1.loop.reqacc.done = true ∧
      (c.stepPackets aes dgram).1.loop.h3.settingsSent = c.loop.h3.settingsSent ∧
      (decodeStream data ≠ none → (c.stepPackets aes dgram).1.loop.h3.requestSeen = true) ∧
      (c.stepPackets aes dgram).1.server = c.server := by
  have hd : decodes aes ((c, none), dgram) = some data :=
    decodes_of_wholeFrame aes hready hframes hlen
  obtain ⟨hreq, hacc⟩ := stepOne_requests aes ((c, none), dgram)
  obtain ⟨hne, hfin, hopen, hbytes⟩ := decodes_eq_some aes hd
  rw [stepPackets, hsplit, Run.run_cons, Run.run_nil]
  rw [hd, Option.bind_some, Option.or_none] at hreq
  rw [hd] at hacc
  refine ⟨hreq, by rw [hacc]; simp, ?_⟩
  rw [stepOne_eq]
  simp only [framesOf, gathered] at hne hfin hopen hbytes
  cases hrecv : c.opens aes dgram with
  | none =>
    rw [hrecv] at hne
    exact absurd rfl hne
  | some lo =>
    obtain ⟨level, opened⟩ := lo
    rw [hrecv] at hne hfin hopen hbytes
    have hempty : ¬ (requestFrames opened.payload).isEmpty = true := by simpa using hne
    dsimp only at hfin hopen hbytes ⊢
    rw [dispatch, if_neg hempty, reassembleAndDrive, noteRx_reqacc, Reqacc.gatherRequest]
    generalize (requestFrames opened.payload).foldl Reqacc.gatherOne c.loop.reqacc = acc
      at hfin hopen hbytes ⊢
    dsimp only
    rw [if_pos (by simp [Reqacc.requestComplete, hfin, hopen])]
    obtain ⟨-, -, hset, hseen, hserver⟩ := driveComplete_spec { c.noteRx level opened.pkt with
      loop := { (c.noteRx level opened.pkt).loop with reqacc := acc } }
    refine ⟨hset.trans (by simp), fun hdec => hseen ?_, hserver⟩
    rw [hbytes] at hdec
    exact hdec

theorem produce_response (c : ServerConn Ctx) (hsent : c.loop.hsDoneSent = true)
    (hset : c.loop.h3.settingsSent = true) (hseen : c.loop.h3.requestSeen = true)
    (hstage : c.server.sched.stage = 2) (hcid : c.loop.cliScid.length ≤ maxCidLen) {req : Request}
    (hbody : (c.buildBody req).1 = []) {cap : ℕ} (hcap : 1200 ≤ cap) :
    (c.produce aes (some req) cap).1.isSome = true := by
  have hmax : maxCidLen = 20 := rfl
  have hresp : (sendResponse 0 200 [] payloadMax).map List.length = some 8 := by decide +kernel
  obtain ⟨resp, hresp, hlen⟩ := Option.map_eq_some_iff.1 hresp
  have hstate : ∃ ctx trace, c.buildBody req =
      ([], { c with loop := { c.loop with reqCtx := ctx }, trace := trace }) := by
    rcases c.buildBody_cases req with ⟨-, h⟩ | ⟨body, ctx, -, h⟩
    · exact ⟨_, _, h⟩
    · rw [h] at hbody
      obtain rfl : body = [] := hbody
      exact ⟨_, _, h⟩
  obtain ⟨ctx, trace, hstate⟩ := hstate
  have hk : c.server.sched.get .serverAp = some (c.server.sched.keys .serverAp) := by
    simp [Keysched.get, Keysched.available, hstage]
  simp only [produce, hsent, Bool.not_true, Bool.false_eq_true, if_false, produceConfirmed,
    emitResponse, responseFrame, hstate, H3srv.buildResponse, hset, hseen, Bool.and_self, if_true,
    hresp, sendOnertt, hk, onerttBuild_eq]
  generalize ServerConn.mk _ _ trace = c₁
  have hack := c₁.length_appAckAppend_le (payloadMax - resp.length)
  rw [if_neg (by rw [gcmTag, List.length_append]; omega)]
  rfl

/-- A served request is answered on stream 0, whatever stream it came on. -/
theorem returned_wholeFrame (hserving : Serving c) (hset : c.loop.h3.settingsSent = true)
    (hstage : c.server.sched.stage = 2) (hcid : c.loop.cliScid.length ≤ maxCidLen)
    (hhandler : c.loop.onRequest = some fun ctx _ => (none, ctx))
    (hsplit : udploopSplit maxPkts dgram = [dgram])
    (hframes : framesOf aes ((c, none), dgram) = [wholeFrame s data])
    (hlen : data.length ≤ reqCap) (hdec : decodeStream data ≠ none) {cap : ℕ} (hcap : 1200 ≤ cap) :
    ∃ r body, returned aes (c, (dgram, cap)) = some r ∧
      requestFrames r.payload = [wholeFrame 0 body] := by
  obtain ⟨hreq, -, hset', hseen, hserver⟩ :=
    stepPackets_wholeFrame aes hsplit hserving.ready hframes hlen
  have hrx := c.listens_stepPackets aes dgram
  obtain ⟨req, hreq'⟩ := Option.ne_none_iff_exists'.1 hdec
  rw [hreq'] at hreq
  have hbody : ((c.stepPackets aes dgram).1.buildBody req).1 = [] := by
    rw [buildBody, hrx.onRequest, hhandler]
    rfl
  have hsome := (c.stepPackets aes dgram).1.produce_response aes
    (hrx.hsDoneSent.trans hserving.confirmed) (hset'.trans hset) (hseen hdec)
    (by rw [hserver]; exact hstage) (by rw [hrx.cliScid]; exact hcid) hbody hcap
  rw [← hreq] at hsome
  obtain ⟨d, hd⟩ := Option.isSome_iff_exists.1 hsome
  obtain ⟨pl, hreply, hret⟩ := c.returned_eq_some aes (o := (dgram, cap)) hd
  rcases hret.responses with ⟨hno, -⟩ | ⟨body, -, hresp⟩
  · rw [show (c.stepPackets aes dgram).2 = none from hno] at hreq
    cases hreq
  · exact ⟨_, body, hreply, hresp⟩

theorem done_next_of_bad (hready : Ready c.loop.reqacc)
    (hsplit : udploopSplit maxPkts dgram = [dgram])
    (hframes : framesOf aes ((c, none), dgram) = [wholeFrame s data])
    (hlen : data.length ≤ reqCap) (hdec : decodeStream data = none) (cap : ℕ) :
    (c.next aes (dgram, cap)).loop.reqacc.done = true := by
  obtain ⟨hreq, hdone, -⟩ := stepPackets_wholeFrame aes hsplit hready hframes hlen
  obtain ⟨hs, calls, one, htx⟩ := (c.stepPackets aes dgram).1.replies_produce aes none cap
  rw [next_eq]
  dsimp only
  rw [hreq, hdec, rearmReqacc, htx.reqacc]
  exact hdone

end ServerConn

namespace Session

open ServerConn

theorem confirmed_loop : confirmed.loop.h3.settingsSent = true ∧
    confirmed.loop.cliScid = [7, 7, 7, 7] ∧
    confirmed.loop.onRequest = some fun ctx _ => (none, ctx) := by
  obtain ⟨server, k, p, q, hstep, -, -, -⟩ := started.step_finished aes128 awaiting 1500 (by decide)
  obtain ⟨hloop, -⟩ := started_eq
  rw [confirmed, ServerConn.next, finished, hstep, hloop]
  exact ⟨rfl, rfl, rfl⟩

theorem requestFrames_getOn_four : requestFrames (getOn 4) = [wholeFrame 4 getData] := by
  decide

/-- A stream of one byte that is no request. -/
def bad : Bytes := [0x0b, 0x00, 0x01, 0xff]

theorem requestFrames_bad : requestFrames bad = [wholeFrame 0 [0xff]] := by decide

theorem decodeStream_bad : decodeStream [0xff] = none := by decide

end Session

namespace ServerConn

/-- **Streams interfere.** In the session, a GET on stream 4 is answered on stream 0; and after a
stream whose contents do not decode, no request is decoded in whatever datagrams follow. -/
theorem streams_interfere :
    (framesOf aes128 ((Session.confirmed, none), Session.onertt (Session.getOn 4)) =
        [wholeFrame 4 Session.getData] ∧
      ∃ r body, returned aes128 (Session.confirmed, (Session.onertt (Session.getOn 4), 1500)) =
        some r ∧ requestFrames r.payload = [wholeFrame 0 body]) ∧
    framesOf aes128 ((Session.confirmed, none), Session.onertt Session.bad) = [wholeFrame 0 [0xff]] ∧
    ∀ ops, ∀ e ∈ Run.steps (next aes128)
        (Session.confirmed.next aes128 (Session.onertt Session.bad, 1500)) ops,
      (e.1.stepPackets aes128 e.2.1).2 = none := by
  obtain ⟨hserving, -, hstage, -, -⟩ := Session.confirmed_eq
  obtain ⟨hset, hcli, hhandler⟩ := Session.confirmed_loop
  have hfour : framesOf aes128 ((Session.confirmed, none), Session.onertt (Session.getOn 4)) =
      [wholeFrame 4 Session.getData] := by
    rw [Session.framesOf_onertt (by decide), Session.requestFrames_getOn_four]
  have hbad : framesOf aes128 ((Session.confirmed, none), Session.onertt Session.bad) =
      [wholeFrame 0 [0xff]] := by
    rw [Session.framesOf_onertt (by decide), Session.requestFrames_bad]
  refine ⟨⟨hfour, ?_⟩, hbad, ?_⟩
  · exact returned_wholeFrame aes128 hserving hset hstage (by rw [hcli]; decide) hhandler
      (Session.split_onertt _) hfour (by decide) (by rw [Session.decodeStream_getData]; simp)
      (by decide)
  · exact stuck_run aes128 (done_next_of_bad aes128 hserving.ready (Session.split_onertt _) hbad
      (by decide) Session.decodeStream_bad 1500)

end ServerConn

end Loop

end QuicVibe
