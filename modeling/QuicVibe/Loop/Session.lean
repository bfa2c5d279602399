import QuicVibe.Frame.CryptoStream
import QuicVibe.Loop.Steps
import QuicVibe.Packet.Coalesce
/-!
# A session with the server loop

What a peer's packets do: a packet sealed under the keys of its level opens at that level; a server
that has sent its flight completes the handshake with the client's Finished; and from then on a
packet that carries a request has the handler called for it.
-/

namespace QuicVibe

namespace Loop

open Crypto Packet Keys Http3 Tls
open QuicVibe.Frame

/-! ## Packets of the client -/

variable (aes : Block → Block → Block)

/-- An Initial packet, under the keys of the connection id `odcid`. -/
def initialPacket (odcid dcid scid : Bytes) (pn : ℕ) (payload : Bytes) : Bytes :=
  let k := initialDerive odcid false
  protectedPacket aes k (aes k.hp) hpLongMask 0xc3
    (lhdrMid 1 dcid scid true [] (4 + payload.length + 16)) pn payload

/-- A Handshake packet. -/
def handshakePacket (k : InitialKeys) (dcid scid : Bytes) (pn : ℕ) (payload : Bytes) : Bytes :=
  protectedPacket aes k (aes k.hp) hpLongMask 0xe3
    (lhdrMid 1 dcid scid false [] (4 + payload.length + 16)) pn payload

/-- A 1-RTT packet. -/
def onerttPacket (k : InitialKeys) (dcid : Bytes) (pn : ℕ) (payload : Bytes) : Bytes :=
  protectedPacket aes k (aes k.hp) hpShortMask onerttByte0 dcid pn payload

namespace ServerConn

variable {Ctx : Type} (c : ServerConn Ctx)

theorem head_long (k : InitialKeys) (b : UInt8) (mid : Bytes) (pn : ℕ) (payload : Bytes)
    (hform : b &&& 0x80 ≠ 0) : ∃ b',
      (protectedPacket aes k (aes k.hp) hpLongMask b mid pn payload).head? = some b' ∧
      packetLevel b' = packetLevel b := by
  obtain ⟨b', pn', hb', -, heq⟩ := protectedPacket_eq aes k (aes k.hp) hpLongMask b mid pn payload
  have hform' : b' &&& 0x80 ≠ 0 := by
    rw [hb', xor_and_of_disjoint (by rfl)]
    exact hform
  refine ⟨b', by rw [heq]; rfl, ?_⟩
  rw [packetLevel, packetLevel, if_neg hform', if_neg hform, hb', longType_of_protected]

variable {dcid scid payload : Bytes} {k : InitialKeys} {req : Request}

/-- **An Initial packet opens** for anyone who knows the connection id. -/
theorem opens_initialPacket (payload : Bytes) (pn : ℕ) (hd : dcid.length ≤ maxCidLen)
    (hs : scid.length ≤ maxCidLen) (hmax : 4 + payload.length + 16 ≤ varintMax)
    (hpn : pn < 2 ^ 32) : ∃ pkt,
      c.opens aes (initialPacket aes c.server.sdrv.odcid dcid scid pn payload) =
        some (.initial, { pkt := pkt, payload := payload }) := by
  obtain ⟨b', hhead, hlevel⟩ := head_long aes (initialDerive c.server.sdrv.odcid false) 0xc3
    (lhdrMid 1 dcid scid true [] (4 + payload.length + 16)) pn payload (by decide)
  have hopen := rxPacket_protectedPacket aes (initialDerive c.server.sdrv.odcid false)
    (aes (initialDerive c.server.sdrv.odcid false).hp) (b := 0xc3) true [] (by decide) rfl hd hs (fun _ => Nat.zero_le _) hmax hpn
  rw [show packetLevel 0xc3 = some .initial by decide] at hlevel
  refine ⟨(openedPacket aes (initialDerive c.server.sdrv.odcid false) 0xc3
    (lhdrMid 1 dcid scid true [] (4 + payload.length + 16)) pn payload).pkt, ?_⟩
  simp only [opens, recv, initialPacket, hhead, hlevel, recvAtLevel, hopen, Option.bind_eq_bind,
    Option.bind_some, Option.pure_def]
  rfl

theorem opens_handshakePacket (hk : c.server.sched.get .clientHs = some k) (payload : Bytes)
    (pn : ℕ) (hd : dcid.length ≤ maxCidLen) (hs : scid.length ≤ maxCidLen)
    (hmax : 4 + payload.length + 16 ≤ varintMax) (hpn : pn < 2 ^ 32) :
    c.opens aes (handshakePacket aes k dcid scid pn payload) = some (.handshake,
      openedPacket aes k 0xe3 (lhdrMid 1 dcid scid false [] (4 + payload.length + 16)) pn
        payload) := by
  obtain ⟨b', hhead, hlevel⟩ := head_long aes k 0xe3
    (lhdrMid 1 dcid scid false [] (4 + payload.length + 16)) pn payload (by decide)
  have hopen : hspktOpen aes k (aes k.hp) (handshakePacket aes k dcid scid pn payload) = some _ :=
    rxPacket_protectedPacket aes k (aes k.hp) (b := 0xe3) false [] (by decide) rfl hd hs (fun _ => Nat.zero_le _) hmax hpn
  rw [show packetLevel 0xe3 = some .handshake by decide] at hlevel
  rw [handshakePacket] at hopen ⊢
  simp only [opens, recv, hhead, hlevel, recvAtLevel, hk, hopen, Option.bind_eq_bind,
    Option.bind_some, Option.pure_def]

/-- A 1-RTT packet opens under the client's 1-RTT key, if its number is recovered. -/
theorem opens_onerttPacket (hk : c.server.sched.get .clientAp = some k) (hne : payload ≠ [])
    (pn : ℕ) (hpn : pnumDecode (putBe 4 pn) c.loop.appLargestPn = pn) :
    c.opens aes (onerttPacket aes k c.server.sdrv.iscid pn payload) = some (.onertt,
      openedPacket aes k onerttByte0 c.server.sdrv.iscid pn payload) := by
  obtain ⟨b', pn', hb', -, heq⟩ := protectedPacket_eq aes k (aes k.hp) hpShortMask onerttByte0
    c.server.sdrv.iscid pn payload
  have hhead : (onerttPacket aes k c.server.sdrv.iscid pn payload).head? = some b' := by
    rw [onerttPacket, heq]
    rfl
  have hlevel : packetLevel b' = some .onertt := by
    rw [packetLevel, if_pos]
    rw [hb', xor_and_of_disjoint (by rfl)]
    rfl
  have hopen := onerttOpen_protectedPacket aes k (aes k.hp) c.server.sdrv.iscid hne hpn
  rw [← onerttPacket] at hopen
  simp only [opens, recv, hhead, hlevel, recvAtLevel, hk, hopen, Option.bind_eq_bind,
    Option.bind_some, Option.pure_def]

variable {dgram : Bytes} {level : Level} {opened : Opened} {hs : Digest}

/-- **A datagram of one packet** that opens is that packet's payload, dispatched. -/
theorem stepPackets_single (hsplit : udploopSplit maxPkts dgram = [dgram])
    (hopen : c.opens aes dgram = some (level, opened)) :
    c.stepPackets aes dgram = (((c.noteRx level opened.pkt).dispatch opened.payload).2,
      ((c.noteRx level opened.pkt).dispatch opened.payload).1) := by
  rw [stepPackets, hsplit, Run.run_cons, Run.run_nil, stepOne_eq, hopen]
  simp

/-! ## Requests -/

/-- The accumulator is empty and waits for a request. -/
def Ready (acc : Reqacc) : Prop := acc.len = 0 ∧ acc.fin = false ∧ acc.done = false

/-- A payload whose one request frame carries a whole request stream that decodes to `req`. -/
def Requests (payload : Bytes) (req : Request) : Prop :=
  ∃ data wrap, requestFrames payload =
      [{ streamId := 0, offset := 0, data := data, fin := true }] ∧ data.length ≤ reqCap ∧
    putStream 2080 { streamId := 0, offset := 0, data := data, fin := true } = some wrap ∧
    recvGet wrap 512 = some req

theorem Requests.ne_nil (h : Requests payload req) : payload ≠ [] := by
  rintro rfl
  obtain ⟨data, wrap, hframes, -⟩ := h
  cases hframes

theorem gatherOne_of_ready {acc : Reqacc} (h : Ready acc) {data : Bytes}
    (hlen : data.length ≤ reqCap) :
    acc.gatherOne { streamId := 0, offset := 0, data := data, fin := true } =
      { buf := Buf.writeAt acc.buf 0 data, len := data.length, fin := true, done := false } := by
  have hcap : reqCap = 2048 := rfl
  obtain ⟨hzero, -, hdone⟩ := h
  have hhi : (if data.length < reqCap then data.length else reqCap) = data.length := by
    split <;> omega
  simp only [Reqacc.gatherOne, Nat.zero_add, hhi, hzero, hdone, Bool.or_true]
  rw [if_neg (by omega), if_neg (by omega)]
  congr 1
  split <;> omega

/-- **A request is decoded** from whatever packet its stream arrives in, at any level. -/
theorem dispatch_of_requests (hready : Ready c.loop.reqacc) (hreq : Requests payload req) :
    ∃ acc, acc.fin = true ∧ acc.done = true ∧
    c.dispatch payload = (some req, { c with
      loop := { c.loop with h3 := { c.loop.h3 with requestSeen := true }, reqacc := acc } }) := by
  obtain ⟨data, wrap, hframes, hlen, hwrap, hget⟩ := hreq
  have hgather : c.loop.reqacc.gatherRequest payload =
      { buf := Buf.writeAt c.loop.reqacc.buf 0 data, len := data.length, fin := true,
        done := false } := by
    rw [Reqacc.gatherRequest, hframes, List.foldl_cons, List.foldl_nil,
      gatherOne_of_ready hready hlen]
  have hbytes : (Buf.writeAt c.loop.reqacc.buf 0 data).toList.take data.length = data := by
    rw [Buf.toList_writeAt_zero _ hlen, List.take_left]
  rw [dispatch, hframes, reassembleAndDrive, hgather]
  simp only [List.isEmpty_cons, Bool.false_eq_true, if_false, Reqacc.requestComplete, Bool.true_and,
    Bool.not_false, if_true, driveComplete, Reqacc.bytes, hbytes, hwrap, H3srv.onRequest, hget]
  exact ⟨_, rfl, rfl, rfl⟩

/-- A connection that answers requests. -/
structure Serving (c : ServerConn Ctx) : Prop where
  confirmed : c.loop.hsDoneSent = true
  handler : c.loop.onRequest ≠ none
  ready : Ready c.loop.reqacc

theorem emitResponse_cases (hon : c.loop.onRequest ≠ none) (req : Request) (cap : ℕ) :
    ∃ ctx n one, (c.emitResponse aes req cap).2 =
      { c with
        loop := { c.loop with reqCtx := ctx, txPn := n }
        trace := c.trace ++ (.handled req :: one) } := by
  obtain ⟨body, ctx, -, hbody⟩ := (c.buildBody_cases req).resolve_left fun h => hon h.1
  simp only [emitResponse, responseFrame, hbody]
  cases H3srv.buildResponse _ 0 200 body payloadMax with
  | none => exact ⟨ctx, c.loop.txPn, [], rfl⟩
  | some resp =>
    dsimp only
    generalize hc₁ : ServerConn.mk _ _ _ = c₁
    obtain ⟨n, one, hsend, -⟩ := c₁.sendOnertt_cases aes
      (resp ++ c₁.appAckAppend (payloadMax - resp.length)) cap
    rw [hsend]
    subst hc₁
    exact ⟨ctx, n, one, by simp⟩

/-- **A request is served**: a packet that opens, at whatever level, to a payload with a whole
request has the handler called, and leaves the connection ready for the next. -/
theorem Serving.next (h : Serving c) (hsplit : udploopSplit maxPkts dgram = [dgram])
    (hopen : c.opens aes dgram = some (level, opened)) (hreq : Requests opened.payload req)
    (cap : ℕ) : ∃ one,
    (c.next aes (dgram, cap)).trace = c.trace ++ (.handled req :: one) ∧
    Serving (c.next aes (dgram, cap)) ∧ (c.next aes (dgram, cap)).server = c.server ∧
    (c.next aes (dgram, cap)).loop.appLargestPn =
      (c.noteRx level opened.pkt).loop.appLargestPn := by
  have hnote := c.listens_noteRx level opened.pkt
  obtain ⟨acc, -, -, hdispatch⟩ := (c.noteRx level opened.pkt).dispatch_of_requests
    (by rw [noteRx_reqacc]; exact h.ready) hreq
  have hpackets := c.stepPackets_single aes hsplit hopen
  rw [hdispatch] at hpackets
  rw [next_eq, hpackets]
  generalize hc₁ : ServerConn.mk _ _ _ = c₁
  have hdone : c₁.loop.hsDoneSent = true := by
    subst hc₁
    exact hnote.hsDoneSent.trans h.confirmed
  have hon : c₁.loop.onRequest ≠ none := by
    subst hc₁
    exact hnote.onRequest ▸ h.handler
  have hprod : c₁.produce aes (some req) cap = c₁.emitResponse aes req cap := by
    rw [produce, hdone]
    rfl
  obtain ⟨ctx, n, one, hemit⟩ := c₁.emitResponse_cases aes hon req cap
  rw [hprod, hemit]
  refine ⟨one, ?_, ⟨hdone, hon, rfl, rfl, rfl⟩, ?_, ?_⟩
  · subst hc₁
    exact congrArg (· ++ _) hnote.trace
  · subst hc₁
    exact noteRx_server c level opened.pkt
  · subst hc₁
    rfl

/-! ## The confirmation -/

/-- A connection whose flight is out and that has heard nothing since. -/
structure Awaiting (c : ServerConn Ctx) (hs : Digest) : Prop where
  phase : c.server.phase = .flightSent
  stage : c.server.sched.stage = 1
  secret : c.server.sdrv.handshakeSecretView = some hs
  fresh : c.server.crecv = c.server.crecv.init
  doneSent : c.server.hsDoneSent = false
  pending : c.loop.hsDoneSent = false
  hsRxSeen : c.loop.hsRxSeen = false
  appRxSeen : c.loop.appRxSeen = false
  cliScid : c.loop.cliScid.length ≤ maxCidLen
  iscid : c.server.sdrv.iscid.length ≤ maxCidLen

/-- The client's Finished in its first Handshake packet. -/
def finishedPacket (hs : Digest) : Bytes :=
  handshakePacket aes (c.server.sched.keys .clientHs) c.server.sdrv.iscid c.loop.cliScid 0
    (cryptoBytes { offset := 0, data := c.server.expectedFinished hs })

theorem noteRx_handshake (k : InitialKeys) (hd : dcid.length ≤ maxCidLen)
    (hs : scid.length ≤ maxCidLen) {length : ℕ} (hl : length ≤ varintMax) (pn : ℕ)
    (payload : Bytes) :
    c.noteRx .handshake (openedPacket aes k 0xe3 (lhdrMid 1 dcid scid false [] length) pn
      payload).pkt =
      { c with
        loop := { c.loop with
          hsRxPn := pnumDecode (putBe 4 pn) c.loop.hsLargestPn
          hsRxSeen := true } } := by
  set mid := lhdrMid 1 dcid scid false [] length with hmid
  set tag := (Gcm.gcmSeal (aes k.key) (protectNonce k.iv pn) (0xe3 :: (mid ++ putBe 4 pn))
    payload).2.toList
  have hpkt : (openedPacket aes k 0xe3 mid pn payload).pkt =
      0xe3 :: (mid ++ putBe 4 pn) ++ (payload ++ tag) := List.append_assoc _ _ _
  have hparse := lhdrParse_mid (b := 0xe3) 1 false []
    (putBe 4 pn ++ (payload ++ tag)) (by decide) hd hs (fun _ => Nat.zero_le _) hl
  rw [← hmid] at hparse
  have hpn := take_pn_unmasked 0xe3 mid pn (payload ++ tag)
  have hfour : pnLenOf ((0xe3 :: (mid ++ putBe 4 pn) ++ (payload ++ tag)).getD 0 0) = 4 := by
    rw [List.cons_append, List.getD_cons_zero]
    decide
  have hcons : 0xe3 :: (mid ++ putBe 4 pn) ++ (payload ++ tag) =
      0xe3 :: (mid ++ (putBe 4 pn ++ (payload ++ tag))) := by simp
  rw [hpkt]
  simp only [noteRx, Srvloop.noteAppRx, Srvloop.noteHsRx, hfour]
  rw [hcons] at hpn ⊢
  simp only [hparse, hpn]

/-- **The client's Finished** arrives, and the server is confirmed. -/
theorem stepPackets_finished (h : Awaiting c hs) : ∃ crecv sched keys,
    sched.stage = 2 ∧ sched.get .serverHs = some (c.server.sched.keys .serverHs) ∧
    c.stepPackets aes (c.finishedPacket aes hs) =
      ({ c with
          loop := { c.loop with hsRxPn := 0, hsRxSeen := true }
          server := { c.server with
            crecv := crecv, sched := sched, keys := keys, finConfirmed := true,
            phase := .confirmed } }, none) := by
  have hmax : varintMax = 4611686018427387903 := rfl
  have hmsg : (c.server.expectedFinished hs).length = 36 := by simp [Server.expectedFinished]
  have hzero : (0 : ℕ) ≤ varintMax := Nat.zero_le _
  have hfit : (c.server.expectedFinished hs).length ≤ varintMax := by omega
  set payload := cryptoBytes { offset := 0, data := c.server.expectedFinished hs } with hpayload
  have hlen : payload.length ≤ 100 := by
    rw [hpayload, length_cryptoBytes, hmsg]
    show 1 + varintLen 0 + varintLen 36 + 36 ≤ 100
    decide
  have hwalk : walk payload = [{ type := frameCrypto, rest := payload }] :=
    walk_cryptoBytes hzero hfit
  have hframes : requestFrames payload = [] := by
    rw [requestFrames, hwalk]
    rfl
  have hk : c.server.sched.get .clientHs = some (c.server.sched.keys .clientHs) := by
    simp [Keysched.get, Keysched.available, h.stage]
  have hopen := c.opens_handshakePacket aes hk payload 0 h.iscid h.cliScid
    (by omega) (by decide)
  have hsplit : udploopSplit maxPkts (c.finishedPacket aes hs) = [c.finishedPacket aes hs] :=
    udploopSplit_long aes 7 _ _ false [] (by decide) (by decide) h.iscid h.cliScid (fun _ => Nat.zero_le _)
      (by rw [← hpayload]; omega)
  have hfeed := Server.feed_expectedFinished h.phase h.stage h.secret h.fresh
  have hkeep := feed_serverHs c.server payload
  rw [← hpayload] at hfeed
  obtain hno | ⟨hs', sched, -, -, -, hstage, hyes⟩ := c.server.feed_cases payload
  · rw [hno] at hfeed
    cases hfeed
  · rw [hyes] at hkeep
    refine ⟨(c.server.crecv.collect payload).2, sched,
      c.server.keys.install .onertt (sched.keys .serverAp), hstage, hkeep.trans ?_, ?_⟩
    · simp [Keysched.get, Keysched.available, h.stage]
    · rw [stepPackets_single aes c hsplit hopen, noteRx_handshake aes c _ h.iscid h.cliScid (by omega)]
      have hpn : pnumDecode (putBe 4 0) c.loop.hsLargestPn = 0 := by
        rw [Srvloop.hsLargestPn, h.hsRxSeen, if_neg Bool.false_ne_true]
        decide
      rw [hpn]
      dsimp only [openedPacket]
      rw [dispatch_of_requestFrames_nil _ hframes, dispatchNonRequest, hwalk]
      simp only [List.isEmpty_cons, Bool.false_eq_true, if_false, List.any_cons, List.any_nil,
        show isStream frameCrypto = false from rfl, Bool.or_false, hyes]

theorem confirmPayload_eq (hfin : c.server.finConfirmed = true)
    (hsent : c.server.hsDoneSent = false) : ∃ confirm, confirm.length ≤ 64 ∧
      c.confirmPayload payloadMax = (some confirm, { c with
        loop := { c.loop with h3 := { c.loop.h3 with settingsSent := true } }
        server := { c.server with hsDoneSent := true } }) := by
  have hctl : ∃ ctl settings, controlStream 64 = some ctl ∧ settings.length ≤ 32 ∧
      putStream payloadMax { streamId := 3, offset := 0, data := ctl, fin := false } =
        some settings := ⟨_, _, rfl, by decide, rfl⟩
  obtain ⟨ctl, settings, hctl, hlen, hput⟩ := hctl
  have hroom : payloadMax - settings.length ≠ 0 := by
    have : payloadMax = 1312 := rfl
    omega
  simp only [confirmPayload, buildSettingsFrame, H3srv.openControl, hctl, hput,
    Server.handshakeDone, hfin, hsent, Bool.not_false, Bool.and_true, Bool.not_true,
    Bool.false_eq_true, if_false, if_neg hroom]
  exact ⟨_, by simp; omega, rfl⟩

/-- **The Handshake packet of the confirmation**, in any buffer it fits. -/
theorem emitHandshakeAck_eq (hk : c.server.sched.get .serverHs = some k)
    (hack : c.loop.hsRxPn ≤ varintMax) (hcli : c.loop.cliScid.length ≤ maxCidLen)
    (hiscid : c.server.sdrv.iscid.length ≤ maxCidLen) :
    ∃ p, p.length = 28 + c.loop.cliScid.length + c.server.sdrv.iscid.length +
        (ackOneBytes c.loop.hsRxPn).length ∧ p.length ≤ 100 ∧
      ∀ cap, p.length ≤ cap → c.emitHandshakeAck aes cap = (some p, { c with
        loop := { c.loop with hsTxPn := u64 (c.loop.hsTxPn + 1) }
        trace := c.trace ++ [.sealed .handshake k c.loop.hsTxPn p] }) := by
  have hcid : maxCidLen = 20 := rfl
  have hmax : varintMax = 4611686018427387903 := rfl
  have hshort := length_ackOneBytes_le c.loop.hsRxPn
  have hframes : ackOne 16 c.loop.hsRxPn = some (ackOneBytes c.loop.hsRxPn) := by
    rw [(ackOne_eq hack).1, if_pos (by omega)]
  set frames := ackOneBytes c.loop.hsRxPn
  set mid := lhdrMid 1 c.loop.cliScid c.server.sdrv.iscid false [] (4 + frames.length + 16) with hmid
  have hmidLen : mid.length = 7 + c.loop.cliScid.length + c.server.sdrv.iscid.length := by
    have : varintLen (4 + frames.length + 16) = 1 := by rw [varintLen, if_pos (by omega)]
    simp [hmid, lhdrMid, tokenField, this]
    omega
  have htag : gcmTag = 16 := rfl
  refine ⟨protectedPacket aes k (aes k.hp) hpLongMask (lhdrByte0Pnlen hspktByte0 txPnLen) mid
    c.loop.hsTxPn frames, ?_, ?_, fun cap hcap => ?_⟩
  · rw [length_protectedPacket, hmidLen]
    omega
  · rw [length_protectedPacket, hmidLen]
    omega
  · rw [length_protectedPacket] at hcap
    have hbuild := hspktBuild_eq aes k (aes k.hp) c.loop.hsTxPn frames cap hcli hiscid (by omega)
      hcap
    simp only [emitHandshakeAck, hk, hframes, hbuild, logSealed, ← hmid]

theorem appAckAppend_cases (cap : ℕ) : c.appAckAppend cap = [] ∨
    ∃ pn ≤ varintMax, c.appAckAppend cap = ackOneBytes pn := by
  rw [appAckAppend]
  cases c.loop.appRxSeen with
  | false => exact Or.inl rfl
  | true =>
    rcases Nat.lt_or_ge varintMax c.loop.appRxPn with hgt | hle
    · exact Or.inl (by rw [ackOne_of_gt hgt]; rfl)
    · rw [(ackOne_eq hle).1]
      by_cases hfit : (ackOneBytes c.loop.appRxPn).length ≤ cap
      · exact Or.inr ⟨_, hle, by rw [if_pos hfit]; rfl⟩
      · exact Or.inl (by rw [if_neg hfit]; rfl)

theorem length_appAckAppend_le (cap : ℕ) : (c.appAckAppend cap).length ≤ 12 := by
  rcases c.appAckAppend_cases cap with h | ⟨pn, -, h⟩
  · rw [h]
    exact Nat.zero_le _
  · rw [h]
    exact length_ackOneBytes_le pn

theorem sealConfirmOnertt_eq (hfin : c.server.finConfirmed = true)
    (hsent : c.server.hsDoneSent = false) (hstage : c.server.sched.stage = 2)
    (hcli : c.loop.cliScid.length ≤ maxCidLen) (cap : ℕ) (hcap : 200 ≤ cap) : ∃ k q, c.sealConfirmOnertt aes none cap = (some q, { c with
      loop := { c.loop with
        h3 := { c.loop.h3 with settingsSent := true }
        txPn := u64 (c.loop.txPn + 1) }
      server := { c.server with hsDoneSent := true }
      trace := c.trace ++ [.sealed .onertt k c.loop.txPn q] }) := by
  have hcid : maxCidLen = 20 := rfl
  obtain ⟨confirm, hlen, hconfirm⟩ := c.confirmPayload_eq hfin hsent
  have hk : c.server.sched.get .serverAp = some (c.server.sched.keys .serverAp) := by
    simp [Keysched.get, Keysched.available, hstage]
  simp only [sealConfirmOnertt, confirmThenMaybe200, hconfirm, responseFrame, List.append_nil,
    sendOnertt, hk, onerttBuild_eq]
  generalize hc₁ : ServerConn.mk _ _ c.trace = c₁
  have hack := c₁.length_appAckAppend_le (payloadMax - confirm.length)
  rw [if_neg (by rw [gcmTag, List.length_append]; omega)]
  subst hc₁
  exact ⟨_, _, rfl⟩

/-- **The handshake completes.** The client's Finished, in the first datagram after the flight, is
answered with a Handshake packet and a 1-RTT packet, numbered by their counters, and the connection
is confirmed. -/
theorem step_finished (h : Awaiting c hs) (cap : ℕ) (hcap : 1200 ≤ cap) :
    ∃ server k p q, c.step aes (c.finishedPacket aes hs) cap = (some (p ++ q), { c with
      loop := { c.loop with
        h3 := { c.loop.h3 with settingsSent := true }
        hsRxPn := 0
        hsRxSeen := true
        hsTxPn := u64 (c.loop.hsTxPn + 1)
        txPn := u64 (c.loop.txPn + 1)
        hsDoneSent := true }
      server := server
      trace := c.trace ++
        [.sealed .handshake (c.server.sched.keys .serverHs) c.loop.hsTxPn p,
          .sealed .onertt k c.loop.txPn q] }) ∧
      p.length ≤ 100 ∧ server.sched.stage = 2 ∧ server.sdrv = c.server.sdrv := by
  obtain ⟨crecv, sched, keys, hstage, hserverHs, hpackets⟩ := c.stepPackets_finished aes h
  rw [step, hpackets]
  generalize hc₁ : ServerConn.mk _ _ _ = c₁
  obtain ⟨p, -, hp, hhs⟩ := c₁.emitHandshakeAck_eq aes (k := c.server.sched.keys .serverHs)
    (by subst hc₁; exact hserverHs) (by subst hc₁; exact Nat.zero_le _)
    (by subst hc₁; exact h.cliScid) (by subst hc₁; exact h.iscid)
  have hpending : c₁.loop.hsDoneSent = false := by subst hc₁; exact h.pending
  simp only [produce, hpending, Bool.not_false, if_true, emitConfirm, hhs cap (by omega)]
  generalize hc₂ : ServerConn.mk _ _ _ = c₂
  obtain ⟨k, q, hone⟩ := c₂.sealConfirmOnertt_eq aes (by subst hc₂ hc₁; rfl)
    (by subst hc₂ hc₁; exact h.doneSent) (by subst hc₂ hc₁; exact hstage)
    (by subst hc₂ hc₁; exact h.cliScid) (cap - p.length) (by omega)
  rw [hone]
  subst hc₂ hc₁
  refine ⟨{ c.server with
    crecv := crecv, sched := sched, keys := keys, finConfirmed := true, phase := .confirmed,
    hsDoneSent := true }, k, p, q, ?_, hp, hstage, rfl⟩
  simp [rearmReqacc]

/-! ## The flight on the wire -/

theorem emitFrames_eq {tls : Bytes} {cap : ℕ} (hne : tls ≠ []) (hmax : tls.length ≤ varintMax)
    (hcap : (cryptoBytes { offset := 0, data := tls }).length ≤ cap) :
    emitFrames none tls cap = some (cryptoBytes { offset := 0, data := tls }) := by
  rw [emitFrames, cryptoStreamEmit_eq cap hmax (List.length_pos_iff.2 hne), cryptoFrames_self hne,
    List.flatMap_singleton, if_pos hcap]
  rfl

/-- **The flight is sealed** as Handshake packet 0. -/
theorem sealed_mem_sealAndSend (hk : c.server.sched.get .serverHs = some k)
    (serverScid sh flight : Bytes) (hscid : serverScid.length ≤ maxCidLen)
    (hiscid : c.server.sdrv.iscid.length ≤ maxCidLen) (hne : flight ≠ [])
    (hlen : flight.length ≤ 1400) : ∃ p,
      Event.sealed .handshake k 0 p ∈ (c.sealAndSend aes serverScid sh flight).trace ∧
      flight.length < p.length := by
  have hmax : varintMax = 4611686018427387903 := rfl
  have hcid : maxCidLen = 20 := rfl
  have hvar : ∀ n, n ≤ 0x3FFF → varintLen n ≤ 2 := by
    intro n hn
    simp only [varintLen]
    split_ifs <;> omega
  set frames := cryptoBytes { offset := 0, data := flight } with hframes
  have hbytes : frames.length = 1 + 1 + varintLen flight.length + flight.length :=
    length_cryptoBytes _
  have hflight := hvar flight.length (by omega)
  have hmid : (lhdrMid 1 serverScid c.server.sdrv.iscid false [] (4 + frames.length + 16)).length ≤
      48 := by
    have := hvar (4 + frames.length + 16) (by omega)
    simp [lhdrMid, tokenField]
    omega
  have hemit : emitFrames none flight 2048 = some frames :=
    emitFrames_eq hne (by omega) (by rw [← hframes]; omega)
  have hbuild := hspktBuild_eq aes k (aes k.hp) 0 frames 1500 hscid hiscid
    (by omega) (by rw [gcmTag]; omega)
  set p := protectedPacket aes k (aes k.hp) hpLongMask (lhdrByte0Pnlen hspktByte0 txPnLen)
    (lhdrMid 1 serverScid c.server.sdrv.iscid false [] (4 + frames.length + 16)) 0 frames with hp
  refine ⟨p, ?_, by rw [hp, length_protectedPacket]; omega⟩
  have hserver : (c.sendInitial aes 1 (some 0) sh 1500).2.server = c.server := by
    simp only [sendInitial]
    generalize (emitFrames (some 0) sh 1200 >>= _ : Option Bytes) = packet
    cases packet <;> rfl
  simp only [sealAndSend]
  generalize (c.sendInitial aes 1 (some 0) sh 1500).2 = c₁ at hserver ⊢
  simp only [sendHandshake, hserver, hk, hemit, hbuild, Option.bind_eq_bind, Option.bind_some,
    logSealed, List.mem_append, List.mem_singleton, or_true]

end ServerConn

/-! ## One session -/

namespace Session

/-- Stand-ins for the public-key operations. -/
def primitives : ServerPrimitives where
  x25519 := fun _ _ => Vector.replicate 32 1
  p256Cert := fun _ => [0x30, 0x00]
  p256Sign := fun _ _ => some [0x30, 0x00]

/-- What lies in memory before the server is initialised. -/
def memory : Server where
  sdrv :=
    { serverPriv := Vector.replicate 32 0, serverPub := Vector.replicate 32 0,
      p256Priv := Vector.replicate 32 0, cert := [], clientPub := Vector.replicate 32 0,
      clientSid := [], hsSecret := Vector.replicate 32 0, sHsTraffic := Vector.replicate 32 0,
      hsReady := false, tr := Sha256.init, odcid := [], iscid := [] }
  sched := ⟨0, Vector.replicate 32 0, fun _ => zeroKeys⟩
  keys := ⟨fun _ => zeroKeys, fun _ => false⟩
  finConfirmed := false
  crecv := ⟨Vector.replicate _ 0, Vector.replicate _ false, 0⟩
  phase := .initial
  hsDoneSent := false
  serverPriv := Vector.replicate 32 0
  tr := []
  trThroughSh := 0
  trThroughFlight := 0

/-- A ClientHello with an x25519 key share. -/
def clientHello : Bytes :=
  let keyShare := putBe 2 36 ++ putBe 2 0x001d ++ putBe 2 32 ++ List.replicate 32 9
  hsMessage hsClientHello (putBe 2 0x0303 ++ List.replicate 32 7 ++
    [0, 0, 2, 0x13, 0x01, 1, 0] ++ putBe 2 42 ++ extension 51 keyShare)

/-- A server that has accepted the ClientHello. -/
def accepted : Server :=
  let s := memory.init primitives (Vector.replicate 32 2) (Vector.replicate 32 3)
    (Vector.replicate 32 4)
  let s := (s.setCids [1, 2, 3, 4, 5, 6, 7, 8] [9, 9, 9, 9]).2
  (s.recvInitial clientHello fun _ => 0).2

theorem accepted_eq : accepted.phase = .chRecvd ∧ accepted.sdrv.clientSid = [] ∧
    accepted.sdrv.odcid = [1, 2, 3, 4, 5, 6, 7, 8] ∧ accepted.sdrv.iscid = [9, 9, 9, 9] ∧
    accepted.sdrv.cert = [0x30, 0x00] ∧ accepted.sdrv.serverPub = Vector.replicate 32 3 ∧
    accepted.sched.stage = 0 ∧ accepted.sdrv.serverPriv = accepted.serverPriv ∧
    accepted.hsDoneSent = false := by
  decide

/-- The driver builds the flight: each message fits, whatever the hashes and secrets are. -/
theorem buildServerFlight_accepted : ∃ sh flight,
    (accepted.sdrv.buildServerFlight primitives (Vector.replicate 32 5) 256 2048).1 =
      some (sh, flight) ∧ 100 ≤ flight.length ∧ flight.length ≤ 400 := by
  obtain ⟨-, hsid, hodcid, hiscid, hcert, hpub, -⟩ := accepted_eq
  have hsh : (shbuildServerHello (Vector.replicate 32 5) [] 0x1301 (Vector.replicate 32 3)
      256).isSome := by decide
  obtain ⟨sh, hsh⟩ := Option.isSome_iff_exists.1 hsh
  have hee : ((do
      let tp ← stpBuildServer [1, 2, 3, 4, 5, 6, 7, 8] [9, 9, 9, 9] 256
      eebuildEncryptedExtensions tp 1024).map List.length) = some 73 := by decide
  obtain ⟨ee, hee, heelen⟩ := Option.map_eq_some_iff.1 hee
  have hshared : ∀ priv pub, primitives.shared priv pub = some (Vector.replicate 32 1) := by
    intro priv pub
    rw [ServerPrimitives.shared]
    exact if_neg (show ¬ (Vector.replicate 32 1 : Bytes32) = Vector.replicate 32 0 by decide)
  simp only [Sdrv.buildServerFlight, Sdrv.buildServerHello, hsid, hpub, hsh, Sdrv.deriveSecret,
    hshared, Sdrv.flightMessages]
  rw [Server.emitHsFlight_cons ee
      (by simpa [Sdrv.transcriptAdd, hodcid, hiscid] using hee) (by simp [heelen]),
    Server.emitHsFlight_cons _ (by simp only [Sdrv.transcriptAdd, hcert]; rfl) (by simp [heelen]),
    Server.emitHsFlight_cons _ rfl (by simp [heelen]), Server.emitHsFlight_cons _ rfl (by simp [heelen])]
  refine ⟨_, _, rfl, ?_, ?_⟩ <;> simp [heelen]

/-- Its ServerHello and flight, and the server that sent them. -/
def built : Option (Bytes × Bytes) × Server :=
  accepted.buildFlight primitives (Vector.replicate 32 5) 256 2048

theorem built_eq : ∃ sh flight hs, built.1 = some (sh, flight) ∧ 100 ≤ flight.length ∧
    flight.length ≤ 400 ∧ built.2.phase = .flightSent ∧ built.2.sched.stage = 1 ∧
    built.2.sdrv.handshakeSecretView = some hs ∧ built.2.crecv = built.2.crecv.init ∧
    built.2.hsDoneSent = false ∧ built.2.sdrv.iscid = [9, 9, 9, 9] ∧
    built.2.sdrv.odcid = [1, 2, 3, 4, 5, 6, 7, 8] := by
  obtain ⟨hphase, -, hodcid, hiscid, -, -, hstage, hpriv, hsent⟩ := accepted_eq
  obtain ⟨sh, flight, hbuild, hlo, hhi⟩ := buildServerFlight_accepted
  obtain ⟨ecdhe, sched, -, hsecret, hone, hres⟩ :=
    Server.buildFlight_of_some primitives hpriv hphase hstage hbuild
  obtain ⟨-, -, hkeepOdcid, hkeepIscid, -⟩ := Server.buildServerFlight_spec primitives accepted.sdrv
    (Vector.replicate 32 5) 256 2048
  have hfresh : accepted.crecv = accepted.crecv.init := by
    rw [accepted, Server.recvInitial_crecv]
    rfl
  rw [built, hres]
  exact ⟨sh, flight, _, rfl, hlo, hhi, rfl, hone, hsecret, hfresh, hsent,
    hkeepIscid.trans hiscid, hkeepOdcid.trans hodcid⟩

/-- What lies in memory before the loop is initialised. -/
def loopMemory : Srvloop Unit where
  h3 := ⟨false, false⟩
  cliScid := []
  txPn := 0
  hsTxPn := 0
  appRxPn := 0
  appRxSeen := false
  hsRxPn := 0
  hsRxSeen := false
  hsDoneSent := false
  onRequest := none
  reqCtx := ()
  reqacc := ⟨Vector.replicate _ 0, 0, false, false⟩

/-- A loop with a handler that leaves the body empty. -/
def loop : Srvloop Unit :=
  ((loopMemory.init [7, 7, 7, 7]).getD loopMemory).setHandler (some fun ctx _ => (none, ctx)) ()

/-- The connection with the flight on the wire. -/
def started : ServerConn Unit :=
  ServerConn.sealAndSend aes128 ⟨loop, built.2, []⟩ built.2.sdrv.iscid (built.1.getD ([], [])).1
    (built.1.getD ([], [])).2

theorem started_eq : started.loop = loop ∧ started.server = built.2 := by
  obtain ⟨ini, fl, heq, -, -⟩ := ServerConn.sealAndSend_cases aes128 ⟨loop, built.2, []⟩
    built.2.sdrv.iscid (built.1.getD ([], [])).1 (built.1.getD ([], [])).2
  rw [started, heq]
  exact ⟨rfl, rfl⟩

/-- The secret of the handshake. -/
def secret : Digest := built.2.sdrv.handshakeSecretView.getD (Vector.replicate 32 0)

theorem awaiting : started.Awaiting secret := by
  obtain ⟨sh, flight, hs, -, -, -, hphase, hstage, hsecret, hfresh, hsent, hiscid, -⟩ := built_eq
  obtain ⟨hloop, hserver⟩ := started_eq
  constructor <;> simp only [hloop, hserver]
  · exact hphase
  · exact hstage
  · rw [secret, hsecret]
    rfl
  · exact hfresh
  · exact hsent
  · rfl
  · rfl
  · rfl
  · decide
  · rw [hiscid]
    decide

/-- The client's Finished. -/
def finished : Bytes := started.finishedPacket aes128 secret

/-- The connection once the Finished was answered. -/
def confirmed : ServerConn Unit := started.next aes128 (finished, 1500)

theorem confirmed_eq : confirmed.Serving ∧ confirmed.loop.appRxSeen = false ∧
    confirmed.server.sched.stage = 2 ∧ confirmed.server.sdrv.iscid = [9, 9, 9, 9] ∧
    confirmed.server.sdrv.odcid = [1, 2, 3, 4, 5, 6, 7, 8] := by
  obtain ⟨server, k, p, q, hstep, -, hstage, hsdrv⟩ :=
    started.step_finished aes128 awaiting 1500 (by decide)
  obtain ⟨-, -, -, -, -, -, -, -, -, -, -, hiscid, hodcid⟩ := built_eq
  obtain ⟨hloop, hserver⟩ := started_eq
  rw [hserver] at hsdrv
  rw [confirmed, ServerConn.next, finished, hstep, hloop]
  exact ⟨⟨rfl, Option.some_ne_none _, rfl, rfl, rfl⟩, rfl, hstage,
    by rw [hsdrv]; exact hiscid, by rw [hsdrv]; exact hodcid⟩

theorem confirmed_serving : confirmed.Serving ∧ confirmed.loop.appLargestPn = 0 ∧
    confirmed.server.sdrv.iscid = [9, 9, 9, 9] := by
  obtain ⟨hserving, hseen, -, hiscid, -⟩ := confirmed_eq
  exact ⟨hserving, by simp [Srvloop.appLargestPn, hseen], hiscid⟩

/-- A STREAM frame with FIN: the whole of a GET request for `/`. -/
def get : Bytes := [0x0b, 0x00, 0x07, 0x01, 0x05, 0x00, 0x00, 0xd1, 0xc1, 0xd7]

def getRequest : Request where
  method := ascii "GET"
  scheme := ascii "https"
  authority := []
  path := ascii "/"
  body := []

theorem requests_get : ServerConn.Requests get getRequest :=
  ⟨[0x01, 0x05, 0x00, 0x00, 0xd1, 0xc1, 0xd7], get, by decide, by decide,
    by decide +kernel, by decide +kernel⟩

theorem get_clientAp :
    confirmed.server.sched.get .clientAp = some (confirmed.server.sched.keys .clientAp) :=
  Keysched.get_of_stage _ _ confirmed_eq.2.2.1

/-- A 1-RTT packet of the client, with the first number. -/
def onertt (payload : Bytes) : Bytes :=
  onerttPacket aes128 (confirmed.server.sched.keys .clientAp) [9, 9, 9, 9] 0 payload

theorem split_onertt (payload : Bytes) :
    udploopSplit ServerConn.maxPkts (onertt payload) = [onertt payload] := by
  rw [onertt, onerttPacket, ServerConn.maxPkts]
  exact udploopSplit_short aes128 7 _ _ [9, 9, 9, 9] 0 payload

theorem opens_onertt (payload : Bytes) (hne : payload ≠ []) :
    confirmed.opens aes128 (onertt payload) = some (.onertt,
      openedPacket aes128 (confirmed.server.sched.keys .clientAp) onerttByte0 [9, 9, 9, 9] 0
        payload) := by
  obtain ⟨-, hlargest, hiscid⟩ := confirmed_serving
  have hopen := confirmed.opens_onerttPacket aes128 get_clientAp hne 0
    (by rw [hlargest]; decide)
  rw [hiscid] at hopen
  exact hopen

/-- A request in an Initial packet, made from what is on the wire. -/
def forged : Bytes :=
  initialPacket aes128 [1, 2, 3, 4, 5, 6, 7, 8] [9, 9, 9, 9] [7, 7, 7, 7] 0 get

theorem split_forged : udploopSplit ServerConn.maxPkts forged = [forged] := by
  rw [forged, initialPacket, ServerConn.maxPkts]
  exact udploopSplit_long aes128 7 _ _ true [] (by decide) (by decide) (by decide) (by decide) (by decide)
    (by decide)

theorem opens_forged : ∃ pkt,
    confirmed.opens aes128 forged = some (.initial, { pkt := pkt, payload := get }) := by
  obtain ⟨-, -, -, -, hodcid⟩ := confirmed_eq
  rw [forged, ← hodcid]
  exact confirmed.opens_initialPacket aes128 get 0 (by decide) (by decide) (by decide) (by decide)

end Session

end Loop

end QuicVibe
