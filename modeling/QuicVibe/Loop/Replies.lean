import QuicVibe.Loop.Session
/-!
# What the replies carry

Every datagram the loop returns ends in one 1-RTT packet: while the confirmation is pending, SETTINGS
and HANDSHAKE_DONE, then the response to the request of the step, then an acknowledgement. The frames
are read back here with the walker a receiver uses. The handshake gives HANDSHAKE_DONE out once,
before the packet that carries it is known to fit.
-/

namespace QuicVibe

namespace Loop

open Crypto Packet Keys Http3 Tls
open QuicVibe.Frame

/-! ## The frames of a payload -/

/-- The frame, if it is a STREAM frame. -/
def streamOf (f : Walked) : Option StreamFrame :=
  if isStream f.type then (getStream f.rest).map Prod.fst else none

/-- The STREAM frames of a payload. -/
def streamFrames (payload : Bytes) : List StreamFrame := (walk payload).filterMap streamOf

/-- The STREAM frames of the server's control stream, which carries SETTINGS. -/
def controlFrames (payload : Bytes) : List StreamFrame :=
  (streamFrames payload).filter fun sf => sf.streamId == 3

/-- The number of HANDSHAKE_DONE frames of a payload. -/
def doneFrames (payload : Bytes) : ℕ :=
  (walk payload).countP fun f => classify f.type == .handshakeDone

/-- The frame SETTINGS go out in. -/
def settingsFrame (ctl : Bytes) : StreamFrame :=
  { streamId := 3, offset := 0, data := ctl, fin := false }

/-- The payload carries SETTINGS and HANDSHAKE_DONE, once each. -/
structure Confirms (payload : Bytes) : Prop where
  settings : ∃ ctl, controlStream 64 = some ctl ∧ controlFrames payload = [settingsFrame ctl]
  done : doneFrames payload = 1

/-- The payload carries neither. -/
structure Plain (payload : Bytes) : Prop where
  settings : controlFrames payload = []
  done : doneFrames payload = 0

theorem requestFrames_eq (payload : Bytes) :
    requestFrames payload = (streamFrames payload).filter fun sf => sf.streamId &&& 0x03 == 0 := by
  rw [requestFrames, streamFrames, List.filter_filterMap]
  congr 1
  funext f
  simp only [requestStreamOf, streamOf]
  cases isStream f.type with
  | false => rfl
  | true =>
    rcases getStream f.rest with _ | ⟨sf, n⟩
    · rfl
    · simp [Option.filter]

theorem frames_stream {f : StreamFrame} {cap : ℕ} {wire : Bytes} (h : putStream cap f = some wire)
    (rest : Bytes) : streamFrames (wire ++ rest) = f :: streamFrames rest ∧
      doneFrames (wire ++ rest) = doneFrames rest := by
  obtain ⟨hwire, -, hhas⟩ := putStream_eq_some h
  have htype : isStream (streamType f).toNat = true ∧
      (classify (streamType f).toNat == .handshakeDone) = false := by
    simp only [streamType]
    split_ifs <;> decide
  have hof : streamOf { type := (streamType f).toNat, rest := wire ++ rest } = some f := by
    simp only [streamOf, htype.1, if_true, hhas.2 rest, Option.map_some]
  rw [streamFrames, doneFrames, walk_stream hwire hhas rest, List.filterMap_cons, hof,
    List.countP_cons_of_neg (by simp [htype.2])]
  exact ⟨rfl, rfl⟩

theorem frames_done (rest : Bytes) : streamFrames (0x1e :: rest) = streamFrames rest ∧
    doneFrames (0x1e :: rest) = doneFrames rest + 1 := by
  rw [streamFrames, doneFrames, walk_handshakeDone]
  exact ⟨rfl, List.countP_cons_of_pos rfl⟩

theorem frames_nil : streamFrames [] = [] ∧ doneFrames [] = 0 := ⟨rfl, rfl⟩

theorem frames_ackOne {pn : ℕ} (h : pn ≤ varintMax) :
    streamFrames (ackOneBytes pn) = [] ∧ doneFrames (ackOneBytes pn) = 0 := by
  have hwalk := walk_ackOne h []
  rw [List.append_nil, walk_nil] at hwalk
  rw [streamFrames, doneFrames, hwalk]
  exact ⟨rfl, rfl⟩

/-- The response frames of a reply: one on stream 0 if there was a request. -/
def Responses (req : Option Request) (frames : List StreamFrame) : Prop :=
  (req = none ∧ frames = []) ∨
    ∃ data, req ≠ none ∧ frames = [{ streamId := 0, offset := 0, data := data, fin := true }]

variable {req : Option Request} {frames : List StreamFrame}

theorem Responses.filter (h : Responses req frames) :
    (frames.filter fun sf => sf.streamId &&& 0x03 == 0) = frames ∧
      (frames.filter fun sf => sf.streamId == 3) = [] := by
  rcases h with ⟨-, rfl⟩ | ⟨data, -, rfl⟩ <;> simp

variable {pl : Bytes}

theorem plain_of_frames (hframes : Responses req frames) (hstream : streamFrames pl = frames)
    (hdone : doneFrames pl = 0) : Responses req (requestFrames pl) ∧ Plain pl := by
  obtain ⟨hreq, hctl⟩ := hframes.filter
  refine ⟨?_, ⟨?_, hdone⟩⟩
  · rw [requestFrames_eq, hstream, hreq]
    exact hframes
  · rw [controlFrames, hstream, hctl]

theorem confirms_of_frames {ctl : Bytes} (hctl : controlStream 64 = some ctl)
    (hframes : Responses req frames) (hstream : streamFrames pl = settingsFrame ctl :: frames)
    (hdone : doneFrames pl = 1) : Responses req (requestFrames pl) ∧ Confirms pl := by
  obtain ⟨hreq, hnone⟩ := hframes.filter
  refine ⟨?_, ⟨⟨ctl, hctl, ?_⟩, hdone⟩⟩
  · rw [requestFrames_eq, hstream, List.filter_cons_of_neg (by simp [settingsFrame]), hreq]
    exact hframes
  · rw [controlFrames, hstream, List.filter_cons_of_pos (by simp [settingsFrame]), hnone]

namespace ServerConn

variable {Ctx : Type} (aes : Block → Block → Block) (c : ServerConn Ctx)

/-! ## One reply -/

/-- The payload of the 1-RTT packet of a reply, if the builders get that far. -/
def replyPayload (req : Option Request) (cap : ℕ) : Option Bytes :=
  if !c.loop.hsDoneSent then
    match c.emitHandshakeAck aes cap with
    | (none, _) => none
    | (some _, c) =>
      match c.confirmThenMaybe200 req payloadMax with
      | (none, _) => none
      | (some pl, c) => some (pl ++ c.appAckAppend (payloadMax - pl.length))
  else
    match req with
    | none => some (c.appAckAppend 16)
    | some _ =>
      match c.responseFrame req payloadMax with
      | (none, _) => none
      | (some pl, c) => some (pl ++ c.appAckAppend (payloadMax - pl.length))

/-- The 1-RTT packet of a returned datagram: its number and its payload. -/
structure Reply where
  pn : ℕ
  payload : Bytes

/-- What the datagram a step returns carries. -/
def returned (e : ServerConn Ctx × LoopOp) : Option Reply := do
  let (c, req) := e.1.stepPackets aes e.2.1
  let _ ← (c.produce aes req e.2.2).1
  let payload ← c.replyPayload aes req e.2.2
  return { pn := c.loop.txPn, payload := payload }

theorem frames_appAckAppend (cap : ℕ) : streamFrames (c.appAckAppend cap) = [] ∧
    doneFrames (c.appAckAppend cap) = 0 := by
  rcases c.appAckAppend_cases cap with h | ⟨pn, hpn, h⟩
  · rw [h]
    exact frames_nil
  · rw [h]
    exact frames_ackOne hpn

theorem frames_responseFrame (req : Option Request) (cap : ℕ) (resp : Bytes)
    (h : (c.responseFrame req cap).1 = some resp) : ∃ frames, Responses req frames ∧
      ∀ rest, streamFrames (resp ++ rest) = frames ++ streamFrames rest ∧
        doneFrames (resp ++ rest) = doneFrames rest := by
  cases req with
  | none =>
    obtain rfl := Option.some.inj h
    exact ⟨[], Or.inl ⟨rfl, rfl⟩, fun rest => ⟨rfl, rfl⟩⟩
  | some r =>
    simp only [responseFrame, H3srv.buildResponse, sendResponse] at h
    obtain ⟨-, hsend⟩ := Option.ite_none_right_eq_some.1 h
    obtain ⟨data, -, hput⟩ := Option.bind_eq_some_iff.1 hsend
    exact ⟨_, Or.inr ⟨data, Option.some_ne_none r, rfl⟩, fun rest => frames_stream hput rest⟩

/-- **SETTINGS and HANDSHAKE_DONE** leave their flags behind, and are given out to a confirmed
server once. -/
theorem confirmPayload_spec (cap : ℕ) : ∃ h3 sent,
    (c.confirmPayload cap).2 =
      { c with loop := { c.loop with h3 := h3 }, server := { c.server with hsDoneSent := sent } } ∧
    ∀ pl, (c.confirmPayload cap).1 = some pl →
      c.server.finConfirmed = true ∧ c.server.hsDoneSent = false ∧ sent = true ∧
      ∃ ctl settings, controlStream 64 = some ctl ∧
        putStream cap (settingsFrame ctl) = some settings ∧ pl = settings ++ [0x1e] := by
  simp only [confirmPayload, buildSettingsFrame, H3srv.openControl]
  cases hctl : controlStream 64 with
  | none => exact ⟨c.loop.h3, c.server.hsDoneSent, rfl, by simp⟩
  | some ctl =>
    dsimp only
    cases hput : putStream cap { streamId := 3, offset := 0, data := ctl, fin := false } with
    | none => exact ⟨_, c.server.hsDoneSent, rfl, by simp⟩
    | some settings =>
      dsimp only
      rcases c.server.handshakeDone_cases (cap - settings.length) with hdone | ⟨hfin, hsent, hdone⟩
      · rw [hdone]
        exact ⟨_, c.server.hsDoneSent, rfl, by simp⟩
      · rw [hdone]
        refine ⟨_, true, rfl, fun pl hpl => ⟨hfin, hsent, rfl, ctl, settings, rfl, hput, ?_⟩⟩
        exact (Option.some.inj hpl).symm

/-- **The confirmation and the response**: what is left behind, and the frames in front of anything.
An unconfirmed server has nothing to send, and its handler does not run. -/
theorem confirmThenMaybe200_spec (req : Option Request) (cap : ℕ) : ∃ h3 sent ctx calls,
    (c.confirmThenMaybe200 req cap).2 = { c with
      loop := { c.loop with h3 := h3, reqCtx := ctx }
      server := { c.server with hsDoneSent := sent }
      trace := c.trace ++ calls } ∧
    (c.server.finConfirmed = false → (c.confirmThenMaybe200 req cap).1 = none ∧ calls = []) ∧
    ∀ pl, (c.confirmThenMaybe200 req cap).1 = some pl → c.server.finConfirmed = true ∧
      ∃ ctl frames, controlStream 64 = some ctl ∧ Responses req frames ∧ ∀ rest,
        streamFrames (pl ++ rest) = settingsFrame ctl :: (frames ++ streamFrames rest) ∧
        doneFrames (pl ++ rest) = doneFrames rest + 1 := by
  simp only [confirmThenMaybe200]
  obtain ⟨h3, sent, h₁, hspec⟩ := c.confirmPayload_spec cap
  generalize c.confirmPayload cap = r at h₁ hspec ⊢
  rcases r with ⟨_ | confirm, c₁⟩
  · dsimp only at h₁ ⊢
    subst h₁
    exact ⟨h3, sent, c.loop.reqCtx, [], by simp, fun _ => ⟨rfl, rfl⟩, by simp⟩
  · obtain ⟨hfin, -, -, ctl, settings, hctl, hput, rfl⟩ := hspec confirm rfl
    have hfin' : c.server.finConfirmed ≠ false := by simp [hfin]
    obtain ⟨ctx, calls, h₂, -⟩ :=
      c₁.responseFrame_cases req (cap - (settings ++ [0x1e]).length)
    have hframes := fun resp =>
      c₁.frames_responseFrame req (cap - (settings ++ [0x1e]).length) resp
    dsimp only at h₁ ⊢
    generalize c₁.responseFrame req (cap - (settings ++ [0x1e]).length) = r at h₂ hframes ⊢
    rcases r with ⟨_ | resp, c₂⟩
    · dsimp only at h₂ ⊢
      subst h₂ h₁
      exact ⟨h3, sent, ctx, calls, rfl, fun h => absurd h hfin', by simp⟩
    · dsimp only at h₂ ⊢
      subst h₂ h₁
      refine ⟨h3, sent, ctx, calls, rfl, fun h => absurd h hfin', ?_⟩
      intro pl hpl
      obtain rfl := Option.some.inj hpl
      obtain ⟨frames, hresp, hrest⟩ := hframes resp rfl
      refine ⟨hfin, ctl, frames, hctl, hresp, fun rest => ?_⟩
      obtain ⟨hset, hset'⟩ := frames_stream hput (0x1e :: (resp ++ rest))
      obtain ⟨hdone, hdone'⟩ := frames_done (resp ++ rest)
      obtain ⟨hre, hre'⟩ := hrest rest
      have hassoc : settings ++ [0x1e] ++ resp ++ rest = settings ++ 0x1e :: (resp ++ rest) := by
        simp
      rw [hassoc, hset, hset', hdone, hdone', hre, hre']
      exact ⟨rfl, rfl⟩

/-- What a reply may change. -/
def Changes (c c' : ServerConn Ctx) : Prop :=
  ∃ hsTxPn h3 ctx txPn sent trace, c' = { c with
    loop := { c.loop with hsTxPn := hsTxPn, h3 := h3, reqCtx := ctx, txPn := txPn }
    server := { c.server with hsDoneSent := sent }
    trace := trace }

variable {c₁ : ServerConn Ctx} {events : List Event} {P : ServerPrimitives} {replies : List Reply}
  {steps room : ℕ}

theorem Changes.trans {c₂ c₃ : ServerConn Ctx} (h : Changes c₁ c₂) (h' : Changes c₂ c₃) :
    Changes c₁ c₃ := by
  obtain ⟨_, _, _, _, _, _, rfl⟩ := h
  obtain ⟨hsTxPn, h3, ctx, txPn, sent, trace, rfl⟩ := h'
  exact ⟨hsTxPn, h3, ctx, txPn, sent, trace, rfl⟩

theorem changes_sendOnertt (payload : Bytes) (cap : ℕ) :
    Changes c (c.sendOnertt aes payload cap).2 := by
  obtain ⟨n, one, h, -⟩ := c.sendOnertt_cases aes payload cap
  rw [h]
  exact ⟨_, _, _, _, _, _, rfl⟩

theorem changes_produceConfirmed (req : Option Request) (cap : ℕ) :
    Changes c (c.produceConfirmed aes req cap).2 := by
  cases req with
  | none =>
    simp only [produceConfirmed, emitAckOnly]
    split
    · exact ⟨_, _, _, _, _, _, rfl⟩
    · exact c.changes_sendOnertt aes _ cap
  | some r =>
    simp only [produceConfirmed, emitResponse]
    obtain ⟨ctx, calls, h, -⟩ := c.responseFrame_cases (some r) payloadMax
    have hc : Changes c (c.responseFrame (some r) payloadMax).2 := by
      rw [h]
      exact ⟨_, _, _, _, _, _, rfl⟩
    generalize c.responseFrame (some r) payloadMax = out at hc ⊢
    rcases out with ⟨_ | pl, c₁⟩
    · exact hc
    · exact hc.trans (c₁.changes_sendOnertt aes _ cap)

theorem changes_emitConfirm (req : Option Request) (cap : ℕ) :
    Changes c (c.emitConfirm aes req cap).2 := by
  obtain ⟨n, hs, h, -, -⟩ := c.emitHandshakeAck_cases aes cap
  have hc : Changes c (c.emitHandshakeAck aes cap).2 := by
    rw [h]
    exact ⟨_, _, _, _, _, _, rfl⟩
  simp only [emitConfirm, sealConfirmOnertt]
  generalize c.emitHandshakeAck aes cap = r at hc ⊢
  rcases r with ⟨_ | front, c₁⟩
  · exact hc
  · obtain ⟨h3, sent, ctx, calls, h₂, -, -⟩ := c₁.confirmThenMaybe200_spec req payloadMax
    have hc₂ : Changes c (c₁.confirmThenMaybe200 req payloadMax).2 := by
      refine hc.trans ?_
      rw [h₂]
      exact ⟨_, _, _, _, _, _, rfl⟩
    dsimp only
    generalize c₁.confirmThenMaybe200 req payloadMax = r at hc₂ ⊢
    rcases r with ⟨_ | pl, c₂⟩
    · exact hc₂
    · have hc₃ := hc₂.trans (c₂.changes_sendOnertt aes
        (pl ++ c₂.appAckAppend (payloadMax - pl.length)) (cap - front.length))
      dsimp only
      generalize c₂.sendOnertt aes _ (cap - front.length) = r at hc₃ ⊢
      rcases r with ⟨_ | one, c₃⟩ <;> exact hc₃

/-- **What replying may change**, and the flag that the confirmation is out: it is set by the first
datagram returned. -/
theorem changes_produce (req : Option Request) (cap : ℕ) : ∃ c', Changes c c' ∧
    (c.produce aes req cap).2 = { c' with loop := { c'.loop with
      hsDoneSent := c.loop.hsDoneSent || (c.produce aes req cap).1.isSome } } := by
  cases hsent : c.loop.hsDoneSent with
  | true =>
    have h := c.changes_produceConfirmed aes req cap
    have hprod : c.produce aes req cap = c.produceConfirmed aes req cap := by
      rw [produce, hsent]
      rfl
    rw [hprod]
    refine ⟨_, h, ?_⟩
    obtain ⟨hsTxPn, h3, ctx, txPn, sent, trace, hc⟩ := h
    rw [hc, Bool.true_or, ← hsent]
  | false =>
    have h := c.changes_emitConfirm aes req cap
    simp only [produce, hsent, Bool.not_false, if_true, Bool.false_or]
    generalize c.emitConfirm aes req cap = r at h ⊢
    rcases r with ⟨_ | out, c₁⟩
    · refine ⟨_, h, ?_⟩
      obtain ⟨hsTxPn, h3, ctx, txPn, sent, trace, hc⟩ := h
      dsimp only at hc ⊢
      rw [hc, Option.isSome_none, ← hsent]
    · exact ⟨_, h, rfl⟩

/-! ### The datagram -/

/-- **A returned datagram** ends in the 1-RTT packet of the payload, under the next number. -/
structure Returns (req : Option Request) (cap : ℕ) (d pl : Bytes) : Prop where
  payload : c.replyPayload aes req cap = some pl
  packet : ∃ front k, c.server.sched.get .serverAp = some k ∧
    d = front ++ onerttPacket aes k c.loop.cliScid c.loop.txPn pl
  responses : Responses req (requestFrames pl)
  txPn : (c.produce aes req cap).2.loop.txPn = u64 (c.loop.txPn + 1)
  confirms : c.loop.hsDoneSent = false → c.server.finConfirmed = true ∧ Confirms pl
  plain : c.loop.hsDoneSent = true → Plain pl

variable {cap : ℕ} {req : Option Request} {d : Bytes} {o : LoopOp} {hs : Digest}

/-- A 1-RTT packet that was sealed, by a connection that has the keys and the counter of `c`. -/
theorem sendOnertt_eq_some (hsched : c₁.server.sched = c.server.sched)
    (hcid : c₁.loop.cliScid = c.loop.cliScid) (hpn : c₁.loop.txPn = c.loop.txPn) {payload : Bytes}
    {q : Bytes} (h : (c₁.sendOnertt aes payload cap).1 = some q) :
    ∃ k, c.server.sched.get .serverAp = some k ∧
      q = onerttPacket aes k c.loop.cliScid c.loop.txPn payload ∧
      (c₁.sendOnertt aes payload cap).2.loop.txPn = u64 (c.loop.txPn + 1) := by
  rw [← hsched, ← hcid, ← hpn]
  simp only [sendOnertt] at h ⊢
  cases hk : c₁.server.sched.get .serverAp with
  | none =>
    rw [hk] at h
    cases h
  | some k =>
    rw [hk] at h
    dsimp only at h ⊢
    rw [h]
    refine ⟨k, rfl, ?_, rfl⟩
    rw [onerttBuild_eq] at h
    exact (Option.some.inj (Option.ite_none_left_eq_some.1 h).2).symm

theorem returns_of_sent (hsent : c.loop.hsDoneSent = true)
    (h : (c.produce aes req cap).1 = some d) : ∃ pl, c.Returns aes req cap d pl := by
  have hno : c.loop.hsDoneSent ≠ false := by simp [hsent]
  have hprod : c.produce aes req cap = c.produceConfirmed aes req cap := by
    rw [produce, hsent]
    rfl
  rw [hprod] at h
  cases req with
  | none =>
    simp only [produceConfirmed, emitAckOnly] at h hprod
    split at h
    · cases h
    · rename_i hlen
      rw [if_neg hlen] at hprod
      obtain ⟨k, hk, hq, hpn⟩ := c.sendOnertt_eq_some aes rfl rfl rfl h
      obtain ⟨hstream, hdone⟩ := c.frames_appAckAppend 16
      obtain ⟨hresp, hplain⟩ := plain_of_frames (Or.inl ⟨rfl, rfl⟩) hstream hdone
      exact ⟨_, by simp [replyPayload, hsent], ⟨[], k, hk, hq⟩, hresp, by rw [hprod, hpn],
        fun hf => absurd hf hno, fun _ => hplain⟩
  | some r =>
    simp only [produceConfirmed, emitResponse] at h hprod
    obtain ⟨ctx, calls, hc₁, -⟩ := c.responseFrame_cases (some r) payloadMax
    have hframes := fun resp => c.frames_responseFrame (some r) payloadMax resp
    cases hout : c.responseFrame (some r) payloadMax with
    | mk out c₁ =>
      rw [hout] at h hprod hc₁ hframes
      cases out with
      | none => cases h
      | some resp =>
        obtain ⟨frames, hresp, hrest⟩ := hframes resp rfl
        obtain ⟨k, hk, hq, hpn⟩ := c.sendOnertt_eq_some aes (by rw [show c₁ = _ from hc₁])
          (by rw [show c₁ = _ from hc₁]) (by rw [show c₁ = _ from hc₁]) h
        obtain ⟨hack, hack'⟩ := c₁.frames_appAckAppend (payloadMax - resp.length)
        obtain ⟨hstream, hdone⟩ := hrest (c₁.appAckAppend (payloadMax - resp.length))
        rw [hack, List.append_nil] at hstream
        rw [hack'] at hdone
        obtain ⟨hresp, hplain⟩ := plain_of_frames hresp hstream hdone
        have hpay : c.replyPayload aes (some r) cap =
            some (resp ++ c₁.appAckAppend (payloadMax - resp.length)) := by
          simp [replyPayload, hsent, hout]
        exact ⟨_, hpay, ⟨[], k, hk, hq⟩, hresp, by rw [hprod, hpn],
          fun hf => absurd hf hno, fun _ => hplain⟩

theorem emitConfirm_eq_some {c' : ServerConn Ctx} (h : c.emitConfirm aes req cap = (some d, c')) :
    ∃ front c₁ pl c₂ q,
      c.emitHandshakeAck aes cap = (some front, c₁) ∧
      c₁.confirmThenMaybe200 req payloadMax = (some pl, c₂) ∧
      c₂.sendOnertt aes (pl ++ c₂.appAckAppend (payloadMax - pl.length)) (cap - front.length) =
        (some q, c') ∧ d = front ++ q := by
  simp only [emitConfirm, sealConfirmOnertt] at h
  rcases hfront : c.emitHandshakeAck aes cap with ⟨_ | front, c₁⟩
  · rw [hfront] at h
    cases h
  rw [hfront] at h
  dsimp only at h
  rcases hout : c₁.confirmThenMaybe200 req payloadMax with ⟨_ | pl, c₂⟩
  · rw [hout] at h
    cases h
  rw [hout] at h
  dsimp only at h
  rcases hq : c₂.sendOnertt aes (pl ++ c₂.appAckAppend (payloadMax - pl.length))
    (cap - front.length) with ⟨_ | q, c₃⟩
  · rw [hq] at h
    cases h
  rw [hq] at h
  obtain ⟨hd, rfl⟩ := Prod.mk.inj h
  exact ⟨front, c₁, pl, c₂, q, rfl, hout, hq, (Option.some.inj hd).symm⟩

theorem returns_of_pending (hpending : c.loop.hsDoneSent = false)
    (h : (c.produce aes req cap).1 = some d) : ∃ pl, c.Returns aes req cap d pl := by
  have hprod : c.produce aes req cap = match c.emitConfirm aes req cap with
      | (none, c) => (none, c)
      | (some out, c) => (some out, { c with loop := { c.loop with hsDoneSent := true } }) := by
    rw [produce, hpending]
    rfl
  rcases hemit : c.emitConfirm aes req cap with ⟨_ | d', c'⟩
  · rw [hprod, hemit] at h
    cases h
  rw [hemit] at hprod
  rw [hprod] at h
  obtain rfl := Option.some.inj h
  obtain ⟨front, c₁, pl, c₂, q, hfront, hout, hq, rfl⟩ := c.emitConfirm_eq_some aes hemit
  -- the builders before the seal leave its keys and its counter alone
  obtain ⟨n, hs, hc₁, -, -⟩ := c.emitHandshakeAck_cases aes cap
  obtain ⟨h3, sent, ctx, calls, hc₂, -, hspec⟩ := c₁.confirmThenMaybe200_spec req payloadMax
  rw [hfront] at hc₁
  rw [hout] at hc₂ hspec
  dsimp only at hc₁ hc₂
  obtain ⟨k, hk, hpacket, hpn⟩ := c.sendOnertt_eq_some aes (by rw [hc₂, hc₁]) (by rw [hc₂, hc₁])
    (by rw [hc₂, hc₁]) (congrArg Prod.fst hq)
  rw [hq] at hpn
  -- the frames
  obtain ⟨hfin, ctl, frames, hctl, hresp, hrest⟩ := hspec pl rfl
  obtain ⟨hack, hack'⟩ := c₂.frames_appAckAppend (payloadMax - pl.length)
  obtain ⟨hstream, hdone⟩ := hrest (c₂.appAckAppend (payloadMax - pl.length))
  rw [hack, List.append_nil] at hstream
  rw [hack'] at hdone
  obtain ⟨hresp, hconfirms⟩ := confirms_of_frames hctl hresp hstream hdone
  rw [hc₁] at hfin
  exact ⟨_, by simp [replyPayload, hpending, hfront, hout], ⟨front, k, hk, by rw [← hpacket]⟩, hresp,
    by rw [hprod]; exact hpn, fun _ => ⟨hfin, hconfirms⟩,
    fun hsent => by rw [hpending] at hsent; cases hsent⟩

/-- **Every returned datagram** is of this form. -/
theorem returns_produce (h : (c.produce aes req cap).1 = some d) :
    ∃ pl, c.Returns aes req cap d pl := by
  cases hsent : c.loop.hsDoneSent with
  | true => exact c.returns_of_sent aes hsent h
  | false => exact c.returns_of_pending aes hsent h

/-- **Before the confirmation** nothing is returned, and nothing goes on the trace but a Handshake
packet. -/
theorem produce_of_unconfirmed (hpending : c.loop.hsDoneSent = false)
    (hfin : c.server.finConfirmed = false) (req : Option Request) (cap : ℕ) :
    (c.produce aes req cap).1 = none ∧ ∃ n hs, (c.produce aes req cap).2.trace = c.trace ++ hs ∧
      Seals .handshake (c.server.sched.get .serverHs) c.loop.hsTxPn n hs := by
  obtain ⟨n, hs, hc₁, hseals, -⟩ := c.emitHandshakeAck_cases aes cap
  simp only [produce, hpending, Bool.not_false, if_true, emitConfirm, sealConfirmOnertt]
  rcases hfront : c.emitHandshakeAck aes cap with ⟨_ | front, c₁⟩
  · rw [hfront] at hc₁
    dsimp only at hc₁ ⊢
    exact ⟨rfl, n, hs, by rw [hc₁], hseals⟩
  · rw [hfront] at hc₁
    dsimp only at hc₁ ⊢
    obtain ⟨h3, sent, ctx, calls, hc₂, hnone, -⟩ := c₁.confirmThenMaybe200_spec req payloadMax
    obtain ⟨hout, rfl⟩ := hnone (by rw [hc₁]; exact hfin)
    generalize c₁.confirmThenMaybe200 req payloadMax = r at hc₂ hout ⊢
    obtain ⟨out, c₂⟩ := r
    obtain rfl : out = none := hout
    dsimp only at hc₂ ⊢
    exact ⟨rfl, n, hs, by rw [hc₂, hc₁, List.append_nil], hseals⟩

/-! ## Runs -/

/-- A connection as the example server starts it: a server driven by any calls, a loop just
initialised for it, and the flight sealed. -/
def Starts (P : ServerPrimitives) (c : ServerConn Ctx) : Prop :=
  ∃ (memory : Server) (priv pub seed : Bytes32) (calls : List ServerOp) (l₀ l : Srvloop Ctx)
    (cliScid : Bytes) (handler : Option (Ctx → Request → Option Body × Ctx)) (ctx : Ctx)
    (serverScid sh flight : Bytes), l₀.init cliScid = some l ∧
    c = sealAndSend aes ⟨l.setHandler handler ctx,
      Run.run (Server.step P) (Server.init P memory priv pub seed) calls, []⟩ serverScid sh flight

/-- The loop says that the confirmation is out only of a confirmed server. -/
structure Gated (c : ServerConn Ctx) : Prop where
  server : c.server.Coherent
  cliScid : c.loop.cliScid.length ≤ maxCidLen
  sent : c.loop.hsDoneSent = true → c.server.isConfirmed = true

/-- An event of the application's level: a 1-RTT packet sealed, or a call of the handler. -/
def Event.isApp : Event → Bool
  | .sealed level _ _ _ => level == .onertt
  | .handled _ => true

theorem Seals.not_isApp {key : Option InitialKeys} {pn pn' : ℕ}
    (h : Seals .handshake key pn pn' events) : ∀ ev ∈ events, Event.isApp ev = false := by
  cases h <;> simp [Event.isApp]

theorem starts_eq {c : ServerConn Ctx} (h : Starts aes P c) :
    Gated c ∧ c.loop.hsDoneSent = false ∧ c.loop.txPn = 0 ∧
      ∀ ev ∈ c.trace, Event.isApp ev = false := by
  obtain ⟨memory, priv, pub, seed, calls, l₀, l, cliScid, handler, ctx, serverScid, sh, flight,
    hinit, rfl⟩ := h
  obtain ⟨ini, hs, heq, hini, hhs⟩ := sealAndSend_cases aes ⟨l.setHandler handler ctx,
    Run.run (Server.step P) (Server.init P memory priv pub seed) calls, []⟩ serverScid sh flight
  have hcid : maxCidLen = 20 := rfl
  rw [Srvloop.init] at hinit
  obtain ⟨hlen, hl⟩ := Option.ite_none_left_eq_some.1 hinit
  obtain rfl := Option.some.inj hl
  rw [heq]
  refine ⟨⟨Server.coherent_run P memory priv pub seed calls, ?_, ?_⟩, rfl, rfl, ?_⟩
  · show cliScid.length ≤ maxCidLen
    omega
  · intro hsent
    cases hsent
  · intro ev hev
    rcases List.mem_append.1 hev with hev | hev
    · cases hev
    · rcases List.mem_append.1 hev with hev | hev
      · rcases hini with rfl | ⟨k, p, rfl⟩
        · cases hev
        · rw [List.mem_singleton.1 hev]
          rfl
      · rcases hhs with rfl | ⟨k, p, -, rfl⟩
        · cases hev
        · rw [List.mem_singleton.1 hev]
          rfl

theorem dispatch_server (payload : Bytes) : (c.dispatch payload).2.server = c.server ∨
    (c.dispatch payload).2.server = (c.server.feed payload).2 := by
  rw [dispatch]
  split
  · simp only [dispatchNonRequest]
    split
    · exact Or.inl rfl
    · split
      · exact Or.inl rfl
      · exact Or.inr rfl
  · simp only [reassembleAndDrive, driveComplete]
    split
    · split <;> exact Or.inl rfl
    · exact Or.inl rfl

theorem Gated.stepOne {st : ServerConn Ctx × Option Request} (h : Gated st.1) (pkt : Bytes) :
    Gated (ServerConn.stepOne aes st pkt).1 := by
  have hlisten := listens_stepOne aes st pkt
  have hserver : (ServerConn.stepOne aes st pkt).1.server = st.1.server ∨
      ∃ payload, (ServerConn.stepOne aes st pkt).1.server = (st.1.server.feed payload).2 := by
    rw [stepOne_eq]
    rcases st.1.opens aes pkt with _ | ⟨level, opened⟩
    · exact Or.inl rfl
    · exact ((st.1.noteRx level opened.pkt).dispatch_server opened.payload).imp_right
        fun hfeed => ⟨_, hfeed⟩
  refine ⟨?_, ?_, ?_⟩
  · rcases hserver with heq | ⟨payload, heq⟩
    · rw [heq]
      exact h.server
    · rw [heq]
      exact (h.server.feed payload).1
  · rw [hlisten.cliScid]
    exact h.cliScid
  · rw [hlisten.hsDoneSent]
    intro hsent
    rcases hserver with heq | ⟨payload, heq⟩
    · rw [heq]
      exact h.sent hsent
    · rw [heq]
      exact (h.server.feed payload).2 (h.sent hsent)

theorem Gated.stepPackets (h : Gated c) (dgram : Bytes) :
    Gated (c.stepPackets aes dgram).1 :=
  Run.run_invariant (P := fun st : ServerConn Ctx × Option Request => Gated st.1) _ h
    fun _ pkt _ hst => hst.stepOne aes pkt

/-- A reply keeps the gate: the first one returned is that of a confirmed server. -/
theorem Gated.produce (h : Gated c) (req : Option Request) (cap : ℕ) :
    Gated (c.produce aes req cap).2 := by
  obtain ⟨c', ⟨hsTxPn, h3, ctx, txPn, sent, trace, rfl⟩, heq⟩ := c.changes_produce aes req cap
  rw [heq]
  refine ⟨⟨h.server.stage, h.server.confirmed, h.server.iscid⟩, h.cliScid, fun hsent => ?_⟩
  show c.server.isConfirmed = true
  rcases Bool.or_eq_true_iff.1 hsent with hsent | hsome
  · exact h.sent hsent
  · obtain ⟨d, hd⟩ := Option.isSome_iff_exists.1 hsome
    obtain ⟨pl, hret⟩ := c.returns_produce aes hd
    cases hflag : c.loop.hsDoneSent with
    | true => exact h.sent hflag
    | false =>
      rw [← h.server.confirmed]
      exact (hret.confirms hflag).1

theorem Gated.next (h : Gated c) (o : LoopOp) : Gated (c.next aes o) := by
  have hprod := (h.stepPackets aes c o.1).produce aes _ (c.stepPackets aes o.1).2 o.2
  rw [next_eq]
  generalize (c.stepPackets aes o.1).2 = req at hprod ⊢
  cases req with
  | none => exact hprod
  | some r => exact ⟨hprod.server, hprod.cliScid, hprod.sent⟩

@[simp] theorem rearmReqacc_hsDoneSent (req : Option Request) :
    (c.rearmReqacc req).loop.hsDoneSent = c.loop.hsDoneSent := by
  cases req <;> rfl

theorem returned_eq_some (h : (c.step aes o.1 o.2).1 = some d) :
    ∃ pl, returned aes (c, o) = some { pn := (c.stepPackets aes o.1).1.loop.txPn, payload := pl } ∧
      (c.stepPackets aes o.1).1.Returns aes (c.stepPackets aes o.1).2 o.2 d pl := by
  have hout : ((c.stepPackets aes o.1).1.produce aes (c.stepPackets aes o.1).2 o.2).1 = some d := h
  obtain ⟨pl, hret⟩ := (c.stepPackets aes o.1).1.returns_produce aes hout
  refine ⟨pl, ?_, hret⟩
  simp only [returned, hout, hret.payload, Option.bind_eq_bind, Option.bind_some, Option.pure_def]

theorem returned_eq_none (h : (c.step aes o.1 o.2).1 = none) : returned aes (c, o) = none := by
  have hout : ((c.stepPackets aes o.1).1.produce aes (c.stepPackets aes o.1).2 o.2).1 = none := h
  simp only [returned, hout, Option.bind_eq_bind, Option.bind_none]

/-- The replies of the steps made so far, and the state they led to: the first is the confirmation,
the others are not, and their numbers are below the counter. -/
structure Ordered (replies : List Reply) (steps : ℕ) (c : ServerConn Ctx) : Prop where
  gated : Gated c
  sent : c.loop.hsDoneSent = true ↔ replies ≠ []
  first : ∀ r rest, replies = r :: rest → Confirms r.payload ∧ ∀ r' ∈ rest, Plain r'.payload
  counter : steps < 2 ^ 64 → c.loop.txPn ≤ steps ∧ (∀ r ∈ replies, r.pn < c.loop.txPn) ∧
    replies.Pairwise fun r r' => r.pn < r'.pn

theorem Ordered.next_none {c : ServerConn Ctx} (h : Ordered replies steps c)
    (hnone : (c.step aes o.1 o.2).1 = none) : Ordered replies (steps + 1) (c.next aes o) := by
  obtain ⟨hs, calls, one, htx⟩ :=
    (c.stepPackets aes o.1).1.replies_produce aes (c.stepPackets aes o.1).2 o.2
  obtain ⟨c', ⟨hsTxPn, h3, ctx, txPn, sent, trace, rfl⟩, heq⟩ :=
    (c.stepPackets aes o.1).1.changes_produce aes (c.stepPackets aes o.1).2 o.2
  have hrx := c.listens_stepPackets aes o.1
  have hout : ((c.stepPackets aes o.1).1.produce aes (c.stepPackets aes o.1).2 o.2).1 = none := hnone
  have hflag : (c.next aes o).loop.hsDoneSent = c.loop.hsDoneSent := by
    rw [next_eq, rearmReqacc_hsDoneSent, heq, ← hrx.hsDoneSent]
    simp only [hout, Option.isSome_none, Bool.or_false]
  refine ⟨h.gated.next aes c o, by rw [hflag]; exact h.sent, h.first, fun hlen => ?_⟩
  obtain ⟨hle, hbelow, hpair⟩ := h.counter (by omega)
  have hpn : c.loop.txPn ≤ (c.next aes o).loop.txPn ∧
      (c.next aes o).loop.txPn ≤ c.loop.txPn + 1 := by
    have hseal := htx.onertt
    rw [hrx.txPn] at hseal
    rw [next_eq, rearmReqacc_txPn]
    have hword : u64 (c.loop.txPn + 1) = c.loop.txPn + 1 := u64_of_lt (by omega)
    generalize ((c.stepPackets aes o.1).1.produce aes _ o.2).2.loop.txPn = n at hseal ⊢
    cases hseal <;> omega
  exact ⟨by omega, fun r hr => (hbelow r hr).trans_le hpn.1, hpair⟩

theorem Ordered.next_some {c : ServerConn Ctx} (h : Ordered replies steps c) {pl : Bytes}
    (hret : (c.stepPackets aes o.1).1.Returns aes (c.stepPackets aes o.1).2 o.2 d pl)
    (hsome : (c.step aes o.1 o.2).1 = some d) :
    Ordered (replies ++ [{ pn := (c.stepPackets aes o.1).1.loop.txPn, payload := pl }]) (steps + 1)
      (c.next aes o) := by
  obtain ⟨c', ⟨hsTxPn, h3, ctx, txPn, sent, trace, rfl⟩, heq⟩ :=
    (c.stepPackets aes o.1).1.changes_produce aes (c.stepPackets aes o.1).2 o.2
  have hrx := c.listens_stepPackets aes o.1
  have hout : ((c.stepPackets aes o.1).1.produce aes (c.stepPackets aes o.1).2 o.2).1 = some d := hsome
  have hflag : (c.next aes o).loop.hsDoneSent = true := by
    rw [next_eq, rearmReqacc_hsDoneSent, heq]
    simp only [hout, Option.isSome_some, Bool.or_true]
  refine ⟨h.gated.next aes c o, by simp [hflag], fun r rest heq => ?_, fun hlen => ?_⟩
  · cases replies with
    | nil =>
      -- nothing was returned before, so the confirmation was pending
      obtain ⟨rfl, rfl⟩ := List.cons.inj heq
      have hpending : c.loop.hsDoneSent = false := by
        rw [← Bool.not_eq_true, h.sent]
        simp
      exact ⟨(hret.confirms (hrx.hsDoneSent.trans hpending)).2, by simp⟩
    | cons r₀ rest₀ =>
      obtain ⟨rfl, rfl⟩ := List.cons.inj heq
      have hsent : c.loop.hsDoneSent = true := h.sent.2 (by simp)
      obtain ⟨hconfirms, hplain⟩ := h.first _ _ rfl
      refine ⟨hconfirms, fun r' hr' => ?_⟩
      rcases List.mem_append.1 hr' with hr' | hr'
      · exact hplain r' hr'
      · rw [List.mem_singleton.1 hr']
        exact hret.plain (hrx.hsDoneSent.trans hsent)
  · obtain ⟨hle, hbelow, hpair⟩ := h.counter (by omega)
    have hword : u64 (c.loop.txPn + 1) = c.loop.txPn + 1 := u64_of_lt (by omega)
    have hpn : (c.next aes o).loop.txPn = c.loop.txPn + 1 := by
      rw [next_eq, rearmReqacc_txPn, hret.txPn, hrx.txPn, hword]
    rw [hrx.txPn, hpn]
    refine ⟨by omega, fun r hr => ?_, ?_⟩
    · rcases List.mem_append.1 hr with hr | hr
      · exact (hbelow r hr).trans (Nat.lt_succ_self _)
      · rw [List.mem_singleton.1 hr]
        exact Nat.lt_succ_self _
    · refine List.pairwise_append.2 ⟨hpair, List.pairwise_singleton _ _, fun r hr r' hr' => ?_⟩
      rw [List.mem_singleton.1 hr']
      exact hbelow r hr

/-- **The replies of a run are ordered.** -/
theorem ordered_run {c₀ : ServerConn Ctx} (h : Starts aes P c₀) (ops : List LoopOp) :
    Ordered ((Run.steps (next aes) c₀ ops).filterMap (returned aes)) ops.length
      (Run.run (next aes) c₀ ops) := by
  obtain ⟨hgated, hsent, htx, -⟩ := starts_eq aes h
  rw [← Run.length_steps (next aes) c₀ ops]
  refine Run.steps_history (P := fun past c => Ordered (past.filterMap (returned aes)) past.length c)
    ?_ ?_ ops
  · intro past c o ih
    rw [List.filterMap_append, List.length_append, List.length_singleton]
    rcases hstep : (c.step aes o.1 o.2).1 with _ | d
    · rw [List.filterMap_cons, returned_eq_none aes c hstep, List.filterMap_nil, List.append_nil]
      exact ih.next_none aes hstep
    · obtain ⟨pl, hreply, hret⟩ := c.returned_eq_some aes hstep
      rw [List.filterMap_cons, hreply]
      exact ih.next_some aes hret hstep
  · exact ⟨hgated, by simp [hsent], by simp, fun _ => ⟨Nat.le_of_eq htx, by simp, by simp⟩⟩

/-- **Nothing at 1-RTT before the confirmation.** A step that seals a 1-RTT packet or has the handler
called replies for a confirmed server. -/
theorem Gated.isConfirmed_of_isApp (h : Gated c)
    (htrace : (c.next aes o).trace = c.trace ++ events)
    (happ : ∃ ev ∈ events, Event.isApp ev = true) :
    (c.stepPackets aes o.1).1.server.isConfirmed = true := by
  have hg := h.stepPackets aes c o.1
  have hrx := c.listens_stepPackets aes o.1
  by_contra hno
  have hfin : (c.stepPackets aes o.1).1.server.finConfirmed = false := by
    rw [hg.server.confirmed]
    exact Bool.eq_false_iff.2 hno
  have hpending : (c.stepPackets aes o.1).1.loop.hsDoneSent = false :=
    Bool.eq_false_iff.2 fun hsent => hno (hg.sent hsent)
  obtain ⟨-, n, hs, hquiet, hseals⟩ := (c.stepPackets aes o.1).1.produce_of_unconfirmed aes hpending
    hfin (c.stepPackets aes o.1).2 o.2
  rw [next_eq, rearmReqacc_trace, hquiet, hrx.trace] at htrace
  obtain rfl := List.append_cancel_left htrace
  obtain ⟨ev, hev, happ⟩ := happ
  rw [hseals.not_isApp ev hev] at happ
  cases happ

/-- **The confirmation comes first and once.** In every run of the loop: every datagram returned ends
in a 1-RTT packet, and over these packets the first carries SETTINGS and HANDSHAKE_DONE, once each,
and no other carries either; nothing is sealed at 1-RTT and no handler is called but in a reply of a
confirmed server; and the packet numbers increase, as long as the counter does not wrap. -/
theorem confirmation_first_and_once {P : ServerPrimitives} {c₀ : ServerConn Ctx}
    (h : Starts aes P c₀) (ops : List LoopOp) :
    let steps := Run.steps (next aes) c₀ ops
    let replies := steps.filterMap (returned aes)
    (∀ e ∈ steps, ∀ d, (e.1.step aes e.2.1 e.2.2).1 = some d → ∃ r front k,
      returned aes e = some r ∧
      (e.1.stepPackets aes e.2.1).1.server.sched.get .serverAp = some k ∧
      d = front ++ onerttPacket aes k e.1.loop.cliScid r.pn r.payload) ∧
    (∀ r rest, replies = r :: rest → Confirms r.payload ∧ ∀ r' ∈ rest, Plain r'.payload) ∧
    (∀ ev ∈ c₀.trace, Event.isApp ev = false) ∧
    (∀ e ∈ steps, ∀ events, (e.1.next aes e.2).trace = e.1.trace ++ events →
      (∃ ev ∈ events, Event.isApp ev = true) →
      (e.1.stepPackets aes e.2.1).1.server.isConfirmed = true) ∧
    (ops.length < 2 ^ 64 → replies.Pairwise fun r r' => r.pn < r'.pn) := by
  intro steps replies
  have hrun := ordered_run aes h ops
  obtain ⟨hgated, -, -, hquiet⟩ := starts_eq aes h
  refine ⟨?_, hrun.first, hquiet, ?_, fun hlen => (hrun.counter hlen).2.2⟩
  · rintro ⟨c, o⟩ - d hd
    obtain ⟨pl, hreply, hret⟩ := c.returned_eq_some aes hd
    obtain ⟨front, k, hk, hpacket⟩ := hret.packet
    rw [(c.listens_stepPackets aes o.1).cliScid] at hpacket
    exact ⟨_, front, k, hreply, hk, hpacket⟩
  · intro e he events htrace happ
    obtain ⟨past, hpast, he₁⟩ := Run.mem_steps_iff.1 he
    refine Gated.isConfirmed_of_isApp aes e.1 ?_ htrace happ
    rw [he₁]
    exact Run.run_invariant (P := Gated) past hgated fun c o _ hc => hc.next aes c o

theorem starts_session : Starts aes128 Session.primitives Session.started :=
  ⟨Session.memory, Vector.replicate 32 2, Vector.replicate 32 3, Vector.replicate 32 4,
    [.setCids [1, 2, 3, 4, 5, 6, 7, 8] [9, 9, 9, 9], .recvInitial Session.clientHello fun _ => 0,
      .buildFlight (Vector.replicate 32 5) 256 2048],
    Session.loopMemory, _, [7, 7, 7, 7], some fun ctx _ => (none, ctx), (), _, _, _, rfl, rfl⟩

/-- The session in which the client's Finished is answered. -/
theorem confirmation_first_and_once_session :
    Starts aes128 Session.primitives Session.started ∧
    (∀ r rest, (Run.steps (next aes128) Session.started [(Session.finished, 1500)]).filterMap
      (returned aes128) = r :: rest → Confirms r.payload ∧ ∀ r' ∈ rest, Plain r'.payload) :=
  ⟨starts_session, (confirmation_first_and_once aes128 starts_session [(Session.finished, 1500)]).2.1⟩

/-! ## The confirmation is given out once -/

/-- A confirmed server whose HANDSHAKE_DONE was not given out yet returns the confirmation, in a
buffer of the usual size. -/
theorem produce_isSome (hg : Gated c) (hpending : c.loop.hsDoneSent = false)
    (hconf : c.server.isConfirmed = true) (hsent : c.server.hsDoneSent = false)
    (hack : c.loop.hsRxPn ≤ varintMax) (hcap : 1500 ≤ cap) :
    (c.produce aes none cap).1.isSome = true := by
  have hphase : c.server.phase = .confirmed := by simpa [Server.isConfirmed] using hconf
  have hstage : c.server.sched.stage = 2 := by
    rw [hg.server.stage, hphase]
    rfl
  have hk : c.server.sched.get .serverHs = some (c.server.sched.keys .serverHs) := by
    simp [Keysched.get, Keysched.available, hstage]
  obtain ⟨p, -, hp, hhs⟩ := c.emitHandshakeAck_eq aes hk hack hg.cliScid hg.server.iscid
  simp only [produce, hpending, Bool.not_false, if_true, emitConfirm, hhs cap (by omega)]
  generalize hc₁ : ServerConn.mk _ c.server _ = c₁
  obtain ⟨k, q, hone⟩ := c₁.sealConfirmOnertt_eq aes
    (by subst hc₁; exact hg.server.confirmed.trans hconf) (by subst hc₁; exact hsent)
    (by subst hc₁; exact hstage) (by subst hc₁; exact hg.cliScid) (cap - p.length) (by omega)
  rw [hone]
  rfl

/-- A server that gave HANDSHAKE_DONE out already, or that has an unencodable number to acknowledge,
has no confirmation to return, whatever the buffer. -/
theorem produce_eq_none (hpending : c.loop.hsDoneSent = false)
    (h : c.server.hsDoneSent = true ∨ varintMax < c.loop.hsRxPn) (req : Option Request) (cap : ℕ) :
    (c.produce aes req cap).1 = none := by
  simp only [produce, hpending, Bool.not_false, if_true]
  rcases hemit : c.emitConfirm aes req cap with ⟨_ | d, c'⟩
  · rfl
  -- a confirmation would have its acknowledgement and its HANDSHAKE_DONE
  exfalso
  obtain ⟨front, c₁, pl, c₂, q, hfront, hout, -, -⟩ := c.emitConfirm_eq_some aes hemit
  rcases h with hsent | hgt
  · obtain ⟨n, hs, hc₁, -, -⟩ := c.emitHandshakeAck_cases aes cap
    rw [hfront] at hc₁
    dsimp only at hc₁
    simp only [confirmThenMaybe200] at hout
    obtain ⟨h3, sent, -, hspec⟩ := c₁.confirmPayload_spec payloadMax
    rcases hpay : c₁.confirmPayload payloadMax with ⟨_ | confirm, c₃⟩
    · rw [hpay] at hout
      cases hout
    · obtain ⟨-, hno, -⟩ := hspec confirm (congrArg Prod.fst hpay)
      rw [hc₁] at hno
      rw [show c.server.hsDoneSent = false from hno] at hsent
      cases hsent
  · simp only [emitHandshakeAck, ackOne_of_gt hgt] at hfront
    split at hfront <;> cases hfront

/-- **A pending confirmation can be sent** exactly as long as the handshake has not given out
HANDSHAKE_DONE: in every run of the loop, once the server is confirmed and no datagram returned so
far carries HANDSHAKE_DONE, a call with at least 1500 bytes of room and no request returns a datagram
with SETTINGS and HANDSHAKE_DONE if and only if the flag of the handshake is still clear and the
Handshake packet number to acknowledge can be encoded. -/
theorem pending_confirmation_sent_iff {P : ServerPrimitives} {c₀ : ServerConn Ctx}
    (hstart : Starts aes P c₀) (ops : List LoopOp)
    (hconf : (Run.run (next aes) c₀ ops).server.isConfirmed = true)
    (hnone : ∀ r ∈ (Run.steps (next aes) c₀ ops).filterMap (returned aes), doneFrames r.payload = 0)
    (cap : ℕ) (hcap : 1500 ≤ cap) :
    let c := Run.run (next aes) c₀ ops
    (∃ d pl, (c.produce aes none cap).1 = some d ∧ c.Returns aes none cap d pl ∧ Confirms pl) ↔
      c.server.hsDoneSent = false ∧ c.loop.hsRxPn ≤ varintMax := by
  intro c
  have hrun := ordered_run aes hstart ops
  -- the first datagram returned would have carried HANDSHAKE_DONE, so there was none
  have hpending : c.loop.hsDoneSent = false := by
    rw [← Bool.not_eq_true, hrun.sent, not_not]
    rcases hreplies : (Run.steps (next aes) c₀ ops).filterMap (returned aes) with _ | ⟨r, rest⟩
    · rfl
    · have hdone := (hrun.first r rest hreplies).1.done
      rw [hnone r (by rw [hreplies]; exact List.mem_cons_self)] at hdone
      cases hdone
  constructor
  · rintro ⟨d, pl, hd, -, -⟩
    by_contra hno
    rw [c.produce_eq_none aes hpending (by
      rw [not_and_or, Bool.not_eq_false, Nat.not_le] at hno
      exact hno)] at hd
    cases hd
  · rintro ⟨hsent, hack⟩
    obtain ⟨d, hd⟩ := Option.isSome_iff_exists.1
      (c.produce_isSome aes hrun.gated hpending hconf hsent hack hcap)
    obtain ⟨pl, hret⟩ := c.returns_produce aes hd
    exact ⟨d, pl, hd, hret, (hret.confirms hpending).2⟩

theorem emitHandshakeAck_zero : ∃ n,
    c.emitHandshakeAck aes 0 = (none, { c with loop := { c.loop with hsTxPn := n } }) := by
  have hnone : (c.emitHandshakeAck aes 0).1 = none := by
    simp only [emitHandshakeAck]
    cases c.server.sched.get .serverHs with
    | none => rfl
    | some k =>
      cases ackOne 16 c.loop.hsRxPn with
      | none => rfl
      | some frames =>
        dsimp only
        rw [Option.eq_none_iff_forall_ne_some]
        intro p hp
        obtain ⟨⟨out, total⟩, htx, -⟩ := Option.bind_eq_some_iff.1 hp
        obtain ⟨-, -, -, rfl, -, hlen⟩ := (txPacket_eq_some_iff aes ..).1 htx
        rw [length_protectedPacket] at hlen
        omega
  obtain ⟨n, hs, hstate, -, hsome⟩ := c.emitHandshakeAck_cases aes 0
  have hhs : hs = [] := by
    by_contra hne
    have := hsome.2 hne
    rw [hnone] at this
    cases this
  rw [hhs, List.append_nil] at hstate
  exact ⟨n, Prod.ext hnone hstate⟩

theorem sealConfirmOnertt_of_short (hfin : c.server.finConfirmed = true)
    (hsent : c.server.hsDoneSent = false) (hstage : c.server.sched.stage = 2) (cap : ℕ)
    (hcap : cap ≤ 20) : (c.sealConfirmOnertt aes none cap).1 = none ∧
      (c.sealConfirmOnertt aes none cap).2.server = { c.server with hsDoneSent := true } ∧
      (c.sealConfirmOnertt aes none cap).2.loop.hsDoneSent = c.loop.hsDoneSent := by
  obtain ⟨confirm, -, hconfirm⟩ := c.confirmPayload_eq hfin hsent
  have hk : c.server.sched.get .serverAp = some (c.server.sched.keys .serverAp) := by
    simp [Keysched.get, Keysched.available, hstage]
  simp only [sealConfirmOnertt, confirmThenMaybe200, hconfirm, responseFrame, List.append_nil,
    sendOnertt, hk, onerttBuild_eq]
  rw [if_pos (by rw [gcmTag]; omega)]
  exact ⟨rfl, rfl, rfl⟩

/-- The client's Finished, answered with room for the Handshake packet only, leaves a confirmed
server without a HANDSHAKE_DONE to give out. -/
theorem step_finished_short (h : Awaiting c hs)
    (hroom : room = 33 + c.loop.cliScid.length + c.server.sdrv.iscid.length) :
    (c.step aes (c.finishedPacket aes hs) room).1 = none ∧
      (c.next aes (c.finishedPacket aes hs, room)).server.isConfirmed = true ∧
      (c.next aes (c.finishedPacket aes hs, room)).server.hsDoneSent = true ∧
      (c.next aes (c.finishedPacket aes hs, room)).loop.hsDoneSent = false := by
  obtain ⟨crecv, sched, keys, hstage, hserverHs, hpackets⟩ := c.stepPackets_finished aes h
  rw [next, step, hpackets]
  generalize hc₁ : ServerConn.mk _ _ _ = c₁
  obtain ⟨p, hlen, -, hhs⟩ := c₁.emitHandshakeAck_eq aes (k := c.server.sched.keys .serverHs)
    (by subst hc₁; exact hserverHs) (by subst hc₁; exact Nat.zero_le _)
    (by subst hc₁; exact h.cliScid) (by subst hc₁; exact h.iscid)
  obtain rfl : room = p.length := by
    rw [hlen, hroom]
    subst hc₁
    show _ = 28 + c.loop.cliScid.length + c.server.sdrv.iscid.length + (ackOneBytes 0).length
    rw [show (ackOneBytes 0).length = 5 from rfl]
    omega
  have hpending : c₁.loop.hsDoneSent = false := by subst hc₁; exact h.pending
  simp only [produce, hpending, Bool.not_false, if_true, emitConfirm, hhs _ (Nat.le_refl _)]
  generalize hc₂ : ServerConn.mk _ _ _ = c₂
  obtain ⟨hout, hserver, hflag⟩ := c₂.sealConfirmOnertt_of_short aes (by subst hc₂ hc₁; rfl)
    (by subst hc₂ hc₁; exact h.doneSent) (by subst hc₂ hc₁; exact hstage) (p.length - p.length)
    (by omega)
  generalize c₂.sealConfirmOnertt aes none (p.length - p.length) = r at hout hserver hflag ⊢
  obtain ⟨out, c₃⟩ := r
  obtain rfl : out = none := hout
  refine ⟨rfl, ?_, congrArg Server.hsDoneSent hserver, ?_⟩
  · show c₃.server.isConfirmed = true
    rw [show c₃.server = _ from hserver]
    subst hc₂ hc₁
    rfl
  · show c₃.loop.hsDoneSent = false
    rw [show c₃.loop.hsDoneSent = _ from hflag]
    subst hc₂
    rfl

/-- **The confirmation is lost**: after such an answer nothing was returned, and no call returns
anything. -/
theorem run_finished_short (h : Awaiting c hs)
    (hroom : room = 33 + c.loop.cliScid.length + c.server.sdrv.iscid.length) :
    (Run.steps (next aes) c [(c.finishedPacket aes hs, room)]).filterMap (returned aes) = [] ∧
      (Run.run (next aes) c [(c.finishedPacket aes hs, room)]).server.isConfirmed = true ∧
      ∀ cap, ((Run.run (next aes) c [(c.finishedPacket aes hs, room)]).produce aes none cap).1 =
        none := by
  have hstep := c.step_finished_short aes h hroom
  -- what the datagram is plays no part from here
  generalize c.finishedPacket aes hs = d at hstep ⊢
  obtain ⟨hout, hconf, hsent, hflag⟩ := hstep
  refine ⟨?_, hconf, fun cap => produce_eq_none aes _ hflag (Or.inl hsent) none cap⟩
  rw [Run.steps_cons, List.filterMap_cons, returned_eq_none aes c hout]
  rfl

/-- The client's Finished, answered without any room, leaves the confirmation pending. -/
theorem step_finished_zero (h : Awaiting c hs) :
    (c.step aes (c.finishedPacket aes hs) 0).1 = none ∧
      (c.next aes (c.finishedPacket aes hs, 0)).server.isConfirmed = true ∧
      (c.next aes (c.finishedPacket aes hs, 0)).server.hsDoneSent = false ∧
      (c.next aes (c.finishedPacket aes hs, 0)).loop.hsRxPn = 0 := by
  obtain ⟨crecv, sched, keys, -, -, hpackets⟩ := c.stepPackets_finished aes h
  rw [next, step, hpackets]
  generalize hc₁ : ServerConn.mk _ _ _ = c₁
  obtain ⟨n, hhs⟩ := c₁.emitHandshakeAck_zero aes
  have hpending : c₁.loop.hsDoneSent = false := by subst hc₁; exact h.pending
  simp only [produce, hpending, Bool.not_false, if_true, emitConfirm, hhs]
  subst hc₁
  exact ⟨trivial, rfl, h.doneSent, rfl⟩

theorem run_finished_zero (h : Awaiting c hs) :
    (Run.steps (next aes) c [(c.finishedPacket aes hs, 0)]).filterMap (returned aes) = [] ∧
      (Run.run (next aes) c [(c.finishedPacket aes hs, 0)]).server.isConfirmed = true ∧
      (Run.run (next aes) c [(c.finishedPacket aes hs, 0)]).server.hsDoneSent = false ∧
      (Run.run (next aes) c [(c.finishedPacket aes hs, 0)]).loop.hsRxPn ≤ varintMax := by
  have hstep := c.step_finished_zero aes h
  generalize c.finishedPacket aes hs = d at hstep ⊢
  obtain ⟨hout, hconf, hsent, hack⟩ := hstep
  refine ⟨?_, hconf, hsent, hack.trans_le (Nat.zero_le _)⟩
  rw [Run.steps_cons, List.filterMap_cons, returned_eq_none aes c hout]
  rfl

/-- The session in which the first answer to the Finished has no room at all: the next one carries
the confirmation. -/
theorem pending_confirmation_sent_session :
    (Run.run (next aes128) Session.started [(Session.finished, 0)]).server.isConfirmed = true ∧
    ∃ d pl, ((Run.run (next aes128) Session.started [(Session.finished, 0)]).produce aes128 none
      1500).1 = some d ∧ Confirms pl := by
  rw [Session.finished]
  obtain ⟨hnone, hconf, hsent, hack⟩ := Session.started.run_finished_zero aes128 Session.awaiting
  obtain ⟨d, pl, hd, -, hconfirms⟩ := (pending_confirmation_sent_iff aes128 starts_session
    [(Session.started.finishedPacket aes128 Session.secret, 0)] hconf (by rw [hnone]; simp) 1500
    (Nat.le_refl _)).2 ⟨hsent, hack⟩
  exact ⟨hconf, d, pl, hd, hconfirms⟩

/-- **A lost confirmation.** In the session, 41 bytes of room for the answer to the Finished are
enough for the Handshake packet and not for the 1-RTT packet: the server is confirmed, and whatever
room it is given from then on, it returns nothing. -/
theorem confirmation_lost :
    (Run.steps (next aes128) Session.started [(Session.finished, 41)]).filterMap
      (returned aes128) = [] ∧
    (Run.run (next aes128) Session.started [(Session.finished, 41)]).server.isConfirmed = true ∧
    ∀ cap, ((Run.run (next aes128) Session.started [(Session.finished, 41)]).produce aes128 none
      cap).1 = none := by
  obtain ⟨hloop, hserver⟩ := Session.started_eq
  obtain ⟨-, -, -, -, -, -, -, -, -, -, -, hiscid, -⟩ := Session.built_eq
  have hcli : Session.loop.cliScid = [7, 7, 7, 7] := rfl
  have hroom : 41 = 33 + Session.started.loop.cliScid.length +
      Session.started.server.sdrv.iscid.length := by
    rw [hloop, hserver, hiscid, hcli]
    rfl
  rw [Session.finished]
  exact Session.started.run_finished_short aes128 Session.awaiting hroom

end ServerConn

end Loop

end QuicVibe
