import QuicVibe.Http3.Message
import QuicVibe.Tls.Server
/-!
# The server wire loop

One step of the loop (`srvloop.c`) takes a datagram apart, opens each packet with the key of its
level (`recv.c`), hands the frames to the request accumulator or to the handshake (`dispatch.c`), and
seals one reply (`respond.c`, `send.c` over `wire.c`).

The state carries a trace: each packet sealed, with its key and packet number, and each call of the
request handler. The decoded request is passed along instead of being kept as views for one step.
-/

namespace QuicVibe

namespace Loop

open Crypto Packet Keys Http3 Tls
open QuicVibe.Frame

/-! ## State -/

/-- Size of `req_buf`. -/
def reqCap : ℕ := 2048

/-- `quic_srvloop_reqacc`: the request stream put together across datagrams. -/
structure Reqacc where
  buf : Vector UInt8 reqCap
  /-- The highest offset written. -/
  len : ℕ
  fin : Bool
  done : Bool

/-- `QUIC_SRVLOOP_BODY_MAX`. -/
def bodyMax : ℕ := 1024

/-- What a handler builds: a body that fits, or nothing. -/
abbrev Body := { body : Bytes // body.length ≤ bodyMax }

/-- `quic_srvloop`, over the context type of the request handler. -/
structure Srvloop (Ctx : Type) where
  h3 : H3srv
  cliScid : Bytes
  txPn : ℕ
  hsTxPn : ℕ
  appRxPn : ℕ
  appRxSeen : Bool
  hsRxPn : ℕ
  hsRxSeen : Bool
  hsDoneSent : Bool
  onRequest : Option (Ctx → Request → Option Body × Ctx)
  reqCtx : Ctx
  reqacc : Reqacc

/-- What an observer of the server records. -/
inductive Event
  | sealed (level : Level) (keys : InitialKeys) (pn : ℕ) (packet : Bytes)
  | handled (req : Request)

/-- A server connection: the loop, the handshake it drives, and the trace. -/
structure ServerConn (Ctx : Type) where
  loop : Srvloop Ctx
  server : Server
  trace : List Event

/-- `quic_srvloop_init`; the request buffer keeps its contents. -/
def Srvloop.init {Ctx : Type} (l : Srvloop Ctx) (cliScid : Bytes) : Option (Srvloop Ctx) :=
  if cliScid.length > 20 then none
  else some {
    l with
    h3 := { settingsSent := false, requestSeen := false }
    cliScid := cliScid
    txPn := 0
    hsTxPn := 0
    appRxPn := 0
    appRxSeen := false
    hsRxPn := 0
    hsRxSeen := false
    hsDoneSent := false
    onRequest := none
    reqacc := { l.reqacc with len := 0, fin := false, done := false } }

def Srvloop.setHandler {Ctx : Type} (l : Srvloop Ctx)
    (cb : Option (Ctx → Request → Option Body × Ctx)) (ctx : Ctx) : Srvloop Ctx :=
  { l with onRequest := cb, reqCtx := ctx }

/-! ## Receiving -/

def packetLevel (byte0 : UInt8) : Option Level :=
  if byte0 &&& 0x80 = 0 then some .onertt
  else if (byte0 >>> 4) &&& 0x3 = 0 then some .initial
  else if (byte0 >>> 4) &&& 0x3 = 2 then some .handshake
  else none

variable {Ctx : Type} (aes : Block → Block → Block)

/-- `recv_at_level`: Initial packets under the keys of the connection id on the wire, the others
under the keys of the client's direction. -/
def recvAtLevel (s : Server) (pkt : Bytes) (largestPn : ℕ) : Level → Option Opened
  | .initial =>
    let k := initialDerive s.sdrv.odcid false
    rxPacket aes k (aes k.hp) pkt true
  | .handshake => do
    let k ← s.sched.get .clientHs
    hspktOpen aes k (aes k.hp) pkt
  | .onertt => do
    let k ← s.sched.get .clientAp
    onerttOpen aes k (aes k.hp) pkt s.sdrv.iscid.length largestPn

def recv (s : Server) (pkt : Bytes) (largestPn : ℕ) : Option (Level × Opened) := do
  let byte0 ← pkt.head?
  let level ← packetLevel byte0
  let opened ← recvAtLevel aes s pkt largestPn level
  return (level, opened)

namespace Srvloop

def appLargestPn (l : Srvloop Ctx) : ℕ := if l.appRxSeen then l.appRxPn else 0

def hsLargestPn (l : Srvloop Ctx) : ℕ := if l.hsRxSeen then l.hsRxPn else 0

/-- `note_app_rx`: the number of an opened 1-RTT packet becomes the one to acknowledge. -/
def noteAppRx (l : Srvloop Ctx) (iscidLen : ℕ) (pkt : Bytes) : Level → Srvloop Ctx
  | .onertt =>
    let pn := (pkt.drop (1 + iscidLen)).take (pnLenOf (pkt.getD 0 0))
    { l with appRxPn := pnumDecode pn l.appLargestPn, appRxSeen := true }
  | _ => l

def noteHsRx (l : Srvloop Ctx) (pkt : Bytes) : Level → Srvloop Ctx
  | .handshake =>
    match lhdrParse pkt false with
    | none => l
    | some h =>
      let pn := (pkt.drop h.pnOff).take (pnLenOf (pkt.getD 0 0))
      { l with hsRxPn := pnumDecode pn l.hsLargestPn, hsRxSeen := true }
  | _ => l

end Srvloop

/-! ## Dispatch -/

def isStream (type : ℕ) : Bool := 0x08 ≤ type && type ≤ 0x0f

/-- `request_stream_of`: the frame, if it is a STREAM frame of a client bidirectional stream. -/
def requestStreamOf (f : Walked) : Option StreamFrame :=
  if !isStream f.type then none
  else
    match getStream f.rest with
    | none => none
    | some (sf, _) => if sf.streamId &&& 0x03 = 0 then some sf else none

/-- The request frames of a payload. -/
def requestFrames (payload : Bytes) : List StreamFrame := (walk payload).filterMap requestStreamOf

namespace Reqacc

/-- `gather_one`: data that does not fit is left out, but still raises the mark. -/
def gatherOne (acc : Reqacc) (sf : StreamFrame) : Reqacc :=
  if sf.offset ≥ reqCap then acc
  else
    let stop := sf.offset + sf.data.length
    let hi := if stop < reqCap then stop else reqCap
    { acc with
      buf := if stop > reqCap then acc.buf else Buf.writeAt acc.buf sf.offset sf.data
      len := if hi > acc.len then hi else acc.len
      fin := acc.fin || sf.fin }

def gatherRequest (acc : Reqacc) (payload : Bytes) : Reqacc :=
  (requestFrames payload).foldl gatherOne acc

def requestComplete (acc : Reqacc) : Bool := acc.fin && !acc.done

/-- The bytes put together so far. -/
def bytes (acc : Reqacc) : Bytes := acc.buf.toList.take acc.len

end Reqacc

namespace ServerConn

/-- `drive_complete`: decode the stream once, whether or not that succeeds. -/
def driveComplete (c : ServerConn Ctx) : Option Request × ServerConn Ctx :=
  let data := c.loop.reqacc.bytes
  let c := { c with loop := { c.loop with reqacc := { c.loop.reqacc with done := true } } }
  match putStream 2080 { streamId := 0, offset := 0, data := data, fin := true } with
  | none => (none, c)
  | some wrap =>
    let (req, h3) := c.loop.h3.onRequest wrap 512
    (req, { c with loop := { c.loop with h3 := h3 } })

/-- `reassemble_and_drive` for a payload with request frames. -/
def reassembleAndDrive (c : ServerConn Ctx) (payload : Bytes) : Option Request × ServerConn Ctx :=
  let c := { c with loop := { c.loop with reqacc := c.loop.reqacc.gatherRequest payload } }
  if c.loop.reqacc.requestComplete then c.driveComplete else (none, c)

/-- `dispatch_non_request`: a payload with any STREAM frame never reaches the handshake. -/
def dispatchNonRequest (c : ServerConn Ctx) (payload : Bytes) : ServerConn Ctx :=
  let frames := walk payload
  if frames.isEmpty then c
  else if frames.any fun f => isStream f.type then c
  else { c with server := (c.server.feed payload).2 }

/-- `quic_srvloop_dispatch`: the level of the packet plays no part. -/
def dispatch (c : ServerConn Ctx) (payload : Bytes) : Option Request × ServerConn Ctx :=
  if (requestFrames payload).isEmpty then (none, c.dispatchNonRequest payload)
  else c.reassembleAndDrive payload

/-- The packet numbers an opened packet leaves in the loop. -/
def noteRx (c : ServerConn Ctx) (level : Level) (pkt : Bytes) : ServerConn Ctx :=
  { c with
    loop := (c.loop.noteAppRx c.server.sdrv.iscid.length pkt level).noteHsRx pkt level }

/-- `step_one`: a packet that does not open is skipped. The request decoded so far goes along. -/
def stepOne (st : ServerConn Ctx × Option Request) (pkt : Bytes) : ServerConn Ctx × Option Request :=
  match recv aes st.1.server pkt st.1.loop.appLargestPn with
  | none => st
  | some (level, opened) =>
    let (req, c) := (st.1.noteRx level opened.pkt).dispatch opened.payload
    (c, req.or st.2)

/-! ## Sealing -/

/-- A packet that was sealed goes on the trace. -/
def logSealed (c : ServerConn Ctx) (level : Level) (keys : InitialKeys) (pn : ℕ) :
    Option Bytes → ServerConn Ctx
  | none => c
  | some packet => { c with trace := c.trace ++ [.sealed level keys pn packet] }

/-- `quic_srvloop_send_onertt`, called with `l->tx_pn++`: the number is used up even if there is no
key or no room. -/
def sendOnertt (c : ServerConn Ctx) (payload : Bytes) (cap : ℕ) : Option Bytes × ServerConn Ctx :=
  let pn := c.loop.txPn
  let c := { c with loop := { c.loop with txPn := u64 (pn + 1) } }
  match c.server.sched.get .serverAp with
  | none => (none, c)
  | some k =>
    let packet := onerttBuild aes k (aes k.hp) c.loop.cliScid pn payload cap
    (packet, c.logSealed .onertt k pn packet)

def emitHandshakeAck (c : ServerConn Ctx) (cap : ℕ) : Option Bytes × ServerConn Ctx :=
  match c.server.sched.get .serverHs with
  | none => (none, c)
  | some k =>
    match ackOne 16 c.loop.hsRxPn with
    | none => (none, c)
    | some frames =>
      let pn := c.loop.hsTxPn
      let c := { c with loop := { c.loop with hsTxPn := u64 (pn + 1) } }
      let packet := hspktBuild aes k (aes k.hp) c.loop.cliScid c.server.sdrv.iscid pn frames cap
      (packet, c.logSealed .handshake k pn packet)

/-! ## Replies -/

/-- `build_settings_frame`: SETTINGS count as sent once they are encoded. -/
def buildSettingsFrame (c : ServerConn Ctx) (cap : ℕ) : Option Bytes × ServerConn Ctx :=
  match c.loop.h3.openControl 64 with
  | (none, h3) => (none, { c with loop := { c.loop with h3 := h3 } })
  | (some ctl, h3) =>
    (putStream cap { streamId := 3, offset := 0, data := ctl, fin := false },
      { c with loop := { c.loop with h3 := h3 } })

/-- `confirm_payload`: SETTINGS and HANDSHAKE_DONE. -/
def confirmPayload (c : ServerConn Ctx) (cap : ℕ) : Option Bytes × ServerConn Ctx :=
  match c.buildSettingsFrame cap with
  | (none, c) => (none, c)
  | (some settings, c) =>
    match c.server.handshakeDone (cap - settings.length) with
    | (none, s) => (none, { c with server := s })
    | (some done, s) => (some (settings ++ done), { c with server := s })

/-- `build_body`: the handler builds the body; without one, or when it declines, there is none. -/
def buildBody (c : ServerConn Ctx) (req : Request) : Bytes × ServerConn Ctx :=
  match c.loop.onRequest with
  | none => ([], c)
  | some handler =>
    let (body, ctx) := handler c.loop.reqCtx req
    ((body.map Subtype.val).getD [],
      { c with loop := { c.loop with reqCtx := ctx }, trace := c.trace ++ [.handled req] })

/-- `response_frame`: the handler has run by the time the response is known to fit. -/
def responseFrame (c : ServerConn Ctx) (req : Option Request) (cap : ℕ) :
    Option Bytes × ServerConn Ctx :=
  match req with
  | none => (some [], c)
  | some req =>
    let (body, c) := c.buildBody req
    (c.loop.h3.buildResponse 0 200 body cap, c)

/-- `app_ack_append`: what is appended, nothing if there is nothing to acknowledge or no room. -/
def appAckAppend (c : ServerConn Ctx) (cap : ℕ) : Bytes :=
  if !c.loop.appRxSeen then [] else (ackOne cap c.loop.appRxPn).getD []

/-- Size of the payload buffers of `respond.c`. -/
def payloadMax : ℕ := bodyMax + 288

def confirmThenMaybe200 (c : ServerConn Ctx) (req : Option Request) (cap : ℕ) :
    Option Bytes × ServerConn Ctx :=
  match c.confirmPayload cap with
  | (none, c) => (none, c)
  | (some confirm, c) =>
    match c.responseFrame req (cap - confirm.length) with
    | (none, c) => (none, c)
    | (some resp, c) => (some (confirm ++ resp), c)

def sealConfirmOnertt (c : ServerConn Ctx) (req : Option Request) (cap : ℕ) :
    Option Bytes × ServerConn Ctx :=
  match c.confirmThenMaybe200 req payloadMax with
  | (none, c) => (none, c)
  | (some pl, c) => c.sendOnertt aes (pl ++ c.appAckAppend (payloadMax - pl.length)) cap

/-- `emit_confirm`: a Handshake packet and a 1-RTT packet in one datagram. -/
def emitConfirm (c : ServerConn Ctx) (req : Option Request) (cap : ℕ) :
    Option Bytes × ServerConn Ctx :=
  match c.emitHandshakeAck aes cap with
  | (none, c) => (none, c)
  | (some hs, c) =>
    match c.sealConfirmOnertt aes req (cap - hs.length) with
    | (none, c) => (none, c)
    | (some one, c) => (some (hs ++ one), c)

def emitResponse (c : ServerConn Ctx) (req : Request) (cap : ℕ) : Option Bytes × ServerConn Ctx :=
  match c.responseFrame (some req) payloadMax with
  | (none, c) => (none, c)
  | (some pl, c) => c.sendOnertt aes (pl ++ c.appAckAppend (payloadMax - pl.length)) cap

def emitAckOnly (c : ServerConn Ctx) (cap : ℕ) : Option Bytes × ServerConn Ctx :=
  let pl := c.appAckAppend 16
  if pl.length = 0 then (none, c) else c.sendOnertt aes pl cap

def produceConfirmed (c : ServerConn Ctx) (req : Option Request) (cap : ℕ) :
    Option Bytes × ServerConn Ctx :=
  match req with
  | some req => c.emitResponse aes req cap
  | none => c.emitAckOnly aes cap

/-- `quic_srvloop_produce`: the confirmation until one was emitted. -/
def produce (c : ServerConn Ctx) (req : Option Request) (cap : ℕ) : Option Bytes × ServerConn Ctx :=
  if !c.loop.hsDoneSent then
    match c.emitConfirm aes req cap with
    | (none, c) => (none, c)
    | (some out, c) => (some out, { c with loop := { c.loop with hsDoneSent := true } })
  else c.produceConfirmed aes req cap

/-- `rearm_reqacc`: an answered request makes room for the next; the buffer is not cleared. -/
def rearmReqacc (c : ServerConn Ctx) (req : Option Request) : ServerConn Ctx :=
  match req with
  | none => c
  | some _ =>
    { c with
      loop := { c.loop with reqacc := { c.loop.reqacc with len := 0, fin := false, done := false } } }

/-- `QUIC_SRVLOOP_MAXPKTS`. -/
def maxPkts : ℕ := 8

/-- The packets of a datagram, one after the other. -/
def stepPackets (c : ServerConn Ctx) (dgram : Bytes) : ServerConn Ctx × Option Request :=
  Run.run (stepOne aes) (c, none) (udploopSplit maxPkts dgram)

def step (c : ServerConn Ctx) (dgram : Bytes) (cap : ℕ) : Option Bytes × ServerConn Ctx :=
  let (c, req) := c.stepPackets aes dgram
  let (out, c) := c.produce aes req cap
  (out, c.rearmReqacc req)

/-! ## The handshake flight -/

/-- `srvwire_emit_frames`: the CRYPTO frames of the flight and an optional ACK. -/
def emitFrames (ackPn : Option ℕ) (tls : Bytes) (cap : ℕ) : Option Bytes := do
  let out ← cryptoStreamEmit tls 0 tls.length cap
  match ackPn with
  | none => some out
  | some pn => do
    let ack ← ackOne (cap - out.length) pn
    return out ++ ack

def initPayloadFloor (dcidLen scidLen : ℕ) : ℕ :=
  let overhead := 30 + dcidLen + scidLen
  if overhead < 1200 then 1200 - overhead else 0

/-- `quic_srvloop_send_initial` (`quic_srvwire_seal_initial`): padded to the 1200-byte floor. -/
def sendInitial (c : ServerConn Ctx) (pn : ℕ) (ackPn : Option ℕ) (tls : Bytes) (cap : ℕ) :
    Option Bytes × ServerConn Ctx :=
  let dcid := c.server.sdrv.odcid
  let scid := c.server.sdrv.iscid
  let k := initialDerive dcid true
  let packet : Option Bytes := do
    let frames ← emitFrames ackPn tls 1200
    let fill := min (initPayloadFloor dcid.length scid.length) 1200
    let frames := frames ++ List.replicate (fill - frames.length) 0
    let (out, total) ← txPacket aes k (aes k.hp) 0xc3 dcid scid true [] pn frames cap
    return out.take total
  (packet, c.logSealed .initial k pn packet)

/-- `quic_srvloop_send_handshake` (`quic_srvwire_seal_handshake`). -/
def sendHandshake (c : ServerConn Ctx) (cliScid : Bytes) (pn : ℕ) (ackPn : Option ℕ) (tls : Bytes)
    (cap : ℕ) : Option Bytes × ServerConn Ctx :=
  match c.server.sched.get .serverHs with
  | none => (none, c)
  | some k =>
    let packet : Option Bytes := do
      let frames ← emitFrames ackPn tls 2048
      hspktBuild aes k (aes k.hp) cliScid c.server.sdrv.iscid pn frames cap
    (packet, c.logSealed .handshake k pn packet)

/-- `seal_and_send` of the example server: the ServerHello as Initial packet 1, acknowledging the
client's packet 0, and the flight as Handshake packet 0. -/
def sealAndSend (c : ServerConn Ctx) (serverScid sh flight : Bytes) : ServerConn Ctx :=
  let c := (c.sendInitial aes 1 (some 0) sh 1500).2
  (c.sendHandshake aes serverScid 0 none flight 1500).2

end ServerConn

end Loop

end QuicVibe
