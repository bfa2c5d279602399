import QuicVibe.Packet.Varint

/-!
# Frames

The kinds of frames (`dispatch.c`) and the codecs of CRYPTO, STREAM and CONNECTION_CLOSE (`frame.c`),
ACK (`ack.c`), flow control (`flowctl.c`), stream control (`stream_ctl.c`), and connection and path
management (`connctl.c`). A decoder gets the rest of the payload from the frame on and returns the
frame with the bytes it occupies; an encoder returns what it writes into a buffer of `cap` bytes.
-/

namespace QuicVibe

namespace Frame

open Packet

/-! ## Kinds -/

inductive Kind
  | unknown
  | padding
  | ping
  | ack
  | resetStream
  | stopSending
  | crypto
  | newToken
  | stream
  | maxData
  | maxStreamData
  | maxStreams
  | dataBlocked
  | streamDataBlocked
  | streamsBlocked
  | newConnectionId
  | retireConnectionId
  | pathChallenge
  | pathResponse
  | connectionClose
  | handshakeDone
  | datagram
  deriving DecidableEq, Repr

/-- The table of `dispatch.c`. -/
def kindTable : List (ℕ × Kind) :=
  [(0x00, .padding), (0x01, .ping), (0x02, .ack), (0x03, .ack), (0x04, .resetStream),
   (0x05, .stopSending), (0x06, .crypto), (0x07, .newToken), (0x08, .stream), (0x09, .stream),
   (0x0a, .stream), (0x0b, .stream), (0x0c, .stream), (0x0d, .stream), (0x0e, .stream),
   (0x0f, .stream), (0x10, .maxData), (0x11, .maxStreamData), (0x12, .maxStreams),
   (0x13, .maxStreams), (0x14, .dataBlocked), (0x15, .streamDataBlocked), (0x16, .streamsBlocked),
   (0x17, .streamsBlocked), (0x18, .newConnectionId), (0x19, .retireConnectionId),
   (0x1a, .pathChallenge), (0x1b, .pathResponse), (0x1c, .connectionClose),
   (0x1d, .connectionClose), (0x1e, .handshakeDone), (0x30, .datagram), (0x31, .datagram)]

def classify (type : ℕ) : Kind := (kindTable.lookup type).getD .unknown

/-! ## Shared pieces -/

/-- The `len` bytes at `off` and the offset behind them (`read_bytes`). -/
def readBytes (buf : Bytes) (off len : ℕ) : Option (Bytes × ℕ) :=
  if off + len > buf.length then none else some ((buf.drop off).take len, off + len)

/-- Append varints one after the other, failing with the first that does not fit. -/
def putVarints (out : Bytes) (cap : ℕ) : List ℕ → Option Bytes
  | [] => some out
  | v :: vs => do
    let out ← varintPut out cap v
    putVarints out cap vs

def writeBytes (out : Bytes) (cap : ℕ) (src : Bytes) : Option Bytes :=
  if out.length + src.length > cap then none else some (out ++ src)

/-! ## CRYPTO -/

/-- `quic_crypto_frame`; the length is that of the data. -/
structure CryptoFrame where
  offset : ℕ
  data : Bytes
  deriving DecidableEq, Repr

/-- `QUIC_FRAME_CRYPTO`. -/
def frameCrypto : ℕ := 0x06

def putCrypto (cap : ℕ) (f : CryptoFrame) : Option Bytes := do
  let out ← putVarints [] cap [frameCrypto, f.offset, f.data.length]
  writeBytes out cap f.data

def getCrypto (buf : Bytes) : Option (CryptoFrame × ℕ) := do
  let (offset, off) ← varintTake buf 1
  let (length, off) ← varintTake buf off
  let (data, off) ← readBytes buf off length
  return ({ offset := offset, data := data }, off)

/-- The loop of `quic_crypto_stream_emit`: frames of at most `maxFrame` bytes behind what is
written. -/
def emitCrypto (maxFrame cap : ℕ) : ℕ → Bytes → ℕ → Bytes → Option Bytes
  | 0, tls, _, written => if tls.isEmpty then some written else none
  | fuel + 1, tls, offset, written =>
    if tls.isEmpty then some written
    else do
      let chunk := tls.take maxFrame
      let f ← putCrypto (cap - written.length) { offset := offset, data := chunk }
      emitCrypto maxFrame cap fuel (tls.drop maxFrame) (offset + chunk.length) (written ++ f)

def cryptoStreamEmit (tls : Bytes) (baseOffset maxFrame cap : ℕ) : Option Bytes :=
  if maxFrame = 0 then none else emitCrypto maxFrame cap tls.length tls baseOffset []

/-! ## STREAM -/

structure StreamFrame where
  streamId : ℕ
  offset : ℕ
  data : Bytes
  fin : Bool
  deriving DecidableEq, Repr

/-- The bits of the STREAM type byte (`QUIC_FRAME_STREAM_BASE`, `QUIC_STREAM_*`). -/
def streamBase : UInt8 := 0x08
def streamFin : UInt8 := 0x01
def streamLen : UInt8 := 0x02
def streamOff : UInt8 := 0x04

/-- Always LEN; OFF when the offset is not zero; FIN as asked. -/
def streamType (f : StreamFrame) : UInt8 :=
  (streamBase ||| streamLen) ||| (if f.offset ≠ 0 then streamOff else 0) |||
    (if f.fin then streamFin else 0)

def putStream (cap : ℕ) (f : StreamFrame) : Option Bytes := do
  let out ← putVarints [] cap
    ([(streamType f).toNat, f.streamId] ++ (if f.offset = 0 then [] else [f.offset]) ++
      [f.data.length])
  writeBytes out cap f.data

/-- The offset varint, only present when the OFF bit is set (`take_opt_offset`). -/
def takeOptOffset (buf : Bytes) (off : ℕ) (type : UInt8) : Option (ℕ × ℕ) :=
  if type &&& streamOff = 0 then some (0, off) else varintTake buf off

/-- `quic_frame_get_stream`. The length is read whether or not the LEN bit is set. -/
def getStream (buf : Bytes) : Option (StreamFrame × ℕ) := do
  let type := buf.getD 0 0
  let (streamId, off) ← varintTake buf 1
  let (offset, off) ← takeOptOffset buf off type
  let (length, off) ← varintTake buf off
  let (data, off) ← readBytes buf off length
  return ({ streamId := streamId, offset := offset, data := data, fin := type &&& streamFin ≠ 0 },
    off)

/-! ## CONNECTION_CLOSE -/

structure ConnCloseFrame where
  isApp : Bool
  errorCode : ℕ
  frameType : ℕ
  reason : Bytes
  deriving DecidableEq, Repr

/-- `QUIC_FRAME_CONN_CLOSE_TPT` and `QUIC_FRAME_CONN_CLOSE_APP`. -/
def connCloseTpt : UInt8 := 0x1c
def connCloseApp : UInt8 := 0x1d

/-- `quic_frame_put_conn_close`; the frame type is written for the transport variant only. -/
def putConnClose (cap : ℕ) (f : ConnCloseFrame) : Option Bytes := do
  let type := if f.isApp then connCloseApp else connCloseTpt
  let out ← putVarints [] cap
    ([type.toNat, f.errorCode] ++ (if f.isApp then [] else [f.frameType]) ++ [f.reason.length])
  writeBytes out cap f.reason

def getConnClose (buf : Bytes) : Option (ConnCloseFrame × ℕ) := do
  let isApp := buf.getD 0 0 == connCloseApp
  let (errorCode, off) ← varintTake buf 1
  let (frameType, off) ← if isApp then some (0, off) else varintTake buf off
  let (length, off) ← varintTake buf off
  let (reason, off) ← readBytes buf off length
  return ({ isApp := isApp, errorCode := errorCode, frameType := frameType, reason := reason }, off)

/-! ## ACK -/

structure AckRange where
  hi : ℕ
  lo : ℕ
  deriving DecidableEq, Repr

/-- The ECN counts of a frame of type `0x03`. -/
structure EcnCounts where
  ect0 : ℕ
  ect1 : ℕ
  ce : ℕ
  deriving DecidableEq, Repr

structure AckFrame where
  ackDelay : ℕ
  ranges : List AckRange
  ecn : Option EcnCounts
  deriving DecidableEq, Repr

/-- `QUIC_FRAME_ACK`, `QUIC_FRAME_ACK_ECN` and `QUIC_ACK_MAX_RANGES`. -/
def frameAck : UInt8 := 0x02
def frameAckEcn : UInt8 := 0x03
def ackMaxRanges : ℕ := 32

/-- The Gap and Range Length values of all ranges after the first. -/
def ackPairs : List AckRange → List ℕ
  | prev :: cur :: rest =>
    sub64 (sub64 prev.lo cur.hi) 2 :: sub64 cur.hi cur.lo :: ackPairs (cur :: rest)
  | _ => []

def ackEncode (cap : ℕ) (f : AckFrame) : Option Bytes :=
  match f.ranges with
  | [] => none
  | r0 :: _ =>
    if f.ranges.length > ackMaxRanges then none
    else
      let type := if f.ecn.isSome then frameAckEcn else frameAck
      putVarints [] cap
        ([type.toNat, r0.hi, f.ackDelay, f.ranges.length - 1, sub64 r0.hi r0.lo] ++
          ackPairs f.ranges ++
          (match f.ecn with | none => [] | some e => [e.ect0, e.ect1, e.ce]))

/-- An ACK frame for a single packet number (`encode_ack_one`, `put_ack_one`). -/
def ackOne (cap pn : ℕ) : Option Bytes :=
  ackEncode cap { ackDelay := 0, ranges := [{ hi := pn, lo := pn }], ecn := none }

/-- A (gap, length) pair fits below `prevLo` without passing zero. -/
def pairFits (prevLo gap len : ℕ) : Bool :=
  prevLo ≥ u64 (gap + 2) && sub64 (sub64 prevLo gap) 2 ≥ len

/-- Read `count` more ranges below `prevLo` (`take_ack_pairs`). -/
def takeAckPairs (buf : Bytes) : ℕ → ℕ → ℕ → Option (List AckRange × ℕ)
  | 0, off, _ => some ([], off)
  | count + 1, off, prevLo => do
    let (gap, off) ← varintTake buf off
    let (len, off) ← varintTake buf off
    if !pairFits prevLo gap len then none
    else
      let hi := sub64 (sub64 prevLo gap) 2
      let lo := sub64 hi len
      let (rest, off) ← takeAckPairs buf count off lo
      return ({ hi := hi, lo := lo } :: rest, off)

def takeAckEcn (buf : Bytes) (off : ℕ) (hasEcn : Bool) : Option (Option EcnCounts × ℕ) :=
  if !hasEcn then some (none, off)
  else do
    let (ect0, off) ← varintTake buf off
    let (ect1, off) ← varintTake buf off
    let (ce, off) ← varintTake buf off
    return (some { ect0 := ect0, ect1 := ect1, ce := ce }, off)

def ackDecode (buf : Bytes) : Option (AckFrame × ℕ) := do
  let (largest, off) ← varintTake buf 1
  let (ackDelay, off) ← varintTake buf off
  let (count, off) ← varintTake buf off
  let (first, off) ← varintTake buf off
  if first > largest ∨ u64 (count + 1) > ackMaxRanges then none
  else
    let lo := sub64 largest first
    let (rest, off) ← takeAckPairs buf count off lo
    let (ecn, off) ← takeAckEcn buf off (buf.getD 0 0 == frameAckEcn)
    return ({ ackDelay := ackDelay, ranges := { hi := largest, lo := lo } :: rest, ecn := ecn },
      off)

/-! ## Flow control -/

/-- `put_one_varint_frame`: the type, then a value. -/
def putOneVarintFrame (cap type value : ℕ) : Option Bytes := do
  let out ← varintPut [] cap type
  varintPut out cap value

def getOneVarintFrame (buf : Bytes) : Option (ℕ × ℕ) := varintTake buf 1

/-- `put_two_varint_frame`: a one-varint frame, then a second value. -/
def putTwoVarintFrame (cap type a b : ℕ) : Option Bytes := do
  let out ← putOneVarintFrame cap type a
  varintPut out cap b

/-- `get_two_varint_frame`: both values. -/
def getTwoVarintFrame (buf : Bytes) : Option ((ℕ × ℕ) × ℕ) := do
  let (a, off) ← getOneVarintFrame buf
  let (b, off) ← varintTake buf off
  return ((a, b), off)

/-- `QUIC_FRAME_MAX_DATA` and the other types of `flowctl.h`. -/
def frameMaxData : ℕ := 0x10
def frameMaxStreamData : ℕ := 0x11
def frameMaxStreamsBidi : ℕ := 0x12
def frameDataBlocked : ℕ := 0x14
def frameStreamDataBlocked : ℕ := 0x15
def frameStreamsBlockedBidi : ℕ := 0x16

/-- `quic_data_frame`: MAX_DATA and DATA_BLOCKED. -/
structure DataFrame where
  value : ℕ
  deriving DecidableEq, Repr

def maxDataEncode (cap : ℕ) (f : DataFrame) : Option Bytes :=
  putOneVarintFrame cap frameMaxData f.value

def maxDataDecode (buf : Bytes) : Option (DataFrame × ℕ) := do
  let (value, off) ← getOneVarintFrame buf
  return ({ value := value }, off)

def dataBlockedEncode (cap : ℕ) (f : DataFrame) : Option Bytes :=
  putOneVarintFrame cap frameDataBlocked f.value

def dataBlockedDecode (buf : Bytes) : Option (DataFrame × ℕ) := do
  let (value, off) ← getOneVarintFrame buf
  return ({ value := value }, off)

/-- `quic_stream_data_frame`: MAX_STREAM_DATA and STREAM_DATA_BLOCKED. -/
structure StreamDataFrame where
  streamId : ℕ
  value : ℕ
  deriving DecidableEq, Repr

def maxStreamDataEncode (cap : ℕ) (f : StreamDataFrame) : Option Bytes :=
  putTwoVarintFrame cap frameMaxStreamData f.streamId f.value

def maxStreamDataDecode (buf : Bytes) : Option (StreamDataFrame × ℕ) := do
  let ((streamId, value), off) ← getTwoVarintFrame buf
  return ({ streamId := streamId, value := value }, off)

def streamDataBlockedEncode (cap : ℕ) (f : StreamDataFrame) : Option Bytes :=
  putTwoVarintFrame cap frameStreamDataBlocked f.streamId f.value

def streamDataBlockedDecode (buf : Bytes) : Option (StreamDataFrame × ℕ) := do
  let ((streamId, value), off) ← getTwoVarintFrame buf
  return ({ streamId := streamId, value := value }, off)

/-- `quic_streams_frame`: MAX_STREAMS and STREAMS_BLOCKED, with the direction in the low bit of the
type. -/
structure StreamsFrame where
  maxStreams : ℕ
  uni : Bool
  deriving DecidableEq, Repr

def streamsType (bidiType : ℕ) (uni : Bool) : ℕ := bidiType + (if uni then 1 else 0)

def maxStreamsEncode (cap : ℕ) (f : StreamsFrame) : Option Bytes :=
  putOneVarintFrame cap (streamsType frameMaxStreamsBidi f.uni) f.maxStreams

def maxStreamsDecode (buf : Bytes) : Option (StreamsFrame × ℕ) := do
  let uni := buf.getD 0 0 &&& 1 ≠ 0
  let (maxStreams, off) ← getOneVarintFrame buf
  return ({ maxStreams := maxStreams, uni := uni }, off)

def streamsBlockedEncode (cap : ℕ) (f : StreamsFrame) : Option Bytes :=
  putOneVarintFrame cap (streamsType frameStreamsBlockedBidi f.uni) f.maxStreams

def streamsBlockedDecode (buf : Bytes) : Option (StreamsFrame × ℕ) := do
  let uni := buf.getD 0 0 &&& 1 ≠ 0
  let (maxStreams, off) ← getOneVarintFrame buf
  return ({ maxStreams := maxStreams, uni := uni }, off)

/-! ## Stream control -/

/-- `QUIC_FRAME_RESET_STREAM` and `QUIC_FRAME_STOP_SENDING`. -/
def frameResetStream : ℕ := 0x04
def frameStopSending : ℕ := 0x05

structure ResetStreamFrame where
  streamId : ℕ
  errorCode : ℕ
  finalSize : ℕ
  deriving DecidableEq, Repr

def resetStreamEncode (cap : ℕ) (f : ResetStreamFrame) : Option Bytes :=
  putVarints [] cap [frameResetStream, f.streamId, f.errorCode, f.finalSize]

def resetStreamDecode (buf : Bytes) : Option (ResetStreamFrame × ℕ) := do
  let (streamId, off) ← varintTake buf 1
  let (errorCode, off) ← varintTake buf off
  let (finalSize, off) ← varintTake buf off
  return ({ streamId := streamId, errorCode := errorCode, finalSize := finalSize }, off)

structure StopSendingFrame where
  streamId : ℕ
  errorCode : ℕ
  deriving DecidableEq, Repr

def stopSendingEncode (cap : ℕ) (f : StopSendingFrame) : Option Bytes :=
  putVarints [] cap [frameStopSending, f.streamId, f.errorCode]

def stopSendingDecode (buf : Bytes) : Option (StopSendingFrame × ℕ) := do
  let (streamId, off) ← varintTake buf 1
  let (errorCode, off) ← varintTake buf off
  return ({ streamId := streamId, errorCode := errorCode }, off)

/-! ## Connection and path management -/

/-- `QUIC_FRAME_NEW_TOKEN` and `QUIC_FRAME_RETIRE_CID`. -/
def frameNewToken : ℕ := 0x07
def frameRetireCid : ℕ := 0x19

/-- `quic_new_token_frame`; the length is that of the token. -/
structure NewTokenFrame where
  token : Bytes
  deriving DecidableEq, Repr

/-- `quic_new_token_encode`; `quic_put_bytes` is `write_bytes` with a cursor. -/
def newTokenEncode (cap : ℕ) (f : NewTokenFrame) : Option Bytes := do
  let out ← putVarints [] cap [frameNewToken, f.token.length]
  writeBytes out cap f.token

/-- `quic_new_token_decode`; `take_token_view` is `read_bytes` with a cursor. -/
def newTokenDecode (buf : Bytes) : Option (NewTokenFrame × ℕ) := do
  let (length, off) ← varintTake buf 1
  let (token, off) ← readBytes buf off length
  return ({ token := token }, off)

def retireCidEncode (cap seq : ℕ) : Option Bytes := putVarints [] cap [frameRetireCid, seq]

def retireCidDecode (buf : Bytes) : Option (ℕ × ℕ) := varintTake buf 1

/-- `QUIC_PATH_DATA`, `QUIC_FRAME_PATH_CHALLENGE` and `QUIC_FRAME_PATH_RESPONSE`. -/
def pathData : ℕ := 8
def framePathChallenge : UInt8 := 0x1a
def framePathResponse : UInt8 := 0x1b

def pathEncode (cap : ℕ) (type : UInt8) (data : Vector UInt8 pathData) : Option Bytes :=
  if cap = 0 then none else writeBytes [type] cap data.toList

/-- `quic_path_decode`: the only decoder that looks at the type byte. -/
def pathDecode (buf : Bytes) (type : UInt8) : Option (Vector UInt8 pathData × ℕ) := do
  if buf.head? ≠ some type then none
  else
    let (data, off) ← readBytes buf 1 pathData
    return (Bytes.fit pathData data, off)

end Frame

end QuicVibe
