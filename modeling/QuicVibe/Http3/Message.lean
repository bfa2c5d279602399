import QuicVibe.Frame.Codec
import QuicVibe.Http3.Qpack
/-!
# HTTP/3 messages

Frames and SETTINGS (`frame.c`, `settings_build.c`, `control_settings.c`), the request decoder
(`request_parse.c`, `request_drive.c` over `pseudoheader.c`) and the response writer
(`field_encode.c`, `resp_build.c`, `response.c`), with the state of the HTTP/3 layer (`h3srv`). The
views of a decoded request are the bytes they show.
-/

namespace QuicVibe

namespace Http3

open Packet
open QuicVibe.Frame

/-! ## Frames -/

/-- `QUIC_H3_FRAME_*`. -/
def frameData : ℕ := 0x00
def frameHeaders : ℕ := 0x01
def frameSettings : ℕ := 0x04

def framePut (cap type : ℕ) (payload : Bytes) : Option Bytes := do
  let out ← putVarints [] cap [type, payload.length]
  putBytes out cap payload

/-- A frame in a buffer: type, payload, and the bytes it occupies. -/
structure H3Frame where
  type : ℕ
  payload : Bytes
  used : ℕ

def frameGet (buf : Bytes) : Option H3Frame := do
  let (type, off) ← varintTake buf 0
  let (len, off) ← varintTake buf off
  if off + len > buf.length then none
  else some { type := type, payload := (buf.drop off).take len, used := off + len }

def settingsPut (cap : ℕ) (pairs : List (ℕ × ℕ)) : Option Bytes :=
  if pairs.length > 8 then none
  else
    let body := pairs.flatMap fun p => [p.1, p.2]
    putVarints [] cap ([frameSettings, (body.map varintLen).sum] ++ body)

/-- The settings the server advertises (`control_settings.c`). -/
def defaultSettings : List (ℕ × ℕ) := [(0x06, 0x4000), (0x01, 0), (0x07, 0)]

/-- `quic_h3settings_control_stream`: the stream type and SETTINGS. -/
def controlStream (cap : ℕ) : Option Bytes := do
  let out ← varintPut [] cap 0x00
  let rest ← settingsPut (cap - out.length) defaultSettings
  return out ++ rest

/-! ## Requests -/

inductive PhKind
  | none
  | method
  | scheme
  | authority
  | path
  | status
  | unknown
  deriving DecidableEq, Repr

/-- The pseudo-header names. -/
def phKnown : List (String × PhKind) :=
  [(":method", .method), (":scheme", .scheme), (":authority", .authority), (":path", .path),
   (":status", .status)]

def phClassify (name : Bytes) : PhKind :=
  if name.head? ≠ some 0x3a then .none
  else ((phKnown.find? fun e => ascii e.1 == name).map Prod.snd).getD .unknown

/-- `quic_h3reqdrive_req`; an absent field is empty. -/
structure Request where
  method : Bytes
  scheme : Bytes
  authority : Bytes
  path : Bytes
  body : Bytes
  deriving DecidableEq, Repr

/-- The request nothing was recovered for. -/
def Request.empty : Request where
  method := []
  scheme := []
  authority := []
  path := []
  body := []

/-- `find_headers`: the field section of the first HEADERS frame and the offset behind it. A frame
has at least two bytes, which bounds the number of rounds. -/
def findHeaders (h3 : Bytes) : ℕ → ℕ → Option (Bytes × ℕ)
  | 0, _ => none
  | fuel + 1, off => do
    let f ← frameGet (h3.drop off)
    if f.type = frameHeaders then some (f.payload, off + f.used)
    else findHeaders h3 fuel (off + f.used)

/-- `find_body`: the first DATA frame behind HEADERS, nothing if the stream ends before. -/
def findBody (h3 : Bytes) : ℕ → ℕ → Option Bytes
  | 0, _ => none
  | fuel + 1, off =>
    if off ≥ h3.length then some []
    else do
      let f ← frameGet (h3.drop off)
      if f.type = frameData then some f.payload else findBody h3 fuel (off + f.used)

/-- `quic_h3reqdrive_request_sections`: the field section and the body of the stream. -/
def requestSections (streamData : Bytes) : Option (Bytes × Bytes) := do
  let (f, _) ← getStream streamData
  let (fs, stop) ← findHeaders f.data (f.data.length + 1) 0
  let body ← findBody f.data (f.data.length + 1) stop
  return (fs, body)

/-- `rline`: one field line, with the bytes of input and of scratch it takes. -/
structure FieldLine where
  name : Bytes
  value : Bytes
  used : ℕ
  scratchUsed : ℕ

/-- `line_indexed`; the table flag is not looked at. -/
def lineIndexed (fs : Bytes) : Option FieldLine := do
  let (index, _, used) ← indexedDecode fs
  let (name, value) ← staticGet index
  return { name := name, value := value, used := used, scratchUsed := 0 }

/-- `line_namref`; the table flag is not looked at. -/
def lineNamref (fs : Bytes) (scap : ℕ) : Option FieldLine := do
  let l ← literalNamrefDecode fs scap
  let (name, _) ← staticGet l.index
  return { name := name, value := l.value, used := l.used, scratchUsed := l.value.length }

/-- `line_litname`: the name goes to the first half of the scratch, the value to the second. -/
def lineLitname (fs : Bytes) (scap : ℕ) : Option FieldLine := do
  let half := scap / 2
  let l ← literalNameDecode fs half (scap - half)
  return { name := l.name, value := l.value, used := l.used, scratchUsed := half + l.value.length }

def decodeLine (fs : Bytes) (scap : ℕ) : Option FieldLine :=
  (lineIndexed fs).or ((lineNamref fs scap).or (lineLitname fs scap))

/-- `classify_line`: the last line of a pseudo-header wins, other lines are ignored. -/
def classifyLine (r : Request) (l : FieldLine) : Request :=
  match phClassify l.name with
  | .method => { r with method := l.value }
  | .scheme => { r with scheme := l.value }
  | .authority => { r with authority := l.value }
  | .path => { r with path := l.value }
  | .none | .status | .unknown => r

/-- `scan_lines`; a line has at least one byte. -/
def scanLines : ℕ → Bytes → ℕ → Request → Option Request
  | 0, fs, _, r => if fs.isEmpty then some r else none
  | fuel + 1, fs, scap, r =>
    if fs.isEmpty then some r
    else do
      let l ← decodeLine fs scap
      scanLines fuel (fs.drop l.used) (scap - l.scratchUsed) (classifyLine r l)

/-- `quic_h3reqdrive_recv_get`, with `scap` bytes of scratch. -/
def recvGet (streamData : Bytes) (scap : ℕ) : Option Request := do
  let (fs, body) ← requestSections streamData
  let (_, off) ← prefixDecode fs
  scanLines (fs.length - off) (fs.drop off) scap { Request.empty with body := body }

/-! ## Responses -/

def statusDigits (status : ℕ) : Bytes :=
  [status / 100 % 10, status / 10 % 10, status % 10].map fun d => UInt8.ofNat (0x30 + d)

/-- `quic_h3resp_encode_status`: the field section of a response. -/
def encodeStatus (status cap : ℕ) : Option Bytes := do
  let out ← prefixEncode cap 0 false 0
  let line ← match staticFind (ascii ":status") (statusDigits status) with
    | some idx => indexedEncode (cap - out.length) idx true
    | none => literalNamrefEncode (cap - out.length) 24 true false (statusDigits status)
  return out ++ line

/-- `quic_h3resp_build`: HEADERS, and DATA when there is a body. -/
def respBuild (status : ℕ) (body : Bytes) (cap : ℕ) : Option Bytes := do
  let field ← encodeStatus status 16
  let out ← framePut cap frameHeaders field
  if body.isEmpty then some out
  else do
    let data ← framePut (cap - out.length) frameData body
    return out ++ data

/-- `quic_h3conn_send_response`: the response as one STREAM frame with FIN. -/
def sendResponse (streamId status : ℕ) (body : Bytes) (cap : ℕ) : Option Bytes := do
  let h3 ← respBuild status body 1500
  putStream cap { streamId := streamId, offset := 0, data := h3, fin := true }

/-! ## The HTTP/3 layer of the server -/

/-- `quic_h3srv_state`, as far as requests and responses use it. -/
structure H3srv where
  settingsSent : Bool
  requestSeen : Bool
  deriving DecidableEq, Repr

namespace H3srv

def openControl (st : H3srv) (cap : ℕ) : Option Bytes × H3srv :=
  match controlStream cap with
  | none => (none, st)
  | some out => (some out, { st with settingsSent := true })

def onRequest (st : H3srv) (streamData : Bytes) (scap : ℕ) : Option Request × H3srv :=
  match recvGet streamData scap with
  | none => (none, st)
  | some r => (some r, { st with requestSeen := true })

def buildResponse (st : H3srv) (streamId status : ℕ) (body : Bytes) (cap : ℕ) : Option Bytes :=
  if st.settingsSent && st.requestSeen then sendResponse streamId status body cap else none

end H3srv

end Http3

end QuicVibe
