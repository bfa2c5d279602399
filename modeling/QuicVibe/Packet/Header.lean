import QuicVibe.Packet.Varint
/-!
# Packet headers

The long header as it is built (`lhdr_build.c`, over `header.c` and `inittoken.c`) and parsed
(`lhdr_parse.c`), packet numbers on the wire (`pnum.c`), and the packets of a datagram
(`coalesce.c`).
-/

namespace QuicVibe

namespace Packet

/-- `QUIC_MAX_CID_LEN`. -/
def maxCidLen : ℕ := 20

/-! ## Packet numbers -/

/-- `quic_pnum_encode`: the low `nbytes` of the packet number. -/
def pnumEncode (fullPn nbytes : ℕ) : Bytes := putBe nbytes fullPn

/-- The candidate is a full window below expected and can be lifted safely. -/
def belowWindow (candidate expected win : ℕ) : Bool :=
  u64 (candidate + win / 2) ≤ expected && u64 (candidate + win) > candidate

/-- The candidate is a full window above expected and can be lowered safely. -/
def aboveWindow (candidate expected win : ℕ) : Bool :=
  candidate > u64 (expected + win / 2) && candidate ≥ win

/-- The candidate nearest to `expected` that ends in the truncated bits. -/
def nearest (candidate expected win : ℕ) : ℕ :=
  if belowWindow candidate expected win then u64 (candidate + win)
  else if aboveWindow candidate expected win then sub64 candidate win
  else candidate

/-- `quic_pnum_decode`. Clearing the low bits of `expected` with the mask `~(win - 1)` and or-ing
the truncated value in is `expected / win * win + truncated`. -/
def pnumDecode (buf : Bytes) (largestPn : ℕ) : ℕ :=
  let truncated := readBe buf
  let win := 2 ^ (buf.length * 8)
  let expected := u64 (largestPn + 1)
  nearest (expected / win * win + truncated) expected win

/-! ## Building -/

/-- The parsed or to-be-built invariant part of a long header (`quic_header`). -/
structure LongHeader where
  longType : UInt8
  version : ℕ
  dcid : Bytes
  scid : Bytes

/-- Append a length-prefixed connection id. -/
def writeCid (buf : Bytes) (cap : ℕ) (cid : Bytes) : Option Bytes :=
  if buf.length + 1 + cid.length > cap then none
  else some (buf ++ UInt8.ofNat cid.length :: cid)

/-- Append both connection ids; an overflow resets the offset to zero. -/
def writeCids (buf : Bytes) (cap : ℕ) (h : LongHeader) : Bytes :=
  [h.dcid, h.scid].foldl (fun buf cid => (writeCid buf cap cid).getD []) buf

/-- Byte 0 and the version; nothing when they do not fit. -/
def putLongPrefix (cap : ℕ) (h : LongHeader) : Bytes :=
  if cap < 5 then [] else ((0xC0 : UInt8) ||| (h.longType <<< 4)) :: putBe 4 h.version

def headerBuildLong (cap : ℕ) (h : LongHeader) : Bytes :=
  let buf := putLongPrefix cap h
  if buf.length ≠ 0 then writeCids buf cap h else buf

/-- The low two bits of byte 0 hold the packet number length minus one. -/
def lhdrByte0Pnlen (byte0 : UInt8) (pnLen : ℕ) : UInt8 :=
  (byte0 &&& 0xFC) ||| (UInt8.ofNat (pnLen - 1) &&& 0x3)

/-- Version and connection ids under the caller's byte 0. -/
def lhdrPutPrefix (cap : ℕ) (byte0 : UInt8) (version : ℕ) (dcid scid : Bytes) (pnLen : ℕ) :
    Option Bytes :=
  if dcid.length ≤ maxCidLen ∧ scid.length ≤ maxCidLen then
    let w := headerBuildLong cap { longType := 0, version := version, dcid := dcid, scid := scid }
    if w.length ≠ 5 + 1 + dcid.length + 1 + scid.length then none
    else some (w.set 0 (lhdrByte0Pnlen byte0 pnLen))
  else none

def putBytes (out : Bytes) (cap : ℕ) (src : Bytes) : Option Bytes :=
  if out.length + src.length > cap then none else some (out ++ src)

theorem putBytes_eq_some {out : Bytes} {cap : ℕ} {src out' : Bytes} :
    putBytes out cap src = some out' ↔ out.length + src.length ≤ cap ∧ out ++ src = out' := by
  rw [putBytes]
  split
  · simp
    omega
  · simp
    omega

/-- `quic_inittoken_put` into a fresh region of `cap` bytes. -/
def inittokenPut (cap : ℕ) (token : Bytes) : Option Bytes := do
  let out ← varintPut [] cap token.length
  putBytes out cap token

/-- The token of an Initial packet. -/
def putToken (out : Bytes) (cap : ℕ) (isInitial : Bool) (token : Bytes) : Option Bytes :=
  if !isInitial then some out
  else do
    let w ← inittokenPut (cap - out.length) token
    return out ++ w

/-- The Length field, covering the packet number, the payload and the tag, then the truncated
packet number. -/
def putLenPn (out : Bytes) (cap payloadLen pn pnLen : ℕ) : Option Bytes := do
  let out ← varintPut out cap (pnLen + payloadLen + 16)
  if out.length + pnLen > cap then none else some (out ++ pnumEncode pn pnLen)

/-- `quic_lhdr_build`: the complete unprotected long header. -/
def lhdrBuild (byte0 : UInt8) (version : ℕ) (dcid scid : Bytes) (isInitial : Bool) (token : Bytes)
    (payloadLen pn pnLen cap : ℕ) : Option Bytes := do
  let out ← lhdrPutPrefix cap byte0 version dcid scid pnLen
  let out ← putToken out cap isInitial token
  putLenPn out cap payloadLen pn pnLen

/-! ## Parsing -/

/-- A length-prefixed connection id at `off`, and the offset behind it. -/
def readCid (buf : Bytes) (off : ℕ) : Option (Bytes × ℕ) :=
  match buf[off]? with
  | none => none
  | some len =>
    if len.toNat ≤ maxCidLen ∧ off + 1 + len.toNat ≤ buf.length
    then some ((buf.drop (off + 1)).take len.toNat, off + 1 + len.toNat)
    else none

/-- Byte 0, version and connection ids of a long header, and the offset behind them. -/
def parseLong (buf : Bytes) : Option (LongHeader × ℕ) := do
  let (dcid, off) ← readCid buf 5
  let (scid, off) ← readCid buf off
  return ({ longType := (buf.getD 0 0 >>> 4) &&& 0x3, version := readBe ((buf.drop 1).take 4),
            dcid := dcid, scid := scid }, off)

def isLongHeader (pkt : Bytes) : Bool := pkt.length ≠ 0 && pkt.getD 0 0 &&& 0x80 ≠ 0

/-- `quic_inittoken_get`: the token at the front of `buf`, and the bytes used. -/
def inittokenGet (buf : Bytes) : Option (Bytes × ℕ) := do
  let (tlen, off) ← varintTake buf 0
  if tlen ≤ buf.length - off then some ((buf.drop off).take tlen, off + tlen) else none

/-- The token of an Initial packet; other packets have none. -/
def readToken (pkt : Bytes) (isInitial : Bool) (off : ℕ) : Option (Bytes × ℕ) :=
  if !isInitial then some ([], off)
  else do
    let (token, used) ← inittokenGet (pkt.drop off)
    return (token, off + used)

/-- What `quic_lhdr_parse` reports: the connection ids, the token, the Length field and the
offset of the packet number. -/
structure Lhdr where
  dcid : Bytes
  scid : Bytes
  token : Bytes
  length : ℕ
  pnOff : ℕ

def lhdrParse (pkt : Bytes) (isInitial : Bool) : Option Lhdr :=
  if !isLongHeader pkt then none
  else do
    let (h, off) ← parseLong pkt
    let (token, off) ← readToken pkt isInitial off
    let (length, off) ← varintTake pkt off
    return { dcid := h.dcid, scid := h.scid, token := token, length := length, pnOff := off }

/-! ## Coalesced packets -/

/-- Skip a length-prefixed connection id at `p` (`skip_cid`); no limit on its length. -/
def skipCid (buf : Bytes) (p : ℕ) : Option ℕ := do
  let len ← buf[p]?
  if p + 1 + len.toNat ≤ buf.length then some (p + 1 + len.toNat) else none

/-- Skip the token at `p` (`skip_token`). -/
def skipToken (buf : Bytes) (p : ℕ) : Option ℕ := do
  let (tlen, p) ← varintTake buf p
  if p + tlen ≤ buf.length then some (p + tlen) else none

/-- The length of the long-header packet at the front of `buf` (`long_packet_len`). -/
def longPacketLen (buf : Bytes) : Option ℕ :=
  if 5 > buf.length then none
  else do
    let p ← skipCid buf 5
    let p ← skipCid buf p
    let p ← if (buf.getD 0 0 >>> 4) &&& 0x3 = 0 then skipToken buf p else some p
    let (length, p) ← varintTake buf p
    if p + length > buf.length then none else some (p + length)

/-- `quic_coalesce_next` on the rest of a datagram: the packet at its front, and what follows it. A
short-header packet takes all. -/
def coalesceNext (rest : Bytes) : Option (Bytes × Bytes) :=
  if rest.isEmpty then none
  else if rest.getD 0 0 &&& 0x80 = 0 then some (rest, [])
  else do
    let len ← longPacketLen rest
    return (rest.take len, rest.drop len)

/-- `quic_udploop_split`: at most `maxPkts` packets. -/
def udploopSplit : ℕ → Bytes → List Bytes
  | 0, _ => []
  | maxPkts + 1, rest =>
    match coalesceNext rest with
    | none => []
    | some (pkt, rest) => pkt :: udploopSplit maxPkts rest

end Packet

end QuicVibe
