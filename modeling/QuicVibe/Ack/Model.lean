import QuicVibe.Common.Bytes
import QuicVibe.Common.Run
/-!
# Packet number spaces: what was received, what is acknowledged

The receive record of one packet number space (`recvpn.c`), the ACK ranges built from it
(`ackrange.c`), the table of sent packets (`sentpkt.c`) with ACK processing over it
(`ack_process.c`), and the three spaces side by side (`recv_spaces.c`, `sent_spaces.c`).
-/

namespace QuicVibe

namespace Ack

/-- `quic_pns_space`: the three packet number spaces. -/
inductive PnsSpace where
  | initial
  | handshake
  | app
  deriving DecidableEq, Repr

/-! ## Received packet numbers -/

/-- `QUIC_RECVPN_WINDOW`: packets below `largest` tracked in the bitmap. -/
def recvpnWindow : ℕ := 64

structure RecvPn where
  largest : ℕ
  /-- Bit `i` is set when `largest - 1 - i` was received. -/
  bitmap : BitVec 64
  any : Bool

namespace RecvPn

def init : RecvPn := { largest := 0, bitmap := 0, any := false }

/-- For `pn` below `largest`: in the window and its bit is set. -/
def belowSeen (r : RecvPn) (pn : ℕ) : Bool :=
  let delta := sub64 r.largest pn
  if delta > recvpnWindow then false else r.bitmap.getLsbD (delta - 1)

def seenAtOrAbove (r : RecvPn) (pn : ℕ) : Bool :=
  if pn = r.largest then true
  else if pn > r.largest then false else r.belowSeen pn

def seen (r : RecvPn) (pn : ℕ) : Bool :=
  if !r.any then false else r.seenAtOrAbove pn

/-- Advance `largest` to `pn`, shifting the window and marking the old largest. -/
def advance (r : RecvPn) (pn : ℕ) : RecvPn :=
  let step := sub64 pn r.largest
  let shifted : BitVec 64 := if step ≥ 64 then 0 else r.bitmap <<< step
  let oldBit : BitVec 64 := if step ≤ 64 then 1#64 <<< (step - 1) else 0
  { r with bitmap := shifted ||| oldBit, largest := pn }

/-- Set the bit for a `pn` at or below `largest`, if it is within the window. -/
def markBelow (r : RecvPn) (pn : ℕ) : RecvPn :=
  let delta := sub64 r.largest pn
  if delta = 0 ∨ delta > recvpnWindow then r
  else { r with bitmap := r.bitmap ||| (1#64 <<< (delta - 1)) }

def record (r : RecvPn) (pn : ℕ) : RecvPn :=
  if !r.any then { r with any := true, largest := pn }
  else if pn > r.largest then r.advance pn else r.markBelow pn

end RecvPn

/-! ## ACK ranges -/

/-- The Gap between a block's smallest number and the next block's largest. -/
def gapOf (prevLo hi : ℕ) : ℕ := sub64 (sub64 prevLo hi) 2

/-- Write one value; fails when it would exceed `cap`. -/
def push (ranges : List ℕ) (cap v : ℕ) : Option (List ℕ) :=
  if ranges.length ≥ cap then none else some (ranges ++ [v])

/-- Append one block: its length, after a gap unless it is the first. -/
def ackrangeEmit (ranges : List ℕ) (cap : ℕ) (first : Bool) (prevLo hi lo : ℕ) :
    Option (List ℕ) := do
  let ranges ← if first then some ranges else push ranges cap (gapOf prevLo hi)
  push ranges cap (sub64 hi lo)

/-- `build_st`: the running state while descending the received list. The count `w` of written
values is the length of the list. -/
structure BuildSt where
  ranges : List ℕ
  /-- Largest number of the block being scanned. -/
  hi : ℕ
  /-- Smallest number of the last closed block. -/
  prevLo : ℕ
  first : Bool

/-- Close the block ending at `lo` and start a new one at `nextHi`. -/
def closeBlock (s : BuildSt) (cap lo nextHi : ℕ) : Option BuildSt := do
  let ranges ← ackrangeEmit s.ranges cap s.first s.prevLo s.hi lo
  return { ranges := ranges, prevLo := lo, hi := nextHi, first := false }

/-- One descent step from `pn` to the next lower received number `below`. -/
def buildStep (s : BuildSt) (cap pn below : ℕ) : Option BuildSt :=
  if sub64 pn below = 1 then some s else closeBlock s cap pn below

/-- Walk all blocks from high to low, then close the lowest. The list is the received one read
from its end. -/
def descend (s : BuildSt) (cap : ℕ) : List ℕ → Option (List ℕ)
  | [] => none
  | [pn] => ackrangeEmit s.ranges cap s.first s.prevLo s.hi pn
  | pn :: below :: rest => do
    let s ← buildStep s cap pn below
    descend s cap (below :: rest)

/-- `quic_ackgen_build_ranges`: the largest number and the range values of an ascending list. -/
def buildRanges (received : List ℕ) (cap : ℕ) : Option (ℕ × List ℕ) :=
  match received.reverse with
  | [] => none
  | pn :: rest => do
    let ranges ← descend { ranges := [], hi := pn, prevLo := 0, first := true } cap (pn :: rest)
    return (pn, ranges)

/-! ## Sent packets -/

/-- `QUIC_SENTPKT_CAP`. -/
def sentpktCap : ℕ := 256

/-- `QUIC_SP_INFLIGHT`, `QUIC_SP_ACKED`, `QUIC_SP_LOST`. -/
inductive SpState where
  | inflight
  | acked
  | lost
  deriving DecidableEq, Repr

/-- `quic_sentpkt_entry`. -/
structure SentEntry where
  pn : ℕ
  timeSent : ℕ
  size : ℕ
  ackEliciting : Bool
  state : SpState
  used : Bool
  deriving DecidableEq

structure SentPkt where
  e : Vector SentEntry sentpktCap

/-- The slot holds an in-flight packet whose number is in `[lo, hi]`. -/
def slotInRange (p : SentEntry) (lo hi : ℕ) : Bool :=
  p.used && p.state = .inflight && (lo ≤ p.pn && p.pn ≤ hi)

/-- Remove every in-flight packet in `[lo, hi]`, appending its number to `out`. -/
def ackRange (t : SentPkt) (lo hi : ℕ) (out : List ℕ) : SentPkt × List ℕ :=
  ({ e := t.e.map fun p =>
      if slotInRange p lo hi then { p with state := .acked, used := false } else p },
    out ++ (t.e.toList.filter fun p => slotInRange p lo hi).map SentEntry.pn)

/-- The loop of `quic_ack_process` over the `(gap, range length)` pairs below a range that
started at `lo`. -/
def ackPairs (t : SentPkt) (lo : ℕ) (out : List ℕ) : List ℕ → SentPkt × List ℕ
  | gap :: len :: rest =>
    let hi := sub64 (sub64 lo gap) 2
    let lo := sub64 hi len
    let (t, out) := ackRange t lo hi out
    ackPairs t lo out rest
  | _ => (t, out)

/-- `quic_ack_process`: the table after the ACK and the newly acknowledged numbers. -/
def ackProcess (t : SentPkt) (ackLargest : ℕ) : List ℕ → SentPkt × List ℕ
  | [] => (t, [])
  | firstLen :: rest =>
    let hi := ackLargest
    let lo := sub64 hi firstLen
    let (t, out) := ackRange t lo hi []
    ackPairs t lo out rest

/-! ## The three spaces -/

/-- `quic_pnspaces_recv`. -/
structure RecvSpaces where
  r : PnsSpace → RecvPn

namespace RecvSpaces

def init : RecvSpaces := { r := fun _ => RecvPn.init }

def onRecv (s : RecvSpaces) (space : PnsSpace) (pn : ℕ) : RecvSpaces :=
  { r := Function.update s.r space ((s.r space).record pn) }

/-- The received numbers of a space in ascending order: the window below `largest`, from its
far end, then `largest` itself. -/
def collectPns (r : RecvPn) : List ℕ :=
  ((List.range recvpnWindow).reverse.filterMap fun i =>
    if r.seen (sub64 r.largest (i + 1)) then some (sub64 r.largest (i + 1)) else none)
    ++ [r.largest]

def ackRanges (s : RecvSpaces) (space : PnsSpace) (cap : ℕ) : Option (ℕ × List ℕ) :=
  if !(s.r space).any then none else buildRanges (collectPns (s.r space)) cap

end RecvSpaces

/-- `quic_pnspaces_sent`. -/
structure SentSpaces where
  t : PnsSpace → SentPkt

def SentSpaces.onAck (s : SentSpaces) (space : PnsSpace) (ackLargest : ℕ) (ackRanges : List ℕ) :
    SentSpaces × List ℕ :=
  let (t, acked) := ackProcess (s.t space) ackLargest ackRanges
  ({ t := Function.update s.t space t }, acked)

end Ack

end QuicVibe
