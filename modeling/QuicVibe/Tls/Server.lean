import QuicVibe.Common.Run
import QuicVibe.Frame.Walk
import QuicVibe.Keys.Schedule
import QuicVibe.Tls.Message
/-!
# The server side of the handshake

The driver that turns a ClientHello into the server flight (`sdrv.c`, `sdrv_flight.c`) and the
orchestrator around it (`server.c` over `srvfin`). Public-key operations are arbitrary functions. The
calls change state on failure too, so each returns its result next to the state it leaves. The socket
of a `quic_server` is left out.
-/

namespace QuicVibe

namespace Tls

open Crypto Packet Keys
open QuicVibe.Frame

/-- The public-key operations of the server. -/
structure ServerPrimitives where
  /-- The shared secret of a private and a public key. -/
  x25519 : Bytes32 → Bytes32 → Bytes32
  /-- The self-signed certificate of a signing key. -/
  p256Cert : Bytes32 → Bytes
  /-- The DER encoding of an ECDSA signature of a hash. -/
  p256Sign : Bytes32 → Digest → Option Bytes

/-- `quic_x25519`: an all-zero shared secret is an error. -/
def ServerPrimitives.shared (P : ServerPrimitives) (priv pub : Bytes32) : Option Bytes32 :=
  let out := P.x25519 priv pub
  if out = Vector.replicate 32 0 then none else some out

/-! ## The driver -/

structure Sdrv where
  serverPriv : Bytes32
  serverPub : Bytes32
  p256Priv : Bytes32
  cert : Bytes
  clientPub : Bytes32
  clientSid : Bytes
  hsSecret : Digest
  sHsTraffic : Digest
  hsReady : Bool
  tr : Sha256.Ctx
  odcid : Bytes
  iscid : Bytes

namespace Sdrv

variable (P : ServerPrimitives)

def init (s : Sdrv) (serverPriv serverPub certPriv : Bytes32) : Sdrv :=
  { s with
    serverPriv := serverPriv
    serverPub := serverPub
    p256Priv := certPriv
    cert := P.p256Cert certPriv
    hsReady := false
    odcid := []
    iscid := []
    tr := Sha256.init }

/-- `quic_sdrv_set_cids`: a long second id leaves the first one recorded. -/
def setCids (s : Sdrv) (odcid iscid : Bytes) : Bool × Sdrv :=
  if odcid.length > 20 then (false, s)
  else
    let s := { s with odcid := odcid }
    if iscid.length > 20 then (false, s) else (true, { s with iscid := iscid })

def transcriptAdd (s : Sdrv) (msg : Bytes) : Sdrv := { s with tr := Sha256.update s.tr msg }

def transcriptHash (s : Sdrv) : Digest := Sha256.final s.tr

def recvClientHello (s : Sdrv) (ch : Bytes) (beyond : ℕ → UInt8) : Bool × Sdrv :=
  match takeClientKeyshare ch beyond with
  | none => (false, s)
  | some pub =>
    let s := { s with clientPub := pub }
    match takeClientSid ch with
    | none => (false, s)
    | some sid => (true, transcriptAdd { s with clientSid := sid } ch)

/-- `quic_sdrv_handshake_secret`. -/
def handshakeSecretView (s : Sdrv) : Option Digest := if s.hsReady then some s.hsSecret else none

def deriveSecret (s : Sdrv) : Bool × Sdrv :=
  match P.shared s.serverPriv s.clientPub with
  | none => (false, s)
  | some ecdhe =>
    let hsSecret := handshakeSecret ecdhe
    (true, { s with
      hsSecret := hsSecret
      sHsTraffic := expandLabel hsSecret "s hs traffic" s.transcriptHash.toList 32
      hsReady := true })

def buildServerHello (s : Sdrv) (random : Bytes32) (cap : ℕ) : Option Bytes × Sdrv :=
  match shbuildServerHello random s.clientSid 0x1301 s.serverPub cap with
  | none => (none, s)
  | some sh =>
    match deriveSecret P (s.transcriptAdd sh) with
    | (false, s) => (none, s)
    | (true, s) => (some sh, s)

/-- The messages after ServerHello, each built from the driver as the ones before left it
(`emit_ee`, `emit_cert`, `emit_certverify`, `emit_finished`). -/
def flightMessages : List (Sdrv → Option Bytes) :=
  [fun s => do
      let tp ← stpBuildServer s.odcid s.iscid 256
      eebuildEncryptedExtensions tp 1024,
   fun s => sflightCertificate s.cert 1024,
   fun s => cvecdsaBuild (P.p256Sign s.p256Priv (sha256 (signedContent s.transcriptHash))) 256,
   fun s => sflightFinished s.sHsTraffic s.transcriptHash 64]

/-- `emit_hs_flight`: append each message and fold it into the transcript (`emit_msg`). -/
def emitHsFlight (cap : ℕ) : List (Sdrv → Option Bytes) → Sdrv → Bytes → Option Bytes × Sdrv
  | [], s, flight => (some flight, s)
  | build :: builds, s, flight =>
    match build s with
    | none => (none, s)
    | some msg =>
      if msg.length > cap - flight.length then (none, s)
      else emitHsFlight cap builds (s.transcriptAdd msg) (flight ++ msg)

/-- `quic_sdrv_build_server_flight`: ServerHello and the rest of the flight. -/
def buildServerFlight (s : Sdrv) (random : Bytes32) (shCap hsCap : ℕ) :
    Option (Bytes × Bytes) × Sdrv :=
  match buildServerHello P s random shCap with
  | (none, s) => (none, s)
  | (some sh, s) =>
    let (flight, s) := emitHsFlight hsCap (flightMessages P) s []
    (flight.map fun flight => (sh, flight), s)

end Sdrv

/-! ## The orchestrator -/

/-- `QUIC_SERVER_HS_*`. -/
inductive Phase
  | initial
  | chRecvd
  | flightSent
  | confirmed
  deriving DecidableEq, Repr

/-- `QUIC_SERVER_TRANSCRIPT_MAX`. -/
def transcriptMax : ℕ := 4096

/-- `quic_server`, with the confirmation flag of its `quic_srvfin_state`. The transcript buffer is
the list of the bytes written to it. -/
structure Server where
  sdrv : Sdrv
  sched : Keysched
  keys : Keyset
  finConfirmed : Bool
  crecv : Crecv
  phase : Phase
  hsDoneSent : Bool
  serverPriv : Bytes32
  tr : Bytes
  trThroughSh : ℕ
  trThroughFlight : ℕ

namespace Server

variable (P : ServerPrimitives)

/-- `quic_server_init`, over a structure with arbitrary contents. -/
def init (s : Server) (privX25519 pubX25519 certSeed : Bytes32) : Server where
  sdrv := s.sdrv.init P privX25519 pubX25519 certSeed
  sched := s.sched.init
  keys := s.keys.init
  finConfirmed := false
  crecv := s.crecv.init
  phase := .initial
  hsDoneSent := false
  serverPriv := privX25519
  tr := []
  trThroughSh := 0
  trThroughFlight := 0

/-- `srv_tr_add`: what does not fit the buffer is dropped. -/
def trAdd (s : Server) (msg : Bytes) : Server :=
  { s with tr := s.tr ++ msg.take (transcriptMax - s.tr.length) }

def setCids (s : Server) (odcid iscid : Bytes) : Bool × Server :=
  let (ok, sdrv) := s.sdrv.setCids odcid iscid
  (ok, { s with sdrv := sdrv })

def recvInitial (s : Server) (ch : Bytes) (beyond : ℕ → UInt8) : Bool × Server :=
  if s.phase ≠ .initial then (false, s)
  else
    match s.sdrv.recvClientHello ch beyond with
    | (false, sdrv) => (false, { s with sdrv := sdrv })
    | (true, sdrv) => (true, { trAdd { s with sdrv := sdrv } ch with phase := .chRecvd })

def installHsKeys (s : Server) : Bool × Server :=
  match P.shared s.serverPriv s.sdrv.clientPub with
  | none => (false, s)
  | some ecdhe =>
    match s.sched.advanceHandshake ecdhe.toList (s.tr.take s.trThroughSh) with
    | none => (false, s)
    | some sched =>
      let s := { s with sched := sched }
      match sched.get .serverHs with
      | none => (false, s)
      | some shs => (true, { s with keys := s.keys.install .handshake shs })

/-- Both messages in the transcript, with the lengths reached. -/
def recordFlight (s : Server) (sh flight : Bytes) : Server :=
  let s := s.trAdd sh
  let s := { s with trThroughSh := s.tr.length }
  let s := s.trAdd flight
  { s with trThroughFlight := s.tr.length }

/-- `srv_after_flight`: record both messages, then derive the Handshake keys. -/
def afterFlight (s : Server) (sh flight : Bytes) : Bool × Server :=
  installHsKeys P (s.recordFlight sh flight)

/-- `quic_server_build_flight`: the ServerHello and the flight when it succeeds. -/
def buildFlight (s : Server) (random : Bytes32) (shCap flightCap : ℕ) :
    Option (Bytes × Bytes) × Server :=
  if s.phase ≠ .chRecvd then (none, s)
  else
    match s.sdrv.buildServerFlight P random shCap flightCap with
    | (none, sdrv) => (none, { s with sdrv := sdrv })
    | (some (sh, flight), sdrv) =>
      match afterFlight P { s with sdrv := sdrv } sh flight with
      | (false, s) => (none, s)
      | (true, s) => (some (sh, flight), { s with phase := .flightSent })

/-- The client handshake traffic secret as `srv_verify_finished` derives it. -/
def clientHsTraffic (s : Server) (hsSecret : Digest) : Digest :=
  Keys.deriveSecret hsSecret "c hs traffic" (s.tr.take s.trThroughSh)

/-- The hash of the transcript through the server's Finished. -/
def transcriptHash (s : Server) : Digest := sha256 (s.tr.take s.trThroughFlight)

def verifyFinished (s : Server) (msg : Bytes) : Bool :=
  match s.sdrv.handshakeSecretView with
  | none => false
  | some hs => verifyClientFinished msg (s.clientHsTraffic hs) s.transcriptHash

def srvfinComplete (s : Server) : Bool × Server :=
  match s.sched.advanceMaster (s.tr.take s.trThroughFlight) with
  | none => (false, s)
  | some sched =>
    let s := { s with sched := sched }
    match sched.get .serverAp with
    | none => (false, s)
    | some ap => (true, { s with keys := s.keys.install .onertt ap, finConfirmed := true })

def onFinished (s : Server) (msg : Bytes) : Bool × Server :=
  if s.phase ≠ .flightSent then (false, s)
  else if !s.verifyFinished msg then (false, s)
  else
    match s.srvfinComplete with
    | (false, s) => (false, s)
    | (true, s) => (true, { s with phase := .confirmed })

def feed (s : Server) (payload : Bytes) : Bool × Server :=
  match s.crecv.collect payload with
  | (false, crecv) => (false, { s with crecv := crecv })
  | (true, crecv) =>
    let s := { s with crecv := crecv }
    if !crecv.completeMessage then (false, s) else s.onFinished crecv.message

/-- `quic_server_handshake_done`: the frame when it is produced. -/
def handshakeDone (s : Server) (cap : ℕ) : Option Bytes × Server :=
  if !(s.finConfirmed && !s.hsDoneSent) then (none, s)
  else if cap = 0 then (none, s)
  else (some [0x1e], { s with hsDoneSent := true })

def isConfirmed (s : Server) : Bool := s.phase == .confirmed

end Server

end Tls

end QuicVibe
