import QuicVibe.Stream.Reassemble
import QuicVibe.Keys.Schedule
import QuicVibe.Tls.Certificate
/-!
# The client side of the handshake

The order machine of handshake messages (`hsdriver.c`); the driver that reassembles the peer's hello
and derives the Handshake keys (`tlsdriver.c` over `crypto_rx.c` and `serverhello.c`); the full
handshake over it (`fullhs.c`); and the client (`client.c`) that hands each payload to the layer its
phase asks for. State is updated on failure too, so every call returns its result next to the state
it leaves. The ClientHello writers of `tlsdriver.c` and the socket, the clock and the random numbers
of `client.c` are left out.
-/

namespace QuicVibe

namespace Tls

open Crypto Packet Keys QuicVibe.Stream
open QuicVibe.Frame

/-! ## The order machine -/

/-- The messages the order machine tracks (`QUIC_HSD_*`). -/
inductive HsdMsg
  | clientHello
  | serverHello
  | encryptedExt
  | certificate
  | certVerify
  | finished
  | handshakeDone
  deriving DecidableEq, Repr

/-- `QUIC_HSD_PROT_*` of a level. -/
def protRank : Level → ℕ
  | .initial => 0
  | .handshake => 1
  | .onertt => 2

structure Hsdriver where
  isServer : Bool
  recvCount : ℕ
  certVerified : Bool
  /-- The highest protection level seen. -/
  level : Level
  complete : Bool
  confirmed : Bool

/-- The flight and the level of each message (`hsd_order`, `hsd_level`). -/
def hsdOrder : List (HsdMsg × Level) :=
  [(.clientHello, .initial), (.serverHello, .initial), (.encryptedExt, .handshake),
   (.certificate, .handshake), (.certVerify, .handshake), (.finished, .handshake),
   (.handshakeDone, .onertt)]

namespace Hsdriver

def init (isServer : Bool) : Hsdriver where
  isServer := isServer
  recvCount := 0
  certVerified := false
  level := .initial
  complete := false
  confirmed := false

/-- `hsd_step_legal`: the next message of the table, and Finished only once the peer is
authenticated. -/
def stepLegal (s : Hsdriver) (msg : HsdMsg) (level : Level) : Bool :=
  hsdOrder[s.recvCount]? == some (msg, level) && (msg != .finished || s.certVerified)

/-- A legal message counts and leaves its marks (`hsd_mark`). -/
def accept (s : Hsdriver) (msg : HsdMsg) (level : Level) : Hsdriver :=
  { s with
    level := if protRank level > protRank s.level then level else s.level
    recvCount := s.recvCount + 1
    complete := s.complete || msg == .finished
    confirmed := s.confirmed || msg == .handshakeDone }

def recv (s : Hsdriver) (msg : HsdMsg) (level : Level) : Bool × Hsdriver :=
  if !s.stepLegal msg level then (false, s) else (true, s.accept msg level)

end Hsdriver

/-! ## The hello of the peer -/

structure CryptoRx where
  reasm : Reasm
  readUpto : ℕ

namespace CryptoRx

def init (r : CryptoRx) : CryptoRx := { reasm := r.reasm.init, readUpto := 0 }

def recv (r : CryptoRx) (f : CryptoFrame) : Bool × CryptoRx :=
  let (ok, reasm) := r.reasm.insert f.offset f.data
  (ok, { r with reasm := reasm })

/-- `quic_crypto_stream_read`: the contiguous bytes behind those already read. -/
def read (r : CryptoRx) (cap : ℕ) : Option Bytes × CryptoRx :=
  let (d, reasm) := r.reasm.deliver
  let r := { r with reasm := reasm }
  let avail := sub64 d r.readUpto
  if avail > cap then (none, r)
  else (some ((r.reasm.buf.toList.drop r.readUpto).take avail),
    { r with readUpto := u64 (r.readUpto + avail) })

/-- The loop of `feed_all` over packed CRYPTO frames; a frame has at least one byte. -/
def feedFrames : ℕ → CryptoRx → Bytes → Bool × CryptoRx
  | 0, r, frames => (frames.isEmpty, r)
  | fuel + 1, r, frames =>
    if frames.isEmpty then (true, r)
    else
      match getCrypto frames with
      | none => (false, r)
      | some (f, used) =>
        match r.recv f with
        | (false, r) => (false, r)
        | (true, r) => feedFrames fuel r (frames.drop used)

def feedAll (r : CryptoRx) (frames : Bytes) : Bool × CryptoRx := feedFrames frames.length r frames

end CryptoRx

/-- `quic_tls_ext_key_share_parse`: one KeyShareEntry at `p`. -/
def keyShareParse (b : ℕ → UInt8) (p n : ℕ) : Option Bytes32 :=
  if entryOk b p n then some (bytes32At b (p + 4)) else none

/-- What `quic_tls_parse_server_hello` writes; the version only if the extension is there. -/
structure ServerHello where
  serverPub : Bytes32
  cipher : ℕ
  version : Option ℕ

/-- `sh_walk`: the last key share and the last well-sized version of the block up to `stop`. -/
def shWalk (b : ℕ → UInt8) (stop : ℕ) :
    ℕ → ℕ → Option Bytes32 → Option ℕ → Option (Bytes32 × Option ℕ)
  | 0, _, _, _ => none
  | fuel + 1, q, pub, version =>
    if q + 4 ≤ stop then
      let type := be16At b q
      let dlen := be16At b (q + 2)
      if q + 4 + dlen > stop then none
      else
        let pub := if type = 51 then keyShareParse b (q + 4) dlen else pub
        let version := if type = 43 ∧ dlen = 2 then some (be16At b (q + 4)) else version
        shWalk b stop fuel (q + 4 + dlen) pub version
    else pub.map fun pub => (pub, version)

def parseServerHello (buf : Bytes) : Option ServerHello := do
  let (type, n) ← hsParse buf
  let b := fun i => buf.getD (4 + i) 0
  let p := 35 + (b 34).toNat
  if type ≠ hsServerHello ∨ n < 35 ∨ p + 3 > n then none
  else
    let exts := p + 3
    let stop := exts + 2 + be16At b exts
    if exts + 2 > n ∨ stop > n then none
    else
      let (pub, version) ← shWalk b stop (stop + 1) (exts + 2) none none
      return { serverPub := pub, cipher := be16At b p, version := version }

/-- `ch_walk` of `tlsdriver.c`: unlike the walk of `sdrv.c` it looks at the first entry of a key
share list only. -/
def driverChWalk (b : ℕ → UInt8) (stop : ℕ) : ℕ → ℕ → Option Bytes32
  | 0, _ => none
  | fuel + 1, q =>
    if q + 4 > stop then none
    else
      let type := be16At b q
      let dlen := be16At b (q + 2)
      if q + 4 + dlen > stop then none
      else
        match if type = 51 ∧ 2 ≤ dlen then keyShareParse b (q + 6) (dlen - 2) else none with
        | some pub => some pub
        | none => driverChWalk b stop fuel (q + 4 + dlen)

def parseClientHelloKeyshare (buf : Bytes) (beyond : ℕ → UInt8) : Option Bytes32 := do
  let (type, body) ← hsParse buf
  let b := fun i => inMemory buf beyond (4 + i)
  let exts := chPrefix b body
  if type ≠ hsClientHello ∨ exts = 0 then none
  else
    let stop := exts + 2 + be16At b exts
    driverChWalk b stop (stop + 1) (exts + 2)

/-! ## The driver -/

/-- `quic_tlsdriver`, without the server name of its ClientHello. -/
structure Tlsdriver where
  rx : CryptoRx
  hs : Hsdriver
  ks : Keysched
  keys : Keyset
  isServer : Bool
  myPriv : Bytes32
  myPub : Bytes32
  shared : Bytes32
  hsReady : Bool

namespace Tlsdriver

variable {Store : Type} (P : ClientPrimitives Store)

/-- `quic_tlsdriver_init`, over a structure with arbitrary contents. -/
def init (d : Tlsdriver) (myPriv myPub : Bytes32) (isServer : Bool) : Tlsdriver where
  rx := d.rx.init
  hs := Hsdriver.init isServer
  ks := d.ks.init
  keys := d.keys.init
  isServer := isServer
  myPriv := myPriv
  myPub := myPub
  shared := Vector.replicate 32 0
  hsReady := false

def peerKeyshare (d : Tlsdriver) (msg : Bytes) (beyond : ℕ → UInt8) : Option Bytes32 :=
  if d.isServer then parseClientHelloKeyshare msg beyond
  else (parseServerHello msg).map ServerHello.serverPub

def installHandshakeKeys (d : Tlsdriver) : Tlsdriver :=
  match d.ks.get .clientHs with
  | none => { d with hsReady := true }
  | some k => { d with keys := d.keys.install .handshake k, hsReady := true }

/-- `derive_handshake`: the shared secret is written before it is checked. -/
def deriveHandshake (d : Tlsdriver) (msg : Bytes) (beyond : ℕ → UInt8) : Bool × Tlsdriver :=
  match d.peerKeyshare msg beyond with
  | none => (false, d)
  | some peerPub =>
    let d := { d with shared := P.x25519 d.myPriv peerPub }
    if d.shared = Vector.replicate 32 0 then (false, d)
    else
      match d.ks.advanceHandshake d.shared.toList msg with
      | none => (false, d)
      | some ks => (true, installHandshakeKeys { d with ks := ks })

/-- `reassemble`: the newly contiguous bytes, if there are any and they fit 512. -/
def reassemble (d : Tlsdriver) (frames : Bytes) : Option Bytes × Tlsdriver :=
  let fed := d.rx.feedAll frames
  if !fed.1 then (none, { d with rx := fed.2 })
  else
    let out := fed.2.read 512
    (out.1.filter fun msg => msg.length ≠ 0, { d with rx := out.2 })

def recvCrypto (d : Tlsdriver) (frames : Bytes) (beyond : ℕ → UInt8) : Bool × Tlsdriver :=
  match d.reassemble frames with
  | (none, d) => (false, d)
  | (some msg, d) => deriveHandshake P d msg beyond

end Tlsdriver

/-! ## The full handshake -/

/-- `QUIC_FULLHS_TRANSCRIPT_MAX`. -/
def fullhsTranscriptMax : ℕ := 8192

/-- `quic_fullhs`, with the driver it borrows. The transcript buffer is the list of the bytes
written to it. -/
structure Fullhs (Store : Type) where
  tls : Tlsdriver
  tr : Bytes
  /-- Transcript length through the server Finished. -/
  masterTrLen : ℕ
  isServer : Bool
  hsTrafficPeer : Digest
  hsTrafficSelf : Digest
  /-- The end-entity certificate, in the transcript. -/
  peerCert : View
  policyNow : ℕ
  policyHost : Bytes
  /-- Every certificate of the chain, in the transcript. -/
  certs : List View
  castore : Option Store

namespace Fullhs

variable {Store : Type} (P : ClientPrimitives Store)

/-- `tr_add`: a message that does not fit is refused. -/
def trAdd (h : Fullhs Store) (msg : Bytes) : Bool × Fullhs Store :=
  if msg.length > fullhsTranscriptMax - h.tr.length then (false, h)
  else (true, { h with tr := h.tr ++ msg })

def trHash (h : Fullhs Store) : Digest := sha256 h.tr

def hsTraffic (hs : Digest) (sh : Bytes) (isServer : Bool) : Digest :=
  deriveSecret hs (if isServer then "s hs traffic" else "c hs traffic") sh

/-- `prime_order`: the messages exchanged before this layer takes over. -/
def primeOrder (s : Hsdriver) : Hsdriver :=
  let s := (s.recv .clientHello .initial).2
  let s := (s.recv .serverHello .initial).2
  (s.recv .encryptedExt .handshake).2

/-- `quic_fullhs_init`; a transcript that does not fit is dropped. -/
def init (tls : Tlsdriver) (transcriptSh : Bytes) : Option (Fullhs Store) :=
  if !tls.hsReady then none
  else
    let hs := handshakeSecret tls.shared
    let h : Fullhs Store := {
      tls := tls
      tr := []
      masterTrLen := 0
      isServer := tls.isServer
      hsTrafficPeer := hsTraffic hs transcriptSh (!tls.isServer)
      hsTrafficSelf := hsTraffic hs transcriptSh tls.isServer
      peerCert := ⟨0, 0⟩
      policyNow := 0
      policyHost := []
      certs := []
      castore := none }
    let h := (h.trAdd transcriptSh).2
    some { h with tls := { tls with hs := primeOrder tls.hs } }

def setPolicy (h : Fullhs Store) (now : ℕ) (host : Bytes) : Fullhs Store :=
  { h with policyNow := now, policyHost := host }

def setCastore (h : Fullhs Store) (store : Option Store) : Fullhs Store :=
  { h with castore := store }

/-- The order machine takes one message (`order_ok` when the level is Handshake). -/
def order (h : Fullhs Store) (msg : HsdMsg) (level : Level) : Bool × Fullhs Store :=
  let (ok, hs) := h.tls.hs.recv msg level
  (ok, { h with tls := { h.tls with hs := hs } })

/-- `fold_finished`: the first Finished fixes where the application secrets are derived. -/
def foldFinished (h : Fullhs Store) (fin : Bytes) : Bool × Fullhs Store :=
  match h.trAdd fin with
  | (false, h) => (false, h)
  | (true, h) => (true, if h.masterTrLen = 0 then { h with masterTrLen := h.tr.length } else h)

/-- `fullhs_policy_ok`: without a policy nothing is parsed. -/
def policyOk (h : Fullhs Store) (cert : Bytes) : Bool :=
  if h.policyNow = 0 ∧ h.policyHost.length = 0 then true
  else
    match x509Parse cert with
    | none => false
    | some x =>
      (h.policyNow == 0 || P.validityOk x.tbs h.policyNow) &&
        (h.policyHost.length == 0 || P.sanMatches x.tbs h.policyHost)

def chainOk (h : Fullhs Store) (certs : List Bytes) : Bool :=
  match h.castore with
  | none => true
  | some store => P.validateChain store certs

/-- `fullhs_chain_accept`: the certificates of the message when there is one, its leaf passes the
policy and the chain reaches the store. The views are into the body. -/
def chainAccept (h : Fullhs Store) (certMsg : Bytes) : Option (List View) := do
  let body := certMsg.drop 4
  let views ← certChain body
  match views with
  | [] => none
  | leaf :: _ =>
    if policyOk P h (leaf.of body) && chainOk P h (views.map fun v => v.of body) then some views
    else none

/-- `fullhs_cert_record`: the views move into the transcript, where the message starts at `base`. -/
def certRecord (h : Fullhs Store) (base : ℕ) (views : List View) : Fullhs Store :=
  let certs := views.map fun v => { v with off := base + (4 + v.off) }
  { h with certs := certs, peerCert := certs.headD ⟨0, 0⟩ }

def certTake (h : Fullhs Store) (certMsg : Bytes) : Bool × Fullhs Store :=
  match chainAccept P h certMsg with
  | none => (false, h)
  | some views =>
    let base := h.tr.length
    match h.trAdd certMsg with
    | (false, h) => (false, h)
    | (true, h) => (true, h.certRecord base views)

/-- `quic_fullhs_recv_cert`: the order machine moves on even if the message is then rejected. -/
def recvCert (h : Fullhs Store) (certMsg : Bytes) : Bool × Fullhs Store :=
  match h.order .certificate .handshake with
  | (false, h) => (false, h)
  | (true, h) => certTake P h certMsg

/-- `cv_verify`: the signature, under the recorded certificate, of the transcript so far. The
scheme is the caller's, not the one of the message. -/
def cvVerify (h : Fullhs Store) (cvMsg : Bytes) (scheme : ℕ) : Bool :=
  match certverifyParse (cvMsg.drop 4) with
  | none => false
  | some (_, sig) => verifyCertSignature P scheme (h.peerCert.of h.tr) sig h.trHash

def recvCertverify (h : Fullhs Store) (cvMsg : Bytes) (scheme : ℕ) : Bool × Fullhs Store :=
  if !cvVerify P h cvMsg scheme then (false, h)
  else
    match h.order .certVerify .handshake with
    | (false, h) => (false, h)
    | (true, h) =>
      let hs := { h.tls.hs with certVerified := true }
      { h with tls := { h.tls with hs := hs } }.trAdd cvMsg

/-- `fin_verifies`; the type byte is not looked at. -/
def finVerifies (h : Fullhs Store) (finMsg : Bytes) : Bool :=
  if finMsg.length ≠ 4 + 32 then false
  else finishedCheck h.hsTrafficPeer h.trHash (Bytes.fit 32 (finMsg.drop 4))

def recvFinished (h : Fullhs Store) (finMsg : Bytes) : Bool × Fullhs Store :=
  if !h.finVerifies finMsg then (false, h)
  else
    match h.order .finished .handshake with
    | (false, h) => (false, h)
    | (true, h) => h.foldFinished finMsg

/-- `quic_fullhs_send_finished`: our own Finished. -/
def sendFinished (h : Fullhs Store) (cap : ℕ) : Option Bytes × Fullhs Store :=
  if cap < 4 + 32 then (none, h)
  else
    let fin := hsMessage hsFinished (finishedVerifyData h.hsTrafficSelf h.trHash).toList
    match h.foldFinished fin with
    | (false, h) => (none, h)
    | (true, h) => (some fin, h)

def installApp (h : Fullhs Store) : Fullhs Store :=
  match h.tls.ks.get (if h.isServer then .serverAp else .clientAp) with
  | none => h
  | some k => { h with tls := { h.tls with keys := h.tls.keys.install .onertt k } }

/-- `quic_fullhs_advance_application`; the verdict of the schedule is not looked at. -/
def advanceApplication (h : Fullhs Store) : Bool × Fullhs Store :=
  if !h.tls.hs.complete then (false, h)
  else
    let ks := (h.tls.ks.advanceMaster (h.tr.take h.masterTrLen)).getD h.tls.ks
    (true, installApp { h with tls := { h.tls with ks := ks } })

/-- `quic_fullhs_confirmed`: HANDSHAKE_DONE discards the Handshake keys. -/
def confirmed (h : Fullhs Store) : Bool × Fullhs Store :=
  match h.order .handshakeDone .onertt with
  | (false, h) => (false, h)
  | (true, h) =>
    if h.tls.hs.confirmed then
      (true, { h with tls := { h.tls with keys := h.tls.keys.discard .handshake } })
    else (true, h)

end Fullhs

/-! ## The client -/

/-- `QUIC_CLIENT_HS_*`. -/
inductive ClientPhase
  | initial
  | auth
  | confirmed
  deriving DecidableEq, Repr

/-- `quic_client`. The driver that `hs` borrows is `tls`. -/
structure Client (Store : Type) where
  tls : Tlsdriver
  hs : Fullhs Store
  phase : ClientPhase
  /-- `sh_transcript`, the bytes written to it. -/
  shTranscript : Bytes
  host : Bytes
  now : ℕ
  castore : Option Store

namespace Client

variable {Store : Type} (P : ClientPrimitives Store)

/-- `quic_client_init`, over a structure with arbitrary contents, once the clock has been read and
the key pair generated. -/
def init (c : Client Store) (now : ℕ) (myPriv myPub : Bytes32) (host : Bytes) : Client Store where
  tls := c.tls.init myPriv myPub false
  hs := c.hs
  phase := .initial
  shTranscript := []
  host := host
  now := now
  castore := none

/-- `feed_initial`. What is saved as the transcript (`save_sh`) is the payload, frame headers
included. -/
def feedInitial (c : Client Store) (payload : Bytes) (beyond : ℕ → UInt8) : Bool × Client Store :=
  match c.tls.recvCrypto P payload beyond with
  | (false, tls) => (false, { c with tls := tls })
  | (true, tls) =>
    let c := { c with tls := tls, shTranscript := payload.take 512 }
    match (Fullhs.init tls c.shTranscript : Option (Fullhs Store)) with
    | none => (false, c)
    | some hs =>
      (true, { c with
        tls := hs.tls
        hs := (hs.setPolicy c.now c.host).setCastore c.castore
        phase := .auth })

/-- `feed_auth_msg`: the entry point by the type byte; the scheme of a CertificateVerify is read
from its body (`cv_scheme`). -/
def feedAuthMsg (h : Fullhs Store) (msg : Bytes) (beyond : ℕ → UInt8) : Bool × Fullhs Store :=
  let m := inMemory msg beyond
  if m 0 = hsCertificate then h.recvCert P msg
  else if m 0 = hsCertificateVerify then h.recvCertverify P msg (be16At m 4)
  else if m 0 = hsFinished then h.recvFinished msg
  else (false, h)

def doConfirm (h : Fullhs Store) : Bool × Fullhs Store :=
  match h.advanceApplication with
  | (false, h) => (false, h)
  | (true, h) => h.confirmed

/-- `client_feed_auth`: the message, and once the flight is complete the confirmation
(`feed_confirm`). -/
def feedAuth (c : Client Store) (msg : Bytes) (beyond : ℕ → UInt8) : Bool × Client Store :=
  match feedAuthMsg P { c.hs with tls := c.tls } msg beyond with
  | (false, h) => (false, { c with tls := h.tls, hs := h })
  | (true, h) =>
    if !h.tls.hs.complete then (true, { c with tls := h.tls, hs := h })
    else
      match doConfirm h with
      | (false, h) => (false, { c with tls := h.tls, hs := h })
      | (true, h) => (true, { c with tls := h.tls, hs := h, phase := .confirmed })

def feed (c : Client Store) (payload : Bytes) (beyond : ℕ → UInt8) : Bool × Client Store :=
  match c.phase with
  | .initial => feedInitial P c payload beyond
  | .auth => feedAuth P c payload beyond
  | .confirmed => (false, c)

end Client

end Tls

end QuicVibe
