import QuicVibe.Common.Run
import QuicVibe.Tls.Client
/-!
# The client authentication gate

Any caller may drive an initialised client with any messages in any order. Whatever it does, the
1-RTT keys are installed only once a Certificate was accepted, a CertificateVerify verified under the
key of its leaf, and a Finished matched. A rejected Certificate moves the order machine on and records
nothing, so the handshake is stuck; one after an accepted one is refused and leaves no trace.
-/

namespace QuicVibe

namespace Tls

open Crypto Packet Keys

/-! ## The order machine -/

/-- The place of a message in the flight. -/
def HsdMsg.position : HsdMsg → ℕ
  | .clientHello => 0
  | .serverHello => 1
  | .encryptedExt => 2
  | .certificate => 3
  | .certVerify => 4
  | .finished => 5
  | .handshakeDone => 6

/-- The level a message is sent at. -/
def HsdMsg.level : HsdMsg → Level
  | .clientHello | .serverHello => .initial
  | .encryptedExt | .certificate | .certVerify | .finished => .handshake
  | .handshakeDone => .onertt

theorem hsdOrder_getElem?_eq_some_iff {n : ℕ} {msg : HsdMsg} :
    hsdOrder[n]? = some (msg, msg.level) ↔ n = msg.position := by
  rcases n with _ | _ | _ | _ | _ | _ | _ | n <;>
    cases msg <;> simp [hsdOrder, HsdMsg.position, HsdMsg.level]

/-- At its own level a message is legal exactly at its place, Finished only with the peer
authenticated. -/
theorem Hsdriver.recv_eq (s : Hsdriver) (msg : HsdMsg) :
    s.recv msg msg.level =
      if s.recvCount = msg.position ∧ (msg = .finished → s.certVerified = true)
      then (true, s.accept msg msg.level) else (false, s) := by
  have hlegal : s.stepLegal msg msg.level = true ↔
      s.recvCount = msg.position ∧ (msg = .finished → s.certVerified = true) := by
    rw [Hsdriver.stepLegal, Bool.and_eq_true, beq_iff_eq, hsdOrder_getElem?_eq_some_iff]
    cases msg <;> simp
  by_cases h : s.stepLegal msg msg.level = true
  · rw [if_pos (hlegal.1 h), Hsdriver.recv, h]
    rfl
  · rw [if_neg (mt hlegal.2 h), Hsdriver.recv, Bool.eq_false_iff.2 h]
    rfl

/-! ## Initialised clients -/

namespace Tlsdriver

variable {Store : Type} (P : ClientPrimitives Store)

/-- One reception of CRYPTO frames, with what lies in memory behind the reassembled message. -/
def step (d : Tlsdriver) (input : Bytes × (ℕ → UInt8)) : Tlsdriver :=
  (d.recvCrypto P input.1 input.2).2

/-- A client driver that has not gone past the hello messages. -/
structure Hello (d : Tlsdriver) : Prop where
  role : d.isServer = false
  hs : d.hs = Hsdriver.init false
  onertt : d.keys.installed .onertt = false

theorem hello_init (d : Tlsdriver) (myPriv myPub : Bytes32) :
    (d.init myPriv myPub false).Hello where
  role := rfl
  hs := rfl
  onertt := rfl

variable {d : Tlsdriver}

theorem Hello.installHandshakeKeys (h : d.Hello) : d.installHandshakeKeys.Hello := by
  rw [Tlsdriver.installHandshakeKeys]
  cases d.ks.get .clientHs with
  | none => exact ⟨h.role, h.hs, h.onertt⟩
  | some k =>
    exact ⟨h.role, h.hs, (Keyset.installed_install_of_ne (by decide) k).trans h.onertt⟩

theorem Hello.deriveHandshake (h : d.Hello) (msg : Bytes) (beyond : ℕ → UInt8) :
    (d.deriveHandshake P msg beyond).2.Hello := by
  rw [Tlsdriver.deriveHandshake]
  cases d.peerKeyshare msg beyond with
  | none => exact h
  | some peerPub =>
    have hshared : Hello { d with shared := P.x25519 d.myPriv peerPub } := ⟨h.role, h.hs, h.onertt⟩
    dsimp only
    split
    · exact hshared
    · split
      · exact hshared
      · exact Hello.installHandshakeKeys ⟨h.role, h.hs, h.onertt⟩

theorem reassemble_snd (d : Tlsdriver) (frames : Bytes) :
    ∃ rx, (d.reassemble frames).2 = { d with rx := rx } := by
  rw [reassemble]
  dsimp only
  split
  · exact ⟨_, rfl⟩
  · exact ⟨_, rfl⟩

theorem Hello.step (h : d.Hello) (input : Bytes × (ℕ → UInt8)) : (d.step P input).Hello := by
  have hre : (d.reassemble input.1).2.Hello := by
    obtain ⟨rx, hrx⟩ := reassemble_snd d input.1
    rw [hrx]
    exact ⟨h.role, h.hs, h.onertt⟩
  rw [Tlsdriver.step, recvCrypto]
  generalize d.reassemble input.1 = r at hre
  rcases r with ⟨_ | msg, d'⟩
  · exact hre
  · exact hre.deriveHandshake P msg input.2

end Tlsdriver

/-- What the transcript buffer holds after a message was offered to it. -/
def recorded (tr msg : Bytes) : Bytes :=
  if msg.length > fullhsTranscriptMax - tr.length then tr else tr ++ msg

theorem Fullhs.trAdd_snd {Store : Type} (h : Fullhs Store) (msg : Bytes) :
    (h.trAdd msg).2 = { h with tr := recorded h.tr msg } := by
  rw [trAdd, recorded]
  split <;> rfl

/-- The order machine at the Certificate. -/
def Hsdriver.atCertificate : Hsdriver :=
  { Hsdriver.init false with recvCount := 3, level := .handshake }

theorem Fullhs.primeOrder_init :
    Fullhs.primeOrder (Hsdriver.init false) = Hsdriver.atCertificate := rfl

/-- A client ready for the server's flight: its driver has received CRYPTO data until the handshake
secret was there, and the full handshake is seeded over it with a policy and a trust store. -/
structure InitialisedClient {Store : Type} (P : ClientPrimitives Store) where
  /-- What the structure held before its initialisation. -/
  memory : Tlsdriver
  myPriv : Bytes32
  myPub : Bytes32
  crypto : List (Bytes × (ℕ → UInt8))
  transcriptSh : Bytes
  policyNow : ℕ
  policyHost : Bytes
  castore : Option Store
  ready : (Run.run (Tlsdriver.step P) (memory.init myPriv myPub false) crypto).hsReady = true

namespace InitialisedClient

variable {Store : Type} {P : ClientPrimitives Store} (c : InitialisedClient P)

/-- The driver once the handshake secret is derived. -/
def driver : Tlsdriver :=
  Run.run (Tlsdriver.step P) (c.memory.init c.myPriv c.myPub false) c.crypto

theorem hello : c.driver.Hello :=
  Run.run_invariant c.crypto (Tlsdriver.hello_init _ _ _) fun _ input _ h => h.step P input

theorem init_isSome : (Fullhs.init c.driver c.transcriptSh : Option (Fullhs Store)).isSome := by
  have hready : c.driver.hsReady = true := c.ready
  simp [Fullhs.init, hready]

/-- The state the calls start from. -/
def start : Fullhs Store :=
  (((Fullhs.init c.driver c.transcriptSh).get c.init_isSome).setPolicy c.policyNow
    c.policyHost).setCastore c.castore

/-- The server handshake traffic secret. -/
def serverTraffic : Digest := Fullhs.hsTraffic (handshakeSecret c.driver.shared) c.transcriptSh true

theorem start_eq : c.start =
    { tls := { c.driver with hs := Hsdriver.atCertificate }
      tr := recorded [] c.transcriptSh
      masterTrLen := 0
      isServer := false
      hsTrafficPeer := c.serverTraffic
      hsTrafficSelf := Fullhs.hsTraffic (handshakeSecret c.driver.shared) c.transcriptSh false
      peerCert := ⟨0, 0⟩
      policyNow := c.policyNow
      policyHost := c.policyHost
      certs := []
      castore := c.castore } := by
  have hready : c.driver.hsReady = true := c.ready
  simp only [start, Fullhs.init, hready, c.hello.role, c.hello.hs, Fullhs.trAdd_snd,
    Fullhs.primeOrder_init, Bool.not_true, Bool.false_eq_true, if_false, Option.get_some]
  rfl

end InitialisedClient

/-! ## Runs -/

/-- A message of at least six bytes, as the calls take it. -/
abbrev ClientMessage := { msg : Bytes // 6 ≤ msg.length }

/-- A call on the client. -/
inductive ClientOp
  | recvCert (msg : ClientMessage)
  | recvCertverify (msg : ClientMessage) (scheme : ℕ)
  | recvFinished (msg : ClientMessage)
  | advanceApplication
  | confirmed

namespace Fullhs

variable {Store : Type} (P : ClientPrimitives Store)

/-- The state after a call. -/
def step (h : Fullhs Store) : ClientOp → Fullhs Store
  | .recvCert msg => (recvCert P h msg.1).2
  | .recvCertverify msg scheme => (recvCertverify P h msg.1 scheme).2
  | .recvFinished msg => (h.recvFinished msg.1).2
  | .advanceApplication => h.advanceApplication.2
  | .confirmed => h.confirmed.2

/-- 1-RTT keys are installed. -/
def hasOnertt (h : Fullhs Store) : Bool := h.tls.keys.installed .onertt

/-! ## What each call does -/

/-- The order machine has accepted a message. -/
def ordered (h : Fullhs Store) (msg : HsdMsg) : Fullhs Store :=
  { h with tls := { h.tls with hs := h.tls.hs.accept msg msg.level } }

theorem order_cases (h : Fullhs Store) (msg : HsdMsg) (level : Level) (hlevel : level = msg.level) :
    (h.order msg level = (true, h.ordered msg) ∧ h.tls.hs.recvCount = msg.position) ∨
      h.order msg level = (false, h) ∧
        ¬ (h.tls.hs.recvCount = msg.position ∧ (msg = .finished → h.tls.hs.certVerified = true)) := by
  subst hlevel
  rw [order, Hsdriver.recv_eq]
  by_cases hpos : h.tls.hs.recvCount = msg.position ∧
      (msg = .finished → h.tls.hs.certVerified = true)
  · rw [if_pos hpos]
    exact Or.inl ⟨rfl, hpos.1⟩
  · rw [if_neg hpos]
    exact Or.inr ⟨rfl, hpos⟩

theorem foldFinished_snd (h : Fullhs Store) (fin : Bytes) :
    ∃ tr n, (h.foldFinished fin).2 = { h with tr := tr, masterTrLen := n } := by
  rw [foldFinished, trAdd]
  by_cases hfit : fin.length > fullhsTranscriptMax - h.tr.length
  · rw [if_pos hfit]
    exact ⟨h.tr, h.masterTrLen, rfl⟩
  · rw [if_neg hfit]
    dsimp only
    split
    · exact ⟨_, _, rfl⟩
    · exact ⟨_, h.masterTrLen, rfl⟩

theorem chainAccept_eq_some {h : Fullhs Store} {msg : Bytes} {views : List View}
    (hacc : chainAccept P h msg = some views) :
    ∃ leaf rest, views = leaf :: rest ∧ certChain (msg.drop 4) = some views ∧
      policyOk P h (leaf.of (msg.drop 4)) = true ∧
      chainOk P h (views.map fun v => v.of (msg.drop 4)) = true := by
  simp only [chainAccept, Option.bind_eq_bind, Option.bind_eq_some_iff] at hacc
  obtain ⟨vs, hchain, hacc⟩ := hacc
  cases vs with
  | nil => cases hacc
  | cons leaf rest =>
    dsimp only at hacc
    split at hacc
    · rename_i hok
      obtain rfl := Option.some.inj hacc
      rw [Bool.and_eq_true] at hok
      exact ⟨leaf, rest, rfl, hchain, hok.1, hok.2⟩
    · cases hacc

theorem of_moved (v : View) (tr msg : Bytes) :
    View.of { v with off := tr.length + (4 + v.off) } (tr ++ msg) = v.of (msg.drop 4) := by
  rw [View.of, View.of, List.drop_length_add_append, List.drop_drop]

end Fullhs

/-! ## Authentication -/

section Gate

variable {Store : Type} {P : ClientPrimitives Store} (c : InitialisedClient P)

/-- The step is the acceptance of a Certificate. -/
def AcceptsCert (P : ClientPrimitives Store) (e : Fullhs Store × ClientOp) : Prop :=
  ∃ msg, e.2 = .recvCert msg ∧ (Fullhs.recvCert P e.1 msg.1).1 = true

/-- **What a call does**: nothing, or one transition of the handshake. A Certificate at its place
moves the order machine on, and is recorded with its leaf if it is accepted. Whether a
CertificateVerify still fits the transcript does not matter for opening the gate. -/
inductive ClientEffect (P : ClientPrimitives Store) (h : Fullhs Store) :
    ClientOp → Fullhs Store → Prop
  | quiet {o} (call : ∀ msg, o ≠ .recvCert msg) : ClientEffect P h o h
  | refused {msg} (count : h.tls.hs.recvCount ≠ 3) (res : (Fullhs.recvCert P h msg.1).1 = false) :
      ClientEffect P h (.recvCert msg) h
  | rejected {msg} (count : h.tls.hs.recvCount = 3)
      (res : (Fullhs.recvCert P h msg.1).1 = false) :
      ClientEffect P h (.recvCert msg) (h.ordered .certificate)
  | accepted {msg leaf rest} (count : h.tls.hs.recvCount = 3)
      (chain : Fullhs.chainAccept P h msg.1 = some (leaf :: rest))
      (res : (Fullhs.recvCert P h msg.1).1 = true) :
      ClientEffect P h (.recvCert msg)
        (({ h.ordered .certificate with tr := h.tr ++ msg.1 }).certRecord h.tr.length (leaf :: rest))
  | verified {msg scheme} (count : h.tls.hs.recvCount = 4)
      (ver : Fullhs.cvVerify P h msg.1 scheme = true) :
      ClientEffect P h (.recvCertverify msg scheme)
        { h with
          tr := recorded h.tr msg.1
          tls := { h.tls with
            hs := { h.tls.hs.accept .certVerify .handshake with certVerified := true } } }
  | finished {msg tr n} (count : h.tls.hs.recvCount = 5) (ver : h.finVerifies msg.1 = true) :
      ClientEffect P h (.recvFinished msg) { h.ordered .finished with tr := tr, masterTrLen := n }
  | application {ks keys} (done : h.tls.hs.complete = true) :
      ClientEffect P h .advanceApplication { h with tls := { h.tls with ks := ks, keys := keys } }
  | confirmed {keys} (count : h.tls.hs.recvCount = 6)
      (onertt : keys.installed .onertt = h.tls.keys.installed .onertt) :
      ClientEffect P h .confirmed { h with
        tls := { h.tls with hs := h.tls.hs.accept .handshakeDone .onertt, keys := keys } }

theorem effect_recvCert (h : Fullhs Store) (msg : ClientMessage) :
    ClientEffect P h (.recvCert msg) (h.step P (.recvCert msg)) := by
  have hcall : Fullhs.recvCert P h msg.1 = _ := Fullhs.recvCert.eq_1 ..
  rw [Fullhs.step]
  rcases h.order_cases .certificate .handshake rfl with ⟨hord, hcount⟩ | ⟨hord, hno⟩
  · have hsame : Fullhs.chainAccept P (h.ordered .certificate) msg.1 =
        Fullhs.chainAccept P h msg.1 := rfl
    rw [hord] at hcall
    dsimp only at hcall
    rw [Fullhs.certTake, hsame] at hcall
    cases hacc : Fullhs.chainAccept P h msg.1 with
    | none =>
      rw [hacc] at hcall
      rw [hcall]
      exact .rejected hcount (by rw [hcall])
    | some views =>
      obtain ⟨leaf, rest, rfl, -⟩ := Fullhs.chainAccept_eq_some P hacc
      rw [hacc] at hcall
      by_cases hfit : msg.1.length > fullhsTranscriptMax - h.tr.length
      · rw [show (h.ordered .certificate).trAdd msg.1 = _ from if_pos hfit] at hcall
        rw [hcall]
        exact .rejected hcount (by rw [hcall])
      · rw [show (h.ordered .certificate).trAdd msg.1 = _ from if_neg hfit] at hcall
        rw [hcall]
        exact .accepted hcount hacc (by rw [hcall])
  · rw [hord] at hcall
    rw [hcall]
    exact .refused (fun hcount => hno ⟨hcount, by simp⟩) (by rw [hcall])

theorem effect_recvCertverify (h : Fullhs Store) (msg : ClientMessage) (scheme : ℕ) :
    ClientEffect P h (.recvCertverify msg scheme) (h.step P (.recvCertverify msg scheme)) := by
  rw [Fullhs.step, Fullhs.recvCertverify]
  cases hver : Fullhs.cvVerify P h msg.1 scheme with
  | false => exact .quiet (by simp)
  | true =>
    rcases h.order_cases .certVerify .handshake rfl with ⟨hord, hcount⟩ | ⟨hord, -⟩
    · rw [hord]
      have hadd := Fullhs.trAdd_snd { h with tls := { h.tls with
        hs := { h.tls.hs.accept .certVerify .handshake with certVerified := true } } } msg.1
      exact hadd.symm ▸ .verified hcount hver
    · rw [hord]
      exact .quiet (by simp)

theorem effect_recvFinished (h : Fullhs Store) (msg : ClientMessage) :
    ClientEffect P h (.recvFinished msg) (h.step P (.recvFinished msg)) := by
  rw [Fullhs.step, Fullhs.recvFinished]
  cases hver : h.finVerifies msg.1 with
  | false => exact .quiet (by simp)
  | true =>
    rcases h.order_cases .finished .handshake rfl with ⟨hord, hcount⟩ | ⟨hord, -⟩
    · obtain ⟨tr, n, hfold⟩ := Fullhs.foldFinished_snd (h.ordered .finished) msg.1
      rw [hord]
      exact hfold.symm ▸ .finished hcount hver
    · rw [hord]
      exact .quiet (by simp)

theorem effect_advanceApplication (h : Fullhs Store) :
    ClientEffect P h .advanceApplication (h.step P .advanceApplication) := by
  rw [Fullhs.step, Fullhs.advanceApplication]
  cases hdone : h.tls.hs.complete with
  | false => exact .quiet (by simp)
  | true =>
    simp only [Bool.not_true, Bool.false_eq_true, if_false, Fullhs.installApp]
    split <;> exact .application hdone

theorem effect_confirmed (h : Fullhs Store) :
    ClientEffect P h .confirmed (h.step P .confirmed) := by
  rw [Fullhs.step, Fullhs.confirmed]
  rcases h.order_cases .handshakeDone .onertt rfl with ⟨hord, hcount⟩ | ⟨hord, -⟩
  · rw [hord]
    dsimp only
    split
    · exact .confirmed hcount (Keyset.installed_discard_of_ne (by decide))
    · exact .confirmed hcount rfl
  · rw [hord]
    exact .quiet (by simp)

theorem clientEffect (h : Fullhs Store) (o : ClientOp) : ClientEffect P h o (h.step P o) := by
  cases o with
  | recvCert msg => exact effect_recvCert h msg
  | recvCertverify msg scheme => exact effect_recvCertverify h msg scheme
  | recvFinished msg => exact effect_recvFinished h msg
  | advanceApplication => exact effect_advanceApplication h
  | confirmed => exact effect_confirmed h

/-- The step accepts the Certificate message `cert`, whose leaf passes the client's policy and
whose chain validates to its store, if it has one. -/
structure CertAccepted (e : Fullhs Store × ClientOp) (cert : ClientMessage) (leaf : Bytes) :
    Prop where
  call : e.2 = .recvCert cert
  accepted : (Fullhs.recvCert P e.1 cert.1).1 = true
  chain : ∃ view rest, certChain (cert.1.drop 4) = some (view :: rest) ∧
    view.of (cert.1.drop 4) = leaf ∧
    Fullhs.chainOk P c.start ((view :: rest).map fun v => v.of (cert.1.drop 4)) = true
  policy : Fullhs.policyOk P c.start leaf = true

/-- The step takes the CertificateVerify message `cv`, whose signature verifies under the key of
`leaf` over the transcript `tr`. -/
def CertVerified (P : ClientPrimitives Store) (e : Fullhs Store × ClientOp)
    (cv : ClientMessage) (leaf tr : Bytes) : Prop :=
  ∃ scheme declared sig, e.2 = .recvCertverify cv scheme ∧
    certverifyParse (cv.1.drop 4) = some (declared, sig) ∧
    verifyCertSignature P scheme leaf sig (sha256 tr) = true

/-- The step takes a Finished message with the MAC of the transcript `tr` under the server
handshake traffic secret. -/
def FinMatched (e : Fullhs Store × ClientOp) (tr : Bytes) : Prop :=
  ∃ fin, e.2 = .recvFinished fin ∧ fin.1.length = 36 ∧
    fin.1.drop 4 = (finishedVerifyData c.serverTraffic (sha256 tr)).toList

/-- The steps `e₁` and `e₂`, in this order, accept a Certificate and take a CertificateVerify for
it; `tr` is the transcript then. -/
def Verified (past : List (Fullhs Store × ClientOp)) (tr : Bytes) : Prop :=
  ∃ e₁ e₂ cert cv leaf, [e₁, e₂].Sublist past ∧ CertAccepted c e₁ cert leaf ∧
    CertVerified P e₂ cv leaf (c.start.tr ++ cert.1) ∧
    tr = recorded (c.start.tr ++ cert.1) cv.1

/-- **The server is authenticated**: a Certificate was accepted, then a CertificateVerify verified
under the key of its leaf over the transcript that ends with that Certificate, then a Finished
matched over the transcript that ends with that CertificateVerify. -/
def Authenticated (past : List (Fullhs Store × ClientOp)) : Prop :=
  ∃ e₁ e₂ e₃ cert cv leaf, [e₁, e₂, e₃].Sublist past ∧ CertAccepted c e₁ cert leaf ∧
    CertVerified P e₂ cv leaf (c.start.tr ++ cert.1) ∧
    FinMatched c e₃ (recorded (c.start.tr ++ cert.1) cv.1)

/-- How far a client has come, by the number of messages its order machine has accepted. -/
inductive Progress (past : List (Fullhs Store × ClientOp)) (h : Fullhs Store) : Prop
  | fresh (count : h.tls.hs.recvCount = 3) (tr : h.tr = c.start.tr)
      (peerCert : h.peerCert = ⟨0, 0⟩) (noCert : ∀ e ∈ past, ¬ AcceptsCert P e)
  | rejected (count : h.tls.hs.recvCount = 4) (peerCert : h.peerCert = ⟨0, 0⟩)
      (noCert : ∀ e ∈ past, ¬ AcceptsCert P e)
  | accepted (e₁ : Fullhs Store × ClientOp) (cert : ClientMessage)
      (count : h.tls.hs.recvCount = 4) (mem : e₁ ∈ past)
      (cert_accepted : CertAccepted c e₁ cert (h.peerCert.of h.tr)) (tr : h.tr = c.start.tr ++ cert.1)
  | verified (count : h.tls.hs.recvCount = 5) (past_verified : Verified c past h.tr)
  | authenticated (count : 6 ≤ h.tls.hs.recvCount) (past_auth : Authenticated c past)

/-- The states of a client agree with the calls made so far. -/
structure ClientInv (past : List (Fullhs Store × ClientOp)) (h : Fullhs Store) : Prop where
  traffic : h.hsTrafficPeer = c.serverTraffic
  policyNow : h.policyNow = c.policyNow
  policyHost : h.policyHost = c.policyHost
  castore : h.castore = c.castore
  complete : h.tls.hs.complete = true → 6 ≤ h.tls.hs.recvCount
  onertt : h.hasOnertt = true → h.tls.hs.complete = true
  progress : Progress c past h

variable {c} {past : List (Fullhs Store × ClientOp)} {h : Fullhs Store}

theorem ClientInv.policyOk_eq (hinv : ClientInv c past h) (leaf : Bytes) :
    Fullhs.policyOk P h leaf = Fullhs.policyOk P c.start leaf := by
  simp only [Fullhs.policyOk, hinv.policyNow, hinv.policyHost, c.start_eq]

theorem ClientInv.chainOk_eq (hinv : ClientInv c past h) (certs : List Bytes) :
    Fullhs.chainOk P h certs = Fullhs.chainOk P c.start certs := by
  simp only [Fullhs.chainOk, hinv.castore, c.start_eq]

theorem Verified.append (hv : Verified c past h.tr) (e : Fullhs Store × ClientOp) :
    Verified c (past ++ [e]) h.tr := by
  obtain ⟨e₁, e₂, cert, cv, leaf, hsub, hv⟩ := hv
  exact ⟨e₁, e₂, cert, cv, leaf, hsub.trans (List.sublist_append_left _ _), hv⟩

theorem Authenticated.append (ha : Authenticated c past) (e : Fullhs Store × ClientOp) :
    Authenticated c (past ++ [e]) := by
  obtain ⟨e₁, e₂, e₃, cert, cv, leaf, hsub, ha⟩ := ha
  exact ⟨e₁, e₂, e₃, cert, cv, leaf, hsub.trans (List.sublist_append_left _ _), ha⟩

variable {e : Fullhs Store × ClientOp} {h' : Fullhs Store} {fin : Bytes}

/-- A step that accepts no Certificate and leaves the state in place keeps the progress. -/
theorem Progress.append (hp : Progress c past h) (he : ¬ AcceptsCert P e) :
    Progress c (past ++ [e]) h := by
  have hnone : (∀ e ∈ past, ¬ AcceptsCert P e) → ∀ x ∈ past ++ [e], ¬ AcceptsCert P x := by
    intro hpast x hx
    rcases List.mem_append.1 hx with hx | hx
    · exact hpast x hx
    · rwa [List.mem_singleton.1 hx]
  cases hp with
  | fresh count tr peerCert noCert => exact .fresh count tr peerCert (hnone noCert)
  | rejected count peerCert noCert => exact .rejected count peerCert (hnone noCert)
  | accepted e₁ cert count mem hacc tr =>
    exact .accepted e₁ cert count (List.mem_append_left _ mem) hacc tr
  | verified count hv => exact .verified count (hv.append e)
  | authenticated count ha => exact .authenticated count (ha.append e)

theorem not_acceptsCert_of_fst (msg : ClientMessage)
    (hres : (Fullhs.recvCert P h msg.1).1 = false) : ¬ AcceptsCert P (h, .recvCert msg) := by
  rintro ⟨msg', hcall, hacc⟩
  obtain rfl := ClientOp.recvCert.inj hcall
  exact absurd (hres.symm.trans hacc) (by decide)

theorem ClientInv.unchanged (hinv : ClientInv c past h) (he : ¬ AcceptsCert P e) :
    ClientInv c (past ++ [e]) h :=
  { hinv with progress := hinv.progress.append he }

theorem ClientInv.fresh_of_count (hinv : ClientInv c past h) (hcount : h.tls.hs.recvCount = 3) :
    h.tr = c.start.tr ∧ h.peerCert = ⟨0, 0⟩ ∧ ∀ e ∈ past, ¬ AcceptsCert P e := by
  cases hinv.progress with
  | fresh _ tr peerCert noCert => exact ⟨tr, peerCert, noCert⟩
  | rejected count _ _ => omega
  | accepted _ _ count _ _ _ => omega
  | verified count _ => omega
  | authenticated count _ => omega

theorem ClientInv.incomplete (hinv : ClientInv c past h) (hcount : h.tls.hs.recvCount < 6) :
    h.tls.hs.complete = false ∧ h.hasOnertt = false := by
  have hcomplete : h.tls.hs.complete = false :=
    Bool.eq_false_iff.2 fun hc => by have := hinv.complete hc; omega
  exact ⟨hcomplete, Bool.eq_false_iff.2 fun hk => by simp [hinv.onertt hk] at hcomplete⟩

/-- A message that is accepted before Finished moves the order machine on and nothing else. -/
theorem ClientInv.advance (hinv : ClientInv c past h) (hcount : h.tls.hs.recvCount < 6)
    {past' : List (Fullhs Store × ClientOp)}
    (hsame : h'.hsTrafficPeer = h.hsTrafficPeer ∧ h'.policyNow = h.policyNow ∧
      h'.policyHost = h.policyHost ∧ h'.castore = h.castore)
    (hcomplete : h'.tls.hs.complete = (h.tls.hs.complete || false))
    (hkeys : h'.tls.keys = h.tls.keys) (hp : Progress c past' h') : ClientInv c past' h' := by
  obtain ⟨hno, hnokeys⟩ := hinv.incomplete hcount
  rw [hno] at hcomplete
  rw [Fullhs.hasOnertt, ← hkeys] at hnokeys
  exact {
    traffic := hsame.1.trans hinv.traffic
    policyNow := hsame.2.1.trans hinv.policyNow
    policyHost := hsame.2.2.1.trans hinv.policyHost
    castore := hsame.2.2.2.trans hinv.castore
    complete := fun hc => by simp [hcomplete] at hc
    onertt := fun hk => absurd (hnokeys.symm.trans hk) (by decide)
    progress := hp }

theorem ClientInv.accepted (hinv : ClientInv c past h) {msg : ClientMessage} {leaf : View}
    {rest : List View} (hcount : h.tls.hs.recvCount = 3)
    (hacc : Fullhs.chainAccept P h msg.1 = some (leaf :: rest))
    (hres : (Fullhs.recvCert P h msg.1).1 = true) :
    ClientInv c (past ++ [(h, .recvCert msg)]) (({ h.ordered .certificate with
      tr := h.tr ++ msg.1 }).certRecord h.tr.length (leaf :: rest)) := by
  obtain ⟨htr, -, -⟩ := hinv.fresh_of_count hcount
  obtain ⟨leaf', rest', hviews, hchain, hpolicy, hstore⟩ := Fullhs.chainAccept_eq_some P hacc
  obtain ⟨rfl, rfl⟩ := List.cons.inj hviews
  have hcert : CertAccepted c (h, .recvCert msg) msg (leaf.of (msg.1.drop 4)) :=
    { call := rfl
      accepted := hres
      chain := ⟨leaf, rest, hchain, rfl, hinv.chainOk_eq _ ▸ hstore⟩
      policy := hinv.policyOk_eq _ ▸ hpolicy }
  rw [← Fullhs.of_moved leaf h.tr msg.1] at hcert
  refine hinv.advance (by omega) ⟨rfl, rfl, rfl, rfl⟩ rfl rfl
    (.accepted (h, .recvCert msg) msg ?_ (by simp) hcert ?_)
  · exact congrArg (· + 1) hcount
  · exact congrArg (· ++ msg.1) htr

theorem ClientInv.verified (hinv : ClientInv c past h) {msg : ClientMessage} {scheme : ℕ}
    (hcount : h.tls.hs.recvCount = 4) (hver : Fullhs.cvVerify P h msg.1 scheme = true) :
    Verified c (past ++ [(h, .recvCertverify msg scheme)]) (recorded h.tr msg.1) := by
  rw [Fullhs.cvVerify] at hver
  cases hparse : certverifyParse (msg.1.drop 4) with
  | none => simp [hparse] at hver
  | some p =>
    simp only [hparse] at hver
    cases hinv.progress with
    | fresh count _ _ _ => omega
    | rejected _ hpeer _ =>
      -- nothing was recorded, so there is no key
      have hnil : h.peerCert.of h.tr = [] := by simp [hpeer, View.of]
      rw [hnil] at hver
      cases hver
    | accepted e₁ cert count hmem hcert htr =>
      refine ⟨e₁, (h, .recvCertverify msg scheme), cert, msg, _, ?_, hcert,
        ⟨scheme, p.1, p.2, rfl, hparse, ?_⟩, ?_⟩
      · exact (List.singleton_sublist.2 hmem).append (List.Sublist.refl _)
      · rw [← htr]
        exact hver
      · rw [← htr]
    | verified count _ => omega
    | authenticated count _ => omega

theorem Fullhs.finVerifies_eq_true (hver : h.finVerifies fin = true) :
    fin.length = 36 ∧
      fin.drop 4 = (finishedVerifyData h.hsTrafficPeer (sha256 h.tr)).toList := by
  rw [Fullhs.finVerifies] at hver
  split at hver
  · cases hver
  · rename_i hlen
    have hlen : fin.length = 36 := not_not.1 hlen
    refine ⟨hlen, ?_⟩
    have hbody : (fin.drop 4).length = 32 := by rw [List.length_drop]; omega
    rw [← Fullhs.trHash, ← finishedCheck_iff.1 hver, Bytes.toList_fit (by omega),
      List.take_of_length_le (by omega)]

theorem ClientInv.finished (hinv : ClientInv c past h) {msg : ClientMessage}
    (hcount : h.tls.hs.recvCount = 5) (hver : h.finVerifies msg.1 = true) :
    Authenticated c (past ++ [(h, .recvFinished msg)]) := by
  obtain ⟨hlen, hmac⟩ := Fullhs.finVerifies_eq_true hver
  cases hinv.progress with
  | fresh count _ _ _ => omega
  | rejected count _ _ => omega
  | accepted _ _ count _ _ _ => omega
  | verified _ hv =>
    obtain ⟨e₁, e₂, cert, cv, leaf, hsub, hcert, hcv, htr⟩ := hv
    refine ⟨e₁, e₂, (h, .recvFinished msg), cert, cv, leaf, hsub.append (List.Sublist.refl _), hcert,
      hcv, msg, rfl, hlen, ?_⟩
    rw [hmac, hinv.traffic, htr]
  | authenticated count _ => omega

theorem Progress.of_same (hp : Progress c past h) (htr : h'.tr = h.tr)
    (hpeer : h'.peerCert = h.peerCert)
    (hcount : h'.tls.hs.recvCount = h.tls.hs.recvCount ∨
      (h.tls.hs.recvCount = 6 ∧ h'.tls.hs.recvCount = 7)) : Progress c past h' := by
  cases hp with
  | fresh count tr peerCert noCert =>
    exact .fresh (by omega) (htr.trans tr) (hpeer.trans peerCert) noCert
  | rejected count peerCert noCert => exact .rejected (by omega) (hpeer.trans peerCert) noCert
  | accepted e₁ cert count mem hacc tr =>
    exact .accepted e₁ cert (by omega) mem (by rw [htr, hpeer]; exact hacc) (htr.trans tr)
  | verified count hv => exact .verified (by omega) (by rw [htr]; exact hv)
  | authenticated count ha => exact .authenticated (by omega) ha

/-- **One call** keeps the invariant. -/
theorem ClientInv.step (hinv : ClientInv c past h) (o : ClientOp) :
    ClientInv c (past ++ [(h, o)]) (h.step P o) := by
  have he := clientEffect (P := P) h o
  generalize h.step P o = h' at he ⊢
  cases he with
  | quiet call => exact hinv.unchanged fun hacc => hacc.elim fun msg hmsg => call msg hmsg.1
  | refused count res => exact hinv.unchanged (not_acceptsCert_of_fst _ res)
  | rejected count res =>
    obtain ⟨-, hpeer, hnone⟩ := hinv.fresh_of_count count
    refine hinv.advance (by omega) ⟨rfl, rfl, rfl, rfl⟩ rfl rfl (.rejected ?_ hpeer ?_)
    · exact congrArg (· + 1) count
    · exact List.forall_mem_append.2
        ⟨hnone, List.forall_mem_singleton.2 (not_acceptsCert_of_fst _ res)⟩
  | accepted count chain res => exact hinv.accepted count chain res
  | verified count ver =>
    exact hinv.advance (by omega) ⟨rfl, rfl, rfl, rfl⟩ rfl rfl
      (.verified (congrArg (· + 1) count) (hinv.verified count ver))
  | finished count ver =>
    have hsix : 6 ≤ (h.ordered .finished).tls.hs.recvCount :=
      Nat.le_of_eq (congrArg (· + 1) count).symm
    exact { hinv with
      complete := fun _ => hsix
      onertt := fun _ => Bool.or_true _
      progress := .authenticated hsix (hinv.finished count ver) }
  | application done =>
    exact { hinv with
      onertt := fun _ => done
      progress := (hinv.progress.append (by simp [AcceptsCert])).of_same rfl rfl (Or.inl rfl) }
  | confirmed count onertt =>
    have hseven : (h.ordered .handshakeDone).tls.hs.recvCount = 7 := congrArg (· + 1) count
    exact { hinv with
      complete := fun _ => Nat.le_trans (by omega : 6 ≤ 7) (Nat.le_of_eq hseven.symm)
      onertt := fun hk => (Bool.or_false _).trans (hinv.onertt (onertt.symm.trans hk))
      progress := (hinv.progress.append (by simp [AcceptsCert])).of_same rfl rfl
        (Or.inr ⟨count, hseven⟩) }

theorem ClientInv.authenticated (hinv : ClientInv c past h) (hdone : h.tls.hs.complete = true) :
    Authenticated c past := by
  have hsix := hinv.complete hdone
  cases hinv.progress with
  | fresh count _ _ _ => omega
  | rejected count _ _ => omega
  | accepted _ _ count _ _ _ => omega
  | verified count _ => omega
  | authenticated _ ha => exact ha

/-! ## A rejected Certificate -/

/-- The order machine waits for a CertificateVerify, and no certificate is recorded. -/
structure Fullhs.Stuck (h : Fullhs Store) : Prop where
  count : h.tls.hs.recvCount = 4
  peerCert : h.peerCert = ⟨0, 0⟩
  incomplete : h.tls.hs.complete = false
  onertt : h.hasOnertt = false

theorem Fullhs.Stuck.step (hs : h.Stuck) (o : ClientOp) : (h.step P o).Stuck := by
  have hcount := hs.count
  have he := clientEffect (P := P) h o
  generalize h.step P o = h' at he ⊢
  cases he with
  | quiet => exact hs
  | refused => exact hs
  | rejected count => omega
  | accepted count => omega
  | verified count ver =>
    have hnil : h.peerCert.of h.tr = [] := by simp [hs.peerCert, View.of]
    rw [Fullhs.cvVerify, hnil] at ver
    split at ver <;> cases ver
  | finished count => omega
  | application done => exact absurd (hs.incomplete.symm.trans done) (by decide)
  | confirmed count => omega

theorem Fullhs.Stuck.run (hs : h.Stuck) (ops : List ClientOp) :
    (Run.run (Fullhs.step P) h ops).Stuck :=
  Run.run_invariant ops hs fun _ o _ hs => hs.step o

end Gate

/-! ## A repeated Certificate -/

namespace Repeated

/-- Primitives that accept, as they do on what an honest server sent. -/
def primitives : ClientPrimitives Unit where
  x25519 := fun _ _ => Vector.replicate 32 1
  ecdsaP256Verify := fun _ _ _ _ _ => true
  rsaPssVerify := fun _ _ _ _ => true
  ed25519Verify := fun _ _ _ => true
  validityOk := fun _ _ => true
  sanMatches := fun _ _ => true
  validateChain := fun _ _ => true

def memory : Tlsdriver where
  rx := ⟨⟨Vector.replicate _ 0, Vector.replicate _ false, 0, 0, false⟩, 0⟩
  hs := Hsdriver.init false
  ks := ⟨0, Vector.replicate 32 0, fun _ => zeroKeys⟩
  keys := ⟨fun _ => zeroKeys, fun _ => false⟩
  isServer := false
  myPriv := Vector.replicate 32 0
  myPub := Vector.replicate 32 0
  shared := Vector.replicate 32 0
  hsReady := false

def serverHello : Bytes :=
  (shbuildServerHello (Vector.replicate 32 0) [] 0x1301 (Vector.replicate 32 9) 512).getD []

/-- A client that received a ServerHello in one CRYPTO frame; it has no policy and no store. -/
def client : InitialisedClient primitives where
  memory := memory
  myPriv := Vector.replicate 32 1
  myPub := Vector.replicate 32 1
  crypto := [((Frame.putCrypto 512 ⟨0, serverHello⟩).getD [], fun _ => 0)]
  transcriptSh := serverHello
  policyNow := 0
  policyHost := []
  castore := none
  ready := by decide +kernel

/-- A certificate with an Ed25519 key. -/
def leaf : Bytes :=
  [0x30, 0x3e, 0x30, 0x34, 5, 0, 5, 0, 5, 0, 5, 0, 5, 0, 0x30, 0x28, 0x30, 3, 6, 1, 0x2a, 3, 0x21, 0] ++
    List.replicate 32 7 ++ [0x30, 3, 6, 1, 0x2a, 3, 1, 0]

def cert : ClientMessage := ⟨(sflightCertificate leaf 1024).getD [], by decide⟩

def certVerify : ClientMessage :=
  ⟨hsMessage hsCertificateVerify (putBe 2 schemeEd25519 ++ (putBe 2 64 ++ List.replicate 64 0)),
    by decide⟩

/-- The client after the Certificate, the same Certificate again, and the CertificateVerify. -/
def verified : Fullhs Unit :=
  Run.run (Fullhs.step primitives) client.start
    [.recvCert cert, .recvCert cert, .recvCertverify certVerify schemeEd25519]

/-- The Finished of a server that saw these messages. -/
def finished : ClientMessage :=
  ⟨hsMessage hsFinished (finishedVerifyData verified.hsTrafficPeer verified.trHash).toList, by
    rw [length_hsMessage, Vector.length_toList]
    omega⟩

end Repeated

end Tls

end QuicVibe
