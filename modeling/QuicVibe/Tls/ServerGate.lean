import QuicVibe.Tls.Server
/-!
# The server handshake gate

Any caller may drive a `quic_server` with any calls in any order. Whatever it does, the phase moves
forward one at a time, and the server is confirmed by one call only: a `feed` whose message is a
Finished that carries the HMAC of the recorded transcript under the client handshake traffic secret.
-/

namespace QuicVibe

namespace Tls

open Crypto Packet Keys
open QuicVibe.Frame

/-! ## Runs -/

/-- A call on the server. What lies in memory behind a ClientHello is part of the call. -/
inductive ServerOp
  | setCids (odcid iscid : Bytes)
  | recvInitial (ch : Bytes) (beyond : ℕ → UInt8)
  | buildFlight (random : Bytes32) (shCap flightCap : ℕ)
  | feed (payload : Bytes)
  | handshakeDone (cap : ℕ)

/-- The position of a phase in the handshake. -/
def Phase.rank : Phase → ℕ
  | .initial => 0
  | .chRecvd => 1
  | .flightSent => 2
  | .confirmed => 3

/-- The stage the key schedule has reached in a phase. -/
def Phase.stage : Phase → ℕ
  | .initial | .chRecvd => 0
  | .flightSent => 1
  | .confirmed => 2

namespace Server

variable (P : ServerPrimitives)

/-- The state after a call. -/
def step (s : Server) : ServerOp → Server
  | .setCids odcid iscid => (s.setCids odcid iscid).2
  | .recvInitial ch beyond => (s.recvInitial ch beyond).2
  | .buildFlight random shCap flightCap => (s.buildFlight P random shCap flightCap).2
  | .feed payload => (s.feed payload).2
  | .handshakeDone cap => (s.handshakeDone cap).2

@[simp] theorem setCids_snd (s : Server) (odcid iscid : Bytes) :
    (s.setCids odcid iscid).2 = { s with sdrv := (s.sdrv.setCids odcid iscid).2 } := rfl

theorem setCids_frame (s : Sdrv) (odcid iscid : Bytes) :
    ∃ o i, (s.setCids odcid iscid).2 = { s with odcid := o, iscid := i } := by
  simp only [Sdrv.setCids]
  split
  · exact ⟨_, _, rfl⟩
  · split
    · exact ⟨_, _, rfl⟩
    · exact ⟨_, _, rfl⟩

theorem recvClientHello_frame (s : Sdrv) (ch : Bytes) (beyond : ℕ → UInt8) :
    ∃ pub sid tr, (s.recvClientHello ch beyond).2 =
      { s with clientPub := pub, clientSid := sid, tr := tr } := by
  simp only [Sdrv.recvClientHello]
  split
  · exact ⟨_, _, _, rfl⟩
  · split
    · exact ⟨_, _, _, rfl⟩
    · exact ⟨_, _, _, rfl⟩

variable {ch flight : Bytes} {o : ServerOp} {past' : List (Server × ServerOp)}

theorem recvClientHello_clientPub {s sdrv : Sdrv} {beyond : ℕ → UInt8}
    (h : s.recvClientHello ch beyond = (true, sdrv)) :
    takeClientKeyshare ch beyond = some sdrv.clientPub := by
  simp only [Sdrv.recvClientHello] at h
  split at h
  · cases h
  · rename_i pub hpub
    split at h
    · cases h
    · obtain rfl := (Prod.mk.inj h).2
      exact hpub

/-- **A ClientHello** moves the phase on and is recorded, or changes the driver only. -/
theorem recvInitial_cases (s : Server) (ch : Bytes) (beyond : ℕ → UInt8) :
    (∃ sdrv, sdrv.serverPriv = s.sdrv.serverPriv ∧ sdrv.iscid = s.sdrv.iscid ∧
      (s.phase = .initial ∨ sdrv = s.sdrv) ∧
      s.recvInitial ch beyond = (false, { s with sdrv := sdrv })) ∨
    (∃ sdrv, sdrv.serverPriv = s.sdrv.serverPriv ∧ sdrv.iscid = s.sdrv.iscid ∧
      s.phase = .initial ∧ takeClientKeyshare ch beyond = some sdrv.clientPub ∧
      s.recvInitial ch beyond =
        (true, { trAdd { s with sdrv := sdrv } ch with phase := .chRecvd })) := by
  by_cases hphase : s.phase = .initial
  · obtain ⟨pub, sid, tr, hframe⟩ := recvClientHello_frame s.sdrv ch beyond
    have hpriv := congrArg Sdrv.serverPriv hframe
    have hiscid := congrArg Sdrv.iscid hframe
    rw [recvInitial, if_neg (not_not.2 hphase)]
    split
    · rename_i sdrv hch
      rw [hch] at hpriv hiscid
      exact Or.inl ⟨sdrv, hpriv, hiscid, Or.inl hphase, rfl⟩
    · rename_i sdrv hch
      rw [hch] at hpriv hiscid
      exact Or.inr ⟨sdrv, hpriv, hiscid, hphase, recvClientHello_clientPub hch, rfl⟩
  · exact Or.inl ⟨s.sdrv, rfl, rfl, Or.inr rfl, by simp [recvInitial, hphase]⟩

theorem recvInitial_crecv (s : Server) (ch : Bytes) (beyond : ℕ → UInt8) :
    (s.recvInitial ch beyond).2.crecv = s.crecv := by
  rcases s.recvInitial_cases ch beyond with ⟨sdrv, -, -, -, h⟩ | ⟨sdrv, -, -, -, -, h⟩
  · rw [h]
  · rw [h]
    rfl

theorem emitHsFlight_frame (cap : ℕ) (builds : List (Sdrv → Option Bytes)) (s : Sdrv)
    (flight : Bytes) : ∃ tr, (Sdrv.emitHsFlight cap builds s flight).2 = { s with tr := tr } := by
  induction builds generalizing s flight with
  | nil => exact ⟨_, rfl⟩
  | cons build builds ih =>
    simp only [Sdrv.emitHsFlight]
    split
    · exact ⟨_, rfl⟩
    · split
      · exact ⟨_, rfl⟩
      · obtain ⟨tr, htr⟩ := ih (s.transcriptAdd _) (flight ++ _)
        exact ⟨tr, htr.trans rfl⟩

theorem emitHsFlight_cons {cap : ℕ} {build : Sdrv → Option Bytes}
    {builds : List (Sdrv → Option Bytes)} {s : Sdrv} (msg : Bytes) (hbuild : build s = some msg)
    (hroom : msg.length ≤ cap - flight.length) :
    Sdrv.emitHsFlight cap (build :: builds) s flight =
      Sdrv.emitHsFlight cap builds (s.transcriptAdd msg) (flight ++ msg) := by
  rw [Sdrv.emitHsFlight, hbuild]
  exact if_neg (by omega)
/-- Building the flight keeps the keys and the connection ids the driver was given; when it succeeds
the handshake secret is that of their shared secret. -/
theorem buildServerFlight_spec (s : Sdrv) (random : Bytes32) (shCap hsCap : ℕ) :
    (s.buildServerFlight P random shCap hsCap).2.serverPriv = s.serverPriv ∧
    (s.buildServerFlight P random shCap hsCap).2.clientPub = s.clientPub ∧
    (s.buildServerFlight P random shCap hsCap).2.odcid = s.odcid ∧
    (s.buildServerFlight P random shCap hsCap).2.iscid = s.iscid ∧
    ∀ out, (s.buildServerFlight P random shCap hsCap).1 = some out →
      ∃ ecdhe, P.shared s.serverPriv s.clientPub = some ecdhe ∧
        (s.buildServerFlight P random shCap hsCap).2.handshakeSecretView =
          some (handshakeSecret ecdhe) := by
  simp only [Sdrv.buildServerFlight, Sdrv.buildServerHello, Sdrv.deriveSecret, Sdrv.transcriptAdd]
  cases hsh : shbuildServerHello random s.clientSid 0x1301 s.serverPub shCap with
  | none => simp
  | some sh =>
    cases hshared : P.shared s.serverPriv s.clientPub with
    | none => simp
    | some ecdhe =>
      dsimp only
      obtain ⟨tr, htr⟩ := emitHsFlight_frame hsCap (Sdrv.flightMessages P) _ []
      rw [htr]
      exact ⟨rfl, rfl, rfl, rfl, fun _ _ => ⟨ecdhe, rfl, rfl⟩⟩

theorem installHsKeys_eq (s : Server) (ecdhe : Bytes32) (hstage : s.sched.stage = 0)
    (hshared : P.shared s.serverPriv s.sdrv.clientPub = some ecdhe) :
    ∃ sched, sched.stage = 1 ∧ installHsKeys P s =
      (true, { s with sched := sched, keys := s.keys.install .handshake (sched.keys .serverHs) }) := by
  have hlen : ecdhe.toList.length = 32 := by simp
  simp only [installHsKeys, hshared, Keysched.advanceHandshake, hstage, hlen, and_self, if_true,
    Keysched.get, Keysched.available]
  exact ⟨_, rfl, rfl⟩

theorem buildFlight_eq {s : Server} (hphase : s.phase = .chRecvd) (random : Bytes32)
    (shCap flightCap : ℕ) :
    s.buildFlight P random shCap flightCap =
      match s.sdrv.buildServerFlight P random shCap flightCap with
      | (none, sdrv) => (none, { s with sdrv := sdrv })
      | (some (sh, flight), sdrv) =>
        let r := installHsKeys P (recordFlight { s with sdrv := sdrv } sh flight)
        if r.1 then (some (sh, flight), { r.2 with phase := .flightSent }) else (none, r.2) := by
  rw [buildFlight, if_neg (not_not.2 hphase)]
  generalize s.sdrv.buildServerFlight P random shCap flightCap = r
  rcases r with ⟨_ | ⟨sh, flight⟩, sdrv⟩
  · rfl
  · simp only [afterFlight]
    generalize installHsKeys P (recordFlight { s with sdrv := sdrv } sh flight) = r
    rcases r with ⟨_ | _, s'⟩ <;> rfl

variable {random : Bytes32} {shCap flightCap : ℕ} {sh : Bytes}

theorem buildFlight_of_none {s : Server} (hphase : s.phase = .chRecvd)
    (hbuild : (s.sdrv.buildServerFlight P random shCap flightCap).1 = none) :
    s.buildFlight P random shCap flightCap =
      (none, { s with sdrv := (s.sdrv.buildServerFlight P random shCap flightCap).2 }) := by
  rw [buildFlight_eq P hphase]
  generalize s.sdrv.buildServerFlight P random shCap flightCap = r at hbuild ⊢
  obtain ⟨out, sdrv⟩ := r
  obtain rfl : out = none := hbuild
  rfl

/-- **The flight goes out** when the driver can build it: it is recorded, the Handshake keys are
derived and the phase moves on. -/
theorem buildFlight_of_some {s : Server} (hpriv : s.sdrv.serverPriv = s.serverPriv)
    (hphase : s.phase = .chRecvd) (hstage : s.sched.stage = 0)
    (hbuild : (s.sdrv.buildServerFlight P random shCap flightCap).1 = some (sh, flight)) :
    ∃ ecdhe sched, P.shared s.serverPriv s.sdrv.clientPub = some ecdhe ∧
      (s.sdrv.buildServerFlight P random shCap flightCap).2.handshakeSecretView =
        some (handshakeSecret ecdhe) ∧ sched.stage = 1 ∧
      s.buildFlight P random shCap flightCap =
        (some (sh, flight), { recordFlight
            { s with sdrv := (s.sdrv.buildServerFlight P random shCap flightCap).2 } sh flight with
          sched := sched
          keys := s.keys.install .handshake (sched.keys .serverHs)
          phase := .flightSent }) := by
  obtain ⟨-, hc, -, -, hsome⟩ := buildServerFlight_spec P s.sdrv random shCap flightCap
  obtain ⟨ecdhe, hshared, hsecret⟩ := hsome _ hbuild
  rw [buildFlight_eq P hphase]
  generalize s.sdrv.buildServerFlight P random shCap flightCap = r at hbuild hc hsecret ⊢
  rcases r with ⟨out, sdrv⟩
  obtain rfl : out = some (sh, flight) := hbuild
  rw [hpriv] at hshared
  obtain ⟨sched, hone, hinstall⟩ := installHsKeys_eq P
    (recordFlight { s with sdrv := sdrv } sh flight) ecdhe hstage
    (by rw [← hshared]; exact congrArg _ hc)
  refine ⟨ecdhe, sched, hshared, hsecret, hone, ?_⟩
  simp only [hinstall]
  rfl

/-- A message is rejected without a trace, or it is the client's Finished and the server is
confirmed. -/
theorem onFinished_cases (s : Server) (msg : Bytes) :
    s.onFinished msg = (false, s) ∨
    (∃ hs sched, s.phase = .flightSent ∧ s.sdrv.handshakeSecretView = some hs ∧
      verifyClientFinished msg (s.clientHsTraffic hs) s.transcriptHash = true ∧ sched.stage = 2 ∧
      s.onFinished msg = (true, { s with
        sched := sched
        keys := s.keys.install .onertt (sched.keys .serverAp)
        finConfirmed := true
        phase := .confirmed })) := by
  by_cases hphase : s.phase = .flightSent
  · by_cases hver : s.verifyFinished msg = true
    · by_cases hstage : s.sched.stage = 1
      · have hview : ∃ hs, s.sdrv.handshakeSecretView = some hs ∧
            verifyClientFinished msg (s.clientHsTraffic hs) s.transcriptHash = true := by
          rw [verifyFinished] at hver
          split at hver
          · cases hver
          · exact ⟨_, by assumption, hver⟩
        obtain ⟨hs, hsecret, hfin⟩ := hview
        rw [onFinished, if_neg (not_not.2 hphase), hver, if_neg (by simp)]
        simp only [srvfinComplete, Keysched.advanceMaster, hstage, ne_eq, not_true_eq_false,
          if_false, Keysched.get, Keysched.available]
        exact Or.inr ⟨hs, _, hphase, hsecret, hfin, rfl, rfl⟩
      · exact Or.inl (by
          simp [onFinished, hphase, hver, srvfinComplete, Keysched.advanceMaster, hstage])
    · exact Or.inl (by simp [onFinished, hver])
  · exact Or.inl (by rw [onFinished, if_pos hphase])

/-- **A feed** either changes the reassembly buffer only, or its message is the client's Finished
and the server is confirmed. -/
theorem feed_cases (s : Server) (payload : Bytes) :
    s.feed payload = (false, { s with crecv := (s.crecv.collect payload).2 }) ∨
    (∃ hs sched, s.phase = .flightSent ∧ s.sdrv.handshakeSecretView = some hs ∧
      verifyClientFinished (s.crecv.collect payload).2.message (s.clientHsTraffic hs)
        s.transcriptHash = true ∧ sched.stage = 2 ∧
      s.feed payload = (true, { s with
        crecv := (s.crecv.collect payload).2
        sched := sched
        keys := s.keys.install .onertt (sched.keys .serverAp)
        finConfirmed := true
        phase := .confirmed })) := by
  rw [feed]
  cases s.crecv.collect payload with
  | mk ok crecv =>
    cases ok with
    | false => exact Or.inl rfl
    | true =>
      by_cases hmsg : crecv.completeMessage = true
      · simp only [hmsg, Bool.not_true, Bool.false_eq_true, if_false]
        exact onFinished_cases { s with crecv := crecv } crecv.message
      · exact Or.inl (by simp [hmsg])

/-- **HANDSHAKE_DONE** sets its flag only. -/
theorem handshakeDone_cases (s : Server) (cap : ℕ) :
    s.handshakeDone cap = (none, s) ∨ (s.finConfirmed = true ∧ s.hsDoneSent = false ∧
      s.handshakeDone cap = (some [0x1e], { s with hsDoneSent := true })) := by
  by_cases h : s.finConfirmed = true ∧ s.hsDoneSent = false
  · by_cases hcap : cap = 0
    · exact Or.inl (by simp [handshakeDone, hcap])
    · exact Or.inr ⟨h.1, h.2, by simp [handshakeDone, h.1, h.2, hcap]⟩
  · have hno : (s.finConfirmed && !s.hsDoneSent) = false := by simpa using h
    exact Or.inl (by simp [handshakeDone, hno])

/-- **What a call can do** to a server: make the move of its phase, or leave alone everything but
the driver, the reassembly buffer and the HANDSHAKE_DONE flag. -/
inductive Effect (s : Server) : ServerOp → Server → Prop
  | quiet {o : ServerOp} (sdrv : Sdrv) (crecv : Crecv) (done : Bool)
      (hpriv : sdrv.serverPriv = s.sdrv.serverPriv)
      (hiscid : s.sdrv.iscid.length ≤ maxCidLen → sdrv.iscid.length ≤ maxCidLen)
      (hpub : s.phase = .initial ∨ sdrv.clientPub = s.sdrv.clientPub)
      (hview : s.phase.rank ≤ 1 ∨ sdrv.handshakeSecretView = s.sdrv.handshakeSecretView)
      (hdone : s.hsDoneSent = true → done = true) :
      Effect s o { s with sdrv := sdrv, crecv := crecv, hsDoneSent := done }
  | hello (ch : Bytes) (beyond : ℕ → UInt8) (sdrv : Sdrv) (hphase : s.phase = .initial)
      (hpriv : sdrv.serverPriv = s.sdrv.serverPriv) (hiscid : sdrv.iscid = s.sdrv.iscid)
      (hpub : takeClientKeyshare ch beyond = some sdrv.clientPub)
      (hok : (s.recvInitial ch beyond).1 = true) :
      Effect s (.recvInitial ch beyond)
        { trAdd { s with sdrv := sdrv } ch with phase := .chRecvd }
  | flight (random : Bytes32) (shCap flightCap : ℕ) (sh flight : Bytes) (sdrv : Sdrv)
      (ecdhe : Bytes32) (sched : Keysched) (hphase : s.phase = .chRecvd)
      (hpriv : sdrv.serverPriv = s.sdrv.serverPriv) (hiscid : sdrv.iscid = s.sdrv.iscid)
      (hshared : P.shared s.serverPriv s.sdrv.clientPub = some ecdhe)
      (hsecret : sdrv.handshakeSecretView = some (handshakeSecret ecdhe)) (hstage : sched.stage = 1)
      (hok : (s.buildFlight P random shCap flightCap).1 = some (sh, flight)) :
      Effect s (.buildFlight random shCap flightCap)
        { recordFlight { s with sdrv := sdrv } sh flight with
          sched := sched
          keys := s.keys.install .handshake (sched.keys .serverHs)
          phase := .flightSent }
  | finished (payload : Bytes) (hs : Digest) (sched : Keysched) (hphase : s.phase = .flightSent)
      (hsecret : s.sdrv.handshakeSecretView = some hs)
      (hver : verifyClientFinished (s.crecv.collect payload).2.message (s.clientHsTraffic hs)
        s.transcriptHash = true) (hstage : sched.stage = 2) (hok : (s.feed payload).1 = true) :
      Effect s (.feed payload) { s with
        crecv := (s.crecv.collect payload).2
        sched := sched
        keys := s.keys.install .onertt (sched.keys .serverAp)
        finConfirmed := true
        phase := .confirmed }

theorem Effect.keep (s : Server) (crecv : Crecv) {done : Bool}
    (hdone : s.hsDoneSent = true → done = true) :
    Effect P s o { s with crecv := crecv, hsDoneSent := done } :=
  .quiet s.sdrv crecv done rfl id (Or.inr rfl) (Or.inr rfl) hdone

theorem effect_setCids (s : Server) (odcid iscid : Bytes) :
    Effect P s (.setCids odcid iscid) (step P s (.setCids odcid iscid)) := by
  have hiscid : s.sdrv.iscid.length ≤ maxCidLen →
      (s.sdrv.setCids odcid iscid).2.iscid.length ≤ maxCidLen := by
    intro h
    have hcid : maxCidLen = 20 := rfl
    simp only [Sdrv.setCids]
    split_ifs with hodcid hiscid
    · exact h
    · exact h
    · dsimp only
      omega
  obtain ⟨o, i, hset⟩ := setCids_frame s.sdrv odcid iscid
  rw [hset] at hiscid
  rw [step, setCids_snd, hset]
  exact .quiet _ s.crecv s.hsDoneSent rfl hiscid (Or.inr rfl) (Or.inr rfl) id

theorem effect_recvInitial (s : Server) (ch : Bytes) (beyond : ℕ → UInt8) :
    Effect P s (.recvInitial ch beyond) (step P s (.recvInitial ch beyond)) := by
  rcases recvInitial_cases s ch beyond with ⟨sdrv, hpriv, hiscid, hsame, hres⟩ |
    ⟨sdrv, hpriv, hiscid, hphase, hpub, hres⟩
  · rw [step, hres]
    rcases hsame with hphase | rfl
    · exact .quiet sdrv s.crecv s.hsDoneSent hpriv (fun h => by rwa [hiscid]) (Or.inl hphase)
        (Or.inl (by rw [hphase]; exact Nat.zero_le 1)) id
    · exact .keep P s s.crecv id
  · rw [step, hres]
    exact .hello ch beyond sdrv hphase hpriv hiscid hpub (by rw [hres])

theorem effect_buildFlight {s : Server} (hpriv : s.sdrv.serverPriv = s.serverPriv)
    (hstage : s.phase = .chRecvd → s.sched.stage = 0) (random : Bytes32) (shCap flightCap : ℕ) :
    Effect P s (.buildFlight random shCap flightCap)
      (step P s (.buildFlight random shCap flightCap)) := by
  by_cases hphase : s.phase = .chRecvd
  · obtain ⟨hp, hc, -, hi, -⟩ := buildServerFlight_spec P s.sdrv random shCap flightCap
    cases hbuild : (s.sdrv.buildServerFlight P random shCap flightCap).1 with
    | none =>
      rw [step, buildFlight_of_none P hphase hbuild]
      exact .quiet _ s.crecv s.hsDoneSent hp (fun h => by rwa [hi]) (Or.inr hc)
        (Or.inl (by rw [hphase]; exact Nat.le_refl 1)) id
    | some out =>
      obtain ⟨ecdhe, sched, hshared, hsecret, hone, hflight⟩ :=
        buildFlight_of_some P hpriv hphase (hstage hphase) hbuild
      rw [step, hflight]
      exact .flight random shCap flightCap out.1 out.2 _ ecdhe sched hphase hp hi hshared hsecret
        hone (by rw [hflight])
  · rw [step, buildFlight, if_pos hphase]
    exact .keep P s s.crecv id

/-- **Every call** of a server whose driver holds its key has one of the effects. -/
theorem effect_step {s : Server} (hpriv : s.sdrv.serverPriv = s.serverPriv)
    (hstage : s.phase = .chRecvd → s.sched.stage = 0) (o : ServerOp) :
    Effect P s o (step P s o) := by
  cases o with
  | setCids odcid iscid => exact effect_setCids P s odcid iscid
  | recvInitial ch beyond => exact effect_recvInitial P s ch beyond
  | buildFlight random shCap flightCap =>
    exact effect_buildFlight P hpriv hstage random shCap flightCap
  | feed payload =>
    rcases feed_cases s payload with hres | ⟨hs, sched, hphase, hsecret, hver, htwo, hres⟩
    · rw [step, hres]
      exact .keep P s _ id
    · rw [step, hres]
      exact .finished payload hs sched hphase hsecret hver htwo (by rw [hres])
  | handshakeDone cap =>
    rcases handshakeDone_cases s cap with hres | ⟨-, -, hres⟩
    · rw [step, hres]
      exact .keep P s s.crecv id
    · rw [step, hres]
      exact .keep P s s.crecv fun _ => rfl

/-- The Finished message the server expects. -/
def expectedFinished (s : Server) (hs : Digest) : Bytes :=
  hsMessage hsFinished (finishedVerifyData (s.clientHsTraffic hs) s.transcriptHash).toList

/-- **The gate opens.** A server that has sent its flight and has received nothing since accepts the
Finished it expects, in one CRYPTO frame. -/
theorem feed_expectedFinished {s : Server} {hs : Digest} (hphase : s.phase = .flightSent)
    (hstage : s.sched.stage = 1) (hsecret : s.sdrv.handshakeSecretView = some hs)
    (hfresh : s.crecv = s.crecv.init) :
    (s.feed (cryptoBytes { offset := 0, data := s.expectedFinished hs })).1 = true := by
  have hbuf : crecvBuf = 2048 := rfl
  have hlen : (s.expectedFinished hs).length = 36 := by simp [expectedFinished]
  obtain ⟨crecv, hcollect, hto, hdata⟩ := s.crecv.collect_cryptoBytes (s.expectedFinished hs)
    (by omega)
  have hmsg : crecv.message = s.expectedFinished hs := by
    rw [Crecv.message, hdata, hto, List.take_left]
  have hcomplete : crecv.completeMessage = true := by
    have hbe : (crecv.buf.toList.drop 1).take 3 = putBe 3 32 := by
      rw [hdata, expectedFinished, hsMessage]
      simp [List.take_left' (length_putBe 3 32)]
    rw [Crecv.completeMessage, hto, hlen, if_neg (by omega), hbe]
    decide
  have hverify : verifyFinished { s with crecv := crecv } (s.expectedFinished hs) = true := by
    simp only [verifyFinished, hsecret]
    exact verifyClientFinished_hsMessage _ _
  rw [← hfresh] at hcollect
  simp only [feed, hcollect, hcomplete, Bool.not_true, Bool.false_eq_true, if_false, hmsg]
  rw [onFinished, if_neg (not_not.2 hphase), hverify, if_neg (by simp)]
  simp [srvfinComplete, Keysched.advanceMaster, hstage, Keysched.get, Keysched.available]

/-! ## The invariant -/

/-- A ClientHello with key share `pub` was accepted. -/
def Accepted (past : List (Server × ServerOp)) (ch : Bytes) (pub : Bytes32) : Prop :=
  ∃ s beyond, (s, ServerOp.recvInitial ch beyond) ∈ past ∧ (s.recvInitial ch beyond).1 = true ∧
    takeClientKeyshare ch beyond = some pub

/-- A ServerHello and a flight were built. -/
def Built (past : List (Server × ServerOp)) (sh flight : Bytes) : Prop :=
  ∃ s random shCap flightCap, (s, ServerOp.buildFlight random shCap flightCap) ∈ past ∧
    (s.buildFlight P random shCap flightCap).1 = some (sh, flight)

/-- What the server holds once its flight is out: the transcript through ServerHello and through its
Finished, and the secret shared with the accepted key share. -/
def Secured (priv : Bytes32) (past : List (Server × ServerOp)) (s : Server) : Prop :=
  ∃ ch pub sh flight ecdhe, Accepted past ch pub ∧ Built P past sh flight ∧
    P.shared priv pub = some ecdhe ∧
    s.sdrv.handshakeSecretView = some (handshakeSecret ecdhe) ∧
    s.tr.take s.trThroughSh = (ch ++ sh).take transcriptMax ∧
    s.tr.take s.trThroughFlight = (ch ++ sh ++ flight).take transcriptMax

/-- The sub-states of a server agree with its phase and with the calls made so far. -/
structure Inv (priv : Bytes32) (past : List (Server × ServerOp)) (s : Server) : Prop where
  serverPriv : s.serverPriv = priv
  driverPriv : s.sdrv.serverPriv = priv
  stage : s.sched.stage = s.phase.stage
  confirmed : s.finConfirmed = s.isConfirmed
  initial : s.phase = .initial → s.tr = []
  chRecvd : s.phase = .chRecvd →
    ∃ ch, Accepted past ch s.sdrv.clientPub ∧ s.tr = ch.take transcriptMax
  secured : s.phase = .flightSent ∨ s.phase = .confirmed → Secured P priv past s

variable {P} {priv : Bytes32} {past : List (Server × ServerOp)} {s : Server}

theorem Accepted.subset {pub : Bytes32} (h : Accepted past ch pub) (hsub : past ⊆ past') :
    Accepted past' ch pub := by
  obtain ⟨s, beyond, hmem, h⟩ := h
  exact ⟨s, beyond, hsub hmem, h⟩

theorem Built.subset (h : Built P past sh flight) (hsub : past ⊆ past') :
    Built P past' sh flight := by
  obtain ⟨s, random, shCap, flightCap, hmem, h⟩ := h
  exact ⟨s, random, shCap, flightCap, hsub hmem, h⟩

theorem Inv.mono (h : Inv P priv past s) (e : Server × ServerOp) : Inv P priv (past ++ [e]) s :=
  { h with
    chRecvd := fun hp => by
      obtain ⟨ch, hacc, htr⟩ := h.chRecvd hp
      exact ⟨ch, hacc.subset (List.subset_append_left _ _), htr⟩
    secured := fun hp => by
      obtain ⟨ch, pub, sh, flight, ecdhe, hacc, hbuilt, h⟩ := h.secured hp
      exact ⟨ch, pub, sh, flight, ecdhe, hacc.subset (List.subset_append_left _ _),
        hbuilt.subset (List.subset_append_left _ _), h⟩ }

theorem trAdd_tr {s : Server} (xs : Bytes) (h : s.tr = xs.take transcriptMax) (msg : Bytes) :
    (s.trAdd msg).tr = (xs ++ msg).take transcriptMax := by
  have hroom : transcriptMax - (xs.take transcriptMax).length = transcriptMax - xs.length := by
    rw [List.length_take]
    omega
  rw [List.take_append, trAdd, h, hroom]

theorem recordFlight_tr {s : Server} (h : s.tr = ch.take transcriptMax) (sh flight : Bytes) :
    let s' := s.recordFlight sh flight
    s'.tr.take s'.trThroughSh = (ch ++ sh).take transcriptMax ∧
      s'.tr.take s'.trThroughFlight = (ch ++ sh ++ flight).take transcriptMax := by
  have h₁ := trAdd_tr _ h sh
  have h₂ := trAdd_tr (s := { s.trAdd sh with trThroughSh := (s.trAdd sh).tr.length }) _ h₁ flight
  refine ⟨?_, ?_⟩
  · calc (s.recordFlight sh flight).tr.take (s.recordFlight sh flight).trThroughSh
        = ((s.trAdd sh).tr ++ flight.take (transcriptMax - (s.trAdd sh).tr.length)).take
            (s.trAdd sh).tr.length := rfl
      _ = (s.trAdd sh).tr := List.take_left
      _ = _ := h₁
  · calc (s.recordFlight sh flight).tr.take (s.recordFlight sh flight).trThroughFlight
        = (s.recordFlight sh flight).tr := List.take_length
      _ = _ := h₂

theorem inv_init (s : Server) (priv pub seed : Bytes32) :
    Inv P priv [] (Server.init P s priv pub seed) where
  serverPriv := rfl
  driverPriv := rfl
  stage := rfl
  confirmed := rfl
  initial := fun _ => rfl
  chRecvd := fun h => by cases h
  secured := fun h => by rcases h with h | h <;> cases h

theorem Inv.effect (h : Inv P priv past s) (o : ServerOp) : Effect P s o (step P s o) :=
  effect_step P (h.driverPriv.trans h.serverPriv.symm) (fun hp => by rw [h.stage, hp]; rfl) o

theorem Inv.finConfirmed (h : Inv P priv past s) (hphase : s.phase ≠ .confirmed) :
    s.finConfirmed = false := by
  rw [h.confirmed]
  exact decide_eq_false hphase

/-- **One call** keeps the invariant. -/
theorem inv_step (h : Inv P priv past s) (o : ServerOp) :
    Inv P priv (past ++ [(s, o)]) (step P s o) := by
  have hmono := h.mono (s, o)
  have he := h.effect o
  generalize step P s o = s' at he ⊢
  cases he with
  | quiet sdrv crecv done hpriv _ hpub hview =>
    exact { hmono with
      driverPriv := hpriv.trans h.driverPriv
      chRecvd := fun hc => by
        have hsame := hpub.resolve_left fun hi => nomatch hi.symm.trans hc
        rw [hsame]
        exact hmono.chRecvd hc
      secured := fun hc => by
        have hsame := hview.resolve_left fun hr => by
          rcases hc with hc | hc <;> (rw [show s.phase = _ from hc] at hr; exact absurd hr (by decide))
        rw [Secured, hsame]
        exact hmono.secured hc }
  | hello ch beyond sdrv hphase hpriv _ hpub hok =>
    have hacc : Accepted (past ++ [(s, .recvInitial ch beyond)]) ch sdrv.clientPub :=
      ⟨s, beyond, by simp, hok, hpub⟩
    have htr : (trAdd { s with sdrv := sdrv } ch).tr = ch.take transcriptMax :=
      trAdd_tr [] (h.initial hphase) ch
    have hzero : s.sched.stage = 0 := by rw [h.stage, hphase]; rfl
    exact { serverPriv := h.serverPriv
            driverPriv := hpriv.trans h.driverPriv
            stage := hzero
            confirmed := h.finConfirmed (by simp [hphase])
            initial := fun hc => by cases hc
            chRecvd := fun _ => ⟨ch, hacc, htr⟩
            secured := fun hc => by rcases hc with hc | hc <;> cases hc }
  | flight random shCap flightCap sh flight sdrv ecdhe sched hphase hpriv _ hshared hsecret hone hok =>
    obtain ⟨ch, hacc, htr⟩ := hmono.chRecvd hphase
    have hrec := recordFlight_tr (s := { s with sdrv := sdrv }) htr sh flight
    exact { serverPriv := h.serverPriv
            driverPriv := hpriv.trans h.driverPriv
            stage := hone
            confirmed := h.finConfirmed (by simp [hphase])
            initial := fun hc => by cases hc
            chRecvd := fun hc => by cases hc
            secured := fun _ => ⟨ch, s.sdrv.clientPub, sh, flight, ecdhe, hacc,
              ⟨s, random, shCap, flightCap, by simp, hok⟩, h.serverPriv ▸ hshared,
              hsecret, hrec.1, hrec.2⟩ }
  | finished payload hs sched hphase _ _ htwo =>
    exact { serverPriv := h.serverPriv
            driverPriv := h.driverPriv
            stage := htwo
            confirmed := rfl
            initial := fun hc => by cases hc
            chRecvd := fun hc => by cases hc
            secured := fun _ => hmono.secured (Or.inl hphase) }

/-! ## What the user of a server relies on -/

theorem iscid_step (h : Inv P priv past s) (hiscid : s.sdrv.iscid.length ≤ maxCidLen)
    (o : ServerOp) : (step P s o).sdrv.iscid.length ≤ maxCidLen := by
  have he := h.effect o
  generalize step P s o = s' at he ⊢
  cases he with
  | quiet sdrv crecv done _ hkeep => exact hkeep hiscid
  | hello ch beyond sdrv _ _ hsame => exact hsame ▸ hiscid
  | flight random shCap flightCap sh flight sdrv ecdhe sched _ _ hsame => exact hsame ▸ hiscid
  | finished => exact hiscid

/-- The sub-states of a server fit together. -/
structure Coherent (s : Server) : Prop where
  stage : s.sched.stage = s.phase.stage
  confirmed : s.finConfirmed = s.isConfirmed
  iscid : s.sdrv.iscid.length ≤ maxCidLen

/-- **Whatever calls a server was driven with**, it is coherent. -/
theorem coherent_run (P : ServerPrimitives) (s : Server) (priv pub seed : Bytes32)
    (ops : List ServerOp) : Coherent (Run.run (step P) (Server.init P s priv pub seed) ops) := by
  obtain ⟨hinv, hiscid⟩ := Run.steps_history
    (P := fun past s => Inv P priv past s ∧ s.sdrv.iscid.length ≤ maxCidLen)
    (fun _ _ o h => ⟨inv_step h.1 o, iscid_step h.1 h.2 o⟩)
    ⟨inv_init s priv pub seed, Nat.zero_le _⟩ ops
  exact ⟨hinv.stage, hinv.confirmed, hiscid⟩

theorem Coherent.feed {s : Server} (h : Coherent s) (payload : Bytes) :
    Coherent (s.feed payload).2 ∧
      (s.isConfirmed = true → (s.feed payload).2.isConfirmed = true) := by
  rcases s.feed_cases payload with hfeed | ⟨hs, sched, -, -, -, hstage, hfeed⟩
  · rw [hfeed]
    exact ⟨⟨h.stage, h.confirmed, h.iscid⟩, id⟩
  · rw [hfeed]
    exact ⟨⟨hstage, rfl, h.iscid⟩, fun _ => rfl⟩
/-! ## The gate -/

end Server

end Tls

end QuicVibe
