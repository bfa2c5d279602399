import QuicVibe.Crypto.Sha256
import QuicVibe.Tls.ClientHello
/-!
# The server's transcripts

A server keeps its transcript twice. The driver folds every message into a running SHA-256
(`quic_transcript_add` in `sdrv.c`, `sdrv_flight.c`); the orchestrator copies the messages into a
buffer of 4096 bytes (`srv_tr_add` in `server.c`). A message is folded before the next one is built,
and a call that gives up later does not take it back.
-/

namespace QuicVibe

namespace Tls

open Crypto Packet Keys

/-! ## The flight -/

namespace Sdrv

variable (P : ServerPrimitives)

/-- `emit_ee`. -/
def encryptedExtensions (s : Sdrv) : Option Bytes := do
  let tp ← stpBuildServer s.odcid s.iscid 256
  eebuildEncryptedExtensions tp 1024

/-- CertificateVerify and Finished of a driver whose running hash is `tr` before ServerHello. -/
def flightEnd (s : Sdrv) (tr : Sha256.Ctx) (sh ee cert : Bytes) : Option (Bytes × Bytes) := do
  let ecdhe ← P.shared s.serverPriv s.clientPub
  let trSh := Sha256.update tr sh
  let finishedKey := expandLabel (handshakeSecret ecdhe) "s hs traffic" (Sha256.final trSh).toList 32
  let trCert := Sha256.update (Sha256.update trSh ee) cert
  let cv ← cvecdsaBuild (P.p256Sign s.p256Priv (sha256 (signedContent (Sha256.final trCert)))) 256
  let fin ← sflightFinished finishedKey (Sha256.final (Sha256.update trCert cv)) 64
  return (cv, fin)

/-- The bytes folded into the running hash while the flight goes out. -/
def emitted (cap : ℕ) : List (Sdrv → Option Bytes) → Sdrv → Bytes → Bytes
  | [], _, _ => []
  | build :: builds, s, flight =>
    match build s with
    | none => []
    | some msg =>
      if msg.length > cap - flight.length then []
      else msg ++ emitted cap builds (s.transcriptAdd msg) (flight ++ msg)

/-- The bytes a call folds into the running hash. -/
def foldedFlight (s : Sdrv) (random : Bytes32) (shCap hsCap : ℕ) : Bytes :=
  match shbuildServerHello random s.clientSid 0x1301 s.serverPub shCap with
  | none => []
  | some sh =>
    match deriveSecret P (s.transcriptAdd sh) with
    | (false, _) => sh
    | (true, s) => sh ++ emitted hsCap (flightMessages P) s []

variable {P} {cap : ℕ} {s : Sdrv} {flight out bytes : Bytes} {tr : Sha256.Ctx}

theorem emitHsFlight_cons_eq {build : Sdrv → Option Bytes} {builds : List (Sdrv → Option Bytes)}
    (hfit : flight.length ≤ cap) :
    (emitHsFlight cap (build :: builds) s flight).1 = some out ↔
      ∃ msg, build s = some msg ∧ (flight ++ msg).length ≤ cap ∧
        (emitHsFlight cap builds (s.transcriptAdd msg) (flight ++ msg)).1 = some out := by
  rw [emitHsFlight]
  cases hbuild : build s with
  | none => simp
  | some msg =>
    simp only [Option.some.injEq, exists_eq_left', List.length_append]
    by_cases hroom : msg.length > cap - flight.length
    · rw [if_pos hroom]
      constructor
      · intro h
        cases h
      · rintro ⟨hle, -⟩
        omega
    · rw [if_neg hroom]
      exact ⟨fun h => ⟨by omega, h⟩, fun h => h.2⟩

theorem emitHsFlight_four {b₁ b₂ b₃ b₄ : Sdrv → Option Bytes} :
    (emitHsFlight cap [b₁, b₂, b₃, b₄] s []).1 = some out ↔
      ∃ m₁ m₂ m₃ m₄, b₁ s = some m₁ ∧ b₂ (s.transcriptAdd m₁) = some m₂ ∧
        b₃ ((s.transcriptAdd m₁).transcriptAdd m₂) = some m₃ ∧
        b₄ (((s.transcriptAdd m₁).transcriptAdd m₂).transcriptAdd m₃) = some m₄ ∧
        out = m₁ ++ m₂ ++ m₃ ++ m₄ ∧ out.length ≤ cap := by
  have hnil : ([] : Bytes).length ≤ cap := Nat.zero_le cap
  constructor
  · intro h
    obtain ⟨m₁, hm₁, h₁, h⟩ := (emitHsFlight_cons_eq hnil).1 h
    obtain ⟨m₂, hm₂, h₂, h⟩ := (emitHsFlight_cons_eq h₁).1 h
    obtain ⟨m₃, hm₃, h₃, h⟩ := (emitHsFlight_cons_eq h₂).1 h
    obtain ⟨m₄, hm₄, h₄, h⟩ := (emitHsFlight_cons_eq h₃).1 h
    obtain rfl := Option.some.inj h
    exact ⟨m₁, m₂, m₃, m₄, hm₁, hm₂, hm₃, hm₄, rfl, h₄⟩
  · rintro ⟨m₁, m₂, m₃, m₄, hm₁, hm₂, hm₃, hm₄, rfl, hle⟩
    simp only [List.length_append] at hle
    have h₁ : ([] ++ m₁).length ≤ cap := by simp; omega
    have h₂ : ([] ++ m₁ ++ m₂).length ≤ cap := by simp; omega
    have h₃ : ([] ++ m₁ ++ m₂ ++ m₃).length ≤ cap := by simp; omega
    have h₄ : ([] ++ m₁ ++ m₂ ++ m₃ ++ m₄).length ≤ cap := by simp; omega
    exact (emitHsFlight_cons_eq hnil).2 ⟨m₁, hm₁, h₁, (emitHsFlight_cons_eq h₁).2 ⟨m₂, hm₂, h₂,
      (emitHsFlight_cons_eq h₂).2 ⟨m₃, hm₃, h₃, (emitHsFlight_cons_eq h₃).2 ⟨m₄, hm₄, h₄, rfl⟩⟩⟩⟩

/-- The driver behind ServerHello, with the secret derived. -/
def afterServerHello (s : Sdrv) (sh : Bytes) (ecdhe : Bytes32) : Sdrv :=
  { s.transcriptAdd sh with
    hsSecret := handshakeSecret ecdhe
    sHsTraffic := expandLabel (handshakeSecret ecdhe) "s hs traffic"
      (Sha256.final (Sha256.update s.tr sh)).toList 32
    hsReady := true }

theorem encryptedExtensions_afterServerHello (s : Sdrv) (sh : Bytes) (ecdhe : Bytes32) :
    (s.afterServerHello sh ecdhe).encryptedExtensions = s.encryptedExtensions := by
  simp only [encryptedExtensions, afterServerHello, transcriptAdd]

theorem flightMessages_eq : flightMessages P =
    [encryptedExtensions, fun s => sflightCertificate s.cert 1024,
     fun s => cvecdsaBuild (P.p256Sign s.p256Priv (sha256 (signedContent s.transcriptHash))) 256,
     fun s => sflightFinished s.sHsTraffic s.transcriptHash 64] := rfl

theorem buildServerFlight_eq (s : Sdrv) (random : Bytes32) (shCap hsCap : ℕ) :
    s.buildServerFlight P random shCap hsCap =
      match shbuildServerHello random s.clientSid 0x1301 s.serverPub shCap with
      | none => (none, s)
      | some sh =>
        match P.shared s.serverPriv s.clientPub with
        | none => (none, s.transcriptAdd sh)
        | some ecdhe =>
          let r := emitHsFlight hsCap (flightMessages P) (s.afterServerHello sh ecdhe) []
          (r.1.map fun flight => (sh, flight), r.2) := by
  rw [buildServerFlight, buildServerHello]
  cases shbuildServerHello random s.clientSid 0x1301 s.serverPub shCap with
  | none => rfl
  | some sh =>
    have hkeep : P.shared (s.transcriptAdd sh).serverPriv (s.transcriptAdd sh).clientPub =
        P.shared s.serverPriv s.clientPub := rfl
    dsimp only
    rw [deriveSecret, hkeep]
    cases P.shared s.serverPriv s.clientPub with
    | none => rfl
    | some ecdhe => rfl

theorem flightEnd_eq_some {sh ee cert cv fin : Bytes} {ecdhe : Bytes32}
    (hshared : P.shared s.serverPriv s.clientPub = some ecdhe) :
    flightEnd P s tr sh ee cert = some (cv, fin) ↔
      cvecdsaBuild (P.p256Sign s.p256Priv (sha256 (signedContent (Sha256.final
        (Sha256.update (Sha256.update (Sha256.update tr sh) ee) cert))))) 256 = some cv ∧
      sflightFinished (expandLabel (handshakeSecret ecdhe) "s hs traffic"
        (Sha256.final (Sha256.update tr sh)).toList 32) (Sha256.final (Sha256.update
          (Sha256.update (Sha256.update (Sha256.update tr sh) ee) cert) cv)) 64 = some fin := by
  simp only [flightEnd, hshared, Option.bind_eq_bind, Option.bind_some, Option.bind_eq_some_iff]
  constructor
  · rintro ⟨cv', hcv, fin', hfin, hout⟩
    obtain ⟨rfl, rfl⟩ := Prod.mk.inj (Option.some.inj hout)
    exact ⟨hcv, hfin⟩
  · rintro ⟨hcv, hfin⟩
    exact ⟨cv, hcv, fin, hfin, rfl⟩

/-- **A flight** is ServerHello, EncryptedExtensions and Certificate, which do not depend on the
transcript, and CertificateVerify and Finished, which do; it goes out when all of it fits. -/
theorem buildServerFlight_eq_some {random : Bytes32} {shCap hsCap : ℕ} {sh : Bytes} :
    (s.buildServerFlight P random shCap hsCap).1 = some (sh, flight) ↔
      shbuildServerHello random s.clientSid 0x1301 s.serverPub shCap = some sh ∧
      ∃ ee cert cv fin, s.encryptedExtensions = some ee ∧ sflightCertificate s.cert 1024 = some cert ∧
        flightEnd P s s.tr sh ee cert = some (cv, fin) ∧ flight = ee ++ cert ++ cv ++ fin ∧
        flight.length ≤ hsCap := by
  rw [buildServerFlight_eq]
  cases shbuildServerHello random s.clientSid 0x1301 s.serverPub shCap with
  | none => simp
  | some sh' =>
    cases hshared : P.shared s.serverPriv s.clientPub with
    | none => simp [flightEnd, hshared]
    | some ecdhe =>
      dsimp only
      rw [Option.map_eq_some_iff, flightMessages_eq]
      simp only [emitHsFlight_four, encryptedExtensions_afterServerHello]
      simp only [afterServerHello, transcriptAdd, transcriptHash]
      constructor
      · rintro ⟨out, hout, heq⟩
        obtain ⟨rfl, rfl⟩ := Prod.mk.inj heq
        obtain ⟨ee, cert, cv, fin, hee, hcert, hcv, hfin, hflight, hle⟩ := hout
        exact ⟨rfl, ee, cert, cv, fin, hee, hcert, (flightEnd_eq_some hshared).2 ⟨hcv, hfin⟩, hflight,
          hle⟩
      · rintro ⟨hsh, ee, cert, cv, fin, hee, hcert, hend, hflight, hle⟩
        obtain rfl := Option.some.inj hsh
        obtain ⟨hcv, hfin⟩ := (flightEnd_eq_some hshared).1 hend
        exact ⟨flight, ⟨ee, cert, cv, fin, hee, hcert, hcv, hfin, hflight, hle⟩, rfl⟩

/-! ## What is folded into the running hash -/

/-- The running hash has absorbed the string. -/
def Hashes (tr : Sha256.Ctx) (bytes : Bytes) : Prop := tr = Sha256.update Sha256.init bytes

theorem Hashes.nil : Hashes Sha256.init [] := rfl

theorem Hashes.update (h : Hashes tr bytes) (msg : Bytes) :
    Hashes (Sha256.update tr msg) (bytes ++ msg) := by
  rw [Hashes] at h ⊢
  rw [h, Sha256.update_update Sha256.length_buf_init]

theorem Hashes.final (h : Hashes tr bytes) : Sha256.final tr = sha256 bytes := by
  rw [Hashes] at h
  rw [h, sha256]

variable (builds : List (Sdrv → Option Bytes))

theorem emitHsFlight_hashes (h : Hashes s.tr bytes) :
    Hashes (emitHsFlight cap builds s flight).2.tr (bytes ++ emitted cap builds s flight) := by
  induction builds generalizing s flight bytes with
  | nil => simpa [emitHsFlight, emitted] using h
  | cons build builds ih =>
    rw [emitHsFlight, emitted]
    cases build s with
    | none => simpa using h
    | some msg =>
      dsimp only
      split
      · simpa using h
      · rw [← List.append_assoc]
        exact ih (h.update msg)

theorem emitHsFlight_emitted (h : (emitHsFlight cap builds s flight).1 = some out) :
    out = flight ++ emitted cap builds s flight := by
  induction builds generalizing s flight with
  | nil => simpa [emitHsFlight, emitted] using h.symm
  | cons build builds ih =>
    rw [emitHsFlight] at h
    rw [emitted]
    cases hbuild : build s with
    | none => simp [hbuild] at h
    | some msg =>
      simp only [hbuild] at h ⊢
      split at h
      · cases h
      · rename_i hroom
        rw [if_neg hroom, ← List.append_assoc]
        exact ih h

/-- **What a call folds**, and that a successful one folds what it returns. -/
theorem buildServerFlight_hashes (h : Hashes s.tr bytes) (random : Bytes32) (shCap hsCap : ℕ) :
    Hashes (s.buildServerFlight P random shCap hsCap).2.tr
        (bytes ++ s.foldedFlight P random shCap hsCap) ∧
      ∀ sh flight, (s.buildServerFlight P random shCap hsCap).1 = some (sh, flight) →
        s.foldedFlight P random shCap hsCap = sh ++ flight := by
  rw [buildServerFlight_eq, foldedFlight]
  cases shbuildServerHello random s.clientSid 0x1301 s.serverPub shCap with
  | none => exact ⟨by simpa using h, fun _ _ hout => by cases hout⟩
  | some sh =>
    have hkeep : P.shared (s.transcriptAdd sh).serverPriv (s.transcriptAdd sh).clientPub =
        P.shared s.serverPriv s.clientPub := rfl
    dsimp only
    rw [deriveSecret, hkeep]
    cases P.shared s.serverPriv s.clientPub with
    | none => exact ⟨h.update sh, fun _ _ hout => by cases hout⟩
    | some ecdhe =>
      change Hashes (emitHsFlight hsCap (flightMessages P) (s.afterServerHello sh ecdhe) []).2.tr
          (bytes ++ (sh ++ emitted hsCap (flightMessages P) (s.afterServerHello sh ecdhe) [])) ∧
        ∀ sh' flight, Option.map (fun flight => (sh, flight))
            (emitHsFlight hsCap (flightMessages P) (s.afterServerHello sh ecdhe) []).1 =
              some (sh', flight) →
          sh ++ emitted hsCap (flightMessages P) (s.afterServerHello sh ecdhe) [] = sh' ++ flight
      rw [← List.append_assoc]
      refine ⟨emitHsFlight_hashes (flightMessages P) (h.update sh), fun sh' flight hout => ?_⟩
      obtain ⟨out, hemit, heq⟩ := Option.map_eq_some_iff.1 hout
      obtain ⟨rfl, rfl⟩ := Prod.mk.inj heq
      rw [emitHsFlight_emitted _ hemit, List.nil_append]

end Sdrv

/-! ## Whole runs -/

namespace Server

variable (P : ServerPrimitives)

/-- The bytes a call folds into the driver's running hash. -/
def folded (e : Server × ServerOp) : Bytes :=
  match e.2 with
  | .recvInitial ch beyond => if (e.1.recvInitial ch beyond).1 then ch else []
  | .buildFlight random shCap flightCap =>
    if e.1.phase ≠ .chRecvd then [] else e.1.sdrv.foldedFlight P random shCap flightCap
  | _ => []

/-- The bytes the driver has hashed. -/
def hashed (steps : List (Server × ServerOp)) : Bytes := steps.flatMap (folded P)

variable {P} {priv : Bytes32} {past : List (Server × ServerOp)} {s : Server}

theorem hashed_snoc (steps : List (Server × ServerOp)) (e : Server × ServerOp) :
    hashed P (steps ++ [e]) = hashed P steps ++ folded P e := by
  simp [hashed]

theorem installHsKeys_sdrv (s : Server) : (installHsKeys P s).2.sdrv = s.sdrv := by
  simp only [installHsKeys]
  split
  · rfl
  · split
    · rfl
    · split <;> rfl

theorem buildFlight_sdrv (hphase : s.phase = .chRecvd) (random : Bytes32) (shCap flightCap : ℕ) :
    (s.buildFlight P random shCap flightCap).2.sdrv =
      (s.sdrv.buildServerFlight P random shCap flightCap).2 := by
  rw [buildFlight_eq P hphase]
  generalize s.sdrv.buildServerFlight P random shCap flightCap = r
  rcases r with ⟨_ | ⟨sh, flight⟩, sdrv⟩
  · rfl
  · dsimp only
    split
    · exact installHsKeys_sdrv _
    · exact installHsKeys_sdrv _

theorem recvInitial_tr (s : Server) (ch : Bytes) (beyond : ℕ → UInt8) :
    (s.recvInitial ch beyond).2.sdrv.tr =
      if (s.recvInitial ch beyond).1 then Sha256.update s.sdrv.tr ch else s.sdrv.tr := by
  by_cases hphase : s.phase = .initial
  · rw [recvInitial, if_neg (not_not.2 hphase), Sdrv.recvClientHello]
    cases takeClientKeyshare ch beyond with
    | none => rfl
    | some pub =>
      cases takeClientSid ch with
      | none => rfl
      | some sid => rfl
  · rw [recvInitial, if_pos hphase]
    rfl

/-- The driver's running hash has absorbed what the calls folded into it. -/
theorem hashes_step (h : Sdrv.Hashes s.sdrv.tr (hashed P past)) (o : ServerOp) :
    Sdrv.Hashes (step P s o).sdrv.tr (hashed P (past ++ [(s, o)])) := by
  rw [hashed_snoc]
  cases o with
  | setCids odcid iscid =>
    obtain ⟨o, i, hset⟩ := setCids_frame s.sdrv odcid iscid
    rw [step, setCids_snd, hset]
    simpa [folded] using h
  | recvInitial ch beyond =>
    rw [step, recvInitial_tr, folded]
    dsimp only
    split
    · exact h.update ch
    · simpa using h
  | buildFlight random shCap flightCap =>
    rw [step, folded]
    dsimp only
    by_cases hphase : s.phase = .chRecvd
    · rw [if_neg (not_not.2 hphase), buildFlight_sdrv hphase]
      exact (Sdrv.buildServerFlight_hashes h random shCap flightCap).1
    · rw [if_pos hphase, buildFlight, if_pos hphase]
      simpa using h
  | feed payload =>
    rcases feed_cases s payload with hres | ⟨hs, sched, -, -, -, -, hres⟩ <;>
      (rw [step, hres]; simpa [folded] using h)
  | handshakeDone cap =>
    rcases handshakeDone_cases s cap with hres | ⟨-, -, hres⟩ <;>
      (rw [step, hres]; simpa [folded] using h)

theorem hashes_run (P : ServerPrimitives) (m : Server) (priv pub seed : Bytes32)
    (ops : List ServerOp) :
    Sdrv.Hashes (Run.run (step P) (Server.init P m priv pub seed) ops).sdrv.tr
      (hashed P (Run.steps (step P) (Server.init P m priv pub seed) ops)) :=
  Run.steps_history (P := fun past s => Sdrv.Hashes s.sdrv.tr (hashed P past))
    (fun _ _ o h => hashes_step h o) Sdrv.Hashes.nil ops

/-- The ClientHello stays recorded until the flight goes out. -/
def Recorded (ch : Bytes) (s : Server) : Prop :=
  s.phase ≠ .initial ∧ (s.phase = .chRecvd → s.tr = ch.take transcriptMax)

theorem Recorded.step {ch : Bytes} (h : Recorded ch s) (hinv : Inv P priv past s) (o : ServerOp) :
    Recorded ch (step P s o) := by
  have he := hinv.effect o
  generalize Server.step P s o = s' at he ⊢
  cases he with
  | quiet => exact h
  | hello ch' beyond sdrv hphase => exact absurd hphase h.1
  | flight => exact ⟨by simp, fun hp => by cases hp⟩
  | finished => exact ⟨by simp, fun hp => by cases hp⟩

/-- The transcripts are one sequence: what the Handshake keys and the expected client Finished are
computed from, and what the driver hashed. -/
structure TranscriptExact (s : Server) (driver ch sh flight : Bytes) : Prop where
  keys : s.tr.take s.trThroughSh = ch ++ sh
  finished : s.tr.take s.trThroughFlight = ch ++ sh ++ flight
  driver : driver = ch ++ sh ++ flight

/-- CertificateVerify and Finished of a flight, computed over `before` and the messages of the
flight. -/
def SignsOver (P : ServerPrimitives) (s : Sdrv) (before sh flight : Bytes) : Prop :=
  ∃ ee cert cv fin ecdhe, flight = ee ++ cert ++ cv ++ fin ∧
    P.shared s.serverPriv s.clientPub = some ecdhe ∧
    cvecdsaBuild (P.p256Sign s.p256Priv
      (sha256 (signedContent (sha256 (before ++ sh ++ ee ++ cert))))) 256 = some cv ∧
    sflightFinished (expandLabel (handshakeSecret ecdhe) "s hs traffic"
      (sha256 (before ++ sh)).toList 32) (sha256 (before ++ sh ++ ee ++ cert ++ cv)) 64 = some fin

variable {random : Bytes32} {shCap flightCap : ℕ} {sh flight : Bytes}

theorem signsOver_of_buildFlight {before : Bytes} (h : Sdrv.Hashes s.sdrv.tr before)
    (hbuild : (s.sdrv.buildServerFlight P random shCap flightCap).1 = some (sh, flight)) :
    SignsOver P s.sdrv before sh flight := by
  obtain ⟨-, ee, cert, cv, fin, -, -, hend, hflight, -⟩ := Sdrv.buildServerFlight_eq_some.1 hbuild
  cases hshared : P.shared s.sdrv.serverPriv s.sdrv.clientPub with
  | none => simp [Sdrv.flightEnd, hshared] at hend
  | some ecdhe =>
    obtain ⟨hcv, hfin⟩ := (Sdrv.flightEnd_eq_some hshared).1 hend
    have hcert := ((h.update sh).update ee).update cert
    rw [hcert.final] at hcv
    rw [(h.update sh).final, (hcert.update cv).final] at hfin
    exact ⟨ee, cert, cv, fin, ecdhe, hflight, hshared, hcv, hfin⟩

/-- A call that returns a flight was made in the right phase, and the driver built it. -/
theorem buildFlight_driver
    (hbuild : (s.buildFlight P random shCap flightCap).1 = some (sh, flight)) :
    s.phase = .chRecvd ∧
      (s.sdrv.buildServerFlight P random shCap flightCap).1 = some (sh, flight) := by
  rw [buildFlight] at hbuild
  split at hbuild
  · cases hbuild
  · rename_i hphase
    refine ⟨not_not.1 hphase, ?_⟩
    generalize s.sdrv.buildServerFlight P random shCap flightCap = r at hbuild ⊢
    rcases r with ⟨_ | ⟨sh', flight'⟩, sdrv⟩
    · cases hbuild
    · dsimp only at hbuild
      generalize afterFlight P { s with sdrv := sdrv } sh' flight' = r at hbuild
      rcases r with ⟨_ | _, s'⟩
      · cases hbuild
      · exact hbuild

theorem take_transcriptMax_eq_iff (xs : Bytes) :
    xs.take transcriptMax = xs ↔ xs.length ≤ transcriptMax := by
  constructor
  · intro h
    rw [← h]
    exact List.length_take_le _ _
  · exact List.take_of_length_le

theorem buildFlight_tr (hpriv : s.sdrv.serverPriv = s.serverPriv) (hphase : s.phase = .chRecvd)
    (hstage : s.sched.stage = 0) {ch : Bytes} (htr : s.tr = ch.take transcriptMax)
    (hdriver : (s.sdrv.buildServerFlight P random shCap flightCap).1 = some (sh, flight)) :
    (s.buildFlight P random shCap flightCap).2.tr.take
        (s.buildFlight P random shCap flightCap).2.trThroughSh = (ch ++ sh).take transcriptMax ∧
      (s.buildFlight P random shCap flightCap).2.tr.take
        (s.buildFlight P random shCap flightCap).2.trThroughFlight =
          (ch ++ sh ++ flight).take transcriptMax := by
  obtain ⟨ecdhe, sched, -, -, -, hres⟩ := buildFlight_of_some P hpriv hphase hstage hdriver
  rw [hres]
  exact recordFlight_tr
    (s := { s with sdrv := (s.sdrv.buildServerFlight P random shCap flightCap).2 }) htr sh flight

/-- The state in which a flight is built behind an accepted ClientHello. -/
theorem recorded_run {m : Server} {pub seed : Bytes32} {pre : List ServerOp} {ch : Bytes}
    {beyond : ℕ → UInt8}
    (hacc : ((Run.run (step P) (Server.init P m priv pub seed) pre).recvInitial ch beyond).1 = true)
    (mid : List ServerOp) :
    ∃ past, Inv P priv past (Run.run (step P) (Server.init P m priv pub seed)
        (pre ++ .recvInitial ch beyond :: mid)) ∧
      Recorded ch (Run.run (step P) (Server.init P m priv pub seed)
        (pre ++ .recvInitial ch beyond :: mid)) := by
  have hpre : Inv P priv _ (Run.run (step P) (Server.init P m priv pub seed) pre) :=
    Run.steps_history (P := Inv P priv) (fun _ _ o h => inv_step h o) (inv_init m priv pub seed) pre
  rw [Run.run_append, Run.run_cons]
  generalize Run.run (step P) (Server.init P m priv pub seed) pre = s at hacc hpre ⊢
  have hstart : Recorded ch (step P s (.recvInitial ch beyond)) := by
    rcases recvInitial_cases s ch beyond with ⟨sdrv, -, -, -, hres⟩ |
      ⟨sdrv, -, -, hphase, -, hres⟩
    · rw [hres] at hacc
      cases hacc
    · rw [step, hres]
      refine ⟨by simp, fun _ => ?_⟩
      exact trAdd_tr (s := { s with sdrv := sdrv }) [] (hpre.initial hphase) ch
  refine Run.run_invariant (P := fun s => ∃ past, Inv P priv past s ∧ Recorded ch s) mid
    ⟨_, inv_step hpre _, hstart⟩ ?_
  rintro s o - ⟨past, hinv, hrec⟩
  exact ⟨_, inv_step hinv o, hrec.step hinv o⟩

/-- **The two transcripts.** In every run from `quic_server_init` in which a ClientHello is accepted
and a flight is built: the driver's running hash has absorbed the bytes the calls folded into it, its
CertificateVerify and Finished are computed over them, and they are what the orchestrator recorded,
ClientHello, ServerHello and flight, exactly when these fit the buffer and no call before the
successful one folded anything behind the ClientHello. -/
theorem transcript_exact_iff (P : ServerPrimitives) (m : Server) (priv pub seed : Bytes32)
    (pre mid : List ServerOp) (ch : Bytes) (beyond : ℕ → UInt8) (random : Bytes32)
    (shCap flightCap : ℕ) (sh flight : Bytes)
    (hacc : ((Run.run (step P) (Server.init P m priv pub seed) pre).recvInitial ch beyond).1 = true)
    (hbuild : ((Run.run (step P) (Server.init P m priv pub seed)
      (pre ++ .recvInitial ch beyond :: mid)).buildFlight P random shCap flightCap).1 =
        some (sh, flight)) :
    let before := pre ++ .recvInitial ch beyond :: mid
    let after := before ++ [.buildFlight random shCap flightCap]
    let hashedBefore := hashed P (Run.steps (step P) (Server.init P m priv pub seed) before)
    let hashedAfter := hashed P (Run.steps (step P) (Server.init P m priv pub seed) after)
    let s := Run.run (step P) (Server.init P m priv pub seed) before
    let s' := Run.run (step P) (Server.init P m priv pub seed) after
    Sdrv.Hashes s'.sdrv.tr hashedAfter ∧ SignsOver P s.sdrv hashedBefore sh flight ∧
      (TranscriptExact s' hashedAfter ch sh flight ↔
        (ch ++ sh ++ flight).length ≤ transcriptMax ∧ hashedBefore = ch) := by
  intro before after hashedBefore hashedAfter s s'
  have hbuild : (s.buildFlight P random shCap flightCap).1 = some (sh, flight) := hbuild
  obtain ⟨past, hinv, hrec⟩ : ∃ past, Inv P priv past s ∧ Recorded ch s := recorded_run hacc mid
  obtain ⟨hphase, hdriver⟩ := buildFlight_driver hbuild
  have hhashes : Sdrv.Hashes s.sdrv.tr hashedBefore := hashes_run P m priv pub seed before
  have hafter : hashedAfter = hashedBefore ++ (sh ++ flight) := by
    have hfolded := (Sdrv.buildServerFlight_hashes hhashes random shCap flightCap).2 sh flight hdriver
    rw [← hfolded]
    simp only [hashedAfter, after, Run.steps_snoc, hashed_snoc]
    exact congrArg _ (if_neg (not_not.2 hphase))
  have hs' : s' = (s.buildFlight P random shCap flightCap).2 := Run.run_snoc _ _ _ _
  have hend := buildFlight_tr (hinv.driverPriv.trans hinv.serverPriv.symm) hphase
    (by rw [hinv.stage, hphase]; rfl) (hrec.2 hphase) hdriver
  rw [← hs'] at hend
  refine ⟨hashes_run P m priv pub seed after, signsOver_of_buildFlight hhashes hdriver, ?_⟩
  constructor
  · intro h
    refine ⟨?_, ?_⟩
    · rw [← take_transcriptMax_eq_iff, ← hend.2, h.finished]
    · have hsame := h.driver
      rw [hafter, List.append_assoc] at hsame
      exact List.append_cancel_right hsame
  · rintro ⟨hfits, hbefore⟩
    have hsh : (ch ++ sh).length ≤ transcriptMax := by
      rw [List.length_append] at hfits
      omega
    exact ⟨hend.1.trans ((take_transcriptMax_eq_iff _).2 hsh),
      hend.2.trans ((take_transcriptMax_eq_iff _).2 hfits),
      by rw [hafter, hbefore, List.append_assoc]⟩

/-! ## A second call -/

theorem shbuildServerHello_cap (random : Bytes32) (sid : Bytes) (cipher : ℕ) (pub : Bytes32) :
    ∃ msg, ∀ cap, shbuildServerHello random sid cipher pub cap =
      if 90 + sid.length ≤ cap then some msg else none := by
  refine ⟨(shbuildServerHello random sid cipher pub (90 + sid.length)).getD [], fun cap => ?_⟩
  have hroom : ∀ {cap}, 90 + sid.length ≤ cap → ¬ (cap < 4 ∨ 4 + 38 + sid.length + 2 > cap) := by
    intro cap h
    omega
  by_cases hcap : 90 + sid.length ≤ cap
  · simp only [shbuildServerHello, if_neg (hroom hcap), if_neg (hroom (Nat.le_refl _)), if_pos hcap]
    rw [if_neg (by simp; omega), if_neg (by simp; omega)]
    rfl
  · rw [if_neg hcap, shbuildServerHello]
    split
    · rfl
    · dsimp only
      rw [if_pos (by simp; omega)]

/-- Two drivers were given the same keys, ClientHello and connection ids. -/
structure SameSetup (d d' : Sdrv) : Prop where
  serverPriv : d.serverPriv = d'.serverPriv
  serverPub : d.serverPub = d'.serverPub
  p256Priv : d.p256Priv = d'.p256Priv
  cert : d.cert = d'.cert
  clientPub : d.clientPub = d'.clientPub
  clientSid : d.clientSid = d'.clientSid
  odcid : d.odcid = d'.odcid
  iscid : d.iscid = d'.iscid

theorem sameSetup_buildServerFlight (d : Sdrv) (random : Bytes32) (shCap hsCap : ℕ) :
    SameSetup (d.buildServerFlight P random shCap hsCap).2 d := by
  rw [Sdrv.buildServerFlight_eq]
  cases shbuildServerHello random d.clientSid 0x1301 d.serverPub shCap with
  | none => exact ⟨rfl, rfl, rfl, rfl, rfl, rfl, rfl, rfl⟩
  | some sh =>
    cases P.shared d.serverPriv d.clientPub with
    | none => exact ⟨rfl, rfl, rfl, rfl, rfl, rfl, rfl, rfl⟩
    | some ecdhe =>
      obtain ⟨tr, htr⟩ := emitHsFlight_frame hsCap (Sdrv.flightMessages P)
        (d.afterServerHello sh ecdhe) []
      dsimp only
      rw [htr, Sdrv.afterServerHello, Sdrv.transcriptAdd]
      exact ⟨rfl, rfl, rfl, rfl, rfl, rfl, rfl, rfl⟩

theorem SameSetup.buildServerFlight_eq_some {d d' : Sdrv} (h : SameSetup d d') {hsCap : ℕ} :
    (d.buildServerFlight P random shCap hsCap).1 = some (sh, flight) ↔
      shbuildServerHello random d'.clientSid 0x1301 d'.serverPub shCap = some sh ∧
      ∃ ee cert cv fin, d'.encryptedExtensions = some ee ∧
        sflightCertificate d'.cert 1024 = some cert ∧
        Sdrv.flightEnd P d' d.tr sh ee cert = some (cv, fin) ∧ flight = ee ++ cert ++ cv ++ fin ∧
        flight.length ≤ hsCap := by
  rw [Sdrv.buildServerFlight_eq_some]
  simp only [Sdrv.encryptedExtensions, Sdrv.flightEnd, h.serverPriv, h.serverPub, h.p256Priv, h.cert,
    h.clientPub, h.clientSid, h.odcid, h.iscid]

/-- Installing the Handshake keys looks at the client's key of the driver only. -/
theorem installHsKeys_congr (s : Server) {sdrv : Sdrv} (h : sdrv.clientPub = s.sdrv.clientPub) :
    (installHsKeys P { s with sdrv := sdrv }).1 = (installHsKeys P s).1 ∧
      (installHsKeys P { s with sdrv := sdrv }).2.sched = (installHsKeys P s).2.sched ∧
      (installHsKeys P { s with sdrv := sdrv }).2.keys = (installHsKeys P s).2.keys := by
  simp only [installHsKeys, h]
  cases P.shared s.serverPriv s.sdrv.clientPub with
  | none => exact ⟨rfl, rfl, rfl⟩
  | some ecdhe =>
    dsimp only
    cases s.sched.advanceHandshake ecdhe.toList (s.tr.take s.trThroughSh) with
    | none => exact ⟨rfl, rfl, rfl⟩
    | some sched =>
      dsimp only
      cases sched.get .serverHs with
      | none => exact ⟨rfl, rfl, rfl⟩
      | some shs => exact ⟨rfl, rfl, rfl⟩

/-- **When the driver has built the flight**, the outcome of the call and its keys are those of
installing the Handshake keys behind the recorded flight. -/
theorem buildFlight_of_driver (hphase : s.phase = .chRecvd)
    (hdriver : (s.sdrv.buildServerFlight P random shCap flightCap).1 = some (sh, flight)) :
    let r := s.buildFlight P random shCap flightCap
    let a := installHsKeys P (s.recordFlight sh flight)
    r.1 = (if a.1 then some (sh, flight) else none) ∧ r.2.sched = a.2.sched ∧
      r.2.keys = a.2.keys := by
  obtain ⟨-, hc, -, -, -⟩ := buildServerFlight_spec P s.sdrv random shCap flightCap
  dsimp only
  rw [buildFlight_eq P hphase]
  generalize s.sdrv.buildServerFlight P random shCap flightCap = r at hdriver hc ⊢
  obtain ⟨out, d⟩ := r
  obtain rfl : out = some (sh, flight) := hdriver
  have hinstall : let a := installHsKeys P (s.recordFlight sh flight)
      let a' := installHsKeys P (recordFlight { s with sdrv := d } sh flight)
      a'.1 = a.1 ∧ a'.2.sched = a.2.sched ∧ a'.2.keys = a.2.keys :=
    installHsKeys_congr (s.recordFlight sh flight) hc
  dsimp only at hinstall ⊢
  generalize installHsKeys P (s.recordFlight sh flight) = a at hinstall ⊢
  generalize installHsKeys P (recordFlight { s with sdrv := d } sh flight) = a' at hinstall ⊢
  obtain ⟨hok, hsched, hkeys⟩ := hinstall
  rw [hok]
  split
  · exact ⟨rfl, hsched, hkeys⟩
  · exact ⟨rfl, hsched, hkeys⟩

theorem length_of_flightEnd {d : Sdrv} {tr : Sha256.Ctx} {ee cert cv fin : Bytes}
    (h : Sdrv.flightEnd P d tr sh ee cert = some (cv, fin)) : fin.length = 36 := by
  cases hshared : P.shared d.serverPriv d.clientPub with
  | none => simp [Sdrv.flightEnd, hshared] at h
  | some ecdhe =>
    obtain ⟨-, hfin⟩ := (Sdrv.flightEnd_eq_some hshared).1 h
    rw [sflightFinished, if_neg (by omega)] at hfin
    rw [← Option.some.inj hfin]
    simp

/-- **A second call** after one that gave up agrees with a first call exactly when the ServerHello
did not fit the first time, so that nothing was folded, or the CertificateVerify and the Finished over
the running hash the failed call left are those over the one it found. -/
theorem retry_agrees_iff (P : ServerPrimitives) (s : Server) (random : Bytes32)
    (shCap flightCap shCap' flightCap' : ℕ) (sh flight : Bytes)
    (hfail : (s.buildFlight P random shCap flightCap).1 = none)
    (hfirst : (s.buildFlight P random shCap' flightCap').1 = some (sh, flight)) :
    let failed := (s.buildFlight P random shCap flightCap).2
    let first := s.buildFlight P random shCap' flightCap'
    let retry := failed.buildFlight P random shCap' flightCap'
    (retry.1 = first.1 ∧ retry.2.sched = first.2.sched ∧ retry.2.keys = first.2.keys) ↔
      (shCap < 90 + s.sdrv.clientSid.length ∨
        ∀ ee cert, s.sdrv.encryptedExtensions = some ee →
          sflightCertificate s.sdrv.cert 1024 = some cert →
          Sdrv.flightEnd P s.sdrv failed.sdrv.tr sh ee cert =
            Sdrv.flightEnd P s.sdrv s.sdrv.tr sh ee cert) := by
  obtain ⟨hphase, hdriver⟩ := buildFlight_driver hfirst
  obtain ⟨msg, hmsg⟩ := shbuildServerHello_cap random s.sdrv.clientSid 0x1301 s.sdrv.serverPub
  obtain ⟨hsh, ee, cert, cv, fin, hee, hcert, hend, hflight, hle⟩ :=
    Sdrv.buildServerFlight_eq_some.1 hdriver
  have hlast := length_of_flightEnd hend
  -- the driver gave up: a flight it could build would have been the same, and gone out
  have hfailed : (s.sdrv.buildServerFlight P random shCap flightCap).1 = none := by
    by_contra hsome
    obtain ⟨⟨sh₂, flight₂⟩, hout⟩ := Option.ne_none_iff_exists'.1 hsome
    obtain ⟨hsh₂, ee₂, cert₂, cv₂, fin₂, hee₂, hcert₂, hend₂, hflight₂, -⟩ :=
      Sdrv.buildServerFlight_eq_some.1 hout
    obtain rfl : sh₂ = sh := by
      rw [hmsg] at hsh hsh₂
      split at hsh <;> split at hsh₂ <;> simp_all
    obtain rfl : ee₂ = ee := Option.some.inj (hee₂.symm.trans hee)
    obtain rfl : cert₂ = cert := Option.some.inj (hcert₂.symm.trans hcert)
    obtain ⟨rfl, rfl⟩ := Prod.mk.inj (Option.some.inj (hend₂.symm.trans hend))
    obtain rfl : flight₂ = flight := hflight₂.trans hflight.symm
    rw [(buildFlight_of_driver hphase hout).1] at hfail
    rw [(buildFlight_of_driver hphase hdriver).1, hfail] at hfirst
    cases hfirst
  have hstate : (s.buildFlight P random shCap flightCap).2 =
      { s with sdrv := (s.sdrv.buildServerFlight P random shCap flightCap).2 } := by
    rw [buildFlight_of_none P hphase hfailed]
  intro failed first retry
  by_cases hroom : shCap < 90 + s.sdrv.clientSid.length
  · -- nothing was folded: the second call is the first
    have hsame : failed = s := by
      have hnone := hmsg shCap
      rw [if_neg (by omega)] at hnone
      rw [show failed = _ from hstate, Sdrv.buildServerFlight_eq, hnone]
    have hretry : retry = first := by
      simp only [retry, hsame, first]
    rw [hretry]
    exact ⟨fun _ => Or.inl hroom, fun _ => ⟨rfl, rfl, rfl⟩⟩
  · have hsetup : SameSetup failed.sdrv s.sdrv := by
      rw [show failed = _ from hstate]
      exact sameSetup_buildServerFlight s.sdrv random shCap flightCap
    have hphase' : failed.phase = .chRecvd := by
      rw [show failed = _ from hstate]
      exact hphase
    constructor
    · rintro ⟨hout, -⟩
      refine Or.inr fun ee₁ cert₁ hee₁ hcert₁ => ?_
      obtain rfl : ee₁ = ee := Option.some.inj (hee₁.symm.trans hee)
      obtain rfl : cert₁ = cert := Option.some.inj (hcert₁.symm.trans hcert)
      obtain ⟨-, hdriver'⟩ := buildFlight_driver (hout.trans hfirst)
      obtain ⟨-, ee₂, cert₂, cv₂, fin₂, hee₂, hcert₂, hend₂, hflight₂, -⟩ :=
        hsetup.buildServerFlight_eq_some.1 hdriver'
      obtain rfl : ee₂ = ee₁ := Option.some.inj (hee₂.symm.trans hee)
      obtain rfl : cert₂ = cert₁ := Option.some.inj (hcert₂.symm.trans hcert)
      -- the messages in front are the same, and both Finished have the same length
      have hrest : cv₂ ++ fin₂ = cv ++ fin := by
        have hboth := hflight₂.symm.trans hflight
        rw [List.append_assoc _ cv₂, List.append_assoc _ cv] at hboth
        exact List.append_cancel_left hboth
      obtain ⟨rfl, rfl⟩ := List.append_inj' hrest ((length_of_flightEnd hend₂).trans hlast.symm)
      rw [hend₂, hend]
    · rintro (hno | hsame)
      · exact absurd hno hroom
      · have hdriver' : (failed.sdrv.buildServerFlight P random shCap' flightCap').1 =
            some (sh, flight) := by
          refine hsetup.buildServerFlight_eq_some.2
            ⟨hsh, ee, cert, cv, fin, hee, hcert, ?_, hflight, hle⟩
          rw [hsame ee cert hee hcert, hend]
        have hkeys : let a := installHsKeys P (s.recordFlight sh flight)
            let a' := installHsKeys P (failed.recordFlight sh flight)
            a'.1 = a.1 ∧ a'.2.sched = a.2.sched ∧ a'.2.keys = a.2.keys := by
          rw [show failed = _ from hstate]
          exact installHsKeys_congr (s.recordFlight sh flight)
            (sameSetup_buildServerFlight s.sdrv random shCap flightCap).clientPub
        obtain ⟨hok, hsched, hkeys⟩ := hkeys
        obtain ⟨hout₁, hsched₁, hkeys₁⟩ := buildFlight_of_driver hphase hdriver
        obtain ⟨hout₂, hsched₂, hkeys₂⟩ := buildFlight_of_driver hphase' hdriver'
        refine ⟨?_, hsched₂.trans (hsched.trans hsched₁.symm), hkeys₂.trans (hkeys.trans hkeys₁.symm)⟩
        rw [show retry.1 = _ from hout₂, show first.1 = _ from hout₁, hok]

end Server

/-! ## Concrete runs -/

namespace Sample

/-- A signature that shows what was signed. -/
def primitives : ServerPrimitives where
  x25519 := fun _ _ => Vector.replicate 32 1
  p256Cert := fun _ => [0x30, 0x00]
  p256Sign := fun _ hash => some hash.toList

def memory : Server where
  sdrv := freshDriver
  sched := ⟨0, Vector.replicate 32 0, fun _ => zeroKeys⟩
  keys := ⟨fun _ => zeroKeys, fun _ => false⟩
  finConfirmed := false
  crecv := ⟨Vector.replicate _ 0, Vector.replicate _ false, 0⟩
  phase := .initial
  hsDoneSent := false
  serverPriv := Vector.replicate 32 0
  tr := []
  trThroughSh := 0
  trThroughFlight := 0

/-- A server that has not received anything. -/
abbrev server : Server :=
  Server.init primitives memory (Vector.replicate 32 2) (Vector.replicate 32 3)
    (Vector.replicate 32 4)

/-- The vectors of a ClientHello that offers `n / 2` cipher suites. -/
def preamble (n : ℕ) (h : n < 65536) : Preamble where
  sid := []
  suites := List.replicate n 0
  comp := [0]
  sid_lt := clientPreamble.sid_lt
  suites_lt := by simpa using h
  comp_lt := clientPreamble.comp_lt

def keyShare : ℕ × Bytes :=
  (51, putBe 2 36 ++ (putBe 2 0x001d ++ (putBe 2 32 ++ List.replicate 32 9)))

/-- A ClientHello that offers `n / 2` cipher suites. -/
def hello (n : ℕ) (h : n < 65536) : Bytes :=
  helloMessage (List.replicate 34 0) (preamble n h) [keyShare]

variable (n : ℕ)

theorem take_hello (h : n < 65536) (beyond : ℕ → UInt8) :
    takeClientKeyshare (hello n h) beyond = some (Vector.replicate 32 9) ∧
      takeClientSid (hello n h) = some [] := by
  obtain ⟨hin, hexts⟩ := @helloExts_helloMessage (List.replicate 34 0) (preamble n h)
    [keyShare] (by simp) (by simp [keyShare, ExtFits])
    (by decide)
  have hkey : keyShareOf keyShare = some (Vector.replicate 32 9) := by decide
  constructor
  · rw [hello, takeClientKeyshare_of_inside hin, hexts, List.findSome?_cons, hkey]
  · exact takeClientSid_helloMessage (by simp) (by simp [preamble])

/-- The server behind the ClientHello. -/
def accepted (n : ℕ) (h : n < 65536) : Server := (server.recvInitial (hello n h) fun _ => 0).2

theorem accepted_eq (h : n < 65536) :
    (server.recvInitial (hello n h) fun _ => 0).1 = true ∧
      (accepted n h).phase = .chRecvd ∧ (accepted n h).sched.stage = 0 ∧
      (accepted n h).sdrv.serverPriv = (accepted n h).serverPriv ∧
      (accepted n h).sdrv.cert = [0x30, 0x00] ∧ (accepted n h).sdrv.odcid = [] ∧
      (accepted n h).sdrv.iscid = [] ∧ (accepted n h).sdrv.clientSid = [] ∧
      (accepted n h).sdrv.serverPub = Vector.replicate 32 3 ∧
      Sdrv.Hashes (accepted n h).sdrv.tr (hello n h) ∧
      (accepted n h).tr = (hello n h).take transcriptMax := by
  obtain ⟨hkey, hsid⟩ := take_hello n h fun _ => 0
  have hres : server.recvInitial (hello n h) (fun _ => 0) =
      (true, { Server.trAdd { server with sdrv := Sdrv.transcriptAdd { server.sdrv with
        clientPub := Vector.replicate 32 9, clientSid := [] } (hello n h) } (hello n h) with
          phase := .chRecvd }) := by
    rw [Server.recvInitial, if_neg (by simp [Server.init]), Sdrv.recvClientHello, hkey, hsid]
  rw [accepted, hres]
  exact ⟨rfl, rfl, rfl, rfl, rfl, rfl, rfl, rfl, rfl, rfl, rfl⟩

theorem length_hello (h : n < 65536) : (hello n h).length = 87 + n := by
  simp [hello, helloMessage, Preamble.encode, preamble, keyShare]
  omega

/-- The random of the ServerHello. -/
def random : Bytes32 := Vector.replicate 32 5

def serverHello : Bytes :=
  (shbuildServerHello random [] 0x1301 (Vector.replicate 32 3) 256).getD []

def encryptedExtensions : Bytes := (freshDriver.encryptedExtensions).getD []

def certificate : Bytes := (sflightCertificate [0x30, 0x00] 1024).getD []

/-- The CertificateVerify over a transcript. -/
def certificateVerify (transcriptHash : Digest) : Bytes :=
  hsMessage hsCertificateVerify (putBe 2 0x0403 ++ (putBe 2 32 ++
    (sha256 (signedContent transcriptHash)).toList))

theorem shared_eq (priv pub : Bytes32) :
    primitives.shared priv pub = some (Vector.replicate 32 1) := by
  rw [ServerPrimitives.shared]
  exact if_neg (show ¬ (Vector.replicate 32 1 : Bytes32) = Vector.replicate 32 0 by decide)

theorem shbuildServerHello_eq :
    shbuildServerHello random [] 0x1301 (Vector.replicate 32 3) 256 = some serverHello := by
  decide

variable {d : Sdrv}

theorem encryptedExtensions_eq (hodcid : d.odcid = []) (hiscid : d.iscid = []) :
    d.encryptedExtensions = some encryptedExtensions := by
  rw [Sdrv.encryptedExtensions, hodcid, hiscid]
  decide

theorem flightEnd_eq {P : ServerPrimitives} (hsign : P.p256Sign = primitives.p256Sign)
    {ecdhe : Bytes32} (hshared : P.shared d.serverPriv d.clientPub = some ecdhe) (sh : Bytes) :
    ∃ fin, Sdrv.flightEnd P d d.tr sh encryptedExtensions certificate =
      some (certificateVerify (Sha256.final (Sha256.update (Sha256.update (Sha256.update d.tr
        sh) encryptedExtensions) certificate)), fin) := by
  have hcv : ∀ hash : Digest, cvecdsaBuild (P.p256Sign d.p256Priv hash) 256 =
      some (hsMessage hsCertificateVerify (putBe 2 0x0403 ++ (putBe 2 32 ++ hash.toList))) := by
    intro hash
    simp [cvecdsaBuild, hsign, primitives]
  have hfin : ∀ key hash : Digest, ∃ fin, sflightFinished key hash 64 = some fin :=
    fun key hash => ⟨_, if_neg (by omega)⟩
  exact (hfin _ _).imp fun fin hfin => (Sdrv.flightEnd_eq_some hshared).2 ⟨hcv _, hfin⟩

theorem buildServerFlight_eq {P : ServerPrimitives} (hsign : P.p256Sign = primitives.p256Sign)
    {ecdhe : Bytes32} (hshared : P.shared d.serverPriv d.clientPub = some ecdhe) {sh : Bytes}
    (hsh : shbuildServerHello random d.clientSid 0x1301 d.serverPub 256 = some sh)
    (hcert : d.cert = [0x30, 0x00]) (hodcid : d.odcid = []) (hiscid : d.iscid = []) :
    ∃ flight, (d.buildServerFlight P random 256 2048).1 = some (sh, flight) ∧
      (encryptedExtensions ++ certificate ++ certificateVerify (Sha256.final (Sha256.update
        (Sha256.update (Sha256.update d.tr sh) encryptedExtensions) certificate))) <+: flight := by
  have hee := encryptedExtensions_eq hodcid hiscid
  have hmsg : sflightCertificate d.cert 1024 = some certificate := by
    rw [hcert]
    decide
  have hlen : encryptedExtensions.length ≤ 200 ∧ certificate.length ≤ 200 := by decide
  obtain ⟨fin, hend⟩ := flightEnd_eq hsign hshared sh
  have hfin := Server.length_of_flightEnd hend
  refine ⟨_, Sdrv.buildServerFlight_eq_some.2 ⟨hsh, _, _, _, fin, hee, hmsg, hend, rfl, ?_⟩,
    List.prefix_append _ fin⟩
  simp only [List.length_append, certificateVerify, length_hsMessage, length_putBe,
    Vector.length_toList, hfin]
  omega

theorem buildFlight_accepted (h : n < 65536) : ∃ flight,
    ((accepted n h).buildFlight primitives random 256 2048).1 = some (serverHello, flight) ∧
      ((accepted n h).sdrv.buildServerFlight primitives random 256 2048).1 =
        some (serverHello, flight) := by
  obtain ⟨-, hphase, hstage, hpriv, hcert, hodcid, hiscid, hsid, hpub, -, -⟩ := accepted_eq n h
  obtain ⟨flight, hdriver, -⟩ := buildServerFlight_eq rfl (shared_eq _ _)
    (by rw [hsid, hpub]; exact shbuildServerHello_eq) hcert hodcid hiscid
  obtain ⟨ecdhe, sched, -, -, -, hres⟩ :=
    Server.buildFlight_of_some primitives hpriv hphase hstage hdriver
  exact ⟨flight, congrArg Prod.fst hres, hdriver⟩

theorem trThroughSh_accepted (h : n < 65536) :
    let s := ((accepted n h).buildFlight primitives random 256 2048).2
    s.tr.take s.trThroughSh = (hello n h ++ serverHello).take transcriptMax := by
  obtain ⟨-, hphase, hstage, hpriv, -, -, -, -, -, -, htr⟩ := accepted_eq n h
  obtain ⟨flight, -, hdriver⟩ := buildFlight_accepted n h
  exact (Server.buildFlight_tr hpriv hphase hstage htr hdriver).1

theorem truncated (h : n < 65536) (hlong : transcriptMax < 87 + n) :
    (server.recvInitial (hello n h) fun _ => 0).1 = true ∧
      (∃ flight, ((accepted n h).buildFlight primitives random 256 2048).1 =
        some (serverHello, flight)) ∧
      (let s := ((accepted n h).buildFlight primitives random 256 2048).2
      (s.tr.take s.trThroughSh).length < (hello n h).length) := by
  obtain ⟨flight, hout, -⟩ := buildFlight_accepted n h
  refine ⟨(accepted_eq n h).1, ⟨flight, hout⟩, ?_⟩
  dsimp only
  rw [trThroughSh_accepted, List.length_take, length_hello]
  omega

end Sample

/-- A ClientHello of 5000 cipher suites is accepted and a flight is built behind it, but the bytes the
Handshake keys are computed from end inside the ClientHello. -/
theorem long_hello_truncated :
    (Sample.server.recvInitial (Sample.hello 10000 (by omega)) fun _ => 0).1 = true ∧
      (∃ flight, ((Sample.accepted 10000 (by omega)).buildFlight Sample.primitives Sample.random 256
        2048).1 = some (Sample.serverHello, flight)) ∧
      (let s := ((Sample.accepted 10000 (by omega)).buildFlight Sample.primitives Sample.random 256
        2048).2
      (s.tr.take s.trThroughSh).length < (Sample.hello 10000 (by omega)).length) :=
  Sample.truncated 10000 (by omega) (show 4096 < 87 + 10000 by omega)

/-- Behind a short ClientHello the two transcripts are one. -/
theorem transcript_exact_short : ∃ flight,
    let ops : List ServerOp := [.recvInitial (Sample.hello 2 (by omega)) fun _ => 0,
      .buildFlight Sample.random 256 2048]
    Server.TranscriptExact (Run.run (Server.step Sample.primitives) Sample.server ops)
      (Server.hashed Sample.primitives
        (Run.steps (Server.step Sample.primitives) Sample.server ops))
      (Sample.hello 2 (by omega)) Sample.serverHello flight := by
  obtain ⟨flight, hout, hdriver⟩ := Sample.buildFlight_accepted 2 (by omega)
  have hacc := (Sample.accepted_eq 2 (by omega)).1
  have hlen := Sample.length_hello 2 (by omega)
  have hsh : Sample.serverHello.length = 90 := by decide
  obtain ⟨-, -, -, -, -, -, -, -, -, hle⟩ := Sdrv.buildServerFlight_eq_some.1 hdriver
  refine ⟨flight, (Server.transcript_exact_iff Sample.primitives Sample.memory _ _ _ [] [] _ _
    Sample.random 256 2048 _ _ hacc hout).2.2.2 ⟨?_, ?_⟩⟩
  · have hmax : transcriptMax = 4096 := rfl
    simp only [List.length_append, hlen, hsh]
    omega
  · simp only [List.nil_append, Run.steps_cons, Run.steps_nil, Server.hashed, Server.folded,
      List.flatMap_cons, List.flatMap_nil, hacc, if_true, List.append_nil]

namespace Sample

/-- The server behind a call without room for the flight. -/
def failed : Server := ((accepted 2 (by omega)).buildFlight primitives random 256 0).2

theorem buildServerFlight_no_room {d : Sdrv} (hsid : d.clientSid = [])
    (hpub : d.serverPub = Vector.replicate 32 3) (hodcid : d.odcid = []) (hiscid : d.iscid = []) :
    (d.buildServerFlight primitives random 256 0).1 = none ∧
      d.foldedFlight primitives random 256 0 = serverHello := by
  have hee := encryptedExtensions_eq hodcid hiscid
  have hlen : 0 < encryptedExtensions.length := by decide
  constructor
  · by_contra hsome
    obtain ⟨⟨sh, flight⟩, hout⟩ := Option.ne_none_iff_exists'.1 hsome
    obtain ⟨-, ee, cert, cv, fin, hee', -, -, rfl, hle⟩ := Sdrv.buildServerFlight_eq_some.1 hout
    obtain rfl := Option.some.inj (hee.symm.trans hee')
    simp only [List.length_append] at hle
    omega
  · have hemit : ∀ (d' : Sdrv) (builds : List (Sdrv → Option Bytes)),
        d'.odcid = [] → d'.iscid = [] →
        Sdrv.emitted 0 (Sdrv.encryptedExtensions :: builds) d' [] = [] := by
      intro d' builds ho hi
      rw [Sdrv.emitted, encryptedExtensions_eq ho hi]
      exact if_pos hlen
    rw [Sdrv.foldedFlight, hsid, hpub, shbuildServerHello_eq]
    simp only [Sdrv.deriveSecret, shared_eq, Sdrv.flightMessages_eq, Sdrv.transcriptAdd]
    refine (congrArg (serverHello ++ ·) (hemit _ _ ?_ ?_)).trans (List.append_nil _)
    · exact hodcid
    · exact hiscid

theorem failed_eq :
    ((accepted 2 (by omega)).buildFlight primitives random 256 0).1 = none ∧
      Server.SameSetup failed.sdrv (accepted 2 (by omega)).sdrv ∧
      Sdrv.Hashes failed.sdrv.tr (hello 2 (by omega) ++ serverHello) := by
  obtain ⟨-, hphase, -, -, -, hodcid, hiscid, hsid, hpub, hhash, -⟩ := accepted_eq 2 (by omega)
  obtain ⟨hnone, hfolded⟩ := buildServerFlight_no_room hsid hpub hodcid hiscid
  have hsdrv := Server.buildFlight_sdrv (P := primitives) hphase random 256 0
  refine ⟨congrArg Prod.fst (Server.buildFlight_of_none primitives hphase hnone), ?_, ?_⟩
  · rw [failed, hsdrv]
    exact Server.sameSetup_buildServerFlight _ random 256 0
  · rw [failed, hsdrv, ← hfolded]
    exact (Sdrv.buildServerFlight_hashes hhash random 256 0).1

theorem certificateVerify_ne :
    certificateVerify (sha256 (hello 2 (by omega) ++ serverHello ++ encryptedExtensions ++
      certificate)) ≠
    certificateVerify (sha256 (hello 2 (by omega) ++ serverHello ++ serverHello ++
      encryptedExtensions ++ certificate)) := by
  simp only [certificateVerify, signedContent, toList_sha256]
  decide +kernel

end Sample

/-- A call without room for the flight is repeated with room: the flight that goes out signs a
transcript with two ServerHellos. -/
theorem retry_signs_two_hellos :
    ((Sample.accepted 2 (by omega)).buildFlight Sample.primitives Sample.random 256 0).1 = none ∧
      (Sample.failed.buildFlight Sample.primitives Sample.random 256 2048).1 ≠
        ((Sample.accepted 2 (by omega)).buildFlight Sample.primitives Sample.random 256 2048).1 := by
  obtain ⟨-, -, -, -, hcert, hodcid, hiscid, hsid, hpub, hhash, -⟩ :=
    Sample.accepted_eq 2 (by omega)
  obtain ⟨hnone, hsetup, hhash'⟩ := Sample.failed_eq
  obtain ⟨flight, hout, hdriver⟩ := Sample.buildFlight_accepted 2 (by omega)
  obtain ⟨flight₁, hdriver₁, hpre₁⟩ := Sample.buildServerFlight_eq rfl (Sample.shared_eq _ _)
    (by rw [hsid, hpub]; exact Sample.shbuildServerHello_eq) hcert hodcid hiscid
  obtain ⟨flight₂, hdriver₂, hpre₂⟩ := Sample.buildServerFlight_eq rfl (Sample.shared_eq _ _)
    (by rw [hsetup.clientSid, hsetup.serverPub, hsid, hpub]; exact Sample.shbuildServerHello_eq)
    (hsetup.cert.trans hcert) (hsetup.odcid.trans hodcid) (hsetup.iscid.trans hiscid)
  refine ⟨hnone, fun hsame => ?_⟩
  rw [hout] at hsame
  obtain ⟨-, hdriver'⟩ := Server.buildFlight_driver hsame
  obtain rfl : flight₁ = flight := by
    rw [hdriver] at hdriver₁
    exact (Prod.mk.inj (Option.some.inj hdriver₁)).2.symm
  obtain rfl : flight₂ = flight₁ := by
    rw [hdriver'] at hdriver₂
    exact (Prod.mk.inj (Option.some.inj hdriver₂)).2.symm
  rw [(((hhash.update _).update _).update _).final] at hpre₁
  rw [(((hhash'.update _).update _).update _).final] at hpre₂
  -- both flights start alike up to the CertificateVerify, which has a fixed length
  refine Sample.certificateVerify_ne ?_
  have hlen : ∀ h : Digest, (Sample.certificateVerify h).length = 40 := by
    intro h
    simp [Sample.certificateVerify]
  have hpre := List.prefix_of_prefix_length_le hpre₁ hpre₂ (by
    simp only [List.length_append, hlen, Nat.le_refl])
  exact List.append_cancel_left (hpre.eq_of_length (by
    simp only [List.length_append, hlen]))

/-- A call without room for the ServerHello can be repeated. -/
theorem retry_agrees_no_room :
    let s := Sample.accepted 2 (by omega)
    let failed := (s.buildFlight Sample.primitives Sample.random 0 2048).2
    (s.buildFlight Sample.primitives Sample.random 0 2048).1 = none ∧
      (failed.buildFlight Sample.primitives Sample.random 256 2048).1 =
        (s.buildFlight Sample.primitives Sample.random 256 2048).1 := by
  intro s failed
  obtain ⟨-, hphase, -⟩ := Sample.accepted_eq 2 (by omega)
  obtain ⟨flight, hout, -⟩ := Sample.buildFlight_accepted 2 (by omega)
  have hfail : (s.buildFlight Sample.primitives Sample.random 0 2048).1 = none := by
    refine congrArg Prod.fst (Server.buildFlight_of_none Sample.primitives hphase ?_)
    by_contra hsome
    obtain ⟨⟨sh, flight⟩, hdriver⟩ := Option.ne_none_iff_exists'.1 hsome
    have hsh := (Sdrv.buildServerFlight_eq_some.1 hdriver).1
    rw [shbuildServerHello, if_pos (by omega)] at hsh
    exact absurd hsh (by simp)
  have hagrees := (Server.retry_agrees_iff Sample.primitives s Sample.random 0 2048 256 2048
    Sample.serverHello flight hfail hout).2 (Or.inl (by omega))
  exact ⟨hfail, hagrees.1⟩

end Tls

end QuicVibe
