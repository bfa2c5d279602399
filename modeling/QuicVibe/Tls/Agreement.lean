import QuicVibe.Crypto.Sha256
import QuicVibe.Crypto.X25519.Ladder
import QuicVibe.Frame.CryptoStream
import QuicVibe.Tls.ServerHello
import QuicVibe.Tls.Transcript
/-!
# Do client and server agree on the Handshake keys?

The client writes its ClientHello (`quic_tlsdriver_raw_client_hello`), the server takes it and builds
its flight (`server.c`), and the ServerHello goes back to the client in CRYPTO frames, in any order
and with any overlap (`quic_client_feed`). Each half is followed to the keys its schedule then holds.
-/

namespace QuicVibe

namespace Tls

open Crypto Packet Keys QuicVibe.Stream
open QuicVibe.Frame

/-! ## Messages in CRYPTO frames -/

/-- The receive buffer of the driver, as a stream reader. -/
def CryptoRx.reader (r : CryptoRx) : StreamRead := { r := r.reasm, readOff := r.readUpto }

/-- The frames as pushes. -/
def pushes (fs : List CryptoFrame) : List ReadOp := fs.map fun f => .push f.offset f.data

section Reassembly

variable {S : Bytes} {r : CryptoRx}

theorem CryptoRx.recv_eq {f : CryptoFrame} (hcap : S.length ≤ reasmCap)
    (hin : f.offset + f.data.length ≤ S.length) (hopen : r.reasm.haveFinal = false) :
    (r.recv f).1 = true ∧ (r.recv f).2.readUpto = r.readUpto ∧
      (r.recv f).2.reasm.haveFinal = false ∧
      r.reader.push f.offset f.data = (true, (r.recv f).2.reader) := by
  have hmax : reasmCap = 4096 := rfl
  have hsum : u64 (f.offset + f.data.length) = f.offset + f.data.length := u64_of_lt (by omega)
  have hfits : r.reasm.insertFits f.offset f.data.length = true := by
    rw [Reasm.insertFits, hsum, if_neg (by omega), hopen]
    rfl
  simp only [CryptoRx.recv, StreamRead.push, CryptoRx.reader, Reasm.insert, hfits, if_true,
    true_and, and_true]
  exact hopen

theorem CryptoRx.feedFrames_eq (hcap : S.length ≤ reasmCap) (fs : List CryptoFrame)
    (hin : ∀ f ∈ fs, f.offset + f.data.length ≤ S.length) {fuel : ℕ} {t : Trace}
    (hfuel : (fs.flatMap cryptoBytes).length ≤ fuel) (hopen : r.reasm.haveFinal = false)
    (hr : t.s = r.reader) :
    ∃ r', CryptoRx.feedFrames fuel r (fs.flatMap cryptoBytes) = (true, r') ∧
      r'.readUpto = r.readUpto ∧ (Run.run Trace.step t (pushes fs)).s = r'.reader ∧
      (Run.run Trace.step t (pushes fs)).accepted =
        t.accepted ++ fs.map fun f => (f.offset, f.data) := by
  induction fs generalizing fuel r t with
  | nil =>
    refine ⟨r, ?_, rfl, hr, by simp [pushes]⟩
    cases fuel <;> rfl
  | cons f fs ih =>
    have hmax : reasmCap = 4096 := rfl
    have hvar : varintMax = 4611686018427387903 := rfl
    have hf := hin f (List.mem_cons_self ..)
    obtain ⟨-, hdec⟩ := hasWire_crypto (f := f) (by omega) (by omega)
    have hpos : 0 < (cryptoBytes f).length := by
      rw [cryptoBytes, varintEncode_type (by decide)]
      simp
    rw [List.flatMap_cons, List.length_append] at hfuel
    obtain ⟨fuel, rfl⟩ : ∃ n, fuel = n + 1 := ⟨fuel - 1, by omega⟩
    obtain ⟨hok, hupto, hopen', hpush⟩ := CryptoRx.recv_eq (r := r) hcap hf hopen
    have hstep : (t.step (.push f.offset f.data)).s = (r.recv f).2.reader ∧
        (t.step (.push f.offset f.data)).accepted = t.accepted ++ [(f.offset, f.data)] := by
      rw [← hr] at hpush
      simp only [Trace.step, hpush, if_true, and_self]
    obtain ⟨r', hfed, hread, hs, hacc⟩ :=
      ih (fun f hf => hin f (List.mem_cons_of_mem _ hf)) (show _ ≤ fuel by omega) hopen'
        hstep.1
    refine ⟨r', ?_, hread.trans hupto, hs, ?_⟩
    · have hne : (cryptoBytes f ++ fs.flatMap cryptoBytes).isEmpty = false := by
        rw [List.isEmpty_eq_false_iff, ← List.length_pos_iff, List.length_append]
        omega
      rw [List.flatMap_cons, CryptoRx.feedFrames, hne]
      simp only [Bool.false_eq_true, if_false, hdec, List.drop_left]
      generalize r.recv f = q at hok hfed
      obtain ⟨ok, r₁⟩ := q
      obtain rfl : ok = true := hok
      exact hfed
    · rw [pushes, List.map_cons, Run.run_cons, ← pushes, hacc, hstep.2]
      simp

/-- **Reassembly.** A fresh driver reads a packed message of at most 512 bytes off the frames. -/
theorem Tlsdriver.reassemble_packs {d : Tlsdriver} {fs : List CryptoFrame} (hpack : Packs S fs)
    (hne : S ≠ []) (hlen : S.length ≤ 512) (hopen : d.rx.reasm.haveFinal = false)
    (hfresh : d.rx.reader = d.rx.reader.init) :
    ∃ rx, d.reassemble (fs.flatMap cryptoBytes) = (some S, { d with rx := rx }) := by
  have hmax : reasmCap = 4096 := rfl
  obtain ⟨r, hfed, hupto, hs, hacc⟩ := CryptoRx.feedFrames_eq (by omega) fs hpack.within
    (Nat.le_refl _) hopen (show (Trace.start d.rx.reader).s = d.rx.reader from hfresh.symm)
  -- every frame is a push that agrees with the message
  have hinv := Trace.inv_run (S := S) d.rx.reader (pushes fs) (by
    intro op hop
    obtain ⟨f, hf, rfl⟩ := List.mem_map.1 hop
    have hin := hpack.within f hf
    exact ⟨by omega, by omega, hpack.agrees f hf⟩)
  have hcov : CoveredPrefix (Run.run Trace.step (Trace.start d.rx.reader) (pushes fs)).accepted
      S.length := by
    rw [hacc]
    refine ⟨hpack.covers, fun n hn => ?_⟩
    by_contra hlt
    obtain ⟨p, hp, -, hi⟩ := hn S.length (by omega)
    obtain ⟨f, hf, rfl⟩ := List.mem_map.1 hp
    have hin := hpack.within f hf
    dsimp only at hi
    omega
  have hdeliver := hinv.coveredPrefix_deliver.unique hcov
  have hbuf := hinv.take_drop_buf (a := 0) (n := S.length) (by omega) fun i hi _ hlt =>
    (hinv.has_iff i hi).2 (hcov.1 i (by omega))
  rw [hs] at hdeliver hbuf
  have hzero : r.readUpto = 0 := by
    rw [hupto]
    exact congrArg StreamRead.readOff hfresh
  have hread : r.read 512 = (some S, { reasm := r.reasm.deliver.2, readUpto := S.length }) := by
    have hd : r.reasm.deliver.1 = S.length := hdeliver
    have hsub : sub64 S.length 0 = S.length := sub64_of_le (by omega) (by omega)
    rw [CryptoRx.read, hzero]
    simp only [hd, hsub]
    rw [if_neg (by omega), Nat.zero_add, u64_of_lt (by omega)]
    refine congrArg (Prod.mk · _) (congrArg some ?_)
    exact hbuf.trans List.take_length
  refine ⟨{ reasm := r.reasm.deliver.2, readUpto := S.length }, ?_⟩
  simp only [Tlsdriver.reassemble, CryptoRx.feedAll, hfed, hread]
  simp [hne]

end Reassembly

/-! ## The keys a schedule holds -/

/-- The schedule hands out the Handshake keys of this shared secret over this transcript. -/
structure HoldsKeys (ks : Keysched) (ecdhe : Bytes32) (transcript : Bytes) : Prop where
  client : ks.get .clientHs = some (handshakeKeys (handshakeSecret ecdhe) transcript false)
  server : ks.get .serverHs = some (handshakeKeys (handshakeSecret ecdhe) transcript true)

/-- Both schedules hand out Handshake keys, and the same ones. -/
def SameHandshakeKeys (a b : Keysched) : Prop :=
  ∀ which ∈ [KsWhich.clientHs, .serverHs], ∃ k, a.get which = some k ∧ b.get which = some k

theorem advanceHandshake_eq {st : Keysched} (hstage : st.stage = 0) (ecdhe : Bytes32)
    (transcript : Bytes) :
    ∃ ks, st.advanceHandshake ecdhe.toList transcript = some ks ∧
      HoldsKeys ks ecdhe transcript := by
  rw [Keysched.advanceHandshake, if_pos ⟨hstage, by simp⟩, Bytes.fit_toList]
  exact ⟨_, rfl, rfl, rfl⟩

theorem sameHandshakeKeys_iff {a b : Keysched} {ecdhe ecdhe' : Bytes32} {tr tr' : Bytes}
    (ha : HoldsKeys a ecdhe tr) (hb : HoldsKeys b ecdhe' tr') :
    SameHandshakeKeys a b ↔ ∀ isServer, handshakeKeys (handshakeSecret ecdhe) tr isServer =
      handshakeKeys (handshakeSecret ecdhe') tr' isServer := by
  simp only [SameHandshakeKeys, List.mem_cons, List.not_mem_nil, or_false, forall_eq_or_imp,
    forall_eq, ha.client, ha.server, hb.client, hb.server, Option.some.injEq, exists_eq_left',
    Bool.forall_bool]
  exact and_congr eq_comm eq_comm

/-! ## The server -/

namespace Server

variable {P : ServerPrimitives} {s : Server} {ecdhe : Bytes32}

theorem shared_eq_some {P : ServerPrimitives} {priv pub : Bytes32} :
    P.shared priv pub = some ecdhe ↔
      P.x25519 priv pub = ecdhe ∧ ecdhe ≠ Vector.replicate 32 0 := by
  rw [ServerPrimitives.shared]
  split
  · rename_i hzero
    simp only [reduceCtorEq, false_iff, not_and_not_right]
    rintro rfl
    exact hzero
  · rename_i hzero
    rw [Option.some.injEq]
    exact ⟨fun h => ⟨h, h ▸ hzero⟩, fun h => h.1⟩

theorem installHsKeys_holdsKeys (hstage : s.sched.stage = 0)
    (hshared : P.shared s.serverPriv s.sdrv.clientPub = some ecdhe) :
    (installHsKeys P s).1 = true ∧
      HoldsKeys (installHsKeys P s).2.sched ecdhe (s.tr.take s.trThroughSh) := by
  obtain ⟨ks, hks, hholds⟩ := advanceHandshake_eq hstage ecdhe (s.tr.take s.trThroughSh)
  simp only [installHsKeys, hshared, hks, hholds.server, true_and]
  exact hholds

/-- **What the server derives**: keys of its shared secret over the recorded transcript. -/
theorem buildFlight_holdsKeys (hpriv : s.sdrv.serverPriv = s.serverPriv)
    (hstage : s.sched.stage = 0) {ch : Bytes} (htr : s.tr = ch.take transcriptMax)
    {random : Bytes32} {shCap flightCap : ℕ} {sh flight : Bytes}
    (hbuild : (s.buildFlight P random shCap flightCap).1 = some (sh, flight)) :
    HoldsKeys (s.buildFlight P random shCap flightCap).2.sched
      (P.x25519 s.serverPriv s.sdrv.clientPub) ((ch ++ sh).take transcriptMax) := by
  obtain ⟨hphase, hdriver⟩ := buildFlight_driver hbuild
  obtain ⟨-, hc, -, -, hsome⟩ := buildServerFlight_spec P s.sdrv random shCap flightCap
  obtain ⟨ecdhe, hshared, -⟩ := hsome _ hdriver
  rw [hpriv] at hshared
  rw [(shared_eq_some.1 hshared).1, buildFlight_eq P hphase]
  generalize s.sdrv.buildServerFlight P random shCap flightCap = r at hdriver hc ⊢
  obtain ⟨out, sdrv⟩ := r
  obtain rfl : out = some (sh, flight) := hdriver
  obtain ⟨hok, hholds⟩ := installHsKeys_holdsKeys (P := P)
    (s := recordFlight { s with sdrv := sdrv } sh flight) hstage
    (by rw [← hshared]; exact congrArg _ hc)
  rw [(recordFlight_tr (s := { s with sdrv := sdrv }) htr sh flight).1] at hholds
  simp only [hok, if_true]
  exact hholds

end Server

/-! ## The client -/

/-- `quic_tlsdriver_raw_client_hello` with a server name. -/
def Tlsdriver.rawClientHello (d : Tlsdriver) (sni : Bytes) (cap : ℕ) : Option Bytes :=
  clientHello (Vector.replicate 32 0) d.myPub sni [0] cap

namespace Client

variable {Store : Type} {C : ClientPrimitives Store} {sh : Bytes} {hello : ServerHello}

/-- The driver of a client that read a ServerHello: it gives up on an all-zero shared secret, and
otherwise holds the keys of the secret over the ServerHello alone. -/
theorem deriveHandshake_holdsKeys {d : Tlsdriver} (hrole : d.isServer = false)
    (hstage : d.ks.stage = 0) (hparse : parseServerHello sh = some hello) (beyond : ℕ → UInt8) :
    let ecdhe := C.x25519 d.myPriv hello.serverPub
    let r := d.deriveHandshake C sh beyond
    (ecdhe = Vector.replicate 32 0 ∧ r.1 = false ∧ r.2.ks.stage = 0) ∨
      (ecdhe ≠ Vector.replicate 32 0 ∧ r.1 = true ∧ r.2.hsReady = true ∧
        HoldsKeys r.2.ks ecdhe sh) := by
  intro ecdhe r
  have hpeer : d.peerKeyshare sh beyond = some hello.serverPub := by
    rw [Tlsdriver.peerKeyshare, hrole, hparse]
    rfl
  obtain ⟨ks, hks, hholds⟩ := advanceHandshake_eq hstage ecdhe sh
  by_cases hzero : ecdhe = Vector.replicate 32 0
  · have hr : r = (false, { d with shared := ecdhe }) := by
      simp only [r, Tlsdriver.deriveHandshake, hpeer]
      exact if_pos hzero
    rw [hr]
    exact Or.inl ⟨hzero, rfl, hstage⟩
  · have hr : r = (true, Tlsdriver.installHandshakeKeys { d with shared := ecdhe, ks := ks }) := by
      simp only [r, Tlsdriver.deriveHandshake, hpeer]
      rw [if_neg hzero, hks]
    refine Or.inr ⟨hzero, ?_⟩
    simp only [hr, Tlsdriver.installHandshakeKeys, hholds.client, true_and]
    exact hholds

/-- **What the client derives**: keys of its shared secret over the ServerHello alone. -/
theorem feed_holdsKeys (m : Client Store) (now : ℕ) (myPriv myPub : Bytes32) (host : Bytes)
    {fs : List CryptoFrame} (hpack : Packs sh fs) (hlen : sh.length ≤ 512)
    (hparse : parseServerHello sh = some hello) (beyond : ℕ → UInt8) :
    let ecdhe := C.x25519 myPriv hello.serverPub
    let c := (m.init now myPriv myPub host).feed C (fs.flatMap cryptoBytes) beyond
    (ecdhe = Vector.replicate 32 0 ∧ c.1 = false ∧ c.2.tls.ks.stage = 0) ∨
      (ecdhe ≠ Vector.replicate 32 0 ∧ c.1 = true ∧ HoldsKeys c.2.tls.ks ecdhe sh) := by
  intro ecdhe c
  have hne : sh ≠ [] := by
    rintro rfl
    cases hparse
  obtain ⟨rx, hre⟩ := Tlsdriver.reassemble_packs (d := m.tls.init myPriv myPub false) hpack hne hlen
    rfl rfl
  have hderive := deriveHandshake_holdsKeys (C := C)
    (d := { m.tls.init myPriv myPub false with rx := rx }) rfl rfl hparse beyond
  have hc : c = feedInitial C (m.init now myPriv myPub host) (fs.flatMap cryptoBytes) beyond := rfl
  have hrecv : (m.init now myPriv myPub host).tls.recvCrypto C (fs.flatMap cryptoBytes) beyond =
      Tlsdriver.deriveHandshake C { m.tls.init myPriv myPub false with rx := rx } sh beyond := by
    rw [Tlsdriver.recvCrypto, show (m.init now myPriv myPub host).tls.reassemble _ = _ from hre]
  rw [feedInitial, hrecv] at hc
  generalize Tlsdriver.deriveHandshake C _ sh beyond = r at hderive hc
  obtain ⟨ok, d⟩ := r
  rcases hderive with ⟨hzero, hok, hstage⟩ | ⟨hzero, hok, hready, hholds⟩
  · obtain rfl : ok = false := hok
    rw [hc]
    exact Or.inl ⟨hzero, rfl, hstage⟩
  · obtain rfl : ok = true := hok
    simp only [Fullhs.init, show d.hsReady = true from hready] at hc
    rw [hc]
    exact Or.inr ⟨hzero, rfl, hholds⟩

end Client

/-! ## Both ends -/

/-- A ClientHello as the client writes it, in front of a fresh server. -/
structure Greeted (s : Server) (spriv spub cpub : Bytes32) (ch : Bytes) : Prop where
  phase : s.phase = .chRecvd
  driverPriv : s.sdrv.serverPriv = s.serverPriv
  serverPriv : s.serverPriv = spriv
  serverPub : s.sdrv.serverPub = spub
  clientPub : s.sdrv.clientPub = cpub
  clientSid : s.sdrv.clientSid = []
  stage : s.sched.stage = 0
  tr : s.tr = ch.take transcriptMax

variable {P : ServerPrimitives} {random cpub : Bytes32} {ch : Bytes} {label : String}

/-- **The server takes the ClientHello** of the client. -/
theorem greeted_recvInitial (m : Server) (spriv spub seed : Bytes32) (odcid iscid : Bytes)
    {sni tp : Bytes} {cap : ℕ} (hch : clientHello random cpub sni tp cap = some ch)
    (beyond : ℕ → UInt8) :
    let r := ((Server.init P m spriv spub seed).setCids odcid iscid).2.recvInitial ch beyond
    r.1 = true ∧ Greeted r.2 spriv spub cpub ch := by
  intro r
  obtain ⟨hkey, hsid⟩ := take_clientHello hch beyond
  obtain ⟨o, i, hset⟩ := Server.setCids_frame (Server.init P m spriv spub seed).sdrv odcid iscid
  have hr : r = Server.recvInitial { Server.init P m spriv spub seed with
      sdrv := { (Server.init P m spriv spub seed).sdrv with odcid := o, iscid := i } } ch beyond := by
    rw [← hset]
    rfl
  rw [Server.recvInitial, if_neg (by simp [Server.init]), Sdrv.recvClientHello, hkey, hsid] at hr
  rw [hr]
  exact ⟨rfl, rfl, rfl, rfl, rfl, rfl, rfl, rfl, rfl⟩

theorem parse_of_buildFlight {s : Server} {spriv spub : Bytes32}
    (h : Greeted s spriv spub cpub ch) {shCap flightCap : ℕ} {sh flight : Bytes}
    (hbuild : (s.buildFlight P random shCap flightCap).1 = some (sh, flight)) :
    sh.length = 90 ∧ parseServerHello sh =
      some { serverPub := spub, cipher := 0x1301, version := some 0x0304 } := by
  obtain ⟨hsh, -⟩ := Sdrv.buildServerFlight_eq_some.1 (Server.buildFlight_driver hbuild).2
  rw [h.clientSid, h.serverPub, shbuildServerHello_eq (by simp) (by omega)] at hsh
  split at hsh
  · rw [← Option.some.inj hsh]
    have hparse := parseServerHello_encode (builtHello random [] 0x1301 spub (by simp) (by omega)) []
    rw [List.append_nil, read_builtHello] at hparse
    refine ⟨?_, hparse⟩
    simp [HelloFields.encode, HelloFields.length_body, builtHello]
  · cases hsh

/-- **Client and server** hold the same Handshake keys exactly when the client's shared secret is
not all zero and the keys of its secret over the ServerHello are those of the server's secret over
ClientHello and ServerHello, for both directions. The ClientHello is always accepted, and the client
takes the ServerHello in whatever CRYPTO frames it comes. -/
theorem handshake_keys_agree_iff {Store : Type} (P : ServerPrimitives) (C : ClientPrimitives Store)
    (client : Client Store) (server : Server) (now : ℕ) (cpriv cpub spriv spub seed random : Bytes32)
    (host odcid iscid ch sh flight : Bytes) (beyond beyond' : ℕ → UInt8)
    (chCap shCap flightCap : ℕ) (fs : List CryptoFrame) :
    let c := client.init now cpriv cpub host
    let s := ((Server.init P server spriv spub seed).setCids odcid iscid).2.recvInitial ch beyond
    let built := s.2.buildFlight P random shCap flightCap
    let fed := c.feed C (fs.flatMap cryptoBytes) beyond'
    c.tls.rawClientHello host chCap = some ch → built.1 = some (sh, flight) → Packs sh fs →
      s.1 = true ∧ (fed.1 = true ↔ C.x25519 cpriv spub ≠ Vector.replicate 32 0) ∧
        (SameHandshakeKeys fed.2.tls.ks built.2.sched ↔
          C.x25519 cpriv spub ≠ Vector.replicate 32 0 ∧
            ∀ isServer, handshakeKeys (handshakeSecret (C.x25519 cpriv spub)) sh isServer =
              handshakeKeys (handshakeSecret (P.x25519 spriv cpub)) (ch ++ sh) isServer) := by
  intro c s built fed hch hbuild hpack
  obtain ⟨hacc, hgreet⟩ := greeted_recvInitial (P := P) server spriv spub seed odcid iscid hch beyond
  obtain ⟨hlen, hparse⟩ := parse_of_buildFlight hgreet hbuild
  have hserver : HoldsKeys built.2.sched (P.x25519 spriv cpub) (ch ++ sh) := by
    have hholds := Server.buildFlight_holdsKeys hgreet.driverPriv hgreet.stage hgreet.tr hbuild
    rw [hgreet.serverPriv, hgreet.clientPub, List.take_of_length_le] at hholds
    · exact hholds
    · obtain ⟨⟨hsni, -, -⟩, rfl⟩ := clientHello_eq_some.1 hch
      have hmax : transcriptMax = 4096 := rfl
      have hexts := length_clientExts c.tls.myPub host [0]
      simp only [helloMessage, List.length_append, length_hsMessage, length_putBe,
        Vector.length_toList, Preamble.length_encode, vec, clientPreamble, hexts, hlen,
        List.length_cons, List.length_nil]
      split <;> omega
  refine ⟨hacc, ?_⟩
  rcases Client.feed_holdsKeys (C := C) client now cpriv cpub host hpack (by omega) hparse beyond'
    with ⟨hzero, hfail, hstage⟩ | ⟨hzero, hok, hholds⟩
  · have hnone : fed.2.tls.ks.get .clientHs = none := by
      simp [Keysched.get, Keysched.available, show fed.2.tls.ks.stage = 0 from hstage]
    refine ⟨by simp [fed, c, hfail, show C.x25519 cpriv spub = _ from hzero], ?_⟩
    constructor
    · intro hsame
      obtain ⟨k, hk, -⟩ := hsame .clientHs (by simp)
      rw [hnone] at hk
      cases hk
    · exact fun h => absurd hzero h.1
  · exact ⟨⟨fun _ => hzero, fun _ => hok⟩, (sameHandshakeKeys_iff hholds hserver).trans
      ⟨fun h => ⟨hzero, h⟩, fun h => h.2⟩⟩

/-! ## Evaluating the key schedule -/

theorem toList_expandLabel (secret : Digest) {ctx : Bytes} {len : ℕ}
    (hlabel : (ascii label).length ≤ 64) (hctx : ctx.length ≤ 64) (hpos : 0 < len)
    (hlen : len ≤ 32) :
    (expandLabel secret label ctx len).toList =
      (hmacBytes secret.toList (buildLabel (ascii label) ctx len ++ [1])).take len := by
  have hsome := hkdfExpandLabel_eq_some secret hlabel hctx (by omega : len ≤ 255 * 32)
  rw [hkdfExpandLabel, if_neg (by omega), hkdfExpand] at hsome
  split at hsome
  · have hone : (len + 31) / 32 = 1 := by omega
    rw [← Option.some.inj hsome, hone, expandBlocks, expandBlocks, List.append_nil, expandBlock,
      List.nil_append, Bytes.toList_fit (by simpa using hlen), toList_hmacSha256 (by simp)]
  · cases hsome

theorem toList_deriveSecret (secret : Digest) (hlabel : (ascii label).length ≤ 64)
    (messages : Bytes) :
    (deriveSecret secret label messages).toList =
      (hmacBytes secret.toList
        (buildLabel (ascii label) (Sha256.hashBytes messages) 32 ++ [1])).take 32 := by
  rw [deriveSecret, toList_expandLabel secret hlabel (by simp) (by omega) (by omega), toList_sha256]

/-! ## The key pairs of RFC 7748 -/

namespace Rfc7748

/-- The private keys of section 6.1, their public keys and the shared secret. -/
def clientPriv : Bytes32 :=
  #v[0x77, 0x07, 0x6d, 0x0a, 0x73, 0x18, 0xa5, 0x7d, 0x3c, 0x16, 0xc1, 0x72, 0x51, 0xb2, 0x66, 0x45,
     0xdf, 0x4c, 0x2f, 0x87, 0xeb, 0xc0, 0x99, 0x2a, 0xb1, 0x77, 0xfb, 0xa5, 0x1d, 0xb9, 0x2c, 0x2a]

def clientPub : Bytes32 :=
  #v[0x85, 0x20, 0xf0, 0x09, 0x89, 0x30, 0xa7, 0x54, 0x74, 0x8b, 0x7d, 0xdc, 0xb4, 0x3e, 0xf7, 0x5a,
     0x0d, 0xbf, 0x3a, 0x0d, 0x26, 0x38, 0x1a, 0xf4, 0xeb, 0xa4, 0xa9, 0x8e, 0xaa, 0x9b, 0x4e, 0x6a]

def serverPriv : Bytes32 :=
  #v[0x5d, 0xab, 0x08, 0x7e, 0x62, 0x4a, 0x8a, 0x4b, 0x79, 0xe1, 0x7f, 0x8b, 0x83, 0x80, 0x0e, 0xe6,
     0x6f, 0x3b, 0xb1, 0x29, 0x26, 0x18, 0xb6, 0xfd, 0x1c, 0x2f, 0x8b, 0x27, 0xff, 0x88, 0xe0, 0xeb]

def serverPub : Bytes32 :=
  #v[0xde, 0x9e, 0xdb, 0x7d, 0x7b, 0x7d, 0xc1, 0xb4, 0xd3, 0x5b, 0x61, 0xc2, 0xec, 0xe4, 0x35, 0x37,
     0x3f, 0x83, 0x43, 0xc8, 0x5b, 0x78, 0x67, 0x4d, 0xad, 0xfc, 0x7e, 0x14, 0x6f, 0x88, 0x2b, 0x4f]

def secret : Bytes32 :=
  #v[0x4a, 0x5d, 0x9d, 0x5b, 0xa4, 0xce, 0x2d, 0xe1, 0x72, 0x8e, 0x3b, 0xf4, 0x80, 0x35, 0x0f, 0x25,
     0xe0, 0x7e, 0x21, 0xc9, 0x47, 0xd1, 0x9e, 0x33, 0x76, 0xf0, 0x9b, 0x3c, 0x1e, 0x16, 0x17, 0x42]

/-- The coordinate of the base point. -/
def basePoint : Bytes32 := Bytes.fit 32 [9]

def x25519 (scalar point : Bytes32) : Bytes32 := Bytes.fit 32 (X25519.rfcX25519 scalar point)

theorem x25519_eq : x25519 clientPriv basePoint = clientPub ∧
    x25519 serverPriv basePoint = serverPub ∧ x25519 clientPriv serverPub = secret ∧
    x25519 serverPriv clientPub = secret := by
  simp only [x25519, X25519.rfcX25519_eq_nat]
  decide +kernel

theorem secret_ne_zero : secret ≠ Vector.replicate 32 0 := by decide

def serverPrimitives : ServerPrimitives := { Sample.primitives with x25519 := x25519 }

def clientPrimitives : ClientPrimitives Unit := { Repeated.primitives with x25519 := x25519 }

def clientMemory : Client Unit where
  tls := Repeated.memory
  hs := Repeated.client.start
  phase := .initial
  shTranscript := []
  host := []
  now := 0
  castore := none

def client : Client Unit := clientMemory.init 20260101000000 clientPriv clientPub (ascii "example.org")

def clientHello : Bytes := (client.tls.rawClientHello (ascii "example.org") 512).getD []

/-- The server behind the ClientHello. -/
def greeted : Bool × Server :=
  ((Server.init serverPrimitives Sample.memory serverPriv serverPub (Vector.replicate 32 4)).setCids
    [] []).2.recvInitial clientHello fun _ => 0

def serverHello : Bytes := (shbuildServerHello Sample.random [] 0x1301 serverPub 256).getD []

/-- The ServerHello in frames of 64 bytes. -/
def frames : Bytes := (cryptoStreamEmit serverHello 0 64 256).getD []

theorem exchange_eq :
    client.tls.rawClientHello (ascii "example.org") 512 = some clientHello ∧
      (clientHello ++ serverHello).length ≤ transcriptMax ∧
      greeted.2.sdrv.cert = [0x30, 0x00] ∧ greeted.2.sdrv.odcid = [] ∧
      greeted.2.sdrv.iscid = [] := by
  decide +kernel

theorem rawClientHello_eq :
    client.tls.rawClientHello (ascii "example.org") 512 = some clientHello := exchange_eq.1

theorem cryptoStreamEmit_eq : cryptoStreamEmit serverHello 0 64 256 = some frames := by
  decide

theorem greeted_eq : greeted.1 = true ∧ Greeted greeted.2 serverPriv serverPub clientPub clientHello :=
  greeted_recvInitial Sample.memory _ _ _ [] [] rawClientHello_eq fun _ => 0

/-- The server builds its flight. -/
def built : Option (Bytes × Bytes) × Server :=
  greeted.2.buildFlight serverPrimitives Sample.random 256 2048

/-- The client takes the ServerHello. -/
def fed : Bool × Client Unit := client.feed clientPrimitives frames fun _ => 0

theorem built_eq : ∃ flight, built.1 = some (serverHello, flight) := by
  obtain ⟨-, h⟩ := greeted_eq
  have hshared : serverPrimitives.shared greeted.2.sdrv.serverPriv greeted.2.sdrv.clientPub =
      some secret := by
    rw [h.driverPriv, h.serverPriv, h.clientPub]
    exact Server.shared_eq_some.2 ⟨x25519_eq.2.2.2, secret_ne_zero⟩
  have hsh : shbuildServerHello Sample.random greeted.2.sdrv.clientSid 0x1301
      greeted.2.sdrv.serverPub 256 = some serverHello := by
    rw [h.clientSid, h.serverPub]
    decide
  obtain ⟨-, -, hcert, hodcid, hiscid⟩ := exchange_eq
  obtain ⟨flight, hdriver, -⟩ := Sample.buildServerFlight_eq (P := serverPrimitives) rfl hshared
    hsh hcert hodcid hiscid
  obtain ⟨ecdhe, sched, -, -, -, hres⟩ :=
    Server.buildFlight_of_some serverPrimitives h.driverPriv h.phase h.stage hdriver
  exact ⟨flight, congrArg Prod.fst hres⟩

theorem frames_eq : ∃ fs : List CryptoFrame, frames = fs.flatMap cryptoBytes ∧ Packs serverHello fs :=
  packs_of_emit (by decide) cryptoStreamEmit_eq

theorem built_holdsKeys : HoldsKeys built.2.sched secret (clientHello ++ serverHello) := by
  obtain ⟨-, h⟩ := greeted_eq
  obtain ⟨flight, hbuild⟩ := built_eq
  have hholds := Server.buildFlight_holdsKeys h.driverPriv h.stage h.tr hbuild
  rw [h.serverPriv, h.clientPub, List.take_of_length_le exchange_eq.2.1] at hholds
  have hsecret : serverPrimitives.x25519 serverPriv clientPub = secret := x25519_eq.2.2.2
  rwa [hsecret, ← built] at hholds

theorem fed_holdsKeys : fed.1 = true ∧ HoldsKeys fed.2.tls.ks secret serverHello := by
  obtain ⟨-, h⟩ := greeted_eq
  obtain ⟨flight, hbuild⟩ := built_eq
  obtain ⟨hlen, hparse⟩ := parse_of_buildFlight h hbuild
  obtain ⟨fs, hframes, hpack⟩ := frames_eq
  have hsecret : clientPrimitives.x25519 clientPriv serverPub = secret := x25519_eq.2.2.1
  rcases Client.feed_holdsKeys (C := clientPrimitives) clientMemory 20260101000000 clientPriv
    clientPub (ascii "example.org") hpack (by omega) hparse fun _ => 0
    with ⟨hzero, -⟩ | ⟨-, hok, hholds⟩
  · exact absurd (hsecret.symm.trans hzero) secret_ne_zero
  · rw [hsecret] at hholds
    rw [← hframes, ← client, ← fed] at hok hholds
    exact ⟨hok, hholds⟩

/-- The handshake secret of the shared secret. -/
def hsSecret : Digest :=
  #v[0xe4, 0xe5, 0x20, 0xf8, 0xca, 0x63, 0x9e, 0x65, 0x62, 0x12, 0x1a, 0x8d, 0x00, 0x6b, 0xbc, 0xe3,
     0xe0, 0x12, 0xf0, 0x49, 0x74, 0x48, 0x06, 0xf2, 0x83, 0xe9, 0x9c, 0x54, 0xca, 0xb7, 0x13, 0xf3]

theorem toList_iv (transcript : Bytes) :
    (handshakeKeys hsSecret transcript true).iv.toList =
      (hmacBytes ((hmacBytes hsSecret.toList (buildLabel (ascii "s hs traffic")
        (Sha256.hashBytes transcript) 32 ++ [1])).take 32)
        (buildLabel (ascii "quic iv") [] 12 ++ [1])).take 12 := by
  have htraffic : (ascii "s hs traffic").length ≤ 64 := by rw [ascii_eq]; decide
  have hiv : (ascii "quic iv").length ≤ 64 := by rw [ascii_eq]; decide
  rw [← toList_deriveSecret hsSecret htraffic transcript]
  exact toList_expandLabel _ hiv (by simp) (by omega) (by omega)

theorem handshakeKeys_ne : handshakeKeys (handshakeSecret secret) serverHello true ≠
    handshakeKeys (handshakeSecret secret) (clientHello ++ serverHello) true := by
  have hlabel : (ascii "derived").length ≤ 64 := by rw [ascii_eq]; decide
  have hsecret : handshakeSecret secret = hsSecret := by
    refine Vector.toList_inj.1 ?_
    rw [handshakeSecret, hkdfExtract, toList_hmacSha256 (by simp), toList_deriveSecret _ hlabel,
      hkdfExtract, toList_hmacSha256 (by simp)]
    decide +kernel
  rw [hsecret]
  intro h
  have hiv := congrArg (fun k => k.iv.toList) h
  rw [toList_iv, toList_iv] at hiv
  exact absurd hiv (by decide +kernel)

end Rfc7748

/-- The ClientHello and the ServerHello of the two key pairs are exchanged, both sides succeed, and
their Handshake keys differ. -/
theorem handshake_keys_differ :
    Rfc7748.greeted.1 = true ∧ (∃ flight, Rfc7748.built.1 = some (Rfc7748.serverHello, flight)) ∧
      cryptoStreamEmit Rfc7748.serverHello 0 64 256 = some Rfc7748.frames ∧
      Rfc7748.fed.1 = true ∧
      ¬ SameHandshakeKeys Rfc7748.fed.2.tls.ks Rfc7748.built.2.sched := by
  obtain ⟨hok, hholds⟩ := Rfc7748.fed_holdsKeys
  refine ⟨Rfc7748.greeted_eq.1, Rfc7748.built_eq, Rfc7748.cryptoStreamEmit_eq, hok, fun hsame => ?_⟩
  exact Rfc7748.handshakeKeys_ne
    ((sameHandshakeKeys_iff hholds Rfc7748.built_holdsKeys).1 hsame true)

/-- The exchange meets the hypotheses. -/
theorem handshake_keys_agree_rfc7748 : Rfc7748.greeted.1 = true ∧ Rfc7748.fed.1 = true := by
  obtain ⟨flight, hbuild⟩ := Rfc7748.built_eq
  obtain ⟨fs, hframes, hpack⟩ := Rfc7748.frames_eq
  obtain ⟨hacc, hok, -⟩ := handshake_keys_agree_iff Rfc7748.serverPrimitives
    Rfc7748.clientPrimitives Rfc7748.clientMemory Sample.memory 20260101000000 Rfc7748.clientPriv
    Rfc7748.clientPub Rfc7748.serverPriv Rfc7748.serverPub (Vector.replicate 32 4) Sample.random
    (ascii "example.org") [] [] Rfc7748.clientHello Rfc7748.serverHello flight (fun _ => 0)
    (fun _ => 0) 512 256 2048 fs Rfc7748.rawClientHello_eq hbuild hpack
  rw [← hframes, ← Rfc7748.client, ← Rfc7748.fed] at hok
  have hsecret : Rfc7748.clientPrimitives.x25519 Rfc7748.clientPriv Rfc7748.serverPub =
      Rfc7748.secret := Rfc7748.x25519_eq.2.2.1
  rw [hsecret] at hok
  exact ⟨hacc, hok.2 Rfc7748.secret_ne_zero⟩

end Tls

end QuicVibe
