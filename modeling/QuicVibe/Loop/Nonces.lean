import QuicVibe.Loop.Session
/-!
# Packet numbers of the server

The loop numbers its Handshake packets from `hs_tx_pn` and its 1-RTT packets from `tx_pn`, and neither
counter hands out a number twice. But the handshake flight is sealed outside the loop, as Handshake
packet 0, and `hs_tx_pn` starts at 0 too.
-/

namespace QuicVibe

namespace Loop

open Crypto Packet Keys Http3 Tls

/-- The nonces of a trace: level, key and packet number of each sealed packet. -/
def nonces (trace : List Event) : List (Level × InitialKeys × ℕ) :=
  trace.filterMap fun
    | .sealed level k pn _ => some (level, k, pn)
    | .handled _ => none

@[simp] theorem nonces_append (t t' : List Event) : nonces (t ++ t') = nonces t ++ nonces t' :=
  List.filterMap_append

namespace ServerConn

variable {Ctx : Type} (aes : Block → Block → Block)

/-- The step seals a Handshake packet while the counter of the level is at 0. -/
def SealsZero (e : ServerConn Ctx × LoopOp) : Prop :=
  e.1.loop.hsDoneSent = false ∧ e.1.loop.hsTxPn = 0 ∧
    ((e.1.stepPackets aes e.2.1).1.emitHandshakeAck aes e.2.2).1.isSome

/-! ## One sealing -/

theorem Calls.nonces_eq {req : Option Request} {calls : List Event} (h : Calls req calls) :
    nonces calls = [] := by
  rcases h with rfl | ⟨r, -, rfl⟩ <;> rfl

section

variable {level : Level} {key : Option InitialKeys} {pn pn' : ℕ} {events : List Event}

theorem Seals.of_mem (h : Seals level key pn pn' events) {level' : Level} {k : InitialKeys} {n : ℕ}
    (hmem : (level', k, n) ∈ nonces events) : level' = level ∧ key = some k ∧ n = pn := by
  cases h with
  | kept => cases hmem
  | spent => cases hmem
  | sealed k packet hk =>
    obtain ⟨rfl, h⟩ := Prod.mk.inj (List.mem_singleton.1 hmem)
    obtain ⟨rfl, rfl⟩ := Prod.mk.inj h
    exact ⟨rfl, hk, rfl⟩

theorem Seals.counter_le (h : Seals level key pn pn' events) (hpn : pn + 1 < 2 ^ 64) :
    pn ≤ pn' ∧ pn' ≤ pn + 1 ∧ ∀ nonce ∈ nonces events, nonce.2.2 < pn' := by
  cases h with
  | kept => exact ⟨Nat.le_refl _, Nat.le_succ pn, by simp [nonces]⟩
  | spent =>
    rw [u64_of_lt hpn]
    exact ⟨Nat.le_succ pn, Nat.le_refl _, by simp [nonces]⟩
  | sealed k packet hk =>
    rw [u64_of_lt hpn]
    exact ⟨Nat.le_succ pn, Nat.le_refl _, by simp [nonces]⟩

theorem Seals.nodup (h : Seals level key pn pn' events) : (nonces events).Nodup := by
  cases h with
  | kept => exact List.nodup_nil
  | spent => exact List.nodup_nil
  | sealed k packet hk => exact List.nodup_singleton _

theorem Seals.exists_mem_iff (h : Seals level key pn pn' events) {n : ℕ} :
    (∃ k, (level, k, n) ∈ nonces events) ↔ events ≠ [] ∧ pn = n := by
  cases h with
  | kept => simp [nonces]
  | spent => simp [nonces]
  | sealed k packet hk => simp [nonces, eq_comm]

end

/-! ## The ledger -/

/-- The number the next packet of a level gets; the loop seals no Initial packet. -/
def counter (c : ServerConn Ctx) : Level → ℕ
  | .initial => 0
  | .handshake => c.loop.hsTxPn
  | .onertt => c.loop.txPn

/-- The nonces used are distinct, and below the counter of their level. -/
structure Ledger (counter : Level → ℕ) (used : List (Level × InitialKeys × ℕ)) : Prop where
  nodup : used.Nodup
  below : ∀ level k pn, (level, k, pn) ∈ used → pn < counter level

/-- **Sealing keeps the ledger**: the number the counter is at is above all numbers of the level. -/
theorem Ledger.extend {counter : Level → ℕ} {used : List (Level × InitialKeys × ℕ)}
    (h : Ledger counter used) {level : Level} {key : Option InitialKeys} {pn' : ℕ}
    {events : List Event} (hs : Seals level key (counter level) pn' events)
    (hpn : counter level + 1 < 2 ^ 64) :
    Ledger (Function.update counter level pn') (used ++ nonces events) := by
  obtain ⟨hle, -, hlt⟩ := hs.counter_le hpn
  constructor
  · refine List.nodup_append.2 ⟨h.nodup, hs.nodup, ?_⟩
    rintro ⟨l, k, pn⟩ hused _ hnew rfl
    obtain ⟨rfl, -, rfl⟩ := hs.of_mem hnew
    exact Nat.lt_irrefl _ (h.below l k _ hused)
  · intro l k pn hmem
    rcases List.mem_append.1 hmem with hmem | hmem
    · have hbelow := h.below l k pn hmem
      by_cases hl : l = level
      · subst hl
        rw [Function.update_self]
        omega
      · rwa [Function.update_of_ne hl]
    · obtain ⟨rfl, -, -⟩ := hs.of_mem hmem
      rw [Function.update_self]
      exact hlt _ hmem

/-- **A step of the loop** seals at most one packet of each level, each under the number its counter
is at. -/
theorem next_seals (c : ServerConn Ctx) (o : LoopOp) : ∃ hs calls one,
    (c.next aes o).trace = c.trace ++ (hs ++ (calls ++ one)) ∧ nonces calls = [] ∧
    Seals .handshake (c.server.sched.get .serverHs) (c.counter .handshake)
      ((c.next aes o).counter .handshake) hs ∧
    (∃ key, Seals .onertt key (c.counter .onertt) ((c.next aes o).counter .onertt) one) ∧
    (c.next aes o).server.sched.get .serverHs = c.server.sched.get .serverHs ∧
    (hs ≠ [] ∧ c.counter .handshake = 0 ↔ SealsZero aes (c, o)) := by
  have hrx := c.listens_stepPackets aes o.1
  have hkey := c.stepPackets_serverHs aes o.1
  obtain ⟨hs, calls, one, htx⟩ :=
    (c.stepPackets aes o.1).1.replies_produce aes (c.stepPackets aes o.1).2 o.2
  have hhs := htx.handshake
  have hone := htx.onertt
  have hpend := htx.pending
  rw [hrx.hsTxPn, hkey] at hhs
  rw [hrx.txPn] at hone
  rw [hrx.hsDoneSent] at hpend
  refine ⟨hs, calls, one, ?_, htx.handler.nonces_eq, ?_, ?_, ?_, ?_⟩
  · rw [next_eq, rearmReqacc_trace, htx.trace, hrx.trace]
  · rw [next_eq]
    simpa only [counter, rearmReqacc_hsTxPn] using hhs
  · rw [next_eq]
    exact ⟨_, by simpa only [counter, rearmReqacc_txPn] using hone⟩
  · rw [next_eq, rearmReqacc_server, htx.sched, hkey]
  · rw [hpend]
    constructor
    · rintro ⟨⟨hpending, hsome⟩, hzero⟩
      exact ⟨hpending, hzero, hsome⟩
    · rintro ⟨hpending, hzero, hsome⟩
      exact ⟨⟨hpending, hsome⟩, hzero⟩

/-! ## Runs -/

/-- The events of a run after the steps `past`: a ledger of its nonces, with the Handshake number 0
in it when a step sealed at a counter of 0. -/
structure Numbered (key : Option InitialKeys) (past : List (ServerConn Ctx × LoopOp))
    (events : List Event) (c : ServerConn Ctx) : Prop where
  ledger : Ledger c.counter (nonces events)
  keyed : ∀ k pn, (Level.handshake, k, pn) ∈ nonces events → key = some k
  zero : (∃ k, (Level.handshake, k, 0) ∈ nonces events) ↔ ∃ e ∈ past, SealsZero aes e
  serverHs : c.server.sched.get .serverHs = key
  bound : ∀ level, c.counter level ≤ past.length

theorem Numbered.next {key : Option InitialKeys} {past : List (ServerConn Ctx × LoopOp)}
    {events : List Event} {c : ServerConn Ctx} (h : Numbered aes key past events c)
    (hlen : past.length + 1 < 2 ^ 64) (o : LoopOp) :
    ∃ new, (c.next aes o).trace = c.trace ++ new ∧
      Numbered aes key (past ++ [(c, o)]) (events ++ new) (c.next aes o) := by
  obtain ⟨hs, calls, one, htrace, hcalls, hhs, ⟨key', hone⟩, hserver, hzero⟩ := c.next_seals aes o
  have hbhs := h.bound .handshake
  have hbone := h.bound .onertt
  rw [h.serverHs] at hhs
  have hnew : nonces (events ++ (hs ++ (calls ++ one))) =
      nonces events ++ nonces hs ++ nonces one := by simp [hcalls]
  have hupd : Function.update (Function.update c.counter .handshake
      ((c.next aes o).counter .handshake)) .onertt ((c.next aes o).counter .onertt) =
        (c.next aes o).counter := by
    funext level
    cases level <;> rfl
  obtain ⟨-, hhs', -⟩ := hhs.counter_le (by omega)
  obtain ⟨-, hone', -⟩ := hone.counter_le (by omega)
  refine ⟨_, htrace, ?_, ?_, ?_, hserver.trans h.serverHs, ?_⟩
  · rw [hnew, ← hupd]
    exact (h.ledger.extend hhs (by omega)).extend hone (by rw [Function.update_of_ne (by simp)]; omega)
  · intro k pn hmem
    rw [hnew, List.mem_append, List.mem_append] at hmem
    rcases hmem with (hmem | hmem) | hmem
    · exact h.keyed k pn hmem
    · exact (hhs.of_mem hmem).2.1
    · cases (hone.of_mem hmem).1
  · have hnone : ∀ k, (Level.handshake, k, 0) ∉ nonces one := fun k hmem => by
      cases (hone.of_mem hmem).1
    simp only [hnew, List.mem_append, hnone, or_false, exists_or, h.zero, hhs.exists_mem_iff, hzero,
      List.mem_singleton, or_and_right, exists_eq_left]
  · intro level
    rw [List.length_append, List.length_singleton]
    cases level with
    | initial => exact Nat.zero_le _
    | handshake => omega
    | onertt => omega

/-- **Every run is numbered**, from counters at 0 on. -/
theorem numbered_run (c₀ : ServerConn Ctx) (hhs : c₀.loop.hsTxPn = 0) (hone : c₀.loop.txPn = 0)
    {ops : List LoopOp} (hops : ops.length < 2 ^ 64) :
    ∃ events, (Run.run (next aes) c₀ ops).trace = c₀.trace ++ events ∧
      Numbered aes (c₀.server.sched.get .serverHs) (Run.steps (next aes) c₀ ops) events
        (Run.run (next aes) c₀ ops) := by
  rw [← Run.length_steps (next aes) c₀ ops] at hops
  revert hops
  refine Run.steps_history (P := fun past c => past.length < 2 ^ 64 → ∃ events,
    c.trace = c₀.trace ++ events ∧ Numbered aes (c₀.server.sched.get .serverHs) past events c)
    ?_ ?_ ops
  · intro past c o ih hpast
    rw [List.length_append, List.length_singleton] at hpast
    obtain ⟨events, htrace, h⟩ := ih (by omega)
    obtain ⟨new, hnew, h⟩ := h.next aes hpast o
    exact ⟨events ++ new, by rw [hnew, htrace, List.append_assoc], h⟩
  · intro _
    refine ⟨[], by simp, ⟨List.nodup_nil, by simp [nonces]⟩, by simp [nonces], by simp [nonces], rfl,
      fun level => ?_⟩
    cases level with
    | initial => exact Nat.le_refl _
    | handshake => exact Nat.le_of_eq hhs
    | onertt => exact Nat.le_of_eq hone

/-! ## The flight -/

/-- **Distinct nonces.** After the flight is sealed as the example server seals it, over any
received datagrams and any room for the replies: no two packets of a level are sealed under the
same key and the same packet number if and only if the flight's Handshake packet was not sealed or
no step seals a Handshake packet while `hs_tx_pn` is 0. -/
theorem nonces_nodup_iff (l₀ l : Srvloop Ctx) (cliScid : Bytes) (hinit : l₀.init cliScid = some l)
    (handler : Option (Ctx → Request → Option Body × Ctx)) (ctx : Ctx) (s : Server)
    (serverScid sh flight : Bytes) (ops : List LoopOp) (hops : ops.length < 2 ^ 64) :
    let c₀ := sealAndSend aes ⟨l.setHandler handler ctx, s, []⟩ serverScid sh flight
    (nonces (Run.run (next aes) c₀ ops).trace).Nodup ↔
      (∀ k p, Event.sealed .handshake k 0 p ∉ c₀.trace) ∨
        ∀ e ∈ Run.steps (next aes) c₀ ops, ¬ SealsZero aes e := by
  intro c₀
  have hl : l.hsTxPn = 0 ∧ l.txPn = 0 := by
    simp only [Srvloop.init] at hinit
    split at hinit
    · cases hinit
    · obtain rfl := Option.some.inj hinit
      exact ⟨rfl, rfl⟩
  obtain ⟨ini, hs, hc₀, hini, hhs⟩ :=
    sealAndSend_cases aes ⟨l.setHandler handler ctx, s, []⟩ serverScid sh flight
  have htrace : c₀.trace = ini ++ hs := by rw [show c₀ = _ from hc₀, List.nil_append]
  have hserver : c₀.server = s := by rw [show c₀ = _ from hc₀]
  have hloop : c₀.loop = l.setHandler handler ctx := by rw [show c₀ = _ from hc₀]
  obtain ⟨events, hrun, hnum⟩ := numbered_run aes c₀ (by rw [hloop]; exact hl.1)
    (by rw [hloop]; exact hl.2) hops
  rw [hserver] at hnum
  -- the loop itself never repeats a nonce and seals nothing at the Initial level
  have hinitial : ∀ k pn, (Level.initial, k, pn) ∉ nonces events := fun k pn hmem =>
    Nat.not_lt_zero _ (hnum.ledger.below _ _ _ hmem)
  have hno : (∀ e ∈ Run.steps (next aes) c₀ ops, ¬ SealsZero aes e) ↔
      ∀ k, (Level.handshake, k, 0) ∉ nonces events := by
    rw [← not_exists, hnum.zero]
    simp only [not_exists, not_and]
  -- nor does the Initial packet of the flight share its level with anything
  have hdrop : ∀ used : List (Level × InitialKeys × ℕ), (∀ k pn, (Level.initial, k, pn) ∉ used) →
      ((nonces ini ++ used).Nodup ↔ used.Nodup) := by
    intro used hused
    rcases hini with rfl | ⟨k, p, rfl⟩
    · exact Iff.rfl
    · exact List.nodup_cons.trans (and_iff_right (hused k 1))
  have hini' : ∀ k p, Event.sealed .handshake k 0 p ∉ ini := by
    rcases hini with rfl | ⟨k, p, rfl⟩ <;> simp
  rw [hrun, nonces_append, htrace, nonces_append, List.append_assoc, hno]
  rcases hhs with rfl | ⟨k, p, hk, rfl⟩
  · rw [show nonces [] = [] from rfl, List.nil_append, hdrop _ hinitial, List.append_nil]
    exact iff_of_true hnum.ledger.nodup (Or.inl hini')
  · have hflight : ¬ ∀ k' p', Event.sealed .handshake k' 0 p' ∉ ini ++ [.sealed .handshake k 0 p] :=
      fun h => h k p (by simp)
    rw [or_iff_right hflight, show nonces [.sealed .handshake k 0 p] = [(.handshake, k, 0)] from rfl,
      hdrop _ (by simpa using hinitial)]
    -- the flight's nonce is repeated exactly by a Handshake number 0, which has its key
    refine (List.nodup_cons.trans (and_iff_left hnum.ledger.nodup)).trans ⟨fun h k' hmem => ?_,
      fun h => h k⟩
    obtain rfl : k = k' := Option.some.inj (hk.symm.trans (hnum.keyed k' 0 hmem))
    exact h hmem

/-- The session in which the client's Finished is the first datagram. -/
theorem nonces_nodup_iff_session :
    Session.loopMemory.init [7, 7, 7, 7] =
      some ((Session.loopMemory.init [7, 7, 7, 7]).getD Session.loopMemory) ∧
    ((nonces (Run.run (next aes128) Session.started [(Session.finished, 1500)]).trace).Nodup ↔
      (∀ k p, Event.sealed .handshake k 0 p ∉ Session.started.trace) ∨
        ∀ e ∈ Run.steps (next aes128) Session.started [(Session.finished, 1500)],
          ¬ SealsZero aes128 e) :=
  ⟨rfl, nonces_nodup_iff aes128 Session.loopMemory _ [7, 7, 7, 7] rfl
    (some fun ctx _ => (none, ctx)) () Session.built.2 _ _ _ [(Session.finished, 1500)] (by decide)⟩

/-- **The confirmation repeats the nonce of the flight**: in that session the flight and the
Handshake packet of the reply are two packets under one key and the number 0. -/
theorem confirmation_repeats_nonce : ∃ k p q one, p ≠ q ∧
    Event.sealed .handshake k 0 p ∈ Session.started.trace ∧
    (Session.started.step aes128 Session.finished 1500).1 = some (q ++ one) ∧
    Event.sealed .handshake k 0 q ∈
      (Run.run (next aes128) Session.started [(Session.finished, 1500)]).trace ∧
    ¬ (nonces (Run.run (next aes128) Session.started [(Session.finished, 1500)]).trace).Nodup := by
  obtain ⟨sh, flight, hs, hbuilt, hlo, hhi, -, hstage, -, -, -, hiscid, -⟩ := Session.built_eq
  obtain ⟨server, k', q, one, hstep, hq, -, -⟩ :=
    Session.started.step_finished aes128 Session.awaiting 1500 (by decide)
  obtain ⟨hloop, hserver⟩ := Session.started_eq
  have hkey : Session.built.2.sched.get .serverHs =
      some (Session.built.2.sched.keys .serverHs) := by
    simp [Keysched.get, Keysched.available, hstage]
  obtain ⟨p, hp, hlen⟩ := sealed_mem_sealAndSend aes128 ⟨Session.loop, Session.built.2, []⟩ hkey
    Session.built.2.sdrv.iscid sh flight
    (by rw [hiscid]; decide) (by rw [hiscid]; decide) (by rintro rfl; simp at hlo) (by omega)
  have hstart : Event.sealed .handshake (Session.built.2.sched.keys .serverHs) 0 p ∈
      Session.started.trace := by
    rw [Session.started, hbuilt]
    exact hp
  have hrun : (Run.run (next aes128) Session.started [(Session.finished, 1500)]).trace =
      Session.started.trace ++ [.sealed .handshake (Session.built.2.sched.keys .serverHs) 0 q,
        .sealed .onertt k' Session.started.loop.txPn one] := by
    rw [Run.run_cons, Run.run_nil, next, Session.finished, hstep, hserver, hloop]
    rfl
  refine ⟨_, p, q, one, ?_, hstart, ?_, ?_, ?_⟩
  · rintro rfl
    omega
  · rw [Session.finished, hstep]
  · rw [hrun]
    simp
  · rw [hrun, nonces_append]
    intro hnodup
    have hmem : (Level.handshake, Session.built.2.sched.keys .serverHs, 0) ∈
        nonces Session.started.trace := List.mem_filterMap.2 ⟨_, hstart, rfl⟩
    exact (List.nodup_append.1 hnodup).2.2 _ hmem _ List.mem_cons_self rfl

end ServerConn

end Loop

end QuicVibe
