import QuicVibe.Common.Bytes
import QuicVibe.Common.Run
/-!
# Two endpoints that update their keys

Two endpoints run the generation counter of `keyupdate.c` against each other over a network that keeps
every packet ever sent. What keeps the generations together is the wait: an endpoint that waits for
nothing is not ahead of its peer, and only such an endpoint moves on its own, by one.
-/

namespace QuicVibe

namespace Keys

structure Keyupdate where
  gen : ℕ
  lowest : ℕ
  updating : Bool
  deriving DecidableEq, Repr

namespace Keyupdate

def init : Keyupdate := ⟨0, 0, false⟩

def advance (k : Keyupdate) : Keyupdate :=
  let gen := u64 (k.gen + 1)
  { k with gen := gen, lowest := sub64 gen 1 }

def initiate (k : Keyupdate) : Bool × Keyupdate :=
  if k.updating then (false, k) else (true, { k.advance with updating := true })

def acked (k : Keyupdate) : Keyupdate := { k with updating := false }

def follow (k : Keyupdate) : Bool × Keyupdate :=
  if k.updating then (false, k) else (true, k.advance)

def canDecrypt (k : Keyupdate) (g : ℕ) : Bool :=
  decide (g ≥ k.lowest) && decide (g ≤ u64 (k.gen + 1))

/-- The retained generations are the current one and, once there was an update, the one before. -/
def Retains (k : Keyupdate) : Prop := k.lowest = k.gen - 1

theorem advance_eq {k : Keyupdate} (hgen : k.gen + 1 < 2 ^ 64) :
    k.advance = { k with gen := k.gen + 1, lowest := k.gen } := by
  have hlow : sub64 (k.gen + 1) 1 = k.gen := sub64_of_le (by omega) hgen
  simp only [advance, u64_of_lt hgen, hlow]

theorem canDecrypt_iff {k : Keyupdate} (hgen : k.gen + 1 < 2 ^ 64) {g : ℕ} :
    k.canDecrypt g = true ↔ k.lowest ≤ g ∧ g ≤ k.gen + 1 := by
  simp [canDecrypt, u64_of_lt hgen]

end Keyupdate

/-! ## The network -/

/-- The two endpoints. -/
inductive Side
  | client
  | server
  deriving DecidableEq, Repr

namespace Side

/-- The other endpoint. -/
def peer : Side → Side
  | client => server
  | server => client

@[simp] theorem peer_peer (p : Side) : p.peer.peer = p := by cases p <;> rfl

theorem ne_peer (p : Side) : p.peer ≠ p := by cases p <;> decide

end Side

/-- A 1-RTT packet: its sender, the generation of the keys that protect it, and whether it carries
an acknowledgement. -/
structure UpdatePacket where
  sender : Side
  gen : ℕ
  ack : Bool
  deriving DecidableEq, Repr

/-- Both endpoints and every packet sent so far. -/
structure UpdateSession where
  ends : Side → Keyupdate
  net : List UpdatePacket

/-- What can happen: an endpoint starts an update, sends a packet, or calls `follow` or `acked` on a
packet that it receives. -/
inductive UpdateEvent
  | initiate (p : Side)
  | send (p : Side) (ack : Bool)
  | recvFollow (p : Side) (pkt : UpdatePacket)
  | recvAcked (p : Side) (pkt : UpdatePacket)
  deriving DecidableEq, Repr

namespace UpdateSession

/-- Both endpoints as `quic_keyupdate_init` leaves them. -/
def start : UpdateSession := ⟨fun _ => .init, []⟩

/-- The packet was sent to the endpoint. -/
def reaches (s : UpdateSession) (p : Side) (pkt : UpdatePacket) : Prop :=
  pkt ∈ s.net ∧ pkt.sender = p.peer

instance (s : UpdateSession) (p : Side) (pkt : UpdatePacket) : Decidable (s.reaches p pkt) :=
  inferInstanceAs (Decidable (_ ∧ _))

/-- The endpoint after a call. -/
def set (s : UpdateSession) (p : Side) (k : Keyupdate) : UpdateSession :=
  { s with ends := Function.update s.ends p k }

/-- One event. `follow` is called only on a packet of the generation after the own one, `acked` only
on an acknowledgement in a packet of the own generation; other receptions change nothing. -/
def step (s : UpdateSession) : UpdateEvent → UpdateSession
  | .initiate p => s.set p (s.ends p).initiate.2
  | .send p ack => { s with net := s.net ++ [⟨p, (s.ends p).gen, ack⟩] }
  | .recvFollow p pkt =>
    if s.reaches p pkt ∧ pkt.gen = (s.ends p).gen + 1 then s.set p (s.ends p).follow.2 else s
  | .recvAcked p pkt =>
    if s.reaches p pkt ∧ pkt.gen = (s.ends p).gen ∧ pkt.ack then s.set p (s.ends p).acked else s

/-! ## The invariant -/

/-- The invariant of a session in which at most `n` events happened. -/
structure Inv (n : ℕ) (s : UpdateSession) : Prop where
  count : ∀ p, (s.ends p).gen ≤ n
  retains : ∀ p, (s.ends p).Retains
  /-- No packet is ahead of its sender. -/
  net : ∀ pkt ∈ s.net, pkt.gen ≤ (s.ends pkt.sender).gen
  near : ∀ p, (s.ends p).gen ≤ (s.ends p.peer).gen + 1
  /-- An endpoint that waits for nothing is not ahead of its peer. -/
  settled : ∀ p, (s.ends p).updating = false → (s.ends p).gen ≤ (s.ends p.peer).gen

theorem inv_start : start.Inv 0 where
  count _ := le_rfl
  retains _ := rfl
  net := by simp [start]
  near _ := Nat.zero_le 1
  settled _ _ := le_rfl

variable {n : ℕ} {s : UpdateSession}

theorem Inv.mono (h : s.Inv n) : s.Inv (n + 1) :=
  { h with count := fun p => (h.count p).trans (Nat.le_succ n) }

@[simp] theorem set_self (s : UpdateSession) (p : Side) (k : Keyupdate) : (s.set p k).ends p = k :=
  Function.update_self ..

@[simp] theorem set_peer (s : UpdateSession) (p : Side) (k : Keyupdate) :
    (s.set p k).ends p.peer = s.ends p.peer :=
  Function.update_of_ne p.ne_peer ..

theorem eq_or_eq_peer (p q : Side) : q = p ∨ q = p.peer := by
  cases p <;> cases q <;> simp [Side.peer]

/-- **A call of one endpoint** keeps the invariant if it moves the generation by at most one, not
behind and not past what the invariant allows. -/
theorem Inv.set (h : s.Inv n) {p : Side} {k : Keyupdate} (hle : (s.ends p).gen ≤ k.gen)
    (hstep : k.gen ≤ (s.ends p).gen + 1) (hk : k.Retains)
    (hnear : k.gen ≤ (s.ends p.peer).gen + 1)
    (hsettled : k.updating = false → k.gen ≤ (s.ends p.peer).gen) : (s.set p k).Inv (n + 1) where
  count q := by
    have hcount := h.count p
    rcases eq_or_eq_peer p q with rfl | rfl
    · rw [set_self]
      omega
    · rw [set_peer]
      exact (h.count _).trans (Nat.le_succ n)
  retains q := by
    rcases eq_or_eq_peer p q with rfl | rfl
    · rwa [set_self]
    · rw [set_peer]
      exact h.retains _
  net pkt hpkt := by
    have hold := h.net pkt hpkt
    rcases eq_or_eq_peer p pkt.sender with heq | heq
    · rw [heq, set_self]
      rw [heq] at hold
      exact hold.trans hle
    · rw [heq, set_peer]
      rwa [heq] at hold
  near q := by
    rcases eq_or_eq_peer p q with rfl | rfl
    · rwa [set_self, set_peer]
    · rw [set_peer, Side.peer_peer, set_self]
      have hpeer := h.near p.peer
      rw [Side.peer_peer] at hpeer
      omega
  settled q hq := by
    rcases eq_or_eq_peer p q with rfl | rfl
    · rw [set_self] at hq ⊢
      rw [set_peer]
      exact hsettled hq
    · rw [set_peer] at hq ⊢
      rw [Side.peer_peer, set_self]
      have hpeer := h.settled p.peer hq
      rw [Side.peer_peer] at hpeer
      exact hpeer.trans hle

theorem Inv.gen_le_of_reaches (h : s.Inv n) {p : Side} {pkt : UpdatePacket}
    (hpkt : s.reaches p pkt) : pkt.gen ≤ (s.ends p.peer).gen := by
  have hnet := h.net pkt hpkt.1
  rwa [hpkt.2] at hnet

/-- **One event** keeps the invariant. -/
theorem Inv.step (h : s.Inv n) (hn : n + 1 < 2 ^ 64) (e : UpdateEvent) :
    (s.step e).Inv (n + 1) := by
  have hgen : ∀ p, (s.ends p).gen + 1 < 2 ^ 64 := fun p => by
    have hcount := h.count p
    omega
  cases e with
  | initiate p =>
    simp only [UpdateSession.step, Keyupdate.initiate]
    by_cases hup : (s.ends p).updating = true
    · rw [if_pos hup]
      exact h.set le_rfl (Nat.le_succ _) (h.retains p) (h.near p) (h.settled p)
    · -- an endpoint that starts an update waits for nothing, so the peer has caught up
      rw [if_neg hup, Keyupdate.advance_eq (hgen p)]
      have hcaught := h.settled p (by simpa using hup)
      refine h.set (Nat.le_succ _) le_rfl rfl (Nat.succ_le_succ hcaught) ?_
      intro hfalse
      cases hfalse
  | send p ack =>
    refine { h.mono with net := fun pkt hpkt => ?_ }
    rcases List.mem_append.1 hpkt with hold | hnew
    · exact h.net pkt hold
    · rw [List.mem_singleton.1 hnew]
      exact le_rfl
  | recvFollow p pkt =>
    simp only [UpdateSession.step]
    split
    · rename_i hrecv
      have hpeer := h.gen_le_of_reaches hrecv.1
      simp only [Keyupdate.follow]
      by_cases hup : (s.ends p).updating = true
      · rw [if_pos hup]
        exact h.set le_rfl (Nat.le_succ _) (h.retains p) (h.near p) (h.settled p)
      · rw [if_neg hup, Keyupdate.advance_eq (hgen p)]
        have hreached : (s.ends p).gen + 1 ≤ (s.ends p.peer).gen := by omega
        exact h.set (Nat.le_succ _) le_rfl rfl (hreached.trans (Nat.le_succ _))
          fun _ => hreached
    · exact h.mono
  | recvAcked p pkt =>
    simp only [UpdateSession.step]
    split
    · rename_i hrecv
      have hpeer := h.gen_le_of_reaches hrecv.1
      refine h.set le_rfl (Nat.le_succ _) (h.retains p) (h.near p) fun _ => ?_
      rw [hrecv.2.1] at hpeer
      exact hpeer
    · exact h.mono

theorem inv_run (events : List UpdateEvent) (hlen : events.length < 2 ^ 64) :
    (Run.run step start events).Inv events.length := by
  refine Run.run_history (P := fun past s => Inv past.length s) events inv_start
    fun past e hpre hinv => ?_
  have hlt := hpre.length_le
  rw [List.length_append, List.length_singleton] at hlt ⊢
  exact hinv.step (by omega) e

/-- **Key update synchronisation.** Whatever the two endpoints and the network do, the generations
are at most one apart; each endpoint can decrypt what the peer sends at the generation the peer is
at; and a packet of the peer that arrives late can be decrypted for as long as the endpoint has not
moved two generations past it. The counters have 64 bits, so the run is shorter than their range. -/
theorem key_update_synchronised (events : List UpdateEvent) (hlen : events.length + 1 < 2 ^ 64)
    (p : Side) :
    let s := Run.run step start events
    ((s.ends p).gen ≤ (s.ends p.peer).gen + 1 ∧ (s.ends p.peer).gen ≤ (s.ends p).gen + 1) ∧
    (s.ends p).canDecrypt (s.ends p.peer).gen = true ∧
    ∀ pkt, s.reaches p pkt →
      ((s.ends p).canDecrypt pkt.gen = true ↔ (s.ends p).lowest ≤ pkt.gen) := by
  intro s
  have hinv : s.Inv events.length := inv_run events (by omega)
  have hpeer := hinv.near p.peer
  rw [Side.peer_peer] at hpeer
  have hcount := hinv.count p
  have hretains : (s.ends p).lowest = (s.ends p).gen - 1 := hinv.retains p
  have hnear := hinv.near p
  have hgen : (s.ends p).gen + 1 < 2 ^ 64 := by omega
  refine ⟨⟨hnear, hpeer⟩, ?_, fun pkt hpkt => ?_⟩
  · rw [Keyupdate.canDecrypt_iff hgen]
    omega
  · rw [Keyupdate.canDecrypt_iff hgen]
    have hsent := hinv.gen_le_of_reaches hpkt
    exact ⟨And.left, fun hlow => ⟨hlow, hsent.trans hpeer⟩⟩

/-- Both endpoints start an update at once, each takes the other's packet as the acknowledgement,
and the server goes on to the next generation, which the client follows. -/
def crossedUpdates : List UpdateEvent :=
  [.initiate .client, .initiate .server, .send .client true, .send .server true,
    .recvAcked .client ⟨.server, 1, true⟩, .recvAcked .server ⟨.client, 1, true⟩,
    .initiate .server, .send .server false, .recvFollow .client ⟨.server, 2, false⟩]

theorem key_update_synchronised_crossedUpdates :
    let s := Run.run step start crossedUpdates
    ((s.ends .client).gen = 2 ∧ (s.ends .server).gen = 2 ∧ crossedUpdates.length + 1 < 2 ^ 64) ∧
    (s.ends .client).canDecrypt (s.ends .server).gen = true ∧
    (s.ends .server).canDecrypt (s.ends .client).gen = true := by
  have hlen : crossedUpdates.length + 1 < 2 ^ 64 := by decide
  exact ⟨⟨by decide, by decide, hlen⟩, (key_update_synchronised crossedUpdates hlen .client).2.1,
    (key_update_synchronised crossedUpdates hlen .server).2.1⟩

end UpdateSession

end Keys

end QuicVibe
