import QuicVibe.Conn.AckSpaces
import QuicVibe.Conn.SendEffects
/-!
# Every packet sent is tracked

Beside the connection runs the list of the packets that are still to be acknowledged, each with its
level (`Outstanding`). A packet is lost from the table when it is full, and when an ACK of another
level takes it out.
-/

namespace QuicVibe

namespace Conn

open Packet Recovery Crypto Run Connio

/-- A connection with the packets it returned that are not yet acknowledged. -/
structure Outstanding where
  io : Connio
  packets : List (Level × ℕ)

namespace Outstanding

variable (aes : Block → Block → Block)

def start (memory : Connio) (isServer : Bool) (byte0 : UInt8) (dcid : Bytes)
    (initialMaxData : ℕ) : Outstanding :=
  { io := memory.init isServer byte0 dcid initialMaxData, packets := [] }

/-- The packet is acknowledged: an ACK of its level covers its number. -/
def ackedBy (level : Level) (payload : Bytes) (p : Level × ℕ) : Bool :=
  p.1 == level && payloadAcks payload p.2

/-- A returned packet is outstanding until an ACK of its level covers it. -/
def step (s : Outstanding) (o : ConnioOp) : Outstanding where
  io := s.io.step aes o
  packets :=
    match o with
    | .send level frames cap => (s.io.sealedBy aes (.send level frames cap)).toList ++ s.packets
    | .recv level datagram =>
      match s.io.opens aes level datagram with
      | none => s.packets
      | some payload => s.packets.filter fun p => !ackedBy level payload p
    | _ => s.packets

/-- Every outstanding packet has its number in the table. -/
def Tracked (s : Outstanding) : Prop := ∀ p ∈ s.packets, p.2 ∈ s.io.loop.sent.tracked

/-- A returned packet finds a free slot, or its number in the table; an ACK covers no packet that is
outstanding at another level. -/
def Keeps (s : Outstanding) : ConnioOp → Prop
  | .send level frames cap => s.io.Sends level frames cap →
    s.io.loop.sent.freeSlot < sentpktCap ∨ s.io.tx.get level ∈ s.io.loop.sent.tracked
  | .recv level datagram => ∀ payload, s.io.opens aes level datagram = some payload →
    ∀ p ∈ s.packets, payloadAcks payload p.2 = true → p.1 = level
  | _ => True

/-- Every slot in use is in flight. -/
def Settled (s : Outstanding) : Prop := s.io.loop.sent.Settled

variable {s : Outstanding}

/-! ## One call -/

theorem Settled.step (h : s.Settled) (o : ConnioOp) : (s.step aes o).Settled := by
  unfold Settled Outstanding.step
  cases o with
  | send level frames cap =>
    have hloop := s.io.send_loop aes level frames cap
    simp only [Connio.step, hloop]
    rcases s.io.loop.onSend_cases level.val (s.io.tx.get level) frames.length with
      ⟨-, hsend⟩ | ⟨-, hsend⟩
    · rw [hsend]
      exact h
    · rw [hsend]
      exact Sentpkt.Settled.onSend h _ _ _ _
  | pto level pn len =>
    simp only [Connio.step]
    rcases s.io.loop.onPto_cases level.val pn len with hpto | hpto
    · rw [hpto]
      exact h
    · rw [hpto]
      exact Sentpkt.Settled.onSend h _ _ _ _
  | recv level datagram =>
    simp only [Connio.step]
    rw [s.io.recv_sent aes level datagram]
    cases s.io.opens aes level datagram with
    | none => exact h
    | some payload => exact Sentpkt.Settled.remove h _
  | close peerClosed =>
    simp only [Connio.step, Connloop.close_sent]
    exact h
  | install | progress | validate => exact h

theorem mem_tracked_send_iff (io : Connio) (level : Level) (frames : Bytes) (cap n : ℕ) :
    n ∈ (io.step aes (.send level frames cap)).loop.sent.tracked ↔ n ∈ io.loop.sent.tracked ∨
      io.loop.sendOk level.val frames.length = true ∧ n = io.tx.get level ∧
        io.loop.sent.freeSlot < sentpktCap := by
  have hloop := io.send_loop aes level frames cap
  simp only [Connio.step, hloop]
  rcases io.loop.onSend_cases level.val (io.tx.get level) frames.length with ⟨hok, hsend⟩ | ⟨hok, hsend⟩
  · rw [hsend, hok]
    exact (or_iff_left fun h => absurd h.1 Bool.false_ne_true).symm
  · rw [hsend, and_iff_right hok]
    exact io.loop.sent.mem_tracked_onSend_iff (io.tx.get level) 0 true frames.length n

/-- Sends that return a packet need a slot for it; the others may add to the table only. -/
theorem Tracked.send_iff (h : s.Tracked) (level : Level) (frames : Bytes) (cap : ℕ) :
    (s.step aes (.send level frames cap)).Tracked ↔ s.Keeps aes (.send level frames cap) := by
  have hmem := mem_tracked_send_iff aes s.io level frames cap
  have hold : ∀ p ∈ s.packets,
      p.2 ∈ (s.io.step aes (.send level frames cap)).loop.sent.tracked :=
    fun p hp => (hmem p.2).2 (.inl (h p hp))
  unfold Tracked Keeps Outstanding.step
  simp only [sealedBy_send]
  by_cases hsends : s.io.Sends level frames cap
  · rw [if_pos hsends]
    simp only [Option.toList_some, List.singleton_append, List.forall_mem_cons, hmem,
      hsends, forall_const]
    constructor
    · rintro ⟨hin | ⟨-, -, hslot⟩, -⟩
      · exact .inr hin
      · exact .inl hslot
    · intro hroom
      refine ⟨?_, fun p hp => .inl (h p hp)⟩
      rcases hroom with hslot | hin
      · exact .inr ⟨hsends.1, trivial, hslot⟩
      · exact .inl hin
  · rw [if_neg hsends]
    exact iff_of_true hold fun hyes => absurd hyes hsends

theorem Tracked.recv_iff (h : s.Tracked) (hsettled : s.Settled) (level : Level) (datagram : Bytes) :
    (s.step aes (.recv level datagram)).Tracked ↔ s.Keeps aes (.recv level datagram) := by
  have hsent := s.io.recv_sent aes level datagram
  unfold Tracked Keeps Outstanding.step
  simp only [Connio.step, hsent]
  cases s.io.opens aes level datagram with
  | none =>
    refine iff_of_true h ?_
    intro payload hpayload
    cases hpayload
  | some payload =>
    simp only [Option.some.injEq, forall_eq', List.mem_filter,
      Sentpkt.mem_tracked_remove_iff hsettled, ackedBy]
    constructor
    · intro hleft p hp hack
      by_contra hlevel
      have hgone := (hleft p ⟨hp, by simp [hlevel]⟩).2
      rw [hack] at hgone
      cases hgone
    · rintro hkeeps p ⟨hp, hnot⟩
      refine ⟨h p hp, ?_⟩
      cases hack : payloadAcks payload p.2 with
      | false => rfl
      | true => simp [hkeeps p hp hack, hack] at hnot

/-- **One call** keeps the packets tracked exactly when it is one of the good ones. -/
theorem Tracked.step_iff (h : s.Tracked) (hsettled : s.Settled) (o : ConnioOp) :
    (s.step aes o).Tracked ↔ s.Keeps aes o := by
  cases o with
  | send level frames cap => exact h.send_iff aes level frames cap
  | recv level datagram => exact h.recv_iff aes hsettled level datagram
  | pto level pn len =>
    refine iff_of_true ?_ trivial
    unfold Tracked Outstanding.step
    simp only [Connio.step]
    rcases s.io.loop.onPto_cases level.val pn len with hpto | hpto
    · rw [hpto]
      exact h
    · rw [hpto]
      intro p hp
      exact (Sentpkt.mem_tracked_onSend_iff _ _ _ _ _ _).2 (.inl (h p hp))
  | close peerClosed =>
    refine iff_of_true ?_ trivial
    unfold Tracked Outstanding.step
    simp only [Connio.step, Connloop.close_sent]
    exact h
  | install | progress | validate => exact iff_of_true h trivial

/-- **The packets of a run stay tracked** until they are acknowledged exactly when each of them finds
room in the table and no ACK reaches over to another level. -/
theorem tracked_iff (memory : Connio) (isServer : Bool) (byte0 : UInt8) (dcid : Bytes)
    (initialMaxData : ℕ) (ops : List ConnioOp) :
    (∀ past, past <+: ops →
        (run (step aes) (start memory isServer byte0 dcid initialMaxData) past).Tracked) ↔
      ∀ e ∈ steps (step aes) (start memory isServer byte0 dcid initialMaxData) ops,
        e.1.Keeps aes e.2 := by
  exact run_holds_iff (P := Settled) (R := Tracked) (G := fun s o => s.Keeps aes o)
    (Sentpkt.settled_init _) (fun _ hp => absurd hp List.not_mem_nil)
    (fun s o hs => hs.step aes o) (fun s o hs h => h.step_iff aes hs o)

/-! ## The 257th packet -/

/-- The packets of a connection that only sends pile up, under numbers that do not repeat. -/
theorem packets_pings (n : ℕ) (s : Outstanding) (h : Unhindered s.io)
    (hroom : s.io.tx.get levelInitial + n < 2 ^ 64)
    (hbelow : ∀ p ∈ s.packets, p.2 < s.io.tx.get levelInitial)
    (hnodup : (s.packets.map (·.2)).Nodup) :
    ((run (step aes) s (List.replicate n ping)).packets.map (·.2)).Nodup ∧
      (run (step aes) s (List.replicate n ping)).packets.length = s.packets.length + n := by
  induction n generalizing s with
  | zero => exact ⟨hnodup, rfl⟩
  | succ n ih =>
    obtain ⟨hnext, hseal⟩ := h.step aes
    have hpackets : (s.step aes ping).packets =
        (levelInitial, s.io.tx.get levelInitial) :: s.packets := by
      unfold ping at hseal
      unfold Outstanding.step ping
      simp only [hseal]
      rfl
    have htx : (s.step aes ping).io.tx.get levelInitial = s.io.tx.get levelInitial + 1 := by
      have hstep := s.io.step_tx aes ping
      rw [hseal] at hstep
      unfold Outstanding.step
      simp only [hstep]
      rw [Vector.get_eq_getElem, Vector.getElem_set_self, u64_of_lt (by omega)]
    obtain ⟨hnodup', hlen⟩ := ih (s.step aes ping) hnext (by rw [htx]; omega)
      (by
        rw [hpackets, htx, List.forall_mem_cons]
        exact ⟨Nat.lt_succ_self _, fun p hp => Nat.lt_succ_of_lt (hbelow p hp)⟩)
      (by
        rw [hpackets, List.map_cons, List.nodup_cons]
        refine ⟨fun hmem => ?_, hnodup⟩
        obtain ⟨p, hp, hpn⟩ := List.mem_map.1 hmem
        have := hbelow p hp
        omega)
    rw [List.replicate_succ, run_cons]
    refine ⟨hnodup', hlen.trans ?_⟩
    rw [hpackets, List.length_cons]
    omega

theorem Tracked.length_le (h : s.Tracked) (hnodup : (s.packets.map (·.2)).Nodup) :
    s.packets.length ≤ sentpktCap := by
  have hsub : s.packets.map (·.2) ⊆ s.io.loop.sent.tracked := by
    intro n hn
    obtain ⟨p, hp, rfl⟩ := List.mem_map.1 hn
    exact h p hp
  have hlen := (hnodup.subperm hsub).length_le
  have hcap := List.countP_le_length (p := fun p : SentpktEntry => p.used)
    (l := s.io.loop.sent.e.toList)
  rw [List.length_map, Sentpkt.length_tracked, Sentpkt.count] at hlen
  rw [Vector.length_toList] at hcap
  omega

/-- Of 257 packets that a client sends one after the other, with no ACK in between, one is not
tracked at the end. -/
theorem untracked_after_257 :
    let keys : InitialKeys := ⟨Vector.replicate 16 1, Vector.replicate 12 2, Vector.replicate 16 3⟩
    let s := run (step aes128) (start blank false 0xc3 [] 0)
      ([.install levelInitial keys, .validate] ++ List.replicate 257 ping)
    s.packets.length = 257 ∧ ¬ s.Tracked := by
  intro keys s
  have hstart : s = run (step aes128) { io := opened aes128 keys, packets := [] }
      (List.replicate 257 ping) := by
    simp only [s, run_append]
    rfl
  have hzero : (opened aes128 keys).tx.get levelInitial = 0 := rfl
  obtain ⟨hnodup, hlen⟩ := packets_pings aes128 257 { io := opened aes128 keys, packets := [] }
    (unhindered_opened aes128 keys) (by rw [hzero]; decide) (fun _ hp => absurd hp List.not_mem_nil)
    List.nodup_nil
  rw [← hstart] at hnodup hlen
  refine ⟨hlen, fun htracked => ?_⟩
  have hle := htracked.length_le hnodup
  rw [hlen] at hle
  exact absurd hle (by decide)

end Outstanding

end Conn

end QuicVibe
