import QuicVibe.Common.Run
import QuicVibe.Recovery.Sent
/-!
# The life of a packet in flight

`loss_detect.c` marks the packets in flight that crossed the packet or the time threshold, and
`lossdrive.c` frees the slots marked. Every call on the table is an exchange between the table and the
reports, so the invariant of a run is one permutation: the numbers taken into the table are those
still in it, those reported acknowledged and those reported lost.
-/

namespace QuicVibe

namespace Recovery

/-- `QUIC_SENTPKT_PACKET_THRESHOLD`. -/
abbrev sentpktPacketThreshold : ℕ := 3

def byPacket (largestAcked pn : ℕ) : Bool :=
  decide (largestAcked ≥ u64 (pn + sentpktPacketThreshold))

def byTime (now sent lossDelay : ℕ) : Bool := decide (now ≥ u64 (sent + lossDelay))

def pastThreshold (largestAcked now lossDelay : ℕ) (p : SentpktEntry) : Bool :=
  byPacket largestAcked p.pn || byTime now p.timeSent lossDelay

def lossIsLost (largestAcked now lossDelay : ℕ) (p : SentpktEntry) : Bool :=
  p.inflight && pastThreshold largestAcked now lossDelay p

def slotLost (p : SentpktEntry) : Bool := p.used && p.state == .lost

namespace Sentpkt

/-- `quic_loss_detect`: the numbers newly lost, and the table with their slots marked. -/
def lossDetect (t : Sentpkt) (largestAcked now lossDelay : ℕ) : List ℕ × Sentpkt :=
  ((t.e.toList.filter (lossIsLost largestAcked now lossDelay)).map (·.pn),
    ⟨t.e.map fun p =>
      if lossIsLost largestAcked now lossDelay p then { p with state := .lost } else p⟩)

def dropLost (t : Sentpkt) : Sentpkt :=
  ⟨t.e.map fun p => if slotLost p then { p with used := false } else p⟩

def lossdriveOnAck (t : Sentpkt) (largestAcked now lossDelay : ℕ) : List ℕ × Sentpkt :=
  let (lost, t) := t.lossDetect largestAcked now lossDelay
  (lost, t.dropLost)

/-! ## What the table holds -/

/-- The packet numbers in a list of slots. -/
def numbers (slots : List SentpktEntry) : List ℕ := (slots.filter (·.used)).map (·.pn)

/-- The packet numbers the table holds. -/
def tracked (t : Sentpkt) : List ℕ := numbers t.e.toList

/-- Every slot in use is in flight: no packet waits in the table after it was reported. -/
def Settled (t : Sentpkt) : Prop := ∀ p ∈ t.e.toList, p.used = true → p.state = .inflight

variable (t : Sentpkt)

theorem length_tracked : t.tracked.length = t.count := by
  rw [tracked, numbers, List.length_map, count, List.countP_eq_length_filter]

@[simp] theorem tracked_init : t.init.tracked = [] := by
  simp [tracked, numbers, init]

theorem settled_init : t.init.Settled := by
  simp [Settled, init]

/-! ## Filling a slot -/

theorem numbers_set_free {slots : List SentpktEntry} {entry : SentpktEntry}
    (hused : entry.used = true)
    (hfree : (slots.takeWhile (·.used)).length < slots.length) :
    (numbers (slots.set (slots.takeWhile (·.used)).length entry)).Perm
      (entry.pn :: numbers slots) := by
  induction slots with
  | nil => cases hfree
  | cons p slots ih =>
    by_cases hp : p.used = true
    · have hlt : (slots.takeWhile (·.used)).length < slots.length := by
        simpa [List.takeWhile_cons, hp] using hfree
      have hcons := (ih hlt).cons p.pn
      simp only [List.takeWhile_cons, hp, if_true, List.length_cons, List.set_cons_succ, numbers,
        List.filter_cons_of_pos, List.map_cons] at hcons ⊢
      exact hcons.trans (List.Perm.swap _ _ _)
    · simp [hp, numbers, hused]

theorem toList_onSend (pn time : ℕ) (ae : Bool) (size : ℕ) (hfree : t.freeSlot ≠ sentpktCap) :
    (t.onSend pn time ae size).2.e.toList = t.e.toList.set t.freeSlot
      { pn := pn, timeSent := time, size := size, ackEliciting := ae, state := .inflight,
        used := true } := by
  rw [onSend, if_neg hfree]
  exact Vector.toList_setIfInBounds ..

/-- **A send** adds its number to the table, or changes nothing when the table is full. -/
theorem onSend_cases (pn time : ℕ) (ae : Bool) (size : ℕ) :
    (t.onSend pn time ae size = (false, t)) ∨
    ((t.onSend pn time ae size).1 = true ∧
      (t.onSend pn time ae size).2.tracked.Perm (pn :: t.tracked)) := by
  by_cases hfree : t.freeSlot = sentpktCap
  · exact .inl (if_pos hfree)
  · refine .inr ⟨by rw [onSend, if_neg hfree], ?_⟩
    rw [tracked, toList_onSend t pn time ae size hfree]
    have hle := t.freeSlot_le
    refine numbers_set_free rfl ?_
    rw [Vector.length_toList, ← freeSlot]
    omega

theorem onSend_eq_self_iff (pn time : ℕ) (ae : Bool) (size : ℕ) :
    (t.onSend pn time ae size).2 = t ↔ t.freeSlot = sentpktCap := by
  constructor
  · intro hsame
    rcases t.onSend_cases pn time ae size with hfull | ⟨-, hperm⟩
    · by_contra hfree
      rw [onSend, if_neg hfree] at hfull
      cases hfull
    · rw [hsame] at hperm
      have hlen := hperm.length_eq
      rw [List.length_cons] at hlen
      omega
  · intro hfull
    rw [onSend, if_pos hfull]

theorem mem_tracked_onSend_iff (pn time : ℕ) (ae : Bool) (size n : ℕ) :
    n ∈ (t.onSend pn time ae size).2.tracked ↔
      n ∈ t.tracked ∨ n = pn ∧ t.freeSlot < sentpktCap := by
  have hle := t.freeSlot_le
  rcases t.onSend_cases pn time ae size with hfull | ⟨htook, hperm⟩
  · have hslot : t.freeSlot = sentpktCap := by
      rw [← onSend_eq_self_iff t pn time ae size, hfull]
    rw [hfull]
    exact (or_iff_left fun h => by omega).symm
  · have hslot : t.freeSlot ≠ sentpktCap := by
      intro hfull
      rw [onSend, if_pos hfull] at htook
      cases htook
    rw [hperm.mem_iff, List.mem_cons, or_comm, and_iff_left (by omega)]

theorem mem_tracked_iff (n : ℕ) : n ∈ t.tracked ↔ ∃ p ∈ t.e.toList, p.used = true ∧ p.pn = n := by
  simp [tracked, numbers, and_assoc]

variable {t : Sentpkt} {sel : SentpktEntry → Bool} {free : SentpktEntry → SentpktEntry}

theorem mem_tracked_remove_iff (ht : t.Settled) (covered : ℕ → Bool) (n : ℕ) :
    n ∈ (t.remove covered).tracked ↔ n ∈ t.tracked ∧ covered n = false := by
  simp only [mem_tracked_iff, remove, Vector.toList_map, List.mem_map]
  constructor
  · rintro ⟨_, ⟨p, hp, rfl⟩, hused, rfl⟩
    split at hused <;> rename_i hsel
    · cases hused
    · have hflight : p.inflight = true := by
        simp [SentpktEntry.inflight, hused, ht p hp hused]
      rw [if_neg hsel]
      refine ⟨⟨p, hp, hused, rfl⟩, ?_⟩
      simpa [hflight] using hsel
  · rintro ⟨⟨p, hp, hused, rfl⟩, hcov⟩
    refine ⟨p, ⟨p, hp, ?_⟩, hused, rfl⟩
    rw [hcov, Bool.and_false, if_neg Bool.false_ne_true]

theorem Settled.remove (ht : t.Settled) (covered : ℕ → Bool) : (t.remove covered).Settled := by
  intro q hq hused
  simp only [Sentpkt.remove, Vector.toList_map, List.mem_map] at hq
  obtain ⟨p, hp, rfl⟩ := hq
  split at hused <;> rename_i hsel
  · cases hused
  · rw [if_neg hsel]
    exact ht p hp hused

theorem Settled.onSend (ht : t.Settled) (pn time : ℕ) (ae : Bool) (size : ℕ) :
    (t.onSend pn time ae size).2.Settled := by
  by_cases hfree : t.freeSlot = sentpktCap
  · rw [Sentpkt.onSend, if_pos hfree]
    exact ht
  · intro p hp hused
    rw [toList_onSend t pn time ae size hfree] at hp
    rcases List.mem_or_eq_of_mem_set hp with hold | rfl
    · exact ht p hold hused
    · rfl

/-! ## Sweeps -/

/-- A sweep: what it reports are the numbers that left the table, and it leaves no slot in use that
is not in flight. -/
def Sweeps (t : Sentpkt) (r : List ℕ × Sentpkt) : Prop :=
  t.tracked.Perm (r.1 ++ r.2.tracked) ∧ r.2.Settled

theorem Sweeps.refl (ht : t.Settled) : t.Sweeps ([], t) := ⟨.rfl, ht⟩

theorem Sweeps.trans {t₁ t₂ : Sentpkt} {a b : List ℕ} (h₁ : t.Sweeps (a, t₁))
    (h₂ : t₁.Sweeps (b, t₂)) : t.Sweeps (a ++ b, t₂) := by
  refine ⟨?_, h₂.2⟩
  have hboth := h₁.1.trans (h₂.1.append_left a)
  rwa [← List.append_assoc] at hboth

theorem numbers_sweep (hsel : ∀ p, sel p = true → p.used = true)
    (hfree : ∀ p, (free p).used = false) (slots : List SentpktEntry) :
    (numbers slots).Perm ((slots.filter sel).map (·.pn) ++
      numbers (slots.map fun p => if sel p then free p else p)) := by
  induction slots with
  | nil => rfl
  | cons p slots ih =>
    simp only [numbers] at ih ⊢
    by_cases hp : sel p = true
    · have hused := hsel p hp
      simpa [hp, hused, hfree] using ih
    · by_cases hused : p.used = true
      · simpa [hp, hused] using (ih.cons p.pn).trans List.perm_middle.symm
      · simpa [hp, hused] using ih

/-- **A pass over the slots** that reports slots in use and frees them is a sweep. -/
theorem sweeps_of_pass (ht : t.Settled) (hsel : ∀ p, sel p = true → p.inflight = true)
    (hfree : ∀ p, (free p).used = false) :
    t.Sweeps ((t.e.toList.filter sel).map (·.pn),
      ⟨t.e.map fun p => if sel p then free p else p⟩) := by
  refine ⟨?_, ?_⟩
  · rw [tracked, tracked, Vector.toList_map]
    refine numbers_sweep (fun p hp => ?_) hfree _
    exact (Bool.and_eq_true_iff.1 (hsel p hp)).1
  · intro q hq hused
    rw [Vector.toList_map] at hq
    obtain ⟨p, hp, rfl⟩ := List.mem_map.1 hq
    by_cases hs : sel p = true
    · rw [if_pos hs, hfree p] at hused
      cases hused
    · rw [if_neg hs] at hused ⊢
      exact ht p hp hused

theorem sweeps_ackRange (ht : t.Settled) (lo hi : ℕ) : t.Sweeps (t.ackRange lo hi) :=
  sweeps_of_pass ht (fun _ hp => (Bool.and_eq_true_iff.1 hp).1) fun _ => rfl

theorem sweeps_ackPairsBelow {t : Sentpkt} (ht : t.Settled) (lo : ℕ) :
    ∀ pairs : List ℕ, t.Sweeps (t.ackPairsBelow lo pairs)
  | [] => .refl ht
  | [_] => .refl ht
  | gap :: len :: rest => by
    have hrange := sweeps_ackRange ht (sub64 (sub64 (sub64 lo gap) 2) len) (sub64 (sub64 lo gap) 2)
    exact hrange.trans (sweeps_ackPairsBelow hrange.2 _ rest)

/-- **An ACK** is a sweep, whatever ranges it carries. -/
theorem sweeps_ackProcess (ht : t.Settled) (ackLargest : ℕ) (ranges : List ℕ) :
    t.Sweeps (t.ackProcess ackLargest ranges) := by
  cases ranges with
  | nil => exact .refl ht
  | cons first pairs =>
    have hrange := sweeps_ackRange ht (sub64 ackLargest first) ackLargest
    exact hrange.trans (sweeps_ackPairsBelow hrange.2 _ pairs)

theorem lossdriveOnAck_eq (ht : t.Settled) (largestAcked now lossDelay : ℕ) :
    t.lossdriveOnAck largestAcked now lossDelay =
      ((t.e.toList.filter (lossIsLost largestAcked now lossDelay)).map (·.pn),
        ⟨t.e.map fun p => if lossIsLost largestAcked now lossDelay p then
          { p with state := .lost, used := false } else p⟩) := by
  simp only [lossdriveOnAck, lossDetect, dropLost, Vector.map_map]
  refine congrArg (fun e => (_, Sentpkt.mk e)) (Vector.map_congr_left fun p hp => ?_)
  have hstate := ht p (Vector.mem_toList_iff.2 hp)
  by_cases hlost : lossIsLost largestAcked now lossDelay p = true
  · have hused : p.used = true := (Bool.and_eq_true_iff.1 (Bool.and_eq_true_iff.1 hlost).1).1
    simp [hlost, slotLost, hused]
  · have hkept : slotLost p = false := by
      cases hused : p.used with
      | false => simp [slotLost, hused]
      | true => simp [slotLost, hstate hused]
    simp [hlost, hkept]

/-- **Loss detection** is a sweep, whatever the times. -/
theorem sweeps_lossdriveOnAck (ht : t.Settled) (largestAcked now lossDelay : ℕ) :
    t.Sweeps (t.lossdriveOnAck largestAcked now lossDelay) := by
  rw [lossdriveOnAck_eq ht]
  exact sweeps_of_pass ht (fun _ hp => (Bool.and_eq_true_iff.1 hp).1) fun _ => rfl

end Sentpkt

/-! ## Runs -/

/-- A call that drives the table. -/
inductive FlightOp
  | send (pn time : ℕ) (ackEliciting : Bool) (size : ℕ)
  | ack (ackLargest : ℕ) (ranges : List ℕ)
  | loss (largestAcked now lossDelay : ℕ)

/-- The packet number a call sends. -/
def FlightOp.sends : FlightOp → Option ℕ
  | .send pn _ _ _ => some pn
  | _ => none

/-- The table with what was taken into it and what it reported so far. A packet sent while the table
is full is not tracked: `quic_sentpkt_on_send` returns 0 for it. -/
structure Flight where
  table : Sentpkt
  sent : List ℕ
  acked : List ℕ
  lost : List ℕ

namespace Flight

/-- A table just initialised. -/
def start (t : Sentpkt) : Flight := ⟨t.init, [], [], []⟩

/-- One call, with its report appended to the log it belongs to. -/
def step (s : Flight) : FlightOp → Flight
  | .send pn time ackEliciting size =>
    let (took, table) := s.table.onSend pn time ackEliciting size
    { s with table := table, sent := if took then s.sent ++ [pn] else s.sent }
  | .ack ackLargest ranges =>
    let (acked, table) := s.table.ackProcess ackLargest ranges
    { s with table := table, acked := s.acked ++ acked }
  | .loss largestAcked now lossDelay =>
    let (lost, table) := s.table.lossdriveOnAck largestAcked now lossDelay
    { s with table := table, lost := s.lost ++ lost }

/-- Every number taken into the table is in it, reported acknowledged or reported lost, once. -/
structure Inv (s : Flight) : Prop where
  settled : s.table.Settled
  perm : s.sent.Perm (s.table.tracked ++ (s.acked ++ s.lost))

variable (t : Sentpkt)

theorem inv_start : (start t).Inv where
  settled := t.settled_init
  perm := by simp [start]

theorem Inv.step {s : Flight} (h : s.Inv) (op : FlightOp) : (s.step op).Inv := by
  cases op with
  | send pn time ae size =>
    refine ⟨h.settled.onSend pn time ae size, ?_⟩
    rcases s.table.onSend_cases pn time ae size with hfull | ⟨htook, hperm⟩
    · simpa [Flight.step, hfull] using h.perm
    · simp only [Flight.step, htook, if_true]
      have hsent := (List.perm_append_singleton pn s.sent).trans (h.perm.cons pn)
      exact hsent.trans (hperm.append_right _).symm
  | ack ackLargest ranges =>
    obtain ⟨hperm, hsettled⟩ := Sentpkt.sweeps_ackProcess h.settled ackLargest ranges
    refine ⟨hsettled, h.perm.trans ?_⟩
    -- the report moves from the front of the list to the end of the acknowledged numbers
    refine (hperm.append_right _).trans ?_
    simp only [Flight.step, List.append_assoc]
    refine List.perm_append_comm_assoc _ _ _ |>.trans (List.Perm.append_left _ ?_)
    exact List.perm_append_comm_assoc _ _ _
  | loss largestAcked now lossDelay =>
    obtain ⟨hperm, hsettled⟩ := Sentpkt.sweeps_lossdriveOnAck h.settled largestAcked now lossDelay
    refine ⟨hsettled, h.perm.trans ?_⟩
    refine (hperm.append_right _).trans ?_
    simp only [Flight.step, List.append_assoc]
    refine List.perm_append_comm_assoc _ _ _ |>.trans (List.Perm.append_left _ ?_)
    refine List.perm_append_comm_assoc _ _ _ |>.trans (List.Perm.append_left _ ?_)
    exact List.perm_append_comm

theorem inv_run (ops : List FlightOp) : (Run.run step (start t) ops).Inv :=
  Run.run_invariant ops (inv_start t) fun _ op _ h => h.step op

/-- The table takes in only numbers that were sent, in the order of the calls. -/
theorem sent_sublist (ops : List FlightOp) :
    (Run.run step (start t) ops).sent.Sublist (ops.filterMap FlightOp.sends) := by
  refine Run.run_history
    (P := fun past (s : Flight) => s.sent.Sublist (past.filterMap FlightOp.sends)) ops
    (List.Sublist.refl _) fun past op _ ih => ?_
  rw [List.filterMap_append]
  cases op with
  | send pn time ae size =>
    simp only [step]
    split
    · exact ih.append (List.Sublist.refl _)
    · exact ih.trans (List.sublist_append_left ..)
  | ack ackLargest ranges => exact ih.trans (List.sublist_append_left ..)
  | loss largestAcked now lossDelay => exact ih.trans (List.sublist_append_left ..)

/-- **In-flight lifecycle.** In a run that sends distinct packet numbers, with any ACKs and any loss
detection in between, a packet taken into the table is in the table, reported acknowledged or
reported lost, exactly one of these and once; nothing else is ever in the table or reported; and the
table counts what was taken in less what was reported. -/
theorem inflight_lifecycle (t : Sentpkt) (ops : List FlightOp)
    (hdistinct : (ops.filterMap FlightOp.sends).Nodup) :
    let s := Run.run step (start t) ops
    (∀ pn ∈ s.sent, s.table.tracked.count pn + s.acked.count pn + s.lost.count pn = 1) ∧
    (∀ pn, pn ∉ s.sent → pn ∉ s.table.tracked ∧ pn ∉ s.acked ∧ pn ∉ s.lost) ∧
    (s.acked.length + s.lost.length ≤ s.sent.length ∧
      s.table.count = s.sent.length - s.acked.length - s.lost.length) := by
  intro s
  have hinv : s.Inv := inv_run t ops
  have hnodup : s.sent.Nodup := hdistinct.sublist (sent_sublist t ops)
  refine ⟨fun pn hpn => ?_, fun pn hpn => ?_, ?_⟩
  · have hcount := hinv.perm.count_eq pn
    rw [hnodup.count, if_pos hpn, List.count_append, List.count_append] at hcount
    omega
  · rw [hinv.perm.mem_iff, List.mem_append, List.mem_append, not_or, not_or] at hpn
    exact hpn
  · have hlen := hinv.perm.length_eq
    rw [List.length_append, List.length_append, Sentpkt.length_tracked] at hlen
    omega

/-- Packet 0 is lost once 4 is acknowledged as the largest; the ACK that follows covers both numbers
and reports the one still in the table. -/
def lossThenAck : List FlightOp :=
  [.send 0 0 true 1200, .send 4 9 true 1200, .loss 4 9 100, .ack 4 [4]]

/-- A table with no packet in it. -/
def emptyTable : Sentpkt := ⟨Vector.replicate sentpktCap ⟨0, 0, 0, false, .inflight, false⟩⟩

theorem inflight_lifecycle_lossThenAck :
    let s := Run.run step (start emptyTable) lossThenAck
    (lossThenAck.filterMap FlightOp.sends).Nodup ∧
    (∀ pn ∈ s.sent, s.table.tracked.count pn + s.acked.count pn + s.lost.count pn = 1) ∧
    s.table.count = s.sent.length - s.acked.length - s.lost.length := by
  have hdistinct : (lossThenAck.filterMap FlightOp.sends).Nodup := by decide
  have hlife := inflight_lifecycle emptyTable lossThenAck hdistinct
  exact ⟨hdistinct, hlife.1, hlife.2.2.2⟩

end Flight

end Recovery

end QuicVibe
