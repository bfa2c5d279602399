import QuicVibe.Ack.Model
import QuicVibe.Common.Intervals
import QuicVibe.Ack.Window

/-!
# Acknowledgement exactness

`rangeValues` writes a list of runs in the form of an ACK frame. The two ends together: whatever
packet numbers a receiver recorded, the ranges it builds are the maximal runs of the recorded numbers
inside the window, and a sender that processes them removes exactly the in-flight packets with those
numbers.
-/

namespace QuicVibe

namespace Ack

/-- The `(gap, range length)` values of the runs below one that starts at `prevLo`. -/
def lowerValues (prevLo : ℕ) : List Interval → List ℕ
  | [] => []
  | b :: bs => (prevLo - b.hi - 2) :: (b.hi - b.lo) :: lowerValues b.lo bs

/-- The range values of an ACK frame that acknowledges the runs. -/
def rangeValues (bs : Intervals) : List ℕ :=
  (bs.top.hi - bs.top.lo) :: lowerValues bs.top.lo bs.rest

/-! ## Building -/

theorem ackrangeEmit_eq {ranges : List ℕ} {cap : ℕ} {first : Bool} {prevLo hi lo : ℕ}
    (hcap : ranges.length + (if first then 1 else 2) ≤ cap) :
    ackrangeEmit ranges cap first prevLo hi lo =
      some (ranges ++ (if first then [] else [gapOf prevLo hi]) ++ [sub64 hi lo]) := by
  cases first with
  | true =>
    simp only [if_true] at hcap
    simp [ackrangeEmit, push, show ¬ cap ≤ ranges.length by omega]
  | false =>
    simp only [Bool.false_eq_true, if_false] at hcap
    simp [ackrangeEmit, push, show ¬ cap ≤ ranges.length by omega,
      show ¬ cap ≤ ranges.length + 1 by omega]

/-- The gap value written before the run that is being scanned, unless it is the first. -/
def BuildSt.leadingGap (s : BuildSt) : List ℕ :=
  if s.first then [] else [s.prevLo - s.hi - 2]

/-- The scanned run lies below the last closed one, and all numbers are words. -/
structure BuildSt.Ok (s : BuildSt) : Prop where
  hi_lt : s.hi < 2 ^ 64
  below : s.first = false → s.hi + 1 < s.prevLo ∧ s.prevLo < 2 ^ 64

theorem BuildSt.Ok.emit_eq {s : BuildSt} (h : s.Ok) {cap pn : ℕ} (hpn : pn ≤ s.hi)
    (hcap : s.ranges.length + (if s.first then 1 else 2) ≤ cap) :
    ackrangeEmit s.ranges cap s.first s.prevLo s.hi pn =
      some (s.ranges ++ s.leadingGap ++ [s.hi - pn]) := by
  rw [ackrangeEmit_eq hcap, sub64_of_le hpn h.hi_lt]
  cases hf : s.first with
  | true => simp [BuildSt.leadingGap, hf]
  | false =>
    obtain ⟨h₁, h₂⟩ := h.below hf
    have hgap : gapOf s.prevLo s.hi = s.prevLo - s.hi - 2 := by
      rw [gapOf, sub64_of_le (by omega) h₂, sub64_of_le (by omega) (by omega)]
    simp [BuildSt.leadingGap, hf, hgap]

/-- **The descent writes the maximal runs.** From a state whose current run reaches from `pn` up
to `s.hi`, over a strictly descending rest no lower than `low`, it writes the values of runs
whose members are exactly the current run and the rest. -/
theorem descend_eq (cap low : ℕ) (rest : List ℕ) :
    ∀ (s : BuildSt) (pn : ℕ), s.Ok → pn ≤ s.hi → (pn :: rest).Pairwise (· > ·) →
      (∀ q ∈ pn :: rest, low ≤ q) →
      s.ranges.length + (if s.first then 1 else 2) + (pn - low) ≤ cap →
      ∃ bs : Intervals, bs.top.hi = s.hi ∧
        (∀ q, q ∈ bs ↔ (pn ≤ q ∧ q ≤ s.hi) ∨ q ∈ rest) ∧
        descend s cap (pn :: rest) = some (s.ranges ++ s.leadingGap ++ rangeValues bs) := by
  induction rest with
  | nil =>
    intro s pn hs hpn _ _ hcap
    refine ⟨.single ⟨pn, s.hi, hpn⟩, rfl, fun q => ?_, ?_⟩
    · simp [Interval.mem_def]
    · rw [descend, hs.emit_eq hpn (by omega)]
      rfl
  | cons below rest ih =>
    intro s pn hs hpn hdesc hlow hcap
    have hdesc' := (List.pairwise_cons.1 hdesc).2
    have hlt : below < pn := (List.pairwise_cons.1 hdesc).1 below List.mem_cons_self
    have hlow' : low ≤ below := hlow below (by simp)
    have hsub : sub64 pn below = pn - below := sub64_of_le hlt.le (by have := hs.hi_lt; omega)
    have hdesc_eq : descend s cap (pn :: below :: rest) =
        (buildStep s cap pn below).bind fun s => descend s cap (below :: rest) := rfl
    by_cases hgap : pn - below = 1
    · -- contiguous: the current run grows by one
      obtain ⟨bs, htop, hmem, heq⟩ := ih s below hs (by omega) hdesc'
        (fun q hq => hlow q (List.mem_cons_of_mem _ hq)) (by omega)
      refine ⟨bs, htop, fun q => ?_, ?_⟩
      · rw [hmem q, List.mem_cons]
        constructor
        · rintro (⟨h₁, h₂⟩ | h)
          · rcases Nat.lt_or_ge q pn with hq | hq
            · exact Or.inr (Or.inl (by omega))
            · exact Or.inl ⟨hq, h₂⟩
          · exact Or.inr (Or.inr h)
        · rintro (⟨h₁, h₂⟩ | rfl | h)
          · exact Or.inl ⟨by omega, h₂⟩
          · exact Or.inl ⟨le_rfl, by omega⟩
          · exact Or.inr h
      · rw [hdesc_eq, buildStep, if_pos (by rw [hsub, hgap])]
        exact heq
    · -- a gap: the current run is closed and the next one starts at `below`
      set s' : BuildSt := ⟨s.ranges ++ s.leadingGap ++ [s.hi - pn], below, pn, false⟩ with hs'
      have hclose : closeBlock s cap pn below = some s' := by
        rw [closeBlock, hs.emit_eq hpn (by omega)]
        rfl
      have hok : s'.Ok := ⟨by have := hs.hi_lt; simp only [hs']; omega, fun _ => by
        have := hs.hi_lt
        simp only [hs']
        omega⟩
      have hlen : s'.ranges.length + (if s'.first then 1 else 2) + (below - low) ≤ cap := by
        have : s.leadingGap.length + 1 = if s.first then 1 else 2 := by
          cases hf : s.first <;> simp [BuildSt.leadingGap, hf]
        simp only [hs', List.length_append, List.length_singleton, Bool.false_eq_true, if_false]
        omega
      obtain ⟨bs, htop, hmem, heq⟩ := ih s' below hok le_rfl hdesc'
        (fun q hq => hlow q (List.mem_cons_of_mem _ hq)) hlen
      have htop' : bs.top.hi = below := htop
      have hbelow : Interval.Below ⟨pn, s.hi, hpn⟩ bs.top := by
        simp only [Interval.Below]
        omega
      refine ⟨bs.cons _ hbelow, rfl, fun q => ?_, ?_⟩
      · rw [Intervals.mem_cons, hmem q, List.mem_cons, Interval.mem_def]
        refine or_congr_right (or_congr_left ?_)
        simp only [hs']
        omega
      · rw [hdesc_eq, buildStep, if_neg (by rw [hsub]; exact hgap), hclose, Option.bind_some, heq]
        simp [hs', BuildSt.leadingGap, rangeValues, Intervals.cons, lowerValues, htop']

/-- **The builder writes the maximal runs** of a descending list that spans fewer than `cap`
numbers. -/
theorem buildRanges_eq {received : List ℕ} (cap low : ℕ)
    (hdesc : received.reverse.Pairwise (· > ·)) {top : ℕ} (htop : received.getLast? = some top)
    (hlt : top < 2 ^ 64) (hlow : ∀ q ∈ received, low ≤ q) (hcap : top - low < cap) :
    ∃ bs : Intervals, (∀ q, q ∈ bs ↔ q ∈ received) ∧
      buildRanges received cap = some (bs.top.hi, rangeValues bs) := by
  obtain ⟨rest, hrev⟩ : ∃ rest, received.reverse = top :: rest := by
    rw [← List.head?_reverse] at htop
    exact List.head?_eq_some_iff.1 htop
  rw [hrev] at hdesc
  have hmem' : ∀ q, q ∈ received ↔ q ∈ top :: rest := fun q => by rw [← hrev, List.mem_reverse]
  obtain ⟨bs, hhi, hmem, heq⟩ := descend_eq cap low rest
    { ranges := [], hi := top, prevLo := 0, first := true } top ⟨hlt, by simp⟩ le_rfl hdesc
    (fun q hq => hlow q ((hmem' q).2 hq)) (by simp only [List.length_nil, if_true]; omega)
  refine ⟨bs, fun q => ?_, ?_⟩
  · rw [hmem q, hmem' q, List.mem_cons]
    exact or_congr_left ⟨fun h => le_antisymm h.2 h.1, fun h => ⟨h.ge, h.le⟩⟩
  · have : bs.top.hi = top := hhi
    simp [buildRanges, hrev, heq, BuildSt.leadingGap, this]

/-! ## Processing -/

/-- One range of the ACK against the table and the numbers reported so far. -/
def ackInterval (acc : SentPkt × List ℕ) (b : Interval) : SentPkt × List ℕ :=
  ackRange acc.1 b.lo b.hi acc.2

theorem ackPairs_lowerValues (bs : List Interval) :
    ∀ (t : SentPkt) (a : Interval) (out : List ℕ), (a :: bs).IsChain Interval.Below →
      a.lo < 2 ^ 64 →
      ackPairs t a.lo out (lowerValues a.lo bs) = bs.foldl ackInterval (t, out) := by
  induction bs with
  | nil => intros; rfl
  | cons b bs ih =>
    intro t a out hchain hlt
    obtain ⟨hb, hchain'⟩ := List.isChain_cons_cons.1 hchain
    simp only [Interval.Below] at hb
    have hle := b.lo_le_hi
    -- the subtractions of the code recover the bounds of the run
    have hhi : sub64 (sub64 a.lo (a.lo - b.hi - 2)) 2 = b.hi := by
      rw [sub64_of_le (by omega) hlt, sub64_of_le (by omega) (by omega)]
      omega
    have hlo : sub64 b.hi (b.hi - b.lo) = b.lo := by
      rw [sub64_of_le (by omega) (by omega)]
      omega
    simp only [lowerValues, ackPairs, hhi, hlo, List.foldl_cons]
    exact ih _ b _ hchain' (by omega)

theorem ackProcess_rangeValues (t : SentPkt) (bs : Intervals) (hlt : bs.top.hi < 2 ^ 64) :
    ackProcess t bs.top.hi (rangeValues bs) = bs.toList.foldl ackInterval (t, []) := by
  have hle := bs.top.lo_le_hi
  have hlo : sub64 bs.top.hi (bs.top.hi - bs.top.lo) = bs.top.lo := by
    rw [sub64_of_le (by omega) hlt]
    omega
  simp only [rangeValues, ackProcess, hlo, Intervals.toList, List.foldl_cons]
  exact ackPairs_lowerValues bs.rest _ bs.top _ bs.separated (by omega)

open scoped Classical in
/-- An in-flight packet with a number in `acked` leaves the table; any other slot stays. -/
noncomputable def ackEntry (acked : Set ℕ) (p : SentEntry) : SentEntry :=
  if p.used = true ∧ p.state = .inflight ∧ p.pn ∈ acked
  then { p with state := .acked, used := false } else p

theorem ackEntry_of_acked {A : Set ℕ} {p : SentEntry}
    (h : p.used = true ∧ p.state = .inflight ∧ p.pn ∈ A) :
    ackEntry A p = { p with state := .acked, used := false } := if_pos h

theorem ackEntry_of_not {A : Set ℕ} {p : SentEntry}
    (h : ¬ (p.used = true ∧ p.state = .inflight ∧ p.pn ∈ A)) : ackEntry A p = p := if_neg h

theorem ackEntry_ackEntry (A B : Set ℕ) (p : SentEntry) :
    ackEntry B (ackEntry A p) = ackEntry (A ∪ B) p := by
  by_cases hA : p.used = true ∧ p.state = .inflight ∧ p.pn ∈ A
  · rw [ackEntry_of_acked hA, ackEntry_of_not (by simp),
      ackEntry_of_acked ⟨hA.1, hA.2.1, Or.inl hA.2.2⟩]
  · rw [ackEntry_of_not hA]
    by_cases hB : p.used = true ∧ p.state = .inflight ∧ p.pn ∈ B
    · rw [ackEntry_of_acked hB, ackEntry_of_acked ⟨hB.1, hB.2.1, Or.inr hB.2.2⟩]
    · rw [ackEntry_of_not hB, ackEntry_of_not]
      rw [Set.mem_union]
      tauto

theorem getElem_ackRange (t : SentPkt) (b : Interval) (out : List ℕ) (i : ℕ)
    (hi : i < sentpktCap) :
    (ackRange t b.lo b.hi out).1.e[i] = ackEntry {q | q ∈ b} t.e[i] := by
  have hiff : slotInRange t.e[i] b.lo b.hi = true ↔
      t.e[i].used = true ∧ t.e[i].state = .inflight ∧ t.e[i].pn ∈ {q | q ∈ b} := by
    simp [slotInRange, Interval.mem_def, and_assoc]
  simp only [ackRange, Vector.getElem_map]
  split
  · rename_i h
    rw [ackEntry_of_acked (hiff.1 h)]
  · rename_i h
    rw [ackEntry_of_not (mt hiff.2 h)]

/-- **What the ranges do to the table**: slot by slot, the in-flight packets in one of the runs
leave it and nothing else changes. -/
theorem getElem_foldl_ackInterval (bs : List Interval) (t : SentPkt) (out : List ℕ) (i : ℕ)
    (hi : i < sentpktCap) :
    (bs.foldl ackInterval (t, out)).1.e[i] = ackEntry {q | ∃ b ∈ bs, q ∈ b} t.e[i] := by
  induction bs generalizing t out with
  | nil => simp [ackEntry]
  | cons b bs ih =>
    rw [List.foldl_cons, ackInterval, ih, getElem_ackRange, ackEntry_ackEntry]
    congr 1
    ext q
    simp

/-- The packet numbers recorded in one space. -/
def recordedIn (space : PnsSpace) (events : List (PnsSpace × ℕ)) : List ℕ :=
  (events.filter fun e => e.1 = space).map Prod.snd

/-- The receive side after it recorded the packet numbers `events`, each in its space. -/
def received (events : List (PnsSpace × ℕ)) : RecvSpaces :=
  Run.run (fun s e => s.onRecv e.1 e.2) RecvSpaces.init events

theorem represents_received (events : List (PnsSpace × ℕ)) (hpn : ∀ e ∈ events, e.2 < 2 ^ 64)
    (space : PnsSpace) : ((received events).r space).Represents (recordedIn space events) := by
  refine Run.run_history
    (P := fun past (s : RecvSpaces) => ∀ space, (s.r space).Represents (recordedIn space past)) events
    (fun _ => RecvPn.represents_init) ?_ space
  intro past e hpre h sp
  have he : e.2 < 2 ^ 64 := hpn e (hpre.subset (by simp))
  by_cases hsp : e.1 = sp
  · subst hsp
    simpa [RecvSpaces.onRecv, recordedIn] using (h e.1).record he
  · simpa [RecvSpaces.onRecv, recordedIn, hsp, Function.update_of_ne (Ne.symm hsp)] using h sp

/-- The ranges of a space that recorded something are the runs of its window. -/
theorem ackRanges_received (events : List (PnsSpace × ℕ)) (hpn : ∀ e ∈ events, e.2 < 2 ^ 64)
    (space : PnsSpace) {cap : ℕ} (hcap : recvpnWindow + 1 ≤ cap)
    (hany : recordedIn space events ≠ []) :
    ∃ bs : Intervals, bs.top.hi < 2 ^ 64 ∧
      (∀ p, p ∈ bs ↔ InWindow (recordedIn space events) p) ∧
      (received events).ackRanges space cap = some (bs.top.hi, rangeValues bs) := by
  have h := represents_received events hpn space
  set r := (received events).r space with hr
  have hlast : (RecvSpaces.collectPns r).getLast? = some r.largest := by
    simp [RecvSpaces.collectPns]
  have hlt : r.largest < 2 ^ 64 := h.bounded _ (h.largest_mem hany)
  obtain ⟨bs, hmem, heq⟩ := buildRanges_eq cap (r.largest - recvpnWindow)
    (h.collectPns_descending hany) hlast hlt
    (fun q hq => by
      have := ((h.inWindow_iff hany).1 ((h.mem_collectPns hany).1 hq)).2
      omega) (by omega)
  refine ⟨bs, ?_, fun p => (hmem p).trans (h.mem_collectPns hany), ?_⟩
  · have htop : bs.top.hi ∈ bs := ⟨bs.top, List.mem_cons_self, bs.top.lo_le_hi, le_rfl⟩
    exact h.bounded _ ((h.mem_collectPns hany).1 ((hmem _).1 htop)).1
  · rw [RecvSpaces.ackRanges, ← hr, h.any_iff.2 hany]
    exact heq

/-- **Acknowledgement exactness.** A space that recorded nothing has no ranges. Otherwise its
ranges are those of a descending list of disjoint, non-adjacent runs whose members are exactly
the recorded numbers inside the window; and a sender processing them in that space turns every
in-flight slot with such a number into a free acknowledged one, changes no other slot of that
space, and nothing in the other spaces. -/
theorem ack_ranges_exact (events : List (PnsSpace × ℕ)) (hpn : ∀ e ∈ events, e.2 < 2 ^ 64)
    (space : PnsSpace) (cap : ℕ) (hcap : recvpnWindow + 1 ≤ cap) :
    (recordedIn space events = [] → (received events).ackRanges space cap = none) ∧
      (recordedIn space events ≠ [] → ∃ bs : Intervals,
        (received events).ackRanges space cap = some (bs.top.hi, rangeValues bs) ∧
        (∀ p, p ∈ bs ↔ InWindow (recordedIn space events) p) ∧
        ∀ sent : SentSpaces,
          let sent' := (sent.onAck space bs.top.hi (rangeValues bs)).1
          (∀ i (_ : i < sentpktCap), (sent'.t space).e[i] =
            ackEntry {p | InWindow (recordedIn space events) p} (sent.t space).e[i]) ∧
          ∀ other, other ≠ space → sent'.t other = sent.t other) := by
  refine ⟨fun hnone => ?_, fun hany => ?_⟩
  · have hno : ((received events).r space).any = false := by
      have := (represents_received events hpn space).any_iff
      simpa [hnone] using this
    simp [RecvSpaces.ackRanges, hno]
  · obtain ⟨bs, hlt, hmem, heq⟩ := ackRanges_received events hpn space hcap hany
    refine ⟨bs, heq, hmem, fun sent => ⟨fun i hi => ?_, fun other hne => ?_⟩⟩
    · have hset : {q | ∃ b ∈ bs.toList, q ∈ b} =
          {p | InWindow (recordedIn space events) p} := Set.ext hmem
      simp only [SentSpaces.onAck, Function.update_self, ackProcess_rangeValues _ bs hlt]
      rw [getElem_foldl_ackInterval, hset]
    · simp only [SentSpaces.onAck, Function.update_of_ne hne]

/-- Packets 7, 5 and 6 in the application space and one in another space: the application
space acknowledges a single run. -/
theorem ack_ranges_exact_run :
    ∃ bs : Intervals, (received [(.app, 7), (.initial, 0), (.app, 5), (.app, 6)]).ackRanges .app 65
        = some (bs.top.hi, rangeValues bs) ∧
      ∀ p, p ∈ bs ↔ InWindow [7, 5, 6] p := by
  obtain ⟨bs, h₁, h₂, -⟩ :=
    (ack_ranges_exact [(.app, 7), (.initial, 0), (.app, 5), (.app, 6)] (by simp) .app 65
      (by decide)).2 (by decide)
  exact ⟨bs, h₁, h₂⟩

end Ack

end QuicVibe
