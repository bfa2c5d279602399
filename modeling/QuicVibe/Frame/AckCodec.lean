import QuicVibe.Frame.RoundTrip
/-!
# The ACK codec

An ACK frame spells its ranges from the top down (`ack.c`), as differences in unsigned arithmetic. On
ranges that are out of order a difference wraps to a number no varint can hold, so the encoder fails
exactly there; the decoder subtracts only what it has checked to fit.
-/

namespace QuicVibe

namespace Frame

open Packet

/-- Every range has its ends in order, and lies at least two below the one before. -/
def Descending (ranges : List AckRange) : Prop :=
  (∀ r ∈ ranges, r.lo ≤ r.hi) ∧ ranges.IsChain fun prev cur => cur.hi + 2 ≤ prev.lo

/-- All numbers of the frame are below `2 ^ 62`. -/
structure AckFrame.InRange (f : AckFrame) : Prop where
  delay : f.ackDelay ≤ varintMax
  ranges : ∀ r ∈ f.ranges, r.hi ≤ varintMax ∧ r.lo ≤ varintMax
  ecn : ∀ e ∈ f.ecn, e.ect0 ≤ varintMax ∧ e.ect1 ≤ varintMax ∧ e.ce ≤ varintMax

/-! ## Differences -/

variable {a b off : ℕ} {rest : List AckRange} {buf tail : Bytes} {f : AckFrame} {r0 : AckRange}

theorem sub64_le_varintMax_iff (ha : a ≤ varintMax) (hb : b ≤ varintMax) :
    sub64 a b ≤ varintMax ↔ b ≤ a := by
  have hmax : varintMax = 4611686018427387903 := rfl
  rw [sub64]
  omega

theorem gap_le_varintMax_iff (ha : a ≤ varintMax) (hb : b ≤ varintMax) :
    sub64 (sub64 a b) 2 ≤ varintMax ↔ b + 2 ≤ a := by
  have hmax : varintMax = 4611686018427387903 := rfl
  simp only [sub64]
  omega

theorem gap_eq (ha : a ≤ varintMax) (h : b + 2 ≤ a) : sub64 (sub64 a b) 2 = a - b - 2 := by
  have hmax : varintMax = 4611686018427387903 := rfl
  have hsub : sub64 a b = a - b := sub64_of_le (by omega) (by omega)
  rw [hsub, sub64_of_le (by omega) (by omega)]

/-! ## Encoding -/

variable {prev : AckRange} {ecn : Option EcnCounts} {pn off' : ℕ}

/-- **The pairs are in range** exactly when the ranges descend. -/
theorem forall_ackPairs_iff (h : ∀ r ∈ prev :: rest, r.hi ≤ varintMax ∧ r.lo ≤ varintMax) :
    (∀ v ∈ ackPairs (prev :: rest), v ≤ varintMax) ↔
      (∀ r ∈ rest, r.lo ≤ r.hi) ∧ (prev :: rest).IsChain fun prev cur => cur.hi + 2 ≤ prev.lo := by
  induction rest generalizing prev with
  | nil => simp [ackPairs]
  | cons cur rest ih =>
    have hprev := h prev (by simp)
    have hcur := h cur (by simp)
    have ih' := ih fun r hr => h r (List.mem_cons_of_mem _ hr)
    rw [ackPairs, List.isChain_cons_cons]
    simp only [List.forall_mem_cons, ih', gap_le_varintMax_iff hprev.2 hcur.1,
      sub64_le_varintMax_iff hcur.1 hcur.2]
    tauto

/-- The type of the frame. -/
def ackType (f : AckFrame) : ℕ := (if f.ecn.isSome then frameAckEcn else frameAck).toNat

/-- The ECN counts behind the ranges. -/
def ecnValues : Option EcnCounts → List ℕ
  | none => []
  | some e => [e.ect0, e.ect1, e.ce]

/-- What is written behind the type, for a frame whose first range is `r0`. -/
def ackValues (f : AckFrame) (r0 : AckRange) : List ℕ :=
  [r0.hi, f.ackDelay, f.ranges.length - 1, sub64 r0.hi r0.lo] ++
    (ackPairs f.ranges ++ ecnValues f.ecn)

section

variable {f : AckFrame} {r0 : AckRange} {rest : List AckRange} (hranges : f.ranges = r0 :: rest)
  (hlen : f.ranges.length ≤ ackMaxRanges)

include hranges hlen

theorem ackEncode_eq (cap : ℕ) :
    ackEncode cap f = putVarints [] cap (ackType f :: ackValues f r0) := by
  have hmany : ¬ (r0 :: rest).length > ackMaxRanges := by
    rw [← hranges]
    omega
  simp only [ackEncode, ackType, ackValues, hranges, if_neg hmany]
  cases f.ecn <;> simp [ecnValues]

/-- **Everything written is in range** exactly when the ranges descend. -/
theorem forall_ackValues_iff (h : f.InRange) :
    (∀ v ∈ ackValues f r0, v ≤ varintMax) ↔ Descending f.ranges := by
  have hmax : varintMax = 4611686018427387903 := rfl
  have hcount : ackMaxRanges = 32 := rfl
  have hall := h.ranges
  rw [hranges] at hall
  obtain ⟨hhi, hlo⟩ := hall r0 (by simp)
  have hecn : ∀ v ∈ ecnValues f.ecn, v ≤ varintMax := by
    have := h.ecn
    cases hecn : f.ecn with
    | none => simp [ecnValues]
    | some e =>
      rw [hecn] at this
      simpa [ecnValues] using this e rfl
  have hn : (r0 :: rest).length - 1 ≤ varintMax := by
    rw [← hranges]
    omega
  have hnil : ∀ v ∈ ([] : List ℕ), v ≤ varintMax := by simp
  have hpairs := forall_ackPairs_iff hall
  simp only [ackValues, List.forall_mem_append, List.forall_mem_cons, sub64_le_varintMax_iff hhi hlo,
    hranges, hpairs, Descending]
  have hdelay := h.delay
  tauto

end

/-! ## Decoding what was encoded -/

theorem takeAckPairs_of_restAt (hrange : ∀ r ∈ prev :: rest, r.hi ≤ varintMax ∧ r.lo ≤ varintMax)
    (hdesc : ∀ r ∈ rest, r.lo ≤ r.hi)
    (hchain : (prev :: rest).IsChain fun prev cur => cur.hi + 2 ≤ prev.lo)
    (h : RestAt buf off (varints (ackPairs (prev :: rest)) ++ tail)) :
    takeAckPairs buf rest.length off prev.lo =
        some (rest, off + (varints (ackPairs (prev :: rest))).length) ∧
      RestAt buf (off + (varints (ackPairs (prev :: rest))).length) tail := by
  induction rest generalizing prev off with
  | nil => exact ⟨rfl, h⟩
  | cons cur rest ih =>
    have hmax : varintMax = 4611686018427387903 := rfl
    obtain ⟨-, hprev⟩ := hrange prev (by simp)
    obtain ⟨hhi, hlo⟩ := hrange cur (by simp)
    obtain ⟨hgap, hchain⟩ := List.isChain_cons_cons.1 hchain
    have hle : cur.lo ≤ cur.hi := hdesc cur (by simp)
    have hgapEq := gap_eq hprev hgap
    have hlenEq : sub64 cur.hi cur.lo = cur.hi - cur.lo := sub64_of_le hle (by omega)
    rw [ackPairs, hgapEq, hlenEq] at h ⊢
    simp only [varints_cons, List.append_assoc] at h
    obtain ⟨htakeGap, h⟩ := h.varintTake (by omega)
    obtain ⟨htakeLen, h⟩ := h.varintTake (by omega)
    obtain ⟨hrest, h⟩ := ih (fun r hr => hrange r (List.mem_cons_of_mem _ hr))
      (fun r hr => hdesc r (List.mem_cons_of_mem _ hr)) hchain h
    -- the decoder undoes both subtractions
    have hhiEq : sub64 (sub64 prev.lo (prev.lo - cur.hi - 2)) 2 = cur.hi := by
      rw [gap_eq hprev (by omega)]
      omega
    have hloEq : sub64 cur.hi (cur.hi - cur.lo) = cur.lo := by
      rw [sub64_of_le (by omega) (by omega)]
      omega
    have hfits : pairFits prev.lo (prev.lo - cur.hi - 2) (cur.hi - cur.lo) = true := by
      rw [pairFits, hhiEq, u64_of_lt (by omega)]
      simp
      omega
    simp only [List.length_cons, takeAckPairs, htakeGap, htakeLen, hfits, hhiEq, hloEq, hrest,
      Option.bind_eq_bind, Option.bind_some, Bool.not_true, Bool.false_eq_true, if_false]
    simp only [varints_cons, List.length_append, length_varintEncode, ← Nat.add_assoc]
    exact ⟨rfl, h⟩

theorem takeAckEcn_of_restAt
    (hecn : ∀ e ∈ ecn, e.ect0 ≤ varintMax ∧ e.ect1 ≤ varintMax ∧ e.ce ≤ varintMax)
    (h : RestAt buf off (varints (ecnValues ecn) ++ tail)) :
    takeAckEcn buf off ecn.isSome = some (ecn, off + (varints (ecnValues ecn)).length) := by
  cases ecn with
  | none => rfl
  | some e =>
    obtain ⟨hect0, hect1, hce⟩ := hecn e rfl
    simp only [ecnValues, varints_cons, varints_nil, List.append_assoc, List.append_nil] at h ⊢
    obtain ⟨htake0, h⟩ := h.varintTake hect0
    obtain ⟨htake1, h⟩ := h.varintTake hect1
    obtain ⟨htakeCe, -⟩ := h.varintTake hce
    simp only [takeAckEcn, Option.isSome_some, htake0, htake1, htakeCe, Option.bind_eq_bind,
      Option.bind_some, Bool.not_true, Bool.false_eq_true, if_false]
    simp [Nat.add_assoc]

/-- **An encoded frame is read back.** -/
theorem ackDecode_of_restAt (hranges : f.ranges = r0 :: rest)
    (hlen : f.ranges.length ≤ ackMaxRanges) (hrange : f.InRange) (hdesc : Descending f.ranges)
    (hhead : buf.head? = some (UInt8.ofNat (ackType f)))
    (h : RestAt buf 1 (varints (ackValues f r0) ++ tail)) :
    ackDecode buf = some (f, 1 + (varints (ackValues f r0)).length) := by
  obtain ⟨delay, ranges, ecn⟩ := f
  obtain rfl : ranges = r0 :: rest := hranges
  have hmax : varintMax = 4611686018427387903 := rfl
  have hcount : ackMaxRanges = 32 := rfl
  obtain ⟨hhi, hlo⟩ := hrange.ranges r0 (List.mem_cons_self ..)
  have hle : r0.lo ≤ r0.hi := hdesc.1 r0 (List.mem_cons_self ..)
  have hbyte : (buf.getD 0 0 == frameAckEcn) = ecn.isSome := by
    rw [List.getD_eq_getElem?_getD, ← List.head?_eq_getElem?, hhead]
    cases ecn <;> rfl
  have hfirst : sub64 r0.hi r0.lo = r0.hi - r0.lo := sub64_of_le hle (by omega)
  have hback : sub64 r0.hi (r0.hi - r0.lo) = r0.lo := by
    rw [sub64_of_le (by omega) (by omega)]
    omega
  rw [List.length_cons] at hlen
  have hsmall : ¬ (r0.hi - r0.lo > r0.hi ∨ u64 (rest.length + 1) > ackMaxRanges) := by
    rw [u64_of_lt (by omega)]
    omega
  simp only [ackValues, hfirst, List.length_cons, Nat.add_sub_cancel, varints_append, varints_cons,
    varints_nil, List.append_nil, List.append_assoc] at h ⊢
  obtain ⟨hlargest, h⟩ := h.varintTake hhi
  obtain ⟨hdelay, h⟩ := h.varintTake hrange.delay
  obtain ⟨hn, h⟩ := h.varintTake (by omega)
  obtain ⟨htake, h⟩ := h.varintTake (by omega)
  obtain ⟨hpairs, h⟩ := takeAckPairs_of_restAt hrange.ranges
    (fun r hr => hdesc.1 r (List.mem_cons_of_mem _ hr)) hdesc.2 h
  have hecn := takeAckEcn_of_restAt hrange.ecn h
  simp only [ackDecode, hlargest, hdelay, hn, htake, if_neg hsmall, hback, hpairs, hbyte, hecn,
    Option.bind_eq_bind, Option.bind_some, Option.pure_def]
  simp [Nat.add_assoc]

theorem ackType_le (f : AckFrame) : ackType f ≤ 63 := by
  rw [ackType]
  split <;> decide

theorem hasWire_ack (hranges : f.ranges = r0 :: rest) (hlen : f.ranges.length ≤ ackMaxRanges)
    (hrange : f.InRange) (hdesc : Descending f.ranges) :
    HasWire ackEncode ackDecode f (varints (ackType f :: ackValues f r0)) :=
  hasWire_of_varints (ackType_le f) ((forall_ackValues_iff hranges hlen hrange).2 hdesc)
    (ackEncode_eq hranges hlen)
    fun _ _ hhead h => ackDecode_of_restAt hranges hlen hrange hdesc hhead h

theorem Descending.hi_le (h : Descending (r0 :: rest)) : ∀ r ∈ r0 :: rest, r.hi ≤ r0.hi := by
  induction rest generalizing r0 with
  | nil => simp
  | cons cur rest ih =>
    obtain ⟨hends, hchain⟩ := h
    obtain ⟨hgap, hchain⟩ := List.isChain_cons_cons.1 hchain
    have hrest := ih ⟨fun r hr => hends r (List.mem_cons_of_mem _ hr), hchain⟩
    have hle : r0.lo ≤ r0.hi := hends r0 (List.mem_cons_self ..)
    intro r hr
    rcases List.mem_cons.1 hr with rfl | hr
    · exact Nat.le_refl _
    · have := hrest r hr
      omega

theorem ackEncode_eq_some (hdesc : Descending f.ranges) {cap : ℕ} {out : Bytes}
    (h : ackEncode cap f = some out) :
    ∃ r0, out = varints (ackType f :: ackValues f r0) ∧ HasWire ackEncode ackDecode f out := by
  cases hranges : f.ranges with
  | nil => simp [ackEncode, hranges] at h
  | cons r0 rest =>
    have hlen : f.ranges.length ≤ ackMaxRanges := by
      by_contra hlong
      simp only [ackEncode, hranges] at h
      rw [hranges] at hlong
      rw [if_pos (by omega)] at h
      cases h
    have hvalues := le_varintMax_of_putVarints ((ackEncode_eq hranges hlen cap).symm.trans h)
    have hhi : r0.hi ≤ varintMax := hvalues _ (by simp [ackValues])
    -- the ranges descend from the first number, and everything else is written as it is
    have hrange : f.InRange := by
      refine ⟨hvalues _ (by simp [ackValues]), fun r hr => ?_, fun e he => ?_⟩
      · have hends := hdesc.1 r hr
        rw [hranges] at hdesc hr
        have := hdesc.hi_le r hr
        omega
      · have hecn : f.ecn = some e := he
        refine ⟨?_, ?_, ?_⟩ <;> exact hvalues _ (by simp [ackValues, ecnValues, hecn])
    have hwire := hasWire_ack hranges hlen hrange hdesc
    obtain rfl := (hwire.eq_of_encode h).1
    exact ⟨r0, rfl, hwire⟩

/-! ### One packet number -/

/-- The ACK frame for one packet number on the wire. -/
def ackOneBytes (pn : ℕ) : Bytes := varints [frameAck.toNat, pn, 0, 0, 0]

theorem ackOne_eq (h : pn ≤ varintMax) :
    (∀ cap, ackOne cap pn =
      if (ackOneBytes pn).length ≤ cap then some (ackOneBytes pn) else none) ∧
    ∀ tail, (ackDecode (ackOneBytes pn ++ tail)).map (·.2) = some (ackOneBytes pn).length := by
  have hzero : sub64 pn pn = 0 := by
    rw [sub64]
    have hmax : varintMax = 4611686018427387903 := rfl
    omega
  obtain ⟨henc, hdec⟩ := hasWire_ack
    (f := { ackDelay := 0, ranges := [{ hi := pn, lo := pn }], ecn := none }) rfl (by simp [ackMaxRanges])
    ⟨Nat.zero_le _, by simpa using h, by simp⟩ ⟨by simp, .singleton _⟩
  simp only [ackType, ackValues, ackPairs, ecnValues, hzero, Option.isSome_none, List.append_nil,
    Bool.false_eq_true, if_false, List.length_singleton, Nat.sub_self] at henc hdec
  exact ⟨henc, fun tail => by rw [ackOneBytes, hdec tail]; rfl⟩

theorem ackOne_of_gt (h : varintMax < pn) (cap : ℕ) : ackOne cap pn = none :=
  putVarints_of_gt ⟨pn, by simp, h⟩

theorem length_ackOneBytes_le (pn : ℕ) : (ackOneBytes pn).length ≤ 12 := by
  have hlen : varintLen pn ≤ 8 := by
    simp only [varintLen]
    split_ifs <;> omega
  have hsmall : varintLen frameAck.toNat = 1 ∧ varintLen 0 = 1 := by decide
  simp only [ackOneBytes, varints_cons, varints_nil, List.length_append, length_varintEncode,
    List.length_nil, hsmall.1, hsmall.2]
  omega

/-! ## What the decoder accepts -/

theorem takeAckPairs_eq_some {count prevLo : ℕ} (hprev : prevLo ≤ varintMax)
    (hoff : off ≤ buf.length) (h : takeAckPairs buf count off prevLo = some (rest, off')) :
    rest.length = count ∧ off' ≤ buf.length ∧
      (∀ r ∈ rest, r.hi ≤ varintMax ∧ r.lo ≤ r.hi) ∧
      ∀ top, ({ hi := top, lo := prevLo } :: rest).IsChain
        fun prev cur => cur.hi + 2 ≤ prev.lo := by
  induction count generalizing off prevLo rest with
  | zero =>
    obtain ⟨rfl, rfl⟩ := Prod.mk.inj (Option.some.inj h)
    exact ⟨rfl, hoff, by simp, fun top => .singleton _⟩
  | succ count ih =>
    have hmax : varintMax = 4611686018427387903 := rfl
    simp only [takeAckPairs, Option.bind_eq_bind, Option.bind_eq_some_iff] at h
    obtain ⟨⟨gap, off₁⟩, hgap, ⟨len, off₂⟩, hlen, h⟩ := h
    obtain ⟨hgapMax, -, -⟩ := varintTake_eq_some hgap
    obtain ⟨hlenMax, -, hoff₂⟩ := varintTake_eq_some hlen
    by_cases hfits : pairFits prevLo gap len = true
    · simp only [hfits, Bool.not_true, Bool.false_eq_true, if_false, Option.bind_eq_some_iff] at h
      obtain ⟨⟨rest', off₃⟩, htail, h⟩ := h
      obtain ⟨rfl, rfl⟩ := Prod.mk.inj (Option.some.inj h)
      -- both checks were made in arithmetic that does not wrap on varints
      simp only [pairFits, Bool.and_eq_true, decide_eq_true_eq] at hfits
      obtain ⟨hroom, hfits⟩ := hfits
      rw [u64_of_lt (by omega)] at hroom
      have hhi : sub64 (sub64 prevLo gap) 2 = prevLo - gap - 2 := gap_eq hprev (by omega)
      rw [hhi] at htail hfits ⊢
      have hlo : sub64 (prevLo - gap - 2) len = prevLo - gap - 2 - len :=
        sub64_of_le hfits (by omega)
      rw [hlo] at htail ⊢
      obtain ⟨hcount, hend, hall, hchain⟩ := ih (by omega) hoff₂ htail
      refine ⟨by simp [hcount], hend, ?_, fun top => ?_⟩
      · intro r hr
        rcases List.mem_cons.1 hr with rfl | hr
        · exact ⟨by dsimp only; omega, Nat.sub_le _ _⟩
        · exact hall r hr
      · exact List.isChain_cons_cons.2 ⟨by dsimp only; omega, hchain _⟩
    · simp [hfits] at h

theorem takeAckEcn_eq_some (hoff : off ≤ buf.length) {hasEcn : Bool}
    (h : takeAckEcn buf off hasEcn = some (ecn, off')) :
    off' ≤ buf.length ∧
      ∀ e ∈ ecn, e.ect0 ≤ varintMax ∧ e.ect1 ≤ varintMax ∧ e.ce ≤ varintMax := by
  cases hasEcn with
  | false =>
    obtain ⟨rfl, rfl⟩ := Prod.mk.inj (Option.some.inj h)
    exact ⟨hoff, by simp⟩
  | true =>
    simp only [takeAckEcn, Bool.not_true, Bool.false_eq_true, if_false, Option.bind_eq_bind,
      Option.bind_eq_some_iff] at h
    obtain ⟨⟨ect0, off₁⟩, htake0, ⟨ect1, off₂⟩, htake1, ⟨ce, off₃⟩, htakeCe, h⟩ := h
    obtain ⟨rfl, rfl⟩ := Prod.mk.inj (Option.some.inj h)
    obtain ⟨hce, -, hend⟩ := varintTake_eq_some htakeCe
    refine ⟨hend, fun e he => ?_⟩
    obtain rfl := Option.some.inj he
    exact ⟨(varintTake_eq_some htake0).1, (varintTake_eq_some htake1).1, hce⟩

/-- **What the decoder accepts** is well formed. -/
theorem ackDecode_eq_some {n : ℕ} (h : ackDecode buf = some (f, n)) :
    1 ≤ f.ranges.length ∧ f.ranges.length ≤ ackMaxRanges ∧ Descending f.ranges ∧ f.InRange ∧
      n ≤ buf.length := by
  have hmax : varintMax = 4611686018427387903 := rfl
  have hcount : ackMaxRanges = 32 := rfl
  simp only [ackDecode, Option.bind_eq_bind, Option.bind_eq_some_iff] at h
  obtain ⟨⟨largest, off₁⟩, hlargest, ⟨delay, off₂⟩, hdelay, ⟨count, off₃⟩, hn, ⟨first, off₄⟩, hfirst,
    h⟩ := h
  obtain ⟨hlargestMax, -, -⟩ := varintTake_eq_some hlargest
  obtain ⟨hnMax, -, -⟩ := varintTake_eq_some hn
  obtain ⟨-, -, hoff₄⟩ := varintTake_eq_some hfirst
  split at h
  · cases h
  · rename_i hok
    rw [u64_of_lt (by omega)] at hok
    simp only [Option.bind_eq_some_iff] at h
    obtain ⟨⟨rest, off₅⟩, hpairs, ⟨ecn, off₆⟩, hecn, h⟩ := h
    obtain ⟨rfl, rfl⟩ := Prod.mk.inj (Option.some.inj h)
    have hlo : sub64 largest first = largest - first := sub64_of_le (by omega) (by omega)
    rw [hlo] at hpairs ⊢
    obtain ⟨hlen, hoff₅, hall, hchain⟩ := takeAckPairs_eq_some (by omega) hoff₄ hpairs
    obtain ⟨hoff₆, hecnMax⟩ := takeAckEcn_eq_some hoff₅ hecn
    refine ⟨by simp, by simp; omega, ⟨?_, hchain _⟩, ⟨(varintTake_eq_some hdelay).1, ?_, hecnMax⟩,
      hoff₆⟩
    · intro r hr
      rcases List.mem_cons.1 hr with rfl | hr
      · exact Nat.sub_le _ _
      · exact (hall r hr).2
    · intro r hr
      rcases List.mem_cons.1 hr with rfl | hr
      · exact ⟨hlargestMax, by dsimp only; omega⟩
      · have := hall r hr
        omega

/-! ## The codec -/

/-- **The ACK codec.** For every frame with one to 32 ranges and numbers below `2 ^ 62`: if the
ranges do not descend nothing is ever encoded, and if they do the frame has one form on the wire,
which is written whenever it fits and read back, whatever follows. And whatever the decoder accepts
has at most 32 ranges, which descend, with all numbers below `2 ^ 62`. -/
theorem ack_codec :
    (∀ f : AckFrame, 1 ≤ f.ranges.length → f.ranges.length ≤ ackMaxRanges → f.InRange →
      (¬ Descending f.ranges → ∀ cap, ackEncode cap f = none) ∧
      (Descending f.ranges → RoundTrips ackEncode ackDecode f)) ∧
    (∀ buf f n, ackDecode buf = some (f, n) → f.ranges.length ≤ ackMaxRanges ∧
      Descending f.ranges ∧ f.InRange ∧ n ≤ buf.length) := by
  refine ⟨fun f hpos hlen hrange => ?_, fun buf f n h => (ackDecode_eq_some h).2⟩
  obtain ⟨r0, rest, hranges⟩ := List.exists_cons_of_length_pos hpos
  have hvalues := forall_ackValues_iff hranges hlen hrange
  constructor
  · intro hdesc cap
    obtain ⟨v, hv, hgt⟩ : ∃ v ∈ ackValues f r0, varintMax < v := by
      by_contra hno
      exact hdesc (hvalues.1 fun v hv => Nat.le_of_not_lt fun hgt => hno ⟨v, hv, hgt⟩)
    rw [ackEncode_eq hranges hlen]
    exact putVarints_of_gt ⟨v, List.mem_cons_of_mem _ hv, hgt⟩
  · exact fun hdesc => ⟨_, hasWire_ack hranges hlen hrange hdesc⟩

/-- Two ranges with one number missing between them. -/
theorem ack_codec_gap :
    RoundTrips ackEncode ackDecode
      { ackDelay := 7, ranges := [{ hi := 9, lo := 6 }, { hi := 4, lo := 0 }], ecn := none } :=
  (ack_codec.1 _ (by decide) (by decide) ⟨by decide, by decide, by simp⟩).2
    ⟨by decide, .cons_cons (by decide) (.singleton _)⟩

end Frame

end QuicVibe
