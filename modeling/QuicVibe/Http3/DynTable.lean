import QuicVibe.Common.Bytes
import QuicVibe.Common.Ring
import QuicVibe.Common.Run
/-!
# The QPACK dynamic table

The table of `dyntable.c` keeps the live entries in a ring of 64 slots. An insert evicts the oldest
entries until the new one fits the capacity in bytes (RFC 9204 3.2.2), but the number of slots is
checked before anything is evicted: a table with 64 live entries refuses the insert, and from then on
its indices are not those of the peer. The count of inserts a field section requires goes out modulo
twice the number of entries (`insertcount.c`).

`dropped` counts evictions and is a natural number here.
-/

namespace QuicVibe

namespace Http3

/-- `QUIC_QPACK_DYN_MAX_ENTRIES`. -/
abbrev dynMaxEntries : ℕ := 64

/-- `QUIC_QPACK_DYN_MAX_NAME`. -/
abbrev dynMaxName : ℕ := 256

/-- `QUIC_QPACK_DYN_MAX_VALUE`. -/
abbrev dynMaxValue : ℕ := 1024

/-- A name and a value. -/
abbrev Field := Bytes × Bytes

structure DynEntry where
  name : Vector UInt8 dynMaxName
  value : Vector UInt8 dynMaxValue
  nameLen : ℕ
  valueLen : ℕ

/-- The field an entry shows. -/
def DynEntry.field (e : DynEntry) : Field :=
  (e.name.toList.take e.nameLen, e.value.toList.take e.valueLen)

structure Dyn where
  ring : Vector DynEntry dynMaxEntries
  /-- The slot of the oldest live entry. -/
  head : ℕ
  /-- The number of live entries. -/
  count : ℕ
  /-- The absolute index of the oldest live entry. -/
  dropped : ℕ
  size : ℕ
  capacity : ℕ

def entrySize (nameLen valueLen : ℕ) : ℕ := u64 (nameLen + valueLen + 32)

namespace Dyn

/-- `quic_qpack_dyn_init`; the slots keep their contents. -/
def init (t : Dyn) (capacity : ℕ) : Dyn :=
  { t with head := 0, count := 0, dropped := 0, size := 0, capacity := capacity }

/-! ## Inserting -/

def evictOldest (t : Dyn) : Dyn :=
  let e := Ring.slot t.ring t.head
  { t with
    size := sub64 t.size (entrySize e.nameLen e.valueLen)
    head := (t.head + 1) % dynMaxEntries
    count := t.count - 1
    dropped := t.dropped + 1 }

def fitsFields (nameLen valueLen : ℕ) : Bool := nameLen ≤ dynMaxName && valueLen ≤ dynMaxValue

def overCapacity (t : Dyn) (need : ℕ) : Bool := u64 (t.size + need) > t.capacity

/-- The loop of `make_room`, with fuel for the evictions. -/
def makeRoomFuel : ℕ → Dyn → ℕ → Dyn
  | 0, t, _ => t
  | fuel + 1, t, need =>
    if t.count > 0 && t.overCapacity need then makeRoomFuel fuel t.evictOldest need else t

/-- `make_room`: every round takes an entry off. -/
def makeRoom (t : Dyn) (need : ℕ) : Dyn := makeRoomFuel t.count t need

/-- `can_insert`: the slots are checked as they are before the eviction. -/
def canInsert (t : Dyn) (need nameLen valueLen : ℕ) : Bool :=
  if !fitsFields nameLen valueLen then false
  else if need > t.capacity then false
  else t.count < dynMaxEntries

def storeEntry (t : Dyn) (name value : Bytes) : Dyn :=
  let slot := t.head + t.count
  let e := Ring.slot t.ring slot
  { t with
    ring := Ring.setSlot t.ring slot
      { name := Buf.writeAt e.name 0 name
        value := Buf.writeAt e.value 0 value
        nameLen := name.length
        valueLen := value.length }
    size := u64 (t.size + entrySize name.length value.length)
    count := t.count + 1 }

def insert (t : Dyn) (name value : Bytes) : Bool × Dyn :=
  let need := entrySize name.length value.length
  if !t.canInsert need name.length value.length then (false, t)
  else (true, (t.makeRoom need).storeEntry name value)

/-! ## Lookup -/

def isLive (t : Dyn) (absIndex : ℕ) : Bool :=
  absIndex ≥ t.dropped && absIndex < t.dropped + t.count

/-- `quic_qpack_dyn_get`: the name and the value the views show. -/
def get (t : Dyn) (absIndex : ℕ) : Option Field :=
  if !t.isLive absIndex then none
  else some (Ring.slot t.ring (t.head + (absIndex - t.dropped))).field

/-- How well an entry matches (`classify`). -/
inductive Match
  | no
  | nameOnly
  | full
  deriving DecidableEq, Repr

def classify (e : DynEntry) (name value : Bytes) : Match :=
  if !bytesEq e.field.1 name then .no
  else if bytesEq e.field.2 value then .full else .nameOnly

/-- `scan_one`: whether to stop, and the best match so far. -/
def scanOne (t : Dyn) (name value : Bytes) (off : ℕ) (best : Option (ℕ × Bool)) :
    Bool × Option (ℕ × Bool) :=
  match classify (Ring.slot t.ring (t.head + off)) name value with
  | .full => (true, some (t.dropped + off, true))
  | .nameOnly => (false, if best.isSome then best else some (t.dropped + off, false))
  | .no => (false, best)

/-- The loop of `quic_qpack_dyn_find` over the `n` entries from `off` on. -/
def findFrom (t : Dyn) (name value : Bytes) : ℕ → ℕ → Option (ℕ × Bool) → Option (ℕ × Bool)
  | 0, _, best => best
  | n + 1, off, best =>
    match t.scanOne name value off best with
    | (true, best) => best
    | (false, best) => findFrom t name value n (off + 1) best

/-- `quic_qpack_dyn_find`: the absolute index and whether the value matched too. -/
def find (t : Dyn) (name value : Bytes) : Option (ℕ × Bool) := t.findFrom name value t.count 0 none

/-! ## The table as a list -/

/-- The live entries, oldest first. -/
def live (t : Dyn) : List Field := (Ring.window t.ring t.head t.count).map DynEntry.field

@[simp] theorem length_live (t : Dyn) : t.live.length = t.count := by simp [live]

/-- The size of a field as RFC 9204 section 3.2.1 counts it. -/
def fieldSize (f : Field) : ℕ := f.1.length + f.2.length + 32

/-- Within the limits of the fixed fields. -/
def WithinLimits (f : Field) : Prop := f.1.length ≤ dynMaxName ∧ f.2.length ≤ dynMaxValue

theorem fieldSize_le {f : Field} (h : WithinLimits f) : fieldSize f ≤ 1312 := by
  obtain ⟨hname, hvalue⟩ := h
  simp only [dynMaxName, dynMaxValue] at hname hvalue
  rw [fieldSize]
  omega

theorem entrySize_eq {f : Field} (h : WithinLimits f) :
    entrySize f.1.length f.2.length = fieldSize f :=
  u64_of_lt (Nat.lt_of_le_of_lt (fieldSize_le h) (by decide))

/-- **The invariant**: the live entries are what is left of the accepted inserts `hist` once the
first `dropped` of them are gone, and the size is theirs. -/
structure Holds (t : Dyn) (limit : ℕ) (hist : List Field) : Prop where
  cap : t.capacity = limit
  slots : t.count ≤ dynMaxEntries
  total : t.dropped + t.count = hist.length
  recent : t.live = hist.drop t.dropped
  lens : ∀ e ∈ Ring.window t.ring t.head t.count,
    e.nameLen = e.field.1.length ∧ e.valueLen = e.field.2.length
  limits : ∀ f ∈ t.live, WithinLimits f
  sum : t.size = (t.live.map fieldSize).sum
  bound : t.size ≤ limit

theorem holds_init (t : Dyn) (limit : ℕ) : Holds (t.init limit) limit [] where
  cap := rfl
  slots := Nat.zero_le _
  total := rfl
  recent := rfl
  lens := by simp [init]
  limits := by simp [live, init]
  sum := rfl
  bound := Nat.zero_le _

section

variable {t : Dyn} {limit : ℕ} {hist : List Field}

theorem Holds.size_le (h : Holds t limit hist) : t.size ≤ 64 * 1312 := by
  have hsum : (t.live.map fieldSize).sum ≤ (t.live.map fieldSize).length • 1312 := by
    refine List.sum_le_card_nsmul _ _ fun n hn => ?_
    obtain ⟨f, hf, rfl⟩ := List.mem_map.1 hn
    exact fieldSize_le (h.limits f hf)
  rw [List.length_map, length_live, smul_eq_mul] at hsum
  rw [h.sum]
  exact hsum.trans (Nat.mul_le_mul_right 1312 h.slots)

theorem live_cons (h : 0 < t.count) :
    t.live = (Ring.slot t.ring t.head).field :: t.evictOldest.live := by
  obtain ⟨n, hn⟩ := Nat.exists_eq_succ_of_ne_zero (Nat.ne_of_gt h)
  rw [live, hn, Nat.succ_eq_add_one, Ring.window_succ, List.map_cons]
  simp only [live, evictOldest, hn, Nat.succ_eq_add_one, Nat.add_sub_cancel, Ring.window_mod]

/-- **Evicting** takes the oldest entry off. -/
theorem Holds.evictOldest (h : Holds t limit hist) (hpos : 0 < t.count) :
    Holds t.evictOldest limit hist := by
  have hcons := live_cons hpos
  obtain ⟨n, hn⟩ := Nat.exists_eq_succ_of_ne_zero (Nat.ne_of_gt hpos)
  have hwindow : Ring.window t.ring t.head t.count = Ring.slot t.ring t.head ::
      Ring.window t.evictOldest.ring t.evictOldest.head t.evictOldest.count := by
    simp only [Dyn.evictOldest, hn, Nat.succ_eq_add_one, Nat.add_sub_cancel, Ring.window_mod,
      Ring.window_succ]
  have hlimits := h.limits
  have hlens := h.lens
  rw [hcons, List.forall_mem_cons] at hlimits
  rw [hwindow, List.forall_mem_cons] at hlens
  have hsum := h.sum
  rw [hcons, List.map_cons, List.sum_cons] at hsum
  have hsize : t.evictOldest.size = (t.evictOldest.live.map fieldSize).sum := by
    have hle := h.size_le
    have hoff : entrySize (Ring.slot t.ring t.head).nameLen (Ring.slot t.ring t.head).valueLen =
        fieldSize (Ring.slot t.ring t.head).field := by
      rw [hlens.1.1, hlens.1.2]
      exact entrySize_eq hlimits.1
    have hsub : t.evictOldest.size = sub64 t.size (fieldSize (Ring.slot t.ring t.head).field) := by
      rw [← hoff]
      rfl
    rw [hsub, sub64_of_le (by omega) (by omega)]
    omega
  have hbound := h.bound
  refine ⟨h.cap, Nat.le_trans (Nat.sub_le _ _) h.slots, ?_, ?_, hlens.2, hlimits.2, hsize, ?_⟩
  · have htotal := h.total
    show t.dropped + 1 + (t.count - 1) = hist.length
    omega
  · have htail : (t.live).tail = t.evictOldest.live := by rw [hcons, List.tail_cons]
    rw [← htail, h.recent, List.tail_drop]
    rfl
  · rw [hsize]
    omega

/-- **Making room** keeps the invariant and leaves room for an entry that fits at all. -/
theorem Holds.makeRoomFuel {fuel : ℕ} (hfuel : t.count ≤ fuel) (h : Holds t limit hist) {need : ℕ}
    (hneed : need ≤ 1312) (hfit : need ≤ limit) :
    Holds (t.makeRoomFuel fuel need) limit hist ∧
      (t.makeRoomFuel fuel need).count ≤ t.count ∧
      (t.makeRoomFuel fuel need).size + need ≤ limit := by
  induction fuel generalizing t with
  | zero => 
    have hzero : t.count = 0 := by omega
    have hempty : t.size = 0 := by
      rw [h.sum, List.length_eq_zero_iff.1 (t.length_live.trans hzero)]
      rfl
    exact ⟨h, Nat.le_refl _, by rw [Dyn.makeRoomFuel, hempty, Nat.zero_add]; exact hfit⟩
  | succ fuel ih =>
    have hsize := h.size_le
    have hover : t.overCapacity need = decide (t.size + need > limit) := by
      rw [overCapacity, u64_of_lt (by omega), h.cap]
    rw [Dyn.makeRoomFuel, hover]
    by_cases hpos : t.count > 0
    · by_cases hgt : t.size + need > limit
      · have hcount : t.evictOldest.count = t.count - 1 := rfl
        rw [if_pos (by simp [hpos, hgt])]
        obtain ⟨hholds, hle, hroom⟩ := ih (by omega) (h.evictOldest hpos)
        exact ⟨hholds, by omega, hroom⟩
      · rw [if_neg (by simp [hgt])]
        exact ⟨h, Nat.le_refl _, by omega⟩
    · have hempty : t.size = 0 := by
        rw [h.sum, List.length_eq_zero_iff.1 (t.length_live.trans (by omega))]
        rfl
      rw [if_neg (by simp [hpos])]
      exact ⟨h, Nat.le_refl _, by omega⟩

/-- **Storing** appends the new entry. -/
theorem Holds.storeEntry (h : Holds t limit hist) {f : Field} (hf : WithinLimits f)
    (hslot : t.count < dynMaxEntries) (hroom : t.size + fieldSize f ≤ limit) :
    Holds (t.storeEntry f.1 f.2) limit (hist ++ [f]) ∧ (t.storeEntry f.1 f.2).live = t.live ++ [f] := by
  have hsize := h.size_le
  have hle := fieldSize_le hf
  set e : DynEntry :=
    { name := Buf.writeAt (Ring.slot t.ring (t.head + t.count)).name 0 f.1
      value := Buf.writeAt (Ring.slot t.ring (t.head + t.count)).value 0 f.2
      nameLen := f.1.length
      valueLen := f.2.length } with he
  have hfield : e.field = f := by
    rw [DynEntry.field, he, Buf.toList_writeAt_zero _ hf.1, Buf.toList_writeAt_zero _ hf.2,
      List.take_left, List.take_left]
  have hwindow : Ring.window (t.storeEntry f.1 f.2).ring (t.storeEntry f.1 f.2).head
      (t.storeEntry f.1 f.2).count = Ring.window t.ring t.head t.count ++ [e] :=
    Ring.window_setSlot t.ring t.head t.count e hslot
  have hlive : (t.storeEntry f.1 f.2).live = t.live ++ [f] := by
    rw [live, hwindow, List.map_append, List.map_singleton, hfield, live]
  have hsum : (t.storeEntry f.1 f.2).size = t.size + fieldSize f := by
    show u64 (t.size + entrySize f.1.length f.2.length) = _
    rw [entrySize_eq hf, u64_of_lt (by omega)]
  have htotal := h.total
  refine ⟨⟨h.cap, hslot, ?_, ?_, ?_, ?_, ?_, ?_⟩, hlive⟩
  · rw [List.length_append, List.length_singleton, ← htotal]
    rfl
  · rw [hlive, h.recent]
    exact (List.drop_append_of_le_length (by omega)).symm
  · rw [hwindow]
    intro x hx
    rcases List.mem_append.1 hx with hx | hx
    · exact h.lens x hx
    · rw [List.mem_singleton.1 hx, hfield]
      exact ⟨rfl, rfl⟩
  · rw [hlive]
    intro x hx
    rcases List.mem_append.1 hx with hx | hx
    · exact h.limits x hx
    · rw [List.mem_singleton.1 hx]
      exact hf
  · rw [hsum, hlive, List.map_append, List.sum_append, h.sum]
    simp
  · rw [hsum]
    exact hroom

end

/-! ## Runs -/

/-- One insert of a sequence. -/
def insertNext (t : Dyn) (f : Field) : Dyn := (t.insert f.1 f.2).2

/-- Whether an insert of a sequence is accepted. -/
def accepts (e : Dyn × Field) : Bool := (e.1.insert e.2.1 e.2.2).1

/-- The fields of a sequence that were accepted, in order. -/
def accepted (t : Dyn) (fs : List Field) : List Field :=
  ((Run.steps insertNext t fs).filter accepts).map Prod.snd

section

variable {t : Dyn} {limit : ℕ} {hist : List Field}

theorem canInsert_iff (f : Field) :
    t.canInsert (entrySize f.1.length f.2.length) f.1.length f.2.length = true ↔
      WithinLimits f ∧ fieldSize f ≤ t.capacity ∧ t.count < dynMaxEntries := by
  unfold canInsert fitsFields
  by_cases hf : WithinLimits f
  · rw [entrySize_eq hf]
    by_cases hcap : fieldSize f > t.capacity
    · simp [hf.1, hf.2, hcap]
    · simp [hf, hf.1, hf.2, hcap, Nat.le_of_not_lt hcap]
  · have hno : (!(decide (f.1.length ≤ dynMaxName) && decide (f.2.length ≤ dynMaxValue))) = true := by
      simpa [WithinLimits, imp_iff_not_or] using hf
    simp [hf, hno]

/-- **An insert** is refused and changes nothing, or it appends to what is left of the table. -/
theorem insert_cases (h : Holds t limit hist) (f : Field) :
    (t.insert f.1 f.2 = (false, t) ∧
      ¬ (WithinLimits f ∧ fieldSize f ≤ limit ∧ t.count < dynMaxEntries)) ∨
    ((t.insert f.1 f.2).1 = true ∧ (WithinLimits f ∧ fieldSize f ≤ limit ∧ t.count < dynMaxEntries) ∧
      Holds (insertNext t f) limit (hist ++ [f]) ∧
      (insertNext t f).live = (t.makeRoom (fieldSize f)).live ++ [f]) := by
  have hcan := t.canInsert_iff f
  rw [h.cap] at hcan
  by_cases hok : WithinLimits f ∧ fieldSize f ≤ limit ∧ t.count < dynMaxEntries
  · right
    have hins : t.insert f.1 f.2 = (true, (t.makeRoom (fieldSize f)).storeEntry f.1 f.2) := by
      rw [insert, hcan.2 hok, entrySize_eq hok.1]
      rfl
    obtain ⟨hroom, hle, hfits⟩ := h.makeRoomFuel (Nat.le_refl _) (fieldSize_le hok.1) hok.2.1
    rw [insertNext, hins]
    exact ⟨rfl, hok, hroom.storeEntry hok.1 (Nat.lt_of_le_of_lt hle hok.2.2) hfits⟩
  · left
    refine ⟨?_, hok⟩
    rw [insert, Bool.eq_false_iff.2 (mt hcan.1 hok)]
    rfl

/-- **Every sequence of inserts** keeps the invariant, over the fields it accepted. -/
theorem holds_run (h : Holds t limit []) (fs : List Field) :
    Holds (Run.run insertNext t fs) limit (accepted t fs) := by
  refine Run.steps_history (P := fun past t => Holds t limit
    ((past.filter accepts).map Prod.snd)) ?_ h fs
  intro past t f hp
  rw [List.filter_append, List.map_append]
  rcases insert_cases hp f with ⟨hno, -⟩ | ⟨hyes, -, hnext, -⟩
  · have hrefused : accepts (t, f) = false := congrArg Prod.fst hno
    have hsame : insertNext t f = t := congrArg Prod.snd hno
    simpa [hrefused, hsame] using hp
  · have htaken : accepts (t, f) = true := hyes
    simpa [htaken] using hnext

/-! ## Lookup and search -/

/-- **Lookup** by absolute index: the accepted field at that position, while it is live. -/
theorem get_eq (h : Holds t limit hist) (i : ℕ) :
    t.get i = if t.dropped ≤ i then hist[i]? else none := by
  have htotal := h.total
  by_cases hlow : t.dropped ≤ i
  · rw [if_pos hlow]
    by_cases hhigh : i < t.dropped + t.count
    · have hget : t.live[i - t.dropped]? =
          some (Ring.slot t.ring (t.head + (i - t.dropped))).field := by
        rw [live, List.getElem?_map, Ring.getElem?_window _ _ _ (by omega)]
        rfl
      rw [h.recent, List.getElem?_drop, Nat.add_sub_cancel' hlow] at hget
      rw [hget, get, isLive]
      simp [hlow, hhigh]
    · rw [List.getElem?_eq_none (by omega), get, isLive]
      simp [hhigh]
  · rw [if_neg hlow, get, isLive]
    simp [Nat.lt_of_not_le hlow]

theorem scanOne_eq (name value : Bytes) (off : ℕ) (best : Option (ℕ × Bool)) :
    t.scanOne name value off best =
      if (Ring.slot t.ring (t.head + off)).field = (name, value) then
        (true, some (t.dropped + off, true))
      else if (Ring.slot t.ring (t.head + off)).field.1 = name then
        (false, best.or (some (t.dropped + off, false)))
      else (false, best) := by
  unfold scanOne classify
  generalize (Ring.slot t.ring (t.head + off)).field = f
  by_cases hname : f.1 = name
  · by_cases hvalue : f.2 = value
    · have hfield : f = (name, value) := Prod.ext hname hvalue
      rw [if_pos hfield, (bytesEq_iff _ _).2 hname, (bytesEq_iff _ _).2 hvalue]
      rfl
    · have hfield : f ≠ (name, value) := fun heq => hvalue (by rw [heq])
      rw [if_neg hfield, if_pos hname, (bytesEq_iff _ _).2 hname,
        Bool.eq_false_iff.2 (mt (bytesEq_iff _ _).1 hvalue)]
      cases best <;> rfl
  · have hfield : f ≠ (name, value) := fun heq => hname (by rw [heq])
    rw [if_neg hfield, if_neg hname, Bool.eq_false_iff.2 (mt (bytesEq_iff _ _).1 hname)]
    rfl

/-- The search over the entries from `off` on: the first full match, or what was found before, or
the first match of the name. -/
theorem findFrom_eq (name value : Bytes) (n off : ℕ) (best : Option (ℕ × Bool)) :
    t.findFrom name value n off best =
      let fs := (Ring.window t.ring (t.head + off) n).map DynEntry.field
      ((fs.findIdx? (· == (name, value))).map fun i => (t.dropped + off + i, true)).or
        (best.or ((fs.findIdx? (·.1 == name)).map fun i => (t.dropped + off + i, false))) := by
  induction n generalizing off best with
  | zero => simp [findFrom]
  | succ n ih =>
    have hshift : ∀ b : Bool, ((fun i => (t.dropped + (off + i), b)) ∘ fun i => i + 1) =
        fun i => (t.dropped + (off + (1 + i)), b) := by
      intro b
      funext i
      rw [Function.comp_apply, Nat.add_comm i 1]
    simp only [Ring.window_succ, List.map_cons, List.findIdx?_cons, findFrom, scanOne_eq]
    generalize (Ring.slot t.ring (t.head + off)).field = f
    by_cases hfield : f = (name, value)
    · simp [hfield]
    · by_cases hname : f.1 = name
      · simp [hfield, hname, ih, hshift, Nat.add_assoc]
      · simp [hfield, hname, ih, hshift, Nat.add_assoc]

/-- **Search**: the first live entry that matches in full, or else the first with the name. -/
theorem find_eq (name value : Bytes) :
    t.find name value =
      ((t.live.findIdx? (· == (name, value))).map fun i => (t.dropped + i, true)).or
        ((t.live.findIdx? (·.1 == name)).map fun i => (t.dropped + i, false)) :=
  t.findFrom_eq name value t.count 0 none

theorem find_some (h : Holds t limit hist) {name value : Bytes} {i : ℕ} {full : Bool}
    (hfind : t.find name value = some (i, full)) :
    ∃ f, t.get i = some f ∧ f.1 = name ∧ (full = true ↔ f.2 = value) := by
  have hlive : ∀ k (hk : k < t.live.length), t.get (t.dropped + k) = some t.live[k] := by
    intro k hk
    rw [get_eq h, if_pos (Nat.le_add_right _ _), ← List.getElem?_eq_getElem hk, h.recent,
      List.getElem?_drop]
  rw [find_eq] at hfind
  rcases Option.or_eq_some_iff.1 hfind with hfull | ⟨hnone, hname⟩
  · obtain ⟨k, hk, heq⟩ := Option.map_eq_some_iff.1 hfull
    obtain ⟨hlt, hp, -⟩ := List.findIdx?_eq_some_iff_getElem.1 hk
    obtain ⟨rfl, rfl⟩ := Prod.mk.inj heq
    rw [beq_iff_eq] at hp
    exact ⟨_, hlive k hlt, by rw [hp], by rw [hp]; simp⟩
  · obtain ⟨k, hk, heq⟩ := Option.map_eq_some_iff.1 hname
    obtain ⟨hlt, hp, -⟩ := List.findIdx?_eq_some_iff_getElem.1 hk
    obtain ⟨rfl, rfl⟩ := Prod.mk.inj heq
    rw [beq_iff_eq] at hp
    -- no entry matches in full, this one included
    have hno := List.findIdx?_eq_none_iff.1 (Option.map_eq_none_iff.1 hnone) _
      (List.getElem_mem hlt)
    refine ⟨_, hlive k hlt, hp, by simp, fun hvalue => ?_⟩
    have hfield : t.live[k] = (name, value) := Prod.ext hp hvalue
    simp [hfield] at hno

theorem find_full {name value : Bytes} (h : (name, value) ∈ t.live) :
    ∃ i, t.find name value = some (i, true) := by
  have hany : t.live.any (· == (name, value)) = true :=
    List.any_eq_true.2 ⟨_, h, beq_self_eq_true _⟩
  rw [← List.findIdx?_isSome] at hany
  obtain ⟨k, hk⟩ := Option.isSome_iff_exists.1 hany
  exact ⟨t.dropped + k, by rw [find_eq, hk]; rfl⟩

theorem find_isSome_iff {name value : Bytes} :
    (t.find name value).isSome ↔ ∃ f ∈ t.live, f.1 = name := by
  rw [find_eq, Option.isSome_or, Option.isSome_map, Option.isSome_map, List.findIdx?_isSome,
    List.findIdx?_isSome, Bool.or_eq_true, List.any_eq_true, List.any_eq_true]
  constructor
  · rintro (⟨f, hf, heq⟩ | ⟨f, hf, heq⟩)
    · exact ⟨f, hf, by rw [eq_of_beq heq]⟩
    · exact ⟨f, hf, eq_of_beq heq⟩
  · rintro ⟨f, hf, heq⟩
    exact Or.inr ⟨f, hf, beq_iff_eq.2 heq⟩

end

/-- **The dynamic table**, after any sequence of inserts into an empty table of any capacity: the
size is that of the live entries and within the capacity; the live entries are the last of the
accepted inserts, in their order; lookup by absolute index gives the accepted insert of that
position exactly while it is live; search gives a live entry that matches, in full if there is one;
and a refused insert changes nothing. -/
theorem dynamic_table_exact (memory : Dyn) (capacity : ℕ) (fs : List Field) :
    let t := Run.run insertNext (memory.init capacity) fs
    let inserted := accepted (memory.init capacity) fs
    (t.size = (t.live.map fieldSize).sum ∧ t.size ≤ capacity) ∧
    t.live <:+ inserted ∧
    (∀ i, t.get i = if inserted.length - t.live.length ≤ i then inserted[i]? else none) ∧
    (∀ name value,
      (∀ i full, t.find name value = some (i, full) →
        ∃ f, t.get i = some f ∧ f.1 = name ∧ (full = true ↔ f.2 = value)) ∧
      ((name, value) ∈ t.live → ∃ i, t.find name value = some (i, true)) ∧
      ((t.find name value).isSome ↔ ∃ f ∈ t.live, f.1 = name)) ∧
    ∀ name value, (t.insert name value).1 = false → (t.insert name value).2 = t := by
  intro t inserted
  have h : Holds t capacity inserted := holds_run (memory.holds_init capacity) fs
  have hdropped : inserted.length - t.live.length = t.dropped := by
    rw [length_live, ← h.total, Nat.add_sub_cancel]
  refine ⟨⟨h.sum, h.bound⟩, ?_, ?_, ?_, ?_⟩
  · rw [h.recent]
    exact List.drop_suffix _ _
  · intro i
    rw [hdropped, get_eq h]
  · intro name value
    exact ⟨fun i full hfind => find_some h hfind, find_full, find_isSome_iff⟩
  · intro name value hno
    rcases insert_cases h (name, value) with ⟨hsame, -⟩ | ⟨hyes, -⟩
    · exact congrArg Prod.snd hsame
    · rw [hno] at hyes
      cases hyes

/-! ## In step with the peer -/

/-- Eviction as RFC 9204 section 3.2.2 has it: from the oldest entry on, until there is room. -/
def rfcEvict (capacity need : ℕ) : List Field → List Field
  | [] => []
  | f :: fs =>
    if ((f :: fs).map fieldSize).sum + need > capacity then rfcEvict capacity need fs else f :: fs

/-- An insert as the RFC has it. -/
def rfcInsert (capacity : ℕ) (table : List Field) (f : Field) : List Field :=
  rfcEvict capacity (fieldSize f) table ++ [f]

theorem live_makeRoomFuel {t : Dyn} {limit : ℕ} {hist : List Field} {fuel : ℕ}
    (hfuel : t.count ≤ fuel) (h : Holds t limit hist) {need : ℕ} (hneed : need ≤ 1312) :
    (t.makeRoomFuel fuel need).live = rfcEvict limit need t.live := by
  induction fuel generalizing t with
  | zero =>
    rw [makeRoomFuel, List.length_eq_zero_iff.1 (t.length_live.trans (by omega))]
    rfl
  | succ fuel ih =>
    have hsize := h.size_le
    have hover : t.overCapacity need = decide (t.size + need > limit) := by
      rw [overCapacity, u64_of_lt (by omega), h.cap]
    rw [makeRoomFuel, hover]
    by_cases hpos : t.count > 0
    · have hcons := live_cons hpos
      have hcount : t.evictOldest.count = t.count - 1 := rfl
      rw [hcons, rfcEvict, ← hcons, ← h.sum]
      by_cases hgt : t.size + need > limit
      · rw [if_pos (by simp [hpos, hgt]), if_pos hgt, ih (by omega) (h.evictOldest hpos)]
      · rw [if_neg (by simp [hgt]), if_neg hgt]
    · rw [if_neg (by simp [hpos]), List.length_eq_zero_iff.1 (t.length_live.trans (by omega))]
      rfl

/-- The table as it is meant to be after the inserts `past`: it holds what the RFC's table holds, and
an entry is found under the number of inserts before it, while it is live. -/
structure InStep (t : Dyn) (capacity : ℕ) (past : List Field) : Prop where
  table : t.live = Run.run (rfcInsert capacity) [] past
  index : ∀ i, t.get i = if past.length - t.live.length ≤ i then past[i]? else none

/-- **When the tables stay in step.** A sequence of fields within the limits and no larger than the
capacity is accepted whole, each insert as the RFC has it, if and only if no insert finds 64 live
entries. -/
theorem inserts_in_step_iff (memory : Dyn) (capacity : ℕ) (fs : List Field)
    (hfs : ∀ f ∈ fs, WithinLimits f ∧ fieldSize f ≤ capacity) :
    ((∀ e ∈ Run.steps insertNext (memory.init capacity) fs, accepts e = true) ∧
      ∀ past, past <+: fs → InStep (Run.run insertNext (memory.init capacity) past) capacity past) ↔
    ∀ e ∈ Run.steps insertNext (memory.init capacity) fs, e.1.count < dynMaxEntries := by
  have hholds : ∀ e ∈ Run.steps insertNext (memory.init capacity) fs,
      ∃ hist, Holds e.1 capacity hist := by
    intro e he
    obtain ⟨past, -, heq⟩ := Run.mem_steps_iff.1 he
    exact ⟨_, heq ▸ holds_run (memory.holds_init capacity) past⟩
  constructor
  · rintro ⟨haccept, -⟩ e he
    obtain ⟨hist, h⟩ := hholds e he
    have hyes := haccept e he
    rcases insert_cases h e.2 with ⟨hno, -⟩ | ⟨-, hok, -⟩
    · rw [accepts, hno] at hyes
      cases hyes
    · exact hok.2.2
  · intro hcount
    have hok : ∀ past f, past ++ [f] <+: fs →
        WithinLimits f ∧ fieldSize f ≤ capacity ∧
          (Run.run insertNext (memory.init capacity) past).count < dynMaxEntries := by
      intro past f hpre
      obtain ⟨hlim, hcap⟩ := hfs f (hpre.subset (by simp))
      exact ⟨hlim, hcap, hcount (_, f) (Run.mem_steps_iff.2 ⟨past, hpre, rfl⟩)⟩
    have hprefix : ∀ past, past <+: fs →
        Holds (Run.run insertNext (memory.init capacity) past) capacity past ∧
          (Run.run insertNext (memory.init capacity) past).live =
            Run.run (rfcInsert capacity) [] past := by
      intro past
      induction past using List.reverseRecOn with
      | nil => exact fun _ => ⟨memory.holds_init capacity, rfl⟩
      | append_singleton past f ih =>
        intro hpre
        obtain ⟨h, hlive⟩ := ih ((List.prefix_append past [f]).trans hpre)
        have hf := hok past f hpre
        rw [Run.run_snoc, Run.run_snoc]
        rcases insert_cases h f with ⟨-, hno⟩ | ⟨-, -, hnext, hnextLive⟩
        · exact absurd hf hno
        · refine ⟨hnext, ?_⟩
          rw [hnextLive, makeRoom, live_makeRoomFuel (Nat.le_refl _) h (fieldSize_le hf.1), hlive]
          rfl
    refine ⟨?_, fun past hpre => ?_⟩
    · intro e he
      obtain ⟨past, hpre, heq⟩ := Run.mem_steps_iff.1 he
      obtain ⟨h, -⟩ := hprefix past ((List.prefix_append past [e.2]).trans hpre)
      rcases insert_cases h e.2 with ⟨-, hno⟩ | ⟨hyes, -⟩
      · exact absurd (hok past e.2 hpre) hno
      · rw [accepts, heq]
        exact hyes
    · obtain ⟨h, hlive⟩ := hprefix past hpre
      have hdropped : past.length - (Run.run insertNext (memory.init capacity) past).live.length =
          (Run.run insertNext (memory.init capacity) past).dropped := by
        rw [length_live, ← h.total, Nat.add_sub_cancel]
      exact ⟨hlive, fun i => by rw [hdropped, get_eq h]⟩

/-- A table before its first use. -/
def blank : Dyn where
  ring := Vector.replicate _ ⟨Vector.replicate _ 0, Vector.replicate _ 0, 0, 0⟩
  head := 0
  count := 0
  dropped := 0
  size := 0
  capacity := 0

/-- Two entries in a table with room for one. -/
theorem inserts_in_step_iff_two :
    (∀ f ∈ [(([0x61], [0x62]) : Field), ([0x63], [0x64])], WithinLimits f ∧ fieldSize f ≤ 40) ∧
    (Run.run insertNext (blank.init 40) [([0x61], [0x62]), ([0x63], [0x64])]).live =
      [([0x63], [0x64])] := by
  have hfs : ∀ f ∈ [(([0x61], [0x62]) : Field), ([0x63], [0x64])],
      WithinLimits f ∧ fieldSize f ≤ 40 := by
    simp [WithinLimits, fieldSize, dynMaxName, dynMaxValue]
  have hcount : ∀ e ∈ Run.steps insertNext (blank.init 40) [([0x61], [0x62]), ([0x63], [0x64])],
      e.1.count < dynMaxEntries := by
    decide
  refine ⟨hfs, ?_⟩
  rw [(((inserts_in_step_iff blank 40 _ hfs).2 hcount).2 _ List.prefix_rfl).table]
  decide

/-- **A table with room refuses.** After 64 entries of 34 bytes the slots are used up, and the next
entry is refused although the capacity of 4096 bytes holds all 65. -/
theorem sixty_fifth_refused :
    WithinLimits ([0x61], [0x62]) ∧ fieldSize ([0x61], [0x62]) ≤ 4096 ∧
    ((Run.run insertNext (blank.init 4096) (List.replicate 64 ([0x61], [0x62]))).insert
      [0x61] [0x62]).1 = false ∧
    (Run.run (rfcInsert 4096) [] (List.replicate 65 ([0x61], [0x62]))).length = 65 := by
  refine ⟨⟨by decide, by decide⟩, by decide, ?_⟩
  decide +kernel

end Dyn

/-! ## The Required Insert Count -/

def ricEncode (ric maxEntries : ℕ) : ℕ :=
  if ric = 0 then 0 else u64 (ric % u64 (2 * maxEntries) + 1)

def ricCandidate (encoded fullRange maxValue : ℕ) : ℕ :=
  sub64 (u64 (maxValue / fullRange * fullRange + encoded)) 1

def ricCorrect (ric maxValue fullRange : ℕ) : Option ℕ :=
  if ric ≤ maxValue then some ric
  else if ric ≤ fullRange then none
  else some (ric - fullRange)

def ricResolve (encoded fullRange maxValue : ℕ) : Option ℕ :=
  if encoded > fullRange then none
  else do
    let ric ← ricCorrect (ricCandidate encoded fullRange maxValue) maxValue fullRange
    if ric = 0 then none else some ric

def ricDecode (encoded maxEntries totalInserts : ℕ) : Option ℕ :=
  if encoded = 0 then some 0
  else ricResolve encoded (u64 (2 * maxEntries)) (u64 (totalInserts + maxEntries))

/-- There is room for an entry, and no operation on the way to the candidate leaves 64 bits. -/
def RicFits (maxEntries totalInserts encoded : ℕ) : Prop :=
  0 < maxEntries ∧ 2 * maxEntries < 2 ^ 64 ∧ totalInserts + maxEntries < 2 ^ 64 ∧
    (totalInserts + maxEntries) / (2 * maxEntries) * (2 * maxEntries) + encoded < 2 ^ 64

variable {maxEntries totalInserts encoded ric : ℕ}

/-- The remainder of what lies within one range above a multiple of it. -/
theorem mod_eq_sub {n w r : ℕ} (hw : n ∣ w) (hle : w ≤ r) (hlt : r < w + n) : r % n = r - w := by
  obtain ⟨k, rfl⟩ := hw
  obtain ⟨d, rfl⟩ := Nat.exists_eq_add_of_le hle
  rw [Nat.mul_add_mod, Nat.mod_eq_of_lt (by omega), Nat.add_sub_cancel_left]

/-- A nonzero encoding is accepted for the count of the window that it encodes. -/
theorem ricDecode_eq_some_iff (hfits : RicFits maxEntries totalInserts encoded)
    (hencoded : encoded ≠ 0) :
    ricDecode encoded maxEntries totalInserts = some ric ↔
      ric ≠ 0 ∧ totalInserts < ric + maxEntries ∧ ric ≤ totalInserts + maxEntries ∧
        ric % (2 * maxEntries) + 1 = encoded := by
  obtain ⟨hpos, hrange, hmax, hcand⟩ := hfits
  have hle := Nat.div_mul_le_self (totalInserts + maxEntries) (2 * maxEntries)
  have hlt := Nat.lt_div_mul_add (a := totalInserts + maxEntries) (b := 2 * maxEntries) (by omega)
  have hdvd : 2 * maxEntries ∣
      (totalInserts + maxEntries) / (2 * maxEntries) * (2 * maxEntries) := Dvd.intro_left _ rfl
  simp only [ricDecode, if_neg hencoded, ricResolve, ricCandidate, u64_of_lt hrange,
    u64_of_lt hmax, u64_of_lt hcand]
  generalize (totalInserts + maxEntries) / (2 * maxEntries) * (2 * maxEntries) = w at *
  -- a count of the window is in the range of the maximum, or in the one before it
  have hmod : totalInserts < ric + maxEntries → ric ≤ totalInserts + maxEntries →
      ric % (2 * maxEntries) = if w ≤ ric then ric - w else ric + 2 * maxEntries - w := by
    intro hlow hhigh
    split
    · exact mod_eq_sub hdvd ‹_› (by omega)
    · rw [← Nat.add_mod_right]
      exact mod_eq_sub hdvd (by omega) (by omega)
  have hsub : sub64 (w + encoded) 1 = w + encoded - 1 := by
    simp only [sub64]
    omega
  rw [hsub, ricCorrect]
  constructor
  · intro h
    obtain ⟨hcap, h⟩ := Option.ite_none_left_eq_some.1 h
    obtain ⟨c, hc, h⟩ := Option.bind_eq_some_iff.1 h
    obtain ⟨hne, rfl⟩ := by simpa using h
    split at hc
    · obtain rfl := Option.some.inj hc
      have := hmod (by omega) (by omega)
      rw [if_pos (by omega)] at this
      omega
    · obtain ⟨-, hc⟩ := Option.ite_none_left_eq_some.1 hc
      obtain rfl := Option.some.inj hc
      have := hmod (by omega) (by omega)
      rw [if_neg (by omega)] at this
      omega
  · rintro ⟨hne, hlow, hhigh, rfl⟩
    rw [hmod hlow hhigh]
    split
    · rw [if_neg (by omega), if_pos (by omega), Option.bind_eq_bind, Option.bind_some,
        if_neg (by omega)]
      exact congrArg some (by omega)
    · rw [if_neg (by omega), if_neg (by omega), if_neg (by omega), Option.bind_eq_bind,
        Option.bind_some, if_neg (by omega)]
      exact congrArg some (by omega)

theorem ricEncode_eq (hfits : RicFits maxEntries totalInserts encoded) (hric : ric ≠ 0) :
    ricEncode ric maxEntries = ric % (2 * maxEntries) + 1 := by
  obtain ⟨hpos, hrange, -⟩ := hfits
  have hlt := Nat.mod_lt ric (show 2 * maxEntries > 0 by omega)
  rw [ricEncode, if_neg hric, u64_of_lt hrange, u64_of_lt (by omega)]

/-- **The Required Insert Count on the wire.** Where nothing leaves 64 bits, the decoder accepts an
encoding for exactly one kind of count: one that encodes to it and is zero or in the window of
`maxEntries` on either side of the decoder's own total. So every count of the window survives the
wrap-around, and nothing else is accepted. -/
theorem ric_window_iff (maxEntries totalInserts encoded ric : ℕ)
    (hfits : RicFits maxEntries totalInserts encoded) :
    ricDecode encoded maxEntries totalInserts = some ric ↔
      ricEncode ric maxEntries = encoded ∧
        (ric = 0 ∨ totalInserts < ric + maxEntries ∧ ric ≤ totalInserts + maxEntries) := by
  by_cases hzero : ric = 0
  · subst hzero
    have henc : ricEncode 0 maxEntries = 0 := rfl
    by_cases hencoded : encoded = 0
    · subst hencoded
      exact ⟨fun _ => ⟨henc, Or.inl rfl⟩, fun _ => rfl⟩
    · rw [ricDecode_eq_some_iff hfits hencoded, henc]
      exact ⟨fun h => absurd rfl h.1, fun h => absurd h.1.symm hencoded⟩
  · have henc := ricEncode_eq hfits hzero
    by_cases hencoded : encoded = 0
    · subst hencoded
      exact ⟨fun h => absurd (Option.some.inj h).symm hzero, fun h => absurd h.1 (by omega)⟩
    · rw [ricDecode_eq_some_iff hfits hencoded, henc, or_iff_right hzero]
      exact ⟨fun h => ⟨h.2.2.2, h.2.1, h.2.2.1⟩, fun h => ⟨hzero, h.2.1, h.2.2, h.1⟩⟩

/-- The count 9 behind ten inserts into a table of three entries, one round back. -/
theorem ric_window_iff_nine : ricEncode 9 3 = 4 ∧ ricDecode 4 3 10 = some 9 :=
  ⟨rfl, (ric_window_iff 3 10 4 9 ⟨by decide, by decide, by decide, by decide⟩).2
    ⟨rfl, Or.inr ⟨by decide, by decide⟩⟩⟩

end Http3

end QuicVibe
