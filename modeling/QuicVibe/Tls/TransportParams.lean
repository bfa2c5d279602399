import QuicVibe.Frame.RoundTrip
import QuicVibe.Tls.Message
/-!
# Transport parameters

The list of RFC 9000 18, as `tparam.c` and `tpblob.c` write its entries and `parse_tp.c` looks one
up. `quic_tparam_put_blob` refuses an id out of the range of the variable-length integers;
`quic_tparam_put_int` does not look at the id and writes an entry without one.
-/

namespace QuicVibe

namespace Tls

open Crypto Packet Frame

/-! ## The reader -/

/-- `quic_tparam_get_blob`: the id, the value and the bytes used. -/
def tparamGetBlob (buf : Bytes) : Option (ℕ × Bytes × ℕ) := do
  let (id, off) ← varintTake buf 0
  let (len, off) ← varintTake buf off
  if len ≤ buf.length - off then return (id, (buf.drop off).take len, off + len) else none

theorem tparamGetBlob_eq_some {buf val : Bytes} {id used : ℕ}
    (h : tparamGetBlob buf = some (id, val, used)) : id ≤ varintMax ∧ 0 < used := by
  simp only [tparamGetBlob, Option.bind_eq_bind, Option.bind_eq_some_iff] at h
  obtain ⟨⟨i, off⟩, hid, ⟨len, off'⟩, hlen, hval⟩ := h
  obtain ⟨hi, -, -⟩ := varintTake_eq_some hid
  obtain ⟨-, hoff, -⟩ := varintTake_eq_some hlen
  dsimp only at hval
  split at hval
  · obtain ⟨rfl, -, rfl⟩ := by simpa using hval
    exact ⟨hi, by omega⟩
  · cases hval

/-- `emit_int`: the number the value starts with, 0 if there is none. -/
def emitInt (val : Bytes) : ℕ := ((varintDecode val).map Prod.fst).getD 0

/-- `quic_stp_parse` over what is left of the list: the number and the bytes of the first entry
with this id. -/
def stpParse (tp : Bytes) (paramId : ℕ) : Option (ℕ × Bytes) :=
  if tp.length = 0 then none
  else
    match _hblob : tparamGetBlob tp with
    | none => none
    | some (id, val, used) =>
      if id = paramId then some (emitInt val, val) else stpParse (tp.drop used) paramId
  termination_by tp.length
  decreasing_by
    have := (tparamGetBlob_eq_some _hblob).2
    rw [List.length_drop]
    omega

/-! ## Entries -/

/-- An entry of the list. -/
def entry (e : ℕ × Bytes) : Bytes := varintEncode e.1 ++ (varintEncode e.2.length ++ e.2)

/-- The id and the length of an entry can be written. -/
def InRange (e : ℕ × Bytes) : Prop := e.1 ≤ varintMax ∧ e.2.length ≤ varintMax

variable {e : ℕ × Bytes} {tp out out' : Bytes} {cap v : ℕ}

theorem tparamGetBlob_entry (he : InRange e) (rest : Bytes) :
    tparamGetBlob (entry e ++ rest) = some (e.1, e.2, (entry e).length) := by
  obtain ⟨id, val⟩ := e
  have h₀ : RestAt (entry (id, val) ++ rest) 0
      (varintEncode id ++ (varintEncode val.length ++ (val ++ rest))) :=
    ⟨[], rfl, by simp [entry]⟩
  obtain ⟨hid, h₁⟩ := h₀.varintTake he.1
  obtain ⟨hlen, front, hfront, hbuf⟩ := h₁.varintTake he.2
  have hdrop : (entry (id, val) ++ rest).drop (0 + varintLen id + varintLen val.length) =
      val ++ rest := by
    rw [hbuf, List.drop_left' hfront]
  have hroom : val.length ≤
      (entry (id, val) ++ rest).length - (0 + varintLen id + varintLen val.length) := by
    simp only [entry, List.length_append, length_varintEncode]
    omega
  simp only [tparamGetBlob, Option.bind_eq_bind, hid, hlen, Option.bind_some, if_pos hroom, hdrop,
    List.take_left]
  simp [entry, Nat.add_assoc]

theorem stpParse_entry (he : InRange e) (rest : Bytes) (paramId : ℕ) :
    stpParse (entry e ++ rest) paramId =
      if e.1 = paramId then some (emitInt e.2, e.2) else stpParse rest paramId := by
  have hpos : (entry e ++ rest).length ≠ 0 := by
    have := varintLen_pos he.1
    simp only [entry, List.length_append, length_varintEncode]
    omega
  rw [stpParse, if_neg hpos]
  split
  · rename_i hnone
    rw [tparamGetBlob_entry he] at hnone
    cases hnone
  · rename_i id val used hsome
    rw [tparamGetBlob_entry he] at hsome
    obtain ⟨rfl, rfl, rfl⟩ := by simpa using hsome
    rw [List.drop_left]

/-- **The lookup on a list of entries** is the lookup of the list. -/
theorem stpParse_entries {es : List (ℕ × Bytes)} (hes : ∀ e ∈ es, InRange e) (paramId : ℕ) :
    stpParse (es.flatMap entry) paramId =
      (es.lookup paramId).map fun val => (emitInt val, val) := by
  induction es with
  | nil =>
    rw [List.flatMap_nil, stpParse, if_pos List.length_nil]
    rfl
  | cons e es ih =>
    rw [List.forall_mem_cons] at hes
    rw [List.flatMap_cons, stpParse_entry hes.1, ih hes.2, List.lookup_cons]
    by_cases hid : e.1 = paramId
    · simp [hid]
    · have hne : (paramId == e.1) = false := beq_false_of_ne (Ne.symm hid)
      rw [if_neg hid, hne]

theorem stpParse_id_le {paramId : ℕ} {r : ℕ × Bytes} (h : stpParse tp paramId = some r) :
    paramId ≤ varintMax := by
  induction tp using stpParse.induct paramId with
  | case1 tp hnil =>
    rw [stpParse, if_pos hnil] at h
    cases h
  | case2 tp hlen hblob =>
    rw [stpParse, if_neg hlen] at h
    split at h
    · cases h
    · rename_i hsome
      rw [hblob] at hsome
      cases hsome
  | case3 tp hlen val used hblob => exact (tparamGetBlob_eq_some hblob).1
  | case4 tp hlen id val used hblob hid ih =>
    rw [stpParse, if_neg hlen] at h
    split at h
    · cases h
    · rename_i id' val' used' hsome
      rw [hblob] at hsome
      obtain ⟨rfl, rfl, rfl⟩ := by simpa using hsome
      rw [if_neg hid] at h
      exact ih h

/-! ## Lists of parameters -/

/-- A parameter as one of the two writers takes it. -/
inductive Param
  | int (id value : ℕ)
  | blob (id : ℕ) (val : Bytes)

namespace Param

def id : Param → ℕ
  | int id _ => id
  | blob id _ => id

/-- The bytes of the value. -/
def value : Param → Bytes
  | int _ v => varintEncode v
  | blob _ val => val

/-- Append the parameter with the writer for its kind. -/
def put (cap : ℕ) (out : Bytes) : Param → Option Bytes
  | int id v => tparamPutInt out cap (id, v)
  | blob id val => tparamPutBlob out cap id val

/-- Append the parameters one after the other. -/
def putAll (cap : ℕ) (ps : List Param) : Option Bytes := ps.foldlM (put cap) []

end Param

theorem tparamPutInt_eq_some {id : ℕ} (h : tparamPutInt out cap (id, v) = some out') :
    v ≤ varintMax ∧ out' = out ++ entry (id, varintEncode v) := by
  simp only [tparamPutInt] at h
  split at h
  · cases h
  · rename_i hfit
    refine ⟨le_varintMax_of_len fun hzero => hfit (Or.inl hzero), ?_⟩
    rw [entry, length_varintEncode]
    exact (Option.some.inj h).symm

theorem tparamPutBlob_eq_some {id : ℕ} {val : Bytes}
    (h : tparamPutBlob out cap id val = some out') :
    InRange (id, val) ∧ out' = out ++ entry (id, val) := by
  simp only [tparamPutBlob, putVarints, Option.bind_eq_bind, Option.bind_eq_some_iff] at h
  obtain ⟨_, ⟨out₁, hid, out₂, hlen, hnil⟩, hval⟩ := h
  obtain rfl := Option.some.inj hnil
  obtain ⟨hidle, rfl, -⟩ := varintPut_eq_some hid
  obtain ⟨hlenle, rfl, -⟩ := varintPut_eq_some hlen
  obtain ⟨-, rfl⟩ := putBytes_eq_some.1 hval
  exact ⟨⟨hidle, hlenle⟩, by simp [entry]⟩

theorem Param.put_eq_some {p : Param} (h : p.put cap out = some out') :
    out' = out ++ entry (p.id, p.value) ∧ p.value.length ≤ varintMax := by
  cases p with
  | int id v =>
    obtain ⟨-, hout⟩ := tparamPutInt_eq_some h
    refine ⟨hout, ?_⟩
    have hmax : varintMax = 4611686018427387903 := rfl
    rw [Param.value, length_varintEncode, varintLen]
    split_ifs <;> omega
  | blob id val =>
    obtain ⟨hrange, hout⟩ := tparamPutBlob_eq_some h
    exact ⟨hout, hrange.2⟩

variable {ps : List Param}

theorem Param.foldlM_put_eq_some (h : ps.foldlM (Param.put cap) out = some tp) :
    tp = out ++ (ps.map fun p => (p.id, p.value)).flatMap entry ∧
      ∀ p ∈ ps, p.value.length ≤ varintMax := by
  induction ps generalizing out with
  | nil =>
    obtain rfl : out = tp := by simpa using h
    simp
  | cons p ps ih =>
    rw [List.foldlM_cons, Option.bind_eq_bind, Option.bind_eq_some_iff] at h
    obtain ⟨out₁, hput, hrest⟩ := h
    obtain ⟨rfl, hp⟩ := Param.put_eq_some hput
    obtain ⟨rfl, hps⟩ := ih hrest
    refine ⟨?_, List.forall_mem_cons.2 ⟨hp, hps⟩⟩
    rw [List.map_cons, List.flatMap_cons, List.append_assoc]

theorem Param.putAll_eq_some (h : Param.putAll cap ps = some tp) :
    tp = (ps.map fun p => (p.id, p.value)).flatMap entry ∧
      ∀ p ∈ ps, p.value.length ≤ varintMax := Param.foldlM_put_eq_some h

/-- Every parameter of the list is found, with its bytes and, for an integer, its number; no other
id is. -/
def Reads (ps : List Param) (tp : Bytes) : Prop :=
  (∀ p ∈ ps, ∃ n, stpParse tp p.id = some (n, p.value) ∧ ∀ id v, p = .int id v → n = v) ∧
    ∀ id, id ∉ ps.map Param.id → stpParse tp id = none

theorem emitInt_varintEncode (hv : v ≤ varintMax) : emitInt (varintEncode v) = v := by
  have hdec := varintDecode_encode hv []
  rw [List.append_nil] at hdec
  rw [emitInt, hdec]
  rfl

theorem Param.le_of_put (h : ps.foldlM (Param.put cap) out = some tp) {id : ℕ}
    (hmem : Param.int id v ∈ ps) : v ≤ varintMax := by
  induction ps generalizing out with
  | nil => cases hmem
  | cons p ps ih =>
    rw [List.foldlM_cons, Option.bind_eq_bind, Option.bind_eq_some_iff] at h
    obtain ⟨out₁, hput, hrest⟩ := h
    rcases List.mem_cons.1 hmem with rfl | hmem
    · exact (tparamPutInt_eq_some hput).1
    · exact ih hrest hmem

theorem lookup_of_mem {es : List (ℕ × Bytes)} (hnodup : (es.map Prod.fst).Nodup) (he : e ∈ es) :
    es.lookup e.1 = some e.2 := by
  induction es with
  | nil => cases he
  | cons x es ih =>
    rw [List.map_cons, List.nodup_cons] at hnodup
    rw [List.lookup_cons]
    rcases List.mem_cons.1 he with rfl | he
    · simp
    · have hne : e.1 ≠ x.1 := fun heq => hnodup.1 (heq ▸ List.mem_map_of_mem he)
      rw [beq_false_of_ne hne]
      exact ih hnodup.2 he

/-- **A written list whose ids are in range is read back.** -/
theorem reads_of_putAll (hnodup : (ps.map Param.id).Nodup) (h : Param.putAll cap ps = some tp)
    (hids : ∀ p ∈ ps, p.id ≤ varintMax) : Reads ps tp := by
  obtain ⟨rfl, hvalues⟩ := Param.putAll_eq_some h
  have hrange : ∀ e ∈ ps.map fun p => (p.id, p.value), InRange e := by
    intro e he
    obtain ⟨p, hp, rfl⟩ := List.mem_map.1 he
    exact ⟨hids p hp, hvalues p hp⟩
  have hfst : (ps.map fun p => (p.id, p.value)).map Prod.fst = ps.map Param.id := by
    rw [List.map_map]
    rfl
  constructor
  · intro p hp
    have hlookup := lookup_of_mem (hfst.symm ▸ hnodup)
      (List.mem_map_of_mem (f := fun p : Param => (p.id, p.value)) hp)
    refine ⟨emitInt p.value, ?_, ?_⟩
    · rw [stpParse_entries hrange, hlookup]
      rfl
    · rintro id v rfl
      exact emitInt_varintEncode (Param.le_of_put h hp)
  · intro id hid
    have hlookup : (ps.map fun p => (p.id, p.value)).lookup id = none := by
      rw [List.lookup_eq_none_iff]
      intro e he
      rw [bne_iff_ne]
      intro heq
      refine hid ?_
      rw [heq, ← hfst]
      exact List.mem_map_of_mem he
    rw [stpParse_entries hrange, hlookup]
    rfl

/-! ## preferred_address -/

/-- `struct quic_preferred_address`. -/
structure PreferredAddress where
  ipv4 : Vector UInt8 4
  ipv4Port : UInt16
  ipv6 : Vector UInt8 16
  ipv6Port : UInt16
  cidLen : UInt8
  cid : Vector UInt8 20
  resetToken : Vector UInt8 16

def paPutPort (out : Bytes) (cap : ℕ) (port : UInt16) : Option Bytes :=
  if out.length + 2 > cap then none else some (out ++ putBe 2 port.toNat)

def paBuildValue (cap : ℕ) (pa : PreferredAddress) : Option Bytes :=
  if pa.cidLen ≤ 20 then do
    let v ← putBytes [] cap pa.ipv4.toList
    let v ← paPutPort v cap pa.ipv4Port
    let v ← putBytes v cap pa.ipv6.toList
    let v ← paPutPort v cap pa.ipv6Port
    let v ← putBytes v cap [pa.cidLen]
    let v ← putBytes v cap (pa.cid.toList.take pa.cidLen.toNat)
    putBytes v cap pa.resetToken.toList
  else none

def tparamPutPreferredAddress (cap : ℕ) (pa : PreferredAddress) : Option Bytes := do
  let v ← paBuildValue 61 pa
  if v.length = 0 then none else tparamPutBlob [] cap 0x0d v

def paTakePort (v : Bytes) (off : ℕ) : Option (UInt16 × ℕ) :=
  if off + 2 > v.length then none
  else some (UInt16.ofNat (readBe ((v.drop off).take 2)), off + 2)

/-- `pa_parse_value` into a structure the caller has. -/
def paParseValue (v : Bytes) (pa : PreferredAddress) : Option PreferredAddress := do
  let (ipv4, off) ← readBytes v 0 4
  let (ipv4Port, off) ← paTakePort v off
  let (ipv6, off) ← readBytes v off 16
  let (ipv6Port, off) ← paTakePort v off
  let (cl, off) ← readBytes v off 1
  let cidLen := cl.getD 0 0
  if cidLen ≤ 20 then do
    let (cid, off) ← readBytes v off cidLen.toNat
    let (token, off) ← readBytes v off 16
    if off = v.length then
      some { ipv4 := Bytes.fit 4 ipv4
             ipv4Port := ipv4Port
             ipv6 := Bytes.fit 16 ipv6
             ipv6Port := ipv6Port
             cidLen := cidLen
             cid := Buf.writeAt pa.cid 0 cid
             resetToken := Bytes.fit 16 token }
    else none
  else none

/-- `quic_tparam_get_preferred_address`: the value and the bytes used. -/
def tparamGetPreferredAddress (buf : Bytes) (pa : PreferredAddress) :
    Option (PreferredAddress × ℕ) := do
  let (id, v, used) ← tparamGetBlob buf
  if id = 0x0d then do
    let pa ← paParseValue v pa
    return (pa, used)
  else none

namespace PreferredAddress

/-- The bytes of the connection id that count. -/
def cidBytes (pa : PreferredAddress) : Bytes := pa.cid.toList.take pa.cidLen.toNat

/-- Two structures hold the same address: what lies behind the end of the connection id is not
part of it. -/
def Same (pa qa : PreferredAddress) : Prop :=
  qa.ipv4 = pa.ipv4 ∧ qa.ipv4Port = pa.ipv4Port ∧ qa.ipv6 = pa.ipv6 ∧
    qa.ipv6Port = pa.ipv6Port ∧ qa.cidLen = pa.cidLen ∧ qa.cidBytes = pa.cidBytes ∧
    qa.resetToken = pa.resetToken

/-- The value on the wire. -/
def wire (pa : PreferredAddress) : Bytes :=
  pa.ipv4.toList ++ (putBe 2 pa.ipv4Port.toNat ++ (pa.ipv6.toList ++ (putBe 2 pa.ipv6Port.toNat ++
    ([pa.cidLen] ++ (pa.cidBytes ++ pa.resetToken.toList)))))

variable {pa : PreferredAddress}

theorem length_cidBytes (h : pa.cidLen ≤ 20) : pa.cidBytes.length = pa.cidLen.toNat := by
  have hle : pa.cidLen.toNat ≤ 20 := h
  rw [cidBytes, List.length_take, Vector.length_toList]
  omega

theorem length_wire (h : pa.cidLen ≤ 20) : pa.wire.length = 41 + pa.cidLen.toNat := by
  simp only [wire, List.length_append, length_cidBytes h, Vector.length_toList, length_putBe,
    List.length_singleton]
  omega

variable {cap : ℕ}

theorem paPutPort_eq {out : Bytes} (port : UInt16) (h : out.length + 2 ≤ cap) :
    paPutPort out cap port = some (out ++ putBe 2 port.toNat) := by
  rw [paPutPort, if_neg (by omega)]

theorem paBuildValue_eq (h : pa.cidLen ≤ 20) : paBuildValue 61 pa = some pa.wire := by
  have hle : pa.cidLen.toNat ≤ 20 := h
  have hput : ∀ out src : Bytes, out.length + src.length ≤ 61 →
      putBytes out 61 src = some (out ++ src) := fun out src hroom =>
    putBytes_eq_some.2 ⟨hroom, rfl⟩
  have hcid := length_cidBytes h
  rw [paBuildValue, if_pos h]
  simp only [Option.bind_eq_bind]
  rw [hput _ _ (by simp), Option.bind_some, paPutPort_eq _ (by simp), Option.bind_some,
    hput _ _ (by simp), Option.bind_some, paPutPort_eq _ (by simp), Option.bind_some,
    hput _ _ (by simp), Option.bind_some, ← cidBytes, hput _ _ (by simp [hcid]; omega),
    Option.bind_some, hput _ _ (by simp [hcid]; omega)]
  simp [wire]

theorem readBe_port (port : UInt16) : UInt16.ofNat (readBe (putBe 2 port.toNat)) = port := by
  have hlt : port.toNat < 256 ^ 2 := port.toNat_lt
  rw [readBe_putBe, Nat.mod_eq_of_lt hlt, UInt16.ofNat_toNat]

theorem paTakePort_of_restAt {v rest : Bytes} {off : ℕ} {port : UInt16}
    (h : RestAt v off (putBe 2 port.toNat ++ rest)) :
    paTakePort v off = some (port, off + 2) ∧ RestAt v (off + 2) rest := by
  obtain ⟨front, rfl, rfl⟩ := h
  refine ⟨?_, front ++ putBe 2 port.toNat, by simp, by simp⟩
  have hroom : ¬ front.length + 2 > (front ++ (putBe 2 port.toNat ++ rest)).length := by
    rw [List.length_append, List.length_append, length_putBe]
    omega
  rw [paTakePort, if_neg hroom, List.drop_left, List.take_left' (length_putBe 2 _), readBe_port]

theorem readBytes_step {v data rest : Bytes} {off n : ℕ} (hn : data.length = n)
    (h : RestAt v off (data ++ rest)) :
    readBytes v off n = some (data, off + n) ∧ RestAt v (off + n) rest := by
  subst hn
  refine ⟨readBytes_of_restAt h, ?_⟩
  obtain ⟨front, rfl, rfl⟩ := h
  exact ⟨front ++ data, by simp, by simp⟩

theorem paParseValue_wire (h : pa.cidLen ≤ 20) (qa : PreferredAddress) :
    ∃ ra, paParseValue pa.wire qa = some ra ∧ pa.Same ra := by
  have hle : pa.cidLen.toNat ≤ 20 := h
  have hcid := length_cidBytes h
  have h₀ : RestAt pa.wire 0 pa.wire := ⟨[], rfl, rfl⟩
  obtain ⟨e₁, h₁⟩ := readBytes_step Vector.length_toList h₀
  obtain ⟨e₂, h₂⟩ := paTakePort_of_restAt h₁
  obtain ⟨e₃, h₃⟩ := readBytes_step Vector.length_toList h₂
  obtain ⟨e₄, h₄⟩ := paTakePort_of_restAt h₃
  obtain ⟨e₅, h₅⟩ := readBytes_step (List.length_singleton) h₄
  obtain ⟨e₆, h₆⟩ := readBytes_step hcid h₅
  rw [← List.append_nil pa.resetToken.toList] at h₆
  obtain ⟨e₇, -⟩ := readBytes_step Vector.length_toList h₆
  have hend : 0 + 4 + 2 + 16 + 2 + 1 + pa.cidLen.toNat + 16 = pa.wire.length := by
    rw [length_wire h]
    omega
  refine ⟨{ pa with cid := Buf.writeAt qa.cid 0 pa.cidBytes }, ?_, rfl, rfl, rfl, rfl, rfl, ?_, rfl⟩
  · simp only [paParseValue, Option.bind_eq_bind, e₁, e₂, e₃, e₄, e₅, Option.bind_some,
      List.getD_cons_zero, if_pos h, e₆, e₇, if_pos hend, Bytes.fit_toList]
  · rw [cidBytes, Buf.toList_writeAt_zero _ (by omega), List.take_left' hcid]

/-- **An address that is written is read back**, from its entry followed by anything. -/
theorem get_put {tlv : Bytes} (hput : tparamPutPreferredAddress cap pa = some tlv) (rest : Bytes)
    (qa : PreferredAddress) :
    ∃ ra, tparamGetPreferredAddress (tlv ++ rest) qa = some (ra, tlv.length) ∧ pa.Same ra := by
  have hcid : pa.cidLen ≤ 20 := by
    by_contra hlong
    rw [tparamPutPreferredAddress, paBuildValue, if_neg hlong] at hput
    cases hput
  have hlen := length_wire hcid
  rw [tparamPutPreferredAddress, paBuildValue_eq hcid, Option.bind_eq_bind, Option.bind_some,
    if_neg (by omega)] at hput
  obtain ⟨hrange, rfl⟩ := tparamPutBlob_eq_some hput
  obtain ⟨ra, hparse, hsame⟩ := paParseValue_wire hcid qa
  refine ⟨ra, ?_, hsame⟩
  rw [List.nil_append, tparamGetPreferredAddress, tparamGetBlob_entry hrange]
  simp [hparse]

/-- Every address whose connection id has at most 20 bytes is written where there is room. -/
theorem put_eq (h : pa.cidLen ≤ 20) (hcap : 63 ≤ cap) :
    tparamPutPreferredAddress cap pa = some (entry (0x0d, pa.wire)) := by
  have hle : pa.cidLen.toNat ≤ 20 := h
  have hlen := length_wire h
  have hid : varintLen 0x0d = 1 := rfl
  have hone : varintLen pa.wire.length = 1 := by
    rw [varintLen, if_pos (by omega)]
  have hmax : varintMax = 4611686018427387903 := rfl
  rw [tparamPutPreferredAddress, paBuildValue_eq h, Option.bind_eq_bind, Option.bind_some,
    if_neg (by omega), tparamPutBlob, putVarints_eq_ite (by simp) (by simp; omega), if_pos ?_,
    Option.bind_eq_bind, Option.bind_some]
  · refine putBytes_eq_some.2 ⟨?_, ?_⟩
    · simp only [List.nil_append, varints_cons, varints_nil, List.append_nil, List.length_append,
        length_varintEncode, hid, hone]
      omega
    · simp [entry]
  · simp only [List.nil_append, varints_cons, varints_nil, List.append_nil, List.length_append,
      length_varintEncode, hid, hone]
    omega

end PreferredAddress

/-! ## Round trips -/

/-- The parameters the server writes. -/
def serverParams (originalDcid initialScid : Bytes) : List Param :=
  .blob 0x00 originalDcid :: (intParams.map fun p => .int p.1 p.2) ++ [.blob 0x0f initialScid]

theorem stpBuildServer_eq (originalDcid initialScid : Bytes) (cap : ℕ) :
    stpBuildServer originalDcid initialScid cap =
      Param.putAll cap (serverParams originalDcid initialScid) := by
  have hints : ∀ out, (intParams.map fun p => Param.int p.1 p.2).foldlM (Param.put cap) out =
      intParams.foldlM (fun out p => tparamPutInt out cap p) out := by
    intro out
    rw [List.foldlM_map]
    rfl
  rw [Param.putAll, serverParams, List.foldlM_append, List.foldlM_cons]
  simp only [hints, stpBuildServer, bind_assoc, Param.put, List.foldlM_cons, List.foldlM_nil,
    bind_pure]

theorem stpParse_stpBuildServer {originalDcid initialScid : Bytes}
    (h : stpBuildServer originalDcid initialScid cap = some out) :
    (stpParse out 0x00).map Prod.snd = some originalDcid ∧
      (stpParse out 0x0f).map Prod.snd = some initialScid := by
  rw [stpBuildServer_eq] at h
  have hids : (serverParams originalDcid initialScid).map Param.id =
      [0x00, 0x01, 0x04, 0x05, 0x06, 0x07, 0x08, 0x09, 0x0f] := rfl
  have hreads := reads_of_putAll (by rw [hids]; decide) h fun p hp => by
    have hmem : p.id ∈ (serverParams originalDcid initialScid).map Param.id :=
      List.mem_map_of_mem hp
    have hsmall : ∀ i ∈ [0x00, 0x01, 0x04, 0x05, 0x06, 0x07, 0x08, 0x09, 0x0f],
        i ≤ varintMax := by decide
    rw [hids] at hmem
    exact hsmall _ hmem
  obtain ⟨n, hn, -⟩ := hreads.1 (.blob 0x00 originalDcid) (by simp [serverParams])
  obtain ⟨m, hm, -⟩ := hreads.1 (.blob 0x0f initialScid) (by simp [serverParams])
  simp only [Param.id, Param.value] at hn hm
  rw [hn, hm]
  exact ⟨rfl, rfl⟩

/-- **Lists of parameters are read back exactly when every id is in range.** With distinct ids,
each parameter is then found with its value, and nothing else is. The other two parts hold without
a condition: an address that is written is read back, and every address with a connection id of at
most 20 bytes is written; the server's parameters give back its two connection ids. -/
theorem transportParams_read_iff (ps : List Param) (pa : PreferredAddress)
    (originalDcid initialScid : Bytes) (cap : ℕ) :
    (∀ tp, (ps.map Param.id).Nodup → Param.putAll cap ps = some tp →
      (Reads ps tp ↔ ∀ p ∈ ps, p.id ≤ varintMax)) ∧
    (pa.cidLen ≤ 20 → (63 ≤ cap → (tparamPutPreferredAddress cap pa).isSome) ∧
      ∀ tlv, tparamPutPreferredAddress cap pa = some tlv → ∀ rest qa, ∃ ra,
        tparamGetPreferredAddress (tlv ++ rest) qa = some (ra, tlv.length) ∧ pa.Same ra) ∧
    ∀ out, originalDcid.length ≤ 20 → initialScid.length ≤ 20 →
      stpBuildServer originalDcid initialScid cap = some out →
      (stpParse out 0x00).map Prod.snd = some originalDcid ∧
        (stpParse out 0x0f).map Prod.snd = some initialScid := by
  refine ⟨?_, ?_, ?_⟩
  · intro tp hnodup hput
    refine ⟨fun hreads p hp => ?_, reads_of_putAll hnodup hput⟩
    obtain ⟨n, hfound, -⟩ := hreads.1 p hp
    exact stpParse_id_le hfound
  · intro hcid
    refine ⟨fun hcap => ?_, fun tlv hput rest qa => PreferredAddress.get_put hput rest qa⟩
    rw [PreferredAddress.put_eq hcid hcap]
    rfl
  · intro out _ _ hbuild
    exact stpParse_stpBuildServer hbuild

/-- An integer and a string, and the parameters of a server with a connection id of three bytes
and an empty one. -/
theorem transportParams_read_sample :
    Reads [.int 0x01 30000, .blob 0x00 [7, 8]]
        [0x01, 0x04, 0x80, 0x00, 0x75, 0x30, 0x00, 0x02, 7, 8] ∧
      ∃ out, stpBuildServer [1, 2, 3] [] 64 = some out ∧
        (stpParse out 0x00).map Prod.snd = some [1, 2, 3] ∧
        (stpParse out 0x0f).map Prod.snd = some [] := by
  let pa : PreferredAddress :=
    { ipv4 := Vector.replicate 4 0, ipv4Port := 0, ipv6 := Vector.replicate 16 0, ipv6Port := 0,
      cidLen := 0, cid := Vector.replicate 20 0, resetToken := Vector.replicate 16 0 }
  obtain ⟨hlist, -, hserver⟩ :=
    transportParams_read_iff [.int 0x01 30000, .blob 0x00 [7, 8]] pa [1, 2, 3] [] 64
  constructor
  · refine (hlist _ (by decide) (by decide)).2 ?_
    simp only [List.forall_mem_cons, List.not_mem_nil, false_implies, implies_true, and_true]
    exact ⟨by decide, by decide⟩
  · obtain ⟨out, hout⟩ : ∃ out, stpBuildServer [1, 2, 3] [] 64 = some out :=
      Option.isSome_iff_exists.1 (by decide)
    exact ⟨out, hout, hserver out (by decide) (by decide) hout⟩

/-- The smallest id out of range: the entry is written without it, and is read as an empty
`max_idle_timeout`. -/
theorem wide_id_lost :
    Param.putAll 16 [.int (2 ^ 62) 0] = some [0x01, 0x00] ∧
      stpParse [0x01, 0x00] (2 ^ 62) = none ∧ stpParse [0x01, 0x00] 0x01 = some (0, []) ∧
      ¬ Reads [.int (2 ^ 62) 0] [0x01, 0x00] := by
  have hnone : stpParse [0x01, 0x00] (2 ^ 62) = none := by
    cases hfound : stpParse [0x01, 0x00] (2 ^ 62) with
    | none => rfl
    | some r => exact absurd (stpParse_id_le hfound) (by decide)
  refine ⟨by decide, hnone, ?_, fun hreads => ?_⟩
  · exact stpParse_entry (e := (0x01, [])) ⟨by decide, by decide⟩ [] 0x01
  · obtain ⟨n, hfound, -⟩ := hreads.1 (.int (2 ^ 62) 0) (List.mem_singleton.2 rfl)
    rw [Param.id, hnone] at hfound
    cases hfound

end Tls

end QuicVibe
