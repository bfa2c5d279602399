import QuicVibe.Frame.RoundTrip
import QuicVibe.Http3.FieldLines
/-!
# Requests round trip

The request sender (`pseudo_encode.c`, `request_headers.c`, `reqbuild.c`, `request.c`,
`request_drive.c`) against the request decoder. The static table is searched with a value as a C
string, which ends at its first NUL, so a value that continues behind a NUL goes out as the value
before it; `carried` is what the line of a field stands for.
-/

namespace QuicVibe

namespace Http3

open Packet
open QuicVibe.Frame

/-! ## The sender -/

/-- `VALBUF_CAP`. -/
def valbufCap : ℕ := 16

/-- `pseudo_field`, with the static index of its name. -/
structure PseudoField where
  name : String
  nameIdx : ℕ
  val : Bytes
  named : (staticGet nameIdx).map Prod.fst = some (ascii name)

/-- The bytes of a buffer as a C string: up to the first NUL. -/
def cstr (v : Bytes) : Bytes := v.takeWhile (· ≠ 0)

def PseudoField.staticIndex (f : PseudoField) : Option ℕ :=
  if f.val.length ≥ valbufCap then none else staticFind (ascii f.name) (cstr f.val)

def putPseudo (f : PseudoField) (cap : ℕ) : Option Bytes :=
  match f.staticIndex with
  | some idx => indexedEncode cap idx true
  | none => literalNamrefEncode cap f.nameIdx true false f.val

def putFields : List PseudoField → ℕ → Option Bytes
  | [], _ => some []
  | f :: fields, cap => do
    let line ← putPseudo f cap
    let rest ← putFields fields (cap - line.length)
    return line ++ rest

def putSection (fields : List PseudoField) (cap : ℕ) : Option Bytes := do
  let out ← prefixEncode cap 0 false 0
  let lines ← putFields fields (cap - out.length)
  return out ++ lines

def methodField (method : Bytes) : PseudoField := ⟨":method", 15, method, by decide +kernel⟩
def schemeField (scheme : Bytes) : PseudoField := ⟨":scheme", 22, scheme, by decide +kernel⟩
def authorityField (authority : Bytes) : PseudoField := ⟨":authority", 0, authority, by decide +kernel⟩
def pathField (path : Bytes) : PseudoField := ⟨":path", 1, path, by decide +kernel⟩

def encPseudo (method path scheme authority : Bytes) (cap : ℕ) : Option Bytes :=
  putSection [methodField method, schemeField scheme, authorityField authority, pathField path] cap

def encMethod (method path authority : Bytes) (cap : ℕ) : Option Bytes :=
  encPseudo method path (ascii "https") authority cap

def reqBuild (headers body : Bytes) (cap : ℕ) : Option Bytes := do
  let out ← framePut cap frameHeaders headers
  if body.isEmpty then some out
  else do
    let data ← framePut (cap - out.length) frameData body
    return out ++ data

def sendRequest (streamId : ℕ) (headers body : Bytes) (cap : ℕ) : Option Bytes := do
  let h3 ← reqBuild headers body 1500
  putStream cap { streamId := streamId, offset := 0, data := h3, fin := true }

def sendMethod (streamId : ℕ) (method path authority body : Bytes) (cap : ℕ) : Option Bytes := do
  let fs ← encMethod method path authority 256
  sendRequest streamId fs body cap

def sendGet (streamId : ℕ) (path authority : Bytes) (cap : ℕ) : Option Bytes :=
  sendMethod streamId (ascii "GET") path authority [] cap

/-! ## What a line carries -/

namespace PseudoField

variable (f : PseudoField)

/-- The value the line of a field stands for. -/
def carried : Bytes := if f.staticIndex.isSome then cstr f.val else f.val

/-- The scratch the line of a field takes. -/
def scratch : ℕ := if f.staticIndex.isSome then 0 else f.val.length

/-- The field as the decoder finds it, in a line of `used` bytes. -/
def line (used : ℕ) : FieldLine where
  name := ascii f.name
  value := f.carried
  used := used
  scratchUsed := f.scratch

end PseudoField

variable {idx type : ℕ} {f : PseudoField} {fields : List PseudoField} {payload body : Bytes}

theorem staticFind_eq_some {name value : Bytes} (h : staticFind name value = some idx) :
    staticGet idx = some (name, value) := by
  obtain ⟨hidx, hrow, -⟩ := List.findIdx?_eq_some_iff_getElem.1 h
  simp only [Bool.and_eq_true, beq_iff_eq] at hrow
  rw [staticGet, List.getElem?_eq_getElem hidx, Option.map_some, hrow.1, hrow.2]

theorem lt_of_staticGet {e : Bytes × Bytes} (h : staticGet idx = some e) : idx < 2 ^ 63 := by
  have hlen : staticTable.length = 99 := by decide
  obtain ⟨row, hrow, -⟩ := Option.map_eq_some_iff.1 h
  have := (List.getElem?_eq_some_iff.1 hrow).1
  omega

variable {cap scap : ℕ} {out : Bytes}

/-- **The line of a field** is decoded to what it carries. -/
theorem decodeLine_putPseudo (h : putPseudo f cap = some out) (hcap : cap < 2 ^ 63)
    (hfits : f.scratch ≤ scap) (rest : Bytes) :
    decodeLine (out ++ rest) scap = some (f.line out.length) := by
  rw [putPseudo] at h
  rw [PseudoField.line, PseudoField.carried, PseudoField.scratch]
  rw [PseudoField.scratch] at hfits
  rcases hidx : f.staticIndex with _ | idx
  · rw [hidx] at h hfits
    obtain ⟨⟨name, v⟩, hstatic, rfl⟩ := Option.map_eq_some_iff.1 f.named
    obtain ⟨_, str, -, hstr, -⟩ := literalNamrefEncode_eq_some h
    obtain ⟨_, -, rfl, hlen⟩ := stringEncode_eq_some hstr
    rw [List.length_append] at hlen
    exact decodeLine_namref h (lt_of_staticGet hstatic) (by omega) hfits hstatic rest
  · rw [hidx] at h
    rw [PseudoField.staticIndex] at hidx
    have hstatic := staticFind_eq_some (Option.ite_none_left_eq_some.1 hidx).2
    exact decodeLine_indexed h (lt_of_staticGet hstatic) hstatic rest

theorem putPseudo_ne_nil (h : putPseudo f cap = some out) : out ≠ [] := by
  rw [putPseudo] at h
  rcases hidx : f.staticIndex with _ | idx
  · rw [hidx] at h
    obtain ⟨head, str, hhead, -, rfl⟩ := literalNamrefEncode_eq_some h
    exact List.append_ne_nil_of_left_ne_nil (intEncode_ne_nil hhead) str
  · rw [hidx] at h
    exact intEncode_ne_nil h

/-- The request after the lines of the fields. -/
def received (r : Request) (fields : List PseudoField) : Request :=
  fields.foldl (fun r f => classifyLine r (f.line 0)) r

/-- **The lines of a section**, one after the other. -/
theorem scanLines_putFields : ∀ {cap fuel scap : ℕ} {out : Bytes}
    (r : Request), putFields fields cap = some out → cap < 2 ^ 63 → out.length ≤ fuel →
      (fields.map PseudoField.scratch).sum ≤ scap →
        scanLines fuel out scap r = some (received r fields) := by
  induction fields with
  | nil =>
    intro cap fuel scap out r h _ _ _
    obtain rfl := Option.some.inj h
    cases fuel <;> rfl
  | cons f fields ih =>
    intro cap fuel scap out r h hcap hfuel hscap
    obtain ⟨line, hline, h⟩ := Option.bind_eq_some_iff.1 h
    obtain ⟨rest, hrest, h⟩ := Option.bind_eq_some_iff.1 h
    obtain rfl := Option.some.inj h
    rw [List.map_cons, List.sum_cons] at hscap
    have hne := putPseudo_ne_nil hline
    have hpos := List.length_pos_of_ne_nil hne
    rw [List.length_append] at hfuel
    obtain ⟨fuel, rfl⟩ : ∃ n, fuel = n + 1 := ⟨fuel - 1, by omega⟩
    rw [scanLines, if_neg (by simp [hne]), decodeLine_putPseudo hline hcap (by omega) rest]
    simp only [Option.bind_eq_bind, Option.bind_some, PseudoField.line, List.drop_left]
    exact ih _ hrest (by omega) (by omega) (by omega)

theorem prefixDecode_append (h : prefixEncode cap 0 false 0 = some out) (rest : Bytes) :
    ∃ pfx, prefixDecode (out ++ rest) = some (pfx, out.length) := by
  obtain ⟨a, ha, h⟩ := Option.bind_eq_some_iff.1 h
  obtain ⟨b, hb, h⟩ := Option.bind_eq_some_iff.1 h
  obtain rfl := Option.some.inj h
  have hcount := intDecode_append ha (by decide +kernel : Above 8 0) (by decide) (b ++ rest)
  have hbase := intDecode_append hb (by decide : Above 7 0) (by decide) rest
  rw [List.append_assoc, prefixDecode, hcount]
  simp only [Option.bind_eq_bind, Option.bind_some, List.drop_left, hbase, Option.pure_def,
    List.length_append]
  exact ⟨_, rfl⟩

/-- **A field section** is decoded to the values its lines carry. -/
theorem recvLines_putSection {fs : Bytes} (r : Request) (h : putSection fields cap = some fs)
    (hcap : cap < 2 ^ 63) (hscap : (fields.map PseudoField.scratch).sum ≤ scap) :
    ∃ pfx off, prefixDecode fs = some (pfx, off) ∧
      scanLines (fs.length - off) (fs.drop off) scap r = some (received r fields) := by
  obtain ⟨out, hout, h⟩ := Option.bind_eq_some_iff.1 h
  obtain ⟨lines, hlines, h⟩ := Option.bind_eq_some_iff.1 h
  obtain rfl := Option.some.inj h
  obtain ⟨pfx, hpfx⟩ := prefixDecode_append hout lines
  refine ⟨pfx, out.length, hpfx, ?_⟩
  rw [List.drop_left]
  exact scanLines_putFields r hlines (by omega) (by rw [List.length_append]; omega) hscap

/-! ## The frames around it -/

theorem framePut_eq_some (h : framePut cap type payload = some out) :
    type ≤ varintMax ∧ payload.length ≤ varintMax ∧
      out = varintEncode type ++ (varintEncode payload.length ++ payload) := by
  obtain ⟨head, hhead, h⟩ := Option.bind_eq_some_iff.1 h
  have hrange : ∀ v ∈ [type, payload.length], v ≤ varintMax := by
    intro v hv
    by_contra hgt
    rw [putVarints_of_gt ⟨v, hv, Nat.lt_of_not_ge hgt⟩] at hhead
    cases hhead
  rw [putVarints_eq_ite (Nat.zero_le _) hrange] at hhead
  obtain rfl := Option.some.inj (Option.ite_none_right_eq_some.1 hhead).2
  obtain rfl := Option.some.inj (Option.ite_none_left_eq_some.1 h).2
  exact ⟨hrange _ (by simp), hrange _ (by simp), by simp⟩

/-- **A frame is read as it was written.** -/
theorem frameGet_append (h : framePut cap type payload = some out) (rest : Bytes) :
    frameGet (out ++ rest) = some { type := type, payload := payload, used := out.length } := by
  obtain ⟨htype, hlen, rfl⟩ := framePut_eq_some h
  have hstart : RestAt (varintEncode type ++ (varintEncode payload.length ++ payload) ++ rest) 0
      (varintEncode type ++ (varintEncode payload.length ++ (payload ++ rest))) :=
    ⟨[], rfl, by simp⟩
  obtain ⟨h1, hstart⟩ := hstart.varintTake htype
  obtain ⟨h2, front, hfront, hbuf⟩ := hstart.varintTake hlen
  simp only [frameGet, h1, h2, Option.bind_eq_bind, Option.bind_some]
  rw [hbuf, ← hfront, List.drop_left, List.take_left, if_neg (by simp), hfront]
  simp [Nat.add_assoc]

theorem sections_reqBuild {headers h3 : Bytes} (h : reqBuild headers body cap = some h3) :
    ∃ stop, findHeaders h3 (h3.length + 1) 0 = some (headers, stop) ∧
      findBody h3 (h3.length + 1) stop = some body := by
  obtain ⟨out, hout, h⟩ := Option.bind_eq_some_iff.1 h
  have hheaders (rest : Bytes) : findHeaders (out ++ rest) ((out ++ rest).length + 1) 0 =
      some (headers, out.length) := by
    rw [findHeaders, List.drop_zero, frameGet_append hout]
    simp
  refine ⟨out.length, ?_⟩
  split at h
  · rename_i hbody
    obtain rfl := Option.some.inj h
    refine ⟨by simpa using hheaders [], ?_⟩
    rw [findBody, if_pos (Nat.le_refl _), List.isEmpty_iff.1 hbody]
  · rename_i hbody
    obtain ⟨data, hdata, h⟩ := Option.bind_eq_some_iff.1 h
    obtain rfl := Option.some.inj h
    refine ⟨hheaders data, ?_⟩
    have hpos : 0 < data.length := by
      obtain ⟨-, -, rfl⟩ := framePut_eq_some hdata
      have : 0 < body.length := List.length_pos_of_ne_nil (by simpa using hbody)
      simp only [List.length_append]
      omega
    have hframe := frameGet_append hdata []
    rw [List.append_nil] at hframe
    rw [findBody, if_neg (by rw [List.length_append]; omega), List.drop_left, hframe]
    rfl

theorem getStream_of_putStream {f : StreamFrame} (h : putStream cap f = some out) :
    ∃ used, getStream out = some (f, used) := by
  obtain ⟨-, -, -, hdec⟩ := putStream_eq_some h
  exact ⟨_, by simpa using hdec []⟩

/-! ## The request -/

/-- The fields of a request. -/
def requestFields (method path authority : Bytes) : List PseudoField :=
  [methodField method, schemeField (ascii "https"), authorityField authority, pathField path]

theorem received_requestFields (method path authority body : Bytes) :
    received { Request.empty with body := body } (requestFields method path authority) =
      { method := (methodField method).carried
        scheme := ascii "https"
        authority := (authorityField authority).carried
        path := (pathField path).carried
        body := body } := by
  have hkinds : phClassify (ascii ":method") = .method ∧ phClassify (ascii ":scheme") = .scheme ∧
      phClassify (ascii ":authority") = .authority ∧ phClassify (ascii ":path") = .path := by
    decide +kernel
  have hscheme : (schemeField (ascii "https")).carried = ascii "https" := by decide +kernel
  obtain ⟨hmethod, hschemeKind, hauthority, hpath⟩ := hkinds
  simp only [received, requestFields, List.foldl_cons, List.foldl_nil, classifyLine,
    PseudoField.line, hmethod, hschemeKind, hauthority, hpath, methodField, schemeField,
    authorityField, pathField] at hscheme ⊢
  rw [hscheme]

/-- **What is decoded of a request that was sent**: each field is what its line carries. -/
theorem recvGet_sendMethod {streamId : ℕ} {method path authority : Bytes}
    (h : sendMethod streamId method path authority body cap = some out)
    (hscap : ((requestFields method path authority).map PseudoField.scratch).sum ≤ scap) :
    recvGet out scap = some
      { method := (methodField method).carried
        scheme := ascii "https"
        authority := (authorityField authority).carried
        path := (pathField path).carried
        body := body } := by
  obtain ⟨fs, hfs, h⟩ := Option.bind_eq_some_iff.1 h
  obtain ⟨h3, hh3, h⟩ := Option.bind_eq_some_iff.1 h
  obtain ⟨used, hstream⟩ := getStream_of_putStream h
  obtain ⟨stop, hheaders, hbody⟩ := sections_reqBuild hh3
  obtain ⟨pfx, off, hpfx, hscan⟩ :=
    recvLines_putSection { Request.empty with body := body } hfs (by decide) hscap
  have hsections : requestSections out = some (fs, body) := by
    simp only [requestSections, hstream, hheaders, hbody, Option.bind_eq_bind, Option.bind_some,
      Option.pure_def]
  simp only [recvGet, hsections, hpfx, hscan, Option.bind_eq_bind, Option.bind_some]
  exact congrArg some (received_requestFields method path authority body)

/-- A value is not cut: it is not searched for as a C string, or the search does not find it, or it
has no NUL. -/
def Uncut (f : PseudoField) : Prop := f.staticIndex = none ∨ 0 ∉ f.val

theorem carried_eq_val_iff (f : PseudoField) : f.carried = f.val ↔ Uncut f := by
  rw [PseudoField.carried, Uncut]
  rcases f.staticIndex with _ | idx
  · simp
  · simp only [Option.isSome_some, if_true, cstr, List.takeWhile_eq_self_iff]
    simp only [decide_eq_true_eq, reduceCtorEq, false_or]
    exact ⟨fun h h0 => h 0 h0 rfl, fun h x hx h0 => h (h0 ▸ hx)⟩

/-- **A request round trips exactly when no field is cut at a NUL.** For a request the sender could
write and whose literal values fit the scratch, the decoder returns the method, path and authority
that were sent if and only if none of them is shorter than 16 bytes, has a NUL and is a value of the
static table up to that NUL. -/
theorem request_round_trip_iff {streamId cap scap : ℕ} {method path authority body out : Bytes}
    (h : sendMethod streamId method path authority body cap = some out)
    (hscap : ((requestFields method path authority).map PseudoField.scratch).sum ≤ scap) :
    (∃ r, recvGet out scap = some r ∧
        r.method = method ∧ r.path = path ∧ r.authority = authority) ↔
      Uncut (methodField method) ∧ Uncut (pathField path) ∧ Uncut (authorityField authority) := by
  rw [← carried_eq_val_iff, ← carried_eq_val_iff, ← carried_eq_val_iff, recvGet_sendMethod h hscap]
  constructor
  · rintro ⟨r, hr, hmethod, hpath, hauthority⟩
    obtain rfl := Option.some.inj hr
    exact ⟨hmethod, hpath, hauthority⟩
  · exact fun hall => ⟨_, rfl, hall⟩

/-- A GET for `/a` of the host `b`. -/
theorem request_round_trip_get :
    ∃ out, sendMethod 0 (ascii "GET") (ascii "/a") (ascii "b") [] 1500 = some out ∧
      ((∃ r, recvGet out 1024 = some r ∧
          r.method = ascii "GET" ∧ r.path = ascii "/a" ∧ r.authority = ascii "b") ↔
        Uncut (methodField (ascii "GET")) ∧ Uncut (pathField (ascii "/a")) ∧
          Uncut (authorityField (ascii "b"))) :=
  have hsend : sendMethod 0 (ascii "GET") (ascii "/a") (ascii "b") [] 1500 =
      some ((sendMethod 0 (ascii "GET") (ascii "/a") (ascii "b") [] 1500).getD []) := by
    decide +kernel
  ⟨_, hsend, request_round_trip_iff hsend (by decide +kernel)⟩

/-- The method `GET\0X` is sent, and `GET` is received. -/
theorem nul_method_cut :
    ∃ out r, sendMethod 0 (ascii "GET" ++ [0x00, 0x58]) (ascii "/a") (ascii "b") [] 1500 = some out ∧
      recvGet out 1024 = some r ∧ r.method = ascii "GET" ∧
        r.method ≠ ascii "GET" ++ [0x00, 0x58] := by
  refine ⟨(sendMethod 0 (ascii "GET" ++ [0x00, 0x58]) (ascii "/a") (ascii "b") [] 1500).getD [],
    { method := ascii "GET", scheme := ascii "https", authority := ascii "b",
      path := ascii "/a", body := [] }, ?_, ?_, rfl, ?_⟩ <;> decide +kernel

end Http3

end QuicVibe
