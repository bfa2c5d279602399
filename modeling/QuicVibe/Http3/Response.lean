import QuicVibe.Http3.Request
/-!
# Responses round trip

The response reader (`response.c` over `respparse.c`) against the response writer. A status goes out
as an index of the static table or as a literal with a name reference, and the two forms are told
apart by the first bit of the line.
-/

namespace QuicVibe

namespace Http3

open QuicVibe.Frame

/-! ## The reader -/

def getTyped (buf : Bytes) (want : ℕ) : Option H3Frame := do
  let f ← frameGet buf
  if f.type ≠ want then none else some f

def parseBody (rem : Bytes) : Option Bytes :=
  if rem.isEmpty then some [] else (getTyped rem frameData).map H3Frame.payload

/-- `quic_h3req_resp_parse`: the field section and the body. -/
def respParse (stream : Bytes) : Option (Bytes × Bytes) := do
  let f ← getTyped stream frameHeaders
  let body ← parseBody (stream.drop f.used)
  return (f.payload, body)

/-- `digits_to_status`, an `int` cast to 16 bits. -/
def digitsToStatus (d : Bytes) : ℕ :=
  let digit (i : ℕ) : ℤ := (d.getD i 0).toNat - 0x30
  ((digit 0 * 100 + digit 1 * 10 + digit 2) % 2 ^ 16).toNat

def statusFromIndexed (buf : Bytes) : Option ℕ := do
  let (index, _, _) ← indexedDecode buf
  let (_, value) ← staticGet index
  return digitsToStatus value

def statusFromLiteral (buf : Bytes) : Option ℕ := do
  let l ← literalNamrefDecode buf 8
  if l.value.length ≠ 3 then none else some (digitsToStatus l.value)

def decodeStatus (fs : Bytes) : Option ℕ := do
  let (_, off) ← prefixDecode fs
  (statusFromIndexed (fs.drop off)).or (statusFromLiteral (fs.drop off))

/-- `quic_h3conn_recv_response`: the status and the body. -/
def recvResponse (streamData : Bytes) : Option (ℕ × Bytes) := do
  let (f, _) ← getStream streamData
  let (headers, body) ← respParse f.data
  let status ← decodeStatus headers
  return (status, body)

/-! ## The round trip -/

theorem digitsToStatus_statusDigits {status : ℕ} (h : status < 1000) :
    digitsToStatus (statusDigits status) = status := by
  have hdigit : ∀ d < 10, (UInt8.ofNat (0x30 + d)).toNat = 0x30 + d := by decide
  have h₀ := hdigit (status / 100 % 10) (Nat.mod_lt _ (by decide))
  have h₁ := hdigit (status / 10 % 10) (Nat.mod_lt _ (by decide))
  have h₂ := hdigit (status % 10) (Nat.mod_lt _ (by decide))
  simp only [digitsToStatus, statusDigits, List.map_cons, List.getD_cons_zero, List.getD_cons_succ,
    h₀, h₁, h₂]
  have htens : status / 10 / 10 = status / 100 := Nat.div_div_eq_div_mul status 10 10
  have hhundreds : status / 100 < 10 := by omega
  rw [Nat.mod_eq_of_lt hhundreds, Int.emod_eq_of_lt (by omega) (by omega)]
  omega

/-- **A status is read as it was written**, in either form. -/
theorem decodeStatus_encodeStatus {status cap : ℕ} {fs : Bytes} (hstatus : status < 1000)
    (h : encodeStatus status cap = some fs) : decodeStatus fs = some status := by
  obtain ⟨out, hout, h⟩ := Option.bind_eq_some_iff.1 h
  have hread : ∀ line, (statusFromIndexed line).or (statusFromLiteral line) = some status →
      decodeStatus (out ++ line) = some status := by
    intro line hline
    obtain ⟨pfx, hpfx⟩ := prefixDecode_append hout line
    simpa only [decodeStatus, hpfx, Option.bind_eq_bind, Option.bind_some, List.drop_left]
  cases hfind : staticFind (ascii ":status") (statusDigits status) with
  | some idx =>
    rw [hfind] at h
    obtain ⟨line, hline, h⟩ := Option.bind_eq_some_iff.1 h
    obtain rfl := Option.some.inj h
    refine hread line ?_
    rw [← List.append_nil line]
    have hstatic := staticFind_eq_some hfind
    obtain ⟨isStatic, hdec⟩ := indexedDecode_append hline (lt_of_staticGet hstatic) []
    simp only [statusFromIndexed, hdec, hstatic, Option.bind_eq_bind, Option.bind_some,
      Option.pure_def, Option.some_or, digitsToStatus_statusDigits hstatus]
  | none =>
    rw [hfind] at h
    obtain ⟨line, hline, h⟩ := Option.bind_eq_some_iff.1 h
    obtain rfl := Option.some.inj h
    refine hread line ?_
    rw [← List.append_nil line]
    obtain ⟨hother, l, hdec, -, hvalue, -⟩ :=
      literalNamrefDecode_append hline (by decide) (by simp [statusDigits])
        (by simp [statusDigits] : (statusDigits status).length ≤ 8) []
    simp only [statusFromIndexed, hother, statusFromLiteral, hdec, hvalue, Option.bind_eq_bind,
      Option.bind_none, Option.bind_some, Option.none_or, digitsToStatus_statusDigits hstatus]
    rfl

theorem getTyped_append {cap type : ℕ} {payload out : Bytes}
    (h : framePut cap type payload = some out) (rest : Bytes) :
    getTyped (out ++ rest) type = some ⟨type, payload, out.length⟩ := by
  simp [getTyped, frameGet_append h]

/-- HEADERS and, behind it, DATA or nothing. -/
theorem respParse_respBuild {status cap : ℕ} {body h3 : Bytes}
    (h : respBuild status body cap = some h3) :
    ∃ fs, encodeStatus status 16 = some fs ∧ respParse h3 = some (fs, body) := by
  obtain ⟨fs, hfs, h⟩ := Option.bind_eq_some_iff.1 h
  obtain ⟨out, hout, h⟩ := Option.bind_eq_some_iff.1 h
  refine ⟨fs, hfs, ?_⟩
  have hparse : ∀ rest, parseBody rest = some body → respParse (out ++ rest) = some (fs, body) := by
    intro rest hrest
    simp only [respParse, getTyped_append hout, List.drop_left, hrest, Option.bind_eq_bind,
      Option.bind_some, Option.pure_def]
  split at h
  · rename_i hbody
    obtain rfl := Option.some.inj h
    rw [← List.append_nil out]
    exact hparse [] (congrArg some (List.isEmpty_iff.1 hbody).symm)
  · rename_i hbody
    obtain ⟨data, hdata, h⟩ := Option.bind_eq_some_iff.1 h
    obtain rfl := Option.some.inj h
    refine hparse data ?_
    have hne : data.isEmpty = false := by
      obtain ⟨-, -, rfl⟩ := framePut_eq_some hdata
      simpa using fun _ _ => hbody
    have hget := getTyped_append hdata []
    rw [List.append_nil] at hget
    rw [parseBody, hne, if_neg Bool.false_ne_true, hget]
    rfl

/-- **A response round trips.** Whatever status of three digits, stream and body the writer could
write, the reader returns the status and the body. -/
theorem response_round_trip {streamId status cap : ℕ} {body out : Bytes} (hstatus : status ≤ 999)
    (h : sendResponse streamId status body cap = some out) :
    recvResponse out = some (status, body) := by
  obtain ⟨h3, hh3, h⟩ := Option.bind_eq_some_iff.1 h
  obtain ⟨used, hstream⟩ := getStream_of_putStream h
  obtain ⟨fs, hfs, hparse⟩ := respParse_respBuild hh3
  have hcode := decodeStatus_encodeStatus (by omega) hfs
  simp only [recvResponse, hstream, hparse, hcode, Option.bind_eq_bind, Option.bind_some,
    Option.pure_def]

/-- A status of the static table and one that is not in it. -/
theorem response_round_trip_both :
    ∃ out out', sendResponse 0 404 [0x68, 0x69] 1500 = some out ∧
      recvResponse out = some (404, [0x68, 0x69]) ∧
      sendResponse 4 7 [] 1500 = some out' ∧ recvResponse out' = some (7, []) :=
  have hsend : sendResponse 0 404 [0x68, 0x69] 1500 =
      some ((sendResponse 0 404 [0x68, 0x69] 1500).getD []) := by decide +kernel
  have hsend' : sendResponse 4 7 [] 1500 = some ((sendResponse 4 7 [] 1500).getD []) := by
    decide +kernel
  ⟨_, _, hsend, response_round_trip (by decide) hsend, hsend',
    response_round_trip (by decide) hsend'⟩

end Http3

end QuicVibe
