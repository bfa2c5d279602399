import QuicVibe.Pki.X509
/-!
# DER elements and ECDSA signatures, written and read back

The writer of `derenc.c` chooses the shortest of three length forms, and `quic_der_read` takes each of
them apart. An ECDSA signature is a SEQUENCE of two INTEGERs (`der_int.c`, `sig_value.c`), read by
`chainverify.c` and by `certverify.c`.
-/

namespace QuicVibe

namespace Pki

open Crypto Tls

/-! ## Elements -/

/-- `len_octets`: octets of the length field, 0 beyond the two-octet long form. -/
def lenOctets (len : ℕ) : ℕ :=
  if len < 0x80 then 1 else if len < 0x100 then 2 else if len < 0x10000 then 3 else 0

def derPutLen (lo len : ℕ) : Bytes :=
  if lo = 1 then putBe 1 len else UInt8.ofNat (0x80 + (lo - 1)) :: putBe (lo - 1) len

/-- The octets of an element. -/
def derTlv (tag : UInt8) (val : Bytes) : Bytes :=
  tag :: (derPutLen (lenOctets val.length) val.length ++ val)

def selfcertDerTlv (tag : UInt8) (val : Bytes) (cap : ℕ) : Option Bytes :=
  let lo := lenOctets val.length
  if lo = 0 then none
  else if 1 + lo + val.length > cap then none
  else some (derTlv tag val)

theorem lenOctets_pos {len : ℕ} (h : len < 65536) : 0 < lenOctets len := by
  unfold lenOctets
  split_ifs <;> omega

theorem length_derPutLen {lo : ℕ} (h : 0 < lo) (len : ℕ) : (derPutLen lo len).length = lo := by
  unfold derPutLen
  split_ifs with hone
  · rw [length_putBe, hone]
  · rw [List.length_cons, length_putBe]
    omega

theorem length_derTlv (tag : UInt8) {val : Bytes} (h : val.length < 65536) :
    (derTlv tag val).length = 1 + lenOctets val.length + val.length := by
  rw [derTlv, List.length_cons, List.length_append, length_derPutLen (lenOctets_pos h)]
  omega

theorem selfcertDerTlv_eq (tag : UInt8) {val : Bytes} (h : val.length < 65536) (cap : ℕ) :
    selfcertDerTlv tag val cap =
      if (derTlv tag val).length ≤ cap then some (derTlv tag val) else none := by
  have hpos := lenOctets_pos h
  simp only [selfcertDerTlv, length_derTlv tag h]
  rw [if_neg (by omega)]
  by_cases hcap : 1 + lenOctets val.length + val.length ≤ cap
  · rw [if_pos hcap, if_neg (by omega)]
  · rw [if_neg hcap, if_pos (by omega)]

/-- **Each length form** is read back. -/
theorem derLen_derPutLen {len : ℕ} (h : len < 65536) (tail : Bytes) :
    derLen (derPutLen (lenOctets len) len ++ tail) = some (len, lenOctets len) := by
  have hlong : ∀ nb, nb = 1 ∨ nb = 2 → len < 256 ^ nb →
      derLen (derPutLen (nb + 1) len ++ tail) = some (len, nb + 1) := by
    intro nb hnb hlen
    have hlead : ¬ UInt8.ofNat (0x80 + nb) < 0x80 ∧ derLongN (UInt8.ofNat (0x80 + nb)) = nb := by
      rcases hnb with rfl | rfl <;> decide
    have hread : readBe ((putBe nb len ++ tail).take nb) = len := by
      rw [List.take_left' (length_putBe nb len), readBe_putBe, Nat.mod_eq_of_lt hlen]
    have hroom : ¬ (nb = 0 ∨ (putBe nb len ++ tail).length < nb) := by
      rw [List.length_append, length_putBe]
      omega
    rw [derPutLen, if_neg (by omega), Nat.add_sub_cancel, List.cons_append, derLen, if_neg hlead.1]
    simp only [hlead.2]
    rw [if_neg hroom, hread, Nat.add_comm]
  unfold lenOctets
  split_ifs with h₁ h₂
  · have hmod : len % 256 = len := Nat.mod_eq_of_lt (by omega)
    have hlead : (UInt8.ofNat len).toNat = len := by rw [UInt8.toNat_ofNat', hmod]
    have hlt : UInt8.ofNat len < 0x80 := by
      rw [UInt8.lt_iff_toNat_lt, hlead]
      exact h₁
    have hput : derPutLen 1 len = [UInt8.ofNat len] := by simp [derPutLen, putBe, hmod]
    rw [hput, List.singleton_append, derLen, if_pos hlt, hlead]
  · exact hlong 1 (.inl rfl) (by omega)
  · exact hlong 2 (.inr rfl) (by omega)

/-- **An element is read back**, whatever follows it. -/
theorem derRead_derTlv (tag : UInt8) {val : Bytes} (h : val.length < 65536) (tail : Bytes) :
    derRead (derTlv tag val ++ tail) =
      some { tag := tag, val := val, consumed := (derTlv tag val).length } := by
  have hpos := lenOctets_pos h
  have hput := length_derPutLen hpos val.length
  have hdrop : (derTlv tag val ++ tail).drop (1 + lenOctets val.length) = val ++ tail := by
    rw [derTlv, List.cons_append, Nat.add_comm, List.drop_succ_cons, List.append_assoc]
    exact List.drop_left' hput
  have hlen : (derTlv tag val ++ tail).length = 1 + lenOctets val.length + val.length + tail.length := by
    rw [List.length_append, length_derTlv tag h]
  have hcons : derTlv tag val ++ tail =
      tag :: (derPutLen (lenOctets val.length) val.length ++ (val ++ tail)) := by
    simp [derTlv]
  rw [hcons] at hdrop hlen ⊢
  unfold derRead
  dsimp only
  rw [if_neg (by rw [List.length_append, hput]; omega), derLen_derPutLen h]
  dsimp only
  rw [if_neg (by omega), hdrop, List.take_left, length_derTlv tag h]

/-- **A sequence of elements** is read back one by one. -/
theorem derElems_flatMap {elems : List (UInt8 × Bytes)} (h : ∀ e ∈ elems, e.2.length < 65536)
    {fuel : ℕ} (hfuel : (elems.flatMap fun e => derTlv e.1 e.2).length ≤ fuel) :
    (derElems fuel (elems.flatMap fun e => derTlv e.1 e.2)).map (fun e => (e.tag, e.val)) = elems := by
  induction elems generalizing fuel with
  | nil => cases fuel <;> rfl
  | cons e elems ih =>
    obtain ⟨he, hrest⟩ := List.forall_mem_cons.1 h
    have hlen := length_derTlv e.1 he
    rw [List.flatMap_cons, List.length_append] at hfuel
    obtain ⟨fuel, rfl⟩ : ∃ n, fuel = n + 1 := ⟨fuel - 1, by omega⟩
    rw [List.flatMap_cons, derElems, derRead_derTlv e.1 he]
    dsimp only
    rw [List.drop_left, List.map_cons, ih hrest (by omega)]

/-! ## Signatures -/

/-- `der_int_strip`: the leading zero octets, but never the last octet. -/
def derIntStrip (val : Bytes32) : ℕ := ((val.toList.take 31).takeWhile (· == 0)).length

/-- `der_int_content`: a sign octet in front of a set top bit. -/
def derIntContent (val : Bytes32) (start : ℕ) : Bytes :=
  (if val.toList.getD start 0 &&& 0x80 ≠ 0 then [0] else []) ++ val.toList.drop start

def ecdsasigEncodeInteger (val : Bytes32) (cap : ℕ) : Option Bytes :=
  selfcertDerTlv derInteger (derIntContent val (derIntStrip val)) cap

def sigBody (r s : Bytes32) : Option Bytes := do
  let rn ← ecdsasigEncodeInteger r 35
  let sn ← ecdsasigEncodeInteger s 35
  return rn ++ sn

def ecdsasigEncode (r s : Bytes32) (cap : ℕ) : Option Bytes := do
  let body ← sigBody r s
  selfcertDerTlv derSequence body cap

def chvStripPad (v : Bytes) : Bytes := if v.length > 1 ∧ v.getD 0 0 = 0x00 then v.drop 1 else v

/-- `chv_left_pad32`: the value over the end of 32 zero octets. -/
def chvLeftPad32 (v : Bytes) : Bytes32 := Buf.writeAt (Vector.replicate 32 0) (32 - v.length) v

def chvCopyInt32 (seq : Bytes) : Option (Bytes32 × Bytes) := do
  let (v, rest) ← nextTagged seq derInteger
  let v := chvStripPad v
  if v.length ≥ 1 ∧ v.length ≤ 32 then some (chvLeftPad32 v, rest) else none

def chvEcdsaSplit (sig : Bytes) : Option (Bytes32 × Bytes32) := do
  let (seq, _) ← nextTagged sig derSequence
  let (r, rest) ← chvCopyInt32 seq
  let (s, _) ← chvCopyInt32 rest
  return (r, s)

theorem chvLeftPad32_eq {v : Bytes} (h : v.length ≤ 32) :
    chvLeftPad32 v = Bytes.fit 32 (List.replicate (32 - v.length) 0 ++ v) := by
  apply Vector.ext
  intro i hi
  rw [chvLeftPad32, Buf.getElem_writeAt, Bytes.fit, Vector.getElem_ofFn]
  dsimp only
  split_ifs with hin
  · rw [List.getD_append_right _ _ _ _ (by simpa using hin), List.length_replicate,
      List.getD_eq_getElem _ _ (by omega), List.getElem?_eq_getElem (by omega), Option.getD_some]
  · rw [List.getD_append _ _ _ _ (by simp; omega), List.getD_replicate _ (by omega),
      Vector.getElem_replicate]

/-- **The two readers agree** on every input. -/
theorem chvEcdsaSplit_eq (sig : Bytes) : chvEcdsaSplit sig = ecdsaSplit sig := by
  have hcopy : ∀ seq, chvCopyInt32 seq = copyInt32 seq := by
    intro seq
    unfold chvCopyInt32 copyInt32
    refine congrArg _ (funext fun p => ?_)
    have hstrip : chvStripPad p.1 = stripPad p.1 := rfl
    dsimp only
    rw [hstrip]
    split_ifs with h
    · rw [chvLeftPad32_eq h.2]
    · rfl
  simp only [chvEcdsaSplit, ecdsaSplit, hcopy]

/-! ### Integers -/

section

variable (val : Bytes32)

theorem derIntStrip_le : derIntStrip val ≤ 31 := by
  refine Nat.le_trans (List.takeWhile_sublist _).length_le ?_
  rw [List.length_take]
  omega

theorem take_derIntStrip :
    val.toList.take (derIntStrip val) = List.replicate (derIntStrip val) 0 := by
  have htake : (val.toList.take 31).takeWhile (· == 0) = val.toList.take (derIntStrip val) := by
    have hprefix := List.prefix_iff_eq_take.1 (List.takeWhile_prefix (l := val.toList.take 31) (· == 0))
    rw [List.take_take, ← derIntStrip, Nat.min_eq_left (derIntStrip_le val)] at hprefix
    exact hprefix
  rw [← htake, derIntStrip, List.eq_replicate_iff]
  exact ⟨rfl, fun b hb => by simpa using List.all_eq_true.1 (List.all_takeWhile ..) b hb⟩

/-- What is left starts with an octet that is not zero, or is the last octet. -/
theorem derIntStrip_stop : derIntStrip val = 31 ∨ val.toList.getD (derIntStrip val) 0 ≠ 0 := by
  have hstop : ∀ l : Bytes, (l.takeWhile (· == 0)).length = l.length ∨
      l.getD (l.takeWhile (· == 0)).length 0 ≠ 0 := by
    intro l
    induction l with
    | nil => exact .inl rfl
    | cons b l ih =>
      by_cases hb : b = 0
      · simpa [hb] using ih
      · simp [hb]
  have hlen : (val.toList.take 31).length = 31 := by simp
  rcases hstop (val.toList.take 31) with h | h
  · exact .inl (h.trans hlen)
  · by_cases h31 : derIntStrip val = 31
    · exact .inl h31
    · have := derIntStrip_le val
      refine .inr ?_
      rwa [← derIntStrip, List.getD_eq_getElem _ _ (by omega), List.getElem_take,
        ← List.getD_eq_getElem _ 0] at h

theorem stripPad_derIntContent :
    stripPad (derIntContent val (derIntStrip val)) = val.toList.drop (derIntStrip val) := by
  have hle := derIntStrip_le val
  have hlen : (val.toList.drop (derIntStrip val)).length = 32 - derIntStrip val := by simp
  have hhead : (val.toList.drop (derIntStrip val)).getD 0 0 = val.toList.getD (derIntStrip val) 0 := by
    simp [List.getD_eq_getElem?_getD]
  unfold derIntContent
  by_cases hpad : val.toList.getD (derIntStrip val) 0 &&& 0x80 ≠ 0
  · rw [if_pos hpad, stripPad, if_pos ⟨by simp; omega, rfl⟩]
    rfl
  · rw [if_neg hpad, List.nil_append, stripPad, if_neg]
    rintro ⟨hlong, hzero⟩
    rw [hhead] at hzero
    rcases derIntStrip_stop val with h | h
    · omega
    · exact h hzero

theorem length_derIntContent :
    1 ≤ (derIntContent val (derIntStrip val)).length ∧
      (derIntContent val (derIntStrip val)).length ≤ 33 := by
  have hle := derIntStrip_le val
  unfold derIntContent
  split_ifs
  · rw [List.length_append, List.length_singleton, List.length_drop, Vector.length_toList]
    omega
  · rw [List.nil_append, List.length_drop, Vector.length_toList]
    omega

/-- The INTEGER of a scalar. -/
def derUint : Bytes := derTlv derInteger (derIntContent val (derIntStrip val))

theorem length_derUint : (derUint val).length ≤ 35 := by
  have hlen := length_derIntContent val
  have hocts : lenOctets (derIntContent val (derIntStrip val)).length = 1 := if_pos (by omega)
  rw [derUint, length_derTlv _ (by omega), hocts]
  omega

theorem ecdsasigEncodeInteger_eq : ecdsasigEncodeInteger val 35 = some (derUint val) := by
  have hlen := length_derIntContent val
  rw [ecdsasigEncodeInteger, selfcertDerTlv_eq _ (by omega)]
  exact if_pos (length_derUint val)

/-- **A scalar is read back** from its INTEGER. -/
theorem copyInt32_derUint (tail : Bytes) : copyInt32 (derUint val ++ tail) = some (val, tail) := by
  have hlen := length_derIntContent val
  have hle := derIntStrip_le val
  have hdrop : (val.toList.drop (derIntStrip val)).length = 32 - derIntStrip val := by simp
  have hback : List.replicate (32 - (val.toList.drop (derIntStrip val)).length) 0 ++
      val.toList.drop (derIntStrip val) = val.toList := by
    rw [hdrop, show 32 - (32 - derIntStrip val) = derIntStrip val by omega, ← take_derIntStrip,
      List.take_append_drop]
  have hnext : nextTagged (derUint val ++ tail) derInteger =
      some (derIntContent val (derIntStrip val), tail) := by
    rw [nextTagged, derUint, derRead_derTlv _ (by omega), Option.bind_eq_bind, Option.bind_some]
    dsimp only
    rw [if_pos rfl, List.drop_left]
  rw [copyInt32, hnext, Option.bind_eq_bind, Option.bind_some]
  dsimp only
  rw [stripPad_derIntContent, if_pos ⟨by omega, by omega⟩, hback, Bytes.fit_toList]

end

/-- The signature of two scalars. -/
def ecdsaSigValue (r s : Bytes32) : Bytes := derTlv derSequence (derUint r ++ derUint s)

theorem length_ecdsaSigValue (r s : Bytes32) : (derUint r ++ derUint s).length < 65536 := by
  have hr := length_derUint r
  have hs := length_derUint s
  rw [List.length_append]
  omega

theorem ecdsasigEncode_eq (r s : Bytes32) (cap : ℕ) :
    ecdsasigEncode r s cap =
      if (ecdsaSigValue r s).length ≤ cap then some (ecdsaSigValue r s) else none := by
  simp only [ecdsasigEncode, sigBody, ecdsasigEncodeInteger_eq, Option.bind_eq_bind,
    Option.bind_some, Option.pure_def]
  exact selfcertDerTlv_eq _ (length_ecdsaSigValue r s) cap

theorem ecdsaSplit_ecdsaSigValue (r s : Bytes32) (tail : Bytes) :
    ecdsaSplit (ecdsaSigValue r s ++ tail) = some (r, s) := by
  have hseq : nextTagged (ecdsaSigValue r s ++ tail) derSequence =
      some (derUint r ++ derUint s, tail) := by
    rw [nextTagged, ecdsaSigValue, derRead_derTlv _ (length_ecdsaSigValue r s), Option.bind_eq_bind,
      Option.bind_some]
    dsimp only
    rw [if_pos rfl, List.drop_left]
  have hs := copyInt32_derUint s []
  rw [List.append_nil] at hs
  simp only [ecdsaSplit, hseq, copyInt32_derUint, hs, Option.bind_eq_bind, Option.bind_some,
    Option.pure_def]

/-- **ECDSA signatures in DER.** For all scalars the encoder writes one signature, whenever it fits,
and both readers return the two scalars from it; they agree on every input; and every element the
writer writes is read back with its tag and value, which it does for every value of fewer than 65536
octets that fits. -/
theorem ecdsa_sig_der_exact :
    (∀ r s : Bytes32, ∃ sig, (∀ cap, ecdsasigEncode r s cap =
        if sig.length ≤ cap then some sig else none) ∧ ∀ tail,
      chvEcdsaSplit (sig ++ tail) = some (r, s) ∧ ecdsaSplit (sig ++ tail) = some (r, s)) ∧
    (∀ sig, chvEcdsaSplit sig = ecdsaSplit sig) ∧
    ∀ (tag : UInt8) (val : Bytes), val.length < 65536 → ∃ elem,
      (∀ cap, selfcertDerTlv tag val cap = if elem.length ≤ cap then some elem else none) ∧
      ∀ tail, derRead (elem ++ tail) = some { tag := tag, val := val, consumed := elem.length } := by
  refine ⟨fun r s => ?_, chvEcdsaSplit_eq, fun tag val h => ?_⟩
  · refine ⟨ecdsaSigValue r s, ecdsasigEncode_eq r s, fun tail => ?_⟩
    have hsplit := ecdsaSplit_ecdsaSigValue r s tail
    exact ⟨(chvEcdsaSplit_eq _).trans hsplit, hsplit⟩
  · exact ⟨derTlv tag val, selfcertDerTlv_eq tag h, derRead_derTlv tag h⟩

end Pki

end QuicVibe
