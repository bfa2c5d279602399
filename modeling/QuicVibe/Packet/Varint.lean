import QuicVibe.Common.Bytes
/-!
# Variable-length integers

The integers of RFC 9000 16 as `varint.c` writes and reads them. Encoders append to what was written
so far and fail when the capacity is reached; decoders read at an offset and return the next one.
-/

namespace QuicVibe

namespace Packet

/-- `QUIC_VARINT_MAX`. -/
def varintMax : ℕ := 2 ^ 62 - 1

/-- Encoded length, or 0 when the value is out of range. -/
def varintLen (v : ℕ) : ℕ :=
  if v ≤ 0x3F then 1 else if v ≤ 0x3FFF then 2 else if v ≤ 0x3FFFFFFF then 4
  else if v ≤ varintMax then 8 else 0

/-- The length class in the two high bits of the first byte. -/
def varintPrefix (n : ℕ) : UInt8 :=
  if n = 2 then 0x40 else if n = 4 then 0x80 else if n = 8 then 0xC0 else 0

def varintEncode (v : ℕ) : Bytes :=
  let n := varintLen v
  (putBe n v).modifyHead (· ||| varintPrefix n)

/-- Length of the encoding that starts with `b`. -/
def varintNeed (b : UInt8) : ℕ :=
  if b >>> 6 = 0 then 1 else if b >>> 6 = 1 then 2 else if b >>> 6 = 2 then 4 else 8

/-- The value and the bytes used. -/
def varintDecode : Bytes → Option (ℕ × ℕ)
  | [] => none
  | b :: rest =>
    let need := varintNeed b
    if (b :: rest).length < need then none
    else some (readBe ((b &&& 0x3F) :: rest.take (need - 1)), need)

/-- The value at `off` and the offset behind it. -/
def varintTake (buf : Bytes) (off : ℕ) : Option (ℕ × ℕ) := do
  let (v, used) ← varintDecode (buf.drop off)
  return (v, off + used)

/-- Append the encoding of `v`; fails when it is out of range or does not fit. -/
def varintPut (out : Bytes) (cap v : ℕ) : Option Bytes :=
  let need := varintLen v
  if need = 0 ∨ out.length + need > cap then none else some (out ++ varintEncode v)

/-! ## Round trip -/

variable {v cap : ℕ} {out : Bytes}

theorem varintLen_pos (h : v ≤ varintMax) : 0 < varintLen v := by
  simp only [varintLen]
  split_ifs <;> omega

theorem le_varintMax_of_len (h : varintLen v ≠ 0) : v ≤ varintMax := by
  have hmax : varintMax = 4611686018427387903 := rfl
  by_contra hv
  refine h ?_
  simp only [varintLen]
  split_ifs <;> omega

@[simp] theorem length_varintEncode (v : ℕ) : (varintEncode v).length = varintLen v := by
  simp [varintEncode]

theorem varintPrefix_spec : ∀ k < 64, ∀ n ∈ [1, 2, 4, 8],
    (UInt8.ofNat k ||| varintPrefix n) &&& 0x3F = UInt8.ofNat k ∧
      varintNeed (UInt8.ofNat k ||| varintPrefix n) = n := by
  decide

theorem putBe_succ (n v : ℕ) :
    putBe (n + 1) v = UInt8.ofNat (v / 256 ^ n % 256) :: putBe n v := by
  induction n generalizing v with
  | zero => simp [putBe]
  | succ n ih =>
    rw [putBe, ih, putBe, List.cons_append, Nat.pow_succ, Nat.mul_comm, Nat.div_div_eq_div_mul]

/-- A value in one of the four lengths, whether or not it is the shortest. -/
def varintBytes (n v : ℕ) : Bytes := (putBe n v).modifyHead (· ||| varintPrefix n)

@[simp] theorem length_varintBytes (n v : ℕ) : (varintBytes n v).length = n := by
  simp [varintBytes]

theorem varintDecode_varintBytes {n : ℕ} (hmem : n + 1 ∈ [1, 2, 4, 8]) (hhigh : v / 256 ^ n < 64)
    (rest : Bytes) : varintDecode (varintBytes (n + 1) v ++ rest) = some (v, n + 1) := by
  obtain ⟨hmask, hneed⟩ := varintPrefix_spec _ hhigh _ hmem
  have hmod : v / 256 ^ n % 256 = v / 256 ^ n := Nat.mod_eq_of_lt (by omega)
  have hcons : varintBytes (n + 1) v =
      (UInt8.ofNat (v / 256 ^ n) ||| varintPrefix (n + 1)) :: putBe n v := by
    simp only [varintBytes, putBe_succ, hmod, List.modifyHead_cons]
  have hval : readBe (UInt8.ofNat (v / 256 ^ n) :: putBe n v) = v := by
    have hlt : v < 256 ^ (n + 1) := by
      have := (Nat.div_lt_iff_lt_mul (Nat.pow_pos (by decide))).1
        (show v / 256 ^ n < 256 by omega)
      rwa [Nat.pow_succ, Nat.mul_comm]
    rw [← hmod, ← putBe_succ, readBe_putBe, Nat.mod_eq_of_lt hlt]
  rw [hcons, List.cons_append, varintDecode, hneed]
  simp only [List.length_cons, List.length_append, length_putBe, Nat.add_sub_cancel]
  rw [if_neg (by omega), hmask, List.take_left' (length_putBe n v), hval]

/-- **Decoding an encoding, followed by anything, gives the value and its length.** -/
theorem varintDecode_encode (h : v ≤ varintMax) (rest : Bytes) :
    varintDecode (varintEncode v ++ rest) = some (v, varintLen v) := by
  have hclass : ∃ n, varintLen v = n + 1 ∧ n + 1 ∈ [1, 2, 4, 8] ∧ v / 256 ^ n < 64 := by
    have hmax : varintMax = 4611686018427387903 := rfl
    simp only [varintLen]
    split_ifs
    · exact ⟨0, rfl, by decide, by omega⟩
    · exact ⟨1, rfl, by decide, by omega⟩
    · exact ⟨3, rfl, by decide, by omega⟩
    · exact ⟨7, rfl, by decide, by omega⟩
  obtain ⟨n, hlen, hmem, hhigh⟩ := hclass
  have hbytes : varintEncode v = varintBytes (n + 1) v := by rw [varintEncode, hlen, varintBytes]
  rw [hbytes, hlen, varintDecode_varintBytes hmem hhigh]

theorem varintTake_of_drop {buf rest : Bytes} (off : ℕ) (h : v ≤ varintMax)
    (hdrop : buf.drop off = varintEncode v ++ rest) :
    varintTake buf off = some (v, off + varintLen v) := by
  simp [varintTake, hdrop, varintDecode_encode h]

theorem varintNeed_cases (b : UInt8) : varintNeed b ∈ [1, 2, 4, 8] := by
  rw [varintNeed]
  split_ifs <;> decide

/-- A value that is read is in range, and its encoding lies inside the string. -/
theorem varintDecode_eq_some {bs : Bytes} {n : ℕ} (h : varintDecode bs = some (v, n)) :
    v ≤ varintMax ∧ 0 < n ∧ n ≤ bs.length := by
  cases bs with
  | nil => cases h
  | cons b rest =>
    simp only [varintDecode] at h
    split at h
    · cases h
    · obtain ⟨rfl, rfl⟩ := Prod.mk.inj (Option.some.inj h)
      have hneed : 0 < varintNeed b ∧ varintNeed b ≤ 8 := by
        have := varintNeed_cases b
        simp only [List.mem_cons, List.not_mem_nil, or_false] at this
        omega
      have hlow : (b &&& 0x3F).toNat ≤ 63 := by
        rw [UInt8.toNat_and]
        exact Nat.and_le_right
      have hlt := readBe_cons_lt (b &&& 0x3F) (rest.take (varintNeed b - 1))
      have hpow : 256 ^ (rest.take (varintNeed b - 1)).length ≤ 256 ^ 7 :=
        Nat.pow_le_pow_right (by decide) (by rw [List.length_take]; omega)
      have hmul := Nat.mul_le_mul (Nat.succ_le_succ hlow) hpow
      have hmax : varintMax = 64 * 256 ^ 7 - 1 := rfl
      refine ⟨?_, hneed.1, by omega⟩
      rw [hmax]
      exact Nat.le_sub_one_of_lt (Nat.lt_of_lt_of_le hlt hmul)

/-- What is left of `buf` from `off` on is `rest`. -/
def RestAt (buf : Bytes) (off : ℕ) (rest : Bytes) : Prop :=
  ∃ front, front.length = off ∧ buf = front ++ rest

theorem RestAt.varintTake {buf rest : Bytes} {off v : ℕ}
    (h : RestAt buf off (varintEncode v ++ rest)) (hv : v ≤ varintMax) :
    varintTake buf off = some (v, off + varintLen v) ∧ RestAt buf (off + varintLen v) rest := by
  obtain ⟨front, rfl, rfl⟩ := h
  exact ⟨varintTake_of_drop _ hv (List.drop_left ..),
    front ++ varintEncode v, by simp, (List.append_assoc ..).symm⟩

theorem varintTake_eq_some {buf : Bytes} {off off' : ℕ} (h : varintTake buf off = some (v, off')) :
    v ≤ varintMax ∧ off < off' ∧ off' ≤ buf.length := by
  simp only [varintTake, Option.bind_eq_bind, Option.bind_eq_some_iff] at h
  obtain ⟨⟨w, n⟩, hdec, hpair⟩ := h
  obtain ⟨rfl, rfl⟩ := Prod.mk.inj (Option.some.inj hpair)
  obtain ⟨hv, hpos, hlen⟩ := varintDecode_eq_some hdec
  rw [List.length_drop] at hlen
  exact ⟨hv, by omega, by omega⟩

theorem varintPut_eq_some {out' : Bytes} (h : varintPut out cap v = some out') :
    v ≤ varintMax ∧ out' = out ++ varintEncode v ∧ out'.length ≤ cap := by
  simp only [varintPut] at h
  split at h
  · cases h
  · rename_i hc
    obtain rfl := Option.some.inj h
    refine ⟨le_varintMax_of_len (by omega), rfl, ?_⟩
    rw [List.length_append, length_varintEncode]
    omega

/-- **An append** succeeds exactly when the encoding fits. -/
theorem varintPut_eq_ite (out : Bytes) (cap : ℕ) (hv : v ≤ varintMax) :
    varintPut out cap v =
      if (out ++ varintEncode v).length ≤ cap then some (out ++ varintEncode v) else none := by
  have hpos := varintLen_pos hv
  rw [varintPut, List.length_append, length_varintEncode]
  by_cases hcap : out.length + varintLen v ≤ cap
  · rw [if_pos hcap, if_neg (by omega)]
  · rw [if_neg hcap, if_pos (by omega)]

theorem varintPut_of_gt (hv : varintMax < v) : varintPut out cap v = none := by
  have hlen : varintLen v = 0 := by
    by_contra hlen
    exact absurd (le_varintMax_of_len hlen) (by omega)
  rw [varintPut, hlen, if_pos (Or.inl rfl)]

theorem varintPut_eq (hv : v ≤ varintMax) (hcap : out.length + varintLen v ≤ cap) :
    varintPut out cap v = some (out ++ varintEncode v) := by
  have := varintLen_pos hv
  rw [varintPut, if_neg (by omega)]

end Packet

end QuicVibe
