import QuicVibe.Http3.Message
/-!
# Field lines round trip

What the encoders of QPACK write is what its decoders read. The bits above the prefix of an integer
tell the forms apart, so every lemma about an encoding says what its first byte is.
-/

namespace QuicVibe

namespace Http3

open Packet

/-! ## Integers -/

/-- The bits of `flags` are above the prefix. -/
def Above (prefixBits : ℕ) (flags : UInt8) : Prop :=
  ∀ k ≤ prefixMax prefixBits, (flags ||| UInt8.ofNat k).toNat &&& prefixMax prefixBits = k

instance (prefixBits : ℕ) (flags : UInt8) : Decidable (Above prefixBits flags) :=
  inferInstanceAs (Decidable (∀ k ≤ prefixMax prefixBits, _))

variable {cap prefixBits value index : ℕ} {flags : UInt8} {out : Bytes}

theorem intEncode_eq_some (h : intEncode cap prefixBits flags value = some out) :
    out = (flags ||| UInt8.ofNat (min value (prefixMax prefixBits))) ::
        (if value < prefixMax prefixBits then [] else groups 10 (value - prefixMax prefixBits)) ∧
      out.length ≤ cap := by
  obtain ⟨hcap, h⟩ := Option.ite_none_left_eq_some.1 h
  obtain rfl := Option.some.inj h
  refine ⟨?_, Nat.le_of_not_gt hcap⟩
  by_cases hv : value < prefixMax prefixBits
  · rw [if_pos hv, if_pos hv, Nat.min_eq_left (Nat.le_of_lt hv)]
  · rw [if_neg hv, if_neg hv, Nat.min_eq_right (Nat.le_of_not_gt hv)]

theorem group_bits (v : ℕ) :
    (UInt8.ofNat ((v &&& 0x7f) ||| 0x80) &&& 0x7f).toNat = v % 128 ∧
      UInt8.ofNat ((v &&& 0x7f) ||| 0x80) &&& 0x80 ≠ 0 := by
  have hlow : v &&& 0x7f = v % 128 := Nat.and_two_pow_sub_one_eq_mod v 7
  have hbyte : ∀ k < 128, (UInt8.ofNat (k ||| 0x80) &&& 0x7f).toNat = k ∧
      UInt8.ofNat (k ||| 0x80) &&& 0x80 ≠ 0 := by decide
  rw [hlow]
  exact hbyte _ (Nat.mod_lt _ (by decide))

theorem last_group_bits {v : ℕ} (h : v < 128) :
    (UInt8.ofNat v &&& 0x7f).toNat = v ∧ UInt8.ofNat v &&& 0x80 = 0 := by
  have hbyte : ∀ k < 128, (UInt8.ofNat k &&& 0x7f).toNat = k ∧ UInt8.ofNat k &&& 0x80 = 0 := by
    decide
  exact hbyte v h

/-- The groups of a value of at most `7 * k` bits, read from a shift that leaves room for `k`
groups. -/
theorem takeGroups_groups (k : ℕ) : ∀ {fuel v m : ℕ} (acc : ℕ) (rest : Bytes), 0 < k → k ≤ fuel →
    v < 2 ^ (7 * k) → m + 7 * k ≤ 63 →
      takeGroups (groups fuel v ++ rest) m acc = some (acc + v <<< m, (groups fuel v).length) := by
  induction k with
  | zero => intro fuel v m acc rest hpos; omega
  | succ k ih =>
    intro fuel v m acc rest _ hfuel hv hm
    obtain ⟨fuel, rfl⟩ : ∃ f, fuel = f + 1 := ⟨fuel - 1, by omega⟩
    rw [groups]
    by_cases hmore : v ≥ 0x80
    · have hk : 0 < k := by
        rcases Nat.eq_zero_or_pos k with rfl | hk
        · exact absurd hv (by omega)
        · exact hk
      have hshift : v >>> 7 = v / 128 := Nat.shiftRight_eq_div_pow v 7
      have hrest : v >>> 7 < 2 ^ (7 * k) := by
        rw [hshift]
        refine Nat.div_lt_of_lt_mul ?_
        calc v < 2 ^ (7 * (k + 1)) := hv
          _ = 128 * 2 ^ (7 * k) := by rw [Nat.mul_succ, Nat.pow_add, Nat.mul_comm]
      obtain ⟨hlow, hgo⟩ := group_bits v
      -- the low seven bits and the rest, shifted by what was read, are the value
      have hsum : (v % 128) <<< m + (v >>> 7) <<< (m + 7) = v <<< m := by
        rw [hshift, Nat.shiftLeft_eq, Nat.shiftLeft_eq, Nat.shiftLeft_eq, Nat.pow_add,
          Nat.mul_comm (2 ^ m) (2 ^ 7), ← Nat.mul_assoc, ← Nat.add_mul]
        congr 1
        omega
      rw [if_pos hmore, List.cons_append, takeGroups, if_neg (by omega)]
      simp only [hlow, if_pos hgo]
      rw [ih _ rest hk (by omega) hrest (by omega)]
      simp only [Option.bind_eq_bind, Option.bind_some, Option.pure_def, List.length_cons]
      rw [Nat.add_assoc, hsum]
    · obtain ⟨hlow, hstop⟩ := last_group_bits (Nat.lt_of_not_ge hmore)
      rw [if_neg hmore, List.singleton_append, takeGroups, if_neg (by omega)]
      simp only [hlow, if_neg (not_not_intro hstop)]
      rfl

/-- **An integer is read as it was written**, whatever follows. -/
theorem intDecode_append (h : intEncode cap prefixBits flags value = some out)
    (habove : Above prefixBits flags) (hvalue : value < 2 ^ 63) (rest : Bytes) :
    intDecode (out ++ rest) prefixBits = some (value, out.length) := by
  obtain ⟨rfl, -⟩ := intEncode_eq_some h
  have hfirst := habove _ (Nat.min_le_right value (prefixMax prefixBits))
  rw [List.cons_append, intDecode, hfirst]
  by_cases hv : value < prefixMax prefixBits
  · rw [Nat.min_eq_left (Nat.le_of_lt hv), if_pos hv, if_pos hv]
    rfl
  · rw [Nat.min_eq_right (Nat.le_of_not_gt hv), if_neg (Nat.lt_irrefl _), if_neg hv,
      takeGroups_groups 9 _ _ (by decide) (by decide) (by omega) (by decide)]
    simp only [Option.bind_eq_bind, Option.bind_some, Option.pure_def, Nat.shiftLeft_zero,
      List.length_cons]
    rw [Nat.add_sub_cancel' (Nat.le_of_not_gt hv)]

theorem intEncode_mask {mask : UInt8} (h : intEncode cap prefixBits flags value = some out)
    (hmask : ∀ k ≤ prefixMax prefixBits, UInt8.ofNat k &&& mask = 0) (rest : Bytes) :
    (out ++ rest).getD 0 0 &&& mask = flags &&& mask := by
  obtain ⟨rfl, -⟩ := intEncode_eq_some h
  rw [List.cons_append, List.getD_cons_zero, or_and_distrib, hmask _ (Nat.min_le_right _ _),
    UInt8.or_zero]

theorem intEncode_ne_nil (h : intEncode cap prefixBits flags value = some out) : out ≠ [] := by
  rw [(intEncode_eq_some h).1]
  exact List.cons_ne_nil _ _

/-! ## Strings -/

theorem stringEncode_eq_some {src : Bytes} (h : stringEncode cap src = some out) :
    ∃ len, intEncode cap 7 0 src.length = some len ∧ out = len ++ src ∧ out.length ≤ cap := by
  obtain ⟨len, hlen, h⟩ := Option.bind_eq_some_iff.1 h
  obtain ⟨hfit, h⟩ := Option.ite_none_left_eq_some.1 h
  obtain rfl := Option.some.inj h
  exact ⟨len, hlen, rfl, by rw [List.length_append]; omega⟩

/-- **A string is read as it was written.** -/
theorem stringDecode_append {dcap : ℕ} {src : Bytes} (h : stringEncode cap src = some out)
    (hfits : src.length ≤ dcap) (hsize : src.length < 2 ^ 63) (rest : Bytes) :
    stringDecode (out ++ rest) dcap = some (src, out.length) := by
  obtain ⟨len, hlen, rfl, -⟩ := stringEncode_eq_some h
  have hint := intDecode_append hlen (by decide : Above 7 0) hsize (src ++ rest)
  have hraw : (len ++ (src ++ rest)).getD 0 0 &&& 0x80 = 0 :=
    intEncode_mask hlen (by decide : ∀ k ≤ prefixMax 7, UInt8.ofNat k &&& 0x80 = 0) _
  rw [List.append_assoc, stringDecode, hint]
  simp only [Option.bind_eq_bind, Option.bind_some, Option.pure_def, octetsDecode, hraw]
  rw [if_neg (by simp), if_neg (by decide), if_neg (by omega), List.drop_left, List.take_left]
  simp

/-! ## Lines -/

theorem indexedDecode_append (h : indexedEncode cap index true = some out)
    (hindex : index < 2 ^ 63) (rest : Bytes) :
    ∃ isStatic, indexedDecode (out ++ rest) = some (index, isStatic, out.length) := by
  have hint := intDecode_append h (by decide : Above 6 (0x80 ||| 0x40)) hindex rest
  have hflag : (out ++ rest).getD 0 0 &&& 0x80 ≠ 0 := by
    rw [intEncode_mask h (by decide : ∀ k ≤ prefixMax 6, UInt8.ofNat k &&& 0x80 = 0)]
    decide
  simp only [indexedDecode, if_neg hflag, hint, Option.bind_eq_bind, Option.bind_some,
    Option.pure_def]
  exact ⟨_, rfl⟩

/-- **An indexed line of the static table.** -/
theorem decodeLine_indexed {scap : ℕ} {name value : Bytes}
    (h : indexedEncode cap index true = some out) (hindex : index < 2 ^ 63)
    (hstatic : staticGet index = some (name, value)) (rest : Bytes) :
    decodeLine (out ++ rest) scap =
      some { name := name, value := value, used := out.length, scratchUsed := 0 } := by
  obtain ⟨isStatic, hdec⟩ := indexedDecode_append h hindex rest
  have hline : lineIndexed (out ++ rest) =
      some { name := name, value := value, used := out.length, scratchUsed := 0 } := by
    simp only [lineIndexed, hdec, hstatic, Option.bind_eq_bind, Option.bind_some, Option.pure_def]
  rw [decodeLine, hline, Option.some_or]

theorem literalNamrefEncode_eq_some {value : Bytes}
    (h : literalNamrefEncode cap index true false value = some out) :
    ∃ name str, intEncode cap 4 (0x40 ||| 0 ||| 0x10) index = some name ∧
      stringEncode (cap - name.length) value = some str ∧ out = name ++ str := by
  obtain ⟨name, hname, h⟩ := Option.bind_eq_some_iff.1 h
  obtain ⟨str, hstr, h⟩ := Option.bind_eq_some_iff.1 h
  exact ⟨name, str, hname, hstr, (Option.some.inj h).symm⟩

/-- A literal with a name reference is no indexed line, and is read as it was written. -/
theorem literalNamrefDecode_append {vcap : ℕ} {value : Bytes}
    (h : literalNamrefEncode cap index true false value = some out) (hindex : index < 2 ^ 63)
    (hsize : value.length < 2 ^ 63) (hfits : value.length ≤ vcap) (rest : Bytes) :
    indexedDecode (out ++ rest) = none ∧
      ∃ l, literalNamrefDecode (out ++ rest) vcap = some l ∧ l.index = index ∧ l.value = value ∧
        l.used = out.length := by
  obtain ⟨head, str, hhead, hstr, rfl⟩ := literalNamrefEncode_eq_some h
  have hint := intDecode_append hhead (by decide : Above 4 (0x40 ||| 0 ||| 0x10)) hindex
    (str ++ rest)
  have hvalue := stringDecode_append hstr hfits hsize rest
  have hbit : (head ++ (str ++ rest)).getD 0 0 &&& 0x80 = 0 :=
    intEncode_mask hhead (by decide : ∀ k ≤ prefixMax 4, UInt8.ofNat k &&& 0x80 = 0) _
  have hform : (head ++ (str ++ rest)).getD 0 0 &&& 0xc0 = 0x40 :=
    intEncode_mask hhead (by decide : ∀ k ≤ prefixMax 4, UInt8.ofNat k &&& 0xc0 = 0) _
  have hne : ¬ (head ++ (str ++ rest)).isEmpty = true := by simp [intEncode_ne_nil hhead]
  rw [List.append_assoc, literalNamrefDecode, if_neg (not_or.2 ⟨hne, not_not_intro hform⟩)]
  simp only [indexedDecode, if_pos hbit, hint, List.drop_left, hvalue, Option.bind_eq_bind,
    Option.bind_some, Option.pure_def, true_and]
  exact ⟨_, rfl, rfl, rfl, List.length_append.symm⟩

/-- **A literal with a name of the static table.** -/
theorem decodeLine_namref {scap : ℕ} {value name v : Bytes}
    (h : literalNamrefEncode cap index true false value = some out) (hindex : index < 2 ^ 63)
    (hsize : value.length < 2 ^ 63) (hfits : value.length ≤ scap)
    (hstatic : staticGet index = some (name, v)) (rest : Bytes) :
    decodeLine (out ++ rest) scap = some
      { name := name, value := value, used := out.length, scratchUsed := value.length } := by
  obtain ⟨hother, l, hdec, rfl, rfl, hused⟩ :=
    literalNamrefDecode_append h hindex hsize hfits rest
  simp only [decodeLine, lineIndexed, hother, lineNamref, hdec, hstatic, hused,
    Option.bind_eq_bind, Option.bind_none, Option.bind_some, Option.pure_def, Option.none_or,
    Option.some_or]

end Http3

end QuicVibe
