import QuicVibe.Crypto.X25519.Field
/-!
# Loading and storing field elements

A u-coordinate is cut into limbs as it stands, with its top bit dropped and without any reduction.
The result is reduced completely before it is stored: two carry passes bring its limbs below 51 bits,
and the carry of `r + 19` tells whether the number is at or above the prime.
-/

namespace QuicVibe

namespace Crypto

namespace X25519

open Checked

/-! ## Loading -/

theorem loadWord_eq {s : Bytes} {i : ℕ} (h : 8 * i + 8 ≤ s.length) :
    loadWord s i = Limbs.readLe ((s.drop (8 * i)).take 8) := by
  have hbytes : (List.range 8).map (fun j => s.getD (i * 8 + j) 0) = (s.drop (8 * i)).take 8 := by
    refine List.ext_getElem (by simp; omega) fun j h₁ h₂ => ?_
    have hj : j < 8 := by simpa using h₁
    have hij : i * 8 + j < s.length := by omega
    simp [hij, Nat.mul_comm]
  rw [loadWord, Limbs.foldl_lor_eq_readLe, hbytes]

theorem readLe_eq_loadWord (s : Vector UInt8 32) :
    Limbs.readLe s.toList = loadWord s.toList 0 + 2 ^ 64 * loadWord s.toList 1 +
      2 ^ 128 * loadWord s.toList 2 + 2 ^ 192 * loadWord s.toList 3 := by
  have hlen : s.toList.length = 32 := Vector.length_toList
  generalize s.toList = xs at hlen ⊢
  have hsplit : xs = xs.take 8 ++ ((xs.drop 8).take 8 ++ ((xs.drop 16).take 8 ++
      (xs.drop 24).take 8)) := by
    have hall : xs.take 32 = xs := List.take_of_length_le (by omega)
    conv_lhs => rw [← hall, show 32 = 8 + (8 + (8 + 8)) from rfl, List.take_add, List.take_add,
      List.take_add]
    simp only [List.drop_drop]
  rw [loadWord_eq (by omega), loadWord_eq (by omega), loadWord_eq (by omega),
    loadWord_eq (by omega)]
  conv_lhs => rw [hsplit]
  simp only [Limbs.readLe_append, List.length_take, List.length_drop, hlen]
  norm_num
  ring

theorem loadWord_lt {s : Bytes} {i : ℕ} (h : 8 * i + 8 ≤ s.length) : loadWord s i < 2 ^ 64 := by
  have hlen : ((s.drop (8 * i)).take 8).length = 8 := by
    rw [List.length_take, List.length_drop]
    omega
  have hlt := Limbs.readLe_lt ((s.drop (8 * i)).take 8)
  rw [hlen] at hlt
  rw [loadWord_eq h]
  exact hlt.trans_eq (by norm_num)

/-- **Words to limbs.** The windows of 51 bits of four words. -/
theorem windows {t0 t1 t2 t3 N : ℕ} (h₀ : t0 < 2 ^ 64) (h₁ : t1 < 2 ^ 64) (h₂ : t2 < 2 ^ 64)
    (hN : N = t0 + 2 ^ 64 * t1 + 2 ^ 128 * t2 + 2 ^ 192 * t3) :
    t0 % 2 ^ 51 = N % 2 ^ 51 ∧
      ((t0 >>> 51) ||| u64 (t1 <<< 13)) % 2 ^ 51 = N / 2 ^ 51 % 2 ^ 51 ∧
      ((t1 >>> 38) ||| u64 (t2 <<< 26)) % 2 ^ 51 = N / 2 ^ 102 % 2 ^ 51 ∧
      ((t2 >>> 25) ||| u64 (t3 <<< 39)) % 2 ^ 51 = N / 2 ^ 153 % 2 ^ 51 ∧
      (t3 >>> 12) % 2 ^ 51 = N / 2 ^ 204 % 2 ^ 51 := by
  simp only [Nat.shiftRight_eq_div_pow, u64]
  rw [Limbs.lor_shiftLeft_mod_eq_add t1 (by omega) (by omega),
    Limbs.lor_shiftLeft_mod_eq_add t2 (by omega) (by omega),
    Limbs.lor_shiftLeft_mod_eq_add t3 (by omega) (by omega)]
  omega

/-- Limbs that are carried completely. -/
def Carried (r : Fe) : Prop := ∀ i < 5, limb r i < 2 ^ 51

variable {r f : Fe}

theorem Carried.tight (h : Carried r) : Tight r := fun i hi => by
  have := h i hi
  omega

/-- The limbs loaded are the number the string spells without its top bit. -/
theorem feFrombytes_value (s : Vector UInt8 32) :
    Carried (feFrombytes s) ∧ value (feFrombytes s) = Limbs.readLe s.toList % 2 ^ 255 := by
  have hlen : s.toList.length = 32 := Vector.length_toList
  obtain ⟨e0, e1, e2, e3, e4⟩ := windows (loadWord_lt (by omega)) (loadWord_lt (by omega))
    (loadWord_lt (by omega)) (readLe_eq_loadWord s)
  constructor
  · intro i hi
    rw [feFrombytes]
    match i, hi with
    | 0, _ | 1, _ | 2, _ | 3, _ | 4, _ =>
      simp only [limb_mk, land_mask]
      omega
  · rw [feFrombytes, value_mk]
    simp only [land_mask, e0, e1, e2, e3, e4]
    generalize Limbs.readLe s.toList = N
    omega

/-- **Loading** gives the decoded coordinate, reduced or not. -/
theorem feFrombytes_spec (s : Vector UInt8 32) : TightAt (decodeUCoordinate s) (feFrombytes s) := by
  obtain ⟨hcarried, hval⟩ := feFrombytes_value s
  exact ⟨hcarried.tight, by rw [toF, hval, decodeUCoordinate]⟩

/-! ## Storing -/

theorem carryStep_spec {c r : ℕ} (hc : c < 2 ^ 13) (hr : r < 2 ^ 63) :
    Returns (carryStep c r) fun x => x = splitStep c r ∧ x.2 < 2 ^ 13 := by
  refine (returns_add (by omega)).map fun s hs => ?_
  subst hs
  rw [land_mask, Nat.shiftRight_eq_div_pow]
  exact ⟨rfl, by omega⟩

theorem carrySweep_spec (hr : ∀ i < 5, limb r i < 2 ^ 63) :
    ∃ x0 x1 x2 x3 x4 k, Returns (Checked.sweep carryStep 0 r.toList)
        (· = ([x0, x1, x2, x3, x4], k)) ∧
      Carried #v[x0, x1, x2, x3, x4] ∧
      value #v[x0, x1, x2, x3, x4] + 2 ^ 255 * k = value r := by
  obtain ⟨r0, r1, r2, r3, r4, rfl⟩ := Limbs.exists_five r
  have b0 : r0 < 2 ^ 63 := hr 0 (by decide)
  have b1 : r1 < 2 ^ 63 := hr 1 (by decide)
  have b2 : r2 < 2 ^ 63 := hr 2 (by decide)
  have b3 : r3 < 2 ^ 63 := hr 3 (by decide)
  have b4 : r4 < 2 ^ 63 := hr 4 (by decide)
  obtain ⟨x0, x1, x2, x3, x4, k, hres, ⟨l0, l1, l2, l3, l4⟩, hval⟩ := sweep_split r0 r1 r2 r3 r4
  refine ⟨x0, x1, x2, x3, x4, k, ?_, ?_, ?_⟩
  · rw [← hres]
    refine returns_sweep (P := (· < 2 ^ 13)) (fun c t hmem hc => carryStep_spec hc ?_) (by decide)
    simp only [Vector.toList_mk, List.mem_cons, List.not_mem_nil, or_false] at hmem
    omega
  · intro i hi
    match i, hi with
    | 0, _ | 1, _ | 2, _ | 3, _ | 4, _ =>
      simp only [limb_mk]
      omega
  · rw [value_mk, value_mk]
    exact hval

theorem value_lt_of_carried (hr : Carried r) : value r < 2 ^ 255 := by
  obtain ⟨r0, r1, r2, r3, r4, rfl⟩ := Limbs.exists_five r
  have l0 : r0 < 2 ^ 51 := hr 0 (by decide)
  have l1 : r1 < 2 ^ 51 := hr 1 (by decide)
  have l2 : r2 < 2 ^ 51 := hr 2 (by decide)
  have l3 : r3 < 2 ^ 51 := hr 3 (by decide)
  have l4 : r4 < 2 ^ 51 := hr 4 (by decide)
  rw [value_mk]
  omega

theorem carryFinal_spec (hr : ∀ i < 5, limb r i < 2 ^ 63) :
    Returns (carryFinal r) fun s => Carried s ∧ value s = value r % 2 ^ 255 := by
  obtain ⟨x0, x1, x2, x3, x4, k, hsweep, hx, hsplit⟩ := carrySweep_spec hr
  refine hsweep.map fun h hh => ?_
  subst hh
  have hlt := value_lt_of_carried hx
  exact ⟨hx, by simp only [List.getD_cons_zero, List.getD_cons_succ]; omega⟩

/-- A carry pass folds the carry out of the top limb. A number below `2 ^ 255`, or so little above
it that the low limb has room for the 19, comes out carried completely. -/
theorem carryPass_spec (hr : ∀ i < 5, limb r i < 2 ^ 63) :
    Returns (carryPass r) fun s => (∀ i < 5, limb s i < 2 ^ 63) ∧ value s = fold (value r) ∧
      (value r < 2 ^ 255 + 2 ^ 50 → Carried s) := by
  obtain ⟨x0, x1, x2, x3, x4, k, hsweep, hx, hsplit⟩ := carrySweep_spec hr
  have l0 : x0 < 2 ^ 51 := hx 0 (by decide)
  have hlt := value_lt_of_carried hx
  have hk : k < 2 ^ 13 := by
    have b0 := hr 0 (by decide)
    have b1 := hr 1 (by decide)
    have b2 := hr 2 (by decide)
    have b3 := hr 3 (by decide)
    have b4 := hr 4 (by decide)
    rw [value_eq r] at hsplit
    omega
  refine hsweep.bind fun h hh => ?_
  subst hh
  refine (returns_mul (by omega)).bind fun m hm => ?_
  subst hm
  simp only [List.getD_cons_zero, List.getD_cons_succ]
  refine (returns_add (by omega)).map fun y hy => ?_
  subst hy
  have hout : value #v[x0 + k * 19, x1, x2, x3, x4] = value #v[x0, x1, x2, x3, x4] + k * 19 := by
    rw [value_mk, value_mk]
    omega
  have hlow : x0 ≤ value #v[x0, x1, x2, x3, x4] := by
    rw [value_mk]
    omega
  refine ⟨?_, by rw [hout, fold]; omega, ?_⟩
  · intro i hi
    have hxi := hx i hi
    interval_cases i <;> simp only [limb_mk] at hxi ⊢ <;> omega
  · intro hnear i hi
    have hxi := hx i hi
    interval_cases i <;> simp only [limb_mk] at hxi ⊢ <;> omega

theorem value_lt_of_loose (hf : Loose f) : value f < 2 ^ 258 := by
  have b0 := hf 0 (by decide)
  have b1 := hf 1 (by decide)
  have b2 := hf 2 (by decide)
  have b3 := hf 3 (by decide)
  have b4 := hf 4 (by decide)
  rw [value_eq f]
  omega

/-- **Two passes** carry a loose number completely. -/
theorem carryTwice_spec {β : Type} (hf : Loose f) {k : Fe → Checked β} {Q : β → Prop}
    (h : ∀ r, Carried r → value r = fold (fold (value f)) → Returns (k r) Q) :
    Returns (carryPass f >>= fun r => carryPass r >>= k) Q := by
  have hlt := value_lt_of_loose hf
  refine (carryPass_spec fun i hi => (hf i hi).trans (by decide)).bind fun r ⟨hr, hval, _⟩ => ?_
  refine (carryPass_spec hr).bind fun s ⟨_, hs, hcarried⟩ => h s (hcarried ?_) (by rw [hs, hval])
  rw [hval, fold]
  omega

/-- The carry of `r + 19` out of the top limb tells whether the prime is reached. -/
theorem quotient_spec (hr : Carried r) :
    Returns (quotient r) (· = if prime ≤ value r then 1 else 0) := by
  obtain ⟨r0, r1, r2, r3, r4, rfl⟩ := Limbs.exists_five r
  have l0 : r0 < 2 ^ 51 := hr 0 (by decide)
  have l1 : r1 < 2 ^ 51 := hr 1 (by decide)
  have l2 : r2 < 2 ^ 51 := hr 2 (by decide)
  have l3 : r3 < 2 ^ 51 := hr 3 (by decide)
  have l4 : r4 < 2 ^ 51 := hr 4 (by decide)
  rw [quotient]
  simp only [limb_mk, Nat.shiftRight_eq_div_pow]
  refine (returns_add (by omega)).bind fun t0 h0 => ?_
  refine (returns_add (by omega)).bind fun t1 h1 => ?_
  refine (returns_add (by omega)).bind fun t2 h2 => ?_
  refine (returns_add (by omega)).bind fun t3 h3 => ?_
  refine (returns_add (by omega)).map fun t4 h4 => ?_
  rw [value_mk, prime]
  split
  · omega
  · omega

/-- **Reaching for the prime.** Where the number is at or above the prime, 19 is added, so that the
prime stands above `2 ^ 255`. -/
theorem addQuotient_spec {β : Type} (hr : Carried r) {k : Fe → Checked β} {Q : β → Prop}
    (h : ∀ s, (∀ i < 5, limb s i < 2 ^ 63) →
      value s = value r + (if prime ≤ value r then 19 else 0) → Returns (k s) Q) :
    Returns (quotient r >>= fun q => mul 64 19 q >>= fun m => add 64 (limb r 0) m >>= fun r0 =>
      k (setLow r r0)) Q := by
  refine (quotient_spec hr).bind fun q hq => ?_
  have hq1 : q ≤ 1 := by
    rw [hq]
    split <;> omega
  refine (returns_mul (by omega)).bind fun m hm => ?_
  subst hm
  have l0 : limb r 0 < 2 ^ 51 := hr 0 (by decide)
  obtain ⟨r0, r1, r2, r3, r4, rfl⟩ := Limbs.exists_five r
  simp only [setLow, limb_mk] at l0 ⊢
  refine (returns_add (by omega)).bind fun y hy => h _ (fun i hi => ?_) ?_
  · have hri := hr i hi
    interval_cases i <;> simp only [limb_mk] at hri ⊢ <;> omega
  · have hadd : value #v[y, r1, r2, r3, r4] = value #v[r0, r1, r2, r3, r4] + 19 * q := by
      rw [value_mk, value_mk, hy]
      omega
    rw [hadd, hq]
    split <;> rfl

/-- **Limbs to words.** -/
theorem words {r0 r1 r2 r3 r4 N : ℕ} (l0 : r0 < 2 ^ 51) (l1 : r1 < 2 ^ 51) (l2 : r2 < 2 ^ 51)
    (l3 : r3 < 2 ^ 51)
    (hN : N = r0 + 2 ^ 51 * r1 + 2 ^ 102 * r2 + 2 ^ 153 * r3 + 2 ^ 204 * r4) :
    r0 ||| u64 (r1 <<< 51) = N % 2 ^ 64 ∧
      (r1 >>> 13) ||| u64 (r2 <<< 38) = N / 2 ^ 64 % 2 ^ 64 ∧
      (r2 >>> 26) ||| u64 (r3 <<< 25) = N / 2 ^ 128 % 2 ^ 64 ∧
      (r3 >>> 39) ||| u64 (r4 <<< 12) = N / 2 ^ 192 % 2 ^ 64 := by
  simp only [Nat.shiftRight_eq_div_pow, u64]
  rw [Limbs.lor_shiftLeft_mod_eq_add r1 (by omega) (by omega),
    Limbs.lor_shiftLeft_mod_eq_add r2 (by omega) (by omega),
    Limbs.lor_shiftLeft_mod_eq_add r3 (by omega) (by omega),
    Limbs.lor_shiftLeft_mod_eq_add r4 (by omega) (by omega)]
  omega

theorem storeReduced_eq (hr : Carried r) : storeReduced r = Limbs.putLe 32 (value r) := by
  have hbytes : ∀ N : ℕ, (List.range 8).map (fun j => UInt8.ofNat ((N % 2 ^ 64) >>> (8 * j))) =
      Limbs.putLe 8 N := by
    intro N
    rw [← Limbs.putLe_eq_map, show 2 ^ 64 = 256 ^ 8 by norm_num, Limbs.putLe_mod]
  obtain ⟨r0, r1, r2, r3, r4, rfl⟩ := Limbs.exists_five r
  obtain ⟨e0, e1, e2, e3⟩ := words (hr 0 (by decide)) (hr 1 (by decide)) (hr 2 (by decide))
    (hr 3 (by decide)) (value_mk r0 r1 r2 r3 r4)
  simp only [limb_mk] at e0 e1 e2 e3
  rw [show 32 = 8 + (8 + (8 + 8)) from rfl, Limbs.putLe_add, Limbs.putLe_add, Limbs.putLe_add,
    storeReduced]
  simp only [limb_mk, List.flatMap_cons, List.flatMap_nil, List.append_nil, e0, e1, e2, e3, hbytes,
    Nat.div_div_eq_div_mul]
  norm_num

theorem fold_fold_mod (n : ℕ) : fold (fold n) % prime = n % prime := by
  have hcast : (fold (fold n) : F) = n := by rw [cast_fold, cast_fold]
  exact (ZMod.natCast_eq_natCast_iff _ _ _).1 hcast

/-- **Storing** writes the least residue. -/
theorem feTobytes_spec {a : F} (hf : TightAt a f) :
    Returns (feTobytes f) (· = encodeUCoordinate a) := by
  refine carryTwice_spec hf.tight.loose fun r hr hval => ?_
  have hlt := value_lt_of_carried hr
  refine addQuotient_spec hr fun s hs hadd => (carryFinal_spec hs).map fun t ⟨ht, hfinal⟩ => ?_
  -- with 19 added, the bit that is dropped is the prime
  have hleast : value t = value f % prime := by
    rw [← fold_fold_mod, ← hval, hfinal, hadd]
    split
    · rename_i hp
      rw [prime] at hp ⊢
      omega
    · rename_i hp
      rw [prime] at hp ⊢
      omega
  rw [storeReduced_eq ht, hleast, encodeUCoordinate, ← hf.eq, toF, ZMod.val_natCast]

end X25519

end Crypto

end QuicVibe
