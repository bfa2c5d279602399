import QuicVibe.Common.Limbs
/-!
# Poly1305

The one-time authenticator of `poly1305.c`, in five limbs of 26 bits. `poly_finish` is meant to
subtract the prime once, but that never happens: `plus_five` masks the top limb of `h + 5` before it
takes away `2 ^ 130`, so the difference always borrows.
-/

namespace QuicVibe

namespace Crypto

namespace Poly1305

open Limbs

/-! ## The code -/

/-- `poly`: the clamped key half `r`, the accumulator `h`, and the half added to the tag. -/
structure Poly where
  r : Vector ℕ 5
  h : Vector ℕ 5
  pad : Vector ℕ 4

def rd32le (p : Bytes) : ℕ :=
  (p.getD 0 0).toNat ||| ((p.getD 1 0).toNat <<< 8) ||| ((p.getD 2 0).toNat <<< 16) |||
    ((p.getD 3 0).toNat <<< 24)

/-- `poly_init`: clamp `r` into limbs and copy the other half. -/
def polyInit (key : Vector UInt8 32) : Poly :=
  let k := key.toList
  let t0 := rd32le k
  let t1 := rd32le (k.drop 4)
  let t2 := rd32le (k.drop 8)
  let t3 := rd32le (k.drop 12)
  { r := #v[t0 &&& 0x3ffffff,
            ((t0 >>> 26) ||| u32 (t1 <<< 6)) &&& 0x3ffff03,
            ((t1 >>> 20) ||| u32 (t2 <<< 12)) &&& 0x3ffc0ff,
            ((t2 >>> 14) ||| u32 (t3 <<< 18)) &&& 0x3f03fff,
            (t3 >>> 8) &&& 0x00fffff]
    h := Vector.replicate 5 0
    pad := Vector.ofFn fun i : Fin 4 => rd32le (k.drop (16 + 4 * i)) }

/-- `poly_add`: add a block with the bit `hibit` above it. -/
def polyAdd (st : Poly) (m : Bytes) (hibit : ℕ) : Poly :=
  let t0 := rd32le m
  let t1 := rd32le (m.drop 4)
  let t2 := rd32le (m.drop 8)
  let t3 := rd32le (m.drop 12)
  { st with h := #v[u32 (st.h[0] + (t0 &&& 0x3ffffff)),
                    u32 (st.h[1] + (((t0 >>> 26) ||| u32 (t1 <<< 6)) &&& 0x3ffffff)),
                    u32 (st.h[2] + (((t1 >>> 20) ||| u32 (t2 <<< 12)) &&& 0x3ffffff)),
                    u32 (st.h[3] + (((t2 >>> 14) ||| u32 (t3 <<< 18)) &&& 0x3ffffff)),
                    u32 (st.h[4] + ((t3 >>> 8) ||| hibit))] }

/-- The loop body of `carry_reduce`. -/
def carryStep (c d : ℕ) : ℕ × ℕ :=
  let d := u64 (d + c)
  (u32 d &&& 0x3ffffff, d >>> 26)

/-- `carry_reduce`: products to limbs, with the carry out of the top limb folded in. -/
def carryReduce (d : Vector ℕ 5) : Vector ℕ 5 :=
  let (h, c) := sweep carryStep 0 d.toList
  let h0 := u32 (h.getD 0 0 + u32 (u32 c * 5))
  #v[h0 &&& 0x3ffffff, u32 (h.getD 1 0 + (h0 >>> 26)), h.getD 2 0, h.getD 3 0, h.getD 4 0]

def polyMulmod (st : Poly) : Poly :=
  let h := st.h
  let r := st.r
  let s1 := u32 (r[1] * 5)
  let s2 := u32 (r[2] * 5)
  let s3 := u32 (r[3] * 5)
  let s4 := u32 (r[4] * 5)
  let d := #v[u64 (h[0] * r[0] + h[1] * s4 + h[2] * s3 + h[3] * s2 + h[4] * s1),
              u64 (h[0] * r[1] + h[1] * r[0] + h[2] * s4 + h[3] * s3 + h[4] * s2),
              u64 (h[0] * r[2] + h[1] * r[1] + h[2] * r[0] + h[3] * s4 + h[4] * s3),
              u64 (h[0] * r[3] + h[1] * r[2] + h[2] * r[1] + h[3] * r[0] + h[4] * s4),
              u64 (h[0] * r[4] + h[1] * r[3] + h[2] * r[2] + h[3] * r[1] + h[4] * r[0])]
  { st with h := carryReduce d }

def padByte (m : Bytes) (i n : ℕ) : UInt8 := if i < n then m.getD i 0 else if i = n then 1 else 0

def polyFinalBlock (st : Poly) (m : Bytes) : Poly :=
  polyMulmod (polyAdd st ((List.range 16).map fun i => padByte m i m.length) 0)

/-- The loop of `poly_blocks`, with fuel for the number of blocks. -/
def polyBlocksFuel : ℕ → Poly → Bytes → Poly
  | 0, st, _ => st
  | fuel + 1, st, msg =>
    if msg.length ≥ 16 then
      polyBlocksFuel fuel (polyMulmod (polyAdd st msg (1 <<< 24))) (msg.drop 16)
    else if msg.length > 0 then polyFinalBlock st msg
    else st

def polyBlocks (st : Poly) (msg : Bytes) : Poly := polyBlocksFuel (msg.length + 1) st msg

def fullCarry (h : Vector ℕ 5) : Vector ℕ 5 :=
  let (low, h4) := sweep (fun below x => (below &&& 0x3ffffff, u32 (x + (below >>> 26)))) h[0]
    [h[1], h[2], h[3], h[4]]
  let h0 := u32 (low.getD 0 0 + u32 ((h4 >>> 26) * 5))
  #v[h0 &&& 0x3ffffff, u32 (low.getD 1 0 + (h0 >>> 26)), low.getD 2 0, low.getD 3 0,
     h4 &&& 0x3ffffff]

/-- The loop body of `plus_five`. -/
def plusFiveStep (c x : ℕ) : ℕ × ℕ :=
  let g := u32 (x + c)
  (g &&& 0x3ffffff, g >>> 26)

def plusFive (h : Vector ℕ 5) : Vector ℕ 5 :=
  let g := (sweep plusFiveStep 5 h.toList).1
  #v[g.getD 0 0, g.getD 1 0, g.getD 2 0, g.getD 3 0, u32 (g.getD 4 0 + 2 ^ 32 - (1 <<< 26))]

def selectMod (h g : Vector ℕ 5) : Vector ℕ 5 :=
  let mask := u32 ((g[4] >>> 31) + 2 ^ 32 - 1)
  Vector.zipWith (fun h g => (h &&& (2 ^ 32 - 1 - mask)) ||| (g &&& mask)) h g

def pack (h : Vector ℕ 5) : Vector ℕ 4 :=
  #v[h[0] ||| u32 (h[1] <<< 26),
     (h[1] >>> 6) ||| u32 (h[2] <<< 20),
     (h[2] >>> 12) ||| u32 (h[3] <<< 14),
     (h[3] >>> 18) ||| u32 (h[4] <<< 8)]

/-- The loop body of `poly_finish`: a word of the tag and the carry. -/
def tagStep (f : ℕ) (x : ℕ × ℕ) : Bytes × ℕ :=
  let f := u64 (f + (x.1 + x.2))
  ([UInt8.ofNat f, UInt8.ofNat (f >>> 8), UInt8.ofNat (f >>> 16), UInt8.ofNat (f >>> 24)], f >>> 32)

def polyFinish (st : Poly) : Bytes :=
  let h := fullCarry st.h
  let h := selectMod h (plusFive h)
  (sweep tagStep 0 ((pack h).toList.zip st.pad.toList)).1.flatten

def poly1305 (key : Vector UInt8 32) (msg : Bytes) : Bytes :=
  polyFinish (polyBlocks (polyInit key) msg)

/-! ## RFC 8439 -/

/-- The prime. -/
def prime : ℕ := 2 ^ 130 - 5

/-- The clamped `r` of section 2.5.1. -/
def rfcR (key : Vector UInt8 32) : ℕ :=
  readLe (key.toList.take 16) &&& 0x0ffffffc0ffffffc0ffffffc0fffffff

/-- The key half `s`. -/
def rfcS (key : Vector UInt8 32) : ℕ := readLe (key.toList.drop 16)

/-- A block as a number, with the bit above its last byte. -/
def rfcBlock (block : Bytes) : ℕ := readLe block + 2 ^ (8 * block.length)

/-- The polynomial with the blocks as coefficients, at `r`. -/
def rfcAcc (r : ℕ) (blocks : List Bytes) : ℕ :=
  blocks.foldl (fun acc block => (acc + rfcBlock block) * r % prime) 0

/-- The tag. -/
def rfcTag (key : Vector UInt8 32) (msg : Bytes) : Bytes :=
  putLe 16 ((rfcAcc (rfcR key) (chunks 16 msg) + rfcS key) % 2 ^ 128)

/-! ## Limbs and words -/

/-- The number in five limbs of 26 bits. -/
def value (v : Vector ℕ 5) : ℕ := Nat.ofDigits (2 ^ 26) v.toList

theorem value_mk (a b c d e : ℕ) :
    value #v[a, b, c, d, e] = a + 2 ^ 26 * b + 2 ^ 52 * c + 2 ^ 78 * d + 2 ^ 104 * e := by
  simp [value, Nat.ofDigits_cons]
  ring

theorem land_mask (x : ℕ) : x &&& 0x3ffffff = x % 2 ^ 26 := Nat.and_two_pow_sub_one_eq_mod x 26

theorem rd32le_eq (p : Bytes) :
    rd32le p = (p.getD 0 0).toNat + 2 ^ 8 * (p.getD 1 0).toNat + 2 ^ 16 * (p.getD 2 0).toNat +
      2 ^ 24 * (p.getD 3 0).toNat := by
  have h₀ := (p.getD 0 0).toNat_lt
  have h₁ := (p.getD 1 0).toNat_lt
  have h₂ := (p.getD 2 0).toNat_lt
  rw [rd32le, lor_shiftLeft_eq_add (k := 8) (p.getD 1 0).toNat (by omega),
    lor_shiftLeft_eq_add (k := 16) (p.getD 2 0).toNat (by omega),
    lor_shiftLeft_eq_add (k := 24) (p.getD 3 0).toNat (by omega)]

theorem rd32le_lt (p : Bytes) : rd32le p < 2 ^ 32 := by
  have h₀ := (p.getD 0 0).toNat_lt
  have h₁ := (p.getD 1 0).toNat_lt
  have h₂ := (p.getD 2 0).toNat_lt
  have h₃ := (p.getD 3 0).toNat_lt
  rw [rd32le_eq]
  omega

theorem rd32le_eq_readLe {p : Bytes} (h : 4 ≤ p.length) : rd32le p = readLe (p.take 4) := by
  match p, h with
  | a :: b :: c :: d :: rest, _ =>
    simp only [rd32le_eq, List.getD_cons_zero, List.getD_cons_succ, List.take_succ_cons,
      List.take_zero, readLe_cons, readLe_nil]
    ring

variable {m : Bytes} {st : Poly} {h : Vector ℕ 5}

theorem readLe_take_sixteen (h : 16 ≤ m.length) :
    readLe (m.take 16) = rd32le m + 2 ^ 32 * rd32le (m.drop 4) + 2 ^ 64 * rd32le (m.drop 8) +
      2 ^ 96 * rd32le (m.drop 12) := by
  have hsplit : m.take 16 = m.take 4 ++ ((m.drop 4).take 4 ++ ((m.drop 8).take 4 ++
      (m.drop 12).take 4)) := by
    rw [show 16 = 4 + (4 + (4 + 4)) from rfl, List.take_add, List.take_add, List.take_add]
    simp only [List.drop_drop]
  rw [hsplit]
  simp only [readLe_append, List.length_take, List.length_drop]
  rw [rd32le_eq_readLe (by omega), rd32le_eq_readLe (by simp; omega),
    rd32le_eq_readLe (by simp; omega), rd32le_eq_readLe (by simp; omega),
    Nat.min_eq_left (by omega), Nat.min_eq_left (by omega), Nat.min_eq_left (by omega)]
  ring

/-- **Words to limbs.** The windows of 26 bits of four words. -/
theorem windows {t0 t1 t2 t3 N : ℕ} (h₀ : t0 < 2 ^ 32) (h₁ : t1 < 2 ^ 32) (h₂ : t2 < 2 ^ 32)
    (hN : N = t0 + 2 ^ 32 * t1 + 2 ^ 64 * t2 + 2 ^ 96 * t3) :
    t0 % 2 ^ 26 = N % 2 ^ 26 ∧
      ((t0 >>> 26) ||| u32 (t1 <<< 6)) % 2 ^ 26 = N / 2 ^ 26 % 2 ^ 26 ∧
      ((t1 >>> 20) ||| u32 (t2 <<< 12)) % 2 ^ 26 = N / 2 ^ 52 % 2 ^ 26 ∧
      ((t2 >>> 14) ||| u32 (t3 <<< 18)) % 2 ^ 26 = N / 2 ^ 78 % 2 ^ 26 ∧
      t3 >>> 8 = N / 2 ^ 104 := by
  simp only [Nat.shiftRight_eq_div_pow, u32]
  rw [lor_shiftLeft_mod_eq_add t1 (by omega) (by omega),
    lor_shiftLeft_mod_eq_add t2 (by omega) (by omega),
    lor_shiftLeft_mod_eq_add t3 (by omega) (by omega)]
  omega

/-! ## Blocks -/

/-- Limbs as the multiplication leaves them: only the second may exceed 26 bits, and little. -/
structure Carried (h : Vector ℕ 5) : Prop where
  h0 : h[0] < 2 ^ 26
  h1 : h[1] < 2 ^ 26 + 64
  h2 : h[2] < 2 ^ 26
  h3 : h[3] < 2 ^ 26
  h4 : h[4] < 2 ^ 26

theorem Carried.bounds {a b c d e : ℕ} (h : Carried #v[a, b, c, d, e]) :
    a < 2 ^ 26 ∧ b < 2 ^ 26 + 64 ∧ c < 2 ^ 26 ∧ d < 2 ^ 26 ∧ e < 2 ^ 26 :=
  ⟨h.h0, h.h1, h.h2, h.h3, h.h4⟩

/-- Limbs as the addition of a block leaves them. -/
def Loose (h : Vector ℕ 5) : Prop := ∀ i : Fin 5, h[i] < 2 ^ 27 + 64

theorem polyAdd_spec (hst : Carried st.h) (hm : 16 ≤ m.length) {hibit : ℕ}
    (hbit : hibit = 0 ∨ hibit = 1 <<< 24) :
    value (polyAdd st m hibit).h = value st.h + readLe (m.take 16) + 2 ^ 104 * hibit ∧
      Loose (polyAdd st m hibit).h := by
  have hlt : readLe (m.take 16) < 2 ^ 128 := by
    have hlen := readLe_lt (m.take 16)
    rwa [List.length_take, Nat.min_eq_left hm] at hlen
  obtain ⟨w0, w1, w2, w3, w4⟩ := windows (rd32le_lt m) (rd32le_lt (m.drop 4))
    (rd32le_lt (m.drop 8)) (readLe_take_sixteen hm)
  have hor : (rd32le (m.drop 12) >>> 8) ||| hibit = rd32le (m.drop 12) >>> 8 + hibit := by
    refine lor_eq_add 24 (by omega) ?_
    rcases hbit with rfl | rfl <;> decide
  have hle : hibit ≤ 2 ^ 24 := by
    rcases hbit with rfl | rfl <;> decide
  rw [w4] at hor
  generalize readLe (m.take 16) = N at *
  obtain ⟨r, h, pad⟩ := st
  obtain ⟨a, b, c, d, e, rfl⟩ := exists_five h
  obtain ⟨b0, b1, b2, b3, b4⟩ := hst.bounds
  simp only [polyAdd, Vector.getElem_mk, List.getElem_toArray, List.getElem_cons_zero,
    List.getElem_cons_succ, land_mask, w0, w1, w2, w3, w4, hor, value_mk]
  constructor
  · simp only [u32]
    omega
  · intro i
    match i with
    | 0 | 1 | 2 | 3 | 4 => simp [u32]; omega

/-- **`carry_reduce`** keeps the number modulo the prime and carries its limbs. -/
theorem carryReduce_spec {d : Vector ℕ 5} (hd : ∀ i : Fin 5, d[i] < 2 ^ 58)
    (h4 : d[4] < 5 * 2 ^ 53 + 2 ^ 50) :
    value (carryReduce d) ≡ value d [MOD prime] ∧ Carried (carryReduce d) := by
  have hstep : ∀ c, ∀ x ∈ d.toList, c < 2 ^ 33 →
      (carryStep c x).1 + 2 ^ 26 * (carryStep c x).2 = c + x ∧ (carryStep c x).2 < 2 ^ 33 := by
    intro c x hx hc
    obtain ⟨i, hi, rfl⟩ := Vector.getElem_of_mem (Vector.mem_toList_iff.1 hx)
    have hlt := hd ⟨i, hi⟩
    simp only [Fin.getElem_fin] at hlt
    simp only [carryStep, u32, u64, land_mask, Nat.shiftRight_eq_div_pow]
    omega
  have hval := sweep_carry carryStep hstep (c := 0) (by decide)
  have hdig : ∀ y ∈ (sweep carryStep 0 d.toList).1, y < 2 ^ 26 := by
    refine (sweep_forall (fun _ => True) _ (fun c x _ _ => ⟨?_, trivial⟩) trivial).1
    simp only [carryStep, land_mask]
    omega
  have hlen := length_sweep carryStep 0 d.toList
  obtain ⟨d0, d1, d2, d3, d4, rfl⟩ := exists_five d
  rw [List.map_id'] at hval
  have hbound : ∀ i : Fin 5, #v[d0, d1, d2, d3, d4][i] < 2 ^ 58 := hd
  have b0 := hd 0
  have b1 := hd 1
  have b2 := hd 2
  have b3 := hd 3
  simp only [carryReduce, value_mk]
  generalize sweep carryStep 0 _ = res at hval hdig hlen ⊢
  obtain ⟨h, k⟩ := res
  match h, hlen with
  | [x0, x1, x2, x3, x4], _ =>
    simp only [List.forall_mem_cons] at hdig
    obtain ⟨l0, l1, l2, l3, l4, -⟩ := hdig
    simp [Nat.ofDigits_cons] at hval b0 b1 b2 b3 h4
    have hk : k < 5 * 2 ^ 27 + 2 ^ 25 := by omega
    have hfold : u32 (x0 + u32 (u32 k * 5)) = x0 + 5 * k := by
      clear hval
      simp only [u32]
      omega
    have hcarry : u32 (x1 + (x0 + 5 * k) / 2 ^ 26) = x1 + (x0 + 5 * k) / 2 ^ 26 ∧
        (x0 + 5 * k) / 2 ^ 26 < 64 := by
      clear hval
      simp only [u32]
      omega
    simp only [List.getD_cons_zero, List.getD_cons_succ, land_mask, Nat.shiftRight_eq_div_pow,
      hfold, hcarry.1]
    refine ⟨?_, ⟨?_, ?_, ?_, ?_, ?_⟩⟩
    · have hV : d0 + 2 ^ 26 * d1 + 2 ^ 52 * d2 + 2 ^ 78 * d3 + 2 ^ 104 * d4 =
          x0 + 2 ^ 26 * x1 + 2 ^ 52 * x2 + 2 ^ 78 * x3 + 2 ^ 104 * x4 + 5 * k + prime * k := by
        rw [prime]
        omega
      have hout : (x0 + 5 * k) % 2 ^ 26 + 2 ^ 26 * (x1 + (x0 + 5 * k) / 2 ^ 26) + 2 ^ 52 * x2 +
          2 ^ 78 * x3 + 2 ^ 104 * x4 =
          x0 + 2 ^ 26 * x1 + 2 ^ 52 * x2 + 2 ^ 78 * x3 + 2 ^ 104 * x4 + 5 * k := by
        omega
      rw [hout, hV]
      exact (Nat.add_mul_mod_self_left _ _ _).symm
    · exact Nat.mod_lt _ (by decide)
    · exact Nat.add_lt_add l1 hcarry.2
    · exact l2
    · exact l3
    · exact l4

/-- A column of the product: five products of a loose limb and a limb of `r`, or five times one. -/
theorem column_lt {x₀ x₁ x₂ x₃ x₄ y₀ y₁ y₂ y₃ y₄ : ℕ}
    (hx : x₀ < 2 ^ 27 + 64 ∧ x₁ < 2 ^ 27 + 64 ∧ x₂ < 2 ^ 27 + 64 ∧ x₃ < 2 ^ 27 + 64 ∧
      x₄ < 2 ^ 27 + 64) {B : ℕ} (hy : y₀ ≤ B ∧ y₁ ≤ B ∧ y₂ ≤ B ∧ y₃ ≤ B ∧ y₄ ≤ B) :
    x₀ * y₀ + x₁ * y₁ + x₂ * y₂ + x₃ * y₃ + x₄ * y₄ ≤ 5 * ((2 ^ 27 + 63) * B) := by
  have hprod : ∀ x y, x < 2 ^ 27 + 64 → y ≤ B → x * y ≤ (2 ^ 27 + 63) * B := fun x y hx hy =>
    Nat.mul_le_mul (by omega) hy
  have h₀ := hprod x₀ y₀ hx.1 hy.1
  have h₁ := hprod x₁ y₁ hx.2.1 hy.2.1
  have h₂ := hprod x₂ y₂ hx.2.2.1 hy.2.2.1
  have h₃ := hprod x₃ y₃ hx.2.2.2.1 hy.2.2.2.1
  have h₄ := hprod x₄ y₄ hx.2.2.2.2 hy.2.2.2.2
  omega

/-- **`poly_mulmod`** multiplies by `r` modulo the prime. -/
theorem polyMulmod_spec (hh : Loose st.h) (hr : ∀ i : Fin 5, st.r[i] < 2 ^ 26) :
    value (polyMulmod st).h ≡ value st.h * value st.r [MOD prime] ∧ Carried (polyMulmod st).h := by
  obtain ⟨r, h, pad⟩ := st
  obtain ⟨h0, h1, h2, h3, h4, rfl⟩ := exists_five h
  obtain ⟨r0, r1, r2, r3, r4, rfl⟩ := exists_five r
  have bh : h0 < 2 ^ 27 + 64 ∧ h1 < 2 ^ 27 + 64 ∧ h2 < 2 ^ 27 + 64 ∧ h3 < 2 ^ 27 + 64 ∧
      h4 < 2 ^ 27 + 64 := ⟨hh 0, hh 1, hh 2, hh 3, hh 4⟩
  obtain ⟨br0, br1, br2, br3, br4⟩ : r0 < 2 ^ 26 ∧ r1 < 2 ^ 26 ∧ r2 < 2 ^ 26 ∧ r3 < 2 ^ 26 ∧
      r4 < 2 ^ 26 := ⟨hr 0, hr 1, hr 2, hr 3, hr 4⟩
  have hs : ∀ x, x < 2 ^ 26 → u32 (x * 5) = x * 5 := by
    intro x hx
    simp only [u32]
    omega
  have hcolumn : ∀ {y₀ y₁ y₂ y₃ y₄}, y₀ ≤ 5 * 2 ^ 26 ∧ y₁ ≤ 5 * 2 ^ 26 ∧ y₂ ≤ 5 * 2 ^ 26 ∧
      y₃ ≤ 5 * 2 ^ 26 ∧ y₄ ≤ 5 * 2 ^ 26 →
      h0 * y₀ + h1 * y₁ + h2 * y₂ + h3 * y₃ + h4 * y₄ < 2 ^ 58 := fun hy =>
    Nat.lt_of_le_of_lt (column_lt bh hy) (by decide)
  have l0 : h0 * r0 + h1 * (r4 * 5) + h2 * (r3 * 5) + h3 * (r2 * 5) + h4 * (r1 * 5) < 2 ^ 58 :=
    hcolumn (by omega)
  have l1 : h0 * r1 + h1 * r0 + h2 * (r4 * 5) + h3 * (r3 * 5) + h4 * (r2 * 5) < 2 ^ 58 :=
    hcolumn (by omega)
  have l2 : h0 * r2 + h1 * r1 + h2 * r0 + h3 * (r4 * 5) + h4 * (r3 * 5) < 2 ^ 58 :=
    hcolumn (by omega)
  have l3 : h0 * r3 + h1 * r2 + h2 * r1 + h3 * r0 + h4 * (r4 * 5) < 2 ^ 58 := hcolumn (by omega)
  have l4 : h0 * r4 + h1 * r3 + h2 * r2 + h3 * r1 + h4 * r0 < 5 * 2 ^ 53 + 2 ^ 50 :=
    Nat.lt_of_le_of_lt (column_lt bh (B := 2 ^ 26) (by omega)) (by decide)
  simp only [polyMulmod, Vector.getElem_mk, List.getElem_toArray, List.getElem_cons_zero,
    List.getElem_cons_succ, hs _ br1, hs _ br2, hs _ br3, hs _ br4,
    u64_of_lt (Nat.lt_trans l0 (by decide)), u64_of_lt (Nat.lt_trans l1 (by decide)),
    u64_of_lt (Nat.lt_trans l2 (by decide)), u64_of_lt (Nat.lt_trans l3 (by decide)),
    u64_of_lt (Nat.lt_trans l4 (by decide))]
  obtain ⟨hmod, hcarried⟩ := carryReduce_spec (d := #v[_, _, _, _, _])
    (fun i => match i with
      | 0 => l0 | 1 => l1 | 2 => l2 | 3 => l3 | 4 => Nat.lt_trans l4 (by decide)) l4
  refine ⟨hmod.trans ?_, hcarried⟩
  -- the columns above the fifth are folded in with the factor `5`
  have hcols : value #v[h0, h1, h2, h3, h4] * value #v[r0, r1, r2, r3, r4] =
      value #v[h0 * r0 + h1 * (r4 * 5) + h2 * (r3 * 5) + h3 * (r2 * 5) + h4 * (r1 * 5),
        h0 * r1 + h1 * r0 + h2 * (r4 * 5) + h3 * (r3 * 5) + h4 * (r2 * 5),
        h0 * r2 + h1 * r1 + h2 * r0 + h3 * (r4 * 5) + h4 * (r3 * 5),
        h0 * r3 + h1 * r2 + h2 * r1 + h3 * r0 + h4 * (r4 * 5),
        h0 * r4 + h1 * r3 + h2 * r2 + h3 * r1 + h4 * r0] +
      prime * (h1 * r4 + h2 * r3 + h3 * r2 + h4 * r1 + 2 ^ 26 * (h2 * r4 + h3 * r3 + h4 * r2) +
        2 ^ 52 * (h3 * r4 + h4 * r3) + 2 ^ 78 * (h4 * r4)) := by
    simp only [value_mk, prime]
    ring
  rw [hcols]
  exact (Nat.add_mul_mod_self_left _ _ _).symm

/-! ## The key -/

theorem land_of_lt {x m : ℕ} (n : ℕ) (hm : m < 2 ^ n) : x &&& m = (x % 2 ^ n) &&& m := by
  have hle : x &&& m ≤ m := Nat.and_le_right
  have hmod := Nat.and_mod_two_pow (a := x) (b := m) (n := n)
  rwa [Nat.mod_eq_of_lt (by omega : x &&& m < 2 ^ n), Nat.mod_eq_of_lt hm] at hmod

variable (key : Vector UInt8 32)

theorem rfcR_window {k x : ℕ} (m : ℕ) (hm : m < 2 ^ 26)
    (hmask : 0x0ffffffc0ffffffc0ffffffc0fffffff / 2 ^ k % 2 ^ 26 = m)
    (hx : x % 2 ^ 26 = readLe (key.toList.take 16) / 2 ^ k % 2 ^ 26) :
    x &&& m = rfcR key / 2 ^ k % 2 ^ 26 := by
  rw [land_of_lt 26 hm, hx, rfcR, window_land, hmask]

/-- **Clamping.** The limbs of `r` are those of the clamped key half. -/
theorem polyInit_r :
    value (polyInit key).r = rfcR key ∧ ∀ i : Fin 5, (polyInit key).r[i] < 2 ^ 26 := by
  have hlen : 16 ≤ key.toList.length := by simp
  have hsmall : readLe (key.toList.take 16) < 2 ^ 128 := by
    have hlt := readLe_lt (key.toList.take 16)
    rwa [List.length_take, Nat.min_eq_left hlen] at hlt
  have hlt : rfcR key < 2 ^ 128 := Nat.lt_of_le_of_lt Nat.and_le_left hsmall
  obtain ⟨w0, w1, w2, w3, w4⟩ := windows (rd32le_lt key.toList) (rd32le_lt (key.toList.drop 4))
    (rd32le_lt (key.toList.drop 8)) (readLe_take_sixteen hlen)
  have w5 : (rd32le (key.toList.drop 12) >>> 8) % 2 ^ 26 =
      readLe (key.toList.take 16) / 2 ^ 104 % 2 ^ 26 := by rw [w4]
  have hr : (polyInit key).r = #v[rfcR key / 2 ^ 0 % 2 ^ 26, rfcR key / 2 ^ 26 % 2 ^ 26,
      rfcR key / 2 ^ 52 % 2 ^ 26, rfcR key / 2 ^ 78 % 2 ^ 26, rfcR key / 2 ^ 104 % 2 ^ 26] := by
    simp only [polyInit, rfcR_window key (k := 0) 0x3ffffff (by decide) (by decide) (by simpa using w0),
      rfcR_window key 0x3ffff03 (by decide) (by decide) w1,
      rfcR_window key 0x3ffc0ff (by decide) (by decide) w2,
      rfcR_window key 0x3f03fff (by decide) (by decide) w3,
      rfcR_window key 0x00fffff (by decide) (by decide) w5]
  rw [hr, value_mk]
  refine ⟨by omega, fun i => ?_⟩
  match i with
  | 0 | 1 | 2 | 3 | 4 => exact Nat.mod_lt _ (by decide)

theorem polyInit_pad :
    Nat.ofDigits (2 ^ 32) (polyInit key).pad.toList = rfcS key ∧
      ∀ i : Fin 4, (polyInit key).pad[i] < 2 ^ 32 := by
  have hlen : 16 ≤ (key.toList.drop 16).length := by simp
  have hN := readLe_take_sixteen hlen
  have htake : (key.toList.drop 16).take 16 = key.toList.drop 16 :=
    List.take_of_length_le (by simp)
  refine ⟨?_, fun i => ?_⟩
  · rw [htake] at hN
    rw [rfcS, hN]
    simp only [polyInit, List.drop_drop]
    simp [Nat.ofDigits_cons, Vector.toList_ofFn, List.ofFn_succ]
    ring
  · simp only [polyInit, Fin.getElem_fin, Vector.getElem_ofFn]
    exact rd32le_lt _

/-! ## The message -/

theorem readLe_padded (hm : m.length < 16) :
    readLe ((List.range 16).map fun i => padByte m i m.length) = rfcBlock m := by
  have hlist : ((List.range 16).map fun i => padByte m i m.length) =
      m ++ ([1] ++ List.replicate (15 - m.length) 0) := by
    refine List.ext_getElem (by simp; omega) fun i h₁ h₂ => ?_
    rw [List.getElem_map, List.getElem_range, padByte]
    by_cases h : i < m.length
    · rw [if_pos h, List.getElem_append_left h, List.getD_eq_getElem?_getD,
        List.getElem?_eq_getElem h, Option.getD_some]
    · rw [if_neg h, List.getElem_append_right (by omega)]
      by_cases heq : i = m.length
      · simp [heq]
      · obtain ⟨j, hj⟩ : ∃ j, i - m.length = j + 1 := ⟨i - m.length - 1, by omega⟩
        rw [if_neg heq]
        simp [hj]
  have hzero : readLe (List.replicate (15 - m.length) 0) = 0 := by
    rw [readLe, List.map_replicate]
    exact Nat.ofDigits_replicate_zero
  rw [hlist, readLe_append, readLe_append, hzero, rfcBlock, Nat.pow_mul]
  simp

theorem foldl_modEq (r : ℕ) (blocks : List Bytes) {a b : ℕ} (h : a ≡ b [MOD prime]) :
    blocks.foldl (fun acc block => (acc + rfcBlock block) * r % prime) a ≡
      blocks.foldl (fun acc block => (acc + rfcBlock block) * r % prime) b [MOD prime] := by
  induction blocks generalizing a b with
  | nil => exact h
  | cons block blocks ih =>
    refine ih ?_
    have hstep := (h.add_right (rfcBlock block)).mul_right r
    exact (Nat.mod_modEq _ _).trans (hstep.trans (Nat.mod_modEq _ _).symm)

/-- **The blocks.** The accumulator ends as the polynomial modulo the prime, with carried limbs. -/
theorem polyBlocksFuel_spec {fuel : ℕ} {msg : Bytes} (hfuel : msg.length < fuel)
    (hst : Carried st.h) (hr : ∀ i : Fin 5, st.r[i] < 2 ^ 26) :
    Carried (polyBlocksFuel fuel st msg).h ∧ (polyBlocksFuel fuel st msg).pad = st.pad ∧
      value (polyBlocksFuel fuel st msg).h ≡
        (chunks 16 msg).foldl (fun acc block => (acc + rfcBlock block) * value st.r % prime)
          (value st.h) [MOD prime] := by
  induction fuel generalizing st msg with
  | zero => omega
  | succ fuel ih =>
    rw [polyBlocksFuel]
    by_cases hfull : msg.length ≥ 16
    · rw [if_pos hfull]
      obtain ⟨hadd, hloose⟩ := polyAdd_spec hst hfull (.inr rfl)
      obtain ⟨hmul, hcarried⟩ := polyMulmod_spec hloose hr
      obtain ⟨hc, hpad, hval⟩ := ih (by simp; omega : (msg.drop 16).length < fuel) hcarried hr
      refine ⟨hc, hpad, hval.trans ?_⟩
      rw [chunks_of_pos (by decide) (by omega : 0 < msg.length), List.foldl_cons]
      refine foldl_modEq _ _ (hmul.trans ?_)
      have hblock : value (polyAdd st msg (1 <<< 24)).h = value st.h + rfcBlock (msg.take 16) := by
        rw [hadd, rfcBlock, List.length_take, Nat.min_eq_left hfull, Nat.add_assoc]
        rfl
      rw [hblock]
      exact (Nat.mod_modEq _ _).symm
    · rw [if_neg hfull]
      by_cases hpos : msg.length > 0
      · rw [if_pos hpos, polyFinalBlock]
        have hlen : ((List.range 16).map fun i => padByte msg i msg.length).length = 16 := by simp
        obtain ⟨hadd, hloose⟩ := polyAdd_spec hst (by rw [hlen]) (.inl rfl)
        obtain ⟨hmul, hcarried⟩ := polyMulmod_spec hloose hr
        refine ⟨hcarried, rfl, hmul.trans ?_⟩
        rw [List.take_of_length_le (by rw [hlen]), readLe_padded (by omega), Nat.mul_zero,
          Nat.add_zero] at hadd
        have hrest : msg.drop 16 = [] := List.drop_of_length_le (by omega)
        rw [chunks_of_pos (by decide) hpos, hrest, chunks_nil (by decide),
          List.take_of_length_le (by omega), List.foldl_cons, List.foldl_nil, hadd]
        exact (Nat.mod_modEq _ _).symm
      · obtain rfl : msg = [] := List.length_eq_zero_iff.1 (by omega)
        rw [if_neg hpos, chunks_nil (by decide)]
        exact ⟨hst, rfl, rfl⟩

/-! ## The tag -/

/-- **`full_carry`** takes the prime off at most once, and only above `2 ^ 130`. -/
theorem fullCarry_spec (hc : Carried h) :
    (∀ i : Fin 5, (fullCarry h)[i] < 2 ^ 26) ∧
      value (fullCarry h) = if value h < 2 ^ 130 then value h else value h - prime := by
  obtain ⟨a, b, c, d, e, rfl⟩ := exists_five h
  obtain ⟨b0, b1, b2, b3, b4⟩ := hc.bounds
  -- the carries of the pass, from the second limb up
  obtain ⟨k₁, hk₁⟩ : ∃ k, k = b / 2 ^ 26 := ⟨_, rfl⟩
  obtain ⟨k₂, hk₂⟩ : ∃ k, k = (c + k₁) / 2 ^ 26 := ⟨_, rfl⟩
  obtain ⟨k₃, hk₃⟩ : ∃ k, k = (d + k₂) / 2 ^ 26 := ⟨_, rfl⟩
  obtain ⟨q, hq⟩ : ∃ k, k = (e + k₃) / 2 ^ 26 := ⟨_, rfl⟩
  -- a carry out of the top limb has come all the way from the second, which is then small
  have htop : q = 0 ∨ q = 1 ∧ 2 ^ 26 ≤ b := by omega
  have e1 : u32 (b + a / 2 ^ 26) = b := by simp only [u32]; omega
  have e2 : u32 (c + k₁) = c + k₁ := by simp only [u32]; omega
  have e3 : u32 (d + k₂) = d + k₂ := by simp only [u32]; omega
  have e4 : u32 (e + k₃) = e + k₃ := by simp only [u32]; omega
  have e5 : u32 (a % 2 ^ 26 + u32 (q * 5)) = a + q * 5 := by simp only [u32]; omega
  have e6 : u32 (b % 2 ^ 26 + (a + q * 5) / 2 ^ 26) = b % 2 ^ 26 + (a + q * 5) / 2 ^ 26 := by
    simp only [u32]
    omega
  have hout : fullCarry #v[a, b, c, d, e] =
      #v[(a + q * 5) % 2 ^ 26, b % 2 ^ 26 + (a + q * 5) / 2 ^ 26, (c + k₁) % 2 ^ 26,
        (d + k₂) % 2 ^ 26, (e + k₃) % 2 ^ 26] := by
    simp only [fullCarry, Vector.getElem_mk, List.getElem_toArray, List.getElem_cons_zero,
      List.getElem_cons_succ, sweep_cons, sweep_nil, List.getD_cons_zero, List.getD_cons_succ,
      land_mask, Nat.shiftRight_eq_div_pow, e1, ← hk₁, e2, ← hk₂, e3, ← hk₃, e4, ← hq, e5, e6]
  rw [hout, value_mk, value_mk]
  constructor
  · intro i
    match i with
    | 0 => exact Nat.mod_lt _ (by decide)
    | 1 => show b % 2 ^ 26 + (a + q * 5) / 2 ^ 26 < 2 ^ 26; omega
    | 2 | 3 | 4 => exact Nat.mod_lt _ (by decide)
  · have hsum : (a + q * 5) % 2 ^ 26 + 2 ^ 26 * (b % 2 ^ 26 + (a + q * 5) / 2 ^ 26) +
        2 ^ 52 * ((c + k₁) % 2 ^ 26) + 2 ^ 78 * ((d + k₂) % 2 ^ 26) +
        2 ^ 104 * ((e + k₃) % 2 ^ 26) + q * prime =
        a + 2 ^ 26 * b + 2 ^ 52 * c + 2 ^ 78 * d + 2 ^ 104 * e := by
      rw [prime]
      omega
    rcases htop with rfl | ⟨rfl, hb⟩
    · rw [← hsum, if_pos (by omega)]
      omega
    · rw [← hsum, if_neg (by rw [prime]; omega)]
      omega

theorem plusFive_top (h : Vector ℕ 5) : ∃ x < 2 ^ 26, (plusFive h)[4] = u32 (x + 2 ^ 32 - 2 ^ 26) := by
  have hdig : ∀ y ∈ (sweep plusFiveStep 5 h.toList).1, y < 2 ^ 26 := by
    refine (sweep_forall (fun _ => True) _ (fun c x _ _ => ⟨?_, trivial⟩) trivial).1
    rw [plusFiveStep, land_mask]
    exact Nat.mod_lt _ (by decide)
  refine ⟨(sweep plusFiveStep 5 h.toList).1.getD 4 0, ?_, ?_⟩
  · rw [List.getD_eq_getElem?_getD, List.getElem?_eq_getElem (by simp), Option.getD_some]
    exact hdig _ (List.getElem_mem _)
  · have hlast : ∀ a b c d e : ℕ, #v[a, b, c, d, e][4] = e := fun _ _ _ _ _ => rfl
    rw [plusFive, hlast, Nat.one_shiftLeft]

/-- **The prime is never subtracted**: the difference is negative whatever `h` is. -/
theorem selectMod_plusFive (hh : ∀ i : Fin 5, h[i] < 2 ^ 26) : selectMod h (plusFive h) = h := by
  have hmask : u32 (((plusFive h)[4] >>> 31) + 2 ^ 32 - 1) = 0 := by
    obtain ⟨x, hx, htop⟩ := plusFive_top h
    rw [htop, Nat.shiftRight_eq_div_pow]
    simp only [u32]
    omega
  have hland : ∀ i (hi : i < 5), h[i] &&& (2 ^ 32 - 1) = h[i] := by
    intro i hi
    have hlt : h[i] < 2 ^ 26 := hh ⟨i, hi⟩
    rw [Nat.and_two_pow_sub_one_eq_mod, Nat.mod_eq_of_lt (by omega)]
  refine Vector.ext fun i hi => ?_
  simp only [selectMod, hmask, Vector.getElem_zipWith, Nat.sub_zero, hland i hi, Nat.and_zero,
    Nat.or_zero]

theorem pack_spec (hh : ∀ i : Fin 5, h[i] < 2 ^ 26) :
    Nat.ofDigits (2 ^ 32) (pack h).toList = value h % 2 ^ 128 ∧ ∀ w ∈ (pack h).toList, w < 2 ^ 32 := by
  obtain ⟨a, b, c, d, e, rfl⟩ := exists_five h
  have b0 : a < 2 ^ 26 := hh 0
  have b1 : b < 2 ^ 26 := hh 1
  have b2 : c < 2 ^ 26 := hh 2
  have b3 : d < 2 ^ 26 := hh 3
  have b4 : e < 2 ^ 26 := hh 4
  have hpack : (pack #v[a, b, c, d, e]).toList = [a + 2 ^ 26 * b % 2 ^ 32,
      b / 2 ^ 6 + 2 ^ 20 * c % 2 ^ 32, c / 2 ^ 12 + 2 ^ 14 * d % 2 ^ 32,
      d / 2 ^ 18 + 2 ^ 8 * e % 2 ^ 32] := by
    rw [← lor_shiftLeft_mod_eq_add b (by omega) (by omega),
      ← lor_shiftLeft_mod_eq_add c (by omega) (by omega),
      ← lor_shiftLeft_mod_eq_add d (by omega) (by omega),
      ← lor_shiftLeft_mod_eq_add e (by omega) (by omega)]
    simp only [← Nat.shiftRight_eq_div_pow]
    rfl
  rw [hpack, value_mk]
  refine ⟨?_, fun w hw => ?_⟩
  · simp only [Nat.ofDigits_cons, Nat.ofDigits_nil]
    omega
  · simp only [List.mem_cons, List.not_mem_nil, or_false] at hw
    omega

theorem tagStep_fst (f : ℕ) (x : ℕ × ℕ) : (tagStep f x).1 = putLe 4 (u64 (f + (x.1 + x.2))) := by
  simp only [tagStep, putLe, Nat.shiftRight_eq_div_pow, Nat.div_div_eq_div_mul]

theorem tagStep_spec {f : ℕ} {x : ℕ × ℕ} (hx₁ : x.1 < 2 ^ 32) (hx₂ : x.2 < 2 ^ 32) (hf : f < 2) :
    readLe (tagStep f x).1 + 2 ^ 32 * (tagStep f x).2 = f + (x.1 + x.2) ∧ (tagStep f x).2 < 2 := by
  have hsum : u64 (f + (x.1 + x.2)) = f + (x.1 + x.2) := u64_of_lt (by omega)
  have hcarry : (tagStep f x).2 = (f + (x.1 + x.2)) / 2 ^ 32 := by
    rw [← hsum, ← Nat.shiftRight_eq_div_pow]
    rfl
  rw [tagStep_fst, readLe_putLe, hcarry, hsum]
  omega

theorem length_of_mem_tag (xs : List (ℕ × ℕ)) : ∀ y ∈ (sweep tagStep 0 xs).1, y.length = 4 :=
  (sweep_forall (fun _ => True) (fun y : Bytes => y.length = 4)
    (fun f x _ _ => ⟨by rw [tagStep_fst, length_putLe], trivial⟩) trivial).1

theorem length_tag {xs : List (ℕ × ℕ)} (h : xs.length = 4) :
    (sweep tagStep 0 xs).1.flatten.length = 16 := by
  rw [List.length_flatten, List.map_congr_left (length_of_mem_tag xs), List.map_const', length_sweep,
    h]
  rfl

theorem length_poly1305 (msg : Bytes) : (poly1305 key msg).length = 16 :=
  length_tag (by simp)

/-- **`poly_finish`** writes the carried accumulator plus the pad, modulo `2 ^ 128`. -/
theorem polyFinish_spec (hc : Carried st.h) (hpad : ∀ w ∈ st.pad.toList, w < 2 ^ 32) :
    polyFinish st = putLe 16 ((value (fullCarry st.h) + Nat.ofDigits (2 ^ 32) st.pad.toList) %
      2 ^ 128) := by
  obtain ⟨hlimbs, -⟩ := fullCarry_spec hc
  obtain ⟨hval, hwords⟩ := pack_spec hlimbs
  rw [polyFinish, selectMod_plusFive hlimbs]
  have hlen : (pack (fullCarry st.h)).toList.length = st.pad.toList.length := by simp
  have hxs : ∀ x ∈ (pack (fullCarry st.h)).toList.zip st.pad.toList, x.1 < 2 ^ 32 ∧ x.2 < 2 ^ 32 :=
    fun x hx => ⟨hwords _ (List.of_mem_zip hx).1, hpad _ (List.of_mem_zip hx).2⟩
  have hxlen : ((pack (fullCarry st.h)).toList.zip st.pad.toList).length = 4 := by simp
  have hsum : value (fullCarry st.h) % 2 ^ 128 + Nat.ofDigits (2 ^ 32) st.pad.toList =
      Nat.ofDigits (2 ^ 32) (((pack (fullCarry st.h)).toList.zip st.pad.toList).map
        fun x => x.1 + x.2) := by
    rw [List.map_zip_eq_zipWith, ← hval]
    exact Nat.ofDigits_add_ofDigits_eq_ofDigits_zipWith_of_length_eq hlen
  generalize (pack (fullCarry st.h)).toList.zip st.pad.toList = xs at hxs hxlen hsum ⊢
  have hcarry := sweep_carry (fun f x => (readLe (tagStep f x).1, (tagStep f x).2)) (B := 2 ^ 32)
    (c := 0) (P := (· < 2)) (v := fun x => x.1 + x.2)
    (fun f x hx hf => tagStep_spec (hxs x hx).1 (hxs x hx).2 hf) (by decide)
  rw [map_sweep, hxlen, ← hsum] at hcarry
  have hflat : readLe (sweep tagStep 0 xs).1.flatten =
      Nat.ofDigits (2 ^ 32) ((sweep tagStep 0 xs).1.map readLe) :=
    readLe_flatten (length_of_mem_tag xs)
  rw [← hflat] at hcarry
  have hlen16 := length_tag hxlen
  have hlt := readLe_lt (sweep tagStep 0 xs).1.flatten
  have hback := putLe_readLe (sweep tagStep 0 xs).1.flatten
  rw [hlen16] at hlt hback
  rw [← hback]
  congr 1
  omega

/-! ## The tag of the code and of the RFC -/

theorem carried_polyInit : Carried (polyInit key).h := by
  refine ⟨?_, ?_, ?_, ?_, ?_⟩ <;> exact Nat.zero_lt_succ _

theorem polyBlocks_spec (msg : Bytes) :
    Carried (polyBlocks (polyInit key) msg).h ∧
      (polyBlocks (polyInit key) msg).pad = (polyInit key).pad ∧
      value (polyBlocks (polyInit key) msg).h ≡ rfcAcc (rfcR key) (chunks 16 msg) [MOD prime] := by
  obtain ⟨hr, hrlt⟩ := polyInit_r key
  have hspec := polyBlocksFuel_spec (Nat.lt_succ_self msg.length) (carried_polyInit key) hrlt
  rwa [hr] at hspec

theorem rfcAcc_lt (r : ℕ) (blocks : List Bytes) : rfcAcc r blocks < prime := by
  rcases List.eq_nil_or_concat blocks with rfl | ⟨init, block, rfl⟩
  · exact (by decide : 0 < prime)
  · rw [rfcAcc, List.concat_eq_append, List.foldl_append]
    exact Nat.mod_lt _ (by decide)

theorem value_lt_of_carried (hc : Carried h) : value h < 2 ^ 130 + 2 ^ 32 := by
  obtain ⟨a, b, c, d, e, rfl⟩ := exists_five h
  obtain ⟨b0, b1, b2, b3, b4⟩ := hc.bounds
  rw [value_mk]
  omega

/-- Below `2 ^ 130` a number with the residue `A` gives the tag of `A`, or is above the prime. -/
theorem tags_agree_iff {H A S : ℕ} (hH : H < 2 ^ 130) (hA : A < prime) (h : H ≡ A [MOD prime]) :
    (H + S) % 2 ^ 128 = (A + S) % 2 ^ 128 ↔ ¬ prime ≤ H := by
  have hmod : H % prime = A := by
    rw [← Nat.mod_eq_of_lt hA]
    exact h
  by_cases hle : prime ≤ H
  · have hsub : H = A + prime := by
      rw [Nat.mod_eq_sub_mod hle, Nat.mod_eq_of_lt (by rw [prime] at hle ⊢; omega)] at hmod
      omega
    rw [hsub, prime]
    omega
  · rw [Nat.mod_eq_of_lt (Nat.lt_of_not_le hle)] at hmod
    simp [hmod, Nat.not_le.2 hA]

/-- The accumulator ends between the prime and `2 ^ 130`: `full_carry` does nothing there, and the
subtraction that should follow is lost. -/
def Unreduced (key : Vector UInt8 32) (msg : Bytes) : Prop :=
  prime ≤ value (polyBlocks (polyInit key) msg).h ∧ value (polyBlocks (polyInit key) msg).h < 2 ^ 130

theorem tag_agrees_iff (msg : Bytes) : poly1305 key msg = rfcTag key msg ↔ ¬ Unreduced key msg := by
  unfold Unreduced
  obtain ⟨hc, hpad, hmod⟩ := polyBlocks_spec key msg
  obtain ⟨hS, hSlt⟩ := polyInit_pad key
  obtain ⟨-, hval⟩ := fullCarry_spec hc
  have hlt := value_lt_of_carried hc
  have hA := rfcAcc_lt (rfcR key) (chunks 16 msg)
  have hpadlt : ∀ w ∈ (polyBlocks (polyInit key) msg).pad.toList, w < 2 ^ 32 := by
    intro w hw
    rw [hpad] at hw
    obtain ⟨i, hi, rfl⟩ := Vector.getElem_of_mem (Vector.mem_toList_iff.1 hw)
    exact hSlt ⟨i, hi⟩
  rw [poly1305, polyFinish_spec hc hpadlt, rfcTag, hpad, hS]
  have hinj : ∀ x y, x < 2 ^ 128 → y < 2 ^ 128 → (putLe 16 x = putLe 16 y ↔ x = y) := by
    intro x y hx hy
    refine ⟨fun heq => ?_, fun heq => by rw [heq]⟩
    have hread := congrArg readLe heq
    rw [readLe_putLe, readLe_putLe] at hread
    omega
  rw [hinj _ _ (Nat.mod_lt _ (by decide)) (Nat.mod_lt _ (by decide)), hval]
  generalize value (polyBlocks (polyInit key) msg).h = H at *
  by_cases h130 : H < 2 ^ 130
  · rw [if_pos h130, tags_agree_iff h130 hA hmod]
    exact not_congr (and_iff_left h130).symm
  · have hsub : H - prime ≡ rfcAcc (rfcR key) (chunks 16 msg) [MOD prime] := by
      have hle : prime ≤ H := Nat.le_trans (by decide) (Nat.le_of_not_lt h130)
      refine Nat.ModEq.trans ?_ hmod
      exact (Nat.ModEq.symm (Nat.mod_eq_sub_mod hle))
    rw [if_neg h130, tags_agree_iff (by rw [prime]; omega) hA hsub]
    rw [prime]
    omega

/-- **The tag is the RFC's exactly when the accumulator does not end between the prime and
`2 ^ 130`.** -/
theorem poly1305_eq_rfcTag_iff (key : Vector UInt8 32) (msg : Bytes) :
    poly1305 key msg = rfcTag key msg ↔
      ¬ (prime ≤ value (polyBlocks (polyInit key) msg).h ∧
        value (polyBlocks (polyInit key) msg).h < 2 ^ 130) := tag_agrees_iff key msg

/-- The key with `r = 1` and no pad. -/
def unitKey : Vector UInt8 32 := #v[1, 0, 0, 0, 0, 0, 0, 0, 0, 0, 0, 0, 0, 0, 0, 0,
  0, 0, 0, 0, 0, 0, 0, 0, 0, 0, 0, 0, 0, 0, 0, 0]

/-- Three blocks that add up to the prime. -/
def primeBlocks : Bytes := 0xfb :: List.replicate 15 0xff ++ List.replicate 32 0

/-- **A wrong tag.** The accumulator ends at the prime, which stands for zero; the code's tag is
the prime's low half. -/
theorem unitKey_wrong_tag :
    rfcTag unitKey primeBlocks = List.replicate 16 0 ∧
      poly1305 unitKey primeBlocks = 0xfb :: List.replicate 15 0xff := by
  decide +kernel

end Poly1305

end Crypto

end QuicVibe
