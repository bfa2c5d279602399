import QuicVibe.Crypto.X25519.Bytes
/-!
# The ladder of X25519

The code's ladder simulates the one of RFC 7748: in front of every round its four numbers are tight
and stand for the four coordinates, and a round keeps it so (`ladderStep_spec`).
-/

namespace QuicVibe

namespace Crypto

namespace X25519

open Checked

/-! ## The scalar -/

theorem readLe_clamp (scalar : Vector UInt8 32) :
    Limbs.readLe (clamp scalar).toList = decodeScalar scalar := by
  have hlow : ∀ n < 256, n &&& 248 = n / 8 * 8 := by decide +kernel
  have hhigh : ∀ n < 256, n &&& 127 ||| 64 = 64 + n % 64 := by decide +kernel
  have hclamp : (clamp scalar).toList =
      (scalar.toList.set 0 (scalar[0] &&& 248)).set 31 ((scalar[31] &&& 127) ||| 64) := by
    refine List.ext_getElem (by simp) fun i h₁ h₂ => ?_
    simp only [clamp, Vector.getElem_toList, Vector.getElem_set, List.getElem_set]
    rfl
  -- the first byte, the thirty between and the last one
  obtain ⟨b, mid, t, hlist, hmid⟩ : ∃ b mid t, scalar.toList = b :: (mid ++ [t]) ∧
      mid.length = 30 := by
    have hlen : scalar.toList.length = 32 := Vector.length_toList
    generalize scalar.toList = l at hlen
    rcases l with _ | ⟨b, rest⟩
    · cases hlen
    · have hne : rest ≠ [] := List.ne_nil_of_length_pos (by simp at hlen; omega)
      refine ⟨b, rest.dropLast, rest.getLast hne, ?_, ?_⟩
      · rw [List.dropLast_append_getLast]
      · simp at hlen
        simp [hlen]
  have h0 : scalar[0] = b := by
    have hget : scalar[0] = scalar.toList.getD 0 0 := by simp
    rw [hget, hlist, List.getD_cons_zero]
  have h31 : scalar[31] = t := by
    have hget : scalar[31] = scalar.toList.getD 31 0 := by simp
    rw [hget, hlist]
    simp [hmid]
  have hset : (mid ++ [t]).set 30 ((t &&& 127) ||| 64) = mid ++ [(t &&& 127) ||| 64] := by
    rw [List.set_append_right _ _ (by omega), hmid]
    rfl
  have hb := b.toNat_lt
  have ht := t.toNat_lt
  have hM := Limbs.readLe_lt mid
  rw [decodeScalar, hclamp, hlist, h0, h31, List.set_cons_zero, List.set_cons_succ, hset]
  simp only [Limbs.readLe_cons, Limbs.readLe_append, Limbs.readLe_nil, hmid, UInt8.toNat_or,
    UInt8.toNat_and]
  rw [hmid] at hM
  generalize Limbs.readLe mid = M at hM ⊢
  have hl := hlow b.toNat hb
  have hh := hhigh t.toNat ht
  have h248 : (248 : UInt8).toNat = 248 := rfl
  have h127 : (127 : UInt8).toNat = 127 := rfl
  have h64 : (64 : UInt8).toNat = 64 := rfl
  rw [h248, h127, h64, hl, hh]
  norm_num at hM ⊢
  omega

theorem scalarBit_clamp (scalar : Vector UInt8 32) (pos : ℕ) :
    scalarBit (clamp scalar) pos = ((decodeScalar scalar).testBit pos).toNat := by
  rw [← readLe_clamp]
  exact Limbs.bit_readLe _ pos

/-! ## One round -/

theorem feCswap_eq {f g : Fe} (hf : Tight f) (hg : Tight g) (swap : Bool) :
    feCswap f g swap.toNat = if swap then (g, f) else (f, g) := by
  cases swap
  · refine Prod.ext (Vector.ext fun i hi => ?_) (Vector.ext fun i hi => ?_)
    · simp [feCswap]
    · simp [feCswap]
  · have hmask : ∀ i (hi : i < 5), (2 ^ 64 - 1) &&& (f[i] ^^^ g[i]) = f[i] ^^^ g[i] :=
      fun i hi => Limbs.ones_land_xor (hf.loose.getElem_lt hi) (hg.loose.getElem_lt hi)
    refine Prod.ext (Vector.ext fun i hi => ?_) (Vector.ext fun i hi => ?_)
    · have hi' := hmask i hi
      simp [feCswap] at hi' ⊢
      rw [hi', ← Nat.xor_assoc, Nat.xor_self, Nat.zero_xor]
    · have hi' := hmask i hi
      simp [feCswap] at hi' ⊢
      rw [hi', Nat.xor_comm f[i], ← Nat.xor_assoc, Nat.xor_self, Nat.zero_xor]

/-- The code's ladder stands for the RFC's. -/
structure Sim (c : Ladder Fe) (s : Ladder F) : Prop where
  x2 : TightAt s.x2 c.x2
  z2 : TightAt s.z2 c.z2
  x3 : TightAt s.x3 c.x3
  z3 : TightAt s.z3 c.z3

variable {c : Ladder Fe} {s : Ladder F} {x1 : Fe} {u : F}

theorem Sim.swap (h : Sim c s) (swap : Bool) : Sim (swapPair c swap.toNat) (rfcSwap swap s) := by
  have hx := feCswap_eq h.x2.tight h.x3.tight swap
  have hz := feCswap_eq h.z2.tight h.z3.tight swap
  simp only [swapPair, hx, hz]
  cases swap
  · exact ⟨h.x2, h.z2, h.x3, h.z3⟩
  · exact ⟨h.x3, h.z3, h.x2, h.z2⟩

theorem TightAt.congr {a b : F} {f : Fe} (h : TightAt a f) (hab : a = b) : TightAt b f := hab ▸ h

/-- **One round.** -/
theorem ladderStep_spec (hx1 : TightAt u x1) (h : Sim c s) :
    Returns (ladderStep x1 c) (Sim · (rfcStep u s)) := by
  refine (feAdd_spec h.x2 h.z2).bind fun a ha => ?_
  refine (feSub_spec h.x2 h.z2).bind fun b hb => ?_
  refine (feAdd_spec h.x3 h.z3).bind fun cc hc => ?_
  refine (feSub_spec h.x3 h.z3).bind fun d hd => ?_
  refine (feMul_spec hd ha).bind fun da hda => ?_
  refine (feMul_spec hc hb).bind fun cb hcb => ?_
  refine (feAdd_spec hda hcb).bind fun x3 hx3 => ?_
  refine (feSq_spec hx3).bind fun x3 hx3 => ?_
  refine (feSub_spec hda hcb).bind fun z3 hz3 => ?_
  refine (feSq_spec hz3).bind fun z3 hz3 => ?_
  refine (feMul_spec hz3.looseAt hx1.looseAt).bind fun z3 hz3 => ?_
  refine (feSq_spec ha).bind fun aa haa => ?_
  refine (feSq_spec hb).bind fun bb hbb => ?_
  refine (feMul_spec haa.looseAt hbb.looseAt).bind fun x2 hx2 => ?_
  refine (feSub_spec haa hbb).bind fun e he => ?_
  refine (feMul121666_spec he).bind fun t ht => ?_
  refine (feAdd_spec ht hbb).bind fun t ht => ?_
  refine (feMul_spec he ht).map fun z2 hz2 => ?_
  rw [rfcStep]
  exact ⟨hx2.congr (by ring), hz2.congr (by ring), hx3.congr (by ring), hz3.congr (by ring)⟩

/-! ## All rounds -/

theorem ladderLoop_spec {e : Vector UInt8 32} {k : ℕ} (hx1 : TightAt u x1)
    (hbit : ∀ pos, scalarBit e pos = (k.testBit pos).toNat) (n : ℕ) (h : Sim c s) (swap : Bool) :
    Returns (ladderLoop e x1 n (c, swap.toNat)) fun r =>
      Sim r.1 (rfcLoop k u n (s, swap)).1 ∧ r.2 = (rfcLoop k u n (s, swap)).2.toNat := by
  induction n generalizing c s swap with
  | zero => exact returns_pure ⟨h, rfl⟩
  | succ n ih =>
    have hxor : swap.toNat ^^^ scalarBit e n = (swap ^^ k.testBit n).toNat := by
      rw [hbit]
      cases swap <;> cases k.testBit n <;> rfl
    rw [ladderLoop, rfcLoop, hxor, hbit]
    exact (ladderStep_spec hx1 (h.swap _)).bind fun c' hc' => ih hc' _

theorem sim_start (hx1 : TightAt u x1) :
    Sim { x2 := fe1, z2 := fe0, x3 := x1, z3 := fe1 } { x2 := 1, z2 := 0, x3 := u, z3 := 1 } :=
  ⟨tightAt_one, tightAt_zero, hx1, tightAt_one⟩

theorem ladder_spec {e : Vector UInt8 32} {k : ℕ} (hx1 : TightAt u x1)
    (hbit : ∀ pos, scalarBit e pos = (k.testBit pos).toNat) :
    Returns (ladder e x1) fun r => ∃ x z, TightAt x r.1 ∧ TightAt z r.2 ∧
      x * z ^ (prime - 2) = rfcLadder k u := by
  have hloop := ladderLoop_spec hx1 hbit 255 (sim_start hx1) false
  rw [Bool.toNat_false] at hloop
  unfold ladder rfcLadder
  generalize rfcLoop k u 255 ({ x2 := 1, z2 := 0, x3 := u, z3 := 1 }, false) = t at hloop ⊢
  refine hloop.map fun r ⟨hsim, hswap⟩ => ?_
  have hend := hsim.swap t.2
  rw [← hswap] at hend
  exact ⟨_, _, hend.x2, hend.z2, rfl⟩

/-- **X25519 is the function of RFC 7748.** For every scalar and every coordinate, reduced or not,
no operation on limbs overflows, the output is the encoding of the ladder's result, and the return
value is zero exactly when the output is all zero. -/
theorem x25519_eq_rfc (scalar point : Vector UInt8 32) :
    (x25519 scalar point).ok = true ∧
      (x25519 scalar point).val.2 = rfcX25519 scalar point ∧
      ((x25519 scalar point).val.1 = 0 ↔ ∀ b ∈ (x25519 scalar point).val.2, b = 0) := by
  change Returns (x25519 scalar point) fun r =>
    r.2 = rfcX25519 scalar point ∧ (r.1 = 0 ↔ ∀ b ∈ r.2, b = 0)
  refine (ladder_spec (feFrombytes_spec point) (scalarBit_clamp scalar)).bind
    fun r ⟨x, z, hx, hz, hres⟩ => ?_
  refine (feInvert_spec hz).bind fun zinv hzinv => ?_
  refine (feMul_spec hx.looseAt hzinv.looseAt).bind fun y hy => ?_
  refine (feTobytes_spec hy).map fun out hout => ⟨?_, ?_⟩
  · rw [hout, hres]
    rfl
  · have hzero := foldl_or_eq_zero_iff out 0
    rw [nonzero]
    split
    · rename_i hne
      exact ⟨fun h => absurd h one_ne_zero, fun h => absurd (hzero.2 ⟨rfl, h⟩) hne⟩
    · rename_i heq
      exact ⟨fun _ => (hzero.1 (not_not.1 heq)).2, fun _ => rfl⟩

/-! ## Evaluation -/

/-- `a ^ e` modulo the prime, for `e < 2 ^ fuel`, by squaring. -/
def natPow : ℕ → ℕ → ℕ → ℕ
  | 0, _, _ => 1
  | fuel + 1, a, e =>
    let r := natPow fuel (a * a % prime) (e / 2)
    if e % 2 = 1 then a * r % prime else r

/-- The round of `rfcStep` on least residues. -/
def natStep (x1 : ℕ) (s : Ladder ℕ) : Ladder ℕ :=
  let a := (s.x2 + s.z2) % prime
  let aa := a * a % prime
  let b := (s.x2 + (prime - s.z2)) % prime
  let bb := b * b % prime
  let e := (aa + (prime - bb)) % prime
  let c := (s.x3 + s.z3) % prime
  let d := (s.x3 + (prime - s.z3)) % prime
  let da := d * a % prime
  let cb := c * b % prime
  let sum := (da + cb) % prime
  let diff := (da + (prime - cb)) % prime
  { x3 := sum * sum % prime
    z3 := x1 * (diff * diff % prime) % prime
    x2 := aa * bb % prime
    z2 := e * ((aa + 121665 * e) % prime) % prime }

def natSwap (swap : Bool) (s : Ladder ℕ) : Ladder ℕ :=
  if swap then { x2 := s.x3, z2 := s.z3, x3 := s.x2, z3 := s.z2 } else s

def natLoop (k x1 : ℕ) : ℕ → Ladder ℕ × Bool → Ladder ℕ × Bool
  | 0, s => s
  | t + 1, (s, swap) => natLoop k x1 t (natStep x1 (natSwap (swap ^^ k.testBit t) s), k.testBit t)

def natLadder (k u : ℕ) : ℕ :=
  let r := natLoop k u 255 ({ x2 := 1, z2 := 0, x3 := u, z3 := 1 }, false)
  let s := natSwap r.2 r.1
  s.x2 * natPow 255 s.z2 (prime - 2) % prime

def natX25519 (scalar point : Vector UInt8 32) : Bytes :=
  Limbs.putLe 32 (natLadder (decodeScalar scalar) (Limbs.readLe point.toList % 2 ^ 255 % prime))

/-- The coordinates as elements of the field. -/
def Ladder.cast (s : Ladder ℕ) : Ladder F := { x2 := s.x2, z2 := s.z2, x3 := s.x3, z3 := s.z3 }

/-- The coordinates are least residues. -/
structure Ladder.Reduced (s : Ladder ℕ) : Prop where
  x2 : s.x2 < prime
  z2 : s.z2 < prime
  x3 : s.x3 < prime
  z3 : s.z3 < prime

theorem natPow_eq {fuel e : ℕ} (he : e < 2 ^ fuel) (a : ℕ) : (natPow fuel a e : F) = (a : F) ^ e := by
  induction fuel generalizing a e with
  | zero =>
    obtain rfl : e = 0 := by omega
    simp [natPow]
  | succ fuel ih =>
    have hhalf : (natPow fuel (a * a % prime) (e / 2) : F) = (a : F) ^ (2 * (e / 2)) := by
      rw [ih (by omega), ZMod.natCast_mod, Nat.cast_mul, ← pow_two, ← pow_mul]
    rw [natPow]
    split
    · rename_i hodd
      rw [ZMod.natCast_mod, Nat.cast_mul, hhalf, ← pow_succ', show 2 * (e / 2) + 1 = e by omega]
    · rename_i heven
      rw [hhalf, show 2 * (e / 2) = e by omega]

theorem natStep_eq (x1 : ℕ) {s : Ladder ℕ} (h : s.Reduced) :
    (natStep x1 s).Reduced ∧ (natStep x1 s).cast = rfcStep x1 s.cast := by
  have hlt : ∀ a, a % prime < prime := fun a => Nat.mod_lt a (by decide)
  refine ⟨⟨hlt _, hlt _, hlt _, hlt _⟩, ?_⟩
  simp only [natStep, rfcStep, Ladder.cast, ZMod.natCast_mod, Nat.cast_add, Nat.cast_mul,
    Nat.cast_sub (hlt _).le, Nat.cast_sub h.z2.le, Nat.cast_sub h.z3.le, ZMod.natCast_self]
  simp only [Ladder.mk.injEq]
  refine ⟨by ring, by push_cast; ring, by ring, by ring⟩

theorem natSwap_eq (swap : Bool) (s : Ladder ℕ) : (natSwap swap s).cast = rfcSwap swap s.cast := by
  cases swap <;> rfl

theorem natLoop_eq (k x1 n : ℕ) {s : Ladder ℕ} (h : s.Reduced) (swap : Bool) :
    (natLoop k x1 n (s, swap)).1.cast = (rfcLoop k x1 n (s.cast, swap)).1 ∧
      (natLoop k x1 n (s, swap)).2 = (rfcLoop k x1 n (s.cast, swap)).2 := by
  induction n generalizing s swap with
  | zero => exact ⟨rfl, rfl⟩
  | succ n ih =>
    have hswap : (natSwap (swap ^^ k.testBit n) s).Reduced := by
      cases swap ^^ k.testBit n
      · exact h
      · exact ⟨h.x3, h.z3, h.x2, h.z2⟩
    obtain ⟨hred, hstep⟩ := natStep_eq x1 hswap
    rw [natLoop, rfcLoop, ← natSwap_eq, ← hstep]
    exact ih hred _

/-- **X25519 on natural numbers.** -/
theorem rfcX25519_eq_nat (scalar point : Vector UInt8 32) :
    rfcX25519 scalar point = natX25519 scalar point := by
  have hcast : decodeUCoordinate point =
      ((Limbs.readLe point.toList % 2 ^ 255 % prime : ℕ) : F) := by
    rw [decodeUCoordinate, ZMod.natCast_mod]
  have hprime : 1 < prime := by decide
  rw [rfcX25519, natX25519, hcast]
  generalize decodeScalar scalar = k
  generalize hu : Limbs.readLe point.toList % 2 ^ 255 % prime = u
  have hlt : u < prime := hu ▸ Nat.mod_lt _ (by omega)
  obtain ⟨hloop, hflag⟩ := natLoop_eq k u 255
    (s := { x2 := 1, z2 := 0, x3 := u, z3 := 1 }) ⟨hprime, by simp; omega, hlt, hprime⟩ false
  have hladder : ((natLadder k u : ℕ) : F) = rfcLadder k u := by
    have hstart : Ladder.cast { x2 := 1, z2 := 0, x3 := u, z3 := 1 } =
        { x2 := 1, z2 := 0, x3 := (u : F), z3 := 1 } := by
      simp [Ladder.cast]
    rw [hstart] at hloop hflag
    rw [natLadder, rfcLadder]
    rw [ZMod.natCast_mod, Nat.cast_mul, natPow_eq (by decide), ← hflag, ← hloop, ← natSwap_eq]
    rfl
  rw [encodeUCoordinate, ← hladder, ZMod.val_natCast, Nat.mod_eq_of_lt]
  exact Nat.mod_lt _ (by omega)

end X25519

end Crypto

end QuicVibe
