import QuicVibe.Conn.SendEffects
/-!
# Packet numbers and nonces of the send pipeline

A packet is sealed under a nonce that its level's IV and its packet number determine, and the number
is that of a 64-bit counter per level which advances when a packet is returned and at no other time.
-/

namespace QuicVibe

namespace Conn

open Packet Crypto Run Connio

/-! ## The nonce -/

/-- **Distinct numbers have distinct nonces** under one IV. -/
theorem protectNonce_injective {iv : Nonce} {n m : ℕ} (hn : n < 2 ^ 64) (hm : m < 2 ^ 64)
    (h : protectNonce iv n = protectNonce iv m) : n = m := by
  have hbyte : ∀ k < 8, n / 2 ^ (8 * k) % 256 = m / 2 ^ (8 * k) % 256 := by
    intro k hk
    have hget := congrArg (fun v : Nonce => v[11 - k]) h
    simp only [protectNonce, Vector.getElem_ofFn] at hget
    rw [if_neg (by omega), if_neg (by omega), UInt8.xor_right_inj] at hget
    have hnat := congrArg UInt8.toNat hget
    rwa [UInt8.toNat_ofNat', UInt8.toNat_ofNat', Nat.shiftRight_eq_div_pow,
      Nat.shiftRight_eq_div_pow, show 11 - (11 - k) = k by omega] at hnat
  -- the low bytes determine the number, one byte more at a time
  have hlow : ∀ k ≤ 8, n % 2 ^ (8 * k) = m % 2 ^ (8 * k) := by
    intro k
    induction k with
    | zero => intro _; rw [Nat.mul_zero, Nat.pow_zero, Nat.mod_one, Nat.mod_one]
    | succ k ih =>
      intro hk
      rw [Nat.mul_succ, Nat.pow_add, Nat.mod_mul, Nat.mod_mul, ih (by omega)]
      exact congrArg (_ + 2 ^ (8 * k) * ·) (hbyte k (by omega))
  have hall := hlow 8 (Nat.le_refl 8)
  rwa [Nat.mod_eq_of_lt hn, Nat.mod_eq_of_lt hm] at hall

/-! ## The numbers of a run -/

variable (aes : Block → Block → Block)

/-- What the calls of a run seal, in order. -/
def sealedLog (io : Connio) (ops : List ConnioOp) : List (Level × ℕ) :=
  (steps (Connio.step aes) io ops).filterMap fun e => e.1.sealedBy aes e.2

theorem sealedLog_cons (io : Connio) (o : ConnioOp) (ops : List ConnioOp) :
    sealedLog aes io (o :: ops) =
      (io.sealedBy aes o).toList ++ sealedLog aes (io.step aes o) ops := by
  unfold sealedLog
  rw [steps_cons, List.filterMap_cons]
  cases io.sealedBy aes o <;> rfl

/-- The numbers of the packets sealed at a level. -/
def numbersAt (level : Level) (log : List (Level × ℕ)) : List ℕ :=
  (log.filter (·.1 = level)).map (·.2)

/-- The numbers a counter gives out from `start` on. -/
def countFrom (start n : ℕ) : List ℕ := (List.range n).map fun i => u64 (start + i)

theorem countFrom_succ (start n : ℕ) (hstart : start < 2 ^ 64) :
    countFrom start (n + 1) = start :: countFrom (u64 (start + 1)) n := by
  have hfirst : u64 (start + 0) = start := u64_of_lt hstart
  rw [countFrom, List.range_succ_eq_map, List.map_cons, List.map_map, hfirst, countFrom]
  refine congrArg (start :: ·) (List.map_congr_left fun i _ => ?_)
  simp only [Function.comp_apply, u64]
  omega

theorem sealedBy_number {io : Connio} {o : ConnioOp} {level : Level} {n : ℕ}
    (h : io.sealedBy aes o = some (level, n)) : n = io.tx.get level := by
  cases o with
  | send level' frames cap =>
    rw [sealedBy_send] at h
    split at h
    · obtain ⟨rfl, rfl⟩ := Prod.mk.inj (Option.some.inj h)
      rfl
    · cases h
  | install | progress | recv | pto | validate | close => cases h

/-- **The numbers of a level count up** from where its counter stands. -/
theorem numbersAt_sealed (level : Level) (ops : List ConnioOp) (io : Connio)
    (hstart : io.tx.get level < 2 ^ 64) :
    ∃ n, numbersAt level (sealedLog aes io ops) = countFrom (io.tx.get level) n := by
  induction ops generalizing io with
  | nil => exact ⟨0, rfl⟩
  | cons o ops ih =>
    have hstep := io.step_tx aes o
    cases hseal : io.sealedBy aes o with
    | none =>
      -- nothing is sealed, and no counter moves
      have hlog : sealedLog aes io (o :: ops) = sealedLog aes (io.step aes o) ops := by
        rw [sealedLog_cons, hseal]
        rfl
      simp only [hseal] at hstep
      rw [hlog, ← hstep]
      exact ih (io.step aes o) (by rwa [hstep])
    | some sealed =>
      obtain ⟨level', m⟩ := sealed
      have hm := sealedBy_number aes hseal
      have hlog : sealedLog aes io (o :: ops) =
          (level', m) :: sealedLog aes (io.step aes o) ops := by
        rw [sealedLog_cons, hseal]
        rfl
      simp only [hseal] at hstep
      by_cases hlevel : level' = level
      · subst hlevel
        have hnext : (io.step aes o).tx.get level' = u64 (io.tx.get level' + 1) := by
          rw [hstep, hm]
          simp [Vector.get_eq_getElem]
        obtain ⟨n, hn⟩ := ih (io.step aes o) (by rw [hnext]; exact Nat.mod_lt _ (by decide))
        refine ⟨n + 1, ?_⟩
        rw [countFrom_succ _ _ hstart, ← hnext, ← hn, hlog, ← hm]
        simp [numbersAt]
      · have hsame : (io.step aes o).tx.get level = io.tx.get level := by
          rw [hstep, Vector.get_eq_getElem, Vector.get_eq_getElem, Vector.getElem_set_ne]
          exact fun h => hlevel (Fin.ext h)
        obtain ⟨n, hn⟩ := ih (io.step aes o) (by rwa [hsame])
        refine ⟨n, ?_⟩
        rw [← hsame, ← hn, hlog]
        simp [numbersAt, hlevel]

/-! ## Increasing and distinct -/

theorem length_countFrom (start n : ℕ) : (countFrom start n).length = n := by
  simp [countFrom]

/-- Up to the size of the word the counter increases, and behind it it starts over. -/
theorem pairwise_countFrom_iff (n : ℕ) :
    (countFrom 0 n).Pairwise (· < ·) ↔ n ≤ 2 ^ 64 := by
  constructor
  · intro hincreasing
    by_contra hlong
    have h := List.pairwise_iff_getElem.1 hincreasing 0 (2 ^ 64) (by rw [length_countFrom]; omega)
      (by rw [length_countFrom]; omega) (by decide)
    simp [countFrom, u64] at h
  · intro hn
    unfold countFrom
    rw [List.pairwise_map]
    refine List.pairwise_lt_range.imp_of_mem ?_
    intro i j hi hj hlt
    rw [List.mem_range] at hi hj
    rw [u64_of_lt (by omega), u64_of_lt (by omega)]
    omega

/-- The numbers of a level increase, and their nonces differ under every IV. -/
def DistinctNonces (numbers : List ℕ) : Prop :=
  numbers.Pairwise (· < ·) ∧ ∀ iv, (numbers.map (protectNonce iv)).Nodup

theorem distinctNonces_iff (n : ℕ) : DistinctNonces (countFrom 0 n) ↔ n ≤ 2 ^ 64 := by
  rw [DistinctNonces, pairwise_countFrom_iff]
  refine and_iff_left_of_imp fun hn iv => ?_
  have hincreasing := (pairwise_countFrom_iff n).2 hn
  refine List.Nodup.map_on ?_ (hincreasing.imp Nat.ne_of_lt)
  intro i hi j hj h
  obtain ⟨a, -, rfl⟩ := List.mem_map.1 hi
  obtain ⟨b, -, rfl⟩ := List.mem_map.1 hj
  exact protectNonce_injective (Nat.mod_lt _ (by decide)) (Nat.mod_lt _ (by decide)) h

/-- **No nonce is reused** along a run, at any level, exactly when no level seals more than `2 ^ 64`
packets. -/
theorem nonces_distinct_iff (memory : Connio) (isServer : Bool) (byte0 : UInt8) (dcid : Bytes)
    (initialMaxData : ℕ) (ops : List ConnioOp) :
    let log := sealedLog aes (memory.init isServer byte0 dcid initialMaxData) ops
    (∀ level, DistinctNonces (numbersAt level log)) ↔
      ∀ level, (numbersAt level log).length ≤ 2 ^ 64 := by
  intro log
  refine forall_congr' fun level => ?_
  have hzero : (memory.init isServer byte0 dcid initialMaxData).tx.get level = 0 := by
    simp [Connio.init, Vector.get_eq_getElem]
  obtain ⟨n, hn⟩ := numbersAt_sealed aes level ops (memory.init isServer byte0 dcid initialMaxData)
    (by rw [hzero]; decide)
  rw [hzero] at hn
  rw [show numbersAt level log = countFrom 0 n from hn, distinctNonces_iff, length_countFrom]

/-! ## The end of the counter -/

theorem length_numbersAt_pings (n : ℕ) (io : Connio) (h : Unhindered io) :
    (numbersAt levelInitial (sealedLog aes io (List.replicate n ping))).length = n := by
  induction n generalizing io with
  | zero => rfl
  | succ n ih =>
    obtain ⟨hnext, hseal⟩ := h.step aes
    have hlog : sealedLog aes io (List.replicate (n + 1) ping) =
        (levelInitial, io.tx.get levelInitial) :: sealedLog aes (io.step aes ping) (List.replicate n ping) := by
      rw [List.replicate_succ, sealedLog_cons, hseal]
      rfl
    rw [hlog]
    simpa [numbersAt] using ih (io.step aes ping) hnext

/-- A client that sends `2 ^ 64 + 1` packets at the Initial level uses a nonce twice. -/
theorem nonces_repeat :
    let keys : InitialKeys := ⟨Vector.replicate 16 1, Vector.replicate 12 2, Vector.replicate 16 3⟩
    let ops := [.install levelInitial keys, .validate] ++ List.replicate (2 ^ 64 + 1) ping
    ¬ DistinctNonces (numbersAt levelInitial
      (sealedLog aes128 (blank.init false 0xc3 [] 0) ops)) := by
  intro keys ops
  have hlen := length_numbersAt_pings aes128 (2 ^ 64 + 1) _ (unhindered_opened aes128 keys)
  have hlog : sealedLog aes128 (blank.init false 0xc3 [] 0) ops =
      sealedLog aes128 (opened aes128 keys) (List.replicate (2 ^ 64 + 1) ping) := by
    simp only [ops, List.cons_append, List.nil_append, sealedLog_cons, sealedBy, Option.toList_none]
    rfl
  have hzero : (blank.init false 0xc3 [] 0).tx.get levelInitial = 0 := by
    simp [Connio.init, Vector.get_eq_getElem]
  obtain ⟨n, hn⟩ := numbersAt_sealed aes128 levelInitial ops (blank.init false 0xc3 [] 0)
    (by rw [hzero]; decide)
  rw [hzero] at hn
  rw [← hlog, hn, length_countFrom] at hlen
  rw [hn, distinctNonces_iff, hlen]
  decide

end Conn

end QuicVibe
