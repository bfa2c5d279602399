import QuicVibe.Keys.Schedule
/-!
# Which keys a key update installs

Secret `n + 1` is the `quic ku` expansion of secret `n`, and the header-protection key stays that of
generation 0. But initialisation zeroes the secret, and the keys of an update start from a zeroed
record: they are those of the chain that starts at the zero secret, whatever the handshake negotiated.
-/

namespace QuicVibe

namespace Keys

open Crypto Packet

/-! ## What an update should install -/

/-- The application traffic secret of a generation, counted from `s0`. -/
def genSecret (s0 : Digest) : ℕ → Digest
  | 0 => s0
  | n + 1 => kuNextSecret (genSecret s0 n)

/-- The 1-RTT keys of a generation: header protection does not change. -/
def genKeys (s0 : Digest) (n : ℕ) : InitialKeys where
  key := expandLabel (genSecret s0 n) "quic key" [] 16
  iv := expandLabel (genSecret s0 n) "quic iv" [] 12
  hp := expandLabel s0 "quic hp" [] 16

/-- The connection is at generation `k` of the chain from `s0`. -/
structure FollowsChain (s0 : Digest) (k : ℕ) (r : ConnRunner) : Prop where
  installed : r.keys.forLevel .onertt = some (genKeys s0 k)
  phase : (keyphaseGet r.kuPhase).toNat = k % 2
  noOld : k = 0 → r.ku.haveOld = false
  old : ∀ j, k = j + 1 → r.ku.old = genKeys s0 j

/-! ## Runs -/

/-- What happens on a connection after `quic_connrunner_keyupdate_init`. The sent-packet counter and
the confirmation flag belong to other parts of the connection, which may set them to anything. -/
inductive KuOp
  | initiate (now threshold pto : ℕ)
  | discard (now pto : ℕ)
  | completed (now : ℕ)
  | other (sentInPhase : ℕ) (confirmed : Bool)

def kuStep (r : ConnRunner) : KuOp → ConnRunner
  | .initiate now threshold pto => (maybeInitiateKu r now threshold pto).2
  | .discard now pto => maybeDiscardKu r now pto
  | .completed now => kuCompleted r now
  | .other sent confirmed => { r with kuSentInPhase := sent, handshakeConfirmed := confirmed }

/-- The call performs an update. -/
def performs (r : ConnRunner) : KuOp → Bool
  | .initiate now threshold pto => (maybeInitiateKu r now threshold pto).1
  | _ => false

/-- How many updates a sequence of calls performs. -/
def updates (r : ConnRunner) : List KuOp → ℕ
  | [] => 0
  | o :: ops => (performs r o).toNat + updates (kuStep r o) ops

/-! ## What an update does install -/

/-- The keys the connection holds at a generation. -/
def heldKeys (s0 : Digest) : ℕ → InitialKeys
  | 0 => protectionKeys s0
  | n + 1 => (kuswitchNextKeys (genSecret (Vector.replicate 32 0) n) zeroKeys).1

/-- The state after `k` updates. -/
structure AtGeneration (s0 : Digest) (k : ℕ) (r : ConnRunner) : Prop where
  installed : r.keys.forLevel .onertt = some (heldKeys s0 k)
  cur : r.ku.cur = heldKeys s0 k
  secret : r.kuSecret = genSecret (Vector.replicate 32 0) k
  generation : r.ku.generation = u64 k
  phase : (keyphaseGet r.kuPhase).toNat = k % 2
  noOld : k = 0 → r.ku.haveOld = false
  old : ∀ j, k = j + 1 → r.ku.old = heldKeys s0 j

theorem keyphaseGet_set (byte0 : UInt8) (generation : ℕ) :
    (keyphaseGet (keyphaseSet byte0 (keyphaseBit generation))).toNat = generation % 2 := by
  have hget : ∀ n < 256, ∀ p < 2,
      (keyphaseGet (keyphaseSet (UInt8.ofNat n) (UInt8.ofNat p))).toNat = p := by
    decide +kernel
  have hbyte := hget byte0.toNat byte0.toNat_lt (generation % 2) (Nat.mod_lt _ (by decide))
  rw [UInt8.ofNat_toNat] at hbyte
  rwa [keyphaseBit, Nat.and_one_is_mod]

variable {r : ConnRunner} {s0 : Digest} {k : ℕ}

theorem atGeneration_init (h : r.keys.forLevel .onertt = some (protectionKeys s0)) :
    AtGeneration s0 0 (keyupdateInit r) where
  installed := h
  cur := by simp [keyupdateInit, Kuswitch.init, curKeys, h, heldKeys]
  secret := rfl
  generation := rfl
  phase := by simp [keyupdateInit, keyphaseGet]
  noOld := fun _ => rfl
  old := fun j hj => absurd hj.symm (Nat.succ_ne_zero j)

theorem atGeneration_doInitiate (h : AtGeneration s0 k r) :
    AtGeneration s0 (k + 1) (doInitiate r) where
  installed := by simp [doInitiate, h.secret, heldKeys]
  cur := by simp [doInitiate, Kuswitch.rotate, h.secret, heldKeys]
  secret := by simp [doInitiate, kuswitchNextKeys, h.secret, genSecret]
  generation := by simp [doInitiate, Kuswitch.rotate, h.generation, u64]
  phase := by
    have hgen : u64 (u64 k + 1) % 2 = (k + 1) % 2 := by
      simp only [u64]
      omega
    simp [doInitiate, Kuswitch.rotate, keyphaseGet_set, h.generation, hgen]
  noOld := fun hk => absurd hk (Nat.succ_ne_zero k)
  old := by
    intro j hj
    obtain rfl : k = j := Nat.succ.inj hj
    simp [doInitiate, Kuswitch.rotate, h.cur]

/-- **One call**: an update moves on by one generation, everything else stays where it is. -/
theorem atGeneration_step (h : AtGeneration s0 k r) (o : KuOp) :
    AtGeneration s0 (k + (performs r o).toNat) (kuStep r o) := by
  cases o with
  | initiate now threshold pto =>
    simp only [performs, kuStep, maybeInitiateKu]
    split
    · exact atGeneration_doInitiate h
    · exact h
  | discard now pto =>
    simp only [performs, kuStep, maybeDiscardKu]
    split
    · exact { h with noOld := fun _ => rfl }
    · exact h
  | completed now =>
    simp only [performs, kuStep, kuCompleted]
    split
    · exact h
    · exact { h with }
  | other sent confirmed => exact { h with }

/-- **A whole run.** -/
theorem atGeneration_run (s0 : Digest) (k : ℕ) (h : AtGeneration s0 k r) (ops : List KuOp) :
    AtGeneration s0 (k + updates r ops) (Run.run kuStep r ops) := by
  induction ops generalizing r k with
  | nil => exact h
  | cons o ops ih =>
    rw [updates, ← Nat.add_assoc, Run.run_cons]
    exact ih _ (atGeneration_step h o)

/-! ## Where the two agree -/

/-- Key and IV of generation `k` are the same for the chain from `s0` and for the chain from the
zero secret. -/
def SameAsZero (s0 : Digest) (k : ℕ) : Prop :=
  (genKeys s0 k).key = (genKeys (Vector.replicate 32 0) k).key ∧
    (genKeys s0 k).iv = (genKeys (Vector.replicate 32 0) k).iv

theorem heldKeys_succ_eq_iff :
    heldKeys s0 (k + 1) = genKeys s0 (k + 1) ↔
      expandLabel s0 "quic hp" [] 16 = Vector.replicate 16 0 ∧ SameAsZero s0 (k + 1) := by
  simp only [heldKeys, genKeys, kuswitchNextKeys, zeroKeys, InitialKeys.mk.injEq, SameAsZero,
    genSecret]
  constructor
  · rintro ⟨hkey, hiv, hhp⟩
    exact ⟨hhp.symm, hkey.symm, hiv.symm⟩
  · rintro ⟨hhp, hkey, hiv⟩
    exact ⟨hkey.symm, hiv.symm, hhp.symm⟩

/-- A connection at generation `k` follows the chain from `s0` exactly when nothing distinguishes
that chain, with its header-protection key, from the zero chain. -/
theorem AtGeneration.followsChain_iff (h : AtGeneration s0 k r) :
    FollowsChain s0 k r ↔ k = 0 ∨
      (expandLabel s0 "quic hp" [] 16 = Vector.replicate 16 0 ∧ SameAsZero s0 k ∧
        (2 ≤ k → SameAsZero s0 (k - 1))) := by
  cases k with
  | zero =>
    refine iff_of_true ⟨h.installed, h.phase, h.noOld, fun j hj => ?_⟩ (Or.inl rfl)
    exact absurd hj.symm (Nat.succ_ne_zero j)
  | succ k =>
    have hcur : FollowsChain s0 (k + 1) r ↔
        heldKeys s0 (k + 1) = genKeys s0 (k + 1) ∧ heldKeys s0 k = genKeys s0 k := by
      constructor
      · intro hf
        exact ⟨Option.some.inj (h.installed.symm.trans hf.installed),
          (h.old k rfl).symm.trans (hf.old k rfl)⟩
      · rintro ⟨h₁, h₂⟩
        refine ⟨h₁ ▸ h.installed, h.phase, fun hk => absurd hk (Nat.succ_ne_zero k), ?_⟩
        intro j hj
        obtain rfl : k = j := Nat.succ.inj hj
        exact h₂ ▸ h.old k rfl
    rw [hcur, heldKeys_succ_eq_iff]
    cases k with
    | zero => simp [heldKeys, genKeys, protectionKeys, genSecret]
    | succ k =>
      rw [heldKeys_succ_eq_iff]
      simp only [Nat.add_sub_cancel, Nat.succ_ne_zero, false_or]
      constructor
      · rintro ⟨⟨hhp, h₁⟩, -, h₂⟩
        exact ⟨hhp, h₁, fun _ => h₂⟩
      · rintro ⟨hhp, h₁, h₂⟩
        exact ⟨⟨hhp, h₁⟩, hhp, h₂ (by omega)⟩

/-- **The key update chain.** After any calls that perform `k` updates on a connection whose first
1-RTT keys come from `s0`, the connection is at generation `k` of the chain from `s0` exactly when
no update was performed, or `s0` happens to have a zero header-protection key and the key and IV of
the zero secret's chain, at this generation and the one before. -/
theorem followsChain_run_iff (r : ConnRunner) (s0 : Digest) (ops : List KuOp)
    (h : r.keys.forLevel .onertt = some (protectionKeys s0)) :
    FollowsChain s0 (updates (keyupdateInit r) ops) (Run.run kuStep (keyupdateInit r) ops) ↔
      updates (keyupdateInit r) ops = 0 ∨
        (expandLabel s0 "quic hp" [] 16 = Vector.replicate 16 0 ∧
          SameAsZero s0 (updates (keyupdateInit r) ops) ∧
          (2 ≤ updates (keyupdateInit r) ops →
            SameAsZero s0 (updates (keyupdateInit r) ops - 1))) := by
  have hrun := atGeneration_run s0 0 (atGeneration_init h) ops
  rw [Nat.zero_add] at hrun
  exact hrun.followsChain_iff

/-- A connection with the 1-RTT keys of `s0` installed and nothing else set up. -/
def freshRunner (s0 : Digest) : ConnRunner where
  keys := Keyset.install ⟨fun _ => zeroKeys, fun _ => false⟩ .onertt (protectionKeys s0)
  handshakeConfirmed := false
  ku := ⟨zeroKeys, zeroKeys, 0, false⟩
  kuSecret := Vector.replicate 32 0
  kuPhase := 0
  kuCompletedAt := 0
  kuSentInPhase := 0
  kuUnacked := false

/-- Confirmation, a hundred packets, then an initiation at threshold ten. -/
def firstUpdate : List KuOp := [.other 100 true, .initiate 0 10 1]

/-- The first update of a connection whose secret is 32 bytes of `0x01` leaves the chain: the
header-protection key of generation 0 is not zero. -/
theorem firstUpdate_leaves_chain :
    updates (keyupdateInit (freshRunner (Vector.replicate 32 1))) firstUpdate = 1 ∧
      ¬ FollowsChain (Vector.replicate 32 1) 1
        (Run.run kuStep (keyupdateInit (freshRunner (Vector.replicate 32 1))) firstUpdate) := by
  have hk : updates (keyupdateInit (freshRunner (Vector.replicate 32 1))) firstUpdate = 1 := rfl
  refine ⟨hk, fun hf => ?_⟩
  have hrun := atGeneration_run (Vector.replicate 32 1) 0
    (atGeneration_init (r := freshRunner (Vector.replicate 32 1)) (by simp [freshRunner]))
    firstUpdate
  rw [hk] at hrun
  have hhp : expandLabel (Vector.replicate 32 1) "quic hp" [] 16 ≠ Vector.replicate 16 0 := by
    decide +kernel
  rcases hrun.followsChain_iff.1 hf with h | h
  · exact absurd h (by decide)
  · exact hhp h.1

/-- A connection that performs no update is at generation 0 of its own chain. -/
theorem followsChain_run_iff_unconfirmed :
    FollowsChain (Vector.replicate 32 1) 0
      (Run.run kuStep (keyupdateInit (freshRunner (Vector.replicate 32 1)))
        [.initiate 0 10 1, .completed 5]) :=
  (followsChain_run_iff (freshRunner (Vector.replicate 32 1)) (Vector.replicate 32 1)
    [.initiate 0 10 1, .completed 5] (by simp [freshRunner])).2 (Or.inl rfl)

end Keys

end QuicVibe
