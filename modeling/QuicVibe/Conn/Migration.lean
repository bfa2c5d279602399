import QuicVibe.Common.Run
/-!
# Connection migration

The record of `migrate.c` is driven by calls in any order. Each flag follows the one before it, and no
call takes a flag back, so what a flag says is a fact about the whole history of calls.
-/

namespace QuicVibe

namespace Conn

open Run

structure Migrate where
  handshakeConfirmed : Bool
  detected : Bool
  challenged : Bool
  validated : Bool
  confirmed : Bool
  curCid : ℕ
  ccReset : Bool
  portOnly : Bool

/-- The calls on a `quic_migrate`; the owner sets `handshake_confirmed` itself. -/
inductive MigrateOp
  | handshakeConfirmed
  | detect
  | challenge
  | validate
  | confirm (newCid : ℕ) (portOnly : Bool)

namespace Migrate

def init (cid : ℕ) : Migrate := ⟨false, false, false, false, false, cid, false, false⟩

def validate (m : Migrate) : Bool × Migrate :=
  if !m.detected || !m.challenged then (false, m) else (true, { m with validated := true })

def confirm (m : Migrate) (newCid : ℕ) (portOnly : Bool) : Bool × Migrate :=
  if m.validated && newCid != m.curCid then
    (true, { m with
      curCid := newCid, confirmed := true, portOnly := portOnly, ccReset := !portOnly })
  else (false, m)

def step (m : Migrate) : MigrateOp → Migrate
  | .handshakeConfirmed => { m with handshakeConfirmed := true }
  | .detect => if m.handshakeConfirmed then { m with detected := true } else m
  | .challenge => if m.detected then { m with challenged := true } else m
  | .validate => m.validate.2
  | .confirm newCid portOnly => (m.confirm newCid portOnly).2

/-- The calls were made in this order, with anything between them. -/
def Made (calls past : List MigrateOp) : Prop := calls.Sublist past

theorem made_snoc {calls past : List MigrateOp} {c o : MigrateOp} :
    Made (calls ++ [c]) (past ++ [o]) ↔ Made (calls ++ [c]) past ∨ o = c ∧ Made calls past := by
  have hrev : ∀ l₁ l₂ : List MigrateOp, Made l₁ l₂ ↔ l₁.reverse.Sublist l₂.reverse :=
    fun _ _ => List.reverse_sublist.symm
  rw [hrev, hrev _ past, hrev calls, List.reverse_append, List.reverse_append,
    List.reverse_singleton, List.reverse_singleton, List.singleton_append, List.singleton_append,
    List.cons_sublist_cons', eq_comm]

/-- Each flag says that the calls up to its own were made in order. -/
structure Inv (past : List MigrateOp) (m : Migrate) : Prop where
  handshakeConfirmed : m.handshakeConfirmed = true ↔ Made ([] ++ [.handshakeConfirmed]) past
  detected : m.detected = true ↔ Made ([.handshakeConfirmed] ++ [.detect]) past
  challenged : m.challenged = true ↔ Made ([.handshakeConfirmed, .detect] ++ [.challenge]) past
  validated : m.validated = true ↔
    Made ([.handshakeConfirmed, .detect, .challenge] ++ [.validate]) past

/-- **A flag is set by its own call**, once those before it are set. -/
theorem step_flags (m : Migrate) (o : MigrateOp) :
    ((m.step o).handshakeConfirmed = true ↔ m.handshakeConfirmed = true ∨ o = .handshakeConfirmed) ∧
    ((m.step o).detected = true ↔
      m.detected = true ∨ o = .detect ∧ m.handshakeConfirmed = true) ∧
    ((m.step o).challenged = true ↔ m.challenged = true ∨ o = .challenge ∧ m.detected = true) ∧
    ((m.step o).validated = true ↔
      m.validated = true ∨ o = .validate ∧ m.detected = true ∧ m.challenged = true) := by
  cases o with
  | handshakeConfirmed => simp [step]
  | detect => by_cases h : m.handshakeConfirmed = true <;> simp [step, h]
  | challenge => by_cases h : m.detected = true <;> simp [step, h]
  | validate => cases hd : m.detected <;> cases hc : m.challenged <;> simp [step, validate, hd, hc]
  | confirm newCid portOnly =>
    rw [step, confirm]
    split <;> simp

theorem Inv.step {past : List MigrateOp} {m : Migrate} (h : Inv past m) (o : MigrateOp) :
    Inv (past ++ [o]) (m.step o) := by
  obtain ⟨h₁, h₂, h₃, h₄⟩ := h
  obtain ⟨f₁, f₂, f₃, f₄⟩ := step_flags m o
  -- a challenge follows a detection, so the first test of `validate` adds nothing
  have hchain : m.detected = true ∧ m.challenged = true ↔ m.challenged = true :=
    and_iff_right_of_imp fun hc => h₂.2 ((List.sublist_append_left ..).trans (h₃.1 hc))
  refine ⟨?_, ?_, ?_, ?_⟩
  · rw [f₁, made_snoc, h₁, and_iff_left (show Made [] past from List.nil_sublist past)]
  · rw [f₂, made_snoc, h₂, h₁]
    rfl
  · rw [f₃, made_snoc, h₃, h₂]
    rfl
  · rw [f₄, hchain, made_snoc, h₄, h₃]
    rfl

/-- **Migration needs every step, and each of them once.** After every history of calls a migration
is confirmed exactly for a fresh connection id behind a confirmed handshake, a detection, a challenge
and a validation made in this order. No call takes a flag back: after the first migration another one
is confirmed without a new challenge. -/
theorem migrate_confirm_iff (cid : ℕ) (ops : List MigrateOp) (newCid : ℕ) (portOnly : Bool) :
    ((run step (init cid) ops).confirm newCid portOnly).1 = true ↔
      [.handshakeConfirmed, .detect, .challenge, .validate].Sublist ops ∧
        newCid ≠ (run step (init cid) ops).curCid := by
  have h : Inv ops (run step (init cid) ops) := by
    refine run_history ops ⟨?_, ?_, ?_, ?_⟩ fun past o _ hpast => hpast.step o
    all_goals simp [init, Made]
  have hmade : _ ↔ [MigrateOp.handshakeConfirmed, .detect, .challenge, .validate].Sublist ops :=
    h.validated
  rw [← hmade, confirm]
  split
  · rename_i hok
    simpa using hok
  · rename_i hno
    simpa using hno

end Migrate

end Conn

end QuicVibe
