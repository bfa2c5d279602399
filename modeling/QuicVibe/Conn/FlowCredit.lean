import QuicVibe.Conn.Io
import QuicVibe.Common.Run
/-!
# The connection's credit

One record holds the connection's flow-control credit (`credit.c`). Consuming data slides its limit
to the consumed bytes plus the window, a MAX_DATA frame of the peer writes its value over the same
limit, and neither compares with what is there.
-/

namespace QuicVibe

namespace Conn

open Packet Run
open QuicVibe.Frame

def FlowCredit.consume (c : FlowCredit) (n : ℕ) : FlowCredit :=
  let consumed := u64 (c.consumed + n)
  { c with consumed := consumed, maxData := u64 (consumed + c.window) }

/-- A frame for the dispatcher, or data consumed by the application. -/
inductive CreditOp
  | frame (f : Walked)
  | consume (n : ℕ)

namespace Connio

/-- The state after a call. -/
def creditStep (io : Connio) : CreditOp → Connio
  | .frame f => (io.handle f).2
  | .consume n => { io with credit := io.credit.consume n }

/-- The sums of a consumption fit their 64-bit words. -/
def NoOverflow (io : Connio) : CreditOp → Prop
  | .frame _ => True
  | .consume n => io.credit.consumed + n + io.credit.window < 2 ^ 64

/-- The call gives at least the limit there is: a MAX_DATA frame carries no smaller value, and a
consumption slides the window up to it. -/
def KeepsLimit (io : Connio) : CreditOp → Prop
  | .frame f => classify f.type = .maxData → ∀ d n, maxDataDecode f.rest = some (d, n) →
    io.credit.maxData ≤ d.value
  | .consume n => io.credit.maxData ≤ io.credit.consumed + n + io.credit.window

/-- Of the frames only a well-formed MAX_DATA reaches the credit, and it writes the limit. -/
theorem handle_credit (io : Connio) (f : Walked) :
    (io.handle f).2.credit =
      if classify f.type = .maxData then
        match maxDataDecode f.rest with
        | some (d, _) => { io.credit with maxData := d.value }
        | none => io.credit
      else io.credit := by
  unfold handle
  cases classify f.type with
  | ack =>
    simp only [handler, Option.getD_some]
    unfold onAck
    split
    · rfl
    · split <;> rfl
  | stream =>
    simp only [handler, Option.getD_some]
    unfold onStream
    split <;> rfl
  | maxData =>
    simp only [handler, Option.getD_some]
    unfold onMaxData
    rw [if_pos trivial]
    cases maxDataDecode f.rest with
    | none => rfl
    | some decoded => rfl
  | _ => rfl

/-- **One call** keeps or raises the limit exactly when it gives at least as much. -/
theorem maxData_creditStep_iff (io : Connio) (o : CreditOp) (hno : io.NoOverflow o) :
    io.credit.maxData ≤ (io.creditStep o).credit.maxData ↔ io.KeepsLimit o := by
  cases o with
  | frame f =>
    unfold creditStep KeepsLimit
    dsimp only
    rw [handle_credit]
    by_cases hkind : classify f.type = .maxData
    · rw [if_pos hkind, forall_prop_of_true hkind]
      cases maxDataDecode f.rest with
      | none => exact iff_of_true (Nat.le_refl _) nofun
      | some decoded =>
        obtain ⟨d, n⟩ := decoded
        simp
    · rw [if_neg hkind]
      exact iff_of_true (Nat.le_refl _) fun h => absurd h hkind
  | consume n =>
    unfold NoOverflow at hno
    unfold creditStep KeepsLimit FlowCredit.consume
    dsimp only at hno ⊢
    rw [u64_of_lt (show io.credit.consumed + n < 2 ^ 64 by omega), u64_of_lt hno]

/-- **The credit never shrinks** along a run exactly when every MAX_DATA frame and every consumption
gives at least the limit there is. -/
theorem credit_never_shrinks_iff (io : Connio) (ops : List CreditOp)
    (hno : ∀ e ∈ steps creditStep io ops, e.1.NoOverflow e.2) :
    (∀ past more, past ++ more <+: ops →
        (run creditStep io past).credit.maxData ≤ (run creditStep io (past ++ more)).credit.maxData) ↔
      ∀ e ∈ steps creditStep io ops, e.1.KeepsLimit e.2 := by
  rw [run_monotone_iff (fun io : Connio => io.credit.maxData)]
  exact forall₂_congr fun e he => maxData_creditStep_iff e.1 e.2 (hno e he)

/-- Consuming five bytes of a window of ten. -/
theorem credit_never_shrinks_iff_consume :
    let io := blank.init false 0xc3 [] 10
    io.credit.maxData = 10 ∧ (run creditStep io [.consume 5]).credit.maxData = 15 ∧
      io.credit.maxData ≤ (run creditStep io ([] ++ [.consume 5])).credit.maxData := by
  intro io
  have hno : ∀ e ∈ steps creditStep io [.consume 5], e.1.NoOverflow e.2 := by
    simp only [steps_cons, steps_nil, List.mem_singleton, forall_eq]
    unfold NoOverflow
    decide
  have hkeeps : ∀ e ∈ steps creditStep io [.consume 5], e.1.KeepsLimit e.2 := by
    simp only [steps_cons, steps_nil, List.mem_singleton, forall_eq]
    unfold KeepsLimit
    decide
  exact ⟨rfl, rfl, (credit_never_shrinks_iff io [.consume 5] hno).2 hkeeps [] [.consume 5]
    List.prefix_rfl⟩

/-- MAX_DATA 20 and then a late MAX_DATA 15 take the limit from 20 to 15; and behind MAX_DATA 20
consuming one byte of a window of ten takes it to 11. -/
theorem credit_shrinks :
    let io := blank.init false 0xc3 [] 10
    let raised := run creditStep io [.frame { type := 0x10, rest := [0x10, 0x14] }]
    raised.credit.maxData = 20 ∧
      (raised.creditStep (.frame { type := 0x10, rest := [0x10, 0x0f] })).credit.maxData = 15 ∧
      (raised.creditStep (.consume 1)).credit.maxData = 11 := by
  decide

end Connio

end Conn

end QuicVibe
