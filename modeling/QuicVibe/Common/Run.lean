import Mathlib
/-!
# Runs of an operation-driven component

A component that is driven by calls is a step function `S → O → S`, and a run is the left fold of
the step over the calls. The induction over the calls is done once here, in the form that remembers
which calls were already made.
-/

namespace QuicVibe

namespace Run

variable {S O : Type*}

/-- The state a sequence of calls leads to. -/
def run (step : S → O → S) (s : S) (ops : List O) : S :=
  ops.foldl step s

@[simp] theorem run_nil (step : S → O → S) (s : S) : run step s [] = s := rfl

@[simp] theorem run_cons (step : S → O → S) (s : S) (o : O) (ops : List O) :
    run step s (o :: ops) = run step (step s o) ops := rfl

theorem run_append (step : S → O → S) (s : S) (ops₁ ops₂ : List O) :
    run step s (ops₁ ++ ops₂) = run step (run step s ops₁) ops₂ :=
  List.foldl_append

theorem run_snoc (step : S → O → S) (s : S) (ops : List O) (o : O) :
    run step s (ops ++ [o]) = step (run step s ops) o := by
  rw [run_append, run_cons, run_nil]

variable {step : S → O → S} {s : S} {P : S → Prop} {ops : List O} {e : S × O}

/-- **History induction.** A property of the calls made so far and the state they led to holds
of a whole run once it holds of the empty run and every call of the run extends it. -/
theorem run_history {P : List O → S → Prop} (ops : List O) (hinit : P [] s)
    (hstep : ∀ past o, past ++ [o] <+: ops → P past (run step s past) →
      P (past ++ [o]) (step (run step s past) o)) : P ops (run step s ops) := by
  induction ops using List.reverseRecOn with
  | nil => exact hinit
  | append_singleton past o ih =>
    rw [run_snoc]
    refine hstep past o List.prefix_rfl (ih fun p x hp => hstep p x ?_)
    exact hp.trans (List.prefix_append past [o])

/-- **Invariant rule.** A property of the state that holds initially and is kept by every call
of the run holds at its end. -/
theorem run_invariant (ops : List O) (hinit : P s) (hstep : ∀ s o, o ∈ ops → P s → P (step s o)) :
    P (run step s ops) := by
  refine run_history (P := fun _ t => P t) ops hinit fun past o hp h => ?_
  exact hstep _ _ (hp.subset (by simp)) h

/-! ## The steps of a run -/

/-- The calls of a run, each with the state it is made in. -/
def steps (step : S → O → S) : S → List O → List (S × O)
  | _, [] => []
  | s, o :: ops => (s, o) :: steps step (step s o) ops

@[simp] theorem steps_nil (step : S → O → S) (s : S) : steps step s [] = [] := rfl

@[simp] theorem steps_cons (step : S → O → S) (s : S) (o : O) (ops : List O) :
    steps step s (o :: ops) = (s, o) :: steps step (step s o) ops := rfl

@[simp] theorem length_steps (step : S → O → S) (s : S) (ops : List O) :
    (steps step s ops).length = ops.length := by
  induction ops generalizing s with
  | nil => rfl
  | cons o ops ih => simp [ih]

theorem steps_snoc (step : S → O → S) (s : S) (ops : List O) (o : O) :
    steps step s (ops ++ [o]) = steps step s ops ++ [(run step s ops, o)] := by
  induction ops generalizing s with
  | nil => rfl
  | cons p ops ih => simp [ih]

/-- A step of a run is a call together with the state the calls before it lead to. -/
theorem mem_steps_iff :
    e ∈ steps step s ops ↔ ∃ past, past ++ [e.2] <+: ops ∧ e.1 = run step s past := by
  induction ops generalizing s with
  | nil => simp
  | cons o ops ih =>
    rw [steps_cons, List.mem_cons, ih]
    constructor
    · rintro (rfl | ⟨past, hpre, he⟩)
      · exact ⟨[], by simp, rfl⟩
      · exact ⟨o :: past, by simpa using hpre, he⟩
    · rintro ⟨past, hpre, he⟩
      cases past with
      | nil =>
        obtain ⟨rfl, -⟩ := List.cons_prefix_cons.1 hpre
        exact .inl (Prod.ext he rfl)
      | cons p past =>
        obtain ⟨rfl, htail⟩ := List.cons_prefix_cons.1 hpre
        exact .inr ⟨past, htail, he⟩

/-- **Step history.** A property of the steps made so far and the state they led to, once it holds
of no steps and every step extends it, holds of a whole run. -/
theorem steps_history {P : List (S × O) → S → Prop}
    (hstep : ∀ past s o, P past s → P (past ++ [(s, o)]) (step s o)) (hinit : P [] s)
    (ops : List O) : P (steps step s ops) (run step s ops) := by
  have key : ∀ (ops : List O) (s : S) (past : List (S × O)), P past s →
      P (past ++ steps step s ops) (run step s ops) := by
    intro ops
    induction ops with
    | nil => intro s past hp; simpa using hp
    | cons o ops ih =>
      intro s past hp
      simpa using ih (step s o) (past ++ [(s, o)]) (hstep past s o hp)
  exact key ops s [] hinit

/-- The steps before a step of a run are a run that leads to its state. -/
theorem of_steps_eq {pre post : List (S × O)} (h : steps step s ops = pre ++ e :: post) :
    pre = steps step s (pre.map Prod.snd) ∧ e.1 = run step s (pre.map Prod.snd) := by
  induction pre generalizing s ops with
  | nil =>
    cases ops with
    | nil => cases h
    | cons o ops =>
      obtain ⟨rfl, -⟩ := List.cons.inj h
      exact ⟨rfl, rfl⟩
  | cons e' pre ih =>
    cases ops with
    | nil => cases h
    | cons o ops =>
      obtain ⟨rfl, htail⟩ := List.cons.inj h
      obtain ⟨hpre, he⟩ := ih htail
      exact ⟨congrArg ((s, o) :: ·) hpre, he⟩

/-- **Step induction.** A property of the steps made so far and the state they led to, once it
holds of no steps and every step extends it, holds before every step of a run of the steps that
precede it. -/
theorem history_of_steps_eq {P : List (S × O) → S → Prop}
    (hstep : ∀ past s o, P past s → P (past ++ [(s, o)]) (step s o)) (hinit : P [] s)
    {pre post : List (S × O)} (h : steps step s ops = pre ++ e :: post) : P pre e.1 := by
  obtain ⟨hpre, he⟩ := of_steps_eq h
  rw [hpre, he]
  exact steps_history hstep hinit _

/-- **Invariant rule over the steps.** A property of the state that every step of this run keeps
holds at its end. -/
theorem run_of_steps (hinit : P s) (hstep : ∀ t o, (t, o) ∈ steps step s ops → P t → P (step t o)) :
    P (run step s ops) := by
  induction ops generalizing s with
  | nil => exact hinit
  | cons o ops ih =>
    have hfirst : P (step s o) := hstep s o List.mem_cons_self hinit
    exact ih hfirst fun t o' hmem => hstep t o' (List.mem_cons_of_mem _ hmem)

theorem of_mem_steps (hinit : P s) (hstep : ∀ t o, (t, o) ∈ steps step s ops → P t → P (step t o))
    (he : e ∈ steps step s ops) : P e.1 := by
  obtain ⟨pre, post, heq⟩ := List.append_of_mem he
  obtain ⟨hpre, hstate⟩ := of_steps_eq heq
  rw [hstate]
  refine run_of_steps hinit fun t o hmem => hstep t o ?_
  rw [← hpre] at hmem
  rw [heq]
  exact List.mem_append_left _ hmem

/-- **Lockstep.** Two components driven by the same calls stay related for as long as each call is one
that keeps them related: if in related states a call keeps the relation exactly when it is `ok`, then
the relation holds after every part of a run exactly when every call of it is `ok`. The invariant `P`
of the first component may be used at every step. -/
theorem run_lockstep_iff {T : Type*} {step' : T → O → T} {R : S → T → Prop} {ok : S → O → Prop}
    {t : T} (hinit : P s) (hrel : R s t)
    (hinv : ∀ u o, (u, o) ∈ steps step s ops → P u → P (step u o))
    (hstep : ∀ u v o, (u, o) ∈ steps step s ops → P u → R u v →
      (R (step u o) (step' v o) ↔ ok u o)) :
    (∀ past, past <+: ops → R (run step s past) (run step' t past)) ↔
      ∀ e ∈ steps step s ops, ok e.1 e.2 := by
  induction ops generalizing s t with
  | nil =>
    refine ⟨fun _ e he => absurd he List.not_mem_nil, fun _ past hpast => ?_⟩
    rw [List.prefix_nil.1 hpast]
    exact hrel
  | cons o ops ih =>
    have hfirst := hstep s t o List.mem_cons_self hinit hrel
    have hrest : R (step s o) (step' t o) → _ := fun h =>
      ih (hinv s o List.mem_cons_self hinit) h
        (fun u o' hmem => hinv u o' (List.mem_cons_of_mem _ hmem))
        (fun u v o' hmem => hstep u v o' (List.mem_cons_of_mem _ hmem))
    constructor
    · intro hall
      have hone : R (step s o) (step' t o) := hall [o] (by simp)
      have htail := (hrest hone).1 fun past hpast => hall (o :: past) (by simpa using hpast)
      intro e he
      rcases List.mem_cons.1 he with rfl | he
      · exact hfirst.1 hone
      · exact htail e he
    · intro hok past hpast
      cases past with
      | nil => exact hrel
      | cons o' past =>
        obtain ⟨rfl, htail⟩ := List.cons_prefix_cons.1 hpast
        have hone := hfirst.2 (hok _ List.mem_cons_self)
        exact (hrest hone).2 (fun e he => hok e (List.mem_cons_of_mem _ he)) past htail

/-- **Kept exactly by the good steps.** If in every state with the invariant `P` and the property `R` a
step keeps `R` and has the property `Q` exactly when it is `ok`, then a run has `R` after every part
of it and `Q` at every step exactly when all its steps are `ok`. -/
theorem run_keeps_iff {R : S → Prop} {Q ok : S → O → Prop} (hinit : P s) (hR : R s)
    (hinv : ∀ u o, (u, o) ∈ steps step s ops → P u → P (step u o))
    (hstep : ∀ u o, (u, o) ∈ steps step s ops → P u → R u → (R (step u o) ∧ Q u o ↔ ok u o)) :
    ((∀ past, past <+: ops → R (run step s past)) ∧ ∀ e ∈ steps step s ops, Q e.1 e.2) ↔
      ∀ e ∈ steps step s ops, ok e.1 e.2 := by
  induction ops generalizing s with
  | nil =>
    refine ⟨fun _ e he => absurd he List.not_mem_nil, fun _ => ⟨fun past hpast => ?_, ?_⟩⟩
    · rw [List.prefix_nil.1 hpast]
      exact hR
    · exact fun e he => absurd he List.not_mem_nil
  | cons o ops ih =>
    have hfirst := hstep s o List.mem_cons_self hinit hR
    have hrest : R (step s o) → _ := fun h =>
      ih (hinv s o List.mem_cons_self hinit) h
        (fun u o' hmem => hinv u o' (List.mem_cons_of_mem _ hmem))
        (fun u o' hmem => hstep u o' (List.mem_cons_of_mem _ hmem))
    rw [steps_cons, List.forall_mem_cons, List.forall_mem_cons]
    constructor
    · rintro ⟨hall, hQ, htailQ⟩
      have hone : R (step s o) := hall [o] (by simp)
      exact ⟨hfirst.1 ⟨hone, hQ⟩,
        (hrest hone).1 ⟨fun past hpast => hall (o :: past) (by simpa using hpast), htailQ⟩⟩
    · rintro ⟨hok, htail⟩
      obtain ⟨hone, hQ⟩ := hfirst.2 hok
      obtain ⟨hall, htailQ⟩ := (hrest hone).2 htail
      refine ⟨fun past hpast => ?_, hQ, htailQ⟩
      cases past with
      | nil => exact hR
      | cons o' past =>
        obtain ⟨rfl, hpre⟩ := List.cons_prefix_cons.1 hpast
        exact hall past hpre

theorem run_holds_iff {R : S → Prop} {G : S → O → Prop} (hinit : P s) (hR : R s)
    (hinv : ∀ u o, P u → P (step u o)) (hstep : ∀ u o, P u → R u → (R (step u o) ↔ G u o)) :
    (∀ past, past <+: ops → R (run step s past)) ↔ ∀ e ∈ steps step s ops, G e.1 e.2 := by
  have hrun : _ ↔ ∀ e ∈ steps step s ops, G e.1 e.2 :=
    run_keeps_iff (Q := fun _ _ => True) hinit hR (fun u o _ => hinv u o)
      (fun u o _ hP h => by rw [and_true]; exact hstep u o hP h)
  rw [← hrun]
  exact (and_iff_left fun _ _ => trivial).symm

/-- **Monotone along a run.** A measure of the state never falls along a run exactly when no step of
it lets it fall. -/
theorem run_monotone_iff (f : S → ℕ) :
    (∀ past more, past ++ more <+: ops → f (run step s past) ≤ f (run step s (past ++ more))) ↔
      ∀ e ∈ steps step s ops, f e.1 ≤ f (step e.1 e.2) := by
  constructor
  · intro h e he
    obtain ⟨past, hpre, hstate⟩ := mem_steps_iff.1 he
    have hstep := h past [e.2] hpre
    rwa [run_snoc, ← hstate] at hstep
  · intro h past more
    induction more using List.reverseRecOn with
    | nil =>
      intro _
      exact Nat.le_of_eq (by rw [List.append_nil])
    | append_singleton more o ih =>
      intro hpre
      rw [← List.append_assoc] at hpre ⊢
      have hbefore := ih ((List.prefix_append _ [o]).trans hpre)
      have hlast := h (run step s (past ++ more), o) (mem_steps_iff.2 ⟨past ++ more, hpre, rfl⟩)
      rw [run_snoc]
      exact Nat.le_trans hbefore hlast

end Run

end QuicVibe
