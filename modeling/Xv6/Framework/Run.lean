import Mathlib

/-!
# Runs of a transition system

A system is a partial step function `step : S → A → Option S`: the action
chosen (which party moves, and what its environment answers) and the state
it leads to, if the action is enabled. `Run step s0 as s` says that the
actions `as`, in order, lead from `s0` to `s`. Invariants are proved once, by
`Run.invariant` from what one step preserves; facts that relate the state to
the actions that led to it, by `Run.rec` itself, whose induction is on the
last action. `labels` is what the steps of a run report, in order, and
`Run.labels_invariant` relates it to the state.
-/

namespace Xv6.Framework

open Function

variable {S A : Type} {step : S → A → Option S} {s0 s : S} {as bs : List A}

/-- The actions `as` lead from `s0` to the state `s`. -/
inductive Run (step : S → A → Option S) (s0 : S) : List A → S → Prop
  | nil : Run step s0 [] s0
  | snoc {as : List A} {a : A} {s s' : S} :
    Run step s0 as s → step s a = some s' → Run step s0 (as ++ [a]) s'

/-- The state some actions lead to, if all of them are enabled. -/
def exec (step : S → A → Option S) : S → List A → Option S
  | s, [] => some s
  | s, a :: as => (step s a).bind (exec step · as)

theorem exec_append (s : S) (as bs : List A) :
    exec step s (as ++ bs) = (exec step s as).bind (exec step · bs) := by
  induction as generalizing s with
  | nil => rfl
  | cons a as ih =>
    simp only [List.cons_append, exec]
    cases step s a with
    | none => rfl
    | some s1 => exact ih s1

/-- A run is an execution of its actions. -/
theorem run_iff_exec : Run step s0 as s ↔ exec step s0 as = some s := by
  constructor
  · intro h
    induction h with
    | nil => rfl
    | snoc _ hs ih => simp [exec_append, ih, exec, hs]
  · intro h
    induction as using List.reverseRecOn generalizing s with
    | nil => cases h; exact .nil
    | append_singleton as a ih =>
      rw [exec_append] at h
      obtain ⟨s1, h1, h2⟩ := Option.bind_eq_some_iff.mp h
      refine .snoc (ih h1) ?_
      simpa [exec] using h2

/-- The actions of a run determine where it ends. -/
theorem Run.unique {s' : S} (h : Run step s0 as s) (h' : Run step s0 as s') : s = s' :=
  Option.some.inj ((run_iff_exec.mp h).symm.trans (run_iff_exec.mp h'))

/-- An invariant of the steps that holds at the start holds after every run. -/
theorem Run.invariant (h : Run step s0 as s) {I : S → Prop} (h0 : I s0)
    (hstep : ∀ {s a s'}, I s → step s a = some s' → I s') : I s := by
  induction h with
  | nil => exact h0
  | snoc _ hs ih => exact hstep ih hs

/-- A run that ends in a state with a decidable property, by evaluation. -/
theorem exists_run (step : S → A → Option S) (s0 : S) (as : List A) {Q : S → Prop} [DecidablePred Q]
    (h : (exec step s0 as).any (fun s => decide (Q s)) = true) : ∃ s, Run step s0 as s ∧ Q s := by
  cases hs : exec step s0 as with
  | none => simp [hs] at h
  | some s =>
    rw [hs] at h
    exact ⟨s, run_iff_exec.mpr hs, of_decide_eq_true h⟩

/-- A run and its next step, by evaluation. -/
theorem exists_run_step (step : S → A → Option S) (s0 : S) (as : List A) (a : A) {Q : S → S → Prop}
    [∀ s s', Decidable (Q s s')]
    (h : (exec step s0 as).any (fun s => (step s a).any fun s' => decide (Q s s')) = true) :
    ∃ s s', Run step s0 as s ∧ step s a = some s' ∧ Q s s' := by
  obtain ⟨s, hr, hs⟩ := exists_run step s0 as (Q := fun s => (step s a).any (fun s' => decide (Q s s')) = true)
    (by simpa using h)
  cases hs' : step s a with
  | none => simp [hs'] at hs
  | some s' =>
    rw [hs'] at hs
    exact ⟨s, s', hr, hs', of_decide_eq_true hs⟩

/-- A run of a system is a run of any system that has its steps. -/
theorem Run.mono {step' : S → A → Option S} (h : Run step s0 as s)
    (hs : ∀ {s a s'}, step s a = some s' → step' s a = some s') : Run step' s0 as s := by
  induction h with
  | nil => exact .nil
  | snoc _ h ih => exact .snoc ih (hs h)

/-- Nothing follows a state without steps. -/
theorem Run.stuck {s1 : S} (h1 : Run step s0 as s1) (h : Run step s0 (as ++ bs) s)
    (hs : ∀ a, step s1 a = none) : bs = [] ∧ s = s1 := by
  rw [run_iff_exec] at h1 h
  rw [exec_append, h1, Option.bind_some] at h
  cases bs with
  | nil => cases h; exact ⟨rfl, rfl⟩
  | cons b bs => simp [exec, hs] at h

/-- The part of a run before its last actions. -/
theorem Run.of_append (h : Run step s0 (as ++ bs) s) :
    ∃ s1, Run step s0 as s1 ∧ exec step s1 bs = some s := by
  rw [run_iff_exec, exec_append] at h
  obtain ⟨s1, h1, h2⟩ := Option.bind_eq_some_iff.mp h
  exact ⟨s1, run_iff_exec.mpr h1, h2⟩

/-! ## What the steps report -/

variable {E : Type} {label : S → A → Option E}

/-- What the steps of some actions report, in order. -/
def labels (step : S → A → Option S) (label : S → A → Option E) : S → List A → List E
  | _, [] => []
  | s, a :: as => (label s a).toList ++
    match step s a with
    | some s' => labels step label s' as
    | none => []

theorem Run.labels_snoc (h : Run step s0 as s) (a : A) :
    labels step label s0 (as ++ [a]) = labels step label s0 as ++ (label s a).toList := by
  rw [run_iff_exec] at h
  induction as generalizing s0 with
  | nil =>
    cases h
    simp only [List.nil_append, labels]
    cases step s a <;> simp
  | cons b as ih =>
    obtain ⟨s1, h1, h2⟩ := Option.bind_eq_some_iff.mp h
    simp only [List.cons_append, labels, h1, ih h2, List.append_assoc]

/-- An invariant of the state and of what has been reported so far. -/
theorem Run.labels_invariant (h : Run step s0 as s) {I : List E → S → Prop}
    (h0 : I [] s0)
    (hstep : ∀ {as s a s'}, Run step s0 as s → I (labels step label s0 as) s → step s a = some s' →
      I (labels step label s0 as ++ (label s a).toList) s') : I (labels step label s0 as) s := by
  induction h with
  | nil => exact h0
  | snoc hr hs ih =>
    rw [hr.labels_snoc]
    exact hstep hr ih hs

/-! ## The place of one party -/

section

variable {P X : Type*} [DecidableEq P] {pc : P → X} {p q : P} {x y : X}

theorem of_update {pc' : P → X} (h : pc' = update pc p x) : pc' p = x ∧ ∀ {q}, q ≠ p → pc' q = pc q :=
  ⟨h ▸ update_self .., fun hq => h ▸ update_of_ne hq ..⟩

theorem update_eq_cases (h : update pc p x q = y) : q = p ∧ x = y ∨ q ≠ p ∧ pc q = y := by
  by_cases hq : q = p
  · subst hq
    exact .inl ⟨rfl, (update_self ..).symm.trans h⟩
  · exact .inr ⟨hq, (update_of_ne hq ..).symm.trans h⟩

theorem update_eq_of_ne (h : update pc p x q = y) (hxy : x ≠ y) : pc q = y :=
  (update_eq_cases h).elim (fun e => absurd e.2 hxy) And.right

theorem update_eq_iff (h : x = y ↔ pc p = y) : update pc p x q = y ↔ pc q = y := by
  rw [update_apply]
  split
  · next hq => rw [hq, h]
  · exact Iff.rfl

end

end Xv6.Framework
