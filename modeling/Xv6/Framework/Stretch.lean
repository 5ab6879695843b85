import Xv6.Framework.Run

/-!
# Since when something holds

In a run that ends in a state with property `P` there is a last moment at
which `P` began to hold. `Stretch step s0 P as1 s1 as s` says that this was
in state `s1`, after the actions `as1`, and that `P` has held through the
actions `as` since, up to `s`. Facts about a stretch are proved by induction on
it, from what holds at its start and what a step within it preserves.

`Along step R s as` says that the steps of the actions `as` from `s` are
all in the relation `R`.
-/

namespace Xv6.Framework

variable {S A : Type} {step : S → A → Option S} {s0 s1 s : S} {P : S → Prop} {as1 as : List A}

inductive Stretch (step : S → A → Option S) (s0 : S) (P : S → Prop) (as1 : List A) (s1 : S) : List A → S → Prop
  | start : Run step s0 as1 s1 → P s1 → (∀ bs a t, as1 = bs ++ [a] → Run step s0 bs t → ¬P t) →
    Stretch step s0 P as1 s1 [] s1
  | stay {as : List A} {a : A} {s s' : S} : Stretch step s0 P as1 s1 as s → step s a = some s' → P s' →
    Stretch step s0 P as1 s1 (as ++ [a]) s'

namespace Stretch

theorem run (h : Stretch step s0 P as1 s1 as s) : Run step s0 (as1 ++ as) s := by
  induction h with
  | start h => simpa using h
  | stay _ hs _ ih =>
    rw [← List.append_assoc]
    exact ih.snoc hs

theorem holds (h : Stretch step s0 P as1 s1 as s) : P s := by
  cases h with
  | start _ hP | stay _ _ hP => exact hP

theorem run_start (h : Stretch step s0 P as1 s1 as s) : Run step s0 as1 s1 := by
  induction h with
  | start h => exact h
  | stay _ _ _ ih => exact ih

end Stretch

/-- What holds at the end of a run holds since some moment of it. -/
theorem Run.exists_stretch (h : Run step s0 as s) (hP : P s) :
    ∃ as1 s1 as2, as = as1 ++ as2 ∧ Stretch step s0 P as1 s1 as2 s := by
  induction h with
  | nil => exact ⟨[], s0, [], rfl, .start .nil hP (fun bs a t h => by simp at h)⟩
  | @snoc as a s s' hr hs ih =>
    by_cases hPs : P s
    · obtain ⟨as1, s1, as2, rfl, hst⟩ := ih hPs
      exact ⟨as1, s1, as2 ++ [a], by simp, hst.stay hs hP⟩
    · refine ⟨as ++ [a], s', [], by simp, .start (hr.snoc hs) hP fun bs a' t he ht => ?_⟩
      obtain ⟨rfl, -⟩ := List.append_inj' he rfl
      rwa [ht.unique hr]

/-! ## Relations along an execution -/

def Along (step : S → A → Option S) (R : S → S → Prop) : S → List A → Prop
  | _, [] => True
  | s, a :: as =>
    match step s a with
    | none => True
    | some s' => R s s' ∧ Along step R s' as

instance Along.decidable (step : S → A → Option S) (R : S → S → Prop) [∀ s s', Decidable (R s s')] :
    ∀ s as, Decidable (Along step R s as)
  | _, [] => isTrue trivial
  | s, a :: as => by
    unfold Along
    cases step s a with
    | none => exact isTrue trivial
    | some s' =>
      have := Along.decidable step R s' as
      infer_instance

theorem along_snoc {R : S → S → Prop} {a : A} {s' : S} (h : exec step s1 as = some s) (hs : step s a = some s') :
    Along step R s1 (as ++ [a]) ↔ Along step R s1 as ∧ R s s' := by
  induction as generalizing s1 with
  | nil =>
    cases h
    simp [Along, hs]
  | cons b as ih =>
    obtain ⟨t, ht, h⟩ := Option.bind_eq_some_iff.mp h
    simp [Along, ht, ih h, and_assoc]

theorem Stretch.exec (h : Stretch step s0 P as1 s1 as s) : exec step s1 as = some s := by
  obtain ⟨t, ht, hx⟩ := h.run.of_append
  rwa [ht.unique h.run_start] at hx

/-- A stretch goes on as long as the property holds. -/
theorem Stretch.of_along (h : Stretch step s0 P as1 s1 [] s1) (hs : Framework.exec step s1 as = some s)
    (hall : Along step (fun _ t => P t) s1 as) : Stretch step s0 P as1 s1 as s := by
  induction as using List.reverseRecOn generalizing s with
  | nil =>
    cases hs
    exact h
  | append_singleton as a ih =>
    rw [exec_append] at hs
    obtain ⟨t, ht, hs⟩ := Option.bind_eq_some_iff.mp hs
    have hs : step t a = some s := by simpa [Framework.exec] using hs
    obtain ⟨hall, hP⟩ := (along_snoc ht hs).mp hall
    exact (ih ht hall).stay hs hP

/-- A stretch that the action `a` begins, by evaluation. -/
theorem exists_stretch_step (step : S → A → Option S) (s0 : S) (as1 : List A) (a : A) (as : List A)
    {Q : S → S → Prop} [DecidablePred P] [∀ s s', Decidable (Q s s')]
    (h : (exec step s0 as1).any (fun t => (step t a).any fun s1 => (exec step s1 as).any fun s =>
      decide (¬P t ∧ P s1 ∧ Along step (fun _ t => P t) s1 as ∧ Q s1 s)) = true) :
    ∃ s1 s, Stretch step s0 P (as1 ++ [a]) s1 as s ∧ Q s1 s := by
  simp only [Option.any_eq_true, decide_eq_true_eq] at h
  obtain ⟨t, ht, s1, hs1, s, hs, hPt, hP, hall, hQ⟩ := h
  have ht := run_iff_exec.mpr ht
  refine ⟨s1, s, .of_along (.start (ht.snoc hs1) hP fun bs a' t' he ht' => ?_) hs hall, hQ⟩
  obtain ⟨rfl, -⟩ := List.append_inj' he rfl
  rwa [ht'.unique ht]

end Xv6.Framework
