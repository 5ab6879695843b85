import Xv6.Proc.Family

/-!
# The tree of processes

The parent pointers of `kernel/proc.c` lead from every process to the first one
(`process_tree`), also while `exit` hands its children on one by one: in every
state the slots have ranks that fall from a process to its parent.
-/

namespace Xv6.Machine

open Framework Function

variable {n : Nat} {b : Build} {s s' : State n}

/-- The parent pointers lead from a slot to the first process. -/
inductive Descends (proc : Slot → Proc) : Slot → Prop
  | init : Descends proc initproc
  | child {j q : Slot} : (proc j).parent = some q → Descends proc q → Descends proc j

def Ranked (proc : Slot → Proc) : Prop :=
  ∃ rank : Slot → Nat, rank initproc = 0 ∧ ∀ j q, (proc j).parent = some q → rank q < rank j

theorem ranked_step (hi : Family s) (he : Exclusive s) (hr : Ranked s.proc) (h : Step b s a ev s') : Ranked s'.proc := by
  obtain ⟨rank, h0, hr⟩ := hr
  have keep {k : Slot} {p : Proc} (hp : s'.proc = update s.proc k p) (h : ∀ q, p.parent = some q → rank q < rank k) :
      Ranked s'.proc := by
    refine ⟨rank, h0, fun j q hj => ?_⟩
    rw [hp, update_apply] at hj
    split at hj
    · next e => exact e ▸ h q hj
    · exact hr j q hj
  cases h with
  | @forkParent _ i np _ hon hpc =>
    -- the child is nobody's parent yet
    have hu : (s.proc np).state = .used := he.child (i := i) (by rw [hpc]; rfl)
    have hne {q : Slot} (hq : Alive (s.proc q)) : q ≠ np := by rintro rfl; simp [Alive, hu] at hq
    refine ⟨update rank np (rank i + 1), by rw [update_of_ne (hne hi.init), h0], fun j q hj => ?_⟩
    simp only [State.setPc, State.setProc] at hj
    by_cases e : j = np
    · subst e
      rw [update_self] at hj ⊢
      obtain rfl := Option.some.inj hj
      rw [update_of_ne (hne (he.alive hon.cproc))]
      exact Nat.lt_succ_self _
    · rw [update_of_ne e] at hj ⊢
      rw [update_of_ne (hne (hi.parentAlive hj))]
      exact hr j q hj
  | reparentChild _ _ hp =>
    refine keep rfl fun q hq => ?_
    obtain rfl := Option.some.inj hq
    rw [h0]
    exact Nat.zero_lt_of_lt (hr _ _ hp)
  | waitReap => exact keep rfl (by simp [Proc.freeproc])
  | forkFail _ _ _ hp => exact keep rfl (by rcases hp with rfl | rfl <;> simp [Proc.freeproc])
  | preempt _ _ hp => exact keep rfl (by rcases hp with ⟨-, rfl⟩ | ⟨-, -, rfl⟩ <;> exact hr _)
  | priv _ _ hq => exact keep rfl (by cases hq <;> exact hr _)
  | reparentWakeup | exitWakeup => exact keep rfl (by split <;> exact hr _)
  | scan | timer | tick | updateTimeDone | wakeupTicksDone | call | goto | waitLock | waitFail => exact ⟨rank, h0, hr⟩
  | _ => exact keep rfl (hr _)

/-- In every state that the processes reach, the first process has no parent, and
the parent pointers lead to it from every process that is not being created. -/
theorem process_tree {as : List (Act n)} (h : Run (step b) (boot b n) as s) :
    (s.proc initproc).parent = none ∧
      ∀ i, Alive (s.proc i) ∨ (s.proc i).state = .zombie → Descends s.proc i := by
  have hboot : Ranked (boot b n).proc := ⟨fun _ => 0, rfl, fun j q hj => by
    simp only [boot, update_apply] at hj
    split at hj <;> cases hj⟩
  obtain ⟨-, hi, rank, h0, hr⟩ := h.invariant (I := fun s => Exclusive s ∧ Family s ∧ Ranked s.proc)
    ⟨exclusive_boot, family_boot, hboot⟩ fun hi hs =>
    have h := step_cases hs
    ⟨exclusive_step hi.1 h, family_step hi.2.1 hi.1 h, ranked_step hi.2.1 hi.1 hi.2.2 h⟩
  refine ⟨Option.eq_none_iff_forall_ne_some.mpr fun q hq => ?_, fun i hst => ?_⟩
  · exact Nat.not_lt_zero _ (h0 ▸ hr _ _ hq)
  · induction hk : rank i using Nat.strong_induction_on generalizing i with
    | _ k ih =>
      by_cases e : i = initproc
      · exact e ▸ .init
      · obtain ⟨q, hq⟩ := hi.hasParent e hst
        exact .child hq (ih _ (hk ▸ hr i q hq) q (.inl (hi.parentAlive hq)) rfl)

/-- The first process has a child. -/
theorem process_tree_parentWaits : ∃ s : State 1, Run (step .RR) (boot .RR 1) parentWaits s ∧
    (s.proc 1).parent = some 0 ∧ Descends s.proc 1 := by
  obtain ⟨s, hr, hp, hst⟩ := exists_run (step .RR) (boot .RR 1) parentWaits
    (Q := fun s => (s.proc 1).parent = some 0 ∧ (s.proc 1).state = .runnable) (by decide +kernel)
  exact ⟨s, hr, hp, (process_tree hr).2 1 (.inl (.inr (.inl hst)))⟩

end Xv6.Machine
