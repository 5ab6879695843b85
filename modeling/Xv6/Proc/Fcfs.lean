import Xv6.Proc.Change

/-!
# FCFS does not preempt

In FCFS the trap handlers do not call `yield`, but `setpriority` does, with
any scheduler: when the call lowers the dynamic priority of the process it
finds, the caller gives up its CPU. `fcfs_keeps_iff` says that this is the
only way for a process to leave its CPU other than to sleep or to exit.
-/

namespace Xv6.Machine

open Framework

variable {n : Nat} {s s' : State n} {a : Act n} {i : Slot} {b : Build}

/-- How a process leaves its CPU. -/
theorem leaves_running {ev : Option Event} (he : Exclusive s) (hs : Step b s a ev s')
    (hr : (s.proc i).state = .running) (hr' : (s'.proc i).state ≠ .running) :
    (s'.proc i).state = .sleeping ∨ (s'.proc i).state = .zombie ∨ s.yielding i = true := by
  have other : ∀ {st : ProcState}, (s.proc i).state = st → st ≠ .running → False := fun h hne => hne (h.symm.trans hr)
  cases change_step he hs i with
  | same h => exact absurd (h.state.trans hr) hr'
  | age _ _ hages => exact (other hages.1 nofun).elim
  | dispatch _ _ _ hst | wake hst | kill hst | create _ hst | createFail hst | adopt _ hst | ready hst | reap hst =>
    exact (other hst nofun).elim
  | demote _ _ _ _ _ _ h | reset _ h => exact absurd (by rw [h]; exact hr) hr'
  | yield _ _ _ hy => exact .inr (.inr hy)
  | sleep _ _ _ h => exact .inl (by rw [h]; rfl)
  | exit _ _ _ h => exact .inr (.inl (by rw [h]; rfl))

/-- In FCFS a process that is about to yield has called `setpriority`. -/
theorem fcfs_yielding {as : List (Act n)} (h : Run (step .FCFS) (boot .FCFS n) as s) (hy : s.yielding i = true) :
    ∃ as1 a as2 s1, as = as1 ++ a :: as2 ∧ Run (step .FCFS) (boot .FCFS n) as1 s1 ∧ Lowers s1 a i := by
  induction h with
  | nil => cases hy
  | @snoc as a s s' hr hs ih =>
    rcases yielding_step (step_cases hs) hy with hy | hl | ⟨_, _, -, -, hb | hb⟩
    · obtain ⟨as1, a1, as2, s1, rfl, h1, hl⟩ := ih hy
      exact ⟨as1, a1, as2 ++ [a], s1, by simp, h1, hl⟩
    · exact ⟨as, a, [], s, rfl, hr, hl⟩
    · cases hb
    · cases hb

/-- After such a call the process can yield. -/
theorem lowers_yield (he : Exclusive s) (hs : step b s a = some s') (hl : Lowers s a i) :
    (s'.proc i).state = .running ∧ ∃ c s'', step b s' (.yield c) = some s'' ∧ (s''.proc i).state = .runnable := by
  obtain ⟨c, op, priority, pid, k, rfl, hon, hpc, hpid, hlt⟩ := hl
  have hs := procStep_of_run hs hon.cproc
  cases op <;> simp only [procStep, hpc, reduceCtorEq] at hs
  simp only [setpriorityStep, k.isLt, hpid, dif_pos, if_true, Option.some.injEq, Fin.eta] at hs
  have hyield : s'.yielding i = true := by
    rw [← hs]
    simpa only [Function.update_self] using hlt
  have hc : s'.cproc c = some i := by
    rw [← hs]
    exact hon.cproc
  have hrun : (s'.proc i).state = .running := by
    rw [← hs]
    simp only [State.setPc, State.setProc, Function.update_apply]
    split
    · rename_i hk
      rw [← hk]
      exact he.running hon.cproc
    · exact he.running hon.cproc
  refine ⟨hrun, c, yieldStep s' c i, by simp only [step, hc, hyield, if_true], ?_⟩
  simp [yieldStep, State.off, State.setProc]

/-- In the runs of FCFS, no process that is `RUNNING` stops running other than
to sleep or to exit, in the run or at its next step, exactly if no call of
`setpriority` in the run lowers the dynamic priority of the process it finds. -/
theorem fcfs_keeps_iff {as : List (Act n)} (h : Run (step .FCFS) (boot .FCFS n) as s) :
    (∀ as₁ as₂ s₁ a s₂ i, as = as₁ ++ as₂ → Run (step .FCFS) (boot .FCFS n) as₁ s₁ → step .FCFS s₁ a = some s₂ →
        (s₁.proc i).state = .running → (s₂.proc i).state ≠ .running →
        (s₂.proc i).state = .sleeping ∨ (s₂.proc i).state = .zombie) ↔
      ∀ as₁ a as₂ s₁ i, as = as₁ ++ a :: as₂ → Run (step .FCFS) (boot .FCFS n) as₁ s₁ → ¬Lowers s₁ a i := by
  constructor
  · rintro hkeep as₁ a as₂ s₁ i rfl h1 hl
    obtain ⟨s1', h1', hx⟩ := h.of_append
    obtain rfl := h1.unique h1'
    obtain ⟨s₂, hs, -⟩ := Option.bind_eq_some_iff.mp hx
    obtain ⟨hrun, c, s3, hy, hst⟩ := lowers_yield (exclusive_run h1) hs hl
    have := hkeep (as₁ ++ [a]) as₂ s₂ (.yield c) s3 i (by simp) (h1.snoc hs) hy hrun (by rw [hst]; decide)
    rw [hst] at this
    exact this.elim nofun nofun
  · rintro hno as₁ as₂ s₁ a s₂ i rfl h1 hs hr hr'
    rcases leaves_running (exclusive_run h1) (step_cases hs) hr hr' with hst | hst | hy
    · exact .inl hst
    · exact .inr hst
    · obtain ⟨bs, a', cs, t, rfl, ht, hl⟩ := fcfs_yielding h1 hy
      exact absurd hl (hno bs a' (cs ++ as₂) t i (by simp) ht)

/-- CPU 0 switches to the first process, with FCFS. -/
def fcfsStart : List (Act 1) := List.replicate 66 (.sched 0)

theorem fcfs_keeps_iff_start : ∃ s : State 1, Run (step .FCFS) (boot .FCFS 1) fcfsStart s ∧
    (s.proc initproc).state = .running ∧
    ((∀ as₁ as₂ s₁ a s₂ i, fcfsStart = as₁ ++ as₂ → Run (step .FCFS) (boot .FCFS 1) as₁ s₁ →
        step .FCFS s₁ a = some s₂ → (s₁.proc i).state = .running → (s₂.proc i).state ≠ .running →
        (s₂.proc i).state = .sleeping ∨ (s₂.proc i).state = .zombie) ↔
      ∀ as₁ a as₂ s₁ i, fcfsStart = as₁ ++ a :: as₂ → Run (step .FCFS) (boot .FCFS 1) as₁ s₁ → ¬Lowers s₁ a i) := by
  obtain ⟨s, hr, hq⟩ := exists_run (step .FCFS) (boot .FCFS 1) fcfsStart
    (Q := fun s => (s.proc initproc).state = .running) (by decide +kernel)
  exact ⟨s, hr, hq, fcfs_keeps_iff hr⟩

/-- The first process calls `setpriority(10, 1)`, on itself, and yields. -/
theorem fcfs_preempts : ∃ s s' : State 1,
    Run (step .FCFS) (boot .FCFS 1) (fcfsStart ++ [.run 0 (.setpriority 10 1), .run 0 (.next true true)]) s ∧
    step .FCFS s (.yield 0) = some s' ∧
    (s.proc initproc).state = .running ∧ (s'.proc initproc).state = .runnable := by
  exact exists_run_step (step .FCFS) (boot .FCFS 1) _ _
    (Q := fun s s' => (s.proc initproc).state = .running ∧ (s'.proc initproc).state = .runnable) (by decide +kernel)

end Xv6.Machine
