import Xv6.Proc.Mlfq

/-!
# How long a process waits before it is promoted

The ageing pass of MLFQ compares `ticks` with `last_qtime`, which is not
set when a process is woken up. `promoted_waited` says how long a process
has waited in its queue when it is promoted: `MAXAGE` ticks, less those by which
`last_qtime` was out of date when it entered the queue.
-/

namespace Xv6.Machine

open Framework Function

variable {n : Nat} {s s' : State n} {a : Act n} {as as₁ : List (Act n)} {s₁ : State n} {ev : Option Event} {i : Slot}
  {q : Word}

/-- Process `i` is `RUNNABLE` in queue `q`. -/
def Waits (i : Slot) (q : Word) (s : State n) : Prop := (s.proc i).state = .runnable ∧ (s.proc i).queue = q

instance (i : Slot) (q : Word) (s : State n) : Decidable (Waits i q s) := inferInstanceAs (Decidable (_ ∧ _))

/-- A process that waits keeps its stamp. -/
theorem waits_step (he : Exclusive s) (hs : Step .MLFQ s a ev s') (hw : Waits i q s) (hw' : Waits i q s') :
    (s'.proc i).lastQtime = (s.proc i).lastQtime := by
  have other : ∀ {st : ProcState}, (s.proc i).state = st → st ≠ .runnable → False := fun h hne =>
    hne (h.symm.trans hw.1)
  cases change_step he hs i with
  | same h => exact h.lastQtime
  | age _ _ hages h =>
    have hq := age_queue hages
    rw [← h, hw'.2, hw.2] at hq
    omega
  | dispatch _ _ _ _ h =>
    have hst := hw'.1
    rw [h] at hst
    cases hst
  | demote _ _ _ _ hon | sleep _ _ hon | exit _ _ hon => exact (other (he.running hon.cproc) nofun).elim
  | yield _ _ hc => exact (other (he.running hc) nofun).elim
  | wake hst | kill hst | create _ hst | createFail hst | adopt _ hst | ready hst | reap hst =>
    exact (other hst nofun).elim
  | reset _ h => rw [h]; rfl

theorem waits_lastQtime (h : Stretch (step .MLFQ) (boot .MLFQ n) (Waits i q) as₁ s₁ as s) :
    (s.proc i).lastQtime = (s₁.proc i).lastQtime := by
  induction h with
  | start => rfl
  | stay hst hs hw' ih => rw [waits_step (exclusive_run hst.run) (step_cases hs) hst.holds hw', ih]

/-- A scheduler moves a process to another queue in the ageing pass only. -/
theorem sched_queue {b : Build} {c : Fin n} (hs : Step b s (.sched c) ev s')
    (hq : (s'.proc i).queue ≠ (s.proc i).queue) : (s.proc i).Ages s.ticks := by
  cases hs with
  | scan => exact absurd rfl hq
  | @age _ k =>
    by_cases hk : i = k
    · subst hk
      simp only [State.setSched, State.setProc, update_self, Proc.age] at hq
      by_contra hages
      exact hq (if_neg hages)
    · exact absurd (by simp only [State.setSched, State.setProc, update_of_ne hk]) hq
  | @dispatch _ k =>
    by_cases hk : i = k
    · subst hk
      exact absurd (by simp only [State.setSched, State.dispatch, update_self, Proc.dispatch]) hq
    · exact absurd (by simp only [State.setSched, State.dispatch, update_of_ne hk]) hq

/-- A process that a scheduler promotes has been `RUNNABLE` in its queue for
more than `MAXAGE` ticks, counted from the stamp it had when it entered; so if
that was the tick it entered at, it has waited that long. -/
theorem promoted_waited {c : Fin n} (h : Run (step .MLFQ) (boot .MLFQ n) as s)
    (hs : step .MLFQ s (.sched c) = some s') (hq : (s'.proc i).queue.toNat < (s.proc i).queue.toNat) :
    ∃ as₁ s₁ as₂, as = as₁ ++ as₂ ∧ Stretch (step .MLFQ) (boot .MLFQ n) (Waits i (s.proc i).queue) as₁ s₁ as₂ s ∧
      MAXAGE < ticksIn as₂ + (s₁.ticks - (s₁.proc i).lastQtime).toNat ∧
      ((s₁.proc i).lastQtime = s₁.ticks → MAXAGE < ticksIn as₂) := by
  have hages := sched_queue (step_cases hs) (fun h => by rw [h] at hq; omega)
  obtain ⟨as₁, s₁, as₂, rfl, hst⟩ := h.exists_stretch (P := Waits i (s.proc i).queue) ⟨hages.1, rfl⟩
  have hlong : MAXAGE < ticksIn as₂ + (s₁.ticks - (s₁.proc i).lastQtime).toNat := by
    have hage := hages.2.2
    rw [waits_lastQtime hst, ticks_append hst.run_start h] at hage
    have hsub : s₁.ticks + BitVec.ofNat 32 (ticksIn as₂) - (s₁.proc i).lastQtime =
        BitVec.ofNat 32 (ticksIn as₂) + (s₁.ticks - (s₁.proc i).lastQtime) := by bv_omega
    simp only [hsub, BitVec.ult, BitVec.toNat_add, BitVec.toNat_ofNat, decide_eq_true_eq] at hage
    exact Nat.lt_of_lt_of_le hage (by omega)
  refine ⟨as₁, s₁, as₂, rfl, hst, hlong, fun hstamp => ?_⟩
  rw [hstamp, BitVec.sub_self] at hlong
  exact hlong

/-- `k` ticks of the clock, each to its end. -/
def wholeTicks (k : Nat) : List (Act 1) := (List.replicate k (.tick :: List.replicate 130 .clock)).flatten

/-- The first process falls to queue 1, and waits there for 16 ticks. -/
def longWait : List (Act 1) :=
  schedule ++ [.tick, .timer 0 true, .yield 0] ++ List.replicate 130 .clock ++ wholeTicks 16

theorem promoted_waited_longWait : ∃ s s' : State 1, Run (step .MLFQ) (boot .MLFQ 1) longWait s ∧
    step .MLFQ s (.sched 0) = some s' ∧ (s.proc initproc).queue = 1 ∧ (s'.proc initproc).queue = 0 ∧
    ∃ as₁ s₁ as₂, longWait = as₁ ++ as₂ ∧
      Stretch (step .MLFQ) (boot .MLFQ 1) (Waits initproc (s.proc initproc).queue) as₁ s₁ as₂ s ∧
      MAXAGE < ticksIn as₂ + (s₁.ticks - (s₁.proc initproc).lastQtime).toNat ∧
      ((s₁.proc initproc).lastQtime = s₁.ticks → MAXAGE < ticksIn as₂) := by
  obtain ⟨s, s', hr, hs, hq, hq'⟩ := exists_run_step (step .MLFQ) (boot .MLFQ 1) longWait (.sched 0)
    (Q := fun s s' => (s.proc initproc).queue = 1 ∧ (s'.proc initproc).queue = 0) (by decide +kernel)
  exact ⟨s, s', hr, hs, hq, hq', promoted_waited hr hs (by rw [hq, hq']; decide)⟩

/-- The first process runs in queue 1, sleeps for 16 ticks and is woken up. -/
def longSleep : List (Act 1) :=
  firstDemoted ++ [.run 0 (.sleep (.other 0))] ++ List.replicate 130 .clock ++ wholeTicks 16

/-- It is promoted at once, when it has been `RUNNABLE` for no tick. -/
theorem promoted_unwaited : ∃ s s' : State 1,
    Stretch (step .MLFQ) (boot .MLFQ 1) (Waits initproc 1) (longSleep ++ [.wakeup initproc (.other 0)]) s [] s ∧
    step .MLFQ s (.sched 0) = some s' ∧ (s.proc initproc).queue = 1 ∧ (s'.proc initproc).queue = 0 := by
  obtain ⟨t, ht, hst⟩ := exists_run (step .MLFQ) (boot .MLFQ 1) longSleep
    (Q := fun s => (s.proc initproc).state = .sleeping) (by decide +kernel)
  obtain ⟨s, s', hr, hs, hw, hq'⟩ := exists_run_step (step .MLFQ) (boot .MLFQ 1)
    (longSleep ++ [.wakeup initproc (.other 0)]) (.sched 0)
    (Q := fun s s' => Waits initproc 1 s ∧ (s'.proc initproc).queue = 0) (by decide +kernel)
  refine ⟨s, s', .start hr hw fun bs a u he hu hwu => ?_, hs, hw.2, hq'⟩
  obtain ⟨rfl, -⟩ := List.append_inj' he rfl
  rw [hu.unique ht] at hwu
  exact nomatch hst.symm.trans hwu.1

end Xv6.Machine
