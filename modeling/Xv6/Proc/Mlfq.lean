import Xv6.Framework.Stretch
import Xv6.Proc.Change

/-!
# The queues of MLFQ

When a process moves between the queues of MLFQ, and how long it has run
when a timer trap takes its CPU away. The time a process runs for is a
`Stretch` of the run in which it is `RUNNING`; its first state is the one after
the dispatch. `mlfq_discipline` puts together what holds in every run.
-/

namespace Xv6

/-- How a trap handler goes on after a timer interrupt, and the process then. -/
inductive TrapResult
  | ret (p : Proc)
  | yield (p : Proc)
  | exit

/-- `usertrap` of a process, after a timer interrupt. -/
def usertrapTimer (b : Build) (ticks : Word) (p : Proc) : TrapResult :=
  if p.killed then .exit
  else match b with
  | .RR => .yield p
  | .MLFQ => if p.SliceOver ticks then .yield (p.demote ticks) else .ret p
  | .FCFS | .PBS => .ret p

/-- `kerneltrap` in the thread of a process, after a timer interrupt. -/
def kerneltrapTimer (b : Build) (ticks : Word) (p : Proc) : TrapResult :=
  match b with
  | .RR => if p.state = .running then .yield p else .ret p
  | .MLFQ =>
    if p.state = .running then
      if p.SliceOver ticks then .yield (p.demote ticks) else .ret p
    else .ret p
  | .FCFS | .PBS => .ret p

variable {p : Proc}

theorem usertrapTimer_eq (b : Build) (ticks : Word) (hr : p.state = .running) (hk : p.killed = false) :
    usertrapTimer b ticks p = kerneltrapTimer b ticks p := by
  cases b <;> simp [usertrapTimer, kerneltrapTimer, hr, hk]

namespace Machine

open Framework Function

variable {n : Nat} {b : Build} {s s' s1 : State n} {a : Act n} {as as1 : List (Act n)} {ev : Option Event} {i : Slot}
  {ticks : Word}

/-! ## Bounds -/

theorem slt_four {q : Word} (h : q.toNat < NPQ) : BitVec.slt q 4 = decide (q.toNat < 4) := by
  have h : q.toNat < 5 := h
  have hq : q.toInt = q.toNat := BitVec.toInt_eq_toNat_of_lt (by omega)
  simp only [BitVec.slt, hq, BitVec.reduceToInt, decide_eq_decide]
  omega

/-- The last queue is not left downwards. -/
theorem demote_queue (h : p.queue.toNat < NPQ) :
    (p.demote ticks).queue = if p.queue.toNat < 4 then p.queue + 1 else p.queue := by
  simp only [Proc.demote, slt_four h, decide_eq_true_eq]

theorem age_queue (h : p.Ages ticks) : (p.age ticks).queue.toNat + 1 = p.queue.toNat := by
  have hne : p.queue ≠ 0 := h.2.1
  simp only [Proc.age, if_pos h]
  bv_omega

theorem queue_step (hq : ∀ i, (s.proc i).queue.toNat < NPQ) (he : Exclusive s) (hs : Step b s a ev s') (i : Slot) :
    (s'.proc i).queue.toNat < NPQ := by
  cases change_step he hs i with
  | same h => exact h.queue ▸ hq i
  | age _ _ hages h =>
    have := age_queue hages
    have := hq i
    rw [h]
    omega
  | demote _ _ _ _ _ _ h =>
    have hi : (s.proc i).queue.toNat < 5 := hq i
    rw [h, demote_queue hi]
    by_cases h4 : (s.proc i).queue.toNat < 4
    · rw [if_pos h4]
      exact (by bv_omega : ((s.proc i).queue + 1).toNat < 5)
    · rw [if_neg h4]
      exact hi
  | create _ _ h =>
    rw [h]
    exact Nat.zero_lt_succ _
  | createFail _ h =>
    rcases h with h | h <;> rw [h]
    · exact hq i
    · exact Nat.zero_lt_succ _
  | adopt p _ h =>
    rw [h]
    exact hq p
  | dispatch _ _ _ _ h | yield _ _ _ _ h | sleep _ _ _ h | wake _ h | kill _ h | ready _ h | exit _ _ _ h | reap _ h
  | reset _ h =>
    rw [h]
    exact hq i

theorem queue_run (h : Run (step b) (boot b n) as s) (i : Slot) : (s.proc i).queue.toNat < NPQ := by
  induction h generalizing i with
  | nil =>
    simp only [boot, update_apply]
    split <;> exact Nat.zero_lt_succ _
  | snoc hr hs ih => exact queue_step ih (exclusive_run hr) (step_cases hs) i

/-- What a step does to `last_qtime`. -/
theorem lastQtime_step (he : Exclusive s) (hs : Step b s a ev s') (i : Slot) :
    (s'.proc i).lastQtime = (s.proc i).lastQtime ∨ (s'.proc i).lastQtime = s.ticks := by
  cases change_step he hs i with
  | same h => exact .inl h.lastQtime
  | age _ _ hages h => exact .inr (by rw [h, Proc.age, if_pos hages, if_pos hages])
  | dispatch _ _ _ _ h =>
    rw [h]
    simp only [Proc.dispatch]
    split
    · exact .inr rfl
    · exact .inl rfl
  | demote _ _ _ _ _ _ h | create _ _ h => exact .inr (by rw [h]; rfl)
  | createFail _ h =>
    rcases h with h | h <;> rw [h]
    · exact .inl rfl
    · exact .inr rfl
  | yield _ _ _ _ h | wake _ h | kill _ h | ready _ h => exact .inl (by rw [h])
  | sleep _ _ _ h | adopt _ _ h | exit _ _ _ h | reap _ h | reset _ h => exact .inl (by rw [h]; rfl)

theorem lastQtime_run (h : Run (step b) (boot b n) as s) (ht : ticksIn as < 2 ^ 32) (i : Slot) :
    (s.proc i).lastQtime.toNat ≤ s.ticks.toNat := by
  induction h with
  | nil =>
    simp only [boot, update_apply]
    split <;> exact Nat.zero_le _
  | @snoc as a s s' hr hs ih =>
    have hle : ticksIn as ≤ ticksIn (as ++ [a]) := by
      rw [ticksIn_snoc]
      exact Nat.le_add_right ..
    have hticks : s.ticks.toNat ≤ s'.ticks.toNat := by
      rw [ticks_toNat hr (by omega), ticks_toNat (hr.snoc hs) ht]
      exact hle
    rcases lastQtime_step (exclusive_run hr) (step_cases hs) i with h | h
    · rw [h]
      exact Nat.le_trans (ih (by omega)) hticks
    · rw [h]
      exact hticks

/-! ## Time slices -/

/-- The ticks between two states of a run. -/
theorem ticks_append {as2 : List (Act n)} (h1 : Run (step b) (boot b n) as1 s1)
    (h : Run (step b) (boot b n) (as1 ++ as2) s) : s.ticks = s1.ticks + BitVec.ofNat 32 (ticksIn as2) := by
  have hsum : ticksIn (as1 ++ as2) = ticksIn as1 + ticksIn as2 := List.countP_append ..
  rw [ticks_run h, ticks_run h1, hsum, BitVec.ofNat_add]

def Running (i : Slot) (s : State n) : Prop := (s.proc i).state = .running

/-- A process starts to run when a scheduler switches to it. -/
theorem running_start (he : Exclusive s) (hs : Step .MLFQ s a ev s') (hr : ¬Running i s) (hr' : Running i s') :
    (s.proc i).state = .runnable ∧ (∃ c, a = .sched c) ∧ (s'.proc i).lastQtime = s.ticks := by
  have other : ∀ st : ProcState, st ≠ .running → (s'.proc i).state ≠ st := fun st hne h => hne (h.symm.trans hr')
  have before : ∀ {c : Fin n}, s.cproc c = some i → False := fun h => hr (he.running h)
  cases change_step he hs i with
  | same h => exact absurd (h.state.symm.trans hr') hr
  | dispatch c _ ha hst h => exact ⟨hst, ⟨c, ha⟩, by rw [h]; rfl⟩
  | age _ _ hages h => exact absurd (by rw [h]; exact hages.1) (other .runnable nofun)
  | demote _ _ _ _ hon | sleep _ _ hon | exit _ _ hon => exact (before hon.cproc).elim
  | yield _ _ hc => exact (before hc).elim
  | wake _ h | kill _ h | ready _ h => exact absurd (by rw [h]) (other .runnable nofun)
  | create _ _ h => exact absurd (by rw [h]; rfl) (other .used nofun)
  | createFail _ h => exact absurd (by rcases h with h | h <;> rw [h] <;> rfl) (other .unused nofun)
  | adopt _ hst h => exact absurd (by rw [h]; exact hst) (other .used nofun)
  | reap _ h => exact absurd (by rw [h]; rfl) (other .unused nofun)
  | reset _ h =>
    rw [Running, h] at hr'
    exact absurd hr' hr

/-- A process that is about to yield does nothing else. -/
theorem yielding_keeps (hs : Step b s a ev s') (hy : s.yielding i = true) :
    s'.yielding i = true ∨ (s'.proc i).state = .runnable := by
  cases hs with
  | @preempt c k user p hon =>
    refine .inl ?_
    simp only [update_apply]
    split
    · rfl
    · exact hy
  | @yield c k =>
    by_cases hk : i = k
    · subst hk
      exact .inr (by simp only [yieldStep, State.off, State.setProc, update_self])
    · exact .inl (by simp only [yieldStep, update_of_ne hk, hy])
  | @setpriority c k j op priority pid hon =>
    refine .inl ?_
    have hk : i ≠ k := by
      rintro rfl
      exact Bool.noConfusion (hon.yielding.symm.trans hy)
    simp only [update_of_ne hk, hy]
  | _ => exact .inl hy

/-- The step is a timer trap that ends the time slice of process `i`. -/
def EndsSlice (s : State n) (a : Act n) (i : Slot) : Prop :=
  ∃ c user, a = .timer c user ∧ On s c i ∧ (s.proc i).SliceOver s.ticks

/-- While a process runs, `last_qtime` is the tick it was switched to, up to
the trap that ends its time slice, after which it yields. -/
theorem lastQtime_stretch (h : Stretch (step .MLFQ) (boot .MLFQ n) (Running i) as1 s1 as s) :
    (s.proc i).lastQtime = s1.ticks ∨ (s.yielding i = true ∧ ∃ bs a cs t, as = bs ++ a :: cs ∧
      Run (step .MLFQ) (boot .MLFQ n) (as1 ++ bs) t ∧ EndsSlice t a i) := by
  induction h with
  | start h hr hbefore =>
    cases h with
    | nil => exact absurd hr (by simp only [Running, boot, update_apply]; split <;> simp [userinit])
    | snoc hr0 hs =>
      obtain ⟨-, ⟨c, rfl⟩, ht⟩ := running_start (exclusive_run hr0) (step_cases hs) (hbefore _ _ _ rfl hr0) hr
      exact .inl (by rw [ht, ticks_step (step_cases hs)]; simp [Act.isTick])
  | @stay as a s s' hst hs hr' ih =>
    have he := exclusive_run hst.run
    have hr : (s.proc i).state = .running := hst.holds
    have other : ∀ {st : ProcState}, (s.proc i).state = st → st ≠ .running → False := fun h hne => hne (h.symm.trans hr)
    have other' : ∀ st : ProcState, st ≠ .running → (s'.proc i).state ≠ st := fun st hne h => hne (h.symm.trans hr')
    rcases ih with ih | ⟨hy, bs, a', cs, t, rfl, ht, hends⟩
    · have keep : (s'.proc i).lastQtime = (s.proc i).lastQtime → (s'.proc i).lastQtime = s1.ticks := (·.trans ih)
      cases change_step he (step_cases hs) i with
      | same h => exact .inl (keep h.lastQtime)
      | reset _ h => exact .inl (keep (by rw [h]; rfl))
      | demote c user ha _ hon hslice _ hy => exact .inr ⟨hy, as, a, [], s, rfl, hst.run, c, user, ha, hon, hslice⟩
      | age _ _ hages => exact (other hages.1 (by simp)).elim
      | dispatch _ _ _ hst | wake hst | kill hst | create _ hst | createFail hst | adopt _ hst | ready hst
      | reap hst => exact (other hst (by simp)).elim
      | yield _ _ _ _ h => exact absurd (by rw [h]) (other' .runnable (by simp))
      | sleep _ _ _ h => exact absurd (by rw [h]; rfl) (other' .sleeping (by simp))
      | exit _ _ _ h => exact absurd (by rw [h]; rfl) (other' .zombie (by simp))
    · refine .inr ⟨?_, bs, a', cs ++ [a], t, by simp, ht, hends⟩
      exact (yielding_keeps (step_cases hs) hy).resolve_right (other' .runnable (by simp))

/-- All that process `i` can do on CPU `c` is to yield. -/
def MustYield (s : State n) (c : Fin n) (i : Slot) : Prop :=
  (∀ op, step .MLFQ s (.run c op) = none) ∧ (∀ user, step .MLFQ s (.timer c user) = none) ∧
    ∃ s', step .MLFQ s (.yield c) = some s' ∧ (s'.proc i).state = .runnable

/-- A trap that ends a time slice always yields. -/
theorem mustYield {c : Fin n} {user : Bool} (he : Exclusive s) (hs : step .MLFQ s (.timer c user) = some s')
    (hon : On s c i) (hslice : (s.proc i).SliceOver s.ticks) : MustYield s' c i := by
  simp only [step, hon.cproc] at hs
  obtain ⟨-, hs⟩ := Option.ite_none_right_eq_some.mp hs
  rw [timerStep, if_pos (.inr (he.running hon.cproc))] at hs
  simp only [if_pos hslice, Option.some.injEq] at hs
  have hc : s'.cproc c = some i := by
    rw [← hs]
    exact hon.cproc
  have hy : s'.yielding i = true := by
    rw [← hs]
    exact update_self ..
  refine ⟨fun op => ?_, fun user => ?_, yieldStep s' c i, ?_, ?_⟩
  · simp only [step, hc, hy, if_true]
  · simp only [step, hc, hy, Bool.true_eq_false, false_and, and_false, if_false]
  · simp only [step, hc, hy, if_true]
  · simp [yieldStep, State.off, State.setProc]

/-- When the time slice of a process in queue `q` ends, it has run for `2 ^ q`
ticks or more. -/
theorem EndsSlice.ran (h : Run (step .MLFQ) (boot .MLFQ n) as s) (hends : EndsSlice s a i) :
    ∃ as1 s1 as2, as = as1 ++ as2 ∧ Stretch (step .MLFQ) (boot .MLFQ n) (Running i) as1 s1 as2 s ∧
      2 ^ (s.proc i).queue.toNat ≤ ticksIn as2 := by
  obtain ⟨c, user, rfl, hon, hslice⟩ := hends
  obtain ⟨as1, s1, as2, rfl, hst⟩ := h.exists_stretch (P := Running i) ((exclusive_run h).running hon.cproc)
  refine ⟨as1, s1, as2, rfl, hst, ?_⟩
  have hq : (s.proc i).queue.toNat < 5 := queue_run h i
  have hpow : (1 <<< (s.proc i).queue.toNat : Word).toNat = 2 ^ (s.proc i).queue.toNat := by
    have : 2 ^ (s.proc i).queue.toNat < 2 ^ 5 := Nat.pow_lt_pow_right (by decide) hq
    rw [Nat.shiftLeft_eq, Nat.one_mul, BitVec.natCast_eq_ofNat, BitVec.toNat_ofNat, Nat.mod_eq_of_lt (by omega)]
  have hlast : (s.proc i).lastQtime = s1.ticks := by
    rcases lastQtime_stretch hst with h | ⟨hy, -⟩
    · exact h
    · exact Bool.noConfusion (hon.yielding.symm.trans hy)
  have hran : (s.ticks - s1.ticks).toNat ≤ ticksIn as2 := by
    rw [ticks_append hst.run_start h, BitVec.add_comm, BitVec.add_sub_cancel, BitVec.toNat_ofNat]
    exact Nat.mod_le ..
  simp only [Proc.SliceOver, BitVec.ule, decide_eq_true_eq, hpow, hlast] at hslice
  exact Nat.le_trans hslice hran

/-! ## Moving between the queues -/

/-- The step writes the queue of a process that `fork` is creating. -/
def ForkWrites (s : State n) (i : Slot) (s' : State n) : Prop :=
  ((s.proc i).state = .unused ∧ (s'.proc i).queue = 0) ∨
    ∃ p, s.pc p = .forkParent i ∧ (s.proc i).state = .used ∧ (s'.proc i).queue = (s.proc p).queue

theorem queue_changes (hq : (s.proc i).queue.toNat < NPQ) (he : Exclusive s) (hs : Step b s a ev s')
    (hne : (s'.proc i).queue ≠ (s.proc i).queue) :
    ForkWrites s i s' ∨
    (EndsSlice s a i ∧ (s'.proc i).queue.toNat = (s.proc i).queue.toNat + 1) ∨
    ((∃ c, a = .sched c ∧ s.sched c = .age i) ∧ (s.proc i).Ages s.ticks ∧ (s'.proc i).queue.toNat + 1 = (s.proc i).queue.toNat) := by
  cases change_step he hs i with
  | same h => exact absurd h.queue hne
  | age c ha hages h hpc => exact .inr (.inr ⟨⟨c, ha, hpc⟩, hages, by rw [h, age_queue hages]⟩)
  | demote c user ha _ hon hslice h =>
    refine .inr (.inl ⟨⟨c, user, ha, hon, hslice⟩, ?_⟩)
    rw [h, demote_queue hq] at hne ⊢
    by_cases h4 : (s.proc i).queue.toNat < 4
    · rw [if_pos h4]
      bv_omega
    · exact absurd (if_neg h4) hne
  | create _ hst h => exact .inl (.inl ⟨hst, by rw [h]; rfl⟩)
  | createFail hst h =>
    rcases h with h | h
    · exact absurd (by rw [h]; rfl) hne
    · exact .inl (.inl ⟨hst, by rw [h]; rfl⟩)
  | adopt p hst h hpc => exact .inl (.inr ⟨p, hpc, hst, by rw [h]; rfl⟩)
  | yield _ _ _ _ h | wake _ h | kill _ h | ready _ h => exact absurd (by rw [h]) hne
  | dispatch _ _ _ _ h | sleep _ _ _ h | exit _ _ _ h | reap _ h | reset _ h => exact absurd (by rw [h]; rfl) hne

/-- The queues and the time slices of MLFQ in the state `s`, which the actions
`as` lead to, and at its next step. -/
structure QueueDiscipline (as : List (Act n)) (s : State n) : Prop where
  range (i : Slot) : (s.proc i).queue.toNat < NPQ ∧ (s.proc i).lastQtime.toNat ≤ s.ticks.toNat
  /-- While a process runs, `last_qtime` is the tick it was switched to, up to
  the trap that ends its time slice. -/
  stamp (i : Slot) (as1 : List (Act n)) (s1 : State n) (as2 : List (Act n)) : as = as1 ++ as2 →
    Stretch (step .MLFQ) (boot .MLFQ n) (Running i) as1 s1 as2 s →
    (∀ bs a cs t, as2 = bs ++ a :: cs → Run (step .MLFQ) (boot .MLFQ n) (as1 ++ bs) t → ¬EndsSlice t a i) →
    (s.proc i).lastQtime = s1.ticks
  /-- But for the writes of `fork`, a queue rises only at a timer trap, when the
  process has run for its time slice, and the trap yields. -/
  rise (a : Act n) (s' : State n) (i : Slot) : step .MLFQ s a = some s' →
    (s.proc i).queue.toNat < (s'.proc i).queue.toNat →
    ForkWrites s i s' ∨
    ∃ c user as1 s1 as2, a = .timer c user ∧ s.cproc c = some i ∧ as = as1 ++ as2 ∧
      Stretch (step .MLFQ) (boot .MLFQ n) (Running i) as1 s1 as2 s ∧ 2 ^ (s.proc i).queue.toNat ≤ ticksIn as2 ∧
      (s'.proc i).queue.toNat = (s.proc i).queue.toNat + 1 ∧ (s'.proc i).queue.toNat ≤ NPQ - 1 ∧ MustYield s' c i
  /-- But for the writes of `fork`, a queue falls only in the ageing pass. -/
  fall (a : Act n) (s' : State n) (i : Slot) : step .MLFQ s a = some s' →
    (s'.proc i).queue.toNat < (s.proc i).queue.toNat →
    ForkWrites s i s' ∨
    ∃ c, a = .sched c ∧ s.sched c = .age i ∧ (s.proc i).state = .runnable ∧
      (s'.proc i).queue.toNat + 1 = (s.proc i).queue.toNat
  traps (i : Slot) : (s.proc i).state = .running → (s.proc i).killed = false →
    usertrapTimer .MLFQ s.ticks (s.proc i) = kerneltrapTimer .MLFQ s.ticks (s.proc i)

theorem mlfq_discipline (h : Run (step .MLFQ) (boot .MLFQ n) as s) (ht : ticksIn as < 2 ^ 31) :
    QueueDiscipline as s := by
  have he := exclusive_run h
  refine ⟨fun i => ⟨queue_run h i, lastQtime_run h (by omega) i⟩, ?_, ?_, ?_, ?_⟩
  · intro i as1 s1 as2 _ hst hno
    rcases lastQtime_stretch hst with hl | ⟨-, bs, a, cs, t, hbs, ht, hends⟩
    · exact hl
    · exact absurd hends (hno bs a cs t hbs ht)
  · intro a s' i hs hlt
    rcases queue_changes (queue_run h i) he (step_cases hs) (fun h => by rw [h] at hlt; omega) with
      hf | ⟨hends, hq⟩ | ⟨-, -, hq⟩
    · exact .inl hf
    · obtain ⟨as1, s1, as2, has, hst, hran⟩ := hends.ran h
      obtain ⟨c, user, rfl, hon, hslice⟩ := hends
      have hle := queue_step (queue_run h) he (step_cases hs) i
      exact .inr ⟨c, user, as1, s1, as2, rfl, hon.cproc, has, hst, hran, hq, Nat.le_sub_one_of_lt hle,
        mustYield he hs hon hslice⟩
    · omega
  · intro a s' i hs hlt
    rcases queue_changes (queue_run h i) he (step_cases hs) (fun h => by rw [h] at hlt; omega) with
      hf | ⟨-, hq⟩ | ⟨⟨c, ha, hpc⟩, hages, hq⟩
    · exact .inl hf
    · omega
    · exact .inr ⟨c, ha, hpc, hages.1, hq⟩
  · exact fun i hr hk => usertrapTimer_eq .MLFQ s.ticks hr hk

/-- CPU 0 ages and scans the table, and switches to the process it selects. -/
def schedule : List (Act 1) := List.replicate 131 (.sched 0)

/-- The first process runs for a tick, falls to queue 1, and runs again. -/
def firstDemoted : List (Act 1) := schedule ++ [.tick, .timer 0 true, .yield 0] ++ schedule

theorem mlfq_discipline_demoted : ∃ s : State 1, Run (step .MLFQ) (boot .MLFQ 1) firstDemoted s ∧
    (s.proc initproc).state = .running ∧ (s.proc initproc).queue = 1 ∧ QueueDiscipline firstDemoted s := by
  obtain ⟨s, hr, hst, hq⟩ := exists_run (step .MLFQ) (boot .MLFQ 1) firstDemoted
    (Q := fun s => (s.proc initproc).state = .running ∧ (s.proc initproc).queue = 1) (by decide +kernel)
  exact ⟨s, hr, hst, hq, mlfq_discipline hr (by decide +kernel)⟩

/-- It forks, up to where `fork` is to write the child's parent. -/
def demotedForks : List (Act 1) := firstDemoted ++ .run 0 .fork :: List.replicate 2 (.run 0 (.next true true))

/-- The child's queue rises in `fork`. -/
theorem fork_raises_queue : ∃ s s' : State 1, Run (step .MLFQ) (boot .MLFQ 1) demotedForks s ∧
    step .MLFQ s (.run 0 (.next true true)) = some s' ∧ (s.proc 1).state = .used ∧
    (s.proc 1).queue = 0 ∧ (s'.proc 1).queue = 1 := by
  exact exists_run_step (step .MLFQ) (boot .MLFQ 1) demotedForks _
    (Q := fun s s' => (s.proc 1).state = .used ∧ (s.proc 1).queue = 0 ∧ (s'.proc 1).queue = 1) (by decide +kernel)

end Machine

end Xv6
