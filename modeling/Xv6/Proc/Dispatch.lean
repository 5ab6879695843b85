import Xv6.Proc.Step

/-!
# Exclusive dispatch

A process is `RUNNING` exactly while one CPU runs it, and a CPU switches to a
process only if it finds it `RUNNABLE` under its lock
(`exclusive_dispatch`). The custom schedulers select a process without
keeping its lock; what makes them safe is the second look at its state.

The invariant behind it (`Exclusive`) also speaks of the children that
`fork` is creating: such a child is `USED`, and has one creator, so that no
CPU runs it when `fork` makes it `RUNNABLE`.
-/

namespace Xv6.Machine

open Framework Function

variable {n : Nat} {b : Build} {s s' : State n} {a : Act n} {ev : Option Event} {i : Slot} {p : Proc} {pc : Pc}
  {c : Fin n}

/-- The child a thread in `fork` is creating. -/
def Pc.child : Pc → Option Slot
  | .forkParent np => some np
  | .forkReady np => some np
  | _ => none

/-- The states of a process that has a thread to run. -/
def Alive (p : Proc) : Prop := p.state = .sleeping ∨ p.state = .runnable ∨ p.state = .running

instance (p : Proc) : Decidable (Alive p) := inferInstanceAs (Decidable (_ ∨ _ ∨ _))

/-- A process stays in its state, or is woken up. -/
def Roused (p p' : Proc) : Prop :=
  p'.state = p.state ∨ (p.state = .sleeping ∧ p'.state = .runnable)

theorem roused_wakeup (ch : Option Chan) (ticks : Word) (p : Proc) : Roused p (p.wakeup ch ticks) := by
  simp only [Roused, Proc.wakeup]
  split
  · rename_i h
    exact .inr ⟨h.1, rfl⟩
  · exact .inl rfl

theorem roused_kill (p : Proc) : Roused p p.kill := by
  simp only [Roused, Proc.kill]
  split
  · rename_i h
    exact .inr ⟨h, rfl⟩
  · exact .inl rfl

structure Exclusive (s : State n) : Prop where
  running {c : Fin n} {i : Slot} : s.cproc c = some i → (s.proc i).state = .running
  inj {c c' : Fin n} {i : Slot} : s.cproc c = some i → s.cproc c' = some i → c = c'
  onCpu {i : Slot} : (s.proc i).state = .running → ∃ c, s.cproc c = some i
  child {i np : Slot} : (s.pc i).child = some np → (s.proc np).state = .used
  childInj {i j np : Slot} : (s.pc i).child = some np → (s.pc j).child = some np → i = j
  creator {i np : Slot} : (s.pc i).child = some np → Alive (s.proc i)

theorem exclusive_boot : Exclusive (boot b n) where
  running h := by cases h
  inj h := by cases h
  onCpu {i} h := by
    simp only [boot, update_apply] at h
    split at h <;> cases h
  child {i np} h := by
    simp only [boot, update_apply] at h
    split at h <;> cases h
  childInj {i j np} h := by
    simp only [boot, update_apply] at h
    split at h <;> cases h
  creator {i np} h := by
    simp only [boot, update_apply] at h
    split at h <;> cases h

namespace Exclusive

/-- A step that leaves a process in its state, or wakes it up, and moves no
thread into or out of the creation of a child. -/
theorem rouse (hi : Exclusive s) (i : Slot) (hproc : s'.proc = update s.proc i p) (hp : Roused (s.proc i) p)
    (hpc : ∀ j, (s'.pc j).child = (s.pc j).child) (hc : s'.cproc = s.cproc) : Exclusive s' := by
  obtain ⟨h1, h2, h3, h4, h5, h6⟩ := hi
  constructor <;> simp only [hproc, hpc, hc, update_apply] <;> grind [Alive, Roused]

/-- A step that changes no process. -/
theorem still (hi : Exclusive s) (hproc : s'.proc = s.proc) (hpc : ∀ j, (s'.pc j).child = (s.pc j).child)
    (hc : s'.cproc = s.cproc) : Exclusive s' :=
  hi.rouse initproc (by rw [hproc, update_eq_self]) (.inl rfl) hpc hc

/-- A process leaves its CPU, in a state other than `RUNNING`; its thread is
not creating a child, or stays alive. -/
theorem off (hi : Exclusive s) (hc : s.cproc c = some i) (hp : p.state ≠ .running)
    (hpc : pc.child = none ∨ pc = s.pc i ∧ Alive p) (hproc : s'.proc = update s.proc i p)
    (hpcs : s'.pc = update s.pc i pc) (hcproc : s'.cproc = update s.cproc c none) : Exclusive s' := by
  have hr := hi.running hc
  obtain ⟨h1, h2, h3, h4, h5, h6⟩ := hi
  constructor <;> simp only [hproc, hpcs, hcproc, update_apply] <;> grind

theorem dispatch (hi : Exclusive s) (hc : s.cproc c = none)
    (hr : (s.proc i).state = .runnable) : Exclusive (s.dispatch b c i) := by
  obtain ⟨h1, h2, h3, h4, h5, h6⟩ := hi
  constructor <;> simp only [State.dispatch, Proc.dispatch, update_apply] <;> grind [Alive]

variable {np : Slot}

/-- `fork` takes a slot that is `UNUSED` for the child. -/
theorem forkTake (hi : Exclusive s) (hp : p.state = .used) (hi' : Alive (s.proc i)) (hu : (s.proc np).state = .unused)
    (hproc : s'.proc = update s.proc np p) (hpcs : s'.pc = update (update s.pc np .user) i (.forkParent np))
    (hcproc : s'.cproc = s.cproc) : Exclusive s' := by
  obtain ⟨h1, h2, h3, h4, h5, h6⟩ := hi
  constructor <;> simp only [hproc, hpcs, hcproc, update_apply] <;> grind [Alive, Pc.child]

/-- `fork` makes the child `RUNNABLE`: no other thread is creating it. -/
theorem forkReady (hi : Exclusive s) (hp : p.state = .runnable)
    (hpc : s.pc i = .forkReady np) (hproc : s'.proc = update s.proc np p)
    (hpcs : s'.pc = update s.pc i .user) (hcproc : s'.cproc = s.cproc) : Exclusive s' := by
  have hchild : (s.pc i).child = some np := by rw [hpc]; rfl
  obtain ⟨h1, h2, h3, h4, h5, h6⟩ := hi
  constructor <;> simp only [hproc, hpcs, hcproc, update_apply] <;> grind [Alive, Pc.child]

/-- A zombie is freed. -/
theorem reap (hi : Exclusive s) (hp : p.state = .unused)
    (hz : (s.proc np).state = .zombie) (hproc : s'.proc = update s.proc np p)
    (hpcs : ∀ j, (s'.pc j).child = (s.pc j).child) (hcproc : s'.cproc = s.cproc) : Exclusive s' := by
  obtain ⟨h1, h2, h3, h4, h5, h6⟩ := hi
  constructor <;> simp only [hproc, hpcs, hcproc, update_apply] <;> grind [Alive]

end Exclusive

/-- The entries of the system calls and the moves within them create no child. -/
theorem child_entry (h : Entry s i pc ev) : pc.child = none := by cases h <;> rfl

theorem child_goto {pc' : Pc} (h : Goto s i pc pc') : pc.child = none ∧ pc'.child = none := by
  cases h <;> exact ⟨rfl, rfl⟩

/-- A thread that moves between points where it creates no child. -/
theorem child_setPc (h : (s.pc i).child = none) (h' : pc.child = none) (j : Slot) :
    ((s.setPc i pc).pc j).child = (s.pc j).child := by
  simp only [State.setPc, update_apply]
  split
  · rename_i e
    rw [h', e, h]
  · rfl

theorem Quiet.state {p' : Proc} (h : Quiet p p') : p'.state = p.state := by
  cases h <;> rfl

theorem exclusive_step (hi : Exclusive s) (h : Step b s a ev s') : Exclusive s' := by
  cases h with
  | scan | timer | tick | updateTimeDone | wakeupTicksDone => exact hi.still rfl (fun _ => rfl) rfl
  | age | updateTime => exact hi.rouse _ rfl (.inl rfl) (fun _ => rfl) rfl
  | wakeupTicks | wakeup => exact hi.rouse _ rfl (roused_wakeup ..) (fun _ => rfl) rfl
  | dispatch hc hr => exact (hi.dispatch (b := b) hc hr).still rfl (fun _ => rfl) rfl
  | preempt _ _ hp =>
    refine hi.rouse _ rfl (.inl ?_) (fun _ => rfl) rfl
    rcases hp with ⟨-, rfl⟩ | ⟨-, -, rfl⟩ <;> rfl
  | yield hc =>
    exact hi.off hc (by simp) (.inr ⟨rfl, .inr (.inl rfl)⟩) rfl (update_eq_self ..).symm rfl
  | call _ hpc he => exact hi.still rfl (child_setPc (by rw [hpc]; rfl) (child_entry he)) rfl
  | goto _ hg => exact hi.still rfl (child_setPc (child_goto hg).1 (child_goto hg).2) rfl
  | priv _ _ hq => exact hi.rouse _ rfl (.inl hq.state) (fun _ => rfl) rfl
  | sleep hon hpc hu =>
    refine hi.off hon.cproc (by simp [Proc.sleepOn]) (.inl ?_) rfl rfl rfl
    rcases hu with rfl | ⟨_, rfl⟩ <;> rfl
  | forkFail _ hpc hu hp =>
    refine hi.rouse _ rfl (.inl ?_) (child_setPc (by rw [State.setProc, hpc]; rfl) rfl) rfl
    rw [hu]
    rcases hp with rfl | rfl <;> rfl
  | forkTake hon hpc hu => exact hi.forkTake rfl (.inr (.inr (hi.running hon.cproc))) hu rfl rfl rfl
  | forkParent _ hpc =>
    refine hi.rouse _ rfl (.inl rfl) (fun j => ?_) rfl
    simp only [State.setPc, State.setProc, update_apply]
    split
    · rename_i e
      rw [e, hpc]; rfl
    · rfl
  | forkReady _ hpc => exact hi.forkReady rfl hpc rfl rfl rfl
  | exitLock _ hpc | reparentChild _ hpc | setpriority _ hpc =>
    exact hi.rouse _ rfl (.inl rfl) (child_setPc (by rw [State.setProc, hpc]; rfl) rfl) rfl
  | reparentWakeup _ hpc | exitWakeup _ hpc =>
    refine hi.rouse _ rfl ?_ (child_setPc (by rw [wakeupBy, State.setProc, hpc]; rfl) rfl) rfl
    split
    · exact roused_wakeup ..
    · exact .inl rfl
  | zombie hon => exact hi.off hon.cproc (by simp [Proc.zombify]) (.inl rfl) rfl rfl rfl
  | waitLock _ hpc | waitFail _ hpc => exact hi.still rfl (child_setPc (by rw [hpc]; rfl) rfl) rfl
  | waitReap _ hpc _ hz => exact hi.reap rfl hz rfl (child_setPc (by rw [hpc]; rfl) rfl) rfl
  | waitSleep hon => exact hi.off hon.cproc (by simp [Proc.sleepOn]) (.inl rfl) rfl rfl rfl
  | kill _ hpc => exact hi.rouse _ rfl (roused_kill _) (child_setPc (by rw [State.setProc, hpc]; rfl) rfl) rfl

theorem exclusive_run {as : List (Act n)} (h : Run (step b) (boot b n) as s) : Exclusive s :=
  h.invariant exclusive_boot fun hi hs => exclusive_step hi (step_cases hs)

/-- A CPU comes to run a process only by switching to it from `RUNNABLE`. -/
theorem switch_runnable (h : Step b s a ev s') (hc : s.cproc c ≠ some i)
    (hc' : s'.cproc c = some i) : (s.proc i).state = .runnable := by
  cases h with
  | dispatch _ hr =>
    simp only [State.setSched, State.dispatch, update_apply] at hc'
    split at hc'
    · cases hc'; exact hr
    · exact absurd hc' hc
  | yield | sleep | zombie | waitSleep =>
    simp only [yieldStep, sleepStep, zombieStep, State.off, update_apply] at hc'
    split at hc'
    · cases hc'
    · exact absurd hc' hc
  | _ => exact absurd hc' hc

/-- In every state that `n` CPUs reach with any of the schedulers, the
processes that are `RUNNING` are those that a CPU runs, each on one CPU; and
every step by which a CPU switches to a process finds it `RUNNABLE`. -/
theorem exclusive_dispatch {as : List (Act n)} (h : Run (step b) (boot b n) as s) :
    (∀ i, (s.proc i).state = .running ↔ ∃! c, s.cproc c = some i) ∧
      (∀ c c' i, s.cproc c = some i → s.cproc c' = some i → c = c') ∧
      ∀ a s', step b s a = some s' → ∀ c i, s.cproc c ≠ some i → s'.cproc c = some i →
        (s.proc i).state = .runnable := by
  have hi := exclusive_run h
  refine ⟨fun i => ⟨fun hr => ?_, fun ⟨c, hc, _⟩ => hi.running hc⟩, fun c c' i => hi.inj,
    fun a s' hs c i hc hc' => switch_runnable (step_cases hs) hc hc'⟩
  obtain ⟨c, hc⟩ := hi.onCpu hr
  exact ⟨c, hc, fun c' hc' => hi.inj hc' hc⟩

/-- Two CPUs with RR, one of which has switched to the first process. -/
theorem exclusive_dispatch_two : ∃ s : State 2, Run (step .RR) (boot .RR 2) [.sched 0, .sched 1] s ∧
    s.cproc 0 = some initproc ∧ ∃! c, s.cproc c = some initproc := by
  obtain ⟨s, hr, hc, hp⟩ := exists_run (step .RR) (boot .RR 2) [.sched 0, .sched 1]
    (Q := fun s => s.cproc 0 = some initproc ∧ (s.proc initproc).state = .running) (by decide)
  exact ⟨s, hr, hc, ((exclusive_dispatch hr).1 initproc).mp hp⟩

end Xv6.Machine
