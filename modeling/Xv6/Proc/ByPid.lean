import Xv6.Proc.Dispatch

/-!
# Calls that name a process by its number

`kill` and `setpriority` change the first slot that has the number they are
given, whatever its state. A slot that is `UNUSED` has the number 0
(`Unnumbered`), so that with any other number they find only processes
(`byPid_live`). The number 0 finds the slots that are `UNUSED`
(`byPid_zero`).

`byPid_run` says that a process that is alone in its call leaves the table as
these functions do.
-/

namespace Xv6

open Function List

/-- The loop of `kill` and of `setpriority`: the first slot with a number. -/
def findPid (pid : Word) (proc : Slot → Proc) : Option Slot :=
  (finRange NPROC).find? fun i => (proc i).pid = pid

/-- `kill`: what it returns, and the table it leaves. -/
def kill (pid : Word) (proc : Slot → Proc) : Word × (Slot → Proc) :=
  match findPid pid proc with
  | some i => (0, update proc i (proc i).kill)
  | none => (-1, proc)

/-- `setpriority`: what it returns, the table it leaves, and whether it calls
`yield` before it returns. -/
def setpriority (priority pid : Word) (proc : Slot → Proc) : Word × (Slot → Proc) × Bool :=
  match findPid pid proc with
  | some i =>
    ((proc i).priority, update proc i ((proc i).setpriority priority),
      BitVec.slt ((proc i).setpriority priority).dynPriority (proc i).dynPriority)
  | none => (-1, proc, false)

namespace Machine

open Framework

variable {n : Nat} {b : Build} {s s' : State n} {a : Act n} {ev : Option Event} {c : Fin n} {p : Slot} {pid : Word}
  {q : Proc} {proc : Slot → Proc}

/-! ## Slots that are `UNUSED` -/

/-- A slot that is `UNUSED` has the number 0. -/
def Unnumbered (p : Proc) : Prop := p.state = .unused → p.pid = 0

theorem Unnumbered.of_used {p : Proc} (h : p.state ≠ .unused) : Unnumbered p := fun hu => absurd hu h

theorem Unnumbered.keep {p : Proc} (h : Unnumbered p) (hs : q.state = p.state) (hp : q.pid = p.pid) :
    Unnumbered q := fun hu => hp.trans (h (hs ▸ hu))

theorem Unnumbered.rouse {p : Proc} (h : Unnumbered p) (hr : Roused p q) (hp : q.pid = p.pid) : Unnumbered q := by
  rcases hr with hs | ⟨-, hs⟩
  · exact h.keep hs hp
  · exact .of_used (by rw [hs]; decide)

theorem unnumbered_update {k : Slot} {p : Proc} (h : ∀ i, Unnumbered (s.proc i))
    (hproc : s'.proc = update s.proc k p) (hp : Unnumbered p) (i : Slot) : Unnumbered (s'.proc i) := by
  rw [hproc, update_apply]
  split
  · exact hp
  · exact h i

theorem unnumbered_step (h : ∀ i, Unnumbered (s.proc i)) (hs : Step b s a ev s') : ∀ i, Unnumbered (s'.proc i) := by
  cases hs with
  | scan | timer | tick | updateTimeDone | wakeupTicksDone | call | goto | waitLock | waitFail => exact h
  | age | updateTime | forkParent | exitLock | reparentChild | setpriority =>
    exact unnumbered_update h rfl ((h _).keep rfl rfl)
  | wakeupTicks | wakeup => exact unnumbered_update h rfl ((h _).rouse (roused_wakeup ..) rfl)
  | kill => exact unnumbered_update h rfl ((h _).rouse (roused_kill _) rfl)
  | preempt _ _ hp =>
    refine unnumbered_update h rfl ?_
    rcases hp with ⟨-, rfl⟩ | ⟨-, -, rfl⟩
    · exact h _
    · exact (h _).keep rfl rfl
  | priv _ _ hq => cases hq <;> exact unnumbered_update h rfl ((h _).keep rfl rfl)
  | reparentWakeup | exitWakeup =>
    refine unnumbered_update h rfl ?_
    split
    · exact (h _).rouse (roused_wakeup ..) rfl
    · exact h _
  | dispatch | yield | sleep | waitSleep | forkTake | forkReady | zombie =>
    exact unnumbered_update h rfl (.of_used nofun)
  | forkFail _ _ _ hp =>
    refine unnumbered_update h rfl fun _ => ?_
    rcases hp with rfl | rfl <;> rfl
  | waitReap => exact unnumbered_update h rfl fun _ => rfl

theorem unnumbered_run {as : List (Act n)} (h : Run (step b) (boot b n) as s) (i : Slot) : Unnumbered (s.proc i) := by
  refine h.invariant (I := fun s => ∀ i, Unnumbered (s.proc i)) (fun i => ?_)
    (fun hi hs => unnumbered_step hi (step_cases hs)) i
  simp only [boot, update_apply]
  split
  · exact .of_used (by rintro ⟨⟩)
  · exact fun _ => rfl

/-! ## What the calls find -/

theorem findPid_some {i : Slot} (h : findPid pid proc = some i) : (proc i).pid = pid := by
  simpa using List.find?_some h

theorem findPid_none : findPid pid proc = none ↔ ∀ i, (proc i).pid ≠ pid := by
  simp [findPid]

/-- A number other than 0 finds a process if one has it, and the call changes
its slot alone; so does 0 if all slots are in use. -/
theorem byPid_live {as : List (Act n)} (h : Run (step b) (boot b n) as s) (priority pid : Word)
    (hp : pid ≠ 0 ∨ ∀ i, (s.proc i).state ≠ .unused) :
    ((∀ i, (s.proc i).state ≠ .unused → (s.proc i).pid ≠ pid) →
      kill pid s.proc = (-1, s.proc) ∧ setpriority priority pid s.proc = (-1, s.proc, false)) ∧
    ((∃ i, (s.proc i).state ≠ .unused ∧ (s.proc i).pid = pid) →
      ∃ i yields, (s.proc i).state ≠ .unused ∧ (s.proc i).pid = pid ∧
        kill pid s.proc = (0, update s.proc i (s.proc i).kill) ∧
        setpriority priority pid s.proc =
          ((s.proc i).priority, update s.proc i ((s.proc i).setpriority priority), yields)) := by
  have hlive : ∀ i, (s.proc i).pid = pid → (s.proc i).state ≠ .unused := by
    intro i hi hu
    rcases hp with hp | hp
    · exact hp (hi.symm.trans (unnumbered_run h i hu))
    · exact hp i hu
  constructor
  · intro hno
    have hnone : findPid pid s.proc = none := findPid_none.mpr fun i hi => hno i (hlive i hi) hi
    simp [kill, setpriority, hnone]
  · rintro ⟨i, -, hi⟩
    cases hf : findPid pid s.proc with
    | none => exact absurd hi (findPid_none.mp hf i)
    | some j =>
      have hj := findPid_some hf
      refine ⟨j, (setpriority priority pid s.proc).2.2, hlive j hj, hj, ?_, ?_⟩
      · simp only [kill, hf]
      · simp only [setpriority, hf]

/-- In the first state the numbers 1 and 2 are looked for. -/
theorem byPid_live_boot : kill 2 (boot .RR 1).proc = (-1, (boot .RR 1).proc) ∧
    ∃ i, ((boot .RR 1).proc i).pid = 1 ∧
      kill 1 (boot .RR 1).proc = (0, update (boot .RR 1).proc i ((boot .RR 1).proc i).kill) := by
  have hnil : Run (step .RR) (boot .RR 1) [] (boot .RR 1) := .nil
  obtain ⟨i, -, -, hi, hkill, -⟩ := (byPid_live hnil 60 1 (.inl (by decide))).2 ⟨initproc, by decide, rfl⟩
  exact ⟨((byPid_live hnil 60 2 (.inl (by decide))).1 (by decide +kernel)).1, i, hi, hkill⟩

/-- No process has the number 0, and both calls find slot 1, which is `UNUSED`. -/
theorem byPid_zero :
    (∀ i, ((boot .RR 1).proc i).state ≠ .unused → ((boot .RR 1).proc i).pid ≠ 0) ∧
    (kill 0 (boot .RR 1).proc).1 = 0 ∧ ((boot .RR 1).proc 1).killed = false ∧
    ((kill 0 (boot .RR 1).proc).2 1).killed = true ∧ ((kill 0 (boot .RR 1).proc).2 1).state = .unused ∧
    (setpriority 7 0 (boot .RR 1).proc).1 = 0 ∧ ((boot .RR 1).proc 1).priority = 0 ∧
    ((setpriority 7 0 (boot .RR 1).proc).2.1 1).priority = 7 := by
  decide +kernel

/-! ## Runs of the calls -/

theorem findPid_first {i j : Slot} (h : findPid pid proc = some i) (hj : j < i) : (proc j).pid ≠ pid := by
  obtain ⟨-, k, hk, rfl, hlt⟩ := List.find?_eq_some_iff_getElem.mp h
  simpa using hlt j (by simpa [Fin.lt_def] using hj)

/-- A loop over the slots by process `p` on CPU `c`, at `pc k` before slot `k`. -/
theorem find_run (pid : Word) (pc : Nat → Pc) (found : Slot → State n)
    (hloop : ∀ k, step b (s.setPc p (pc k)) (.run c (.next true true)) =
      some (if h : k < NPROC then if (s.proc ⟨k, h⟩).pid = pid then found ⟨k, h⟩ else s.setPc p (pc (k + 1))
        else s.setPc p .user))
    (hpc : s.pc p = pc 0) :
    ∃ m, Run (step b) s (replicate m (.run c (.next true true)))
      ((findPid pid s.proc).elim (s.setPc p .user) found) := by
  have hrun (k : Nat) (hk : k ≤ NPROC) (hne : ∀ i : Slot, i < k → (s.proc i).pid ≠ pid) :
      Run (step b) s (replicate k (.run c (.next true true))) (s.setPc p (pc k)) := by
    induction k with
    | zero =>
      rw [State.setPc, ← hpc, update_eq_self]
      exact .nil
    | succ k ih =>
      rw [replicate_succ']
      refine (ih (by omega) fun i hi => hne i (by omega)).snoc ?_
      rw [hloop, dif_pos (Nat.lt_of_succ_le hk), if_neg (hne ⟨k, hk⟩ (Nat.lt_succ_self k))]
  cases hf : findPid pid s.proc with
  | none =>
    refine ⟨NPROC + 1, ?_⟩
    rw [replicate_succ']
    refine (hrun NPROC le_rfl fun i _ => findPid_none.mp hf i).snoc ?_
    rw [hloop, dif_neg (Nat.lt_irrefl _)]
    rfl
  | some i =>
    refine ⟨i + 1, ?_⟩
    rw [replicate_succ']
    refine (hrun i i.is_lt.le fun j hj => findPid_first hf hj).snoc ?_
    rw [hloop, dif_pos i.is_lt]
    exact congrArg some (if_pos (findPid_some hf))

/-- A process that is alone in `kill` or `setpriority` leaves the table as these
functions do, and yields then or not. -/
theorem byPid_run (hon : On s c p) :
    (s.pc p = .kill pid 0 → ∃ m s', Run (step b) s (replicate m (.run c (.next true true))) s' ∧ s'.pc p = .user ∧
      s'.proc = (kill pid s.proc).2) ∧
    ∀ priority, s.pc p = .setpriority priority pid 0 →
      ∃ m s', Run (step b) s (replicate m (.run c (.next true true))) s' ∧ s'.pc p = .user ∧
        (s'.proc, s'.yielding p) = (setpriority priority pid s.proc).2 := by
  refine ⟨fun hpc => ?_, fun priority hpc => ?_⟩
  · obtain ⟨m, hm⟩ := find_run (b := b) (c := c) pid (.kill pid)
      (fun i => (s.setProc i (s.proc i).kill).setPc p .user) (fun k => by
        simp only [step, State.setPc, hon.cproc, hon.yielding, procStep, update_self, killStep, State.setProc, update_idem]
        rfl) hpc
    refine ⟨m, _, hm, ?_⟩
    cases hf : findPid pid s.proc <;> simp only [kill, hf] <;> exact ⟨update_self .., rfl⟩
  · obtain ⟨m, hm⟩ := find_run (b := b) (c := c) pid (.setpriority priority pid)
      (fun i =>
        { (s.setProc i ((s.proc i).setpriority priority)).setPc p .user with
          yielding := update s.yielding p
            (BitVec.slt ((s.proc i).setpriority priority).dynPriority (s.proc i).dynPriority) }) (fun k => by
        simp only [step, State.setPc, hon.cproc, hon.yielding, procStep, update_self, setpriorityStep, State.setProc,
          update_idem]
        rfl) hpc
    refine ⟨m, _, hm, ?_⟩
    cases hf : findPid pid s.proc <;> simp only [setpriority, hf]
    · exact ⟨update_self .., Prod.ext rfl hon.yielding⟩
    · exact ⟨update_self .., Prod.ext rfl (update_self ..)⟩

/-- The first process kills itself. -/
theorem byPid_run_kill : ∃ s s' : State 1, ∃ m, s.pc 0 = .kill 1 0 ∧
    Run (step .RR) s (replicate m (.run 0 (.next true true))) s' ∧ s'.proc = (kill 1 s.proc).2 := by
  obtain ⟨s, -, hc, hy, hpc⟩ := exists_run (step .RR) (boot .RR 1) [.sched 0, .run 0 (.kill 1)]
    (Q := fun s => s.cproc 0 = some 0 ∧ s.yielding 0 = false ∧ s.pc 0 = .kill 1 0) (by decide +kernel)
  obtain ⟨m, s', hm, -, hs⟩ := (byPid_run (b := .RR) ⟨hc, hy⟩).1 hpc
  exact ⟨s, s', m, hpc, hm, hs⟩

end Machine

end Xv6
