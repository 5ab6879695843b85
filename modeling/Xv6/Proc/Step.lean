import Xv6.Proc.Machine

/-!
# What one step can do

`Step b s a ev s'` lists the code paths of the system, one constructor for
each, with the guards that hold on it, what it reports, and the state it
leads to; `step_cases` says that every step takes one of them. The invariants are proved by cases on it,
and no proof looks at the step functions again.
-/

namespace Xv6.Machine

variable {n : Nat}

/-- Process `i` runs on CPU `c`, and is not about to yield. -/
structure On (s : State n) (c : Fin n) (i : Slot) : Prop where
  cproc : s.cproc c = some i
  yielding : s.yielding i = false

/-- The changes of a process to what is private to it. -/
inductive Quiet (p : Proc) : Proc → Prop
  | trace (mask : Word) : Quiet p { p with mask := mask }
  | priv (sz : Nat) (ofile : Fin NOFILE → Option Nat) (cwd : Option Nat) :
    Quiet p { p with sz := sz, ofile := ofile, cwd := cwd }

/-- The system calls, where they start and what they report. -/
inductive Entry (s : State n) (i : Slot) : Pc → Option Event → Prop
  | fork : Entry s i (.fork 0) none
  | exit (status : Word) : i ≠ initproc → Entry s i (.exit status) (some (.exit (s.proc i).pid status))
  | wait (x : Bool) (addr : Nat) : Entry s i (.wait x addr) none
  | kill (pid : Word) : Entry s i (.kill pid 0) none
  | setpriority (priority pid : Word) : Entry s i (.setpriority priority pid 0) none

/-- The steps within a call that only move its thread on. -/
inductive Goto (s : State n) (i : Slot) : Pc → Pc → Prop
  | fork {k : Nat} (h : k < NPROC) : (s.proc ⟨k, h⟩).state ≠ .unused → Goto s i (.fork k) (.fork (k + 1))
  | forkFull {k : Nat} : NPROC ≤ k → Goto s i (.fork k) .user
  | reparentSkip {status : Word} {k : Nat} (h : k < NPROC) : (s.proc ⟨k, h⟩).parent ≠ some i →
    Goto s i (.reparent status k none) (.reparent status (k + 1) none)
  | reparentWoken {status : Word} {k w : Nat} : NPROC ≤ w →
    Goto s i (.reparent status k (some w)) (.reparent status (k + 1) none)
  | reparentDone {status : Word} {k : Nat} : NPROC ≤ k → Goto s i (.reparent status k none) (.exitWakeup status 0)
  | exitWoken {status : Word} {k : Nat} : NPROC ≤ k → Goto s i (.exitWakeup status k) (.exitZombie status)
  | waitSkip {x : Bool} {addr k : Nat} {hk : Bool} (h : k < NPROC) : (s.proc ⟨k, h⟩).parent ≠ some i →
    Goto s i (.waitScan x addr k hk) (.waitScan x addr (k + 1) hk)
  | waitAlive {x : Bool} {addr k : Nat} {hk : Bool} (h : k < NPROC) : (s.proc ⟨k, h⟩).parent = some i →
    (s.proc ⟨k, h⟩).state ≠ .zombie → Goto s i (.waitScan x addr k hk) (.waitScan x addr (k + 1) true)
  | kill {pid : Word} {k : Nat} : Goto s i (.kill pid k) (.kill pid (k + 1))
  | killNone {pid : Word} {k : Nat} : Goto s i (.kill pid k) .user
  | setpriority {priority pid : Word} {k : Nat} :
    Goto s i (.setpriority priority pid k) (.setpriority priority pid (k + 1))
  | setpriorityNone {priority pid : Word} {k : Nat} : Goto s i (.setpriority priority pid k) .user

/-- The code paths of the system. -/
inductive Step (b : Build) (s : State n) : Act n → Option Event → State n → Prop
  -- the scheduler and the timer
  | scan {c : Fin n} {pc : SchedPc} : s.cproc c = none → Step b s (.sched c) none (s.setSched c pc)
  | age {c : Fin n} {i : Slot} {pc : SchedPc} : s.cproc c = none → s.sched c = .age i →
    Step b s (.sched c) none ((s.setProc i ((s.proc i).age s.ticks)).setSched c pc)
  | dispatch {c : Fin n} {i : Slot} {pc : SchedPc} : s.cproc c = none → (s.proc i).state = .runnable →
    Step b s (.sched c) none ((s.dispatch b c i).setSched c pc)
  | timer {c : Fin n} {user : Bool} : Step b s (.timer c user) none s
  | preempt {c : Fin n} {i : Slot} {user : Bool} {p : Proc} : On s c i → s.waitLock ≠ some i →
    b = .RR ∧ p = s.proc i ∨ b = .MLFQ ∧ (s.proc i).SliceOver s.ticks ∧ p = (s.proc i).demote s.ticks →
    Step b s (.timer c user) none { s.setProc i p with yielding := Function.update s.yielding i true }
  | yield {c : Fin n} {i : Slot} : s.cproc c = some i → s.yielding i = true → Step b s (.yield c) none (yieldStep s c i)
  -- the clock
  | tick : s.clock = .idle → Step b s .tick none { s with ticks := s.ticks + 1, clock := .updateTime 0 }
  | updateTime {k : Nat} (h : k < NPROC) : s.clock = .updateTime k →
    Step b s .clock (if (s.proc ⟨k, h⟩).state = .running then some (.charge ⟨k, h⟩) else none)
      { s.setProc ⟨k, h⟩ (s.proc ⟨k, h⟩).updateTime with clock := .updateTime (k + 1) }
  | updateTimeDone {k : Nat} : s.clock = .updateTime k → NPROC ≤ k → Step b s .clock none { s with clock := .wakeup 0 }
  | wakeupTicks {k : Nat} (h : k < NPROC) : s.clock = .wakeup k →
    Step b s .clock none
      { s.setProc ⟨k, h⟩ ((s.proc ⟨k, h⟩).wakeup (some .ticks) s.ticks) with clock := .wakeup (k + 1) }
  | wakeupTicksDone {k : Nat} : s.clock = .wakeup k → Step b s .clock none { s with clock := .idle }
  | wakeup {i : Slot} {ch : Chan} : ch.isProc = false →
    Step b s (.wakeup i ch) none (s.setProc i ((s.proc i).wakeup (some ch) s.ticks))
  -- the calls of a process
  | call {c : Fin n} {i : Slot} {op : Op} {pc : Pc} {ev : Option Event} : On s c i → s.pc i = .user →
    Entry s i pc ev → Step b s (.run c op) ev (s.setPc i pc)
  | goto {c : Fin n} {i : Slot} {op : Op} {pc : Pc} : On s c i → Goto s i (s.pc i) pc →
    Step b s (.run c op) none (s.setPc i pc)
  | priv {c : Fin n} {i : Slot} {op : Op} {p : Proc} : On s c i → s.pc i = .user → Quiet (s.proc i) p →
    Step b s (.run c op) none (s.setProc i p)
  | sleep {c : Fin n} {i : Slot} {op : Op} {ch : Chan} {pc : Pc} : On s c i → s.pc i = pc →
    (pc = .user ∨ ∃ status, pc = .exit status) → ch.isProc = false →
    Step b s (.run c op) none (sleepStep s c i ch pc)
  | forkFail {c : Fin n} {i np : Slot} {alloc copy : Bool} {p : Proc} : On s c i → s.pc i = .fork np →
    (s.proc np).state = .unused →
    p = ((s.proc np).take s.nextpid).freeproc ∨ p = ((s.proc np).allocproc s.nextpid s.ticks).freeproc →
    Step b s (.run c (.next alloc copy)) (some (.alloc np s.nextpid false))
      (({ s with nextpid := s.nextpid + 1 }.setProc np p).setPc i .user)
  | forkTake {c : Fin n} {i np : Slot} {alloc copy : Bool} : On s c i → s.pc i = .fork np →
    (s.proc np).state = .unused →
    Step b s (.run c (.next alloc copy)) (some (.alloc np s.nextpid true))
      ((({ s with nextpid := s.nextpid + 1 }.setProc np
        (((s.proc np).allocproc s.nextpid s.ticks).copyFrom (s.proc i))).setPc np .user).setPc i (.forkParent np))
  | forkParent {c : Fin n} {i np : Slot} {op : Op} : On s c i → s.pc i = .forkParent np → s.waitLock = none →
    Step b s (.run c op) none ((s.setProc np ((s.proc np).adopt i (s.proc i))).setPc i (.forkReady np))
  | forkReady {c : Fin n} {i np : Slot} {op : Op} : On s c i → s.pc i = .forkReady np →
    Step b s (.run c op) none ((s.setProc np { s.proc np with state := .runnable }).setPc i .user)
  | exitLock {c : Fin n} {i : Slot} {op : Op} {status : Word} : On s c i → s.pc i = .exit status → s.waitLock = none →
    Step b s (.run c op) none
      { (s.setProc i (s.proc i).closeFiles).setPc i (.reparent status 0 none) with waitLock := some i }
  | reparentChild {c : Fin n} {i pp : Slot} {op : Op} {status : Word} : On s c i →
    s.pc i = .reparent status pp none → (s.proc pp).parent = some i →
    Step b s (.run c op) none
      ((s.setProc pp { s.proc pp with parent := some initproc }).setPc i (.reparent status pp (some 0)))
  | reparentWakeup {c : Fin n} {i w : Slot} {op : Op} {status : Word} {k : Nat} : On s c i →
    s.pc i = .reparent status k (some w) →
    Step b s (.run c op) none
      ((wakeupBy s i (some (.proc initproc)) w).setPc i (.reparent status k (some (w + 1))))
  | exitWakeup {c : Fin n} {i w : Slot} {op : Op} {status : Word} : On s c i → s.pc i = .exitWakeup status w →
    Step b s (.run c op) none
      ((wakeupBy s i ((s.proc i).parent.map .proc) w).setPc i (.exitWakeup status (w + 1)))
  | zombie {c : Fin n} {i : Slot} {op : Op} {status : Word} : On s c i → s.pc i = .exitZombie status →
    Step b s (.run c op) none (zombieStep s c i status)
  | waitLock {c : Fin n} {i : Slot} {op : Op} {x : Bool} {addr : Nat} : On s c i → s.pc i = .wait x addr →
    s.waitLock = none →
    Step b s (.run c op) none { s.setPc i (.waitScan x addr 0 false) with waitLock := some i }
  | waitFail {c : Fin n} {i : Slot} {op : Op} {x : Bool} {addr k : Nat} {hk : Bool} : On s c i →
    s.pc i = .waitScan x addr k hk →
    Step b s (.run c op) (some (.waitFail i)) { s.setPc i .user with waitLock := none }
  | waitReap {c : Fin n} {i np : Slot} {op : Op} {x : Bool} {addr : Nat} {hk : Bool} : On s c i →
    s.pc i = .waitScan x addr np hk → (s.proc np).parent = some i → (s.proc np).state = .zombie →
    Step b s (.run c op)
      (some (.reap i np (s.proc np).pid addr (if addr ≠ 0 then some (s.proc np).xstate else none)))
      ({ s.setPc i .user with waitLock := none }.setProc np (s.proc np).freeproc)
  | waitSleep {c : Fin n} {i : Slot} {op : Op} {x : Bool} {addr k : Nat} {hk : Bool} : On s c i →
    s.pc i = .waitScan x addr k hk → NPROC ≤ k →
    Step b s (.run c op) none { sleepStep s c i (.proc i) (.wait x addr) with waitLock := none }
  | kill {c : Fin n} {i k : Slot} {op : Op} {pid : Word} : On s c i → s.pc i = .kill pid k → (s.proc k).pid = pid →
    Step b s (.run c op) none ((s.setProc k (s.proc k).kill).setPc i .user)
  | setpriority {c : Fin n} {i k : Slot} {op : Op} {priority pid : Word} : On s c i →
    s.pc i = .setpriority priority pid k → (s.proc k).pid = pid →
    Step b s (.run c op) (some (.reset k))
      { (s.setProc k ((s.proc k).setpriority priority)).setPc i .user with
        yielding := Function.update s.yielding i
          (BitVec.slt ((s.proc k).setpriority priority).dynPriority (s.proc k).dynPriority) }

section
variable {b : Build} {s s' : State n} {c : Fin n} {i : Slot} {op : Op} {k : Nat} {copy : Bool} {status pid : Word}

theorem schedStep_cases (h : s.cproc c = none) : Step b s (.sched c) none (schedStep b s c) := by
  simp only [schedStep]
  split
  · split
    · exact .age h ‹_›
    · exact .scan h
  · split
    · split
      · split
        · exact .dispatch h ‹_›
        · exact .scan h
      · exact .scan h
    · split <;> exact .scan h
  · split
    · exact .dispatch h ‹_›
    · exact .scan h

theorem timerStep_cases {user : Bool} (h : On s c i) (hl : s.waitLock ≠ some i) :
    Step b s (.timer c user) none (timerStep b s i user) := by
  have self : s.setProc i (s.proc i) = s := by simp [State.setProc]
  simp only [timerStep]
  split
  · split
    · have : Step .RR s (.timer c user) none
          { s.setProc i (s.proc i) with yielding := Function.update s.yielding i true } :=
        .preempt h hl (.inl ⟨rfl, rfl⟩)
      rwa [self] at this
    · split
      · exact .preempt h hl (.inr ⟨rfl, ‹_›, rfl⟩)
      · exact .timer
    · exact .timer
  · exact .timer

theorem clockStep_cases (h : clockStep s = some s') : Step b s .clock (clockEvent s) s' := by
  simp only [clockStep] at h
  split at h
  · cases h
  · rename_i k hc
    simp only [clockEvent, hc]
    split at h <;> rename_i hk <;> cases h
    · rw [dif_pos hk]; exact .updateTime hk hc
    · rw [dif_neg hk]; exact .updateTimeDone hc (by omega)
  · rename_i k hc
    simp only [clockEvent, hc]
    split at h <;> cases h
    · exact .wakeupTicks _ hc
    · exact .wakeupTicksDone hc

theorem forkStep_cases {alloc : Bool} (h : On s c i) (hpc : s.pc i = .fork k) :
    Step b s (.run c (.next alloc copy)) (forkEvent s k alloc copy) (forkStep s i k alloc copy) := by
  simp only [forkStep, forkEvent]
  split
  · rename_i hk
    split
    · rename_i hu
      cases alloc with
      | false => exact .forkFail h hpc hu (.inl rfl)
      | true =>
        cases copy with
        | false => exact .forkFail h hpc hu (.inr rfl)
        | true => exact .forkTake h hpc hu
    · exact .goto h (hpc ▸ .fork hk ‹_›)
  · exact .goto h (hpc ▸ .forkFull (by omega))

theorem reparentStep_cases {w : Option Nat} (h : On s c i)
    (hpc : s.pc i = .reparent status k w) : Step b s (.run c op) none (reparentStep s i status k w) := by
  cases w with
  | none =>
    simp only [reparentStep]
    split
    · rename_i hk
      split
      · exact .reparentChild h hpc ‹_›
      · exact .goto h (hpc ▸ .reparentSkip hk ‹_›)
    · exact .goto h (hpc ▸ .reparentDone (by omega))
  | some w =>
    simp only [reparentStep]
    split
    · rename_i hw
      exact .reparentWakeup (w := ⟨w, hw⟩) h hpc
    · exact .goto h (hpc ▸ .reparentWoken (by omega))

theorem exitWakeupStep_cases (h : On s c i)
    (hpc : s.pc i = .exitWakeup status k) : Step b s (.run c op) none (exitWakeupStep s i status k) := by
  simp only [exitWakeupStep]
  split
  · rename_i hk
    exact .exitWakeup (w := ⟨k, hk⟩) h hpc
  · exact .goto h (hpc ▸ .exitWoken (by omega))

theorem waitStep_cases {x : Bool} {addr : Nat} {hk : Bool} (h : On s c i) (hpc : s.pc i = .waitScan x addr k hk) :
    Step b s (.run c op) (waitEvent s i addr k hk copy) (waitStep s c i x addr k hk copy) := by
  simp only [waitStep, waitEvent]
  split
  · rename_i hlt
    split
    · split
      · split
        · exact .waitFail h hpc
        · exact .waitReap h hpc ‹_› ‹_›
      · exact .goto h (hpc ▸ .waitAlive hlt ‹_› ‹_›)
    · exact .goto h (hpc ▸ .waitSkip hlt ‹_›)
  · split
    · exact .waitFail h hpc
    · exact .waitSleep h hpc (by omega)

theorem killStep_cases (h : On s c i) (hpc : s.pc i = .kill pid k) :
    Step b s (.run c op) none (killStep s i pid k) := by
  simp only [killStep]
  split
  · rename_i hk
    split
    · exact .kill (k := ⟨k, hk⟩) h hpc ‹_›
    · exact .goto h (hpc ▸ .kill)
  · exact .goto h (hpc ▸ .killNone)

theorem setpriorityStep_cases {priority : Word} (h : On s c i) (hpc : s.pc i = .setpriority priority pid k) :
    Step b s (.run c op) (setpriorityEvent s pid k) (setpriorityStep s i priority pid k) := by
  simp only [setpriorityStep, setpriorityEvent]
  split
  · rename_i hk
    split
    · exact .setpriority (k := ⟨k, hk⟩) h hpc ‹_›
    · exact .goto h (hpc ▸ .setpriority)
  · exact .goto h (hpc ▸ .setpriorityNone)

theorem procStep_cases (h : On s c i) (hs : procStep s c i op = some s') :
    Step b s (.run c op) (procEvent s i op) s' := by
  simp only [procStep] at hs
  split at hs
  case h_21 => cases hs
  all_goals simp only [procEvent, ‹s.pc i = _›]
  case h_1 hpc => cases hs; exact .call h hpc .fork
  case h_2 status hpc =>
    split at hs <;> cases hs
    exact .call h hpc (.exit status ‹_›)
  case h_3 hpc => cases hs; exact .call h hpc (.wait _ _)
  case h_4 hpc => cases hs; exact .call h hpc (.kill _)
  case h_5 hpc => cases hs; exact .call h hpc (.setpriority _ _)
  case h_6 hpc => cases hs; exact .priv h hpc (.trace _)
  case h_7 hpc => cases hs; exact .priv h hpc (.priv _ _ _)
  case h_8 hpc =>
    split at hs <;> cases hs
    exact .sleep h hpc (.inl rfl) (Bool.eq_false_iff.mpr ‹_›)
  case h_9 status _ hpc =>
    split at hs <;> cases hs
    exact .sleep h hpc (.inr ⟨status, rfl⟩) (Bool.eq_false_iff.mpr ‹_›)
  case h_10 hpc => cases hs; exact forkStep_cases h hpc
  case h_11 hpc =>
    split at hs <;> cases hs
    exact .forkParent h hpc ‹_›
  case h_12 hpc => cases hs; exact .forkReady h hpc
  case h_13 hpc =>
    split at hs <;> cases hs
    exact .exitLock h hpc ‹_›
  case h_14 hpc => cases hs; exact reparentStep_cases h hpc
  case h_15 hpc => cases hs; exact exitWakeupStep_cases h hpc
  case h_16 hpc => cases hs; exact .zombie h hpc
  case h_17 hpc =>
    split at hs <;> cases hs
    exact .waitLock h hpc ‹_›
  case h_18 hpc => cases hs; exact waitStep_cases h hpc
  case h_19 hpc => cases hs; exact killStep_cases h hpc
  case h_20 hpc => cases hs; exact setpriorityStep_cases h hpc

theorem procStep_of_run (hs : step b s (.run c op) = some s') (hc : s.cproc c = some i) :
    procStep s c i op = some s' := by
  simp only [step, hc] at hs
  split at hs
  · cases hs
  · exact hs

/-- Every step takes one of the code paths. -/
theorem step_cases {a : Act n} (h : step b s a = some s') : Step b s a (event s a) s' := by
  cases a <;> simp only [step] at h
  case sched c =>
    split at h <;> cases h
    exact schedStep_cases ‹_›
  case timer c user =>
    split at h <;> [skip; cases h]
    rename_i i hc
    split at h <;> cases h
    rename_i hg
    exact timerStep_cases ⟨hc, hg.2.1⟩ hg.1
  case yield c =>
    split at h <;> [skip; cases h]
    split at h <;> cases h
    exact .yield ‹_› ‹_›
  case tick =>
    split at h <;> cases h
    exact .tick ‹_›
  case clock => exact clockStep_cases h
  case wakeup i ch =>
    split at h <;> cases h
    exact .wakeup (Bool.eq_false_iff.mpr ‹_›)
  case run c op =>
    split at h <;> [skip; cases h]
    rename_i i hc
    split at h <;> [cases h; skip]
    simp only [event, hc]
    exact procStep_cases ⟨‹_›, Bool.eq_false_iff.mpr ‹_›⟩ h

end

end Xv6.Machine
