import Xv6.Framework.Run
import Xv6.Proc.Table

/-!
# The process table under any interleaving

The processes and the scheduler loops of `n` CPUs as one transition system.
A step is one section of `kernel/proc.c` or `kernel/trap.c` under a
`p->lock`, under `wait_lock`, or of code that takes no lock; table scans take
one step per slot, with the lock dropped in between. What a kernel thread
will do next is its `Pc`, and what the scheduler of a CPU will do next its
`SchedPc`. `wait_lock` is held across steps, and has an explicit holder; a
CPU takes no interrupt while its process holds it.

`step b` is the system built with scheduler `b`, and `boot b n` its state
after `userinit`.
-/

namespace Xv6.Machine

open Function

/-- `initproc`: `userinit` runs first, and finds the first slot free. -/
def initproc : Slot := 0

/-- Where the kernel thread of a process is. -/
inductive Pc
  /-- In user space, or in a part of the kernel that is not modelled here. -/
  | user
  /-- `fork`, in `allocproc`, before it looks at slot `i`. -/
  | fork (i : Nat)
  /-- `fork`, before it acquires `wait_lock`. -/
  | forkParent (np : Slot)
  /-- `fork`, before it makes the child runnable. -/
  | forkReady (np : Slot)
  /-- `exit`, before it acquires `wait_lock`. -/
  | exit (status : Word)
  /-- `reparent`, before it looks at slot `i`; or within its call of `wakeup`. -/
  | reparent (status : Word) (i : Nat) (wakeup : Option Nat)
  /-- `exit`, in `wakeup(p->parent)`. -/
  | exitWakeup (status : Word) (i : Nat)
  /-- `exit`, before it becomes a zombie. -/
  | exitZombie (status : Word)
  /-- No thread, or one that will never run again. -/
  | dead
  /-- `wait` (or `waitx`), before it acquires `wait_lock`. -/
  | wait (x : Bool) (addr : Nat)
  /-- `wait` (or `waitx`), before it looks at slot `i`. -/
  | waitScan (x : Bool) (addr : Nat) (i : Nat) (havekids : Bool)
  /-- `kill`, before it looks at slot `i`. -/
  | kill (pid : Word) (i : Nat)
  /-- `setpriority`, before it looks at slot `i`. -/
  | setpriority (priority pid : Word) (i : Nat)
  deriving DecidableEq

/-- Where the scheduler loop of a CPU is. -/
inductive SchedPc
  /-- In the ageing pass of MLFQ, before slot `i`. -/
  | age (i : Nat)
  /-- In the scan of the table, before slot `i`. -/
  | scan (i : Nat) (sel : Selection)
  /-- Before it locks the selected process again. -/
  | dispatch (i : Slot)

/-- Where `clockintr` is. -/
inductive Clock
  | idle
  | updateTime (i : Nat)
  | wakeup (i : Nat)
  deriving DecidableEq

structure State (n : Nat) where
  proc : Slot → Proc
  pc : Slot → Pc
  /-- The thread is in `sleep`, and clears `p->chan` when it runs again. -/
  inSleep : Slot → Bool
  /-- The thread is about to call `yield`. -/
  yielding : Slot → Bool
  /-- `c->proc`. -/
  cproc : Fin n → Option Slot
  sched : Fin n → SchedPc
  ticks : Word
  clock : Clock
  nextpid : Word
  /-- The holder of `wait_lock`. -/
  waitLock : Option Slot

/-- What a process does next: a call, or the next step of the one it is in,
with the outcomes of the memory operations of that step. -/
inductive Op
  | fork
  | exit (status : Word)
  | wait (x : Bool) (addr : Nat)
  | kill (pid : Word)
  | setpriority (priority pid : Word)
  | sleep (ch : Chan)
  | trace (mask : Word)
  /-- The process changes what is private to it. -/
  | priv (sz : Nat) (ofile : Fin NOFILE → Option Nat) (cwd : Option Nat)
  | next (alloc copy : Bool)

inductive Act (n : Nat)
  | sched (c : Fin n)
  | timer (c : Fin n) (user : Bool)
  | yield (c : Fin n)
  | tick
  | clock
  /-- An iteration of `wakeup` in a part of the kernel that is not modelled here. -/
  | wakeup (i : Slot) (ch : Chan)
  | run (c : Fin n) (op : Op)

variable {n : Nat}

namespace State

def setProc (s : State n) (i : Slot) (p : Proc) : State n := { s with proc := update s.proc i p }

def setPc (s : State n) (i : Slot) (pc : Pc) : State n := { s with pc := update s.pc i pc }

def setSched (s : State n) (c : Fin n) (pc : SchedPc) : State n :=
  { s with sched := update s.sched c pc }

/-- The process of CPU `c` has switched back to the scheduler. -/
def off (s : State n) (c : Fin n) : State n := { s with cproc := update s.cproc c none }

/-! ## Scheduling -/

/-- CPU `c` switches to process `i`, which clears its channel if it slept. -/
def dispatch (b : Build) (s : State n) (c : Fin n) (i : Slot) : State n :=
  let p := (s.proc i).dispatch s.ticks b
  { s with
    proc := update s.proc i { p with chan := if s.inSleep i then none else p.chan }
    inSleep := update s.inSleep i false
    cproc := update s.cproc c (some i) }

end State

/-- The start of an iteration of the scheduler's loop. -/
def SchedPc.start : Build → SchedPc
  | .MLFQ => .age 0
  | _ => .scan 0 Selection.start

/-- A step of the scheduler loop of CPU `c`. -/
def schedStep (b : Build) (s : State n) (c : Fin n) : State n :=
  match s.sched c with
  | .age i =>
    if h : i < NPROC then
      (s.setProc ⟨i, h⟩ ((s.proc ⟨i, h⟩).age s.ticks)).setSched c (.age (i + 1))
    else s.setSched c (.scan 0 Selection.start)
  | .scan i sel =>
    if h : i < NPROC then
      if b = .RR then
        if (s.proc ⟨i, h⟩).state = .runnable then (s.dispatch b c ⟨i, h⟩).setSched c (.scan (i + 1) sel)
        else s.setSched c (.scan (i + 1) sel)
      else s.setSched c (.scan (i + 1) (select b s.proc sel ⟨i, h⟩))
    else
      match sel.proc with
      | none => s.setSched c (.start b)
      | some j => s.setSched c (.dispatch j)
  | .dispatch i =>
    if (s.proc i).state = .runnable then (s.dispatch b c i).setSched c (.start b)
    else s.setSched c (.start b)

/-- A timer interrupt at process `i`, in user space or in the kernel. -/
def timerStep (b : Build) (s : State n) (i : Slot) (user : Bool) : State n :=
  if user ∨ (s.proc i).state = .running then
    match b with
    | .RR => { s with yielding := update s.yielding i true }
    | .MLFQ =>
      if (s.proc i).SliceOver s.ticks then
        { s.setProc i ((s.proc i).demote s.ticks) with yielding := update s.yielding i true }
      else s
    | _ => s
  else s

/-- `yield`. -/
def yieldStep (s : State n) (c : Fin n) (i : Slot) : State n :=
  { (s.setProc i { s.proc i with state := .runnable }).off c with
    yielding := update s.yielding i false }

/-- `sleep`; the thread goes on at `pc` when it runs again. -/
def sleepStep (s : State n) (c : Fin n) (i : Slot) (ch : Chan) (pc : Pc) : State n :=
  { ((s.setProc i ((s.proc i).sleepOn ch s.ticks)).setPc i pc).off c with
    inSleep := update s.inSleep i true }

/-- An iteration of `clockintr`'s loops, after it has counted the tick. The
process it interrupts is running, so that `wakeup` need not skip it. -/
def clockStep (s : State n) : Option (State n) :=
  match s.clock with
  | .idle => none
  | .updateTime i =>
    if h : i < NPROC then
      some { s.setProc ⟨i, h⟩ (s.proc ⟨i, h⟩).updateTime with clock := .updateTime (i + 1) }
    else some { s with clock := .wakeup 0 }
  | .wakeup i =>
    if h : i < NPROC then
      some { s.setProc ⟨i, h⟩ ((s.proc ⟨i, h⟩).wakeup (some .ticks) s.ticks) with clock := .wakeup (i + 1) }
    else some { s with clock := .idle }

/-! ## System calls -/

/-- `allocproc` and the part of `fork` under the child's lock, by process `p`
at slot `i`. -/
def forkStep (s : State n) (p : Slot) (i : Nat) (alloc copy : Bool) : State n :=
  if h : i < NPROC then
    let np : Slot := ⟨i, h⟩
    if (s.proc np).state = .unused then
      let s1 := { s with nextpid := s.nextpid + 1 }
      if !alloc then (s1.setProc np ((s.proc np).take s.nextpid).freeproc).setPc p .user
      else
        let q := (s.proc np).allocproc s.nextpid s.ticks
        if !copy then (s1.setProc np q.freeproc).setPc p .user
        else ((s1.setProc np (q.copyFrom (s.proc p))).setPc np .user).setPc p (.forkParent np)
    else s.setPc p (.fork (i + 1))
  else s.setPc p .user

/-- An iteration of a `wakeup` by process `p`. -/
def wakeupBy (s : State n) (p : Slot) (ch : Option Chan) (i : Slot) : State n :=
  s.setProc i (if i ≠ p then (s.proc i).wakeup ch s.ticks else s.proc i)

/-- `reparent`, by process `p`. -/
def reparentStep (s : State n) (p : Slot) (status : Word) (i : Nat) : Option Nat → State n
  | none =>
    if h : i < NPROC then
      let pp : Slot := ⟨i, h⟩
      if (s.proc pp).parent = some p then
        (s.setProc pp { s.proc pp with parent := some initproc }).setPc p (.reparent status i (some 0))
      else s.setPc p (.reparent status (i + 1) none)
    else s.setPc p (.exitWakeup status 0)
  | some w =>
    if h : w < NPROC then
      (wakeupBy s p (some (.proc initproc)) ⟨w, h⟩).setPc p (.reparent status i (some (w + 1)))
    else s.setPc p (.reparent status (i + 1) none)

/-- `wakeup(p->parent)` in `exit`. -/
def exitWakeupStep (s : State n) (p : Slot) (status : Word) (i : Nat) : State n :=
  if h : i < NPROC then
    (wakeupBy s p ((s.proc p).parent.map .proc) ⟨i, h⟩).setPc p (.exitWakeup status (i + 1))
  else s.setPc p (.exitZombie status)

/-- The end of `exit`. -/
def zombieStep (s : State n) (c : Fin n) (p : Slot) (status : Word) : State n :=
  { ((s.setProc p ((s.proc p).zombify status s.ticks)).setPc p .dead).off c with waitLock := none }

/-- `wait` and `waitx`, by process `p` at slot `i`. -/
def waitStep (s : State n) (c : Fin n) (p : Slot) (x : Bool) (addr i : Nat) (havekids copy : Bool) : State n :=
  let ret := { s.setPc p .user with waitLock := none }
  if h : i < NPROC then
    let np : Slot := ⟨i, h⟩
    if (s.proc np).parent = some p then
      if (s.proc np).state = .zombie then
        if addr ≠ 0 ∧ !copy then ret else ret.setProc np (s.proc np).freeproc
      else s.setPc p (.waitScan x addr (i + 1) true)
    else s.setPc p (.waitScan x addr (i + 1) havekids)
  else if !havekids || (s.proc p).killed then ret
  else { sleepStep s c p (.proc p) (.wait x addr) with waitLock := none }

/-- `kill`, by process `p` at slot `i`. -/
def killStep (s : State n) (p : Slot) (pid : Word) (i : Nat) : State n :=
  if h : i < NPROC then
    if (s.proc ⟨i, h⟩).pid = pid then (s.setProc ⟨i, h⟩ (s.proc ⟨i, h⟩).kill).setPc p .user
    else s.setPc p (.kill pid (i + 1))
  else s.setPc p .user

/-- `setpriority`, by process `p` at slot `i`. -/
def setpriorityStep (s : State n) (p : Slot) (priority pid : Word) (i : Nat) : State n :=
  if h : i < NPROC then
    let q := s.proc ⟨i, h⟩
    if q.pid = pid then
      let q' := q.setpriority priority
      { (s.setProc ⟨i, h⟩ q').setPc p .user with
        yielding := update s.yielding p (BitVec.slt q'.dynPriority q.dynPriority) }
    else s.setPc p (.setpriority priority pid (i + 1))
  else s.setPc p .user

/-- The next step of the process `p` that runs on CPU `c`. -/
def procStep (s : State n) (c : Fin n) (p : Slot) (op : Op) : Option (State n) :=
  match s.pc p, op with
  | .user, .fork => some (s.setPc p (.fork 0))
  -- panic: init exiting
  | .user, .exit status => if p = initproc then none else some (s.setPc p (.exit status))
  | .user, .wait x addr => some (s.setPc p (.wait x addr))
  | .user, .kill pid => some (s.setPc p (.kill pid 0))
  | .user, .setpriority priority pid => some (s.setPc p (.setpriority priority pid 0))
  | .user, .trace mask => some (s.setProc p { s.proc p with mask := mask })
  | .user, .priv sz ofile cwd => some (s.setProc p { s.proc p with sz := sz, ofile := ofile, cwd := cwd })
  | .user, .sleep ch => if ch.isProc then none else some (sleepStep s c p ch .user)
  -- closing a file may sleep
  | .exit status, .sleep ch => if ch.isProc then none else some (sleepStep s c p ch (.exit status))
  | .fork i, .next alloc copy => some (forkStep s p i alloc copy)
  | .forkParent np, .next _ _ =>
    if s.waitLock = none then
      some ((s.setProc np ((s.proc np).adopt p (s.proc p))).setPc p (.forkReady np))
    else none
  | .forkReady np, .next _ _ => some ((s.setProc np { s.proc np with state := .runnable }).setPc p .user)
  | .exit status, .next _ _ =>
    if s.waitLock = none then
      some { (s.setProc p (s.proc p).closeFiles).setPc p (.reparent status 0 none) with waitLock := some p }
    else none
  | .reparent status i w, .next _ _ => some (reparentStep s p status i w)
  | .exitWakeup status i, .next _ _ => some (exitWakeupStep s p status i)
  | .exitZombie status, .next _ _ => some (zombieStep s c p status)
  | .wait x addr, .next _ _ =>
    if s.waitLock = none then
      some { s.setPc p (.waitScan x addr 0 false) with waitLock := some p }
    else none
  | .waitScan x addr i havekids, .next _ copy => some (waitStep s c p x addr i havekids copy)
  | .kill pid i, .next _ _ => some (killStep s p pid i)
  | .setpriority priority pid i, .next _ _ => some (setpriorityStep s p priority pid i)
  | _, _ => none

/-! ## The system -/

/-- A step of the system built with scheduler `b`. -/
def step (b : Build) (s : State n) : Act n → Option (State n)
  | .sched c => if s.cproc c = none then some (schedStep b s c) else none
  | .timer c user =>
    match s.cproc c with
    | some i =>
      -- interrupts are off while the process holds a lock, or is in the trap that will yield;
      -- in user space a process that was killed exits instead
      if s.waitLock ≠ some i ∧ s.yielding i = false ∧ (user → s.pc i = .user ∧ (s.proc i).killed = false) then
        some (timerStep b s i user)
      else none
    | none => none
  | .yield c =>
    match s.cproc c with
    | some i => if s.yielding i then some (yieldStep s c i) else none
    | none => none
  | .tick =>
    if s.clock = .idle then some { s with ticks := s.ticks + 1, clock := .updateTime 0 } else none
  | .clock => clockStep s
  | .wakeup i ch =>
    if ch.isProc then none else some (s.setProc i ((s.proc i).wakeup (some ch) s.ticks))
  | .run c op =>
    match s.cproc c with
    | some i => if s.yielding i then none else procStep s c i op
    | none => none

/-! ## What a step reports -/

/-- The events of a run that its history records. -/
inductive Event
  /-- `allocproc` takes a number for the process it creates in a slot; `ok` tells whether the creation succeeds. -/
  | alloc (np : Slot) (pid : Word) (ok : Bool)
  /-- A process calls `exit`. -/
  | exit (pid status : Word)
  /-- `wait` returns the number of a child, and has stored its status if it was given an address. -/
  | reap (caller child : Slot) (pid : Word) (addr : Nat) (stored : Option Word)
  /-- `wait` returns -1. -/
  | waitFail (caller : Slot)
  /-- `update_time` finds a process running. -/
  | charge (i : Slot)
  /-- `setpriority` resets the times of a process. -/
  | reset (i : Slot)
  deriving DecidableEq

def forkEvent (s : State n) (i : Nat) (alloc copy : Bool) : Option Event :=
  if h : i < NPROC then
    if (s.proc ⟨i, h⟩).state = .unused then some (.alloc ⟨i, h⟩ s.nextpid (alloc && copy)) else none
  else none

def waitEvent (s : State n) (p : Slot) (addr i : Nat) (havekids copy : Bool) : Option Event :=
  if h : i < NPROC then
    let np := s.proc ⟨i, h⟩
    if np.parent = some p then
      if np.state = .zombie then
        if addr ≠ 0 ∧ !copy then some (.waitFail p)
        else some (.reap p ⟨i, h⟩ np.pid addr (if addr ≠ 0 then some np.xstate else none))
      else none
    else none
  else if !havekids || (s.proc p).killed then some (.waitFail p)
  else none

def setpriorityEvent (s : State n) (pid : Word) (i : Nat) : Option Event :=
  if h : i < NPROC then
    if (s.proc ⟨i, h⟩).pid = pid then some (.reset ⟨i, h⟩) else none
  else none

def procEvent (s : State n) (p : Slot) (op : Op) : Option Event :=
  match s.pc p, op with
  | .user, .exit status => some (.exit (s.proc p).pid status)
  | .fork i, .next alloc copy => forkEvent s i alloc copy
  | .waitScan _ addr i havekids, .next _ copy => waitEvent s p addr i havekids copy
  | .setpriority _ pid i, .next _ _ => setpriorityEvent s pid i
  | _, _ => none

def clockEvent (s : State n) : Option Event :=
  match s.clock with
  | .updateTime i =>
    if h : i < NPROC then
      if (s.proc ⟨i, h⟩).state = .running then some (.charge ⟨i, h⟩) else none
    else none
  | _ => none

/-- What the step of an action reports. -/
def event (s : State n) : Act n → Option Event
  | .clock => clockEvent s
  | .run c op =>
    match s.cproc c with
    | some p => procEvent s p op
    | none => none
  | _ => none

/-- The first process, as `userinit` leaves it. -/
def userinit : Proc :=
  { ({} : Proc).allocproc 1 0 with sz := 4096, cwd := some 0, state := .runnable }

/-- The state in which the CPUs start their schedulers. -/
def boot (b : Build) (n : Nat) : State n where
  proc := update (fun _ => {}) initproc userinit
  pc := update (fun _ => .dead) initproc .user
  inSleep := fun _ => false
  yielding := fun _ => false
  cproc := fun _ => none
  sched := fun _ => .start b
  ticks := 0
  clock := .idle
  nextpid := 2
  waitLock := none

end Xv6.Machine
