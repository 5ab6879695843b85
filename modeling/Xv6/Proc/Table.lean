import Xv6.Param

/-!
# Processes

`struct proc` of `kernel/proc.h`, and what each operation of `kernel/proc.c`
does to the slot of one process while it holds the slot's lock. A slot is
named by its index in `proc[]`, which stands for the address of its `struct
proc` wherever the code uses that (`p->parent`, `sleep(p, …)`). Times,
process numbers and the other integers are 32-bit words.
-/

namespace Xv6

/-- A 32-bit `int` or `uint`. -/
abbrev Word := BitVec 32

/-- An index in `proc[]`. -/
abbrev Slot := Fin NPROC

/-- `enum procstate`. -/
inductive ProcState
  | unused
  | used
  | sleeping
  | runnable
  | running
  | zombie
  deriving DecidableEq

/-- What a process sleeps on: the address of a process (in `wait`), `&ticks`,
or some other address of the kernel. -/
inductive Chan
  | proc (i : Slot)
  | ticks
  | other (a : Nat)
  deriving DecidableEq

/-- The address of a process. -/
def Chan.isProc : Chan → Bool
  | .proc _ => true
  | _ => false

/-- `struct proc`, less what belongs to memory (`kstack`, `pagetable`,
`trapframe`, `context`) and the name. Files and inodes are named by numbers. -/
structure Proc where
  state : ProcState := .unused
  chan : Option Chan := none
  killed : Bool := false
  xstate : Word := 0
  pid : Word := 0
  parent : Option Slot := none
  sz : Nat := 0
  ofile : Fin NOFILE → Option Nat := fun _ => none
  cwd : Option Nat := none
  rtime : Word := 0
  ctime : Word := 0
  etime : Word := 0
  stime : Word := 0
  ntime : Word := 0
  mask : Word := 0
  priority : Word := 0
  queue : Word := 0
  lastQtime : Word := 0
  qticks : Fin NPQ → Word := fun _ => 0

namespace Proc

/-! ## Creation and destruction -/

/-- `allocproc`, up to its first allocation. -/
def take (pid : Word) (p : Proc) : Proc := { p with pid := pid, state := .used }

/-- `allocproc`, when its allocations have succeeded. -/
def allocproc (pid ticks : Word) (p : Proc) : Proc :=
  { take pid p with
    rtime := 0
    etime := -1
    ctime := ticks
    ntime := 0
    priority := 60
    lastQtime := ticks
    queue := 0
    qticks := fun _ => 0 }

/-- `freeproc`. -/
def freeproc (p : Proc) : Proc :=
  { p with
    sz := 0
    pid := 0
    parent := none
    chan := none
    killed := false
    xstate := 0
    state := .unused }

/-- What `fork` copies to the child while it holds the child's lock. -/
def copyFrom (np parent : Proc) : Proc :=
  { np with
    sz := parent.sz
    ofile := fun fd => (parent.ofile fd).or (np.ofile fd)
    cwd := parent.cwd }

/-- What `fork` sets in the child while it holds `wait_lock`. -/
def adopt (np : Proc) (i : Slot) (parent : Proc) : Proc :=
  { np with parent := some i, mask := parent.mask, queue := parent.queue }

/-- `exit` closes the files and drops the current directory. -/
def closeFiles (p : Proc) : Proc := { p with ofile := fun _ => none, cwd := none }

/-- The last critical section of `exit`. -/
def zombify (status ticks : Word) (p : Proc) : Proc :=
  { p with xstate := status, state := .zombie, etime := ticks }

/-! ## Sleeping, waking and running -/

/-- `sleep`, up to `sched`. -/
def sleepOn (ch : Chan) (ticks : Word) (p : Proc) : Proc :=
  { p with chan := some ch, state := .sleeping, stime := ticks }

/-- One iteration of `wakeup`. -/
def wakeup (ch : Option Chan) (ticks : Word) (p : Proc) : Proc :=
  let wakes := p.state = .sleeping ∧ p.chan = ch
  { p with
    state := if wakes then .runnable else p.state
    stime := if wakes then ticks - p.stime else p.stime }

/-- `kill`, at the slot it looks for. -/
def kill (p : Proc) : Proc :=
  { p with killed := true, state := if p.state = .sleeping then .runnable else p.state }

/-- One iteration of `update_time`. -/
def updateTime (p : Proc) : Proc :=
  { p with rtime := if p.state = .running then p.rtime + 1 else p.rtime }

/-! ## Priorities -/

/-- The niceness of a process. -/
def niceness (p : Proc) : Word :=
  if p.rtime + p.stime ≠ 0 then p.stime * 10 / (p.rtime + p.stime) else 5

/-- The dynamic priority of a process, from 0 to 100. -/
def dynPriority (p : Proc) : Word :=
  let dp := p.priority - p.niceness + 5
  let dp := if BitVec.slt 100 dp then 100 else dp
  if BitVec.slt dp 0 then 0 else dp

/-- `setpriority`, at the slot it looks for. -/
def setpriority (priority : Word) (p : Proc) : Proc :=
  { p with rtime := 0, stime := 0, priority := priority }

end Proc

/-! ## Scheduling -/

/-- The scheduler the kernel is built with. -/
inductive Build
  | RR
  | FCFS
  | PBS
  | MLFQ
  deriving DecidableEq

namespace Proc

/-- What a scheduler sets in the process it switches to. -/
def dispatch (ticks : Word) (b : Build) (p : Proc) : Proc :=
  { p with
    state := .running
    ntime := if b = .PBS ∨ b = .MLFQ then p.ntime + 1 else p.ntime
    lastQtime := if b = .MLFQ then ticks else p.lastQtime
    qticks := fun q =>
      if b = .MLFQ ∧ q.val = p.queue.toNat then p.qticks q + 1 <<< p.queue.toNat else p.qticks q }

/-- The ageing pass of MLFQ promotes a process. -/
def Ages (ticks : Word) (p : Proc) : Prop :=
  p.state = .runnable ∧ p.queue ≠ 0 ∧ BitVec.ult (BitVec.ofNat 32 MAXAGE) (ticks - p.lastQtime)

instance (ticks : Word) (p : Proc) : Decidable (Ages ticks p) :=
  inferInstanceAs (Decidable (_ ∧ _ ∧ _))

/-- One iteration of the ageing pass of MLFQ. -/
def age (ticks : Word) (p : Proc) : Proc :=
  { p with
    queue := if p.Ages ticks then p.queue - 1 else p.queue
    lastQtime := if p.Ages ticks then ticks else p.lastQtime }

/-- The time slice of a process in MLFQ is over. -/
def SliceOver (ticks : Word) (p : Proc) : Prop := BitVec.ule (1 <<< p.queue.toNat) (ticks - p.lastQtime)

instance (ticks : Word) (p : Proc) : Decidable (SliceOver ticks p) :=
  inferInstanceAs (Decidable (_ = true))

/-- A timer trap of MLFQ demotes a process whose time slice is over. -/
def demote (ticks : Word) (p : Proc) : Proc :=
  { p with queue := if BitVec.slt p.queue 4 then p.queue + 1 else p.queue, lastQtime := ticks }

end Proc

/-- What the selection loop of a scheduler knows: the process selected so far,
and (in PBS) its dynamic priority. -/
structure Selection where
  proc : Option Slot
  maxDp : Word

/-- The selection loop before its first iteration. -/
def Selection.start : Selection := ⟨none, 101⟩

/-- One iteration of the selection loop of a scheduler, at slot `i`. RR has no
such loop. -/
def select (b : Build) (proc : Slot → Proc) (sel : Selection) (i : Slot) : Selection :=
  let p := proc i
  if p.state ≠ .runnable then sel
  else match b with
  | .RR => sel
  | .FCFS =>
    match sel.proc with
    | none => { sel with proc := some i }
    | some q => if p.ctime < (proc q).ctime then { sel with proc := some i } else sel
  | .PBS =>
    let dp := p.dynPriority
    if BitVec.slt dp sel.maxDp then ⟨some i, dp⟩
    else if dp = sel.maxDp then
      match sel.proc with
      | none => sel
      | some q =>
        if p.ntime < (proc q).ntime then { sel with proc := some i }
        else if p.ntime = (proc q).ntime ∧ p.ctime < (proc q).ctime then { sel with proc := some i }
        else sel
    else sel
  | .MLFQ =>
    match sel.proc with
    | none => { sel with proc := some i }
    | some q =>
      if BitVec.slt p.queue (proc q).queue ∨ (p.queue = (proc q).queue ∧ BitVec.slt p.lastQtime (proc q).lastQtime) then
        { sel with proc := some i }
      else sel

end Xv6
