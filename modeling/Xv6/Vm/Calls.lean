import Xv6.Proc.Dispatch
import Xv6.Vm.File
import Xv6.Vm.Kvm

/-!
# The system calls that allocate and free memory

`fork`, `exit`, `wait` and `waitx` of `kernel/proc.c`, and the calls of
`kernel/sysproc.c` and `kernel/sysfile.c` on memory and file descriptors, on
the whole kernel: physical memory, the process table and the file table. A
call runs as one step, and any process that is alive may make one; locks,
wakeups and the scheduler are not modelled here (see `Xv6.Proc.Machine`). A
call that panics has no result.

`step L` is the system, and `boot L m` its state after `userinit`, when `m` was
in memory before.
-/

namespace Xv6.Vm

open Framework Machine Function

structure Sys where
  kmem : Kmem
  proc : Slot → MProc
  file : Ftable
  nextpid : Word
  kernelPagetable : Nat

namespace Sys

/-- The process table, without what belongs to memory. -/
def procs (s : Sys) : Slot → Proc := fun i => (s.proc i).toProc

/-- A call has changed physical memory and the slot of `p`. -/
def setProc (s : Sys) (k : Kmem) (i : Slot) (p : MProc) : Sys :=
  { s with kmem := k, proc := update s.proc i p }

/-- A call has changed physical memory. -/
def setKmem (s : Sys) (k : Kmem) : Sys := { s with kmem := k }

/-- A call has changed physical memory and the file table. -/
def setFile (s : Sys) (k : Kmem) (ft : Ftable) : Sys := { s with kmem := k, file := ft }

theorem setProc_self (s : Sys) (k : Kmem) (i : Slot) (p : MProc) : (s.setProc k i p).proc i = p := by
  simp [setProc]

theorem setProc_of_ne {i j : Slot} (h : j ≠ i) (s : Sys) (k : Kmem) (p : MProc) : (s.setProc k i p).proc j = s.proc j := by
  simp only [setProc, update_of_ne h]

theorem setProc_eq_self (s : Sys) (k : Kmem) (i : Slot) : s.setProc k i (s.proc i) = s.setKmem k := by
  rw [setProc, setKmem, update_eq_self]

theorem setProc_setProc (s : Sys) (k k' : Kmem) (i : Slot) (p p' : MProc) :
    (s.setProc k i p).setProc k' i p' = s.setProc k' i p' := by
  rw [setProc, setProc, setProc, update_idem]

end Sys

/-- The process with another file at descriptor `fd`. -/
def MProc.setFd (p : MProc) (fd : Fin NOFILE) (f : Option Nat) : MProc :=
  { p with ofile := update p.ofile fd f }

theorem MProc.setFd_self (p : MProc) (fd : Fin NOFILE) (f : Option Nat) : (p.setFd fd f).ofile fd = f := by
  simp [setFd]

variable {fd : Fin NOFILE}

theorem MProc.setFd_of_ne {fd' : Fin NOFILE} (h : fd' ≠ fd) (p : MProc) (f : Option Nat) :
    (p.setFd fd f).ofile fd' = p.ofile fd' := by
  simp only [setFd, update_of_ne h]

theorem MProc.setFd_setFd (p : MProc) (fd : Fin NOFILE) (f f' : Option Nat) :
    (p.setFd fd f).setFd fd f' = p.setFd fd f' := by
  simp [setFd]

theorem MProc.setFd_eq_self {p : MProc} {f : Option Nat} (h : p.ofile fd = f) :
    p.setFd fd f = p := by
  rw [setFd, ← h, update_eq_self]

variable (L : Layout)

/-! ## `fork` -/

/-- The slot `allocproc` finds. -/
def findUnused (proc : Slot → MProc) : Option Slot :=
  (List.finRange NPROC).find? fun i => (proc i).state = .unused

/-- The loop of `fork` over the open files. -/
def dupFiles (ofile : Fin NOFILE → Option Nat) : List (Fin NOFILE) → Ftable → Option Ftable
  | [], ft => some ft
  | fd :: fds, ft =>
    match ofile fd with
    | none => dupFiles ofile fds ft
    | some f => do dupFiles ofile fds (← filedup ft f)

/-- `*(np->trapframe) = *(p->trapframe)`, and then `a0 = 0` in the child. -/
def copyTrapframe (m : Bytes) (dst src : Nat) : Bytes :=
  write64 (memmove m dst src 288) (dst + 112) 0

/-- What `fork` sets in the child, apart from its memory. -/
def MProc.fork (np : MProc) (p : Slot) (parent : Proc) : MProc :=
  { np with toProc := { (np.toProc.copyFrom parent).adopt p parent with state := .runnable } }

/-- `fork`: the child's number, or -1. -/
def fork (s : Sys) (p : Slot) (ticks : Word) : Option (Word × Sys) :=
  match findUnused s.proc with
  | none => some (-1, s)
  | some i => do
    let pid := s.nextpid
    let s := { s with nextpid := s.nextpid + 1 }
    let (ok, k, np) ← allocproc L s.kmem (s.proc i) pid ticks
    if ok then
      let (ok, k) ← uvmcopy L k (s.proc p).pagetable np.pagetable (s.proc p).sz
      if ok then
        let mem := copyTrapframe k.mem np.trapframe (s.proc p).trapframe
        let ft ← dupFiles (s.proc p).ofile (List.finRange NOFILE) s.file
        some (pid, ({ s with file := ft }).setProc { k with mem := mem } i (np.fork p (s.proc p).toProc))
      else
        let (k, np) ← freeproc L k np
        some (-1, s.setProc k i np)
    else some (-1, s.setProc k i np)

/-! ## `exit` -/

/-- The loop of `exit` over the open files. -/
def closeFiles (p : Slot) : List (Fin NOFILE) → Sys → Option Sys
  | [], s => some s
  | fd :: fds, s =>
    match (s.proc p).ofile fd with
    | none => closeFiles p fds s
    | some f => do
      let (k, ft) ← fileclose L s.kmem s.file f
      closeFiles p fds ((s.setFile k ft).setProc k p ((s.proc p).setFd fd none))

/-- `reparent`. -/
def reparent (proc : Slot → MProc) (p : Slot) : Slot → MProc := fun i =>
  if (proc i).parent = some p then { proc i with parent := some initproc } else proc i

/-- `p->cwd = 0`. -/
def MProc.dropCwd (p : MProc) : MProc := { p with cwd := none }

/-- The last critical section of `exit`. -/
def MProc.zombify (p : MProc) (status ticks : Word) : MProc := { p with toProc := p.toProc.zombify status ticks }

/-- `exit`. The current directory has no pages. -/
def exit (s : Sys) (p : Slot) (status ticks : Word) : Option Sys :=
  if p = initproc then none
  else do
    let s ← closeFiles L p (List.finRange NOFILE) s
    let s := s.setProc s.kmem p (s.proc p).dropCwd
    let s := { s with proc := reparent s.proc p }
    some (s.setProc s.kmem p ((s.proc p).zombify status ticks))

/-! ## `wait` and `waitx` -/

/-- One pass of `wait` or `waitx` by process `p`: what it returns, and the
child that has exited, if it finds one; `none` when the process goes to sleep. -/
def reap (s : Sys) (p : Slot) (addr : Nat) : Option (Option (Word × Option Slot) × Sys) :=
  match scanChildren s.procs p (List.finRange NPROC) false with
  | (_, some i) =>
    let np := s.proc i
    let (ok, k) :=
      if addr ≠ 0 then copyout s.kmem (s.proc p).pagetable addr (UserMem.ofWord np.xstate) 4 else (true, s.kmem)
    if ok then do
      let (k, np') ← freeproc L k np
      some (some (np.pid, some i), s.setProc k i np')
    else some (some (-1, some i), s.setKmem k)
  | (havekids, none) => some (if !havekids || (s.proc p).killed then some (-1, none) else none, s)

/-- `wait`. -/
def wait (s : Sys) (p : Slot) (addr : Nat) : Option (Option Word × Sys) := do
  let (r, s') ← reap L s p addr
  some (r.map Prod.fst, s')

/-- `waitx`: what it returns and stores through its two pointers. The two words
are what they point to at the call. -/
def waitx (s : Sys) (p : Slot) (addr : Nat) (rtime wtime : Word) : Option (Option (Word × Word × Word) × Sys) := do
  let (r, s') ← reap L s p addr
  let times := fun
    | (ret, some i) => (ret, (s.proc i).rtime, (s.proc i).etime - (s.proc i).ctime - (s.proc i).rtime)
    | (ret, none) => (ret, rtime, wtime)
  some (r.map times, s')

/-- `sys_waitx`. Its two local words start with any contents. -/
def sysWaitx (s : Sys) (p : Slot) (addr addr1 addr2 : Nat) (wtime rtime : Word) : Option (Option Word × Sys) := do
  -- waitx(addr, &wtime, &rtime)
  let (r, s) ← waitx L s p addr wtime rtime
  match r with
  | none => some (none, s)
  | some (ret, wtime, rtime) =>
    let (ok, k) := copyout s.kmem (s.proc p).pagetable addr1 (UserMem.ofWord wtime) 4
    if ok then
      let (ok, k) := copyout k (s.proc p).pagetable addr2 (UserMem.ofWord rtime) 4
      some (some (if ok then ret else -1), s.setKmem k)
    else some (some (-1), s.setKmem k)

/-! ## `sbrk` and `exec` -/

/-- `sys_sbrk`. -/
def sysSbrk (s : Sys) (p : Slot) (n : Word) : Option (Word × Sys) := do
  let addr := BitVec.ofNat 32 (s.proc p).sz
  let (ok, k, q) ← growproc L s.kmem (s.proc p) n
  some (if ok then addr else -1, s.setProc k p q)

/-- `sys_exec` on the caller's slot. -/
def execCall (s : Sys) (p : Slot) (namei : List Byte → Option Program) (path uargv : Nat) :
    Option (Option Nat × Sys) := do
  let (r, k, q) ← sysExec L namei s.kmem (s.proc p) path uargv
  some (r, s.setProc k p q)

/-! ## File descriptors -/

/-- `fdalloc`: the descriptor, and the process that has it. -/
def fdalloc (p : MProc) (f : Nat) : Option (Fin NOFILE × MProc) :=
  ((List.finRange NOFILE).find? fun fd => p.ofile fd = none).map fun fd => (fd, p.setFd fd (some f))

/-- `argfd`. -/
def argfd (p : MProc) (fd : Word) : Option (Fin NOFILE × Nat) :=
  if h : fd.toNat < NOFILE then (p.ofile ⟨fd.toNat, h⟩).map fun f => (⟨fd.toNat, h⟩, f) else none

/-- The end of the failing paths of `sys_pipe`. -/
def closeEnds (s : Sys) (rf wf : Nat) : Option (Word × Sys) := do
  let (k, ft) ← fileclose L s.kmem s.file rf
  let (k, ft) ← fileclose L k ft wf
  some (-1, s.setFile k ft)

/-- `sys_pipe`. -/
def sysPipe (s : Sys) (p : Slot) (fdarray : Nat) : Option (Word × Sys) := do
  let (r, k, ft) ← pipealloc L s.kmem s.file
  let s := s.setFile k ft
  match r with
  | none => some (-1, s)
  | some (rf, wf) =>
    match fdalloc (s.proc p) rf with
    | none => closeEnds L s rf wf
    | some (fd0, q) =>
      match fdalloc q wf with
      | none => closeEnds L (s.setProc s.kmem p (q.setFd fd0 none)) rf wf
      | some (fd1, q) =>
        let (ok, k) := copyout s.kmem q.pagetable fdarray (UserMem.ofWord (BitVec.ofNat 32 fd0.val)) 4
        let (ok, k) :=
          if ok then copyout k q.pagetable ((fdarray + 4) % 2 ^ 64) (UserMem.ofWord (BitVec.ofNat 32 fd1.val)) 4
          else (false, k)
        if ok then some (0, s.setProc k p q)
        else closeEnds L (s.setProc k p ((q.setFd fd0 none).setFd fd1 none)) rf wf

/-- `sys_close`. -/
def sysClose (s : Sys) (p : Slot) (fd : Word) : Option (Word × Sys) :=
  match argfd (s.proc p) fd with
  | none => some (-1, s)
  | some (fd, f) => do
    let s := s.setProc s.kmem p ((s.proc p).setFd fd none)
    let (k, ft) ← fileclose L s.kmem s.file f
    some (0, s.setFile k ft)

/-- `sys_dup`. -/
def sysDup (s : Sys) (p : Slot) (fd : Word) : Option (Word × Sys) :=
  match argfd (s.proc p) fd with
  | none => some (-1, s)
  | some (_, f) =>
    match fdalloc (s.proc p) f with
    | none => some (-1, s)
    | some (fd, q) => do
      let ft ← filedup s.file f
      some (BitVec.ofNat 32 fd.val, ({ s with file := ft }).setProc s.kmem p q)

/-- `sys_open`, once it has the inode, which is that of a device or not. -/
def sysOpen (s : Sys) (p : Slot) (device readable writable : Bool) : Option (Word × Sys) :=
  match filealloc s.file with
  | (none, ft) => some (-1, s.setFile s.kmem ft)
  | (some f, ft) =>
    match fdalloc (s.proc p) f with
    | none => do
      let (k, ft) ← fileclose L s.kmem ft f
      some (-1, s.setFile k ft)
    | some (fd, q) =>
      let type := if device then .device else .inode
      let ft := update ft f { ft f with type := type, readable := readable, writable := writable }
      some (BitVec.ofNat 32 fd.val, ({ s with file := ft }).setProc s.kmem p q)

/-! ## User space -/

/-- A store of a byte by a process in user space. One that faults changes
nothing. -/
def userStore (s : Sys) (p : Slot) (va : Nat) (b : Byte) : Sys :=
  let pa := walkaddr s.kmem (s.proc p).pagetable (pgrounddown va)
  if pa = 0 then s
  else s.setKmem { s.kmem with mem := update s.kmem.mem (pa + va % PGSIZE) b }

/-- `uservec` saves the registers, and `syscall` stores its result, in the
trapframe. -/
def saveRegs (s : Sys) (p : Slot) (regs : Bytes) : Sys :=
  s.setKmem { s.kmem with mem := UserMem.move s.kmem.mem (s.proc p).trapframe regs 0 288 }

/-! ## The system -/

/-- What a process does next. -/
inductive Act
  | fork (p : Slot) (ticks : Word)
  | exec (p : Slot) (namei : List Byte → Option Program) (path uargv : Nat)
  | sbrk (p : Slot) (n : Word)
  | pipe (p : Slot) (fdarray : Nat)
  | close (p : Slot) (fd : Word)
  | dup (p : Slot) (fd : Word)
  | openFile (p : Slot) (device readable writable : Bool)
  | exit (p : Slot) (status ticks : Word)
  | wait (p : Slot) (addr : Nat)
  | waitx (p : Slot) (addr addr1 addr2 : Nat) (wtime rtime : Word)
  | store (p : Slot) (va : Nat) (b : Byte)
  | trap (p : Slot) (regs : Bytes)

/-- The process that acts. -/
def Act.caller : Act → Slot
  | .fork p _ | .exec p _ _ _ | .sbrk p _ | .pipe p _ | .close p _ | .dup p _ | .openFile p _ _ _ | .exit p _ _
  | .wait p _ | .waitx p _ _ _ _ _ | .store p _ _ | .trap p _ => p

/-- The kernel after an action; `none` if it panics. -/
def Act.run (s : Sys) : Act → Option Sys
  | .fork p ticks => (Vm.fork L s p ticks).map Prod.snd
  | .exec p namei path uargv => (execCall L s p namei path uargv).map Prod.snd
  | .sbrk p n => (sysSbrk L s p n).map Prod.snd
  | .pipe p fdarray => (sysPipe L s p fdarray).map Prod.snd
  | .close p fd => (sysClose L s p fd).map Prod.snd
  | .dup p fd => (sysDup s p fd).map Prod.snd
  | .openFile p device readable writable => (sysOpen L s p device readable writable).map Prod.snd
  | .exit p status ticks => Vm.exit L s p status ticks
  | .wait p addr => (Vm.wait L s p addr).map Prod.snd
  | .waitx p addr addr1 addr2 wtime rtime => (sysWaitx L s p addr addr1 addr2 wtime rtime).map Prod.snd
  | .store p va b => some (userStore s p va b)
  | .trap p regs => some (saveRegs s p regs)

/-- The system: a process that is alive acts. -/
def step (s : Sys) (a : Act) : Option Sys := if Alive (s.proc a.caller).toProc then a.run L s else none

/-! ## Booting -/

/-- `initcode`. -/
def initcode : List Byte :=
  [0x17, 0x05, 0x00, 0x00, 0x13, 0x05, 0x45, 0x02, 0x97, 0x05, 0x00, 0x00, 0x93, 0x85, 0x35, 0x02,
   0x93, 0x08, 0x70, 0x00, 0x73, 0x00, 0x00, 0x00,
   0x93, 0x08, 0x20, 0x00, 0x73, 0x00, 0x00, 0x00,
   0xef, 0xf0, 0x9f, 0xff, 0x2f, 0x69, 0x6e, 0x69,
   0x74, 0x00, 0x00, 0x24, 0x00, 0x00, 0x00, 0x00,
   0x00, 0x00, 0x00, 0x00]

/-- `userinit` on the first slot. -/
def userinit (k : Kmem) : Option (Kmem × MProc) := do
  let (ok, k, p) ← allocproc L k {} 1 0
  if ok then
    let k ← uvminit k p.pagetable (ofList initcode) initcode.length
    let mem := write64 k.mem (p.trapframe + 24) 0
    let mem := write64 mem (p.trapframe + 48) (BitVec.ofNat 64 PGSIZE)
    -- the inode of the root directory has number 1
    some ({ k with mem := mem }, { p with sz := PGSIZE, cwd := some 1, state := .runnable })
  else none

/-- `main`, up to `userinit`. -/
def boot (m : Bytes) : Option Sys := do
  let k ← kinit L m
  let (kernelPagetable, k) ← kvmmake L k
  let (k, p) ← userinit L k
  some { kmem := k, proc := update (fun _ => {}) initproc p, file := fun _ => {}, nextpid := 2,
         kernelPagetable := kernelPagetable }

end Xv6.Vm
