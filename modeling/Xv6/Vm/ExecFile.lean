import Xv6.Vm.Owners

/-!
# `exec` and the file of the program

`exec` again, with what the model of memory leaves out: the name of the process,
and the transaction, the inode and the lock that a call holds while it reads the
file. A call that fails has changed nothing (`exec_atomic`); one that succeeds
gives the program its arguments (`exec_arguments`).
-/

namespace Xv6.Vm

open Framework Machine Option Multiset

variable {L : Layout} {k k' : Kmem} {l l' : List Nat} {p : MProc} {ip : Option Program}

/-- What a process holds of the file system: open transactions, references to an
inode, and the lock of the inode. -/
structure Ops where
  outstanding : Nat := 0
  ref : Nat := 0
  locked : Bool := false

namespace Ops

def beginOp (o : Ops) : Ops := { o with outstanding := o.outstanding + 1 }

def endOp (o : Ops) : Option Ops := if o.outstanding = 0 then none else some { o with outstanding := o.outstanding - 1 }

/-- `namei` returns a reference. -/
def namei (o : Ops) : Ops := { o with ref := o.ref + 1 }

/-- `ilock` sleeps for ever if the process has the lock itself. -/
def ilock (o : Ops) : Option Ops := if o.locked then none else some { o with locked := true }

def iunlockput (o : Ops) : Option Ops :=
  if o.locked ∧ o.ref ≠ 0 then some { o with ref := o.ref - 1, locked := false } else none

end Ops

/-- The loop of `exec` that finds the last element of `path`. -/
def lastElem : List Byte → List Byte → List Byte
  | [], last => last
  | c :: s, last => if c = 0 then last else if c = 47 then lastElem s s else lastElem s last

/-- `safestrcpy` to `p->name`. -/
def safestrcpy (s : List Byte) (n : Nat) : List Byte := (s.takeWhile (· ≠ 0)).take (n - 1)

/-- `exec` of the file that `namei` finds at `path`. -/
def execFile (L : Layout) (o : Ops) (name : List Byte) (k : Kmem) (p : MProc) (path : List Byte) (ip : Option Program)
    (argv : List Nat) : Option (Option Nat × Ops × List Byte × Kmem × MProc) :=
  let o := o.beginOp
  match ip with
  | none => do
    let o ← o.endOp
    some (none, o, name, k, p)
  | some ip => do
    let o ← o.namei.ilock
    -- `bad:` while `ip` is set
    let bad := fun k => do
      let o ← o.iunlockput
      let o ← o.endOp
      some (none, o, name, k, p)
    if ip.readi 0 64 ≠ 64 then bad k
    else if ip.magic ≠ ELF_MAGIC then bad k
    else
      let (pagetable, k) ← procPagetable L k p.trapframe
      match pagetable with
      | none => bad k
      | some pagetable =>
        let (ok, k, sz) ← loadSegments L ip pagetable ip.phnum k (ip.phoff % 2 ^ 32) 0
        if ok then
          let o ← o.iunlockput
          let o ← o.endOp
          let (k, sz, out) ← buildStack L argv k pagetable sz
          match out with
          | none =>
            let k ← procFreepagetable L k pagetable sz
            some (none, o, name, k, p)
          | some (argc, sp) =>
            let mem := setTrapframe k.mem p.trapframe sp ip.entry
            let k ← procFreepagetable L { k with mem := mem } p.pagetable p.sz
            some (some argc, o, safestrcpy (lastElem path path) 16, k, p.remap pagetable sz)
        else
          let k ← procFreepagetable L k pagetable sz
          bad k

/-- `sys_exec`. -/
def sysExecFile (L : Layout) (namei : List Byte → Option Program) (o : Ops) (name : List Byte) (k : Kmem) (p : MProc)
    (path uargv : Nat) : Option (Option Nat × Ops × List Byte × Kmem × MProc) :=
  let (ok, s) := copyinstr k p.pagetable path MAXPATH
  if ok then
    let (ok, k, argv) := fetchArgs p uargv MAXARG k []
    if ok then do
      let (r, o, name, k, p) ← execFile L o name k p s (namei s) argv
      let k ← freeArgs L k argv
      some (r, o, name, k, p)
    else do
      let k ← freeArgs L k argv
      some (none, o, name, k, p)
  else some (none, o, name, k, p)

/-- A call gives back what it holds of the file system, and is `exec` besides. -/
theorem execFile_eq (o : Ops) (ho : o.locked = false) (name path : List Byte) (argv : List Nat) :
    execFile L o name k p path ip argv = (exec L k p ip argv).map fun r =>
      (r.1, o, if r.1 = none then name else safestrcpy (lastElem path path) 16, r.2.1, r.2.2) := by
  have hend : o.beginOp.endOp = some o := rfl
  have hlock : o.beginOp.namei.ilock = some { o.beginOp.namei with locked := true } := by
    rw [Ops.ilock, if_neg (by rw [Ops.namei, Ops.beginOp, ho]; decide)]
  have hput : ({ o.beginOp.namei with locked := true } : Ops).iunlockput = some o.beginOp := by
    rw [Ops.iunlockput, if_pos ⟨rfl, Nat.succ_ne_zero _⟩]
    cases o
    cases ho
    rfl
  cases ip with
  | none => simp only [execFile, exec, hend, bind_eq_bind, bind_some, map_some, if_true]
  | some ip =>
    simp only [execFile, exec, hlock, hput, hend, bind_eq_bind, bind_some]
    split
    · rfl
    split
    · rfl
    cases procPagetable L k p.trapframe with
    | none => rfl
    | some r =>
      obtain ⟨pagetable, k⟩ := r
      simp only [bind_some]
      cases pagetable with
      | none => rfl
      | some pagetable =>
        simp only [buildImage_eq]
        cases loadSegments L ip pagetable ip.phnum k (ip.phoff % 2 ^ 32) 0 with
        | none => rfl
        | some r =>
          obtain ⟨ok, k, sz⟩ := r
          simp only [bind_some]
          cases ok with
          | false =>
            simp only [Bool.false_eq_true, if_false, bind_some]
            cases procFreepagetable L k pagetable sz with
            | none | some k => rfl
          | true =>
            simp only [if_true]
            cases buildStack L argv k pagetable sz with
            | none => rfl
            | some r =>
              obtain ⟨k, sz, out⟩ := r
              simp only [bind_some]
              cases out with
              | none =>
                cases procFreepagetable L k pagetable sz with
                | none | some k => rfl
              | some out =>
                obtain ⟨argc, sp⟩ := out
                simp only
                cases procFreepagetable L { k with mem := setTrapframe k.mem p.trapframe sp ip.entry } p.pagetable p.sz with
                | none | some k => rfl

/-- `sys_exec` is the call of the model of memory, with the name. -/
theorem sysExecFile_eq (namei : List Byte → Option Program) (o : Ops) (ho : o.locked = false) (name : List Byte)
    (path uargv : Nat) :
    sysExecFile L namei o name k p path uargv = (sysExec L namei k p path uargv).map fun r =>
      (r.1, o, if r.1 = none then name
        else safestrcpy (lastElem (copyinstr k p.pagetable path MAXPATH).2 (copyinstr k p.pagetable path MAXPATH).2) 16,
        r.2.1, r.2.2) := by
  simp only [sysExecFile, sysExec]
  split
  swap
  · rfl
  rcases fetchArgs p uargv MAXARG k [] with ⟨ok, k1, argv⟩
  cases ok with
  | false =>
    simp only [Bool.false_eq_true, if_false, bind_eq_bind]
    cases freeArgs L k1 argv with
    | none | some k => rfl
  | true =>
    simp only [if_true, execFile_eq o ho, bind_eq_bind]
    cases exec L k1 p (namei (copyinstr k p.pagetable path MAXPATH).2) argv with
    | none => rfl
    | some r =>
      obtain ⟨r, k2, p'⟩ := r
      simp only [map_some, bind_some]
      cases freeArgs L k2 argv with
      | none | some k => rfl

end Xv6.Vm
