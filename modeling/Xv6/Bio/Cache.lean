import Xv6.Framework.Ring
import Xv6.Fs.Inode
import Xv6.Log.Group

/-!
# The buffer cache

`kernel/bio.c`, and what the log and the file system do with buffers, run by
any number of processes at once. A critical section of `bcache.lock`, the
taking of a buffer's sleep lock and its release are one step each, and so is
what a process does with the data of buffers it has locked: to read it from the
disk, to change it, to log or to write it. The log itself is that of
`Xv6.Log.Group`; a step of `commit` that works on buffers is taken here
together with them. Until `initlog` returns there are no operations, and the
recovery writes what it likes to buffers it has locked.

`Work` is where the holder of a buffer is in the code that uses it. All code
that changes the data logs or writes the buffer before it releases it, but for
`writei`: when the copy from user space stops part way, it releases the buffer
as it is.
-/

namespace Xv6.Bio

open Framework
open Log (BlockNo Block Area Logged)

/-- Size of the buffer cache. -/
abbrev NBUF : Nat := MAXOPBLOCKS * 3

instance (priority := high) : NeZero NBUF := ⟨by decide⟩

/-- Device number of the file system. -/
abbrev ROOTDEV : BitVec 32 := 1

/-- What the holder of a buffer has done with it. -/
inductive Work
  /-- It has the lock, but has not looked at `valid` yet. -/
  | locked
  /-- The data is as it was read, logged or written. -/
  | clean
  /-- The data has been changed, and is to be logged. -/
  | changed
  /-- The copy of `writei` from user space has failed. -/
  | broken
  deriving DecidableEq

/-- `struct buf`. The sleep lock is its holder; `work` is no field of it. -/
structure Buf (P : Type) where
  dev : BitVec 32
  blockno : BlockNo
  refcnt : Nat
  valid : Bool
  data : Block
  holder : Option P
  work : Work

/-- Where a process is in `kernel/bio.c`. -/
inductive At
  | run
  /-- In `acquiresleep` of `bget`. -/
  | waiting (b : Fin NBUF)
  /-- In `brelse`, past `releasesleep`. -/
  | releasing (b : Fin NBUF)
  deriving DecidableEq

/-- `bcache`, the log, the disk, and the processes that use them. -/
structure Cache (P : Type) where
  links : Links (Fin NBUF)
  buf : Fin NBUF → Buf P
  pc : P → At
  log : Log.Group P
  disk : BlockNo → Block
  /-- `initlog` has not returned yet. -/
  booting : Bool

/-- A step of one process. -/
inductive Act (P : Type)
  /-- `bget`, up to `acquiresleep`. -/
  | bget (p : P) (blockno : BlockNo)
  | acquiresleep (p : P) (b : Fin NBUF)
  /-- The rest of `bread`. -/
  | bread (p : P) (b : Fin NBUF)
  /-- The file system changes the data, in an operation. -/
  | change (p : P) (b : Fin NBUF) (data : Block)
  /-- The copy in `writei` of `m` bytes to offset `off`, of which those in `vs` are mapped. -/
  | copyin (p : P) (b : Fin NBUF) (off m : Nat) (vs : List Byte)
  | logWrite (p : P) (b : Fin NBUF)
  /-- An iteration of `write_log`. -/
  | writeLog (p : P) (lbuf dbuf : Fin NBUF)
  | writeHead (p : P) (b : Fin NBUF)
  /-- An iteration of `install_trans`. -/
  | install (p : P) (lbuf dbuf : Fin NBUF)
  /-- A `bwrite` in `recover_from_log`. -/
  | recover (p : P) (b : Fin NBUF) (data : Block)
  /-- `initlog` returns. -/
  | initlog
  /-- A step of the log that uses no buffer. -/
  | log (a : Log.Act P)
  /-- `brelse`, up to the end of `releasesleep`. -/
  | releasesleep (p : P) (b : Fin NBUF)
  /-- The critical section of `brelse`. -/
  | brelse (p : P) (b : Fin NBUF)

variable {P : Type}

/-- The links after `binit`. -/
def binit : Links (Fin NBUF) := (List.finRange NBUF).foldl Links.pushFront ⟨fun _ => none, fun _ => none⟩

/-- The cache after `binit`, and the log as `initlog` will leave it. -/
def initial (P : Type) (size : Int) (disk : BlockNo → Block) : Cache P where
  links := binit
  buf _ := { dev := 0, blockno := 0, refcnt := 0, valid := false, data := fun _ => 0, holder := none, work := .clean }
  pc _ := .run
  log := Log.initial P size
  disk := disk
  booting := true

namespace Cache

variable [DecidableEq P]

def setBuf (s : Cache P) (b : Fin NBUF) (x : Buf P) : Cache P := { s with buf := Function.update s.buf b x }

def setPc (s : Cache P) (p : P) (x : At) : Cache P := { s with pc := Function.update s.pc p x }

/-- `bwrite`, of the data `data` in buffer `b`. -/
def bwrite (s : Cache P) (b : Fin NBUF) (data : Block) : Cache P :=
  { s.setBuf b { s.buf b with data := data } with disk := Function.update s.disk (s.buf b).blockno data }

/-- Process `p` runs and has buffer `b`, in state `w`. -/
def Has (s : Cache P) (p : P) (b : Fin NBUF) (w : Work) : Prop :=
  s.pc p = .run ∧ (s.buf b).holder = some p ∧ (s.buf b).work = w

instance (s : Cache P) (p : P) (b : Fin NBUF) (w : Work) : Decidable (s.Has p b w) :=
  inferInstanceAs (Decidable (_ ∧ _ ∧ _))

end Cache

section Code

variable [DecidableEq P] (L : Area) (s : Cache P)

/-- The buffer in which a block is cached. -/
def lookup (dev : BitVec 32) (blockno : BlockNo) : Option (Fin NBUF) :=
  walk s.links.next (fun b => (s.buf b).dev = dev ∧ (s.buf b).blockno = blockno) NBUF (s.links.next none)

/-- The least recently used buffer without references. -/
def unused : Option (Fin NBUF) := walk s.links.prev (fun b => (s.buf b).refcnt = 0) NBUF (s.links.prev none)

/-- `bget`, up to `acquiresleep`; `none` is its panic. -/
def bget (p : P) (dev : BitVec 32) (blockno : BlockNo) : Option (Cache P) :=
  match lookup s dev blockno with
  | some b => some ((s.setBuf b { s.buf b with refcnt := (s.buf b).refcnt + 1 }).setPc p (.waiting b))
  | none =>
    match unused s with
    | some b =>
      let x := { s.buf b with dev := dev, blockno := blockno, valid := false, refcnt := 1 }
      some ((s.setBuf b x).setPc p (.waiting b))
    | none => none

def acquiresleep (p : P) (b : Fin NBUF) : Cache P :=
  (s.setBuf b { s.buf b with holder := some p, work := .locked }).setPc p .run

/-- `bread`, once it has the lock. -/
def bread (b : Fin NBUF) : Cache P :=
  if (s.buf b).valid then s.setBuf b { s.buf b with work := .clean }
  else s.setBuf b { s.buf b with data := s.disk (s.buf b).blockno, valid := true, work := .clean }

/-- The copy in `writei` from user space. -/
def copyin (b : Fin NBUF) (off m : Nat) (vs : List Byte) : Cache P :=
  s.setBuf b { s.buf b with
    data := Fs.putBytes (s.buf b).data off vs
    work := if vs.length = m then .changed else .broken }

/-- `log_write`, which pins the buffer if it adds its block to the log. -/
def logWrite (p : P) (b : Fin NBUF) : Option (Cache P) := do
  let log ← Log.step s.log (.logWrite p (s.buf b).blockno)
  let s' := { s with log := log }
  if log.panicked.isSome then some s'
  else
    let added := Log.absorb s.log.lh (s.buf b).blockno = s.log.lh.n
    some (s'.setBuf b { s.buf b with
      refcnt := if added then (s.buf b).refcnt + 1 else (s.buf b).refcnt
      work := .clean })

/-- An iteration of `write_log`. -/
def writeLog (p : P) (lbuf dbuf : Fin NBUF) : Option (Cache P) := do
  let log ← Log.step s.log (.commit p)
  some { s.bwrite lbuf (s.buf dbuf).data with log := log }

/-- `write_head`. -/
def writeHead (p : P) (b : Fin NBUF) : Option (Cache P) := do
  let log ← Log.step s.log (.commit p)
  some { s.bwrite b (Log.fillHead (s.buf b).data s.log.lh) with log := log }

/-- An iteration of `install_trans`, with the `bunpin`. -/
def install (p : P) (lbuf dbuf : Fin NBUF) : Option (Cache P) := do
  let log ← Log.step s.log (.commit p)
  let s := { s.bwrite dbuf (s.buf lbuf).data with log := log }
  some (s.setBuf dbuf { s.buf dbuf with refcnt := (s.buf dbuf).refcnt - 1 })

def releasesleep (p : P) (b : Fin NBUF) : Cache P :=
  (s.setBuf b { s.buf b with holder := none }).setPc p (.releasing b)

/-- The critical section of `brelse`. -/
def brelse (p : P) (b : Fin NBUF) : Cache P :=
  let s := (s.setBuf b { s.buf b with refcnt := (s.buf b).refcnt - 1 }).setPc p .run
  if (s.buf b).refcnt = 0 then { s with links := (s.links.unlink b).pushFront b } else s

/-- The iteration of a loop of `commit` over the log that comes next. -/
def tail : Log.At → Option Nat
  | .commit (.writeLog tail) => some tail
  | .commit (.install tail) => some tail
  | _ => none

/-- A step of the log that uses no buffer. A process ends an operation when it
has released all buffers. -/
def plain : Log.Act P → Prop
  | .logWrite .. => False
  | .endOp p => s.pc p = .run ∧ ∀ b, (s.buf b).holder ≠ some p
  | .commit p => s.pc p = .run ∧ s.log.pc p ≠ Log.At.commit .writeHead ∧ s.log.pc p ≠ Log.At.commit .eraseHead ∧
      ∀ i ∈ tail (s.log.pc p), s.log.lh.n ≤ i
  | .beginOp p | .endCommit p | .kill p => s.pc p = .run

instance (a : Log.Act P) : Decidable (plain s a) := by
  cases a <;> simp only [plain] <;> infer_instance

/-- The step of an action, if the process is where it can take it. -/
def step (a : Act P) : Option (Cache P) :=
  if s.log.panicked.isSome then none
  else match a with
  | .bget p blockno => if s.pc p = .run then bget s p ROOTDEV blockno else none
  | .acquiresleep p b =>
    if s.pc p = .waiting b ∧ (s.buf b).holder = none then some (acquiresleep s p b) else none
  | .bread p b => if s.Has p b .locked then some (bread s b) else none
  | .change p b data =>
    if s.log.pc p = .inOp ∧ (s.Has p b .clean ∨ s.Has p b .changed) then
      some (s.setBuf b { s.buf b with data := data, work := .changed })
    else none
  | .copyin p b off m vs =>
    if s.log.pc p = .inOp ∧ s.Has p b .clean ∧ vs.length ≤ m then some (copyin s b off m vs) else none
  | .logWrite p b => if s.Has p b .clean ∨ s.Has p b .changed then logWrite s p b else none
  | .writeLog p lbuf dbuf =>
    match s.log.pc p with
    | .commit (.writeLog tail) =>
      if tail < s.log.lh.n ∧ lbuf ≠ dbuf ∧ s.Has p lbuf .clean ∧ s.Has p dbuf .clean ∧
          (s.buf lbuf).blockno = L.logBlock tail ∧ (s.buf dbuf).blockno = s.log.lh.block tail then
        writeLog s p lbuf dbuf
      else none
    | _ => none
  | .writeHead p b =>
    if (s.log.pc p = .commit .writeHead ∨ s.log.pc p = .commit .eraseHead) ∧ s.Has p b .clean ∧
        (s.buf b).blockno = L.start then writeHead s p b
    else none
  | .install p lbuf dbuf =>
    match s.log.pc p with
    | .commit (.install tail) =>
      if tail < s.log.lh.n ∧ lbuf ≠ dbuf ∧ s.Has p lbuf .clean ∧ s.Has p dbuf .clean ∧
          (s.buf lbuf).blockno = L.logBlock tail ∧ (s.buf dbuf).blockno = s.log.lh.block tail then
        install s p lbuf dbuf
      else none
    | _ => none
  | .recover p b data => if s.booting ∧ s.Has p b .clean then some (s.bwrite b data) else none
  | .initlog => some { s with booting := false }
  | .log a =>
    if s.booting = false ∧ plain s a then (Log.step s.log a).map fun log => { s with log := log } else none
  | .releasesleep p b =>
    if s.Has p b .clean ∨ s.Has p b .broken then some (releasesleep s p b) else none
  | .brelse p b => if s.pc p = .releasing b then some (brelse s p b) else none

end Code

end Xv6.Bio
