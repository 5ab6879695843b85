import Xv6.Framework.Bytes
import Xv6.Framework.Circular
import Xv6.Framework.Run
import Xv6.Param

/-!
# Pipes

`pipewrite`, `piperead` and `pipeclose` of `kernel/pipe.c`, for any number of
processes with one pipe, and the part of `kill` that concerns them. A step is an
iteration of a loop with `pi->lock` held, so that a process can be killed
between any two bytes; `sleep` and `wakeup` are one step each, as `Xv6.Sleep`
justifies. A process is in `pipewrite` or in `piperead` only while the end is
open, and `fileclose` closes an end when nobody uses it any more. The bytes that
were put into the pipe and those that were delivered to readers are recorded.
-/

namespace Xv6.Ipc

open Framework Function

abbrev PIPESIZE : Nat := 512

/-- `struct pipe`, but for its lock. -/
structure Pipe where
  data : Fin PIPESIZE → Byte
  nread : BitVec 32
  nwrite : BitVec 32
  readopen : Bool
  writeopen : Bool

/-- `pipealloc`. -/
def Pipe.init (data : Fin PIPESIZE → Byte) : Pipe := ⟨data, 0, 0, true, true⟩

/-- The channels `&pi->nread` and `&pi->nwrite`. -/
inductive Chan
  | nread
  | nwrite
  deriving DecidableEq

/-- Where a process is. A byte of its buffer that is not mapped is `none` in
`src`, and `false` in `dst`. -/
inductive Pc
  | outside
  /-- `pipewrite`, at the test of the loop. -/
  | write (src : Nat → Option Byte) (n : Int) (i : Nat)
  | writeSleep (src : Nat → Option Byte) (n : Int) (i : Nat)
  /-- `pipewrite`, woken up and without the lock. -/
  | writeWoken (src : Nat → Option Byte) (n : Int) (i : Nat)
  /-- `pipewrite(n)` has returned. -/
  | wrote (n ret : Int)
  /-- `piperead`, at the test of the first loop. -/
  | read (dst : Nat → Bool) (n : Int)
  | readSleep (dst : Nat → Bool) (n : Int)
  /-- `piperead`, woken up and without the lock. -/
  | readWoken (dst : Nat → Bool) (n : Int)
  /-- `piperead`, at the test of the second loop. -/
  | copy (dst : Nat → Bool) (n : Int) (i : Nat)
  /-- `piperead(n)` has returned. -/
  | got (n ret : Int)

namespace Pc

/-- The process has `pi->lock`. -/
def locked : Pc → Bool
  | write .. | read .. | copy .. => true
  | _ => false

/-- The process is in `pipewrite`. -/
def writing : Pc → Bool
  | write .. | writeSleep .. | writeWoken .. => true
  | _ => false

/-- The process is in `piperead`. -/
def reading : Pc → Bool
  | read .. | readSleep .. | readWoken .. | copy .. => true
  | _ => false

/-- The process after a `wakeup`. -/
def wakeup : Chan → Pc → Pc
  | .nread, readSleep dst n => readWoken dst n
  | .nwrite, writeSleep src n i => writeWoken src n i
  | _, pc => pc

/-- The process after a `kill`. -/
def kill : Pc → Pc
  | readSleep dst n => readWoken dst n
  | writeSleep src n i => writeWoken src n i
  | pc => pc

end Pc

/-- The pipe and its users. -/
structure State (n : Nat) where
  pipe : Pipe
  lock : Option (Fin n)
  pc : Fin n → Pc
  killed : Fin n → Bool
  /-- The bytes taken from writers, in order. -/
  inserted : List Byte
  /-- The bytes delivered to readers, in order. -/
  delivered : List Byte

variable {n i : Nat}

namespace State

def init (n : Nat) (data : Fin PIPESIZE → Byte) : State n where
  pipe := Pipe.init data
  lock := none
  pc _ := .outside
  killed _ := false
  inserted := []
  delivered := []

variable (s : State n) (p : Fin n)

/-- Process `p` goes on at `pc`, and has the lock if it has it there. -/
def goto (pc : Pc) : State n :=
  { s with lock := if pc.locked then some p else none, pc := update s.pc p pc }

def wakeup (c : Chan) : State n := { s with pc := fun q => (s.pc q).wakeup c }

/-- `pi->data[pi->nwrite++ % PIPESIZE] = ch` -/
def insert (ch : Byte) : State n :=
  { s with
    pipe := { s.pipe with
      data := update s.pipe.data (cell PIPESIZE s.pipe.nwrite) ch
      nwrite := s.pipe.nwrite + 1 }
    inserted := s.inserted ++ [ch] }

/-- `ch = pi->data[pi->nread++ % PIPESIZE]`, and `copyout` if the address is
mapped. -/
def remove (mapped : Bool) : State n :=
  { s with
    pipe := { s.pipe with nread := s.pipe.nread + 1 }
    delivered := if mapped then s.delivered ++ [s.pipe.data (cell PIPESIZE s.pipe.nread)] else s.delivered }

/-- The end of `pipewrite`. -/
def writeEnd (m : Int) (i : Nat) : State n := (s.wakeup .nread).goto p (.wrote m i)

/-- An iteration of the loop of `pipewrite`. -/
def pipewrite (src : Nat → Option Byte) (m : Int) (i : Nat) : State n :=
  if i < m then
    if !s.pipe.readopen ∨ s.killed p then s.goto p (.wrote m (-1))
    else if s.pipe.nwrite = s.pipe.nread + BitVec.ofNat 32 PIPESIZE then
      (s.wakeup .nread).goto p (.writeSleep src m i)
    else
      match src i with
      | none => s.writeEnd p m i
      | some ch => (s.insert ch).goto p (.write src m (i + 1))
  else s.writeEnd p m i

/-- An iteration of the first loop of `piperead`. -/
def piperead (dst : Nat → Bool) (m : Int) : State n :=
  if s.pipe.nread = s.pipe.nwrite ∧ s.pipe.writeopen then
    if s.killed p then s.goto p (.got m (-1)) else s.goto p (.readSleep dst m)
  else s.goto p (.copy dst m 0)

/-- The end of `piperead`. -/
def readEnd (m : Int) (i : Nat) : State n := (s.wakeup .nwrite).goto p (.got m i)

/-- An iteration of the second loop of `piperead`. -/
def pipecopy (dst : Nat → Bool) (m : Int) (i : Nat) : State n :=
  if i < m then
    if s.pipe.nread = s.pipe.nwrite then s.readEnd p m i
    else if dst i then (s.remove true).goto p (.copy dst m (i + 1))
    else (s.remove false).readEnd p m i
  else s.readEnd p m i

def pipeclose (writable : Bool) : State n :=
  if writable then { s with pipe := { s.pipe with writeopen := false } }.wakeup .nread
  else { s with pipe := { s.pipe with readopen := false } }.wakeup .nwrite

/-- What a process does next with the lock held. -/
def next : Option (State n) :=
  match s.pc p with
  | .write src m i => some (s.pipewrite p src m i)
  | .read dst m => some (s.piperead p dst m)
  | .copy dst m i => some (s.pipecopy p dst m i)
  | _ => none

/-- `sleep` returns. -/
def resume : Option (State n) :=
  match s.pc p with
  | .writeWoken src m i => some (s.goto p (.write src m i))
  | .readWoken dst m => some (s.goto p (.read dst m))
  | _ => none

def kill : State n :=
  { s with killed := update s.killed p true, pc := update s.pc p (s.pc p).kill }

/-- An end is open, and nobody is in the code for it. -/
def unused (writable : Bool) : Prop :=
  if writable then s.pipe.writeopen ∧ ∀ q, (s.pc q).writing = false
  else s.pipe.readopen ∧ ∀ q, (s.pc q).reading = false

instance (writable : Bool) : Decidable (s.unused writable) := inferInstanceAs (Decidable (ite ..))

end State

/-- What happens next. -/
inductive Act (n : Nat)
  | pipewrite (p : Fin n) (src : Nat → Option Byte) (m : Int)
  | piperead (p : Fin n) (dst : Nat → Bool) (m : Int)
  | pipeclose (writable : Bool)
  | next (p : Fin n)
  | resume (p : Fin n)
  | kill (p : Fin n)

/-- The pipe as a system. -/
def step (s : State n) : Act n → Option (State n)
  | .pipewrite p src m =>
    if s.lock = none ∧ !(s.pc p).writing ∧ !(s.pc p).reading ∧ s.pipe.writeopen then some (s.goto p (.write src m 0))
    else none
  | .piperead p dst m =>
    if s.lock = none ∧ !(s.pc p).writing ∧ !(s.pc p).reading ∧ s.pipe.readopen then some (s.goto p (.read dst m))
    else none
  | .pipeclose writable => if s.lock = none ∧ s.unused writable then some (s.pipeclose writable) else none
  | .next p => s.next p
  | .resume p => if s.lock = none then s.resume p else none
  | .kill p => some (s.kill p)

/-! ## What a step does -/

/-- The steps of the system, one by one. -/
inductive Step (s : State n) : Act n → State n → Prop
  | callWrite {p : Fin n} {src : Nat → Option Byte} {m : Int} (free : s.lock = none)
    (isOpen : s.pipe.writeopen = true) : Step s (.pipewrite p src m) (s.goto p (.write src m 0))
  | callRead {p : Fin n} {dst : Nat → Bool} {m : Int} (free : s.lock = none) (isOpen : s.pipe.readopen = true) :
    Step s (.piperead p dst m) (s.goto p (.read dst m))
  | closeWrite (free : s.lock = none) (unused : ∀ q, (s.pc q).writing = false) :
    Step s (.pipeclose true) (s.pipeclose true)
  | closeRead (free : s.lock = none) (unused : ∀ q, (s.pc q).reading = false) :
    Step s (.pipeclose false) (s.pipeclose false)
  /-- `pipewrite` has nobody to write to, or is killed. -/
  | giveUp {p : Fin n} {src : Nat → Option Byte} {m : Int} {i : Nat} (pc : s.pc p = .write src m i)
    (why : s.pipe.readopen = false ∨ s.killed p = true) : Step s (.next p) (s.goto p (.wrote m (-1)))
  | full {p : Fin n} {src : Nat → Option Byte} {m : Int} {i : Nat} (pc : s.pc p = .write src m i)
    (isOpen : s.pipe.readopen = true) (isFull : s.pipe.nwrite = s.pipe.nread + BitVec.ofNat 32 PIPESIZE) :
    Step s (.next p) ((s.wakeup .nread).goto p (.writeSleep src m i))
  | insert {p : Fin n} {src : Nat → Option Byte} {m : Int} {i : Nat} (pc : s.pc p = .write src m i)
    (alive : s.killed p = false) (space : s.pipe.nwrite ≠ s.pipe.nread + BitVec.ofNat 32 PIPESIZE) (ch : Byte) :
    Step s (.next p) ((s.insert ch).goto p (.write src m (i + 1)))
  | writeEnd {p : Fin n} {src : Nat → Option Byte} {m : Int} {i : Nat} (pc : s.pc p = .write src m i) :
    Step s (.next p) (s.writeEnd p m i)
  /-- `piperead` is killed. -/
  | readKilled {p : Fin n} {dst : Nat → Bool} {m : Int} (pc : s.pc p = .read dst m) :
    Step s (.next p) (s.goto p (.got m (-1)))
  | empty {p : Fin n} {dst : Nat → Bool} {m : Int} (pc : s.pc p = .read dst m)
    (isOpen : s.pipe.writeopen = true) (isEmpty : s.pipe.nread = s.pipe.nwrite) :
    Step s (.next p) (s.goto p (.readSleep dst m))
  | copy {p : Fin n} {dst : Nat → Bool} {m : Int} (pc : s.pc p = .read dst m)
    (ready : s.pipe.nread = s.pipe.nwrite → s.pipe.writeopen = false) : Step s (.next p) (s.goto p (.copy dst m 0))
  | remove {p : Fin n} {dst : Nat → Bool} {m : Int} {i : Nat} (pc : s.pc p = .copy dst m i)
    (nonempty : s.pipe.nread ≠ s.pipe.nwrite) : Step s (.next p) ((s.remove true).goto p (.copy dst m (i + 1)))
  /-- The byte is lost in a buffer that is not mapped. -/
  | lose {p : Fin n} {dst : Nat → Bool} {m : Int} {i : Nat} (pc : s.pc p = .copy dst m i)
    (nonempty : s.pipe.nread ≠ s.pipe.nwrite) (lt : i < m) (unmapped : dst i = false) :
    Step s (.next p) ((s.remove false).readEnd p m i)
  | readEnd {p : Fin n} {dst : Nat → Bool} {m : Int} {i : Nat} (pc : s.pc p = .copy dst m i)
    (why : m ≤ i ∨ s.pipe.nread = s.pipe.nwrite) : Step s (.next p) (s.readEnd p m i)
  | resumeWrite {p : Fin n} {src : Nat → Option Byte} {m : Int} {i : Nat} (free : s.lock = none)
    (pc : s.pc p = .writeWoken src m i) : Step s (.resume p) (s.goto p (.write src m i))
  | resumeRead {p : Fin n} {dst : Nat → Bool} {m : Int} (free : s.lock = none) (pc : s.pc p = .readWoken dst m) :
    Step s (.resume p) (s.goto p (.read dst m))
  | kill (p : Fin n) : Step s (.kill p) (s.kill p)

variable {s s' : State n} {p : Fin n} {m : Int} {dst : Nat → Bool} {a : Act n}

theorem pipewrite_step {src : Nat → Option Byte} (hp : s.pc p = .write src m i) :
    Step s (.next p) (s.pipewrite p src m i) := by
  rw [State.pipewrite]
  split
  · split
    · next h =>
      rw [Bool.not_eq_true'] at h
      exact .giveUp hp h
    · next h =>
      simp only [Bool.not_eq_true', not_or, Bool.not_eq_false, Bool.not_eq_true] at h
      split
      · next hf => exact .full hp h.1 hf
      · next hf =>
        cases src i with
        | none => exact .writeEnd hp
        | some ch => exact .insert hp h.2 hf ch
  · exact .writeEnd hp

theorem piperead_step (hp : s.pc p = .read dst m) :
    Step s (.next p) (s.piperead p dst m) := by
  rw [State.piperead]
  split
  · next h =>
    split
    · exact .readKilled hp
    · exact .empty hp h.2 h.1
  · next h => exact .copy hp fun he => by simpa [he] using h

theorem pipecopy_step (hp : s.pc p = .copy dst m i) :
    Step s (.next p) (s.pipecopy p dst m i) := by
  rw [State.pipecopy]
  split
  · next hi =>
    split
    · next he => exact .readEnd hp (.inr he)
    · next he =>
      split
      · exact .remove hp he
      · next hd => exact .lose hp he hi (by simpa using hd)
  · next hi => exact .readEnd hp (.inl (by omega))

theorem next_step (h : s.next p = some s') : Step s (.next p) s' := by
  rw [State.next] at h
  split at h
  · next hp =>
    cases h
    exact pipewrite_step hp
  · next hp =>
    cases h
    exact piperead_step hp
  · next hp =>
    cases h
    exact pipecopy_step hp
  · cases h

theorem resume_step (hl : s.lock = none) (h : s.resume p = some s') : Step s (.resume p) s' := by
  rw [State.resume] at h
  split at h
  · next hp =>
    cases h
    exact .resumeWrite hl hp
  · next hp =>
    cases h
    exact .resumeRead hl hp
  · cases h

/-- Each action is one of the steps. -/
theorem step_step (h : step s a = some s') : Step s a s' := by
  cases a <;> simp only [step, Option.ite_none_right_eq_some, Option.some.injEq] at h
  case pipewrite =>
    obtain ⟨⟨hl, _, _, ho⟩, rfl⟩ := h
    exact .callWrite hl ho
  case piperead =>
    obtain ⟨⟨hl, _, _, ho⟩, rfl⟩ := h
    exact .callRead hl ho
  case pipeclose writable =>
    obtain ⟨⟨hl, hu⟩, rfl⟩ := h
    cases writable with
    | true => exact .closeWrite hl hu.2
    | false => exact .closeRead hl hu.2
  case next => exact next_step h
  case resume => exact resume_step h.1 h.2
  case kill =>
    cases h
    exact .kill _

/-! ## Who has the lock -/

/-- The lock is held where the code says so, and a process is in the code for
an end only while it is open. -/
structure Control (s : State n) : Prop where
  lock : ∀ p, (s.pc p).locked = true ↔ s.lock = some p
  writing : ∀ p, (s.pc p).writing = true → s.pipe.writeopen = true
  reading : ∀ p, (s.pc p).reading = true → s.pipe.readopen = true

namespace Pc

variable (c : Chan) (pc : Pc)

@[simp]
theorem locked_wakeup : (pc.wakeup c).locked = pc.locked := by cases c <;> cases pc <;> rfl

@[simp]
theorem writing_wakeup : (pc.wakeup c).writing = pc.writing := by cases c <;> cases pc <;> rfl

@[simp]
theorem reading_wakeup : (pc.wakeup c).reading = pc.reading := by cases c <;> cases pc <;> rfl

@[simp]
theorem locked_kill : pc.kill.locked = pc.locked := by cases pc <;> rfl

@[simp]
theorem writing_kill : pc.kill.writing = pc.writing := by cases pc <;> rfl

@[simp]
theorem reading_kill : pc.kill.reading = pc.reading := by cases pc <;> rfl

end Pc

namespace Control

variable {pc : Pc}

theorem init (n : Nat) (data : Fin PIPESIZE → Byte) : Control (State.init n data) where
  lock _ := by simp [State.init, Pc.locked]
  writing _ := by simp [State.init, Pc.writing]
  reading _ := by simp [State.init, Pc.reading]

/-- The process with the lock is the only one that is at a locked place. -/
theorem eq_of_locked (h : Control s) {q : Fin n} (hp : (s.pc p).locked = true) (hq : (s.pc q).locked = true) :
    q = p := by
  have h1 := (h.lock p).mp hp
  have h2 := (h.lock q).mp hq
  exact Option.some.inj (h2.symm.trans h1)

theorem goto (h : Control s) (hl : s.lock = none ∨ s.lock = some p)
    (hw : pc.writing = true → s.pipe.writeopen = true) (hr : pc.reading = true → s.pipe.readopen = true) :
    Control (s.goto p pc) := by
  refine ⟨fun q => ?_, fun q => ?_, fun q => ?_⟩ <;> simp only [State.goto] <;> by_cases hq : q = p
  · subst hq
    simp
  · have := h.lock q
    rw [update_of_ne hq]
    grind
  · subst hq
    simpa using hw
  · rw [update_of_ne hq]
    exact h.writing q
  · subst hq
    simpa using hr
  · rw [update_of_ne hq]
    exact h.reading q

theorem wakeup (h : Control s) (c : Chan) : Control (s.wakeup c) where
  lock q := by simpa [State.wakeup] using h.lock q
  writing q := by simpa [State.wakeup] using h.writing q
  reading q := by simpa [State.wakeup] using h.reading q

theorem insert (h : Control s) (ch : Byte) : Control (s.insert ch) := ⟨h.lock, h.writing, h.reading⟩

theorem remove (h : Control s) (mapped : Bool) : Control (s.remove mapped) := ⟨h.lock, h.writing, h.reading⟩

theorem closeWrite (h : Control s) (hu : ∀ q, (s.pc q).writing = false) : Control (s.pipeclose true) := by
  refine wakeup (s := { s with pipe := { s.pipe with writeopen := false } })
    ⟨h.lock, fun q hq => ?_, h.reading⟩ .nread
  simp [hu q] at hq

theorem closeRead (h : Control s) (hu : ∀ q, (s.pc q).reading = false) : Control (s.pipeclose false) := by
  refine wakeup (s := { s with pipe := { s.pipe with readopen := false } })
    ⟨h.lock, h.writing, fun q hq => ?_⟩ .nwrite
  simp [hu q] at hq

theorem kill (h : Control s) (p : Fin n) : Control (s.kill p) := by
  have hpc : ∀ q, ((s.kill p).pc q).locked = (s.pc q).locked ∧ ((s.kill p).pc q).writing = (s.pc q).writing ∧
      ((s.kill p).pc q).reading = (s.pc q).reading := by
    intro q
    by_cases hq : q = p
    · subst hq
      simp [State.kill]
    · simp [State.kill, update_of_ne hq]
  refine ⟨fun q => ?_, fun q => ?_, fun q => ?_⟩
  · rw [(hpc q).1]
    exact h.lock q
  · rw [(hpc q).2.1]
    exact h.writing q
  · rw [(hpc q).2.2]
    exact h.reading q

/-- At a locked place, the process has the lock and its end is open. -/
theorem here (h : Control s) (hp : s.pc p = pc) (hl : pc.locked = true) :
    s.lock = some p ∧ (pc.writing = true → s.pipe.writeopen = true) ∧
      (pc.reading = true → s.pipe.readopen = true) := by
  subst hp
  exact ⟨(h.lock p).mp hl, h.writing p, h.reading p⟩

theorem step (h : Control s) (hs : Step s a s') : Control s' := by
  cases hs with
  | callWrite hl ho => exact h.goto (.inl hl) (fun _ => ho) nofun
  | callRead hl ho => exact h.goto (.inl hl) nofun fun _ => ho
  | closeWrite _ hu => exact h.closeWrite hu
  | closeRead _ hu => exact h.closeRead hu
  | giveUp hp | readKilled hp => exact h.goto (.inr (h.here hp rfl).1) nofun nofun
  | full hp =>
    obtain ⟨hl, hw, -⟩ := h.here hp rfl
    exact (h.wakeup .nread).goto (.inr hl) hw nofun
  | insert hp _ _ ch =>
    obtain ⟨hl, hw, -⟩ := h.here hp rfl
    exact (h.insert ch).goto (.inr hl) hw nofun
  | writeEnd hp => exact (h.wakeup .nread).goto (.inr (h.here hp rfl).1) nofun nofun
  | empty hp | copy hp =>
    obtain ⟨hl, -, hr⟩ := h.here hp rfl
    exact h.goto (.inr hl) nofun hr
  | remove hp =>
    obtain ⟨hl, -, hr⟩ := h.here hp rfl
    exact (h.remove true).goto (.inr hl) nofun hr
  | lose hp => exact ((h.remove false).wakeup .nwrite).goto (.inr (h.here hp rfl).1) nofun nofun
  | readEnd hp => exact (h.wakeup .nwrite).goto (.inr (h.here hp rfl).1) nofun nofun
  | @resumeWrite p _ _ _ hl hp => exact h.goto (.inl hl) (fun _ => h.writing p (by rw [hp]; rfl)) nofun
  | @resumeRead p _ _ hl hp => exact h.goto (.inl hl) nofun fun _ => h.reading p (by rw [hp]; rfl)
  | kill p => exact h.kill p

end Control

end Xv6.Ipc
