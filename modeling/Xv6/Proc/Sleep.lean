import Xv6.Proc.Table

/-!
# Sleeping and waking, lock by lock

`sleep` and `wakeup` of `kernel/proc.c` with the locks they hold, for `n`
processes that wait for a condition on channel `chan` under the spinlock `lk`. A
step is a statement between two operations on locks; a lock has a holder, and
acquiring it has to wait until it is free. What the processes do with `lk` held
is up to a `Client`: it changes the data that `lk` protects, calls `wakeup`, and
calls `sleep` when it finds the condition false. The scheduler and `kill` take
part, and processes sleep elsewhere, on other channels.
-/

namespace Xv6.Sleep

open Option Function

/-- What a process does next with `lk` held, and where it goes on then. -/
inductive Crit (σ θ : Type)
  | update (d : σ) (t : θ)
  | sleep (t : θ)
  | wakeup (t : θ)
  | release (t : θ)

/-- The code that uses `lk`. A process is at a point `t : θ` of it, and what it
does next may depend on a choice `x : ι`. -/
structure Client (σ θ ι : Type) (n : Nat) where
  chan : Nat
  cond : σ → Bool
  /-- The section under `lk` that a process enters, and where. -/
  enter : Fin n → θ → ι → Option θ
  next : Fin n → θ → σ → ι → Option (Crit σ θ)
  /-- A process calls `sleep` only when the condition is false. -/
  sleep_cond {i : Fin n} {t t' : θ} {d : σ} {x : ι} : next i t d x = some (.sleep t') → cond d = false

/-- Where a process is. -/
inductive Pc (θ : Type) (n : Nat)
  /-- Without `lk`, in the kernel or in user space. -/
  | out (t : θ)
  /-- With `lk` held. -/
  | crit (t : θ)
  /-- `wakeup`, before it looks at process `k`. -/
  | wakeup (t : θ) (k : Nat)
  /-- `wakeup`, with the lock of process `k`. -/
  | wakeupAt (t : θ) (k : Fin n)
  /-- `sleep`, before it acquires `p->lock`. -/
  | sleep (t : θ)
  /-- `sleep`, before it releases `lk`. -/
  | sleepRelease (t : θ)
  /-- `sleep`, before it sets `p->chan` and `p->state`. -/
  | sleepSet (t : θ)
  /-- In `sched`, with `p->lock` not yet released by the scheduler. -/
  | sched (t : θ)
  /-- Switched out, in `sleep`. -/
  | slept (t : θ)
  /-- `sleep`, after `sched` has returned. -/
  | woken (t : θ)
  /-- `sleep`, before it acquires `lk` again. -/
  | reacquire (t : θ)

/-- What the code reads and writes of `struct proc`. -/
structure Proc where
  state : ProcState
  chan : Option Nat := none
  killed : Bool := false

structure State (σ θ : Type) (n : Nat) where
  data : σ
  /-- The holder of `lk`. -/
  lk : Option (Fin n)
  /-- The holder of each `p->lock`; a scheduler holds it for the process. -/
  plock : Fin n → Option (Fin n)
  proc : Fin n → Proc
  pc : Fin n → Pc θ n

inductive Act (ι : Type) (n : Nat)
  /-- The next statement of a process. -/
  | thread (i : Fin n) (x : ι)
  /-- The scheduler releases the lock of a process that has switched to it. -/
  | switch (i : Fin n)
  | dispatch (i : Fin n)
  | yield (i : Fin n)
  | kill (i : Fin n)
  /-- A process sleeps on a channel that is not the client's. -/
  | sleepElsewhere (i : Fin n) (ch : Nat)
  | wakeupElsewhere (i : Fin n) (ch : Nat)

variable {σ θ ι : Type} {n : Nat}

/-- One iteration of `wakeup`. -/
def Proc.wakeup (ch : Nat) (p : Proc) : Proc :=
  if p.state = .sleeping ∧ p.chan = some ch then { p with state := .runnable } else p

/-- `kill`, at the process it looks for. -/
def Proc.kill (p : Proc) : Proc :=
  { p with killed := true, state := if p.state = .sleeping then .runnable else p.state }

namespace State

def setPc (s : State σ θ n) (i : Fin n) (pc : Pc θ n) : State σ θ n := { s with pc := Function.update s.pc i pc }

def setProc (s : State σ θ n) (i : Fin n) (p : Proc) : State σ θ n := { s with proc := Function.update s.proc i p }

def setPlock (s : State σ θ n) (k : Fin n) (holder : Option (Fin n)) : State σ θ n :=
  { s with plock := update s.plock k holder }

end State

/-- The next statement of a running process. -/
def threadStep (C : Client σ θ ι n) (s : State σ θ n) (i : Fin n) (x : ι) : Option (State σ θ n) :=
  match s.pc i with
  | .out t =>
    match C.enter i t x with
    | some t' => if s.lk = none then some { s.setPc i (.crit t') with lk := some i } else none
    | none => none
  | .crit t =>
    match C.next i t s.data x with
    | some (.update d t') => some { s.setPc i (.crit t') with data := d }
    | some (.sleep t') => some (s.setPc i (.sleep t'))
    | some (.wakeup t') => some (s.setPc i (.wakeup t' 0))
    | some (.release t') => some { s.setPc i (.out t') with lk := none }
    | none => none
  | .wakeup t k =>
    if h : k < n then
      if ⟨k, h⟩ = i then some (s.setPc i (.wakeup t (k + 1)))
      else if s.plock ⟨k, h⟩ = none then some ((s.setPlock ⟨k, h⟩ (some i)).setPc i (.wakeupAt t ⟨k, h⟩)) else none
    else some (s.setPc i (.crit t))
  | .wakeupAt t k =>
    some (((s.setProc k ((s.proc k).wakeup C.chan)).setPlock k none).setPc i (.wakeup t (k + 1)))
  | .sleep t => if s.plock i = none then some ((s.setPlock i (some i)).setPc i (.sleepRelease t)) else none
  | .sleepRelease t => some { s.setPc i (.sleepSet t) with lk := none }
  | .sleepSet t =>
    some ((s.setProc i { s.proc i with chan := some C.chan, state := .sleeping }).setPc i (.sched t))
  | .woken t => some (((s.setProc i { s.proc i with chan := none }).setPlock i none).setPc i (.reacquire t))
  | .reacquire t => if s.lk = none then some { s.setPc i (.crit t) with lk := some i } else none
  | .sched _ | .slept _ => none

/-- A process that does not use `lk`. -/
def Pc.isOut : Pc θ n → Bool
  | .out _ => true
  | _ => false

/-- A process that can be switched out by the timer: it holds no lock. -/
def Pc.free : Pc θ n → Bool
  | .out _ | .reacquire _ => true
  | _ => false

def step (C : Client σ θ ι n) (s : State σ θ n) : Act ι n → Option (State σ θ n)
  | .thread i x => if (s.proc i).state = .running then threadStep C s i x else none
  | .switch i =>
    match s.pc i with
    | .sched t => some ((s.setPlock i none).setPc i (.slept t))
    | _ => none
  | .dispatch i =>
    if (s.proc i).state = .runnable ∧ s.plock i = none then
      match s.pc i with
      | .slept t => some (((s.setProc i { s.proc i with state := .running }).setPlock i (some i)).setPc i (.woken t))
      | pc => if pc.free then some (s.setProc i { s.proc i with state := .running, chan := none }) else none
    else none
  | .yield i =>
    if (s.proc i).state = .running ∧ s.plock i = none ∧ (s.pc i).free then
      some (s.setProc i { s.proc i with state := .runnable })
    else none
  | .kill i => if s.plock i = none then some (s.setProc i (s.proc i).kill) else none
  | .sleepElsewhere i ch =>
    if (s.proc i).state = .running ∧ s.plock i = none ∧ (s.pc i).isOut ∧ ch ≠ C.chan then
      some (s.setProc i { s.proc i with chan := some ch, state := .sleeping })
    else none
  | .wakeupElsewhere i ch =>
    if s.plock i = none ∧ ch ≠ C.chan then some (s.setProc i ((s.proc i).wakeup ch)) else none

/-- The processes `live` are about to run, at the points `t`. -/
def start (d : σ) (live : Fin n → Bool) (t : Fin n → θ) : State σ θ n where
  data := d
  lk := none
  plock := fun _ => none
  proc := fun i => { state := if live i then .runnable else .unused }
  pc := fun i => .out (t i)

/-- What the history of a run records. -/
inductive Event (n : Nat)
  /-- A process finds the condition false, and calls `sleep`. -/
  | test (i : Fin n)
  /-- The condition becomes true. -/
  | makeTrue
  /-- A call of `wakeup(chan)` is complete. -/
  | wakeupDone
  deriving DecidableEq

def threadEvent (C : Client σ θ ι n) (s : State σ θ n) (i : Fin n) (x : ι) : Option (Event n) :=
  match s.pc i with
  | .crit t =>
    match C.next i t s.data x with
    | some (.update d _) => if C.cond s.data = false ∧ C.cond d = true then some .makeTrue else none
    | some (.sleep _) => some (.test i)
    | _ => none
  | .wakeup _ k => if k < n then none else some .wakeupDone
  | _ => none

def event (C : Client σ θ ι n) (s : State σ θ n) : Act ι n → Option (Event n)
  | .thread i x => threadEvent C s i x
  | _ => none

/-! ## What one step can do -/

/-- The code paths, with the guards that hold on them and what they report. -/
inductive Step (C : Client σ θ ι n) (s : State σ θ n) : Option (Event n) → State σ θ n → Prop
  -- the client
  | enter {i : Fin n} {t t' : θ} {x : ι} : (s.proc i).state = .running → s.pc i = .out t → s.lk = none →
    C.enter i t x = some t' → Step C s none { s.setPc i (.crit t') with lk := some i }
  | update {i : Fin n} {t t' : θ} {d : σ} {x : ι} : (s.proc i).state = .running → s.pc i = .crit t →
    C.next i t s.data x = some (.update d t') →
    Step C s (if C.cond s.data = false ∧ C.cond d = true then some .makeTrue else none)
      { s.setPc i (.crit t') with data := d }
  | callSleep {i : Fin n} {t t' : θ} {x : ι} : (s.proc i).state = .running → s.pc i = .crit t →
    C.next i t s.data x = some (.sleep t') → Step C s (some (.test i)) (s.setPc i (.sleep t'))
  | callWakeup {i : Fin n} {t t' : θ} {x : ι} : (s.proc i).state = .running → s.pc i = .crit t →
    C.next i t s.data x = some (.wakeup t') → Step C s none (s.setPc i (.wakeup t' 0))
  | release {i : Fin n} {t t' : θ} {x : ι} : (s.proc i).state = .running → s.pc i = .crit t →
    C.next i t s.data x = some (.release t') → Step C s none { s.setPc i (.out t') with lk := none }
  -- `wakeup`
  | wakeupSelf {i : Fin n} {t : θ} : (s.proc i).state = .running → s.pc i = .wakeup t i →
    Step C s none (s.setPc i (.wakeup t (i + 1)))
  | wakeupLock {i k : Fin n} {t : θ} : (s.proc i).state = .running → s.pc i = .wakeup t k → k ≠ i →
    s.plock k = none → Step C s none ((s.setPlock k (some i)).setPc i (.wakeupAt t k))
  | wakeupDone {i : Fin n} {k : Nat} {t : θ} : (s.proc i).state = .running → s.pc i = .wakeup t k → n ≤ k →
    Step C s (some .wakeupDone) (s.setPc i (.crit t))
  | wakeupProc {i k : Fin n} {t : θ} : (s.proc i).state = .running → s.pc i = .wakeupAt t k →
    Step C s none (((s.setProc k ((s.proc k).wakeup C.chan)).setPlock k none).setPc i (.wakeup t (k + 1)))
  -- `sleep`
  | sleepLock {i : Fin n} {t : θ} : (s.proc i).state = .running → s.pc i = .sleep t → s.plock i = none →
    Step C s none ((s.setPlock i (some i)).setPc i (.sleepRelease t))
  | sleepRelease {i : Fin n} {t : θ} : (s.proc i).state = .running → s.pc i = .sleepRelease t →
    Step C s none { s.setPc i (.sleepSet t) with lk := none }
  | sleepSet {i : Fin n} {t : θ} : (s.proc i).state = .running → s.pc i = .sleepSet t →
    Step C s none ((s.setProc i { s.proc i with chan := some C.chan, state := .sleeping }).setPc i (.sched t))
  | tidyUp {i : Fin n} {t : θ} : (s.proc i).state = .running → s.pc i = .woken t →
    Step C s none (((s.setProc i { s.proc i with chan := none }).setPlock i none).setPc i (.reacquire t))
  | reacquire {i : Fin n} {t : θ} : (s.proc i).state = .running → s.pc i = .reacquire t → s.lk = none →
    Step C s none { s.setPc i (.crit t) with lk := some i }
  -- the scheduler
  | switch {i : Fin n} {t : θ} : s.pc i = .sched t → Step C s none ((s.setPlock i none).setPc i (.slept t))
  | dispatch {i : Fin n} {t : θ} : (s.proc i).state = .runnable → s.plock i = none → s.pc i = .slept t →
    Step C s none (((s.setProc i { s.proc i with state := .running }).setPlock i (some i)).setPc i (.woken t))
  -- the rest of the kernel changes a process whose lock is free
  | other {i : Fin n} {p : Proc} : s.plock i = none →
    (p.state = .sleeping → p.chan = some C.chan → (s.proc i).state = .sleeping ∧ (s.proc i).chan = some C.chan) →
    ((s.pc i).free = true ∨ p.state = (s.proc i).state ∨ ((s.proc i).state = .sleeping ∧ p.state = .runnable)) →
    Step C s none (s.setProc i p)

variable {C : Client σ θ ι n} {s s' : State σ θ n} {i : Fin n}

theorem threadStep_cases {x : ι} (hr : (s.proc i).state = .running) (h : threadStep C s i x = some s') :
    Step C s (threadEvent C s i x) s' := by
  cases hpc : s.pc i <;> simp only [threadStep, threadEvent, hpc, some.injEq, reduceCtorEq] at h ⊢
  case out t =>
    split at h
    · obtain ⟨hlk, h⟩ := ite_none_right_eq_some.mp h
      cases h
      exact .enter hr hpc hlk ‹_›
    · cases h
  case crit t =>
    cases hnext : C.next i t s.data x with
    | none =>
      rw [hnext] at h
      cases h
    | some op =>
      cases op <;> simp only [hnext, some.injEq] at h <;> subst h
      case update => exact .update hr hpc hnext
      case sleep => exact .callSleep hr hpc hnext
      case wakeup => exact .callWakeup hr hpc hnext
      case release => exact .release hr hpc hnext
  case wakeup t k =>
    by_cases hk : k < n
    · rw [dif_pos hk] at h
      rw [if_pos hk]
      split at h
      · rename_i hi
        subst hi
        cases h
        exact .wakeupSelf hr hpc
      · obtain ⟨hlock, h⟩ := ite_none_right_eq_some.mp h
        cases h
        exact .wakeupLock hr hpc ‹_› hlock
    · rw [dif_neg hk] at h
      rw [if_neg hk]
      cases h
      exact .wakeupDone hr hpc (Nat.le_of_not_lt hk)
  case wakeupAt t k =>
    subst h
    exact .wakeupProc hr hpc
  case sleep t =>
    obtain ⟨hlock, h⟩ := ite_none_right_eq_some.mp h
    cases h
    exact .sleepLock hr hpc hlock
  case sleepRelease t =>
    subst h
    exact .sleepRelease hr hpc
  case sleepSet t =>
    subst h
    exact .sleepSet hr hpc
  case woken t =>
    subst h
    exact .tidyUp hr hpc
  case reacquire t =>
    obtain ⟨hlk, h⟩ := ite_none_right_eq_some.mp h
    cases h
    exact .reacquire hr hpc hlk

theorem step_cases {a : Act ι n} (h : step C s a = some s') : Step C s (event C s a) s' := by
  cases a with
  | thread i x =>
    obtain ⟨hr, h⟩ := ite_none_right_eq_some.mp h
    exact threadStep_cases hr h
  | switch i =>
    simp only [step] at h
    split at h
    · cases h
      exact .switch ‹_›
    · cases h
  | dispatch i =>
    obtain ⟨⟨hr, hlock⟩, h⟩ := ite_none_right_eq_some.mp h
    split at h
    · cases h
      exact .dispatch hr hlock ‹_›
    · obtain ⟨hfree, h⟩ := ite_none_right_eq_some.mp h
      cases h
      exact .other hlock nofun (.inl hfree)
  | yield i =>
    obtain ⟨⟨hr, hlock, hfree⟩, h⟩ := ite_none_right_eq_some.mp h
    cases h
    exact .other hlock nofun (.inl hfree)
  | kill i =>
    obtain ⟨hlock, h⟩ := ite_none_right_eq_some.mp h
    cases h
    simp only [Proc.kill]
    by_cases hst : (s.proc i).state = .sleeping
    · simp only [if_pos hst]
      exact .other hlock nofun (.inr (.inr ⟨hst, rfl⟩))
    · simp only [if_neg hst]
      exact .other hlock (fun h => absurd h hst) (.inr (.inl rfl))
  | sleepElsewhere i ch =>
    obtain ⟨⟨hr, hlock, hout, hch⟩, h⟩ := ite_none_right_eq_some.mp h
    cases h
    refine .other hlock (fun _ h => absurd (some.inj h) hch) (.inl ?_)
    cases hpc : s.pc i <;> simp [hpc, Pc.isOut, Pc.free] at hout ⊢
  | wakeupElsewhere i ch =>
    obtain ⟨⟨hlock, hch⟩, h⟩ := ite_none_right_eq_some.mp h
    cases h
    simp only [Proc.wakeup]
    split
    · rename_i hw
      exact .other hlock nofun (.inr (.inr ⟨hw.1, rfl⟩))
    · exact .other hlock (fun h1 h2 => ⟨h1, h2⟩) (.inr (.inl rfl))

/-! ## Who holds which lock -/

namespace Pc

def holdsLk : Pc θ n → Bool
  | .crit _ | .wakeup _ _ | .wakeupAt _ _ | .sleep _ | .sleepRelease _ => true
  | _ => false

/-- The process whose lock the thread of process `i` holds. -/
def holds (i : Fin n) : Pc θ n → Option (Fin n)
  | .sleepRelease _ | .sleepSet _ | .sched _ | .woken _ => some i
  | .wakeupAt _ k => some k
  | _ => none

/-- The thread is running, and not where the timer could switch it out. -/
def busy : Pc θ n → Bool
  | .out _ | .reacquire _ | .sched _ | .slept _ => false
  | _ => true

end Pc

structure Locks (s : State σ θ n) : Prop where
  lk {i : Fin n} : s.lk = some i ↔ (s.pc i).holdsLk = true
  plock {i k : Fin n} : s.plock k = some i ↔ (s.pc i).holds i = some k

/-- What a statement of process `i`, which then is at `pc`, does to `lk`. -/
def LkMove (s s' : State σ θ n) (i : Fin n) (pc : Pc θ n) : Prop :=
  (s'.lk = s.lk ∧ pc.holdsLk = (s.pc i).holdsLk) ∨ (s.lk = none ∧ s'.lk = some i ∧ pc.holdsLk = true) ∨
    ((s.pc i).holdsLk = true ∧ s'.lk = none ∧ pc.holdsLk = false)

/-- What it does to the locks of the processes. -/
def PlockMove (s s' : State σ θ n) (i : Fin n) (pc : Pc θ n) : Prop :=
  (s'.plock = s.plock ∧ pc.holds i = (s.pc i).holds i) ∨
  (∃ k, s.plock k = none ∧ s'.plock = update s.plock k (some i) ∧ (s.pc i).holds i = none ∧ pc.holds i = some k) ∨
  ∃ k, (s.pc i).holds i = some k ∧ s'.plock = update s.plock k none ∧ pc.holds i = none

theorem Locks.move (h : Locks s) {pc : Pc θ n} (hpc : s'.pc = Function.update s.pc i pc)
    (hlk : LkMove s s' i pc) (hplock : PlockMove s s' i pc) : Locks s' where
  lk {j} := by
    have hi := h.lk (i := i)
    have hj := h.lk (i := j)
    rw [hpc]
    by_cases hji : j = i
    · subst hji
      rw [update_self]
      rcases hlk with ⟨h1, h2⟩ | ⟨-, h1, h2⟩ | ⟨-, h1, h2⟩
      · rw [h1, h2, hj]
      · simp [h1, h2]
      · simp [h1, h2]
    · rw [update_of_ne hji]
      rcases hlk with ⟨h1, -⟩ | ⟨h0, h1, -⟩ | ⟨h0, h1, -⟩
      · rw [h1, hj]
      · rw [h0] at hj
        rw [h1, ← hj]
        simp [Ne.symm hji]
      · rw [hi.mpr h0] at hj
        rw [h1, ← hj]
        simp [Ne.symm hji]
  plock {j k} := by
    have hj := h.plock (i := j) (k := k)
    rw [hpc]
    by_cases hji : j = i
    · subst hji
      rw [update_self]
      rcases hplock with ⟨h1, h2⟩ | ⟨l, h0, h1, h2, h3⟩ | ⟨l, h0, h1, h2⟩
      · rw [h1, h2, hj]
      · rw [h1, h3, update_apply]
        rw [h2] at hj
        split
        · simp_all
        · rename_i hkl
          rw [hj]
          simp [Ne.symm hkl]
      · rw [h1, h2, update_apply]
        rw [h0] at hj
        split
        · simp
        · rename_i hkl
          rw [hj]
          simp [Ne.symm hkl]
    · rw [update_of_ne hji]
      rcases hplock with ⟨h1, -⟩ | ⟨l, h0, h1, -⟩ | ⟨l, h0, h1, -⟩
      · rw [h1, hj]
      · rw [h1, ← hj, update_apply]
        split
        · rename_i hkl
          subst hkl
          simp [h0, Ne.symm hji]
        · rfl
      · have hi := (h.plock (i := i) (k := l)).mpr h0
        rw [h1, ← hj, update_apply]
        split
        · rename_i hkl
          subst hkl
          simp [hi, Ne.symm hji]
        · rfl

theorem locks_step {ev : Option (Event n)} (h : Locks s) (hs : Step C s ev s') : Locks s' := by
  cases hs with
  | enter _ hpc hlk | reacquire _ hpc hlk =>
    exact h.move rfl (.inr (.inl ⟨hlk, rfl, rfl⟩)) (.inl ⟨rfl, by rw [hpc]; rfl⟩)
  | update _ hpc | callSleep _ hpc | callWakeup _ hpc | wakeupSelf _ hpc | wakeupDone _ hpc | sleepSet _ hpc =>
    exact h.move rfl (.inl ⟨rfl, by rw [hpc]; rfl⟩) (.inl ⟨rfl, by rw [hpc]; rfl⟩)
  | release _ hpc | sleepRelease _ hpc =>
    exact h.move rfl (.inr (.inr ⟨by rw [hpc]; rfl, rfl, rfl⟩)) (.inl ⟨rfl, by rw [hpc]; rfl⟩)
  | @wakeupLock i k t _ hpc _ hlock =>
    exact h.move rfl (.inl ⟨rfl, by rw [hpc]; rfl⟩) (.inr (.inl ⟨k, hlock, rfl, by rw [hpc]; rfl, rfl⟩))
  | @sleepLock i t _ hpc hlock | @dispatch i t _ hlock hpc =>
    exact h.move rfl (.inl ⟨rfl, by rw [hpc]; rfl⟩) (.inr (.inl ⟨i, hlock, rfl, by rw [hpc]; rfl, rfl⟩))
  | @wakeupProc i k t _ hpc =>
    exact h.move rfl (.inl ⟨rfl, by rw [hpc]; rfl⟩) (.inr (.inr ⟨k, by rw [hpc]; rfl, rfl, rfl⟩))
  | @tidyUp i t _ hpc | @switch i t hpc =>
    exact h.move rfl (.inl ⟨rfl, by rw [hpc]; rfl⟩) (.inr (.inr ⟨i, by rw [hpc]; rfl, rfl, rfl⟩))
  | other => exact ⟨h.lk, h.plock⟩

end Xv6.Sleep
