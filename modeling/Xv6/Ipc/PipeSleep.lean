import Xv6.Ipc.Pipe

/-!
# Sleeping on a pipe

With the lock free, a process that sleeps on `&pi->nwrite` has a full pipe
before it (`sleeping_writer`). A process that sleeps on `&pi->nread` need not
have an empty one: `pipewrite` returns without a `wakeup` when it finds itself
killed, also after it has put bytes into the pipe (`pipe_asleep`). If no process
is killed there, readers sleep only on an empty pipe (`pipe_awake`).
-/

namespace Xv6.Ipc

open Framework Function

variable {n : Nat} {s s' : State n} {pc : Pc} {c : Chan} {a : Act n} {data : Fin PIPESIZE → Byte} {as : List (Act n)}
  {q : Fin n}

namespace Pc

/-- The process sleeps on a channel. -/
def asleep : Chan → Pc → Bool
  | .nread, readSleep .. => true
  | .nwrite, writeSleep .. => true
  | _, _ => false

/-- The process is in a loop that changes the pipe, with a `wakeup` of the
channel after it. -/
def busy : Chan → Pc → Bool
  | .nread, write .. => true
  | .nwrite, copy .. => true
  | _, _ => false

theorem locked_of_busy (h : pc.busy c = true) : pc.locked = true := by
  cases c <;> cases pc <;> first | rfl | cases h

theorem reading_of_asleep (h : pc.asleep .nread = true) : pc.reading = true := by
  cases pc <;> first | rfl | cases h

theorem asleep_wakeup_self (c : Chan) (pc : Pc) : (pc.wakeup c).asleep c = false := by
  cases c <;> cases pc <;> rfl

theorem asleep_wakeup {d : Chan} (h : (pc.wakeup d).asleep c = true) : pc.asleep c = true := by
  cases c <;> cases d <;> cases pc <;> first | rfl | cases h

@[simp]
theorem busy_wakeup (c d : Chan) (pc : Pc) : (pc.wakeup d).busy c = pc.busy c := by
  cases c <;> cases d <;> cases pc <;> rfl

@[simp]
theorem asleep_kill (c : Chan) (pc : Pc) : pc.kill.asleep c = false := by
  cases c <;> cases pc <;> rfl

@[simp]
theorem busy_kill (c : Chan) (pc : Pc) : pc.kill.busy c = pc.busy c := by
  cases c <;> cases pc <;> rfl

end Pc

/-- What a process on the channel waits for cannot be: the pipe is empty, and
more bytes may come; or it is full, and some may be read. -/
def Pipe.Blocked (pi : Pipe) : Chan → Prop
  | .nread => pi.nread = pi.nwrite ∧ pi.writeopen = true
  | .nwrite => pi.nwrite = pi.nread + BitVec.ofNat 32 PIPESIZE ∧ pi.readopen = true

instance (pi : Pipe) (c : Chan) : Decidable (pi.Blocked c) := by
  cases c <;> exact inferInstanceAs (Decidable (_ ∧ _))

/-- Process `q` is going to wake up those on the channel. -/
def State.Wakes (s : State n) (c : Chan) (q : Fin n) : Prop :=
  (s.pc q).busy c = true ∧ (c = .nread → s.killed q = false)

/-- A process sleeps on the channel for a reason, or is going to be woken up. -/
def Covered (c : Chan) (s : State n) : Prop :=
  ∀ p, (s.pc p).asleep c = true → s.pipe.Blocked c ∨ ∃ q, s.Wakes c q

theorem not_wakes (hq : s.pc q = pc) (hb : pc.busy c = false) :
    ¬s.Wakes c q := by
  rintro ⟨h, -⟩
  rw [hq, hb] at h
  cases h

theorem not_wakes_of_free (hc : Control s) (hl : s.lock = none) (c : Chan) (q : Fin n) :
    ¬s.Wakes c q := by
  rintro ⟨h, -⟩
  have := (hc.lock q).mp (Pc.locked_of_busy h)
  rw [hl] at this
  cases this

namespace Covered

variable {c : Chan} {s s' : State n} {p : Fin n} {pc : Pc}

theorem of_awake (h : ∀ p, (s.pc p).asleep c = false) : Covered c s := by
  intro p hp
  rw [h p] at hp
  cases hp

theorem init (c : Chan) (data : Fin PIPESIZE → Byte) : Covered c (State.init n data) :=
  of_awake fun _ => by cases c <;> rfl

/-- With the lock free, there is a reason. -/
theorem blocked (h : Covered c s) (hc : Control s) (hl : s.lock = none) (hp : (s.pc p).asleep c = true) :
    s.pipe.Blocked c := by
  rcases h p hp with hb | ⟨q, hq⟩
  · exact hb
  · exact absurd hq (not_wakes_of_free hc hl c q)

/-- A process that has the lock, and does not wake up those on the channel, finds
a reason for their sleep. -/
theorem blocked_of_lock (h : Covered c s) (hc : Control s) (hp : (s.pc p).locked = true) (hw : ¬s.Wakes c p)
    (hq : (s.pc q).asleep c = true) : s.pipe.Blocked c := by
  rcases h q hq with hb | ⟨r, hr⟩
  · exact hb
  · rw [hc.eq_of_locked hp (Pc.locked_of_busy hr.1)] at hr
    exact absurd hr hw

/-- A process goes on somewhere, and those that were to be woken up still are. -/
theorem goto (h : Covered c s) (ha : pc.asleep c = true → s.pipe.Blocked c)
    (hw : ∀ q, (s.pc q).asleep c = true → s.Wakes c p → pc.busy c = true) : Covered c (s.goto p pc) := by
  intro q hq
  by_cases hqp : q = p
  · subst hqp
    simp only [State.goto, update_self] at hq
    exact .inl (ha hq)
  · simp only [State.goto, update_of_ne hqp] at hq
    refine (h q hq).imp_right ?_
    rintro ⟨r, hr⟩
    refine ⟨r, ?_, hr.2⟩
    by_cases hrp : r = p
    · subst hrp
      simpa only [State.goto, update_self] using hw q hq hr
    · simpa only [State.goto, update_of_ne hrp] using hr.1

theorem wakeup (h : Covered c s) (d : Chan) : Covered c (s.wakeup d) := by
  intro q hq
  refine (h q (Pc.asleep_wakeup hq)).imp_right ?_
  rintro ⟨r, hr⟩
  exact ⟨r, by simpa only [State.wakeup, Pc.busy_wakeup] using hr.1, hr.2⟩

/-- A process that was not going to wake up anybody goes on. -/
theorem goto_of_not (h : Covered c s) (hw : ¬s.Wakes c p) (ha : pc.asleep c = true → s.pipe.Blocked c) :
    Covered c (s.goto p pc) :=
  h.goto ha fun _ _ hw' => absurd hw' hw

theorem wakeup_goto (h : Covered c s) (d : Chan) (hw : ¬s.Wakes c p) (ha : pc.asleep c = true → s.pipe.Blocked c) :
    Covered c ((s.wakeup d).goto p pc) := by
  refine (h.wakeup d).goto_of_not ?_ ha
  simpa only [State.Wakes, State.wakeup, Pc.busy_wakeup] using hw

/-- A `wakeup` of the channel before the process goes on. -/
theorem woken (s : State n) (p : Fin n) (ha : pc.asleep c = false) : Covered c ((s.wakeup c).goto p pc) := by
  refine of_awake fun q => ?_
  by_cases hq : q = p
  · subst hq
    simpa only [State.goto, update_self] using ha
  · simp only [State.goto, update_of_ne hq]
    exact Pc.asleep_wakeup_self c (s.pc q)

theorem kill (h : Covered c s) (hp : c = .nread → (s.pc p).busy .nread = false) : Covered c (s.kill p) := by
  intro q hq
  by_cases hqp : q = p
  · subst hqp
    simp [State.kill] at hq
  · simp only [State.kill, update_of_ne hqp] at hq
    refine (h q hq).imp_right ?_
    rintro ⟨r, hr⟩
    by_cases hrp : r = p
    · subst hrp
      refine ⟨r, by simpa [State.kill] using hr.1, ?_⟩
      rintro rfl
      exact absurd hr.1 (by simp [hp rfl])
    · refine ⟨r, ?_, ?_⟩
      · simpa [State.kill, update_of_ne hrp] using hr.1
      · simpa [State.kill, update_of_ne hrp] using hr.2

end Covered

/-- The writers that sleep, over one step. -/
theorem Covered.nwrite_step (h : Covered .nwrite s) (hc : Control s) (hs : Step s a s') :
    Covered .nwrite s' := by
  cases hs with
  | callWrite hl | callRead hl => exact h.goto_of_not (not_wakes_of_free hc hl _ _) nofun
  | closeWrite => exact wakeup (s := { s with pipe := { s.pipe with writeopen := false } }) h .nread
  | closeRead => exact of_awake fun q => Pc.asleep_wakeup_self _ _
  | giveUp hp | readKilled hp | empty hp | copy hp | resumeWrite _ hp | resumeRead _ hp =>
    exact h.goto_of_not (not_wakes hp rfl) nofun
  | full hp ho hf => exact h.wakeup_goto .nread (not_wakes hp rfl) fun _ => ⟨hf, ho⟩
  | @insert p src m i hp _ hf ch =>
    -- the pipe is not full, and so no writer sleeps
    have ha : Covered .nwrite (s.insert ch) := by
      intro q hq
      exact absurd (h.blocked_of_lock hc (by rw [hp]; rfl) (not_wakes hp rfl) hq).1 hf
    exact ha.goto_of_not (not_wakes hp rfl) nofun
  | writeEnd hp => exact h.wakeup_goto .nread (not_wakes hp rfl) nofun
  | @remove p _ _ _ hp =>
    intro q _
    exact .inr ⟨p, by simp [State.goto, Pc.busy], nofun⟩
  | lose | readEnd => exact woken _ _ rfl
  | kill p => exact h.kill nofun

/-- A process is killed in `pipewrite`, with the lock. -/
def State.Cruel (s : State n) : Act n → Prop
  | .kill p => (s.pc p).busy .nread = true
  | _ => False

instance (s : State n) (a : Act n) : Decidable (s.Cruel a) := by
  cases a <;> simp only [State.Cruel] <;> infer_instance

/-- The readers that sleep, over one step. -/
theorem Covered.nread_step (h : Covered .nread s) (hc : Control s) (ha : ¬s.Cruel a)
    (hs : Step s a s') : Covered .nread s' := by
  cases hs with
  | callWrite | resumeWrite => exact h.goto (by rintro ⟨⟩) fun _ _ _ => rfl
  | callRead hl => exact h.goto_of_not (not_wakes_of_free hc hl _ _) (by rintro ⟨⟩)
  | closeWrite => exact of_awake fun q => Pc.asleep_wakeup_self _ _
  | closeRead => exact wakeup (s := { s with pipe := { s.pipe with readopen := false } }) h .nwrite
  | giveUp hp hwhy =>
    refine h.goto (by rintro ⟨⟩) fun q hq hw => ?_
    rcases hwhy with ho | hk
    · -- without a read end there are no readers
      have hr := hc.reading q (Pc.reading_of_asleep hq)
      rw [ho] at hr
      cases hr
    · have := hw.2 rfl
      rw [hk] at this
      cases this
  | readKilled hp | copy hp | resumeRead _ hp => exact h.goto_of_not (not_wakes hp rfl) (by rintro ⟨⟩)
  | empty hp ho he => exact h.goto_of_not (not_wakes hp rfl) fun _ => ⟨he, ho⟩
  | full | writeEnd => exact woken _ _ rfl
  | @insert p src m i hp hk hf ch =>
    intro q _
    exact .inr ⟨p, by simp [State.goto, Pc.busy], fun _ => hk⟩
  | @remove p dst m i hp hne =>
    have hr : Covered .nread (s.remove true) := by
      intro q hq
      exact absurd (h.blocked_of_lock hc (by rw [hp]; rfl) (not_wakes hp rfl) hq).1 hne
    exact hr.goto_of_not (not_wakes hp rfl) (by rintro ⟨⟩)
  | @lose p dst m i hp hne =>
    have hr : Covered .nread (s.remove false) := by
      intro q hq
      exact absurd (h.blocked_of_lock hc (by rw [hp]; rfl) (not_wakes hp rfl) hq).1 hne
    exact hr.wakeup_goto .nwrite (not_wakes hp rfl) (by rintro ⟨⟩)
  | readEnd hp => exact h.wakeup_goto .nwrite (not_wakes hp rfl) (by rintro ⟨⟩)
  | kill p => exact h.kill fun _ => by simpa [State.Cruel] using ha

theorem run_nwrite (hr : Run step (State.init n data) as s) : Control s ∧ Covered .nwrite s :=
  hr.invariant (I := fun s => Control s ∧ Covered .nwrite s) ⟨Control.init n data, Covered.init .nwrite data⟩
    fun h hs => ⟨h.1.step (step_step hs), h.2.nwrite_step h.1 (step_step hs)⟩

/-- A writer sleeps only on a full pipe that can be read. -/
theorem sleeping_writer (hr : Run step (State.init n data) as s) (hl : s.lock = none) {p : Fin n}
    (hp : (s.pc p).asleep .nwrite = true) : s.pipe.Blocked .nwrite := by
  obtain ⟨hc, hw⟩ := run_nwrite hr
  exact hw.blocked hc hl hp

/-- The system in which nobody is killed in `pipewrite` with the lock held. -/
def calmStep (s : State n) (a : Act n) : Option (State n) := if s.Cruel a then none else step s a

theorem calmStep_eq_some : calmStep s a = some s' ↔ ¬s.Cruel a ∧ step s a = some s' := by
  rw [calmStep]
  split <;> simp_all

theorem run_nread (hr : Run calmStep (State.init n data) as s) : Control s ∧ Covered .nread s := by
  refine hr.invariant (I := fun s => Control s ∧ Covered .nread s) ⟨Control.init n data, Covered.init .nread data⟩
    fun h hs => ?_
  obtain ⟨ha, hs⟩ := calmStep_eq_some.mp hs
  exact ⟨h.1.step (step_step hs), h.2.nread_step h.1 ha (step_step hs)⟩

/-- Two processes, one of which reads and goes to sleep. The other writes a byte,
and is killed before the next. -/
def pipeAsleepRun : List (Act 2) :=
  [.piperead 1 (fun _ => true) 1, .next 1, .pipewrite 0 (fun _ => some 65) 2, .next 0, .kill 0, .next 0]

/-- The reader sleeps, and the byte is in the pipe. -/
theorem pipe_asleep : ∃ s, Run step (State.init 2 fun _ => 0) pipeAsleepRun s ∧ s.lock = none ∧
    (s.pc 1).asleep .nread = true ∧ ¬s.pipe.Blocked .nread :=
  exists_run _ _ _ (by decide +kernel)

/-- If no process is killed while it holds the lock in `pipewrite`, no reader or
writer sleeps on a pipe that is ready for it. -/
theorem pipe_awake {s : State n} {data : Fin PIPESIZE → Byte} {as : List (Act n)}
    (hr : Run calmStep (State.init n data) as s) (hl : s.lock = none) (p : Fin n) :
    ((s.pc p).asleep .nread = true → s.pipe.nread = s.pipe.nwrite ∧ s.pipe.writeopen = true) ∧
      ((s.pc p).asleep .nwrite = true →
        s.pipe.nwrite = s.pipe.nread + BitVec.ofNat 32 PIPESIZE ∧ s.pipe.readopen = true) := by
  obtain ⟨hc, hn⟩ := run_nread hr
  exact ⟨hn.blocked hc hl, sleeping_writer (hr.mono fun hs => (calmStep_eq_some.mp hs).2) hl⟩

/-- A reader sleeps, is woken up by a writer that is killed after its call, and
sleeps again. -/
def pipeAwakeRun : List (Act 2) :=
  [.piperead 1 (fun _ => true) 1, .next 1, .pipewrite 0 (fun _ => some 65) 1, .next 0, .next 0, .kill 0, .resume 1,
    .next 1, .next 1, .next 1, .piperead 1 (fun _ => true) 1, .next 1]

theorem pipe_awake_again : ∃ s, Run calmStep (State.init 2 fun _ => 0) pipeAwakeRun s ∧
    s.delivered = [65] ∧ s.pipe.nread = s.pipe.nwrite ∧ s.pipe.writeopen = true := by
  obtain ⟨s, hr, hl, hd, hp⟩ := exists_run calmStep (State.init 2 fun _ => 0) pipeAwakeRun
    (Q := fun s => s.lock = none ∧ s.delivered = [65] ∧ (s.pc 1).asleep .nread = true) (by decide +kernel)
  exact ⟨s, hr, hd, (pipe_awake hr hl 1).1 hp⟩

end Xv6.Ipc
