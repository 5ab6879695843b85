import Xv6.Proc.Times

/-!
# What a step does to one process

`Change b s a ev i s'` lists what a step can do to what the schedulers know of
the process in slot `i` (its state, its queue, and the times `last_qtime`,
`stime` and `etime`), with the guards under which it does so; `change_step`
says that every step does one of these to every slot. What holds of the
queues and of the sleeping times is proved by cases on it.
-/

namespace Xv6.Machine

open Framework Function

variable {n : Nat} {b : Build} {s s' : State n} {a : Act n} {ev : Option Event} {i : Slot} {as : List (Act n)}

/-- A change of a process that the schedulers do not see. -/
structure SameSched (p p' : Proc) : Prop where
  state : p'.state = p.state
  queue : p'.queue = p.queue
  lastQtime : p'.lastQtime = p.lastQtime
  qticks : p'.qticks = p.qticks
  stime : p'.stime = p.stime
  etime : p'.etime = p.etime

theorem SameSched.refl (p : Proc) : SameSched p p := ⟨rfl, rfl, rfl, rfl, rfl, rfl⟩

/-- The step is one of `kill`. -/
def kills (s : State n) : Act n → Bool
  | .run c _ =>
    match s.cproc c with
    | some p => (s.pc p matches .kill _ _)
    | none => false
  | _ => false

/-- What a step that reports `ev` does to the process in slot `i`. -/
inductive Change (b : Build) (s : State n) (a : Act n) (ev : Option Event) (i : Slot) (s' : State n) : Prop
  | same (h : SameSched (s.proc i) (s'.proc i))
  /-- The ageing pass promotes it. -/
  | age (c : Fin n) (ha : a = .sched c) (hages : (s.proc i).Ages s.ticks)
    (h : s'.proc i = (s.proc i).age s.ticks) (hpc : s.sched c = .age i)
  | dispatch (c : Fin n) (ch : Option Chan) (ha : a = .sched c) (hst : (s.proc i).state = .runnable)
    (h : s'.proc i = { (s.proc i).dispatch s.ticks b with chan := ch })
  /-- A timer trap ends its time slice. -/
  | demote (c : Fin n) (user : Bool) (ha : a = .timer c user) (hb : b = .MLFQ) (hon : On s c i)
    (hslice : (s.proc i).SliceOver s.ticks) (h : s'.proc i = (s.proc i).demote s.ticks)
    (hy : s'.yielding i = true)
  | yield (c : Fin n) (ha : a = .yield c) (hc : s.cproc c = some i) (hy : s.yielding i = true)
    (h : s'.proc i = { s.proc i with state := .runnable })
  | sleep (c : Fin n) (ch : Chan) (hon : On s c i) (h : s'.proc i = (s.proc i).sleepOn ch s.ticks)
  /-- `wakeup` finds it on its channel. -/
  | wake (hst : (s.proc i).state = .sleeping)
    (h : s'.proc i = { s.proc i with state := .runnable, stime := s.ticks - (s.proc i).stime })
    (hk : kills s a = false)
  /-- `kill` finds it asleep. -/
  | kill (hst : (s.proc i).state = .sleeping)
    (h : s'.proc i = { s.proc i with state := .runnable, killed := true }) (hk : kills s a = true)
  /-- `allocproc` takes the slot for the child of `p`. -/
  | create (p : Slot) (hst : (s.proc i).state = .unused)
    (h : s'.proc i = ((s.proc i).allocproc s.nextpid s.ticks).copyFrom (s.proc p))
  | createFail (hst : (s.proc i).state = .unused)
    (h : s'.proc i = ((s.proc i).take s.nextpid).freeproc ∨
      s'.proc i = ((s.proc i).allocproc s.nextpid s.ticks).freeproc)
  /-- `fork` gives it the queue of its parent. -/
  | adopt (p : Slot) (hst : (s.proc i).state = .used) (h : s'.proc i = (s.proc i).adopt p (s.proc p))
    (hpc : s.pc p = .forkParent i)
  | ready (hst : (s.proc i).state = .used) (h : s'.proc i = { s.proc i with state := .runnable })
  | exit (c : Fin n) (status : Word) (hon : On s c i) (h : s'.proc i = (s.proc i).zombify status s.ticks)
  | reap (hst : (s.proc i).state = .zombie) (h : s'.proc i = (s.proc i).freeproc)
  | reset (priority : Word) (h : s'.proc i = (s.proc i).setpriority priority) (hev : ev = some (.reset i))

/-- Of a step that changes one slot, what it does to all slots. -/
theorem Change.of_update {k : Slot} {p : Proc} (hproc : s'.proc = update s.proc k p)
    (hk : s'.proc k = p → Change b s a ev k s') (i : Slot) : Change b s a ev i s' := by
  by_cases hi : i = k
  · subst hi
    exact hk (by rw [hproc, update_self])
  · refine .same ?_
    rw [hproc, update_of_ne hi]
    exact .refl _

/-- An iteration of `wakeup`. -/
theorem Change.of_wakeup {ch : Option Chan} (hk : kills s a = false) (h : s'.proc i = (s.proc i).wakeup ch s.ticks) :
    Change b s a ev i s' := by
  simp only [Proc.wakeup] at h
  by_cases hw : (s.proc i).state = .sleeping ∧ (s.proc i).chan = ch
  · rw [if_pos hw, if_pos hw] at h
    exact .wake hw.1 h hk
  · rw [if_neg hw, if_neg hw] at h
    refine .same ?_
    rw [h]
    exact .refl _

theorem Change.of_kill (hk : kills s a = true) (h : s'.proc i = (s.proc i).kill) : Change b s a ev i s' := by
  simp only [Proc.kill] at h
  by_cases hst : (s.proc i).state = .sleeping
  · rw [if_pos hst] at h
    exact .kill hst h hk
  · rw [if_neg hst] at h
    refine .same ?_
    rw [h]
    exact ⟨rfl, rfl, rfl, rfl, rfl, rfl⟩

theorem change_step (he : Exclusive s) (hs : Step b s a ev s') (i : Slot) : Change b s a ev i s' := by
  have keep : s'.proc = s.proc → Change b s a ev i s' := fun h => .same (by rw [h]; exact .refl _)
  cases hs with
  | scan | timer | tick | updateTimeDone | wakeupTicksDone | call | goto | waitLock | waitFail => exact keep rfl
  | @age c k _ _ hpc =>
    refine .of_update rfl (fun h => ?_) i
    by_cases hages : (s.proc k).Ages s.ticks
    · exact .age c rfl hages h hpc
    · refine .same ?_
      rw [h, Proc.age, if_neg hages, if_neg hages]
      exact .refl _
  | @dispatch c k _ _ hr => exact .of_update rfl (fun h => .dispatch c _ rfl hr h) i
  | @preempt c k user p hon _ hp =>
    rcases hp with ⟨-, rfl⟩ | ⟨rfl, hslice, rfl⟩
    · exact .of_update rfl (fun h => .same (by rw [h]; exact .refl _)) i
    · exact .of_update rfl (fun h => .demote c user rfl rfl hon hslice h (update_self ..)) i
  | @yield c k hc hy => exact .of_update rfl (fun h => .yield c rfl hc hy h) i
  | updateTime => exact .of_update rfl (fun h => .same (by rw [h]; exact ⟨rfl, rfl, rfl, rfl, rfl, rfl⟩)) i
  | wakeupTicks | wakeup => exact .of_update rfl (.of_wakeup rfl) i
  | priv _ _ hq =>
    refine .of_update rfl (fun h => .same ?_) i
    rw [h]
    cases hq <;> exact ⟨rfl, rfl, rfl, rfl, rfl, rfl⟩
  | @sleep c k _ ch _ hon => exact .of_update rfl (fun h => .sleep c ch hon h) i
  | forkFail _ _ hu hp => exact .of_update rfl (fun h => .createFail hu (by rw [h]; exact hp)) i
  | @forkTake c p _ _ _ _ _ hu => exact .of_update rfl (fun h => .create p hu h) i
  | @forkParent c p np _ _ hpc =>
    exact .of_update rfl (fun h => .adopt p (he.child (i := p) (by rw [hpc]; rfl)) h hpc) i
  | forkReady _ hpc => exact .of_update rfl (fun h => .ready (he.forkReady_used hpc) h) i
  | exitLock | reparentChild =>
    exact .of_update rfl (fun h => .same (by rw [h]; exact ⟨rfl, rfl, rfl, rfl, rfl, rfl⟩)) i
  | reparentWakeup hon hpc | exitWakeup hon hpc =>
    refine .of_update rfl (fun h => ?_) i
    split at h
    · exact .of_wakeup (by simp [kills, hon.cproc, hpc]) h
    · exact .same (by rw [h]; exact .refl _)
  | @zombie c k _ status hon => exact .of_update rfl (fun h => .exit c status hon h) i
  | waitReap _ _ _ hz => exact .of_update rfl (fun h => .reap hz h) i
  | @waitSleep c k _ _ _ _ _ hon => exact .of_update rfl (fun h => .sleep c _ hon h) i
  | kill hon hpc => exact .of_update rfl (.of_kill (by simp [kills, hon.cproc, hpc])) i
  | @setpriority c p k _ priority => exact .of_update rfl (fun h => .reset priority h rfl) i

theorem ticks_step (hs : Step b s a ev s') : s'.ticks = s.ticks + if a.isTick then 1 else 0 := by
  cases hs <;> simp [Act.isTick, State.setProc, State.setPc, State.setSched, State.dispatch, yieldStep, sleepStep,
    wakeupBy, zombieStep, State.off]

theorem ticks_run (h : Run (step b) (boot b n) as s) : s.ticks = BitVec.ofNat 32 (ticksIn as) := by
  induction h with
  | nil => rfl
  | snoc _ hs ih =>
    rw [ticksIn_snoc, ticks_step (step_cases hs), ih, BitVec.ofNat_add]
    split <;> rfl

theorem ticks_toNat (h : Run (step b) (boot b n) as s) (ht : ticksIn as < 2 ^ 32) :
    s.ticks.toNat = ticksIn as := by
  rw [ticks_run h, BitVec.toNat_ofNat, Nat.mod_eq_of_lt ht]

/-! ## Giving up the CPU -/

/-- The step is one of process `i` in `setpriority`, which finds the process it
looks for and lowers its dynamic priority. -/
def Lowers (s : State n) (a : Act n) (i : Slot) : Prop :=
  ∃ (c : Fin n) (op : Op) (priority pid : Word) (k : Slot), a = .run c op ∧ On s c i ∧
    s.pc i = .setpriority priority pid k ∧ (s.proc k).pid = pid ∧
    BitVec.slt ((s.proc k).setpriority priority).dynPriority (s.proc k).dynPriority = true

/-- A process is about to yield since a timer trap, or since a call of
`setpriority`. -/
theorem yielding_step (hs : Step b s a ev s') (hy : s'.yielding i = true) :
    s.yielding i = true ∨ Lowers s a i ∨ (∃ c user, a = .timer c user ∧ On s c i ∧ (b = .RR ∨ b = .MLFQ)) := by
  cases hs with
  | @preempt c k user p hon _ hp =>
    simp only [update_apply] at hy
    split at hy
    · rename_i hk
      subst hk
      exact .inr (.inr ⟨c, user, rfl, hon, hp.imp And.left And.left⟩)
    · exact .inl hy
  | @yield c k =>
    simp only [yieldStep, update_apply] at hy
    split at hy
    · cases hy
    · exact .inl hy
  | @setpriority c j k op priority pid hon hpc hpid =>
    simp only [update_apply] at hy
    split at hy
    · rename_i hj
      subst hj
      exact .inr (.inl ⟨c, op, priority, pid, k, rfl, hon, hpc, hpid, hy⟩)
    · exact .inl hy
  | _ => exact .inl hy

end Xv6.Machine
