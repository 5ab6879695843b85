import Xv6.Proc.Dispatch

/-!
# What a new process has of its slot's past

`allocproc`, `freeproc`, `fork` and `exit` each reset some fields of a slot.
Between them they reset all that a process can see of its own, except
`killed` and `stime`: `kill(0)` finds the slots that are `UNUSED`, whose
process number is 0, and no one resets `stime`. `fork_visible_iff` says that
these two fields are all a child has of its slot's past.

The invariant `Clean` is what `freeproc` and `exit` leave for `fork` to find.
-/

namespace Xv6.Machine

open Framework Function

variable {n : Nat} {b : Build} {s s' s₁ s₂ t t₁ t₂ : State n} {a : Act n} {ev : Option Event} {i : Slot} {pc : Pc}
  {p : Proc}

/-- `exit` has closed the files. -/
def Pc.closed : Pc → Bool
  | .reparent .. | .exitWakeup .. | .exitZombie .. => true
  | _ => false

/-- A slot that is `UNUSED` has no channel, status or files, and neither has a
process that is past closing them. -/
structure Clean (p : Proc) (pc : Pc) : Prop where
  unused : p.state = .unused → p.chan = none ∧ p.xstate = 0 ∧ p.ofile = fun _ => none
  zombie : p.state = .zombie → p.ofile = fun _ => none
  exiting : pc.closed = true → p.ofile = fun _ => none

namespace Clean

variable {p p' : Proc} {pc pc' : Pc}

/-- A process that is alive or in creation, and has not closed its files. -/
theorem of_open (hu : p.state ≠ .unused) (hz : p.state ≠ .zombie) (hpc : pc.closed = false) : Clean p pc :=
  ⟨fun h => absurd h hu, fun h => absurd h hz, fun h => by rw [hpc] at h; cases h⟩

/-- A process that has closed its files. -/
theorem of_closed (hf : p.ofile = fun _ => none) (hu : p.state = .unused → p.chan = none ∧ p.xstate = 0) :
    Clean p pc :=
  ⟨fun h => ⟨(hu h).1, (hu h).2, hf⟩, fun _ => hf, fun _ => hf⟩

/-- A change that keeps the files, and the rest of a slot that is `UNUSED`. -/
theorem keep (h : Clean p pc) (hf : p'.ofile = p.ofile) (hu : p'.state = .unused → p.state = .unused)
    (hz : p'.state = .zombie → p.state = .zombie) (hc : p'.state = .unused → p'.chan = p.chan ∧ p'.xstate = p.xstate) :
    Clean p' pc := by
  refine ⟨fun e => ?_, fun e => hf.trans (h.zombie (hz e)), fun e => hf.trans (h.exiting e)⟩
  rw [(hc e).1, (hc e).2, hf]
  exact h.unused (hu e)

theorem rouse (h : Clean p pc) (hr : Roused p p') (hf : p'.ofile = p.ofile) (hc : p'.chan = p.chan)
    (hx : p'.xstate = p.xstate) : Clean p' pc := by
  refine h.keep hf (fun e => ?_) (fun e => ?_) fun _ => ⟨hc, hx⟩
  all_goals
    rcases hr with hr | ⟨-, hr⟩
    · rwa [hr] at e
    · rw [hr] at e
      cases e

theorem alive (h : Clean p pc) (hp : Alive p') (hf : p'.ofile = p.ofile) : Clean p' pc := by
  have hu : p'.state ≠ .unused := by rcases hp with e | e | e <;> rw [e] <;> decide
  have hz : p'.state ≠ .zombie := by rcases hp with e | e | e <;> rw [e] <;> decide
  exact h.keep hf (fun e => absurd e hu) (fun e => absurd e hz) fun e => absurd e hu

theorem setPc (h : Clean p pc) (hpc : pc'.closed = true → pc.closed = true) : Clean p pc' :=
  ⟨h.unused, h.zombie, fun e => h.exiting (hpc e)⟩

end Clean

/-- A step that changes one slot and one thread. -/
theorem clean_update {j : Slot} (h : ∀ k, Clean (s.proc k) (s.pc k)) (hproc : s'.proc = update s.proc i p)
    (hpc : s'.pc = update s.pc j pc) (hi : Clean p (s.pc i)) (hj : pc.closed = true → (s.pc j).closed = true) :
    ∀ k, Clean (s'.proc k) (s'.pc k) := by
  intro k
  have hclean : Clean (s'.proc k) (s.pc k) := by
    rw [hproc]
    by_cases hk : k = i
    · subst hk
      rwa [update_self]
    · rw [update_of_ne hk]
      exact h k
  rw [hpc]
  by_cases hk : k = j
  · subst hk
    rw [update_self]
    exact hclean.setPc hj
  · rwa [update_of_ne hk]

/-- A step that changes one slot and no thread. -/
theorem clean_proc (h : ∀ k, Clean (s.proc k) (s.pc k))
    (hproc : s'.proc = update s.proc i p) (hpc : s'.pc = s.pc) (hi : Clean p (s.pc i)) :
    ∀ k, Clean (s'.proc k) (s'.pc k) :=
  clean_update (j := i) h hproc (by rw [hpc, update_eq_self]) hi id

/-- A step that changes one thread and no slot. -/
theorem clean_pc (h : ∀ k, Clean (s.proc k) (s.pc k)) (hproc : s'.proc = s.proc)
    (hpc : s'.pc = update s.pc i pc) (hi : pc.closed = true → (s.pc i).closed = true) :
    ∀ k, Clean (s'.proc k) (s'.pc k) :=
  clean_update (i := i) h (by rw [hproc, update_eq_self]) hpc (h i) hi

theorem closed_goto {pc' : Pc} (h : Goto s i pc pc') (hc : pc'.closed = true) : pc.closed = true := by
  cases h <;> first | rfl | cases hc

theorem closed_entry (h : Entry s i pc ev) : pc.closed = false := by cases h <;> rfl

theorem clean_step (he : Exclusive s) (h : ∀ k, Clean (s.proc k) (s.pc k)) (hs : Step b s a ev s') :
    ∀ k, Clean (s'.proc k) (s'.pc k) := by
  have same : ∀ {p : Proc}, p.chan = p.chan ∧ p.xstate = p.xstate := ⟨rfl, rfl⟩
  cases hs with
  | scan | timer | tick | updateTimeDone | wakeupTicksDone => exact h
  | age | updateTime => exact clean_proc h rfl rfl ((h _).keep rfl id id fun _ => same)
  | wakeupTicks | wakeup => exact clean_proc h rfl rfl ((h _).rouse (roused_wakeup ..) rfl rfl rfl)
  | dispatch => exact clean_proc h rfl rfl ((h _).alive (.inr (.inr rfl)) rfl)
  | preempt _ _ hp =>
    refine clean_proc h rfl rfl ?_
    rcases hp with ⟨-, rfl⟩ | ⟨-, -, rfl⟩ <;> exact (h _).keep rfl id id fun _ => same
  | yield => exact clean_proc h rfl rfl ((h _).alive (.inr (.inl rfl)) rfl)
  | call _ _ hent => exact clean_pc h rfl rfl (fun hc => by rw [closed_entry hent] at hc; cases hc)
  | goto _ hg => exact clean_pc h rfl rfl (closed_goto hg)
  | priv hon hpc hq =>
    have hr := hq.state.trans (he.running hon.cproc)
    refine clean_proc h rfl rfl (.of_open ?_ ?_ ?_)
    · rw [hr]; decide
    · rw [hr]; decide
    · rw [hpc]; rfl
  | sleep _ hpc => exact clean_update h rfl rfl ((h _).alive (.inl rfl) rfl) (hpc ▸ id)
  | forkFail _ _ hu hp =>
    refine clean_update h rfl rfl (.of_closed ?_ ?_) (by rintro ⟨⟩)
    · rcases hp with rfl | rfl <;> exact ((h _).unused hu).2.2
    · rcases hp with rfl | rfl <;> exact fun _ => ⟨rfl, rfl⟩
  | @forkTake _ i np _ _ hon _ hu =>
    have hne : i ≠ np := fun e => by
      rw [← e, he.running hon.cproc] at hu
      cases hu
    intro k
    simp only [State.setPc, State.setProc, update_apply]
    by_cases hk : k = i
    · rw [if_neg (hk ▸ hne), if_pos hk, hk]
      exact (h i).setPc (by rintro ⟨⟩)
    by_cases hk' : k = np
    · rw [if_pos hk', if_neg hk, if_pos hk']
      exact .of_open (by rintro ⟨⟩) (by rintro ⟨⟩) rfl
    · rw [if_neg hk', if_neg hk, if_neg hk']
      exact h k
  | forkParent | setpriority => exact clean_update h rfl rfl ((h _).keep rfl id id fun _ => same) (by rintro ⟨⟩)
  | forkReady => exact clean_update h rfl rfl ((h _).alive (.inr (.inl rfl)) rfl) (by rintro ⟨⟩)
  | @exitLock _ i =>
    intro k
    simp only [State.setPc, State.setProc, update_apply]
    split
    · exact .of_closed rfl fun hu => ((h i).unused hu).imp_right And.left
    · exact h k
  | reparentChild _ hpc => exact clean_update h rfl rfl ((h _).keep rfl id id fun _ => same) (fun _ => by rw [hpc]; rfl)
  | reparentWakeup _ hpc | exitWakeup _ hpc =>
    refine clean_update h rfl rfl ?_ (fun _ => by rw [hpc]; rfl)
    split
    · exact (h _).rouse (roused_wakeup ..) rfl rfl rfl
    · exact h _
  | zombie _ hpc => exact clean_update h rfl rfl (.of_closed ((h _).exiting (by rw [hpc]; rfl)) (by rintro ⟨⟩)) (by rintro ⟨⟩)
  | waitLock | waitFail => exact clean_pc h rfl rfl (by rintro ⟨⟩)
  | waitReap _ _ _ hz => exact clean_update h rfl rfl (.of_closed ((h _).zombie hz) fun _ => ⟨rfl, rfl⟩) (by rintro ⟨⟩)
  | waitSleep => exact clean_update h rfl rfl ((h _).alive (.inl rfl) rfl) (by rintro ⟨⟩)
  | kill => exact clean_update h rfl rfl ((h _).rouse (roused_kill _) rfl rfl rfl) (by rintro ⟨⟩)

theorem clean_boot (k : Slot) : Clean ((boot b n).proc k) ((boot b n).pc k) := by
  refine .of_closed ?_ fun _ => ?_ <;> simp only [boot, update_apply] <;> split <;>
    first | rfl | exact ⟨rfl, rfl⟩

theorem clean_run {as : List (Act n)} (h : Run (step b) (boot b n) as s) (k : Slot) : Clean (s.proc k) (s.pc k) := by
  have hinv : Exclusive s ∧ ∀ k, Clean (s.proc k) (s.pc k) :=
    h.invariant (I := fun s => Exclusive s ∧ ∀ k, Clean (s.proc k) (s.pc k)) ⟨exclusive_boot, clean_boot⟩
      fun hi hs => ⟨exclusive_step hi.1 (step_cases hs), clean_step hi.1 hi.2 (step_cases hs)⟩
  exact hinv.2 k

/-! ## Two forks -/

/-- What a process can see of its own, or others of it. -/
def visible (p : Proc) :=
  (p.killed, p.chan, p.xstate, p.parent, p.rtime, p.stime, p.ctime, p.etime, p.ntime, p.mask, p.priority, p.queue,
    p.lastQtime, p.qticks, p.sz, p.ofile, p.cwd)

/-- Process `p` is in `fork`, and `allocproc` has come to the slot it picks. -/
structure ForkAt (s : State n) (p np : Slot) : Prop where
  pc : s.pc p = .fork np
  unused : (s.proc np).state = .unused

/-- Process `p` is about to fork in both states, which agree on its `struct
proc`, on `ticks` and on `nextpid`. -/
structure SameFork (s₁ s₂ : State n) (p np : Slot) : Prop where
  left : ForkAt s₁ p np
  right : ForkAt s₂ p np
  parent : s₁.proc p = s₂.proc p
  ticks : s₁.ticks = s₂.ticks
  nextpid : s₁.nextpid = s₂.nextpid

/-- The rest of a `fork` that succeeds, from there on. -/
def forkRest (c : Fin n) : List (Act n) := List.replicate 3 (.run c (.next true true))

/-- The child that `fork` creates from there on. -/
def forkChild (s : State n) (p np : Slot) : Proc :=
  { (((s.proc np).allocproc s.nextpid s.ticks).copyFrom (s.proc p)).adopt p (s.proc p) with state := .runnable }

theorem fork_child (he : Exclusive s) {p np : Slot} {c : Fin n} (hf : ForkAt s p np) (hc : s.cproc c = some p)
    (ht : exec (step b) s (forkRest c) = some t) : t.proc np = forkChild s p np := by
  have hne : p ≠ np := fun e => by
    have hu := hf.unused
    rw [← e, he.running hc] at hu
    cases hu
  simp only [forkRest, List.replicate, exec, Option.bind_eq_some_iff] at ht
  obtain ⟨s₁, h1, s₂, h2, s3, h3, ht⟩ := ht
  cases ht
  have h1 := procStep_of_run h1 hc
  simp only [procStep, hf.pc, forkStep, np.isLt, hf.unused, dif_pos, if_true, Bool.not_true, Bool.false_eq_true,
    if_false, Option.some.injEq, Fin.eta] at h1
  have hp1 : s₁.proc p = s.proc p := by rw [← h1]; exact update_of_ne hne _ _
  have hnp1 : s₁.proc np = ((s.proc np).allocproc s.nextpid s.ticks).copyFrom (s.proc p) := by
    rw [← h1]; exact update_self ..
  have hpc1 : s₁.pc p = .forkParent np := by rw [← h1]; exact update_self ..
  have hc1 : s₁.cproc c = some p := by rw [← h1]; exact hc
  have h2 := procStep_of_run h2 hc1
  simp only [procStep, hpc1] at h2
  split at h2 <;> cases h2
  have h3 := procStep_of_run h3 hc1
  simp only [procStep, State.setPc, update_self, Option.some.injEq] at h3
  rw [← h3]
  simp only [State.setProc, update_self, hp1, hnp1]
  rfl

/-- The child of `fork` has `killed` and `stime` of the past of its slot, and
nothing else: two forks that see the same parent, `ticks` and `nextpid` create
the same child exactly if these two fields of the slot are the same. -/
theorem fork_visible_iff {as₁ as₂ : List (Act n)} (h₁ : Run (step b) (boot b n) as₁ s₁)
    (h₂ : Run (step b) (boot b n) as₂ s₂) {p np : Slot} {c₁ c₂ : Fin n} (hf : SameFork s₁ s₂ p np)
    (hc₁ : s₁.cproc c₁ = some p) (hc₂ : s₂.cproc c₂ = some p) (ht₁ : exec (step b) s₁ (forkRest c₁) = some t₁)
    (ht₂ : exec (step b) s₂ (forkRest c₂) = some t₂) :
    (visible (t₁.proc np) = visible (t₂.proc np) ↔
        (s₁.proc np).killed = (s₂.proc np).killed ∧ (s₁.proc np).stime = (s₂.proc np).stime) ∧
      (t₁.proc np).killed = (s₁.proc np).killed ∧ (t₁.proc np).stime = (s₁.proc np).stime := by
  obtain ⟨hch1, hx1, hf1⟩ := (clean_run h₁ np).unused hf.left.unused
  obtain ⟨hch2, hx2, hf2⟩ := (clean_run h₂ np).unused hf.right.unused
  rw [fork_child (exclusive_run h₁) hf.left hc₁ ht₁, fork_child (exclusive_run h₂) hf.right hc₂ ht₂]
  refine ⟨?_, rfl, rfl⟩
  simp [visible, forkChild, Proc.adopt, Proc.copyFrom, Proc.allocproc, Proc.take, hch1, hch2, hx1, hx2, hf1, hf2, hf.parent, hf.ticks]

/-! ## Forks on one CPU of two -/

deriving instance DecidableEq for Proc

/-- The first process is about to fork, at slot 1, and will succeed. -/
def Forking (ticks nextpid : Word) (killed : Bool) (stime : Word) (s : State 2) : Prop :=
  s.pc 0 = .fork 1 ∧ (s.proc 1).state = .unused ∧ s.proc 0 = userinit.dispatch 0 .RR ∧ s.ticks = ticks ∧
    s.nextpid = nextpid ∧ s.cproc 0 = some 0 ∧ (s.proc 1).killed = killed ∧ (s.proc 1).stime = stime ∧
    (exec (step .RR) s (forkRest 0)).isSome = true

instance (ticks nextpid : Word) (killed : Bool) (stime : Word) (s : State 2) :
    Decidable (Forking ticks nextpid killed stime s) :=
  inferInstanceAs (Decidable (_ ∧ _ ∧ _ ∧ _ ∧ _ ∧ _ ∧ _ ∧ _ ∧ _))

/-- The first process calls `fork` after some actions. -/
def forkAfter (as : List (Act 2)) : List (Act 2) := .sched 0 :: as ++ [.run 0 .fork, .run 0 (.next true true)]

/-- The first process calls `kill(0)`. -/
def killZero : List (Act 2) := .run 0 (.kill 0) :: List.replicate 2 (.run 0 (.next true true))

/-- The first process fails to fork, and a tick passes. -/
def forkFails : List (Act 2) := [.run 0 .fork, .run 0 (.next true true), .run 0 (.next false false), .tick]

/-- The first process forks; its child sleeps for one tick and exits; and the
first process reaps it. -/
def childSleeps : List (Act 2) :=
  .run 0 .fork :: List.replicate 4 (.run 0 (.next true true)) ++
    [.sched 1, .sched 1, .run 1 (.sleep (.other 0)), .tick, .wakeup 1 (.other 0)] ++ List.replicate 65 (.sched 1) ++
    .run 1 (.exit 0) :: List.replicate 132 (.run 1 (.next true true)) ++
    .run 0 (.wait false 0) :: List.replicate 3 (.run 0 (.next true true))

/-- Two forks that see the same parent, `ticks` and `nextpid`, and the `killed`
and `stime` of their slots. -/
def TwoForks (as1 as2 : List (Act 2)) (killed₁ killed₂ : Bool) (stime1 stime2 : Word) : Prop :=
  ∃ s₁ s₂ t₁ t₂ : State 2, Run (step .RR) (boot .RR 2) (forkAfter as1) s₁ ∧
    Run (step .RR) (boot .RR 2) (forkAfter as2) s₂ ∧ SameFork s₁ s₂ 0 1 ∧
    s₁.cproc 0 = some 0 ∧ s₂.cproc 0 = some 0 ∧ exec (step .RR) s₁ (forkRest 0) = some t₁ ∧
    exec (step .RR) s₂ (forkRest 0) = some t₂ ∧
    (t₁.proc 1).killed = killed₁ ∧ (t₂.proc 1).killed = killed₂ ∧
    (t₁.proc 1).stime = stime1 ∧ (t₂.proc 1).stime = stime2

theorem twoForks {as1 as2 : List (Act 2)} (ticks nextpid : Word) {killed₁ killed₂ : Bool} {stime1 stime2 : Word}
    (h1 : (exec (step .RR) (boot .RR 2) (forkAfter as1)).any
      (fun s => decide (Forking ticks nextpid killed₁ stime1 s)) = true)
    (h2 : (exec (step .RR) (boot .RR 2) (forkAfter as2)).any
      (fun s => decide (Forking ticks nextpid killed₂ stime2 s)) = true) :
    TwoForks as1 as2 killed₁ killed₂ stime1 stime2 := by
  obtain ⟨s₁, hr1, hpc1, hu1, hp1, ht1, hn1, hc1, hk1, hst1, hs1⟩ := exists_run _ _ _ h1
  obtain ⟨s₂, hr2, hpc2, hu2, hp2, ht2, hn2, hc2, hk2, hst2, hs2⟩ := exists_run _ _ _ h2
  obtain ⟨t₁, hs1⟩ := Option.isSome_iff_exists.mp hs1
  obtain ⟨t₂, hs2⟩ := Option.isSome_iff_exists.mp hs2
  have hf : SameFork s₁ s₂ 0 1 :=
    ⟨⟨hpc1, hu1⟩, ⟨hpc2, hu2⟩, hp1.trans hp2.symm, ht1.trans ht2.symm, hn1.trans hn2.symm⟩
  have hch1 := fork_child (exclusive_run hr1) hf.left hc1 hs1
  have hch2 := fork_child (exclusive_run hr2) hf.right hc2 hs2
  refine ⟨s₁, s₂, t₁, t₂, hr1, hr2, hf, hc1, hc2, hs1, hs2, ?_, ?_, ?_, ?_⟩
  · rw [hch1]; exact hk1
  · rw [hch2]; exact hk2
  · rw [hch1]; exact hst1
  · rw [hch2]; exact hst2

/-- Two forks, where the scheduler of the other CPU has looked at the table
before one of them. -/
theorem fork_visible_iff_idle : ∃ s₁ s₂ t₁ t₂ : State 2, Run (step .RR) (boot .RR 2) (forkAfter []) s₁ ∧
    Run (step .RR) (boot .RR 2) (forkAfter [.sched 1]) s₂ ∧ SameFork s₁ s₂ 0 1 ∧
    exec (step .RR) s₁ (forkRest 0) = some t₁ ∧ exec (step .RR) s₂ (forkRest 0) = some t₂ ∧
    (visible (t₁.proc 1) = visible (t₂.proc 1) ↔
      (s₁.proc 1).killed = (s₂.proc 1).killed ∧ (s₁.proc 1).stime = (s₂.proc 1).stime) := by
  have hforks : TwoForks [] [.sched 1] false false 0 0 := twoForks 0 2 (by decide +kernel) (by decide +kernel)
  obtain ⟨s₁, s₂, t₁, t₂, hr1, hr2, hf, hc1, hc2, hs1, hs2, -⟩ := hforks
  exact ⟨s₁, s₂, t₁, t₂, hr1, hr2, hf, hs1, hs2, (fork_visible_iff hr1 hr2 hf hc1 hc2 hs1 hs2).1⟩

/-- The child is born killed after `kill(0)`, and with the `stime` of the
process that had its slot before. -/
theorem fork_keeps_past :
    TwoForks [] killZero false true 0 0 ∧ TwoForks forkFails childSleeps false false 0 1 :=
  ⟨twoForks 0 2 (by decide +kernel) (by decide +kernel), twoForks 1 3 (by decide +kernel) (by decide +kernel)⟩

end Xv6.Machine
