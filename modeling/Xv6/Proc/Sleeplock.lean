import Xv6.Proc.Wakeup

/-!
# Sleep locks

`acquiresleep` and `releasesleep` of `kernel/sleeplock.c`, as a client of
`sleep` and `wakeup`: the condition is that the lock is not locked. `sleeplocks`
puts together what holds of `sleep` and `wakeup` in general and of these locks.
-/

namespace Xv6.Sleep

open Framework Function

/-- `struct sleeplock`. -/
structure Sleeplock where
  locked : Bool
  pid : Nat

/-- `initsleeplock`. -/
def initsleeplock : Sleeplock := ⟨false, 0⟩

/-- Where a process is in its use of a sleep lock. -/
inductive Point
  | outside
  /-- `acquiresleep`, at the test of its loop. -/
  | acquire
  /-- `acquiresleep`, after the loop. -/
  | got
  /-- `acquiresleep`, before it releases the spinlock. -/
  | acquired
  /-- Between `acquiresleep` and `releasesleep`. -/
  | holding
  /-- `releasesleep`, with the spinlock acquired. -/
  | release
  /-- `releasesleep`, before `wakeup`. -/
  | released
  /-- `releasesleep`, before it releases the spinlock. -/
  | done
  deriving DecidableEq

variable {n : Nat}

/-- The processes that use a sleep lock, each with its number. -/
def sleeplock (chan : Nat) (pid : Fin n → Nat) : Client Sleeplock Point Unit n where
  chan := chan
  cond lk := !lk.locked
  enter _ t _ :=
    match t with
    | .outside => some .acquire
    | .holding => some .release
    | _ => none
  next i t lk _ :=
    match t with
    | .acquire => if lk.locked then some (.sleep .acquire) else some (.update lk .got)
    | .got => some (.update ⟨true, pid i⟩ .acquired)
    | .acquired => some (.release .holding)
    | .release => some (.update ⟨false, 0⟩ .released)
    | .released => some (.wakeup .done)
    | .done => some (.release .outside)
    | .outside | .holding => none
  sleep_cond {i t t' lk x} h := by
    cases t <;> simp only [Option.some.injEq, reduceCtorEq] at h
    split at h
    · simp_all
    · cases h

/-- `releasesleep` has unlocked the lock, and has not called `wakeup` yet. -/
def Point.owes : Point → Bool
  | .released => true
  | _ => false

/-- The process has the lock. -/
def Point.owns : Point → Bool
  | .acquired | .holding | .release => true
  | _ => false

def Pc.point {θ : Type} : Pc θ n → θ
  | .out t | .crit t | .wakeup t _ | .wakeupAt t _ | .sleep t | .sleepRelease t | .sleepSet t | .sched t | .slept t
  | .woken t | .reacquire t => t

theorem sleeplock_signals (chan : Nat) (pid : Fin n → Nat) : Signals (sleeplock chan pid) Point.owes where
  update {i t t' lk lk' x} h hcond := by
    cases t <;> simp only [sleeplock, Option.some.injEq, reduceCtorEq] at h
    · split at h
      · cases h
      · cases h
        exact .inr ⟨hcond, rfl⟩
    · cases h
      cases hcond
    · cases h
      exact .inl rfl
  release {i t t' lk x} h _ := by
    cases t <;> simp only [sleeplock, Option.some.injEq, reduceCtorEq] at h
    · split at h <;> cases h
    · rfl
    · rfl

/-! ## Mutual exclusion -/

variable {chan : Nat} {pid : Fin n → Nat} {s s' : State Sleeplock Point n} {i : Fin n}

structure Exclusive (s : State Sleeplock Point n) : Prop where
  locked {i : Fin n} : (s.pc i).point.owns = true → s.data.locked = true
  unique {i j : Fin n} : (s.pc i).point.owns = true → (s.pc j).point.owns = true → i = j
  /-- A process that has left the loop of `acquiresleep` has the spinlock. -/
  got {i : Fin n} : (s.pc i).point = .got → s.pc i = .crit .got ∧ s.data.locked = false

namespace Exclusive

variable {pc : Pc Point n}

/-- A statement that neither takes the lock nor gives it up. -/
theorem same (h : Exclusive s) (hpc : s'.pc = update s.pc i pc)
    (hdata : s'.data = s.data) (howns : pc.point.owns = (s.pc i).point.owns)
    (hgot : pc.point = .got → pc = .crit .got ∧ s.data.locked = false) : Exclusive s' := by
  have owns : ∀ j, (s'.pc j).point.owns = (s.pc j).point.owns := by
    intro j
    rw [hpc, update_apply]
    split
    · rename_i hj
      rw [howns, hj]
    · rfl
  refine ⟨fun {j} hj => ?_, fun {j k} hj hk => ?_, fun {j} hj => ?_⟩
  · rw [hdata]
    exact h.locked (owns j ▸ hj)
  · exact h.unique (owns j ▸ hj) (owns k ▸ hk)
  · rw [hpc, update_apply] at hj ⊢
    rw [hdata]
    split at hj
    · rw [if_pos ‹_›]
      exact hgot hj
    · rw [if_neg ‹_›]
      exact h.got hj

/-- A statement of a thread that is not in the client's code. -/
theorem frame (h : Exclusive s) (hpc : s'.pc = update s.pc i pc)
    (hdata : s'.data = s.data) (hpoint : pc.point = (s.pc i).point) (hcrit : s.pc i ≠ .crit .got) : Exclusive s' :=
  h.same hpc hdata (by rw [hpoint]) fun hgot => absurd (h.got (hpoint ▸ hgot)).1 hcrit

/-- The thread that has the spinlock is the only one that can have left the loop. -/
theorem got_eq (h : Exclusive s) (hl : Locks s) {j : Fin n} {t : Point} (hi : s.pc i = .crit t)
    (hj : (s.pc j).point = .got) : j = i := by
  have hlk : s.lk = some i := hl.lk.mpr (by rw [hi]; rfl)
  have hlk' : s.lk = some j := hl.lk.mpr (by rw [(h.got hj).1]; rfl)
  exact Option.some.inj (hlk'.symm.trans hlk)

/-- `lk->locked = 1` in `acquiresleep`. -/
theorem take (h : Exclusive s) (hl : Locks s) (hi : s.pc i = .crit .got)
    (hpc : s'.pc = update s.pc i (.crit .acquired)) (hlocked : s'.data.locked = true) : Exclusive s' := by
  have hfree : ∀ j, (s.pc j).point.owns = false := by
    intro j
    cases hj : (s.pc j).point.owns with
    | false => rfl
    | true => exact nomatch (h.got (by rw [hi]; rfl)).2.symm.trans (h.locked hj)
  have owner : ∀ j, (s'.pc j).point.owns = true → j = i := by
    intro j hj
    by_contra hji
    rw [hpc, update_of_ne hji, hfree j] at hj
    cases hj
  refine ⟨fun _ => hlocked, fun hj hk => (owner _ hj).trans (owner _ hk).symm, fun {j} hj => ?_⟩
  rw [hpc, update_apply] at hj
  split at hj
  · cases hj
  · exact absurd (h.got_eq hl hi hj) ‹_›

/-- `lk->locked = 0` in `releasesleep`. -/
theorem give (h : Exclusive s) (hl : Locks s) (hi : s.pc i = .crit .release)
    (hpc : s'.pc = update s.pc i (.crit .released)) : Exclusive s' := by
  have nobody : ∀ j, (s'.pc j).point.owns = false := by
    intro j
    rw [hpc, update_apply]
    split
    · rfl
    · rename_i hji
      cases hj : (s.pc j).point.owns with
      | false => rfl
      | true => exact absurd (h.unique hj (by rw [hi]; rfl)) hji
  refine ⟨fun {j} hj => ?_, fun {j _} hj => ?_, fun {j} hj => ?_⟩
  · exact nomatch (nobody j).symm.trans hj
  · exact nomatch (nobody j).symm.trans hj
  · rw [hpc, update_apply] at hj
    split at hj
    · cases hj
    · exact absurd (h.got_eq hl hi hj) ‹_›

end Exclusive

theorem exclusive_step {ev : Option (Event n)} (h : Exclusive s) (hl : Locks s)
    (hs : Step (sleeplock chan pid) s ev s') : Exclusive s' := by
  cases hs with
  | @enter i t t' x _ hpc _ henter =>
    cases t <;> simp only [sleeplock, Option.some.injEq, reduceCtorEq] at henter
    all_goals
      subst henter
      exact h.same rfl rfl (by rw [hpc]; rfl) nofun
  | @update i t t' lk x _ hpc hnext =>
    cases t <;> simp only [sleeplock, Option.some.injEq, reduceCtorEq] at hnext
    · split at hnext
      · cases hnext
      · rename_i hfree
        cases hnext
        exact h.same rfl rfl (by rw [hpc]; rfl) fun _ => ⟨rfl, eq_false_of_ne_true hfree⟩
    · cases hnext
      exact h.take hl hpc rfl rfl
    · cases hnext
      exact h.give hl hpc rfl
  | @callSleep i t t' x _ hpc hnext =>
    cases t <;> simp only [sleeplock, Option.some.injEq, reduceCtorEq] at hnext
    split at hnext
    · cases hnext
      exact h.same rfl rfl (by rw [hpc]; rfl) nofun
    · cases hnext
  | @callWakeup i t t' x _ hpc hnext | @release i t t' x _ hpc hnext =>
    cases t <;> simp only [sleeplock, Option.some.injEq, reduceCtorEq] at hnext
    all_goals first
      | (split at hnext <;> cases hnext)
      | (cases hnext; exact h.same rfl rfl (by rw [hpc]; rfl) nofun)
  | wakeupSelf _ hpc | wakeupLock _ hpc | wakeupDone _ hpc | wakeupProc _ hpc | sleepLock _ hpc | sleepRelease _ hpc
  | sleepSet _ hpc | tidyUp _ hpc | reacquire _ hpc | switch hpc | dispatch _ _ hpc =>
    exact h.frame rfl rfl (by rw [hpc]; rfl) (by rw [hpc]; nofun)
  | other => exact ⟨h.locked, h.unique, h.got⟩

theorem exclusive_run {live : Fin n → Bool} {as : List (Act Unit n)}
    (h : Run (step (sleeplock chan pid)) (start initsleeplock live fun _ => .outside) as s) : Exclusive s := by
  induction h with
  | nil => exact ⟨nofun, nofun, nofun⟩
  | snoc hr hs ih => exact exclusive_step ih (inv_run hr).locks (step_cases hs)

/-- The condition became true and a `wakeup(chan)` completed since the last
test of process `i`. -/
def Missed (i : Fin n) (H : List (Event n)) : Prop :=
  ∃ H1 H2 H3 H4, H = H1 ++ .test i :: (H2 ++ .makeTrue :: (H3 ++ .wakeupDone :: H4)) ∧ .test i ∉ H2 ++ H3 ++ H4

theorem signalled_of_missed {H : List (Event n)} (h : Missed i H) : signalled i H = true := by
  obtain ⟨H1, H2, H3, H4, rfl, hno⟩ := h
  have hno : .test i ∉ H4 := fun h => hno (List.mem_append_right _ h)
  have hkeep : ∀ {L : List (Event n)}, .test i ∉ L →
      L.foldl (fun b e => if e = .test i then false else if e = .wakeupDone then true else b) true = true := by
    intro L hL
    induction L with
    | nil => rfl
    | cons e L ih =>
      rw [List.mem_cons, not_or] at hL
      obtain ⟨he, hL⟩ := hL
      rw [List.foldl_cons, if_neg (Ne.symm he), ite_self]
      exact ih hL
  simp only [signalled, List.foldl_append, List.foldl_cons, reduceCtorEq, if_true, if_false]
  exact hkeep hno

/-- No wakeup is lost, for any client of `sleep` and `wakeup` and any number of
processes; and of the processes that use a sleep lock at most one has it, and
none sleeps while it is unlocked, once its spinlock is free. -/
theorem sleeplocks :
    (∀ (σ θ ι : Type) (n : Nat) (C : Client σ θ ι n) d live t as s, Run (step C) (start d live t) as s →
      ∀ i, Asleep C (s.proc i) → ¬Missed i (labels (step C) (event C) (start d live t) as)) ∧
    ∀ n chan (pid : Fin n → Nat) live as s,
      Run (step (sleeplock chan pid)) (start initsleeplock live fun _ => .outside) as s →
      (∀ i j, (s.pc i).point.owns = true → (s.pc j).point.owns = true → i = j) ∧
      (s.lk = none → ∀ i, Asleep (sleeplock chan pid) (s.proc i) → s.data.locked = true) := by
  refine ⟨fun σ θ ι n C d live t as s h i ha hm => ?_, fun n chan pid live as s h => ⟨fun i j => ?_, fun hlk i ha => ?_⟩⟩
  · exact nomatch (not_signalled h (.inr ha)).symm.trans (signalled_of_missed hm)
  · exact (exclusive_run h).unique
  · simpa [sleeplock] using cond_of_asleep (sleeplock_signals chan pid) h hlk ha

/-- Process 0 takes the lock, and process 1 sleeps for it. -/
def contended : List (Act Unit 2) :=
  .dispatch 0 :: List.replicate 4 (.thread 0 ()) ++ .dispatch 1 :: List.replicate 5 (.thread 1 ()) ++ [.switch 1]

theorem sleeplocks_contended :
    ∃ s, Run (step (sleeplock 1 Fin.val)) (start initsleeplock (fun _ => true) fun _ => .outside) contended s ∧
      s.lk = none ∧ Asleep (sleeplock 1 (n := 2) Fin.val) (s.proc 1) ∧ (s.pc 0).point.owns = true ∧
      s.data.locked = true ∧ (s.pc 1).point.owns = false ∧
      ¬Missed 1 (labels (step (sleeplock 1 Fin.val)) (event (sleeplock 1 Fin.val))
        (start initsleeplock (fun _ => true) fun _ => .outside) contended) := by
  obtain ⟨s, hr, hlk, ha, ho⟩ := exists_run (step (sleeplock 1 Fin.val))
    (start initsleeplock (fun _ => true) fun _ => .outside) contended
    (Q := fun s => s.lk = none ∧ Asleep (sleeplock 1 (n := 2) Fin.val) (s.proc 1) ∧ (s.pc 0).point.owns = true)
    (by decide)
  obtain ⟨huniq, hlocked⟩ := sleeplocks.2 2 1 Fin.val _ _ s hr
  refine ⟨s, hr, hlk, ha, ho, hlocked hlk 1 ha, ?_, sleeplocks.1 _ _ _ 2 _ _ _ _ _ s hr 1 ha⟩
  cases h : (s.pc 1).point.owns with
  | false => rfl
  | true => exact nomatch huniq 0 1 ho h

end Xv6.Sleep
