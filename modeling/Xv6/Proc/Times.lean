import Xv6.Proc.Reap

/-!
# The times of a process

`clockintr` counts the tick before `update_time` walks the table, so that a
process that is created and dispatched in between is charged a tick that
began before it. `waits_iff` says that this is the only way for the waiting
time of `waitx` to wrap. `setpriority` sets the running time of a process to
zero, for the niceness it computes; `rtime_iff` says when the running time
that `waitx` reports is still the number of ticks the process was charged.

Both rest on what a step can do to the times of a process (`Life`).
-/

namespace Xv6.Machine

open Framework Function List Event

variable {n : Nat} {b : Build} {s s' : State n} {a : Act n} {ev : Option Event} {H : List Event} {i : Slot} {p : Proc}

/-- A change of a process that also keeps its times. -/
structure SameLife (p p' : Proc) : Prop extends SameId p p' where
  rtime : p'.rtime = p.rtime
  ctime : p'.ctime = p.ctime
  etime : p'.etime = p.etime

theorem SameLife.update {proc : Slot → Proc} (h : SameLife (proc i) p) (j : Slot) :
    SameLife (proc j) (update proc i p j) := by
  rw [update_apply]
  split
  · rename_i e
    subst e
    exact h
  · exact ⟨.refl _, rfl, rfl, rfl⟩

/-- Events that concern no times. -/
def Event.untimed : Event → Bool
  | .alloc _ _ ok => !ok
  | .charge _ | .reset _ => false
  | _ => true

/-- What a step can do to the times of the processes. -/
inductive Life (s : State n) (a : Act n) (ev : Option Event) (s' : State n) : Prop
  | same (hproc : ∀ j, SameLife (s.proc j) (s'.proc j)) (hticks : s'.ticks = s.ticks)
    (hclock : s'.clock = s.clock ∨ ∀ k, s'.clock ≠ .updateTime k) (ha : a ≠ .tick) (hev : ∀ e ∈ ev, e.untimed = true)
  | tick (ha : a = .tick) (hev : ev = none) (hclock : s.clock = .idle) (hproc : s'.proc = s.proc)
    (hticks : s'.ticks = s.ticks + 1) (hclock' : s'.clock = .updateTime 0)
  | charge (k : Slot) (ha : a = .clock) (hclock : s.clock = .updateTime k)
    (hev : ev = if (s.proc k).state = .running then some (.charge k) else none)
    (hproc : s'.proc = update s.proc k (s.proc k).updateTime) (hticks : s'.ticks = s.ticks)
    (hclock' : s'.clock = .updateTime (k + 1))
  | create (np : Slot) (p : Proc) (pid : Word) (ha : a ≠ .tick) (hev : ev = some (.alloc np pid true))
    (hproc : s'.proc = update s.proc np p) (hp : p.state = .used) (hr : p.rtime = 0)
    (hc : p.ctime = s.ticks) (hticks : s'.ticks = s.ticks) (hclock : s'.clock = s.clock)
  | free (np : Slot) (p : Proc) (ha : a ≠ .tick) (hev : ∀ e ∈ ev, e.untimed = true)
    (hproc : s'.proc = update s.proc np p) (hp : p.state = .unused) (hticks : s'.ticks = s.ticks)
    (hclock : s'.clock = s.clock)
  | zombie (i : Slot) (p : Proc) (ha : a ≠ .tick) (hev : ev = none) (hi : (s.proc i).state = .running)
    (hproc : s'.proc = update s.proc i p) (hp : p.state = .zombie) (hr : p.rtime = (s.proc i).rtime)
    (hc : p.ctime = (s.proc i).ctime) (he : p.etime = s.ticks) (hticks : s'.ticks = s.ticks)
    (hclock : s'.clock = s.clock)
  | reset (k : Slot) (p : Proc) (ha : a ≠ .tick) (hev : ev = some (.reset k))
    (hproc : s'.proc = update s.proc k p) (hp : p.state = (s.proc k).state) (hr : p.rtime = 0)
    (hc : p.ctime = (s.proc k).ctime) (he : p.etime = (s.proc k).etime) (hticks : s'.ticks = s.ticks)
    (hclock : s'.clock = s.clock)

/-- A step that keeps the times of all processes, and the clock. -/
theorem Life.keep (ha : a ≠ .tick) (hev : ∀ e ∈ ev, e.untimed = true)
    (hproc : ∀ j, SameLife (s.proc j) (s'.proc j)) (hticks : s'.ticks = s.ticks) (hclock : s'.clock = s.clock) :
    Life s a ev s' :=
  .same hproc hticks (.inl hclock) ha hev

/-- Every step does one of these. -/
theorem life_step (he : Exclusive s) (h : Step b s a ev s') : Life s a ev s' := by
  have silent : ∀ e ∈ (none : Option Event), e.untimed = true := fun _ h => nomatch h
  have refl : ∀ p : Proc, SameLife p p := fun p => ⟨.refl p, rfl, rfl, rfl⟩
  cases h with
  | scan | timer | goto | waitLock => exact .keep nofun silent (fun _ => refl _) rfl rfl
  | tick hc => exact .tick rfl rfl hc rfl rfl rfl
  | updateTime h hc => exact .charge ⟨_, h⟩ rfl hc rfl rfl rfl rfl
  | updateTimeDone | wakeupTicksDone => exact .same (fun _ => refl _) rfl (.inr nofun) nofun silent
  | wakeupTicks =>
    exact .same (SameLife.update ⟨.of_roused (roused_wakeup ..) rfl rfl, rfl, rfl, rfl⟩) rfl (.inr nofun) nofun silent
  | wakeup =>
    exact .keep nofun silent (SameLife.update ⟨.of_roused (roused_wakeup ..) rfl rfl, rfl, rfl, rfl⟩) rfl rfl
  | age => exact .keep nofun silent (SameLife.update ⟨.of_state rfl rfl rfl, rfl, rfl, rfl⟩) rfl rfl
  | dispatch _ hr =>
    exact .keep nofun silent
      (SameLife.update ⟨.of_alive (.inr (.inl hr)) (.inr (.inr rfl)) rfl rfl, rfl, rfl, rfl⟩) rfl rfl
  | preempt _ _ hp =>
    refine .keep nofun silent (SameLife.update ?_) rfl rfl
    rcases hp with ⟨-, rfl⟩ | ⟨-, -, rfl⟩ <;> exact ⟨.of_state rfl rfl rfl, rfl, rfl, rfl⟩
  | yield hc =>
    exact .keep nofun silent (SameLife.update ⟨.of_alive (he.alive hc) (.inr (.inl rfl)) rfl rfl, rfl, rfl, rfl⟩) rfl rfl
  | call _ _ hent =>
    refine .keep nofun (fun e h => ?_) (fun _ => refl _) rfl rfl
    cases hent <;> cases h
    rfl
  | priv _ _ hq =>
    refine .keep nofun silent (SameLife.update ⟨hq.sameId, ?_, ?_, ?_⟩) rfl rfl <;> cases hq <;> rfl
  | sleep hon | waitSleep hon =>
    exact .keep nofun silent (SameLife.update ⟨.of_alive (he.alive hon.cproc) (.inl rfl) rfl rfl, rfl, rfl, rfl⟩) rfl rfl
  | forkFail _ _ _ hp =>
    refine .free _ _ nofun (fun e h => ?_) rfl ?_ rfl rfl
    · cases h; rfl
    · rcases hp with rfl | rfl <;> rfl
  | forkTake => exact .create _ _ _ nofun rfl rfl rfl rfl rfl rfl rfl
  | forkParent | exitLock | reparentChild =>
    exact .keep nofun silent (SameLife.update ⟨.of_state rfl rfl rfl, rfl, rfl, rfl⟩) rfl rfl
  | forkReady _ hpc =>
    have hu := he.forkReady_used hpc
    refine .keep nofun silent (SameLife.update ⟨⟨rfl, rfl, ?_, ?_⟩, rfl, rfl, rfl⟩) rfl rfl <;> simp [hu]
  | reparentWakeup | exitWakeup =>
    refine .keep nofun silent (SameLife.update ?_) rfl rfl
    split
    · exact ⟨.of_roused (roused_wakeup ..) rfl rfl, rfl, rfl, rfl⟩
    · exact refl _
  | zombie hon => exact .zombie _ _ nofun rfl (he.running hon.cproc) rfl rfl rfl rfl rfl rfl rfl
  | waitFail =>
    refine .keep nofun (fun e h => ?_) (fun _ => refl _) rfl rfl
    cases h; rfl
  | waitReap =>
    refine .free _ _ nofun (fun e h => ?_) rfl rfl rfl rfl
    cases h; rfl
  | kill =>
    exact .keep nofun silent (SameLife.update ⟨.of_roused (roused_kill _) rfl rfl, rfl, rfl, rfl⟩) rfl rfl
  | setpriority => exact .reset _ _ nofun rfl rfl rfl rfl rfl rfl rfl rfl

/-! ## Waiting times -/

/-- The running time of a process in use fits in its life so far, and that of
a zombie in its life, so that `etime - ctime - rtime` does not wrap. -/
def TimesOk (s : State n) : Prop :=
  ∀ i, (s.proc i).state ≠ .unused → (s.proc i).ctime.toNat + (s.proc i).rtime.toNat ≤ s.ticks.toNat ∧
    ((s.proc i).state = .zombie → (s.proc i).ctime.toNat + (s.proc i).rtime.toNat ≤ (s.proc i).etime.toNat)

def Act.isTick : Act n → Bool
  | .tick => true
  | _ => false

/-- How many ticks some actions count. -/
def ticksIn (as : List (Act n)) : Nat := as.countP Act.isTick

theorem ticksIn_snoc (as : List (Act n)) (a : Act n) :
    ticksIn (as ++ [a]) = ticksIn as + if a.isTick then 1 else 0 := by
  simp [ticksIn, countP_cons]

theorem isTick_of_ne (h : a ≠ .tick) : a.isTick = false := by
  cases a <;> first | rfl | exact absurd rfl h

/-- `update_time` has counted the tick, and has not come to slot `i`. -/
def Pending (s : State n) (i : Slot) : Prop := ∃ k ≤ i.val, s.clock = .updateTime k

/-- After `t` ticks. A process that `update_time` has still to come to has room
for one more, unless it was created since. -/
structure Timed (t : Nat) (s : State n) : Prop where
  ticks : s.ticks.toNat = t
  live {i : Slot} : (s.proc i).state ≠ .unused → (s.proc i).state ≠ .zombie →
    (s.proc i).ctime.toNat + (s.proc i).rtime.toNat ≤ t ∧
    (Pending s i → (s.proc i).ctime.toNat + (s.proc i).rtime.toNat < t ∨
      ((s.proc i).ctime.toNat = t ∧ (s.proc i).rtime = 0))
  zombie {i : Slot} : (s.proc i).state = .zombie →
    (s.proc i).ctime.toNat + (s.proc i).rtime.toNat ≤ (s.proc i).etime.toNat ∧ (s.proc i).etime.toNat ≤ t

theorem Timed.timesOk {t : Nat} (h : Timed t s) : TimesOk s := by
  intro i hu
  rw [h.ticks]
  by_cases hz : (s.proc i).state = .zombie
  · obtain ⟨h1, h2⟩ := h.zombie hz
    exact ⟨Nat.le_trans h1 h2, fun _ => h1⟩
  · exact ⟨(h.live hu hz).1, fun e => absurd e hz⟩

theorem pending_of_clock (h : s'.clock = s.clock ∨ ∀ k, s'.clock ≠ .updateTime k) (hp : Pending s' i) :
    Pending s i := by
  obtain ⟨k, hk, hc⟩ := hp
  rcases h with h | h
  · exact ⟨k, hk, h ▸ hc⟩
  · exact absurd hc (h k)

namespace Timed

variable {t : Nat}

/-- A step that keeps all processes but one, whose times are right. -/
theorem update (h : Timed t s) (hproc : s'.proc = update s.proc i p)
    (hticks : s'.ticks = s.ticks) (hclock : s'.clock = s.clock)
    (hlive : p.state ≠ .unused → p.state ≠ .zombie → p.ctime.toNat + p.rtime.toNat ≤ t ∧
      (Pending s i → p.ctime.toNat + p.rtime.toNat < t ∨ (p.ctime.toNat = t ∧ p.rtime = 0)))
    (hzombie : p.state = .zombie → p.ctime.toNat + p.rtime.toNat ≤ p.etime.toNat ∧ p.etime.toNat ≤ t) :
    Timed t s' := by
  obtain ⟨hself, hne⟩ := of_update hproc
  refine ⟨by rw [hticks, h.ticks], fun {j} hu hz => ?_, fun {j} hz => ?_⟩
  · by_cases hj : j = i
    · subst hj
      rw [hself] at hu hz ⊢
      exact ⟨(hlive hu hz).1, fun hp => (hlive hu hz).2 (pending_of_clock (.inl hclock) hp)⟩
    · rw [hne hj] at hu hz ⊢
      exact ⟨(h.live hu hz).1, fun hp => (h.live hu hz).2 (pending_of_clock (.inl hclock) hp)⟩
  · by_cases hj : j = i
    · subst hj
      rw [hself] at hz ⊢
      exact hzombie hz
    · rw [hne hj] at hz ⊢
      exact h.zombie hz

theorem tick (h : Timed t s) (ht : t + 1 < 2 ^ 32) (hproc : s'.proc = s.proc) (hticks : s'.ticks = s.ticks + 1) :
    Timed (t + 1) s' := by
  refine ⟨?_, fun {i} hu hz => ?_, fun {i} hz => ?_⟩
  · have h1 : (1 : Word).toNat = 1 := rfl
    rw [hticks, BitVec.toNat_add, h1, h.ticks]
    exact Nat.mod_eq_of_lt ht
  · rw [hproc] at hu hz ⊢
    have := (h.live hu hz).1
    exact ⟨by omega, fun _ => .inl (by omega)⟩
  · rw [hproc] at hz ⊢
    have := h.zombie hz
    omega

/-- `update_time` at slot `k`: the process has room for the tick, for it was
not created since the tick was counted. -/
theorem charge (h : Timed t s) {k : Slot} (hclock : s.clock = .updateTime k)
    (hproc : s'.proc = Function.update s.proc k (s.proc k).updateTime) (hticks : s'.ticks = s.ticks)
    (hclock' : s'.clock = .updateTime (k + 1)) (ht : t < 2 ^ 32)
    (hgood : (s.proc k).state = .running → (s.proc k).ctime ≠ s.ticks) : Timed t s' := by
  obtain ⟨hself, hne⟩ := of_update hproc
  have hpend : ∀ {j}, Pending s' j → j ≠ k ∧ Pending s j := by
    rintro j ⟨m, hm, hc⟩
    rw [hclock'] at hc
    cases hc
    refine ⟨fun e => ?_, k, by omega, hclock⟩
    subst e
    omega
  refine ⟨by rw [hticks, h.ticks], fun {j} hu hz => ?_, fun {j} hz => ?_⟩
  · by_cases hj : j = k
    · subst hj
      rw [hself] at hu hz ⊢
      have hl := h.live (i := j) hu hz
      refine ⟨?_, fun hp => absurd rfl (hpend hp).1⟩
      simp only [Proc.updateTime]
      split
      · rename_i hr
        have hlt : (s.proc j).ctime.toNat + (s.proc j).rtime.toNat < t := by
          refine (hl.2 ⟨_, Nat.le_refl _, hclock⟩).resolve_right fun e => hgood hr ?_
          exact BitVec.eq_of_toNat_eq (e.1.trans h.ticks.symm)
        have h1 : (1 : Word).toNat = 1 := rfl
        rw [BitVec.toNat_add, h1, Nat.mod_eq_of_lt (by omega)]
        omega
      · exact hl.1
    · rw [hne hj] at hu hz ⊢
      exact ⟨(h.live hu hz).1, fun hp => (h.live hu hz).2 (hpend hp).2⟩
  · by_cases hj : j = k
    · subst hj
      rw [hself] at hz ⊢
      have hz' : (s.proc j).state = .zombie := hz
      simpa [Proc.updateTime, hz'] using h.zombie hz'
    · rw [hne hj] at hz ⊢
      exact h.zombie hz

theorem step (h : Timed t s) (hl : Life s a ev s') (ht : t + (if a.isTick then 1 else 0) < 2 ^ 32)
    (hgood : ∀ i, ev = some (.charge i) → (s.proc i).ctime ≠ s.ticks) :
    Timed (t + if a.isTick then 1 else 0) s' := by
  cases hl with
  | same hproc hticks hclock ha =>
    rw [isTick_of_ne ha]
    refine ⟨by rw [hticks, h.ticks]; rfl, fun {i} hu hz => ?_, fun {i} hz => ?_⟩
    · have hl := h.live (i := i) (fun e => hu ((hproc i).unused.mpr e)) (fun e => hz ((hproc i).zombie.mpr e))
      rw [(hproc i).ctime, (hproc i).rtime]
      exact ⟨hl.1, fun hp => hl.2 (pending_of_clock hclock hp)⟩
    · rw [(hproc i).ctime, (hproc i).rtime, (hproc i).etime]
      exact h.zombie ((hproc i).zombie.mp hz)
  | tick ha _ _ hproc hticks =>
    subst ha
    exact h.tick ht hproc hticks
  | charge k ha hclock hev hproc hticks hclock' =>
    subst ha
    refine h.charge hclock hproc hticks hclock' (by simpa [Act.isTick] using ht) fun hr => hgood k ?_
    rw [hev, if_pos hr]
  | create np p _ ha _ hproc hp hr hc hticks hclock =>
    rw [isTick_of_ne ha]
    have hct : p.ctime.toNat = t := by rw [hc, h.ticks]
    refine h.update hproc hticks hclock (fun _ _ => ?_) fun hz => absurd (hp.symm.trans hz) (by simp)
    have h0 : (0 : Word).toNat = 0 := rfl
    rw [hr, h0, hct]
    exact ⟨Nat.le_refl _, fun _ => .inr ⟨rfl, rfl⟩⟩
  | free np p ha _ hproc hp hticks hclock =>
    rw [isTick_of_ne ha]
    exact h.update hproc hticks hclock (fun hu => absurd hp hu) fun hz => absurd (hp.symm.trans hz) (by simp)
  | zombie i p ha _ hi hproc hp hr hc het hticks hclock =>
    rw [isTick_of_ne ha]
    refine h.update hproc hticks hclock (fun _ hz => absurd hp hz) fun _ => ?_
    have hl := (h.live (i := i) (by simp [hi]) (by simp [hi])).1
    rw [hr, hc, het, h.ticks]
    exact ⟨hl, Nat.le_refl _⟩
  | reset k p ha _ hproc hp hr hc het hticks hclock =>
    rw [isTick_of_ne ha]
    have h0 : (0 : Word).toNat = 0 := rfl
    refine h.update hproc hticks hclock (fun hu hz => ?_) fun hz => ?_
    · rw [hp] at hu hz
      have hl := h.live hu hz
      rw [hr, hc, h0]
      refine ⟨by omega, fun hp => (hl.2 hp).imp (fun h => by omega) fun h => ⟨h.1, rfl⟩⟩
    · rw [hp] at hz
      have hl := h.zombie hz
      rw [hr, hc, het, h0]
      omega

end Timed

theorem timed_boot : Timed 0 (boot b n) := by
  refine ⟨rfl, fun {i} hu _ => ?_, fun {i} hz => ?_⟩
  · have hi : i = initproc := Decidable.byContradiction fun h => hu (by simp [boot, h])
    subst hi
    exact ⟨by simp [boot, userinit, Proc.allocproc], by rintro ⟨_, -, ⟨⟩⟩⟩
  · simp only [boot, update_apply] at hz
    split at hz <;> cases hz

/-- In the runs of less than `2 ^ 32 - 1` ticks, the times of all processes are
right in all states exactly if `update_time` charges no process with a tick
that was counted before its creation. -/
theorem waits_iff {as : List (Act n)} (h : Run (step b) (boot b n) as s) (ht : ticksIn as < 2 ^ 32 - 1) :
    (∀ as₁ as₂ s₁, as = as₁ ++ as₂ → Run (step b) (boot b n) as₁ s₁ → TimesOk s₁) ↔
      ∀ as₁ a as₂ s₁ i, as = as₁ ++ a :: as₂ → Run (step b) (boot b n) as₁ s₁ →
        event s₁ a = some (.charge i) → (s₁.proc i).ctime ≠ s₁.ticks := by
  constructor
  · intro hok as₁ a as₂ s₁ i he hr hev hct
    -- the step that charges the tick leads to a state that is not right
    subst he
    obtain ⟨s1', hr', hx⟩ := h.of_append
    obtain rfl := hr.unique hr'
    obtain ⟨s2, hs, -⟩ := Option.bind_eq_some_iff.mp hx
    have hl := life_step (exclusive_run hr) (step_cases hs)
    rw [hev] at hl
    cases hl with
    | charge k _ _ hev' hproc hticks =>
      split at hev' <;> cases hev'
      rename_i hrun
      have h₁ := (hok as₁ (a :: as₂) s₁ rfl hr i (by simp [hrun])).1
      have h2 := (hok (as₁ ++ [a]) as₂ s2 (by simp) (hr.snoc hs) i
        (by rw [hproc, update_self]; simp [Proc.updateTime, hrun])).1
      have hr0 : (s₁.proc i).rtime = 0 := by
        rw [hct] at h₁
        exact BitVec.eq_of_toNat_eq (by simpa using (by omega : (s₁.proc i).rtime.toNat = 0))
      rw [hproc, update_self, hticks] at h2
      simp only [Proc.updateTime, hrun, if_true, hr0, hct] at h2
      have h1 : ((0 : Word) + 1).toNat = 1 := rfl
      omega
    | same _ _ _ _ hu | free _ _ _ hu => exact absurd (hu _ rfl) (by simp [untimed])
    | tick _ hev' | create _ _ _ _ hev' | zombie _ _ _ hev' | reset _ _ _ hev' => cases hev'
  · intro hgood as₁ as₂ s₁ he hr
    suffices Timed (ticksIn as₁) s₁ from this.timesOk
    subst he
    have ht1 : ticksIn as₁ < 2 ^ 32 - 1 := by
      simp only [ticksIn, countP_append] at ht ⊢
      omega
    clear h ht
    induction hr generalizing as₂ with
    | nil => exact timed_boot
    | @snoc bs a s₁ s2 hr hs ih =>
      rw [ticksIn_snoc] at ht1 ⊢
      refine (ih (a :: as₂) (fun as₁ a' as2' s₁ i he => hgood as₁ a' as2' s₁ i (by simpa using he)) (by omega)).step
        (life_step (exclusive_run hr) (step_cases hs)) (by omega) fun i hev => ?_
      exact hgood bs a as₂ s₁ i (by simp) hr hev

/-- A process that has run for one tick. -/
theorem waits_iff_oneTick : ∃ s : State 1, Run (step .RR) (boot .RR 1) [.sched 0, .tick, .clock] s ∧
    (s.proc initproc).rtime = 1 ∧
    ((∀ as₁ as₂ s₁, [.sched 0, .tick, .clock] = as₁ ++ as₂ → Run (step .RR) (boot .RR 1) as₁ s₁ → TimesOk s₁) ↔
      ∀ as₁ a as₂ s₁ i, [.sched 0, .tick, .clock] = as₁ ++ a :: as₂ → Run (step .RR) (boot .RR 1) as₁ s₁ →
        event s₁ a = some (.charge i) → (s₁.proc i).ctime ≠ s₁.ticks) := by
  obtain ⟨s, hr, hq⟩ := exists_run (step .RR) (boot .RR 1) [.sched 0, .tick, .clock]
    (Q := fun s => (s.proc initproc).rtime = 1) (by decide)
  exact ⟨s, hr, hq, waits_iff hr (by decide)⟩

/-- The clock of CPU 0 counts a tick; then CPU 1 creates a process, CPU 2
switches to it, and `update_time` comes to it; then it exits. -/
def lateCharge : List (Act 3) :=
  [.sched 1, .run 1 .fork, .run 1 (.next true true), .tick] ++ replicate 3 (.run 1 (.next true true)) ++
    [.sched 2, .sched 2, .clock, .clock, .run 2 (.exit 0)] ++ replicate 132 (.run 2 (.next true true))

/-- The process was created at tick 1, charged a tick and exited at tick 1: its
waiting time is `2 ^ 32 - 1`. -/
theorem waiting_time_wraps : ∃ s : State 3, Run (step .RR) (boot .RR 3) lateCharge s ∧ ticksIn lateCharge = 1 ∧
    (s.proc 1).state = .zombie ∧
    (s.proc 1).etime.toNat < (s.proc 1).ctime.toNat + (s.proc 1).rtime.toNat ∧
    s.ticks.toNat < (s.proc 1).ctime.toNat + (s.proc 1).rtime.toNat ∧
    ((s.proc 1).etime - (s.proc 1).ctime - (s.proc 1).rtime).toNat = 2 ^ 32 - 1 := by
  obtain ⟨s, hr, hq⟩ := exists_run (step .RR) (boot .RR 3) lateCharge
    (Q := fun s => (s.proc 1).state = .zombie ∧
      (s.proc 1).etime.toNat < (s.proc 1).ctime.toNat + (s.proc 1).rtime.toNat ∧
      s.ticks.toNat < (s.proc 1).ctime.toNat + (s.proc 1).rtime.toNat ∧
      ((s.proc 1).etime - (s.proc 1).ctime - (s.proc 1).rtime).toNat = 2 ^ 32 - 1) (by decide +kernel)
  exact ⟨s, hr, by decide, hq⟩

/-! ## Running times -/

/-- The ticks charged to the process in slot `i` since its creation. -/
def ticksOf (i : Slot) (H : List Event) : Nat :=
  H.foldl (fun t e =>
    match e with
    | .alloc np _ true => if np = i then 0 else t
    | .charge j => if j = i then t + 1 else t
    | _ => t) 0

/-- The ticks charged to it since its creation or since its times were last reset. -/
def ticksSinceReset (i : Slot) (H : List Event) : Nat :=
  H.foldl (fun t e =>
    match e with
    | .alloc np _ true => if np = i then 0 else t
    | .charge j => if j = i then t + 1 else t
    | .reset j => if j = i then 0 else t
    | _ => t) 0

/-- Slot `i` is given to a new process. -/
def Event.creates (i : Slot) : Event → Bool
  | .alloc np _ ok => ok && np == i
  | _ => false

/-- The times of the process in slot `i` were never reset after it was charged a tick. -/
def NoLateReset (i : Slot) (H : List Event) : Prop :=
  ∀ H1 H2, H = H1 ++ .reset i :: H2 → H2.any (creates i) = false → ticksOf i H1 = 0

theorem ticksOf_snoc (i : Slot) (H : List Event) (e : Event) :
    ticksOf i (H ++ [e]) =
      if e.creates i then 0 else if e = .charge i then ticksOf i H + 1 else ticksOf i H := by
  cases e with
  | alloc np pid ok => cases ok <;> simp [ticksOf, creates]
  | charge j => by_cases h : j = i <;> simp [ticksOf, creates, h]
  | _ => simp [ticksOf, creates]

theorem ticksSinceReset_snoc (i : Slot) (H : List Event) (e : Event) :
    ticksSinceReset i (H ++ [e]) = if e.creates i ∨ e = .reset i then 0
      else if e = .charge i then ticksSinceReset i H + 1 else ticksSinceReset i H := by
  cases e with
  | alloc np pid ok => cases ok <;> simp [ticksSinceReset, creates]
  | charge j | reset j => by_cases h : j = i <;> simp [ticksSinceReset, creates, h]
  | _ => simp [ticksSinceReset, creates]

theorem noLateReset_snoc (i : Slot) (H : List Event) (e : Event) :
    NoLateReset i (H ++ [e]) ↔
      e.creates i = true ∨ (NoLateReset i H ∧ (e = .reset i → ticksOf i H = 0)) := by
  constructor
  · intro h
    by_cases hc : e.creates i = true
    · exact .inl hc
    · refine .inr ⟨fun H1 H2 he hn => h H1 (H2 ++ [e]) (by simp [he]) (by simp [hn, hc]), fun he => ?_⟩
      exact h H [] (by rw [he]) rfl
  · intro h H1 H2 he hn
    rcases eq_nil_or_concat H2 with rfl | ⟨H2', x, rfl⟩
    · obtain ⟨rfl, hx⟩ := append_inj' he rfl
      cases hx
      exact (h.resolve_left (by simp [creates])).2 rfl
    · rw [concat_eq_append, ← cons_append, ← append_assoc] at he
      obtain ⟨hH, hx⟩ := append_inj' he rfl
      cases hx
      simp only [concat_eq_append, any_append, any_cons, any_nil, Bool.or_false, Bool.or_eq_false_iff] at hn
      exact (h.resolve_left (by simp [hn.2])).1 H1 H2' hH hn.1

/-- Resets lose ticks, unless none had been charged. -/
theorem ticksSinceReset_le (i : Slot) (H : List Event) :
    ticksSinceReset i H ≤ ticksOf i H ∧ (ticksSinceReset i H = ticksOf i H ↔ NoLateReset i H) := by
  induction H using reverseRecOn with
  | nil => exact ⟨Nat.le_refl _, fun _ H1 _ h => (by cases H1 <;> cases h), fun _ => rfl⟩
  | append_singleton H e ih =>
    obtain ⟨hle, heq⟩ := ih
    rw [ticksOf_snoc, ticksSinceReset_snoc, noLateReset_snoc, ← heq]
    by_cases hc : e.creates i = true
    · simp [hc]
    · by_cases hr : e = .reset i
      · subst hr
        simp only [hc, or_true, if_true, false_or, reduceCtorEq, if_false, forall_const]
        constructor <;> omega
      · rw [if_neg hc, if_neg (not_or.mpr ⟨hc, hr⟩)]
        simp only [hc, hr, false_or, false_imp_iff, and_true, Bool.false_eq_true]
        split <;> constructor <;> omega

theorem untimed_snoc {e : Event} (h : e.untimed = true) (H : List Event) :
    ticksSinceReset i (H ++ [e]) = ticksSinceReset i H := by
  rw [ticksSinceReset_snoc]
  cases e <;> simp_all [untimed, creates]

/-- The running time of a process is the ticks charged since it was last reset. -/
theorem rtime_step (hl : Life s a ev s')
    (hi : ∀ i, (s.proc i).state ≠ .unused → (s.proc i).rtime = BitVec.ofNat 32 (ticksSinceReset i H)) (i : Slot)
    (hu : (s'.proc i).state ≠ .unused) :
    (s'.proc i).rtime = BitVec.ofNat 32 (ticksSinceReset i (H ++ ev.toList)) := by
  have untimed : ∀ {ev : Option Event}, (∀ e ∈ ev, e.untimed = true) →
      ticksSinceReset i (H ++ ev.toList) = ticksSinceReset i H := by
    intro ev hev
    cases ev with
    | none => simp
    | some e => exact untimed_snoc (hev e rfl) H
  -- a change of one slot, which is this one or another
  have other : ∀ {k : Slot} {p : Proc}, s'.proc = update s.proc k p → i ≠ k → s'.proc i = s.proc i :=
    fun hp hk => by rw [hp, update_of_ne hk]
  have self : ∀ {p : Proc}, s'.proc = update s.proc i p → s'.proc i = p :=
    fun hp => by rw [hp, update_self]
  cases hl with
  | same hproc _ _ _ hev =>
    rw [untimed hev, (hproc i).rtime]
    exact hi i fun e => hu ((hproc i).unused.mpr e)
  | tick _ hev _ hproc =>
    subst hev
    rw [hproc] at hu ⊢
    simpa using hi i hu
  | charge k _ _ hev hproc =>
    by_cases hk : i = k
    · subst hk
      rw [self hproc] at hu ⊢
      have := hi i hu
      simp only [Proc.updateTime, hev]
      split
      · simp only [Option.toList, ticksSinceReset_snoc, creates, reduceCtorEq, or_self, if_false,
          Bool.false_eq_true, if_true, this, BitVec.ofNat_add]
        rfl
      · simpa using this
    · rw [other hproc hk] at hu ⊢
      rw [hi i hu, hev]
      split
      · simp [ticksSinceReset_snoc, creates, Ne.symm hk]
      · simp
  | create np p pid _ hev hproc _ hr =>
    subst hev
    by_cases hk : i = np
    · subst hk
      rw [self hproc, hr]
      simp [ticksSinceReset_snoc, creates]
    · rw [other hproc hk] at hu ⊢
      rw [hi i hu]
      simp [ticksSinceReset_snoc, creates, Ne.symm hk]
  | free np p _ hev hproc hp =>
    have hk : i ≠ np := fun e => by subst e; rw [self hproc] at hu; exact hu hp
    rw [other hproc hk] at hu ⊢
    rw [untimed hev, hi i hu]
  | zombie k p _ hev hk' hproc _ hr =>
    subst hev
    by_cases hk : i = k
    · subst hk
      rw [self hproc, hr]
      simpa using hi i (by simp [hk'])
    · rw [other hproc hk] at hu ⊢
      simpa using hi i hu
  | reset k p _ hev hproc _ hr =>
    subst hev
    by_cases hk : i = k
    · subst hk
      rw [self hproc, hr]
      simp [ticksSinceReset_snoc]
    · rw [other hproc hk] at hu ⊢
      rw [hi i hu]
      simp [ticksSinceReset_snoc, creates, Ne.symm hk]

theorem rtime_run {as : List (Act n)} (h : Run (step b) (boot b n) as s) (i : Slot)
    (hu : (s.proc i).state ≠ .unused) : (s.proc i).rtime = BitVec.ofNat 32 (ticksSinceReset i (history b n as)) := by
  refine h.labels_invariant
    (I := fun H s => ∀ i, (s.proc i).state ≠ .unused → (s.proc i).rtime = BitVec.ofNat 32 (ticksSinceReset i H))
    (fun j hj => ?_) (fun hr hi hs => rtime_step (life_step (exclusive_run hr) (step_cases hs)) hi) i hu
  have : j = initproc := Decidable.byContradiction fun h => hj (by simp [boot, h])
  subst this
  simp [boot, userinit, Proc.allocproc, ticksSinceReset]

/-- The running time of a reaped process is the number of ticks at which it was
running since its creation, and splits its life with its waiting time,
exactly if `setpriority` did not reset its times after it was charged a tick
(and it was charged fewer than `2 ^ 32`). -/
theorem rtime_iff {as : List (Act n)} (h : Run (step b) (boot b n) as s) {caller np : Slot} {pid : Word} {addr : Nat}
    {stored : Option Word} (hs : step b s a = some s') (hev : event s a = some (.reap caller np pid addr stored)) :
    ((s.proc np).rtime.toNat = ticksOf np (history b n as) ∧
        (s.proc np).rtime + ((s.proc np).etime - (s.proc np).ctime - (s.proc np).rtime) =
          (s.proc np).etime - (s.proc np).ctime) ↔
      NoLateReset np (history b n as) ∧ ticksOf np (history b n as) < 2 ^ 32 := by
  have hz := (reap_parent (step_cases hs) hev).2.1
  obtain ⟨hle, heq⟩ := ticksSinceReset_le np (history b n as)
  have hr := congrArg BitVec.toNat (rtime_run h np (by simp [hz]))
  rw [BitVec.toNat_ofNat] at hr
  rw [← heq]
  have hsplit : (s.proc np).rtime + ((s.proc np).etime - (s.proc np).ctime - (s.proc np).rtime) =
      (s.proc np).etime - (s.proc np).ctime := by
    rw [BitVec.add_comm, BitVec.sub_add_cancel]
  constructor
  · rintro ⟨h, -⟩
    omega
  · rintro ⟨h1, h2⟩
    refine ⟨?_, hsplit⟩
    rw [hr, h1, Nat.mod_eq_of_lt h2]

/-- A child of the first process is charged a tick and exits; the first process
is about to reap it. -/
def chargedChild (before : List (Act 2)) : List (Act 2) :=
  [.sched 0, .run 0 .fork] ++ replicate 4 (.run 0 (.next true true)) ++
    [.sched 1, .sched 1, .tick, .clock, .clock] ++ before ++
    .run 1 (.exit 0) :: replicate 132 (.run 1 (.next true true)) ++
    [.run 0 (.wait true 0), .run 0 (.next true true), .run 0 (.next true true)]

theorem rtime_iff_chargedChild : ∃ s s' : State 2, Run (step .RR) (boot .RR 2) (chargedChild []) s ∧
    step .RR s (.run 0 (.next true true)) = some s' ∧
    event s (.run 0 (.next true true)) = some (.reap 0 1 2 0 none) ∧
    (((s.proc 1).rtime.toNat = ticksOf 1 (history .RR 2 (chargedChild [])) ∧
        (s.proc 1).rtime + ((s.proc 1).etime - (s.proc 1).ctime - (s.proc 1).rtime) =
          (s.proc 1).etime - (s.proc 1).ctime) ↔
      NoLateReset 1 (history .RR 2 (chargedChild [])) ∧ ticksOf 1 (history .RR 2 (chargedChild [])) < 2 ^ 32) := by
  obtain ⟨s, hr, hev, hs⟩ := exists_run (step .RR) (boot .RR 2) (chargedChild [])
    (Q := fun s => event s (.run 0 (.next true true)) = some (.reap 0 1 2 0 none) ∧
      (step .RR s (.run 0 (.next true true))).isSome = true) (by decide +kernel)
  obtain ⟨s', hs⟩ := Option.isSome_iff_exists.mp hs
  exact ⟨s, s', hr, hs, hev, rtime_iff hr hs hev⟩

/-- The child calls `setpriority(70, 2)` on itself after it was charged a tick:
its running time is 0. -/
def resetChild : List (Act 2) :=
  chargedChild (.run 1 (.setpriority 70 2) :: replicate 2 (.run 1 (.next true true)))

theorem rtime_lost : ∃ s s' : State 2, Run (step .RR) (boot .RR 2) resetChild s ∧
    step .RR s (.run 0 (.next true true)) = some s' ∧
    event s (.run 0 (.next true true)) = some (.reap 0 1 2 0 none) ∧
    (s.proc 1).rtime = 0 ∧ ticksOf 1 (history .RR 2 resetChild) = 1 := by
  obtain ⟨s, hr, hev, hs, hz⟩ := exists_run (step .RR) (boot .RR 2) resetChild
    (Q := fun s => event s (.run 0 (.next true true)) = some (.reap 0 1 2 0 none) ∧
      (step .RR s (.run 0 (.next true true))).isSome = true ∧ (s.proc 1).rtime = 0) (by decide +kernel)
  obtain ⟨s', hs⟩ := Option.isSome_iff_exists.mp hs
  exact ⟨s, s', hr, hs, hev, hz, by decide +kernel⟩

end Xv6.Machine
