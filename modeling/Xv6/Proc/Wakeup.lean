import Xv6.Framework.Run
import Xv6.Proc.Sleep

/-!
# No wakeup is lost

A process that has called `sleep` with `lk` held is asleep, or bound to
be, before anybody else can get `lk` and its own lock (`Due`); so a call of `wakeup`
with `lk` held meets every such process (`Passed`). Hence `not_signalled`: nobody
sleeps on after a `wakeup` that came after its last test of the condition. For
clients that call `wakeup` whenever they have made the condition true, this gives
`cond_of_asleep`.
-/

namespace Xv6.Sleep

open Framework Function State

variable {σ θ ι : Type} {n : Nat} {C : Client σ θ ι n} {s s' : State σ θ n} {pc : Pc θ n} {i : Fin n}
  {ev : Option (Event n)} {d : σ} {live : Fin n → Bool} {t : Fin n → θ} {as : List (Act ι n)} {owes : θ → Bool}

/-! ## Who sleeps -/

/-- The process sleeps on the channel of the client. -/
def Asleep (C : Client σ θ ι n) (p : Proc) : Prop := p.state = .sleeping ∧ p.chan = some C.chan

instance (C : Client σ θ ι n) (p : Proc) : Decidable (Asleep C p) := inferInstanceAs (Decidable (_ ∧ _))

/-- The thread has switched to the scheduler in `sleep`. -/
def Pc.isOff : Pc θ n → Bool
  | .sched _ | .slept _ => true
  | _ => false

theorem Pc.busy_of_isOff (h : pc.isOff = true) : pc.busy = false := by
  cases pc <;> simp_all [Pc.isOff, Pc.busy]

structure States (C : Client σ θ ι n) (s : State σ θ n) : Prop where
  busy {i : Fin n} : (s.pc i).busy = true → (s.proc i).state = .running
  asleep {i : Fin n} : Asleep C (s.proc i) → (s.pc i).isOff = true

theorem not_asleep_wakeup (p : Proc) : ¬Asleep C (p.wakeup C.chan) := by
  simp only [Proc.wakeup, Asleep]
  split
  · simp
  · assumption

/-- A statement of process `i`, which is running before and after it. -/
theorem States.thread (h : States C s) (hpc : s'.pc = update s.pc i pc)
    (hr : (s'.proc i).state = .running) (hproc : ∀ j, j ≠ i → s'.proc j = s.proc j) : States C s' where
  busy {j} hb := by
    by_cases hji : j = i
    · subst hji
      exact hr
    · rw [hpc, update_of_ne hji] at hb
      rw [hproc j hji]
      exact h.busy hb
  asleep {j} ha := by
    by_cases hji : j = i
    · subst hji
      exact nomatch hr.symm.trans ha.1
    · rw [hpc, update_of_ne hji]
      rw [hproc j hji] at ha
      exact h.asleep ha

/-- A change of a process that is not busy, or stays in its state. -/
theorem States.proc (h : States C s) {p : Proc} (hpc : s'.pc = s.pc)
    (hproc : s'.proc = update s.proc i p) (ha : Asleep C p → Asleep C (s.proc i))
    (hst : (s.pc i).busy = false ∨ p.state = (s.proc i).state ∨ (s.proc i).state = .sleeping) : States C s' where
  busy {j} hb := by
    rw [hpc] at hb
    rw [hproc, update_apply]
    split
    · rename_i hji
      subst hji
      rcases hst with hst | hst | hst
      · rw [hst] at hb
        cases hb
      · rw [hst, h.busy hb]
      · exact nomatch hst.symm.trans (h.busy hb)
    · exact h.busy hb
  asleep {j} hj := by
    rw [hpc]
    rw [hproc, update_apply] at hj
    split at hj
    · rename_i hji
      subst hji
      exact h.asleep (ha hj)
    · exact h.asleep hj

/-- A process that is off its CPU before and after. -/
theorem States.off (h : States C s) (hpc : s'.pc = update s.pc i pc)
    (hoff : pc.isOff = true) (hproc : ∀ j, j ≠ i → s'.proc j = s.proc j) : States C s' where
  busy {j} hb := by
    by_cases hji : j = i
    · subst hji
      rw [hpc, update_self, Pc.busy_of_isOff hoff] at hb
      cases hb
    · rw [hpc, update_of_ne hji] at hb
      rw [hproc j hji]
      exact h.busy hb
  asleep {j} ha := by
    by_cases hji : j = i
    · subst hji
      rw [hpc, update_self]
      exact hoff
    · rw [hpc, update_of_ne hji]
      rw [hproc j hji] at ha
      exact h.asleep ha

theorem Pc.busy_of_free (h : pc.free = true) : pc.busy = false := by
  cases pc <;> simp_all [Pc.free, Pc.busy]

theorem states_step (h : States C s) (hs : Step C s ev s') : States C s' := by
  cases hs with
  | enter hr | update hr | callSleep hr | callWakeup hr | release hr | wakeupSelf hr | wakeupLock hr | wakeupDone hr
  | sleepLock hr | sleepRelease hr | reacquire hr => exact h.thread rfl hr fun _ _ => rfl
  | @wakeupProc i k t hr hpc =>
    have hk : States C (s.setProc k ((s.proc k).wakeup C.chan)) := by
      refine h.proc rfl rfl (fun ha => absurd ha (not_asleep_wakeup _)) (.inr ?_)
      simp only [Proc.wakeup]
      split
      · rename_i hw
        exact .inr hw.1
      · exact .inl rfl
    refine hk.thread rfl ?_ fun _ _ => rfl
    exact hk.busy (i := i) (by rw [show (s.setProc k _).pc i = _ from hpc]; rfl)
  | @tidyUp i t hr =>
    exact h.thread rfl (by simpa [setPc, setPlock, setProc] using hr) fun j hj => by
      simp [setPc, setPlock, setProc, hj]
  | @dispatch i t =>
    exact h.thread rfl (by simp [setPc, setPlock, setProc]) fun j hj => by
      simp [setPc, setPlock, setProc, hj]
  | @sleepSet i t =>
    exact h.off rfl rfl fun j hj => by simp [setPc, setProc, hj]
  | switch => exact h.off rfl rfl fun _ _ => rfl
  | other _ ha hst =>
    refine h.proc rfl rfl (fun hp => ha hp.1 hp.2) ?_
    rcases hst with hst | hst | hst
    · exact .inl (Pc.busy_of_free hst)
    · exact .inr (.inl hst)
    · exact .inr (.inr hst.1)

/-! ## No wakeup is lost -/

/-- How far a thread in `wakeup` has got. -/
def Pc.scan : Pc θ n → Option Nat
  | .wakeup _ k => some k
  | .wakeupAt _ k => some k
  | _ => none

/-- The thread is in `sleep`, and `lk` is released or about to be. -/
def Pc.sleeps : Pc θ n → Bool
  | .sleep _ | .sleepRelease _ | .sleepSet _ => true
  | _ => false

theorem Pc.sleeps_holds (i : Fin n) (h : pc.sleeps = true) :
    pc.holdsLk = true ∨ pc.holds i = some i := by
  cases pc <;> simp_all [Pc.sleeps, Pc.holdsLk, Pc.holds]

/-- The process sleeps, or will sleep without looking at the condition again. -/
def Due (C : Client σ θ ι n) (s : State σ θ n) (i : Fin n) : Prop :=
  (s.pc i).sleeps = true ∨ Asleep C (s.proc i)

/-- Where a call of `wakeup` has been, nobody sleeps. -/
def Passed (C : Client σ θ ι n) (s : State σ θ n) : Prop :=
  ∀ w k, (s.pc w).scan = some k → ∀ i : Fin n, i.val < k → ¬Due C s i

/-- A process becomes due when it finds the condition false and calls `sleep`. -/
theorem due_step {j : Fin n} (hs : Step C s ev s') (hd : Due C s' j) :
    Due C s j ∨ ev = some (.test j) := by
  -- the statement takes thread `i` to `pc`, and changes process `k` to `p`
  have change : ∀ (i k : Fin n) {pc : Pc θ n} {p : Proc}, s'.pc = update s.pc i pc →
      s'.proc = update s.proc k p → (pc.sleeps = true → Due C s i) → (Asleep C p → Due C s k) → Due C s j := by
    intro i k pc p hpc hproc hi hk
    rw [Due, hpc, hproc, update_apply, update_apply] at hd
    rcases hd with hd | hd
    · split at hd
      · rename_i hji
        exact hji ▸ hi hd
      · exact .inl hd
    · split at hd
      · rename_i hjk
        exact hjk ▸ hk hd
      · exact .inr hd
  have thread : ∀ (i : Fin n) {pc : Pc θ n}, s'.pc = update s.pc i pc → s'.proc = s.proc →
      (pc.sleeps = true → (s.pc i).sleeps = true) → Due C s j := fun i _ hpc hproc hi =>
    change i i hpc (hproc.trans (update_eq_self ..).symm) (fun h => .inl (hi h)) .inr
  cases hs with
  | enter | update | callWakeup | release | wakeupSelf | wakeupLock | wakeupDone | reacquire | switch =>
    exact .inl (thread _ rfl rfl nofun)
  | sleepLock _ hpc | sleepRelease _ hpc => exact .inl (thread _ rfl rfl fun _ => by rw [hpc]; rfl)
  | @callSleep i =>
    by_cases hji : j = i
    · exact .inr (hji ▸ rfl)
    · exact .inl (by simpa only [Due, setPc, update_of_ne hji] using hd)
  | @wakeupProc i k => exact .inl (change i k rfl rfl nofun fun ha => absurd ha (not_asleep_wakeup _))
  | @sleepSet i t _ hpc => exact .inl (change i i rfl rfl nofun fun _ => .inl (by rw [hpc]; rfl))
  | @tidyUp i t hr => exact .inl (change i i rfl rfl nofun fun ha => nomatch hr.symm.trans ha.1)
  | @dispatch i => exact .inl (change i i rfl rfl nofun nofun)
  | @other i p _ ha => exact .inl (change i i (update_eq_self ..).symm rfl .inl fun h => .inr (ha h.1 h.2))

/-- How a thread in `wakeup` gets on. -/
theorem scan_step {w : Fin n} {k' : Nat} (hl : Locks s) (hs : Step C s ev s') (h : (s'.pc w).scan = some k') :
    (s.pc w).scan = some k' ∨ k' = 0 ∨ ∃ k : Fin n, k' = k + 1 ∧ (s.pc w).scan = some k.val ∧ ¬Due C s' k := by
  -- the statement takes thread `i` to `pc`
  have thread : ∀ (i : Fin n) {pc : Pc θ n}, s'.pc = update s.pc i pc →
      (pc.scan = some k' → w = i → (s.pc w).scan = some k') → (s.pc w).scan = some k' := by
    intro i pc hpc hi
    rw [hpc, update_apply] at h
    split at h
    · exact hi h ‹_›
    · exact h
  cases hs with
  | enter | update | callSleep | release | wakeupDone | sleepLock | sleepRelease | sleepSet | tidyUp | reacquire | switch
  | dispatch => exact .inl (thread _ rfl nofun)
  | other => exact .inl h
  | wakeupLock _ hpc => exact .inl (thread _ rfl fun he hw => by rw [hw, hpc]; exact he)
  | @callWakeup i =>
    simp only [setPc, update_apply] at h
    split at h
    · exact .inr (.inl (Option.some.inj h).symm)
    · exact .inl h
  | @wakeupSelf i t hr hpc =>
    simp only [setPc, update_apply] at h
    split at h
    · rename_i hw
      subst hw
      refine .inr (.inr ⟨w, (Option.some.inj h).symm, by rw [hpc]; rfl, ?_⟩)
      rintro (hd | hd)
      · simp only [setPc, update_self] at hd
        cases hd
      · exact nomatch hr.symm.trans hd.1
    · exact .inl h
  | @wakeupProc i k t hr hpc =>
    simp only [setPc, setPlock, setProc, update_apply] at h
    split at h
    · rename_i hw
      subst hw
      refine .inr (.inr ⟨k, (Option.some.inj h).symm, by rw [hpc]; rfl, ?_⟩)
      rintro (hd | hd)
      · -- the lock of `k` is held by `wakeup`, and so is `lk`
        simp only [setPc, setPlock, setProc, update_apply] at hd
        split at hd
        · cases hd
        · rename_i hkw
          rcases Pc.sleeps_holds k hd with hd | hd
          · exact hkw (Option.some.inj ((hl.lk.mpr hd).symm.trans (hl.lk.mpr (by rw [hpc]; rfl))))
          · exact hkw (Option.some.inj ((hl.plock.mpr hd).symm.trans (hl.plock.mpr (by rw [hpc]; rfl))))
      · exact not_asleep_wakeup (s.proc k) (by simpa [setPc, setPlock, setProc] using hd)
    · exact .inl h

theorem scan_holdsLk {k : Nat} (h : pc.scan = some k) : pc.holdsLk = true := by
  cases pc <;> simp_all [Pc.scan, Pc.holdsLk]

theorem test_step (hs : Step C s (some (.test i)) s') :
    (s'.pc i).holdsLk = true ∧ (s'.pc i).scan = none ∧ C.cond s.data = false := by
  generalize he : some (Event.test i) = ev at hs
  cases hs with
  | @callSleep j t t' x hr hpc hnext =>
    cases he
    simp only [setPc, update_self]
    exact ⟨rfl, rfl, C.sleep_cond hnext⟩
  | update => split at he <;> cases he
  | _ => cases he

theorem wakeupDone_step (hs : Step C s (some .wakeupDone) s') : ∃ w k, (s.pc w).scan = some k ∧ n ≤ k := by
  generalize he : some (Event.wakeupDone : Event n) = ev at hs
  cases hs with
  | @wakeupDone w k _ _ hpc hk => exact ⟨w, k, by rw [hpc]; rfl, hk⟩
  | update => split at he <;> cases he
  | _ => cases he

theorem passed_step (h : Passed C s) (hl : Locks s) (hs : Step C s ev s') : Passed C s' := by
  intro w k' hscan i hik hd
  rcases due_step hs hd with hd' | rfl
  · rcases scan_step hl hs hscan with hw | rfl | ⟨k, rfl, hw, hk⟩
    · exact h w k' hw i hik hd'
    · exact absurd hik (Nat.not_lt_zero _)
    · rcases Nat.lt_succ_iff_lt_or_eq.mp hik with hik | hik
      · exact h w k hw i hik hd'
      · exact hk (Fin.ext hik ▸ hd)
  · -- `i` has just called `sleep`, so that it holds `lk`
    have hl' := locks_step hl hs
    obtain ⟨hlk, hnone, -⟩ := test_step hs
    obtain rfl : i = w := Option.some.inj ((hl'.lk.mpr hlk).symm.trans (hl'.lk.mpr (scan_holdsLk hscan)))
    rw [hnone] at hscan
    cases hscan

structure Inv (C : Client σ θ ι n) (s : State σ θ n) : Prop where
  locks : Locks s
  states : States C s
  passed : Passed C s

theorem inv_run (h : Run (step C) (start d live t) as s) : Inv C s := by
  refine h.invariant ⟨⟨?_, ?_⟩, ⟨nofun, ?_⟩, nofun⟩ fun hi hs => ?_
  · exact ⟨nofun, nofun⟩
  · exact ⟨nofun, nofun⟩
  · rintro i ⟨hst, -⟩
    simp only [start] at hst
    split at hst <;> cases hst
  · have hs := step_cases hs
    exact ⟨locks_step hi.locks hs, states_step hi.states hs, passed_step hi.passed hi.locks hs⟩

/-- A call of `wakeup(chan)` is complete since the last test of process `i`. -/
def signalled (i : Fin n) (H : List (Event n)) : Bool :=
  H.foldl (fun b e => if e = .test i then false else if e = .wakeupDone then true else b) false

theorem signalled_snoc (i : Fin n) (H : List (Event n)) (e : Event n) :
    signalled i (H ++ [e]) = if e = .test i then false else if e = .wakeupDone then true else signalled i H := by
  simp [signalled]

theorem not_signalled (h : Run (step C) (start d live t) as s) (hd : Due C s i) :
    signalled i (labels (step C) (event C) (start d live t) as) = false := by
  revert hd
  refine h.labels_invariant (I := fun H s => Due C s i → signalled i H = false) (fun _ => rfl) ?_
  intro as s a s' hr ih hs hd
  have hs := step_cases hs
  cases hev : event C s a with
  | none =>
    rw [hev] at hs
    simpa using ih ((due_step hs hd).resolve_right nofun)
  | some e =>
    rw [hev] at hs
    rw [Option.toList_some, signalled_snoc]
    split
    · rfl
    · rename_i htest
      have hd := (due_step hs hd).resolve_right fun h => htest (Option.some.inj h)
      split
      · rename_i hdone
        subst hdone
        obtain ⟨w, k, hw, hk⟩ := wakeupDone_step hs
        exact absurd hd ((inv_run hr).passed w k hw i (Nat.lt_of_lt_of_le i.isLt hk))
      · exact ih hd

/-! ## Clients that signal -/

/-- A client that calls `wakeup` before it releases `lk` when it has made the
condition true; `owes` tells where it has yet to do so. -/
structure Signals (C : Client σ θ ι n) (owes : θ → Bool) : Prop where
  update {i : Fin n} {t t' : θ} {d d' : σ} {x : ι} : C.next i t d x = some (.update d' t') → C.cond d' = true →
    owes t' = true ∨ (C.cond d = true ∧ owes t = false)
  release {i : Fin n} {t t' : θ} {d : σ} {x : ι} : C.next i t d x = some (.release t') → C.cond d = true →
    owes t = false

/-- The thread is in `wakeup`, or will call it. -/
def Pc.signals (owes : θ → Bool) : Pc θ n → Bool
  | .crit t => owes t
  | .wakeup _ _ | .wakeupAt _ _ => true
  | _ => false

/-- If the condition is true, then nobody waits, or the holder of `lk` will wake all who do. -/
def Signalling (C : Client σ θ ι n) (owes : θ → Bool) (s : State σ θ n) : Prop :=
  C.cond s.data = true → (∃ w, s.lk = some w ∧ (s.pc w).signals owes = true) ∨ ∀ i, ¬Due C s i

theorem signalling_step (hC : Signals C owes) (h : Signalling C owes s)
    (hi : Inv C s) (hs : Step C s ev s') : Signalling C owes s' := by
  -- if nobody is due, then nobody is after a step that is not a test
  have nobody : (∀ i, ev ≠ some (.test i)) → (∀ i, ¬Due C s i) → ∀ i, ¬Due C s' i := fun hev hn i hd =>
    (due_step hs hd).elim (hn i) (hev i)
  -- the thread that holds `lk`, if it does not signal and is not due
  have holder : ∀ i, (s.pc i).holdsLk = true → (s.pc i).signals owes = false → C.cond s.data = true →
      ∀ j, ¬Due C s j := fun i hlk hsig hcond => (h hcond).resolve_left fun ⟨w, hw, hs⟩ => by
    obtain rfl : i = w := Option.some.inj ((hi.locks.lk.mpr hlk).symm.trans hw)
    rw [hsig] at hs
    cases hs
  -- the threads that do not hold `lk`
  have keep : ∀ i {pc : Pc θ n}, s'.pc = update s.pc i pc → s'.lk = s.lk → s'.data = s.data →
      (s.pc i).holdsLk = false → (∀ i, ev ≠ some (.test i)) → Signalling C owes s' := by
    intro i pc hpc hlk hdata hi' hev hcond
    rw [hdata] at hcond
    refine (h hcond).imp (fun ⟨w, hw, hs⟩ => ⟨w, by rw [hlk, hw], ?_⟩) (nobody hev)
    rw [hpc, update_of_ne]
    · exact hs
    · rintro rfl
      rw [hi.locks.lk.mp hw] at hi'
      cases hi'
  have freeLk : s.lk = none → (∀ i, ev ≠ some (.test i)) → s'.data = s.data → Signalling C owes s' := by
    intro hlk hev hdata hcond
    rw [hdata] at hcond
    refine .inr (nobody hev ((h hcond).resolve_left fun ⟨w, hw, _⟩ => ?_))
    rw [hlk] at hw
    cases hw
  cases hs with
  | enter _ _ hlk | reacquire _ _ hlk => exact freeLk hlk nofun rfl
  | @update i t t' d x _ hpc hnext =>
    intro hcond
    have hlk := hi.locks.lk.mpr (show (s.pc i).holdsLk = true by rw [hpc]; rfl)
    rcases hC.update hnext hcond with ho | ⟨hcond, ho⟩
    · refine .inl ⟨i, hlk, ?_⟩
      simpa [setPc, Pc.signals] using ho
    · refine .inr (nobody (fun j => ?_) (holder i (by rw [hpc]; rfl) (by rw [hpc]; exact ho) hcond))
      split <;> nofun
  | @callSleep i t t' x _ hpc hnext =>
    intro hcond
    exact nomatch (C.sleep_cond hnext).symm.trans hcond
  | @callWakeup i _ _ _ _ hpc | @wakeupSelf i _ _ hpc | @wakeupLock i _ _ _ hpc | @wakeupProc i _ _ _ hpc =>
    exact fun _ => .inl ⟨i, hi.locks.lk.mpr (by rw [hpc]; rfl), by simp [setPc, Pc.signals]⟩
  | @release i t t' x _ hpc hnext =>
    exact fun hcond => .inr (nobody nofun (holder i (by rw [hpc]; rfl) (by rw [hpc]; exact hC.release hnext hcond) hcond))
  | @wakeupDone i k _ _ hpc hk =>
    exact fun _ => .inr (nobody nofun fun j => hi.passed i k (by rw [hpc]; rfl) j (Nat.lt_of_lt_of_le j.isLt hk))
  | @sleepLock i _ _ hpc | @sleepRelease i _ _ hpc =>
    exact fun hcond => absurd (.inl (by rw [hpc]; rfl)) (holder i (by rw [hpc]; rfl) (by rw [hpc]; rfl) hcond i)
  | @sleepSet i _ _ hpc | @tidyUp i _ _ hpc | @switch i _ hpc | @dispatch i _ _ _ hpc =>
    exact keep i rfl rfl rfl (by rw [hpc]; rfl) nofun
  | @other i p hlock =>
    intro hcond
    exact (h hcond).imp id (nobody nofun)

/-- Nobody sleeps for a condition that is true, once `lk` is free. -/
theorem cond_of_asleep (hC : Signals C owes) (h : Run (step C) (start d live t) as s) (hlk : s.lk = none)
    (ha : Asleep C (s.proc i)) : C.cond s.data = false := by
  have hsig : Signalling C owes s := by
    clear hlk ha
    induction h with
    | nil =>
      refine fun _ => .inr fun i hd => ?_
      rcases hd with hd | ⟨hd, -⟩
      · cases hd
      · simp only [start] at hd
        split at hd <;> cases hd
    | snoc hr hs ih => exact signalling_step hC ih (inv_run hr) (step_cases hs)
  cases hcond : C.cond s.data with
  | false => rfl
  | true =>
    rcases hsig hcond with ⟨w, hw, -⟩ | hn
    · rw [hlk] at hw
      cases hw
    · exact absurd (.inr ha) (hn i)

end Xv6.Sleep
