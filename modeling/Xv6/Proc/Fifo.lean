import Xv6.Proc.Ageing

/-!
# The order in which MLFQ takes processes from a queue

The selection loop of MLFQ finds the process with the smallest queue and,
in it, the smallest `last_qtime` (`key`). `mlfq_fifo` says when this is the process
that entered the queue first: `last_qtime` has to be the tick a process entered
at, and what the loop has seen must not change under it.
-/

namespace Xv6

/-- What the selection loop of MLFQ compares. -/
def Proc.key (p : Proc) : ℤ ×ₗ ℤ := toLex (p.queue.toInt, p.lastQtime.toInt)

theorem key_lt_iff {p p' : Proc} : p.key < p'.key ↔
    BitVec.slt p.queue p'.queue ∨ (p.queue = p'.queue ∧ BitVec.slt p.lastQtime p'.lastQtime) := by
  simp [Proc.key, Prod.Lex.toLex_lt_toLex, BitVec.slt, BitVec.toInt_inj]

/-- One iteration of the selection loop of MLFQ. -/
theorem select_mlfq (proc : Slot → Proc) (sel : Selection) (i : Slot) :
    select .MLFQ proc sel i =
      if (proc i).state = .runnable ∧ ∀ r, sel.proc = some r → (proc i).key < (proc r).key then
        { sel with proc := some i }
      else sel := by
  simp only [select]
  by_cases hst : (proc i).state = .runnable
  · cases hsel : sel.proc with
    | none => simp [hst]
    | some r => simp [hst, key_lt_iff]
  · simp [hst]

namespace Machine

open Framework Function

variable {n : Nat} {s s' : State n} {a : Act n} {ev : Option Event} {i : Slot} {c : Fin n}

/-- CPU `c` is past the ageing pass: it selects a process, or is about to switch to it. -/
def Selecting (c : Fin n) (s : State n) : Prop := ∀ k, s.sched c ≠ .age k

instance (c : Fin n) (s : State n) : Decidable (Selecting c s) :=
  match h : s.sched c with
  | .age k => isFalse fun hs => hs k h
  | .scan _ _ | .dispatch _ => isTrue fun _ hk => nomatch h.symm.trans hk

/-- A step changes neither the state nor the key of a process that is `RUNNABLE`. -/
def Steady (s s' : State n) : Prop :=
  ∀ i, (s.proc i).state = .runnable →
    (s'.proc i).state = .runnable ∧ (s'.proc i).queue = (s.proc i).queue ∧ (s'.proc i).lastQtime = (s.proc i).lastQtime

instance (s s' : State n) : Decidable (Steady s s') := inferInstanceAs (Decidable (∀ _, _))

/-- What the loop of CPU `c` has done for process `i`, which is `RUNNABLE` all
along: once it has looked at `i`, it has selected a process that is not after `i`. -/
def Selects (c : Fin n) (i : Slot) (s : State n) : Prop :=
  match s.sched c with
  | .age _ => False
  | .scan k sel => (∀ r, sel.proc = some r → (s.proc r).state = .runnable) ∧
    (i.val < k → ∃ r, sel.proc = some r ∧ (s.proc r).key ≤ (s.proc i).key)
  | .dispatch r => (s.proc r).state = .runnable ∧ (s.proc r).key ≤ (s.proc i).key

theorem Steady.key (h : Steady s s') (hi : (s.proc i).state = .runnable) : (s'.proc i).key = (s.proc i).key := by
  obtain ⟨-, hq, hl⟩ := h i hi
  rw [Proc.key, Proc.key, hq, hl]

theorem Selects.steady (h : Selects c i s) (hi : (s.proc i).state = .runnable) (hst : Steady s s')
    (hsched : s'.sched c = s.sched c) : Selects c i s' := by
  simp only [Selects, hsched] at h ⊢
  split at h
  · exact h
  · refine ⟨fun r hr => (hst r (h.1 r hr)).1, fun hk => ?_⟩
    obtain ⟨r, hr, hle⟩ := h.2 hk
    exact ⟨r, hr, by rwa [hst.key (h.1 r hr), hst.key hi]⟩
  · exact ⟨(hst _ h.1).1, by rw [hst.key h.1, hst.key hi]; exact h.2⟩

/-- The steps of others leave the scheduler of a CPU where it is. -/
theorem sched_other {b : Build} (hs : Step b s a ev s') (ha : a ≠ .sched c) : s'.sched c = s.sched c := by
  cases hs with
  | @scan c' | @age c' | @dispatch c' =>
    have hc : c ≠ c' := by
      rintro rfl
      exact ha rfl
    simp only [State.setSched, State.setProc, State.dispatch, update_of_ne hc]
  | _ => rfl

/-- A pass of the selection loop goes on, one slot at a time. -/
theorem selects_sched (hs : step .MLFQ s (.sched c) = some s') (h : Selects c i s)
    (hi : (s.proc i).state = .runnable) (hsel : Selecting c s') : Selects c i s' := by
  simp only [step] at hs
  obtain ⟨-, hs⟩ := Option.ite_none_right_eq_some.mp hs
  cases hs
  cases hsched : s.sched c with
  | age k => simp only [Selects, hsched] at h
  | dispatch r =>
    refine absurd ?_ (hsel 0)
    simp only [schedStep, hsched]
    split <;> exact update_self ..
  | scan k sel =>
    simp only [Selects, hsched] at h
    simp only [schedStep, hsched, reduceCtorEq, if_false] at hsel ⊢
    split at hsel
    · rename_i hk
      rw [dif_pos hk]
      simp only [Selects, State.setSched, update_self, select_mlfq]
      split
      · rename_i hlt
        refine ⟨fun r hr => ?_, fun hik => ⟨_, rfl, ?_⟩⟩
        · cases hr
          exact hlt.1
        · rcases Nat.lt_succ_iff_lt_or_eq.mp hik with hik | rfl
          · obtain ⟨r, hr, hle⟩ := h.2 hik
            exact (hlt.2 r hr).le.trans hle
          · exact le_rfl
      · rename_i hlt
        refine ⟨h.1, fun hik => ?_⟩
        rcases Nat.lt_succ_iff_lt_or_eq.mp hik with hik | rfl
        · exact h.2 hik
        · simp only [Fin.eta, hi, true_and, not_forall, not_lt] at hlt
          obtain ⟨r, hr, hle⟩ := hlt
          exact ⟨r, hr, hle⟩
    · rename_i hk
      rw [dif_neg hk]
      obtain ⟨r, hr, hle⟩ := h.2 (by omega)
      simp only [hr, Selects, State.setSched, update_self]
      exact ⟨h.1 r hr, hle⟩

/-- A pass starts without a selection. -/
theorem selecting_start (hs : step .MLFQ s a = some s') (hsel : ¬Selecting c s) (hsel' : Selecting c s') :
    s'.sched c = .scan 0 Selection.start := by
  by_cases ha : a = .sched c
  · subst ha
    simp only [step] at hs
    obtain ⟨-, hs⟩ := Option.ite_none_right_eq_some.mp hs
    cases hs
    simp only [Selecting, not_forall, not_not] at hsel
    obtain ⟨k, hk⟩ := hsel
    simp only [schedStep, hk] at hsel' ⊢
    split at hsel'
    · exact absurd (update_self ..) (hsel' (k + 1))
    · rename_i hlt
      rw [dif_neg hlt]
      exact update_self ..
  · refine absurd (fun k => ?_) hsel
    rw [← sched_other (step_cases hs) ha]
    exact hsel' k

theorem selects_stretch {as0 bs : List (Act n)} {s0 : State n}
    (h : Stretch (step .MLFQ) (boot .MLFQ n) (Selecting c) as0 s0 bs s) (hst : Along (step .MLFQ) Steady s0 bs)
    (hi : (s0.proc i).state = .runnable) : (s.proc i).state = .runnable ∧ Selects c i s := by
  induction h with
  | start hr hsel hbefore =>
    refine ⟨hi, ?_⟩
    cases hr with
    | nil => exact absurd rfl (hsel 0)
    | snoc hr hs =>
      have hstart := selecting_start hs (hbefore _ _ _ rfl hr) hsel
      simp only [Selects, hstart]
      exact ⟨nofun, nofun⟩
  | @stay bs a s s' h hs hsel ih =>
    obtain ⟨hbs, hsteady⟩ := (along_snoc h.exec hs).mp hst
    obtain ⟨hi, hsels⟩ := ih hbs
    refine ⟨(hsteady i hi).1, ?_⟩
    by_cases ha : a = .sched c
    · subst ha
      exact selects_sched hs hsels hi hsel
    · exact hsels.steady hi hsteady (sched_other (step_cases hs) ha)

theorem toInt_eq_toNat {w : Word} (h : w.toNat < 2 ^ 31) : w.toInt = w.toNat :=
  BitVec.toInt_eq_toNat_of_lt (by omega)

/-- The first process goes on in `fork`. -/
def next : Act 1 := .run 0 (.next true true)

/-- It creates a process in slot `k`, up to where that is to become `RUNNABLE`. -/
def forks (k : Nat) : List (Act 1) := .run 0 .fork :: List.replicate (k + 2) next

/-- The first process creates process 1, a tick passes, and it creates process 2. -/
def secondFork : List (Act 1) := schedule ++ forks 1 ++ next :: .tick :: forks 2

/-- The first process sleeps, and CPU 0 does its ageing pass. -/
def aged : List (Act 1) := .run 0 (.sleep (.other 0)) :: List.replicate 64 (.sched 0)

/-- CPU 0 does a pass of its selection loop. -/
def pass : List (Act 1) := List.replicate 65 (.sched 0)

/-- The first process creates process 1 in the first tick, and sleeps until the
second. -/
def sleepsOnce : List (Act 1) := .run 0 (.sleep (.other 0)) :: List.replicate 130 .clock ++ [.tick]

end Machine

end Xv6
