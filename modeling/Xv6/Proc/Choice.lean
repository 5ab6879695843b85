import Xv6.Proc.Step

/-!
# The process a scheduler selects

The selection loops of FCFS, PBS and MLFQ come to the `RUNNABLE` process with
the least `Proc.rank`, the first one in the table among equals: after some
slots, the process selected is the least of these slots, and in PBS `max_dp` is
its dynamic priority (`Chosen`). `scheduler_selects` says so of a CPU that
scans the table while nothing else moves. In MLFQ the table has been through
the ageing pass then (`mlfq_ages`).
-/

namespace Xv6

open Framework Function List Option

variable {b : Build} {proc : Slot → Proc} {sel sel' : Selection} {i : Slot} {p q : Proc} {l : List Slot}

/-- What the selection loop of a scheduler compares, the first component first. -/
def Proc.rank : Build → Proc → ℤ ×ₗ ℤ ×ₗ ℤ
  | .RR, _ => toLex (0, toLex (0, 0))
  | .FCFS, p => toLex (p.ctime.toNat, toLex (0, 0))
  | .PBS, p => toLex (p.dynPriority.toInt, toLex (p.ntime.toNat, p.ctime.toNat))
  | .MLFQ, p => toLex (p.queue.toInt, toLex (p.lastQtime.toInt, 0))

/-- An iteration of the selection loop as the code makes it: `none` if it reads a
field of `selectedProc` while that is null. -/
def selectDeref (b : Build) (proc : Slot → Proc) (sel : Selection) (i : Slot) : Option Selection :=
  let p := proc i
  if p.state ≠ .runnable then some sel
  else match b with
  | .RR => some sel
  | .FCFS =>
    if sel.proc = none then some { sel with proc := some i }
    else do
      let q ← sel.proc
      if p.ctime < (proc q).ctime then some { sel with proc := some i } else some sel
  | .PBS =>
    let dp := p.dynPriority
    if BitVec.slt dp sel.maxDp then some ⟨some i, dp⟩
    else if dp = sel.maxDp then do
      let q ← sel.proc
      if p.ntime < (proc q).ntime then some { sel with proc := some i }
      else if p.ntime = (proc q).ntime then
        if p.ctime < (proc q).ctime then some { sel with proc := some i } else some sel
      else some sel
    else some sel
  | .MLFQ =>
    if sel.proc = none then some { sel with proc := some i }
    else do
      let q ← sel.proc
      if BitVec.slt p.queue (proc q).queue ∨ (p.queue = (proc q).queue ∧ BitVec.slt p.lastQtime (proc q).lastQtime) then
        some { sel with proc := some i }
      else some sel

/-- The selection loop of a scheduler. -/
def scan (b : Build) (proc : Slot → Proc) : Option Selection :=
  (finRange NPROC).foldlM (selectDeref b proc) Selection.start

/-! ## Keys -/

/-- The clamp keeps the dynamic priority from 0 to 100. -/
theorem Proc.dynPriority_range (p : Proc) : 0 ≤ p.dynPriority.toInt ∧ p.dynPriority.toInt ≤ 100 := by
  have h0 : (0 : Word).toInt = 0 := rfl
  have h1 : (100 : Word).toInt = 100 := rfl
  simp only [Proc.dynPriority, BitVec.slt, decide_eq_true_eq, h0, h1]
  split_ifs <;> omega

theorem Proc.rank_lt_fcfs : p.rank .FCFS < q.rank .FCFS ↔ p.ctime < q.ctime := by
  simp [Proc.rank, Prod.Lex.toLex_lt_toLex, BitVec.lt_def]

theorem Proc.rank_lt_pbs : p.rank .PBS < q.rank .PBS ↔ BitVec.slt p.dynPriority q.dynPriority ∨
    p.dynPriority = q.dynPriority ∧ (p.ntime < q.ntime ∨ p.ntime = q.ntime ∧ p.ctime < q.ctime) := by
  simp [Proc.rank, Prod.Lex.toLex_lt_toLex, BitVec.lt_def, BitVec.toNat_inj, BitVec.toInt_inj, BitVec.slt]

theorem Proc.rank_lt_mlfq : p.rank .MLFQ < q.rank .MLFQ ↔ BitVec.slt p.queue q.queue ∨
    p.queue = q.queue ∧ BitVec.slt p.lastQtime q.lastQtime := by
  simp [Proc.rank, Prod.Lex.toLex_lt_toLex, BitVec.toInt_inj, BitVec.slt]

/-! ## The loop -/

/-- The slots of a list with a process that can run. -/
def runnables (proc : Slot → Proc) (l : List Slot) : List Slot := l.filter fun i => (proc i).state = .runnable

/-- What the loop knows after the slots `l`. -/
structure Chosen (b : Build) (proc : Slot → Proc) (l : List Slot) (sel : Selection) : Prop where
  proc_eq : sel.proc = (runnables proc l).argmin fun i => (proc i).rank b
  maxDp_eq : b = .PBS → sel.maxDp = sel.proc.elim 101 fun i => (proc i).dynPriority

theorem Chosen.start : Chosen b proc [] Selection.start := ⟨rfl, fun _ => rfl⟩

/-- A slot that is not `RUNNABLE` is passed over. -/
theorem Chosen.skip (h : Chosen b proc l sel) (hi : (proc i).state ≠ .runnable) : Chosen b proc (l ++ [i]) sel := by
  have hl : runnables proc (l ++ [i]) = runnables proc l := by
    simp only [runnables, filter_append, filter_cons, hi, decide_false, Bool.false_eq_true, ↓reduceIte,
      filter_nil, append_nil]
  exact ⟨by rw [hl]; exact h.proc_eq, h.maxDp_eq⟩

/-- The loop comes to a `RUNNABLE` process, and selects it if there is none yet
or if its rank is less. -/
theorem Chosen.take (h : Chosen b proc l sel) (hi : (proc i).state = .runnable)
    (hsel : sel'.proc = sel.proc.elim (some i) fun q => if (proc i).rank b < (proc q).rank b then some i else some q)
    (hdp : b = .PBS → sel'.maxDp = sel'.proc.elim 101 fun i => (proc i).dynPriority) :
    Chosen b proc (l ++ [i]) sel' := by
  have hl : runnables proc (l ++ [i]) = runnables proc l ++ [i] := by
    simp only [runnables, filter_append, filter_cons, hi, decide_true, ↓reduceIte, filter_nil]
  refine ⟨?_, hdp⟩
  rw [hl, argmin_concat, ← h.proc_eq, hsel]
  cases sel.proc <;> rfl

theorem chosen_selectDeref (hb : b ≠ .RR) (h : Chosen b proc l sel) (i : Slot) :
    ∃ sel', selectDeref b proc sel i = some sel' ∧ Chosen b proc (l ++ [i]) sel' := by
  by_cases hi : (proc i).state = .runnable
  · cases b with
    | RR => exact absurd rfl hb
    | FCFS =>
      cases hs : sel.proc with
      | none => exact ⟨{ sel with proc := some i }, by simp [selectDeref, hi, hs], h.take hi (by rw [hs]; rfl) nofun⟩
      | some q =>
        refine ⟨if (proc i).ctime < (proc q).ctime then { sel with proc := some i } else sel, ?_, h.take hi ?_ nofun⟩
        · simp only [selectDeref, hi, hs, ne_eq, not_true_eq_false, ↓reduceIte, reduceCtorEq, bind_eq_bind, bind_some]
          split <;> rfl
        · simp only [hs, elim_some, Proc.rank_lt_fcfs]
          split
          · rfl
          · exact hs
    | PBS =>
      have hmax := h.maxDp_eq rfl
      obtain ⟨-, hle⟩ := (proc i).dynPriority_range
      cases hs : sel.proc with
      | none =>
        -- `max_dp` is still 101, so that the process is selected and not compared
        have hlt : BitVec.slt (proc i).dynPriority sel.maxDp = true := by
          rw [hmax, hs]
          have h1 : (101 : Word).toInt = 101 := rfl
          simp only [elim_none, BitVec.slt, decide_eq_true_eq, h1]
          omega
        exact ⟨⟨some i, (proc i).dynPriority⟩, by simp [selectDeref, hi, hlt], h.take hi (by rw [hs]; rfl) fun _ => rfl⟩
      | some q =>
        rw [hs, elim_some] at hmax
        refine ⟨if (proc i).rank .PBS < (proc q).rank .PBS then ⟨some i, (proc i).dynPriority⟩ else sel, ?_,
          h.take hi ?_ fun _ => ?_⟩
        · simp only [selectDeref, hi, hs, Proc.rank_lt_pbs, ne_eq, not_true_eq_false, ↓reduceIte, bind_eq_bind,
            bind_some]
          have hset (hdp : (proc i).dynPriority = (proc q).dynPriority) :
              (⟨some i, sel.maxDp⟩ : Selection) = ⟨some i, (proc i).dynPriority⟩ := by rw [hmax, hdp]
          grind
        · rw [hs, elim_some]
          split
          · rfl
          · exact hs
        · split
          · rfl
          · rw [hs, hmax, elim_some]
    | MLFQ =>
      cases hs : sel.proc with
      | none => exact ⟨{ sel with proc := some i }, by simp [selectDeref, hi, hs], h.take hi (by rw [hs]; rfl) nofun⟩
      | some q =>
        refine ⟨if (proc i).rank .MLFQ < (proc q).rank .MLFQ then { sel with proc := some i } else sel, ?_,
          h.take hi ?_ nofun⟩
        · simp only [selectDeref, hi, hs, Proc.rank_lt_mlfq, ne_eq, not_true_eq_false, ↓reduceIte, reduceCtorEq,
            bind_eq_bind, bind_some]
          split <;> rfl
        · rw [hs, elim_some]
          split
          · rfl
          · exact hs
  · exact ⟨sel, by simp only [selectDeref, hi, ne_eq, not_false_eq_true, ↓reduceIte], h.skip hi⟩

theorem chosen_scan (hb : b ≠ .RR) (h : Chosen b proc l sel) (m : List Slot) :
    ∃ sel', m.foldlM (selectDeref b proc) sel = some sel' ∧ Chosen b proc (l ++ m) sel' := by
  induction m generalizing l sel with
  | nil => exact ⟨sel, rfl, by rwa [append_nil]⟩
  | cons i m ih =>
    obtain ⟨sel1, hi, h1⟩ := chosen_selectDeref hb h i
    obtain ⟨sel2, hm, h2⟩ := ih h1
    refine ⟨sel2, ?_, by rwa [append_assoc] at h2⟩
    rw [foldlM_cons, hi]
    exact hm

/-- The loop selects no process only if there is none to select. -/
theorem Chosen.none_iff (h : Chosen b proc l sel) : sel.proc = none ↔ ∀ i ∈ l, (proc i).state ≠ .runnable := by
  rw [h.proc_eq, argmin_eq_none, runnables, filter_eq_nil_iff]
  simp

/-- The process selected is the least, and the first one among equals. -/
theorem Chosen.least (h : Chosen b proc l sel) (hl : l.Pairwise (· < ·)) (hi : sel.proc = some i) :
    (proc i).state = .runnable ∧ ∀ j ∈ l, (proc j).state = .runnable →
      (proc i).rank b < (proc j).rank b ∨ (proc i).rank b = (proc j).rank b ∧ i ≤ j := by
  obtain ⟨hmem, hle, hfirst⟩ := argmin_eq_some_iff.mp (h.proc_eq.symm.trans hi)
  have hrun : (proc i).state = .runnable := by simpa using (mem_filter.mp hmem).2
  refine ⟨hrun, fun j hj hjr => ?_⟩
  have hjm : j ∈ runnables proc l := mem_filter.mpr ⟨hj, by simpa using hjr⟩
  refine (lt_or_eq_of_le (hle j hjm)).imp_right fun heq => ⟨heq, ?_⟩
  have hidx := hfirst j hjm heq.ge
  have hsorted : (runnables proc l).Pairwise (· < ·) := hl.filter _
  have hi' := idxOf_lt_length_of_mem hmem
  have hj' := idxOf_lt_length_of_mem hjm
  rw [← getElem_idxOf hi', ← getElem_idxOf hj']
  rcases hidx.lt_or_eq with hlt | heq
  · exact (pairwise_iff_getElem.mp hsorted _ _ hi' hj' hlt).le
  · exact le_of_eq (by congr 1)

theorem scan_chosen (hb : b ≠ .RR) (proc : Slot → Proc) :
    ∃ sel, scan b proc = some sel ∧ Chosen b proc (finRange NPROC) sel :=
  chosen_scan hb (show Chosen b proc [] Selection.start from .start) (finRange NPROC)

/-- What `scan` finds is the process it selects. -/
theorem scan_least (hb : b ≠ .RR) (h : scan b proc = some sel) (hi : sel.proc = some i) :
    (proc i).state = .runnable ∧ ∀ j, (proc j).state = .runnable →
      (proc i).rank b < (proc j).rank b ∨ (proc i).rank b = (proc j).rank b ∧ i ≤ j := by
  obtain ⟨sel', hscan, hc⟩ := scan_chosen hb proc
  obtain rfl : sel = sel' := Option.some.inj (h.symm.trans hscan)
  obtain ⟨hr, hle⟩ := hc.least (pairwise_lt_finRange NPROC) hi
  exact ⟨hr, fun j => hle j (mem_finRange j)⟩

namespace Machine

variable {n : Nat} {s : State n} {c : Fin n}

theorem select_of_selectDeref (h : selectDeref b proc sel i = some sel') : select b proc sel i = sel' := by
  cases b <;> cases hs : sel.proc <;> simp only [selectDeref, select, hs] at h ⊢ <;> grind

/-- A CPU scans the slots from `k` on. -/
theorem sched_scanFrom (hb : b ≠ .RR) (hc : s.cproc c = none) {k : Nat} (hk : k ≤ NPROC) (hpc : s.sched c = .scan k sel)
    (hscan : ((finRange NPROC).drop k).foldlM (selectDeref b s.proc) sel = some sel') :
    Run (step b) s (replicate (NPROC - k) (.sched c)) (s.setSched c (.scan NPROC sel')) := by
  rw [run_iff_exec]
  induction h : NPROC - k generalizing s k sel with
  | zero =>
    obtain rfl : k = NPROC := by omega
    rw [drop_of_length_le (by rw [length_finRange])] at hscan
    obtain rfl : sel = sel' := Option.some.inj hscan
    have hself : s.setSched c (.scan NPROC sel) = s := by rw [State.setSched, ← hpc, update_eq_self]
    rw [hself]
    rfl
  | succ m ih =>
    have hlt : k < NPROC := by omega
    have hdrop : (finRange NPROC).drop k = ⟨k, hlt⟩ :: (finRange NPROC).drop (k + 1) := by
      rw [drop_eq_getElem_cons (by rwa [length_finRange]), getElem_finRange]
      rfl
    rw [hdrop, foldlM_cons] at hscan
    obtain ⟨sel1, h1, hscan⟩ := bind_eq_some_iff.mp hscan
    have hstep : step b s (.sched c) = some (s.setSched c (.scan (k + 1) sel1)) := by
      simp only [step, hc, schedStep, hpc, hlt, hb, ↓reduceIte, ↓reduceDIte, select_of_selectDeref h1]
    rw [replicate_succ, exec, hstep, bind_some]
    have := ih (s := s.setSched c (.scan (k + 1) sel1)) hc hlt (update_self ..) hscan (by omega)
    rwa [State.setSched, State.setSched, update_idem] at this

/-- A CPU that scans the table while nothing else moves comes to the process that
is the least, if there is one, and reads no field of a null pointer. -/
theorem scheduler_selects (hb : b ≠ .RR) (hc : s.cproc c = none) (hpc : s.sched c = .scan 0 Selection.start) :
    ∃ sel, scan b s.proc = some sel ∧
      Run (step b) s (replicate (NPROC + 1) (.sched c)) (s.setSched c (sel.proc.elim (.start b) .dispatch)) ∧
      (sel.proc = none ↔ ∀ i, (s.proc i).state ≠ .runnable) ∧
      ∀ i, sel.proc = some i → (s.proc i).state = .runnable ∧ ∀ j, (s.proc j).state = .runnable →
        (s.proc i).rank b < (s.proc j).rank b ∨ (s.proc i).rank b = (s.proc j).rank b ∧ i ≤ j := by
  obtain ⟨sel, hscan, h⟩ := scan_chosen hb s.proc
  refine ⟨sel, hscan, ?_, ?_, fun i hi => scan_least hb hscan hi⟩
  · have hrun := sched_scanFrom hb hc (Nat.zero_le _) hpc (by rwa [drop_zero])
    rw [replicate_succ']
    refine hrun.snoc ?_
    simp only [step, State.setSched, hc, schedStep, update_self, Nat.lt_irrefl, ↓reduceIte, ↓reduceDIte]
    cases sel.proc <;> simp
  · rw [h.none_iff]
    exact forall_congr' fun i => forall_prop_of_true (mem_finRange i)

/-- CPU 0 finds the first process. -/
theorem scheduler_selects_boot : ∃ sel, scan .PBS (boot .PBS 1).proc = some sel ∧ sel.proc ≠ none ∧
    Run (step .PBS) (boot .PBS 1) (replicate (NPROC + 1) (.sched 0))
      ((boot .PBS 1).setSched 0 (sel.proc.elim (.start .PBS) .dispatch)) := by
  obtain ⟨sel, hscan, hrun, hnone, -⟩ := scheduler_selects (s := boot .PBS 1) (c := 0) (b := .PBS) (by decide) rfl rfl
  exact ⟨sel, hscan, fun h => hnone.mp h initproc rfl, hrun⟩

end Machine

end Xv6
