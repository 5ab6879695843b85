import Xv6.Proc.Change
import Xv6.Proc.Waitx

/-!
# What `procdump` prints

`procdump` computes the waiting time of a process from `stime`, where `waitx`
uses `ctime`. `procdump_wait_iff` says when the two agree.
-/

namespace Xv6

/-- `states`, with what `procdump` prints where it has no entry. -/
def stateName : ProcState → String
  | .unused => "unused  "
  | .used => "???"
  | .sleeping => "sleep"
  | .runnable => "runble"
  | .running => "run "
  | .zombie => "zombie  "

/-- A line of `procdump`. The priority is the queue in MLFQ and the dynamic
priority in PBS, and only MLFQ prints `qticks`. -/
structure PsLine where
  pid : Word
  prio : Option Word
  state : String
  rtime : Word
  waittime : Word
  ntime : Word
  qticks : List Word
  deriving DecidableEq

def procdumpHeader : Build → List String
  | .MLFQ => ["PID", "Prio", "State", "rtime", "wtime", "nrun", "q0", "q1", "q2", "q3", "q4"]
  | .PBS => ["PID", "Prio", "State", "rtime", "wtime", "nrun"]
  | .RR | .FCFS => ["PID", "State", "rtime", "wtime", "nrun"]

/-- `waittime` of `procdump`, the same in its three variants. -/
def Proc.waittime (ticks : Word) (p : Proc) : Word :=
  if p.etime = -1 then ticks - p.stime - p.rtime else p.etime - p.stime - p.rtime

def procdumpLine (b : Build) (ticks : Word) (p : Proc) : PsLine where
  pid := p.pid
  prio :=
    match b with
    | .MLFQ => some p.queue
    | .PBS => some p.dynPriority
    | .RR | .FCFS => none
  state := stateName p.state
  rtime := p.rtime
  waittime := p.waittime ticks
  ntime := p.ntime
  qticks := if b = .MLFQ then (List.finRange NPQ).map p.qticks else []

/-- `procdump`. -/
def procdump (b : Build) (ticks : Word) (proc : Slot → Proc) : List String × List PsLine :=
  (procdumpHeader b, ((List.finRange NPROC).filter fun i => (proc i).state ≠ .unused).map fun i =>
    procdumpLine b ticks (proc i))

/-- How long a process has waited, or had waited when it exited. -/
def Proc.waited (ticks : Word) (p : Proc) : Word :=
  (if p.state = .zombie then p.etime else ticks) - p.ctime - p.rtime

variable {proc : Slot → Proc} {i p : Slot}

theorem mem_procdump {b : Build} {ticks : Word} (hu : (proc i).state ≠ .unused) :
    procdumpLine b ticks (proc i) ∈ (procdump b ticks proc).2 :=
  List.mem_map.mpr ⟨i, List.mem_filter.mpr ⟨List.mem_finRange i, decide_eq_true hu⟩, rfl⟩

theorem FirstExited.unique {j : Slot} (hi : FirstExited proc p i) (hj : FirstExited proc p j) :
    i = j := by
  by_contra hne
  rcases lt_or_gt_of_ne hne with hlt | hlt
  · exact hj.2 i hlt hi.1
  · exact hi.2 j hlt hj.1

/-- A `waitx` that reaps a child reports its waiting time. -/
theorem waitx_wtime {u : UserMem} {addr : Nat} {rtime wtime : Word} {w : Waited}
    (h : waitx u proc p addr rtime wtime = some w) (hret : w.ret ≠ -1) (hi : FirstExited proc p i) :
    w.wtime = (proc i).etime - (proc i).ctime - (proc i).rtime := by
  simp only [waitx] at h
  split at h
  · rename_i hk j hs
    obtain rfl := hi.unique (firstExited_of_scan hs)
    split at h <;> cases h <;> rfl
  · split at h <;> cases h
    exact absurd rfl hret

namespace Machine

open Framework

variable {n : Nat} {b : Build} {s s' : State n} {a : Act n} {ev : Option Event} {i : Slot}

/-- `etime` is -1 until the process exits. -/
def Unexited (p : Proc) : Prop := p.state ≠ .unused → p.state ≠ .zombie → p.etime = -1

theorem unexited_step (hi : Unexited (s.proc i)) (he : Exclusive s) (hs : Step b s a ev s') : Unexited (s'.proc i) := by
  -- a process that was alive or in creation keeps its `etime`
  have keep : (s.proc i).state ≠ .unused → (s.proc i).state ≠ .zombie → (s'.proc i).etime = (s.proc i).etime →
      Unexited (s'.proc i) := fun hu hz hetime _ _ => hetime.trans (hi hu hz)
  have was : ∀ {st : ProcState}, (s.proc i).state = st → st ≠ .unused → st ≠ .zombie →
      (s'.proc i).etime = (s.proc i).etime → Unexited (s'.proc i) := fun hst hu hz =>
    keep (by rwa [hst]) (by rwa [hst])
  cases change_step he hs i with
  | same h =>
    intro hu hz
    rw [h.state] at hu hz
    rw [h.etime, hi hu hz]
  | age _ _ hages h => exact was hages.1 nofun nofun (by rw [h]; rfl)
  | dispatch _ _ _ hst h | adopt _ hst h => exact was hst nofun nofun (by rw [h]; rfl)
  | demote _ _ _ _ hon _ h | sleep _ _ hon h => exact was (he.running hon.cproc) nofun nofun (by rw [h]; rfl)
  | yield _ _ hc _ h => exact was (he.running hc) nofun nofun (by rw [h])
  | wake hst h | kill hst h | ready hst h => exact was hst nofun nofun (by rw [h])
  | create _ _ h =>
    intro _ _
    rw [h]
    rfl
  | createFail _ h => exact fun hu => absurd (by rcases h with h | h <;> rw [h] <;> rfl) hu
  | exit _ _ _ h => exact fun _ hz => absurd (by rw [h]; rfl) hz
  | reap _ h => exact fun hu => absurd (by rw [h]; rfl) hu
  | reset _ h =>
    rw [h]
    exact hi

theorem unexited_run {as : List (Act n)} (h : Run (step b) (boot b n) as s) (i : Slot) : Unexited (s.proc i) := by
  induction h with
  | nil =>
    by_cases hi : i = initproc
    · subst hi
      exact fun _ _ => rfl
    · exact fun hu => absurd (by simp only [boot, Function.update_of_ne hi]) hu
  | snoc hr hs ih => exact unexited_step ih (exclusive_run hr) (step_cases hs)

/-- With the right end of the life so far, `procdump` prints the waiting time
exactly if `stime` is the tick the process was created at. -/
theorem waittime_eq_iff (h : Unexited (s.proc i)) (hu : (s.proc i).state ≠ .unused)
    (hz : (s.proc i).state = .zombie → (s.proc i).etime ≠ -1) :
    (s.proc i).waittime s.ticks = (s.proc i).waited s.ticks ↔ (s.proc i).stime = (s.proc i).ctime := by
  have sub : ∀ e : Word, e - (s.proc i).stime - (s.proc i).rtime = e - (s.proc i).ctime - (s.proc i).rtime ↔
      (s.proc i).stime = (s.proc i).ctime := fun e => by
    constructor <;> intro h <;> bv_omega
  rw [Proc.waittime, Proc.waited]
  by_cases hst : (s.proc i).state = .zombie
  · rw [if_neg (hz hst), if_pos hst, sub]
  · rw [if_pos (h hu hst), if_neg hst, sub]

/-- In every reachable state `procdump` prints a line for every slot in use.
The waiting time in it is right, and is what `waitx` reports for a child it
reaps, exactly if `stime` is the tick the process was created at; a process
that exits when `ticks` is -1 counts as one that has not exited. -/
theorem procdump_wait_iff {as : List (Act n)} (h : Run (step b) (boot b n) as s) (hu : (s.proc i).state ≠ .unused)
    (hz : (s.proc i).state = .zombie → (s.proc i).etime ≠ -1) :
    procdumpLine b s.ticks (s.proc i) ∈ (procdump b s.ticks s.proc).2 ∧
    ((procdumpLine b s.ticks (s.proc i)).waittime = (s.proc i).waited s.ticks ↔ (s.proc i).stime = (s.proc i).ctime) ∧
    ∀ u p addr rtime wtime w, waitx u s.proc p addr rtime wtime = some w → w.ret ≠ -1 → FirstExited s.proc p i →
      ((procdumpLine b s.ticks (s.proc i)).waittime = w.wtime ↔ (s.proc i).stime = (s.proc i).ctime) := by
  have hiff := waittime_eq_iff (unexited_run h i) hu hz
  refine ⟨mem_procdump hu, hiff, fun u p addr rtime wtime w hw hret hfirst => ?_⟩
  rw [waitx_wtime hw hret hfirst, ← hiff, Proc.waited, if_pos hfirst.1.2]
  rfl

theorem procdump_wait_iff_chargedChild : ∃ s : State 2, Run (step .RR) (boot .RR 2) (chargedChild []) s ∧
    (s.proc 1).state = .zombie ∧ (s.proc 1).etime = 1 ∧ (s.proc 1).stime = (s.proc 1).ctime ∧
    procdumpLine .RR s.ticks (s.proc 1) ∈ (procdump .RR s.ticks s.proc).2 ∧
    ((procdumpLine .RR s.ticks (s.proc 1)).waittime = (s.proc 1).waited s.ticks ↔ (s.proc 1).stime = (s.proc 1).ctime) ∧
    ∀ u p addr rtime wtime w, waitx u s.proc p addr rtime wtime = some w → w.ret ≠ -1 → FirstExited s.proc p 1 →
      ((procdumpLine .RR s.ticks (s.proc 1)).waittime = w.wtime ↔ (s.proc 1).stime = (s.proc 1).ctime) := by
  obtain ⟨s, hr, hst, he, hc⟩ := exists_run (step .RR) (boot .RR 2) (chargedChild [])
    (Q := fun s => (s.proc 1).state = .zombie ∧ (s.proc 1).etime = 1 ∧ (s.proc 1).stime = (s.proc 1).ctime)
    (by decide +kernel)
  exact ⟨s, hr, hst, he, hc, procdump_wait_iff hr (by rw [hst]; nofun) fun _ => by rw [he]; decide⟩

/-- A child is created after the first tick, and exits before the next. -/
def childAtOne : List (Act 2) :=
  [.sched 0, .tick, .run 0 .fork] ++ List.replicate 4 (.run 0 (.next true true)) ++
    [.sched 1, .sched 1, .run 1 (.exit 0)] ++ List.replicate 132 (.run 1 (.next true true))

/-- It has not waited, and `waitx` says so, but `procdump` prints that it has
waited for one tick. -/
theorem procdump_counts_from_boot : ∃ s : State 2, Run (step .RR) (boot .RR 2) childAtOne s ∧
    (s.proc 1).state = .zombie ∧ (s.proc 1).waited s.ticks = 0 ∧
    procdumpLine .RR s.ticks (s.proc 1) ∈ (procdump .RR s.ticks s.proc).2 ∧
    (procdumpLine .RR s.ticks (s.proc 1)).waittime = 1 ∧
    ∀ u rtime wtime, ∃ w, waitx u s.proc 0 0 rtime wtime = some w ∧ w.ret = 2 ∧ w.wtime = 0 := by
  obtain ⟨s, hr, hst, hwaited, hwait, hpid, hscan⟩ := exists_run (step .RR) (boot .RR 2) childAtOne
    (Q := fun s => (s.proc 1).state = .zombie ∧ (s.proc 1).waited s.ticks = 0 ∧
      (s.proc 1).waittime s.ticks = 1 ∧ (s.proc 1).pid = 2 ∧
      scanChildren s.proc 0 (List.finRange NPROC) false = (true, some 1))
    (by decide +kernel)
  refine ⟨s, hr, hst, hwaited, mem_procdump (by rw [hst]; nofun), hwait, fun u rtime wtime => ?_⟩
  rw [Proc.waited, if_pos hst] at hwaited
  simp only [waitx, hscan]
  exact ⟨_, rfl, hpid, hwaited⟩

end Machine

end Xv6
