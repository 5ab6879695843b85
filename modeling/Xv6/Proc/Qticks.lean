import Xv6.Proc.Mlfq

/-!
# What `qticks` counts

The scheduler adds a whole time slice to `qticks[q]` when it switches to a
process of queue `q`, however long the process then runs. `qticks_iff` compares
this with the ticks that `update_time` charges.
-/

namespace Xv6.Machine

open Framework

variable {n : Nat} {s s' : State n} {a : Act n} {as : List (Act n)} {ev : Option Event} {i : Slot}

/-- What happens to a process that `qticks` is about. -/
inductive SliceEvent
  | create
  /-- A scheduler switches to it, in queue `q`. -/
  | dispatch (q : Nat)
  /-- `update_time` finds it running, in queue `q`. -/
  | charge (q : Nat)
  deriving DecidableEq

/-- What a step means for the process in slot `i`. -/
def sliceEvent (i : Slot) (s : State n) (a : Act n) : Option SliceEvent :=
  if event s a = some (.charge i) then some (.charge (s.proc i).queue.toNat)
  else
    match step .MLFQ s a with
    | none => none
    | some s' =>
      if (s.proc i).state = .unused ∧ (s'.proc i).state ≠ .unused then some .create
      else if (s.proc i).state = .runnable ∧ (s'.proc i).state = .running then
        some (.dispatch (s.proc i).queue.toNat)
      else none

/-- The events of slot `i` in a run. -/
def slices (n : Nat) (i : Slot) (as : List (Act n)) : List SliceEvent :=
  labels (step .MLFQ) (sliceEvent i) (boot .MLFQ n) as

/-- How many events of a kind there were since the creation of the process. -/
def sinceCreation (kind : SliceEvent → Bool) (H : List SliceEvent) : Nat :=
  H.foldl (fun k e => if e = .create then 0 else if kind e then k + 1 else k) 0

/-- The switches to the process in queue `q`. -/
def dispatches (q : Nat) : List SliceEvent → Nat := sinceCreation (· = .dispatch q)

/-- The ticks at which the process was running in queue `q`. -/
def ticksInQueue (q : Nat) : List SliceEvent → Nat := sinceCreation (· = .charge q)

/-- The ticks at which the process was running. -/
def runningTicks : List SliceEvent → Nat := sinceCreation fun e => e matches .charge _

@[simp] theorem sinceCreation_nil (kind : SliceEvent → Bool) : sinceCreation kind [] = 0 := rfl

@[simp] theorem sinceCreation_snoc (kind : SliceEvent → Bool) (H : List SliceEvent) (e : SliceEvent) :
    sinceCreation kind (H ++ [e]) =
      if e = .create then 0 else if kind e then sinceCreation kind H + 1 else sinceCreation kind H := by
  simp [sinceCreation]

/-! ## What the scheduler adds -/

theorem charge_step {b : Build} (hs : Step b s a (some (.charge i)) s') :
    (s.proc i).state = .running ∧ ∀ j, SameSched (s.proc j) (s'.proc j) := by
  generalize he : some (Event.charge i) = ev at hs
  cases hs with
  | @updateTime k hk =>
    split at he
    · rename_i hr
      cases he
      refine ⟨hr, fun j => ?_⟩
      by_cases hj : j = ⟨k, hk⟩
      · subst hj
        simp only [State.setProc, Function.update_self]
        exact ⟨rfl, rfl, rfl, rfl, rfl, rfl⟩
      · simp only [State.setProc, Function.update_of_ne hj]
        exact .refl _
    · cases he
  | call _ _ hentry => cases hentry <;> cases he
  | _ => cases he

theorem sliceEvent_none (hs : step .MLFQ s a = some s') (hc : event s a ≠ some (.charge i))
    (hu : (s.proc i).state ≠ .unused) (hr : (s.proc i).state ≠ .runnable ∨ (s'.proc i).state ≠ .running) :
    sliceEvent i s a = none := by
  simp only [sliceEvent, if_neg hc, hs, hu, false_and, if_false]
  rw [if_neg]
  rintro ⟨h1, h2⟩
  exact hr.elim (· h1) (· h2)

/-- `qticks` counts a whole time slice for every switch. -/
def Sliced (H : List SliceEvent) (p : Proc) : Prop :=
  p.state ≠ .unused → ∀ q : Fin NPQ, p.qticks q = BitVec.ofNat 32 (2 ^ q.val * dispatches q H)

variable {H : List SliceEvent}

theorem sliced_step (h : Sliced H (s.proc i)) (he : Exclusive s)
    (hs : step .MLFQ s a = some s') : Sliced (H ++ (sliceEvent i s a).toList) (s'.proc i) := by
  by_cases hc : event s a = some (.charge i)
  · obtain ⟨-, hsame⟩ := charge_step (hc ▸ step_cases hs)
    intro hu q
    have := h ((hsame i).state ▸ hu) q
    simpa [sliceEvent, hc, (hsame i).qticks, dispatches] using this
  -- a process that keeps its counts, and is not switched to
  have keep : (s.proc i).state ≠ .unused → (s'.proc i).qticks = (s.proc i).qticks →
      ((s.proc i).state ≠ .runnable ∨ (s'.proc i).state ≠ .running) →
      Sliced (H ++ (sliceEvent i s a).toList) (s'.proc i) := by
    intro hu hq hr _ q
    rw [hq, sliceEvent_none hs hc hu hr]
    simpa using h hu q
  have stays : (s'.proc i).state = (s.proc i).state → (s'.proc i).qticks = (s.proc i).qticks →
      Sliced (H ++ (sliceEvent i s a).toList) (s'.proc i) := by
    intro hst hq hu
    refine keep (hst ▸ hu) hq ?_ hu
    rw [hst]
    by_cases hr : (s.proc i).state = .runnable
    · exact .inr (by simp [hr])
    · exact .inl hr
  have leaves : ∀ st, (s.proc i).state = st → st ≠ .unused → st ≠ .runnable → (s'.proc i).qticks = (s.proc i).qticks →
      Sliced (H ++ (sliceEvent i s a).toList) (s'.proc i) := fun st hst hu hr hq =>
    keep (by rwa [hst]) hq (.inl (by rwa [hst]))
  cases change_step he (step_cases hs) i with
  | same h => exact stays h.state h.qticks
  | dispatch c ch ha hst h' =>
    intro _ q
    have hev : sliceEvent i s a = some (.dispatch (s.proc i).queue.toNat) := by
      have hst' : (s'.proc i).state = .running := by rw [h']; rfl
      simp [sliceEvent, if_neg hc, hs, hst, hst']
    have hq := h (by simp [hst]) q
    rw [h', hev]
    simp only [Proc.dispatch, Option.toList_some, dispatches, sinceCreation_snoc, reduceCtorEq, if_false, true_and,
      SliceEvent.dispatch.injEq, decide_eq_true_eq, eq_comm (a := (s.proc i).queue.toNat)] at hq ⊢
    split
    · rename_i hqueue
      rw [hq, ← hqueue, Nat.mul_add_one, BitVec.ofNat_add, Nat.shiftLeft_eq, Nat.one_mul, BitVec.natCast_eq_ofNat]
    · exact hq
  | age _ _ _ h | demote _ _ _ _ _ _ h | reset _ h => exact stays (by rw [h]; rfl) (by rw [h]; rfl)
  | yield _ _ hc _ h => exact leaves _ (he.running hc) (by simp) (by simp) (by rw [h])
  | sleep _ _ hon h | exit _ _ hon h => exact leaves _ (he.running hon.cproc) (by simp) (by simp) (by rw [h]; rfl)
  | wake hst h | kill hst h | ready hst h => exact leaves _ hst (by simp) (by simp) (by rw [h])
  | adopt _ hst h => exact leaves _ hst (by simp) (by simp) (by rw [h]; rfl)
  | create _ hst h' =>
    intro hu q
    have hev : sliceEvent i s a = some .create := by
      simp [sliceEvent, if_neg hc, hs, hst, hu]
    rw [h', hev]
    simp [dispatches]
    rfl
  | createFail _ h => exact fun hu => absurd (by rcases h with h | h <;> rw [h] <;> rfl) hu
  | reap _ h => exact fun hu => absurd (by rw [h]; rfl) hu

theorem sliced_run (h : Run (step .MLFQ) (boot .MLFQ n) as s) (i : Slot) : Sliced (slices n i as) (s.proc i) := by
  refine h.labels_invariant (I := fun H s => Sliced H (s.proc i)) ?_ fun hr ih hs => sliced_step ih (exclusive_run hr) hs
  intro _ q
  simp only [boot, Function.update_apply]
  split <;> rfl

/-! ## The ticks that are charged -/

/-- The queues of the events are queues. -/
theorem slices_range (h : Run (step .MLFQ) (boot .MLFQ n) as s) (i : Slot) :
    ∀ q, .charge q ∈ slices n i as → q < NPQ := by
  refine h.labels_invariant (I := fun H _ => ∀ q, SliceEvent.charge q ∈ H → q < NPQ) (by simp) fun hr ih hs q hq => ?_
  rcases List.mem_append.mp hq with hq | hq
  · exact ih q hq
  · simp only [sliceEvent, Option.mem_toList] at hq
    split at hq
    · cases hq
      exact queue_run hr i
    · split at hq
      · cases hq
      · split at hq
        · cases hq
        · split at hq <;> cases hq

theorem sum_ticksInQueue (h : ∀ q, .charge q ∈ H → q < NPQ) :
    ∑ q : Fin NPQ, ticksInQueue q H = runningTicks H := by
  induction H using List.reverseRecOn with
  | nil => rfl
  | append_singleton H e ih =>
    have ih := ih fun q hq => h q (List.mem_append_left _ hq)
    simp only [ticksInQueue, runningTicks, sinceCreation_snoc] at ih ⊢
    cases e with
    | create => simp
    | dispatch q => simpa using ih
    | charge r =>
      have hr : r < NPQ := h r (by simp)
      have hone : ∀ q : Fin NPQ, (if decide (SliceEvent.charge r = .charge q) = true
          then sinceCreation (· = .charge q) H + 1 else sinceCreation (· = .charge q) H) =
          sinceCreation (· = .charge q) H + if ⟨r, hr⟩ = q then 1 else 0 := by
        intro q
        simp only [SliceEvent.charge.injEq, decide_eq_true_eq, Fin.ext_iff]
        split <;> rfl
      simp only [reduceCtorEq, if_false, if_true, hone, Finset.sum_add_distrib, Finset.sum_ite_eq, Finset.mem_univ, ih]

/-- `qticks[q]` is the number of switches to the process in queue `q`, times a
time slice. So it is the number of ticks at which the process was running in
queue `q` exactly if these are as many; if so for all queues, then the sum is
the number of ticks at which it was running. -/
theorem qticks_iff (h : Run (step .MLFQ) (boot .MLFQ n) as s) (hu : (s.proc i).state ≠ .unused) :
    (∀ q : Fin NPQ, (s.proc i).qticks q = BitVec.ofNat 32 (2 ^ q.val * dispatches q (slices n i as)) ∧
      (((s.proc i).qticks q).toNat = ticksInQueue q (slices n i as) ↔
        2 ^ q.val * dispatches q (slices n i as) % 2 ^ 32 = ticksInQueue q (slices n i as))) ∧
    ((∀ q : Fin NPQ, ((s.proc i).qticks q).toNat = ticksInQueue q (slices n i as)) →
      ∑ q : Fin NPQ, ((s.proc i).qticks q).toNat = runningTicks (slices n i as)) := by
  refine ⟨fun q => ?_, fun hall => ?_⟩
  · have hq := sliced_run h i hu q
    exact ⟨hq, by rw [hq, BitVec.toNat_ofNat]⟩
  · simp only [hall]
    exact sum_ticksInQueue (slices_range h i)

/-- The first process is switched to, and a tick is charged to it. -/
def oneCharge : List (Act 1) := schedule ++ [.tick, .clock]

theorem qticks_iff_oneCharge : ∃ s : State 1, Run (step .MLFQ) (boot .MLFQ 1) oneCharge s ∧
    (s.proc initproc).state = .running ∧
    (∀ q : Fin NPQ, (s.proc initproc).qticks q =
        BitVec.ofNat 32 (2 ^ q.val * dispatches q (slices 1 initproc oneCharge)) ∧
      (((s.proc initproc).qticks q).toNat = ticksInQueue q (slices 1 initproc oneCharge) ↔
        2 ^ q.val * dispatches q (slices 1 initproc oneCharge) % 2 ^ 32 =
          ticksInQueue q (slices 1 initproc oneCharge))) ∧
    ((∀ q : Fin NPQ, ((s.proc initproc).qticks q).toNat = ticksInQueue q (slices 1 initproc oneCharge)) →
      ∑ q : Fin NPQ, ((s.proc initproc).qticks q).toNat = runningTicks (slices 1 initproc oneCharge)) := by
  obtain ⟨s, hr, hst⟩ := exists_run (step .MLFQ) (boot .MLFQ 1) oneCharge
    (Q := fun s => (s.proc initproc).state = .running) (by decide +kernel)
  exact ⟨s, hr, hst, qticks_iff hr (by rw [hst]; nofun)⟩

/-- The first process is switched to, and sleeps before the next tick. -/
def earlySleep : List (Act 1) := schedule ++ [.run 0 (.sleep (.other 0))]

/-- `qticks[0]` is one, and so is the sum, but the process has run for no tick. -/
theorem qticks_in_advance : ∃ s : State 1, Run (step .MLFQ) (boot .MLFQ 1) earlySleep s ∧
    (s.proc initproc).state = .sleeping ∧ (s.proc initproc).qticks 0 = 1 ∧
    ∑ q : Fin NPQ, ((s.proc initproc).qticks q).toNat = 1 ∧
    ticksInQueue 0 (slices 1 initproc earlySleep) = 0 ∧ runningTicks (slices 1 initproc earlySleep) = 0 := by
  obtain ⟨s, hr, hst, hq, hsum⟩ := exists_run (step .MLFQ) (boot .MLFQ 1) earlySleep
    (Q := fun s => (s.proc initproc).state = .sleeping ∧ (s.proc initproc).qticks 0 = 1 ∧
      ∑ q : Fin NPQ, ((s.proc initproc).qticks q).toNat = 1) (by decide +kernel)
  exact ⟨s, hr, hst, hq, hsum, by decide +kernel, by decide +kernel⟩

end Xv6.Machine
