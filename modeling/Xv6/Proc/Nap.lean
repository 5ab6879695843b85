import Xv6.Proc.Change

/-!
# The sleep that `stime` measures

`stime` is the tick at which a process fell asleep, and then the length of
that sleep. `Nap` is what a run tells of the last sleep of a process, and
`stime_run` says what `stime` is: it also depends on whether `kill` ended the
sleep, on calls of `setpriority` during it, and on the process that had the slot
before. `stime_iff` says when it is the length of the last sleep.
-/

namespace Xv6.Machine

open Framework

variable {n t' t : Nat} {b : Build} {s s' : State n} {a : Act n} {as : List (Act n)} {ev : Option Event} {i : Slot}
  {p : Proc}

/-- What happens to a process that matters for `stime`, and when. -/
inductive NapEvent
  /-- `allocproc` takes the slot, in which it finds `stime`. -/
  | create (stime : Word)
  | sleep (ticks : Word)
  | wakeup (ticks : Word)
  | kill (ticks : Word)
  | setpriority
  deriving DecidableEq

/-- What a step means for the process in slot `i`. -/
def napEvent (b : Build) (i : Slot) (s : State n) (a : Act n) : Option NapEvent :=
  if event s a = some (.reset i) then some .setpriority
  else
    match step b s a with
    | none => none
    | some s' =>
      if (s.proc i).state = .unused ∧ (s'.proc i).state ≠ .unused then some (.create (s.proc i).stime)
      else if (s.proc i).state ≠ .sleeping ∧ (s'.proc i).state = .sleeping then some (.sleep s.ticks)
      else if (s.proc i).state = .sleeping ∧ (s'.proc i).state ≠ .sleeping then
        some (if kills s a then .kill s.ticks else .wakeup s.ticks)
      else none

/-- The last sleep of a process. -/
inductive Nap
  /-- It has not slept since its creation, with `stime` in its slot then. -/
  | fresh (stime : Word)
  /-- It has not slept since the last `setpriority` on it. -/
  | reset
  /-- It sleeps, since `start`; `touched` tells of a `setpriority` on it since. -/
  | asleep (start : Word) (touched : Bool)
  /-- It slept, from `start` to `stop`; `killed` tells whether `kill` ended the sleep. -/
  | ended (start stop : Word) (touched killed : Bool)
  deriving DecidableEq

namespace Nap

def next : Nap → NapEvent → Nap
  | _, .create stime => .fresh stime
  | _, .sleep ticks => .asleep ticks false
  | .asleep start touched, .wakeup ticks => .ended start ticks touched false
  | .asleep start touched, .kill ticks => .ended start ticks touched true
  | .asleep start _, .setpriority => .asleep start true
  | .fresh _, .setpriority | .reset, .setpriority | .ended _ _ _ _, .setpriority => .reset
  | nap, .wakeup _ | nap, .kill _ => nap

/-- The number of ticks between the start and the end of the sleep. -/
def length : Nap → Nat
  | .fresh _ | .reset | .asleep _ _ => 0
  | .ended start stop _ _ => stop.toNat - start.toNat

/-- What the kernel makes of it in `stime`. -/
def stime : Nap → Word
  | .fresh stime => stime
  | .reset => 0
  | .asleep start touched => if touched then 0 else start
  | .ended start stop touched killed =>
    if killed then (if touched then 0 else start) else if touched then stop else stop - start

/-- The kernel gets the length right. -/
def Exact : Nap → Prop
  | .fresh stime => stime = 0
  | .reset | .asleep _ _ => True
  | .ended _ _ false false => True
  -- `setpriority` has overwritten the start of the sleep
  | .ended start _ true false => start = 0
  -- `kill` leaves the start of the sleep in `stime`
  | .ended start stop false true => stop.toNat = 2 * start.toNat
  | .ended start stop true true => stop = start

/-- The sleep is in the past. -/
def Past (t : Nat) : Nap → Prop
  | .fresh _ | .reset => True
  | .asleep start _ => start.toNat ≤ t
  | .ended start stop _ _ => start.toNat ≤ stop.toNat ∧ stop.toNat ≤ t

def isAsleep : Nap → Bool
  | .asleep _ _ => true
  | _ => false

variable {nap : Nap}

theorem Past.mono (h : nap.Past t) (hle : t ≤ t') : nap.Past t' := by
  cases nap with
  | fresh | reset => trivial
  | asleep => exact Nat.le_trans h hle
  | ended => exact ⟨h.1, Nat.le_trans h.2 hle⟩

/-- `stime` is the length exactly if the kernel gets it right. -/
theorem stime_eq_length_iff (h : nap.Past t) (hn : nap.isAsleep = false) :
    nap.stime.toNat = nap.length ↔ nap.Exact := by
  cases nap with
  | fresh x => exact ⟨fun h => BitVec.eq_of_toNat_eq h, fun h => by rw [show x = 0 from h]; rfl⟩
  | reset => simp [stime, length, Exact]
  | asleep => cases hn
  | ended start stop touched killed =>
    obtain ⟨hle, -⟩ := h
    cases killed <;> cases touched <;>
      simp only [stime, length, Exact, Bool.false_eq_true, if_true, if_false, iff_true]
    · bv_omega
    · constructor <;> intro h <;> bv_omega
    · omega
    · constructor <;> intro h <;> bv_omega

end Nap

/-! ## What `stime` is -/

/-- The process `p` after `t` ticks, if `nap` was its last sleep. -/
structure NapOk (t : Nat) (nap : Nap) (p : Proc) : Prop where
  asleep : nap.isAsleep = decide (p.state = .sleeping)
  stime : p.stime = nap.stime
  past : nap.Past t

theorem reset_step (hs : Step b s a (some (.reset i)) s') :
    ∃ priority, s'.proc i = (s.proc i).setpriority priority := by
  generalize he : some (Event.reset i) = ev at hs
  cases hs with
  | @setpriority _ _ _ _ priority =>
    cases he
    exact ⟨priority, Function.update_self ..⟩
  | updateTime => split at he <;> cases he
  | call _ _ hentry => cases hentry <;> cases he
  | _ => cases he

theorem NapOk.setpriority (h : NapOk t nap p) (priority : Word) :
    NapOk t (nap.next .setpriority) (p.setpriority priority) := by
  have hasleep := h.asleep
  have hpast := h.past
  cases nap with
  | asleep => exact ⟨hasleep, rfl, hpast⟩
  | fresh | reset | ended => exact ⟨hasleep, rfl, trivial⟩

/-- The sleep of a process that is asleep. -/
theorem NapOk.exists_start (h : NapOk t nap p) (hst : p.state = .sleeping) :
    ∃ start touched, nap = .asleep start touched := by
  have hasleep := h.asleep
  rw [hst] at hasleep
  cases nap with
  | asleep start touched => exact ⟨start, touched, rfl⟩
  | fresh | reset | ended => cases hasleep

theorem napOk_step (h : (s.proc i).state ≠ .unused → NapOk t nap (s.proc i)) (he : Exclusive s)
    (hs : step b s a = some s') (ht : s.ticks.toNat = t) (hle : t ≤ t') (hu : (s'.proc i).state ≠ .unused) :
    NapOk t' ((napEvent b i s a).toList.foldl Nap.next nap) (s'.proc i) := by
  by_cases hreset : event s a = some (.reset i)
  · obtain ⟨priority, hp⟩ := reset_step (hreset ▸ step_cases hs)
    rw [hp] at hu ⊢
    obtain ⟨hasleep, hstime, hpast⟩ := (h hu).setpriority priority
    simp only [napEvent, if_pos hreset, Option.toList_some, List.foldl_cons, List.foldl_nil]
    exact ⟨hasleep, hstime, hpast.mono hle⟩
  -- a process that neither falls asleep nor wakes up
  have keep : (s.proc i).state ≠ .unused → ((s.proc i).state = .sleeping ↔ (s'.proc i).state = .sleeping) →
      (s'.proc i).stime = (s.proc i).stime → NapOk t' ((napEvent b i s a).toList.foldl Nap.next nap) (s'.proc i) := by
    intro hu0 hiff hstime
    have hev : napEvent b i s a = none := by
      simp [napEvent, if_neg hreset, hs, hu0, hiff]
    obtain ⟨hasleep, hst, hpast⟩ := h hu0
    rw [hev]
    exact ⟨by rw [Option.toList_none, List.foldl_nil, hasleep, decide_eq_decide, hiff], hstime.trans hst,
      hpast.mono hle⟩
  have awake : ∀ st, (s.proc i).state = st → st ≠ .unused → st ≠ .sleeping → (s'.proc i).state ≠ .sleeping →
      (s'.proc i).stime = (s.proc i).stime → NapOk t' ((napEvent b i s a).toList.foldl Nap.next nap) (s'.proc i) :=
    fun st hst hu0 hn hn' => keep (by rwa [hst]) (by rw [hst]; exact iff_of_false hn hn')
  cases change_step he (step_cases hs) i with
  | same h => exact keep (h.state ▸ hu) (by rw [h.state]) h.stime
  | age _ _ hages h => exact keep (by rw [hages.1]; nofun) (by rw [h]; rfl) (by rw [h]; rfl)
  | dispatch _ _ _ hst h => exact awake _ hst nofun nofun (by rw [h]; nofun) (by rw [h]; rfl)
  | demote _ _ _ _ hon _ h =>
    exact keep (by rw [he.running hon.cproc]; nofun) (by rw [h]; rfl) (by rw [h]; rfl)
  | yield _ _ hc _ h => exact awake _ (he.running hc) nofun nofun (by rw [h]; nofun) (by rw [h])
  | exit _ _ hon h => exact awake _ (he.running hon.cproc) nofun nofun (by rw [h]; nofun) (by rw [h]; rfl)
  | adopt _ hst h => exact keep (by rw [hst]; nofun) (by rw [h]; rfl) (by rw [h]; rfl)
  | ready hst h => exact awake _ hst nofun nofun (by rw [h]; nofun) (by rw [h])
  | createFail _ h => exact absurd (by rcases h with h | h <;> rw [h] <;> rfl) hu
  | reap _ h => exact absurd (by rw [h]; rfl) hu
  | reset _ _ hev => exact absurd hev hreset
  | create _ hst h' =>
    have hev : napEvent b i s a = some (.create (s.proc i).stime) := by
      simp [napEvent, if_neg hreset, hs, hst, hu]
    rw [hev, h']
    exact ⟨rfl, rfl, trivial⟩
  | sleep _ _ hon h' =>
    have hst := he.running hon.cproc
    have hst' : (s'.proc i).state = .sleeping := by rw [h']; rfl
    have hev : napEvent b i s a = some (.sleep s.ticks) := by
      simp [napEvent, if_neg hreset, hs, hst, hst']
    rw [hev, h']
    exact ⟨rfl, rfl, by rw [← ht] at hle; exact hle⟩
  | wake hst h' hk =>
    have hev : napEvent b i s a = some (.wakeup s.ticks) := by
      simp [napEvent, if_neg hreset, hs, hst, h', hk]
    have hok := h (by rw [hst]; nofun)
    obtain ⟨start, touched, rfl⟩ := hok.exists_start hst
    rw [hev, h', hok.stime]
    refine ⟨rfl, ?_, ht.symm ▸ hok.past, ht ▸ hle⟩
    cases touched <;> simp [Nap.next, Nap.stime]
  | kill hst h' hk =>
    have hev : napEvent b i s a = some (.kill s.ticks) := by
      simp [napEvent, if_neg hreset, hs, hst, h', hk]
    have hok := h (by rw [hst]; nofun)
    obtain ⟨start, touched, rfl⟩ := hok.exists_start hst
    rw [hev, h']
    exact ⟨rfl, hok.stime, ht.symm ▸ hok.past, ht ▸ hle⟩

/-- The last sleep of the process in slot `i`, in a run. -/
def lastNap (b : Build) (n : Nat) (i : Slot) (as : List (Act n)) : Nap :=
  (labels (step b) (napEvent b i) (boot b n) as).foldl Nap.next (.fresh 0)

theorem stime_run (h : Run (step b) (boot b n) as s) (ht : ticksIn as < 2 ^ 32) (hu : (s.proc i).state ≠ .unused) :
    NapOk (ticksIn as) (lastNap b n i as) (s.proc i) := by
  induction h with
  | nil =>
    by_cases hi : i = initproc
    · subst hi
      exact ⟨rfl, rfl, trivial⟩
    · exact absurd (by simp only [boot, Function.update_of_ne hi]) hu
  | @snoc as a s s' hr hs ih =>
    have hle : ticksIn as ≤ ticksIn (as ++ [a]) := by
      rw [ticksIn_snoc]
      exact Nat.le_add_right ..
    rw [lastNap, hr.labels_snoc, List.foldl_append]
    exact napOk_step (ih (by omega)) (exclusive_run hr) hs (ticks_toNat hr (by omega)) hle hu

/-- `stime` of a process that is `RUNNABLE` or `RUNNING` is the number of ticks of
its last sleep, or 0 if it has not slept since its creation or the last
`setpriority` on it, exactly if the kernel gets it right for a sleep such as its
last. -/
theorem stime_iff (h : Run (step b) (boot b n) as s) (ht : ticksIn as < 2 ^ 32)
    (hst : (s.proc i).state = .runnable ∨ (s.proc i).state = .running) :
    (s.proc i).stime.toNat = (lastNap b n i as).length ↔ (lastNap b n i as).Exact := by
  have hok := stime_run h ht (i := i) (by rcases hst with hst | hst <;> rw [hst] <;> nofun)
  have hn : (lastNap b n i as).isAsleep = false := by
    rw [hok.asleep]
    rcases hst with hst | hst <;> rw [hst] <;> rfl
  rw [hok.stime, Nap.stime_eq_length_iff hok.past hn]

/-- CPU 0 switches to the first process, and that creates another, which CPU 1
switches to; a tick passes, and the first process falls asleep. -/
def firstSleeps : List (Act 2) :=
  List.replicate 66 (.sched 0) ++ .run 0 .fork :: List.replicate 4 (.run 0 (.next true true)) ++
    List.replicate 66 (.sched 1) ++ .tick :: .run 0 (.sleep (.other 0)) :: List.replicate 130 .clock

theorem stime_iff_wokenUp : ∃ s : State 2,
    Run (step .PBS) (boot .PBS 2) (firstSleeps ++ [.tick, .wakeup initproc (.other 0)]) s ∧
    (s.proc initproc).state = .runnable ∧
    lastNap .PBS 2 initproc (firstSleeps ++ [.tick, .wakeup initproc (.other 0)]) = .ended 1 2 false false ∧
    ((s.proc initproc).stime.toNat =
        (lastNap .PBS 2 initproc (firstSleeps ++ [.tick, .wakeup initproc (.other 0)])).length ↔
      (lastNap .PBS 2 initproc (firstSleeps ++ [.tick, .wakeup initproc (.other 0)])).Exact) := by
  obtain ⟨s, hr, hst⟩ := exists_run (step .PBS) (boot .PBS 2)
    (firstSleeps ++ [.tick, .wakeup initproc (.other 0)])
    (Q := fun s => (s.proc initproc).state = .runnable) (by decide +kernel)
  exact ⟨s, hr, hst, by decide +kernel, stime_iff hr (by decide +kernel) (.inl hst)⟩

/-- In the tick in which the first process fell asleep, the other one kills it. -/
def killedSleeper : List (Act 2) := firstSleeps ++ [.run 1 (.kill 1), .run 1 (.next true true)]

/-- Or it calls `setpriority` on it, and the process is woken up. -/
def touchedSleeper : List (Act 2) :=
  firstSleeps ++ [.run 1 (.setpriority 60 1), .run 1 (.next true true), .wakeup initproc (.other 0)]

/-- Either way the process has slept for no tick, but `stime` is one. -/
theorem stime_wrong :
    (∃ s : State 2, Run (step .PBS) (boot .PBS 2) killedSleeper s ∧ (s.proc initproc).state = .runnable ∧
      lastNap .PBS 2 initproc killedSleeper = .ended 1 1 false true ∧ (s.proc initproc).stime = 1) ∧
    ∃ s : State 2, Run (step .PBS) (boot .PBS 2) touchedSleeper s ∧ (s.proc initproc).state = .runnable ∧
      lastNap .PBS 2 initproc touchedSleeper = .ended 1 1 true false ∧ (s.proc initproc).stime = 1 := by
  constructor
  · obtain ⟨s, hr, hst, hstime⟩ := exists_run (step .PBS) (boot .PBS 2) killedSleeper
      (Q := fun s => (s.proc initproc).state = .runnable ∧ (s.proc initproc).stime = 1) (by decide +kernel)
    exact ⟨s, hr, hst, by decide +kernel, hstime⟩
  · obtain ⟨s, hr, hst, hstime⟩ := exists_run (step .PBS) (boot .PBS 2) touchedSleeper
      (Q := fun s => (s.proc initproc).state = .runnable ∧ (s.proc initproc).stime = 1) (by decide +kernel)
    exact ⟨s, hr, hst, by decide +kernel, hstime⟩

end Xv6.Machine
