import Xv6.Proc.Family

/-!
# Every exit is reaped once, with its status

The history of a run is what its steps report. While fewer than `2 ^ 31 - 1`
process numbers have been taken, no two processes have the same number, and
no number is taken again; so each is reaped at most once, by the process that
is its parent at that moment, after it called `exit`, and with the status of
that call (`reaped_once`). The invariant `Numbered` relates the history to
the table: a number in the history is smaller than `nextpid`, a process that
is in `exit` or a zombie has its call in the history, and any other has not.
-/

namespace Xv6.Machine

open Framework Function List State Event

variable {n addr : Nat} {b : Build} {s s' : State n} {a : Act n} {ev : Option Event} {H : List Event} {i caller : Slot}
  {p : Proc} {pc : Pc}

namespace Event

/-- A process number is taken. -/
def isAlloc : Event → Bool
  | .alloc .. => true
  | _ => false

/-- The process that calls `exit`. -/
def exited : Event → Option Word
  | .exit pid _ => some pid
  | _ => none

/-- The process that is reaped. -/
def reaped : Event → Option Word
  | .reap _ _ pid _ _ => some pid
  | _ => none

end Event

/-- What the steps of a run from boot report. -/
def history (b : Build) (n : Nat) (as : List (Act n)) : List Event := labels (step b) event (boot b n) as

/-- How many process numbers have been taken since boot. -/
def allocs (H : List Event) : Nat := H.countP Event.isAlloc

/-- The status a thread in `exit` was called with. -/
def Pc.status : Pc → Option Word
  | .exit status => some status
  | .reparent status _ _ => some status
  | .exitWakeup status _ => some status
  | .exitZombie status => some status
  | _ => none

/-- Every process reaped has called `exit` before, and the status stored for it
is the status of that call. -/
def ReapedAfterExit (H : List Event) : Prop :=
  ∀ H1 caller child pid addr stored H2, H = H1 ++ .reap caller child pid addr stored :: H2 →
    ∃ status, .exit pid status ∈ H1 ∧ stored = if addr ≠ 0 then some status else none

structure Numbered (H : List Event) (s : State n) : Prop where
  next : s.nextpid.toNat = allocs H + 2
  lt {i : Slot} : (s.proc i).state ≠ .unused → (s.proc i).pid.toNat < s.nextpid.toNat
  inj {i j : Slot} : (s.proc i).state ≠ .unused → (s.proc j).state ≠ .unused → (s.proc i).pid = (s.proc j).pid → i = j
  exitedLt {pid : Word} : pid ∈ H.filterMap exited → pid.toNat < s.nextpid.toNat
  reapedLt {pid : Word} : pid ∈ H.filterMap reaped → pid.toNat < s.nextpid.toNat
  notReaped {i : Slot} : (s.proc i).state ≠ .unused → (s.proc i).pid ∉ H.filterMap reaped
  exiting {i : Slot} {status : Word} : (s.pc i).status = some status → .exit (s.proc i).pid status ∈ H
  zombie {i : Slot} : (s.proc i).state = .zombie → .exit (s.proc i).pid (s.proc i).xstate ∈ H
  notExited {i : Slot} : (s.proc i).state ≠ .unused → (s.proc i).state ≠ .zombie → (s.pc i).status = none →
    (s.proc i).pid ∉ H.filterMap exited
  reapedNodup : (H.filterMap reaped).Nodup
  exitedNodup : (H.filterMap exited).Nodup
  order : ReapedAfterExit H

/-- A change of a process that keeps its number, its exit status, and whether
it is in use and a zombie. -/
structure SameId (p p' : Proc) : Prop where
  pid : p'.pid = p.pid
  xstate : p'.xstate = p.xstate
  unused : p'.state = .unused ↔ p.state = .unused
  zombie : p'.state = .zombie ↔ p.state = .zombie

namespace SameId

variable {p p' : Proc}

theorem refl (p : Proc) : SameId p p := ⟨rfl, rfl, Iff.rfl, Iff.rfl⟩

theorem update {proc : Slot → Proc} (h : SameId (proc i) p) (j : Slot) :
    SameId (proc j) (update proc i p j) := by
  rw [update_apply]
  split
  · rename_i e
    subst e
    exact h
  · exact refl _

theorem of_state (hs : p'.state = p.state) (hp : p'.pid = p.pid) (hx : p'.xstate = p.xstate) : SameId p p' :=
  ⟨hp, hx, by rw [hs], by rw [hs]⟩

theorem of_alive (h : Alive p) (h' : Alive p') (hp : p'.pid = p.pid) (hx : p'.xstate = p.xstate) :
    SameId p p' := by
  refine ⟨hp, hx, ?_, ?_⟩ <;> constructor <;> intro e <;> simp_all [Alive]

theorem of_roused (h : Roused p p') (hp : p'.pid = p.pid) (hx : p'.xstate = p.xstate) : SameId p p' := by
  rcases h with hs | ⟨hs, hs'⟩
  · exact of_state hs hp hx
  · exact of_alive (.inl hs) (.inr (.inl hs')) hp hx

end SameId

/-! ## Histories that grow -/

theorem allocs_le_append (H : List Event) (l : List Event) : allocs H ≤ allocs (H ++ l) := by
  simp [allocs]

theorem nodup_snoc {l : List Word} {x : Word} (h : l.Nodup) (hx : x ∉ l) : (l ++ [x]).Nodup := by
  rw [nodup_append]
  refine ⟨h, by simp, fun y hy z hz => ?_⟩
  rw [mem_singleton] at hz
  subst hz
  exact fun e => hx (e ▸ hy)

theorem ReapedAfterExit.append (h : ReapedAfterExit H) (ev : Event)
    (hev : ∀ {caller child pid addr stored}, ev = .reap caller child pid addr stored →
      ∃ status, .exit pid status ∈ H ∧ stored = if addr ≠ 0 then some status else none) :
    ReapedAfterExit (H ++ [ev]) := by
  intro H1 caller child pid addr stored H2 he
  rcases eq_nil_or_concat H2 with rfl | ⟨H2', x, rfl⟩
  · obtain ⟨rfl, hx⟩ := append_inj' he rfl
    exact hev (cons.inj hx).1
  · rw [concat_eq_append, ← cons_append, ← append_assoc] at he
    exact h H1 _ _ _ _ _ H2' (append_inj' he rfl).1

/-! ## What the steps preserve -/

namespace Numbered

/-- A step that reports nothing about process numbers, and keeps them. -/
theorem same (hi : Numbered H s) (hev : ∀ e ∈ ev, e.isAlloc = false ∧ e.exited = none ∧ e.reaped = none)
    (hproc : ∀ j, SameId (s.proc j) (s'.proc j)) (hst : ∀ j, (s'.pc j).status = (s.pc j).status)
    (hn : s'.nextpid = s.nextpid) : Numbered (H ++ ev.toList) s' := by
  have halloc : allocs (H ++ ev.toList) = allocs H := by
    cases ev with
    | none => simp
    | some e => simp [allocs, (hev e rfl).1]
  have hexited : (H ++ ev.toList).filterMap exited = H.filterMap exited := by
    cases ev with
    | none => simp
    | some e => simp [(hev e rfl).2.1]
  have hreaped : (H ++ ev.toList).filterMap reaped = H.filterMap reaped := by
    cases ev with
    | none => simp
    | some e => simp [(hev e rfl).2.2]
  have hunused : ∀ {j}, (s'.proc j).state ≠ .unused → (s.proc j).state ≠ .unused := fun {j} h e =>
    h ((hproc j).unused.mpr e)
  refine ⟨by rw [hn, halloc, hi.next], fun h => ?_, fun h h' e => ?_, fun h => ?_, fun h => ?_, fun h => ?_,
    fun {j _} h => ?_, fun {j} h => ?_, fun {j} h h' hs => ?_, by rw [hreaped]; exact hi.reapedNodup,
    by rw [hexited]; exact hi.exitedNodup, ?_⟩
  · rw [hn, (hproc _).pid]; exact hi.lt (hunused h)
  · rw [(hproc _).pid, (hproc _).pid] at e; exact hi.inj (hunused h) (hunused h') e
  · rw [hexited] at h; rw [hn]; exact hi.exitedLt h
  · rw [hreaped] at h; rw [hn]; exact hi.reapedLt h
  · rw [hreaped, (hproc _).pid]; exact hi.notReaped (hunused h)
  · rw [hst] at h; rw [(hproc j).pid]; exact mem_append_left _ (hi.exiting h)
  · rw [(hproc j).pid, (hproc j).xstate]
    exact mem_append_left _ (hi.zombie ((hproc j).zombie.mp h))
  · rw [hexited, (hproc j).pid]
    exact hi.notExited (hunused h) (fun e => h' ((hproc j).zombie.mpr e)) (hst j ▸ hs)
  · cases ev with
    | none => simpa using hi.order
    | some e => exact hi.order.append e fun he => by have := (hev e rfl).2.2; simp [he, reaped] at this

variable {status : Word} {np : Slot}

/-- A process calls `exit`. -/
theorem exit (hi : Numbered H s) (hu : (s.proc i).state ≠ .unused)
    (hz : (s.proc i).state ≠ .zombie) (hs : (s.pc i).status = none) (hproc : s'.proc = s.proc)
    (hpc : s'.pc = update s.pc i (.exit status)) (hn : s'.nextpid = s.nextpid) :
    Numbered (H ++ [.exit (s.proc i).pid status]) s' := by
  have hnot := hi.notExited hu hz hs
  refine ⟨by simp [hn, hi.next, allocs, isAlloc], ?_, ?_, ?_, ?_, ?_, ?_, ?_, ?_, ?_, ?_,
    hi.order.append _ (fun h => nomatch h)⟩
  · intro j h; rw [hproc] at h ⊢; rw [hn]; exact hi.lt h
  · intro j k h h' e; rw [hproc] at h h' e; exact hi.inj h h' e
  · intro pid h
    simp only [filterMap_append, mem_append, filterMap_cons, exited, filterMap_nil, mem_singleton] at h
    rw [hn]
    rcases h with h | rfl
    · exact hi.exitedLt h
    · exact hi.lt hu
  · intro pid h
    rw [hn]
    exact hi.reapedLt (by simpa [reaped] using h)
  · intro j h
    rw [hproc] at h ⊢
    simpa [reaped] using hi.notReaped h
  · intro j st h
    rw [hproc]
    by_cases hj : j = i
    · subst hj
      rw [hpc, update_self] at h
      cases h
      simp
    · rw [hpc, update_of_ne hj] at h
      exact mem_append_left _ (hi.exiting h)
  · intro j h
    rw [hproc] at h ⊢
    exact mem_append_left _ (hi.zombie h)
  · intro j h h' hs'
    rw [hproc] at h h' ⊢
    by_cases hj : j = i
    · subst hj
      rw [hpc, update_self] at hs'
      cases hs'
    · rw [hpc, update_of_ne hj] at hs'
      have hne : (s.proc j).pid ≠ (s.proc i).pid := fun e => hj (hi.inj h hu e)
      have := hi.notExited h h' hs'
      simp only [filterMap_append, mem_append, filterMap_cons, exited, filterMap_nil, mem_singleton, not_or]
      exact ⟨this, hne⟩
  · rw [filterMap_append]
    exact (append_nil _).symm ▸ hi.reapedNodup
  · rw [filterMap_append]
    exact nodup_snoc hi.exitedNodup hnot

/-- `allocproc` takes a number. The slot is given to the new process, or is
freed again. -/
theorem alloc (hi : Numbered H s) (hb : allocs H + 3 < 2 ^ 32) {ok : Bool}
    (hp : p.state = .unused ∨ p.state = .used ∧ p.pid = s.nextpid) (hproc : s'.proc = update s.proc np p)
    (hst : ∀ j, (s'.pc j).status = (s.pc j).status) (hnp : (s.pc np).status = none) (hn : s'.nextpid = s.nextpid + 1) :
    Numbered (H ++ [.alloc np s.nextpid ok]) s' := by
  have hnext : s'.nextpid.toNat = s.nextpid.toNat + 1 := by
    have := hi.next
    have h1 : (1 : Word).toNat = 1 := rfl
    rw [hn, BitVec.toNat_add, h1]
    exact Nat.mod_eq_of_lt (by omega)
  obtain ⟨hself, hne⟩ := of_update hproc
  have hexited : (H ++ [Event.alloc np s.nextpid ok]).filterMap Event.exited = H.filterMap Event.exited := by
    simp [exited]
  have hreaped : (H ++ [Event.alloc np s.nextpid ok]).filterMap Event.reaped = H.filterMap Event.reaped := by
    simp [reaped]
  -- the number is new: all others are smaller
  have hfresh : p.state ≠ .unused → p.pid = s.nextpid := fun h => (hp.resolve_left h).2
  have hold : ∀ {j}, j ≠ np → (s'.proc j).state ≠ .unused → (s'.proc j).pid.toNat < s.nextpid.toNat :=
    fun hj h => by rw [hne hj] at h ⊢; exact hi.lt h
  refine ⟨?_, ?_, ?_, ?_, ?_, ?_, ?_, ?_, ?_, by rw [hreaped]; exact hi.reapedNodup,
    by rw [hexited]; exact hi.exitedNodup, hi.order.append _ (fun h => nomatch h)⟩
  · rw [hnext, hi.next]; simp [allocs, isAlloc]
  · intro j h
    rw [hnext]
    by_cases hj : j = np
    · subst hj
      rw [hself] at h ⊢
      rw [hfresh h]
      omega
    · have := hold hj h
      omega
  · intro j k h h' e
    by_cases hj : j = np <;> by_cases hk : k = np
    · rw [hj, hk]
    · have := hold hk h'
      subst hj
      rw [hself] at h e
      rw [← e, hfresh h] at this
      omega
    · have := hold hj h
      subst hk
      rw [hself] at h' e
      rw [e, hfresh h'] at this
      omega
    · rw [hne hj] at h e
      rw [hne hk] at h' e
      exact hi.inj h h' e
  · intro pid h; rw [hexited] at h; have := hi.exitedLt h; omega
  · intro pid h; rw [hreaped] at h; have := hi.reapedLt h; omega
  · intro j h
    rw [hreaped]
    by_cases hj : j = np
    · subst hj
      rw [hself] at h ⊢
      rw [hfresh h]
      exact fun hm => absurd (hi.reapedLt hm) (by omega)
    · rw [hne hj] at h ⊢; exact hi.notReaped h
  · intro j st h
    rw [hst] at h
    have hj : j ≠ np := fun e => by rw [e, hnp] at h; cases h
    rw [hne hj]
    exact mem_append_left _ (hi.exiting h)
  · intro j h
    have hj : j ≠ np := fun e => by subst e; rw [hself] at h; rcases hp with hp | ⟨hp, -⟩ <;> simp [hp] at h
    rw [hne hj] at h ⊢
    exact mem_append_left _ (hi.zombie h)
  · intro j h h' hs
    rw [hexited]
    by_cases hj : j = np
    · subst hj
      rw [hself] at h ⊢
      rw [hfresh h]
      exact fun hm => absurd (hi.exitedLt hm) (by omega)
    · rw [hst] at hs
      rw [hne hj] at h h' ⊢
      exact hi.notExited h h' hs

/-- A process in `exit` becomes a zombie, with its status. -/
theorem becomesZombie (hi : Numbered H s) (hu : (s.proc i).state ≠ .unused) (hpci : (s.pc i).status = some status)
    (hproc : s'.proc = update s.proc i p) (hpc : s'.pc = update s.pc i .dead) (hn : s'.nextpid = s.nextpid)
    (hp : p.state = .zombie) (hpid : p.pid = (s.proc i).pid) (hx : p.xstate = status) : Numbered H s' := by
  obtain ⟨hself, hne⟩ := of_update hproc
  have hpid' : ∀ j, (s'.proc j).pid = (s.proc j).pid := fun j => by
    by_cases hj : j = i
    · subst hj; rw [hself, hpid]
    · rw [hne hj]
  have hunused : ∀ {j}, (s'.proc j).state ≠ .unused → (s.proc j).state ≠ .unused := fun {j} h => by
    by_cases hj : j = i
    · subst hj; exact hu
    · rwa [hne hj] at h
  have hstatus : ∀ {j}, j ≠ i → (s'.pc j).status = (s.pc j).status := fun h => by
    rw [hpc, update_of_ne h]
  refine ⟨by rw [hn, hi.next], fun h => by rw [hn, hpid']; exact hi.lt (hunused h),
    fun h h' e => hi.inj (hunused h) (hunused h') (by rwa [hpid', hpid'] at e), fun h => hn ▸ hi.exitedLt h,
    fun h => hn ▸ hi.reapedLt h, fun h => by rw [hpid']; exact hi.notReaped (hunused h), fun {j _} h => ?_,
    fun {j} h => ?_, fun {j} h h' hs => ?_, hi.reapedNodup, hi.exitedNodup, hi.order⟩
  · have hj : j ≠ i := fun e => by rw [e, hpc, update_self] at h; cases h
    rw [hpid']
    exact hi.exiting (hstatus hj ▸ h)
  · by_cases hj : j = i
    · subst hj; rw [hself, hpid, hx]; exact hi.exiting hpci
    · rw [hne hj] at h ⊢; exact hi.zombie h
  · have hj : j ≠ i := fun e => by rw [e, hself, hp] at h'; exact h' rfl
    rw [hpid']
    rw [hne hj] at h'
    exact hi.notExited (hunused h) h' (hstatus hj ▸ hs)

/-- A zombie is reaped. -/
theorem reap (hi : Numbered H s) (hz : (s.proc np).state = .zombie) (hnp : (s.pc np).status = none)
    (hproc : s'.proc = update s.proc np p) (hst : ∀ j, (s'.pc j).status = (s.pc j).status) (hn : s'.nextpid = s.nextpid)
    (hp : p.state = .unused) :
    Numbered (H ++ [.reap caller np (s.proc np).pid addr
      (if addr ≠ 0 then some (s.proc np).xstate else none)]) s' := by
  have hu : (s.proc np).state ≠ .unused := by simp [hz]
  have hne : ∀ {j}, (s'.proc j).state ≠ .unused → j ≠ np := fun h e => by
    rw [e, hproc, update_self] at h
    exact h hp
  have hsame : ∀ {j}, j ≠ np → s'.proc j = s.proc j := fun h => by rw [hproc, update_of_ne h]
  refine ⟨by simp [hn, hi.next, allocs, isAlloc], ?_, ?_, ?_, ?_, ?_, ?_, ?_, ?_, ?_, ?_, ?_⟩
  · intro j h
    have hj := hne h
    rw [hsame hj] at h ⊢
    rw [hn]
    exact hi.lt h
  · intro j k h h' e
    have hj := hne h
    have hk := hne h'
    rw [hsame hj] at h e
    rw [hsame hk] at h' e
    exact hi.inj h h' e
  · intro pid h; rw [hn]; exact hi.exitedLt (by simpa [exited] using h)
  · intro pid h
    simp only [filterMap_append, mem_append, filterMap_cons, reaped, filterMap_nil, mem_singleton] at h
    rw [hn]
    rcases h with h | rfl
    · exact hi.reapedLt h
    · exact hi.lt hu
  · intro j h
    have hj := hne h
    rw [hsame hj] at h ⊢
    simp only [filterMap_append, mem_append, filterMap_cons, reaped, filterMap_nil, mem_singleton, not_or]
    exact ⟨hi.notReaped h, fun e => hj (hi.inj h hu e)⟩
  · intro j st h
    rw [hst] at h
    have hj : j ≠ np := fun e => by rw [e, hnp] at h; cases h
    rw [hsame hj]
    exact mem_append_left _ (hi.exiting h)
  · intro j h
    have hj := hne (j := j) (by simp [h])
    rw [hsame hj] at h ⊢
    exact mem_append_left _ (hi.zombie h)
  · intro j h h' hs
    have hj := hne h
    rw [hst] at hs
    rw [hsame hj] at h h' ⊢
    simpa [exited] using hi.notExited h h' hs
  · rw [filterMap_append]
    exact nodup_snoc hi.reapedNodup (hi.notReaped hu)
  · rw [filterMap_append]
    exact (append_nil _).symm ▸ hi.exitedNodup
  · refine hi.order.append _ fun h => ?_
    cases h
    exact ⟨_, hi.zombie hz, rfl⟩

end Numbered

/-! ## The system -/

theorem status_goto {pc' : Pc} (h : Goto s i pc pc') : pc'.status = pc.status := by
  cases h <;> rfl

theorem status_setPc (h : pc.status = (s.pc i).status) (j : Slot) :
    ((s.setPc i pc).pc j).status = (s.pc j).status := by
  simp only [setPc, update_apply]
  split
  · rename_i e
    rw [e, h]
  · rfl

theorem Quiet.sameId {p' : Proc} (h : Quiet p p') : SameId p p' := by
  cases h <;> exact .of_state rfl rfl rfl

/-- A slot whose process is not alive has no thread in `exit`. -/
theorem Family.status_none (hf : Family s) (h : ¬ Alive (s.proc i)) : (s.pc i).status = none := by
  rcases hf.thread i with h' | h' | h'
  · rw [h']; rfl
  · rw [h']; rfl
  · exact absurd h' h

theorem numbered_boot : Numbered [] (boot b n) := by
  have hpid : ∀ j : Slot, ((boot b n).proc j).state ≠ .unused → j = initproc ∧ ((boot b n).proc j).pid = 1 := by
    intro j h
    by_cases hj : j = initproc
    · subst hj; exact ⟨rfl, by simp [boot, userinit, Proc.allocproc, Proc.take]⟩
    · exact absurd (by simp [boot, hj]) h
  have hpc : ∀ j : Slot, ((boot b n).pc j).status = none := fun j => by
    simp only [boot, update_apply]
    split <;> rfl
  refine ⟨rfl, fun {j} h => ?_, fun {j k} h h' _ => (hpid j h).1.trans (hpid k h').1.symm, by simp,
    (by simp), fun _ => (by simp), fun {j _} h => ?_, fun {j} h => ?_, fun _ _ _ => (by simp),
    .nil, .nil, fun H1 _ _ _ _ _ _ h => ?_⟩
  · rw [(hpid j h).2]; exact (by decide : (1 : Word).toNat < (2 : Word).toNat)
  · rw [hpc] at h; cases h
  · have hj := (hpid j (by simp [h])).1
    subst hj
    simp [boot, userinit] at h
  · cases H1 <;> cases h

theorem numbered_step (hi : Numbered H s) (he : Exclusive s) (hf : Family s)
    (hb : allocs (H ++ ev.toList) + 1 < 2 ^ 31 - 1) (h : Step b s a ev s') : Numbered (H ++ ev.toList) s' := by
  have silent : ∀ e ∈ (none : Option Event), e.isAlloc = false ∧ e.exited = none ∧ e.reaped = none :=
    fun _ h => nomatch h
  cases h with
  | scan | timer | tick | updateTimeDone | wakeupTicksDone =>
    exact hi.same silent (fun _ => .refl _) (fun _ => rfl) rfl
  | age => exact hi.same silent (SameId.update (.of_state rfl rfl rfl)) (fun _ => rfl) rfl
  | wakeupTicks | wakeup =>
    exact hi.same silent (SameId.update (.of_roused (roused_wakeup ..) rfl rfl)) (fun _ => rfl) rfl
  | updateTime =>
    refine hi.same (fun e h => ?_) (SameId.update (.of_state rfl rfl rfl)) (fun _ => rfl) rfl
    split at h <;> cases h
    exact ⟨rfl, rfl, rfl⟩
  | dispatch _ hr =>
    exact hi.same silent (SameId.update (.of_alive (.inr (.inl hr)) (.inr (.inr rfl)) rfl rfl)) (fun _ => rfl) rfl
  | preempt _ _ hp =>
    refine hi.same silent (SameId.update ?_) (fun _ => rfl) rfl
    rcases hp with ⟨-, rfl⟩ | ⟨-, -, rfl⟩ <;> exact .of_state rfl rfl rfl
  | yield hc =>
    exact hi.same silent (SameId.update (.of_alive (he.alive hc) (.inr (.inl rfl)) rfl rfl)) (fun _ => rfl) rfl
  | call hon hpc hent =>
    cases hent with
    | exit status _ =>
      have hr := he.running hon.cproc
      exact hi.exit (by simp [hr]) (by simp [hr]) (by rw [hpc]; rfl) rfl rfl rfl
    | _ => exact hi.same silent (fun _ => .refl _) (status_setPc (by rw [hpc]; rfl)) rfl
  | goto _ hg => exact hi.same silent (fun _ => .refl _) (status_setPc (status_goto hg)) rfl
  | priv _ _ hq => exact hi.same silent (SameId.update hq.sameId) (fun _ => rfl) rfl
  | sleep hon hpc =>
    exact hi.same silent (SameId.update (.of_alive (he.alive hon.cproc) (.inl rfl) rfl rfl))
      (status_setPc (by rw [setProc, hpc])) rfl
  | @forkFail _ _ np _ _ _ _ hpc hu hp =>
    have hnp : (s.pc np).status = none := hf.status_none (by simp [Alive, hu])
    refine hi.alloc ?_ (.inl ?_) rfl (status_setPc (by rw [setProc, hpc]; rfl)) hnp rfl
    · simp only [Option.toList, allocs, countP_append] at hb ⊢; omega
    · rcases hp with rfl | rfl <;> rfl
  | @forkTake _ _ np _ _ _ hpc hu =>
    have hnp : (s.pc np).status = none := hf.status_none (by simp [Alive, hu])
    refine hi.alloc ?_ (.inr ⟨rfl, rfl⟩) rfl (fun j => ?_) hnp rfl
    · simp only [Option.toList, allocs, countP_append] at hb ⊢; omega
    · simp only [setPc, setProc, update_apply]
      split
      · rename_i e
        rw [e, hpc]; rfl
      · split
        · rename_i e
          rw [e, hnp]; rfl
        · rfl
  | forkParent _ hpc | exitLock _ hpc | reparentChild _ hpc =>
    exact hi.same silent (SameId.update (.of_state rfl rfl rfl)) (status_setPc (by rw [setProc, hpc]; rfl)) rfl
  | forkReady _ hpc =>
    have hu := he.forkReady_used hpc
    refine hi.same silent (SameId.update ⟨rfl, rfl, ?_, ?_⟩) (status_setPc (by rw [setProc, hpc]; rfl)) rfl <;>
      simp [hu]
  | reparentWakeup _ hpc | exitWakeup _ hpc =>
    refine hi.same silent (SameId.update ?_) (status_setPc (by rw [wakeupBy, setProc, hpc]; rfl)) rfl
    split
    · exact .of_roused (roused_wakeup ..) rfl rfl
    · exact .refl _
  | zombie hon hpc =>
    have hr := he.running hon.cproc
    rw [Option.toList, append_nil]
    exact hi.becomesZombie (by simp [hr]) (by rw [hpc]; rfl) rfl rfl rfl rfl rfl rfl
  | waitLock _ hpc => exact hi.same silent (fun _ => .refl _) (status_setPc (by rw [hpc]; rfl)) rfl
  | waitFail _ hpc =>
    refine hi.same (fun e h => ?_) (fun _ => .refl _) (status_setPc (by rw [hpc]; rfl)) rfl
    cases h
    exact ⟨rfl, rfl, rfl⟩
  | waitReap _ hpc _ hz =>
    exact hi.reap hz (hf.status_none (by simp [Alive, hz])) rfl (status_setPc (by rw [hpc]; rfl)) rfl rfl
  | waitSleep hon hpc =>
    exact hi.same silent (SameId.update (.of_alive (he.alive hon.cproc) (.inl rfl) rfl rfl))
      (status_setPc (by rw [setProc, hpc]; rfl)) rfl
  | kill _ hpc =>
    exact hi.same silent (SameId.update (.of_roused (roused_kill _) rfl rfl))
      (status_setPc (by rw [setProc, hpc]; rfl)) rfl
  | setpriority _ hpc =>
    refine hi.same (fun e h => ?_) (SameId.update (.of_state rfl rfl rfl))
      (status_setPc (by rw [setProc, hpc]; rfl)) rfl
    cases h
    exact ⟨rfl, rfl, rfl⟩

theorem numbered_run {as : List (Act n)} (h : Run (step b) (boot b n) as s)
    (hb : allocs (history b n as) + 1 < 2 ^ 31 - 1) : Numbered (history b n as) s := by
  refine h.labels_invariant (I := fun H s => allocs H + 1 < 2 ^ 31 - 1 → Numbered H s) (fun _ => numbered_boot)
    (fun {as s a s'} hr hi hs hb => ?_) hb
  have hle := allocs_le_append (history b n as) (event s a).toList
  exact numbered_step (hi (Nat.lt_of_le_of_lt (Nat.add_le_add_right hle 1) hb)) (exclusive_run hr) (family_run hr) hb
    (step_cases hs)

/-- A `wait` that returns a child reaps a zombie whose parent is the caller. -/
theorem reap_parent (h : Step b s a ev s') {child : Slot} {pid : Word} {stored : Option Word}
    (hev : ev = some (.reap caller child pid addr stored)) :
    (s.proc child).parent = some caller ∧ (s.proc child).state = .zombie ∧ (s.proc child).pid = pid := by
  cases h with
  | waitReap _ _ hp hz => cases hev; exact ⟨hp, hz, rfl⟩
  | updateTime => split at hev <;> cases hev
  | call _ _ hent => cases hent <;> cases hev
  | _ => cases hev

/-- A `wait` that fails changes no process. -/
theorem waitFail_proc (h : Step b s a ev s') (hev : ev = some (.waitFail caller)) :
    s'.proc = s.proc := by
  cases h with
  | waitFail => rfl
  | updateTime => split at hev <;> cases hev
  | call _ _ hent => cases hent <;> cases hev
  | _ => cases hev

/-- In every run in which fewer than `2 ^ 31 - 1` process numbers are taken,
that of the first process included: the processes in use have different
numbers; each process exits at most once, and is reaped at most once, after
it called `exit` and with the status of that call; the process that reaps it
is its parent at that moment; and a `wait` that returns -1 reaps nobody. -/
theorem reaped_once {as : List (Act n)} (h : Run (step b) (boot b n) as s)
    (hb : allocs (history b n as) + 1 < 2 ^ 31 - 1) :
    (∀ i j, (s.proc i).state ≠ .unused → (s.proc j).state ≠ .unused → (s.proc i).pid = (s.proc j).pid → i = j) ∧
      ((history b n as).filterMap exited).Nodup ∧ ((history b n as).filterMap reaped).Nodup ∧
      ReapedAfterExit (history b n as) ∧
      (∀ a s' caller child pid addr stored, step b s a = some s' →
        event s a = some (.reap caller child pid addr stored) →
        (s.proc child).parent = some caller ∧ (s.proc child).state = .zombie ∧ (s.proc child).pid = pid) ∧
      ∀ a s' caller, step b s a = some s' → event s a = some (.waitFail caller) → s'.proc = s.proc := by
  have hi := numbered_run h hb
  exact ⟨fun i j => hi.inj, hi.exitedNodup, hi.reapedNodup, hi.order,
    fun a s' _ _ _ _ _ hs hev => reap_parent (step_cases hs) hev,
    fun a s' _ hs hev => waitFail_proc (step_cases hs) hev⟩

/-- The first process has a child that exits with status 7, and waits for it. -/
def childExits : List (Act 2) :=
  [.sched 0, .run 0 .fork] ++ replicate 4 (.run 0 (.next true true)) ++
    [.sched 1, .sched 1, .run 1 (.exit 7)] ++ replicate 132 (.run 1 (.next true true)) ++
    [.run 0 (.wait false 4096)] ++ replicate 3 (.run 0 (.next true true))

theorem reaped_once_childExits : ∃ s : State 2, Run (step .RR) (boot .RR 2) childExits s ∧
    history .RR 2 childExits = [.alloc 1 2 true, .exit 2 7, .reap 0 1 2 4096 (some 7)] ∧
    ((history .RR 2 childExits).filterMap reaped).Nodup := by
  have hh : history .RR 2 childExits = [.alloc 1 2 true, .exit 2 7, .reap 0 1 2 4096 (some 7)] := by
    decide +kernel
  obtain ⟨s, hr, -⟩ := exists_run (step .RR) (boot .RR 2) childExits (Q := fun _ => True) (by decide +kernel)
  exact ⟨s, hr, hh, (reaped_once hr (by rw [hh]; decide)).2.2.1⟩

end Xv6.Machine
