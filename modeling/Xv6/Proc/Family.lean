import Xv6.Proc.Dispatch

/-!
# No child is orphaned, and no exit is missed

While `wait_lock` is free, every process but the first has a parent that is
alive, and no process sleeps in `wait` that has a zombie for a child
(`family_ok`). The invariant `Family` follows the holder of the lock through
`exit` and `wait`: the slots `reparent` has passed are not children of the
exiting process any more (`Pc.cleared`), the slots `wakeup` has passed are
not asleep in `wait` (`Pc.woken`), and the slots `wait` has passed are not
zombies (`Pc.scanned`). Only the first process can sleep with a zombie for a
child, between being handed it and being woken up for it.
-/

namespace Xv6.Machine

open Framework Function

variable {n k : Nat} {b : Build} {s s' : State n} {a : Act n} {ev : Option Event} {i np w : Slot} {pc pc' : Pc}
  {p : Proc} {proc : Slot → Proc} {status : Word}

namespace Pc

/-- The thread holds `wait_lock`. -/
def locked : Pc → Bool
  | .reparent .. | .exitWakeup .. | .exitZombie _ | .waitScan .. => true
  | _ => false

/-- The thread is in `exit`. -/
def exiting : Pc → Bool
  | .exit _ | .reparent .. | .exitWakeup .. | .exitZombie _ => true
  | _ => false

/-- How many slots `reparent` has cleared of the children of the thread. -/
def cleared : Pc → Nat
  | .reparent _ i none => i
  | .reparent _ i (some _) => i + 1
  | .exitWakeup .. | .exitZombie _ => NPROC
  | _ => 0

/-- How many slots `wakeup(p->parent)` has passed. -/
def woken : Pc → Nat
  | .exitWakeup _ i => i
  | .exitZombie _ => NPROC
  | _ => 0

/-- How many slots `wait` has passed. -/
def scanned : Pc → Nat
  | .waitScan _ _ i _ => i
  | _ => 0

/-- `reparent` has handed a child to the first process, and has not woken it yet. -/
def handing : Pc → Bool
  | .reparent _ _ (some w) => w ≤ initproc.val
  | _ => false

theorem locked_of_handing (h : pc.handing = true) : pc.locked = true := by
  cases pc <;> first | rfl | cases h

end Pc

/-- Process `i` is asleep in `wait` or `waitx`. -/
def AsleepInWait (i : Slot) (p : Proc) : Prop := p.state = .sleeping ∧ p.chan = some (.proc i)

/-- What the thread of process `i` has established when it is at `pc`. -/
structure ThreadOk (proc : Slot → Proc) (i : Slot) (pc : Pc) : Prop where
  exiting : pc.exiting = true → i ≠ initproc
  forkReady {np : Slot} : pc = .forkReady np → (proc np).parent = some i
  cleared {j : Slot} : j.val < pc.cleared → (proc j).parent ≠ some i
  woken {q : Slot} : q.val < pc.woken → (proc i).parent = some q → ¬ AsleepInWait q (proc q)
  scanned {j : Slot} : j.val < pc.scanned → (proc j).parent = some i → (proc j).state ≠ .zombie

structure Family (s : State n) : Prop where
  lock (i : Slot) : s.waitLock = some i ↔ (s.pc i).locked = true
  /-- Only a process that is alive is in a system call. -/
  thread (i : Slot) : s.pc i = .dead ∨ s.pc i = .user ∨ Alive (s.proc i)
  ok (i : Slot) : ThreadOk s.proc i (s.pc i)
  init : Alive (s.proc initproc)
  parentAlive {j q : Slot} : (s.proc j).parent = some q → Alive (s.proc q)
  hasParent {j : Slot} : j ≠ initproc → Alive (s.proc j) ∨ (s.proc j).state = .zombie → ∃ q, (s.proc j).parent = some q
  missed {i j : Slot} : AsleepInWait i (s.proc i) → (s.proc j).parent = some i →
    (s.proc j).state = .zombie → i = initproc ∧ ∃ e, (s.pc e).handing = true

/-- A change of the process in slot `i` that keeps whether it is alive and,
unless the slot is freed, its parent; and by which it does not become a
zombie, nor fall asleep in `wait`. -/
structure Kept (i : Slot) (p p' : Proc) : Prop where
  alive : Alive p' ↔ Alive p
  zombie : p'.state = .zombie → p.state = .zombie
  parent : p'.parent = p.parent ∨ (p'.parent = none ∧ ¬ Alive p' ∧ p'.state ≠ .zombie ∧ p.state ≠ .used)
  asleep : AsleepInWait i p' → AsleepInWait i p

namespace Kept

variable {i : Slot} {p p' : Proc}

theorem refl (i : Slot) (p : Proc) : Kept i p p := ⟨Iff.rfl, id, .inl rfl, id⟩

/-- A change of one process. -/
theorem update (h : Kept i (proc i) p) (j : Slot) :
    Kept j (proc j) (update proc i p j) := by
  rw [update_apply]
  split
  · rename_i e
    subst e
    exact h
  · exact refl ..

theorem of_state (hs : p'.state = p.state) (hp : p'.parent = p.parent) (hc : p'.chan = p.chan) :
    Kept i p p' :=
  ⟨by simp only [Alive, hs], fun h => hs ▸ h, .inl hp, fun h => ⟨hs ▸ h.1, hc ▸ h.2⟩⟩

/-- A process that moves between the states of one that is alive, and does not
fall asleep in `wait`. -/
theorem of_alive (h : Alive p) (h' : Alive p') (hp : p'.parent = p.parent)
    (ha : AsleepInWait i p' → AsleepInWait i p) : Kept i p p' := by
  refine ⟨⟨fun _ => h, fun _ => h'⟩, fun hz => ?_, .inl hp, ha⟩
  rw [Alive, hz] at h'
  simp at h'

theorem of_roused (hr : Roused p p') (hp : p'.parent = p.parent) (hc : p'.chan = p.chan) : Kept i p p' := by
  rcases hr with hs | ⟨hs, hs'⟩
  · exact of_state hs hp hc
  · exact of_alive (.inl hs) (.inr (.inl hs')) hp fun h => absurd (hs'.symm.trans h.1) (by simp)

/-- A slot that is freed, or is not in use. -/
theorem of_freed (hs : ¬ Alive p) (hu : p.state ≠ .used) (h' : p'.state = .unused) (hp : p'.parent = none) :
    Kept i p p' := by
  have ha : ¬ Alive p' := by simp [Alive, h']
  exact ⟨⟨fun h => absurd h ha, fun h => absurd h hs⟩, fun h => absurd (h'.symm.trans h) (by simp),
    .inr ⟨hp, ha, by simp [h'], hu⟩, fun h => absurd (h'.symm.trans h.1) (by simp)⟩

end Kept

/-! ## Threads that move -/

/-- A point of a thread at which it has nothing to establish. -/
def Pc.plain (pc : Pc) : Prop := pc.locked = false ∧ pc.exiting = false ∧ pc.child = none

theorem ThreadOk.of_plain (h : pc.plain) : ThreadOk proc i pc := by
  constructor <;> cases pc <;>
    simp [Pc.plain, Pc.locked, Pc.exiting, Pc.child, Pc.cleared, Pc.woken, Pc.scanned] at h ⊢

theorem ThreadOk.kept (h : ThreadOk s.proc i pc)
    (hk : ∀ j, Kept j (s.proc j) (proc j)) (he : ∀ {np}, pc = .forkReady np → (s.proc np).state = .used) :
    ThreadOk proc i pc where
  exiting := h.exiting
  forkReady {np} hx := by
    rcases (hk np).parent with hp | ⟨-, -, -, hn⟩
    · rw [hp, h.forkReady hx]
    · exact absurd (he hx) hn
  cleared {j} hx := by
    rcases (hk j).parent with hp | ⟨hp, -⟩ <;> rw [hp]
    · exact h.cleared hx
    · simp
  woken {q} hx hp ha := by
    rcases (hk i).parent with hp' | ⟨hp', -⟩ <;> rw [hp'] at hp
    · exact h.woken hx hp ((hk q).asleep ha)
    · cases hp
  scanned {j} hx hp hz := by
    rcases (hk j).parent with hp' | ⟨hp', -⟩ <;> rw [hp'] at hp
    · exact h.scanned hx hp ((hk j).zombie hz)
    · cases hp

theorem Exclusive.alive (he : Exclusive s) {c : Fin n} (h : s.cproc c = some i) : Alive (s.proc i) :=
  .inr (.inr (he.running h))

theorem Exclusive.forkReady_used (he : Exclusive s) (h : s.pc i = .forkReady np) :
    (s.proc np).state = .used :=
  he.child (i := i) (by rw [h]; rfl)

namespace Family

/-- A step that keeps the processes. -/
theorem kept (hi : Family s) (hk : ∀ j, Kept j (s.proc j) (s'.proc j))
    (hlock : ∀ j, s'.waitLock = some j ↔ (s'.pc j).locked = true)
    (hthread : ∀ j, s'.pc j = .dead ∨ s'.pc j = .user ∨ Alive (s.proc j)) (hok : ∀ j, ThreadOk s'.proc j (s'.pc j))
    (hhand : ∀ e, (s.pc e).handing = true →
      (∃ e, (s'.pc e).handing = true) ∨ ¬ AsleepInWait initproc (s'.proc initproc)) : Family s' where
  lock := hlock
  thread j := (hthread j).imp_right (.imp_right (hk j).alive.mpr)
  ok := hok
  init := (hk _).alive.mpr hi.init
  parentAlive {j q} h := by
    rcases (hk j).parent with hp | ⟨hp, -⟩ <;> rw [hp] at h
    · exact (hk q).alive.mpr (hi.parentAlive h)
    · cases h
  hasParent {j} hj h := by
    rcases (hk j).parent with hp | ⟨-, ha, hz, -⟩
    · rw [hp]
      exact hi.hasParent hj (h.imp (hk j).alive.mp (hk j).zombie)
    · exact absurd h (by simp [ha, hz])
  missed {i j} ha hp hz := by
    rcases (hk j).parent with hp' | ⟨hp', -⟩ <;> rw [hp'] at hp
    · obtain ⟨rfl, e, h⟩ := hi.missed ((hk i).asleep ha) hp ((hk j).zombie hz)
      exact ⟨rfl, (hhand e h).resolve_right fun hn => hn ha⟩
    · cases hp

/-- A step that keeps the processes, and moves no thread. -/
theorem still (hi : Family s) (he : Exclusive s) (hk : ∀ j, Kept j (s.proc j) (s'.proc j))
    (hpc : s'.pc = s.pc) (hl : s'.waitLock = s.waitLock) : Family s' :=
  hi.kept hk (fun j => by rw [hl, hpc]; exact hi.lock j) (fun j => by rw [hpc]; exact hi.thread j)
    (fun j => by rw [hpc]; exact (hi.ok j).kept hk he.forkReady_used) fun e h => .inl ⟨e, by rw [hpc]; exact h⟩

/-- A step that keeps the processes, and moves the thread of one that is alive.
A thread in the middle of handing a child over goes on with it, or has woken
the first process. -/
theorem move (hi : Family s) (he : Exclusive s) (halive : Alive (s.proc i)) (hpc : s'.pc = update s.pc i pc)
    (hk : ∀ j, Kept j (s.proc j) (s'.proc j))
    (hlock : s'.waitLock = if pc.locked then some i else if (s.pc i).locked then none else s.waitLock)
    (hfree : pc.locked = true → (s.pc i).locked = false → s.waitLock = none) (hok : ThreadOk s'.proc i pc)
    (hhand : (s.pc i).handing = true → pc.handing = true ∨ ¬ AsleepInWait initproc (s'.proc initproc)) : Family s' := by
  obtain ⟨hself, hne⟩ := of_update hpc
  refine hi.kept hk (fun j => ?_) (fun j => ?_) (fun j => ?_) fun e h => ?_
  · have hl := hi.lock j
    have hl' := hi.lock i
    by_cases hj : j = i
    · subst hj
      rw [hself, hlock]
      grind
    · rw [hne hj, hlock]
      grind
  · by_cases hj : j = i
    · subst hj; exact .inr (.inr halive)
    · rw [hne hj]; exact hi.thread j
  · by_cases hj : j = i
    · subst hj; rw [hself]; exact hok
    · rw [hne hj]; exact (hi.ok j).kept hk he.forkReady_used
  · by_cases hj : e = i
    · subst hj
      exact (hhand h).imp (fun h => ⟨e, by rw [hself]; exact h⟩) id
    · exact .inl ⟨e, by rw [hne hj]; exact h⟩

/-- A step that keeps the processes, and moves a thread to a point where it has
nothing to establish, without `wait_lock`. -/
theorem movePlain (hi : Family s) (he : Exclusive s) (halive : Alive (s.proc i)) (hpc : s'.pc = update s.pc i pc)
    (hplain : pc.plain) (hhand : (s.pc i).handing = false) (hk : ∀ j, Kept j (s.proc j) (s'.proc j))
    (hlock : s'.waitLock = if (s.pc i).locked then none else s.waitLock) : Family s' :=
  hi.move he halive hpc hk (by rw [hplain.1, hlock]; rfl) (fun h => absurd h (by simp [hplain.1]))
    (.of_plain hplain) fun h => absurd h (by simp [hhand])

/-- While no thread holds `wait_lock`, the threads have nothing to establish
but that a process in `exit` is not the first, and the child of a `fork`. -/
theorem unlocked (hi : Family s) (hl : s.waitLock = none) (j : Slot) : (s.pc j).locked = false := by
  have := hi.lock j
  rw [hl] at this
  simpa using this

/-- Only its holder is in a section under `wait_lock`. -/
theorem holder (hi : Family s) {j : Slot} (h : (s.pc i).locked = true) (hj : j ≠ i) :
    (s.pc j).locked = false := by
  have h1 := (hi.lock i).mpr h
  have h2 := hi.lock j
  rw [h1] at h2
  grind

end Family

/-- A thread without `wait_lock`. -/
theorem ThreadOk.of_unlocked {proc' : Slot → Proc} (h : ThreadOk proc i pc)
    (hl : pc.locked = false) (hp : ∀ {np}, pc = .forkReady np → (proc' np).parent = (proc np).parent) :
    ThreadOk proc' i pc := by
  refine ⟨h.exiting, fun hx => by rw [hp hx, h.forkReady hx], ?_, ?_, ?_⟩ <;>
    cases pc <;> simp [Pc.locked, Pc.cleared, Pc.woken, Pc.scanned] at hl ⊢

namespace Family

/-- `fork` takes a slot for the child. -/
theorem forkTake (hi : Family s) (he : Exclusive s) (halive : Alive (s.proc i)) (hpci : (s.pc i).locked = false)
    (hu : (s.proc np).state = .unused) (hproc : s'.proc = update s.proc np p)
    (hpc : s'.pc = update (update s.pc np .user) i (.forkParent np)) (hl : s'.waitLock = s.waitLock)
    (hp : p.state = .used) (hpp : p.parent = (s.proc np).parent) :
    Family s' := by
  have hnp : ¬ Alive (s.proc np) := by simp [Alive, hu]
  have hk : ∀ j, Kept j (s.proc j) (s'.proc j) := by
    rw [hproc]
    refine Kept.update ⟨?_, fun h => ?_, .inl hpp, fun h => ?_⟩
    · simp [Alive, hu, hp]
    · rw [hp] at h; cases h
    · rw [AsleepInWait, hp] at h; cases h.1
  have hself : s'.pc i = .forkParent np := by rw [hpc, update_self]
  -- the slot had no thread in a call
  have hother : ∀ {j}, j ≠ i → s'.pc j = s.pc j ∨ s'.pc j = .user ∧ (s.pc j = .dead ∨ s.pc j = .user) := by
    intro j hj
    rw [hpc, update_of_ne hj, update_apply]
    split
    · rename_i e
      subst e
      exact .inr ⟨rfl, (hi.thread j).imp_right fun h => h.resolve_right hnp⟩
    · exact .inl rfl
  refine hi.kept hk (fun j => ?_) (fun j => ?_) (fun j => ?_) fun e h => .inl ⟨e, ?_⟩
  · rw [hl, hi.lock j]
    by_cases hj : j = i
    · subst hj; rw [hself, hpci]; simp [Pc.locked]
    · rcases hother hj with h | ⟨h, h' | h'⟩ <;> simp [*, Pc.locked]
  · by_cases hj : j = i
    · subst hj; exact .inr (.inr halive)
    · rcases hother hj with h | ⟨h, -⟩
      · rw [h]; exact hi.thread j
      · exact .inr (.inl h)
  · by_cases hj : j = i
    · subst hj
      rw [hself]
      refine ⟨fun h => ?_, fun h => ?_, fun h => ?_, fun h => ?_, fun h => ?_⟩ <;> cases h
    · rcases hother hj with h | ⟨h, -⟩ <;> rw [h]
      · exact (hi.ok j).kept hk he.forkReady_used
      · exact .of_plain ⟨rfl, rfl, rfl⟩
  · by_cases hj : e = i
    · subst hj
      exact absurd (Pc.locked_of_handing h) (by simp [hpci])
    · rcases hother hj with h' | ⟨-, h' | h'⟩
      · rw [h']; exact h
      · rw [h'] at h; cases h
      · rw [h'] at h; cases h

/-- `fork` becomes the parent of the child. -/
theorem forkParent (hi : Family s) (he : Exclusive s) (halive : Alive (s.proc i)) (hpci : s.pc i = .forkParent np)
    (hfree : s.waitLock = none) (hproc : s'.proc = update s.proc np p) (hpc : s'.pc = update s.pc i (.forkReady np))
    (hl : s'.waitLock = s.waitLock) (hp : p.state = (s.proc np).state) (hpp : p.parent = some i) : Family s' := by
  have hu : (s.proc np).state = .used := he.child (i := i) (by rw [hpci]; rfl)
  have halive' : ∀ j, Alive (s'.proc j) ↔ Alive (s.proc j) := fun j => by
    rw [hproc, update_apply]
    split
    · rename_i e; subst e; simp only [Alive, hp]
    · rfl
  have hne : ∀ {j}, j ≠ np → s'.proc j = s.proc j := fun h => by rw [hproc, update_of_ne h]
  have hself : s'.proc np = p := by rw [hproc, update_self]
  have hpcne : ∀ {j}, j ≠ i → s'.pc j = s.pc j := fun h => by rw [hpc, update_of_ne h]
  have hpcself : s'.pc i = .forkReady np := by rw [hpc, update_self]
  refine ⟨fun j => ?_, fun j => ?_, fun j => ?_, (halive' _).mpr hi.init, fun {j q} h => ?_, fun {j} hj h => ?_,
    fun {k j} ha h hz => ?_⟩
  · rw [hl, hfree]
    by_cases hj : j = i
    · subst hj; simp [hpcself, Pc.locked]
    · simp [hpcne hj, hi.unlocked hfree j]
  · by_cases hj : j = i
    · subst hj; exact .inr (.inr ((halive' j).mpr halive))
    · rw [hpcne hj, halive']; exact hi.thread j
  · by_cases hj : j = i
    · subst hj
      rw [hpcself]
      refine ⟨fun h => ?_, fun h => ?_, fun h => ?_, fun h => ?_, fun h => ?_⟩ <;> cases h
      rw [hself, hpp]
    · -- no other thread is creating the same child
      rw [hpcne hj]
      refine (hi.ok j).of_unlocked (hi.unlocked hfree j) fun {m} hm => ?_
      have : m ≠ np := fun e =>
        hj (he.childInj (i := j) (j := i) (by rw [hm]; rfl) (by rw [hpci, e]; rfl))
      rw [hne this]
  · rw [halive']
    by_cases hj : j = np
    · subst hj; rw [hself, hpp] at h; cases h; exact halive
    · rw [hne hj] at h; exact hi.parentAlive h
  · by_cases hj' : j = np
    · subst hj'; exact ⟨i, by rw [hself, hpp]⟩
    · rw [hne hj'] at h ⊢; exact hi.hasParent hj h
  · by_cases hj : j = np
    · subst hj; rw [hself, hp, hu] at hz; cases hz
    · rw [hne hj] at h hz
      by_cases hk : k = np
      · subst hk; rw [hself, AsleepInWait, hp, hu] at ha; cases ha.1
      · rw [hne hk] at ha
        obtain ⟨-, e, hh⟩ := hi.missed ha h hz
        -- handing a child over takes the lock
        exact absurd (Pc.locked_of_handing hh) (by simp [hi.unlocked hfree e])

/-- `fork` makes the child runnable. -/
theorem forkReady (hi : Family s) (he : Exclusive s) (hpci : s.pc i = .forkReady np)
    (hproc : s'.proc = update s.proc np p) (hpc : s'.pc = update s.pc i .user) (hl : s'.waitLock = s.waitLock)
    (hp : p.state = .runnable) (hpp : p.parent = (s.proc np).parent) : Family s' := by
  have hu : (s.proc np).state = .used := he.child (i := i) (by rw [hpci]; rfl)
  obtain ⟨hself, hne⟩ := of_update hproc
  have halive' : ∀ {j}, Alive (s.proc j) → Alive (s'.proc j) := fun {j} h => by
    by_cases hj : j = np
    · subst hj; rw [hself]; exact .inr (.inl hp)
    · rwa [hne hj]
  have hparent : ∀ j, (s'.proc j).parent = (s.proc j).parent := fun j => by
    by_cases hj : j = np
    · subst hj; rw [hself, hpp]
    · rw [hne hj]
  have hzombie : ∀ {j}, (s'.proc j).state = .zombie → (s.proc j).state = .zombie := fun {j} h => by
    by_cases hj : j = np
    · subst hj; rw [hself, hp] at h; cases h
    · rwa [hne hj] at h
  have hasleep : ∀ {j}, AsleepInWait j (s'.proc j) → AsleepInWait j (s.proc j) := fun {j} h => by
    by_cases hj : j = np
    · subst hj; rw [hself, AsleepInWait, hp] at h; cases h.1
    · rwa [hne hj] at h
  obtain ⟨hpcself, hpcne⟩ := of_update hpc
  refine ⟨fun j => ?_, fun j => ?_, fun j => ?_, halive' hi.init, fun {j q} h => ?_, fun {j} hj h => ?_,
    fun {k j} ha h hz => ?_⟩
  · rw [hl, hi.lock j]
    by_cases hj : j = i
    · subst hj; simp [hpcself, hpci, Pc.locked]
    · rw [hpcne hj]
  · by_cases hj : j = i
    · subst hj; exact .inr (.inl hpcself)
    · rw [hpcne hj]; exact (hi.thread j).imp_right (.imp_right halive')
  · by_cases hj : j = i
    · subst hj; rw [hpcself]; exact .of_plain ⟨rfl, rfl, rfl⟩
    · rw [hpcne hj]
      have hok := hi.ok j
      exact ⟨hok.exiting, fun h => by rw [hparent]; exact hok.forkReady h,
        fun h => by rw [hparent]; exact hok.cleared h,
        fun h h' ha => hok.woken h (hparent j ▸ h') (hasleep ha),
        fun h h' hz => hok.scanned h (hparent _ ▸ h') (hzombie hz)⟩
  · rw [hparent] at h
    exact halive' (hi.parentAlive h)
  · rw [hparent]
    by_cases hj' : j = np
    · subst hj'; exact ⟨i, (hi.ok i).forkReady hpci⟩
    · rw [hne hj'] at h; exact hi.hasParent hj h
  · rw [hparent] at h
    obtain ⟨hk, e, hh⟩ := hi.missed (hasleep ha) h (hzombie hz)
    refine ⟨hk, e, ?_⟩
    have : e ≠ i := fun e' => by rw [e', hpci] at hh; cases hh
    rwa [hpcne this]

/-- `reparent` hands a child to the first process. -/
theorem reparentChild (hi : Family s) {pp : Slot}
    (halive : Alive (s.proc i)) (hpci : s.pc i = .reparent status pp none)
    (hchild : (s.proc pp).parent = some i) (hproc : s'.proc = update s.proc pp p)
    (hpc : s'.pc = update s.pc i (.reparent status pp (some 0)))
    (hl : s'.waitLock = s.waitLock) (hp : p.state = (s.proc pp).state) (hc : p.chan = (s.proc pp).chan)
    (hpp : p.parent = some initproc) : Family s' := by
  obtain ⟨hself, hne⟩ := of_update hproc
  have hstate : ∀ j, (s'.proc j).state = (s.proc j).state := fun j => by
    by_cases hj : j = pp
    · subst hj; rw [hself, hp]
    · rw [hne hj]
  have halive' : ∀ {j}, Alive (s'.proc j) ↔ Alive (s.proc j) := fun {j} => by simp only [Alive, hstate]
  have hasleep : ∀ {j}, AsleepInWait j (s'.proc j) → AsleepInWait j (s.proc j) := fun {j} h => by
    by_cases hj : j = pp
    · subst hj; rw [hself] at h; exact ⟨hp ▸ h.1, hc ▸ h.2⟩
    · rwa [hne hj] at h
  obtain ⟨hpcself, hpcne⟩ := of_update hpc
  have hlocked : (s.pc i).locked = true := by rw [hpci]; rfl
  have hinit : i ≠ initproc := (hi.ok i).exiting (by rw [hpci]; rfl)
  refine ⟨fun j => ?_, fun j => ?_, fun j => ?_, halive'.mpr hi.init, fun {j q} h => ?_, fun {j} hj h => ?_,
    fun {k j} ha h hz => ?_⟩
  · rw [hl, hi.lock j]
    by_cases hj : j = i
    · subst hj; simp [hpcself, hpci, Pc.locked]
    · rw [hpcne hj]
  · by_cases hj : j = i
    · subst hj; exact .inr (.inr (halive'.mpr halive))
    · rw [hpcne hj, halive']; exact hi.thread j
  · by_cases hj : j = i
    · subst hj
      have hok := hi.ok j
      rw [hpcself]
      refine ⟨fun _ => hinit, fun h => ?_, fun {k} h => ?_, fun h => ?_, fun h => ?_⟩
      · cases h
      · by_cases hk : k = pp
        · subst hk; rw [hself, hpp]; exact fun e => hinit (Option.some.inj e).symm
        · rw [hne hk]
          refine hok.cleared ?_
          rw [hpci]
          have : k.val ≠ pp.val := fun e => hk (Fin.ext e)
          simp only [Pc.cleared] at h ⊢
          omega
      · cases h
      · cases h
    · -- the child of a fork has the fork's process for a parent
      rw [hpcne hj]
      refine (hi.ok j).of_unlocked (hi.holder hlocked hj) fun {m} hm => ?_
      have : m ≠ pp := fun e => hj (Option.some.inj (((hi.ok j).forkReady hm).symm.trans (e ▸ hchild)))
      rw [hne this]
  · rw [halive']
    by_cases hj : j = pp
    · subst hj; rw [hself, hpp] at h; cases h; exact hi.init
    · rw [hne hj] at h; exact hi.parentAlive h
  · by_cases hj' : j = pp
    · subst hj'; exact ⟨initproc, by rw [hself, hpp]⟩
    · rw [hne hj'] at h ⊢; exact hi.hasParent hj h
  · have hhand : ∃ e, (s'.pc e).handing = true := ⟨i, by rw [hpcself]; rfl⟩
    by_cases hj : j = pp
    · subst hj; rw [hself, hpp] at h; cases h; exact ⟨rfl, hhand⟩
    · rw [hne hj] at h hz
      exact ⟨(hi.missed (hasleep ha) h hz).1, hhand⟩

/-- A process that has given its children away, and woken its parent, becomes
a zombie. -/
theorem zombie (hi : Family s) (halive : Alive (s.proc i)) (hpci : s.pc i = .exitZombie status)
    (hproc : s'.proc = update s.proc i p) (hpc : s'.pc = update s.pc i .dead) (hl : s'.waitLock = none)
    (hp : p.state = .zombie) (hpp : p.parent = (s.proc i).parent) : Family s' := by
  obtain ⟨hself, hne⟩ := of_update hproc
  have hparent : ∀ j, (s'.proc j).parent = (s.proc j).parent := fun j => by
    by_cases hj : j = i
    · subst hj; rw [hself, hpp]
    · rw [hne hj]
  have hasleep : ∀ {j}, AsleepInWait j (s'.proc j) → AsleepInWait j (s.proc j) := fun {j} h => by
    by_cases hj : j = i
    · subst hj; rw [hself, AsleepInWait, hp] at h; cases h.1
    · rwa [hne hj] at h
  obtain ⟨hpcself, hpcne⟩ := of_update hpc
  have hlocked : (s.pc i).locked = true := by rw [hpci]; rfl
  have hinit : i ≠ initproc := (hi.ok i).exiting (by rw [hpci]; rfl)
  have hnochild : ∀ j, (s.proc j).parent ≠ some i := fun j => (hi.ok i).cleared (by rw [hpci]; exact j.isLt)
  refine ⟨fun j => ?_, fun j => ?_, fun j => ?_, ?_, fun {j q} h => ?_, fun {j} hj h => ?_, fun {k j} ha h hz => ?_⟩
  · rw [hl]
    by_cases hj : j = i
    · subst hj; simp [hpcself, Pc.locked]
    · simp [hpcne hj, hi.holder hlocked hj]
  · by_cases hj : j = i
    · subst hj; exact .inl hpcself
    · rw [hpcne hj, hne hj]; exact hi.thread j
  · by_cases hj : j = i
    · subst hj; rw [hpcself]; exact .of_plain ⟨rfl, rfl, rfl⟩
    · rw [hpcne hj]; exact (hi.ok j).of_unlocked (hi.holder hlocked hj) fun _ => hparent _
  · rw [hne hinit.symm]; exact hi.init
  · rw [hparent] at h
    have : q ≠ i := fun e => hnochild j (e ▸ h)
    rw [hne this]
    exact hi.parentAlive h
  · rw [hparent]
    by_cases hj' : j = i
    · subst hj'; exact hi.hasParent hj (.inl halive)
    · rw [hne hj'] at h; exact hi.hasParent hj h
  · rw [hparent] at h
    by_cases hj : j = i
    · -- the parent was woken before
      subst hj
      exact absurd (hasleep ha) ((hi.ok j).woken (by rw [hpci]; exact k.isLt) h)
    · rw [hne hj] at hz
      obtain ⟨-, e, hh⟩ := hi.missed (hasleep ha) h hz
      have : e = i := Decidable.byContradiction fun hn =>
        absurd (Pc.locked_of_handing hh) (by simp [hi.holder hlocked hn])
      rw [this, hpci] at hh
      cases hh

/-- A process that has found no zombie among its children goes to sleep in
`wait`. -/
theorem waitSleep (hi : Family s) {x : Bool} {addr : Nat} {hk : Bool}
    (hpci : s.pc i = .waitScan x addr k hk) (hend : NPROC ≤ k) (halive : Alive (s.proc i))
    (hproc : s'.proc = update s.proc i p) (hpc : s'.pc = update s.pc i pc)
    (hl : s'.waitLock = none) (hp : Alive p) (hpp : p.parent = (s.proc i).parent) (hplain : pc.plain) :
    Family s' := by
  obtain ⟨hself, hne⟩ := of_update hproc
  have hparent : ∀ j, (s'.proc j).parent = (s.proc j).parent := fun j => by
    by_cases hj : j = i
    · subst hj; rw [hself, hpp]
    · rw [hne hj]
  have halive' : ∀ {j}, Alive (s'.proc j) ↔ Alive (s.proc j) := fun {j} => by
    by_cases hj : j = i
    · subst hj; rw [hself]; exact ⟨fun _ => halive, fun _ => hp⟩
    · rw [hne hj]
  have hzombie : ∀ {j}, (s'.proc j).state = .zombie → (s.proc j).state = .zombie := fun {j} h => by
    by_cases hj : j = i
    · subst hj; rw [hself] at h; simp [Alive, h] at hp
    · rwa [hne hj] at h
  obtain ⟨hpcself, hpcne⟩ := of_update hpc
  have hlocked : (s.pc i).locked = true := by rw [hpci]; rfl
  refine ⟨fun j => ?_, fun j => ?_, fun j => ?_, halive'.mpr hi.init, fun {j q} h => ?_, fun {j} hj h => ?_,
    fun {m j} ha h hz => ?_⟩
  · rw [hl]
    by_cases hj : j = i
    · subst hj; simp [hpcself, hplain.1]
    · simp [hpcne hj, hi.holder hlocked hj]
  · by_cases hj : j = i
    · subst hj; exact .inr (.inr (halive'.mpr halive))
    · rw [hpcne hj, halive']; exact hi.thread j
  · by_cases hj : j = i
    · subst hj; rw [hpcself]; exact .of_plain hplain
    · rw [hpcne hj]; exact (hi.ok j).of_unlocked (hi.holder hlocked hj) fun _ => hparent _
  · rw [hparent] at h
    exact halive'.mpr (hi.parentAlive h)
  · rw [hparent]
    exact hi.hasParent hj (h.imp halive'.mp hzombie)
  · rw [hparent] at h
    by_cases hm : m = i
    · -- the scan passed the whole table
      subst hm
      refine absurd (hzombie hz) ((hi.ok m).scanned ?_ h)
      rw [hpci]
      exact Nat.lt_of_lt_of_le j.isLt hend
    · rw [hne hm] at ha
      obtain ⟨-, e, hh⟩ := hi.missed ha h (hzombie hz)
      have : e = i := Decidable.byContradiction fun hn =>
        absurd (Pc.locked_of_handing hh) (by simp [hi.holder hlocked hn])
      rw [this, hpci] at hh
      cases hh

end Family

/-! ## The system -/

theorem Entry.plain (h : Entry s i pc ev) :
    pc.plain ∨ ∃ status, pc = .exit status ∧ i ≠ initproc := by
  cases h with
  | exit status hi => exact .inr ⟨status, rfl, hi⟩
  | _ => exact .inl ⟨rfl, rfl, rfl⟩

theorem Quiet.kept {p' : Proc} (h : Quiet p p') : Kept i p p' := by
  cases h <;> exact .of_state rfl rfl rfl

/-- What a thread has established is still so when it moves on within a call. -/
theorem threadOk_goto (hi : Family s) (h : Goto s i (s.pc i) pc) :
    ThreadOk s.proc i pc := by
  have hok := hi.ok i
  generalize hpc : s.pc i = pc0 at h
  cases h with
  | fork | forkFull | kill | killNone | setpriority | setpriorityNone =>
    exact .of_plain ⟨rfl, rfl, rfl⟩
  | reparentSkip hk hp =>
    refine ⟨fun _ => hok.exiting (by rw [hpc]; rfl), fun h => ?_, fun {j} h => ?_, fun h => ?_, fun h => ?_⟩
    · cases h
    · rename_i k
      by_cases hj : j.val = k
      · have : j = ⟨k, hk⟩ := Fin.ext hj
        rw [this]; exact hp
      · refine hok.cleared ?_
        rw [hpc]
        simp only [Pc.cleared] at h ⊢
        omega
    · cases h
    · cases h
  | reparentWoken | reparentDone =>
    refine ⟨fun _ => hok.exiting (by rw [hpc]; rfl), fun h => ?_, fun {j} h => ?_, fun h => ?_, fun h => ?_⟩
    · cases h
    · refine hok.cleared ?_
      rw [hpc]
      simp only [Pc.cleared] at h ⊢
      omega
    · cases h
    · cases h
  | exitWoken hk =>
    refine ⟨fun _ => hok.exiting (by rw [hpc]; rfl), fun h => ?_, fun {j} h => ?_, fun {q} h => ?_, fun h => ?_⟩
    · cases h
    · exact hok.cleared (by rw [hpc]; exact h)
    · refine hok.woken ?_
      rw [hpc]
      exact Nat.lt_of_lt_of_le q.isLt hk
    · cases h
  | waitSkip hk hp =>
    refine ⟨fun h => ?_, fun h => ?_, fun h => ?_, fun h => ?_, fun {j} h hj => ?_⟩
    iterate 4 · cases h
    · refine hok.scanned ?_ hj
      rw [hpc]
      rename_i k _
      have : j.val ≠ k := fun e => hp (by rw [show (⟨k, hk⟩ : Slot) = j from Fin.ext e.symm]; exact hj)
      simp only [Pc.scanned] at h ⊢
      omega
  | waitAlive hk _ hz =>
    refine ⟨fun h => ?_, fun h => ?_, fun h => ?_, fun h => ?_, fun {j} h hj => ?_⟩
    iterate 4 · cases h
    · rename_i k _ _
      by_cases hjk : j.val = k
      · have : j = ⟨k, hk⟩ := Fin.ext hjk
        rw [this]; exact hz
      · refine hok.scanned ?_ hj
        rw [hpc]
        simp only [Pc.scanned] at h ⊢
        omega

theorem goto_locked (h : Goto s i pc pc') : pc'.locked = pc.locked := by
  cases h <;> rfl

/-- A `wakeup` of the first process is over only when it has passed it. -/
theorem goto_handing (h : Goto s i pc pc') : pc.handing = false := by
  cases h with
  | reparentWoken hw =>
    have := initproc.isLt
    simp only [Pc.handing, decide_eq_false_iff_not]
    omega
  | _ => rfl

/-- A process that an iteration of `wakeup` has looked at is not asleep in the
`wait` that it wakes. -/
theorem not_asleep_wakeup (i : Slot) (ticks : Word) (p : Proc) :
    ¬ AsleepInWait i (p.wakeup (some (.proc i)) ticks) := by
  intro h
  simp only [AsleepInWait, Proc.wakeup] at h
  split at h
  · cases h.1
  · exact absurd h ‹_›

theorem kept_wakeupBy (s : State n) (p w : Slot) (ch : Option Chan) (j : Slot) :
    Kept j (s.proc j) ((wakeupBy s p ch w).proc j) := by
  refine Kept.update ?_ j
  split
  · exact .of_roused (roused_wakeup ..) rfl rfl
  · exact .refl ..

theorem family_boot : Family (boot b n) := by
  have hproc : ∀ j : Slot, j ≠ initproc → (boot b n).proc j = {} := fun j h => by simp [boot, h]
  have hinit : (boot b n).proc initproc = userinit := by simp [boot]
  have hparent : ∀ j : Slot, ((boot b n).proc j).parent = none := fun j => by
    by_cases hj : j = initproc
    · subst hj; rw [hinit]; rfl
    · rw [hproc j hj]
  have hpc : ∀ j : Slot, (boot b n).pc j = .dead ∨ (boot b n).pc j = .user := fun j => by
    by_cases hj : j = initproc <;> simp [boot, hj]
  refine ⟨fun j => ?_, fun j => (hpc j).imp_right .inl, fun j => .of_plain ?_, ?_, fun {j q} h => ?_,
    fun {j} hj h => ?_, fun {i j} _ h => ?_⟩
  · have hl : (boot b n).waitLock = none := rfl
    rcases hpc j with h | h <;> rw [h, hl] <;> simp [Pc.locked]
  · rcases hpc j with h | h <;> rw [h] <;> exact ⟨rfl, rfl, rfl⟩
  · rw [hinit]; exact .inr (.inl rfl)
  · rw [hparent] at h; cases h
  · rw [hproc j hj] at h; simp [Alive] at h
  · rw [hparent] at h; cases h

/-- An iteration of `wakeup(initproc)` in `reparent`. -/
theorem Family.reparentWakeup (hi : Family s) (he : Exclusive s)
    (halive : Alive (s.proc i)) (hpc : s.pc i = .reparent status k (some w)) :
    Family ((wakeupBy s i (some (.proc initproc)) w).setPc i (.reparent status k (some (w + 1)))) := by
  have hok := hi.ok i
  have hne : i ≠ initproc := hok.exiting (by rw [hpc]; rfl)
  have hk := kept_wakeupBy s i w (some (.proc initproc))
  have hl : s.waitLock = some i := (hi.lock i).mpr (by rw [hpc]; rfl)
  refine hi.move he halive rfl hk hl (fun _ h => by rw [hpc] at h; cases h) ?_ fun h => ?_
  · rw [hpc] at hok
    exact ⟨fun _ => hne, (nomatch ·), (hok.kept hk fun h => nomatch h).cleared, (nomatch ·), (nomatch ·)⟩
  · -- this iteration wakes the first process, or comes before it
    rw [hpc] at h
    simp only [Pc.handing, decide_eq_true_eq] at h ⊢
    rcases Nat.lt_or_eq_of_le h with h | h
    · exact .inl h
    · have : w = initproc := Fin.ext h
      subst this
      right
      simp only [State.setPc, wakeupBy, State.setProc, update_self]
      rw [if_pos hne.symm]
      exact not_asleep_wakeup _ _ _

/-- An iteration of `wakeup(p->parent)` in `exit`. -/
theorem Family.exitWakeup (hi : Family s) (he : Exclusive s)
    (halive : Alive (s.proc i)) (hpc : s.pc i = .exitWakeup status w) :
    Family ((wakeupBy s i ((s.proc i).parent.map .proc) w).setPc i (.exitWakeup status (w + 1))) := by
  have hok := hi.ok i
  have hnochild : ∀ j, (s.proc j).parent ≠ some i := fun j => hok.cleared (by rw [hpc]; exact j.isLt)
  have hk := kept_wakeupBy s i w ((s.proc i).parent.map .proc)
  have hl : s.waitLock = some i := (hi.lock i).mpr (by rw [hpc]; rfl)
  refine hi.move he halive rfl hk hl (fun _ h => by rw [hpc] at h; cases h) ?_ fun h => ?_
  · rw [hpc] at hok
    have hok' := hok.kept hk fun h => nomatch h
    refine ⟨fun _ => hok.exiting rfl, (nomatch ·), fun _ => hok'.cleared (Fin.isLt _), fun {q} h hq => ?_, (nomatch ·)⟩
    by_cases hqw : q = w
    · -- this iteration wakes the parent, which is another process
      subst hqw
      have hq : (s.proc i).parent = some q := by
        rcases (hk i).parent with hp | ⟨hp, -⟩
        · rw [← hp]; exact hq
        · exact absurd (hp.symm.trans hq) (by simp)
      have : q ≠ i := fun e => hnochild i (e ▸ hq)
      simp only [State.setPc, wakeupBy, State.setProc, update_self]
      rw [if_pos this, hq]
      exact not_asleep_wakeup _ _ _
    · refine hok'.woken ?_ hq
      have : q.val ≠ w.val := fun e => hqw (Fin.ext e)
      simp only [Pc.woken] at h ⊢
      omega
  · rw [hpc] at h; cases h

theorem family_step (hi : Family s) (he : Exclusive s) (h : Step b s a ev s') : Family s' := by
  cases h with
  | scan | timer | tick | updateTimeDone | wakeupTicksDone => exact hi.still he (fun _ => .refl ..) rfl rfl
  | age | updateTime => exact hi.still he (Kept.update (.of_state rfl rfl rfl)) rfl rfl
  | wakeupTicks | wakeup => exact hi.still he (Kept.update (.of_roused (roused_wakeup ..) rfl rfl)) rfl rfl
  | dispatch _ hr =>
    exact hi.still he (Kept.update (.of_alive (.inr (.inl hr)) (.inr (.inr rfl)) rfl fun h => by cases h.1)) rfl rfl
  | preempt _ _ hp =>
    refine hi.still he (Kept.update ?_) rfl rfl
    rcases hp with ⟨-, rfl⟩ | ⟨-, -, rfl⟩ <;> exact .of_state rfl rfl rfl
  | yield hc =>
    exact hi.still he (Kept.update (.of_alive (he.alive hc) (.inr (.inl rfl)) rfl fun h => by cases h.1)) rfl rfl
  | call hon hpc hent =>
    rcases hent.plain with hp | ⟨status, rfl, hne⟩
    · exact hi.movePlain he (he.alive hon.cproc) rfl hp (by rw [hpc]; rfl) (fun _ => .refl ..) (by rw [hpc]; rfl)
    · refine hi.move he (he.alive hon.cproc) rfl (fun _ => .refl ..) (by rw [hpc]; rfl) (by rintro ⟨⟩)
        ⟨fun _ => hne, by simp, by intros; contradiction, by intros; contradiction, by intros; contradiction⟩ fun h => ?_
      rw [hpc] at h; cases h
  | goto hon hg =>
    refine hi.move he (he.alive hon.cproc) rfl (fun _ => .refl ..) ?_ (fun h h' => ?_) (threadOk_goto (s := s) hi hg)
      fun h => absurd h (by simp [goto_handing hg])
    · rw [goto_locked hg]
      split
      · exact (hi.lock _).mpr ‹_›
      · rfl
    · rw [goto_locked hg, h'] at h; cases h
  | priv _ _ hq => exact hi.still he (Kept.update hq.kept) rfl rfl
  | sleep hon hpc hu hch =>
    refine hi.still he (Kept.update (.of_alive (he.alive hon.cproc) (.inl rfl) rfl fun h => ?_)) ?_ rfl
    · rw [Option.some.inj h.2] at hch; cases hch
    · rw [← hpc]
      exact update_eq_self ..
  | forkFail hon hpc hu hp =>
    refine hi.movePlain he (he.alive hon.cproc) rfl ⟨rfl, rfl, rfl⟩ (by rw [hpc]; rfl) (Kept.update ?_)
      (by rw [hpc]; rfl)
    rcases hp with rfl | rfl <;> exact .of_freed (by simp [Alive, hu]) (by simp [hu]) rfl rfl
  | forkTake hon hpc hu =>
    exact hi.forkTake he (he.alive hon.cproc) (by rw [hpc]; rfl) hu rfl rfl rfl rfl rfl
  | forkParent hon hpc hl => exact hi.forkParent he (he.alive hon.cproc) hpc hl rfl rfl rfl rfl rfl
  | forkReady hon hpc => exact hi.forkReady he hpc rfl rfl rfl rfl rfl
  | exitLock hon hpc hl =>
    refine hi.move he (he.alive hon.cproc) rfl (Kept.update (.of_state rfl rfl rfl)) rfl (fun _ _ => hl)
      ⟨fun _ => (hi.ok _).exiting (by rw [hpc]; rfl), by simp, fun h => absurd h (Nat.not_lt_zero _),
        by intros; contradiction, by intros; contradiction⟩ fun h => ?_
    rw [hpc] at h; cases h
  | reparentChild hon hpc hp => exact hi.reparentChild (he.alive hon.cproc) hpc hp rfl rfl rfl rfl rfl rfl
  | reparentWakeup hon hpc => exact hi.reparentWakeup he (he.alive hon.cproc) hpc
  | exitWakeup hon hpc => exact hi.exitWakeup he (he.alive hon.cproc) hpc
  | zombie hon hpc => exact hi.zombie (he.alive hon.cproc) hpc rfl rfl rfl rfl rfl
  | waitLock hon hpc hl =>
    refine hi.move he (he.alive hon.cproc) rfl (fun _ => .refl ..) rfl (fun _ _ => hl)
      ⟨by rintro ⟨⟩, by simp, by intros; contradiction, by intros; contradiction,
        fun h => absurd h (Nat.not_lt_zero _)⟩ fun h => ?_
    rw [hpc] at h; cases h
  | waitFail hon hpc =>
    exact hi.movePlain he (he.alive hon.cproc) rfl ⟨rfl, rfl, rfl⟩ (by rw [hpc]; rfl) (fun _ => .refl ..)
      (by rw [hpc]; rfl)
  | waitReap hon hpc _ hz =>
    exact hi.movePlain he (he.alive hon.cproc) rfl ⟨rfl, rfl, rfl⟩ (by rw [hpc]; rfl)
      (Kept.update (.of_freed (by simp [Alive, hz]) (by simp [hz]) rfl rfl)) (by rw [hpc]; rfl)
  | waitSleep hon hpc hk =>
    exact hi.waitSleep hpc hk (he.alive hon.cproc) rfl rfl rfl (.inl rfl) rfl ⟨rfl, rfl, rfl⟩
  | kill hon hpc =>
    exact hi.movePlain he (he.alive hon.cproc) rfl ⟨rfl, rfl, rfl⟩ (by rw [hpc]; rfl)
      (Kept.update (.of_roused (roused_kill _) rfl rfl)) (by rw [hpc]; rfl)
  | setpriority hon hpc =>
    exact hi.movePlain he (he.alive hon.cproc) rfl ⟨rfl, rfl, rfl⟩ (by rw [hpc]; rfl)
      (Kept.update (.of_state rfl rfl rfl)) (by rw [hpc]; rfl)

theorem family_run {as : List (Act n)} (h : Run (step b) (boot b n) as s) : Family s :=
  (h.invariant (I := fun s => Exclusive s ∧ Family s) ⟨exclusive_boot, family_boot⟩ fun ⟨he, hi⟩ hs =>
    ⟨exclusive_step he (step_cases hs), family_step hi he (step_cases hs)⟩).2

/-- In every state in which `wait_lock` is free, every process that is in use
has a parent that is alive, but for the first process; and no process is
asleep in `wait` while one of its children is a zombie. -/
theorem family_ok {as : List (Act n)} (h : Run (step b) (boot b n) as s) (hl : s.waitLock = none) :
    (∀ i, i ≠ initproc → (s.proc i).state ∈ [.sleeping, .runnable, .running, .zombie] →
      ∃ q, (s.proc i).parent = some q ∧ (s.proc q).state ≠ .unused ∧ (s.proc q).state ≠ .zombie) ∧
    ∀ i j, (s.proc i).state = .sleeping → (s.proc i).chan = some (.proc i) → (s.proc j).parent = some i →
      (s.proc j).state ≠ .zombie := by
  have hi := family_run h
  refine ⟨fun i hne hst => ?_, fun i j hs hc hp hz => ?_⟩
  · simp only [List.mem_cons, List.not_mem_nil, or_false] at hst
    obtain ⟨q, hq⟩ := hi.hasParent hne (by simp only [Alive]; tauto)
    have ha := hi.parentAlive hq
    refine ⟨q, hq, fun h => ?_, fun h => ?_⟩ <;> simp [Alive, h] at ha
  · obtain ⟨-, e, he⟩ := hi.missed ⟨hs, hc⟩ hp hz
    exact absurd (Pc.locked_of_handing he) (by simp [hi.unlocked hl e])

/-- The first process has a child, and sleeps in `wait`. -/
def parentWaits : List (Act 1) :=
  [.sched 0, .run 0 .fork] ++ List.replicate 4 (.run 0 (.next true true)) ++ [.run 0 (.wait false 0)] ++
    List.replicate 66 (.run 0 (.next true true))

theorem family_ok_parentWaits : ∃ s : State 1, Run (step .RR) (boot .RR 1) parentWaits s ∧
    ((s.proc 0).state = .sleeping ∧ (s.proc 0).chan = some (.proc 0) ∧ (s.proc 1).parent = some 0) ∧
    (s.proc 1).state ≠ .zombie := by
  obtain ⟨s, hr, hl, hs, hc, hp⟩ := exists_run (step .RR) (boot .RR 1) parentWaits
    (Q := fun s => s.waitLock = none ∧ (s.proc 0).state = .sleeping ∧ (s.proc 0).chan = some (.proc 0) ∧
      (s.proc 1).parent = some 0) (by decide +kernel)
  exact ⟨s, hr, ⟨hs, hc, hp⟩, (family_ok hr hl).2 0 1 hs hc hp⟩

end Xv6.Machine
