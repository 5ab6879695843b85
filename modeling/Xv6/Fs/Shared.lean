import Xv6.Fs.Inode
import Xv6.Framework.Run

/-!
# The inode table, shared by processes

`ialloc`, `iget`, `ilock`, `iunlock` and `iput` of `kernel/fs.c`, run by any
number of processes at once. A critical section of `itable.lock`, the taking
and the release of an inode's sleep lock, and what is done to one block under
its buffer's lock are one step each. The disk is taken apart into the inodes
and the free map, which are in different blocks. Code that panics takes no step.

`refs` and `fresh` are no part of the kernel's data: the references that a
process has to an inode, and the type that it gave to `ialloc` if that is where
it has the reference from.
-/

namespace Xv6.Fs.Shared

open Framework Function Option
open Log (BlockNo)

/-- Where a process is: what it does next. -/
inductive At
  /-- In none of the functions. -/
  | idle
  /-- In the loop of `ialloc`. -/
  | ialloc (type : Short) (inum : Nat)
  /-- At the `iget` of `ialloc`. -/
  | iget (type : Short) (inum : Nat)
  /-- In `ilock`, with the lock. -/
  | ilock (e : Fin NINODE)
  /-- In `iput`, in the first loop of `itrunc`. -/
  | trunc (e : Fin NINODE) (i : Nat)
  /-- In `iput`, in the second loop of `itrunc`. -/
  | entries (e : Fin NINODE) (j : Nat)
  /-- In `iput`, past the loops of `itrunc`. -/
  | truncated (e : Fin NINODE)
  /-- In `iput`, past `itrunc`. -/
  | clear (e : Fin NINODE)
  /-- In `iput`, past `iupdate`. -/
  | release (e : Fin NINODE)
  /-- In `iput`, about to take `itable.lock` again. -/
  | drop (e : Fin NINODE)
  deriving DecidableEq

/-- The inodes on disk and in memory, and the processes that use them. The
table is kept by field. -/
structure State (P : Type) where
  dinode : Nat → Dinode
  /-- The free map: the blocks in use. -/
  used : BlockNo → Bool
  /-- The entries of the blocks that serve as indirect blocks. -/
  word : BlockNo → Nat → BlockNo
  inum : Fin NINODE → Nat
  ref : Fin NINODE → Nat
  valid : Fin NINODE → Bool
  /-- The holder of the sleep lock. -/
  lock : Fin NINODE → Option P
  /-- The copy of the inode. -/
  copy : Fin NINODE → Dinode
  pc : P → At
  refs : P → Fin NINODE → Nat
  fresh : P → Fin NINODE → Option Short

/-- A step of one process. -/
inductive Act (P : Type)
  /-- A call of `ialloc`. -/
  | ialloc (p : P) (type : Short)
  /-- A call of `ilock`, up to the end of `acquiresleep`. -/
  | ilock (p : P) (e : Fin NINODE)
  | iunlock (p : P) (e : Fin NINODE)
  /-- A call of `iput`: its first critical section. -/
  | iput (p : P) (e : Fin NINODE)
  /-- The next step in the function that the process is in. -/
  | next (p : P)

section Code

variable {P : Type} [DecidableEq P] (ninodes : Nat) (s : State P)

def State.setPc (p : P) (x : At) : State P := { s with pc := update s.pc p x }

def State.setCopy (e : Fin NINODE) (d : Dinode) : State P := { s with copy := update s.copy e d }

/-- A process has `n` references to an inode, one of them perhaps from `ialloc`. -/
def State.setRefs (p : P) (e : Fin NINODE) (n : Nat) (type : Option Short) : State P :=
  { s with
    refs := update s.refs p (update (s.refs p) e n)
    fresh := update s.fresh p (update (s.fresh p) e type) }

def bfree (b : BlockNo) : Option (State P) :=
  if s.used b then some { s with used := update s.used b false } else none

def iupdate (e : Fin NINODE) : State P := { s with dinode := update s.dinode (s.inum e) (s.copy e) }

/-- An iteration of the loop of `ialloc`. -/
def iallocAt (p : P) (type : Short) (inum : Nat) : Option (State P) :=
  if inum < ninodes then
    if (s.dinode inum).type = 0 then
      some ({ s with dinode := update s.dinode inum (.ofType type) }.setPc p (.iget type inum))
    else some (s.setPc p (.ialloc type (inum + 1)))
  else none

/-- `iget`: the entry that it returns. -/
def iget (inum : Nat) : Option (Fin NINODE × State P) :=
  match (List.finRange NINODE).find? fun e => 0 < s.ref e ∧ s.inum e = inum with
  | some e => some (e, { s with ref := update s.ref e (s.ref e + 1) })
  | none =>
    ((List.finRange NINODE).find? fun e => s.ref e = 0).map fun e => (e, { s with
      inum := update s.inum e inum
      ref := update s.ref e 1
      valid := update s.valid e false })

/-- `ilock`, once it has the lock. -/
def ilock (p : P) (e : Fin NINODE) : Option (State P) :=
  if s.valid e then some (s.setPc p .idle)
  else if (s.dinode (s.inum e)).type = 0 then none
  else some ({ s.setCopy e (s.dinode (s.inum e)) with valid := update s.valid e true }.setPc p .idle)

/-- A process drops a reference. -/
def decref (p : P) (e : Fin NINODE) : State P :=
  { s with ref := update s.ref e (s.ref e - 1) }.setRefs p e (s.refs p e - 1) none

/-- The first critical section of `iput`. -/
def iput (p : P) (e : Fin NINODE) : Option (State P) :=
  if s.ref e = 1 ∧ s.valid e ∧ (s.copy e).nlink = 0 then
    if s.lock e = none then
      some (({ s with lock := update s.lock e (some p) }.setRefs p e (s.refs p e) none).setPc p (.trunc e 0))
    else none
  else some (decref s p e)

/-- Free the block in `addrs[k]`. -/
def freeAddr (e : Fin NINODE) (k : Fin (NDIRECT + 1)) : Option (State P) :=
  (bfree s ((s.copy e).addrs k)).map
    (·.setCopy e { s.copy e with addrs := update (s.copy e).addrs k 0 })

/-- The next step in the function that the process is in. -/
def next (p : P) : Option (State P) :=
  match s.pc p with
  | .idle => none
  | .ialloc type inum => iallocAt ninodes s p type inum
  | .iget type inum => (iget s inum).map fun (e, s') => (s'.setRefs p e (s.refs p e + 1) (some type)).setPc p .idle
  | .ilock e => ilock s p e
  | .trunc e i =>
    if i < NDIRECT then
      if (s.copy e).addrs (Fin.ofNat _ i) = 0 then some (s.setPc p (.trunc e (i + 1)))
      else (freeAddr s e (Fin.ofNat _ i)).map (·.setPc p (.trunc e (i + 1)))
    else if (s.copy e).addrs indirect = 0 then some (s.setPc p (.truncated e))
    else some (s.setPc p (.entries e 0))
  | .entries e j =>
    if j < NINDIRECT then
      let b := s.word ((s.copy e).addrs indirect) j
      if b = 0 then some (s.setPc p (.entries e (j + 1))) else (bfree s b).map (·.setPc p (.entries e (j + 1)))
    else (freeAddr s e indirect).map (·.setPc p (.truncated e))
  | .truncated e => some ((iupdate (s.setCopy e { s.copy e with size := 0 }) e).setPc p (.clear e))
  | .clear e => some ((iupdate (s.setCopy e { s.copy e with type := 0 }) e).setPc p (.release e))
  | .release e =>
    some ({ s with
      valid := update s.valid e false
      lock := update s.lock e none }.setPc p (.drop e))
  | .drop e => some ((decref s p e).setPc p .idle)

/-- The step of an action. A process locks and puts inodes to which it has
references, and unlocks an inode before it puts it. -/
def step : Act P → Option (State P)
  | .ialloc p type => if s.pc p = .idle ∧ type ≠ 0 then some (s.setPc p (.ialloc type 1)) else none
  | .ilock p e =>
    if s.pc p = .idle ∧ 0 < s.refs p e ∧ s.lock e = none then
      some ({ s with lock := update s.lock e (some p) }.setPc p (.ilock e))
    else none
  | .iunlock p e =>
    if s.pc p = .idle ∧ s.lock e = some p then some { s with lock := update s.lock e none } else none
  | .iput p e => if s.pc p = .idle ∧ 0 < s.refs p e ∧ s.lock e ≠ some p then iput s p e else none
  | .next p => next ninodes s p

end Code

/-! ## The places of a process -/

variable {P : Type} {s s' : State P} {p : P} {e : Fin NINODE} {x : At} {ninodes : Nat}

/-- In the part of `iput` that frees the inode, up to the `iupdate` of its type. -/
def Freeing : At → Fin NINODE → Prop
  | .trunc f _, e => f = e
  | .entries f _, e => f = e
  | .truncated f, e => f = e
  | .clear f, e => f = e
  | _, _ => False

/-- In `iput`, past the `iupdate` that frees the inode. -/
def Dropping : At → Fin NINODE → Prop
  | .release f, e => f = e
  | .drop f, e => f = e
  | _, _ => False

/-- The places of a process outside `ilock` and `iput`. -/
def Neutral : At → Prop
  | .idle => True
  | .ialloc .. => True
  | .iget .. => True
  | _ => False

theorem Neutral.not (h : Neutral x) (e : Fin NINODE) :
    ¬ Freeing x e ∧ ¬ Dropping x e ∧ x ≠ .ilock e ∧ x ≠ .release e := by
  cases x <;> simp_all [Neutral, Freeing, Dropping]

theorem not_freeing_dropping (h : Dropping x e) (f : Fin NINODE) : ¬ Freeing x f := by
  cases x <;> simp_all [Freeing, Dropping]

theorem Freeing.not (h : Freeing x e) (f : Fin NINODE) :
    (Freeing x f ↔ f = e) ∧ ¬ Dropping x f ∧ x ≠ .ilock f ∧ x ≠ .release f ∧
      (∀ type inum, x ≠ .ialloc type inum) ∧ ∀ type inum, x ≠ .iget type inum := by
  cases x <;> simp_all [Freeing, Dropping, eq_comm]

/-- No process is in the part of `iput` that frees the inode. -/
def Quiet (pc : P → At) (e : Fin NINODE) : Prop := ∀ p, ¬ Freeing (pc p) e ∧ pc p ≠ .release e

/-- The process has a reference, and is not about to drop it. -/
def Live (s : State P) (p : P) (e : Fin NINODE) : Prop := 0 < s.refs p e ∧ ¬ Dropping (s.pc p) e

/-! ## What the steps do -/

/-- `iget` finds the entry of the inode, or takes a free one. -/
theorem iget_eq_some {inum : Nat} (hs : iget s inum = some (e, s')) :
    ∃ v, s' = { s with
        inum := update s.inum e inum
        ref := update s.ref e (s.ref e + 1)
        valid := update s.valid e v } ∧
      ((v = s.valid e ∧ 0 < s.ref e ∧ s.inum e = inum) ∨
        (v = false ∧ s.ref e = 0 ∧ ∀ f, 0 < s.ref f → s.inum f ≠ inum)) := by
  unfold Shared.iget at hs
  split at hs
  · next f hf =>
    simp only [some.injEq, Prod.mk.injEq] at hs
    obtain ⟨rfl, rfl⟩ := hs
    obtain ⟨hr, hi⟩ : 0 < s.ref f ∧ s.inum f = inum := by simpa using List.find?_some hf
    refine ⟨s.valid f, ?_, .inl ⟨rfl, hr, hi⟩⟩
    rw [← hi, update_eq_self, update_eq_self]
  · next hnone =>
    simp only [map_eq_some_iff, Prod.mk.injEq] at hs
    obtain ⟨f, hf, rfl, rfl⟩ := hs
    have hr : s.ref f = 0 := by simpa using List.find?_some hf
    refine ⟨false, by rw [hr], .inr ⟨rfl, hr, fun g hg hi => ?_⟩⟩
    have := List.find?_eq_none.mp hnone g (List.mem_finRange g)
    simp only [decide_eq_true_eq] at this
    exact this ⟨hg, hi⟩

theorem bfree_eq_some {b : BlockNo} (hs : bfree s b = some s') : ∃ u, s' = { s with used := u } := by
  unfold bfree at hs
  split at hs
  · exact ⟨_, (some.inj hs).symm⟩
  · cases hs

theorem freeAddr_eq_some {k : Fin (NDIRECT + 1)} (hs : freeAddr s e k = some s') :
    ∃ u addrs, s' = { s with used := u, copy := update s.copy e { s.copy e with addrs := addrs } } := by
  simp only [freeAddr, map_eq_some_iff] at hs
  obtain ⟨s1, hs1, rfl⟩ := hs
  obtain ⟨u, rfl⟩ := bfree_eq_some hs1
  exact ⟨u, _, rfl⟩

variable [DecidableEq P]

theorem Quiet.of_update (h : Quiet (update s.pc p x) e)
    (hp : ¬ Freeing (s.pc p) e ∧ s.pc p ≠ .release e) : Quiet s.pc e := by
  intro q
  by_cases hq : q = p
  · exact hq ▸ hp
  · have := h q
    rwa [update_of_ne hq] at this

theorem iget_of_update (hx : ∀ type inum, x ≠ .iget type inum) (q : P) (type : Short) (inum : Nat)
    (hq : update s.pc p x q = .iget type inum) : s.pc q = .iget type inum := update_eq_of_ne hq (hx type inum)

theorem live_iff (hpc : s'.pc = update s.pc p x) (hrefs : s'.refs = s.refs)
    (hd : ∀ f, Dropping x f ↔ Dropping (s.pc p) f) (q : P) (f : Fin NINODE) : Live s' q f ↔ Live s q f := by
  have := hd f
  simp only [Live, hpc, hrefs, update_apply]
  grind

/-- What the part of `iput` that frees an inode does before the type is cleared. -/
theorem next_freeing (hs : next ninodes s p = some s') (hp : Freeing (s.pc p) e) (hc : s.pc p ≠ .clear e) :
    ∃ x u d D, s' = { s with used := u, copy := update s.copy e d, dinode := D, pc := update s.pc p x } ∧
      Freeing x e ∧ d.type = (s.copy e).type ∧ (D = s.dinode ∨ D = update s.dinode (s.inum e) d) := by
  cases hpc : s.pc p with
  | trunc f i =>
    obtain rfl : f = e := by simpa only [hpc, Freeing] using hp
    simp only [next, hpc] at hs
    split at hs
    · split at hs
      · obtain rfl := some.inj hs
        refine ⟨.trunc f (i + 1), s.used, s.copy f, s.dinode, ?_, rfl, rfl, .inl rfl⟩
        simp [State.setPc]
      · obtain ⟨s1, hs1, rfl⟩ := map_eq_some_iff.mp hs
        obtain ⟨u, addrs, rfl⟩ := freeAddr_eq_some hs1
        exact ⟨.trunc f (i + 1), u, { s.copy f with addrs := addrs }, s.dinode, rfl, rfl, rfl, .inl rfl⟩
    split at hs
    · obtain rfl := some.inj hs
      refine ⟨.truncated f, s.used, s.copy f, s.dinode, ?_, rfl, rfl, .inl rfl⟩
      simp [State.setPc]
    · obtain rfl := some.inj hs
      refine ⟨.entries f 0, s.used, s.copy f, s.dinode, ?_, rfl, rfl, .inl rfl⟩
      simp [State.setPc]
  | entries f j =>
    obtain rfl : f = e := by simpa only [hpc, Freeing] using hp
    simp only [next, hpc] at hs
    split at hs
    · split at hs
      · obtain rfl := some.inj hs
        refine ⟨.entries f (j + 1), s.used, s.copy f, s.dinode, ?_, rfl, rfl, .inl rfl⟩
        simp [State.setPc]
      · obtain ⟨s1, hs1, rfl⟩ := map_eq_some_iff.mp hs
        obtain ⟨u, rfl⟩ := bfree_eq_some hs1
        refine ⟨.entries f (j + 1), u, s.copy f, s.dinode, ?_, rfl, rfl, .inl rfl⟩
        simp [State.setPc]
    · obtain ⟨s1, hs1, rfl⟩ := map_eq_some_iff.mp hs
      obtain ⟨u, addrs, rfl⟩ := freeAddr_eq_some hs1
      exact ⟨.truncated f, u, { s.copy f with addrs := addrs }, s.dinode, rfl, rfl, rfl, .inl rfl⟩
  | truncated f =>
    obtain rfl : f = e := by simpa only [hpc, Freeing] using hp
    simp only [next, hpc, some.injEq] at hs
    subst hs
    refine ⟨.clear f, s.used, { s.copy f with size := 0 }, _, ?_, rfl, rfl, .inr rfl⟩
    simp [iupdate, State.setPc, State.setCopy]
  | clear f =>
    obtain rfl : f = e := by simpa only [hpc, Freeing] using hp
    exact absurd hpc hc
  | _ => simp only [hpc, Freeing] at hp

/-- Only a process that frees an inode changes the free map or an inode in use on disk. -/
theorem step_disk {a : Act P} (hs : step ninodes s a = some s') :
    (s'.used = s.used ∧ ∀ i, (s.dinode i).type ≠ 0 → s'.dinode i = s.dinode i) ∨
      ∃ p e, a = .next p ∧ Freeing (s.pc p) e ∧ ∀ i ≠ s.inum e, s'.dinode i = s.dinode i := by
  cases a with
  | ialloc p type | ilock p e | iunlock p e =>
    obtain ⟨-, rfl⟩ := ite_some_none_eq_some.mp hs
    exact .inl ⟨rfl, fun _ _ => rfl⟩
  | iput p e =>
    simp only [step, ite_none_right_eq_some, iput] at hs
    obtain ⟨-, hs⟩ := hs
    split at hs
    · obtain ⟨-, rfl⟩ := ite_some_none_eq_some.mp hs
      exact .inl ⟨rfl, fun _ _ => rfl⟩
    · obtain rfl := some.inj hs
      exact .inl ⟨rfl, fun _ _ => rfl⟩
  | next p =>
    by_cases hf : ∃ e, Freeing (s.pc p) e
    · obtain ⟨e, hf⟩ := hf
      refine .inr ⟨p, e, rfl, hf, fun i hi => ?_⟩
      by_cases hc : s.pc p = .clear e
      · simp only [step, next, hc, some.injEq] at hs
        subst hs
        exact update_of_ne hi _ _
      · obtain ⟨x, u, d, D, rfl, -, -, rfl | rfl⟩ := next_freeing hs hf hc
        · rfl
        · exact update_of_ne hi _ _
    refine .inl ?_
    cases hp : s.pc p <;> simp only [step, next, hp, iallocAt, ilock, some.injEq, reduceCtorEq] at hs
    case ialloc type inum =>
      split at hs
      · split at hs
        · next h0 =>
          obtain rfl := some.inj hs
          refine ⟨rfl, fun i hi => update_of_ne (fun hc => hi ?_) _ _⟩
          rw [hc, h0]
        · obtain rfl := some.inj hs
          exact ⟨rfl, fun _ _ => rfl⟩
      · cases hs
    case iget type inum =>
      obtain ⟨⟨e, s1⟩, hs1, rfl⟩ := map_eq_some_iff.mp hs
      obtain ⟨v, rfl, -⟩ := iget_eq_some hs1
      exact ⟨rfl, fun _ _ => rfl⟩
    case ilock e =>
      split at hs
      · obtain rfl := some.inj hs
        exact ⟨rfl, fun _ _ => rfl⟩
      split at hs
      · cases hs
      · obtain rfl := some.inj hs
        exact ⟨rfl, fun _ _ => rfl⟩
    case release e | drop e =>
      subst hs
      exact ⟨rfl, fun _ _ => rfl⟩
    all_goals exact absurd ⟨_, by rw [hp]; rfl⟩ hf

end Xv6.Fs.Shared
