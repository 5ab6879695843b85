import Xv6.Vm.Owners

/-!
# Reference counts of files

Between system calls the count of a file is the number of descriptors that
point to it, a file has a type exactly if it has references, and the page of a
pipe is freed when the last reference to the second of its ends is closed
(`file_counts`). So `fileread` and `filewrite` find a type they know.
-/

namespace Xv6.Vm

open Framework Machine Multiset

/-- What `fileread` and `filewrite` do with a file that may be read or written, or
not: they hand on to the functions for the types of files. `none` is their
panic. -/
def fileaccess {α : Type} (x : File) (allowed : Bool) (bad pipe device inode : α) : Option α :=
  if !allowed then some bad
  else
    match x.type with
    | .pipe => some pipe
    | .device => some device
    | .inode => some inode
    | .none => none

/-- `fileread`, given the results of `piperead`, of the device and of `readi`. -/
def fileread {α : Type} (x : File) (bad piperead read readi : α) : Option α :=
  fileaccess x x.readable bad piperead read readi

/-- `filewrite`, given the results of `pipewrite`, of the device and of `writei`. -/
def filewrite {α : Type} (x : File) (bad pipewrite write writei : α) : Option α :=
  fileaccess x x.writable bad pipewrite write writei

theorem fileaccess_ne_none {α : Type} {x : File} (h : x.type ≠ .none) (allowed : Bool) (bad pipe device inode : α) :
    fileaccess x allowed bad pipe device inode ≠ none := by
  rw [fileaccess]
  split
  · exact Option.some_ne_none _
  · cases hx : x.type with
    | none => exact absurd hx h
    | pipe | inode | device => exact Option.some_ne_none _

variable {L : Layout} {s s' : Sys} {l l' : List Nat} {E : Multiset Nat} {f : Nat}

/-! ## Types -/

/-- The file table and the descriptors between calls: what has references has a
type. -/
def AllTyped (s : Sys) : Prop := ∀ f, 0 < (s.file f).ref → (s.file f).type ≠ .none

theorem AllTyped.step (h : AllTyped s) (ht : Typed s.file s'.file) : AllTyped s' := by
  intro f hf
  obtain hne | ⟨hty, hr⟩ := ht f hf
  · exact hne
  · rw [hty]
    exact h f hr

theorem Inv.type_eq_none (h : Inv L s l 0) (ht : AllTyped s) (f : Nat) :
    (s.file f).type = .none ↔ (s.file f).ref = 0 := by
  constructor
  · intro hty
    by_contra hr
    exact ht f (Nat.pos_of_ne_zero hr) hty
  · intro hr
    rw [h.files.ref, count_eq_zero] at hr
    exact h.files.closed f hr

/-! ## Counts -/

/-- The number of descriptors of a process that point to a file. -/
def fdCount (ofile : Fin NOFILE → Option Nat) (f : Nat) : Nat := (Finset.univ.filter fun fd => ofile fd = some f).card

theorem count_held (ofile : Fin NOFILE → Option Nat) (f : Nat) : (held ofile).count f = fdCount ofile f := by
  rw [held, count_sum', fdCount, Finset.card_filter]
  refine Finset.sum_congr rfl fun fd _ => ?_
  cases ofile fd with
  | none => simp
  | some g => simp [count_singleton, eq_comm]

theorem Inv.ref_eq (h : Inv L s l 0) (f : Nat) : (s.file f).ref = ∑ i, fdCount (s.proc i).ofile f := by
  rw [h.files.ref, add_zero, refs, count_sum']
  exact Finset.sum_congr rfl fun i _ => count_held _ f

/-! ## Pipes -/

theorem Inv.free_disjoint (h : Inv L s l E) {n : Nat} (hn : n ∈ pipePages s.file) : n ∉ l := by
  have hnd := nodup_of_le h.pipe_le L.frames.nodup
  exact disjoint_right.mp (nodup_add.mp hnd).2.2 hn

/-- The page of a pipe is free after an action exactly if no file is an end of
the pipe then. -/
theorem Inv.pipe_freed (h : Inv L s l 0) (h' : Inv L s' l' 0) (hstep : FilesStep l' s.file s'.file)
    (hf : (s.file f).type = .pipe) :
    (s.file f).pipe / 4096 ∈ l' ↔ ∀ g, (s'.file g).type = .pipe → (s'.file g).pipe ≠ (s.file f).pipe := by
  have hal := h.files.aligned f hf
  have hn : (s.file f).pipe / 4096 ∈ pipePages s.file := h.files.mem_pipeFrames.mpr ⟨f, hf, hal⟩
  have hends : (s.file f).pipe / 4096 ∈ pipePages s'.file ↔
      ∃ g, (s'.file g).type = .pipe ∧ (s'.file g).pipe = (s.file f).pipe := by
    have := h'.files.mem_pipeFrames (n := (s.file f).pipe / 4096)
    rwa [← hal] at this
  constructor
  · intro hfree g hg hp
    exact h'.free_disjoint (hends.mpr ⟨g, hg, hp⟩) hfree
  · intro hno
    obtain hl | hp := mem_add.mp (mem_of_le hstep.pages hn)
    · exact hl
    · obtain ⟨g, hg, hp⟩ := hends.mp hp
      exact absurd hp (hno g hg)

/-- From boot on, whatever the processes do: the count of a file is the number of
descriptors that point to it, its type is `FD_NONE` exactly if that is 0, and an
action frees the page of a pipe exactly if no file is an end of it afterwards.
No action panics, except when `init` exits, and neither `fileread` nor
`filewrite` does. -/
theorem file_counts (m : Bytes) (hL : KPAGES + 10 ≤ L.frames.card) :
    ∃ s₀, boot L m = some s₀ ∧ ∀ as s, Run (step L) s₀ as s → (∀ f, (s.file f).ref = ∑ i, fdCount (s.proc i).ofile f) ∧
      (∀ f, (s.file f).type = .none ↔ (s.file f).ref = 0) ∧
      (∃ free, s.kmem.Free free ∧ ∀ f, (s.file f).type = .pipe → (s.file f).pipe / 4096 ∉ free) ∧
      (∀ a s', step L s a = some s' → ∃ free', s'.kmem.Free free' ∧ ∀ f, (s.file f).type = .pipe →
        ((s.file f).pipe / 4096 ∈ free' ↔ ∀ g, (s'.file g).type = .pipe → (s'.file g).pipe ≠ (s.file f).pipe)) ∧
      (∀ a : Act, Alive (s.proc a.caller).toProc → (∀ status ticks, a ≠ .exit initproc status ticks) →
        ∃ s', step L s a = some s') ∧
      ∀ i fd f, (s.proc i).ofile fd = some f → ∀ (α : Type) (bad pipe device inode : α),
        fileread (s.file f) bad pipe device inode ≠ none ∧ filewrite (s.file f) bad pipe device inode ≠ none := by
  obtain ⟨s₀, l0, hs0, h0, -⟩ := boot_inv m hL
  refine ⟨s₀, hs0, fun as s hrun => ?_⟩
  have ht0 : AllTyped s₀ := by
    simp only [boot, Option.bind_eq_bind, Option.bind_eq_some_iff, Option.some.injEq] at hs0
    obtain ⟨_, -, _, -, _, -, rfl⟩ := hs0
    exact fun f hf => absurd hf (Nat.lt_irrefl 0)
  obtain ⟨⟨l, h⟩, ht⟩ : (∃ l, Inv L s l 0) ∧ AllTyped s := by
    refine hrun.invariant (I := fun s => (∃ l, Inv L s l 0) ∧ AllTyped s) ⟨⟨l0, h0⟩, ht0⟩ fun hi hs => ?_
    obtain ⟨⟨_, h⟩, ht⟩ := hi
    obtain ⟨l', h', hstep⟩ := step_inv h hs
    exact ⟨⟨l', h'⟩, ht.step hstep.typed⟩
  refine ⟨h.ref_eq, h.type_eq_none ht, ⟨l, h.free, fun f hf => h.free_disjoint ?_⟩, fun a s' hs => ?_,
    fun a hp hexit => ?_, fun i fd f hf α bad pipe device inode => ?_⟩
  · exact h.files.mem_pipeFrames.mpr ⟨f, hf, h.files.aligned f hf⟩
  · obtain ⟨l', h', hstep⟩ := step_inv h hs
    exact ⟨l', h'.free, fun f hf => h.pipe_freed h' hstep hf⟩
  · obtain ⟨s', -, hs', -⟩ := Act.run_inv h hp hexit
    exact ⟨s', by rw [step, if_pos hp, hs']⟩
  · have hr : 0 < (s.file f).ref := by
      rw [h.files.ref, count_pos, add_zero]
      exact mem_of_le (held_le_refs s.proc i) (mem_held hf)
    exact ⟨fileaccess_ne_none (ht f hr) _ _ _ _ _, fileaccess_ne_none (ht f hr) _ _ _ _ _⟩

/-- The kernel boots, `init` opens a file, and the file has a type. -/
theorem file_counts_open :
    ∃ s₀ s₁, boot .usual (fun _ => 0) = some s₀ ∧ step .usual s₀ (.openFile initproc false true true) = some s₁ ∧
      ∀ f, (s₁.file f).ref = ∑ i, fdCount (s₁.proc i).ofile f := by
  obtain ⟨s₀, hs0, h⟩ := file_counts (fun _ => 0) Layout.usual_frames
  obtain ⟨s, l, hs, -, halive⟩ := boot_inv (fun _ => 0) Layout.usual_frames
  cases hs0.symm.trans hs
  obtain ⟨-, -, -, -, hstep, -⟩ := h [] s₀ .nil
  obtain ⟨s₁, hs1⟩ := hstep (.openFile initproc false true true) halive nofun
  exact ⟨s₀, s₁, hs0, hs1, (h [.openFile initproc false true true] s₁ (.snoc .nil hs1)).1⟩

end Xv6.Vm
