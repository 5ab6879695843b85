import Xv6.Framework.Owns
import Xv6.Vm.Calls

/-!
# The invariant of physical memory

Every page of the allocator has one owner: the free list, the kernel, a process
(as its trapframe, in its page table or as user memory) or a pipe. `Inv L s l E`
says so of the kernel `s` with free list `l`; `E` are the references to files
that a call holds and no descriptor has. `Inv.set` and `Inv.setFile` say what a
call may do to one process or to the files, and every system call is a sequence
of such changes.
-/

namespace Xv6.Vm

open Framework Machine Function Multiset

/-! ## References to files -/

/-- The references of a table of descriptors. -/
def held (ofile : Fin NOFILE → Option Nat) : Multiset Nat := ∑ fd, (ofile fd).elim 0 ({·})

/-- The references of the processes. -/
def refs (proc : Slot → MProc) : Multiset Nat := ∑ i, held (proc i).ofile

theorem held_none : held (fun _ => none) = 0 := Finset.sum_const_zero

theorem held_update (ofile : Fin NOFILE → Option Nat) (fd : Fin NOFILE) (f : Option Nat) :
    held (update ofile fd f) + (ofile fd).elim 0 ({·}) = held ofile + f.elim 0 ({·}) := by
  simp only [held, Function.apply_update fun _ (o : Option Nat) => (o.elim 0 ({·}) : Multiset Nat)]
  exact sum_update_add _ fd _

theorem refs_update (proc : Slot → MProc) (i : Slot) (p : MProc) :
    refs (update proc i p) + held (proc i).ofile = refs proc + held p.ofile := by
  simp only [refs, Function.apply_update fun _ (q : MProc) => held q.ofile]
  exact sum_update_add _ i _

theorem mem_held {ofile : Fin NOFILE → Option Nat} {fd : Fin NOFILE} {f : Nat} (h : ofile fd = some f) :
    f ∈ held ofile := by
  have := held_update ofile fd none
  rw [h, Option.elim_some, Option.elim_none, add_zero] at this
  rw [← this]
  exact mem_add.mpr (.inr (mem_singleton_self f))

theorem held_le_refs (proc : Slot → MProc) (i : Slot) : held (proc i).ofile ≤ refs proc :=
  Finset.single_le_sum (f := fun i => held (proc i).ofile) (fun _ _ => Multiset.zero_le _) (Finset.mem_univ i)

attribute [irreducible] held refs

/-! ## The invariant -/

/-- The pages of a slot. -/
def slotPages (m : Bytes) (p : MProc) : Multiset Nat := if p.state = .unused then 0 else procPages m p

/-- A slot is that of a process, or it is free. -/
structure SlotOk (L : Layout) (m : Bytes) (p : MProc) : Prop where
  ok : p.state ≠ .unused → ProcOk L m p
  unused : p.state = .unused → p.pagetable = 0 ∧ p.sz = 0
  closed : p.state = .unused ∨ p.state = .zombie → p.ofile = fun _ => none

/-- The pages of the kernel's page table and of the kernel stacks. -/
def kernelPages (m : Bytes) (pagetable : Nat) : Multiset Nat :=
  tables m (pagetable / 4096) + userPages m (pagetable / 4096) (kstacks NPROC)

/-- The kernel's page table is as `kvmmake` has left it. -/
def KernelOk (L : Layout) (m : Bytes) (pagetable : Nat) : Prop :=
  Space m (pagetable / 4096) ForKernel (kstacks NPROC) (kernelFixed L)

/-- Every page has one owner, and every reference to a file is a descriptor of
a process, or in `E`. -/
structure Inv (L : Layout) (s : Sys) (l : List Nat) (E : Multiset Nat) : Prop where
  free : s.kmem.Free l
  kernel : KernelOk L s.kmem.mem s.kernelPagetable
  slot : ∀ i, SlotOk L s.kmem.mem (s.proc i)
  files : FilesOk s.kmem.mem s.file (refs s.proc + E)
  total : l + (kernelPages s.kmem.mem s.kernelPagetable + (∑ i, slotPages s.kmem.mem (s.proc i) + pipePages s.file)) = L.frames.val

variable {L : Layout} {s s' : Sys} {k k' : Kmem} {l l' : List Nat} {m m' : Bytes} {p p' : MProc} {i : Slot}
  {E E' S : Multiset Nat} {ft ft' : Ftable} {f : Nat} {fd : Fin NOFILE}

theorem slotPages_of_ne (h : p.state ≠ .unused) : slotPages m p = procPages m p := if_neg h

theorem slotPages_of_unused (h : p.state = .unused) : slotPages m p = 0 := if_pos h

theorem state_ne_unused (h : Alive p.toProc) : p.state ≠ .unused := by
  rcases h with h | h | h <;> rw [h] <;> decide

theorem state_ne_zombie (h : Alive p.toProc) : p.state ≠ .zombie := by
  rcases h with h | h | h <;> rw [h] <;> decide

theorem SlotOk.frame (h : SlotOk L m p) (hf : Frame S m m') (hS : ∀ q ∈ slotPages m p, q ∉ S) :
    SlotOk L m' p ∧ slotPages m' p = slotPages m p := by
  by_cases hu : p.state = .unused
  · exact ⟨⟨fun hne => absurd hu hne, h.unused, h.closed⟩, by rw [slotPages_of_unused hu, slotPages_of_unused hu]⟩
  · rw [slotPages_of_ne hu] at hS
    obtain ⟨hok, hpages⟩ := (h.ok hu).frame hf hS
    exact ⟨⟨fun _ => hok, h.unused, h.closed⟩, by rw [slotPages_of_ne hu, slotPages_of_ne hu, hpages]⟩

theorem ProcOk.congr (h : ProcOk L m p) (ht : p'.trapframe = p.trapframe) (hp : p'.pagetable = p.pagetable)
    (hs : p'.sz = p.sz) : ProcOk L m p' := by
  have htf : p'.tfPage = p.tfPage := by rw [MProc.tfPage, ht, MProc.tfPage]
  have hroot : p'.root = p.root := by rw [MProc.root, hp, MProc.root]
  have hv : p'.vpages = p.vpages := by rw [MProc.vpages, hs, MProc.vpages]
  refine ⟨by rw [ht, htf]; exact h.trapframe, by rw [hp, hroot]; exact h.pagetable, ?_⟩
  rw [hroot, hv, htf]
  exact h.space

theorem KernelOk.frame {pagetable : Nat} (h : KernelOk L m pagetable) (hf : Frame S m m')
    (hS : ∀ q ∈ kernelPages m pagetable, q ∉ S) :
    KernelOk L m' pagetable ∧ kernelPages m' pagetable = kernelPages m pagetable := by
  obtain ⟨h1, h2, h3⟩ := Space.frame h hf fun q hq => hS q (mem_add.mpr (.inl hq))
  exact ⟨h1, by rw [kernelPages, h2, h3, kernelPages]⟩

/-- A process whose descriptors do not matter. -/
theorem SlotOk.of_alive (h : ProcOk L m p) (ha : p.state ≠ .unused) (hz : p.state ≠ .zombie) : SlotOk L m p :=
  ⟨fun _ => h, fun hu => absurd hu ha, fun hc => (hc.elim ha hz).elim⟩

theorem reparent_cases (proc : Slot → MProc) (i j : Slot) :
    reparent proc i j = proc j ∨ reparent proc i j = { proc j with parent := some initproc } := by
  rw [reparent]
  split
  · exact .inr rfl
  · exact .inl rfl

namespace Inv

/-- The pages of one slot, and those of the others. -/
theorem split (h : Inv L s l E) (i : Slot) :
    (l + slotPages s.kmem.mem (s.proc i)) + (kernelPages s.kmem.mem s.kernelPagetable + (∑ j ∈ Finset.univ.erase i, slotPages s.kmem.mem (s.proc j) +
      pipePages s.file)) = L.frames.val := by
  rw [← h.total, ← Finset.add_sum_erase Finset.univ (fun j => slotPages s.kmem.mem (s.proc j)) (Finset.mem_univ i)]
  abel

theorem notMem_of_mem (h : Inv L s l E) {q : Nat} (hq : q ∈ kernelPages s.kmem.mem s.kernelPagetable + (∑ j ∈ Finset.univ.erase i,
    slotPages s.kmem.mem (s.proc j) + pipePages s.file)) : q ∉ l + slotPages s.kmem.mem (s.proc i) := by
  have hnd := L.frames.nodup
  rw [← h.split i] at hnd
  exact disjoint_right.mp (nodup_add.mp hnd).2.2 hq

/-- Two processes have no page in common. -/
theorem slots_disjoint (h : Inv L s l E) {j : Slot} (hj : j ≠ i) :
    ∀ q ∈ slotPages s.kmem.mem (s.proc j), q ∉ l + slotPages s.kmem.mem (s.proc i) := fun q hq => by
  have hle := Finset.single_le_sum (f := fun j => slotPages s.kmem.mem (s.proc j)) (fun _ _ => Multiset.zero_le _)
    (Finset.mem_erase.mpr ⟨hj, Finset.mem_univ j⟩)
  exact h.notMem_of_mem (mem_add.mpr (.inr (mem_add.mpr (.inl (mem_of_le hle hq)))))

/-- A call has changed the pages and the descriptors of one process, and the
free list. -/
theorem set (h : Inv L s l E) (hf : Frame (l + slotPages s.kmem.mem (s.proc i)) s.kmem.mem k'.mem) (hfree : k'.Free l')
    (hslot : SlotOk L k'.mem p') (htot : l' + slotPages k'.mem p' = l + slotPages s.kmem.mem (s.proc i))
    (hrefs : held p'.ofile + E' = held (s.proc i).ofile + E) : Inv L (s.setProc k' i p') l' E' := by
  have hother : ∀ j, j ≠ i → SlotOk L k'.mem (s.proc j) ∧
      slotPages k'.mem (s.proc j) = slotPages s.kmem.mem (s.proc j) := fun j hj =>
    (h.slot j).frame hf (h.slots_disjoint hj)
  obtain ⟨hkernel, hkpages⟩ := h.kernel.frame hf fun q hq => h.notMem_of_mem (mem_add.mpr (.inl hq))
  refine ⟨hfree, hkernel, fun j => ?_, ?_, ?_⟩
  · by_cases hj : j = i
    · subst hj
      rw [Sys.setProc_self]
      exact hslot
    · rw [Sys.setProc_of_ne hj]
      exact (hother j hj).1
  · have hrefs' : refs (update s.proc i p') + E' = refs s.proc + E := by
      refine add_right_cancel (b := held (s.proc i).ofile) ?_
      rw [add_right_comm, refs_update, add_assoc, hrefs]
      abel
    rw [Sys.setProc, hrefs']
    exact h.files.frame hf fun q hq =>
      h.notMem_of_mem (mem_add.mpr (.inr (mem_add.mpr (.inr hq))))
  · have hsum := Finset.add_sum_erase Finset.univ (fun j => slotPages k'.mem (update s.proc i p' j))
      (Finset.mem_univ i)
    rw [Finset.sum_congr rfl fun j hj => by
      rw [update_of_ne (Finset.ne_of_mem_erase hj), (hother j (Finset.ne_of_mem_erase hj)).2],
      update_self] at hsum
    rw [Sys.setProc, ← hsum, hkpages, ← h.split i, ← htot]
    abel

/-- A call has changed the descriptors of one process. -/
theorem setOfile (h : Inv L s l E) (hslot : SlotOk L s.kmem.mem p')
    (hpages : slotPages s.kmem.mem p' = slotPages s.kmem.mem (s.proc i))
    (hrefs : held p'.ofile + E' = held (s.proc i).ofile + E) : Inv L (s.setProc s.kmem i p') l E' :=
  h.set Frame.rfl' h.free hslot (by rw [hpages]) hrefs

theorem slot_set (h : Inv L (s.setProc k i p) l E) : SlotOk L k.mem p := by
  have hslot := h.slot i
  rwa [Sys.setProc_self] at hslot

/-- A call has changed the descriptors of the slot that it has set. -/
theorem reset (h : Inv L (s.setProc k i p) l E) (hslot : SlotOk L k.mem p')
    (hpages : slotPages k.mem p' = slotPages k.mem p) (hrefs : held p'.ofile + E' = held p.ofile + E) :
    Inv L (s.setProc k i p') l E' := by
  have h' := h.setOfile (i := i) hslot (by rwa [Sys.setProc_self]) (by rwa [Sys.setProc_self])
  rwa [Sys.setProc_setProc] at h'

/-- A call has changed the contents of pages of one process, or freed some. -/
theorem setKmem (h : Inv L s l E) (hi : (s.proc i).state ≠ .unused)
    (hf : Frame (l + procPages s.kmem.mem (s.proc i)) s.kmem.mem k'.mem) (hfree : k'.Free l')
    (hok : ProcOk L k'.mem (s.proc i))
    (htot : l' + procPages k'.mem (s.proc i) = l + procPages s.kmem.mem (s.proc i)) : Inv L (s.setKmem k') l' E := by
  rw [← Sys.setProc_eq_self s k' i]
  refine h.set ?_ hfree ⟨fun _ => hok, (h.slot i).unused, (h.slot i).closed⟩ ?_ rfl
  · rwa [slotPages_of_ne hi]
  · rwa [slotPages_of_ne hi, slotPages_of_ne hi]

/-- A call has changed the table in ways that do not matter to memory. -/
theorem setTable (h : Inv L s l E) {proc : Slot → MProc} (hslot : ∀ i, SlotOk L s.kmem.mem (proc i))
    (hpages : ∀ i, slotPages s.kmem.mem (proc i) = slotPages s.kmem.mem (s.proc i))
    (hofile : ∀ i, (proc i).ofile = (s.proc i).ofile) : Inv L { s with proc := proc } l E := by
  refine ⟨h.free, h.kernel, hslot, ?_, ?_⟩
  · have hrefs : refs proc = refs s.proc := by
      rw [refs, refs]
      exact Finset.sum_congr rfl fun i _ => by rw [hofile]
    rw [hrefs]
    exact h.files
  · rw [Finset.sum_congr rfl fun i _ => hpages i]
    exact h.total

/-- A call has changed the files, and their pages. -/
theorem setFile (h : Inv L s l E) (hf : Frame (l + pipePages s.file) s.kmem.mem k'.mem) (hfree : k'.Free l')
    (hfiles : FilesOk k'.mem ft' (refs s.proc + E'))
    (htot : (l' : Multiset Nat) + pipePages ft' = l + pipePages s.file) : Inv L (s.setFile k' ft') l' E' := by
  have htotal : (l + pipePages s.file) + (kernelPages s.kmem.mem s.kernelPagetable + ∑ i, slotPages s.kmem.mem (s.proc i)) = L.frames.val := by
    rw [← h.total]
    abel
  have hnd : ((l + pipePages s.file) + (kernelPages s.kmem.mem s.kernelPagetable + ∑ i, slotPages s.kmem.mem (s.proc i))).Nodup := by
    rw [htotal]
    exact L.frames.nodup
  have hslot : ∀ i, SlotOk L k'.mem (s.proc i) ∧
      slotPages k'.mem (s.proc i) = slotPages s.kmem.mem (s.proc i) := fun i => by
    refine (h.slot i).frame hf fun q hq => disjoint_right.mp (nodup_add.mp hnd).2.2 ?_
    have hle : slotPages s.kmem.mem (s.proc i) ≤ ∑ j, slotPages s.kmem.mem (s.proc j) :=
      Finset.single_le_sum (f := fun j => slotPages s.kmem.mem (s.proc j)) (fun _ _ => Multiset.zero_le _)
        (Finset.mem_univ i)
    exact mem_add.mpr (.inr (mem_of_le hle hq))
  obtain ⟨hkernel, hkpages⟩ := h.kernel.frame hf fun q hq =>
    disjoint_right.mp (nodup_add.mp hnd).2.2 (mem_add.mpr (.inl hq))
  refine ⟨hfree, hkernel, fun i => (hslot i).1, hfiles, ?_⟩
  have hsum : ∑ i, slotPages k'.mem (s.proc i) = ∑ i, slotPages s.kmem.mem (s.proc i) :=
    Finset.sum_congr rfl fun i _ => (hslot i).2
  simp only [Sys.setFile]
  rw [hsum, hkpages, ← htotal, ← htot]
  abel

theorem slot_le (h : Inv L s l E) (i : Slot) : l + slotPages s.kmem.mem (s.proc i) ≤ L.frames.val := by
  rw [← h.total]
  refine add_le_add_right ((Finset.single_le_sum (f := fun j => slotPages s.kmem.mem (s.proc j))
    (fun _ _ => Multiset.zero_le _) (Finset.mem_univ i)).trans ?_) _
  exact (Multiset.le_add_right _ _).trans (Multiset.le_add_left _ _)

theorem proc_le (h : Inv L s l E) (hi : (s.proc i).state ≠ .unused) :
    l + procPages s.kmem.mem (s.proc i) ≤ L.frames.val := by
  rw [← slotPages_of_ne hi]
  exact h.slot_le i

theorem pipe_le (h : Inv L s l E) : l + pipePages s.file ≤ L.frames.val := by
  rw [← h.total]
  exact add_le_add_right ((Multiset.le_add_left _ _).trans (Multiset.le_add_left _ _)) _

/-! ## Files -/

theorem fileclose (h : Inv L s l (f ::ₘ E)) :
    ∃ k' ft' l', Vm.fileclose L s.kmem s.file f = some (k', ft') ∧ Inv L (s.setFile k' ft') l' E ∧
      (l' : Multiset Nat) + pipePages ft' = l + pipePages s.file := by
  have hfiles := h.files
  rw [add_cons] at hfiles
  obtain ⟨k', ft', l', hk', hok, hfree, htot, hf⟩ := fileclose_ok hfiles h.free h.pipe_le
  exact ⟨k', ft', l', hk', h.setFile hf hfree hok htot, htot⟩

theorem pipealloc (h : Inv L s l E) :
    ∃ r k' ft' l', Vm.pipealloc L s.kmem s.file = some (r, k', ft') ∧
      (r = none ∧ Inv L (s.setFile k' ft') l' E ∨
        ∃ rf wf, r = some (rf, wf) ∧ Inv L (s.setFile k' ft') l' (rf ::ₘ wf ::ₘ E)) ∧
      (l' : Multiset Nat) + pipePages ft' = l + pipePages s.file ∧ Typed s.file ft' := by
  obtain ⟨r, k', ft', l', hk', hfree, htot, hf, hcase, hty⟩ := pipealloc_ok h.files h.free h.pipe_le
  refine ⟨r, k', ft', l', hk', hcase.imp (fun hc => ⟨hc.1, h.setFile hf hfree hc.2 htot⟩) ?_, htot, hty⟩
  rintro ⟨rf, wf, hr, hok⟩
  exact ⟨rf, wf, hr, h.setFile hf hfree (by rwa [add_cons, add_cons]) htot⟩

theorem filedup (h : Inv L s l E) (hf : f ∈ refs s.proc) :
    ∃ ft', Vm.filedup s.file f = some ft' ∧ Inv L { s with file := ft' } l (f ::ₘ E) ∧
      pipePages ft' = pipePages s.file ∧ Typed s.file ft' := by
  obtain ⟨ft', hft', hok, hpages, hty⟩ := filedup_ok h.files (mem_add.mpr (.inl hf))
  refine ⟨ft', hft', h.setFile Frame.rfl' h.free ?_ (by rw [hpages]), hpages, hty⟩
  rwa [add_cons]

/-- A call that works on a copy `p` of the caller's slot gives it a reference. -/
theorem giveFd_set (h : Inv L (s.setProc k i p) l (f ::ₘ E)) (hp : Alive p.toProc) (hfd : p.ofile fd = none) :
    Inv L (s.setProc k i (p.setFd fd (some f))) l E := by
  have hu := state_ne_unused hp
  refine h.reset (.of_alive ((h.slot_set.ok hu).congr rfl rfl rfl) hu (state_ne_zombie hp)) rfl ?_
  have := held_update p.ofile fd (some f)
  rw [hfd, Option.elim_none, add_zero, Option.elim_some] at this
  rw [MProc.setFd, this, add_assoc, singleton_add]

/-- A call that works on a copy `p` of the caller's slot takes a reference from it. -/
theorem takeFd_set (h : Inv L (s.setProc k i p) l E) (hp : Alive p.toProc) (hfd : p.ofile fd = some f) :
    Inv L (s.setProc k i (p.setFd fd none)) l (f ::ₘ E) := by
  have hu := state_ne_unused hp
  refine h.reset (.of_alive ((h.slot_set.ok hu).congr rfl rfl rfl) hu (state_ne_zombie hp)) rfl ?_
  have := held_update p.ofile fd none
  rw [hfd, Option.elim_none, add_zero, Option.elim_some] at this
  rw [MProc.setFd, ← this, add_assoc, singleton_add]

theorem giveFd (h : Inv L s l (f ::ₘ E)) (hp : Alive (s.proc i).toProc) (hfd : (s.proc i).ofile fd = none) :
    Inv L (s.setProc s.kmem i ((s.proc i).setFd fd (some f))) l E :=
  giveFd_set (by rwa [Sys.setProc_eq_self]) hp hfd

theorem takeFd (h : Inv L s l E) (hp : Alive (s.proc i).toProc) (hfd : (s.proc i).ofile fd = some f) :
    Inv L (s.setProc s.kmem i ((s.proc i).setFd fd none)) l (f ::ₘ E) :=
  takeFd_set (by rwa [Sys.setProc_eq_self]) hp hfd

/-! ## User memory -/

theorem space_le (h : Inv L s l E) (hi : (s.proc i).state ≠ .unused) :
    l + spacePages s.kmem.mem (s.proc i) ≤ L.frames.val :=
  (add_le_add_right (le_cons_self _ _) _).trans (h.proc_le hi)

/-- A call has changed the contents of user pages. -/
theorem setSpace (h : Inv L s l E) (hi : (s.proc i).state ≠ .unused)
    (hf : Frame (l + spacePages s.kmem.mem (s.proc i)) s.kmem.mem k'.mem)
    (hh : Holds k' l' (s.proc i).root (fun _ => True) (s.proc i).vpages (procFixed L (s.proc i).tfPage)
      (l + spacePages s.kmem.mem (s.proc i))) : Inv L (s.setKmem k') l' E := by
  have hok := (h.slot i).ok hi
  obtain ⟨hok', htot⟩ := ProcOk.of_holds hh hok.trapframe hok.pagetable
  refine h.setKmem hi (hf.mono (add_le_add_right (le_cons_self _ _) _)) hh.free hok' ?_
  rw [htot, procPages, add_cons]

theorem copyout (h : Inv L s l E) (hi : (s.proc i).state ≠ .unused) (va : Nat) (src : Bytes) (len : Nat) :
    Inv L (s.setKmem (Vm.copyout s.kmem (s.proc i).pagetable va src len).2) l E := by
  obtain ⟨hf, hh⟩ := (((h.slot i).ok hi).holds h.free).copyout (h.space_le hi) va src len
  rw [← ((h.slot i).ok hi).pagetable] at hf hh
  exact h.setSpace hi hf hh

theorem copyout_set (h : Inv L (s.setProc k i p) l E) (hi : p.state ≠ .unused) (va : Nat) (src : Bytes) (len : Nat) :
    Inv L (s.setProc (Vm.copyout k p.pagetable va src len).2 i p) l E := by
  have hself := s.setProc_self k i p
  have h' := h.copyout (i := i) (by rwa [hself]) va src len
  rw [hself] at h'
  exact h'

theorem userStore {va : Nat} {b : Byte} (h : Inv L s l E) (hi : (s.proc i).state ≠ .unused) :
    Inv L (Vm.userStore s i va b) l E := by
  have hok := (h.slot i).ok hi
  rw [Vm.userStore]
  split
  · exact h
  rename_i hne
  rw [hok.pagetable] at hne ⊢
  obtain ⟨g, hg, hpa⟩ := hok.space.walkaddr_mem hne
  have hf : Frame {g} s.kmem.mem (update s.kmem.mem (4096 * g + va % PGSIZE) b) := fun x hx => by
    refine update_of_ne (fun hc => hx (mem_singleton.mpr ?_)) _ _
    simp only [PGSIZE] at hc
    omega
  obtain ⟨hf', hh⟩ := (hok.holds h.free).write (h.space_le hi) (hf.mono (singleton_le.mpr hg))
  rw [hpa]
  exact h.setSpace hi hf' hh

/-- A call has written to the trapframe. -/
theorem setTrapframe (h : Inv L s l E) (hi : (s.proc i).state ≠ .unused)
    (hf : Frame {(s.proc i).tfPage} s.kmem.mem m') : Inv L (s.setKmem { s.kmem with mem := m' }) l E := by
  have hnd := nodup_of_le (h.proc_le hi) L.frames.nodup
  rw [procPages, add_cons, nodup_cons] at hnd
  have hok := (h.slot i).ok hi
  have hh := (hok.holds h.free).frame_outside hf fun q hq => by
    rw [mem_singleton.mp hq]
    exact hnd.1
  obtain ⟨hok', htot⟩ := ProcOk.of_holds hh hok.trapframe hok.pagetable
  refine h.setKmem hi (hf.mono (singleton_le.mpr ?_)) hh.free hok' ?_
  · exact mem_add.mpr (.inr (mem_cons_self _ _))
  · rw [htot, procPages, add_cons]

theorem saveRegs {regs : Bytes} (h : Inv L s l E) (hi : (s.proc i).state ≠ .unused) :
    Inv L (Vm.saveRegs s i regs) l E := by
  have htf := ((h.slot i).ok hi).trapframe
  exact h.setTrapframe hi (Frame.move (by omega) (by omega))

end Inv

end Xv6.Vm
