import Xv6.Vm.Copy

/-!
# The memory of a process

`allocproc`, `freeproc` and `growproc` of `kernel/proc.c`, with the memory they
allocate and free. `ProcOk L m p` says that the trapframe and the page table of
`p` are in place, and `procPages m p` are the pages it owns: the trapframe, the
pages of the page table, and the user pages.
-/

namespace Xv6.Vm

open Framework Multiset Option

/-- `struct proc` with its pointers to memory. -/
structure MProc extends Proc where
  trapframe : Nat := 0
  pagetable : Nat := 0

/-- The process with another page table and size. -/
def MProc.remap (p : MProc) (pagetable sz : Nat) : MProc := { p with pagetable := pagetable, sz := sz }

/-- The process with another size. -/
def MProc.resize (p : MProc) (sz : Nat) : MProc := { p with sz := sz }

variable (L : Layout)

/-- `freeproc`. -/
def freeproc (k : Kmem) (p : MProc) : Option (Kmem × MProc) := do
  let k ← if p.trapframe ≠ 0 then kfree L k p.trapframe else some k
  let k ← if p.pagetable ≠ 0 then procFreepagetable L k p.pagetable p.sz else some k
  some (k, { toProc := p.toProc.freeproc, trapframe := 0, pagetable := 0 })

/-- `allocproc` on the unused slot `p`: whether it succeeds. -/
def allocproc (k : Kmem) (p : MProc) (pid ticks : Word) : Option (Bool × Kmem × MProc) :=
  let p := { p with toProc := p.toProc.take pid }
  match kalloc k with
  | (none, k) => do
    let (k, p) ← freeproc L k { p with trapframe := 0 }
    some (false, k, p)
  | (some trapframe, k) => do
    let (pagetable, k) ← procPagetable L k trapframe
    match pagetable with
    | none =>
      let (k, p) ← freeproc L k { p with trapframe := trapframe, pagetable := 0 }
      some (false, k, p)
    | some pagetable =>
      some (true, k, { toProc := p.toProc.allocproc pid ticks, trapframe := trapframe, pagetable := pagetable })

/-- `growproc`: whether it succeeds. The sizes are added as `uint`. -/
def growproc (k : Kmem) (p : MProc) (n : Word) : Option (Bool × Kmem × MProc) :=
  let sz := BitVec.ofNat 32 p.sz
  if 0 < n.toInt then do
    let (r, k) ← uvmalloc L k p.pagetable sz.toNat (sz + n).toNat
    if r % 2 ^ 32 = 0 then some (false, k, p)
    else some (true, k, p.resize (r % 2 ^ 32))
  else if n.toInt < 0 then do
    let (r, k) ← uvmdealloc L k p.pagetable sz.toNat (sz + n).toNat
    some (true, k, p.resize (r % 2 ^ 32))
  else some (true, k, p.resize sz.toNat)

namespace MProc

/-- The page of the trapframe. -/
def tfPage (p : MProc) : Nat := p.trapframe / 4096

/-- The root page of the page table. -/
def root (p : MProc) : Nat := p.pagetable / 4096

/-- The virtual pages of the process. -/
def vpages (p : MProc) : Finset Nat := Finset.range (npages p.sz)

end MProc

/-- The pages of the page table of `p`, and the user pages it maps. -/
def spacePages (m : Bytes) (p : MProc) : Multiset Nat := tables m p.root + userPages m p.root p.vpages

/-- The pages `p` owns. -/
def procPages (m : Bytes) (p : MProc) : Multiset Nat := p.tfPage ::ₘ spacePages m p

/-- The memory of a process is in place. -/
structure ProcOk (m : Bytes) (p : MProc) : Prop where
  trapframe : p.trapframe = 4096 * p.tfPage
  pagetable : p.pagetable = 4096 * p.root
  space : Space m p.root (fun _ => True) p.vpages (procFixed L p.tfPage)

variable {L} {k k' : Kmem} {l l' : List Nat} {m m' : Bytes} {p : MProc} {T : Multiset Nat}

theorem ProcOk.frame (h : ProcOk L m p) {S : Multiset Nat} (hf : Frame S m m')
    (hS : ∀ q ∈ procPages m p, q ∉ S) : ProcOk L m' p ∧ procPages m' p = procPages m p := by
  obtain ⟨h1, h2, h3⟩ := h.space.frame hf fun q hq =>
    hS q (mem_cons_of_mem (mem_add.mpr (.inl hq)))
  refine ⟨⟨h.trapframe, h.pagetable, h1⟩, ?_⟩
  rw [procPages, procPages, spacePages, spacePages, h2, h3]

/-- The space of a process together with the free list. -/
theorem ProcOk.holds (h : ProcOk L k.mem p) (hfree : k.Free l) :
    Holds k l p.root (fun _ => True) p.vpages (procFixed L p.tfPage) (l + spacePages k.mem p) :=
  ⟨hfree, h.space, rfl⟩

theorem ProcOk.of_holds {n tf : Nat} (h : Holds k l n (fun _ => True) (Finset.range (npages p.sz)) (procFixed L tf) T)
    (ht : p.trapframe = 4096 * tf) (hp : p.pagetable = 4096 * n) :
    ProcOk L k.mem p ∧ l + procPages k.mem p = tf ::ₘ T := by
  have ht' : p.tfPage = tf := by rw [MProc.tfPage, ht, Nat.mul_div_cancel_left tf (by decide)]
  have hp' : p.root = n := by rw [MProc.root, hp, Nat.mul_div_cancel_left n (by decide)]
  refine ⟨⟨by rw [ht', ht], by rw [hp', hp], ?_⟩, ?_⟩
  · rw [ht', hp']
    exact h.space
  · rw [procPages, spacePages, ht', hp', add_cons, MProc.vpages, h.total]

/-! ## `freeproc` -/

theorem freeproc_eq (k : Kmem) (p : MProc) : freeproc L k p =
    (if p.trapframe ≠ 0 then kfree L k p.trapframe else some k).bind fun k =>
      (if p.pagetable ≠ 0 then procFreepagetable L k p.pagetable p.sz else some k).bind fun k =>
        some (k, { toProc := p.toProc.freeproc, trapframe := 0, pagetable := 0 }) := by
  rw [freeproc]
  by_cases h1 : p.trapframe = 0 <;> by_cases h2 : p.pagetable = 0 <;> simp [h1, h2]

/-- `freeproc` of a process frees all it owns. -/
theorem freeproc_free (h : ProcOk L k.mem p) (hfree : k.Free l) (hT : l + procPages k.mem p ≤ L.frames.val) :
    ∃ k' l', freeproc L k p = some (k', { toProc := p.toProc.freeproc, trapframe := 0, pagetable := 0 }) ∧
      k'.Free l' ∧ (l' : Multiset Nat) = l + procPages k.mem p ∧ Frame (l + procPages k.mem p) k.mem k'.mem := by
  rw [procPages, add_cons] at hT
  have htf : p.tfPage ∈ L.frames := mem_of_le hT (mem_cons_self _ _)
  have hroot : p.root ∈ L.frames := mem_of_le hT (mem_cons_of_mem
    (mem_add.mpr (.inr (mem_add.mpr (.inl Radix.mem_pages_self)))))
  have htf0 := Layout.pos_of_mem htf
  have hroot0 := Layout.pos_of_mem hroot
  have h1 : p.trapframe ≠ 0 := by rw [h.trapframe]; omega
  have h2 : p.pagetable ≠ 0 := by rw [h.pagetable]; omega
  obtain ⟨k1, hk1, hf1, hh1⟩ := (h.holds hfree).kfree hT
  obtain ⟨k', l', hk', hfree', hl', hf'⟩ := procFreepagetable_free hh1 hT
  refine ⟨k', l', ?_, hfree', ?_, ?_⟩
  · rw [freeproc_eq, if_pos h1, h.trapframe, hk1, bind_some, if_pos h2, h.pagetable, hk', bind_some]
  · rw [hl', procPages, add_cons]
  · rw [procPages, add_cons]
    exact (hf1.mono (singleton_le.mpr (mem_cons_self _ _))).trans hf'

/-! ## `allocproc` -/

/-- `allocproc` gives the slot a trapframe and an empty address space, or frees
what it has allocated. It needs six pages at most. -/
theorem allocproc_holds (pid ticks : Word) (hp : p.pagetable = 0) (hfree : k.Free l)
    (hT : (l : Multiset Nat) ≤ L.frames.val) :
    ∃ ok k' p' l', allocproc L k p pid ticks = some (ok, k', p') ∧ Frame l k.mem k'.mem ∧
      (ok = false ∧ k'.Free l' ∧ (l' : Multiset Nat) = l ∧
          p' = { toProc := (p.toProc.take pid).freeproc, trapframe := 0, pagetable := 0 } ∧ l.length ≤ 6 ∨
        ok = true ∧ ∃ tf n T, (l : Multiset Nat) = tf ::ₘ T ∧
          p' = { toProc := (p.toProc.take pid).allocproc pid ticks, trapframe := 4096 * tf, pagetable := 4096 * n } ∧
          Holds k' l' n (fun _ => True) ∅ (procFixed L tf) T ∧ l.length ≤ l'.length + 6) := by
  rw [allocproc]
  cases l with
  | nil =>
    refine ⟨false, k, _, [], ?_, Frame.rfl', .inl ⟨rfl, hfree, rfl, rfl, Nat.zero_le 6⟩⟩
    rw [kalloc_nil hfree]
    simp [freeproc_eq, hp]
  | cons tf l =>
    have hnodup := coe_nodup.mp (nodup_of_le hT L.frames.nodup)
    obtain ⟨htfl, -⟩ := List.nodup_cons.mp hnodup
    obtain ⟨k1, hk1, hfree1, hf1⟩ := kalloc_cons hfree htfl
    have htf : tf ∈ L.frames := mem_of_le hT (mem_coe.mpr List.mem_cons_self)
    have htf0 := Layout.pos_of_mem htf
    have hlt := Layout.lt_of_mem htf
    have hT1 : (l : Multiset Nat) ≤ L.frames.val := (le_cons_self _ tf).trans hT
    have hle : ({tf} : Multiset Nat) ≤ (tf :: l : List Nat) :=
      singleton_le.mpr (mem_coe.mpr List.mem_cons_self)
    obtain ⟨r, k2, l2, hk2, hf2, hcase⟩ := procPagetable_holds (P := fun _ => True) hfree1 hT1 (show tf < 2 ^ 44 by omega)
    have hframe : Frame (tf :: l : List Nat) k.mem k2.mem :=
      (hf1.mono hle).trans (hf2.mono (le_cons_self _ tf))
    simp only [hk1, hk2, bind_eq_bind, bind_some]
    rcases hcase with ⟨rfl, hfree2, hl2, hlen⟩ | ⟨n, hn, rfl, hh, hlen⟩
    · obtain ⟨k3, hk3, hfree3, hf3⟩ := kfree_ok hfree2 (by rw [hl2]; exact hT)
      refine ⟨false, k3, _, tf :: l2, ?_, hframe.trans (hf3.mono hle), .inl ⟨rfl, hfree3, ?_, rfl, ?_⟩⟩
      · have hne : 4096 * tf ≠ 0 := by omega
        rw [freeproc_eq]
        simp only [if_pos hne, hk3, ne_eq, not_true_eq_false, if_false, bind_some]
      · rw [← cons_coe, hl2, cons_coe]
      · rw [List.length_cons]
        omega
    · refine ⟨true, k2, _, l2, rfl, hframe, .inr ⟨rfl, tf, n, l, rfl, rfl, hh, ?_⟩⟩
      rw [List.length_cons]
      omega

/-! ## `growproc` -/

theorem ProcOk.resize {sz : Nat} (h : ProcOk L m p)
    (h' : Holds k' l' p.root (fun _ => True) (Finset.range (npages sz)) (procFixed L p.tfPage) T) :
    k'.Free l' ∧ ProcOk L k'.mem (p.resize sz) ∧ l' + spacePages k'.mem (p.resize sz) = T :=
  ⟨h'.free, ⟨h.trapframe, h.pagetable, h'.space⟩, h'.total⟩

/-- `growproc` changes the size of the process, and the pages with it. -/
theorem growproc_ok {n : Word} (h : ProcOk L k.mem p) (hfree : k.Free l) (hT : l + spacePages k.mem p ≤ L.frames.val) :
    ∃ ok k' l' sz', growproc L k p n = some (ok, k', p.resize sz') ∧
      Frame (l + spacePages k.mem p) k.mem k'.mem ∧ k'.Free l' ∧ ProcOk L k'.mem (p.resize sz') ∧
      l' + spacePages k'.mem (p.resize sz') = l + spacePages k.mem p := by
  have hh := h.holds hfree
  have hmod : ∀ {k' : Kmem} {l' : List Nat} {sz : Nat},
      Holds k' l' p.root (fun _ => True) (Finset.range (npages sz)) (procFixed L p.tfPage) (l + spacePages k.mem p) →
      sz % 2 ^ 32 = sz := fun h' => by
    have := h'.user_le hT
    simp only [npages] at this
    omega
  have hsz : (BitVec.ofNat 32 p.sz).toNat = p.sz := (BitVec.toNat_ofNat _ _).trans (hmod hh)
  have hfix : ∀ w < 2 ^ 26 - 2, procFixed L p.tfPage w = none := fun w hw => procFixed_of_lt hw
  simp only [growproc, hsz]
  split
  · obtain ⟨r, k', l', hk', hf', hcase⟩ := uvmalloc_holds (BitVec.ofNat 32 p.sz + n).toNat hh hT hfix
      fun _ => trivial
    rw [← h.pagetable] at hk'
    simp only [hk', bind_eq_bind, bind_some]
    rcases hcase with ⟨rfl, h', -⟩ | ⟨rfl, h', -⟩
    · rw [hmod h']
      split
      · rename_i hzero
        have hp : p.sz = 0 := by omega
        rw [hzero, ← hp] at h'
        exact ⟨false, k', l', p.sz, rfl, hf', h.resize h'⟩
      · exact ⟨true, k', l', _, rfl, hf', h.resize h'⟩
    · rw [if_pos (by decide)]
      exact ⟨false, k', l', p.sz, rfl, hf', h.resize h'⟩
  · split
    · obtain ⟨k', l', hk', hf', h', -⟩ := uvmdealloc_holds (BitVec.ofNat 32 p.sz + n).toNat hh hT hfix
      rw [← h.pagetable] at hk'
      simp only [hk', bind_eq_bind, bind_some]
      rw [hmod h']
      exact ⟨true, k', l', _, rfl, hf', h.resize h'⟩
    · exact ⟨true, k, l, p.sz, rfl, Frame.rfl', h.resize hh⟩

end Xv6.Vm
