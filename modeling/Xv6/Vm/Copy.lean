import Xv6.Vm.Uvm

/-!
# Copies between the kernel and user memory

`walkaddr`, `copyout`, `copyin` and `copyinstr` of `kernel/vm.c`. What the
kernel copies out reaches user pages of the address space only
(`copyout_frame`), since the trampoline and the trapframe are not mapped for
the user.
-/

namespace Xv6.Vm

open Framework

/-- `walkaddr`: the physical address of a user page, or 0. The walk does not
panic below `MAXVA`. -/
def walkaddr (k : Kmem) (pagetable va : Nat) : Nat :=
  if MAXVA ≤ va then 0
  else
    match (walkFrom false 2 k pagetable va).1 with
    | none => 0
    | some pte =>
      let e := read64 k.mem pte
      if e &&& PTE_V = 0 then 0 else if e &&& PTE_U = 0 then 0 else pte2pa e

/-- The loop of `copyout`. Every iteration copies a byte at least, so `len`
iterations are enough. -/
def copyoutLoop (pagetable : Nat) (src : Bytes) : Nat → Kmem → Nat → Nat → Nat → Bool × Kmem
  | 0, k, _, _, len => (len = 0, k)
  | fuel + 1, k, dstva, off, len =>
    if len = 0 then (true, k)
    else
      let va0 := pgrounddown dstva
      let pa0 := walkaddr k pagetable va0
      if pa0 = 0 then (false, k)
      else
        let n := min (PGSIZE - (dstva - va0)) len
        let mem := UserMem.move k.mem (pa0 + (dstva - va0)) src off n
        copyoutLoop pagetable src fuel { k with mem := mem } (va0 + PGSIZE) (off + n) (len - n)

/-- `copyout` of bytes of the kernel: whether it succeeds. -/
def copyout (k : Kmem) (pagetable dstva : Nat) (src : Bytes) (len : Nat) : Bool × Kmem :=
  copyoutLoop pagetable src len k dstva 0 len

/-- The loop of `copyin`: whether it succeeds, and the bytes it copies. -/
def copyinLoop (k : Kmem) (pagetable : Nat) : Nat → Nat → Nat → Bool × List Byte
  | 0, _, len => (len = 0, [])
  | fuel + 1, srcva, len =>
    if len = 0 then (true, [])
    else
      let va0 := pgrounddown srcva
      let pa0 := walkaddr k pagetable va0
      if pa0 = 0 then (false, [])
      else
        let n := min (PGSIZE - (srcva - va0)) len
        let (ok, rest) := copyinLoop k pagetable fuel (va0 + PGSIZE) (len - n)
        (ok, (List.range n).map (fun i => k.mem (pa0 + (srcva - va0) + i)) ++ rest)

/-- `copyin`: whether it succeeds, and the bytes it copies. -/
def copyin (k : Kmem) (pagetable srcva len : Nat) : Bool × List Byte := copyinLoop k pagetable len srcva len

/-- The inner loop of `copyinstr`: the bytes it copies, and whether the last of
them is the terminating zero. -/
def takeStr (m : Bytes) : Nat → Nat → Bool × List Byte
  | _, 0 => (false, [])
  | p, n + 1 => if m p = 0 then (true, [0]) else ((takeStr m (p + 1) n).1, m p :: (takeStr m (p + 1) n).2)

/-- The loop of `copyinstr`. -/
def copyinstrLoop (k : Kmem) (pagetable : Nat) : Nat → Nat → Nat → Bool × List Byte
  | 0, _, _ => (false, [])
  | fuel + 1, srcva, max =>
    if max = 0 then (false, [])
    else
      let va0 := pgrounddown srcva
      let pa0 := walkaddr k pagetable va0
      if pa0 = 0 then (false, [])
      else
        let n := min (PGSIZE - (srcva - va0)) max
        let (gotNull, s) := takeStr k.mem (pa0 + (srcva - va0)) n
        if gotNull then (true, s)
        else
          let (ok, rest) := copyinstrLoop k pagetable fuel (va0 + PGSIZE) (max - n)
          (ok, s ++ rest)

/-- `copyinstr`: whether it succeeds, and the bytes it copies. -/
def copyinstr (k : Kmem) (pagetable srcva max : Nat) : Bool × List Byte := copyinstrLoop k pagetable max srcva max

/-- The bytes of a list. -/
def ofList (s : List Byte) : Bytes := fun i => s.getD i 0

/-! ## Where the bytes go -/

variable {L : Layout} {k k' : Kmem} {l : List Nat} {m : Bytes} {n va : Nat} {P : Pte → Prop} {U : Finset Nat}
  {fixed : Nat → Option Nat} {T : Multiset Nat}

/-- `walkaddr` reads the entry for the page. -/
theorem walkaddr_eq (h : va < MAXVA) : walkaddr k (4096 * n) va = if pteAt k.mem n (va / 4096) &&& PTE_V = 0 then 0
    else if pteAt k.mem n (va / 4096) &&& PTE_U = 0 then 0 else pte2pa (pteAt k.mem n (va / 4096)) := by
  rw [walkaddr, if_neg (Nat.not_le.mpr h), walkFrom_find, px_eq]
  cases hf : Radix.find next (ptes k.mem) 2 n (path (va / 4096)) with
  | none =>
    have hpte : pteAt k.mem n (va / 4096) = 0 := by simp [pteAt, Radix.leaf, hf]
    rw [hpte, if_pos (by decide)]
    rfl
  | some q =>
    have hpte : read64 k.mem (entry q (path (va / 4096) 0)) = pteAt k.mem n (va / 4096) := by
      simp only [pteAt, Radix.leaf, hf, Option.elim_some]
      rfl
    simp [hpte]

/-- `walkaddr` finds user pages only. -/
theorem Space.walkaddr_mem (h : Space k.mem n P U fixed) (hne : walkaddr k (4096 * n) va ≠ 0) :
    ∃ g ∈ userPages k.mem n U, walkaddr k (4096 * n) va = 4096 * g := by
  have hlt : va < MAXVA := by
    by_contra hc
    exact hne (by rw [walkaddr, if_pos (Nat.not_lt.mp hc)])
  rw [walkaddr_eq hlt] at hne ⊢
  split at hne <;> [exact absurd rfl hne; skip]
  rename_i hv
  split at hne <;> [exact absurd rfl hne; skip]
  rename_i hu
  have hU : va / 4096 ∈ U := by
    by_contra hc
    have hrest := h.rest (va / 4096) (by simp only [VPAGES, MAXVA] at hlt ⊢; omega) hc
    cases hfix : fixed (va / 4096) with
    | none => rw [hfix] at hrest; exact hv hrest
    | some pa => rw [hfix] at hrest; exact hu hrest.2.2
  refine ⟨_, Multiset.mem_map_of_mem _ hU, ?_⟩
  rw [if_neg hv, if_neg hu, pte2pa_eq]

/-- `copyout` writes to user pages. -/
theorem copyoutLoop_frame {src : Bytes} {fuel dstva off len : Nat} (h : Space k.mem n P U fixed)
    (hdis : ∀ g ∈ userPages k.mem n U, g ∉ tables k.mem n) :
    let k' := (copyoutLoop (4096 * n) src fuel k dstva off len).2
    Frame (userPages k.mem n U) k.mem k'.mem ∧ k'.freelist = k.freelist := by
  induction fuel generalizing k dstva off len with
  | zero => exact ⟨Frame.rfl', rfl⟩
  | succ fuel ih =>
    simp only [copyoutLoop]
    split
    · exact ⟨Frame.rfl', rfl⟩
    split
    · exact ⟨Frame.rfl', rfl⟩
    rename_i hne
    obtain ⟨g, hg, hpa⟩ := h.walkaddr_mem hne
    rw [hpa]
    have hf : Frame (userPages k.mem n U) k.mem (UserMem.move k.mem (4096 * g + (dstva - pgrounddown dstva)) src off
        (min (PGSIZE - (dstva - pgrounddown dstva)) len)) := by
      refine Frame.mono (Frame.move (n := g) (by omega) ?_) (Multiset.singleton_le.mpr hg)
      simp only [pgrounddown, PGSIZE]
      omega
    generalize UserMem.move k.mem (4096 * g + (dstva - pgrounddown dstva)) src off
      (min (PGSIZE - (dstva - pgrounddown dstva)) len) = m' at hf ⊢
    obtain ⟨h', htab, huser⟩ := h.frame hf fun q hq hqu => hdis q hqu hq
    have hdis' : ∀ g ∈ userPages m' n U, g ∉ tables m' n := by
      rw [htab, huser]
      exact hdis
    obtain ⟨hf', hfl⟩ := ih (k := { k with mem := m' }) h' hdis'
    exact ⟨hf.trans (huser ▸ hf'), hfl⟩

theorem copyout_frame (dstva : Nat) (src : Bytes) (len : Nat) (h : Space k.mem n P U fixed)
    (hdis : ∀ g ∈ userPages k.mem n U, g ∉ tables k.mem n) :
    let k' := (copyout k (4096 * n) dstva src len).2
    Frame (userPages k.mem n U) k.mem k'.mem ∧ k'.freelist = k.freelist :=
  copyoutLoop_frame h hdis

theorem Holds.copyout (h : Holds k l n P U fixed T) (hT : T ≤ L.frames.val) (dstva : Nat) (src : Bytes) (len : Nat) :
    let k' := (Vm.copyout k (4096 * n) dstva src len).2
    Frame T k.mem k'.mem ∧ Holds k' l n P U fixed T := by
  intro k'
  obtain ⟨-, -, hul⟩ := h.disjoint hT
  obtain ⟨hf, hfl⟩ := copyout_frame dstva src len h.space fun g hg => (hul g hg).2
  obtain ⟨hf', h'⟩ := h.write hT hf
  refine ⟨hf', ?_⟩
  rwa [show k' = { k with mem := k'.mem } from by rw [← hfl]]

/-! ## How many bytes come in -/

theorem length_takeStr (m : Bytes) (p n : Nat) : (takeStr m p n).2.length ≤ n := by
  induction n generalizing p with
  | zero => exact le_refl _
  | succ n ih =>
    simp only [takeStr]
    split
    · simp
    · simpa using ih (p + 1)

theorem length_copyinstrLoop (pagetable fuel srcva max : Nat) :
    (copyinstrLoop k pagetable fuel srcva max).2.length ≤ max := by
  induction fuel generalizing srcva max with
  | zero => exact Nat.zero_le _
  | succ fuel ih =>
    simp only [copyinstrLoop]
    split
    · exact Nat.zero_le _
    split
    · exact Nat.zero_le _
    have hs := length_takeStr k.mem (walkaddr k pagetable (pgrounddown srcva) + (srcva - pgrounddown srcva))
      (min (PGSIZE - (srcva - pgrounddown srcva)) max)
    split
    · exact hs.trans (Nat.min_le_right _ _)
    · rw [List.length_append]
      have := ih (pgrounddown srcva + PGSIZE) (max - min (PGSIZE - (srcva - pgrounddown srcva)) max)
      have := Nat.min_le_right (PGSIZE - (srcva - pgrounddown srcva)) max
      omega

/-- `copyinstr` copies `max` bytes at most. -/
theorem length_copyinstr (pagetable srcva max : Nat) : (copyinstr k pagetable srcva max).2.length ≤ max :=
  length_copyinstrLoop pagetable max srcva max

end Xv6.Vm
