import Xv6.Vm.Uvm

/-!
# The kernel's page table

`kvmmake` of `kernel/vm.c` and `proc_mapstacks` of `kernel/proc.c`. The
kernel's page table maps devices and memory at their own addresses, the
trampoline at the top, and under it a stack for each process; the tables and
the stacks are the pages the kernel itself owns. `kvmmake_holds` says so, and
that `KPAGES` pages are enough.
-/

namespace Xv6.Vm

open Framework Function Option Finset

abbrev UART0 : Nat := 0x10000000

abbrev VIRTIO0 : Nat := 0x10001000

abbrev PLIC : Nat := 0x0c000000

/-- The kernel stack of process `p`, above an unmapped guard page. -/
def KSTACK (p : Nat) : Nat := TRAMPOLINE - (p + 1) * 2 * PGSIZE

/-- `kvmmap`; `none` is its panic. -/
def kvmmap (k : Kmem) (kpgtbl va pa sz : Nat) (perm : Pte) : Option Kmem := do
  let (ok, k) ← mappages k kpgtbl va sz pa perm
  if ok then some k else none

/-- An iteration of `proc_mapstacks`. -/
def mapstack (kpgtbl : Nat) (k : Kmem) (p : Nat) : Option Kmem :=
  match kalloc k with
  | (none, _) => none
  | (some pa, k) => kvmmap k kpgtbl (KSTACK p) pa PGSIZE (PTE_R ||| PTE_W)

def procMapstacks (k : Kmem) (kpgtbl : Nat) : Option Kmem := (List.range NPROC).foldlM (mapstack kpgtbl) k

variable (L : Layout)

/-- `kvmmake`. It does not look at the result of `kalloc`; a null page faults. -/
def kvmmake (k : Kmem) : Option (Nat × Kmem) :=
  match kalloc k with
  | (none, _) => none
  | (some kpgtbl, k) => do
    let k := { k with mem := memset k.mem kpgtbl 0 PGSIZE }
    let k ← kvmmap k kpgtbl UART0 UART0 PGSIZE (PTE_R ||| PTE_W)
    let k ← kvmmap k kpgtbl VIRTIO0 VIRTIO0 PGSIZE (PTE_R ||| PTE_W)
    let k ← kvmmap k kpgtbl PLIC PLIC 0x400000 (PTE_R ||| PTE_W)
    let k ← kvmmap k kpgtbl KERNBASE KERNBASE (L.etext - KERNBASE) (PTE_R ||| PTE_X)
    let k ← kvmmap k kpgtbl L.etext L.etext (PHYSTOP - L.etext) (PTE_R ||| PTE_W)
    let k ← kvmmap k kpgtbl TRAMPOLINE L.trampoline PGSIZE (PTE_R ||| PTE_X)
    let k ← procMapstacks k kpgtbl
    some (kpgtbl, k)

/-! ## What it maps -/

/-- `fixed`, with `c` virtual pages from `v` mapped to the pages from `g`. -/
def mapRange (fixed : Nat → Option Nat) (v c g : Nat) : Nat → Option Nat := fun w =>
  if v ≤ w ∧ w < v + c then some (4096 * (g + (w - v))) else fixed w

variable {L} {k k' : Kmem} {l l' : List Nat} {m m' : Bytes} {n v q g c w p : Nat} {perm : Pte}
  {P : Pte → Prop} {U : Finset Nat} {fixed : Nat → Option Nat} {T : Multiset Nat}

theorem mapRange_of_not (h : w < v ∨ v + c ≤ w) : mapRange fixed v c g w = fixed w := if_neg (by omega)

theorem mapRange_zero : mapRange fixed v 0 g = fixed := by
  funext w
  rw [mapRange, if_neg (by omega)]

theorem mapRange_succ :
    mapRange (update fixed v (some (4096 * g))) (v + 1) c (g + 1) = mapRange fixed v (c + 1) g := by
  funext w
  simp only [mapRange]
  by_cases h1 : v + 1 ≤ w ∧ w < v + 1 + c
  · rw [if_pos h1, if_pos (by omega)]
    congr 2
    omega
  · rw [if_neg h1]
    by_cases h2 : w = v
    · subst h2
      rw [update_self, if_pos (by omega), Nat.sub_self, Nat.add_zero]
    · rw [update_of_ne h2, if_neg (by omega)]

/-- The first page of a longer mapping. -/
theorem mappagesLoop_succ {pa : Nat} (h : mappages k (4096 * n) (4096 * v) PGSIZE pa perm = some (true, k')) :
    mappagesLoop (4096 * n) perm (c + 1) k (4096 * v) pa =
      mappagesLoop (4096 * n) perm c k' (4096 * v + PGSIZE) (pa + PGSIZE) := by
  rw [mappagesLoop_bind, h]
  rfl

/-- Pages with a common table. -/
theorem find_block (h : w / 512 = v / 512) :
    Radix.find next (ptes m) 2 n (path w) = Radix.find next (ptes m) 2 n (path v) := by
  have h1 : path w 1 = path v 1 := by simp only [path, pow_one, h]
  have h2 : path w 2 = path v 2 := by simp only [path, pow_two, ← Nat.div_div_eq_div_mul, h]
  simp only [Radix.find, h1, h2]

/-- Permissions of a page that the user may not use. -/
def KernelPerm (perm : Pte) : Prop :=
  (perm ||| PTE_V) >>> 10 = 0#64 ∧ IsLeaf (perm ||| PTE_V) ∧ (perm ||| PTE_V) &&& PTE_U = 0

theorem kernelPerm_rw : KernelPerm (PTE_R ||| PTE_W) := by
  unfold KernelPerm IsLeaf
  decide

theorem kernelPerm_rx : KernelPerm (PTE_R ||| PTE_X) := by
  unfold KernelPerm IsLeaf
  decide

/-- The loop of `mappages` maps its pages, when there are pages for the tables:
two for each table, if none of them is there, and `b` for the first. -/
theorem mappagesLoop_fixed {b : Nat} (hperm : KernelPerm perm) (h : Holds k l n P U fixed T) (hT : T ≤ L.frames.val)
    (hv : v + c ≤ 2 ^ 26) (hg : g + c ≤ 2 ^ 44) (hfree : ∀ w, v ≤ w → w < v + c → w ∉ U ∧ fixed w = none)
    (hb : b = 2 ∨ Radix.find next (ptes k.mem) 2 n (path v) ≠ none)
    (hl : 2 * ((v + c) / 512 - v / 512) + b < l.length) :
    ∃ k' l', mappagesLoop (4096 * n) perm c k (4096 * v) (4096 * g) = some (true, k') ∧ Frame T k.mem k'.mem ∧
      l.length ≤ l'.length + (2 * ((v + c) / 512 - v / 512) + b) ∧ Holds k' l' n P U (mapRange fixed v c g) T := by
  induction c generalizing k l v g b fixed with
  | zero => exact ⟨k, l, rfl, Frame.rfl', by omega, by rwa [mapRange_zero]⟩
  | succ c ih =>
    obtain ⟨hvU, hfix⟩ := hfree v (le_refl _) (by omega)
    obtain ⟨ok, k1, l1, hk1, hf1, ⟨hlen, hnil, hfound⟩, hyes, -⟩ := mappages_fixed perm h hT (by omega) hvU hfix hperm.1
      (show g < 2 ^ 44 by omega) (isLeaf_of_flags hperm.2.1) (by rw [pte_and (by decide)]; exact hperm.2.2)
    have hlen' : l.length ≤ l1.length + b := by
      rcases hb with rfl | hb
      · exact hlen
      · rw [(hfound.resolve_left hb).2]
        omega
    cases ok with
    | false =>
      rw [hnil rfl, List.length_nil] at hlen'
      omega
    | true =>
      have h1 := hyes rfl
      have hvalid := h1.space.rest v (by simp only [VPAGES]; omega) hvU
      rw [update_self] at hvalid
      obtain ⟨q, hq, -⟩ := find_of_valid hvalid.1.1
      -- the next page has the table of this one, or the next table
      obtain ⟨b', hb', hle⟩ : ∃ b', (b' = 2 ∨ Radix.find next (ptes k1.mem) 2 n (path (v + 1)) ≠ none) ∧
          2 * ((v + 1 + c) / 512 - (v + 1) / 512) + b' ≤ 2 * ((v + (c + 1)) / 512 - v / 512) := by
        by_cases hblock : (v + 1) / 512 = v / 512
        · refine ⟨0, .inr ?_, by omega⟩
          rw [find_block hblock, hq]
          exact some_ne_none q
        · exact ⟨2, .inl rfl, by omega⟩
      obtain ⟨k', l', hk', hf', hlen2, h'⟩ := ih (v := v + 1) (g := g + 1) h1 (by omega) (by omega)
        (fun w hw1 hw2 => by
          rw [update_of_ne (by omega)]
          exact hfree w (by omega) (by omega)) hb' (by omega)
      refine ⟨k', l', ?_, hf1.trans hf', by omega, by rwa [mapRange_succ] at h'⟩
      rw [mappagesLoop_succ hk1]
      rw [Nat.mul_add, Nat.mul_add, Nat.mul_one] at hk'
      exact hk'

/-- `kvmmap` of `c` pages. -/
theorem kvmmap_fixed (hperm : KernelPerm perm) (h : Holds k l n P U fixed T) (hT : T ≤ L.frames.val) (hc : 0 < c)
    (hv : v + c ≤ 2 ^ 26) (hg : g + c ≤ 2 ^ 44) (hfree : ∀ w, v ≤ w → w < v + c → w ∉ U ∧ fixed w = none)
    (hl : 2 * ((v + c) / 512 - v / 512) + 2 < l.length) :
    ∃ k' l', kvmmap k (4096 * n) (4096 * v) (4096 * g) (4096 * c) perm = some k' ∧ Frame T k.mem k'.mem ∧
      l.length ≤ l'.length + (2 * ((v + c) / 512 - v / 512) + 2) ∧ Holds k' l' n P U (mapRange fixed v c g) T := by
  obtain ⟨k', l', hk', hf', hlen, h'⟩ := mappagesLoop_fixed hperm h hT hv hg hfree (.inl rfl) hl
  have hstart : pgrounddown (4096 * v) = 4096 * v := by
    simp only [pgrounddown, PGSIZE]
    omega
  have hcount : (pgrounddown (4096 * v + 4096 * c - 1) - 4096 * v) / PGSIZE + 1 = c := by
    simp only [pgrounddown, PGSIZE]
    omega
  refine ⟨k', l', ?_, hf', hlen, h'⟩
  rw [kvmmap, mappages, if_neg (by omega)]
  simp only [hstart, hcount, hk', bind_eq_bind, bind_some, if_true]

/-! ## Stacks -/

/-- The virtual page of the stack of process `p`. -/
def kstackPage (p : Nat) : Nat := 2 ^ 26 - 1 - 2 * (p + 1)

/-- The virtual pages of the first `c` stacks. -/
def kstacks (c : Nat) : Finset Nat := (range c).image kstackPage

/-- An entry that the user may not use. -/
def ForKernel (pte : Pte) : Prop := pte &&& PTE_U = 0

theorem KSTACK_eq (hp : p < NPROC) : KSTACK p = 4096 * kstackPage p := by
  simp only [NPROC] at hp
  simp only [KSTACK, kstackPage, TRAMPOLINE, MAXVA, PGSIZE]
  omega

theorem mapstack_holds (h : Holds k l n ForKernel (kstacks p) fixed T) (hT : T ≤ L.frames.val)
    (hp : p < NPROC) (hfix : ∀ q < NPROC, fixed (kstackPage q) = none) (hl : 3 < l.length) :
    ∃ k' l', mapstack (4096 * n) k p = some k' ∧ Frame T k.mem k'.mem ∧ l.length ≤ l'.length + 3 ∧
      Holds k' l' n ForKernel (kstacks (p + 1)) fixed T := by
  have hnew : kstackPage p ∉ kstacks p := fun hc => by
    obtain ⟨q, hq, he⟩ := mem_image.mp hc
    have := mem_range.mp hq
    simp only [NPROC] at hp
    simp only [kstackPage] at he
    omega
  have hins : insert (kstackPage p) (kstacks p) = kstacks (p + 1) := by
    rw [kstacks, kstacks, range_add_one, image_insert]
  cases l with
  | nil => cases hl
  | cons g l =>
    rw [List.length_cons] at hl
    obtain ⟨k1, T1, hk1, rfl, -, hmap⟩ := h.mapPage (v := kstackPage p) (PTE_R ||| PTE_W) hT
      (by simp only [kstackPage]; omega) hnew (hfix p hp) (by decide) (isLeaf_of_flags (by unfold IsLeaf; decide))
      (by rw [ForKernel, pte_and (by decide)]; decide)
    obtain ⟨ok, k3, l3, hk3, hf3, ⟨hlen, hnil⟩, hyes, -⟩ := hmap k1.mem Frame.rfl'
    cases ok with
    | false =>
      rw [hnil rfl, List.length_nil] at hlen
      omega
    | true =>
      refine ⟨k3, l3, ?_, hf3, by rw [List.length_cons]; omega, hins ▸ (hyes rfl).1⟩
      rw [mapstack, hk1]
      simp only [kvmmap, KSTACK_eq hp, hk3, bind_eq_bind, bind_some, if_true]

/-- `proc_mapstacks` gives the kernel a stack for each process. -/
theorem procMapstacks_holds (h : Holds k l n ForKernel ∅ fixed T) (hT : T ≤ L.frames.val)
    (hfix : ∀ q < NPROC, fixed (kstackPage q) = none) (hl : 3 * NPROC < l.length) :
    ∃ k' l', procMapstacks k (4096 * n) = some k' ∧ Frame T k.mem k'.mem ∧ l.length ≤ l'.length + 3 * NPROC ∧
      Holds k' l' n ForKernel (kstacks NPROC) fixed T := by
  have hloop : ∀ c ≤ NPROC, ∃ k' l', (List.range c).foldlM (mapstack (4096 * n)) k = some k' ∧
      Frame T k.mem k'.mem ∧ l.length ≤ l'.length + 3 * c ∧ Holds k' l' n ForKernel (kstacks c) fixed T := by
    intro c hc
    induction c with
    | zero => exact ⟨k, l, rfl, Frame.rfl', by omega, h⟩
    | succ c ih =>
      obtain ⟨k1, l1, hk1, hf1, hlen1, h1⟩ := ih (by omega)
      obtain ⟨k2, l2, hk2, hf2, hlen2, h2⟩ := mapstack_holds h1 hT (by omega) hfix (by omega)
      refine ⟨k2, l2, ?_, hf1.trans hf2, by omega, h2⟩
      rw [List.range_succ, List.foldlM_append, hk1]
      simp only [bind_eq_bind, bind_some, List.foldlM_cons, List.foldlM_nil, hk2]
      rfl
  exact hloop NPROC (le_refl _)

/-! ## `kvmmake` -/

/-- What the kernel's page table maps besides the stacks, in pages. -/
def kernelFixed (L : Layout) : Nat → Option Nat :=
  let fixed := mapRange (fun _ => none) 0x10000 1 0x10000
  let fixed := mapRange fixed 0x10001 1 0x10001
  let fixed := mapRange fixed 0xc000 0x400 0xc000
  let fixed := mapRange fixed 0x80000 (L.etext / 4096 - 0x80000) 0x80000
  let fixed := mapRange fixed (L.etext / 4096) (0x88000 - L.etext / 4096) (L.etext / 4096)
  mapRange fixed (2 ^ 26 - 1) 1 (L.trampoline / 4096)

/-- Pages enough for the kernel's page table and the stacks. -/
abbrev KPAGES : Nat := 339

theorem kernelFixed_kstack (hp : p < NPROC) : kernelFixed L (kstackPage p) = none := by
  have h1 := L.etext_le
  have h2 := L.kend_le
  simp only [NPROC] at hp
  simp only [PHYSTOP, KERNBASE] at h2
  simp only [kernelFixed, kstackPage]
  iterate 6 rw [mapRange_of_not (by omega)]

theorem kvmmake_holds (hfree : k.Free l) (hT : (l : Multiset Nat) ≤ L.frames.val) (hl : KPAGES < l.length) :
    ∃ n k' l', kvmmake L k = some (4096 * n, k') ∧ l.length ≤ l'.length + KPAGES ∧
      Holds k' l' n ForKernel (kstacks NPROC) (kernelFixed L) l := by
  rcases uvmcreate_holds (P := ForKernel) hfree hT with ⟨-, rfl⟩ | ⟨n, k0, l0, hk0, hn, -, hh0, hlen0⟩
  · cases hl
  obtain ⟨e, he⟩ := L.etext_dvd
  obtain ⟨tr, htr⟩ := L.trampoline_dvd
  obtain ⟨hlt1, hlt2⟩ := Layout.mem_frames.mp (Multiset.mem_of_le hT hn)
  have h1 := L.etext_gt
  have h2 := L.etext_le
  have h3 := L.trampoline_lt
  simp only [KPAGES] at hl
  simp only [KERNBASE, PGSIZE] at h1 he htr
  have he' : L.etext / 4096 = e := by omega
  have htr' : L.trampoline / 4096 = tr := by omega
  -- the six mappings, with the pages that are left after each
  obtain ⟨k1, l1, hk1, -, hlen1, hh1⟩ := kvmmap_fixed (v := 0x10000) (g := 0x10000) (c := 1) kernelPerm_rw hh0 hT
    (by omega) (by omega) (by omega) (fun w _ _ => ⟨notMem_empty w, rfl⟩) (by omega)
  obtain ⟨k2, l2, hk2, -, hlen2, hh2⟩ := kvmmap_fixed (v := 0x10001) (g := 0x10001) (c := 1) kernelPerm_rw hh1 hT
    (by omega) (by omega) (by omega) (fun w _ _ => ⟨notMem_empty w, by rw [mapRange_of_not (by omega)]⟩) (by omega)
  obtain ⟨k3, l3, hk3, -, hlen3, hh3⟩ := kvmmap_fixed (v := 0xc000) (g := 0xc000) (c := 0x400) kernelPerm_rw hh2 hT
    (by omega) (by omega) (by omega) (fun w _ _ => ⟨notMem_empty w, by
      iterate 2 rw [mapRange_of_not (by omega)]⟩) (by omega)
  obtain ⟨k4, l4, hk4, -, hlen4, hh4⟩ := kvmmap_fixed (v := 0x80000) (g := 0x80000) (c := e - 0x80000) kernelPerm_rx hh3
    hT (by omega) (by omega) (by omega) (fun w _ _ => ⟨notMem_empty w, by
      iterate 3 rw [mapRange_of_not (by omega)]⟩) (by omega)
  obtain ⟨k5, l5, hk5, -, hlen5, hh5⟩ := kvmmap_fixed (v := e) (g := e) (c := 0x88000 - e) kernelPerm_rw hh4 hT
    (by omega) (by omega) (by omega) (fun w _ _ => ⟨notMem_empty w, by
      iterate 4 rw [mapRange_of_not (by omega)]⟩) (by omega)
  obtain ⟨k6, l6, hk6, -, hlen6, hh6⟩ := kvmmap_fixed (v := 2 ^ 26 - 1) (g := tr) (c := 1) kernelPerm_rx hh5 hT
    (by omega) (by omega) (by omega) (fun w _ _ => ⟨notMem_empty w, by
      iterate 5 rw [mapRange_of_not (by omega)]⟩) (by omega)
  have hfixed : kernelFixed L = mapRange (mapRange (mapRange (mapRange (mapRange (mapRange (fun _ => none)
      0x10000 1 0x10000) 0x10001 1 0x10001) 0xc000 0x400 0xc000) 0x80000 (e - 0x80000) 0x80000) e (0x88000 - e) e)
      (2 ^ 26 - 1) 1 tr := by
    rw [kernelFixed, he', htr']
  rw [← hfixed] at hh6
  obtain ⟨k7, l7, hk7, -, hlen7, hh7⟩ := procMapstacks_holds hh6 hT (fun p hp => kernelFixed_kstack hp)
    (by simp only [NPROC]; omega)
  simp only [NPROC] at hlen7
  refine ⟨n, k7, l7, ?_, by simp only [KPAGES]; omega, hh7⟩
  -- the arguments as the source writes them
  rw [show 4096 * 0x10000 = UART0 from rfl, show 4096 * 1 = PGSIZE from rfl] at hk1
  rw [show 4096 * 0x10001 = VIRTIO0 from rfl, show 4096 * 1 = PGSIZE from rfl] at hk2
  rw [show 4096 * 0xc000 = PLIC from rfl, show 4096 * 0x400 = 0x400000 from rfl] at hk3
  rw [show 4096 * 0x80000 = KERNBASE from rfl,
    show 4096 * (e - 0x80000) = L.etext - KERNBASE by simp only [KERNBASE]; omega] at hk4
  rw [show 4096 * (0x88000 - e) = PHYSTOP - L.etext by simp only [PHYSTOP, KERNBASE]; omega, ← he] at hk5
  rw [← trampoline_eq, ← htr, show 4096 * 1 = PGSIZE from rfl] at hk6
  rw [uvmcreate] at hk0
  rw [kvmmake]
  cases hkal : kalloc k with | mk pa k' => ?_
  cases pa with
  | none => rw [hkal] at hk0; cases hk0
  | some pa =>
    rw [hkal] at hk0
    cases hk0
    dsimp only
    rw [hk1, bind_eq_bind, bind_some, hk2, bind_some, hk3, bind_some, hk4,
      bind_some, hk5, bind_some, hk6, bind_some, hk7, bind_some]

end Xv6.Vm
