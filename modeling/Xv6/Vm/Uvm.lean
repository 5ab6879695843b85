import Xv6.Vm.Space

/-!
# User memory

The functions of `kernel/vm.c` that build, grow, copy and free the memory of a
process, and `proc_pagetable` and `proc_freepagetable` of `kernel/proc.c`. Each
specification says of every outcome, the ones without memory included, what the
page table then maps, and that the pages it and the free list own together are
those they owned before.
-/

namespace Xv6.Vm

open Framework Function Option
open Multiset hiding range mem_range Ico mem_Ico
open Finset (range mem_range Ico mem_Ico)

variable (L : Layout)

/-- `uvmcreate`; `none` is the null pointer. -/
def uvmcreate (k : Kmem) : Option Nat × Kmem :=
  match kalloc k with
  | (none, k) => (none, k)
  | (some pagetable, k) => (some pagetable, { k with mem := memset k.mem pagetable 0 PGSIZE })

/-- `uvminit`. It does not look at the results of `kalloc` and `mappages`; a
null page faults. -/
def uvminit (k : Kmem) (pagetable : Nat) (src : Bytes) (sz : Nat) : Option Kmem :=
  if PGSIZE ≤ sz then none
  else
    match kalloc k with
    | (none, _) => none
    | (some mem, k) => do
      let k := { k with mem := memset k.mem mem 0 PGSIZE }
      let (_, k) ← mappages k pagetable 0 PGSIZE mem (PTE_W ||| PTE_R ||| PTE_X ||| PTE_U)
      some { k with mem := UserMem.move k.mem mem src 0 sz }

/-- `uvmdealloc`: the new size. -/
def uvmdealloc (k : Kmem) (pagetable oldsz newsz : Nat) : Option (Nat × Kmem) :=
  if newsz ≥ oldsz then some (oldsz, k)
  else if pgroundup newsz < pgroundup oldsz then do
    let npages := (pgroundup oldsz - pgroundup newsz) / PGSIZE
    some (newsz, ← uvmunmap L k pagetable (pgroundup newsz) npages true)
  else some (newsz, k)

/-- The loop of `uvmalloc`, over `n` pages from `a`. -/
def uvmallocLoop (pagetable oldsz newsz : Nat) : Nat → Kmem → Nat → Option (Nat × Kmem)
  | 0, k, _ => some (newsz, k)
  | n + 1, k, a =>
    match kalloc k with
    | (none, k) => do
      let (_, k) ← uvmdealloc L k pagetable a oldsz
      some (0, k)
    | (some mem, k) => do
      let k := { k with mem := memset k.mem mem 0 PGSIZE }
      let (ok, k) ← mappages k pagetable a PGSIZE mem (PTE_W ||| PTE_X ||| PTE_R ||| PTE_U)
      if ok then uvmallocLoop pagetable oldsz newsz n k (a + PGSIZE)
      else
        let k ← kfree L k mem
        let (_, k) ← uvmdealloc L k pagetable a oldsz
        some (0, k)

/-- `uvmalloc`: the new size, or 0. -/
def uvmalloc (k : Kmem) (pagetable oldsz newsz : Nat) : Option (Nat × Kmem) :=
  if newsz < oldsz then some (oldsz, k)
  else
    let oldsz := pgroundup oldsz
    uvmallocLoop L pagetable oldsz newsz ((newsz - oldsz + PGSIZE - 1) / PGSIZE) k oldsz

def uvmfree (k : Kmem) (pagetable sz : Nat) : Option Kmem :=
  (if sz > 0 then uvmunmap L k pagetable 0 (pgroundup sz / PGSIZE) true else some k).bind fun k =>
    freewalk L 3 k pagetable

/-- The loop of `uvmcopy`, over `n` pages from `i`. -/
def uvmcopyLoop (old new : Nat) : Nat → Kmem → Nat → Option (Bool × Kmem)
  | 0, k, _ => some (true, k)
  | n + 1, k, i => do
    let (pte, k) ← walk k old i false
    let pte ← pte
    let e := read64 k.mem pte
    if e &&& PTE_V = 0 then none
    else
      match kalloc k with
      | (none, k) => some (false, ← uvmunmap L k new 0 (i / PGSIZE) true)
      | (some mem, k) =>
        let k := { k with mem := memmove k.mem mem (pte2pa e) PGSIZE }
        let (ok, k) ← mappages k new i PGSIZE mem (pteFlags e)
        if ok then uvmcopyLoop old new n k (i + PGSIZE)
        else
          let k ← kfree L k mem
          some (false, ← uvmunmap L k new 0 (i / PGSIZE) true)

/-- `uvmcopy`: whether it succeeds. -/
def uvmcopy (k : Kmem) (old new sz : Nat) : Option (Bool × Kmem) :=
  uvmcopyLoop L old new ((sz + PGSIZE - 1) / PGSIZE) k 0

/-- `uvmclear`. -/
def uvmclear (k : Kmem) (pagetable va : Nat) : Option Kmem := do
  let (pte, k) ← walk k pagetable va false
  let pte ← pte
  some { k with mem := write64 k.mem pte (read64 k.mem pte &&& ~~~PTE_U) }

abbrev TRAMPOLINE : Nat := MAXVA - PGSIZE

abbrev TRAPFRAME : Nat := TRAMPOLINE - PGSIZE

/-- `proc_pagetable`, for a process with the given trapframe. -/
def procPagetable (k : Kmem) (trapframe : Nat) : Option (Option Nat × Kmem) :=
  match uvmcreate k with
  | (none, k) => some (none, k)
  | (some pagetable, k) => do
    let (ok, k) ← mappages k pagetable TRAMPOLINE PGSIZE L.trampoline (PTE_R ||| PTE_X)
    if ok then
      let (ok, k) ← mappages k pagetable TRAPFRAME PGSIZE trapframe (PTE_R ||| PTE_W)
      if ok then some (some pagetable, k)
      else
        let k ← uvmunmap L k pagetable TRAMPOLINE 1 false
        some (none, ← uvmfree L k pagetable 0)
    else some (none, ← uvmfree L k pagetable 0)

/-- `proc_freepagetable`. -/
def procFreepagetable (k : Kmem) (pagetable sz : Nat) : Option Kmem := do
  let k ← uvmunmap L k pagetable TRAMPOLINE 1 false
  let k ← uvmunmap L k pagetable TRAPFRAME 1 false
  uvmfree L k pagetable sz

/-! ## Entries -/

/-- The number of pages in `sz` bytes. -/
def npages (sz : Nat) : Nat := (sz + 4095) / 4096

theorem pgroundup_eq (sz : Nat) : pgroundup sz = 4096 * npages sz := by
  simp only [pgroundup, npages, PGSIZE]
  omega

/-- What `proc_pagetable` maps: the trampoline and the trapframe page `tf`. -/
def procFixed (tf : Nat) : Nat → Option Nat :=
  update (update (fun _ => none) (2 ^ 26 - 1) (some L.trampoline)) (2 ^ 26 - 2) (some (4096 * tf))

variable {L} {k k' : Kmem} {l l' : List Nat} {m m' m1 : Bytes} {n v q g tf c v0 oldsz sz pa o : Nat}
  {e mask flags : Pte} {P Po : Pte → Prop} {U C : Finset Nat} {fixed fo : Nat → Option Nat} {T : Multiset Nat}

theorem pte_and (hm : mask >>> 10 = 0#64) :
    (pa2pte pa ||| flags ||| PTE_V) &&& mask = (flags ||| PTE_V) &&& mask := by
  rw [BitVec.or_assoc, BitVec.and_or_distrib_right, pa2pte_and hm]
  exact BitVec.zero_or

theorem isLeaf_of_flags (h : IsLeaf (flags ||| PTE_V)) :
    IsLeaf (pa2pte pa ||| flags ||| PTE_V) := by
  rw [IsLeaf, pte_and (by decide), pte_and (by decide)]
  exact h

theorem procFixed_of_lt (h : v < 2 ^ 26 - 2) : procFixed L tf v = none := by
  rw [procFixed, update_of_ne (by omega), update_of_ne (by omega)]

theorem Holds.userPages_le (h : Holds k l n P U fixed T) : userPages k.mem n U ≤ T := by
  rw [← h.total]
  exact (Multiset.le_add_left _ _).trans (Multiset.le_add_left _ _)

/-- A space has no more pages than memory has. -/
theorem Holds.user_le (h : Holds k l n P (range v) fixed T) (hT : T ≤ L.frames.val) : v ≤ 0x8000 := by
  have hcard := card_le_card (h.userPages_le.trans hT)
  rw [userPages, card_map, ← Finset.card_def, Finset.card_range] at hcard
  exact hcard.trans Layout.card_frames_le

/-- So it stays far below the trapframe. -/
theorem Holds.user_lt (h : Holds k l n P (range v) fixed T) (hT : T ≤ L.frames.val) : v < 2 ^ 26 - 2 := by
  have := h.user_le hT
  omega

/-! ## Growing and shrinking -/

/-- `uvmdealloc` of a range of pages at the end. -/
theorem uvmdealloc_holds (newsz : Nat) (h : Holds k l n P (range (npages oldsz)) fixed T)
    (hT : T ≤ L.frames.val) (hfix : ∀ w < 2 ^ 26 - 2, fixed w = none) :
    ∃ k' l', uvmdealloc L k (4096 * n) oldsz newsz = some (min oldsz newsz, k') ∧ Frame T k.mem k'.mem ∧
      Holds k' l' n P (range (npages (min oldsz newsz))) fixed T ∧
      Keeps n (range (npages oldsz)) (Ico (npages (min oldsz newsz)) (npages oldsz)) k.mem k'.mem := by
  have hlt := h.user_lt hT
  rw [uvmdealloc]
  split
  · rename_i hge
    rw [Nat.min_eq_left hge]
    exact ⟨k, l, rfl, Frame.rfl', h, .rfl'⟩
  · rename_i hge
    rw [Nat.min_eq_right (by omega)]
    have hle : npages newsz ≤ npages oldsz := by simp only [npages]; omega
    split
    · obtain ⟨k', l', hk', hf', h', hkeep⟩ := uvmunmap_user (v := npages newsz) (c := npages oldsz - npages newsz) h hT
        (fun w hw => by rw [mem_Ico] at hw; exact mem_range.mpr (by omega))
        fun w hw => hfix w (by have := mem_range.mp hw; omega)
      have hrange : range (npages oldsz) \ Ico (npages newsz) (npages newsz +
          (npages oldsz - npages newsz)) = range (npages newsz) := by
        ext w
        simp only [Finset.mem_sdiff, mem_range, mem_Ico]
        omega
      rw [Nat.add_sub_cancel' hle] at hkeep
      refine ⟨k', l', ?_, hf', hrange ▸ h', hkeep⟩
      have hnp : (4096 * npages oldsz - 4096 * npages newsz) / PGSIZE = npages oldsz - npages newsz := by
        simp only [PGSIZE]
        omega
      simp [pgroundup_eq, hnp, hk']
    · rename_i hnlt
      rw [pgroundup_eq, pgroundup_eq] at hnlt
      have heq : npages oldsz = npages newsz := by omega
      exact ⟨k, l, rfl, Frame.rfl', heq ▸ h, .rfl'⟩

theorem npages_mul (v : Nat) : npages (4096 * v) = v := by
  simp only [npages]
  omega

/-- `uvmdealloc` to the size the space had before it grew. -/
theorem uvmdealloc_range (h : Holds k l n P (range v) fixed T) (hT : T ≤ L.frames.val)
    (hfix : ∀ w < 2 ^ 26 - 2, fixed w = none) (hv : v0 ≤ v) :
    ∃ r k' l', uvmdealloc L k (4096 * n) (4096 * v) (4096 * v0) = some (r, k') ∧ Frame T k.mem k'.mem ∧
      Holds k' l' n P (range v0) fixed T ∧ Keeps n (range v) (Ico v0 v) k.mem k'.mem := by
  obtain ⟨k', l', hk', hf', h', hkeep⟩ := uvmdealloc_holds (4096 * v0)
    (by rw [npages_mul]; exact h) hT hfix
  rw [Nat.min_eq_right (by omega)] at hk' h' hkeep
  rw [npages_mul] at h'
  rw [npages_mul, npages_mul] at hkeep
  exact ⟨_, k', l', hk', hf', h', hkeep⟩

/-- The page `g` is taken from the free list, filled, and mapped as `v`: the user has the
pages `U'` then, or still `U` and `g` belongs to nobody. -/
def Maps (k : Kmem) (g : Nat) (l : List Nat) (n : Nat) (P : Pte → Prop) (U U' : Finset Nat) (fixed : Nat → Option Nat)
    (T : Multiset Nat) (v : Nat) (perm : Pte) : Prop :=
  ∃ k1 T1, Vm.kalloc k = (some (4096 * g), k1) ∧ T = g ::ₘ T1 ∧ Frame {g} k.mem k1.mem ∧ ∀ m', Frame {g} k1.mem m' →
    ∃ ok k3 l3, mappages { k1 with mem := m' } (4096 * n) (4096 * v) PGSIZE (4096 * g) perm = some (ok, k3) ∧
      Frame T k.mem k3.mem ∧ (l.length ≤ l3.length + 2 ∧ (ok = false → l3 = [])) ∧
      (ok = true → Holds k3 l3 n P U' fixed T ∧ g ∈ userPages k3.mem n U' ∧
        pteAt k3.mem n v = pa2pte (4096 * g) ||| perm ||| PTE_V) ∧
      (ok = false → Holds k3 l3 n P U fixed T1) ∧ Keeps n U {v} k.mem k3.mem ∧ l3 <:+ l ∧
      ∀ x, x / 4096 = g → k3.mem x = m' x

/-- A page is taken from the free list, filled, and mapped. -/
theorem Holds.mapPage (perm : Pte) (h : Holds k (g :: l) n P U fixed T) (hT : T ≤ L.frames.val) (hv : v < 2 ^ 26)
    (hvU : v ∉ U) (hfix : fixed v = none) (hperm : (perm ||| PTE_V) >>> 10 = 0#64)
    (hleaf : IsLeaf (pa2pte (4096 * g) ||| perm ||| PTE_V)) (hP : P (pa2pte (4096 * g) ||| perm ||| PTE_V)) :
    Maps k g l n P U (insert v U) fixed T v perm := by
  obtain ⟨k1, T1, hk1, rfl, hf1, h1⟩ := h.kalloc hT
  refine ⟨k1, T1, hk1, rfl, hf1, fun m' hfm => ?_⟩
  have hg : g ∉ T1 := (nodup_cons.mp (nodup_of_le hT L.frames.nodup)).1
  have h2 : Holds { k1 with mem := m' } l n P U fixed T1 :=
    h1.frame_outside hfm fun q hq => by rw [mem_singleton.mp hq]; exact hg
  obtain ⟨ok, k3, l3, hk3, hf3, hlen, hyes, hno, hkeep, hsuf⟩ := mappages_user h2 hT hv hvU hfix hperm hleaf hP
  -- the page that is filled is neither a table nor one of the user
  have hkeep' : Keeps n U {v} k.mem m' := by
    obtain ⟨-, htl, hul⟩ := h.disjoint hT
    refine .of_outside (hf1.trans hfm) (fun q hq hqg => ?_) fun q hq hqg => ?_
    · exact htl q hq (mem_singleton.mp hqg ▸ List.mem_cons_self)
    · exact (hul q hq).1 (mem_singleton.mp hqg ▸ List.mem_cons_self)
  refine ⟨ok, k3, l3, hk3, ?_, hlen, hyes, hno, hkeep'.trans hkeep h.space.lt (le_refl _) fun _ hw _ => hw, hsuf,
    fun x hx => hf3 x (hx ▸ hg)⟩
  exact ((hf1.trans hfm).mono (singleton_le.mpr (mem_cons_self g T1))).trans
    (hf3.mono (le_cons_self T1 g))

/-- The page is mapped after the pages that are mapped already. -/
theorem Holds.mapNext (perm : Pte) (h : Holds k (g :: l) n P (range v) fixed T) (hT : T ≤ L.frames.val)
    (hfix : ∀ w < 2 ^ 26 - 2, fixed w = none) (hperm : (perm ||| PTE_V) >>> 10 = 0#64)
    (hleaf : IsLeaf (pa2pte (4096 * g) ||| perm ||| PTE_V)) (hP : P (pa2pte (4096 * g) ||| perm ||| PTE_V)) :
    Maps k g l n P (range v) (range (v + 1)) fixed T v perm := by
  have hlt := h.user_lt hT
  rw [Finset.range_add_one]
  exact h.mapPage perm hT (by omega) Finset.notMem_range_self (hfix v hlt) hperm hleaf hP

/-- The user has the virtual page `v`, and it is clear. -/
def Fresh (m : Bytes) (n v : Nat) : Prop :=
  pteFlags (pteAt m n v) = PTE_W ||| PTE_X ||| PTE_R ||| PTE_U ||| PTE_V ∧
    ∀ x, x / 4096 = pte2pa (pteAt m n v) / 4096 → m x = 0

theorem pteFlags_map (hf : (flags ||| PTE_V) &&& 0x3FF = flags ||| PTE_V) :
    pteFlags (pa2pte pa ||| flags ||| PTE_V) = flags ||| PTE_V := by
  rw [pteFlags, pte_and (by decide), hf]

/-- A page that has been filled with zeros and mapped. -/
theorem Fresh.of_map (hg : g < 2 ^ 44) (hm : ∀ x, x / 4096 = g → m x = memset m' (4096 * g) 0 4096 x)
    (hpte : pteAt m n v = pa2pte (4096 * g) ||| (PTE_W ||| PTE_X ||| PTE_R ||| PTE_U) ||| PTE_V) : Fresh m n v := by
  refine ⟨by rw [hpte, pteFlags_map (by decide)], fun x hx => ?_⟩
  rw [hpte, BitVec.or_assoc, pte2pa_or hg (by decide), Nat.mul_div_cancel_left g (by decide)] at hx
  rw [hm x hx, memset, if_pos (by omega)]

theorem Keeps.fresh (h : Keeps n U C m m') (hf : Fresh m n v) (hv : v < VPAGES) (hvU : v ∈ U)
    (hvC : v ∉ C) : Fresh m' n v := by
  rw [Fresh, h.pte v hv hvC]
  exact ⟨hf.1, fun x hx => (h.bytes v hvU hvC x hx).trans (hf.2 x hx)⟩

/-- The loop of `uvmalloc` maps its pages, or unmaps those it has mapped. -/
theorem uvmallocLoop_holds (newsz : Nat) (h : Holds k l n P (range v) fixed T)
    (hT : T ≤ L.frames.val) (hfix : ∀ w < 2 ^ 26 - 2, fixed w = none) (hv : v0 ≤ v)
    (hP : ∀ g, P (pa2pte (4096 * g) ||| (PTE_W ||| PTE_X ||| PTE_R ||| PTE_U) ||| PTE_V)) :
    ∃ r k' l', uvmallocLoop L (4096 * n) (4096 * v0) newsz c k (4096 * v) = some (r, k') ∧ Frame T k.mem k'.mem ∧
      (r = newsz ∧ Holds k' l' n P (range (v + c)) fixed T ∧
          Keeps n (range v) (Ico v (v + c)) k.mem k'.mem ∧ (∀ w, v ≤ w → w < v + c → Fresh k'.mem n w) ∨
        r = 0 ∧ Holds k' l' n P (range v0) fixed T ∧
          Keeps n (range v) (Ico v0 (v + c)) k.mem k'.mem) := by
  induction c generalizing k l v with
  | zero => exact ⟨newsz, k, l, rfl, Frame.rfl', .inl ⟨rfl, h, .rfl', fun w hw hw' => by omega⟩⟩
  | succ c ih =>
    cases l with
    | nil =>
      obtain ⟨r, k', l', hk', hf', h', hkeep⟩ := uvmdealloc_range h hT hfix hv
      refine ⟨0, k', l', ?_, hf', .inr ⟨rfl, h', hkeep.mono (le_refl _) (Finset.Ico_subset_Ico_right (by omega))⟩⟩
      rw [uvmallocLoop, kalloc_nil h.free]
      simp [hk']
    | cons g l =>
      have hg : g < 2 ^ 44 := by
        have := Layout.lt_of_mem (mem_of_le hT (h.mem_of_free List.mem_cons_self))
        omega
      obtain ⟨k1, T1, hk1, rfl, -, hmap⟩ := h.mapNext _ hT hfix (by decide) (isLeaf_of_flags (by unfold IsLeaf; decide)) (hP g)
      obtain ⟨ok, k3, l3, hk3, hframe, -, hyes, hno, hkeep3, -, hbytes⟩ := hmap (memset k1.mem (4096 * g) 0 4096)
        (Frame.memset (le_refl _) (le_refl _))
      rw [uvmallocLoop, hk1]
      simp only [hk3, bind_eq_bind, bind_some]
      have hlt : ∀ w ∈ range v, w < 2 ^ 26 := h.space.lt
      have hv26 := h.user_lt hT
      cases ok with
      | true =>
        obtain ⟨h3, -, hpte⟩ := hyes rfl
        obtain ⟨r, k', l', hk', hf', h'⟩ := ih h3 (by omega)
        have hstep : ∀ w ∈ range v, w ∈ range (v + 1) := fun w hw => by
          rw [mem_range] at hw ⊢
          omega
        refine ⟨r, k', l', ?_, hframe.trans hf', ?_⟩
        · rw [show 4096 * (v + 1) = 4096 * v + PGSIZE by simp only [PGSIZE]; omega] at hk'
          exact hk'
        · rw [show v + (c + 1) = v + 1 + c by omega]
          refine h'.imp (fun ⟨hr, h'', hkeep, hfresh⟩ => ⟨hr, h'', ?_, fun w hw hw' => ?_⟩)
            fun ⟨hr, h'', hkeep⟩ => ⟨hr, h'', ?_⟩
          · exact hkeep3.trans (hkeep.mono (le_refl _) (Finset.Ico_subset_Ico_left (by omega))) hlt
              (Finset.singleton_subset_iff.mpr (mem_Ico.mpr (by omega))) fun w hw _ => hstep w hw
          · rcases Nat.eq_or_lt_of_le hw with rfl | hw
            · exact hkeep.fresh (.of_map hg hbytes hpte) (by simp only [VPAGES]; omega)
                (mem_range.mpr (by omega)) (by rw [mem_Ico]; omega)
            · exact hfresh w hw hw'
          · exact hkeep3.trans hkeep hlt (Finset.singleton_subset_iff.mpr (mem_Ico.mpr (by omega)))
              fun w hw _ => hstep w hw
      | false =>
        have hg1 : g ∉ T1 := (nodup_cons.mp (nodup_of_le hT L.frames.nodup)).1
        have h3 := hno rfl
        obtain ⟨k4, hk4, hf4, h4⟩ := h3.kfree hT
        obtain ⟨r, k', l', hk', hf', h', hkeep⟩ := uvmdealloc_range h4 hT hfix hv
        refine ⟨0, k', l', ?_, hframe.trans ((hf4.mono (singleton_le.mpr
          (mem_cons_self g T1))).trans hf'), .inr ⟨rfl, h', ?_⟩⟩
        · simp [hk4, hk']
        · have hkeep4 : Keeps n (range v) {v} k3.mem k4.mem := .of_outside hf4
            (fun q hq hqg => hg1 (mem_singleton.mp hqg ▸ h3.mem_of_tables hq))
            fun q hq hqg => hg1 (mem_singleton.mp hqg ▸ mem_of_le h3.userPages_le hq)
          exact (hkeep3.trans hkeep4 hlt (le_refl _) fun _ hw _ => hw).trans
            (hkeep.mono (le_refl _) (Finset.Ico_subset_Ico_right (by omega))) hlt
            (Finset.singleton_subset_iff.mpr (mem_Ico.mpr (by omega))) fun _ hw _ => hw

/-- A change of the contents of user pages. -/
theorem Holds.write (h : Holds k l n P U fixed T) (hT : T ≤ L.frames.val) (hf : Frame (userPages k.mem n U) k.mem m') :
    Frame T k.mem m' ∧ Holds { k with mem := m' } l n P U fixed T := by
  obtain ⟨-, -, hul⟩ := h.disjoint hT
  exact ⟨hf.mono h.userPages_le, h.frame hf (fun q hq hqu => (hul q hqu).1 hq) fun q hq hqu => (hul q hqu).2 hq⟩

/-- `uvminit` maps the first page, when there are pages for it. -/
theorem uvminit_holds (src : Bytes) (h : Holds k l n (fun _ => True) ∅ fixed T) (hT : T ≤ L.frames.val)
    (hfix : ∀ w < 2 ^ 26 - 2, fixed w = none) (hsz : sz < 4096) (hl : 4 ≤ l.length) :
    ∃ k' l', uvminit k (4096 * n) src sz = some k' ∧ Frame T k.mem k'.mem ∧
      Holds k' l' n (fun _ => True) (range 1) fixed T := by
  cases l with
  | nil => cases hl
  | cons g l =>
    rw [List.length_cons] at hl
    obtain ⟨k1, T1, hk1, rfl, -, hmap⟩ := Holds.mapNext (v := 0) (PTE_W ||| PTE_R ||| PTE_X ||| PTE_U)
      (by rw [Finset.range_zero]; exact h) hT hfix (by decide) (isLeaf_of_flags (by unfold IsLeaf; decide)) trivial
    obtain ⟨ok, k3, l3, hk3, hf3, ⟨hlen, hnil⟩, hyes, -⟩ := hmap (memset k1.mem (4096 * g) 0 4096)
      (Frame.memset (le_refl _) (le_refl _))
    cases ok with
    | false =>
      rw [hnil rfl, List.length_nil] at hlen
      omega
    | true =>
      obtain ⟨h3, hg, -⟩ := hyes rfl
      have hfm : Frame {g} k3.mem (UserMem.move k3.mem (4096 * g) src 0 sz) := Frame.move (le_refl _) (by omega)
      obtain ⟨hf', h'⟩ := h3.write hT (hfm.mono (singleton_le.mpr hg))
      refine ⟨_, l3, ?_, hf3.trans hf', h'⟩
      rw [uvminit, if_neg (Nat.not_le.mpr hsz), hk1]
      rw [Nat.mul_zero] at hk3
      simp only [hk3, bind_eq_bind, bind_some]

/-- `uvmalloc` grows the space to the new size, or leaves it. -/
theorem uvmalloc_holds (newsz : Nat) (h : Holds k l n P (range (npages oldsz)) fixed T)
    (hT : T ≤ L.frames.val) (hfix : ∀ w < 2 ^ 26 - 2, fixed w = none)
    (hP : ∀ g, P (pa2pte (4096 * g) ||| (PTE_W ||| PTE_X ||| PTE_R ||| PTE_U) ||| PTE_V)) :
    ∃ r k' l', uvmalloc L k (4096 * n) oldsz newsz = some (r, k') ∧ Frame T k.mem k'.mem ∧
      (r = max oldsz newsz ∧ Holds k' l' n P (range (npages (max oldsz newsz))) fixed T ∧
          Keeps n (range (npages oldsz)) (Ico (npages oldsz) (npages (max oldsz newsz))) k.mem k'.mem ∧
          (∀ w, npages oldsz ≤ w → w < npages (max oldsz newsz) → Fresh k'.mem n w) ∨
        r = 0 ∧ Holds k' l' n P (range (npages oldsz)) fixed T ∧
          Keeps n (range (npages oldsz)) (Ico (npages oldsz) (npages newsz)) k.mem k'.mem) := by
  rw [uvmalloc]
  split
  · rename_i hlt
    rw [Nat.max_eq_left (by omega)]
    exact ⟨oldsz, k, l, rfl, Frame.rfl', .inl ⟨rfl, h, .rfl', fun w hw hw' => by omega⟩⟩
  · rename_i hlt
    rw [Nat.max_eq_right (by omega)]
    obtain ⟨r, k', l', hk', hf', h'⟩ := uvmallocLoop_holds newsz
      (c := (newsz - 4096 * npages oldsz + PGSIZE - 1) / PGSIZE) h hT hfix (le_refl _) hP
    refine ⟨r, k', l', ?_, hf', ?_⟩
    · simp only [pgroundup_eq]
      exact hk'
    · have hnp : npages oldsz + (newsz - 4096 * npages oldsz + PGSIZE - 1) / PGSIZE = npages newsz := by
        simp only [npages, PGSIZE]
        omega
      rw [hnp] at h'
      exact h'

/-! ## Freeing -/

/-- `uvmunmap` of all the pages of a space. -/
theorem uvmunmap_all (h : Holds k l n P (range v) fixed T) (hT : T ≤ L.frames.val)
    (hfix : ∀ w < 2 ^ 26 - 2, fixed w = none) :
    ∃ k' l', uvmunmap L k (4096 * n) 0 v true = some k' ∧ Frame T k.mem k'.mem ∧ Holds k' l' n P ∅ fixed T := by
  have hlt := h.user_lt hT
  obtain ⟨k', l', hk', hf', h', -⟩ := uvmunmap_user (v := 0) (c := v) h hT
    (fun w hw => by rw [mem_Ico] at hw; exact mem_range.mpr (by omega))
    fun w hw => hfix w (by have := mem_range.mp hw; omega)
  have hset : range v \ Ico 0 (0 + v) = ∅ := by
    ext w
    simp only [Finset.mem_sdiff, mem_range, mem_Ico, Finset.notMem_empty, iff_false]
    omega
  exact ⟨k', l', hk', hf', hset ▸ h'⟩

/-- `uvmfree` of a space without fixed pages frees all it owns. -/
theorem uvmfree_free (sz : Nat) (h : Holds k l n P (range (npages sz)) (fun _ => none) T)
    (hT : T ≤ L.frames.val) :
    ∃ k' l', uvmfree L k (4096 * n) sz = some k' ∧ k'.Free l' ∧ (l' : Multiset Nat) = T ∧ Frame T k.mem k'.mem := by
  have hstep : ∃ k1 l1, (if sz > 0 then uvmunmap L k (4096 * n) 0 (pgroundup sz / PGSIZE) true else some k) =
      some k1 ∧ Frame T k.mem k1.mem ∧ Holds k1 l1 n P ∅ (fun _ => none) T := by
    split
    · rw [pgroundup_eq, Nat.mul_div_cancel_left _ (by decide)]
      exact uvmunmap_all h hT fun _ _ => rfl
    · rename_i hsz
      have hzero : npages sz = 0 := by simp only [npages]; omega
      rw [hzero, Finset.range_zero] at h
      exact ⟨k, l, rfl, Frame.rfl', h⟩
  obtain ⟨k1, l1, hk1, hf1, h1⟩ := hstep
  obtain ⟨k', l', hk', hfree', hl', hf'⟩ := freewalk_free h1 hT
  refine ⟨k', l', ?_, hfree', hl', hf1.trans hf'⟩
  rw [uvmfree, hk1, bind_some, hk']

theorem trampoline_eq : TRAMPOLINE = 4096 * (2 ^ 26 - 1) := by decide

theorem trapframe_eq : TRAPFRAME = 4096 * (2 ^ 26 - 2) := by decide

/-- `proc_freepagetable` frees all the space owns; the trampoline and the
trapframe are not among it. -/
theorem procFreepagetable_free (h : Holds k l n P (range (npages sz)) (procFixed L tf) T)
    (hT : T ≤ L.frames.val) :
    ∃ k' l', procFreepagetable L k (4096 * n) sz = some k' ∧ k'.Free l' ∧ (l' : Multiset Nat) = T ∧
      Frame T k.mem k'.mem := by
  have hlt := h.user_lt hT
  obtain ⟨k1, hk1, hf1, h1⟩ := uvmunmap_fixed (v := 2 ^ 26 - 1) h hT (by omega)
    (by rw [mem_range]; omega)
    (by rw [procFixed, update_of_ne (by omega), update_self])
  obtain ⟨k2, hk2, hf2, h2⟩ := uvmunmap_fixed (v := 2 ^ 26 - 2) h1 hT (by omega)
    (by rw [mem_range]; omega)
    (by rw [update_of_ne (by omega), procFixed, update_self])
  have hnone : update (update (procFixed L tf) (2 ^ 26 - 1) none) (2 ^ 26 - 2) none =
      fun _ => none := by
    funext w
    simp only [procFixed, update_apply]
    split
    · rfl
    · split <;> rfl
  rw [hnone] at h2
  obtain ⟨k', l', hk', hfree', hl', hf'⟩ := uvmfree_free _ h2 hT
  refine ⟨k', l', ?_, hfree', hl', hf1.trans (hf2.trans hf')⟩
  rw [procFreepagetable, trampoline_eq, trapframe_eq, hk1, bind_eq_bind, bind_some, hk2]
  exact hk'

/-! ## Creating -/

/-- `uvmcreate` makes a space that maps nothing. -/
theorem uvmcreate_holds (hfree : k.Free l) (hT : (l : Multiset Nat) ≤ L.frames.val) :
    (uvmcreate k = (none, k) ∧ l = []) ∨
      ∃ n k' l', uvmcreate k = (some (4096 * n), k') ∧ n ∈ l ∧ Frame l k.mem k'.mem ∧
        Holds k' l' n P ∅ (fun _ => none) l ∧ l.length = l'.length + 1 := by
  cases l with
  | nil => exact .inl ⟨by rw [uvmcreate, kalloc_nil hfree], rfl⟩
  | cons n l =>
    have hn : n ∉ l := (List.nodup_cons.mp (coe_nodup.mp (nodup_of_le hT L.frames.nodup))).1
    obtain ⟨k1, hk1, hfree1, hf1⟩ := kalloc_cons hfree hn
    have hfm : Frame {n} k1.mem (memset k1.mem (4096 * n) 0 4096) := Frame.memset (le_refl _) (le_refl _)
    have hzero := ptes_memset_zero k1.mem n
    have hnone : ∀ j, next (ptes (memset k1.mem (4096 * n) 0 4096) n j) = none := fun j => by rw [hzero]; rfl
    refine .inr ⟨n, { k1 with mem := memset k1.mem (4096 * n) 0 4096 }, l, by rw [uvmcreate, hk1],
      List.mem_cons_self, ?_, ⟨hfree1.frame hfm fun x hx hxn => hn (mem_singleton.mp hxn ▸ hx),
      ⟨Radix.Dir.empty hnone, fun v hv => absurd hv (Finset.notMem_empty v),
        fun v hv => absurd hv (Finset.notMem_empty v), fun v _ _ => ?_⟩, ?_⟩, rfl⟩
    · refine (hf1.trans hfm).mono ?_
      rw [singleton_le]
      exact mem_coe.mpr List.mem_cons_self
    · rw [pteAt, Radix.leaf_empty hzero next_zero]
      show (0 : Pte) &&& PTE_V = 0
      decide
    · rw [tables, Radix.pages_empty hnone, userPages, Finset.empty_val, Multiset.map_zero, add_zero, add_comm,
        singleton_add, cons_coe]

/-- `proc_pagetable` makes a space that maps the trampoline and the trapframe,
or frees what it has allocated. It needs five pages at most. -/
theorem procPagetable_holds (hfree : k.Free l) (hT : (l : Multiset Nat) ≤ L.frames.val) (htf : tf < 2 ^ 44) :
    ∃ r k' l', procPagetable L k (4096 * tf) = some (r, k') ∧ Frame l k.mem k'.mem ∧
      (r = none ∧ k'.Free l' ∧ (l' : Multiset Nat) = l ∧ l.length ≤ 5 ∨
        ∃ n ∈ l, r = some (4096 * n) ∧ Holds k' l' n P ∅ (procFixed L tf) l ∧ l.length ≤ l'.length + 5) := by
  have htr : ∃ tr, tr < 2 ^ 44 ∧ L.trampoline = 4096 * tr := by
    obtain ⟨tr, htr⟩ := L.trampoline_dvd
    have h1 := L.trampoline_lt
    have h2 := L.kend_le
    simp only [PHYSTOP, KERNBASE, PGSIZE] at h2 htr
    exact ⟨tr, by omega, htr⟩
  obtain ⟨tr, htr, htreq⟩ := htr
  rcases uvmcreate_holds (P := P) hfree hT with ⟨hc, rfl⟩ | ⟨n, k1, l1, hc, hn, hf1, h1, hlen1⟩
  · exact ⟨none, k, [], by rw [procPagetable, hc], Frame.rfl', .inl ⟨rfl, hfree, rfl, Nat.zero_le 5⟩⟩
  · obtain ⟨ok, k2, l2, hk2, hf2, ⟨hlen2, hnil2, -⟩, hyes, hno⟩ := mappages_fixed (v := 2 ^ 26 - 1) (g := tr)
      (PTE_R ||| PTE_X) h1 hT (by omega) (Finset.notMem_empty _) rfl (by decide) htr
      (isLeaf_of_flags (by unfold IsLeaf; decide)) (by rw [pte_and (by decide)]; decide)
    rw [procPagetable, hc]
    simp only [trampoline_eq, htreq, hk2, bind_eq_bind, bind_some]
    cases ok with
    | false =>
      obtain ⟨k', l', hk', hfree', hl', hf'⟩ := uvmfree_free 0 (by simpa [npages] using hno rfl) hT
      rw [hnil2 rfl, List.length_nil] at hlen2
      refine ⟨none, k', l', ?_, hf1.trans (hf2.trans hf'), .inl ⟨rfl, hfree', hl', by omega⟩⟩
      simp [hk']
    | true =>
      have h2 := hyes rfl
      obtain ⟨ok, k3, l3, hk3, hf3, ⟨hlen3, hnil3, -⟩, hyes', hno'⟩ := mappages_fixed (v := 2 ^ 26 - 2) (g := tf)
        (PTE_R ||| PTE_W) h2 hT (by omega) (Finset.notMem_empty _)
        (by rw [update_of_ne (by omega)]) (by decide) htf
        (isLeaf_of_flags (by unfold IsLeaf; decide)) (by rw [pte_and (by decide)]; decide)
      simp only [if_true, trapframe_eq, hk3, bind_some]
      cases ok with
      | true =>
        refine ⟨some (4096 * n), k3, l3, rfl, hf1.trans (hf2.trans hf3), .inr ⟨n, hn, rfl, ?_, by omega⟩⟩
        rw [procFixed, htreq]
        exact hyes' rfl
      | false =>
        obtain ⟨k4, hk4, hf4, h4⟩ := uvmunmap_fixed (v := 2 ^ 26 - 1) (hno' rfl) hT (by omega)
          (Finset.notMem_empty _) (update_self _ _ _)
        have hnone : update (update (fun _ => none) (2 ^ 26 - 1) (some (4096 * tr)))
            (2 ^ 26 - 1) none = fun _ : Nat => (none : Option Nat) := by
          rw [update_idem]
          exact update_eq_self _ _
        rw [hnone] at h4
        obtain ⟨k', l', hk', hfree', hl', hf'⟩ := uvmfree_free 0 (by simpa [npages] using h4) hT
        rw [hnil3 rfl, List.length_nil] at hlen3
        refine ⟨none, k', l', ?_, hf1.trans (hf2.trans (hf3.trans (hf4.trans hf'))), .inl ⟨rfl, hfree', hl', by omega⟩⟩
        simp only [Bool.false_eq_true, if_false, hk4, hk', bind_some]

/-! ## Copying -/

theorem pteFlags_or : (pteFlags e ||| PTE_V) >>> 10 = 0#64 := by
  have h : (0x3FF : Pte) >>> 10 = 0#64 := by decide
  rw [pteFlags, BitVec.ushiftRight_or_distrib, BitVec.ushiftRight_and_distrib, h, BitVec.and_zero, BitVec.zero_or]
  decide

theorem IsLeaf.pteFlags (h : IsLeaf e) : IsLeaf (pteFlags e ||| PTE_V) := by
  have hor : ∀ mask : Pte, 0x3FF &&& mask = mask →
      (Vm.pteFlags e ||| PTE_V) &&& mask = e &&& mask ||| PTE_V &&& mask := fun mask hmask => by
    rw [Vm.pteFlags, BitVec.and_or_distrib_right, BitVec.and_assoc, hmask]
  refine ⟨?_, fun hc => ?_⟩
  · rw [hor _ (by decide)]
    exact fun hc => h.1 (BitVec.or_eq_zero_iff.mp hc).1
  · rw [hor _ (by decide)] at hc
    exact h.2 (BitVec.or_eq_zero_iff.mp hc).1

/-- The flags of a valid entry have the valid bit. -/
theorem pteFlags_or_valid (h : e &&& PTE_V ≠ 0) : Vm.pteFlags e ||| PTE_V = Vm.pteFlags e := by
  have hV : e &&& PTE_V = PTE_V := by
    have := BitVec.and_one_eq_setWidth_ofBool_getLsbD (x := e)
    rw [PTE_V] at h ⊢
    rw [show (1 : Pte) = 1#64 from rfl] at h ⊢
    rw [this] at h ⊢
    cases hb : e.getLsbD 0 with
    | true => decide
    | false =>
      rw [hb] at h
      exact absurd rfl h
  rw [Vm.pteFlags]
  nth_rewrite 1 [← hV]
  rw [← BitVec.and_or_distrib_left]
  rfl

/-- The virtual page `v` of the space `n`, in the memory `m'`, is a copy of that of
the space `o`, in the memory `m`. -/
def Copied (o n : Nat) (m m' : Bytes) (v : Nat) : Prop :=
  pteFlags (pteAt m' n v) = pteFlags (pteAt m o v) ∧
    ∀ i < 4096, m' (pte2pa (pteAt m' n v) + i) = m (pte2pa (pteAt m o v) + i)

/-- A copy made after a change of other pages. -/
theorem Copied.of_frame (h : Copied o n m1 m' v) (hf : Frame T m m1)
    (ht : ∀ q ∈ tables m o, q ∉ T) (hv : pte2pa (pteAt m o v) / 4096 ∉ T) : Copied o n m m' v := by
  have hpte := (tables_frame hf ht).2.1 v
  have hpa := pte2pa_eq (pteAt m o v)
  rw [Copied, hpte] at h
  exact ⟨h.1, fun i hi => (h.2 i hi).trans (hf _ (by rwa [show (pte2pa (pteAt m o v) + i) / 4096 = pte2pa (pteAt m o v) / 4096 by omega]))⟩

/-- A copy that is kept. -/
theorem Copied.keep (h : Copied o n m m1 v) (hk : Keeps n U C m1 m')
    (hv : v < VPAGES) (hvU : v ∈ U) (hvC : v ∉ C) : Copied o n m m' v := by
  have hpa := pte2pa_eq (pteAt m1 n v)
  rw [Copied, hk.pte v hv hvC]
  exact ⟨h.1, fun i hi => (hk.bytes v hvU hvC _ (by omega)).trans (h.2 i hi)⟩

/-- The loop of `uvmcopy` gives the new space a copy of every page of the old
one, in a page that was free, or unmaps all the copies it has made. -/
theorem uvmcopyLoop_holds {vo : Nat} (hold : Space k.mem o Po (range vo) fo) (hdis : ∀ q ∈ tables k.mem o, q ∉ T)
    (hdis' : ∀ q ∈ userPages k.mem o (range vo), q ∉ T)
    (h : Holds k l n (fun _ => True) (range v) fixed T) (hT : T ≤ L.frames.val)
    (hfix : ∀ w < 2 ^ 26 - 2, fixed w = none) (hvc : v + c ≤ vo) :
    ∃ ok k' l', uvmcopyLoop L (4096 * o) (4096 * n) c k (4096 * v) = some (ok, k') ∧ Frame T k.mem k'.mem ∧
      (ok = true → Holds k' l' n (fun _ => True) (range (v + c)) fixed T ∧
        Keeps n (range v) (Ico v (v + c)) k.mem k'.mem ∧
        ∀ w, v ≤ w → w < v + c → Copied o n k.mem k'.mem w ∧ pte2pa (pteAt k'.mem n w) / 4096 ∈ l) ∧
      (ok = false → Holds k' l' n (fun _ => True) ∅ fixed T) := by
  induction c generalizing k l v with
  | zero => exact ⟨true, k, l, rfl, Frame.rfl', fun _ => ⟨h, .rfl', fun w hw hw' => by omega⟩, fun hc => by cases hc⟩
  | succ c ih =>
    have hvo : v ∈ range vo := mem_range.mpr (by omega)
    have hleaf := (hold.user v hvo).1
    obtain ⟨q, hq, -, hpte⟩ := find_of_valid hleaf.1
    have hread : read64 k.mem (entry q (path v 0)) = pteAt k.mem o v := hpte
    have hi : 4096 * v / PGSIZE = v := Nat.mul_div_cancel_left v (by decide)
    simp only [uvmcopyLoop, walk_find (hold.lt v hvo), hq, map_some, bind_eq_bind, bind_some, hread, if_neg hleaf.1, hi]
    cases l with
    | nil =>
      obtain ⟨k', l', hk', hf', h'⟩ := uvmunmap_all h hT hfix
      refine ⟨false, k', l', ?_, hf', (nomatch ·), fun _ => h'⟩
      rw [kalloc_nil h.free]
      simp [hk']
    | cons g l =>
      have hg : g < 2 ^ 44 := by
        have := Layout.lt_of_mem (mem_of_le hT (h.mem_of_free List.mem_cons_self))
        omega
      obtain ⟨k1, T1, hk1, rfl, hf1, hmap⟩ := h.mapNext _ hT hfix pteFlags_or (isLeaf_of_flags hleaf.pteFlags) trivial
      obtain ⟨ok, k3, l3, hk3, hframe, -, hyes, hno, hkeep3, hsuf, hbytes⟩ :=
        hmap (memmove k1.mem (4096 * g) (pte2pa (pteAt k.mem o v)) 4096) (Frame.move (le_refl _) (le_refl _))
      have hsing : ({g} : Multiset Nat) ≤ g ::ₘ T1 := singleton_le.mpr (mem_cons_self g T1)
      rw [hk1]
      simp only [hk3, bind_some]
      cases ok with
      | true =>
        obtain ⟨h3, -, hpte3⟩ := hyes rfl
        obtain ⟨hold3, htab3, huser3⟩ := hold.frame hframe hdis
        obtain ⟨ok, k', l', hk', hf', hyes', hno'⟩ := ih hold3 (by rw [htab3]; exact hdis) (by rw [huser3]; exact hdis')
          h3 (by omega)
        refine ⟨ok, k', l', ?_, hframe.trans hf', fun hok => ?_, hno'⟩
        · rw [show 4096 * (v + 1) = 4096 * v + PGSIZE by simp only [PGSIZE]; omega] at hk'
          exact hk'
        · obtain ⟨h', hkeep, hcopy⟩ := hyes' hok
          rw [show v + (c + 1) = v + 1 + c by omega]
          have hv26 := h3.user_lt hT
          have hpa : pte2pa (pteAt k3.mem n v) = 4096 * g := by rw [hpte3, BitVec.or_assoc, pte2pa_or hg pteFlags_or]
          have hsrc : ∀ w < vo, pte2pa (pteAt k.mem o w) / 4096 ∉ g ::ₘ T1 := fun w hw =>
            hdis' _ (mem_userPages (mem_range.mpr hw))
          have hcopy3 : Copied o n k.mem k3.mem v := by
            have hpage := pte2pa_eq (pteAt k.mem o v)
            refine ⟨?_, fun i hi => ?_⟩
            · rw [hpte3, pteFlags_map (by rw [pteFlags_or_valid hleaf.1, pteFlags, BitVec.and_assoc]; rfl),
                pteFlags_or_valid hleaf.1]
            · rw [hpa, hbytes _ (by omega), memmove, UserMem.move, if_pos (by omega), Nat.add_sub_cancel_left]
              refine hf1 _ fun hc => hsrc v (by omega) ?_
              rw [show pte2pa (pteAt k.mem o v) / 4096 = g by rw [← mem_singleton.mp hc]; omega]
              exact mem_cons_self g T1
          refine ⟨h', ?_, fun w hw hw' => ?_⟩
          · refine hkeep3.trans (hkeep.mono (le_refl _) (Finset.Ico_subset_Ico_left (by omega))) h.space.lt
              (Finset.singleton_subset_iff.mpr (mem_Ico.mpr (by omega))) fun w hw _ => ?_
            rw [mem_range] at hw ⊢
            omega
          · rcases Nat.eq_or_lt_of_le hw with rfl | hw
            · have hvC : v ∉ Ico (v + 1) (v + 1 + c) := by rw [mem_Ico]; omega
              have hVP : v < VPAGES := by simp only [VPAGES]; omega
              refine ⟨hcopy3.keep hkeep hVP (mem_range.mpr (by omega)) hvC, ?_⟩
              rw [hkeep.pte v hVP hvC, hpa, Nat.mul_div_cancel_left g (by decide)]
              exact List.mem_cons_self
            · obtain ⟨hcopy, hmem⟩ := hcopy w hw hw'
              exact ⟨hcopy.of_frame hframe hdis (hsrc w (by omega)), List.mem_cons_of_mem g (hsuf.mem hmem)⟩
      | false =>
        obtain ⟨k4, hk4, hf4, h4⟩ := (hno rfl).kfree hT
        obtain ⟨k', l', hk', hf', h'⟩ := uvmunmap_all h4 hT hfix
        refine ⟨false, k', l', ?_, hframe.trans ((hf4.mono hsing).trans hf'), (nomatch ·), fun _ => h'⟩
        simp [hk4, hk']

/-- `uvmcopy` copies the whole space into pages that were free, or leaves the new
one empty. -/
theorem uvmcopy_holds (hold : Space k.mem o Po (range (npages sz)) fo) (hdis : ∀ q ∈ tables k.mem o, q ∉ T)
    (hdis' : ∀ q ∈ userPages k.mem o (range (npages sz)), q ∉ T) (h : Holds k l n (fun _ => True) ∅ fixed T)
    (hT : T ≤ L.frames.val) (hfix : ∀ w < 2 ^ 26 - 2, fixed w = none) :
    ∃ ok k' l', uvmcopy L k (4096 * o) (4096 * n) sz = some (ok, k') ∧ Frame T k.mem k'.mem ∧
      (ok = true → Holds k' l' n (fun _ => True) (range (npages sz)) fixed T ∧
        ∀ w < npages sz, Copied o n k.mem k'.mem w ∧ pte2pa (pteAt k'.mem n w) / 4096 ∈ l) ∧
      (ok = false → Holds k' l' n (fun _ => True) ∅ fixed T) := by
  obtain ⟨ok, k', l', hk', hf', hyes, hno⟩ := uvmcopyLoop_holds (v := 0) (c := npages sz) hold hdis hdis'
    (by rw [Finset.range_zero]; exact h) hT hfix (by omega)
  rw [zero_add] at hyes
  refine ⟨ok, k', l', hk', hf', fun hok => ?_, hno⟩
  obtain ⟨h', -, hcopy⟩ := hyes hok
  exact ⟨h', fun w hw => hcopy w (Nat.zero_le w) hw⟩

/-! ## The guard page -/

theorem and_not_PTE_U (hm : ~~~PTE_U &&& mask = mask) : (e &&& ~~~PTE_U) &&& mask = e &&& mask := by
  rw [BitVec.and_assoc, hm]

theorem pte2pa_and_not : pte2pa (e &&& ~~~PTE_U) = pte2pa e := by
  have hshift : (e &&& ~~~PTE_U) >>> 10 = e >>> 10 := by
    have h : (~~~PTE_U) >>> 10 = (BitVec.allOnes 64) >>> 10 := by decide
    rw [BitVec.ushiftRight_and_distrib, h, ← BitVec.ushiftRight_and_distrib, BitVec.and_allOnes]
  rw [pte2pa, hshift]
  rfl

/-- `uvmclear` takes a page from the user, not from the space. -/
theorem uvmclear_holds (h : Holds k l n P U fixed T) (hT : T ≤ L.frames.val) (hv : v ∈ U) :
    ∃ k', uvmclear k (4096 * n) (4096 * v) = some k' ∧ Frame T k.mem k'.mem ∧
      Holds k' l n (fun _ => True) U fixed T ∧ Keeps n U {v} k.mem k'.mem ∧ pteAt k'.mem n v &&& PTE_U = 0 := by
  obtain ⟨hnt, htl, hul⟩ := h.disjoint hT
  have hlt := h.space.lt v hv
  have hVP : ∀ w ∈ U, w < VPAGES := fun w hw => by
    have := h.space.lt w hw
    simp only [VPAGES]
    omega
  have hleaf := (h.space.user v hv).1
  obtain ⟨q, hq, hqt, hpte⟩ := find_of_valid hleaf.1
  have hread : read64 k.mem (entry q (path v 0)) = pteAt k.mem n v := hpte
  obtain ⟨htab, hpte', hdir, hframe⟩ :=
    tables_write (e := pteAt k.mem n v &&& ~~~PTE_U) hnt (hVP v hv) hq rfl
  refine ⟨{ k with mem := write64 k.mem (entry q (path v 0)) (pteAt k.mem n v &&& ~~~PTE_U) }, ?_, ?_,
    ⟨h.free.frame hframe fun x hx hxq => htl q hqt (mem_singleton.mp hxq ▸ hx),
      ⟨hdir h.space.dir, h.space.lt, fun w hw => ⟨?_, trivial⟩, fun w hw hwU => ?_⟩, ?_⟩,
    .of_frame hframe (fun w hw hwv => ?_) fun w hw _ hwq => ?_, ?_⟩
  · simp [uvmclear, walk_find hlt, hq, hread]
  · refine hframe.mono ?_
    rw [singleton_le]
    exact h.mem_of_tables hqt
  · rw [hpte' w (hVP w hw)]
    split
    · rw [IsLeaf, and_not_PTE_U (by decide), and_not_PTE_U (by decide)]
      exact hleaf
    · exact (h.space.user w hw).1
  · have hwv : w ≠ v := fun hwv => hwU (hwv ▸ hv)
    rw [hpte' w hw, if_neg hwv]
    exact h.space.rest w hw hwU
  · have huser : userPages (write64 k.mem (entry q (path v 0)) (pteAt k.mem n v &&& ~~~PTE_U)) n U =
        userPages k.mem n U := by
      refine Multiset.map_congr rfl fun w hw => ?_
      rw [hpte' w (hVP w hw)]
      split
      · rename_i hwv
        rw [pte2pa_and_not, hwv]
      · rfl
    rw [htab, huser]
    exact h.total
  · rw [hpte' w hw, if_neg (Finset.notMem_singleton.mp hwv)]
  · refine (hul _ (mem_userPages hw)).2 ?_
    rw [mem_singleton.mp hwq]
    exact hqt
  · rw [hpte' v (hVP v hv), if_pos rfl, BitVec.and_assoc]
    exact BitVec.and_zero

end Xv6.Vm
