import Xv6.Vm.Walk

/-!
# Address spaces

`mappages`, `uvmunmap` and `freewalk` of `kernel/vm.c`. `Space m n P U fixed`
says what the page table with root page `n` maps: the virtual pages `U` of the
user, whose entries satisfy `P`, and the pages `fixed` assigns (the trampoline
and the trapframe); nothing else. `Holds` adds what it owns: the free list, the
tables and the user pages are together the pages `T`, each once. Every
operation here moves pages between the three and keeps `T`
(`mappages_user`, `uvmunmap_user`, `freewalk_free`), and changes no byte
outside of `T`.
-/

namespace Xv6.Vm

open Framework Function Multiset Option Radix

/-- The loop of `mappages`, over `n` pages. -/
def mappagesLoop (pagetable : Nat) (perm : Pte) : Nat → Kmem → Nat → Nat → Option (Bool × Kmem)
  | 0, k, _, _ => some (true, k)
  | n + 1, k, a, pa => do
    let (pte, k) ← walk k pagetable a true
    match pte with
    | none => some (false, k)
    | some pte =>
      -- panic("mappages: remap")
      if read64 k.mem pte &&& PTE_V ≠ 0 then none
      else
        let mem := write64 k.mem pte (pa2pte pa ||| perm ||| PTE_V)
        mappagesLoop pagetable perm n { k with mem := mem } (a + PGSIZE) (pa + PGSIZE)

/-- `mappages`: whether it succeeds. -/
def mappages (k : Kmem) (pagetable va size pa : Nat) (perm : Pte) : Option (Bool × Kmem) :=
  if size = 0 then none
  else
    let a := pgrounddown va
    let last := pgrounddown (va + size - 1)
    mappagesLoop pagetable perm ((last - a) / PGSIZE + 1) k a pa

variable (L : Layout)

/-- The loop of `uvmunmap`. -/
def uvmunmapLoop (pagetable : Nat) (doFree : Bool) : Nat → Kmem → Nat → Option Kmem
  | 0, k, _ => some k
  | n + 1, k, a => do
    let (pte, k) ← walk k pagetable a false
    let pte ← pte
    let e := read64 k.mem pte
    if e &&& PTE_V = 0 then none
    else if pteFlags e = PTE_V then none
    else
      let k ← if doFree then kfree L k (pte2pa e) else some k
      uvmunmapLoop pagetable doFree n { k with mem := write64 k.mem pte 0 } (a + PGSIZE)

def uvmunmap (k : Kmem) (pagetable va npages : Nat) (doFree : Bool) : Option Kmem :=
  if va % PGSIZE ≠ 0 then none else uvmunmapLoop L pagetable doFree npages k va

/-- An iteration of `freewalk`, which calls itself as `free`. -/
def freewalkEntry (free : Kmem → Nat → Option Kmem) (pagetable : Nat) (k : Kmem) (i : Fin 512) : Option Kmem :=
  let pte := read64 k.mem (pagetable + 8 * i)
  if pte &&& PTE_V ≠ 0 ∧ pte &&& (PTE_R ||| PTE_W ||| PTE_X) = 0 then do
    let k ← free k (pte2pa pte)
    some { k with mem := write64 k.mem (pagetable + 8 * i) 0 }
  else if pte &&& PTE_V ≠ 0 then none
  else some k

/-- `freewalk`, down to tables at the given depth. A page table has three
levels. -/
def freewalk : Nat → Kmem → Nat → Option Kmem
  | 0, _, _ => none
  | depth + 1, k, pagetable => do
    kfree L (← (List.finRange 512).foldlM (freewalkEntry (freewalk depth) pagetable) k) pagetable

/-! ## What an entry maps -/

/-- An entry that maps a page. -/
def IsLeaf (pte : Pte) : Prop := pte &&& PTE_V ≠ 0 ∧ pte &&& (PTE_R ||| PTE_W ||| PTE_X) ≠ 0

/-- An entry that maps the page at `pa` for the kernel only, or nothing. -/
def FixedAt : Option Nat → Pte → Prop
  | none, pte => pte &&& PTE_V = 0
  | some pa, pte => IsLeaf pte ∧ pte2pa pte = pa ∧ pte &&& PTE_U = 0

theorem IsLeaf.flags {pte : Pte} (h : IsLeaf pte) : pteFlags pte ≠ PTE_V := by
  intro hf
  have : pte &&& (PTE_R ||| PTE_W ||| PTE_X) = pteFlags pte &&& (PTE_R ||| PTE_W ||| PTE_X) := by
    rw [pteFlags, BitVec.and_assoc]
    rfl
  rw [hf] at this
  exact h.2 (this.trans (by decide))

/-- The virtual pages below the highest address. -/
abbrev VPAGES : Nat := 2 ^ 27

variable {L} {k k' : Kmem} {l l' : List Nat} {m m' : Bytes} {n v q g c pa : Nat} {e perm : Pte} {S : Multiset Nat}

/-! ## One entry -/

theorem walk_find (hv : v < 2 ^ 26) : walk k (4096 * n) (4096 * v) false =
    some ((find next (ptes k.mem) 2 n (path v)).map (entry · (path v 0)), k) := by
  rw [walk, if_neg (by simp only [MAXVA]; omega), walkFrom_find, px_eq,
    Nat.mul_div_cancel_left v (by decide)]

theorem walk_alloc (hv : v < 2 ^ 26) (hfree : k.Free l) (hT : l + tables k.mem n ≤ L.frames.val) :
    ∃ k' l', walk k (4096 * n) (4096 * v) true =
        some ((find next (ptes k'.mem) 2 n (path v)).map (entry · (path v 0)), k') ∧
      Grown 2 n k l k' l' ∧ l.length ≤ l'.length + 2 ∧
      (find next (ptes k'.mem) 2 n (path v) = none → l' = []) ∧
      (find next (ptes k.mem) 2 n (path v) = none ∨ k' = k ∧ l' = l) := by
  have hpage : 4096 * v / 4096 = v := Nat.mul_div_cancel_left v (by decide)
  obtain ⟨k', l', hw, hg, hlen, hnone⟩ := walkFrom_alloc (4096 * v) hfree hT
  rw [px_eq, hpage] at hw
  rw [hpage] at hnone
  refine ⟨k', l', ?_, hg, hlen, hnone⟩
  rw [walk, if_neg (by simp only [MAXVA]; omega), hw]

/-- A valid entry is in one of the tables. -/
theorem find_of_valid (h : pteAt m n v &&& PTE_V ≠ 0) :
    ∃ q, find next (ptes m) 2 n (path v) = some q ∧ q ∈ tables m n ∧
      ptes m q (path v 0) = pteAt m n v := by
  cases hf : find next (ptes m) 2 n (path v) with
  | none =>
    simp only [pteAt, leaf, hf, elim_none] at h
    exact absurd rfl h
  | some q =>
    refine ⟨q, rfl, find_mem hf, ?_⟩
    simp [pteAt, leaf, hf]

/-- What keeps the tables keeps the page table. -/
theorem tables_frame (hf : Frame S m m') (hS : ∀ q ∈ tables m n, q ∉ S) :
    tables m' n = tables m n ∧ (∀ v, pteAt m' n v = pteAt m n v) ∧
      (Dir next IsDir (ptes m) 2 n → Dir next IsDir (ptes m') 2 n) ∧
      ∀ f, find next (ptes m') 2 n f = find next (ptes m) 2 n f := by
  have hp : ∀ q ∈ tables m n, ptes m' q = ptes m q := fun q hq => ptes_frame hf (hS q hq)
  have hint : ∀ q ∈ interior next (ptes m) 2 n, ptes m' q = ptes m q := fun q hq =>
    hp q (mem_of_le interior_le hq)
  exact ⟨pages_congr hint, fun v => leaf_congr hp (path v), fun h => h.congr hint, find_congr hint⟩

/-- A store to the entry of virtual page `v` changes that entry only. -/
theorem tables_write (hn : (tables m n).Nodup) (hv : v < VPAGES)
    (hf : find next (ptes m) 2 n (path v) = some q) (hm : m' = write64 m (entry q (path v 0)) e) :
    tables m' n = tables m n ∧ (∀ w < VPAGES, pteAt m' n w = if w = v then e else pteAt m n w) ∧
      (Dir next IsDir (ptes m) 2 n → Dir next IsDir (ptes m') 2 n) ∧ Frame {q} m m' := by
  have hframe : Frame {q} m m' := hm ▸ Frame.write64 (le_entry q _) (entry_le q _)
  have hoth : ∀ r ∈ tables m n, r ≠ q → ptes m' r = ptes m r := fun r _ hr =>
    ptes_frame hframe (by simpa using hr)
  have hint := interior_set hn hf hoth
  refine ⟨pages_congr hint, fun w hw => ?_, fun h => h.congr hint, hframe⟩
  rw [pteAt, leaf_set hn hf (hm ▸ ptes_write64 m q _ e) hoth]
  refine if_congr ⟨fun h => path_inj hw hv h, ?_⟩ rfl rfl
  rintro rfl
  exact fun _ _ => rfl

theorem mappages_one : mappages k (4096 * n) (4096 * v) PGSIZE pa perm =
    mappagesLoop (4096 * n) perm 1 k (4096 * v) pa := by
  have h1 : pgrounddown (4096 * v) = 4096 * v := by simp only [pgrounddown, PGSIZE]; omega
  have h2 : pgrounddown (4096 * v + PGSIZE - 1) = 4096 * v := by simp only [pgrounddown, PGSIZE]; omega
  rw [mappages, if_neg (by decide)]
  simp only [h1, h2, Nat.sub_self, Nat.zero_div]

/-- A longer mapping, after its first page. -/
theorem mappagesLoop_bind : mappagesLoop (4096 * n) perm (c + 1) k (4096 * v) pa =
    (mappages k (4096 * n) (4096 * v) PGSIZE pa perm).bind fun r =>
      if r.1 then mappagesLoop (4096 * n) perm c r.2 (4096 * v + PGSIZE) (pa + PGSIZE) else some (false, r.2) := by
  rw [mappages_one]
  simp only [mappagesLoop, bind_eq_bind]
  cases walk k (4096 * n) (4096 * v) true with
  | none => rfl
  | some r =>
    obtain ⟨pte, k1⟩ := r
    cases pte with
    | none => rfl
    | some pte =>
      simp only [bind_some]
      split <;> rfl

/-- `mappages` of one page sets its entry, or runs out of memory. It takes two
pages at most, and none if the table is there. -/
theorem mappages_page (pa : Nat) (perm : Pte) (hfree : k.Free l) (hT : l + tables k.mem n ≤ L.frames.val)
    (hv : v < 2 ^ 26) (hnone : pteAt k.mem n v &&& PTE_V = 0) :
    ∃ ok k' l', mappages k (4096 * n) (4096 * v) PGSIZE pa perm = some (ok, k') ∧
      (l.length ≤ l'.length + 2 ∧ (ok = false → l' = []) ∧
        (find next (ptes k.mem) 2 n (path v) = none ∨ ok = true ∧ l' = l) ∧ l' <:+ l) ∧ k'.Free l' ∧
      l' + tables k'.mem n = l + tables k.mem n ∧ Frame (l + tables k.mem n) k.mem k'.mem ∧
      (Dir next IsDir (ptes k.mem) 2 n → Dir next IsDir (ptes k'.mem) 2 n) ∧
      ∀ w < VPAGES, pteAt k'.mem n w =
        if ok = true ∧ w = v then pa2pte pa ||| perm ||| PTE_V else pteAt k.mem n w := by
  obtain ⟨k1, l1, hw, hg, hlen, hnil, hfound⟩ := walk_alloc hv hfree hT
  rw [mappages_one]
  simp only [mappagesLoop, hw, bind_eq_bind, bind_some]
  cases hf : find next (ptes k1.mem) 2 n (path v) with
  | none =>
    refine ⟨false, k1, l1, rfl, ⟨hlen, fun _ => hnil hf, .inl ?_, hg.suffix⟩, hg.free, hg.total, hg.frame, hg.dir,
      fun w _ => ?_⟩
    · rcases hfound with hfound | ⟨rfl, -⟩
      · exact hfound
      · exact hf
    · rw [if_neg (by simp)]
      exact hg.leaf (path w)
  | some q =>
    have hT1 : l1 + tables k1.mem n ≤ L.frames.val := hg.total.trans_le hT
    have hnodup := nodup_add.mp (nodup_of_le hT1 L.frames.nodup)
    have hpte : read64 k1.mem (entry q (path v 0)) = pteAt k1.mem n v := by
      simp only [pteAt, leaf, hf, elim_some]
      rfl
    have hnone1 : pteAt k1.mem n v &&& PTE_V = 0 := by rw [pteAt, hg.leaf]; exact hnone
    obtain ⟨htab, hpte', hdir, hframe⟩ :=
      tables_write (e := pa2pte pa ||| perm ||| PTE_V) hnodup.2.1
        (show v < VPAGES by simp only [VPAGES]; omega) hf rfl
    have hq : q ∈ tables k1.mem n := find_mem hf
    simp only [map_some, hpte, if_neg (not_not.mpr hnone1)]
    refine ⟨true, _, l1, rfl, ⟨hlen, by simp, hfound.imp id fun h => ⟨rfl, h.2⟩, hg.suffix⟩, ?_, ?_, ?_,
      fun h => hdir (hg.dir h), fun w hw => ?_⟩
    · refine hg.free.frame hframe fun x hx hxq => ?_
      rw [mem_singleton.mp hxq] at hx
      exact disjoint_left.mp hnodup.2.2 (mem_coe.mpr hx) hq
    · exact (congrArg _ htab).trans hg.total
    · refine hg.frame.trans (hframe.mono ?_)
      rw [singleton_le]
      exact hg.total ▸ mem_add.mpr (.inr hq)
    · rw [hpte' w hw]
      simp only [true_and]
      exact if_congr Iff.rfl rfl (hg.leaf (path w))

/-! ## Address spaces -/

/-- The page table with root page `n` maps the virtual pages `U` for the user
and the pages of `fixed` for the kernel. -/
structure Space (m : Bytes) (n : Nat) (P : Pte → Prop) (U : Finset Nat) (fixed : Nat → Option Nat) : Prop where
  dir : Dir next IsDir (ptes m) 2 n
  lt : ∀ v ∈ U, v < 2 ^ 26
  user : ∀ v ∈ U, IsLeaf (pteAt m n v) ∧ P (pteAt m n v)
  rest : ∀ v < VPAGES, v ∉ U → FixedAt (fixed v) (pteAt m n v)

/-- The pages mapped at `U`. -/
def userPages (m : Bytes) (n : Nat) (U : Finset Nat) : Multiset Nat :=
  U.val.map fun v => pte2pa (pteAt m n v) / 4096

/-- The page table with root `n` keeps its entries, but for those of the virtual
pages `C`, and the pages of `U` that it keeps hold what they held. -/
structure Keeps (n : Nat) (U C : Finset Nat) (m m' : Bytes) : Prop where
  pte : ∀ v < VPAGES, v ∉ C → pteAt m' n v = pteAt m n v
  bytes : ∀ v ∈ U, v ∉ C → ∀ x, x / 4096 = pte2pa (pteAt m n v) / 4096 → m' x = m x

/-- The byte at the virtual address `a`, if its page is mapped. -/
def vbyte (m : Bytes) (n a : Nat) : Byte := m (pte2pa (pteAt m n (a / 4096)) + a % 4096)

/-- The free list and the page table with root `n` own the pages `T`. -/
structure Holds (k : Kmem) (l : List Nat) (n : Nat) (P : Pte → Prop) (U : Finset Nat)
    (fixed : Nat → Option Nat) (T : Multiset Nat) : Prop where
  free : k.Free l
  space : Space k.mem n P U fixed
  total : l + (tables k.mem n + userPages k.mem n U) = T

variable {P : Pte → Prop} {U : Finset Nat} {fixed : Nat → Option Nat} {T : Multiset Nat}

theorem mem_userPages (hv : v ∈ U) : pte2pa (pteAt m n v) / 4096 ∈ userPages m n U :=
  mem_map_of_mem (fun v => pte2pa (pteAt m n v) / 4096) hv

theorem userPages_congr (h : ∀ v ∈ U, pteAt m' n v = pteAt m n v) : userPages m' n U = userPages m n U :=
  Multiset.map_congr rfl fun v hv => by rw [h v hv]

theorem userPages_insert (hv : v ∉ U) :
    userPages m n (insert v U) = pte2pa (pteAt m n v) / 4096 ::ₘ userPages m n U := by
  rw [userPages, Finset.insert_val_of_notMem hv, map_cons]
  rfl

theorem userPages_erase (hv : v ∈ U) :
    userPages m n U = pte2pa (pteAt m n v) / 4096 ::ₘ userPages m n (U.erase v) := by
  conv_lhs => rw [← Finset.insert_erase hv]
  exact userPages_insert (Finset.notMem_erase v U)

namespace Keeps

variable {U' C C' : Finset Nat} {m1 : Bytes}

theorem rfl' : Keeps n U C m m := ⟨fun _ _ _ => rfl, fun _ _ _ _ _ => rfl⟩

theorem trans (h1 : Keeps n U C m m1) (h2 : Keeps n U' C' m1 m') (hlt : ∀ v ∈ U, v < 2 ^ 26) (hC : C ⊆ C')
    (hU : ∀ v ∈ U, v ∉ C' → v ∈ U') : Keeps n U C' m m' := by
  refine ⟨fun v hv hvC => ?_, fun v hv hvC x hx => ?_⟩
  · rw [h2.pte v hv hvC, h1.pte v hv fun hc => hvC (hC hc)]
  · have hvC1 : v ∉ C := fun hc => hvC (hC hc)
    have hVP : v < VPAGES := Nat.lt_trans (hlt v hv) (by decide)
    rw [h2.bytes v (hU v hv hvC) hvC x (by rw [h1.pte v hVP hvC1]; exact hx), h1.bytes v hv hvC1 x hx]

theorem mono (h : Keeps n U C m m') (hU : U' ⊆ U) (hC : C ⊆ C') : Keeps n U' C' m m' :=
  ⟨fun v hv hvC => h.pte v hv fun hc => hvC (hC hc), fun v hv hvC => h.bytes v (hU hv) fun hc => hvC (hC hc)⟩

/-- A change of other pages. -/
theorem of_frame (hf : Frame S m m') (hpte : ∀ v < VPAGES, v ∉ C → pteAt m' n v = pteAt m n v)
    (hS : ∀ v ∈ U, v ∉ C → pte2pa (pteAt m n v) / 4096 ∉ S) : Keeps n U C m m' :=
  ⟨hpte, fun v hv hvC x hx => hf x (hx ▸ hS v hv hvC)⟩

/-- A change outside of the tables and of the pages of the user. -/
theorem of_outside (hf : Frame S m m') (ht : ∀ q ∈ tables m n, q ∉ S)
    (hu : ∀ q ∈ userPages m n U, q ∉ S) : Keeps n U C m m' :=
  .of_frame hf (fun v _ _ => (tables_frame hf ht).2.1 v) fun _ hv _ => hu _ (mem_userPages hv)

theorem vbyte (h : Keeps n U C m m') {a : Nat} (ha : a / 4096 < VPAGES) (hU : a / 4096 ∈ U) (hC : a / 4096 ∉ C) :
    vbyte m' n a = vbyte m n a := by
  have hpage := pte2pa_eq (pteAt m n (a / 4096))
  rw [Vm.vbyte, Vm.vbyte, h.pte _ ha hC]
  exact h.bytes _ hU hC _ (by omega)

end Keeps

namespace Space

/-- What keeps the tables keeps the space. -/
theorem frame (h : Space m n P U fixed) (hf : Frame S m m') (hS : ∀ q ∈ tables m n, q ∉ S) :
    Space m' n P U fixed ∧ tables m' n = tables m n ∧ userPages m' n U = userPages m n U := by
  obtain ⟨h1, h2, h3, -⟩ := tables_frame hf hS
  refine ⟨⟨h3 h.dir, h.lt, fun v hv => ?_, fun v hv hU => ?_⟩, h1, userPages_congr fun v _ => h2 v⟩
  · rw [h2]
    exact h.user v hv
  · rw [h2]
    exact h.rest v hv hU

theorem mono (h : Space m n P U fixed) : Space m n (fun _ => True) U fixed :=
  ⟨h.dir, h.lt, fun v hv => ⟨(h.user v hv).1, trivial⟩, h.rest⟩

end Space

namespace Holds

theorem tables_le (h : Holds k l n P U fixed T) : l + tables k.mem n ≤ T := by
  rw [← h.total, ← add_assoc]
  exact Multiset.le_add_right _ _

theorem mem_of_tables (h : Holds k l n P U fixed T) (hq : q ∈ tables k.mem n) : q ∈ T :=
  mem_of_le h.tables_le (mem_add.mpr (.inr hq))

theorem mem_of_free (h : Holds k l n P U fixed T) (hq : q ∈ l) : q ∈ T :=
  mem_of_le h.tables_le (mem_add.mpr (.inl (mem_coe.mpr hq)))

/-- No page is owned twice. -/
theorem disjoint (h : Holds k l n P U fixed T) (hT : T ≤ L.frames.val) :
    (tables k.mem n).Nodup ∧ (∀ q ∈ tables k.mem n, q ∉ l) ∧
      (∀ q ∈ userPages k.mem n U, q ∉ l ∧ q ∉ tables k.mem n) := by
  have hn := nodup_of_le hT L.frames.nodup
  rw [← h.total] at hn
  obtain ⟨-, h2, h3⟩ := nodup_add.mp hn
  obtain ⟨h4, -, h5⟩ := nodup_add.mp h2
  refine ⟨h4, fun q hq hl => ?_, fun q hq => ⟨fun hl => ?_, fun ht => ?_⟩⟩
  · exact disjoint_left.mp h3 (mem_coe.mpr hl) (mem_add.mpr (.inl hq))
  · exact disjoint_left.mp h3 (mem_coe.mpr hl) (mem_add.mpr (.inr hq))
  · exact disjoint_left.mp h5 ht hq

/-- A change of other pages. -/
theorem frame (h : Holds k l n P U fixed T) (hf : Frame S k.mem m')
    (hl : ∀ q ∈ l, q ∉ S) (ht : ∀ q ∈ tables k.mem n, q ∉ S) :
    Holds { k with mem := m' } l n P U fixed T := by
  obtain ⟨h1, h2, h3⟩ := h.space.frame hf ht
  refine ⟨h.free.frame hf hl, h1, ?_⟩
  rw [h2, h3]
  exact h.total

theorem frame_outside (h : Holds k l n P U fixed T) (hf : Frame S k.mem m')
    (hS : ∀ q ∈ S, q ∉ T) : Holds { k with mem := m' } l n P U fixed T :=
  h.frame hf (fun q hq hqS => hS q hqS (h.mem_of_free hq)) fun q hq hqS => hS q hqS (h.mem_of_tables hq)

/-- A page is taken from the free list. -/
theorem kalloc (h : Holds k (g :: l) n P U fixed T) (hT : T ≤ L.frames.val) :
    ∃ k1 T1, Vm.kalloc k = (some (4096 * g), k1) ∧ T = g ::ₘ T1 ∧ Frame {g} k.mem k1.mem ∧
      Holds k1 l n P U fixed T1 := by
  have hn := nodup_of_le hT L.frames.nodup
  have htot := h.total
  rw [← cons_coe, cons_add] at htot
  rw [← htot] at hn
  obtain ⟨hg, -⟩ := nodup_cons.mp hn
  obtain ⟨k1, hk1, hfree, hf⟩ := kalloc_cons h.free fun hl => hg (mem_add.mpr (.inl (mem_coe.mpr hl)))
  obtain ⟨h1, h2, h3⟩ := h.space.frame hf fun q hq hqg => by
    rw [mem_singleton.mp hqg] at hq
    exact hg (mem_add.mpr (.inr (mem_add.mpr (.inl hq))))
  refine ⟨k1, _, hk1, htot.symm, hf, hfree, h1, ?_⟩
  rw [h2, h3]

/-- A page is given to the free list. -/
theorem kfree (h : Holds k l n P U fixed T) (hT : g ::ₘ T ≤ L.frames.val) :
    ∃ k1, Vm.kfree L k (4096 * g) = some k1 ∧ Frame {g} k.mem k1.mem ∧
      Holds k1 (g :: l) n P U fixed (g ::ₘ T) := by
  have hg : g ∉ T := (nodup_cons.mp (nodup_of_le hT L.frames.nodup)).1
  have hl : (l : Multiset Nat) ≤ T := (Multiset.le_add_right _ _).trans h.tables_le
  obtain ⟨k1, hk1, hfree, hf⟩ := kfree_ok h.free (((cons_le_cons_iff g).mpr hl).trans hT)
  obtain ⟨h1, h2, h3⟩ := h.space.frame hf fun q hq hqg =>
    hg (mem_singleton.mp hqg ▸ h.mem_of_tables hq)
  refine ⟨k1, hk1, hf, hfree, h1, ?_⟩
  rw [h2, h3, ← cons_coe, cons_add, h.total]

end Holds

/-! ## `mappages` -/

/-- `mappages` of the page `g` at the free virtual page `v` gives `g` to the
space, or leaves it. -/
theorem mappages_user (h : Holds k l n P U fixed T) (hT : g ::ₘ T ≤ L.frames.val)
    (hv : v < 2 ^ 26) (hvU : v ∉ U) (hfix : fixed v = none) (hperm : (perm ||| PTE_V) >>> 10 = 0#64)
    (hleaf : IsLeaf (pa2pte (4096 * g) ||| perm ||| PTE_V)) (hP : P (pa2pte (4096 * g) ||| perm ||| PTE_V)) :
    ∃ ok k' l', mappages k (4096 * n) (4096 * v) PGSIZE (4096 * g) perm = some (ok, k') ∧
      Frame T k.mem k'.mem ∧ (l.length ≤ l'.length + 2 ∧ (ok = false → l' = [])) ∧
      (ok = true → Holds k' l' n P (insert v U) fixed (g ::ₘ T) ∧ g ∈ userPages k'.mem n (insert v U) ∧
        pteAt k'.mem n v = pa2pte (4096 * g) ||| perm ||| PTE_V) ∧
      (ok = false → Holds k' l' n P U fixed T) ∧ Keeps n U {v} k.mem k'.mem ∧ l' <:+ l := by
  have hT' : T ≤ L.frames.val := (le_cons_self T g).trans hT
  have hVP : ∀ w < 2 ^ 26, w < VPAGES := fun w hw => by simp only [VPAGES]; omega
  have hnone : pteAt k.mem n v &&& PTE_V = 0 := by
    have := h.space.rest v (hVP v hv) hvU
    rw [hfix] at this
    exact this
  obtain ⟨ok, k', l', hmap, hlen, hfree, htot, hframe, hdir, hpte⟩ :=
    mappages_page (4096 * g) perm h.free (h.tables_le.trans hT') hv hnone
  have hne : ∀ w ∈ U, w ≠ v := fun w hw hwv => hvU (hwv ▸ hw)
  have huser : userPages k'.mem n U = userPages k.mem n U :=
    userPages_congr fun w hw => by
      rw [hpte w (hVP w (h.space.lt w hw)), if_neg fun hc => hne w hw hc.2]
  have hsum : l' + (tables k'.mem n + userPages k'.mem n U) = T := by
    rw [← add_assoc, htot, huser, add_assoc, h.total]
  have hpages : ok = true → userPages k'.mem n (insert v U) = g ::ₘ userPages k'.mem n U := fun hok => by
    have hg : g < 2 ^ 44 := by
      have := Layout.lt_of_mem (mem_of_le hT (mem_cons_self g T))
      omega
    rw [userPages_insert hvU, hpte v (hVP v hv), if_pos ⟨hok, rfl⟩, BitVec.or_assoc, pte2pa_or hg hperm,
      Nat.mul_div_cancel_left g (by decide)]
  have hkeep : Keeps n U {v} k.mem k'.mem := by
    obtain ⟨-, -, hul⟩ := h.disjoint hT'
    refine .of_frame hframe (fun w hw hwv => ?_) fun w hw _ hc => ?_
    · rw [hpte w hw, if_neg fun hc => hwv (Finset.mem_singleton.mpr hc.2)]
    · obtain ⟨hl, ht⟩ := hul _ (mem_userPages hw)
      exact (mem_add.mp hc).elim (fun hc => hl (mem_coe.mp hc)) ht
  refine ⟨ok, k', l', hmap, hframe.mono h.tables_le, ⟨hlen.1, hlen.2.1⟩,
    fun hok => ⟨⟨hfree, ⟨hdir h.space.dir, ?_, ?_, ?_⟩, ?_⟩, ?_, by rw [hpte v (hVP v hv), if_pos ⟨hok, rfl⟩]⟩,
    fun hok => ⟨hfree, ⟨hdir h.space.dir, h.space.lt, ?_, ?_⟩, hsum⟩, hkeep, hlen.2.2.2⟩
  · intro w hw
    rcases Finset.mem_insert.mp hw with rfl | hw
    · exact hv
    · exact h.space.lt w hw
  · intro w hw
    rcases Finset.mem_insert.mp hw with rfl | hw
    · rw [hpte w (hVP w hv), if_pos ⟨hok, rfl⟩]
      exact ⟨hleaf, hP⟩
    · rw [hpte w (hVP w (h.space.lt w hw)), if_neg fun hc => hne w hw hc.2]
      exact h.space.user w hw
  · intro w hw hwU
    rw [Finset.mem_insert, not_or] at hwU
    rw [hpte w hw, if_neg fun hc => hwU.1 hc.2]
    exact h.space.rest w hw hwU.2
  · rw [hpages hok, add_cons, add_cons, hsum]
  · rw [hpages hok]
    exact mem_cons_self g _
  · intro w hw
    rw [hpte w (hVP w (h.space.lt w hw)), if_neg fun hc => hne w hw hc.2]
    exact h.space.user w hw
  · intro w hw hwU
    rw [hpte w hw, if_neg fun hc => by rw [hok] at hc; cases hc.1]
    exact h.space.rest w hw hwU

/-- `mappages` of a page that the space does not own. -/
theorem mappages_fixed (perm : Pte) (h : Holds k l n P U fixed T) (hT : T ≤ L.frames.val)
    (hv : v < 2 ^ 26) (hvU : v ∉ U) (hfix : fixed v = none) (hperm : (perm ||| PTE_V) >>> 10 = 0#64)
    (hg : g < 2 ^ 44) (hleaf : IsLeaf (pa2pte (4096 * g) ||| perm ||| PTE_V))
    (hU : (pa2pte (4096 * g) ||| perm ||| PTE_V) &&& PTE_U = 0) :
    ∃ ok k' l', mappages k (4096 * n) (4096 * v) PGSIZE (4096 * g) perm = some (ok, k') ∧
      Frame T k.mem k'.mem ∧ (l.length ≤ l'.length + 2 ∧ (ok = false → l' = []) ∧
        (find next (ptes k.mem) 2 n (path v) = none ∨ ok = true ∧ l' = l)) ∧
      (ok = true → Holds k' l' n P U (update fixed v (some (4096 * g))) T) ∧
      (ok = false → Holds k' l' n P U fixed T) := by
  have hVP : ∀ w < 2 ^ 26, w < VPAGES := fun w hw => by simp only [VPAGES]; omega
  have hnone : pteAt k.mem n v &&& PTE_V = 0 := by
    have := h.space.rest v (hVP v hv) hvU
    rw [hfix] at this
    exact this
  obtain ⟨ok, k', l', hmap, hlen, hfree, htot, hframe, hdir, hpte⟩ :=
    mappages_page (4096 * g) perm h.free (h.tables_le.trans hT) hv hnone
  have hold : ∀ w ∈ U, pteAt k'.mem n w = pteAt k.mem n w := fun w hw => by
    rw [hpte w (hVP w (h.space.lt w hw)), if_neg]
    exact fun hc => hvU (hc.2 ▸ hw)
  have huser : ∀ w ∈ U, IsLeaf (pteAt k'.mem n w) ∧ P (pteAt k'.mem n w) := fun w hw => by
    rw [hold w hw]
    exact h.space.user w hw
  have hsum : l' + (tables k'.mem n + userPages k'.mem n U) = T := by
    rw [← add_assoc, htot, userPages_congr hold, add_assoc, h.total]
  refine ⟨ok, k', l', hmap, hframe.mono h.tables_le, ⟨hlen.1, hlen.2.1, hlen.2.2.1⟩,
    fun hok => ⟨hfree, ⟨hdir h.space.dir, h.space.lt, huser, fun w hw hwU => ?_⟩, hsum⟩,
    fun hok => ⟨hfree, ⟨hdir h.space.dir, h.space.lt, huser, fun w hw hwU => ?_⟩, hsum⟩⟩
  · rw [hpte w hw]
    by_cases hwv : w = v
    · subst hwv
      rw [if_pos ⟨hok, rfl⟩, update_self]
      exact ⟨hleaf, by rw [BitVec.or_assoc, pte2pa_or hg hperm], hU⟩
    · rw [if_neg fun hc => hwv hc.2, update_of_ne hwv]
      exact h.space.rest w hw hwU
  · rw [hpte w hw, if_neg fun hc => by rw [hok] at hc; cases hc.1]
    exact h.space.rest w hw hwU

/-! ## `uvmunmap` -/

/-- A valid entry is cleared, in a memory that has the same page tables. -/
theorem tables_clear {k1 : Kmem} (hfree : k1.Free l) (hf : Frame S k.mem k1.mem) (hS : ∀ q ∈ tables k.mem n, q ∉ S)
    (hn : (tables k.mem n).Nodup) (hl : ∀ q ∈ tables k.mem n, q ∉ l) (hv : v < VPAGES)
    (hq : find next (ptes k.mem) 2 n (path v) = some q) (hm : m' = write64 k1.mem (entry q (path v 0)) 0) :
    Kmem.Free { k1 with mem := m' } l ∧ tables m' n = tables k.mem n ∧ Frame (S + tables k.mem n) k.mem m' ∧
      (∀ w < VPAGES, pteAt m' n w = if w = v then 0 else pteAt k.mem n w) ∧
      (Dir next IsDir (ptes k.mem) 2 n → Dir next IsDir (ptes m') 2 n) := by
  obtain ⟨htab, hpte, hdir, hfind⟩ := tables_frame hf hS
  have hn1 : (tables k1.mem n).Nodup := by rw [htab]; exact hn
  have hq1 : find next (ptes k1.mem) 2 n (path v) = some q := by rw [hfind]; exact hq
  obtain ⟨htab', hpte', hdir', hframe⟩ := tables_write hn1 hv hq1 hm
  have hqt : q ∈ tables k.mem n := find_mem hq
  refine ⟨hfree.frame hframe fun x hx hxq => ?_, htab'.trans htab, ?_, fun w hw => ?_, fun h => hdir' (hdir h)⟩
  · exact hl q hqt (mem_singleton.mp hxq ▸ hx)
  · refine (hf.mono (Multiset.le_add_right _ _)).trans (hframe.mono ?_)
    rw [singleton_le]
    exact mem_add.mpr (.inr hqt)
  · rw [hpte' w hw, hpte w]

/-- An iteration of `uvmunmap` that frees a user page. -/
theorem uvmunmapLoop_user (h : Holds k l n P U fixed T) (hT : T ≤ L.frames.val) (hv : v ∈ U) (hfix : fixed v = none) :
    ∃ k' l', uvmunmapLoop L (4096 * n) true (c + 1) k (4096 * v) =
        uvmunmapLoop L (4096 * n) true c k' (4096 * (v + 1)) ∧
      Frame T k.mem k'.mem ∧ Holds k' l' n P (U.erase v) fixed T ∧ Keeps n U {v} k.mem k'.mem := by
  obtain ⟨hnt, htl, hul⟩ := h.disjoint hT
  have hlt := h.space.lt v hv
  have hleaf := (h.space.user v hv).1
  obtain ⟨q, hq, hqt, hpte⟩ := find_of_valid hleaf.1
  -- the page that is freed
  let g := pte2pa (pteAt k.mem n v) / 4096
  have hg : userPages k.mem n U = g ::ₘ userPages k.mem n (U.erase v) := userPages_erase hv
  have htot : T = g ::ₘ (l + (tables k.mem n + userPages k.mem n (U.erase v))) := by
    rw [← h.total, hg, add_cons, add_cons]
  have hgl : g ::ₘ (l : Multiset Nat) ≤ T := by
    rw [htot]
    exact (cons_le_cons_iff g).mpr (Multiset.le_add_right _ _)
  obtain ⟨hgl', hgt⟩ := hul g (hg ▸ mem_cons_self g _)
  obtain ⟨k1, hk1, hfree1, hf1⟩ := kfree_ok h.free (hgl.trans hT)
  obtain ⟨hfree', htab', hframe', hpte', hdir'⟩ := tables_clear hfree1 hf1
    (fun q hq hqg => hgt (mem_singleton.mp hqg ▸ hq)) hnt
    (fun q hq hql => by
      rcases List.mem_cons.mp hql with rfl | hql
      · exact hgt hq
      · exact htl q hq hql)
    (show v < VPAGES by simp only [VPAGES]; omega) hq rfl
  have hold : ∀ w ∈ U.erase v, pteAt (write64 k1.mem (entry q (path v 0)) 0) n w = pteAt k.mem n w :=
    fun w hw => by
      have := h.space.lt w (Finset.mem_of_mem_erase hw)
      rw [hpte' w (by simp only [VPAGES]; omega), if_neg (Finset.ne_of_mem_erase hw)]
  have hkeep : Keeps n U {v} k.mem (write64 k1.mem (entry q (path v 0)) 0) := by
    have hnd : (userPages k.mem n U).Nodup := by
      have := nodup_of_le hT L.frames.nodup
      rw [← h.total] at this
      exact (nodup_add.mp (nodup_add.mp this).2.1).2.1
    rw [hg, nodup_cons] at hnd
    refine .of_frame hframe' (fun w hw hwv => ?_) fun w hw hwv hc => ?_
    · rw [hpte' w hw, if_neg fun hc => hwv (Finset.mem_singleton.mpr hc)]
    · have hmem : pte2pa (pteAt k.mem n w) / 4096 ∈ userPages k.mem n (U.erase v) :=
        mem_userPages (Finset.mem_erase.mpr ⟨fun hc => hwv (Finset.mem_singleton.mpr hc), hw⟩)
      rcases mem_add.mp hc with hc | hc
      · exact hnd.1 (mem_singleton.mp hc ▸ hmem)
      · exact (hul _ (mem_userPages hw)).2 hc
  refine ⟨{ k1 with mem := write64 k1.mem (entry q (path v 0)) 0 }, g :: l, ?_, ?_, ⟨hfree',
    ⟨hdir' h.space.dir, fun w hw => h.space.lt w (Finset.mem_of_mem_erase hw), fun w hw => ?_, fun w hw hwU => ?_⟩,
    ?_⟩, hkeep⟩
  · have hread : read64 k.mem (entry q (path v 0)) = pteAt k.mem n v := hpte
    simp only [uvmunmapLoop, walk_find hlt, hq, map_some, bind_eq_bind, bind_some, hread,
      if_neg hleaf.1, if_neg hleaf.flags, if_true]
    rw [← pte2pa_eq, hk1, bind_some, show 4096 * v + PGSIZE = 4096 * (v + 1) by simp only [PGSIZE]; omega]
  · refine hframe'.mono ?_
    rw [htot, ← singleton_add]
    refine add_le_add_right ?_ _
    exact (Multiset.le_add_right _ _).trans (Multiset.le_add_left _ _)
  · rw [hold w hw]
    exact h.space.user w (Finset.mem_of_mem_erase hw)
  · rw [hpte' w hw]
    by_cases hwv : w = v
    · rw [if_pos hwv, hwv, hfix]
      show (0 : Pte) &&& PTE_V = 0
      decide
    · rw [if_neg hwv]
      exact h.space.rest w hw fun hwU' => hwU (Finset.mem_erase.mpr ⟨hwv, hwU'⟩)
  · rw [htab', userPages_congr hold, ← cons_coe, cons_add]
    exact htot.symm

/-- `uvmunmap` of a range of user pages frees them. -/
theorem uvmunmap_user (h : Holds k l n P U fixed T) (hT : T ≤ L.frames.val)
    (hU : Finset.Ico v (v + c) ⊆ U) (hfix : ∀ w ∈ U, fixed w = none) :
    ∃ k' l', uvmunmap L k (4096 * n) (4096 * v) c true = some k' ∧ Frame T k.mem k'.mem ∧
      Holds k' l' n P (U \ Finset.Ico v (v + c)) fixed T ∧ Keeps n U (Finset.Ico v (v + c)) k.mem k'.mem := by
  rw [uvmunmap, if_neg (by simp only [PGSIZE]; omega)]
  induction c generalizing k l U v with
  | zero => exact ⟨k, l, rfl, Frame.rfl', by simpa using h, .rfl'⟩
  | succ c ih =>
    have hvU : v ∈ U := hU (Finset.mem_Ico.mpr (by omega))
    obtain ⟨k1, l1, hk1, hf1, h1, hkeep1⟩ := uvmunmapLoop_user (c := c) h hT hvU (hfix v hvU)
    obtain ⟨k', l', hk', hf', h', hkeep'⟩ := ih (v := v + 1) h1
      (fun w hw => by
        rw [Finset.mem_Ico] at hw
        exact Finset.mem_erase.mpr ⟨by omega, hU (Finset.mem_Ico.mpr (by omega))⟩)
      fun w hw => hfix w (Finset.mem_of_mem_erase hw)
    have hset : U.erase v \ Finset.Ico (v + 1) (v + 1 + c) = U \ Finset.Ico v (v + (c + 1)) := by
      ext w
      simp only [Finset.mem_sdiff, Finset.mem_erase, Finset.mem_Ico]
      constructor
      · rintro ⟨⟨h1, h2⟩, h3⟩
        exact ⟨h2, by omega⟩
      · rintro ⟨h1, h2⟩
        exact ⟨⟨by omega, h1⟩, by omega⟩
    refine ⟨k', l', hk1.trans hk', hf1.trans hf', ?_, ?_⟩
    · exact hset ▸ h'
    · refine hkeep1.trans (hkeep'.mono (le_refl _) ?_) h.space.lt ?_ ?_
      · exact Finset.Ico_subset_Ico (by omega) (by omega)
      · rw [Finset.singleton_subset_iff, Finset.mem_Ico]
        omega
      · intro w hw hwC
        refine Finset.mem_erase.mpr ⟨fun hc => hwC ?_, hw⟩
        rw [hc, Finset.mem_Ico]
        omega

/-- `uvmunmap` of a page that the space does not own. -/
theorem uvmunmap_fixed (h : Holds k l n P U fixed T) (hT : T ≤ L.frames.val) (hv : v < 2 ^ 26)
    (hvU : v ∉ U) (hfix : fixed v = some pa) :
    ∃ k', uvmunmap L k (4096 * n) (4096 * v) 1 false = some k' ∧ Frame T k.mem k'.mem ∧
      Holds k' l n P U (update fixed v none) T := by
  obtain ⟨hnt, htl, -⟩ := h.disjoint hT
  have hVP : v < VPAGES := by simp only [VPAGES]; omega
  have hleaf : IsLeaf (pteAt k.mem n v) := by
    have := h.space.rest v hVP hvU
    rw [hfix] at this
    exact this.1
  obtain ⟨q, hq, hqt, hpte⟩ := find_of_valid hleaf.1
  obtain ⟨hfree', htab', hframe', hpte', hdir'⟩ := tables_clear (S := 0) h.free Frame.rfl'
    (fun _ _ => notMem_zero _) hnt htl hVP hq rfl
  have hold : ∀ w ∈ U, pteAt (write64 k.mem (entry q (path v 0)) 0) n w = pteAt k.mem n w := fun w hw => by
    have := h.space.lt w hw
    have hwv : w ≠ v := fun hwv => hvU (hwv ▸ hw)
    rw [hpte' w (by simp only [VPAGES]; omega), if_neg hwv]
  refine ⟨{ k with mem := write64 k.mem (entry q (path v 0)) 0 }, ?_, ?_, hfree',
    ⟨hdir' h.space.dir, h.space.lt, fun w hw => ?_, fun w hw hwU => ?_⟩, ?_⟩
  · have hread : read64 k.mem (entry q (path v 0)) = pteAt k.mem n v := hpte
    rw [uvmunmap, if_neg (by simp only [PGSIZE]; omega)]
    simp only [uvmunmapLoop, walk_find hv, hq, map_some, bind_eq_bind, bind_some, hread,
      if_neg hleaf.1, if_neg hleaf.flags, Bool.false_eq_true, if_false]
  · refine hframe'.mono ?_
    rw [zero_add]
    exact (Multiset.le_add_left _ _).trans h.tables_le
  · rw [hold w hw]
    exact h.space.user w hw
  · rw [hpte' w hw]
    by_cases hwv : w = v
    · rw [if_pos hwv, hwv, update_self]
      show (0 : Pte) &&& PTE_V = 0
      decide
    · rw [if_neg hwv, update_of_ne hwv]
      exact h.space.rest w hw hwU
  · rw [htab', userPages_congr hold]
    exact h.total

/-! ## `freewalk` -/

/-- `freewalk` of the tree under `n`, whose bottom tables are empty, frees its
tables. -/
def Frees (L : Layout) (level : Nat) : Prop :=
  ∀ {k : Kmem} {l : List Nat} {n : Nat}, k.Free l → l + pages next (ptes k.mem) level n ≤ L.frames.val →
    Dir next IsDir (ptes k.mem) level n →
    (∀ f, leaf next 0 (ptes k.mem) level n f &&& PTE_V = 0) →
    ∃ k' l', freewalk L (level + 1) k (4096 * n) = some k' ∧ k'.Free l' ∧
      (l' : Multiset Nat) = l + pages next (ptes k.mem) level n ∧
      Frame (l + pages next (ptes k.mem) level n) k.mem k'.mem

/-- The loop of `freewalk` over the entries `is`. -/
theorem freewalk_entries {level : Nat} (ih : Frees L level) {is : List (Fin 512)} (hnd : is.Nodup)
    (hfree : k.Free l)
    (hT : n ::ₘ (l + below next (ptes k.mem) level n is) ≤ L.frames.val)
    (hsub : ∀ i ∈ is, ∀ q, next (ptes k.mem n i) = some q → IsDir (ptes k.mem n i) ∧
      Dir next IsDir (ptes k.mem) level q ∧ ∀ f, leaf next 0 (ptes k.mem) level q f &&& PTE_V = 0) :
    ∃ k' l', is.foldlM (freewalkEntry (freewalk L (level + 1)) (4096 * n)) k = some k' ∧ k'.Free l' ∧
      (l' : Multiset Nat) = l + below next (ptes k.mem) level n is ∧
      Frame (n ::ₘ (l + below next (ptes k.mem) level n is)) k.mem k'.mem := by
  induction is generalizing k l with
  | nil => exact ⟨k, l, rfl, hfree, by simp, Frame.rfl'⟩
  | cons i is ihis =>
    obtain ⟨hi, hnd'⟩ := List.nodup_cons.mp hnd
    have hread : read64 k.mem (4096 * n + 8 * i) = ptes k.mem n i := rfl
    rw [below_cons] at hT
    cases hq : next (ptes k.mem n i) with
    | none =>
      rw [hq, elim_none, zero_add] at hT
      obtain ⟨k', l', hk', hfree', hl', hf'⟩ := ihis hnd' hfree hT fun j hj => hsub j (List.mem_cons_of_mem i hj)
      have hinv := next_eq_none.mp hq
      rw [below_cons, hq, elim_none, zero_add]
      refine ⟨k', l', ?_, hfree', hl', hf'⟩
      rw [List.foldlM_cons, freewalkEntry, hread, if_neg fun hc => hc.1 hinv, if_neg (not_not.mpr hinv)]
      exact hk'
    | some q =>
      rw [hq, elim_some] at hT
      obtain ⟨hd, hdq, hlq⟩ := hsub i List.mem_cons_self q hq
      obtain ⟨hv, hpa⟩ := next_eq_some hq
      have hnodup := nodup_of_le hT L.frames.nodup
      obtain ⟨hnn, hnodup⟩ := nodup_cons.mp hnodup
      obtain ⟨-, hnb, hlb⟩ := nodup_add.mp hnodup
      obtain ⟨-, -, hqb⟩ := nodup_add.mp hnb
      have hle : l + pages next (ptes k.mem) level q ≤
          n ::ₘ (l + (pages next (ptes k.mem) level q + below next (ptes k.mem) level n is)) := by
        refine le_trans ?_ (le_cons_self _ n)
        exact add_le_add_right (Multiset.le_add_right _ _) _
      obtain ⟨k1, l1, hk1, hfree1, hl1, hf1⟩ := ih hfree (hle.trans hT) hdq hlq
      -- the entry is cleared; the other entries and their tables are as before
      let m2 := write64 k1.mem (entry n i) 0
      have hf2 : Frame {n} k1.mem m2 := Frame.write64 (le_entry n i) (entry_le n i)
      have hnq : n ∉ (l + pages next (ptes k.mem) level q : Multiset Nat) := fun hc =>
        hnn (mem_of_le (add_le_add_right (Multiset.le_add_right _ _) _) hc)
      have hrow : ∀ j ∈ is, ptes m2 n j = ptes k.mem n j := fun j hj => by
        have hji : j ≠ i := fun h => hi (h ▸ hj)
        rw [ptes_write64, update_of_ne hji, ptes_frame hf1 hnq]
      have hother : ∀ r ∈ below next (ptes k.mem) level n is, ptes m2 r = ptes k.mem r := by
        intro r hr
        have hrn : r ≠ n := fun h => hnn (mem_add.mpr (.inr (mem_add.mpr (.inr (h ▸ hr)))))
        rw [ptes_frame hf2 (by simpa using hrn), ptes_frame hf1]
        intro hc
        rcases mem_add.mp hc with hc | hc
        · exact disjoint_left.mp hlb hc (mem_add.mpr (.inr hr))
        · exact disjoint_left.mp hqb hc hr
      have hbelow : below next (ptes m2) level n is = below next (ptes k.mem) level n is :=
        below_congr hrow hother
      have hfree2 : Kmem.Free { k1 with mem := m2 } l1 := hfree1.frame hf2 fun x hx hxn => by
        rw [mem_singleton.mp hxn] at hx
        exact hnq (hl1 ▸ mem_coe.mpr hx)
      have hsum : n ::ₘ (l1 + below next (ptes m2) level n is) =
          n ::ₘ (l + (pages next (ptes k.mem) level q + below next (ptes k.mem) level n is)) := by
        rw [hbelow, hl1, add_assoc]
      obtain ⟨k', l', hk', hfree', hl', hf'⟩ := ihis hnd' hfree2 (hsum.trans_le hT) fun j hj r hr => by
        show IsDir (ptes m2 n j) ∧ _
        rw [show ptes m2 n j = ptes k.mem n j from hrow j hj] at hr ⊢
        obtain ⟨h1, h2, h3⟩ := hsub j (List.mem_cons_of_mem i hj) r hr
        have hkeep : ∀ x ∈ pages next (ptes k.mem) level r, ptes m2 x = ptes k.mem x := fun x hx =>
          hother x (mem_of_le (pages_le_below hj hr) hx)
        refine ⟨h1, h2.congr fun x hx => hkeep x (mem_of_le interior_le hx), fun f => ?_⟩
        show leaf next 0 (ptes m2) level r f &&& PTE_V = 0
        rw [leaf_congr hkeep]
        exact h3 f
      rw [below_cons, hq, elim_some]
      refine ⟨k', l', ?_, hfree', ?_, ?_⟩
      · rw [List.foldlM_cons, freewalkEntry, hread, if_pos ⟨hv, hd⟩, hpa, hk1]
        exact hk'
      · rw [hl']
        exact (cons_inj_right n).mp hsum
      · refine (hf1.mono hle).trans ((hf2.mono ?_).trans (hsum ▸ hf'))
        rw [singleton_le]
        exact mem_cons_self n _

theorem freewalk_frees (level : Nat) : Frees L level := by
  induction level with
  | zero =>
    intro k l n hfree hT hdir hleaf
    have hentry : ∀ i, ptes k.mem n i &&& PTE_V = 0 := fun i => hleaf fun _ => i
    have hloop : ∀ is : List (Fin 512), is.foldlM (freewalkEntry (freewalk L 0) (4096 * n)) k = some k := by
      intro is
      induction is with
      | nil => rfl
      | cons i is ih =>
        have hread : read64 k.mem (4096 * n + 8 * i) = ptes k.mem n i := rfl
        rw [List.foldlM_cons, freewalkEntry, hread, if_neg fun hc => hc.1 (hentry i), if_neg (not_not.mpr (hentry i))]
        exact ih
    have hpages : pages next (ptes k.mem) 0 n = {n} := pages_empty fun j => next_eq_none.mpr (hentry j)
    rw [hpages, add_comm, singleton_add] at hT
    rw [hpages, add_comm (l : Multiset Nat), singleton_add]
    obtain ⟨k', hk', hfree', hf'⟩ := kfree_ok hfree hT
    refine ⟨k', n :: l, ?_, hfree', rfl, hf'.mono ?_⟩
    · rw [freewalk, hloop]
      exact hk'
    · rw [singleton_le]
      exact mem_cons_self n _
  | succ level ih =>
    intro k l n hfree hT hdir hleaf
    rw [pages_eq_below, add_cons] at hT ⊢
    obtain ⟨k1, l1, hk1, hfree1, hl1, hf1⟩ := freewalk_entries ih (List.nodup_finRange 512) hfree hT
      fun i _ q hq => ⟨(hdir i q hq).1, (hdir i q hq).2, fun f => by
        have := hleaf (update f (level + 1) i)
        rw [leaf_succ hq] at this
        exact this⟩
    obtain ⟨k', hk', hfree', hf'⟩ := kfree_ok hfree1 (hl1 ▸ hT)
    refine ⟨k', n :: l1, ?_, hfree', ?_, hf1.trans (hf'.mono ?_)⟩
    · rw [freewalk, hk1]
      exact hk'
    · rw [← cons_coe, hl1]
    · rw [singleton_le]
      exact mem_cons_self n _

/-- `freewalk` of a page table that maps nothing frees its pages. -/
theorem freewalk_free (h : Holds k l n P ∅ (fun _ => none) T) (hT : T ≤ L.frames.val) :
    ∃ k' l', freewalk L 3 k (4096 * n) = some k' ∧ k'.Free l' ∧ (l' : Multiset Nat) = T ∧
      Frame T k.mem k'.mem := by
  have htot : l + tables k.mem n = T := by
    rw [← h.total, userPages, Finset.empty_val, Multiset.map_zero, add_zero]
  have hleaf : ∀ f, leaf next 0 (ptes k.mem) 2 n f &&& PTE_V = 0 := by
    intro f
    -- the path is that of a virtual page
    have hpath : ∀ j ≤ 2, f j = path (f 0 + 512 * f 1 + 512 ^ 2 * f 2) j := by
      intro j hj
      apply Fin.ext
      simp only [path, Fin.val_ofNat]
      rcases show j = 0 ∨ j = 1 ∨ j = 2 by omega with rfl | rfl | rfl <;> omega
    rw [leaf_congr_path hpath]
    exact h.space.rest _ (by simp only [VPAGES]; omega) (Finset.notMem_empty _)
  rw [← htot] at hT ⊢
  exact freewalk_frees 2 h.free hT h.space.dir hleaf

end Xv6.Vm
