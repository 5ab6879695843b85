import Xv6.Framework.Radix
import Xv6.Vm.Kalloc

/-!
# Page tables in memory

`walk` of `kernel/vm.c`, on page tables that lie in the memory `kalloc` hands
out. A page table is a radix tree of height two whose tables are pages
(`ptes m n` are the 512 entries of page `n`), so that what holds of such trees
holds of page tables: `tables m n` are the pages of the table with root page
`n`, and `pteAt m n v` is its entry for the virtual page `v`.

`walkFrom_find` says that `walk` finds that entry, `walkFrom_alloc` that a walk
which may allocate moves pages from the free list to the table and changes no
entry, also when it runs out of memory halfway.
-/

namespace Xv6.Vm

open Framework Function Multiset BitVec Radix

/-- A page-table entry. -/
abbrev Pte := BitVec 64

def PTE_V : Pte := 1
def PTE_R : Pte := 2
def PTE_W : Pte := 4
def PTE_X : Pte := 8
def PTE_U : Pte := 16

def pa2pte (pa : Nat) : Pte := (BitVec.ofNat 64 pa >>> 12) <<< 10

def pte2pa (pte : Pte) : Nat := ((pte >>> 10) <<< 12).toNat

def pteFlags (pte : Pte) : Pte := pte &&& 0x3FF

/-- The index of `va` in a table of the given level. -/
def px (level va : Nat) : Fin 512 := Fin.ofNat 512 (va >>> (12 + 9 * level))

/-- The loop of `walk`, from the table at `pagetable` of the given level. -/
def walkFrom (alloc : Bool) : Nat → Kmem → Nat → Nat → Option Nat × Kmem
  | 0, k, pagetable, va => (some (pagetable + 8 * px 0 va), k)
  | level + 1, k, pagetable, va =>
    let pte := pagetable + 8 * px (level + 1) va
    if read64 k.mem pte &&& PTE_V ≠ 0 then walkFrom alloc level k (pte2pa (read64 k.mem pte)) va
    else if alloc then
      match kalloc k with
      | (none, k) => (none, k)
      | (some page, k) =>
        let mem := write64 (memset k.mem page 0 PGSIZE) pte (pa2pte page ||| PTE_V)
        walkFrom alloc level { k with mem := mem } page va
    else (none, k)

/-- `walk`: the address of the entry for `va`, if there is one or one can be
made; `none` is its panic. -/
def walk (k : Kmem) (pagetable va : Nat) (alloc : Bool) : Option (Option Nat × Kmem) :=
  if MAXVA ≤ va then none else some (walkFrom alloc 2 k pagetable va)

/-! ## Page tables as trees -/

/-- The address of entry `i` of page `n`. -/
def entry (n : Nat) (i : Fin 512) : Nat := 4096 * n + 8 * i

/-- The entries of page `n`. -/
def ptes (m : Bytes) (n : Nat) (i : Fin 512) : Pte := read64 m (entry n i)

/-- The page a valid entry points to. -/
def next (pte : Pte) : Option Nat := if pte &&& PTE_V ≠ 0 then some (pte2pa pte / 4096) else none

/-- The indices of virtual page `v`. -/
def path (v : Nat) (level : Nat) : Fin 512 := Fin.ofNat 512 (v / 512 ^ level)

/-- An entry that points to a table. -/
def IsDir (pte : Pte) : Prop := pte &&& (PTE_R ||| PTE_W ||| PTE_X) = 0

/-- The pages of the page table with root `n`. -/
def tables (m : Bytes) (n : Nat) : Multiset Nat := Radix.pages next (ptes m) 2 n

/-- The entry for virtual page `v`; zero if the table for it is missing. -/
def pteAt (m : Bytes) (n v : Nat) : Pte := Radix.leaf next 0 (ptes m) 2 n (path v)

theorem px_eq (level va : Nat) : px level va = path (va / 4096) level := by
  rw [px, path, Nat.shiftRight_eq_div_pow, Nat.pow_add, Nat.pow_mul, ← Nat.div_div_eq_div_mul]

/-- The indices of a virtual address determine its page. -/
theorem path_inj {v w : Nat} (hv : v < 2 ^ 27) (hw : w < 2 ^ 27) (h : ∀ j ≤ 2, path v j = path w j) : v = w := by
  have h0 := congrArg Fin.val (h 0 (by omega))
  have h1 := congrArg Fin.val (h 1 (by omega))
  have h2 := congrArg Fin.val (h 2 (by omega))
  simp only [path, Fin.val_ofNat] at h0 h1 h2
  omega

theorem pte2pa_eq (pte : Pte) : 4096 * (pte2pa pte / 4096) = pte2pa pte := by
  simp only [pte2pa, toNat_shiftLeft, Nat.shiftLeft_eq]
  omega

variable {n : Nat} {flags pte : Pte}

theorem pte2pa_or (hn : n < 2 ^ 44) (hf : flags >>> 10 = 0#64) :
    pte2pa (pa2pte (4096 * n) ||| flags) = 4096 * n := by
  have hor : (pa2pte (4096 * n) ||| flags) >>> 10 = pa2pte (4096 * n) >>> 10 := by
    rw [ushiftRight_or_distrib, hf, or_zero]
  rw [pte2pa, hor]
  simp only [pa2pte, toNat_shiftLeft, toNat_ushiftRight, toNat_ofNat, Nat.shiftLeft_eq, Nat.shiftRight_eq_div_pow]
  omega

/-- The flags of an entry are apart from the address. -/
theorem pa2pte_and {pa : Nat} (hf : flags >>> 10 = 0#64) : pa2pte pa &&& flags = 0 := by
  apply eq_of_getLsbD_eq
  intro i hi
  simp only [pa2pte, getLsbD_and, getLsbD_shiftLeft]
  by_cases hlt : i < 10
  · simp [hlt]
  · have h := congrArg (fun b => getLsbD b (i - 10)) hf
    simp only [getLsbD_ushiftRight, getLsbD_zero] at h
    rw [show 10 + (i - 10) = i by omega] at h
    rw [h, Bool.and_false]
    simp

theorem next_eq_some (h : next pte = some n) :
    pte &&& PTE_V ≠ 0 ∧ pte2pa pte = 4096 * n := by
  simp only [next] at h
  split at h
  · rename_i hv
    cases h
    exact ⟨hv, (pte2pa_eq pte).symm⟩
  · cases h

theorem next_eq_none : next pte = none ↔ pte &&& PTE_V = 0 := by
  simp only [next]
  split <;> simp_all

@[simp] theorem next_zero : next 0 = none := by decide

theorem next_link (hn : n < 2 ^ 44) : next (pa2pte (4096 * n) ||| PTE_V) = some n := by
  have hv : (pa2pte (4096 * n) ||| PTE_V) &&& PTE_V ≠ 0 := by
    rw [and_or_distrib_right, pa2pte_and (by decide)]
    decide
  rw [next, if_pos hv, pte2pa_or hn (by decide), Nat.mul_div_cancel_left n (by decide)]

theorem isDir_link (n : Nat) : IsDir (pa2pte (4096 * n) ||| PTE_V) := by
  rw [IsDir, and_or_distrib_right, pa2pte_and (by decide)]
  decide

theorem le_entry (n : Nat) (i : Fin 512) : 4096 * n ≤ entry n i := Nat.le_add_right _ _

theorem entry_le (n : Nat) (i : Fin 512) : entry n i + 8 ≤ 4096 * n + 4096 := by
  simp only [entry]
  omega

theorem ptes_frame {T : Multiset Nat} {m m' : Bytes} (h : Frame T m m') (hn : n ∉ T) :
    ptes m' n = ptes m n := by
  funext i
  exact h.read64 hn (le_entry n i) (entry_le n i)

theorem ptes_write64 (m : Bytes) (n : Nat) (i : Fin 512) (e : Pte) :
    ptes (write64 m (entry n i) e) n = update (ptes m n) i e := by
  funext j
  by_cases hj : j = i
  · subst hj
    rw [update_self, ptes, read64_write64_self]
  · rw [update_of_ne hj, ptes, read64_write64_disjoint]
    · rfl
    · have := Fin.val_ne_of_ne hj
      simp only [entry]
      omega

theorem ptes_memset_zero (m : Bytes) (n : Nat) (i : Fin 512) : ptes (memset m (4096 * n) 0 4096) n i = 0 := by
  have h : ∀ x, entry n i ≤ x → x < entry n i + 8 →
      memset m (4096 * n) 0 4096 x = (fun _ => 0 : Bytes) x := by
    intro x h1 h2
    have := entry_le n i
    have := le_entry n i
    simp only [memset]
    rw [if_pos (by omega)]
  rw [ptes, read64_congr h]
  simp [read64, readLE]

/-! ## Walks -/

/-- A walk that does not allocate finds what is there. -/
theorem walkFrom_find (k : Kmem) (level n va : Nat) :
    walkFrom false level k (4096 * n) va =
      ((find next (ptes k.mem) level n (path (va / 4096))).map (entry · (px 0 va)), k) := by
  induction level generalizing n with
  | zero => rfl
  | succ level ih =>
    simp only [walkFrom, find, Bool.false_eq_true, if_false]
    rw [← px_eq, show read64 k.mem (4096 * n + 8 * ↑(px (level + 1) va)) = ptes k.mem n (px (level + 1) va) from rfl]
    cases hn : next (ptes k.mem n (px (level + 1) va)) with
    | none => rw [if_neg (not_not.mpr (next_eq_none.mp hn))]; rfl
    | some q =>
      obtain ⟨hv, hpa⟩ := next_eq_some hn
      rw [if_pos hv, hpa, ih]
      rfl

variable {L : Layout} {i : Fin 512} {q level : Nat} {k : Kmem} {l : List Nat}

/-- Pages have moved from the free list to the tree of tables under `n`, whose
entries are as before. -/
structure Grown (level n : Nat) (k : Kmem) (l : List Nat) (k' : Kmem) (l' : List Nat) : Prop where
  free : k'.Free l'
  suffix : l' <:+ l
  total : l' + pages next (ptes k'.mem) level n = l + pages next (ptes k.mem) level n
  frame : Frame (l + pages next (ptes k.mem) level n) k.mem k'.mem
  leaf : ∀ f, leaf next 0 (ptes k'.mem) level n f = leaf next 0 (ptes k.mem) level n f
  dir : Dir next IsDir (ptes k.mem) level n → Dir next IsDir (ptes k'.mem) level n

namespace Grown

variable {level n : Nat} {k k1 k' : Kmem} {l l1 l' : List Nat}

theorem refl (h : k.Free l) : Grown level n k l k l :=
  ⟨h, List.suffix_rfl, rfl, Frame.rfl', fun _ => rfl, id⟩

theorem trans (h1 : Grown level n k l k1 l1) (h2 : Grown level n k1 l1 k' l') : Grown level n k l k' l' where
  free := h2.free
  suffix := h2.suffix.trans h1.suffix
  total := h2.total.trans h1.total
  frame := h1.frame.trans (h1.total ▸ h2.frame)
  leaf f := (h2.leaf f).trans (h1.leaf f)
  dir h := h2.dir (h1.dir h)

/-- Growth below an entry is growth of the tree. -/
theorem descend (hq : next (ptes k.mem n i) = some q)
    (hn : (l + pages next (ptes k.mem) (level + 1) n : Multiset Nat).Nodup)
    (h : Grown level q k l k' l') : Grown (level + 1) n k l k' l' := by
  obtain ⟨-, hnodup, hdis⟩ := nodup_add.mp hn
  have hsub : pages next (ptes k.mem) level q ≤ pages next (ptes k.mem) (level + 1) n :=
    pages_le_succ hq
  have hoth : ∀ r ∈ pages next (ptes k.mem) (level + 1) n,
      r ∉ pages next (ptes k.mem) level q → ptes k'.mem r = ptes k.mem r := by
    intro r hr hr'
    refine ptes_frame h.frame fun hmem => ?_
    rcases mem_add.mp hmem with hl | hp
    · exact disjoint_left.mp hdis hl hr
    · exact hr' hp
  refine ⟨h.free, h.suffix, ?_, h.frame.mono (add_le_add_right hsub _), ?_, ?_⟩
  · have hd := pages_descend hnodup hq hoth
    have ht := h.total
    refine add_right_cancel (b := pages next (ptes k.mem) level q) ?_
    rw [add_assoc, hd, ← add_assoc, add_right_comm, ht, add_right_comm]
  · exact leaf_descend hnodup hq hoth h.leaf
  · exact fun hdir => hdir.descend hnodup hq hoth (h.dir (hdir _ _ hq).2)

end Grown

/-- The allocation in `walk`: a cleared page is linked into the free entry `i`. -/
theorem grown_link (hfree : k.Free (q :: l))
    (hT : (q :: l : List Nat) + pages next (ptes k.mem) (level + 1) n ≤ L.frames.val)
    (hi : next (ptes k.mem n i) = none) :
    ∃ k1, kalloc k = (some (4096 * q), k1) ∧
      let mem := write64 (memset k1.mem (4096 * q) 0 4096) (entry n i) (pa2pte (4096 * q) ||| PTE_V)
      Grown (level + 1) n k (q :: l) { k1 with mem := mem } l ∧ next (ptes mem n i) = some q := by
  have hnodup := nodup_of_le hT L.frames.nodup
  obtain ⟨hl, hpn, hdis⟩ := nodup_add.mp hnodup
  obtain ⟨hql, -⟩ := List.nodup_cons.mp (coe_nodup.mp hl)
  have hqp : q ∉ pages next (ptes k.mem) (level + 1) n :=
    disjoint_left.mp hdis (mem_coe.mpr List.mem_cons_self)
  have hnq : n ≠ q := fun h => hqp (h ▸ mem_pages_self)
  have hq44 : q < 2 ^ 44 := by
    have := Layout.lt_of_mem (mem_of_le hT (mem_add.mpr
      (.inl (mem_coe.mpr (List.mem_cons_self (a := q) (l := l))))))
    omega
  obtain ⟨k1, hk1, hfree1, hf1⟩ := kalloc_cons hfree hql
  refine ⟨k1, hk1, ?_⟩
  intro mem
  have hset : Frame {q} k.mem (memset k1.mem (4096 * q) 0 4096) :=
    hf1.trans (Frame.memset (le_refl _) (le_refl _))
  have hwr : Frame {n} (memset k1.mem (4096 * q) 0 4096) mem := Frame.write64 (le_entry n i) (entry_le n i)
  -- what the tables hold afterwards
  have hp : ptes mem n = update (ptes k.mem n) i (pa2pte (4096 * q) ||| PTE_V) := by
    rw [ptes_write64, ptes_frame hset (by simpa using hnq)]
  have hq : ∀ j, ptes mem q j = 0 := fun j => by
    rw [ptes_frame hwr (by simpa using hnq.symm), ptes_memset_zero]
  have hoth : ∀ r ∈ pages next (ptes k.mem) (level + 1) n, r ≠ n → ptes mem r = ptes k.mem r := by
    intro r hr hrn
    rw [ptes_frame hwr (by simpa using hrn), ptes_frame hset]
    rw [mem_singleton]
    rintro rfl
    exact hqp hr
  have hframe : Frame ((q :: l : List Nat) + pages next (ptes k.mem) (level + 1) n) k.mem mem := by
    refine (hset.mono ?_).trans (hwr.mono ?_)
    · rw [singleton_le]
      exact mem_add.mpr (.inl (mem_coe.mpr List.mem_cons_self))
    · rw [singleton_le]
      exact mem_add.mpr (.inr mem_pages_self)
  have hpages := pages_link hpn hi (next_link hq44) next_zero hp hq hoth
  refine ⟨⟨?_, List.suffix_cons q l, ?_, hframe, ?_, ?_⟩, ?_⟩
  · refine hfree1.frame ((Frame.mono (Frame.memset (le_refl _) (le_refl _)) ?_).trans (hwr.mono ?_)) (T := {q, n}) ?_
    · simp
    · simp
    · intro x hx hmem
      rcases mem_cons.mp hmem with rfl | hmem
      · exact hql hx
      · rw [mem_singleton.mp hmem] at hx
        exact disjoint_left.mp hdis (mem_coe.mpr (List.mem_cons_of_mem q hx)) mem_pages_self
  · rw [hpages, ← cons_coe, add_cons, cons_add]
  · exact leaf_link hpn hi (next_link hq44) next_zero hp hq hoth
  · exact fun hdir => hdir.link hpn hi (next_link hq44) next_zero hp hq hoth (isDir_link q)
  · rw [hp, update_self, next_link hq44]

/-- A walk that may allocate finds the entry, or there are no free pages left.
It takes a page for each level at most, and none if the tables are there. -/
theorem walkFrom_alloc (va : Nat) (hfree : k.Free l) (hT : l + Radix.pages next (ptes k.mem) level n ≤ L.frames.val) :
    ∃ k' l', walkFrom true level k (4096 * n) va =
        ((find next (ptes k'.mem) level n (path (va / 4096))).map (entry · (px 0 va)), k') ∧
      Grown level n k l k' l' ∧ l.length ≤ l'.length + level ∧
      (find next (ptes k'.mem) level n (path (va / 4096)) = none → l' = []) ∧
      (find next (ptes k.mem) level n (path (va / 4096)) = none ∨ k' = k ∧ l' = l) := by
  induction level generalizing k l n with
  | zero => exact ⟨k, l, rfl, .refl hfree, le_refl _, (nomatch ·), .inr ⟨rfl, rfl⟩⟩
  | succ level ih =>
    -- the walk below an entry that is there
    have hbelow : ∀ {k : Kmem} {l : List Nat} {q : Nat}, k.Free l →
        l + pages next (ptes k.mem) (level + 1) n ≤ L.frames.val →
        next (ptes k.mem n (px (level + 1) va)) = some q →
        ∃ k' l', walkFrom true level k (4096 * q) va =
            ((find next (ptes k'.mem) (level + 1) n (path (va / 4096))).map (entry · (px 0 va)), k') ∧
          Grown (level + 1) n k l k' l' ∧ l.length ≤ l'.length + level ∧
          (find next (ptes k'.mem) (level + 1) n (path (va / 4096)) = none → l' = []) ∧
          (find next (ptes k.mem) (level + 1) n (path (va / 4096)) = none ∨ k' = k ∧ l' = l) := by
      intro k l q hfree hT hq
      have hnodup := nodup_of_le hT L.frames.nodup
      have hsub : pages next (ptes k.mem) level q ≤ pages next (ptes k.mem) (level + 1) n :=
        pages_le_succ hq
      obtain ⟨k', l', hw, hg, hlen, hnone, hfound⟩ := ih hfree ((add_le_add_right hsub _).trans hT)
      have hentry : ptes k'.mem n = ptes k.mem n := by
        refine ptes_frame hg.frame fun hmem => ?_
        rcases mem_add.mp hmem with hl | hp
        · exact disjoint_left.mp (nodup_add.mp hnodup).2.2 hl mem_pages_self
        · exact notMem_pages_child (nodup_add.mp hnodup).2.1 hq hp
      have hfind : find next (ptes k'.mem) (level + 1) n (path (va / 4096)) =
          find next (ptes k'.mem) level q (path (va / 4096)) := by
        rw [find, hentry, ← px_eq, hq, Option.bind_some]
      have hfind0 : find next (ptes k.mem) (level + 1) n (path (va / 4096)) =
          find next (ptes k.mem) level q (path (va / 4096)) := by
        rw [find, ← px_eq, hq, Option.bind_some]
      exact ⟨k', l', hfind ▸ hw, hg.descend hq hnodup, hlen, hfind ▸ hnone, hfind0 ▸ hfound⟩
    rw [walkFrom, show read64 k.mem (4096 * n + 8 * ↑(px (level + 1) va)) = ptes k.mem n (px (level + 1) va) from rfl]
    cases hn : next (ptes k.mem n (px (level + 1) va)) with
    | some q =>
      obtain ⟨hv, hpa⟩ := next_eq_some hn
      rw [if_pos hv, hpa]
      obtain ⟨k', l', hw, hg, hlen, hnone⟩ := hbelow hfree hT hn
      exact ⟨k', l', hw, hg, by omega, hnone⟩
    | none =>
      rw [if_neg (not_not.mpr (next_eq_none.mp hn)), if_pos rfl]
      have hfind : find next (ptes k.mem) (level + 1) n (path (va / 4096)) = none := by
        rw [find, ← px_eq, hn, Option.bind_none]
      cases l with
      | nil =>
        rw [kalloc_nil hfree]
        exact ⟨k, [], by rw [hfind]; rfl, .refl hfree, Nat.zero_le _, fun _ => rfl, .inl hfind⟩
      | cons q l =>
        obtain ⟨k1, hk1, hg, hq⟩ := grown_link hfree hT hn
        rw [hk1]
        obtain ⟨k', l', hw, hg', hlen, hnone, -⟩ := hbelow hg.free (hg.total.trans_le hT) hq
        exact ⟨k', l', hw, hg.trans hg', by rw [List.length_cons]; omega, hnone, .inl hfind⟩

end Xv6.Vm
