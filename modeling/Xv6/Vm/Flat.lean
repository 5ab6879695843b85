import Xv6.Vm.Owners

/-!
# Page tables as maps

What a page table is for: `flatMap m n` is the map of virtual pages to physical
pages and flags that the table with root page `n` stands for. The operations on
page tables are operations on this map, and reach no other page: `walk` finds the
entry of a page (`walk_flat`), also when it allocates tables for it
(`walk_alloc_flat`), `mappages` adds pages one by one (`mappagesLoop_flat`), and
`uvmunmap` removes them (`uvmunmapLoop_flat`).
-/

namespace Xv6.Vm

open Framework Function Option BitVec

/-- What an entry maps: the physical page and the flags. -/
def binding (e : Pte) : Option (Nat × Pte) :=
  if e &&& PTE_V ≠ 0 then some (pte2pa e / 4096, pteFlags e) else none

/-- The page table with root page `n` as a map of virtual pages. -/
def flatMap (m : Bytes) (n v : Nat) : Option (Nat × Pte) := if v < VPAGES then binding (pteAt m n v) else none

/-- The tables are pages of the allocator, no two of them the same, and the free
list has other pages. -/
structure WellFormed (L : Layout) (k : Kmem) (l : List Nat) (n : Nat) : Prop where
  free : k.Free l
  le : l + tables k.mem n ≤ L.frames.val

/-- What `walk` returns is the entry of the virtual page `v`: it holds what `v` is
mapped to, and a store to it changes the map at `v` only. There is none only if
`v` is not mapped. -/
def IsEntry (m : Bytes) (n v : Nat) : Option Nat → Prop
  | none => flatMap m n v = none
  | some pte => binding (read64 m pte) = flatMap m n v ∧
      ∀ e, flatMap (write64 m pte e) n = update (flatMap m n) v (binding e)

variable {L : Layout} {k k' : Kmem} {l l' : List Nat} {m m' : Bytes} {n v va pa c q : Nat} {e perm : Pte}
  {b : Nat × Pte} {doFree : Bool}

/-! ## Entries -/

theorem binding_eq_none : binding e = none ↔ e &&& PTE_V = 0 := by
  rw [binding]
  split <;> simp_all

theorem binding_eq_some (h : binding e = some b) :
    e &&& PTE_V ≠ 0 ∧ pte2pa e = 4096 * b.1 ∧ pteFlags e = b.2 := by
  rw [binding] at h
  split at h
  · rename_i hv
    cases h
    exact ⟨hv, (pte2pa_eq e).symm, rfl⟩
  · cases h

theorem flags_and (hf : e >>> 10 = 0#64) : e &&& 0x3FF = e := by
  have hlt : e.toNat < 2 ^ 10 := by
    have := congrArg BitVec.toNat hf
    simp only [toNat_ushiftRight, Nat.shiftRight_eq_div_pow, toNat_ofNat] at this
    omega
  refine eq_of_toNat_eq ?_
  rw [toNat_and]
  exact (Nat.and_two_pow_sub_one_eq_mod e.toNat 10).trans (Nat.mod_eq_of_lt hlt)

/-- What `mappages` stores. -/
theorem binding_map (hperm : perm >>> 10 = 0#64) :
    binding (pa2pte pa ||| perm ||| PTE_V) = some (pa % 2 ^ 64 / 4096, perm ||| PTE_V) := by
  have hflags : (perm ||| PTE_V) >>> 10 = 0#64 := by
    rw [ushiftRight_or_distrib, hperm]
    decide
  have hvalid : (pa2pte pa ||| perm ||| PTE_V) &&& PTE_V ≠ 0 := by
    rw [pte_and (by decide), and_or_distrib_right]
    exact fun hc => absurd (or_eq_zero_iff.mp hc).2 (by decide)
  have hpa : pte2pa (pa2pte pa ||| perm ||| PTE_V) / 4096 = pa % 2 ^ 64 / 4096 := by
    rw [BitVec.or_assoc, pte2pa, BitVec.ushiftRight_or_distrib, hflags, BitVec.or_zero]
    simp only [pa2pte, toNat_shiftLeft, toNat_ushiftRight, toNat_ofNat, Nat.shiftLeft_eq, Nat.shiftRight_eq_div_pow]
    omega
  rw [binding, if_pos hvalid, hpa, pteFlags, pte_and (by decide), flags_and hflags]

/-! ## The map -/

theorem flatMap_congr (h : ∀ v < VPAGES, pteAt m' n v = pteAt m n v) : flatMap m' n = flatMap m n := by
  funext v
  rw [flatMap, flatMap]
  split
  · rename_i hv
    rw [h v hv]
  · rfl

theorem flatMap_set (hv : v < VPAGES) (h : ∀ w < VPAGES, pteAt m' n w = if w = v then e else pteAt m n w) :
    flatMap m' n = update (flatMap m n) v (binding e) := by
  funext w
  by_cases hw : w = v
  · rw [hw, update_self, flatMap, if_pos hv, h v hv, if_pos rfl]
  · rw [update_of_ne hw, flatMap, flatMap]
    split
    · rename_i hlt
      rw [h w hlt, if_neg hw]
    · rfl

theorem pteAt_of_find (h : Radix.find next (ptes m) 2 n (path v) = some q) :
    read64 m (entry q (path v 0)) = pteAt m n v := by
  simp only [pteAt, Radix.leaf, h, elim_some]
  rfl

/-- The entry in the table that is found. -/
theorem isEntry_find (hn : (tables m n).Nodup) (hv : v < VPAGES) :
    IsEntry m n v ((Radix.find next (ptes m) 2 n (path v)).map (entry · (path v 0))) := by
  cases hf : Radix.find next (ptes m) 2 n (path v) with
  | none =>
    have hpte : pteAt m n v = 0 := by simp [pteAt, Radix.leaf, hf]
    show flatMap m n v = none
    rw [flatMap, if_pos hv, hpte]
    decide
  | some q =>
    refine ⟨?_, fun e => ?_⟩
    · rw [pteAt_of_find hf, flatMap, if_pos hv]
    · exact flatMap_set hv (tables_write hn hv hf rfl).2.1

namespace WellFormed

theorem nodup (h : WellFormed L k l n) : (tables k.mem n).Nodup :=
  (Multiset.nodup_add.mp (Multiset.nodup_of_le h.le L.frames.nodup)).2.1

end WellFormed

/-! ## `walk` -/

theorem page_lt (hva : va < MAXVA) : va / 4096 < VPAGES := by
  simp only [MAXVA, VPAGES] at hva ⊢
  omega

/-- `walk` returns the entry of the page, and changes nothing. -/
theorem walk_flat (hn : (tables k.mem n).Nodup) (hva : va < MAXVA) :
    ∃ r, walk k (4096 * n) va false = some (r, k) ∧ IsEntry k.mem n (va / 4096) r := by
  refine ⟨_, ?_, isEntry_find hn (page_lt hva)⟩
  rw [walk, if_neg (Nat.not_le.mpr hva), walkFrom_find, px_eq]

/-- `walk` may add tables, but the map stays, also when there is no memory for
them. -/
theorem walk_alloc_flat (h : WellFormed L k l n) (hva : va < MAXVA) :
    ∃ r k' l', walk k (4096 * n) va true = some (r, k') ∧ WellFormed L k' l' n ∧
      flatMap k'.mem n = flatMap k.mem n ∧ IsEntry k'.mem n (va / 4096) r ∧ (r = none → l' = []) := by
  obtain ⟨k', l', hw, hg, -, hnil, -⟩ := walkFrom_alloc va h.free h.le
  have h' : WellFormed L k' l' n := ⟨hg.free, hg.total.trans_le h.le⟩
  refine ⟨_, k', l', ?_, h', flatMap_congr fun v _ => hg.leaf (path v), isEntry_find h'.nodup (page_lt hva), ?_⟩
  · rw [walk, if_neg (Nat.not_le.mpr hva), hw, px_eq]
  · intro hr
    exact hnil (map_eq_none_iff.mp hr)

/-! ## `mappages` -/

/-- `mappages` of one page. -/
theorem mappages_flat (pa : Nat) (h : WellFormed L k l n) (hv : v < 2 ^ 26) (hperm : perm >>> 10 = 0#64)
    (hnone : flatMap k.mem n v = none) :
    ∃ ok k' l', mappages k (4096 * n) (4096 * v) PGSIZE pa perm = some (ok, k') ∧ WellFormed L k' l' n ∧
      (ok = false → l' = []) ∧ flatMap k'.mem n = if ok then
        update (flatMap k.mem n) v (some (pa % 2 ^ 64 / 4096, perm ||| PTE_V)) else flatMap k.mem n := by
  have hVP : v < VPAGES := by simp only [VPAGES]; omega
  rw [flatMap, if_pos hVP, binding_eq_none] at hnone
  obtain ⟨ok, k', l', hmap, ⟨-, hnil, -⟩, hfree, htot, -, -, hpte⟩ := mappages_page pa perm h.free h.le hv hnone
  refine ⟨ok, k', l', hmap, ⟨hfree, htot.trans_le h.le⟩, hnil, ?_⟩
  cases ok with
  | false =>
    rw [if_neg Bool.false_ne_true]
    exact flatMap_congr fun w hw => by rw [hpte w hw, if_neg (by simp)]
  | true =>
    rw [if_pos rfl, ← binding_map hperm]
    exact flatMap_set hVP fun w hw => by simpa using hpte w hw

/-- The map with `c` more virtual pages from `v` on, at the addresses from `pa`
on. -/
def addPages (f : Nat → Option (Nat × Pte)) (v c pa : Nat) (flags : Pte) : Nat → Option (Nat × Pte) := fun w =>
  if v ≤ w ∧ w < v + c then some ((pa + 4096 * (w - v)) % 2 ^ 64 / 4096, flags) else f w

theorem addPages_zero (f : Nat → Option (Nat × Pte)) (flags : Pte) : addPages f v 0 pa flags = f := by
  funext w
  rw [addPages, if_neg (by omega)]

theorem addPages_succ (f : Nat → Option (Nat × Pte)) (flags : Pte) :
    addPages (update f v (some (pa % 2 ^ 64 / 4096, flags))) (v + 1) c (pa + 4096) flags =
      addPages f v (c + 1) pa flags := by
  funext w
  simp only [addPages]
  by_cases h1 : v + 1 ≤ w ∧ w < v + 1 + c
  · rw [if_pos h1, if_pos (by omega), show pa + 4096 + 4096 * (w - (v + 1)) = pa + 4096 * (w - v) by omega]
  · rw [if_neg h1]
    by_cases h2 : w = v
    · rw [h2, update_self, if_pos (by omega), Nat.sub_self]
      rfl
    · rw [update_of_ne h2, if_neg (by omega)]

/-- The loop of `mappages` maps its pages in order, up to the first for which
there is no memory. -/
theorem mappagesLoop_flat (pa : Nat) (h : WellFormed L k l n) (hv : v + c ≤ 2 ^ 26) (hperm : perm >>> 10 = 0#64)
    (hnone : ∀ w, v ≤ w → w < v + c → flatMap k.mem n w = none) :
    ∃ j k' l', j ≤ c ∧ mappagesLoop (4096 * n) perm c k (4096 * v) pa = some (decide (j = c), k') ∧
      WellFormed L k' l' n ∧ (j < c → l' = []) ∧
      flatMap k'.mem n = addPages (flatMap k.mem n) v j pa (perm ||| PTE_V) := by
  induction c generalizing k l v pa with
  | zero => exact ⟨0, k, l, le_refl _, rfl, h, nofun, (addPages_zero ..).symm⟩
  | succ c ih =>
    obtain ⟨ok, k1, l1, hk1, h1, hnil, hmap⟩ :=
      mappages_flat pa h (show v < 2 ^ 26 by omega) hperm (hnone v (le_refl _) (by omega))
    rw [mappagesLoop_bind, hk1, bind_some]
    cases ok with
    | false =>
      refine ⟨0, k1, l1, Nat.zero_le _, by simp, h1, fun _ => hnil rfl, ?_⟩
      rw [hmap, addPages_zero]
      rfl
    | true =>
      rw [if_pos rfl] at hmap
      obtain ⟨j, k', l', hj, hk', h', hnil', hmap'⟩ := ih (v := v + 1) (pa + 4096) h1 (by omega) fun w hw1 hw2 => by
        rw [hmap, update_of_ne (by omega)]
        exact hnone w (by omega) (by omega)
      refine ⟨j + 1, k', l', by omega, ?_, h', fun hlt => hnil' (by omega), ?_⟩
      · rw [if_pos rfl]
        simp only [Nat.add_right_cancel_iff]
        exact hk'
      · rw [hmap', hmap, addPages_succ]

/-! ## `uvmunmap` -/

theorem kfree_frame (k : Kmem) (hq : q ∈ L.frames) : ∃ k', kfree L k (4096 * q) = some k' ∧ Frame {q} k.mem k'.mem := by
  have hrange := Layout.mem_frames.mp hq
  refine ⟨_, if_neg ?_, (Frame.memset (le_refl _) (le_refl _)).trans (Frame.write64 (le_refl _) (by omega))⟩
  simp only [PGSIZE, PHYSTOP, KERNBASE]
  omega

/-- An iteration of `uvmunmap`. A page that it frees must not be one of the
tables. -/
theorem uvmunmapLoop_page (hn : (tables k.mem n).Nodup) (hv : v < 2 ^ 26) (hb : flatMap k.mem n v = some b)
    (hflags : b.2 ≠ PTE_V) (hfree : doFree = true → b.1 ∈ L.frames ∧ b.1 ∉ tables k.mem n) :
    ∃ k', uvmunmapLoop L (4096 * n) doFree (c + 1) k (4096 * v) =
        uvmunmapLoop L (4096 * n) doFree c k' (4096 * (v + 1)) ∧
      tables k'.mem n = tables k.mem n ∧ flatMap k'.mem n = update (flatMap k.mem n) v none := by
  have hVP : v < VPAGES := by simp only [VPAGES]; omega
  have hbind := hb
  rw [flatMap, if_pos hVP] at hbind
  obtain ⟨hvalid, hpa, hf⟩ := binding_eq_some hbind
  obtain ⟨q, hq, -, hpte⟩ := find_of_valid hvalid
  -- the page is freed, and the tables are as before
  obtain ⟨k1, S, hk1, hS, hframe⟩ : ∃ k1 S, (if doFree then kfree L k (pte2pa (pteAt k.mem n v)) else some k) = some k1 ∧
      (∀ r ∈ tables k.mem n, r ∉ S) ∧ Frame S k.mem k1.mem := by
    cases doFree with
    | false => exact ⟨k, 0, rfl, fun _ _ => Multiset.notMem_zero _, Frame.rfl'⟩
    | true =>
      obtain ⟨hmem, hnot⟩ := hfree rfl
      obtain ⟨k1, hk1, hframe⟩ := kfree_frame k hmem
      refine ⟨k1, {b.1}, ?_, fun r hr hrb => hnot (Multiset.mem_singleton.mp hrb ▸ hr), hframe⟩
      rw [if_pos rfl, hpa, hk1]
  obtain ⟨htab, hpte1, -, hfind⟩ := tables_frame hframe hS
  have hn1 : (tables k1.mem n).Nodup := by rw [htab]; exact hn
  have hq1 : Radix.find next (ptes k1.mem) 2 n (path v) = some q := by rw [hfind]; exact hq
  obtain ⟨htab', hpte', -, -⟩ := tables_write (e := 0) hn1 hVP hq1 rfl
  refine ⟨{ k1 with mem := write64 k1.mem (entry q (path v 0)) 0 }, ?_, htab'.trans htab, ?_⟩
  · have hread : read64 k.mem (entry q (path v 0)) = pteAt k.mem n v := hpte
    simp only [uvmunmapLoop, walk_find hv, hq, map_some, bind_eq_bind, bind_some, hread,
      if_neg hvalid, if_neg (hf ▸ hflags)]
    rw [show 4096 * v + PGSIZE = 4096 * (v + 1) by simp only [PGSIZE]; omega]
    cases doFree with
    | false =>
      cases hk1
      rfl
    | true =>
      rw [if_pos rfl] at hk1 ⊢
      rw [hk1, bind_some]
  · rw [flatMap_set hVP hpte', flatMap_congr fun w _ => hpte1 w, binding_eq_none.mpr (by decide)]

/-- `uvmunmap` removes its pages from the map. -/
theorem uvmunmapLoop_flat (hn : (tables k.mem n).Nodup) (hv : v + c ≤ 2 ^ 26)
    (hmapped : ∀ w, v ≤ w → w < v + c → ∃ b, flatMap k.mem n w = some b ∧ b.2 ≠ PTE_V ∧
      (doFree = true → b.1 ∈ L.frames ∧ b.1 ∉ tables k.mem n)) :
    ∃ k', uvmunmapLoop L (4096 * n) doFree c k (4096 * v) = some k' ∧ tables k'.mem n = tables k.mem n ∧
      ∀ w, flatMap k'.mem n w = if v ≤ w ∧ w < v + c then none else flatMap k.mem n w := by
  induction c generalizing k v with
  | zero => exact ⟨k, rfl, rfl, fun w => by rw [if_neg (by omega)]⟩
  | succ c ih =>
    obtain ⟨b, hb, hflags, hfree⟩ := hmapped v (le_refl _) (by omega)
    obtain ⟨k1, hk1, htab1, hmap1⟩ := uvmunmapLoop_page (c := c) hn (show v < 2 ^ 26 by omega) hb hflags hfree
    have hn1 : (tables k1.mem n).Nodup := by rw [htab1]; exact hn
    obtain ⟨k', hk', htab', hmap'⟩ := ih (v := v + 1) hn1 (by omega) fun w hw1 hw2 => by
      rw [hmap1, update_of_ne (by omega), htab1]
      exact hmapped w (by omega) (by omega)
    refine ⟨k', hk1.trans hk', htab'.trans htab1, fun w => ?_⟩
    rw [hmap', hmap1]
    by_cases h1 : v + 1 ≤ w ∧ w < v + 1 + c
    · rw [if_pos h1, if_pos (by omega)]
    · rw [if_neg h1]
      by_cases h2 : w = v
      · rw [h2, update_self, if_pos (by omega)]
      · rw [update_of_ne h2, if_neg (by omega)]

/-! ## The refinement -/

/-- `walkaddr` of the map. -/
theorem walkaddr_flat (hva : va < MAXVA) : walkaddr k (4096 * n) va = (flatMap k.mem n (va / 4096)).elim 0
    fun b => if b.2 &&& PTE_V ≠ 0 ∧ b.2 &&& PTE_U ≠ 0 then 4096 * b.1 else 0 := by
  have hflag : ∀ e mask : Pte, 0x3FF &&& mask = mask → pteFlags e &&& mask = e &&& mask := fun e mask hm => by
    rw [pteFlags, BitVec.and_assoc, hm]
  rw [walkaddr_eq hva, flatMap, if_pos (page_lt hva)]
  cases hb : binding (pteAt k.mem n (va / 4096)) with
  | none => rw [if_pos (binding_eq_none.mp hb), elim_none]
  | some b =>
    obtain ⟨hvalid, hpa, hf⟩ := binding_eq_some hb
    rw [if_neg hvalid, elim_some, ← hf, hflag _ _ (by decide), hflag _ _ (by decide), hpa]
    by_cases hU : pteAt k.mem n (va / 4096) &&& PTE_U = 0
    · rw [if_pos hU, if_neg fun hc => hc.2 hU]
    · rw [if_neg hU, if_pos ⟨hvalid, hU⟩]

/-- The virtual page `v` has an address of the `size` addresses from `va` on. -/
def Meets (v va size : Nat) : Prop := 4096 * v < va + size ∧ va < 4096 * v + 4096

/-- `mappages` of any range of addresses is its loop over the pages that meet it. -/
theorem mappages_loop {size : Nat} (k : Kmem) (pa : Nat) (hsize : 0 < size) : mappages k n va size pa perm =
    mappagesLoop n perm ((va + size - 1) / 4096 - va / 4096 + 1) k (4096 * (va / 4096)) pa := by
  have hstart : pgrounddown va = 4096 * (va / 4096) := by
    simp only [pgrounddown, PGSIZE]
    omega
  have hcount : (pgrounddown (va + size - 1) - 4096 * (va / 4096)) / PGSIZE = (va + size - 1) / 4096 - va / 4096 := by
    simp only [pgrounddown, PGSIZE]
    omega
  rw [mappages, if_neg (by omega)]
  simp only [hstart, hcount]

/-- The three-level page table is the map `flatMap`: `walk` returns the entry of the
page of an address; `mappages` adds the pages that meet its range, at consecutive
addresses, and `uvmunmap` removes its pages; `walkaddr` is the address of a page
that the user may use; and without memory for a table, the map stays. -/
theorem page_table_refines (h : WellFormed L k l n) :
    (∀ va < MAXVA, ∃ r, walk k (4096 * n) va false = some (r, k) ∧ IsEntry k.mem n (va / 4096) r) ∧
    (∀ va < MAXVA, ∃ r k' l', walk k (4096 * n) va true = some (r, k') ∧ WellFormed L k' l' n ∧
      flatMap k'.mem n = flatMap k.mem n ∧ IsEntry k'.mem n (va / 4096) r ∧ (r = none → l' = [])) ∧
    (∀ (va size pa : Nat) (perm : Pte), 0 < size → va + size ≤ MAXVA → perm >>> 10 = 0#64 →
      (∀ v, Meets v va size → flatMap k.mem n v = none) →
      ∃ ok k' l', mappages k (4096 * n) va size pa perm = some (ok, k') ∧ WellFormed L k' l' n ∧
        (ok = true → (∀ i, Meets (va / 4096 + i) va size →
            flatMap k'.mem n (va / 4096 + i) = some ((pa + i * PGSIZE) % 2 ^ 64 / PGSIZE, perm ||| PTE_V)) ∧
          ∀ v, ¬Meets v va size → flatMap k'.mem n v = flatMap k.mem n v) ∧
        (ok = false → l' = [] ∧ ((va + size - 1) / PGSIZE = va / PGSIZE → flatMap k'.mem n = flatMap k.mem n))) ∧
    (∀ v npages doFree, v + npages ≤ 2 ^ 26 →
      (∀ w, v ≤ w → w < v + npages → ∃ b, flatMap k.mem n w = some b ∧ b.2 ≠ PTE_V ∧
        (doFree = true → b.1 ∈ L.frames ∧ b.1 ∉ tables k.mem n)) →
      ∃ k', uvmunmap L k (4096 * n) (v * PGSIZE) npages doFree = some k' ∧ tables k'.mem n = tables k.mem n ∧
        (∀ w, v ≤ w → w < v + npages → flatMap k'.mem n w = none) ∧
        ∀ w, w < v ∨ v + npages ≤ w → flatMap k'.mem n w = flatMap k.mem n w) ∧
    ∀ va < MAXVA, walkaddr k (4096 * n) va = (flatMap k.mem n (va / 4096)).elim 0
      fun b => if b.2 &&& PTE_V ≠ 0 ∧ b.2 &&& PTE_U ≠ 0 then b.1 * PGSIZE else 0 := by
  refine ⟨fun va hva => walk_flat h.nodup hva, fun va hva => walk_alloc_flat h hva, ?_, ?_, fun va hva => ?_⟩
  · intro va size pa perm hsize hva hperm hnone
    simp only [MAXVA] at hva
    obtain ⟨j, k', l', hj, hk', h', hnil, hmap⟩ := mappagesLoop_flat (v := va / 4096)
      (c := (va + size - 1) / 4096 - va / 4096 + 1) pa h (by omega) hperm fun w hw1 hw2 => hnone w ⟨by omega, by omega⟩
    rw [← mappages_loop k pa hsize] at hk'
    refine ⟨_, k', l', hk', h', fun hok => ⟨fun i hi => ?_, fun v hv => ?_⟩, fun hok => ?_⟩
    · have hj := of_decide_eq_true hok
      rw [Meets] at hi
      rw [hmap, addPages, if_pos (by omega), Nat.add_sub_cancel_left, Nat.mul_comm]
    · have hj := of_decide_eq_true hok
      rw [Meets] at hv
      rw [hmap, addPages, if_neg (by omega)]
    · have hj' := of_decide_eq_false hok
      refine ⟨hnil (by omega), fun hone => ?_⟩
      simp only [PGSIZE] at hone
      rw [hmap, show j = 0 by omega, addPages_zero]
  · intro v npages doFree hv hmapped
    obtain ⟨k', hk', htab, hmap⟩ := uvmunmapLoop_flat h.nodup hv hmapped
    refine ⟨k', ?_, htab, fun w hw1 hw2 => ?_, fun w hw => ?_⟩
    · rw [uvmunmap, if_neg (by simp only [PGSIZE]; omega), Nat.mul_comm v]
      exact hk'
    · rw [hmap, if_pos ⟨hw1, hw2⟩]
    · rw [hmap, if_neg (by omega)]
  · rw [walkaddr_flat hva]
    simp only [Nat.mul_comm]

/-- The kernel's page table is well formed. -/
theorem Inv.wellFormed {s : Sys} {E : Multiset Nat} (h : Inv L s l E) :
    WellFormed L s.kmem l (s.kernelPagetable / 4096) := by
  refine ⟨h.free, ?_⟩
  rw [← h.total]
  exact add_le_add_right ((Multiset.le_add_right _ _).trans (Multiset.le_add_right _ _)) _

/-- After boot, the kernel's page table has an entry for the page of the `uart`. -/
theorem page_table_refines_boot : ∃ s l r, boot .usual (fun _ => 0) = some s ∧
    WellFormed .usual s.kmem l (s.kernelPagetable / 4096) ∧
    walk s.kmem (4096 * (s.kernelPagetable / 4096)) UART0 false = some (r, s.kmem) ∧
    IsEntry s.kmem.mem (s.kernelPagetable / 4096) (UART0 / 4096) r := by
  obtain ⟨s, l, hs, h, -⟩ := boot_inv (fun _ => 0) Layout.usual_frames
  obtain ⟨r, hr, hentry⟩ := (page_table_refines h.wellFormed).1 UART0 (by decide)
  exact ⟨s, l, r, hs, h.wellFormed, hr, hentry⟩

end Xv6.Vm
