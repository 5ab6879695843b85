import Xv6.Vm.Flat

/-!
# The shape of an address space

Every deallocation trusts `p->sz`, so `p->sz` has to say what is mapped: in every
run, the page table of a process maps the pages below `PGROUNDUP(p->sz)`, the
trapframe and the trampoline, and nothing else, and no table is in use twice
(`address_space_shape`).
-/

namespace Xv6.Vm

open Framework Machine Multiset

variable {L : Layout} {s : Sys} {l : List Nat} {m : Bytes} {p : MProc} {i j : Slot} {v : Nat} {E : Multiset Nat}

theorem flatMap_isSome (hv : v < VPAGES) {n : Nat} : (flatMap m n v).isSome ↔ pteAt m n v &&& PTE_V ≠ 0 := by
  rw [flatMap, if_pos hv, ← Option.ne_none_iff_isSome, ne_eq, binding_eq_none]

/-- The pages of the trapframe and the trampoline. -/
theorem procFixed_eq_none (tf : Nat) :
    procFixed L tf v = none ↔ ¬(4096 * v = TRAPFRAME ∨ 4096 * v = TRAMPOLINE) := by
  rw [trapframe_eq, trampoline_eq, Nat.mul_left_cancel_iff (by decide), Nat.mul_left_cancel_iff (by decide), procFixed]
  by_cases htf : v = 2 ^ 26 - 2
  · simp [htf]
  · rw [Function.update_of_ne htf]
    by_cases htr : v = 2 ^ 26 - 1
    · simp [htr]
    · rw [Function.update_of_ne htr]
      exact iff_of_true rfl (not_or.mpr ⟨htf, htr⟩)

namespace ProcOk

/-- An entry of the page table is not valid, or maps a page. -/
theorem leaf (h : ProcOk L m p) (hv : v < VPAGES) (hvalid : pteAt m p.root v &&& PTE_V ≠ 0) :
    IsLeaf (pteAt m p.root v) := by
  by_cases hU : v ∈ p.vpages
  · exact (h.space.user v hU).1
  · have hrest := h.space.rest v hv hU
    cases hf : procFixed L p.tfPage v with
    | none =>
      rw [hf] at hrest
      exact absurd hrest hvalid
    | some pa =>
      rw [hf] at hrest
      exact hrest.1

/-- The pages below the size of the process, the trapframe and the trampoline are
mapped. -/
theorem mapped (h : ProcOk L m p) : (flatMap m p.root v).isSome ↔
    4096 * v < pgroundup p.sz ∨ 4096 * v = TRAPFRAME ∨ 4096 * v = TRAMPOLINE := by
  have hU : 4096 * v < pgroundup p.sz ↔ v ∈ p.vpages := by
    rw [pgroundup_eq, MProc.vpages, Finset.mem_range, Nat.mul_lt_mul_left (by decide)]
  rw [hU]
  by_cases hv : v < VPAGES
  · rw [flatMap_isSome hv]
    by_cases hmem : v ∈ p.vpages
    · simp only [hmem, true_or, iff_true]
      exact (h.space.user v hmem).1.1
    · have hrest := h.space.rest v hv hmem
      have hfix := procFixed_eq_none (L := L) (v := v) p.tfPage
      cases hf : procFixed L p.tfPage v with
      | none =>
        rw [hf] at hrest
        simp only [hmem, false_or]
        exact iff_of_false (not_not.mpr hrest) (hfix.mp hf)
      | some pa =>
        rw [hf] at hrest
        simp only [hmem, false_or]
        exact iff_of_true hrest.1.1 (by_contra fun hc => by rw [hfix.mpr hc] at hf; cases hf)
  · refine iff_of_false (by rw [flatMap, if_neg hv]; exact Bool.false_ne_true) ?_
    rintro (hc | hc | hc)
    · have := h.space.lt v hc
      simp only [VPAGES] at hv
      omega
    · rw [trapframe_eq] at hc
      simp only [VPAGES] at hv
      omega
    · rw [trampoline_eq] at hc
      simp only [VPAGES] at hv
      omega

end ProcOk

theorem tables_le_slotPages (hi : p.state ≠ .unused) : tables m p.root ≤ slotPages m p := by
  rw [slotPages_of_ne hi, procPages, spacePages]
  exact (le_add_right _ _).trans (le_cons_self _ _)

namespace Inv

/-- The size of a process is bounded by the memory there is. -/
theorem sz_lt (h : Inv L s l E) (hi : (s.proc i).state ≠ .unused) : (s.proc i).sz < TRAPFRAME := by
  have hle : l + spacePages s.kmem.mem (s.proc i) ≤ L.frames.val := by
    refine le_trans (add_le_add_right ?_ _) (h.proc_le hi)
    exact le_cons_self _ _
  have hlt := (((h.slot i).ok hi).holds h.free).user_lt hle
  rw [trapframe_eq]
  simp only [npages] at hlt
  omega

/-- Two page tables have no table in common. -/
theorem tables_disjoint (h : Inv L s l E) (hij : i ≠ j) (hi : (s.proc i).state ≠ .unused)
    (hj : (s.proc j).state ≠ .unused) :
    ∀ q ∈ tables s.kmem.mem (s.proc i).root, q ∉ tables s.kmem.mem (s.proc j).root := fun q hq hq' => by
  refine h.slots_disjoint hij q (mem_of_le (tables_le_slotPages hi) hq) ?_
  exact mem_add.mpr (.inr (mem_of_le (tables_le_slotPages hj) hq'))

/-- The kernel's page table has tables of its own. -/
theorem kernel_disjoint (h : Inv L s l E) (hi : (s.proc i).state ≠ .unused) :
    ∀ q ∈ tables s.kmem.mem (s.kernelPagetable / 4096), q ∉ tables s.kmem.mem (s.proc i).root := fun q hq hq' => by
  refine h.notMem_of_mem (i := i) (mem_add.mpr (.inl (mem_add.mpr (.inl hq)))) ?_
  exact mem_add.mpr (.inr (mem_of_le (tables_le_slotPages hi) hq'))

end Inv

/-- From boot on, whatever the processes do, the page table of a process maps the
pages below `PGROUNDUP(p->sz)`, the trapframe and the trampoline, and nothing else,
`p->sz` is below `TRAPFRAME`, and no table is shared. So no action of a process
panics, except when `init` exits. -/
theorem address_space_shape (m : Bytes) (hL : KPAGES + 10 ≤ L.frames.card) :
    ∃ s₀, boot L m = some s₀ ∧ ∀ as s, Run (step L) s₀ as s →
      (∀ i, (s.proc i).state ≠ .unused →
        (∀ v, (flatMap s.kmem.mem (s.proc i).root v).isSome ↔
          4096 * v < pgroundup (s.proc i).sz ∨ 4096 * v = TRAPFRAME ∨ 4096 * v = TRAMPOLINE) ∧
        (∀ v < VPAGES, pteAt s.kmem.mem (s.proc i).root v &&& PTE_V ≠ 0 → IsLeaf (pteAt s.kmem.mem (s.proc i).root v)) ∧
        Radix.Dir next IsDir (ptes s.kmem.mem) 2 (s.proc i).root ∧ (s.proc i).sz < TRAPFRAME ∧
        (tables s.kmem.mem (s.proc i).root).Nodup ∧
        (∀ j, i ≠ j → (s.proc j).state ≠ .unused →
          ∀ q ∈ tables s.kmem.mem (s.proc i).root, q ∉ tables s.kmem.mem (s.proc j).root) ∧
        ∀ q ∈ tables s.kmem.mem (s.kernelPagetable / 4096), q ∉ tables s.kmem.mem (s.proc i).root) ∧
      ∀ a : Act, Alive (s.proc a.caller).toProc → (∀ status ticks, a ≠ .exit initproc status ticks) →
        ∃ s', step L s a = some s' := by
  obtain ⟨s₀, l0, hs0, h0, -⟩ := boot_inv m hL
  refine ⟨s₀, hs0, fun as s hrun => ?_⟩
  obtain ⟨l, h⟩ := h0.run hrun
  refine ⟨fun i hi => ?_, fun a hp hexit => ?_⟩
  · have hok := (h.slot i).ok hi
    have hnd : (tables s.kmem.mem (s.proc i).root).Nodup :=
      nodup_of_le ((tables_le_slotPages hi).trans ((le_add_left _ _).trans (h.slot_le i))) L.frames.nodup
    exact ⟨fun v => hok.mapped, fun v hv => hok.leaf hv, hok.space.dir, h.sz_lt hi, hnd,
      fun j hij hj => h.tables_disjoint hij hi hj, h.kernel_disjoint hi⟩
  · obtain ⟨s', -, hs', -⟩ := Act.run_inv h hp hexit
    exact ⟨s', by rw [step, if_pos hp, hs']⟩

/-- `init` maps what its size says, and may call `sbrk` with the least argument. -/
theorem address_space_shape_sbrk :
    ∃ s₀ s₁, boot .usual (fun _ => 0) = some s₀ ∧ step .usual s₀ (.sbrk initproc (-2147483648)) = some s₁ ∧
      (s₀.proc initproc).sz < TRAPFRAME ∧ ∀ v, (flatMap s₀.kmem.mem (s₀.proc initproc).root v).isSome ↔
        4096 * v < pgroundup (s₀.proc initproc).sz ∨ 4096 * v = TRAPFRAME ∨ 4096 * v = TRAMPOLINE := by
  obtain ⟨s₀, hs0, h⟩ := address_space_shape (fun _ => 0) Layout.usual_frames
  obtain ⟨s, l, hs, -, halive⟩ := boot_inv (fun _ => 0) Layout.usual_frames
  cases hs0.symm.trans hs
  obtain ⟨hshape, hstep⟩ := h [] s₀ .nil
  obtain ⟨s₁, hs1⟩ := hstep (.sbrk initproc (-2147483648)) halive nofun
  obtain ⟨hmap, -, -, hsz, -⟩ := hshape initproc (state_ne_unused halive)
  exact ⟨s₀, s₁, hs0, hs1, hsz, hmap⟩

end Xv6.Vm
