import Xv6.Vm.Flat

/-!
# `sbrk`

`growproc` adds to the size of a process what it was asked for, keeps the bytes
below both sizes and clears the pages it adds, or it changes nothing
(`growproc_contents`). That is so for every amount that leaves a size: an amount
that takes away more than there is is added to a `uint`, and `uvmdealloc` then
takes the process to grow, does nothing, and reports the old size, so that
`sbrk` succeeds (`sbrk_below_zero`).
-/

namespace Xv6.Vm

open Framework Machine Option

variable {L : Layout} {k k' : Kmem} {l : List Nat} {m m' : Bytes} {p : MProc} {n : Nat} {P P' : Pte → Prop}
  {U C : Finset Nat} {fixed : Nat → Option Nat}

/-- The map of a space that was changed and changed back. -/
theorem Keeps.flatMap_eq (hk : Keeps n U C m m') (h : Space m n P U fixed) (h' : Space m' n P' U fixed)
    (hC : ∀ v ∈ C, v ∉ U ∧ fixed v = none) : flatMap m' n = flatMap m n := by
  funext v
  rw [flatMap, flatMap]
  split
  · next hv =>
    by_cases hvC : v ∈ C
    · obtain ⟨hvU, hfix⟩ := hC v hvC
      have hrest := h.rest v hv hvU
      have hrest' := h'.rest v hv hvU
      rw [hfix] at hrest hrest'
      rw [binding_eq_none.mpr hrest, binding_eq_none.mpr hrest']
    · rw [hk.pte v hv hvC]
  · rfl

/-- The bytes of the pages below those that were changed. -/
theorem Keeps.vbyte_below {v c d a : Nat} (hk : Keeps n (Finset.range v) (Finset.Ico c d) m m') (hv : v < VPAGES)
    (ha : a < 4096 * v) (hc : a / 4096 < c) : Vm.vbyte m' n a = Vm.vbyte m n a :=
  hk.vbyte (by omega) (Finset.mem_range.mpr (by omega)) fun hac => by
    rw [Finset.mem_Ico] at hac
    omega

/-- `growproc` by an amount that leaves a size: the new size is the sum, with the
bytes below both sizes as they were and the new pages clear; or all is as it
was. -/
theorem growproc_contents {n : Word} (h : ProcOk L k.mem p) (hfree : k.Free l)
    (hT : l + spacePages k.mem p ≤ L.frames.val) (hn : 0 ≤ p.sz + n.toInt) :
    ∃ ok k' sz', growproc L k p n = some (ok, k', p.resize sz') ∧
      (ok = true → sz' = p.sz + n.toInt ∧ (∀ a < min p.sz sz', vbyte k'.mem p.root a = vbyte k.mem p.root a) ∧
        ∀ v, npages p.sz ≤ v → v < npages sz' → Fresh k'.mem p.root v) ∧
      (ok = false → sz' = p.sz ∧ flatMap k'.mem p.root = flatMap k.mem p.root ∧
        ∀ a < 4096 * npages p.sz, vbyte k'.mem p.root a = vbyte k.mem p.root a) := by
  have hh := h.holds hfree
  have hle := hh.user_le hT
  have hsz : (BitVec.ofNat 32 p.sz).toNat = p.sz := by
    simp only [npages] at hle
    rw [BitVec.toNat_ofNat]
    omega
  have hfix : ∀ w < 2 ^ 26 - 2, procFixed L p.tfPage w = none := fun w hw => procFixed_of_lt hw
  -- the sum does not wrap
  obtain ⟨t, ht, htsum⟩ : ∃ t, (BitVec.ofNat 32 p.sz + n).toNat = t ∧ (t : Int) = p.sz + n.toInt := by
    refine ⟨_, rfl, ?_⟩
    simp only [npages] at hle
    rw [BitVec.toNat_add, hsz]
    have hlt := n.isLt
    have hi := n.toInt_eq_toNat_cond
    split at hi <;> omega
  have htlt : t < 2 ^ 32 := ht ▸ (BitVec.ofNat 32 p.sz + n).isLt
  have hnp : ∀ {a sz : Nat}, a < sz → a < 4096 * npages sz := fun {a sz} ha => by
    simp only [npages]
    omega
  have hsmall : npages p.sz < VPAGES ∧ npages t < 2 ^ 26 - 2 := by
    simp only [npages, VPAGES] at hle ⊢
    omega
  simp only [growproc, hsz, ht]
  split
  · next hpos =>
    obtain ⟨r, k', l', hk', -, hcase⟩ := uvmalloc_holds t hh hT hfix fun _ => trivial
    rw [← h.pagetable] at hk'
    simp only [hk', bind_eq_bind, bind_some]
    rcases hcase with ⟨rfl, -, hkeep, hfresh⟩ | ⟨rfl, h', hkeep⟩
    · rw [Nat.max_eq_right (by omega)] at hkeep hfresh ⊢
      rw [Nat.mod_eq_of_lt htlt, if_neg (by omega)]
      refine ⟨true, k', t, rfl, fun _ => ⟨htsum, fun a ha => ?_, hfresh⟩, by simp⟩
      have := hnp (Nat.lt_of_lt_of_le ha (Nat.min_le_left _ _))
      exact hkeep.vbyte_below hsmall.1 this (by omega)
    · rw [Nat.zero_mod, if_pos rfl]
      refine ⟨false, k', p.sz, rfl, by simp, fun _ => ⟨rfl, hkeep.flatMap_eq h.space h'.space fun v hv => ?_, fun a ha => ?_⟩⟩
      · rw [Finset.mem_Ico] at hv
        exact ⟨by rw [Finset.mem_range]; omega, hfix v (by omega)⟩
      · exact hkeep.vbyte_below hsmall.1 ha (by omega)
  · split
    · obtain ⟨k', l', hk', -, h', hkeep⟩ := uvmdealloc_holds t hh hT hfix
      rw [← h.pagetable] at hk'
      rw [Nat.min_eq_right (by omega)] at hk' hkeep
      simp only [hk', bind_eq_bind, bind_some]
      rw [Nat.mod_eq_of_lt htlt]
      refine ⟨true, k', t, rfl, fun _ => ⟨htsum, fun a ha => ?_, fun v hv hv' => ?_⟩, by simp⟩
      · have hat := hnp (Nat.lt_of_lt_of_le ha (Nat.min_le_right _ _))
        exact hkeep.vbyte_below hsmall.1 (hnp (Nat.lt_of_lt_of_le ha (Nat.min_le_left _ _))) (by omega)
      · simp only [npages] at hv hv'
        omega
    · refine ⟨true, k, p.sz, rfl, fun _ => ⟨by omega, fun _ _ => rfl, fun v hv hv' => by omega⟩, by simp⟩

/-- An amount that takes away more than there is changes nothing, and succeeds. -/
theorem growproc_below_zero {n : Word} (hsz : p.sz < 2 ^ 31) (hn : p.sz + n.toInt < 0) :
    growproc L k p n = some (true, k, p) := by
  have hszn : (BitVec.ofNat 32 p.sz).toNat = p.sz := by
    rw [BitVec.toNat_ofNat]
    omega
  have hlt := n.isLt
  have hi := n.toInt_eq_toNat_cond
  have hge : p.sz ≤ (BitVec.ofNat 32 p.sz + n).toNat := by
    rw [BitVec.toNat_add, hszn]
    split at hi <;> omega
  rw [growproc, if_neg (by omega), if_pos (by omega)]
  simp only [hszn, uvmdealloc, ge_iff_le, if_pos hge, bind_eq_bind, bind_some]
  rw [Nat.mod_eq_of_lt (by omega)]
  rfl

/-- From boot on, whatever the processes do, `growproc` by an amount that leaves a
size does what it reports: on success the size has grown by that amount, the
bytes below both sizes are as before, and the pages that were added are clear; on
failure the size, the mapping and the bytes are as before. -/
theorem sbrk_reports (m : Bytes) (hL : KPAGES + 10 ≤ L.frames.card) :
    ∃ s₀, boot L m = some s₀ ∧ ∀ as s, Run (step L) s₀ as s → ∀ i, (s.proc i).state ≠ .unused →
      ∀ n : Word, 0 ≤ (s.proc i).sz + n.toInt →
        ∃ ok k' sz', growproc L s.kmem (s.proc i) n = some (ok, k', (s.proc i).resize sz') ∧
          (ok = true → sz' = (s.proc i).sz + n.toInt ∧
            (∀ a < min (s.proc i).sz sz', vbyte k'.mem (s.proc i).root a = vbyte s.kmem.mem (s.proc i).root a) ∧
            ∀ v, npages (s.proc i).sz ≤ v → v < npages sz' → Fresh k'.mem (s.proc i).root v) ∧
          (ok = false → sz' = (s.proc i).sz ∧ flatMap k'.mem (s.proc i).root = flatMap s.kmem.mem (s.proc i).root ∧
            ∀ a < 4096 * npages (s.proc i).sz,
              vbyte k'.mem (s.proc i).root a = vbyte s.kmem.mem (s.proc i).root a) := by
  obtain ⟨s₀, l0, hs0, h0, -⟩ := boot_inv m hL
  refine ⟨s₀, hs0, fun as s hrun i hi n hn => ?_⟩
  obtain ⟨l, h⟩ := h0.run hrun
  exact growproc_contents ((h.slot i).ok hi) h.free (h.space_le hi) hn

/-- `init` starts with one page. -/
theorem boot_sz {s0 : Sys} (h : boot L m = some s0) : (s0.proc initproc).sz = 4096 := by
  simp only [boot, userinit, bind_eq_bind, bind_eq_some_iff, Option.some.injEq] at h
  obtain ⟨k1, -, r, -, ⟨k2, p⟩, ⟨⟨ok, k3, p3⟩, -, hp⟩, rfl⟩ := h
  simp only [ite_none_right_eq_some, bind_eq_some_iff, Option.some.injEq, Prod.mk.injEq] at hp
  obtain ⟨-, k4, -, -, rfl⟩ := hp
  simp

/-- `init` grows by a page. -/
theorem sbrk_reports_page : ∃ s₀ ok k' sz', boot .usual (fun _ => 0) = some s₀ ∧
    growproc .usual s₀.kmem (s₀.proc initproc) 4096 = some (ok, k', (s₀.proc initproc).resize sz') ∧
    (ok = true → sz' = 8192 ∧ Fresh k'.mem (s₀.proc initproc).root 1) := by
  obtain ⟨s₀, hs0, h⟩ := sbrk_reports (fun _ => 0) Layout.usual_frames
  obtain ⟨s, l, hs, -, halive⟩ := boot_inv (fun _ => 0) Layout.usual_frames
  cases hs0.symm.trans hs
  have hsz := boot_sz hs0
  obtain ⟨ok, k', sz', hk', hyes, -⟩ := h [] s₀ .nil initproc (state_ne_unused halive) 4096 (by rw [hsz]; decide)
  refine ⟨s₀, ok, k', sz', hs0, hk', fun hok => ?_⟩
  obtain ⟨hsz', -, hfresh⟩ := hyes hok
  have h8192 : sz' = 8192 := by
    rw [hsz] at hsz'
    exact Int.ofNat.inj hsz'
  exact ⟨h8192, hfresh 1 (by rw [hsz]; decide) (by rw [h8192]; decide)⟩

/-- `init` takes away two pages of its one page: `growproc` returns 0. -/
theorem sbrk_below_zero : ∃ s₀, boot .usual (fun _ => 0) = some s₀ ∧ (s₀.proc initproc).sz = 4096 ∧
    growproc .usual s₀.kmem (s₀.proc initproc) (-8192) = some (true, s₀.kmem, s₀.proc initproc) := by
  obtain ⟨s₀, l, hs0, -, -⟩ := boot_inv (fun _ => 0) Layout.usual_frames
  have hsz := boot_sz hs0
  exact ⟨s₀, hs0, hsz, growproc_below_zero (by rw [hsz]; decide) (by rw [hsz]; decide)⟩

end Xv6.Vm
