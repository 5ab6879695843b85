import Xv6.Vm.ExecArgs

/-!
# The two address spaces of `exec`

A call of `exec` builds a new address space beside the old one and frees one of
the two (`exec_ok`); the pages of the arguments are allocated before and freed
after, on every path (`sysExec_ok`).
-/

namespace Xv6.Vm

open Framework Multiset Option

variable {L : Layout} {k k' : Kmem} {l l' : List Nat} {m m' : Bytes} {n v tf : Nat} {p : MProc} {P : Pte → Prop}
  {U : Finset Nat} {fixed : Nat → Option Nat} {T : Multiset Nat} {ip : Program}

/-! ## The two address spaces -/

theorem setTrapframe_frame (m : Bytes) (tf sp entry : Nat) : Frame {tf} m (setTrapframe m (4096 * tf) sp entry) :=
  (Frame.write64 (by omega) (by omega)).trans
    ((Frame.write64 (by omega) (by omega)).trans (Frame.write64 (by omega) (by omega)))

/-- The process `p` has become `p'`, and the free list `l'`; they own the same
pages together. -/
structure Conserved (L : Layout) (k : Kmem) (l : List Nat) (p : MProc) (k' : Kmem) (l' : List Nat) (p' : MProc) :
    Prop where
  free : k'.Free l'
  ok : ProcOk L k'.mem p'
  frame : Frame (l + procPages k.mem p) k.mem k'.mem
  total : l' + procPages k'.mem p' = l + procPages k.mem p

/-- Only free pages have changed. -/
theorem Conserved.of_frame (h : ProcOk L k.mem p) (hT : l + procPages k.mem p ≤ L.frames.val) (hfree : k'.Free l')
    (hl : (l' : Multiset Nat) = l) (hf : Frame l k.mem k'.mem) : Conserved L k l p k' l' p := by
  have hdis := (nodup_add.mp (nodup_of_le hT L.frames.nodup)).2.2
  obtain ⟨hok, hpages⟩ := h.frame hf fun q hq hql => disjoint_left.mp hdis hql hq
  exact ⟨hfree, hok, hf.mono (Multiset.le_add_right _ _), by rw [hl, hpages]⟩

/-- The registers `a1`, `epc` and `sp` in the trapframe. -/
theorem setTrapframe_regs (m : Bytes) (tf sp entry : Nat) :
    read64 (setTrapframe m tf sp entry) (tf + 120) = BitVec.ofNat 64 sp ∧
      read64 (setTrapframe m tf sp entry) (tf + 24) = BitVec.ofNat 64 entry ∧
      read64 (setTrapframe m tf sp entry) (tf + 48) = BitVec.ofNat 64 sp := by
  refine ⟨?_, ?_, read64_write64_self _ _ _⟩
  · rw [setTrapframe, read64_write64_disjoint (by omega), read64_write64_disjoint (by omega), read64_write64_self]
  · rw [setTrapframe, read64_write64_disjoint (by omega), read64_write64_self]

/-- The process `p` runs the program `ip`. -/
structure Running (m : Bytes) (p : MProc) (ip : Program) (strs : List (List Byte)) (argc sp : Nat) : Prop where
  started : Started m p.root p.sz ip strs argc sp
  a1 : read64 m (p.trapframe + 120) = BitVec.ofNat 64 sp
  epc : read64 m (p.trapframe + 24) = BitVec.ofNat 64 ip.entry
  sp : read64 m (p.trapframe + 48) = BitVec.ofNat 64 sp

/-- A program does not change with pages that are not the process's. -/
theorem Running.frame {strs : List (List Byte)} {argc sp : Nat} {S : Multiset Nat} (h : Running m p ip strs argc sp)
    (hok : ProcOk L m p) (hf : Frame S m m') (hS : ∀ q ∈ procPages m p, q ∉ S) : Running m' p ip strs argc sp := by
  have hspace : ∀ q ∈ spacePages m p, q ∉ S := fun q hq => hS q (mem_cons_of_mem hq)
  have hkeep : Keeps p.root (Finset.range (npages p.sz)) ∅ m m' := .of_outside hf
    (fun q hq => hspace q (mem_add.mpr (.inl hq))) fun q hq => hspace q (mem_add.mpr (.inr hq))
  have hreg : ∀ i, i + 8 ≤ 4096 → read64 m' (p.trapframe + i) = read64 m (p.trapframe + i) := fun i hi =>
    hf.read64 (hS _ (mem_cons_self _ _)) (by rw [hok.trapframe]; omega) (by rw [hok.trapframe]; omega)
  exact ⟨h.started.of_keeps (fun v hv => hok.space.lt v (Finset.mem_range.mpr hv)) hkeep,
    (hreg 120 (by decide)).trans h.a1, (hreg 24 (by decide)).trans h.epc, (hreg 48 (by decide)).trans h.sp⟩

/-- `exec` leaves the process with one address space, and what the other owned
is free. -/
theorem exec_ok (ip : Option Program) (argv : List Nat) (h : ProcOk L k.mem p) (hfree : k.Free l)
    (hT : l + procPages k.mem p ≤ L.frames.val) :
    ∃ r k' l' pagetable sz, exec L k p ip argv = some (r, k', p.remap pagetable sz) ∧
      Conserved L k l p k' l' (p.remap pagetable sz) ∧
      (r = none → pagetable = p.pagetable ∧ sz = p.sz ∧ (l' : Multiset Nat) = l ∧ Frame l k.mem k'.mem) ∧
      ∀ argc A strs, r = some argc → argv = A.map (4096 * ·) → Strings k.mem A strs → (∀ g ∈ A, g ∉ l) →
        ∃ prog sp, ip = some prog ∧ Running k'.mem (p.remap pagetable sz) prog strs argc sp := by
  have hfail : ∀ {k' : Kmem} {l' : List Nat}, k'.Free l' → (l' : Multiset Nat) = l → Frame l k.mem k'.mem →
      ∃ r k'' l'' pagetable sz, some ((none : Option Nat), k', p) = some (r, k'', p.remap pagetable sz) ∧
        Conserved L k l p k'' l'' (p.remap pagetable sz) ∧
        (r = none → pagetable = p.pagetable ∧ sz = p.sz ∧ (l'' : Multiset Nat) = l ∧ Frame l k.mem k''.mem) ∧
        ∀ argc A strs, r = some argc → argv = A.map (4096 * ·) → Strings k.mem A strs → (∀ g ∈ A, g ∉ l) →
          ∃ prog sp, ip = some prog ∧ Running k''.mem (p.remap pagetable sz) prog strs argc sp := fun {k' l'} hfree' hl' hf' =>
    ⟨none, k', l', p.pagetable, p.sz, rfl, Conserved.of_frame h hT hfree' hl' hf', fun _ => ⟨rfl, rfl, hl', hf'⟩, by simp⟩
  rcases ip with _ | ip
  · exact hfail hfree rfl Frame.rfl'
  simp only [exec]
  split
  · exact hfail hfree rfl Frame.rfl'
  split
  · exact hfail hfree rfl Frame.rfl'
  have hl : (l : Multiset Nat) ≤ L.frames.val := (Multiset.le_add_right _ _).trans hT
  have hlT : (l : Multiset Nat) ≤ l + procPages k.mem p := Multiset.le_add_right _ _
  obtain ⟨-, hpn, hdis⟩ := nodup_add.mp (nodup_of_le hT L.frames.nodup)
  -- the process is not touched while the image is built
  have hold : ∀ q ∈ procPages k.mem p, q ∉ (l : Multiset Nat) := fun q hq hql =>
    disjoint_left.mp hdis hql hq
  have htf : p.tfPage < 2 ^ 44 := by
    have := Layout.lt_of_mem (mem_of_le hT (mem_add.mpr (.inr (mem_cons_self _ _))))
    omega
  obtain ⟨r, k1, l1, hk1, hf1, hcase⟩ := procPagetable_holds (P := ForUser) hfree hl htf
  rw [← h.trapframe] at hk1
  simp only [hk1, bind_eq_bind, bind_some]
  rcases hcase with ⟨rfl, hfree1, hl1, -⟩ | ⟨n, hn, rfl, h1, -⟩
  · exact hfail hfree1 hl1 hf1
  obtain ⟨k2, l2, sz, out, hk2, hf2, h2, hstart⟩ := buildImage_holds ip argv h1 hl
    fun w hw => procFixed_of_lt hw
  simp only [hk2, bind_some]
  obtain ⟨hok2, hpages2⟩ := h.frame (hf1.trans hf2) hold
  cases out with
  | none =>
    obtain ⟨k', l', hk', hfree', hl', hf'⟩ := procFreepagetable_free h2 hl
    simp only [hk', bind_some]
    exact hfail hfree' hl' (hf1.trans (hf2.trans hf'))
  | some out =>
    obtain ⟨argc, sp⟩ := out
    -- the registers of the new program
    let m3 := setTrapframe k2.mem p.trapframe sp ip.entry
    have hf3 : Frame {p.tfPage} k2.mem m3 := by
      have := setTrapframe_frame k2.mem p.tfPage sp ip.entry
      rwa [← h.trapframe] at this
    have htfl : p.tfPage ∉ (l : Multiset Nat) := hold _ (mem_cons_self _ _)
    have htfs : p.tfPage ∉ spacePages k.mem p := (nodup_cons.mp hpn).1
    have htfT : ∀ q ∈ ({p.tfPage} : Multiset Nat), q ∉ (l : Multiset Nat) := fun q hq => by
      rwa [mem_singleton.mp hq]
    have h3 : Holds { k2 with mem := m3 } l2 n (fun _ => True) (Finset.range (npages sz)) (procFixed L p.tfPage) l :=
      h2.frame_outside hf3 htfT
    have hspace2 : spacePages k2.mem p = spacePages k.mem p := (cons_inj_right _).mp hpages2
    obtain ⟨hs3, htab3, huser3⟩ := hok2.space.frame hf3 fun q hq hqt => by
      rw [mem_singleton.mp hqt] at hq
      exact htfs (hspace2 ▸ mem_add.mpr (.inl hq))
    have hspace3 : spacePages m3 p = spacePages k.mem p := by
      rw [← hspace2, spacePages, spacePages, htab3, huser3]
    have hok3 : ProcOk L m3 p := ⟨h.trapframe, h.pagetable, hs3⟩
    -- the old space is freed, with the new one beside it
    have htot : (l2 + spacePages k.mem p) + (tables m3 n + userPages m3 n (Finset.range (npages sz))) =
        l + spacePages k.mem p := by
      rw [add_right_comm, ← h3.total]
    have hT3 : (l2 + spacePages k.mem p) + (tables m3 n + userPages m3 n (Finset.range (npages sz))) ≤
        L.frames.val := by
      rw [htot]
      exact (add_le_add_right (le_cons_self _ _) _).trans hT
    have hhold := hok3.holds (k := { k2 with mem := m3 }) h3.free
    rw [hspace3] at hhold
    obtain ⟨k', l', hk', hfree', hl', hf'⟩ := procFreepagetable_free hhold ((Multiset.le_add_right _ _).trans hT3)
    have hdis3 := (nodup_add.mp (nodup_of_le hT3 L.frames.nodup)).2.2
    have hnew : ∀ q ∈ tables m3 n + userPages m3 n (Finset.range (npages sz)), q ∉ l2 + spacePages k.mem p :=
      fun q hq hqt => disjoint_left.mp hdis3 hqt hq
    obtain ⟨hs', htab', huser'⟩ := h3.space.frame hf' fun q hq => hnew q (mem_add.mpr (.inl hq))
    rw [← h.pagetable] at hk'
    simp only [m3] at hk'
    simp only [hk', bind_some]
    have hroot : (p.remap (4096 * n) sz).root = n := Nat.mul_div_cancel_left n (by decide)
    refine ⟨some argc, k', l', 4096 * n, sz, rfl, ⟨hfree', ⟨h.trapframe, ?_, ?_⟩, ?_, ?_⟩, by simp, ?_⟩
    · rw [hroot]
      rfl
    · rw [hroot]
      exact hs'
    · refine ((hf1.trans hf2).mono hlT).trans ((hf3.mono ?_).trans (hf'.mono ?_))
      · exact singleton_le.mpr (mem_add.mpr (.inr (mem_cons_self _ _)))
      · refine (Multiset.le_add_right _ _).trans (htot.le.trans ?_)
        exact add_le_add_right (le_cons_self _ _) _
    · rw [procPages, spacePages, hroot, add_cons, procPages, add_cons, ← htot, ← hl']
      show p.tfPage ::ₘ (_ + (tables k'.mem n + userPages k'.mem n (Finset.range (npages sz)))) = _
      rw [htab', huser']
    · rintro _ A strs ⟨⟩ hargv hstr hA
      have hA' : ∀ g ∈ A, g ∉ (l : Multiset Nat) := fun g hg => hA g hg
      have hstarted := hstart argc sp A strs rfl hargv (hstr.frame hf1 hA') hA'
      have hin : ∀ q ∈ tables k2.mem n + userPages k2.mem n (Finset.range (npages sz)), q ∉ ({p.tfPage} : Multiset Nat) :=
        fun q hq hqt => htfT q hqt (h2.total ▸ mem_add.mpr (.inr hq))
      have hkeep3 : Keeps n (Finset.range (npages sz)) ∅ k2.mem m3 := .of_outside hf3
        (fun q hq => hin q (mem_add.mpr (.inl hq))) fun q hq => hin q (mem_add.mpr (.inr hq))
      have hkeep' : Keeps n (Finset.range (npages sz)) ∅ m3 k'.mem := .of_outside hf'
        (fun q hq => hnew q (mem_add.mpr (.inl hq))) fun q hq => hnew q (mem_add.mpr (.inr hq))
      have hlt : ∀ v < npages sz, v < 2 ^ 26 := fun v hv => h2.space.lt v (Finset.mem_range.mpr hv)
      -- the trapframe is not freed
      have htf' : p.tfPage ∉ l2 + spacePages k.mem p := fun hc => by
        rcases mem_add.mp hc with hc | hc
        · exact htfl (h2.total ▸ mem_add.mpr (.inl hc))
        · exact htfs hc
      have hreg : ∀ i, i + 8 ≤ 4096 → read64 k'.mem (p.trapframe + i) = read64 m3 (p.trapframe + i) := fun i hi =>
        hf'.read64 htf' (by rw [h.trapframe]; omega) (by rw [h.trapframe]; omega)
      obtain ⟨ha1, hepc, hsp⟩ := setTrapframe_regs k2.mem p.trapframe sp ip.entry
      refine ⟨ip, sp, rfl, ?_, (hreg 120 (by decide)).trans ha1, (hreg 24 (by decide)).trans hepc,
        (hreg 48 (by decide)).trans hsp⟩
      rw [hroot]
      exact (hstarted.of_keeps hlt hkeep3).of_keeps hlt hkeep'

/-! ## The arguments -/

/-- The page `g` holds the string that `copyinstr` has copied. -/
theorem IsStr.of_copyinstr {g pagetable va : Nat} (h : (copyinstr k pagetable va PGSIZE).1 = true) :
    ∃ s, IsStr (UserMem.move m (4096 * g) (ofList (copyinstr k pagetable va PGSIZE).2) 0
      (copyinstr k pagetable va PGSIZE).2.length) (4096 * g) s := by
  have hlen := length_copyinstr (k := k) pagetable va PGSIZE
  obtain ⟨ok, s, hs, hyes, -⟩ := copyinstrLoop_ends (k := k) pagetable PGSIZE va PGSIZE
  rw [copyinstr, hs] at h hlen ⊢
  obtain ⟨t, rfl, ht⟩ := hyes h
  simp only [List.length_append, List.length_singleton] at hlen ⊢
  refine ⟨t, fun i hi => ?_, ht, by simp only [PGSIZE] at hlen; omega⟩
  have hi' : i < (t ++ [(0 : Byte)]).length := by
    rw [List.length_append, List.length_singleton]
    omega
  rw [UserMem.move, if_pos (by omega), ofList, Nat.zero_add, Nat.add_sub_cancel_left, List.getD_eq_getElem?_getD,
    List.getElem?_eq_getElem hi', getD_some]

/-- The arguments are fetched to pages that were free. -/
theorem fetchArgs_free {c : Nat} (uargv : Nat) (A : List Nat) (hfree : k.Free l) (hT : (l : Multiset Nat) ≤ L.frames.val) :
    ∃ ok k' l' B, fetchArgs p uargv c k (A.map (4096 * ·)) = (ok, k', (A ++ B).map (4096 * ·)) ∧ k'.Free l' ∧
      (l' : Multiset Nat) + B = l ∧ Frame l k.mem k'.mem ∧
      (ok = true → B.length < c ∧ ∀ strs, Strings k.mem A strs → (∀ g ∈ A, g ∉ l) →
        ∃ strs', Strings k'.mem (A ++ B) strs') := by
  induction c generalizing k l A with
  | zero => exact ⟨false, k, l, [], by rw [List.append_nil]; rfl, hfree, add_zero _, Frame.rfl', nofun⟩
  | succ c ih =>
    have hstop : ∀ ok : Bool, ∃ ok' k' l' B, (ok, k, A.map (4096 * ·)) = (ok', k', (A ++ B).map (4096 * ·)) ∧ k'.Free l' ∧
        (l' : Multiset Nat) + (B : List Nat) = l ∧ Frame l k.mem k'.mem ∧
        (ok' = true → B.length < c + 1 ∧ ∀ strs, Strings k.mem A strs → (∀ g ∈ A, g ∉ l) →
          ∃ strs', Strings k'.mem (A ++ B) strs') := fun ok =>
      ⟨ok, k, l, [], by rw [List.append_nil], hfree, add_zero _, Frame.rfl',
        fun _ => ⟨Nat.zero_lt_succ c, fun strs hstr _ => ⟨strs, by rwa [List.append_nil]⟩⟩⟩
    simp only [fetchArgs]
    split
    · exact hstop false
    split
    · exact hstop true
    cases l with
    | nil =>
      rw [kalloc_nil hfree]
      exact hstop false
    | cons g l =>
      have hg : g ∉ l := (List.nodup_cons.mp (coe_nodup.mp (nodup_of_le hT L.frames.nodup))).1
      obtain ⟨k1, hk1, hfree1, hf1⟩ := kalloc_cons hfree hg
      rename_i uarg _ _
      have hlen := length_copyinstr (k := k1) p.pagetable uarg 4096
      have hf2 : Frame {g} k1.mem (UserMem.move k1.mem (4096 * g) (ofList (copyinstr k1 p.pagetable uarg 4096).2) 0
          (copyinstr k1 p.pagetable uarg 4096).2.length) := Frame.move (le_refl _) (by omega)
      have hfree2 := hfree1.frame hf2 fun q hq hqg => hg (mem_singleton.mp hqg ▸ hq)
      have hfg := hf1.trans hf2
      have hf : Frame (g :: l : List Nat) k.mem _ :=
        hfg.mono (singleton_le.mpr (mem_coe.mpr List.mem_cons_self))
      rw [hk1]
      simp only
      have hmap : A.map (4096 * ·) ++ [4096 * g] = (A ++ [g]).map (4096 * ·) := by
        rw [List.map_append, List.map_singleton]
      rw [hmap]
      split
      · rename_i hok
        obtain ⟨ok, k', l', B, hk', hfree', hl', hf', hstrs⟩ := ih (A ++ [g]) hfree2 ((le_cons_self _ g).trans hT)
        rw [List.append_assoc, List.singleton_append] at hk' hstrs
        refine ⟨ok, k', l', g :: B, hk', hfree', ?_, hf.trans (hf'.mono (le_cons_self _ g)), fun hok' => ?_⟩
        · rw [← cons_coe, add_cons, hl', cons_coe]
        · obtain ⟨hcount, hstrs⟩ := hstrs hok'
          refine ⟨Nat.succ_lt_succ hcount, fun strs hstr hA => ?_⟩
          obtain ⟨s, hs⟩ := IsStr.of_copyinstr (m := k1.mem) (g := g) hok
          have hAg : ∀ a ∈ A, a ∉ ({g} : Multiset Nat) := fun a ha hag =>
            hA a ha (mem_singleton.mp hag ▸ List.mem_cons_self)
          refine hstrs (strs ++ [s]) (List.rel_append (hstr.frame hfg hAg) (.cons hs .nil)) fun a ha hal => ?_
          rcases List.mem_append.mp ha with ha | ha
          · exact hA a ha (List.mem_cons_of_mem g hal)
          · exact hg (List.mem_singleton.mp ha ▸ hal)
      · refine ⟨false, _, l, [g], rfl, hfree2, ?_, hf, nofun⟩
        rw [← cons_coe, add_cons, coe_nil, add_zero, cons_coe]

theorem freeArgs_free (A : List Nat) (hfree : k.Free l) (hT : (A : Multiset Nat) + l ≤ L.frames.val) :
    ∃ k' l', freeArgs L k (A.map (4096 * ·)) = some k' ∧ k'.Free l' ∧ (l' : Multiset Nat) = A + l ∧
      Frame A k.mem k'.mem := by
  induction A generalizing k l with
  | nil => exact ⟨k, l, rfl, hfree, (zero_add _).symm, Frame.rfl'⟩
  | cons g A ih =>
    rw [← cons_coe, cons_add] at hT
    obtain ⟨k1, hk1, hfree1, hf1⟩ := kfree_ok hfree (((cons_le_cons_iff g).mpr
      (Multiset.le_add_left _ _)).trans hT)
    obtain ⟨k', l', hk', hfree', hl', hf'⟩ := ih hfree1 (by rw [← cons_coe, add_cons]; exact hT)
    refine ⟨k', l', ?_, hfree', ?_, ?_⟩
    · rw [freeArgs, List.map_cons, List.foldlM_cons, hk1]
      exact hk'
    · rw [hl', ← cons_coe, ← cons_coe, add_cons, cons_add]
    · exact (hf1.mono (singleton_le.mpr (mem_coe.mpr List.mem_cons_self))).trans
        (hf'.mono (le_cons_self _ g))

/-- `sys_exec` frees the pages of its arguments, and is `exec` besides. -/
theorem sysExec_ok (namei : List Byte → Option Program) (path uargv : Nat) (h : ProcOk L k.mem p) (hfree : k.Free l)
    (hT : l + procPages k.mem p ≤ L.frames.val) :
    ∃ r k' l' pagetable sz, sysExec L namei k p path uargv = some (r, k', p.remap pagetable sz) ∧
      Conserved L k l p k' l' (p.remap pagetable sz) ∧
      (r = none → pagetable = p.pagetable ∧ sz = p.sz ∧ (l' : Multiset Nat) = l ∧ Frame l k.mem k'.mem) ∧
      ∀ argc, r = some argc → ∃ prog strs sp, namei (copyinstr k p.pagetable path MAXPATH).2 = some prog ∧
        strs.length < MAXARG ∧ Running k'.mem (p.remap pagetable sz) prog strs argc sp := by
  have hl : (l : Multiset Nat) ≤ L.frames.val := (Multiset.le_add_right _ _).trans hT
  simp only [sysExec]
  split
  swap
  · exact ⟨none, k, l, p.pagetable, p.sz, rfl, Conserved.of_frame h hT hfree rfl Frame.rfl',
      fun _ => ⟨rfl, rfl, rfl, Frame.rfl'⟩, nofun⟩
  obtain ⟨ok, k1, l1, B, hk1, hfree1, hl1, hf1, hargs⟩ := fetchArgs_free (p := p) (c := MAXARG) uargv [] hfree hl
  rw [List.map_nil, List.nil_append] at hk1
  rw [hk1]
  simp only
  have hB : (B : Multiset Nat) ≤ l := hl1 ▸ Multiset.le_add_left _ _
  have hl1' : (l1 : Multiset Nat) ≤ l := hl1 ▸ Multiset.le_add_right _ _
  cases ok with
  | false =>
    obtain ⟨k', l', hk', hfree', hl', hf'⟩ := freeArgs_free B hfree1 (by rw [add_comm, hl1]; exact hl)
    simp only [hk', Bool.false_eq_true, if_false, bind_eq_bind, bind_some]
    have hsame : (l' : Multiset Nat) = l := by rw [hl', add_comm, hl1]
    have hf := hf1.trans (hf'.mono hB)
    exact ⟨none, k', l', p.pagetable, p.sz, rfl, Conserved.of_frame h hT hfree' hsame hf, fun _ => ⟨rfl, rfl, hsame, hf⟩, nofun⟩
  | true =>
    have hdis := (nodup_add.mp (nodup_of_le hT L.frames.nodup)).2.2
    obtain ⟨hok1, hpages1⟩ := h.frame hf1 fun q hq hql => disjoint_left.mp hdis hql hq
    -- the pages of the arguments are neither free nor the process's
    have hsum : (l1 + procPages k1.mem p) + (B : Multiset Nat) = l + procPages k.mem p := by
      rw [hpages1, add_right_comm, hl1]
    have hT1 : (l1 + procPages k1.mem p) + (B : Multiset Nat) ≤ L.frames.val := hsum.trans_le hT
    obtain ⟨r, k2, l2, pagetable, sz, hk2, hc, hfail, hrun⟩ := exec_ok
      (namei (copyinstr k p.pagetable path MAXPATH).2) (B.map (4096 * ·)) hok1 hfree1 ((Multiset.le_add_right _ _).trans hT1)
    have hsum2 : (B + l2 : Multiset Nat) + procPages k2.mem (p.remap pagetable sz) = l + procPages k.mem p := by
      rw [← hsum, ← hc.total, add_comm (B : Multiset Nat), add_right_comm]
    have hT2 := hsum2.trans_le hT
    obtain ⟨k', l', hk', hfree', hl', hf'⟩ := freeArgs_free B hc.free ((Multiset.le_add_right _ _).trans hT2)
    have hdis2 := (nodup_add.mp (nodup_of_le hT2 L.frames.nodup)).2.2
    have hown : ∀ q ∈ procPages k2.mem (p.remap pagetable sz), q ∉ (B : Multiset Nat) := fun q hq hqB =>
      disjoint_left.mp hdis2 (mem_add.mpr (.inl hqB)) hq
    obtain ⟨hok', hpages'⟩ := hc.ok.frame hf' hown
    simp only [hk2, hk', if_true, bind_eq_bind, bind_some]
    refine ⟨r, k', l', pagetable, sz, rfl, ⟨hfree', hok', ?_, ?_⟩, fun hr => ?_, fun argc hr => ?_⟩
    · refine (hf1.mono (Multiset.le_add_right _ _)).trans ((hc.frame.mono ?_).trans (hf'.mono ?_))
      · rw [← hsum]
        exact Multiset.le_add_right _ _
      · rw [← hsum]
        exact Multiset.le_add_left _ _
    · rw [hpages', hl', hsum2]
    · obtain ⟨hpt, hsz, hl2, hf2⟩ := hfail hr
      refine ⟨hpt, hsz, ?_, hf1.trans ((hf2.mono hl1').trans (hf'.mono hB))⟩
      rw [hl', hl2, add_comm, hl1]
    · obtain ⟨hcount, hstrs⟩ := hargs rfl
      obtain ⟨strs, hstr⟩ := hstrs [] .nil nofun
      rw [List.nil_append] at hstr
      have hBl : ∀ g ∈ B, g ∉ l1 := fun g hg hgl => by
        have hnd := nodup_of_le hl L.frames.nodup
        rw [← hl1] at hnd
        exact disjoint_left.mp (nodup_add.mp hnd).2.2 (mem_coe.mpr hgl) (mem_coe.mpr hg)
      obtain ⟨prog, sp, hprog, hr⟩ := hrun argc B strs hr rfl hstr hBl
      exact ⟨prog, strs, sp, hprog, by rwa [← List.Forall₂.length_eq hstr], hr.frame hc.ok hf' hown⟩

end Xv6.Vm
