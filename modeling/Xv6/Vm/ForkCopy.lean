import Xv6.Vm.Grow

/-!
# The memory of a child

`uvmcopy` gives the child a copy of every page of its parent, with the same
flags, in a page that was free; or, whichever allocation fails, it leaves the
child without user memory. The parent keeps its memory either way
(`uvmcopy_isolated`). When `fork` fails, all that it has taken is free again
(`allocproc_uvmcopy`).
-/

namespace Xv6.Vm

open Framework Machine Multiset

variable {L : Layout} {k k' : Kmem} {l l' : List Nat} {m m' m1 : Bytes} {n o sz w v : Nat} {P Po : Pte → Prop}
  {U : Finset Nat} {fixed fo : Nat → Option Nat} {T S E : Multiset Nat} {s : Sys} {i : Slot} {p q : MProc}

/-- The space with root `n` maps the pages below `4096 * v` to the same pages, which
hold the same bytes. -/
def Same (n v : Nat) (m m' : Bytes) : Prop :=
  flatMap m' n = flatMap m n ∧ ∀ a < 4096 * v, vbyte m' n a = vbyte m n a

/-- The virtual page `v` of the space `n` is a copy of that of the space `o`: it has
the same flags and the same bytes, in a page that was in `l`. -/
def CopyOf (o n : Nat) (l : List Nat) (m m' : Bytes) (v : Nat) : Prop :=
  ∃ b b', flatMap m o v = some b ∧ flatMap m' n v = some b' ∧ b'.2 = b.2 ∧ b'.1 ∈ l ∧
    ∀ a, a / 4096 = v → vbyte m' n a = vbyte m o a

/-- The original was the same before, and so was the page free. -/
theorem CopyOf.before (h : CopyOf o n l' m1 m' v) (hs : Same o w m m1) (hv : v < w)
    (hl : ∀ q ∈ l', q ∈ l) : CopyOf o n l m m' v := by
  obtain ⟨b, b', hb, hb', hfl, hmem, hbytes⟩ := h
  refine ⟨b, b', by rw [← hs.1, hb], hb', hfl, hl _ hmem, fun a ha => ?_⟩
  rw [hbytes a ha, hs.2 a (by omega)]

/-- The copy stays the same. -/
theorem CopyOf.after (h : CopyOf o n l m m1 v) (hs : Same n w m1 m') (hv : v < w) :
    CopyOf o n l m m' v := by
  obtain ⟨b, b', hb, hb', hfl, hmem, hbytes⟩ := h
  refine ⟨b, b', hb, by rw [hs.1, hb'], hfl, hmem, fun a ha => ?_⟩
  rw [hs.2 a (by omega), hbytes a ha]

/-- A space does not change with pages that are not its own. -/
theorem Space.same (h : Space m n P (Finset.range v) fixed) (hf : Frame S m m') (ht : ∀ q ∈ tables m n, q ∉ S)
    (hu : ∀ q ∈ userPages m n (Finset.range v), q ∉ S) : Same n v m m' := by
  have hk : Keeps n (Finset.range v) ∅ m m' := .of_outside hf ht hu
  refine ⟨flatMap_congr fun w hw => hk.pte w hw (Finset.notMem_empty w), fun a ha => ?_⟩
  have hmem : a / 4096 ∈ Finset.range v := Finset.mem_range.mpr (by omega)
  have hlt := h.lt _ hmem
  exact hk.vbyte (by simp only [VPAGES]; omega) hmem (Finset.notMem_empty _)

/-- The entry of a page that is mapped. -/
theorem flatMap_leaf (hv : v < VPAGES) (h : IsLeaf (pteAt m n v)) :
    flatMap m n v = some (pte2pa (pteAt m n v) / 4096, pteFlags (pteAt m n v)) := by
  rw [flatMap, if_pos hv, binding, if_pos h.1]

theorem Copied.copyOf (h : Copied o n m m' v) (hv : v < VPAGES) (ho : IsLeaf (pteAt m o v))
    (hn : IsLeaf (pteAt m' n v)) (hl : pte2pa (pteAt m' n v) / 4096 ∈ l) : CopyOf o n l m m' v := by
  refine ⟨_, _, flatMap_leaf hv ho, flatMap_leaf hv hn, h.1, hl, fun a ha => ?_⟩
  rw [vbyte, vbyte, ha]
  exact h.2 _ (by omega)

theorem Holds.nodup (h : Holds k l n P U fixed T) (hT : T ≤ L.frames.val) :
    (tables k.mem n + userPages k.mem n U).Nodup := by
  refine nodup_of_le ?_ L.frames.nodup
  exact (Multiset.le_add_left _ _).trans (h.total.le.trans hT)

/-- `uvmcopy` to a space without user memory, whatever is free. -/
theorem uvmcopy_isolated (hold : Space k.mem o Po (Finset.range (npages sz)) fo)
    (hdis : ∀ q ∈ tables k.mem o + userPages k.mem o (Finset.range (npages sz)), q ∉ T)
    (h : Holds k l n (fun _ => True) ∅ fixed T) (hT : T ≤ L.frames.val) (hfix : ∀ w < 2 ^ 26 - 2, fixed w = none) :
    ∃ ok k' l', uvmcopy L k (4096 * o) (4096 * n) sz = some (ok, k') ∧ Frame T k.mem k'.mem ∧
      Same o (npages sz) k.mem k'.mem ∧
      (ok = true → Holds k' l' n (fun _ => True) (Finset.range (npages sz)) fixed T ∧
        (tables k'.mem n + userPages k'.mem n (Finset.range (npages sz))).Nodup ∧
        ∀ v < npages sz, CopyOf o n l k.mem k'.mem v) ∧
      (ok = false → Holds k' l' n (fun _ => True) ∅ fixed T ∧ ∀ v < 2 ^ 26 - 2, flatMap k'.mem n v = none) := by
  have hdt : ∀ q ∈ tables k.mem o, q ∉ T := fun q hq => hdis q (mem_add.mpr (.inl hq))
  have hdu : ∀ q ∈ userPages k.mem o (Finset.range (npages sz)), q ∉ T := fun q hq =>
    hdis q (mem_add.mpr (.inr hq))
  obtain ⟨ok, k', l', hk', hf, hyes, hno⟩ := uvmcopy_holds hold hdt hdu h hT hfix
  refine ⟨ok, k', l', hk', hf, hold.same hf hdt hdu, fun hok => ?_, fun hok => ⟨hno hok, fun v hv => ?_⟩⟩
  · obtain ⟨h', hcopy⟩ := hyes hok
    refine ⟨h', h'.nodup hT, fun v hv => ?_⟩
    have hmem := Finset.mem_range.mpr hv
    have hlt := hold.lt v hmem
    obtain ⟨hc, hl⟩ := hcopy v hv
    exact hc.copyOf (by simp only [VPAGES]; omega) (hold.user v hmem).1 (h'.space.user v hmem).1 hl
  · have hVP : v < VPAGES := by simp only [VPAGES]; omega
    have hrest := (hno hok).space.rest v hVP (Finset.notMem_empty v)
    rw [hfix v hv] at hrest
    rw [flatMap, if_pos hVP, binding_eq_none.mpr hrest]

/-- `fork` up to the copy of the parent's memory: the child has a copy, or the slot
is unused again and the free pages are those there were. -/
theorem allocproc_uvmcopy (pid ticks : Word) (hp : p.pagetable = 0) (hsz : p.sz = 0) (hfree : k.Free l)
    (hT : (l : Multiset Nat) ≤ L.frames.val) (hq : ProcOk L k.mem q) (hdis : ∀ x ∈ spacePages k.mem q, x ∉ l) :
    ∃ ok k1 np, allocproc L k p pid ticks = some (ok, k1, np) ∧ Same q.root (npages q.sz) k.mem k1.mem ∧
      (ok = false → np.state = .unused ∧ ∃ l', k1.Free l' ∧ (l' : Multiset Nat) = l) ∧
      (ok = true → ∃ ok k2, uvmcopy L k1 q.pagetable np.pagetable q.sz = some (ok, k2) ∧
        Same q.root (npages q.sz) k.mem k2.mem ∧
        (ok = true → ∀ src, Same q.root (npages q.sz) k.mem (copyTrapframe k2.mem np.trapframe src) ∧
          ∀ v < npages q.sz, CopyOf q.root np.root l k.mem (copyTrapframe k2.mem np.trapframe src) v) ∧
        (ok = false → (∀ v < 2 ^ 26 - 2, flatMap k2.mem np.root v = none) ∧
          ∃ k3 np' l', freeproc L k2 np = some (k3, np') ∧ Same q.root (npages q.sz) k.mem k3.mem ∧
            np'.state = .unused ∧ k3.Free l' ∧ (l' : Multiset Nat) = l)) := by
  have hqt : ∀ x ∈ tables k.mem q.root, x ∉ l := fun x hx => hdis x (mem_add.mpr (.inl hx))
  have hqu : ∀ x ∈ userPages k.mem q.root q.vpages, x ∉ l := fun x hx => hdis x (mem_add.mpr (.inr hx))
  have hsame : ∀ {m' : Bytes}, Frame l k.mem m' → Same q.root (npages q.sz) k.mem m' := fun hf =>
    hq.space.same hf hqt hqu
  obtain ⟨ok, k1, np, l1, hk1, hf1, hcase⟩ := allocproc_holds pid ticks hp hfree hT
  refine ⟨ok, k1, np, hk1, hsame hf1, ?_⟩
  rcases hcase with ⟨rfl, hfree1, hl1, rfl, -⟩ | ⟨rfl, tf, n, T, hl, hnp, hh, -⟩
  · exact ⟨fun _ => ⟨rfl, l1, hfree1, hl1⟩, nofun⟩
  refine ⟨nofun, fun _ => ?_⟩
  have hroot : np.root = n := by rw [hnp, MProc.root, Nat.mul_div_cancel_left n (by decide)]
  have hTl : T ≤ l := hl ▸ le_cons_self T tf
  -- the pages of the parent are as they were when `uvmcopy` starts
  obtain ⟨hq1, ht1, hu1⟩ := hq.space.frame hf1 hqt
  have hdis1 : ∀ x ∈ tables k1.mem q.root + userPages k1.mem q.root q.vpages, x ∉ T := fun x hx hxT => by
    rw [ht1, hu1] at hx
    exact hdis x hx (mem_of_le hTl hxT)
  obtain ⟨ok, k2, l2, hk2, hf2, -, hyes, hno⟩ := uvmcopy_isolated hq1 hdis1 hh (hTl.trans hT) fun _ => procFixed_of_lt
  rw [← hq.pagetable, show 4096 * n = np.pagetable by rw [hnp]] at hk2
  refine ⟨ok, k2, hk2, hsame (hf1.trans (hf2.mono hTl)), fun hok src => ?_, fun hok => ?_⟩
  · obtain ⟨h2, hnd, hcopy⟩ := hyes hok
    have htfT : tf ∉ T := by
      have hnodup := nodup_of_le hT L.frames.nodup
      rw [hl] at hnodup
      exact (nodup_cons.mp hnodup).1
    have hin : ∀ x ∈ tables k2.mem n + userPages k2.mem n (Finset.range (npages q.sz)), x ∉ ({tf} : Multiset Nat) :=
      fun x hx hxtf => by
        rw [mem_singleton.mp hxtf] at hx
        exact htfT (h2.total ▸ mem_add.mpr (.inr hx))
    have htrap : np.trapframe = 4096 * tf := by rw [hnp]
    have hf3 : Frame {tf} k2.mem (copyTrapframe k2.mem (4096 * tf) src) := Inv.copyTrapframe_frame k2.mem
    rw [hroot, htrap]
    refine ⟨hsame ((hf1.trans (hf2.mono hTl)).trans (hf3.mono ?_)), fun v hv => ?_⟩
    · rw [hl]
      exact singleton_le.mpr (mem_cons_self tf T)
    have hl1 : ∀ x ∈ l1, x ∈ l := fun x hx => by
      have hxT : x ∈ T := hh.total ▸ mem_add.mpr (.inl (mem_coe.mpr hx))
      exact mem_coe.mp (mem_of_le hTl hxT)
    have hchild : Same n (npages q.sz) k2.mem (copyTrapframe k2.mem (4096 * tf) src) := h2.space.same hf3
      (fun x hx => hin x (mem_add.mpr (.inl hx))) fun x hx => hin x (mem_add.mpr (.inr hx))
    exact ((hcopy v hv).before (hsame hf1) hv hl1).after hchild hv
  · obtain ⟨h2, hnone⟩ := hno hok
    have hsz' : np.sz = 0 := by rw [hnp]; exact hsz
    obtain ⟨hok2, htot⟩ := ProcOk.of_holds (p := np) (by rw [hsz']; exact h2) (by rw [hnp]) (by rw [hnp])
    obtain ⟨k3, l3, hk3, hfree3, hl3, hf3⟩ := freeproc_free hok2 h2.free (by rw [htot, ← hl]; exact hT)
    rw [htot, ← hl] at hl3 hf3
    exact ⟨by rwa [hroot], k3, _, l3, hk3, hsame ((hf1.trans (hf2.mono hTl)).trans hf3), rfl, hfree3, hl3⟩

/-- `uvmcopy` copies every page of the parent to a page that was free, or maps nothing
for the child; the parent is unchanged. A `fork` that fails gives back all it has
taken. -/
theorem fork_copies (L : Layout) :
    (∀ {k l o n sz Po fo fixed T}, Space k.mem o Po (Finset.range (npages sz)) fo →
      (∀ q ∈ tables k.mem o + userPages k.mem o (Finset.range (npages sz)), q ∉ T) →
      Holds k l n (fun _ => True) ∅ fixed T → T ≤ L.frames.val → (∀ w < 2 ^ 26 - 2, fixed w = none) →
      ∃ ok k', uvmcopy L k (4096 * o) (4096 * n) sz = some (ok, k') ∧ Same o (npages sz) k.mem k'.mem ∧
        (ok = true → (tables k'.mem n + userPages k'.mem n (Finset.range (npages sz))).Nodup ∧
          ∀ v < npages sz, CopyOf o n l k.mem k'.mem v) ∧
        (ok = false → ∀ v < 2 ^ 26 - 2, flatMap k'.mem n v = none)) ∧
    ∀ {s l E i}, Inv L s l E → Alive (s.proc i).toProc → ∀ ticks,
      ∃ r s', fork L s i ticks = some (r, s') ∧ Same (s.proc i).root (npages (s.proc i).sz) s.kmem.mem s'.kmem.mem ∧
        (∀ j, (s.proc j).state ≠ .unused → s'.proc j = s.proc j) ∧
        ((r = s.nextpid ∧ ∃ j, (s.proc j).state = .unused ∧ (s'.proc j).state = .runnable ∧
            (s'.proc j).sz = (s.proc i).sz ∧ (spacePages s'.kmem.mem (s'.proc j)).Nodup ∧
            ∀ v < npages (s.proc i).sz, CopyOf (s.proc i).root (s'.proc j).root l s.kmem.mem s'.kmem.mem v) ∨
          (r = -1 ∧ (∀ j, (s.proc j).state = .unused → (s'.proc j).state = .unused) ∧
            ∃ l', s'.kmem.Free l' ∧ (l' : Multiset Nat) = l)) := by
  refine ⟨fun hold hdis h hT hfix => ?_, fun {s l E i} h hi ticks => ?_⟩
  · obtain ⟨ok, k', l', hk', -, hsame, hyes, hno⟩ := uvmcopy_isolated hold hdis h hT hfix
    exact ⟨ok, k', hk', hsame, fun hok => (hyes hok).2, fun hok => (hno hok).2⟩
  obtain ⟨r, s', l', hs', hinv, -⟩ := (h.fork hi : ∃ r s' l', fork L s i ticks = some (r, s') ∧ _)
  refine ⟨r, s', hs', ?_⟩
  rw [fork] at hs'
  split at hs'
  · cases hs'
    exact ⟨⟨rfl, fun _ _ => rfl⟩, fun _ _ => rfl, .inr ⟨rfl, fun _ hj => hj, l, h.free, rfl⟩⟩
  rename_i j hfind
  have hj : (s.proc j).state = .unused := of_decide_eq_true (List.find?_some hfind :)
  have hij : i ≠ j := fun hc => state_ne_unused hi (hc ▸ hj)
  have hu := state_ne_unused hi
  have hother : ∀ {t : Sys} {k : Kmem} {p : MProc}, t.proc = s.proc → ∀ x, (s.proc x).state ≠ .unused →
      (t.setProc k j p).proc x = s.proc x := fun ht x hx => by
    have hxj : x ≠ j := by
      rintro rfl
      exact hx hj
    rw [Sys.setProc_of_ne hxj, ht]
  have hunused : ∀ {t : Sys} {k : Kmem} {p : MProc}, t.proc = s.proc → p.state = .unused → ∀ x, (s.proc x).state = .unused →
      ((t.setProc k j p).proc x).state = .unused := fun ht hp x hx => by
    by_cases hxj : x = j
    · rw [hxj, Sys.setProc_self, hp]
    · rw [Sys.setProc_of_ne hxj, ht, hx]
  obtain ⟨hpt, hsz⟩ := (h.slot j).unused hj
  have hle := h.slot_le j
  have hdis := h.slots_disjoint hij
  rw [slotPages_of_unused hj, add_zero] at hle hdis
  rw [slotPages_of_ne hu] at hdis
  obtain ⟨ok, k1, np, hk1, hsame1, hno, hyes⟩ := allocproc_uvmcopy s.nextpid ticks hpt hsz h.free hle ((h.slot i).ok hu)
    fun x hx => hdis x (mem_cons_of_mem hx)
  simp only [hk1, Option.bind_eq_bind, Option.bind_some] at hs'
  cases ok with
  | false =>
    cases hs'
    obtain ⟨hst, l1, hfree1, hl1⟩ := hno rfl
    exact ⟨hsame1, hother rfl, .inr ⟨rfl, hunused rfl hst, l1, hfree1, hl1⟩⟩
  | true =>
    obtain ⟨ok, k2, hk2, hsame2, hcopy, hfail⟩ := hyes rfl
    simp only [hk2, if_true, Option.bind_some] at hs'
    cases ok with
    | false =>
      obtain ⟨-, k3, np', l3, hk3, hsame3, hst, hfree3, hl3⟩ := hfail rfl
      simp only [hk3, Bool.false_eq_true, if_false, Option.bind_some] at hs'
      cases hs'
      exact ⟨hsame3, hother rfl, .inr ⟨rfl, hunused rfl hst, l3, hfree3, hl3⟩⟩
    | true =>
      obtain ⟨hsame3, hcopies⟩ := hcopy rfl (s.proc i).trapframe
      simp only [if_true, Option.bind_eq_some_iff] at hs'
      obtain ⟨ft, -, hs'⟩ := hs'
      cases hs'
      refine ⟨hsame3, hother rfl, .inl ⟨rfl, j, hj, ?_⟩⟩
      have hnd := nodup_of_le (hinv.space_le (i := j) (by rw [Sys.setProc_self]; exact ProcState.noConfusion))
        L.frames.nodup
      rw [Sys.setProc_self] at hnd ⊢
      exact ⟨rfl, rfl, (nodup_add.mp hnd).2.1, hcopies⟩

/-- `init` forks after boot: its child has a copy of its one page. -/
theorem fork_copies_init : ∃ s₀ r s', boot .usual (fun _ => 0) = some s₀ ∧ fork .usual s₀ initproc 0 = some (r, s') ∧
    (r = s₀.nextpid ∧ (∃ j l, CopyOf (s₀.proc initproc).root (s'.proc j).root l s₀.kmem.mem s'.kmem.mem 0) ∨ r = -1) := by
  obtain ⟨s₀, l, hs0, h, halive⟩ := boot_inv (fun _ => 0) Layout.usual_frames
  obtain ⟨r, s', hs', -, -, hcase⟩ := (fork_copies .usual).2 h halive 0
  refine ⟨s₀, r, s', hs0, hs', hcase.imp ?_ And.left⟩
  rintro ⟨hr, j, -, -, -, -, hcopy⟩
  exact ⟨hr, j, l, hcopy 0 (by rw [boot_sz hs0]; decide)⟩

end Xv6.Vm
