import Xv6.User.FreeList

/-!
# Runs of a program on its heap

`malloc` takes a block that is large enough from the free list, or its end
(`take_spec`). If there is none, its loop comes back to `freep`, and `morecore`
adds one (`morecore_spec`), which the loop then finds: it ends in any case
(`Inv.malloc`). So in every run the blocks of the program and the free blocks
tile the heap (`heap_tiled`).
-/

namespace Xv6.User

open Framework Function List Option Heap

variable {h h' : Heap} {T T1 T2 : List Tile} {t : Tile} {n nunits y fuel f base start : Nat} {x : Nat × Nat} {s : State}

/-- The blocks in use are large enough. -/
def Fits (T : List Tile) : Prop := ∀ t ∈ T, ∀ n, t.use = some n → Heap.units n ≤ t.size

/-! ## A block is taken -/

/-- A node of the free list and the block after it. -/
theorem exists_tile (g : Good h T) (r : Ready h T) (hy : y ∈ h.base :: frees T) (hn : 0 < nunits)
    (hsz : nunits ≤ h.size (h.ptr y)) : ∃ T1 t T2, T = T1 ++ t :: T2 ∧ t.use = none ∧ t.addr = h.ptr y ∧
      y = (frees T1).getLastD h.base ∧ nunits ≤ t.size := by
  have hx : h.ptr y ∈ frees T ++ [h.base] := by
    rw [← r.chain.map_next]
    exact mem_map_of_mem hy
  rcases mem_append.mp hx with hx | hx
  · obtain ⟨t, ht, hu, haddr⟩ := mem_frees.mp hx
    obtain ⟨T1, T2, rfl⟩ := append_of_mem ht
    have hc := r.chain
    have hnd := g.nodup
    rw [frees_append, frees_cons_free hu] at hc hnd hy
    refine ⟨T1, t, T2, rfl, hu, haddr, ?_, ?_⟩
    · refine hc.eq_last ?_ hy ?_
      · exact (perm_append_singleton ..).nodup_iff.mpr hnd
      · rw [hc.left.next_last, ← haddr]
        rfl
    · rw [← haddr, g.size t ht] at hsz
      exact hsz
  · rw [mem_singleton.mp hx, r.zero] at hsz
    omega

theorem Good.freep (g : Good h T) (f : Option Nat) : Good { h with freep := f } T :=
  ⟨g.base, g.small, g.tiles, g.pos, g.size, g.apart⟩

/-- `malloc` takes the block after `prevp`, or its end. -/
theorem take_spec (g : Good h T) (r : Ready h T) (hy : y ∈ h.base :: frees T) (hn : 0 < nunits)
    (hsz : nunits ≤ h.size (h.ptr y)) : ∃ T', Good (h.take y (h.ptr y) nunits).1 T' ∧
      Ready (h.take y (h.ptr y) nunits).1 T' ∧ Ends h (h.take y (h.ptr y) nunits).1 ∧
      (lives T').Perm (((h.take y (h.ptr y) nunits).2 - 1, n) :: lives T) ∧
      ∀ s ∈ T', s.use = none ∨ s ∈ T ∨ s.use = some n ∧ s.size = nunits := by
  obtain ⟨T1, t, T2, rfl, hu, haddr, hlast, hle⟩ := exists_tile g r hy hn hsz
  have hc := r.chain
  rw [frees_append, frees_cons_free hu] at hc hy
  have hself := g.self
  have hts : h.size t.addr = t.size := g.size t (mem_append_right _ (mem_cons_self ..))
  have hnd := g.nodup
  rw [frees_append, frees_cons_free hu] at hnd
  have hlive : ∀ m, m.use = some n → ∀ a, m.addr = a → (lives (T1 ++ m :: T2)).Perm ((a, n) :: lives (T1 ++ t :: T2)) := by
    rintro m hm a rfl
    rw [lives_append, lives_append, lives_cons_live hm, lives_cons_free hu]
    exact perm_middle
  rw [← haddr]
  by_cases hex : h.size t.addr = nunits
  · -- the whole block
    rw [Heap.take, if_pos hex]
    have hf : frees (T1 ++ ⟨t.addr, t.size, some n⟩ :: T2) = frees T1 ++ frees T2 := by
      rw [frees_append, frees_cons_live rfl]
    refine ⟨T1 ++ ⟨t.addr, t.size, some n⟩ :: T2, Good.freep ?_ _, ⟨?_, ?_, y, ?_, rfl⟩, ⟨rfl, rfl, rfl⟩,
      hlive _ rfl _ rfl, fun s hs => ?_⟩
    · refine g.exchange ?_ (fun x _ => ?_) rfl (fun x hx => .inl hx) g.split.2 hself.2.2 ?_ (fun hu => absurd hu nofun)
        fun hu => absurd hu nofun
      · exact ⟨rfl, rfl, rfl⟩
      · rw [size_setPtr]
      · rw [size_setPtr, hts]
    · rw [hf]
      change Linked (h.setPtr y _).ptr _ _ _
      rw [ptr_setPtr, hlast]
      refine hc.left.joinNext (linked_append.mp hc).2 (hnd.sublist ?_)
      exact (sublist_cons_self ..).append_left _
    · change (h.setPtr y _).size h.base = 0
      rw [size_setPtr, r.zero]
    · rw [hf, ← cons_append, hlast]
      exact mem_append_left _ (getLastD_mem ..)
    · rcases mem_append.mp hs with hs | hs
      · exact .inr (.inl (mem_append_left _ hs))
      · rcases mem_cons.mp hs with rfl | hs
        · exact .inr (.inr ⟨rfl, hts.symm.trans hex⟩)
        · exact .inr (.inl (mem_append_right _ (mem_cons_of_mem _ hs)))
  · -- the end of the block
    rw [Heap.take, if_neg hex]
    simp only [hts] at hex ⊢
    have hf : frees (T1 ++ ⟨t.addr, t.size - nunits, none⟩ :: ⟨t.addr + (t.size - nunits), nunits, some n⟩ :: T2) =
        frees T1 ++ t.addr :: frees T2 := by
      rw [frees_append, frees_cons_free rfl, frees_cons_live rfl]
    have hsize : ∀ x, x ≠ t.addr → x ≠ t.addr + (t.size - nunits) →
        ((h.setSize t.addr (t.size - nunits)).setSize (t.addr + (t.size - nunits)) nunits).size x = h.size x := by
      intro x hx hx'
      rw [size_setSize, size_setSize, update_of_ne hx', update_of_ne hx]
    refine ⟨T1 ++ ⟨t.addr, t.size - nunits, none⟩ :: ⟨t.addr + (t.size - nunits), nunits, some n⟩ :: T2,
      Good.freep ?_ _, ⟨?_, ?_, y, ?_, rfl⟩, ⟨rfl, rfl, rfl⟩, ?_, fun s hs => ?_⟩
    · refine g.exchange ?_ (fun x hx => ?_) rfl (fun x hx => ?_) ⟨rfl, ?_⟩ ?_ ?_ (fun _ x hx hux => ?_)
        fun _ x hx hux => ?_
      · exact ⟨rfl, rfl, rfl⟩
      · rcases hx with hx | hx
        · have := g.before hx
          exact hsize _ (by omega) (by omega)
        · have := g.after hx
          exact hsize _ (by omega) (by omega)
      · rcases mem_cons.mp hx with rfl | hx
        · refine .inr ⟨nofun, hn, ?_⟩
          rw [size_setSize, update_self]
        · exact .inl hx
      · have heq : t.addr + (t.size - nunits) + nunits = t.addr + t.size := by omega
        rw [heq]
        exact g.split.2
      · simp only
        omega
      · simp only
        rw [size_setSize, update_of_ne (by omega), size_setSize, update_self]
      · exact g.apart x (mem_append_left _ hx) t (mem_append_right _ (mem_cons_self ..)) hux hu
      · rcases mem_cons.mp hx with rfl | hx
        · cases hux
        · have := g.after hx
          simp only
          omega
    · rw [hf]
      change Linked ((h.setSize _ _).setSize _ _).ptr _ _ _
      rw [ptr_setSize, ptr_setSize]
      exact hc
    · have := g.base
      exact (hsize h.base (by omega) (by omega)).trans r.zero
    · rw [hf]
      exact hy
    · rw [lives_append, lives_cons_free rfl, ← lives_append]
      exact hlive _ rfl _ rfl
    · rcases mem_append.mp hs with hs | hs
      · exact .inr (.inl (mem_append_left _ hs))
      · rcases mem_cons.mp hs with rfl | hs
        · exact .inl rfl
        · rcases mem_cons.mp hs with rfl | hs
          · exact .inr (.inr ⟨rfl, rfl⟩)
          · exact .inr (.inl (mem_append_right _ (mem_cons_of_mem _ hs)))

/-! ## More memory -/

/-- A block at the end of the heap, before it is freed. -/
theorem Good.grow (g : Good h T) {nu : Nat} (hpos : 0 < nu) (hsmall : h.brk - h.start + nu < 2 ^ 32) :
    Good ({ h with brk := h.brk + nu }.setSize h.brk nu) (T ++ [⟨h.brk, nu, some 0⟩]) := by
  have hlt : ∀ s ∈ T, s.addr < h.brk := by
    intro s hs
    have := g.tiles.bounds hs
    have := g.pos s hs
    omega
  refine ⟨g.base, ?_, ?_, fun s hs => ?_, fun s hs => ?_, fun s hs s' hs' hu hu' => ?_⟩
  · have := g.tiles.le
    change h.brk + nu - h.start < 2 ^ 32
    omega
  · exact tiles_append.mpr ⟨h.brk, g.tiles, rfl, rfl⟩
  · rcases mem_append.mp hs with hs | hs
    · exact g.pos s hs
    · rw [mem_singleton.mp hs]
      exact hpos
  · rw [size_setSize]
    rcases mem_append.mp hs with hs | hs
    · rw [update_of_ne (Nat.ne_of_lt (hlt s hs))]
      exact g.size s hs
    · rw [mem_singleton.mp hs, update_self]
  · have hold : ∀ x ∈ T ++ [⟨h.brk, nu, some 0⟩], x.use = none → x ∈ T := by
      intro x hx hxu
      rcases mem_append.mp hx with hx | hx
      · exact hx
      · rw [mem_singleton.mp hx] at hxu
        cases hxu
    exact g.apart s (hold s hs hu) s' (hold s' hs' hu') hu hu'

/-- `morecore` fails and changes nothing, or the free list has a block that is large
enough after it. -/
theorem morecore_spec (g : Good h T) (r : Ready h T) (sbrk : Bool) (nunits : Nat) :
    h.morecore sbrk nunits = some (h, none) ∨ ∃ h' f T', h.morecore sbrk nunits = some (h', some f) ∧ Good h' T' ∧
      Ready h' T' ∧ h'.freep = some f ∧ h'.base = h.base ∧ h'.start = h.start ∧ T'.length ≤ T.length + 1 ∧
      (∀ s ∈ T', s.use = none ∨ s ∈ T) ∧ (∃ s ∈ T', s.use = none ∧ nunits ≤ s.size) ∧ lives T' = lives T := by
  rw [morecore]
  generalize hnu : (if nunits < 4096 then 4096 else nunits) = nu
  have hpos : 0 < nu ∧ nunits ≤ nu := by
    rw [← hnu]
    split <;> omega
  by_cases hs : sbrk ∧ h.brk - h.start + nu < 2 ^ 32
  · rw [if_pos hs]
    have g' := g.grow hpos.1 hs.2
    have r' : Ready ({ h with brk := h.brk + nu }.setSize h.brk nu) (T ++ [⟨h.brk, nu, some 0⟩]) := by
      obtain ⟨f, hf, hfreep⟩ := r.freep
      have hfr : frees (T ++ [⟨h.brk, nu, some 0⟩]) = frees T := by
        rw [frees_append, frees_cons_live rfl, show frees [] = [] from rfl, append_nil]
      refine ⟨?_, ?_, f, ?_, hfreep⟩
      · rw [hfr, ptr_setSize]
        exact r.chain
      · rw [size_setSize, update_of_ne]
        · exact r.zero
        · have := g.tiles.le
          have := g.base
          exact Nat.ne_of_lt (Nat.lt_of_lt_of_le ‹_› ‹_›)
      · rw [hfr]
        exact hf
    obtain ⟨h', T', hfree, hg, hr, he, hlen, hmem, ⟨x, hx, hu, hsz⟩, hl⟩ := free_spec g' r' rfl
    obtain ⟨f, -, hf⟩ := hr.freep
    refine .inr ⟨h', f, T', ?_, hg, hr, hf, he.base, he.start, hlen, ?_, ⟨x, hx, hu, Nat.le_trans hpos.2 hsz⟩, ?_⟩
    · simp only [] at hfree
      simp [hfree, hf]
    · intro s hs
      exact (hmem s hs).imp_right fun hs => hs.resolve_right not_mem_nil
    · rw [hl]
      exact append_nil _
  · exact .inl (if_neg hs)

/-! ## The loop of `malloc` -/

section Loop

variable (sbrk : Nat → Bool) {nunits f a : Nat} {l : List Nat}

/-- The loop finds a block that is large enough. -/
theorem mallocLoop_found (hl : Linked h.ptr a l f) (hfreep : h.freep = some f) (hf : f ∉ l)
    (hx : ∃ x ∈ l ++ [f], nunits ≤ h.size x) (hn : l.length < fuel) :
    ∃ y ∈ a :: l, nunits ≤ h.size (h.ptr y) ∧ mallocLoop sbrk nunits fuel h a (h.ptr a) =
      some ((h.take y (h.ptr y) nunits).1, some (h.take y (h.ptr y) nunits).2) := by
  induction l generalizing a fuel with
  | nil =>
    obtain ⟨fuel, rfl⟩ := Nat.exists_eq_succ_of_ne_zero (Nat.ne_of_gt hn)
    obtain ⟨x, hx, hsz⟩ := hx
    rw [nil_append, mem_singleton] at hx
    subst hx
    have hptr : h.ptr a = x := hl
    rw [← hptr] at hsz
    exact ⟨a, mem_cons_self .., hsz, by rw [mallocLoop, if_pos hsz]⟩
  | cons b l ih =>
    obtain ⟨fuel, rfl⟩ := Nat.exists_eq_succ_of_ne_zero (Nat.ne_of_gt (Nat.zero_lt_of_lt hn))
    by_cases hsz : nunits ≤ h.size (h.ptr a)
    · exact ⟨a, mem_cons_self .., hsz, by rw [mallocLoop, if_pos hsz]⟩
    · rw [mem_cons, not_or] at hf
      have hne : h.freep ≠ some (h.ptr a) := by
        rw [hfreep, hl.1]
        exact fun he => hf.1 (some.inj he)
      rw [mallocLoop, if_neg hsz, if_neg hne]
      rw [hl.1] at hsz ⊢
      obtain ⟨x, hx, hxsz⟩ := hx
      have hx' : x ∈ l ++ [f] := by
        rcases mem_cons.mp hx with rfl | hx
        · exact absurd hxsz hsz
        · exact hx
      obtain ⟨y, hy, hysz, hloop⟩ := ih hl.2 hf.2 ⟨x, hx', hxsz⟩ (Nat.lt_of_succ_lt_succ hn)
      exact ⟨y, mem_cons_of_mem _ hy, hysz, hloop⟩

/-- The loop finds no such block, and calls `morecore`. -/
theorem mallocLoop_none (hl : Linked h.ptr a l f) (hfreep : h.freep = some f) (hf : f ∉ l)
    (hx : ∀ x ∈ l ++ [f], h.size x < nunits) (fuel : Nat) :
    mallocLoop sbrk nunits (fuel + 1 + l.length) h a (h.ptr a) = match h.morecore (sbrk fuel) nunits with
      | none => none
      | some (h, none) => some (h, none)
      | some (h, some p) => mallocLoop sbrk nunits fuel h p (h.ptr p) := by
  induction l generalizing a with
  | nil =>
    have hptr : h.ptr a = f := hl
    have hsz := hx f (mem_cons_self ..)
    rw [length_nil, Nat.add_zero, mallocLoop, hptr, if_neg (Nat.not_le.mpr hsz)]
    exact if_pos hfreep
  | cons b l ih =>
    rw [mem_cons, not_or] at hf
    have hsz := hx b (mem_cons_self ..)
    have hne : h.freep ≠ some b := by
      rw [hfreep]
      exact fun he => hf.1 (some.inj he)
    rw [length_cons, ← Nat.add_assoc, mallocLoop, hl.1, if_neg (Nat.not_le.mpr hsz), if_neg hne]
    exact ih hl.2 hf.2 fun x hx' => hx x (mem_cons_of_mem _ hx')

end Loop

theorem length_frees_le : (frees T).length ≤ T.length := by
  rw [frees, length_map]
  exact length_filter_le ..

/-- The heap and its blocks after a call of `malloc`. -/
structure Malloc (h : Heap) (T : List Tile) (n : Nat) (h' : Heap) (ret : Option Nat) (T' : List Tile) : Prop where
  good : Good h' T'
  ready : Ready h' T'
  base : h'.base = h.base
  start : h'.start = h.start
  mem : ∀ s ∈ T', s.use = none ∨ s ∈ T ∨ s.use = some n ∧ s.size = units n
  fail : ret = none → lives T' = lives T
  kept : ret = none → h'.brk = h.brk ∧ ∀ a ≠ h.base, h'.mem a = h.mem a
  ok : ∀ ap, ret = some ap → (lives T').Perm ((ap - 1, n) :: lives T)

/-- The loop of `malloc`, from `freep`, if some block is large enough. -/
theorem mallocLoop_fit (sbrk : Nat → Bool) (g : Good h T) (r : Ready h T) (hf : h.freep = some f)
    (hx : ∃ x ∈ h.base :: frees T, units n ≤ h.size x) (hn : T.length < fuel) :
    ∃ h' ap T', mallocLoop sbrk (units n) fuel h f (h.ptr f) = some (h', some ap) ∧
      Malloc h T n h' (some ap) T' := by
  obtain ⟨f', hf', hff⟩ := r.freep
  obtain rfl : f' = f := some.inj (hff.symm.trans hf)
  obtain ⟨l, hl, hperm⟩ := r.chain.rotate hf'
  have hnd := hperm.nodup_iff.mpr g.nodup
  have hlen : l.length = (frees T).length := Nat.succ.inj hperm.length_eq
  obtain ⟨x, hx, hsz⟩ := hx
  have hx' : x ∈ l ++ [f'] := (perm_append_singleton ..).mem_iff.mpr (hperm.mem_iff.mpr hx)
  obtain ⟨y, hy, hysz, hloop⟩ := mallocLoop_found sbrk hl hf (nodup_cons.mp hnd).1 ⟨x, hx', hsz⟩
    (Nat.lt_of_le_of_lt (hlen ▸ length_frees_le) hn)
  obtain ⟨T', hg, hr, he, hlv, hmem⟩ := take_spec (n := n) g r (hperm.mem_iff.mp hy) (Nat.succ_pos _) hysz
  refine ⟨_, _, T', hloop, hg, hr, he.base, he.start, hmem, nofun, nofun, fun ap hap => ?_⟩
  cases hap
  exact hlv

/-- `malloc` ends, and returns a block or null. -/
theorem mallocLoop_spec (sbrk : Nat → Bool) (g : Good h T) (r : Ready h T) (hf : h.freep = some f) :
    ∃ h' ret T', mallocLoop sbrk (units n) (2 * h.fuel) h f (h.ptr f) = some (h', ret) ∧
      Malloc h T n h' ret T' := by
  have hT := g.tiles.length_le g.pos
  have hfuel : h.fuel = h.brk - h.start + 2 := rfl
  by_cases hx : ∃ x ∈ h.base :: frees T, units n ≤ h.size x
  · obtain ⟨h', ap, T', h⟩ := mallocLoop_fit sbrk g r hf hx (show T.length < 2 * h.fuel by omega)
    exact ⟨h', some ap, T', h⟩
  · obtain ⟨f', hf', hff⟩ := r.freep
    obtain rfl : f' = f := some.inj (hff.symm.trans hf)
    obtain ⟨l, hl, hperm⟩ := r.chain.rotate hf'
    have hlen : l.length ≤ T.length := by
      have : l.length = (frees T).length := Nat.succ.inj hperm.length_eq
      exact this ▸ length_frees_le
    have hnone : ∀ x ∈ l ++ [f'], h.size x < units n := by
      intro x hxl
      have hxm := hperm.mem_iff.mp ((perm_append_singleton ..).mem_iff.mp hxl)
      exact Nat.lt_of_not_le fun hsz => hx ⟨x, hxm, hsz⟩
    obtain ⟨k, hk⟩ : ∃ k, 2 * h.fuel = k + 1 + l.length := ⟨2 * h.fuel - l.length - 1, by omega⟩
    rw [hk, mallocLoop_none sbrk hl hf (nodup_cons.mp (hperm.nodup_iff.mpr g.nodup)).1 hnone]
    rcases morecore_spec g r (sbrk k) (units n) with hm | ⟨h', f, T', hm, hg, hr, hfr, hb, hst, hle, hmem, hfit, hlv⟩
    · rw [hm]
      exact ⟨h, none, T, rfl, g, r, rfl, rfl, fun s hs => .inr (.inl hs), fun _ => rfl, fun _ => ⟨rfl, fun _ _ => rfl⟩, nofun⟩
    · rw [hm]
      obtain ⟨x, hx', hu, hsz⟩ := hfit
      have hfit' : ∃ y ∈ h'.base :: frees T', units n ≤ h'.size y :=
        ⟨x.addr, mem_cons_of_mem _ (mem_frees.mpr ⟨x, hx', hu, rfl⟩), by rw [hg.size x hx']; exact hsz⟩
      obtain ⟨h'', ap, T'', hloop, hM⟩ := mallocLoop_fit sbrk hg hr hfr hfit' (show T'.length < k by omega)
      refine ⟨h'', some ap, T'', hloop, hM.good, hM.ready, hM.base.trans hb, hM.start.trans hst, fun s hs => ?_, nofun,
        nofun, fun ap hap => hlv ▸ hM.ok ap hap⟩
      rcases hM.mem s hs with hu | hs' | hn
      · exact .inl hu
      · exact (hmem s hs').imp_right .inl
      · exact .inr (.inr hn)

/-! ## Runs -/

/-- The blocks of the program are those in use, and are large enough. -/
structure Inv (s : State) (T : List Tile) : Prop where
  good : Good s.heap T
  ready : s.heap.freep = none ∧ T = [] ∨ Ready s.heap T
  live : s.live.Perm (lives T)
  fits : Fits T

theorem inv_init (mem : Nat → Header) (hb : base < start) : Inv (State.init mem base start) [] where
  good := ⟨hb, by simp [State.init], rfl, nofun, nofun, nofun⟩
  ready := .inl ⟨rfl, rfl⟩
  live := .refl _
  fits := nofun

theorem mem_lives : x ∈ lives T ↔ ∃ t ∈ T, t.use = some x.2 ∧ t.addr = x.1 := by
  obtain ⟨a, n⟩ := x
  simp only [lives, mem_filterMap, map_eq_some_iff, Prod.mk.injEq]
  constructor
  · rintro ⟨t, ht, n', hu, rfl, rfl⟩
    exact ⟨t, ht, hu, rfl⟩
  · rintro ⟨t, ht, hu, rfl⟩
    exact ⟨t, ht, n, hu, rfl, rfl⟩

namespace Inv

variable {s s' : State}

/-- The start of `malloc`. -/
theorem enter (i : Inv s T) : Good s.heap.enter.1 T ∧ Ready s.heap.enter.1 T ∧
    s.heap.enter.1.freep = some s.heap.enter.2 ∧ s.heap.enter.1.base = s.heap.base ∧
    s.heap.enter.1.start = s.heap.start ∧ s.heap.enter.1.brk = s.heap.brk ∧
    ∀ a ≠ s.heap.base, s.heap.enter.1.mem a = s.heap.mem a := by
  rcases i.ready with ⟨hf, rfl⟩ | r
  · have hb := i.good.base
    rw [enter, hf]
    refine ⟨⟨hb, i.good.small, i.good.tiles, nofun, nofun, nofun⟩, ⟨?_, ?_, s.heap.base, mem_cons_self .., rfl⟩,
      rfl, rfl, rfl, rfl, fun a ha => ?_⟩
    · change ((s.heap.setPtr s.heap.base s.heap.base).setSize s.heap.base 0).ptr s.heap.base = s.heap.base
      rw [ptr_setSize, ptr_setPtr, update_self]
    · change ((s.heap.setPtr s.heap.base s.heap.base).setSize s.heap.base 0).size s.heap.base = 0
      rw [size_setSize, update_self]
    · simp only [setSize, setPtr, update_of_ne ha]
  · obtain ⟨f, -, hf⟩ := r.freep
    rw [Heap.enter, hf]
    exact ⟨i.good, r, hf, rfl, rfl, rfl, fun _ _ => rfl⟩

theorem malloc (i : Inv s T) (sbrk : Nat → Bool) (n : Nat) :
    ∃ h' ret T', s.heap.malloc sbrk n = some (h', ret) ∧ Malloc s.heap T n h' ret T' := by
  obtain ⟨g, r, hf, hb, hst, hbrk, hmem⟩ := i.enter
  obtain ⟨h', ret, T', hm, hM⟩ := mallocLoop_spec (n := n) sbrk g r hf
  refine ⟨h', ret, T', hm, hM.good, hM.ready, hM.base.trans hb, hM.start.trans hst, hM.mem, hM.fail, fun hn => ?_, hM.ok⟩
  obtain ⟨h1, h2⟩ := hM.kept hn
  exact ⟨h1.trans hbrk, fun a ha => (h2 a (hb ▸ ha)).trans (hmem a ha)⟩

/-- A block of the program is freed. -/
theorem free (i : Inv s T) (hx : x ∈ s.live) :
    ∃ h' T', s.heap.free (x.1 + 1) = some h' ∧ Inv ⟨h', s.live.erase x⟩ T' ∧ Ends s.heap h' := by
  obtain ⟨t, ht, hu, haddr⟩ := mem_lives.mp (i.live.mem_iff.mp hx)
  obtain ⟨T1, T2, rfl⟩ := append_of_mem ht
  have r : Ready s.heap (T1 ++ t :: T2) := i.ready.resolve_left fun h => by simp at h
  obtain ⟨h', T', hfree, hg, hr, he, -, hmem, -, hlv⟩ := free_spec i.good r hu
  rw [haddr] at hfree
  refine ⟨h', T', hfree, ⟨hg, .inr hr, ?_, fun y hy n hn => ?_⟩, he⟩
  · have hl := i.live
    rw [lives_append, lives_cons_live hu, haddr] at hl
    have herase := (hl.trans perm_middle).erase x
    rw [erase_cons_head, ← hlv] at herase
    exact herase
  · rcases hmem y hy with hu' | hy' | hy'
    · rw [hu'] at hn
      cases hn
    · exact i.fits y (mem_append_left _ hy') n hn
    · exact i.fits y (mem_append_right _ (mem_cons_of_mem _ hy')) n hn

/-- The program writes to one of its blocks. -/
theorem write (i : Inv s T) {a : Nat} (ha : s.inside a) (x : Header) :
    Inv ⟨{ s.heap with mem := update s.heap.mem a x }, s.live⟩ T := by
  obtain ⟨y, hy, hlt, hgt⟩ := ha
  obtain ⟨t, ht, -, haddr⟩ := mem_lives.mp (i.live.mem_iff.mp hy)
  rw [← haddr, i.good.size t ht] at hgt
  have hne : ∀ u ∈ T, u.addr ≠ a := by
    obtain ⟨T1, T2, rfl⟩ := append_of_mem ht
    intro u hu
    rcases mem_append.mp hu with hu | hu
    · have := i.good.before hu
      omega
    · rcases mem_cons.mp hu with rfl | hu
      · omega
      · have := i.good.after hu
        omega
  have hbase : s.heap.base ≠ a := by
    have := i.good.base
    have := i.good.tiles.bounds ht
    omega
  have hmem : ∀ b, b ≠ a → update s.heap.mem a x b = s.heap.mem b := fun b hb => update_of_ne hb ..
  refine ⟨⟨i.good.base, i.good.small, i.good.tiles, i.good.pos, fun u hu => ?_, i.good.apart⟩, ?_, i.live, i.fits⟩
  · exact (congrArg Header.size (hmem _ (hne u hu))).trans (i.good.size u hu)
  · have hnode : ∀ b ∈ s.heap.base :: frees T, b ≠ a := by
      intro b hb
      rcases mem_cons.mp hb with rfl | hb
      · exact hbase
      · obtain ⟨u, hu, -, rfl⟩ := mem_frees.mp hb
        exact hne u hu
    exact i.ready.imp_right fun r => ⟨r.chain.congr fun b hb => congrArg Header.ptr (hmem b (hnode b hb)),
      (congrArg Header.size (hmem _ hbase)).trans r.zero, r.freep⟩

theorem step (i : Inv s T) {a : Act} (hs : User.step s a = some s') :
    ∃ T', Inv s' T' ∧ s'.heap.base = s.heap.base ∧ s'.heap.start = s.heap.start := by
  cases a with
  | malloc n sbrk =>
    simp only [User.step, ite_none_right_eq_some] at hs
    obtain ⟨h', ret, T', hm, hM⟩ := i.malloc sbrk n
    have hfits : Fits T' := by
      intro t ht k hk
      rcases hM.mem t ht with hu | ht' | ⟨hu, hsz⟩
      · rw [hu] at hk
        cases hk
      · exact i.fits t ht' k hk
      · rw [hu] at hk
        cases hk
        exact Nat.le_of_eq hsz.symm
    rw [hm, map_some, some.injEq] at hs
    obtain ⟨-, rfl⟩ := hs
    cases ret with
    | none => exact ⟨T', ⟨hM.good, .inr hM.ready, hM.fail rfl ▸ i.live, hfits⟩, hM.base, hM.start⟩
    | some ap =>
      exact ⟨T', ⟨hM.good, .inr hM.ready, (i.live.cons _).trans (hM.ok ap rfl).symm, hfits⟩, hM.base, hM.start⟩
  | free ap =>
    rw [User.step] at hs
    split at hs
    · next x hx =>
      obtain rfl : x.1 + 1 = ap := by simpa using List.find?_some hx
      obtain ⟨h', T', hfree, hi, he⟩ := i.free (List.mem_of_find?_eq_some hx)
      rw [hfree, map_some, some.injEq] at hs
      subst hs
      exact ⟨T', hi, he.base, he.start⟩
    · cases hs
  | write a x =>
    obtain ⟨ha, rfl⟩ := ite_some_none_eq_some.mp hs
    exact ⟨T, i.write ha x, rfl, rfl⟩

end Inv

theorem run_inv {mem : Nat → Header} {as : List Act} (hb : base < start)
    (hr : Run step (State.init mem base start) as s) :
    ∃ T, Inv s T ∧ s.heap.base = base ∧ s.heap.start = start := by
  refine hr.invariant (I := fun s => ∃ T, Inv s T ∧ s.heap.base = base ∧ s.heap.start = start)
    ⟨[], inv_init mem hb, rfl, rfl⟩ ?_
  rintro s a s' ⟨T, i, h1, h2⟩ hs
  obtain ⟨T', i', h3, h4⟩ := i.step hs
  exact ⟨T', i', h3.trans h1, h4.trans h2⟩

/-- A block of the program lies in the heap, and has room for the bytes that were
asked for. -/
theorem Inv.inside (i : Inv s T) (hx : x ∈ s.live) :
    s.heap.start ≤ x.1 ∧ x.1 + s.heap.size x.1 ≤ s.heap.brk ∧ x.2 ≤ 16 * (s.heap.size x.1 - 1) := by
  obtain ⟨t, ht, hu, haddr⟩ := mem_lives.mp (i.live.mem_iff.mp hx)
  have hfits := i.fits t ht _ hu
  rw [units] at hfits
  rw [← haddr, i.good.size t ht]
  obtain ⟨h1, h2⟩ := i.good.tiles.bounds ht
  exact ⟨h1, h2, by omega⟩

/-- All blocks are free or in use. -/
theorem perm_addrs (T : List Tile) : (frees T ++ (lives T).map Prod.fst).Perm (T.map Tile.addr) := by
  induction T with
  | nil => exact .refl _
  | cons t T ih =>
    cases hu : t.use with
    | none =>
      rw [frees_cons_free hu, lives_cons_free hu]
      exact ih.cons _
    | some n =>
      rw [frees_cons_live hu, lives_cons_live hu]
      exact perm_middle.trans (ih.cons _)

namespace Good

/-- Two blocks have nothing in common. -/
theorem disjoint (g : Good h T) : (T.map Tile.addr).Pairwise fun a b => a + h.size a ≤ b := by
  refine pairwise_map.mpr (g.tiles.pairwise.imp_of_mem fun {s t} hs _ hst => ?_)
  rw [g.size s hs]
  exact hst

/-- Two free blocks do not lie side by side. -/
theorem gaps (g : Good h T) : (frees T).Pairwise fun a b => a + h.size a < b := by
  refine (g.disjoint.sublist frees_sublist).imp_of_mem fun {a b} ha hb hab => Nat.lt_of_le_of_ne hab ?_
  obtain ⟨s, hs, hsu, rfl⟩ := mem_frees.mp ha
  obtain ⟨t, ht, htu, rfl⟩ := mem_frees.mp hb
  rw [g.size s hs]
  exact g.apart s hs t ht hsu htu

/-- The blocks cover the heap. -/
theorem covered (g : Good h T) (a : Nat) :
    h.start ≤ a ∧ a < h.brk ↔ ∃ b ∈ T.map Tile.addr, b ≤ a ∧ a < b + h.size b := by
  constructor
  · rintro ⟨h1, h2⟩
    obtain ⟨t, ht, h3, h4⟩ := g.tiles.cover h1 h2
    exact ⟨t.addr, mem_map_of_mem ht, h3, by rw [g.size t ht]; exact h4⟩
  · rintro ⟨_, hb, h3, h4⟩
    obtain ⟨t, ht, rfl⟩ := mem_map.mp hb
    rw [g.size t ht] at h4
    have := g.tiles.bounds ht
    omega

end Good

/-- In every run: the free list is circular, with its blocks in increasing order
after `base` and no two of them side by side; the free blocks and those of the
program are disjoint and cover the memory from `sbrk`; a block of the program has
room for the bytes that were asked for; and the loops of `malloc` and `free` end. -/
theorem heap_tiled {s : State} {mem : Nat → Header} {base start : Nat} {as : List Act} (hb : base < start)
    (hr : Run step (State.init mem base start) as s) :
    ∃ L : List Nat, (s.heap.freep = none ∧ L = [] ∧ s.live = [] ∨
        Linked s.heap.ptr base L base ∧ ∃ f ∈ base :: L, s.heap.freep = some f) ∧
      (base :: L).Pairwise (· < ·) ∧ L.Pairwise (fun a b => a + s.heap.size a < b) ∧
      (L ++ s.live.map Prod.fst).Pairwise (fun a b => a + s.heap.size a ≤ b ∨ b + s.heap.size b ≤ a) ∧
      (∀ a, start ≤ a ∧ a < s.heap.brk ↔ ∃ b ∈ L ++ s.live.map Prod.fst, b ≤ a ∧ a < b + s.heap.size b) ∧
      (∀ x ∈ s.live, start ≤ x.1 ∧ x.1 + s.heap.size x.1 ≤ s.heap.brk ∧ x.2 ≤ 16 * (s.heap.size x.1 - 1)) ∧
      (∀ nbytes sbrk, Small nbytes → (s.heap.malloc sbrk nbytes).isSome) ∧
      ∀ x ∈ s.live, (s.heap.free (x.1 + 1)).isSome := by
  obtain ⟨T, i, rfl, rfl⟩ := run_inv hb hr
  have hperm : (frees T ++ s.live.map Prod.fst).Perm (T.map Tile.addr) :=
    ((i.live.map _).append_left _).trans (perm_addrs T)
  refine ⟨frees T, ?_, i.good.sorted, i.good.gaps, ?_, fun a => ?_, fun x hx => ?_, fun n sbrk _ => ?_, fun x hx => ?_⟩
  · rcases i.ready with ⟨hf, rfl⟩ | r
    · exact .inl ⟨hf, rfl, i.live.eq_nil⟩
    · exact .inr ⟨r.chain, r.freep⟩
  · exact (hperm.pairwise_iff Or.symm).mpr (i.good.disjoint.imp .inl)
  · rw [i.good.covered]
    simp only [hperm.mem_iff]
  · exact i.inside hx
  · obtain ⟨h', ret, T', hm, -⟩ := i.malloc sbrk n
    rw [hm]
    rfl
  · obtain ⟨h', T', hf, -⟩ := i.free hx
    rw [hf]
    rfl

/-- Two blocks are taken from the end of the first 4096 units, and one of them is
freed. -/
theorem heap_tiled_two : ∃ s, Run step (State.init (fun _ => ⟨0, 0⟩) 1 10)
    [.malloc 5 fun _ => true, .malloc 40 fun _ => true, .free 4105] s ∧
    s.live = [(4100, 40)] ∧ ∃ L : List Nat, s.heap.brk = 4106 ∧ L.Pairwise (fun a b => a + s.heap.size a < b) := by
  obtain ⟨s, hr, hl, hb⟩ := exists_run step (State.init (fun _ => ⟨0, 0⟩) 1 10)
    [.malloc 5 fun _ => true, .malloc 40 fun _ => true, .free 4105]
    (Q := fun s => s.live = [(4100, 40)] ∧ s.heap.brk = 4106) (by decide +kernel)
  obtain ⟨L, -, -, hgap, -⟩ := heap_tiled (by decide) hr
  exact ⟨s, hr, hl, L, hb, hgap⟩

end Xv6.User
