import Xv6.Framework.Tiling
import Xv6.User.Malloc

/-!
# The free list

The heap as a list of blocks that tile the memory from `sbrk`, each free or in
use. The free list leads from `base` through the free blocks, in order, and back
(`Ready`), and no two free blocks lie side by side (`Good`). So the loop of `free`
finds the free block before the one that is freed (`seek_between`), and joins it
with the free blocks beside it, and nothing else (`free_spec`).
-/

namespace Xv6.User

open Framework Function List Heap

/-- A block, with the number of bytes that the program wants if it is in use. -/
structure Tile where
  addr : Nat
  size : Nat
  use : Option Nat

/-- The free blocks. -/
def frees (T : List Tile) : List Nat := (T.filter fun t => t.use.isNone).map Tile.addr

/-- The blocks in use. -/
def lives (T : List Tile) : List (Nat × Nat) := T.filterMap fun t => t.use.map fun n => (t.addr, n)

/-- The heap is tiled by `T`. -/
structure Good (h : Heap) (T : List Tile) : Prop where
  base : h.base < h.start
  small : h.brk - h.start < 2 ^ 32
  tiles : Tiles Tile.addr Tile.size h.start T h.brk
  pos : ∀ t ∈ T, 0 < t.size
  size : ∀ t ∈ T, h.size t.addr = t.size
  apart : ∀ s ∈ T, ∀ t ∈ T, s.use = none → t.use = none → s.addr + s.size ≠ t.addr

/-- The free list is that of `T`. -/
structure Ready (h : Heap) (T : List Tile) : Prop where
  chain : Linked h.ptr h.base (frees T) h.base
  zero : h.size h.base = 0
  freep : ∃ f ∈ h.base :: frees T, h.freep = some f

variable {h h' : Heap} {T T1 T2 : List Tile} {t : Tile} {n p a bp c : Nat}

@[simp]
theorem frees_append : frees (T1 ++ T2) = frees T1 ++ frees T2 := by simp [frees]

@[simp]
theorem lives_append : lives (T1 ++ T2) = lives T1 ++ lives T2 := by simp [lives]

theorem frees_cons_free (ht : t.use = none) : frees (t :: T) = t.addr :: frees T := by simp [frees, ht]

theorem frees_cons_live (ht : t.use = some n) : frees (t :: T) = frees T := by simp [frees, ht]

theorem lives_cons_free (ht : t.use = none) : lives (t :: T) = lives T := by simp [lives, ht]

theorem lives_cons_live (ht : t.use = some n) : lives (t :: T) = (t.addr, n) :: lives T := by
  simp [lives, ht]

theorem mem_frees : a ∈ frees T ↔ ∃ t ∈ T, t.use = none ∧ t.addr = a := by simp [frees, and_assoc]

theorem frees_sublist : (frees T).Sublist (T.map Tile.addr) := filter_sublist.map _

namespace Heap

variable (h : Heap) (a b n : Nat)

@[simp] theorem ptr_setPtr : (h.setPtr a b).ptr = update h.ptr a b := by
  funext x
  by_cases hx : x = a
  · subst hx
    simp [ptr, setPtr]
  · simp [ptr, setPtr, hx]

@[simp] theorem size_setPtr : (h.setPtr a b).size = h.size := by
  funext x
  by_cases hx : x = a
  · subst hx
    simp [size, setPtr]
  · simp [size, setPtr, hx]

@[simp] theorem ptr_setSize : (h.setSize a n).ptr = h.ptr := by
  funext x
  by_cases hx : x = a
  · subst hx
    simp [ptr, setSize]
  · simp [ptr, setSize, hx]

@[simp] theorem size_setSize : (h.setSize a n).size = update h.size a n := by
  funext x
  by_cases hx : x = a
  · subst hx
    simp [size, setSize]
  · simp [size, setSize, hx]

end Heap

/-! ## Blocks before and after a block -/

namespace Good

theorem split (g : Good h (T1 ++ t :: T2)) :
    Tiles Tile.addr Tile.size h.start T1 t.addr ∧ Tiles Tile.addr Tile.size (t.addr + t.size) T2 h.brk := by
  obtain ⟨m, h1, h2, h3⟩ := tiles_append.mp g.tiles
  rw [h2]
  exact ⟨h1, h3⟩

variable {s : Tile}

theorem before (g : Good h (T1 ++ t :: T2)) (hs : s ∈ T1) :
    h.start ≤ s.addr ∧ s.addr + s.size ≤ t.addr ∧ 0 < s.size := by
  obtain ⟨h1, h2⟩ := g.split.1.bounds hs
  exact ⟨h1, h2, g.pos s (mem_append_left _ hs)⟩

theorem after (g : Good h (T1 ++ t :: T2)) (hs : s ∈ T2) :
    t.addr + t.size ≤ s.addr ∧ s.addr + s.size ≤ h.brk ∧ 0 < s.size := by
  obtain ⟨h1, h2⟩ := g.split.2.bounds hs
  exact ⟨h1, h2, g.pos s (mem_append_right _ (mem_cons_of_mem _ hs))⟩

theorem self (g : Good h (T1 ++ t :: T2)) : h.start ≤ t.addr ∧ t.addr + t.size ≤ h.brk ∧ 0 < t.size := by
  have ht : t ∈ T1 ++ t :: T2 := mem_append_right _ (mem_cons_self ..)
  obtain ⟨h1, h2⟩ := g.tiles.bounds ht
  exact ⟨h1, h2, g.pos t ht⟩

/-- The blocks are in order, and after `base`. -/
theorem addrs (g : Good h T) : (h.base :: T.map Tile.addr).Pairwise (· < ·) := by
  refine pairwise_cons.mpr ⟨fun a ha => ?_, pairwise_map.mpr ?_⟩
  · obtain ⟨t, ht, rfl⟩ := mem_map.mp ha
    exact Nat.lt_of_lt_of_le g.base (g.tiles.bounds ht).1
  · refine g.tiles.pairwise.imp_of_mem fun {s t} hs _ hst => ?_
    have := g.pos s hs
    omega

theorem sorted (g : Good h T) : (h.base :: frees T).Pairwise (· < ·) :=
  g.addrs.sublist (.cons_cons _ frees_sublist)

theorem nodup (g : Good h T) : (h.base :: frees T).Nodup := g.sorted.imp Nat.ne_of_lt

theorem length_frees (g : Good h T) : (frees T).length + 1 < h.fuel := by
  have h1 := g.tiles.length_le g.pos
  have h2 : (frees T).length ≤ T.length := by
    rw [frees, length_map]
    exact length_filter_le ..
  rw [fuel]
  omega

end Good

/-! ## The search of `free` -/

theorem between_iff :
    h.between bp p = true ↔ p < bp ∧ bp < h.ptr p ∨ h.ptr p ≤ p ∧ (p < bp ∨ bp < h.ptr p) := by
  simp [between]

/-- A list in order: a node is before its link. -/
theorem Linked.lt_next {next : Nat → Nat} {l : List Nat} (hl : Linked next a l c)
    (hs : (a :: l).Pairwise (· < ·)) {x : Nat} (hx : x ∈ a :: l) (hne : x ≠ l.getLastD a) :
    x < next x ∧ next x ∈ l := by
  induction l generalizing a with
  | nil => exact absurd (mem_singleton.mp hx) hne
  | cons b l ih =>
    obtain ⟨ha, hs⟩ := pairwise_cons.mp hs
    rcases mem_cons.mp hx with rfl | hx
    · rw [hl.1]
      exact ⟨ha b (mem_cons_self ..), mem_cons_self ..⟩
    · rw [getLastD_cons] at hne
      obtain ⟨h1, h2⟩ := ih hl.2 hs hx hne
      exact ⟨h1, mem_cons_of_mem _ h2⟩

/-- The loop of `free` ends at the last free block before the one that is freed,
or at `base`. -/
theorem seek_between {base : Nat} {L1 L2 : List Nat} {f : Nat} (hl : Linked h.ptr base (L1 ++ L2) base)
    (hs : (base :: (L1 ++ L2)).Pairwise (· < ·)) (h1 : ∀ x ∈ base :: L1, x < bp) (h2 : ∀ x ∈ L2, bp < x)
    (hf : f ∈ base :: (L1 ++ L2)) (hn : (L1 ++ L2).length + 1 < n) :
    seek h.ptr (h.between bp) n f = some (L1.getLastD base) := by
  have hleft := hl.left
  have hsl : (base :: L1).Pairwise (· < ·) := hs.sublist (List.Sublist.cons_cons _ (sublist_append_left ..))
  -- at a block before the last one the next one is still before `bp`
  have hpass : ∀ x ∈ base :: L1, x ≠ L1.getLastD base → h.between bp x = false := by
    intro x hx hne
    obtain ⟨hlt, hmem⟩ := Linked.lt_next hleft hsl hx hne
    have := h1 _ (mem_cons_of_mem _ hmem)
    rw [← Bool.not_eq_true, between_iff]
    omega
  have hlast : h.between bp (L1.getLastD base) = true := by
    have hlt := h1 _ (getLastD_mem base L1)
    rw [between_iff, hleft.next_last]
    cases L2 with
    | nil =>
      have hb : base ≤ L1.getLastD base := by
        rcases mem_cons.mp (getLastD_mem base L1) with hm | hm
        · exact Nat.le_of_eq hm.symm
        · exact Nat.le_of_lt ((pairwise_cons.mp hsl).1 _ hm)
      exact .inr ⟨hb, .inl hlt⟩
    | cons c L2 => exact .inl ⟨hlt, h2 c (mem_cons_self ..)⟩
  have hnd : (base :: L1).Nodup := hsl.imp Nat.ne_of_lt
  rw [length_append] at hn
  rw [← cons_append] at hf
  rcases mem_append.mp hf with hf | hf
  · exact hleft.seek_last hpass hlast hnd hf (by omega)
  · -- from a block after `bp` the loop gets to `base` first
    cases L2 with
    | nil => cases hf
    | cons c L2 =>
      obtain ⟨-, hright⟩ := linked_append.mp hl
      have hsr : (c :: L2).Pairwise (· < ·) := by
        rw [← cons_append] at hs
        exact hs.sublist (sublist_append_right ..)
      have hpass2 : ∀ x ∈ c :: L2, h.between bp x = false := by
        intro x hx
        have hbx := h2 x hx
        rw [← Bool.not_eq_true, between_iff]
        by_cases hxl : x = L2.getLastD c
        · have hnx : h.ptr x = base := by rw [hxl, hright.next_last]
          have := h1 base (mem_cons_self ..)
          omega
        · have := (Linked.lt_next hright hsr hx hxl).1
          omega
      obtain ⟨k, hk, hseek⟩ := hright.seek_pass hpass2 hf
      rw [length_cons] at hn
      obtain ⟨m, rfl⟩ := Nat.exists_eq_add_of_le' (show k ≤ n by omega)
      rw [hseek]
      exact hleft.seek_last hpass hlast hnd (mem_cons_self ..) (by omega)

/-! ## The block and its neighbours -/

/-- The heaps have the same ends. -/
structure Ends (h h' : Heap) : Prop where
  base : h'.base = h.base
  start : h'.start = h.start
  brk : h'.brk = h.brk

theorem Ends.trans {h1 h2 h3 : Heap} (e : Ends h1 h2) (e' : Ends h2 h3) : Ends h1 h3 :=
  ⟨e'.base.trans e.base, e'.start.trans e.start, e'.brk.trans e.brk⟩

/-- A block is exchanged for another at its address, and with it those after it. -/
theorem Good.exchange (g : Good h (T1 ++ t :: T2)) (e : Ends h h') {m : Tile}
    (hsz : ∀ s, s ∈ T1 ∨ s ∈ T2 → h'.size s.addr = h.size s.addr) (hm : m.addr = t.addr)
    (hT : ∀ s ∈ T, s ∈ T2 ∨ s.use ≠ none ∧ 0 < s.size ∧ h'.size s.addr = s.size)
    (htiles : Tiles Tile.addr Tile.size (m.addr + m.size) T h.brk) (hpos : 0 < m.size) (hsize : h'.size m.addr = m.size)
    (hl : m.use = none → ∀ s ∈ T1, s.use = none → s.addr + s.size ≠ m.addr)
    (hr : m.use = none → ∀ s ∈ T, s.use = none → m.addr + m.size ≠ s.addr) : Good h' (T1 ++ m :: T) := by
  have hold : ∀ s, s ∈ T1 ∨ s ∈ T2 → s ∈ T1 ++ t :: T2 := by
    rintro s (hs | hs)
    · exact mem_append_left _ hs
    · exact mem_append_right _ (mem_cons_of_mem _ hs)
  have hmem : ∀ s ∈ T1 ++ m :: T, s = m ∨ s ∈ T1 ∨ s ∈ T := by
    intro s hs
    rcases mem_append.mp hs with hs | hs
    · exact .inr (.inl hs)
    · exact (mem_cons.mp hs).imp_right .inr
  refine ⟨?_, ?_, ?_, fun s hs => ?_, fun s hs => ?_, fun s hs s' hs' hu hu' => ?_⟩
  · rw [e.base, e.start]
    exact g.base
  · rw [e.brk, e.start]
    exact g.small
  · rw [e.brk, e.start]
    exact tiles_append.mpr ⟨t.addr, g.split.1, hm, hm ▸ htiles⟩
  · rcases hmem s hs with rfl | hs | hs
    · exact hpos
    · exact g.pos s (hold s (.inl hs))
    · rcases hT s hs with hs | hs
      · exact g.pos s (hold s (.inr hs))
      · exact hs.2.1
  · rcases hmem s hs with rfl | hs | hs
    · exact hsize
    · rw [hsz s (.inl hs)]
      exact g.size s (hold s (.inl hs))
    · rcases hT s hs with hs | hs
      · rw [hsz s (.inr hs)]
        exact g.size s (hold s (.inr hs))
      · exact hs.2.2
  · -- two free blocks: both were there before, or one of them is `m`
    have hfree : ∀ x, x ∈ T1 ∨ x ∈ T → x.use = none → x ∈ T1 ++ t :: T2 := by
      rintro x (hx | hx) hu
      · exact hold x (.inl hx)
      · exact hold x (.inr ((hT x hx).resolve_right fun hx => hx.1 hu))
    rcases hmem s hs with rfl | h1 <;> rcases hmem s' hs' with rfl | h2
    · omega
    · rcases h2 with h2 | h2
      · have := g.before h2
        omega
      · exact hr hu s' h2 hu'
    · rcases h1 with h1 | h1
      · exact hl hu' s h1 hu
      · have := htiles.bounds h1
        omega
    · exact g.apart s (hfree s h1 hu) s' (hfree s' h2 hu') hu hu'

/-- `free` after the first of its two changes: the block `m` is still in use, but is
linked to the free blocks after it, and no free block follows it directly. -/
theorem linkUpper_spec (g : Good h (T1 ++ t :: T2)) (ht : t.use = some n)
    (hl : Linked h.ptr h.base (frees T1 ++ frees T2) h.base) (hp : p = (frees T1).getLastD h.base) :
    ∃ m T, m.addr = t.addr ∧ t.size ≤ m.size ∧ T <:+ T2 ∧ lives T = lives T2 ∧
      Good (h.linkUpper t.addr p) (T1 ++ m :: T) ∧ Ends h (h.linkUpper t.addr p) ∧
      (∀ x ≠ t.addr, (h.linkUpper t.addr p).ptr x = h.ptr x) ∧ (h.linkUpper t.addr p).size h.base = h.size h.base ∧
      Linked (h.linkUpper t.addr p).ptr t.addr (frees T) h.base ∧
      ∀ s ∈ T, s.use = none → m.addr + m.size ≠ s.addr := by
  have hself := g.self
  have hbase := g.base
  have hsize : h.size t.addr = t.size := g.size t (mem_append_right _ (mem_cons_self ..))
  have hptr : h.ptr p = (frees T2).headD h.base := by
    rw [hp]
    exact hl.left.next_last
  have hne1 : ∀ s ∈ T1, s.addr ≠ t.addr := by
    intro s hs
    have := g.before hs
    omega
  have hne2 : ∀ s ∈ T2, s.addr ≠ t.addr := by
    intro s hs
    have := g.after hs
    omega
  have hpos2 : ∀ s ∈ T2, 0 < s.size := fun s hs => (g.after hs).2.2
  have hnd2 : (frees T2).Nodup := by
    have hnd := (nodup_cons.mp g.nodup).2
    rw [frees_append, frees_cons_live ht] at hnd
    exact (nodup_append.mp hnd).2.1
  by_cases hup : t.addr + h.size t.addr = h.ptr p
  · -- the first of the blocks after it is free, and joined
    rw [hptr, hsize] at hup
    have hmem : (frees T2).headD h.base ∈ frees T2 := by
      cases hf : frees T2 with
      | nil =>
        rw [hf] at hup
        simp only [headD_nil] at hup
        omega
      | cons c L => exact mem_cons_self ..
    obtain ⟨s, hs, hu, haddr⟩ := mem_frees.mp hmem
    rw [← hup] at haddr
    obtain ⟨T, rfl⟩ := g.split.2.eq_cons hpos2 hs haddr
    rw [frees_cons_free hu] at hptr hl
    have hsbrk := g.after hs
    have hsmall := g.small
    have hssize : h.size s.addr = s.size :=
      g.size s (mem_append_right _ (mem_cons_of_mem _ (mem_cons_self ..)))
    have hsum : (h.size t.addr + h.size (h.ptr p)) % 2 ^ 32 = t.size + s.size := by
      rw [hptr, headD_cons, hsize, hssize, Nat.mod_eq_of_lt (by omega)]
    have hlink : h.linkUpper t.addr p = (h.setSize t.addr (t.size + s.size)).setPtr t.addr (h.ptr s.addr) := by
      rw [linkUpper, if_pos (by rw [hsize, hptr, headD_cons, haddr]), hsum, hptr, headD_cons]
    rw [hlink]
    refine ⟨⟨t.addr, t.size + s.size, some n⟩, T, rfl, Nat.le_add_right .., suffix_cons .., (lives_cons_free hu).symm,
      ?_, ⟨rfl, rfl, rfl⟩, ?_, ?_, ?_, ?_⟩
    · refine g.exchange ?_ (fun x hx => ?_) rfl (fun x hx => .inl (mem_cons_of_mem _ hx)) ?_ ?_ ?_
        (fun hu => absurd hu nofun) (fun hu => absurd hu nofun)
      · exact ⟨rfl, rfl, rfl⟩
      · rw [size_setPtr, size_setSize, update_of_ne (hx.elim (hne1 x) (hne2 x))]
      · rw [← Nat.add_assoc]
        exact g.split.2.2
      · exact Nat.add_pos_left hself.2.2 _
      · rw [size_setPtr, size_setSize, update_self]
    · intro x hx
      rw [ptr_setPtr, ptr_setSize, update_of_ne hx]
    · rw [size_setPtr, size_setSize, update_of_ne (by omega)]
    · rw [ptr_setPtr, ptr_setSize]
      have hself : Linked h.ptr t.addr [] (h.ptr t.addr) := rfl
      refine hself.joinNext (linked_append.mp hl).2 (nodup_cons.mpr ⟨?_, ?_⟩)
      · intro hm
        obtain ⟨x, hx, -, hxa⟩ := mem_frees.mp hm
        exact hne2 x (mem_cons_of_mem _ hx) hxa
      · rw [frees_cons_free hu] at hnd2
        exact (nodup_cons.mp hnd2).2
    · intro x hx hux
      have := g.apart s (mem_append_right _ (mem_cons_of_mem _ hs)) x
        (mem_append_right _ (mem_cons_of_mem _ (mem_cons_of_mem _ hx))) hu hux
      rw [haddr] at this
      rwa [← Nat.add_assoc]
  · have hlink : h.linkUpper t.addr p = h.setPtr t.addr (h.ptr p) := by rw [linkUpper, if_neg hup]
    rw [hlink]
    refine ⟨t, T2, rfl, Nat.le_refl _, suffix_refl _, rfl, ?_, ⟨rfl, rfl, rfl⟩, ?_, ?_, ?_, ?_⟩
    · refine g.exchange ?_ (fun x _ => ?_) rfl (fun x hx => .inl hx) g.split.2 hself.2.2 ?_ ?_ ?_
      · exact ⟨rfl, rfl, rfl⟩
      · rw [size_setPtr]
      · rw [size_setPtr, hsize]
      · simp [ht]
      · simp [ht]
    · intro x hx
      rw [ptr_setPtr, update_of_ne hx]
    · rw [size_setPtr]
    · rw [ptr_setPtr, hp]
      have hself : Linked h.ptr t.addr [] (h.ptr t.addr) := rfl
      refine hself.joinNext hl.right (nodup_cons.mpr ⟨?_, ?_⟩)
      · intro hm
        obtain ⟨x, hx, -, hxa⟩ := mem_frees.mp hm
        exact hne2 x hx hxa
      · exact hnd2
    · intro s hs hu haddr
      obtain ⟨T, rfl⟩ := g.split.2.eq_cons hpos2 hs haddr.symm
      rw [hptr, frees_cons_free hu, headD_cons, hsize] at hup
      exact hup haddr

/-- `free` after the second of its changes. -/
theorem linkLower_spec (g : Good h (T1 ++ t :: T2)) (hl1 : Linked h.ptr h.base (frees T1) c)
    (hl2 : Linked h.ptr t.addr (frees T2) h.base) (hzero : h.size h.base = 0)
    (hr : ∀ s ∈ T2, s.use = none → t.addr + t.size ≠ s.addr) (hp : p = (frees T1).getLastD h.base) :
    ∃ T, T.length ≤ T1.length + T2.length + 1 ∧ (∀ s ∈ T, s.use = none ∨ s ∈ T1 ∨ s ∈ T2) ∧
      (∃ s ∈ T, s.use = none ∧ t.size ≤ s.size) ∧ lives T = lives T1 ++ lives T2 ∧
      Good (h.linkLower t.addr p) T ∧ Ends h (h.linkLower t.addr p) ∧
      Linked (h.linkLower t.addr p).ptr h.base (frees T) h.base ∧ (h.linkLower t.addr p).size h.base = 0 ∧
      p ∈ h.base :: frees T := by
  have hself := g.self
  have hbase := g.base
  have hpos1 : ∀ s ∈ T1, 0 < s.size := fun s hs => (g.before hs).2.2
  have hsize : h.size t.addr = t.size := g.size t (mem_append_right _ (mem_cons_self ..))
  have hnd : (h.base :: frees T1 ++ t.addr :: frees T2).Nodup := by
    have hsub : (frees T1 ++ t.addr :: frees T2).Sublist ((T1 ++ t :: T2).map Tile.addr) := by
      rw [map_append, map_cons]
      exact frees_sublist.append (.cons_cons _ frees_sublist)
    exact (g.addrs.sublist (.cons_cons _ hsub)).imp Nat.ne_of_lt
  have hmem : p ∈ h.base :: frees T1 := hp ▸ getLastD_mem ..
  by_cases hlow : p + h.size p = t.addr
  · -- the last of the blocks before it is free, and joined
    have hpf : p ∈ frees T1 := by
      rcases mem_cons.mp hmem with rfl | hpf
      · rw [hzero] at hlow
        omega
      · exact hpf
    obtain ⟨s, hs, hu, rfl⟩ := mem_frees.mp hpf
    have hssize : h.size s.addr = s.size := g.size s (mem_append_left _ hs)
    rw [hssize] at hlow
    obtain ⟨T0, rfl⟩ := g.split.1.eq_concat hpos1 hs hlow
    have hsum : (h.size s.addr + h.size t.addr) % 2 ^ 32 = s.size + t.size := by
      have := g.small
      have := g.before hs
      rw [hssize, hsize, Nat.mod_eq_of_lt (by omega)]
    have hlink : h.linkLower t.addr s.addr = (h.setSize s.addr (s.size + t.size)).setPtr s.addr (h.ptr t.addr) := by
      rw [linkLower, if_pos (by rw [hssize, hlow]), hsum]
    rw [hlink]
    have hf : frees (T0 ++ ⟨s.addr, s.size + t.size, none⟩ :: T2) = frees (T0 ++ [s]) ++ frees T2 := by
      rw [frees_append, frees_append, frees_cons_free rfl, frees_cons_free hu, append_assoc]
      rfl
    refine ⟨T0 ++ ⟨s.addr, s.size + t.size, none⟩ :: T2, ?_, ?_, ?_, ?_, ?_, ⟨rfl, rfl, rfl⟩, ?_, ?_, ?_⟩
    · simp only [length_append, length_cons]
      omega
    · intro x hx
      simp only [mem_append, mem_cons] at hx ⊢
      rcases hx with hx | rfl | hx
      · exact .inr (.inl (.inl hx))
      · exact .inl rfl
      · exact .inr (.inr hx)
    · exact ⟨_, mem_append_right _ (mem_cons_self ..), rfl, Nat.le_add_left ..⟩
    · rw [lives_append, lives_append, lives_cons_free rfl, lives_cons_free hu]
      simp [lives]
    · rw [append_assoc, singleton_append] at g
      have hsa := g.self
      refine g.exchange ?_ (fun x hx => ?_) rfl (fun x hx => .inl (mem_cons_of_mem _ hx)) ?_ ?_ ?_
        (fun _ x hx hux => ?_) fun _ x hx hux => ?_
      · exact ⟨rfl, rfl, rfl⟩
      · rw [size_setPtr, size_setSize, update_of_ne]
        rcases hx with hx | hx
        · have := g.before hx
          omega
        · have := g.after hx
          omega
      · rw [← Nat.add_assoc]
        exact g.split.2.2
      · exact Nat.add_pos_left hsa.2.2 _
      · rw [size_setPtr, size_setSize, update_self]
      · exact g.apart x (mem_append_left _ hx) s (mem_append_right _ (mem_cons_self ..)) hux hu
      · rw [← Nat.add_assoc, hlow]
        exact hr x hx hux
    · rw [hf, ptr_setPtr, ptr_setSize, hp]
      refine hl1.joinNext hl2 (hnd.sublist ?_)
      exact (sublist_cons_self ..).append_left _
    · rw [size_setPtr, size_setSize, update_of_ne, hzero]
      have := g.before hs
      omega
    · rw [hf]
      exact mem_cons_of_mem _ (mem_append_left _ hpf)
  · have hlink : h.linkLower t.addr p = h.setPtr p t.addr := by rw [linkLower, if_neg hlow]
    have hf : frees (T1 ++ ⟨t.addr, t.size, none⟩ :: T2) = frees T1 ++ t.addr :: frees T2 := by
      rw [frees_append, frees_cons_free rfl]
    rw [hlink]
    refine ⟨T1 ++ ⟨t.addr, t.size, none⟩ :: T2, ?_, ?_, ?_, ?_, ?_, ⟨rfl, rfl, rfl⟩, ?_, ?_, ?_⟩
    · simp only [length_append, length_cons]
      omega
    · intro x hx
      simp only [mem_append, mem_cons] at hx
      rcases hx with hx | rfl | hx
      · exact .inr (.inl hx)
      · exact .inl rfl
      · exact .inr (.inr hx)
    · exact ⟨_, mem_append_right _ (mem_cons_self ..), rfl, Nat.le_refl _⟩
    · rw [lives_append, lives_cons_free rfl]
    · refine g.exchange ?_ (fun x _ => ?_) rfl (fun x hx => .inl hx) g.split.2 hself.2.2 ?_ (fun _ x hx hu hx' => ?_)
        fun _ => hr
      · exact ⟨rfl, rfl, rfl⟩
      · rw [size_setPtr]
      · rw [size_setPtr, hsize]
      · obtain ⟨T0, rfl⟩ := g.split.1.eq_concat hpos1 hx hx'
        rw [frees_append, frees_cons_free hu, show frees [] = [] from rfl, getLastD_concat] at hp
        have hxs := g.size x (mem_append_left _ hx)
        rw [hp, hxs] at hlow
        exact hlow hx'
    · rw [hf, ptr_setPtr, hp]
      exact hl1.join hl2 hnd
    · rw [size_setPtr, hzero]
    · rw [hf, ← cons_append]
      exact mem_append_left _ hmem

/-- `free` ends, and gives the block back to the free list. The blocks that are in
use after it were in use before. -/
theorem free_spec (g : Good h (T1 ++ t :: T2)) (r : Ready h (T1 ++ t :: T2)) (ht : t.use = some n) :
    ∃ h' T, h.free (t.addr + 1) = some h' ∧ Good h' T ∧ Ready h' T ∧ Ends h h' ∧
      T.length ≤ T1.length + T2.length + 1 ∧ (∀ s ∈ T, s.use = none ∨ s ∈ T1 ∨ s ∈ T2) ∧
      (∃ s ∈ T, s.use = none ∧ t.size ≤ s.size) ∧ lives T = lives T1 ++ lives T2 := by
  obtain ⟨f, hf, hfreep⟩ := r.freep
  have hl := r.chain
  have hs := g.sorted
  have hlen := g.length_frees
  rw [frees_append, frees_cons_live ht] at hf hl hs hlen
  have hlt : ∀ x ∈ h.base :: frees T1, x < t.addr := by
    intro x hx
    have := g.base
    have := g.self
    rcases mem_cons.mp hx with rfl | hx
    · omega
    · obtain ⟨s, hs, -, rfl⟩ := mem_frees.mp hx
      have := g.before hs
      omega
  have hgt : ∀ x ∈ frees T2, t.addr < x := by
    intro x hx
    obtain ⟨s, hs, -, rfl⟩ := mem_frees.mp hx
    have := g.after hs
    have := g.self
    omega
  have hseek := seek_between hl hs hlt hgt hf hlen
  generalize hp : (frees T1).getLastD h.base = p at hseek
  obtain ⟨⟨a, size, u⟩, T', rfl, hsz, hsuf, hlv, hg1, he1, hptr, hz1, hl2, hr⟩ := linkUpper_spec g ht hl hp.symm
  have hl1 := hl.left.congr fun x hx => hptr x (Nat.ne_of_lt (hlt x hx))
  rw [← he1.base] at hl1 hl2 hz1 hp
  obtain ⟨T, hlenT, hmem, ⟨s, hs, hu, hss⟩, hlives, hg2, he2, hl3, hz2, hpm⟩ :=
    linkLower_spec hg1 hl1 hl2 (hz1.trans (he1.base ▸ r.zero)) hr hp.symm
  rw [← he2.base] at hl3 hz2 hpm
  have he := he1.trans he2
  refine ⟨{ (h.linkUpper t.addr p).linkLower t.addr p with freep := some p }, T, ?_,
    ⟨hg2.base, hg2.small, hg2.tiles, hg2.pos, hg2.size, hg2.apart⟩, ⟨hl3, hz2, p, hpm, rfl⟩,
    ⟨he.base, he.start, he.brk⟩, ?_, fun x hx => ?_, ⟨s, hs, hu, Nat.le_trans hsz hss⟩, ?_⟩
  · simp [free, hfreep, hseek]
  · have := hsuf.length_le
    omega
  · exact (hmem x hx).imp_right fun hx => hx.imp_right fun hx => hsuf.subset hx
  · rw [hlives, hlv]

end Xv6.User
