import Xv6.Proc.Waitx

/-!
# The page allocator

`kernel/kalloc.c` on the bytes of physical memory. The free list is threaded
through the free pages themselves: the first word of a free page is the
address of the next one. Pages are owned by number (`PGSIZE * n` is the
address of page `n`), and `Frame T` says that only bytes of the pages in `T`
have changed, so that whatever else is in memory stays.

`kalloc_cons` and `kfree_ok` are what the two operations do to the free list,
`kinit_free` that after `kinit` it holds every page once.
-/

namespace Xv6.Vm

open Framework Multiset

/-- Where physical memory starts, and its top. -/
abbrev KERNBASE : Nat := 0x80000000

abbrev PHYSTOP : Nat := KERNBASE + 128 * 1024 * 1024

def pgroundup (sz : Nat) : Nat := (sz + PGSIZE - 1) / PGSIZE * PGSIZE

def pgrounddown (a : Nat) : Nat := a / PGSIZE * PGSIZE

/-- The symbols of `kernel.ld` that the allocator and the page tables use. The
page of the trampoline is a page of the kernel's text. -/
structure Layout where
  /-- The end of the kernel's text. -/
  etext : Nat
  /-- `end`, the first address after the kernel. -/
  kend : Nat
  trampoline : Nat
  etext_dvd : PGSIZE ∣ etext
  etext_gt : KERNBASE < etext
  etext_le : etext ≤ kend
  trampoline_dvd : PGSIZE ∣ trampoline
  trampoline_lt : trampoline < kend
  kend_le : kend ≤ PHYSTOP

/-- Physical memory and `kmem.freelist`. -/
structure Kmem where
  mem : Bytes
  freelist : Nat

def memset (m : Bytes) (dst : Nat) (c : Byte) (n : Nat) : Bytes := fun x =>
  if dst ≤ x ∧ x < dst + n then c else m x

def memmove (m : Bytes) (dst src n : Nat) : Bytes := UserMem.move m dst m src n

variable (L : Layout)

/-- `kfree`; `none` is its panic. -/
def kfree (k : Kmem) (pa : Nat) : Option Kmem :=
  if pa % PGSIZE ≠ 0 ∨ pa < L.kend ∨ PHYSTOP ≤ pa then none
  else
    -- fill with junk, then `r->next = kmem.freelist`
    some { mem := write64 (memset k.mem pa 1 PGSIZE) pa (BitVec.ofNat 64 k.freelist), freelist := pa }

/-- `kalloc`; `none` is the null pointer. -/
def kalloc (k : Kmem) : Option Nat × Kmem :=
  if k.freelist = 0 then (none, k)
  else
    (some k.freelist, { mem := memset k.mem k.freelist 5 PGSIZE, freelist := (read64 k.mem k.freelist).toNat })

/-- The loop of `freerange`, over `n` pages from `p`. -/
def freerangeLoop : Nat → Kmem → Nat → Option Kmem
  | 0, k, _ => some k
  | n + 1, k, p => do freerangeLoop n (← kfree L k p) (p + PGSIZE)

def freerange (k : Kmem) (start stop : Nat) : Option Kmem :=
  freerangeLoop L ((stop - pgroundup start) / PGSIZE) k (pgroundup start)

/-- `kinit`, on whatever memory holds. -/
def kinit (m : Bytes) : Option Kmem := freerange L { mem := m, freelist := 0 } L.kend PHYSTOP

/-- The numbers of the pages from `end` to `PHYSTOP`. -/
def Layout.frames : Finset Nat := Finset.Ico (pgroundup L.kend / PGSIZE) (PHYSTOP / PGSIZE)

variable {L}

variable {n : Nat} {l : List Nat} {m' : Bytes} {T : Multiset Nat} {k : Kmem}

theorem Layout.mem_frames : n ∈ L.frames ↔ L.kend ≤ 4096 * n ∧ 4096 * n < 0x88000000 := by
  simp only [frames, Finset.mem_Ico, pgroundup, PGSIZE, PHYSTOP, KERNBASE]
  omega

theorem Layout.pos_of_mem (h : n ∈ L.frames) : 0 < n := by
  have := mem_frames.mp h
  have := L.trampoline_lt
  omega

theorem Layout.lt_of_mem (h : n ∈ L.frames) : 4096 * n < 2 ^ 32 := by
  have := mem_frames.mp h
  omega

theorem Layout.card_frames_le : L.frames.card ≤ 0x8000 := by
  have h1 := L.etext_gt
  have h2 := L.etext_le
  simp only [frames, Nat.card_Ico, pgroundup, PGSIZE, PHYSTOP, KERNBASE] at h1 ⊢
  omega

/-! ## Memory outside a set of pages -/

/-- Only bytes of the pages in `T` differ. -/
def Frame (T : Multiset Nat) (m m' : Bytes) : Prop := ∀ x, x / 4096 ∉ T → m' x = m x

namespace Frame

variable {T T' : Multiset Nat} {m m1 m' : Bytes} {a n dst len : Nat}

theorem rfl' : Frame T m m := fun _ _ => rfl

theorem trans (h : Frame T m m1) (h' : Frame T m1 m') : Frame T m m' := fun x hx =>
  (h' x hx).trans (h x hx)

theorem mono (h : Frame T m m') (hT : T ≤ T') : Frame T' m m' := fun x hx =>
  h x fun hx' => hx (mem_of_le hT hx')

theorem memset {c : Byte} (hd : 4096 * n ≤ dst) (hl : dst + len ≤ 4096 * n + 4096) :
    Frame {n} m (Vm.memset m dst c len) := by
  intro x hx
  have hxn : x / 4096 ≠ n := fun h => hx (mem_singleton.mpr h)
  simp only [Vm.memset]
  rw [if_neg (by omega)]

theorem move {off : Nat} {src : Bytes} (hd : 4096 * n ≤ dst) (hl : dst + len ≤ 4096 * n + 4096) :
    Frame {n} m (UserMem.move m dst src off len) := by
  intro x hx
  have hxn : x / 4096 ≠ n := fun h => hx (mem_singleton.mpr h)
  simp only [UserMem.move]
  rw [if_neg (by omega)]

theorem writeLE {v : Nat} (hd : 4096 * n ≤ a) (hl : a + len ≤ 4096 * n + 4096) :
    Frame {n} m (Framework.writeLE m a len v) := by
  intro x hx
  have hxn : x / 4096 ≠ n := fun h => hx (mem_singleton.mpr h)
  exact writeLE_apply (by omega)

theorem write64 {v : BitVec 64} (hd : 4096 * n ≤ a) (hl : a + 8 ≤ 4096 * n + 4096) :
    Frame {n} m (Framework.write64 m a v) :=
  Frame.writeLE hd hl

theorem write32 {v : BitVec 32} (hd : 4096 * n ≤ a) (hl : a + 4 ≤ 4096 * n + 4096) :
    Frame {n} m (Framework.write32 m a v) :=
  Frame.writeLE hd hl

/-- A word of a page that has not changed. -/
theorem read64 (h : Frame T m m') (hn : n ∉ T) (hd : 4096 * n ≤ a) (hl : a + 8 ≤ 4096 * n + 4096) :
    Framework.read64 m' a = Framework.read64 m a :=
  read64_congr fun x h1 h2 => h x (by rwa [show x / 4096 = n by omega])

end Frame

/-! ## The free list -/

/-- The list of pages that starts at the address `a`. -/
def Chain (m : Bytes) : Nat → List Nat → Prop
  | a, [] => a = 0
  | a, n :: l => a = 4096 * n ∧ a ≠ 0 ∧ Chain m (read64 m a).toNat l

/-- The free list holds the pages `l`. -/
def Kmem.Free (k : Kmem) (l : List Nat) : Prop := Chain k.mem k.freelist l

theorem Chain.frame {m : Bytes} {a : Nat} (h : Chain m a l)
    (hf : Frame T m m') (hT : ∀ n ∈ l, n ∉ T) : Chain m' a l := by
  induction l generalizing a with
  | nil => exact h
  | cons n l ih =>
    obtain ⟨h1, h2, h3⟩ := h
    refine ⟨h1, h2, ?_⟩
    rw [hf.read64 (hT n List.mem_cons_self) (by omega) (by omega)]
    exact ih h3 fun n' hn' => hT n' (List.mem_cons_of_mem n hn')

theorem Kmem.Free.frame (h : k.Free l)
    (hf : Frame T k.mem m') (hT : ∀ n ∈ l, n ∉ T) : Kmem.Free { k with mem := m' } l :=
  Chain.frame h hf hT

theorem kalloc_nil (h : k.Free []) : kalloc k = (none, k) := if_pos h

/-- `kalloc` takes the first page. -/
theorem kalloc_cons (h : k.Free (n :: l)) (hn : n ∉ l) :
    ∃ k', kalloc k = (some (4096 * n), k') ∧ k'.Free l ∧ Frame {n} k.mem k'.mem := by
  obtain ⟨h1, h2, h3⟩ := h
  have hf : Frame {n} k.mem (memset k.mem k.freelist 5 4096) :=
    Frame.memset (Nat.le_of_eq h1.symm) (by omega)
  refine ⟨⟨memset k.mem k.freelist 5 4096, (read64 k.mem k.freelist).toNat⟩, ?_, h3.frame hf fun n' hn' => ?_, hf⟩
  · rw [kalloc, if_neg h2, h1]
  · rw [mem_singleton]
    rintro rfl
    exact hn hn'

/-- The free pages are pages of memory, each in the list once. -/
theorem Kmem.Free.freelist_lt (h : k.Free l) (hl : (l : Multiset Nat) ≤ L.frames.val) :
    k.freelist < 2 ^ 64 := by
  cases l with
  | nil => rw [show k.freelist = 0 from h]; decide
  | cons n l =>
    have := Layout.lt_of_mem (mem_of_le hl (mem_coe.mpr List.mem_cons_self))
    rw [h.1]
    omega

/-- `kfree` puts a page in front. -/
theorem kfree_ok (h : k.Free l) (hl : n ::ₘ (l : Multiset Nat) ≤ L.frames.val) :
    ∃ k', kfree L k (4096 * n) = some k' ∧ k'.Free (n :: l) ∧ Frame {n} k.mem k'.mem := by
  have hmem : n ∈ L.frames := mem_of_le hl (mem_cons_self n _)
  have hnl : n ∉ l := (nodup_cons.mp (nodup_of_le hl L.frames.nodup)).1
  have hrange := Layout.mem_frames.mp hmem
  have hpos := Layout.pos_of_mem hmem
  have hlt := h.freelist_lt ((le_cons_self _ n).trans hl)
  let m' := write64 (memset k.mem (4096 * n) 1 4096) (4096 * n) (BitVec.ofNat 64 k.freelist)
  have hf : Frame {n} k.mem m' :=
    (Frame.memset (le_refl _) (le_refl _)).trans (Frame.write64 (le_refl _) (by omega))
  have hok : ¬ (4096 * n % 4096 ≠ 0 ∨ 4096 * n < L.kend ∨ 0x88000000 ≤ 4096 * n) := by omega
  have hpos' : 4096 * n ≠ 0 := by omega
  refine ⟨⟨m', 4096 * n⟩, if_neg hok, ⟨rfl, hpos', ?_⟩, hf⟩
  show Chain m' (read64 m' (4096 * n)).toNat l
  rw [read64_write64_self, BitVec.toNat_ofNat, Nat.mod_eq_of_lt hlt]
  refine Chain.frame h hf fun n' hn' => ?_
  rw [mem_singleton]
  rintro rfl
  exact hnl hn'

/-! ## `kinit` -/

theorem freerangeLoop_free {c : Nat} (h : k.Free l) (hl : Multiset.Ico n (n + c) + (l : Multiset Nat) ≤ L.frames.val) :
    ∃ k' l', freerangeLoop L c k (4096 * n) = some k' ∧ k'.Free l' ∧
      (l' : Multiset Nat) = Ico n (n + c) + (l : Multiset Nat) := by
  induction c generalizing k l n with
  | zero => exact ⟨k, l, rfl, h, by simp⟩
  | succ c ih =>
    have hsplit : Ico n (n + (c + 1)) = n ::ₘ Ico (n + 1) (n + 1 + c) := by
      have : Finset.Ico n (n + (c + 1)) = Finset.cons n (Finset.Ico (n + 1) (n + 1 + c)) (by simp) := by
        ext x
        simp only [Finset.mem_Ico, Finset.mem_cons]
        omega
      exact congrArg Finset.val this
    rw [hsplit, cons_add] at hl
    obtain ⟨k1, hk1, hfree1, -⟩ := kfree_ok h (((cons_le_cons_iff n).mpr (le_add_left _ _)).trans hl)
    obtain ⟨k2, l2, hk2, hfree2, hl2⟩ := ih (n := n + 1) hfree1 (by
      rw [← cons_coe, add_cons]
      exact hl)
    refine ⟨k2, l2, ?_, hfree2, ?_⟩
    · simp only [freerangeLoop, hk1, Option.bind_eq_bind, Option.bind_some]
      rw [show 4096 * n + 4096 = 4096 * (n + 1) by omega]
      exact hk2
    · rw [hl2, hsplit, ← cons_coe, add_cons, cons_add]

/-- After `kinit` every page is free, once. -/
theorem kinit_free (m : Bytes) : ∃ k l, kinit L m = some k ∧ k.Free l ∧ (l : Multiset Nat) = L.frames.val := by
  have hn : pgroundup L.kend = 4096 * (pgroundup L.kend / 4096) := by
    simp only [pgroundup, PGSIZE]
    omega
  have hc : pgroundup L.kend / 4096 + (PHYSTOP - pgroundup L.kend) / 4096 = PHYSTOP / 4096 := by
    have := L.kend_le
    simp only [pgroundup, PGSIZE, PHYSTOP, KERNBASE] at this ⊢
    omega
  have hframes : L.frames.val = Ico (pgroundup L.kend / 4096)
      (pgroundup L.kend / 4096 + (PHYSTOP - pgroundup L.kend) / 4096) := by
    rw [hc]
    rfl
  have hk : Kmem.Free { mem := m, freelist := 0 } [] := rfl
  obtain ⟨k, l, hk, hfree, hl⟩ := freerangeLoop_free (L := L) hk (by
    rw [hframes, coe_nil, add_zero])
  refine ⟨k, l, ?_, hfree, ?_⟩
  · rw [kinit, freerange]
    rw [← hn] at hk
    exact hk
  · rw [hl, hframes, coe_nil, add_zero]

end Xv6.Vm
