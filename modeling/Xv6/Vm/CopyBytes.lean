import Xv6.Vm.Copy

/-!
# User memory, byte by byte

`copyin`, `copyout` and `copyinstr` work page by page. Here they are compared
with the user's view of memory (`userAddr`): they move the bytes in order up to
the first one that the user cannot reach (`copyinLoop_reads`,
`copyoutLoop_wrote`, `copyinstrLoop_reads`).
-/

namespace Xv6.Vm

open Framework List Option

/-- The physical address of the virtual address `x`, if the user may use it. -/
def userAddr (m : Bytes) (n x : Nat) : Option Nat :=
  if x < MAXVA ∧ pteAt m n (x / 4096) &&& PTE_V ≠ 0 ∧ pteAt m n (x / 4096) &&& PTE_U ≠ 0 then
    some (pte2pa (pteAt m n (x / 4096)) + x % 4096)
  else none

/-- The byte the user reads at `x`. -/
def ubyte (m : Bytes) (n x : Nat) : Option Byte := (userAddr m n x).map m

/-- The user reaches distinct bytes at distinct addresses, none of them in the first
page of physical memory or in the page table. -/
structure Clean (m : Bytes) (n : Nat) : Prop where
  pos : ∀ {x a}, userAddr m n x = some a → 4096 ≤ a
  table : ∀ {x a}, userAddr m n x = some a → a / 4096 ∉ tables m n
  inj : ∀ {x y a}, userAddr m n x = some a → userAddr m n y = some a → x = y

/-- The bytes of `src` from `off` on are at the `j` user addresses from `va` on, and
all else is as it was. -/
structure Wrote (m : Bytes) (n va : Nat) (src : Bytes) (off j : Nat) (m' : Bytes) : Prop where
  bytes : ∀ i < j, ∃ a, userAddr m n (va + i) = some a ∧ m' a = src (off + i)
  rest : ∀ a, (∀ i < j, userAddr m n (va + i) ≠ some a) → m' a = m a

variable {L : Layout} {k : Kmem} {l : List Nat} {m m1 m' src : Bytes} {n va off len fuel j c v q x g : Nat}
  {P : Pte → Prop} {U C : Finset Nat} {fixed : Nat → Option Nat} {T : Multiset Nat} {s t : List Byte} {i : Fin 512}

/-! ## Pages -/

theorem pgrounddown_add (x : Nat) : pgrounddown x + x % 4096 = x := by
  simp only [pgrounddown, PGSIZE]
  omega

/-- `walkaddr` of the page of `x`: the user cannot reach it, or all of its addresses
in turn. -/
theorem walkaddr_page (hpos : ∀ {x a}, userAddr k.mem n x = some a → 4096 ≤ a) (x : Nat) :
    (walkaddr k (4096 * n) (pgrounddown x) = 0 ∧ userAddr k.mem n x = none) ∨
      ∃ g, g ≠ 0 ∧ walkaddr k (4096 * n) (pgrounddown x) = 4096 * g ∧
        ∀ y, y / 4096 = x / 4096 → userAddr k.mem n y = some (4096 * g + y % 4096) := by
  have hpage : pgrounddown x / 4096 = x / 4096 := by simp only [pgrounddown, PGSIZE]; omega
  by_cases hlt : x < MAXVA
  · have hlt' : pgrounddown x < MAXVA := by simp only [pgrounddown, PGSIZE]; omega
    rw [walkaddr_eq hlt', hpage]
    split
    · rename_i hv
      exact .inl ⟨rfl, if_neg fun hc => hc.2.1 hv⟩
    split
    · rename_i hu
      exact .inl ⟨rfl, if_neg fun hc => hc.2.2 hu⟩
    rename_i hv hu
    have hall : ∀ y, y / 4096 = x / 4096 →
        userAddr k.mem n y = some (4096 * (pte2pa (pteAt k.mem n (x / 4096)) / 4096) + y % 4096) := fun y hy => by
      rw [userAddr, hy, if_pos ⟨by simp only [MAXVA] at hlt ⊢; omega, hv, hu⟩, pte2pa_eq]
    refine .inr ⟨_, fun hz => ?_, (pte2pa_eq _).symm, hall⟩
    have := hpos (hall x rfl)
    omega
  · refine .inl ⟨if_pos ?_, if_neg fun hc => hlt hc.1⟩
    simp only [pgrounddown, PGSIZE, MAXVA] at hlt ⊢
    omega

/-- What a page table maps for a process is clean. -/
theorem Holds.clean (h : Holds k l n P U fixed T) (hT : T ≤ L.frames.val) : Clean k.mem n := by
  have hmem : ∀ {x a}, userAddr k.mem n x = some a → x / 4096 ∈ U ∧ a = pte2pa (pteAt k.mem n (x / 4096)) + x % 4096 := by
    intro x a hx
    obtain ⟨⟨hlt, hv, hu⟩, ha⟩ := ite_none_right_eq_some.mp hx
    refine ⟨by_contra fun hc => ?_, (some.inj ha).symm⟩
    have hrest := h.space.rest (x / 4096) (by simp only [VPAGES, MAXVA] at hlt ⊢; omega) hc
    cases hfix : fixed (x / 4096) with
    | none => rw [hfix] at hrest; exact hv hrest
    | some pa => rw [hfix] at hrest; exact hu hrest.2.2
  have hdiv : ∀ v x, (pte2pa (pteAt k.mem n v) + x % 4096) / 4096 = pte2pa (pteAt k.mem n v) / 4096 := fun v x => by
    have := pte2pa_eq (pteAt k.mem n v)
    omega
  have hin : ∀ v ∈ U, pte2pa (pteAt k.mem n v) / 4096 ∈ userPages k.mem n U := fun v hv =>
    Multiset.mem_map_of_mem (fun v => pte2pa (pteAt k.mem n v) / 4096) hv
  obtain ⟨-, -, hdis⟩ := h.disjoint hT
  refine ⟨fun hx => ?_, fun hx => ?_, fun hx hy => ?_⟩
  · obtain ⟨hU, rfl⟩ := hmem hx
    have := Layout.pos_of_mem (Multiset.mem_of_le (h.userPages_le.trans hT) (hin _ hU))
    omega
  · obtain ⟨hU, rfl⟩ := hmem hx
    rw [hdiv]
    exact (hdis _ (hin _ hU)).2
  · obtain ⟨hxU, rfl⟩ := hmem hx
    obtain ⟨hyU, ha⟩ := hmem hy
    have hnodup := Multiset.nodup_of_le (h.userPages_le.trans hT) L.frames.nodup
    have hpage : _ / 4096 = _ / 4096 := Multiset.inj_on_of_nodup_map hnodup _ hxU _ hyU (by rw [← hdiv _ _, ha, hdiv])
    rw [hpage] at ha
    omega

/-- The bytes `s` are those the user reads from `va` on. -/
def Reads (m : Bytes) (n va : Nat) (s : List Byte) : Prop := ∀ i < s.length, s[i]? = ubyte m n (va + i)

theorem Reads.nil : Reads m n va [] := fun i hi => absurd hi (Nat.not_lt_zero i)

theorem Reads.append (hs : Reads m n va s) (ht : Reads m n (va + s.length) t) :
    Reads m n va (s ++ t) := fun i hi => by
  rw [length_append] at hi
  by_cases his : i < s.length
  · rw [getElem?_append_left his, hs i his]
  · rw [getElem?_append_right (by omega), ht _ (by omega), show va + s.length + (i - s.length) = va + i by omega]

/-- The bytes of one page. -/
theorem Reads.page (hall : ∀ y, y / 4096 = va / 4096 → userAddr m n y = some (4096 * g + y % 4096))
    (hc : va % 4096 + c ≤ 4096) : Reads m n va ((List.range c).map fun i => m (4096 * g + va % 4096 + i)) := by
  intro i hi
  rw [length_map, length_range] at hi
  rw [ubyte, hall (va + i) (by omega), map_some, getElem?_map, getElem?_range hi, map_some,
    show 4096 * g + va % 4096 + i = 4096 * g + (va + i) % 4096 by omega]

theorem Reads.shorter (h : Reads m n va t) (hs : s <+: t) : Reads m n va s := fun i hi => by
  obtain ⟨u, rfl⟩ := hs
  rw [← h i (by rw [length_append]; omega), getElem?_append_left hi]

/-- What is read before a byte that cannot be. -/
theorem Reads.reach (h : Reads m n va s) {i : Nat} (hi : i < s.length) :
    userAddr m n (va + i) ≠ none := fun hc => by
  have := h i hi
  rw [ubyte, hc, getElem?_eq_getElem hi] at this
  exact some_ne_none _ this

/-! ## `copyin` -/

theorem copyinLoop_zero (pagetable fuel : Nat) : copyinLoop k pagetable fuel va 0 = (true, []) := by
  cases fuel <;> rfl

/-- The part of a page that a loop works on is all there is to do, or it ends with the
page. -/
theorem chunk_cases (va : Nat) (hlen : 0 < len) : ∃ c, min (PGSIZE - (va - pgrounddown va)) len = c ∧ 0 < c ∧ c ≤ len ∧
    va % 4096 + c ≤ 4096 ∧ (c = len ∨ pgrounddown va + PGSIZE = va + c) := by
  refine ⟨_, rfl, ?_⟩
  have := pgrounddown_add va
  simp only [PGSIZE]
  omega

theorem copyinLoop_reads (hpos : ∀ {x a}, userAddr k.mem n x = some a → 4096 ≤ a) (hf : len ≤ fuel) :
    ∃ ok s, copyinLoop k (4096 * n) fuel va len = (ok, s) ∧ Reads k.mem n va s ∧ s.length ≤ len ∧
      (ok = true → s.length = len) ∧ (ok = false → s.length < len ∧ userAddr k.mem n (va + s.length) = none) := by
  induction fuel generalizing va len with
  | zero =>
    obtain rfl := Nat.le_zero.mp hf
    exact ⟨true, [], rfl, .nil, le_refl _, fun _ => rfl, nofun⟩
  | succ fuel ih =>
    by_cases hlen : len = 0
    · subst hlen
      exact ⟨true, [], copyinLoop_zero _ _, .nil, le_refl _, fun _ => rfl, nofun⟩
    simp only [copyinLoop, if_neg hlen]
    obtain ⟨hw, hnone⟩ | ⟨g, hg, hw, hall⟩ := walkaddr_page hpos va
    · rw [hw, if_pos rfl]
      exact ⟨false, [], rfl, .nil, Nat.zero_le _, nofun, fun _ => ⟨Nat.pos_of_ne_zero hlen, hnone⟩⟩
    obtain ⟨c, hc, hc0, hcl, hpage, hend⟩ := chunk_cases va (Nat.pos_of_ne_zero hlen)
    have hva := pgrounddown_add va
    rw [hw, if_neg (by omega), hc, show va - pgrounddown va = va % 4096 by omega]
    have hread := Reads.page hall hpage
    generalize hs : (List.range c).map (fun i => k.mem (4096 * g + va % 4096 + i)) = s at hread ⊢
    have hsl : s.length = c := by rw [← hs, length_map, length_range]
    rcases hend with rfl | hend
    · rw [Nat.sub_self, copyinLoop_zero]
      refine ⟨true, s ++ [], rfl, ?_, ?_, fun _ => ?_, nofun⟩ <;> rw [append_nil]
      exacts [hread, hsl.le, hsl]
    · obtain ⟨ok, rest, hr, hrest, hle, hyes, hno⟩ := @ih (va + c) (len - c) (by omega)
      rw [hend, hr]
      refine ⟨ok, s ++ rest, rfl, hread.append (by rwa [hsl]), ?_, fun hok => ?_, fun hok => ?_⟩ <;>
        rw [length_append, hsl]
      · omega
      · have := hyes hok
        omega
      · obtain ⟨hlt, hnone⟩ := hno hok
        exact ⟨by omega, by rwa [← Nat.add_assoc]⟩

/-! ## `copyinstr` -/

/-- The inner loop stops after the first zero. -/
theorem takeStr_eq (m : Bytes) (a c : Nat) : ∃ ok s, takeStr m a c = (ok, s) ∧
    s <+: (List.range c).map (fun i => m (a + i)) ∧ (ok = true → ∃ t, s = t ++ [0] ∧ 0 ∉ t) ∧
    (ok = false → 0 ∉ s ∧ s.length = c) := by
  induction c generalizing a with
  | zero => exact ⟨false, [], rfl, nil_prefix, nofun, fun _ => ⟨not_mem_nil, rfl⟩⟩
  | succ c ih =>
    have hmap : (List.range (c + 1)).map (fun i => m (a + i)) = m a :: (List.range c).map (fun i => m (a + 1 + i)) := by
      rw [range_succ_eq_map, map_cons, List.map_map, Nat.add_zero]
      exact congrArg _ (map_congr_left fun i _ => congrArg m (by simp only [Nat.succ_eq_add_one]; omega))
    rw [hmap]
    by_cases hz : m a = 0
    · refine ⟨true, [0], by rw [takeStr, if_pos hz], ?_, fun _ => ⟨[], rfl, not_mem_nil⟩, nofun⟩
      rw [hz]
      exact ⟨_, rfl⟩
    · obtain ⟨ok, s, hs, hpre, hyes, hno⟩ := ih (a + 1)
      refine ⟨ok, m a :: s, by rw [takeStr, if_neg hz, hs], prefix_cons_inj _ |>.mpr hpre, fun hok => ?_, fun hok => ?_⟩
      · obtain ⟨t, rfl, ht⟩ := hyes hok
        exact ⟨m a :: t, rfl, fun hc => (mem_cons.mp hc).elim (fun h => hz h.symm) ht⟩
      · obtain ⟨hs0, hsl⟩ := hno hok
        exact ⟨fun hc => (mem_cons.mp hc).elim (fun h => hz h.symm) hs0, by rw [length_cons, hsl]⟩

/-- `copyinstr` stops after the first zero, and fails if there is none. -/
theorem copyinstrLoop_ends (pagetable fuel va max : Nat) : ∃ ok s, copyinstrLoop k pagetable fuel va max = (ok, s) ∧
    (ok = true → ∃ t, s = t ++ [0] ∧ 0 ∉ t) ∧ (ok = false → 0 ∉ s) := by
  induction fuel generalizing va max with
  | zero => exact ⟨false, [], rfl, by simp, fun _ => not_mem_nil⟩
  | succ fuel ih =>
    simp only [copyinstrLoop]
    split
    · exact ⟨false, [], rfl, by simp, fun _ => not_mem_nil⟩
    split
    · exact ⟨false, [], rfl, by simp, fun _ => not_mem_nil⟩
    obtain ⟨got, s, hs, -, hyes, hno⟩ := takeStr_eq k.mem (walkaddr k pagetable (pgrounddown va) + (va - pgrounddown va))
      (min (PGSIZE - (va - pgrounddown va)) max)
    rw [hs]
    cases got with
    | true => exact ⟨true, s, rfl, hyes, by simp⟩
    | false =>
      obtain ⟨hs0, -⟩ := hno rfl
      obtain ⟨ok, rest, hr, hyes, hno⟩ := ih (pgrounddown va + PGSIZE) (max - min (PGSIZE - (va - pgrounddown va)) max)
      rw [hr]
      refine ⟨ok, s ++ rest, rfl, fun hok => ?_, fun hok hc => (mem_append.mp hc).elim hs0 (hno hok)⟩
      obtain ⟨t, rfl, ht⟩ := hyes hok
      exact ⟨s ++ t, (append_assoc s t [0]).symm, fun hc => (mem_append.mp hc).elim hs0 ht⟩

theorem copyinstrLoop_reads {max : Nat} (hpos : ∀ {x a}, userAddr k.mem n x = some a → 4096 ≤ a) (hf : max ≤ fuel) :
    ∃ ok s, copyinstrLoop k (4096 * n) fuel va max = (ok, s) ∧ Reads k.mem n va s ∧
      (ok = false → max ≤ s.length ∨ userAddr k.mem n (va + s.length) = none) := by
  induction fuel generalizing va max with
  | zero => exact ⟨false, [], rfl, .nil, fun _ => .inl hf⟩
  | succ fuel ih =>
    by_cases hmax : max = 0
    · exact ⟨false, [], by rw [copyinstrLoop, if_pos hmax], .nil, fun _ => .inl hmax.le⟩
    simp only [copyinstrLoop, if_neg hmax]
    obtain ⟨hw, hnone⟩ | ⟨g, hg, hw, hall⟩ := walkaddr_page hpos va
    · rw [hw, if_pos rfl]
      exact ⟨false, [], rfl, .nil, fun _ => .inr hnone⟩
    obtain ⟨c, hc, hc0, hcl, hpage, hend⟩ := chunk_cases va (Nat.pos_of_ne_zero hmax)
    have hva := pgrounddown_add va
    rw [hw, if_neg (by omega), hc, show va - pgrounddown va = va % 4096 by omega]
    obtain ⟨got, s, hs, hpre, -, hno⟩ := takeStr_eq k.mem (4096 * g + va % 4096) c
    have hread := (Reads.page hall hpage).shorter hpre
    rw [hs]
    cases got with
    | true => exact ⟨true, s, rfl, hread, by simp⟩
    | false =>
      obtain ⟨-, hsl⟩ := hno rfl
      simp only [Bool.false_eq_true, if_false]
      rcases hend with rfl | hend
      · rw [Nat.sub_self]
        refine ⟨false, s ++ [], ?_, by rwa [append_nil], fun _ => ?_⟩
        · cases fuel <;> rfl
        · rw [append_nil]
          exact .inl hsl.ge
      · obtain ⟨ok, rest, hr, hrest, hno⟩ := @ih (va + c) (max - c) (by omega)
        rw [hend, hr]
        refine ⟨ok, s ++ rest, rfl, hread.append (by rwa [hsl]), fun hok => ?_⟩
        rw [length_append, hsl, ← Nat.add_assoc]
        exact (hno hok).imp (fun h => by omega) id

/-! ## `copyout` -/

theorem copyoutLoop_zero (pagetable fuel : Nat) : copyoutLoop pagetable src fuel k va off 0 = (true, k) := by
  cases fuel <;> rfl

theorem Wrote.zero : Wrote m n va src off 0 m := ⟨fun i hi => absurd hi (Nat.not_lt_zero i), fun _ _ => rfl⟩

/-- A write to a page of the user. -/
theorem Wrote.page (hall : ∀ y, y / 4096 = va / 4096 → userAddr m n y = some (4096 * g + y % 4096))
    (hc : va % 4096 + c ≤ 4096) : Wrote m n va src off c (UserMem.move m (4096 * g + va % 4096) src off c) := by
  refine ⟨fun i hi => ⟨_, hall (va + i) (by omega), ?_⟩, fun a ha => if_neg fun hin => ?_⟩
  · rw [UserMem.move, if_pos (by omega), show off + (4096 * g + (va + i) % 4096 - (4096 * g + va % 4096)) = off + i by omega]
  · refine ha (a - (4096 * g + va % 4096)) (by omega) ?_
    rw [hall _ (by omega)]
    exact congrArg some (by omega)

/-- Two writes, one after the other. -/
theorem Wrote.append (hm : Clean m n) (h1 : Wrote m n va src off c m1) (hu : userAddr m1 n = userAddr m n)
    (h2 : Wrote m1 n (va + c) src (off + c) j m') : Wrote m n va src off (c + j) m' := by
  refine ⟨fun i hi => ?_, fun a ha => ?_⟩
  · by_cases hic : i < c
    · obtain ⟨a, ha, hma⟩ := h1.bytes i hic
      refine ⟨a, ha, (h2.rest a fun i' hi' hc => ?_).trans hma⟩
      rw [hu] at hc
      have := hm.inj ha hc
      omega
    · obtain ⟨a, ha, hma⟩ := h2.bytes (i - c) (by omega)
      rw [hu, show va + c + (i - c) = va + i by omega] at ha
      exact ⟨a, ha, by rw [hma, show off + c + (i - c) = off + i by omega]⟩
  · refine (h2.rest a fun i hi hc => ?_).trans (h1.rest a fun i hi => ha i (by omega))
    rw [hu, Nat.add_assoc] at hc
    exact ha (c + i) (by omega) hc

/-- A write to user memory leaves the page table as it is. -/
theorem Wrote.table (hm : Clean m n) (h : Wrote m n va src off j m') :
    tables m' n = tables m n ∧ ∀ v, pteAt m' n v = pteAt m n v := by
  have hf : Frame ((Multiset.range j).map fun i => (userAddr m n (va + i)).getD 0 / 4096) m m' := fun x hx => by
    refine h.rest x fun i hi hc => hx (mem_map.mpr ⟨i, mem_range.mpr hi, ?_⟩)
    rw [hc, getD_some]
  obtain ⟨ht, hpte, -, -⟩ := tables_frame hf fun q hq hS => by
    obtain ⟨i, hi, rfl⟩ := mem_map.mp hS
    obtain ⟨a, ha, -⟩ := h.bytes i (mem_range.mp hi)
    rw [ha, getD_some] at hq
    exact hm.table ha hq
  exact ⟨ht, hpte⟩

theorem Wrote.userAddr (hm : Clean m n) (h : Wrote m n va src off j m') : Vm.userAddr m' n = Vm.userAddr m n := by
  funext x
  simp only [Vm.userAddr, (h.table hm).2]

theorem Wrote.clean (hm : Clean m n) (h : Wrote m n va src off j m') : Clean m' n := by
  have hu := h.userAddr hm
  refine ⟨fun hx => hm.pos (hu ▸ hx), fun hx => ?_, fun hx hy => hm.inj (hu ▸ hx) (hu ▸ hy)⟩
  rw [(h.table hm).1]
  exact hm.table (hu ▸ hx)

theorem copyoutLoop_wrote (hm : Clean k.mem n) (hf : len ≤ fuel) :
    ∃ ok k' j, copyoutLoop (4096 * n) src fuel k va off len = (ok, k') ∧ k'.freelist = k.freelist ∧
      Wrote k.mem n va src off j k'.mem ∧ j ≤ len ∧
      (ok = true → j = len) ∧ (ok = false → j < len ∧ userAddr k.mem n (va + j) = none) := by
  induction fuel generalizing k va off len with
  | zero =>
    obtain rfl := Nat.le_zero.mp hf
    exact ⟨true, k, 0, rfl, rfl, .zero, le_refl _, fun _ => rfl, by simp⟩
  | succ fuel ih =>
    by_cases hlen : len = 0
    · subst hlen
      exact ⟨true, k, 0, copyoutLoop_zero _ _, rfl, .zero, le_refl _, fun _ => rfl, by simp⟩
    simp only [copyoutLoop, if_neg hlen]
    obtain ⟨hw, hnone⟩ | ⟨g, hg, hw, hall⟩ := walkaddr_page hm.pos va
    · rw [hw, if_pos rfl]
      exact ⟨false, k, 0, rfl, rfl, .zero, Nat.zero_le _, by simp, fun _ => ⟨Nat.pos_of_ne_zero hlen, hnone⟩⟩
    obtain ⟨c, hc, hc0, hcl, hpage, hend⟩ := chunk_cases va (Nat.pos_of_ne_zero hlen)
    have hva := pgrounddown_add va
    rw [hw, if_neg (by omega), hc, show va - pgrounddown va = va % 4096 by omega]
    have h1 : Wrote k.mem n va src off c (UserMem.move k.mem (4096 * g + va % 4096) src off c) := .page hall hpage
    generalize UserMem.move k.mem (4096 * g + va % 4096) src off c = m1 at h1 ⊢
    rcases hend with rfl | hend
    · rw [Nat.sub_self, copyoutLoop_zero]
      exact ⟨true, _, c, rfl, rfl, h1, le_refl _, fun _ => rfl, by simp⟩
    · have hu := h1.userAddr hm
      obtain ⟨ok, k', j, hk', hfl, h2, hle, hyes, hno⟩ := @ih { k with mem := m1 } (va + c) (off + c) (len - c)
        (h1.clean hm) (by omega)
      rw [hend, hk']
      refine ⟨ok, k', c + j, rfl, hfl, h1.append hm hu h2, by omega, fun hok => ?_, fun hok => ?_⟩
      · have := hyes hok
        omega
      · obtain ⟨hlt, hnone⟩ := hno hok
        rw [hu, Nat.add_assoc] at hnone
        exact ⟨by omega, hnone⟩

/-- The user's bytes after a write. -/
theorem Wrote.ubyte (hm : Clean m n) (h : Wrote m n va src off j m') (x : Nat) :
    Vm.ubyte m' n x = if va ≤ x ∧ x < va + j then some (src (off + (x - va))) else Vm.ubyte m n x := by
  rw [Vm.ubyte, Vm.ubyte, h.userAddr hm]
  split
  · rename_i hx
    obtain ⟨a, ha, hma⟩ := h.bytes (x - va) (by omega)
    rw [Nat.add_sub_cancel' hx.1] at ha
    rw [ha, map_some, hma]
  · rename_i hx
    cases ha : Vm.userAddr m n x with
    | none => rfl
    | some a =>
      rw [map_some, map_some, h.rest a fun i hi hc => ?_]
      have := hm.inj ha hc
      omega

theorem Wrote.congr {src' : Bytes} {off' : Nat} (h : Wrote m n va src off j m')
    (hsrc : ∀ i < j, src (off + i) = src' (off' + i)) : Wrote m n va src' off' j m' :=
  ⟨fun i hi => (h.bytes i hi).imp fun _ ha => ⟨ha.1, ha.2.trans (hsrc i hi)⟩, h.rest⟩

/-! ## Pages that are kept, and fresh ones -/

theorem Keeps.userAddr (h : Keeps n U C m m') (hx : x / 4096 < VPAGES) (hC : x / 4096 ∉ C) :
    Vm.userAddr m' n x = Vm.userAddr m n x := by
  rw [Vm.userAddr, Vm.userAddr, h.pte _ hx hC]

theorem Keeps.userAddr_eq (h : Keeps n U ∅ m m') : Vm.userAddr m' n = Vm.userAddr m n := by
  funext x
  by_cases hx : x < MAXVA
  · exact h.userAddr (by simp only [VPAGES, MAXVA] at hx ⊢; omega) (Finset.notMem_empty _)
  · rw [Vm.userAddr, Vm.userAddr, if_neg fun hc => hx hc.1, if_neg fun hc => hx hc.1]

theorem Keeps.ubyte (h : Keeps n U C m m') (hx : x / 4096 < VPAGES) (hU : x / 4096 ∈ U)
    (hC : x / 4096 ∉ C) : Vm.ubyte m' n x = Vm.ubyte m n x := by
  rw [Vm.ubyte, Vm.ubyte, h.userAddr hx hC]
  cases ha : Vm.userAddr m n x with
  | none => rfl
  | some a =>
    obtain ⟨-, ha⟩ := ite_none_right_eq_some.mp ha
    have := pte2pa_eq (pteAt m n (x / 4096))
    rw [map_some, map_some, h.bytes _ hU hC a (by rw [← some.inj ha]; omega)]

theorem Fresh.ubyte (h : Fresh m n v) (hv : v < 2 ^ 26) (hx : x / 4096 = v) : Vm.ubyte m n x = some 0 := by
  have hflag : ∀ f : Pte, 0x3FF &&& f = f → pteAt m n v &&& f = pteFlags (pteAt m n v) &&& f := fun f hf => by
    rw [pteFlags, BitVec.and_assoc, hf]
  have hV : pteAt m n v &&& PTE_V ≠ 0 := by
    rw [hflag _ (by decide), h.1]
    decide
  have hU : pteAt m n v &&& PTE_U ≠ 0 := by
    rw [hflag _ (by decide), h.1]
    decide
  have := pte2pa_eq (pteAt m n v)
  rw [Vm.ubyte, userAddr, hx, if_pos ⟨by simp only [MAXVA]; omega, hV, hU⟩, map_some, h.2 _ (by omega)]

/-! ## The calls -/

/-- The user reaches the `len` bytes from `va` on. -/
def Reachable (m : Bytes) (n va len : Nat) : Prop := ∀ i < len, userAddr m n (va + i) ≠ none

theorem copyin_reads (hpos : ∀ {x a}, userAddr k.mem n x = some a → 4096 ≤ a) (va len : Nat) :
    ∃ ok s, copyin k (4096 * n) va len = (ok, s) ∧ (ok = true ↔ Reachable k.mem n va len) ∧
      Reads k.mem n va s ∧ s.length ≤ len ∧ (ok = true → s.length = len) := by
  obtain ⟨ok, s, hs, hread, hle, hyes, hno⟩ := copyinLoop_reads hpos (le_refl len)
  refine ⟨ok, s, hs, ⟨fun hok i hi => hread.reach (by rwa [hyes hok]), fun hr => by_contra fun hok => ?_⟩, hread, hle, hyes⟩
  obtain ⟨hlt, hnone⟩ := hno (Bool.eq_false_of_not_eq_true hok)
  exact hr _ hlt hnone

theorem copyout_wrote (hm : Clean k.mem n) (va : Nat) (src : Bytes) (len : Nat) :
    ∃ ok k' j, copyout k (4096 * n) va src len = (ok, k') ∧ (ok = true ↔ Reachable k.mem n va len) ∧
      k'.freelist = k.freelist ∧ Wrote k.mem n va src 0 j k'.mem ∧ j ≤ len ∧ (ok = true → j = len) := by
  obtain ⟨ok, k', j, hk', hfl, hw, hle, hyes, hno⟩ := @copyoutLoop_wrote k src n va 0 len len hm (le_refl len)
  refine ⟨ok, k', j, hk', ⟨fun hok i hi hc => ?_, fun hr => by_contra fun hok => ?_⟩, hfl, hw, hle, hyes⟩
  · obtain ⟨a, ha, -⟩ := hw.bytes i (by rwa [hyes hok])
    exact some_ne_none a (ha.symm.trans hc)
  · obtain ⟨hlt, hnone⟩ := hno (Bool.eq_false_of_not_eq_true hok)
    exact hr _ hlt hnone

/-- What has been copied out is copied in. -/
theorem Wrote.copyin (hm : Clean k.mem n) {k' : Kmem} (h : Wrote k.mem n va src 0 len k'.mem) :
    Vm.copyin k' (4096 * n) va len = (true, (List.range len).map src) := by
  have hu := h.userAddr hm
  obtain ⟨ok, s, hs, hok, hread, -, hlen⟩ := copyin_reads (k := k') (h.clean hm).pos va len
  have htrue : ok = true := hok.mpr fun i hi hc => by
    obtain ⟨a, ha, -⟩ := h.bytes i hi
    rw [hu, ha] at hc
    cases hc
  rw [hs, htrue]
  refine congrArg (Prod.mk true) (ext_getElem? fun i => ?_)
  by_cases hi : i < len
  · obtain ⟨a, ha, hma⟩ := h.bytes i hi
    rw [hread i (by rwa [hlen htrue]), Vm.ubyte, hu, ha, map_some, hma, getElem?_map, getElem?_range hi,
      map_some, Nat.zero_add]
  · rw [getElem?_eq_none (by rw [hlen htrue]; omega),
      getElem?_eq_none (by rw [length_map, length_range]; omega)]

theorem copyinstr_reads (hpos : ∀ {x a}, userAddr k.mem n x = some a → 4096 ≤ a) (va max : Nat) :
    ∃ ok s, copyinstr k (4096 * n) va max = (ok, s) ∧ Reads k.mem n va s ∧ s.length ≤ max ∧
      (ok = true ↔ ∃ i < max, ubyte k.mem n (va + i) = some 0 ∧ Reachable k.mem n va i) ∧
      (ok = true → ∃ t, s = t ++ [0] ∧ 0 ∉ t) := by
  obtain ⟨ok, s, hs, hread, hstop⟩ := @copyinstrLoop_reads k n va max max hpos (le_refl max)
  obtain ⟨_, _, hs', hyes, hno⟩ := copyinstrLoop_ends (k := k) (4096 * n) max va max
  have hle := length_copyinstrLoop (k := k) (4096 * n) max va max
  rw [hs] at hle hs'
  cases hs'
  refine ⟨ok, s, hs, hread, hle, ⟨fun hok => ?_, fun ⟨i, hi, hz, hr⟩ => by_contra fun hok => ?_⟩, hyes⟩
  · obtain ⟨t, rfl, -⟩ := hyes hok
    rw [length_append, length_singleton] at hle
    refine ⟨t.length, hle, ?_, fun i hi => hread.reach (by rw [length_append]; omega)⟩
    rw [← hread t.length (by rw [length_append, length_singleton]; omega), getElem?_concat_length]
  · have hfalse := Bool.eq_false_of_not_eq_true hok
    by_cases his : i < s.length
    · rw [← hread i his] at hz
      exact hno hfalse (mem_of_getElem? hz)
    -- the loop has stopped before the zero
    rcases hstop hfalse with hstop | hstop
    · omega
    · rcases Nat.lt_or_eq_of_le (Nat.not_lt.mp his) with hlt | rfl
      · exact hr _ hlt hstop
      · rw [ubyte, hstop] at hz
        cases hz

/-- The copies are those of the bytes the user reaches, in order; a call fails at the
first byte out of reach. What `copyout` has written, `copyin` reads. -/
theorem user_copies (h : Clean k.mem n) (va len : Nat) (src : Bytes) :
    (∃ ok s, copyin k (4096 * n) va len = (ok, s) ∧ (ok = true ↔ Reachable k.mem n va len) ∧
      Reads k.mem n va s ∧ s.length ≤ len ∧ (ok = true → s.length = len)) ∧
    (∃ ok k' j, copyout k (4096 * n) va src len = (ok, k') ∧ (ok = true ↔ Reachable k.mem n va len) ∧
      k'.freelist = k.freelist ∧ Wrote k.mem n va src 0 j k'.mem ∧ j ≤ len ∧ (ok = true → j = len) ∧
      (ok = true → copyin k' (4096 * n) va len = (true, (List.range len).map src))) ∧
    ∃ ok s, copyinstr k (4096 * n) va len = (ok, s) ∧ Reads k.mem n va s ∧ s.length ≤ len ∧
      (ok = true ↔ ∃ i < len, ubyte k.mem n (va + i) = some 0 ∧ Reachable k.mem n va i) ∧
      (ok = true → ∃ t, s = t ++ [0] ∧ 0 ∉ t) := by
  refine ⟨copyin_reads h.pos va len, ?_, copyinstr_reads h.pos va len⟩
  obtain ⟨ok, k', j, hk', hok, hfl, hw, hle, hyes⟩ := copyout_wrote h va src len
  exact ⟨ok, k', j, hk', hok, hfl, hw, hle, hyes, fun hok => Wrote.copyin h (hyes hok ▸ hw)⟩

/-- A page table in pages 1 to 3 that maps the virtual page 0 to the physical page `g`. -/
def onePage (g : Nat) : Bytes :=
  write64 (write64 (write64 (fun _ => 0) 4096 (pa2pte 8192 ||| PTE_V)) 8192 (pa2pte 12288 ||| PTE_V)) 12288
    (pa2pte (4096 * g) ||| (PTE_R ||| PTE_W ||| PTE_U) ||| PTE_V)

/-- The user may read and write the physical page 0, but `copyin` does not. -/
theorem copyin_page_zero : Reachable (onePage 0) 1 0 1 ∧
    copyin { mem := onePage 0, freelist := 0 } (4096 * 1) 0 1 = (false, []) := by
  refine ⟨fun i hi => ?_, by decide +kernel⟩
  obtain rfl : i = 0 := by omega
  decide +kernel

theorem onePage_ptes (hi : i ≠ 0) : ptes (onePage g) q i = 0 := by
  have hne : i.val ≠ 0 := fun hc => hi (Fin.ext hc)
  rw [ptes, entry, onePage, read64_write64_disjoint (by omega), read64_write64_disjoint (by omega),
    read64_write64_disjoint (by omega), read64, readLE_eq_of_bytes (v := 0) fun i _ => by rw [Nat.zero_div]; rfl]
  rfl

theorem onePage_next {q' : Nat} (h : next (ptes (onePage g) q i) = some q') : i = 0 := by
  by_contra hi
  rw [onePage_ptes hi] at h
  cases h

theorem onePage_pteAt (hv : v < VPAGES) (h : pteAt (onePage g) 1 v ≠ 0) : v = 0 := by
  rw [pteAt, Radix.leaf] at h
  cases hf : Radix.find next (ptes (onePage g)) 2 1 (path v) with
  | none =>
    rw [hf] at h
    exact absurd rfl h
  | some q =>
    rw [hf, elim_some] at h
    simp only [Radix.find, bind_eq_some_iff] at hf
    obtain ⟨q1, h1, q2, h2, -⟩ := hf
    refine path_inj hv (by decide) fun j hj => Eq.trans ?_ (show (0 : Fin 512) = path 0 j by simp [path])
    interval_cases j
    · exact by_contra fun hc => h (onePage_ptes hc)
    · exact onePage_next h2
    · exact onePage_next h1

theorem onePage_tables (h : q ∈ tables (onePage 4) 1) : q ≤ 3 := by
  have h1 : next (ptes (onePage 4) 1 0) = some 2 := by decide +kernel
  have h2 : next (ptes (onePage 4) 2 0) = some 3 := by decide +kernel
  rcases Radix.mem_pages_succ.mp h with rfl | ⟨i, q', hi, h⟩
  · decide
  obtain rfl := onePage_next hi
  cases hi.symm.trans h1
  rcases Radix.mem_pages_succ.mp h with rfl | ⟨i, q', hi, h⟩
  · decide
  obtain rfl := onePage_next hi
  cases hi.symm.trans h2
  rw [Radix.pages] at h
  exact (mem_singleton.mp h).le

theorem onePage_clean : Clean (onePage 4) 1 := by
  have hpage : ∀ {x a}, userAddr (onePage 4) 1 x = some a → x < 4096 ∧ a = 16384 + x := fun {x a} h => by
    obtain ⟨⟨hlt, hv, -⟩, ha⟩ := ite_none_right_eq_some.mp h
    have hx : x / 4096 = 0 := onePage_pteAt (by simp only [VPAGES, MAXVA] at hlt ⊢; omega) fun hc => hv (by rw [hc]; decide)
    have hpte : pte2pa (pteAt (onePage 4) 1 0) = 16384 := by decide +kernel
    rw [hx, hpte] at ha
    have := some.inj ha
    omega
  refine ⟨fun h => ?_, fun h hq => ?_, fun hx hy => ?_⟩
  · have := hpage h
    omega
  · have := hpage h
    have := onePage_tables hq
    omega
  · have := hpage hx
    have := hpage hy
    omega

/-- Two bytes are written at the virtual address 5 and read again. -/
theorem user_copies_onePage : ∃ k', copyout { mem := onePage 4, freelist := 0 } (4096 * 1) 5 (fun i => BitVec.ofNat 8 i) 2 = (true, k') ∧
    copyin k' (4096 * 1) 5 2 = (true, [0, 1]) := by
  obtain ⟨-, ⟨ok, k', j, hk', hok, -, -, -, -, hin⟩, -⟩ := user_copies (k := { mem := onePage 4, freelist := 0 })
    onePage_clean 5 2 fun i => BitVec.ofNat 8 i
  have htrue : ok = true := hok.mpr fun i hi => by
    obtain rfl | rfl : i = 0 ∨ i = 1 := by omega
    · decide +kernel
    · decide +kernel
  exact ⟨k', by rw [hk', htrue], hin htrue⟩

end Xv6.Vm
