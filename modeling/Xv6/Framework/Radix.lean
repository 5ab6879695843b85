import Mathlib

/-!
# Radix trees of tables

A table has `N` entries, and an entry may point to another table. A tree of
height `l` under a table `p` is reached by following `l` pointers: `pages` are
its tables, `interior` those above the bottom ones, and `find` is the bottom
table on a path. What an operation does to such a tree is stated of its tables
only, so that the tables can be anywhere, in one storage with others:

* a change that keeps the interior tables keeps the tree (`pages_congr`,
  `find_congr`, `Dir.congr`), and so does a change of one bottom table, when no
  table is in the tree twice (`find_notMem_interior`);
* a change below one entry of the top table changes the tree there only
  (`pages_descend`, `find_descend`, `Dir.descend`);
* an empty table linked into a free entry adds itself (`pages_link`,
  `leaf_link`).
-/

namespace Xv6.Framework.Radix

open Function Multiset Option

variable {ι E : Type*} {N : ℕ} (next : E → Option ι)

/-- The tables of the tree of height `l` under `p`. -/
def pages (t : ι → Fin N → E) : ℕ → ι → Multiset ι
  | 0, p => {p}
  | l + 1, p => p ::ₘ ∑ i, (next (t p i)).elim 0 (pages t l)

/-- The tables above the bottom ones. -/
def interior (t : ι → Fin N → E) : ℕ → ι → Multiset ι
  | 0, _ => 0
  | l + 1, p => p ::ₘ ∑ i, (next (t p i)).elim 0 (interior t l)

/-- The bottom table on the path `f`, which takes the entry `f j` of a table
at height `j`. -/
def find (t : ι → Fin N → E) : ℕ → ι → (ℕ → Fin N) → Option ι
  | 0, p, _ => some p
  | l + 1, p, f => (next (t p (f (l + 1)))).bind fun q => find t l q f

/-- The entry of the bottom table on the path `f`, or `z` if there is no such
table. -/
def leaf (z : E) (t : ι → Fin N → E) (l : ℕ) (p : ι) (f : ℕ → Fin N) : E :=
  (find next t l p f).elim z fun q => t q (f 0)

/-- The pointers of the interior tables satisfy `ok`. -/
def Dir (ok : E → Prop) (t : ι → Fin N → E) : ℕ → ι → Prop
  | 0, _ => True
  | l + 1, p => ∀ i q, next (t p i) = some q → ok (t p i) ∧ Dir ok t l q

variable {next} {t t' : ι → Fin N → E} {ok : E → Prop} {z : E} {l : ℕ} {p q r : ι} {i j : Fin N} {f g : ℕ → Fin N}
  {is : List (Fin N)}

/-! ## The tables below an entry -/

theorem mem_pages_self : p ∈ pages next t l p := by
  cases l with
  | zero => exact mem_singleton_self p
  | succ l => exact mem_cons_self p _

theorem interior_le : interior next t l p ≤ pages next t l p := by
  induction l generalizing p with
  | zero => exact Multiset.zero_le _
  | succ l ih =>
    refine (cons_le_cons_iff p).mpr (Finset.sum_le_sum fun i _ => ?_)
    cases next (t p i) with
    | none => exact le_refl _
    | some q => exact ih

theorem pages_child_le (h : next (t p i) = some q) :
    pages next t l q ≤ ∑ j, (next (t p j)).elim 0 (pages next t l) := by
  have := Finset.single_le_sum (f := fun j => (next (t p j)).elim 0 (pages next t l))
    (fun j _ => Multiset.zero_le _) (Finset.mem_univ i)
  simpa only [h, elim_some] using this

theorem pages_le_succ (h : next (t p i) = some q) : pages next t l q ≤ pages next t (l + 1) p :=
  (pages_child_le h).trans (le_cons_self _ p)

/-- A table of the tree is the top one or below one of its entries. -/
theorem mem_pages_succ : r ∈ pages next t (l + 1) p ↔ r = p ∨ ∃ i q, next (t p i) = some q ∧ r ∈ pages next t l q := by
  rw [pages, mem_cons, mem_sum]
  refine or_congr_right ⟨fun ⟨i, _, hi⟩ => ?_, fun ⟨i, q, hq, hr⟩ => ⟨i, Finset.mem_univ i, by rwa [hq]⟩⟩
  cases hq : next (t p i) with
  | none =>
    rw [hq] at hi
    exact absurd hi (notMem_zero r)
  | some q =>
    rw [hq] at hi
    exact ⟨i, q, hq, hi⟩

theorem mem_pages_child (h : next (t p i) = some q) (hr : r ∈ pages next t l q) :
    r ∈ pages next t (l + 1) p :=
  mem_of_le (pages_le_succ h) hr

theorem mem_interior_child (h : next (t p i) = some q) (hr : r ∈ interior next t l q) :
    r ∈ interior next t (l + 1) p := by
  refine mem_cons_of_mem (mem_sum.mpr ⟨i, Finset.mem_univ i, ?_⟩)
  rw [h]
  exact hr

theorem pages_child_nodup (hn : (pages next t (l + 1) p).Nodup) (h : next (t p i) = some q) :
    (pages next t l q).Nodup :=
  nodup_of_le (pages_child_le h) (nodup_cons.mp hn).2

theorem notMem_pages_child (hn : (pages next t (l + 1) p).Nodup) (h : next (t p i) = some q) :
    p ∉ pages next t l q := fun hp =>
  (nodup_cons.mp hn).1 (mem_of_le (pages_child_le h) hp)

/-- The tables below different entries are different. -/
theorem pages_child_disjoint (hn : (pages next t (l + 1) p).Nodup) (hij : i ≠ j)
    (hi : next (t p i) = some q) (hr : r ∈ pages next t l q) :
    r ∉ (next (t p j)).elim 0 (pages next t l) := by
  have hsum := (nodup_cons.mp hn).2
  rw [← Finset.add_sum_erase _ _ (Finset.mem_univ i), hi, elim_some] at hsum
  have hdis := (nodup_add.mp hsum).2.2
  refine fun hr' => disjoint_left.mp hdis hr (mem_sum.mpr ⟨j, ?_, hr'⟩)
  exact Finset.mem_erase.mpr ⟨hij.symm, Finset.mem_univ j⟩

/-! ## Changes that keep the tree -/

/-- Only the interior tables determine which tables there are. -/
theorem pages_congr (h : ∀ q ∈ interior next t l p, t' q = t q) :
    pages next t' l p = pages next t l p := by
  induction l generalizing p with
  | zero => rfl
  | succ l ih =>
    simp only [pages]
    rw [h p (mem_cons_self p _)]
    congr 1
    refine Finset.sum_congr rfl fun i _ => ?_
    cases hi : next (t p i) with
    | none => rfl
    | some q => exact ih fun r hr => h r (mem_interior_child hi hr)

theorem find_congr (h : ∀ q ∈ interior next t l p, t' q = t q) (f : ℕ → Fin N) :
    find next t' l p f = find next t l p f := by
  induction l generalizing p with
  | zero => rfl
  | succ l ih =>
    simp only [find]
    rw [h p (mem_cons_self p _)]
    cases hi : next (t p (f (l + 1))) with
    | none => rfl
    | some q => exact ih fun r hr => h r (mem_interior_child hi hr)

theorem Dir.congr (hd : Dir next ok t l p) (h : ∀ q ∈ interior next t l p, t' q = t q) :
    Dir next ok t' l p := by
  induction l generalizing p with
  | zero => trivial
  | succ l ih =>
    intro i q hq
    rw [h p (mem_cons_self p _)] at hq ⊢
    exact ⟨(hd i q hq).1, ih (hd i q hq).2 fun r hr => h r (mem_interior_child hq hr)⟩

theorem find_mem (h : find next t l p f = some q) : q ∈ pages next t l p := by
  induction l generalizing p with
  | zero => exact mem_singleton.mpr (Option.some.inj h).symm
  | succ l ih =>
    obtain ⟨r, hr, hq⟩ := bind_eq_some_iff.mp h
    exact mem_pages_child hr (ih hq)

/-- The entries of bottom tables are not changed by what keeps all the tables. -/
theorem leaf_congr (h : ∀ q ∈ pages next t l p, t' q = t q) (f : ℕ → Fin N) :
    leaf next z t' l p f = leaf next z t l p f := by
  simp only [leaf]
  rw [find_congr (fun q hq => h q (mem_of_le interior_le hq))]
  cases hf : find next t l p f with
  | none => rfl
  | some q => simp only [elim_some, h q (find_mem hf)]

/-- Only the part of a path within the tree matters. -/
theorem find_congr_path (h : ∀ j ≤ l, f j = g j) :
    find next t l p f = find next t l p g := by
  induction l generalizing p with
  | zero => rfl
  | succ l ih =>
    simp only [find]
    rw [h (l + 1) (le_refl _)]
    cases next (t p (g (l + 1))) with
    | none => rfl
    | some q => exact ih fun j hj => h j (by omega)

theorem leaf_congr_path (h : ∀ j ≤ l, f j = g j) :
    leaf next z t l p f = leaf next z t l p g := by
  simp only [leaf]
  rw [find_congr_path h, h 0 (Nat.zero_le l)]

/-- The entries below entry `i` of the top table. -/
theorem leaf_succ (h : next (t p i) = some q) :
    leaf next z t (l + 1) p (update f (l + 1) i) = leaf next z t l q f := by
  have hf : ∀ j ≤ l, update f (l + 1) i j = f j := fun j hj =>
    update_of_ne (by omega) _ _
  have hfind : find next t (l + 1) p (update f (l + 1) i) = find next t l q f := by
    simp only [find, update_self, h, bind_some]
    exact find_congr_path hf
  simp only [leaf]
  rw [hfind, hf 0 (Nat.zero_le l)]

/-- A bottom table is not an interior one. -/
theorem find_notMem_interior (hn : (pages next t l p).Nodup)
    (h : find next t l p f = some q) : q ∉ interior next t l p := by
  induction l generalizing p with
  | zero => exact notMem_zero q
  | succ l ih =>
    obtain ⟨r, hr, hq⟩ := bind_eq_some_iff.mp h
    intro hmem
    rcases mem_cons.mp hmem with rfl | hmem
    · exact notMem_pages_child hn hr (find_mem hq)
    · obtain ⟨j, -, hj⟩ := mem_sum.mp hmem
      by_cases hji : f (l + 1) = j
      · rw [← hji, hr] at hj
        exact ih (pages_child_nodup hn hr) hq hj
      · refine pages_child_disjoint hn hji hr (find_mem hq) ?_
        cases hn' : next (t p j) with
        | none => rw [hn'] at hj; exact hj
        | some r' => rw [hn'] at hj; exact mem_of_le interior_le hj

/-- Different paths lead to different bottom tables. -/
theorem find_inj (hn : (pages next t l p).Nodup) (hf : find next t l p f = some q)
    (hg : find next t l p g = some q) : ∀ j, 0 < j → j ≤ l → f j = g j := by
  induction l generalizing p with
  | zero => intro j h1 h2; omega
  | succ l ih =>
    obtain ⟨r, hr, hq⟩ := bind_eq_some_iff.mp hf
    obtain ⟨r', hr', hq'⟩ := bind_eq_some_iff.mp hg
    have hfg : f (l + 1) = g (l + 1) := by
      by_contra hne
      refine pages_child_disjoint hn hne hr (find_mem hq) ?_
      rw [hr']
      exact find_mem hq'
    rw [hfg, hr'] at hr
    cases hr
    intro j h1 h2
    rcases Nat.lt_or_ge l j with hj | hj
    · rw [show j = l + 1 by omega]
      exact hfg
    · exact ih (pages_child_nodup hn hr') hq hq' j h1 hj

/-! ## A change of the entry on a path -/

/-- A change of a bottom table keeps the interior ones. -/
theorem interior_set (hn : (pages next t l p).Nodup) (hf : find next t l p f = some q)
    (hr : ∀ r ∈ pages next t l p, r ≠ q → t' r = t r) : ∀ r ∈ interior next t l p, t' r = t r :=
  fun r hr' => hr r (mem_of_le interior_le hr') fun h => find_notMem_interior hn hf (h ▸ hr')

/-- The entry on the path `f` is set: the tree stays, and no other entry
changes. -/
theorem leaf_set {e : E} (hn : (pages next t l p).Nodup) (hf : find next t l p f = some q)
    (hq : t' q = update (t q) (f 0) e) (hr : ∀ r ∈ pages next t l p, r ≠ q → t' r = t r) :
    leaf next z t' l p g = if ∀ j ≤ l, g j = f j then e else leaf next z t l p g := by
  have hint := interior_set hn hf hr
  simp only [leaf]
  rw [find_congr hint]
  split
  · rename_i hgf
    have hfg : find next t l p g = find next t l p f := find_congr_path hgf
    rw [hfg, hf, elim_some, hq, hgf 0 (Nat.zero_le l), update_self]
  · rename_i hgf
    cases hg : find next t l p g with
    | none => rfl
    | some r =>
      simp only [elim_some]
      by_cases hrq : r = q
      · subst hrq
        have hne : g 0 ≠ f 0 := fun h0 => hgf fun j hj => by
          rcases Nat.eq_zero_or_pos j with rfl | hpos
          · exact h0
          · exact find_inj hn hg hf j hpos hj
        rw [hq, update_of_ne hne]
      · rw [hr r (find_mem hg) hrq]

/-! ## Changes below one entry -/

section Descend

variable (hn : (pages next t (l + 1) p).Nodup) (hq : next (t p i) = some q)
  (hoth : ∀ r ∈ pages next t (l + 1) p, r ∉ pages next t l q → t' r = t r)
include hn hq hoth

theorem top_descend : t' p = t p := hoth p mem_pages_self (notMem_pages_child hn hq)

theorem sibling_descend (hij : i ≠ j) (hr : next (t p j) = some r) :
    ∀ r' ∈ pages next t l r, t' r' = t r' := fun r' hr' =>
  hoth r' (mem_pages_child hr hr') fun h => pages_child_disjoint hn hij hq h (by rw [hr]; exact hr')

theorem pages_descend :
    pages next t' (l + 1) p + pages next t l q = pages next t (l + 1) p + pages next t' l q := by
  simp only [pages]
  rw [top_descend hn hq hoth, ← Finset.add_sum_erase _ _ (Finset.mem_univ i),
    ← Finset.add_sum_erase _ (fun j => (next (t p j)).elim 0 (pages next t l)) (Finset.mem_univ i), hq]
  have hrest : ∑ j ∈ Finset.univ.erase i, (next (t p j)).elim 0 (pages next t' l) =
      ∑ j ∈ Finset.univ.erase i, (next (t p j)).elim 0 (pages next t l) := by
    refine Finset.sum_congr rfl fun j hj => ?_
    cases hr : next (t p j) with
    | none => rfl
    | some r =>
      have := sibling_descend hn hq hoth (Finset.ne_of_mem_erase hj).symm hr
      exact pages_congr fun r' hr' => this r' (mem_of_le interior_le hr')
  rw [hrest]
  simp only [elim_some, ← singleton_add]
  abel

theorem find_descend (f : ℕ → Fin N) : find next t' (l + 1) p f =
    if f (l + 1) = i then find next t' l q f else find next t (l + 1) p f := by
  simp only [find]
  rw [top_descend hn hq hoth]
  split
  · rename_i hf
    rw [hf, hq, bind_some]
  · rename_i hf
    cases hr : next (t p (f (l + 1))) with
    | none => rfl
    | some r =>
      have := sibling_descend hn hq hoth (Ne.symm hf) hr
      exact find_congr (fun r' hr' => this r' (mem_of_le interior_le hr')) f

theorem leaf_descend (hl : ∀ f, leaf next z t' l q f = leaf next z t l q f) (f : ℕ → Fin N) :
    leaf next z t' (l + 1) p f = leaf next z t (l + 1) p f := by
  by_cases hf : f (l + 1) = i
  · have h1 : find next t' (l + 1) p f = find next t' l q f := by
      rw [find_descend hn hq hoth, if_pos hf]
    have h2 : find next t (l + 1) p f = find next t l q f := by
      simp [find, hf, hq]
    have := hl f
    simp only [leaf] at this ⊢
    rw [h1, h2, this]
  · simp only [leaf]
    rw [find_descend hn hq hoth, if_neg hf]
    cases hr : find next t (l + 1) p f with
    | none => rfl
    | some r =>
      obtain ⟨r1, hr1, hr2⟩ := bind_eq_some_iff.mp hr
      simp only [elim_some]
      rw [sibling_descend hn hq hoth (Ne.symm hf) hr1 r (find_mem hr2)]

theorem Dir.descend (hd : Dir next ok t (l + 1) p) (hd' : Dir next ok t' l q) :
    Dir next ok t' (l + 1) p := by
  intro j r hr
  rw [top_descend hn hq hoth] at hr ⊢
  by_cases hij : i = j
  · subst hij
    rw [hq] at hr
    cases hr
    exact ⟨(hd i q hq).1, hd'⟩
  · have := sibling_descend hn hq hoth hij hr
    exact ⟨(hd j r hr).1, (hd j r hr).2.congr fun r' hr' => this r' (mem_of_le interior_le hr')⟩

end Descend

/-! ## Linking an empty table -/

theorem pages_empty (h : ∀ j, next (t q j) = none) : pages next t l q = {q} := by
  cases l with
  | zero => rfl
  | succ l => simp [pages, h]

theorem leaf_empty (h : ∀ j, t q j = z) (hz : next z = none) (f : ℕ → Fin N) :
    leaf next z t l q f = z := by
  cases l with
  | zero => simp [leaf, find, h]
  | succ l => simp [leaf, find, h, hz]

theorem Dir.empty (h : ∀ j, next (t q j) = none) : Dir next ok t l q := by
  cases l with
  | zero => trivial
  | succ l =>
    intro i r hr
    rw [h i] at hr
    cases hr

section Link

variable {e : E} (hn : (pages next t (l + 1) p).Nodup) (hi : next (t p i) = none) (he : next e = some q)
  (hz : next z = none) (hp : t' p = update (t p) i e) (hq : ∀ j, t' q j = z)
  (hoth : ∀ r ∈ pages next t (l + 1) p, r ≠ p → t' r = t r)
include hn hp hoth

theorem child_link (hr : next (t' p j) = some r) (hji : j ≠ i) :
    next (t p j) = some r ∧ ∀ r' ∈ pages next t l r, t' r' = t r' := by
  rw [hp, update_of_ne hji] at hr
  exact ⟨hr, fun r' hr' => hoth r' (mem_pages_child hr hr') fun h => notMem_pages_child hn hr (h ▸ hr')⟩

include hi he hz hq

theorem pages_link : pages next t' (l + 1) p = q ::ₘ pages next t (l + 1) p := by
  simp only [pages]
  rw [← Finset.add_sum_erase _ _ (Finset.mem_univ i),
    ← Finset.add_sum_erase _ (fun j => (next (t p j)).elim 0 (pages next t l)) (Finset.mem_univ i), hi]
  have hi' : next (t' p i) = some q := by rw [hp, update_self, he]
  have hrest : ∑ j ∈ Finset.univ.erase i, (next (t' p j)).elim 0 (pages next t' l) =
      ∑ j ∈ Finset.univ.erase i, (next (t p j)).elim 0 (pages next t l) := by
    refine Finset.sum_congr rfl fun j hj => ?_
    have hji := Finset.ne_of_mem_erase hj
    cases hr : next (t' p j) with
    | none =>
      rw [hp, update_of_ne hji] at hr
      rw [hr]
      rfl
    | some r =>
      obtain ⟨h1, h2⟩ := child_link hn hp hoth hr hji
      rw [h1]
      exact pages_congr fun r' hr' => h2 r' (mem_of_le interior_le hr')
  rw [hi', hrest, elim_some, pages_empty fun j => by rw [hq j, hz]]
  simp only [elim_none, ← singleton_add]
  abel

theorem leaf_link (f : ℕ → Fin N) : leaf next z t' (l + 1) p f = leaf next z t (l + 1) p f := by
  by_cases hf : f (l + 1) = i
  · have h1 : find next t' (l + 1) p f = find next t' l q f := by
      simp only [find, hf]
      rw [hp, update_self, he, bind_some]
    have h2 : find next t (l + 1) p f = none := by simp [find, hf, hi]
    have := leaf_empty (l := l) hq hz f
    simp only [leaf] at this ⊢
    rw [h1, h2, this]
    rfl
  · have hpf : next (t' p (f (l + 1))) = next (t p (f (l + 1))) := by
      rw [hp, update_of_ne hf]
    simp only [leaf, find]
    cases hr : next (t' p (f (l + 1))) with
    | none =>
      rw [hpf] at hr
      rw [hr]
      rfl
    | some r =>
      obtain ⟨h1, h2⟩ := child_link hn hp hoth hr hf
      rw [h1]
      exact leaf_congr h2 f

theorem Dir.link (hd : Dir next ok t (l + 1) p) (hok : ok e) : Dir next ok t' (l + 1) p := by
  intro j r hr
  by_cases hji : j = i
  · subst hji
    rw [hp, update_self] at hr ⊢
    rw [he] at hr
    cases hr
    exact ⟨hok, Dir.empty fun j => by rw [hq j, hz]⟩
  · obtain ⟨h1, h2⟩ := child_link hn hp hoth hr hji
    refine ⟨?_, (hd j r h1).2.congr fun r' hr' => h2 r' (mem_of_le interior_le hr')⟩
    rw [hp, update_of_ne hji]
    exact (hd j r h1).1

end Link

/-! ## The tables below some of the entries -/

/-- The tables below the entries `is` of `p`. -/
def below (next : E → Option ι) (t : ι → Fin N → E) (l : ℕ) (p : ι) (is : List (Fin N)) : Multiset ι :=
  (is.map fun i => (next (t p i)).elim 0 (pages next t l)).sum

@[simp] theorem below_nil : below next t l p [] = 0 := rfl

theorem below_cons (is : List (Fin N)) :
    below next t l p (i :: is) = (next (t p i)).elim 0 (pages next t l) + below next t l p is := rfl

theorem pages_eq_below : pages next t (l + 1) p = p ::ₘ below next t l p (List.finRange N) := by
  rw [pages, below, Fin.sum_univ_def]

theorem pages_le_below (hi : i ∈ is) (hq : next (t p i) = some q) :
    pages next t l q ≤ below next t l p is := by
  induction is with
  | nil => cases hi
  | cons j is ih =>
    rw [below_cons]
    rcases List.mem_cons.mp hi with rfl | hi
    · rw [hq]
      exact Multiset.le_add_right _ _
    · exact (ih hi).trans (Multiset.le_add_left _ _)

theorem below_congr (hp : ∀ i ∈ is, t' p i = t p i)
    (h : ∀ r ∈ below next t l p is, t' r = t r) : below next t' l p is = below next t l p is := by
  induction is with
  | nil => rfl
  | cons i is ih =>
    rw [below_cons] at h
    rw [below_cons, below_cons, hp i List.mem_cons_self, ih (fun j hj => hp j (List.mem_cons_of_mem i hj))
      fun r hr => h r (mem_add.mpr (.inr hr))]
    cases hq : next (t p i) with
    | none => rfl
    | some q =>
      rw [hq] at h
      rw [elim_some, elim_some, pages_congr fun r hr =>
        h r (mem_add.mpr (.inl (mem_of_le interior_le hr)))]

-- the sums over the entries of a table are never to be computed in a unification
attribute [irreducible] pages interior below

end Xv6.Framework.Radix
