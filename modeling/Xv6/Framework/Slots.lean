import Mathlib

/-!
# Maps kept in slots

A table of slots, each of them empty or with a value and its key. If no two
slots have the same key (`Distinct`) the table is a map (`lookup`): a new key
in an empty slot adds a binding (`lookup_fill`), and emptying a slot removes
one (`lookup_clear`).
-/

namespace Xv6.Framework.Slots

open Function

variable {ι α κ : Type} {s : ι → Option (α × κ)} {i j : ι} {a : α} {x : κ} {y : α × κ}

/-- No two slots have the same key. -/
def Distinct (s : ι → Option (α × κ)) : Prop := ∀ ⦃i j a b x⦄, s i = some (a, x) → s j = some (b, x) → i = j

open Classical in
/-- A value with key `x`. -/
noncomputable def lookup (s : ι → Option (α × κ)) (x : κ) : Option α :=
  if h : ∃ a i, s i = some (a, x) then some h.choose else none

theorem lookup_eq_none : lookup s x = none ↔ ∀ i a, s i ≠ some (a, x) := by
  rw [lookup]
  split
  · rename_i h
    obtain ⟨a, i, hi⟩ := h
    exact iff_of_false (Option.some_ne_none _) fun hno => hno i a hi
  · rename_i h
    exact iff_of_true rfl fun i a hi => h ⟨a, i, hi⟩

theorem Distinct.lookup_eq_some (hs : Distinct s) : lookup s x = some a ↔ ∃ i, s i = some (a, x) := by
  rw [lookup]
  split
  · rename_i h
    obtain ⟨i, hi⟩ := h.choose_spec
    constructor
    · intro ha
      exact ⟨i, by rw [hi, Option.some.inj ha]⟩
    · rintro ⟨j, hj⟩
      obtain rfl := hs hi hj
      rw [hi, Option.some.injEq, Prod.mk.injEq] at hj
      rw [hj.1]
  · rename_i h
    exact iff_of_false (Option.some_ne_none _).symm fun ⟨i, hi⟩ => h ⟨a, i, hi⟩

variable [DecidableEq ι]

theorem update_some_cases (h : update s i (some (a, x)) j = some y) :
    j = i ∧ y = (a, x) ∨ j ≠ i ∧ s j = some y := by
  by_cases hj : j = i
  · rw [hj, update_self] at h
    exact .inl ⟨hj, (Option.some.inj h).symm⟩
  · rw [update_of_ne hj] at h
    exact .inr ⟨hj, h⟩

theorem update_none_cases (h : update s i none j = some y) : j ≠ i ∧ s j = some y := by
  by_cases hj : j = i
  · rw [hj, update_self] at h
    cases h
  · rw [update_of_ne hj] at h
    exact ⟨hj, h⟩

theorem Distinct.fill (hs : Distinct s) (hx : lookup s x = none) : Distinct (update s i (some (a, x))) := by
  have hnew := lookup_eq_none.mp hx
  intro j j' b b' y hj hj'
  obtain ⟨rfl, hy⟩ | ⟨-, h1⟩ := update_some_cases hj <;> obtain ⟨rfl, hy'⟩ | ⟨-, h1'⟩ := update_some_cases hj'
  · rfl
  · rw [(Prod.mk.inj hy).2] at h1'
    exact absurd h1' (hnew _ _)
  · rw [(Prod.mk.inj hy').2] at h1
    exact absurd h1 (hnew _ _)
  · exact hs h1 h1'

theorem Distinct.clear (hs : Distinct s) : Distinct (update s i none) := by
  intro j j' b b' y hj hj'
  exact hs (update_none_cases hj).2 (update_none_cases hj').2

variable [DecidableEq κ]

theorem lookup_fill (hs : Distinct s) (hi : s i = none) (hx : lookup s x = none) :
    lookup (update s i (some (a, x))) = update (lookup s) x (some a) := by
  funext y
  refine Option.ext fun b => ?_
  rw [(hs.fill hx).lookup_eq_some, update_apply]
  constructor
  · rintro ⟨j, hj⟩
    obtain ⟨-, hy⟩ | ⟨-, h1⟩ := update_some_cases hj
    · rw [(Prod.mk.inj hy).1, (Prod.mk.inj hy).2, if_pos rfl]
    · have hy : y ≠ x := by
        rintro rfl
        exact lookup_eq_none.mp hx j b h1
      rw [if_neg hy, hs.lookup_eq_some]
      exact ⟨j, h1⟩
  · split
    · rename_i hy
      intro hb
      rw [← Option.some.inj hb, hy]
      exact ⟨i, update_self ..⟩
    · intro hb
      obtain ⟨j, hj⟩ := hs.lookup_eq_some.mp hb
      refine ⟨j, ?_⟩
      rw [update_of_ne, hj]
      rintro rfl
      rw [hi] at hj
      cases hj

theorem lookup_clear (hs : Distinct s) (hi : s i = some (a, x)) :
    lookup (update s i none) = update (lookup s) x none := by
  funext y
  refine Option.ext fun b => ?_
  rw [hs.clear.lookup_eq_some, update_apply]
  constructor
  · rintro ⟨j, hj⟩
    obtain ⟨hne, hj⟩ := update_none_cases hj
    have hy : y ≠ x := by
      rintro rfl
      exact hne (hs hj hi)
    rw [if_neg hy, hs.lookup_eq_some]
    exact ⟨j, hj⟩
  · split
    · exact nofun
    · rename_i hy
      intro hb
      obtain ⟨j, hj⟩ := hs.lookup_eq_some.mp hb
      refine ⟨j, ?_⟩
      rw [update_of_ne, hj]
      rintro rfl
      rw [hi, Option.some.injEq, Prod.mk.injEq] at hj
      exact hy hj.2.symm

end Xv6.Framework.Slots
