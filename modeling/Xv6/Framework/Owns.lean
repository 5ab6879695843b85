import Mathlib

/-!
# Resources with one owner

A system hands out resources of a type `β` (blocks, pages) and records each
in a position of a type `ι` (a field, a table entry); `R i` is what position
`i` records, 0 if nothing. `Owns R U` says that the resources in use `U` are
exactly the recorded ones, each recorded once: nothing is shared and nothing
is leaked. It is kept when a fresh resource is recorded in an empty position
(`Owns.give`) and when a position is emptied and its resource released
(`Owns.take`).

Where a resource may be held by many, what each entry of a table holds is
added up; `sum_update_add` is the change of the sum when one entry changes.
-/

namespace Xv6.Framework

open Function

variable {ι β : Type} [Zero β] {R : ι → β} {U U' : β → Prop} {b : β} {i : ι}

/-- The resources `U` in use are those that the positions record, each once. -/
structure Owns (R : ι → β) (U : β → Prop) : Prop where
  used : ∀ {i}, R i ≠ 0 → U (R i)
  inj : ∀ {i j}, R i ≠ 0 → R i = R j → i = j
  owned : ∀ {b}, U b → ∃ i, R i = b
  zero : ¬ U 0

theorem Owns.fresh (h : Owns R U) (hb : b ≠ 0) (hU : ¬ U b) (i : ι) : R i ≠ b := by
  rintro rfl
  exact hU (h.used hb)

variable [DecidableEq ι]

/-- A fresh resource is recorded in an empty position. -/
theorem Owns.give (h : Owns R U) (hi : R i = 0) (hb : b ≠ 0) (hU : ¬ U b)
    (hU' : ∀ c, U' c ↔ c = b ∨ U c) : Owns (update R i b) U' where
  used {j} hj := by
    by_cases e : j = i
    · subst e; rw [update_self]; exact (hU' b).mpr (.inl rfl)
    · rw [update_of_ne e] at hj ⊢; exact (hU' _).mpr (.inr (h.used hj))
  inj {j k} hj hjk := by
    by_cases ej : j = i <;> by_cases ek : k = i
    · rw [ej, ek]
    · subst ej
      rw [update_self, update_of_ne ek] at hjk
      exact absurd hjk.symm (h.fresh hb hU k)
    · subst ek
      rw [update_self, update_of_ne ej] at hjk
      exact absurd hjk (h.fresh hb hU j)
    · rw [update_of_ne ej] at hj hjk
      rw [update_of_ne ek] at hjk
      exact h.inj hj hjk
  owned {c} hc := by
    obtain rfl | hc := (hU' c).mp hc
    · exact ⟨i, update_self ..⟩
    · obtain ⟨j, hj⟩ := h.owned hc
      refine ⟨j, ?_⟩
      rw [update_of_ne, hj]
      -- position `i` was empty, and 0 is not in use
      rintro rfl
      exact h.zero (by rwa [← hj, hi] at hc)
  zero h0 := by
    obtain h0 | h0 := (hU' 0).mp h0
    · exact hb h0.symm
    · exact h.zero h0

/-- A position is emptied, and what it recorded is released. -/
theorem Owns.take (h : Owns R U) (hi : R i ≠ 0) (hU' : ∀ c, U' c ↔ c ≠ R i ∧ U c) :
    Owns (update R i 0) U' where
  used {j} hj := by
    by_cases e : j = i
    · subst e; exact absurd (update_self ..) hj
    · rw [update_of_ne e] at hj ⊢
      exact (hU' _).mpr ⟨fun hij => e (h.inj hj hij), h.used hj⟩
  inj {j k} hj hjk := by
    by_cases ej : j = i
    · subst ej; exact absurd (update_self ..) hj
    · by_cases ek : k = i
      · subst ek; rw [hjk] at hj; exact absurd (update_self ..) hj
      · rw [update_of_ne ej] at hj hjk
        rw [update_of_ne ek] at hjk
        exact h.inj hj hjk
  owned {c} hc := by
    obtain ⟨hci, hc⟩ := (hU' c).mp hc
    obtain ⟨j, rfl⟩ := h.owned hc
    exact ⟨j, update_of_ne (fun e => hci (by rw [e])) ..⟩
  zero h0 := h.zero ((hU' 0).mp h0).2

theorem sum_update_add {ι M : Type*} [Fintype ι] [DecidableEq ι] [AddCommMonoid M] (f : ι → M) (i : ι) (b : M) :
    ∑ j, update f i b j + f i = ∑ j, f j + b := by
  rw [Finset.sum_update_of_mem (Finset.mem_univ i), ← Finset.add_sum_erase _ f (Finset.mem_univ i),
    Finset.sdiff_singleton_eq_erase]
  abel

end Xv6.Framework
