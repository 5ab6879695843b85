import Mathlib

/-!
# Sequences of atomic writes

A store maps keys to values, and `applyWrites d ws` is the store `d` after
the writes `ws`, in order. When all writes to a key write the same value
(`Follows f ws`), their order does not matter: what a key holds depends only
on whether it was written (`applyWrites_follows`), so that repeating a
sequence of writes, in whole or from any point on, changes nothing more. A
crash keeps a prefix of the writes; `prefix_append_cases` says where in a
sequence of two parts it fell.
-/

namespace Xv6.Framework

open Function

variable {K V : Type} [DecidableEq K] {ws : List (K × V)}

/-- The store `d` after the writes `ws`, in order. -/
def applyWrites (d : K → V) (ws : List (K × V)) : K → V :=
  ws.foldl (fun d w => update d w.1 w.2) d

@[simp] theorem applyWrites_nil (d : K → V) : applyWrites d [] = d := rfl

theorem applyWrites_append (d : K → V) (ws ws' : List (K × V)) :
    applyWrites d (ws ++ ws') = applyWrites (applyWrites d ws) ws' := by
  simp [applyWrites]

theorem applyWrites_singleton (d : K → V) (k : K) (v : V) :
    applyWrites d [(k, v)] = update d k v := rfl

/-- Every write writes the value `f` has at its key. -/
def Follows (f : K → V) (ws : List (K × V)) : Prop := ∀ w ∈ ws, w.2 = f w.1

/-- Writes that follow `f`: a key written holds its value in `f`, and any
other key what it held before. -/
theorem applyWrites_follows {f : K → V} (h : Follows f ws) (d : K → V) (k : K) :
    applyWrites d ws k = if k ∈ ws.map Prod.fst then f k else d k := by
  induction ws generalizing d with
  | nil => simp
  | cons w ws ih =>
    have hw : w.2 = f w.1 := h w List.mem_cons_self
    have hs : Follows f ws := fun w' hw' => h w' (List.mem_cons_of_mem _ hw')
    change applyWrites (update d w.1 w.2) ws k = _
    rw [ih hs]
    by_cases hk : k ∈ ws.map Prod.fst
    · rw [if_pos hk, if_pos (by simp [hk])]
    · rw [if_neg hk]
      by_cases e : k = w.1
      · subst e; simp [hw]
      · rw [update_of_ne e, if_neg (by simp [e, hk])]

/-- A key that is not written keeps its value. -/
theorem applyWrites_of_not_mem {k : K} (h : k ∉ ws.map Prod.fst) (d : K → V) :
    applyWrites d ws k = d k := by
  induction ws generalizing d with
  | nil => rfl
  | cons w ws ih =>
    simp only [List.map_cons, List.mem_cons, not_or] at h
    change applyWrites (update d w.1 w.2) ws k = _
    rw [ih h.2, update_of_ne h.1]

/-- A prefix of two sequences is a prefix of the first, or all of it and a
prefix of the second. -/
theorem prefix_append_cases {α : Type} {l a b : List α} (h : l <+: a ++ b) :
    l <+: a ∨ ∃ c, l = a ++ c ∧ c <+: b := by
  rcases List.prefix_or_prefix_of_prefix h (List.prefix_append a b) with hl | ⟨c, rfl⟩
  · exact .inl hl
  · exact .inr ⟨c, rfl, (List.prefix_append_right_inj a).mp h⟩

end Xv6.Framework
