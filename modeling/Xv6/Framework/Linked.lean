import Mathlib

/-!
# Linked lists

A list of nodes linked one way. `Linked next a l c` says that the links lead from
the node `a` through the nodes `l`, in order, to `c`; with `c = a` the list is
circular. `l.getLastD a` is the node whose link leads to `c`, and to change that
link is to append to the list (`Linked.join`), or to leave out a node
(`Linked.joinNext`). A circular list can be entered at any node
(`Linked.rotate`). `seek` is a loop that follows the links up to a node; it ends
if there is one (`Linked.seek_last`, `Linked.seek_pass`).
-/

namespace Xv6.Framework

open Function List

variable {α : Type}

/-- The links lead from `a` through `l` to `c`. -/
def Linked (next : α → α) : α → List α → α → Prop
  | a, [], c => next a = c
  | a, b :: l, c => next a = b ∧ Linked next b l c

variable {next next' : α → α} {a b c d x : α} {l l1 l2 : List α}

theorem linked_append : Linked next a (l1 ++ b :: l2) c ↔ Linked next a l1 b ∧ Linked next b l2 c := by
  induction l1 generalizing a with
  | nil => rfl
  | cons d l1 ih => rw [cons_append, Linked, Linked, ih, and_assoc]

namespace Linked

theorem congr (h : Linked next a l c) (hn : ∀ x ∈ a :: l, next' x = next x) : Linked next' a l c := by
  induction l generalizing a with
  | nil => exact (hn a (mem_cons_self ..)).trans h
  | cons b l ih =>
    exact ⟨(hn a (mem_cons_self ..)).trans h.1, ih h.2 fun x hx => hn x (mem_cons_of_mem _ hx)⟩

/-- The last link leads to the end. -/
theorem next_last (h : Linked next a l c) : next (l.getLastD a) = c := by
  induction l generalizing a with
  | nil => exact h
  | cons b l ih =>
    rw [getLastD_cons]
    exact ih h.2

/-- The first part of a list. -/
theorem left (h : Linked next a (l1 ++ l2) c) : Linked next a l1 (l2.headD c) := by
  cases l2 with
  | nil => rwa [append_nil] at h
  | cons b l2 => exact (linked_append.mp h).1

/-- The second part of a list. -/
theorem right (h : Linked next a (l1 ++ l2) c) : Linked next (l1.getLastD a) l2 c := by
  induction l1 generalizing a with
  | nil => exact h
  | cons b l1 ih =>
    rw [getLastD_cons]
    exact ih h.2

/-- The links of the nodes are the nodes, one further. -/
theorem map_next (h : Linked next a l c) : (a :: l).map next = l ++ [c] := by
  induction l generalizing a with
  | nil => exact congrArg (· :: []) h
  | cons b l ih =>
    rw [map_cons, h.1, ih h.2]
    rfl

end Linked

theorem getLastD_mem (a : α) (l : List α) : l.getLastD a ∈ a :: l := by
  rw [← getLast_eq_getLastD (cons_ne_nil a l)]
  exact getLast_mem _

namespace Linked

/-- A node is known by its link. -/
theorem eq_last (h : Linked next a (l1 ++ l2) c) (hnd : (l1 ++ l2 ++ [c]).Nodup) (hx : x ∈ a :: (l1 ++ l2))
    (hc : next x = next (l1.getLastD a)) : x = l1.getLastD a := by
  rw [← h.map_next] at hnd
  refine inj_on_of_nodup_map hnd hx ?_ hc
  rw [← cons_append]
  exact mem_append_left _ (getLastD_mem a l1)

/-- A circular list, from another of its nodes. -/
theorem rotate (h : Linked next a l a) (hx : x ∈ a :: l) : ∃ l', Linked next x l' x ∧ (x :: l').Perm (a :: l) := by
  rcases mem_cons.mp hx with rfl | hx
  · exact ⟨l, h, .refl _⟩
  · obtain ⟨l1, l2, rfl⟩ := append_of_mem hx
    obtain ⟨h1, h2⟩ := linked_append.mp h
    refine ⟨l2 ++ a :: l1, linked_append.mpr ⟨h2, h1⟩, ?_⟩
    rw [← cons_append, ← cons_append]
    exact perm_append_comm

/-! ## Changes of a link -/

variable [DecidableEq α]

/-- The last link is changed. -/
theorem retarget (h : Linked next a l c) (hnd : (a :: l).Nodup) :
    Linked (update next (l.getLastD a) d) a l d := by
  induction l generalizing a with
  | nil => exact update_self ..
  | cons b l ih =>
    obtain ⟨ha, hnd⟩ := nodup_cons.mp hnd
    rw [getLastD_cons]
    refine ⟨?_, ih h.2 hnd⟩
    rw [update_of_ne _]
    · exact h.1
    · rintro rfl
      exact ha (getLastD_mem b l)

/-- Another list is appended. -/
theorem join (h1 : Linked next a l1 c) (h2 : Linked next b l2 d) (hnd : (a :: l1 ++ b :: l2).Nodup) :
    Linked (update next (l1.getLastD a) b) a (l1 ++ b :: l2) d := by
  obtain ⟨hnd1, -, hdisj⟩ := nodup_append.mp hnd
  refine linked_append.mpr ⟨h1.retarget hnd1, h2.congr fun x hx => ?_⟩
  refine update_of_ne ?_ ..
  rintro rfl
  exact hdisj _ (getLastD_mem a l1) _ hx rfl

/-- Another list is appended, without its first node. -/
theorem joinNext (h1 : Linked next a l1 c) (h2 : Linked next b l2 d) (hnd : (a :: l1 ++ l2).Nodup) :
    Linked (update next (l1.getLastD a) (next b)) a (l1 ++ l2) d := by
  cases l2 with
  | nil =>
    rw [append_nil] at hnd ⊢
    rw [show next b = d from h2]
    exact h1.retarget hnd
  | cons e l2 =>
    rw [h2.1]
    exact h1.join h2.2 hnd

end Linked

/-! ## A loop along the links -/

/-- The first node at which the loop stops, if it takes fewer than `n`
iterations. -/
def seek (next : α → α) (stop : α → Bool) : Nat → α → Option α
  | 0, _ => none
  | n + 1, a => if stop a then some a else seek next stop n (next a)

namespace Linked

variable {stop : α → Bool} {n : Nat}

/-- The loop passes the rest of a list. -/
theorem seek_pass (h : Linked next a l c) (hs : ∀ x ∈ a :: l, stop x = false) (hx : x ∈ a :: l) :
    ∃ k ≤ l.length + 1, ∀ n, seek next stop (n + k) x = seek next stop n c := by
  induction l generalizing a x with
  | nil =>
    rw [mem_singleton] at hx
    subst hx
    refine ⟨1, Nat.le_refl 1, fun n => ?_⟩
    rw [seek, hs x (mem_cons_self ..), show next x = c from h]
    rfl
  | cons b l ih =>
    have hs' : ∀ x ∈ b :: l, stop x = false := fun x hx => hs x (mem_cons_of_mem _ hx)
    rcases mem_cons.mp hx with rfl | hx
    · obtain ⟨k, hk, hseek⟩ := ih h.2 hs' (mem_cons_self ..)
      refine ⟨k + 1, Nat.succ_le_succ hk, fun n => ?_⟩
      rw [← Nat.add_assoc, seek, hs x (mem_cons_self ..), h.1]
      exact hseek n
    · obtain ⟨k, hk, hseek⟩ := ih h.2 hs' hx
      exact ⟨k, Nat.le_succ_of_le hk, hseek⟩

/-- The loop stops at the last node of a list. -/
theorem seek_last (h : Linked next a l c) (hs : ∀ x ∈ a :: l, x ≠ l.getLastD a → stop x = false)
    (hl : stop (l.getLastD a) = true) (hnd : (a :: l).Nodup) (hx : x ∈ a :: l) (hn : l.length < n) :
    seek next stop n x = some (l.getLastD a) := by
  induction l generalizing a x n with
  | nil =>
    obtain ⟨n, rfl⟩ := Nat.exists_eq_succ_of_ne_zero (Nat.ne_of_gt hn)
    rw [mem_singleton] at hx
    subst hx
    exact if_pos hl
  | cons b l ih =>
    obtain ⟨n, rfl⟩ := Nat.exists_eq_succ_of_ne_zero (Nat.ne_of_gt (Nat.zero_lt_of_lt hn))
    obtain ⟨ha, hnd'⟩ := nodup_cons.mp hnd
    rw [getLastD_cons] at hs hl ⊢
    have hs' : ∀ x ∈ b :: l, x ≠ l.getLastD b → stop x = false := fun x hx => hs x (mem_cons_of_mem _ hx)
    rcases mem_cons.mp hx with rfl | hx
    · have hne : x ≠ l.getLastD b := by
        rintro rfl
        exact ha (getLastD_mem b l)
      rw [seek, hs x (mem_cons_self ..) hne, h.1]
      exact ih h.2 hs' hl hnd' (mem_cons_self ..) (Nat.lt_of_succ_lt_succ hn)
    · exact ih h.2 hs' hl hnd' hx (Nat.lt_of_succ_lt hn)

end Linked

end Xv6.Framework
