import Mathlib

/-!
# Tilings of an interval

A list of tiles, each with a start and a length, that covers an interval of the
numbers from end to end. The tiles of a tiling are in order (`Tiles.pairwise`),
inside the interval (`Tiles.bounds`), and cover it
(`Tiles.cover`); a part of it can be tiled anew (`tiles_append`).
-/

namespace Xv6.Framework

open List

variable {τ : Type} (start len : τ → Nat)

/-- The tiles `l` cover the numbers from `a` to `b`. -/
def Tiles : Nat → List τ → Nat → Prop
  | a, [], b => a = b
  | a, t :: l, b => start t = a ∧ Tiles (a + len t) l b

variable {start len} {a b : Nat} {l l1 l2 : List τ} {t : τ}

theorem tiles_append : Tiles start len a (l1 ++ l2) b ↔ ∃ m, Tiles start len a l1 m ∧ Tiles start len m l2 b := by
  induction l1 generalizing a with
  | nil => simp [Tiles]
  | cons t l1 ih =>
    rw [cons_append, Tiles, ih]
    simp [Tiles, and_assoc]

namespace Tiles

theorem le (h : Tiles start len a l b) : a ≤ b := by
  induction l generalizing a with
  | nil => exact Nat.le_of_eq h
  | cons t l ih => exact Nat.le_trans (Nat.le_add_right ..) (ih h.2)

/-- A tile lies in the interval. -/
theorem bounds (h : Tiles start len a l b) (ht : t ∈ l) : a ≤ start t ∧ start t + len t ≤ b := by
  induction l generalizing a with
  | nil => cases ht
  | cons s l ih =>
    rcases mem_cons.mp ht with rfl | ht
    · have := h.2.le
      have := h.1
      omega
    · have := ih h.2 ht
      omega

/-- The tiles are in order, and have nothing in common. -/
theorem pairwise (h : Tiles start len a l b) : l.Pairwise fun s t => start s + len s ≤ start t := by
  induction l generalizing a with
  | nil => exact .nil
  | cons s l ih =>
    refine pairwise_cons.mpr ⟨fun t ht => ?_, ih h.2⟩
    have := (h.2.bounds ht).1
    have := h.1
    omega

/-- The tiles cover the interval. -/
theorem cover (h : Tiles start len a l b) {x : Nat} (hx : a ≤ x) (hb : x < b) :
    ∃ t ∈ l, start t ≤ x ∧ x < start t + len t := by
  induction l generalizing a with
  | nil =>
    have : a = b := h
    omega
  | cons s l ih =>
    by_cases hs : x < a + len s
    · exact ⟨s, mem_cons_self .., by rw [h.1]; exact ⟨hx, hs⟩⟩
    · obtain ⟨t, ht, hxt⟩ := ih h.2 (Nat.le_of_not_lt hs)
      exact ⟨t, mem_cons_of_mem _ ht, hxt⟩

/-- There are no more tiles than numbers. -/
theorem length_le (h : Tiles start len a l b) (hpos : ∀ t ∈ l, 0 < len t) : a + l.length ≤ b := by
  induction l generalizing a with
  | nil => exact Nat.le_of_eq h
  | cons t l ih =>
    have := ih h.2 fun t ht => hpos t (mem_cons_of_mem _ ht)
    have := hpos t (mem_cons_self ..)
    rw [length_cons]
    omega

/-- The tile at the start is the first one. -/
theorem eq_cons (h : Tiles start len a l b) (hpos : ∀ t ∈ l, 0 < len t) (ht : t ∈ l) (hs : start t = a) :
    ∃ l', l = t :: l' := by
  cases l with
  | nil => cases ht
  | cons s l =>
    rcases mem_cons.mp ht with rfl | ht
    · exact ⟨l, rfl⟩
    · have := (h.2.bounds ht).1
      have := hpos s (mem_cons_self ..)
      omega

/-- The tile at the end is the last one. -/
theorem eq_concat (h : Tiles start len a l b) (hpos : ∀ t ∈ l, 0 < len t) (ht : t ∈ l) (hs : start t + len t = b) :
    ∃ l', l = l' ++ [t] := by
  obtain ⟨l1, l2, rfl⟩ := append_of_mem ht
  obtain ⟨m, -, hm, h2⟩ := tiles_append.mp h
  cases l2 with
  | nil => exact ⟨l1, rfl⟩
  | cons s l2 =>
    have := h2.2.le
    have := hpos s (mem_append_right _ (mem_cons_of_mem _ (mem_cons_self ..)))
    omega

end Tiles

end Xv6.Framework
