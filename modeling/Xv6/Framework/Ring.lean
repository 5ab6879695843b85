import Mathlib

/-!
# Circular doubly linked lists

A list with a head node, linked both ways: `some a` is the node of the element
`a`, and `none` is the head. `Ring k l` says that the links `k` lead from the
head through the elements `l`, in order, and back, in both directions. To push
an element to the front (`Ring.pushFront`) and to take one out (`Ring.unlink`)
are four and two assignments to links; a loop that follows the links one way is a search
in the list or in its reverse (`Ring.walk_next`, `Ring.walk_prev`).
-/

namespace Xv6.Framework

open Function List

variable {α : Type}

/-- The two links of every node. -/
structure Links (α : Type) where
  next : Option α → Option α
  prev : Option α → Option α

/-- The links lead from the node `a` through the elements of a list to the node
`c`, and back. -/
def Path (k : Links α) : Option α → List α → Option α → Prop
  | a, [], c => k.next a = c ∧ k.prev c = a
  | a, b :: l, c => k.next a = some b ∧ k.prev (some b) = a ∧ Path k (some b) l c

/-- The elements `l` are linked from the head and back to it. -/
structure Ring (k : Links α) (l : List α) : Prop where
  path : Path k none l none
  nodup : l.Nodup

variable {k k' : Links α} {a c : Option α} {b : α} {l l1 l2 : List α} {i n : Nat}

theorem path_append : Path k a (l1 ++ b :: l2) c ↔ Path k a l1 (some b) ∧ Path k (some b) l2 c := by
  induction l1 generalizing a with
  | nil => simp only [nil_append, Path, and_assoc]
  | cons d l1 ih => simp only [cons_append, Path, ih, and_assoc]

/-- A path depends on the forward links of its nodes but the last, and on the
backward links of its nodes but the first. -/
theorem Path.congr (h : Path k a l c) (hn : ∀ x, x = a ∨ (∃ b ∈ l, x = some b) → k'.next x = k.next x)
    (hp : ∀ x, x = c ∨ (∃ b ∈ l, x = some b) → k'.prev x = k.prev x) : Path k' a l c := by
  induction l generalizing a with
  | nil =>
    obtain ⟨h1, h2⟩ := h
    exact ⟨(hn a (.inl rfl)).trans h1, (hp c (.inl rfl)).trans h2⟩
  | cons b l ih =>
    obtain ⟨h1, h2, h⟩ := h
    refine ⟨(hn a (.inl rfl)).trans h1, (hp _ (.inr ⟨b, mem_cons_self .., rfl⟩)).trans h2, ih h ?_ ?_⟩
    · rintro x (rfl | ⟨d, hd, rfl⟩)
      · exact hn _ (.inr ⟨b, mem_cons_self .., rfl⟩)
      · exact hn _ (.inr ⟨d, mem_cons_of_mem _ hd, rfl⟩)
    · rintro x (rfl | ⟨d, hd, rfl⟩)
      · exact hp _ (.inl rfl)
      · exact hp _ (.inr ⟨d, mem_cons_of_mem _ hd, rfl⟩)

theorem Path.next_mem (h : Path k a l none) (hb : k.next a = some b) : b ∈ l := by
  cases l with
  | nil =>
    rw [h.1] at hb
    cases hb
  | cons d l =>
    rw [h.1] at hb
    cases hb
    exact mem_cons_self ..

/-- The same path, the other way. -/
theorem Path.reverse (h : Path k a l c) : Path ⟨k.prev, k.next⟩ c l.reverse a := by
  induction l generalizing a with
  | nil => exact ⟨h.2, h.1⟩
  | cons b l ih =>
    obtain ⟨h1, h2, h⟩ := h
    rw [reverse_cons]
    exact path_append.mpr ⟨ih h, h2, h1⟩

/-! ## Following the links -/

theorem Path.next_iterate (h : Path k a l none) (hi : i ≤ l.length) : k.next^[i + 1] a = l[i]? := by
  induction l generalizing a i with
  | nil =>
    obtain rfl := Nat.le_zero.mp hi
    exact h.1
  | cons b l ih =>
    obtain ⟨h1, -, h⟩ := h
    cases i with
    | zero => exact h1
    | succ i =>
      rw [Function.iterate_succ_apply, h1, ih h (Nat.le_of_succ_le_succ hi), List.getElem?_cons_succ]

theorem Ring.next_iterate (h : Ring k l) (hi : i ≤ l.length) : k.next^[i + 1] none = l[i]? :=
  h.path.next_iterate hi

theorem Ring.prev_iterate (h : Ring k l) (hi : i ≤ l.length) : k.prev^[i + 1] none = l.reverse[i]? :=
  h.path.reverse.next_iterate (by rwa [length_reverse])

theorem Path.prev_next (h : Path k a l c) {x : Option α} (hx : x = a ∨ ∃ b ∈ l, x = some b) :
    k.prev (k.next x) = x := by
  induction l generalizing a with
  | nil =>
    obtain rfl | ⟨b, hb, -⟩ := hx
    · rw [h.1, h.2]
    · cases hb
  | cons b l ih =>
    obtain ⟨h1, h2, h⟩ := h
    obtain rfl | ⟨d, hd, rfl⟩ := hx
    · rw [h1, h2]
    · obtain rfl | hd := mem_cons.mp hd
      · exact ih h (.inl rfl)
      · exact ih h (.inr ⟨d, hd, rfl⟩)

/-- The two links of a node undo each other. -/
theorem Ring.inverse (h : Ring k l) (hl : ∀ b, b ∈ l) (x : Option α) :
    k.prev (k.next x) = x ∧ k.next (k.prev x) = x := by
  cases x with
  | none => exact ⟨h.path.prev_next (.inl rfl), h.path.reverse.prev_next (.inl rfl)⟩
  | some b =>
    refine ⟨h.path.prev_next (.inr ⟨b, hl b, rfl⟩), h.path.reverse.prev_next (.inr ⟨b, ?_, rfl⟩)⟩
    rw [mem_reverse]
    exact hl b

/-- The loop that follows a link up to the head, for an element with a property,
over at most so many nodes. -/
def walk (link : Option α → Option α) (p : α → Bool) : Nat → Option α → Option α
  | 0, _ => none
  | _ + 1, none => none
  | n + 1, some b => if p b then some b else walk link p n (link (some b))

theorem Path.walk_next (h : Path k a l none) (p : α → Bool) (hn : l.length ≤ n) :
    walk k.next p n (k.next a) = l.find? p := by
  induction l generalizing a n with
  | nil =>
    rw [h.1]
    cases n <;> rfl
  | cons b l ih =>
    obtain ⟨h1, -, h⟩ := h
    obtain ⟨n, rfl⟩ : ∃ m, n = m + 1 := ⟨n - 1, by simp only [length_cons] at hn; omega⟩
    rw [h1, walk, List.find?_cons, ih h (Nat.le_of_succ_le_succ hn)]
    cases p b <;> rfl

theorem Ring.walk_next (h : Ring k l) (p : α → Bool) (hn : l.length ≤ n) :
    walk k.next p n (k.next none) = l.find? p :=
  h.path.walk_next p hn

theorem Ring.walk_prev (h : Ring k l) (p : α → Bool) (hn : l.length ≤ n) :
    walk k.prev p n (k.prev none) = l.reverse.find? p :=
  h.path.reverse.walk_next p (by rwa [length_reverse])

/-! ## Changing the links -/

variable [DecidableEq α]

def Links.setNext (k : Links α) (x y : Option α) : Links α := { k with next := update k.next x y }

def Links.setPrev (k : Links α) (x y : Option α) : Links α := { k with prev := update k.prev x y }

/-- Put `b` between the head and the first node. -/
def Links.pushFront (k : Links α) (b : α) : Links α :=
  let k := k.setNext (some b) (k.next none)
  let k := k.setPrev (some b) none
  let k := k.setPrev (k.next none) (some b)
  k.setNext none (some b)

/-- Take `b` out. -/
def Links.unlink (k : Links α) (b : α) : Links α :=
  let k := k.setPrev (k.next (some b)) (k.prev (some b))
  k.setNext (k.prev (some b)) (k.next (some b))

theorem Links.pushFront_next (k : Links α) (b : α) (x : Option α) :
    (k.pushFront b).next x = if x = none then some b else if x = some b then k.next none else k.next x := by
  simp only [pushFront, setNext, setPrev, update_apply]

theorem Links.pushFront_prev (k : Links α) (b : α) (x : Option α) :
    (k.pushFront b).prev x = if x = k.next none then some b else if x = some b then none else k.prev x := by
  simp [pushFront, setNext, setPrev, update_apply]

theorem Ring.pushFront (h : Ring k l) (hb : b ∉ l) : Ring (k.pushFront b) (b :: l) := by
  refine ⟨⟨by simp [Links.pushFront_next], ?_⟩, nodup_cons.mpr ⟨hb, h.nodup⟩⟩
  cases l with
  | nil =>
    have h1 : k.next none = none := h.path.1
    exact ⟨by simp [Links.pushFront_prev, h1], by simp [Links.pushFront_next, h1], by simp [Links.pushFront_prev, h1]⟩
  | cons d l =>
    obtain ⟨h1, -, hp⟩ := h.path
    obtain ⟨hd, -⟩ := nodup_cons.mp h.nodup
    rw [mem_cons, not_or] at hb
    refine ⟨by simp [Links.pushFront_prev, h1, hb.1], by simp [Links.pushFront_next, h1],
      by simp [Links.pushFront_prev, h1], hp.congr ?_ ?_⟩
    · -- the forward links of `d` and of what follows it stay
      rintro x (rfl | ⟨e, he, rfl⟩)
      · simp [Links.pushFront_next, hb.1, eq_comm]
      · have : e ≠ b := fun hc => hb.2 (hc ▸ he)
        simp [Links.pushFront_next, this]
    · rintro x (rfl | ⟨e, he, rfl⟩)
      · simp [Links.pushFront_prev, h1]
      · have h2 : e ≠ d := fun hc => hd (hc ▸ he)
        have h3 : e ≠ b := fun hc => hb.2 (hc ▸ he)
        simp [Links.pushFront_prev, h1, h2, h3]

/-- Elements pushed one after the other come out in reverse. -/
theorem Ring.foldl_pushFront (h : Ring k l) (hnd : (l1.reverse ++ l).Nodup) :
    Ring (l1.foldl Links.pushFront k) (l1.reverse ++ l) := by
  induction l1 generalizing k l with
  | nil => exact h
  | cons b l1 ih =>
    rw [reverse_cons, append_assoc, singleton_append] at hnd ⊢
    exact ih (h.pushFront (nodup_cons.mp (nodup_append.mp hnd).2.1).1) hnd

theorem Links.unlink_next (hb : k.next (some b) ≠ some b) (x : Option α) :
    (k.unlink b).next x = if x = k.prev (some b) then k.next (some b) else k.next x := by
  simp [unlink, setNext, setPrev, update_apply, hb.symm]

theorem Links.unlink_prev (k : Links α) (b : α) (x : Option α) :
    (k.unlink b).prev x = if x = k.next (some b) then k.prev (some b) else k.prev x := by
  simp only [unlink, setNext, setPrev, update_apply]

/-- What follows `b` is linked to what comes before it. -/
theorem Path.unlink_tail (hp : k.prev (some b) = a) (h : Path k (some b) l none) (hnd : (b :: l).Nodup)
    (ha : ∀ d ∈ l, a ≠ some d) : Path (k.unlink b) a l none := by
  obtain ⟨hb, hnd⟩ := nodup_cons.mp hnd
  have hpath := h
  cases l with
  | nil =>
    obtain ⟨h1, -⟩ := h
    rw [Path, Links.unlink_next (by simp [h1]), Links.unlink_prev]
    simp [h1, hp]
  | cons d l =>
    obtain ⟨h1, -, h⟩ := h
    obtain ⟨hd, -⟩ := nodup_cons.mp hnd
    have hne : k.next (some b) ≠ some b := fun hc => hb (hpath.next_mem hc)
    refine ⟨by simp [Links.unlink_next hne, hp, h1], by simp [Links.unlink_prev, hp, h1], h.congr ?_ ?_⟩
    · intro x hx
      have : x ≠ a := by
        obtain rfl | ⟨e, he, rfl⟩ := hx
        · exact (ha d (mem_cons_self ..)).symm
        · exact (ha e (mem_cons_of_mem _ he)).symm
      rw [Links.unlink_next hne, hp, if_neg this]
    · intro x hx
      have : x ≠ some d := by
        obtain rfl | ⟨e, he, rfl⟩ := hx
        · exact nofun
        · exact fun hc => hd (Option.some.inj hc ▸ he)
      rw [Links.unlink_prev, h1, if_neg this]

theorem Ring.unlink (h : Ring k (l1 ++ b :: l2)) : Ring (k.unlink b) (l1 ++ l2) := by
  obtain ⟨hpath, hnd⟩ := h
  obtain ⟨hp1, hp2⟩ := path_append.mp hpath
  obtain ⟨hnd1, hnd2, hdis⟩ := nodup_append.mp hnd
  refine ⟨?_, hnd.sublist ((sublist_cons_self b l2).append_left l1)⟩
  obtain rfl | ⟨l, d, rfl⟩ := eq_nil_or_concat' l1
  · exact hp2.unlink_tail hp1.2 hnd2 fun _ _ => nofun
  · -- `d` comes before `b`
    obtain ⟨hl, hdb, hbd⟩ := path_append.mp hp1
    have hd : d ∉ b :: l2 := fun hm => hdis d (by simp) d hm rfl
    have hdl : d ∉ l := fun hm => (nodup_append.mp hnd1).2.2 d hm d (mem_singleton_self d) rfl
    have htail := hp2.unlink_tail hbd hnd2 fun e he hc => hd (Option.some.inj hc ▸ mem_cons_of_mem _ he)
    rw [append_assoc, singleton_append]
    have hne : k.next (some b) ≠ some b := fun hc => (nodup_cons.mp hnd2).1 (hp2.next_mem hc)
    refine path_append.mpr ⟨hl.congr (fun x hx => ?_) (fun x hx => ?_), htail⟩
    · have : x ≠ some d := by
        obtain rfl | ⟨e, he, rfl⟩ := hx
        · exact nofun
        · exact fun hc => hdl (Option.some.inj hc ▸ he)
      rw [Links.unlink_next hne, hbd, if_neg this]
    · have : x ≠ k.next (some b) := by
        obtain rfl | ⟨e, he, rfl⟩ := hx
        · exact fun hc => hd (mem_cons_of_mem _ (hp2.next_mem hc.symm))
        · exact fun hc => hdis e (by simp [he]) e (mem_cons_of_mem _ (hp2.next_mem hc.symm)) rfl
      rw [Links.unlink_prev, if_neg this]

/-- An element taken out and pushed to the front. -/
theorem Ring.moveFront (h : Ring k (l1 ++ b :: l2)) : Ring ((k.unlink b).pushFront b) (b :: (l1 ++ l2)) := by
  refine h.unlink.pushFront fun hb => ?_
  have hnd := nodup_middle.mp h.nodup
  exact (nodup_cons.mp hnd).1 hb

end Xv6.Framework
