import Mathlib

/-!
# Replacing a part of a list

`splice off bs l` is the list `l` with `bs` in it from `off` on, which may
replace its end and go beyond it. Two parts that follow each other can be
replaced one after the other (`splice_splice`).
-/

namespace Xv6.Framework

open List

variable {α : Type}

/-- The list `l` with the elements `bs` in it from `off` on. -/
def splice (off : Nat) (bs l : List α) : List α := l.take off ++ bs ++ l.drop (off + bs.length)

variable {off : Nat} {bs cs l : List α}

theorem length_splice (h : off ≤ l.length) : (splice off bs l).length = max l.length (off + bs.length) := by
  simp only [splice, length_append, length_take, length_drop]
  omega

theorem getElem?_splice (h : off ≤ l.length) (k : Nat) :
    (splice off bs l)[k]? = if off ≤ k ∧ k < off + bs.length then bs[k - off]? else l[k]? := by
  have hlen : (l.take off).length = off := length_take_of_le h
  rw [splice, append_assoc]
  by_cases hlt : k < off
  · rw [List.getElem?_append_left (by omega), if_neg (by omega), List.getElem?_take_of_lt hlt]
  · rw [List.getElem?_append_right (by omega), hlen]
    by_cases hk : k < off + bs.length
    · rw [List.getElem?_append_left (by omega), if_pos (by omega)]
    · rw [List.getElem?_append_right (by omega), if_neg (by omega), List.getElem?_drop]
      congr 1
      omega

theorem splice_nil : splice off [] l = l := by
  rw [splice, append_nil, length_nil, Nat.add_zero, take_append_drop]

theorem splice_splice (h : off ≤ l.length) :
    splice (off + bs.length) cs (splice off bs l) = splice off (bs ++ cs) l := by
  have hle : off + bs.length ≤ (splice off bs l).length := by
    rw [length_splice h]
    omega
  refine ext_getElem? fun k => ?_
  rw [getElem?_splice hle, getElem?_splice h, getElem?_splice h, length_append]
  by_cases hk : k < off + bs.length
  · rw [if_neg (by omega)]
    by_cases hk' : off ≤ k
    · rw [if_pos ⟨hk', hk⟩, if_pos (by omega), List.getElem?_append_left (by omega)]
    · rw [if_neg (by omega), if_neg (by omega)]
  · by_cases hk' : k < off + bs.length + cs.length
    · rw [if_pos (by omega), if_pos (by omega), List.getElem?_append_right (by omega), Nat.sub_sub]
    · rw [if_neg (by omega), if_neg (by omega), if_neg (by omega)]

end Xv6.Framework
