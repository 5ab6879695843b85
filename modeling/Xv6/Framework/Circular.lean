import Mathlib

/-!
# Circular buffers

A buffer of `N` elements between two counters that run freely and wrap at
`2 ^ w`, each reduced modulo `N` for an access. If `N` divides `2 ^ w`, the
wrapping is not seen: `Stored buf r l` says that the elements from counter `r`
on are the list `l`. An element goes in at its end (`Stored.push`) and comes out
at its front; how many there are can be told from the counters
(`add_length_inj`, `sub_length`).
-/

namespace Xv6.Framework

open Function

variable {α : Type} {N w j k : Nat} [NeZero N]

/-- The place of an element in the buffer. -/
def cell (N : Nat) [NeZero N] (i : BitVec w) : Fin N := Fin.ofNat N i.toNat

/-- The elements in a buffer from counter `r` on. -/
def Stored (buf : Fin N → α) : BitVec w → List α → Prop
  | _, [] => True
  | r, a :: l => buf (cell N r) = a ∧ Stored buf (r + 1) l

variable {buf : Fin N → α} {r e : BitVec w} {l l' : List α} {a : α}

theorem add_length_cons (r : BitVec w) (a : α) (l : List α) :
    r + BitVec.ofNat w (a :: l).length = r + 1 + BitVec.ofNat w l.length := by
  rw [List.length_cons, Nat.add_comm, BitVec.ofNat_add, BitVec.add_assoc]
  rfl

theorem Stored.append : Stored buf r (l ++ l') ↔ Stored buf r l ∧ Stored buf (r + BitVec.ofNat w l.length) l' := by
  induction l generalizing r with
  | nil => simp [Stored]
  | cons a l ih => rw [List.cons_append, Stored, ih, Stored, add_length_cons, and_assoc]

/-- The last element is before the end. -/
theorem Stored.last (h : Stored buf r (l ++ [a])) : buf (cell N (r + BitVec.ofNat w l.length)) = a :=
  (append.mp h).2.1

/-- The place of a counter that is `k` ahead. -/
theorem cell_add (hN : N ∣ 2 ^ w) (r : BitVec w) (k : Nat) :
    (cell N (r + BitVec.ofNat w k)).val = (r.toNat + k) % N := by
  rw [cell, Fin.val_ofNat, BitVec.toNat_add, BitVec.toNat_ofNat, Nat.mod_mod_of_dvd _ hN, Nat.add_mod,
    Nat.mod_mod_of_dvd _ hN, ← Nat.add_mod]

theorem cell_add_ne (hN : N ∣ 2 ^ w) (r : BitVec w) (hjk : j < k) (hk : k < N + j) :
    cell N (r + BitVec.ofNat w j) ≠ cell N (r + BitVec.ofNat w k) := by
  intro heq
  have h := congrArg Fin.val heq
  rw [cell_add hN, cell_add hN] at h
  have h1 := Nat.sub_mod_eq_zero_of_mod_eq h.symm
  rw [Nat.add_sub_add_left, Nat.mod_eq_of_lt (by omega)] at h1
  omega

theorem Stored.update (h : Stored buf r l) {j : Fin N}
    (hj : ∀ k < l.length, cell N (r + BitVec.ofNat w k) ≠ j) (a : α) : Stored (update buf j a) r l := by
  induction l generalizing r with
  | nil => trivial
  | cons b l ih =>
    refine ⟨?_, ih h.2 fun k hk => ?_⟩
    · have h0 := hj 0 (Nat.succ_pos _)
      rw [BitVec.add_zero] at h0
      rw [update_of_ne h0]
      exact h.1
    · have h1 := hj (k + 1) (Nat.succ_lt_succ hk)
      rwa [Nat.add_comm, BitVec.ofNat_add, ← BitVec.add_assoc] at h1

/-- An element is put in. -/
theorem Stored.push (hN : N ∣ 2 ^ w) (h : Stored buf r l) (hl : l.length < N) (a : α) :
    Stored (Function.update buf (cell N (r + BitVec.ofNat w l.length)) a) r (l ++ [a]) := by
  refine append.mpr ⟨h.update (fun k hk => cell_add_ne hN r hk (by omega)) a, ?_, trivial⟩
  rw [update_self]

/-! ## Counters -/

/-- The counters tell how many elements there are. -/
theorem add_length_inj (r : BitVec w) (hj : j < 2 ^ w) (hk : k < 2 ^ w) :
    r + BitVec.ofNat w j = r + BitVec.ofNat w k ↔ j = k := by
  rw [BitVec.add_right_inj]
  constructor
  · intro h
    have := congrArg BitVec.toNat h
    rwa [BitVec.toNat_ofNat, BitVec.toNat_ofNat, Nat.mod_eq_of_lt hj, Nat.mod_eq_of_lt hk] at this
  · rintro rfl
    rfl

theorem add_length_eq_self (r : BitVec w) (hk : k < 2 ^ w) : r + BitVec.ofNat w k = r ↔ k = 0 := by
  have := add_length_inj r hk (Nat.two_pow_pos w)
  rwa [BitVec.add_zero] at this

theorem sub_length (r : BitVec w) (hk : k < 2 ^ w) : (r + BitVec.ofNat w k - r).toNat = k := by
  rw [BitVec.add_comm, BitVec.add_sub_cancel, BitVec.toNat_ofNat, Nat.mod_eq_of_lt hk]

/-- The elements, read off the buffer. -/
theorem Stored.eq_map (h : Stored buf r l) :
    l = (List.range l.length).map fun k => buf (cell N (r + BitVec.ofNat w k)) := by
  induction l generalizing r with
  | nil => rfl
  | cons a l ih =>
    rw [List.length_cons, List.range_succ_eq_map, List.map_cons, List.map_map]
    refine congrArg₂ List.cons ?_ ?_
    · rw [BitVec.add_zero, h.1]
    · refine (ih h.2).trans (List.map_congr_left fun k _ => ?_)
      rw [Function.comp_apply, Nat.succ_eq_add_one, Nat.add_comm k, BitVec.ofNat_add, ← BitVec.add_assoc]
      rfl

end Xv6.Framework
