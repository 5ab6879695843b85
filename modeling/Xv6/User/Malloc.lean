import Xv6.Framework.Linked
import Xv6.Framework.Run

/-!
# The user heap

`malloc`, `free` and `morecore` of `user/umalloc.c`. Addresses are in units of a
`Header`, and memory is what its headers hold. `sbrk` extends the heap at its end
or fails, as the environment says; `growproc` keeps the size of a process in a
`uint`, and all that is used of this is that the heap has fewer than `2^32`
units. A program calls `malloc` and `free`, and writes what it likes to the blocks
that it has. A loop that has not ended after more iterations than there are
blocks gives `none`.
-/

namespace Xv6.User

open Framework

/-- `union header` -/
structure Header where
  ptr : Nat
  size : Nat

structure Heap where
  mem : Nat → Header
  /-- `&base` -/
  base : Nat
  /-- `freep`, if it is not null. -/
  freep : Option Nat
  /-- The ends of the memory obtained from `sbrk`. -/
  start : Nat
  brk : Nat

namespace Heap

variable (h : Heap)

def ptr (a : Nat) : Nat := (h.mem a).ptr

def size (a : Nat) : Nat := (h.mem a).size

def setPtr (a p : Nat) : Heap := { h with mem := Function.update h.mem a { h.mem a with ptr := p } }

def setSize (a n : Nat) : Heap := { h with mem := Function.update h.mem a { h.mem a with size := n } }

/-- More than the number of blocks. -/
def fuel : Nat := h.brk - h.start + 2

/-- The loop of `free` ends at `p`. -/
def between (bp p : Nat) : Bool :=
  (bp > p && bp < h.ptr p) || (p ≥ h.ptr p && (bp > p || bp < h.ptr p))

/-- `free` joins the block with the free block after it, or links it to it. -/
def linkUpper (bp p : Nat) : Heap :=
  if bp + h.size bp = h.ptr p then
    (h.setSize bp ((h.size bp + h.size (h.ptr p)) % 2 ^ 32)).setPtr bp (h.ptr (h.ptr p))
  else h.setPtr bp (h.ptr p)

/-- `free` joins the block with the free block before it, or links it to it. -/
def linkLower (bp p : Nat) : Heap :=
  if p + h.size p = bp then (h.setSize p ((h.size p + h.size bp) % 2 ^ 32)).setPtr p (h.ptr bp)
  else h.setPtr p bp

def free (ap : Nat) : Option Heap := do
  let bp := ap - 1
  let p ← seek h.ptr (h.between bp) h.fuel (← h.freep)
  return { (h.linkUpper bp p).linkLower bp p with freep := some p }

/-- `morecore`: the heap after it and its result, if it is not null. -/
def morecore (sbrk : Bool) (nunits : Nat) : Option (Heap × Option Nat) :=
  let nu := if nunits < 4096 then 4096 else nunits
  if sbrk ∧ h.brk - h.start + nu < 2 ^ 32 then do
    let h ← ({ h with brk := h.brk + nu }.setSize h.brk nu).free (h.brk + 1)
    return (h, h.freep)
  else some (h, none)

/-- `malloc` has found the block `p`, after `prevp`. -/
def take (prevp p nunits : Nat) : Heap × Nat :=
  if h.size p = nunits then ({ h.setPtr prevp (h.ptr p) with freep := some prevp }, p + 1)
  else
    let q := p + (h.size p - nunits)
    ({ (h.setSize p (h.size p - nunits)).setSize q nunits with freep := some prevp }, q + 1)

/-- The loop of `malloc`: the heap after it and the result, if it is not null. A
call of `sbrk` in the iteration `fuel` succeeds if `sbrk fuel`. -/
def mallocLoop (sbrk : Nat → Bool) (nunits : Nat) : Nat → Heap → Nat → Nat → Option (Heap × Option Nat)
  | 0, _, _, _ => none
  | fuel + 1, h, prevp, p =>
    if nunits ≤ h.size p then some ((h.take prevp p nunits).1, some (h.take prevp p nunits).2)
    else if h.freep = some p then
      match h.morecore (sbrk fuel) nunits with
      | none => none
      | some (h, none) => some (h, none)
      | some (h, some p) => mallocLoop sbrk nunits fuel h p (h.ptr p)
    else mallocLoop sbrk nunits fuel h p (h.ptr p)

def units (nbytes : Nat) : Nat := (nbytes + 16 - 1) / 16 + 1

/-- The start of `malloc`: the list is made at the first call. -/
def enter : Heap × Nat :=
  match h.freep with
  | some f => (h, f)
  | none => ({ (h.setPtr h.base h.base).setSize h.base 0 with freep := some h.base }, h.base)

def malloc (sbrk : Nat → Bool) (nbytes : Nat) : Option (Heap × Option Nat) :=
  let (h, prevp) := h.enter
  mallocLoop sbrk (units nbytes) (2 * h.fuel) h prevp (h.ptr prevp)

end Heap

/-- The heap and the blocks of the program: where they are, and how many bytes it
wanted. -/
structure State where
  heap : Heap
  live : List (Nat × Nat)

inductive Act
  | malloc (nbytes : Nat) (sbrk : Nat → Bool)
  | free (ap : Nat)
  /-- A write to a block, of something that may be read as a header. -/
  | write (a : Nat) (x : Header)

/-- `sbrk` is called with a positive `int`. -/
def Small (nbytes : Nat) : Prop := Heap.units nbytes * 16 < 2 ^ 31

instance (nbytes : Nat) : Decidable (Small nbytes) := inferInstanceAs (Decidable (_ < _))

/-- A block of the program has the address `a` after its header. -/
def State.inside (s : State) (a : Nat) : Prop := ∃ x ∈ s.live, x.1 < a ∧ a < x.1 + s.heap.size x.1

instance (s : State) (a : Nat) : Decidable (s.inside a) := inferInstanceAs (Decidable (∃ _ ∈ _, _))

def step (s : State) : Act → Option State
  | .malloc nbytes sbrk =>
    if Small nbytes then
      (s.heap.malloc sbrk nbytes).map fun (h, r) => match r with
        | some ap => ⟨h, (ap - 1, nbytes) :: s.live⟩
        | none => ⟨h, s.live⟩
    else none
  | .free ap =>
    match s.live.find? (·.1 + 1 = ap) with
    | some x => (s.heap.free ap).map fun h => ⟨h, s.live.erase x⟩
    | none => none
  | .write a x => if s.inside a then some ⟨{ s.heap with mem := Function.update s.heap.mem a x }, s.live⟩ else none

def State.init (mem : Nat → Header) (base start : Nat) : State := ⟨⟨mem, base, none, start, start⟩, []⟩

end Xv6.User
