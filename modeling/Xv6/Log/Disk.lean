import Xv6.Param
import Xv6.Framework.Bytes
import Xv6.Framework.Writes

/-!
# The disk and its buffer cache, as the log uses them

The disk holds `BSIZE`-byte blocks, written one at a time (`bwrite`), each
write being atomic; `writes` records them in order. In front of it is the
buffer cache: `bread` gives the cached data of a block, and reads the disk
only if no valid buffer holds it. Between any two operations of the log the
rest of the kernel may read blocks into the cache and recycle buffers; `Env`
chooses what happens to each block (`settle`), except that a buffer the log
has pinned (`bpin`) is never recycled.

`Holds d b v` says that `bread` of block `b` will give `v` whatever the rest
of the kernel does: the cache shows `v`, and either the buffer is pinned or
the disk has `v` too.
-/

namespace Xv6.Log

open Xv6.Framework Function

/-- A block number (`uint blockno`). -/
abbrev BlockNo := BitVec 32

/-- The contents of a block. -/
abbrev Block := Fin BSIZE → Byte

/-- A block's bytes, as storage addressed from 0. -/
def bytes (b : Block) : Bytes := fun j => if h : j < BSIZE then b ⟨j, h⟩ else 0

/-- The `i`-th `int` of a block. -/
def word (b : Block) (i : Nat) : BitVec 32 := read32 (bytes b) (4 * i)

/-- A block with its `i`-th `int` set to `v`. -/
def setWord (b : Block) (i : Nat) (v : BitVec 32) : Block := fun j => write32 (bytes b) (4 * i) v j

variable {i : Nat}

theorem bytes_setWord (b : Block) (hi : i < 256) (v : BitVec 32) :
    bytes (setWord b i v) = write32 (bytes b) (4 * i) v := by
  funext j
  by_cases hj : j < BSIZE
  · simp [bytes, hj, setWord]
  · simp only [write32]
    rw [writeLE_apply (by simp only [BSIZE] at hj; omega)]
    simp [bytes, hj]

@[simp] theorem word_setWord_self (b : Block) (hi : i < 256) (v : BitVec 32) :
    word (setWord b i v) i = v := by
  simp [word, bytes_setWord b hi]

theorem word_setWord_ne (b : Block) {k : Nat} (hi : i < 256) (h : k ≠ i) (v : BitVec 32) :
    word (setWord b i v) k = word b k := by
  simp only [word, bytes_setWord b hi]
  exact read32_write32_disjoint (by omega)

/-! ## Devices -/

/-- A disk with its buffer cache. -/
structure Dev where
  disk : BlockNo → Block
  /-- The data of the valid buffer of a block, if there is one. -/
  cache : BlockNo → Option Block
  /-- The references the log holds to a block's buffer (`bpin`). -/
  pins : BlockNo → Nat
  /-- The blocks written so far, in order. -/
  writes : List (BlockNo × Block)
  /-- The number of times the rest of the kernel has run. -/
  clock : Nat

/-- What the rest of the kernel does to the buffer of a block: nothing,
recycle it, or read the block. -/
inductive Move
  | keep
  | evict
  | load
  deriving DecidableEq

/-- The choices of the rest of the kernel, each time it runs. -/
abbrev Env := Nat → BlockNo → Move

/-- The data `bread` of a block would return now. -/
def view (d : Dev) (b : BlockNo) : Block := (d.cache b).getD (d.disk b)

/-- The rest of the kernel runs. -/
def settle (e : Env) (d : Dev) : Dev :=
  { d with
    cache := fun b =>
      match e d.clock b with
      | .keep => d.cache b
      | .evict => if d.pins b = 0 then none else d.cache b
      | .load => some (view d b)
    clock := d.clock + 1 }

/-- `bread`: the data of a block, which is cached from now on. -/
def bread (e : Env) (d : Dev) (b : BlockNo) : Block × Dev :=
  let d := settle e d
  (view d b, { d with cache := update d.cache b (some (view d b)) })

/-- `bwrite`: write a buffer's data to disk. -/
def bwrite (d : Dev) (b : BlockNo) (data : Block) : Dev :=
  { d with
    disk := update d.disk b data
    cache := update d.cache b (some data)
    writes := d.writes ++ [(b, data)] }

/-- `bunpin`. -/
def bunpin (d : Dev) (b : BlockNo) : Dev :=
  { d with pins := update d.pins b (d.pins b - 1) }

/-- The machine after a crash: the disk as it was, and nothing in memory. -/
def reboot (disk : BlockNo → Block) : Dev where
  disk := disk
  cache := fun _ => none
  pins := fun _ => 0
  writes := []
  clock := 0

/-! ## What an operation writes -/

/-- From `d` to `d'` exactly the blocks `ws` are written, in order. -/
def Emits (d d' : Dev) (ws : List (BlockNo × Block)) : Prop :=
  d'.writes = d.writes ++ ws ∧ d'.disk = applyWrites d.disk ws

theorem Emits.refl (d : Dev) : Emits d d [] := ⟨(List.append_nil _).symm, rfl⟩

variable {d : Dev} {b b' : BlockNo} {v : Block}

theorem Emits.trans {d1 d2 : Dev} {ws ws' : List (BlockNo × Block)} (h : Emits d d1 ws)
    (h' : Emits d1 d2 ws') : Emits d d2 (ws ++ ws') :=
  ⟨by rw [h'.1, h.1, List.append_assoc], by rw [h'.2, h.2, applyWrites_append]⟩

theorem emits_bread (e : Env) (d : Dev) (b : BlockNo) : Emits d (bread e d b).2 [] :=
  ⟨(List.append_nil _).symm, rfl⟩

theorem emits_bwrite (d : Dev) (b : BlockNo) (data : Block) : Emits d (bwrite d b data) [(b, data)] :=
  ⟨rfl, rfl⟩

theorem emits_bunpin (d : Dev) (b : BlockNo) : Emits d (bunpin d b) [] :=
  ⟨(List.append_nil _).symm, rfl⟩

/-! ## What stays in the cache -/

/-- `bread` of block `b` gives `v`, whatever the rest of the kernel does. -/
structure Holds (d : Dev) (b : BlockNo) (v : Block) : Prop where
  view_eq : view d b = v
  kept : 0 < d.pins b ∨ d.disk b = v

theorem Holds.settle (h : Holds d b v) (e : Env) :
    Holds (settle e d) b v := by
  refine ⟨?_, h.kept⟩
  have hv := h.view_eq
  simp only [view] at hv
  cases he : e d.clock b with
  | keep => simpa only [view, Log.settle, he] using hv
  | load => simpa only [view, Log.settle, he, Option.getD_some] using hv
  | evict =>
    simp only [view, Log.settle, he]
    split
    · rename_i h0
      -- only an unpinned buffer is recycled, and then the disk has the data
      exact h.kept.resolve_left (by omega)
    · exact hv

theorem Holds.bread_eq (h : Holds d b v) (e : Env) :
    (bread e d b).1 = v := (h.settle e).view_eq

theorem Holds.bread (h : Holds d b v) (e : Env) (b' : BlockNo) :
    Holds (bread e d b').2 b v := by
  have hs := h.settle e
  refine ⟨?_, hs.kept⟩
  have hv := hs.view_eq
  simp only [Log.bread, view] at hv ⊢
  by_cases eb : b = b'
  · subst eb; rw [update_self]; exact hv
  · rw [update_of_ne eb]; exact hv

theorem Holds.bwrite (h : Holds d b v) (hb : b ≠ b') (data : Block) : Holds (bwrite d b' data) b v := by
  refine ⟨?_, ?_⟩
  · have hv := h.view_eq
    simp only [view, Log.bwrite, update_of_ne hb] at hv ⊢
    exact hv
  · simp only [Log.bwrite, update_of_ne hb]; exact h.kept

theorem holds_bwrite_self (d : Dev) (b : BlockNo) (data : Block) : Holds (bwrite d b data) b data :=
  ⟨by simp [view, bwrite], .inr (by simp [bwrite])⟩

theorem Holds.bunpin (h : Holds d b v) (hb : b ≠ b') :
    Holds (bunpin d b') b v :=
  ⟨h.view_eq, by simp only [Log.bunpin, update_of_ne hb]; exact h.kept⟩

theorem holds_reboot (disk : BlockNo → Block) (b : BlockNo) : Holds (reboot disk) b (disk b) :=
  ⟨rfl, .inr rfl⟩

end Xv6.Log
