import Xv6.Framework.Wp
import Xv6.Log.Disk

/-!
# The disk format and the block allocator

The format of `kernel/fs.h`, and `balloc` and `bfree` of `kernel/fs.c`. The
store of the file system is the disk, as the buffer cache shows it, with the
table of in-memory inodes. Calls run one at a time, each to its end, and a
piece of kernel code is a function of the store that returns, panics with the
message of the source, or waits for ever.
-/

namespace Xv6.Fs

open Framework Function
open Log (BlockNo Block bytes)

/-- A C `short`. -/
abbrev Short := BitVec 16

abbrev T_DIR : Short := 1
abbrev T_FILE : Short := 2
abbrev T_DEVICE : Short := 3

/-! ## The format -/

/-- The fields of `struct superblock` that `kernel/fs.c` reads after boot. -/
structure Superblock where
  /-- Size of file system image (blocks). -/
  size : Nat
  /-- Number of inodes. -/
  ninodes : Nat
  /-- Block number of first inode block. -/
  inodestart : Nat
  /-- Block number of first free map block. -/
  bmapstart : Nat

/-- `IBLOCK`: the block containing inode `i`. -/
def Superblock.iblock (sb : Superblock) (i : Nat) : BlockNo := BitVec.ofNat 32 (i / IPB + sb.inodestart)

/-- `BBLOCK`: the block of the free map containing the bit for block `b`. -/
def Superblock.bblock (sb : Superblock) (b : Nat) : BlockNo := BitVec.ofNat 32 (b / BPB + sb.bmapstart)

/-- `struct dinode`. -/
structure Dinode where
  /-- File type, 0 if the inode is free. -/
  type : Short
  major : Short
  minor : Short
  nlink : Short
  /-- Size of file (bytes). -/
  size : BitVec 32
  /-- Data block addresses; the last is that of the indirect block. -/
  addrs : Fin (NDIRECT + 1) → BlockNo

/-- The position of the indirect block in `addrs`. -/
abbrev indirect : Fin (NDIRECT + 1) := Fin.last NDIRECT

/-- The `struct dinode` at address `a`. -/
def Dinode.read (m : Bytes) (a : Nat) : Dinode where
  type := read16 m a
  major := read16 m (a + 2)
  minor := read16 m (a + 4)
  nlink := read16 m (a + 6)
  size := read32 m (a + 8)
  addrs k := read32 m (a + 12 + 4 * k)

/-- `m` with a `struct dinode` stored at address `a`. -/
def Dinode.write (m : Bytes) (a : Nat) (d : Dinode) : Bytes :=
  let m := write16 m a d.type
  let m := write16 m (a + 2) d.major
  let m := write16 m (a + 4) d.minor
  let m := write16 m (a + 6) d.nlink
  let m := write32 m (a + 8) d.size
  writeWords m (a + 12) (NDIRECT + 1) fun k => d.addrs (Fin.ofNat _ k)

/-- A zeroed `struct dinode` of some type. -/
def Dinode.ofType (type : Short) : Dinode where
  type := type
  major := 0
  minor := 0
  nlink := 0
  size := 0
  addrs _ := 0

/-! ## The store -/

/-- `struct inode`, without its device, of which there is one. -/
structure Inode extends Dinode where
  inum : Nat
  ref : Nat
  valid : Bool
  /-- Its sleep-lock is held. -/
  locked : Bool

/-- What `kernel/fs.c` works on. -/
structure Store where
  /-- The blocks, as the buffer cache shows them. -/
  disk : BlockNo → Block
  /-- The blocks passed to `log_write`, in order. -/
  logged : List BlockNo
  itable : Fin NINODE → Inode

/-- The store with an in-memory inode replaced. -/
def Store.putInode (s : Store) (e : Fin NINODE) (ip : Inode) : Store :=
  { s with itable := update s.itable e ip }

@[simp] theorem Store.putInode_disk (s : Store) (e : Fin NINODE) (ip : Inode) : (s.putInode e ip).disk = s.disk := rfl

@[simp] theorem Store.putInode_itable (s : Store) (e : Fin NINODE) (ip : Inode) :
    (s.putInode e ip).itable = update s.itable e ip := rfl

/-- How code ends that does not return. -/
inductive Stop
  | panic (msg : String)
  /-- It waits for a sleep-lock that nobody will release. -/
  | hang
  deriving DecidableEq

/-- Code of `kernel/fs.c`. -/
abbrev M := StateT Store (Except Stop)

variable {α : Type}

def panic (msg : String) : M α := throw (.panic msg)

/-- `bread`: the data of a block. -/
def bread (b : BlockNo) : M Block := return (← get).disk b

/-- The data of a block's buffer is changed. -/
def setBlock (b : BlockNo) (data : Block) : M Unit :=
  modify fun s => { s with disk := update s.disk b data }

/-- The data of a block's buffer is changed and passed to `log_write`. -/
def logWrite (b : BlockNo) (data : Block) : M Unit :=
  modify fun s => { s with disk := update s.disk b data, logged := s.logged ++ [b] }

/-- An in-memory inode. -/
def inode (e : Fin NINODE) : M Inode := return (← get).itable e

def setInode (e : Fin NINODE) (ip : Inode) : M Unit := modify (·.putInode e ip)

/-- The first `BSIZE` bytes of some storage, as a block. -/
def ofBytes (m : Bytes) : Block := fun j => m j

/-! ## Blocks -/

/-- Zero a block. -/
def bzero (bno : BlockNo) : M Unit := logWrite bno fun _ => 0

/-- `1 << (bi % 8)`, the bit of the free map in its byte. -/
def mask (bi : Nat) : Byte := 1#8 <<< (bi % 8)

/-- A block of the free map with byte `j` changed. -/
def setByte (data : Block) (j : Nat) (v : Byte) : Block := ofBytes (update (bytes data) j v)

section

variable (sb : Superblock)

/-- `balloc`, from the block `b` of the free map on, for each `b` of a list. -/
def ballocFrom : List Nat → M BlockNo
  | [] => panic "balloc: out of blocks"
  | b :: bs => do
    let data ← bread (sb.bblock b)
    match (List.range' 0 BPB).find? fun bi => b + bi < sb.size ∧ bytes data (bi / 8) &&& mask bi = 0 with
    | none => ballocFrom bs
    | some bi => do
      logWrite (sb.bblock b) (setByte data (bi / 8) (bytes data (bi / 8) ||| mask bi))
      bzero (BitVec.ofNat 32 (b + bi))
      return BitVec.ofNat 32 (b + bi)

/-- Allocate a zeroed disk block. -/
def balloc : M BlockNo := ballocFrom sb (List.range' 0 ((sb.size + BPB - 1) / BPB) BPB)

/-- Free a disk block. -/
def bfree (b : BlockNo) : M Unit := do
  let data ← bread (sb.bblock b.toNat)
  let bi := b.toNat % BPB
  if bytes data (bi / 8) &&& mask bi = 0 then panic "freeing free block"
  else logWrite (sb.bblock b.toNat) (setByte data (bi / 8) (bytes data (bi / 8) &&& ~~~mask bi))

end

end Xv6.Fs
