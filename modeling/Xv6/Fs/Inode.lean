import Xv6.Fs.Disk

/-!
# Inodes

The inode table and the contents of files: `ialloc` to `writei` of
`kernel/fs.c`. A user buffer is a function of the offset from its address:
the byte there, or `none` where it is not mapped.
-/

namespace Xv6.Fs

open Framework
open Log (BlockNo Block word setWord bytes)

variable (sb : Superblock)

/-! ## The table -/

/-- Where an inode is in its block. -/
def inodeOffset (inum : Nat) : Nat := inum % IPB * 64

/-- Copy a modified in-memory inode to disk. -/
def iupdate (e : Fin NINODE) : M Unit := do
  let ip ← inode e
  let data ← bread (sb.iblock ip.inum)
  logWrite (sb.iblock ip.inum) (ofBytes (ip.toDinode.write (bytes data) (inodeOffset ip.inum)))

/-- Find the inode with number `inum` and return the in-memory copy. -/
def iget (inum : Nat) : M (Fin NINODE) := do
  let s ← get
  match (List.finRange NINODE).find? fun e => 0 < (s.itable e).ref ∧ (s.itable e).inum = inum with
  | some e => do
    setInode e { s.itable e with ref := (s.itable e).ref + 1 }
    return e
  | none =>
    match (List.finRange NINODE).find? fun e => (s.itable e).ref = 0 with
    | none => panic "iget: no inodes"
    | some e => do
      setInode e { s.itable e with inum := inum, ref := 1, valid := false }
      return e

/-- `ialloc`, for the inode numbers of a list. -/
def iallocFrom (type : Short) : List Nat → M (Fin NINODE)
  | [] => panic "ialloc: no inodes"
  | inum :: inums => do
    let data ← bread (sb.iblock inum)
    if (Dinode.read (bytes data) (inodeOffset inum)).type = 0 then do
      logWrite (sb.iblock inum) (ofBytes ((Dinode.ofType type).write (bytes data) (inodeOffset inum)))
      iget inum
    else iallocFrom type inums

/-- Allocate an inode, marked as allocated by giving it type `type`. -/
def ialloc (type : Short) : M (Fin NINODE) := iallocFrom sb type (List.range' 1 (sb.ninodes - 1))

/-- Increment the reference count of an inode. -/
def idup (e : Fin NINODE) : M (Fin NINODE) := do
  let ip ← inode e
  setInode e { ip with ref := ip.ref + 1 }
  return e

/-- Lock an inode, and read it from disk if necessary. -/
def ilock (e : Fin NINODE) : M Unit := do
  let ip ← inode e
  if ip.ref < 1 then panic "ilock"
  else if ip.locked then throw .hang
  else if ip.valid then setInode e { ip with locked := true }
  else do
    let data ← bread (sb.iblock ip.inum)
    let dip := Dinode.read (bytes data) (inodeOffset ip.inum)
    setInode e { ip with toDinode := dip, valid := true, locked := true }
    if dip.type = 0 then panic "ilock: no type" else pure ()

/-- Unlock an inode. -/
def iunlock (e : Fin NINODE) : M Unit := do
  let ip ← inode e
  if !ip.locked ∨ ip.ref < 1 then panic "iunlock" else setInode e { ip with locked := false }

/-! ## Contents -/

/-- The address in `addrs[k]`, of a new block if there is none. -/
def bmapAddr (e : Fin NINODE) (k : Fin (NDIRECT + 1)) : M BlockNo := do
  let ip ← inode e
  if ip.addrs k = 0 then do
    let addr ← balloc sb
    setInode e { ip with addrs := Function.update ip.addrs k addr }
    return addr
  else return ip.addrs k

/-- The disk block address of the `bn`-th block of an inode, of a new block if
there is none. -/
def bmap (e : Fin NINODE) (bn : Nat) : M BlockNo :=
  if bn < NDIRECT then bmapAddr sb e (Fin.ofNat _ bn)
  else if bn - NDIRECT < NINDIRECT then do
    let addr ← bmapAddr sb e indirect
    let data ← bread addr
    if word data (bn - NDIRECT) = 0 then do
      let b ← balloc sb
      logWrite addr (setWord data (bn - NDIRECT) b)
      return b
    else return word data (bn - NDIRECT)
  else panic "bmap: out of range"

/-- Free the block in `addrs[k]`, if there is one. -/
def freeAddr (e : Fin NINODE) (k : Fin (NDIRECT + 1)) : M Unit := do
  let ip ← inode e
  if ip.addrs k = 0 then pure ()
  else do
    bfree sb (ip.addrs k)
    setInode e { ip with addrs := Function.update ip.addrs k 0 }

/-- Free the blocks listed in an indirect block. -/
def freeEntries (data : Block) : M Unit :=
  (List.range NINDIRECT).forM fun j => if word data j = 0 then pure () else bfree sb (word data j)

/-- Truncate an inode (discard contents). -/
def itrunc (e : Fin NINODE) : M Unit := do
  (List.range NDIRECT).forM fun i => freeAddr sb e (Fin.ofNat _ i)
  let ip ← inode e
  (if ip.addrs indirect = 0 then pure ()
  else do
    let data ← bread (ip.addrs indirect)
    freeEntries sb data
    freeAddr sb e indirect)
  let ip ← inode e
  setInode e { ip with size := 0 }
  iupdate sb e

/-- Drop a reference to an in-memory inode, and free the inode if that was the
last reference and no links are left. -/
def iput (e : Fin NINODE) : M Unit := do
  let ip ← inode e
  (if ip.ref = 1 ∧ ip.valid ∧ ip.nlink = 0 then
    if ip.locked then throw .hang
    else do
      itrunc sb e
      let ip ← inode e
      setInode e { ip with type := 0 }
      iupdate sb e
      let ip ← inode e
      setInode e { ip with valid := false }
  else pure ())
  let ip ← inode e
  setInode e { ip with ref := ip.ref - 1 }

def iunlockput (e : Fin NINODE) : M Unit := do
  iunlock e
  iput sb e

/-! ## Copying -/

/-- `either_copyin`: the bytes copied from the `m` ones at `a`, which stop at
the first one that is not mapped. -/
def copyin (src : Nat → Option Byte) (a : Nat) : Nat → List Byte
  | 0 => []
  | m + 1 => match src a with
    | none => []
    | some v => v :: copyin src (a + 1) m

/-- `either_copyout`: the bytes stored at `a`, which stop at the first one that
is not mapped. -/
def copyout (dst : Nat → Bool) (a : Nat) : List Byte → List Byte
  | [] => []
  | v :: vs => if dst a then v :: copyout dst (a + 1) vs else []

/-- The bytes `vs` are copied into a buffer at offset `o`. -/
def putBytes (data : Block) (o : Nat) (vs : List Byte) : Block :=
  ofBytes fun x => if o ≤ x then vs.getD (x - o) (bytes data x) else bytes data x

/-- The `m` bytes at offset `o` of a buffer. -/
def takeBytes (data : Block) (o m : Nat) : List Byte := (List.range m).map fun k => bytes data (o + k)

/-! ## Reading and writing

The loops of `readi` and `writei` take a bound on the number of iterations,
which is the number of bytes: each copies one at least (`chunk_pos`). -/

/-- The loop of `readi`, which returns `tot` and what was stored at `dst`. -/
def readiLoop (e : Fin NINODE) (dst : Nat → Bool) (n : Nat) : Nat → Nat → Nat → List Byte → M (Int × List Byte)
  | 0, tot, _, out => return (tot, out)
  | fuel + 1, tot, off, out =>
    if tot < n then do
      let b ← bmap sb e (off / BSIZE)
      let data ← bread b
      let m := min (n - tot) (BSIZE - off % BSIZE)
      let vs := copyout dst tot (takeBytes data (off % BSIZE) m)
      if vs.length = m then readiLoop e dst n fuel (tot + m) (off + m) (out ++ vs)
      else return (-1, out ++ vs)
    else return (tot, out)

/-- Read data from an inode: the result, and what was stored at `dst`. -/
def readi (e : Fin NINODE) (dst : Nat → Bool) (off n : Nat) : M (Int × List Byte) := do
  let ip ← inode e
  let size := ip.size.toNat
  if off > size ∨ (off + n) % 2 ^ 32 < off then return (0, [])
  else
    let n := if (off + n) % 2 ^ 32 > size then size - off else n
    readiLoop sb e dst n n 0 off []

/-- The loop of `writei`, which returns `tot` and `off`. A buffer into which
only a part could be copied is not logged. -/
def writeiLoop (e : Fin NINODE) (src : Nat → Option Byte) (n : Nat) : Nat → Nat → Nat → M (Nat × Nat)
  | 0, tot, off => return (tot, off)
  | fuel + 1, tot, off =>
    if tot < n then do
      let b ← bmap sb e (off / BSIZE)
      let data ← bread b
      let m := min (n - tot) (BSIZE - off % BSIZE)
      let vs := copyin src tot m
      if vs.length = m then do
        logWrite b (putBytes data (off % BSIZE) vs)
        writeiLoop e src n fuel (tot + m) (off + m)
      else do
        setBlock b (putBytes data (off % BSIZE) vs)
        return (tot, off)
    else return (tot, off)

/-- Write data to an inode. -/
def writei (e : Fin NINODE) (src : Nat → Option Byte) (off n : Nat) : M Int := do
  let ip ← inode e
  if off > ip.size.toNat ∨ (off + n) % 2 ^ 32 < off then return -1
  else if (off + n) % 2 ^ 32 > MAXFILE * BSIZE then return -1
  else do
    let r ← writeiLoop sb e src n n 0 off
    let ip ← inode e
    (if r.2 > ip.size.toNat then setInode e { ip with size := BitVec.ofNat 32 r.2 } else pure ())
    iupdate sb e
    return r.1

theorem chunk_pos {n tot : Nat} (off : Nat) (h : tot < n) : 0 < min (n - tot) (BSIZE - off % BSIZE) := by
  have := Nat.mod_lt off (show 0 < BSIZE by decide)
  omega

end Xv6.Fs
