import Xv6.Fs.Name

/-!
# The program that builds the disk

`mkfs/mkfs.c`. The image file is its sectors, and a call that fails ends the
program. The host is little-endian, so that `xshort` and `xint` change nothing,
and it has room for the image file: the writes of the image do not fail.
-/

namespace Xv6.Mkfs

open Framework
open Fs
open Log (BlockNo Block word setWord bytes)

abbrev NINODES : Nat := 200

/-! ## The layout

`[ boot block | sb block | log | inode blocks | free bit map | data blocks ]` -/

abbrev nbitmap : Nat := FSSIZE / (BSIZE * 8) + 1
abbrev ninodeblocks : Nat := NINODES / IPB + 1
abbrev nlog : Nat := LOGSIZE
/-- Number of meta blocks (boot, sb, nlog, inode, bitmap). -/
abbrev nmeta : Nat := 2 + nlog + ninodeblocks + nbitmap
/-- Number of data blocks. -/
abbrev nblocks : Nat := FSSIZE - nmeta

abbrev FSMAGIC : Nat := 0x10203040

/-- The fields of the superblock that the kernel reads after boot. -/
abbrev sb : Superblock where
  size := FSSIZE
  ninodes := NINODES
  inodestart := 2 + nlog
  bmapstart := 2 + nlog + ninodeblocks

/-- The block that starts with the `struct superblock`. -/
def sbBlock : Block :=
  ofBytes (writeWords (fun _ => 0) 0 8 fun k => BitVec.ofNat 32
    ([FSMAGIC, FSSIZE, nblocks, NINODES, nlog, 2, 2 + nlog, 2 + nlog + ninodeblocks].getD k 0))

/-! ## The image file -/

/-- The image file and the counters of the program. -/
structure State where
  /-- The sectors of the image file. -/
  disk : BlockNo → Block
  /-- The number of sectors. -/
  len : Nat
  freeinode : Nat
  freeblock : Nat

/-- How the program ends without an image. -/
inductive Exit
  | die (s : String)
  /-- An assertion fails. -/
  | abort

abbrev M := StateT State (Except Exit)

def assert (p : Prop) [Decidable p] : M Unit := if p then pure () else throw .abort

/-- The sector at offset `sec * BSIZE`, a `uint`. -/
def sector (sec : BlockNo) : BlockNo := BitVec.ofNat 32 (sec.toNat * BSIZE % 2 ^ 32 / BSIZE)

def wsect (sec : BlockNo) (buf : Block) : M Unit :=
  modify fun s => { s with
    disk := Function.update s.disk (sector sec) buf
    len := max s.len ((sector sec).toNat + 1) }

def rsect (sec : BlockNo) : M Block := do
  let s ← get
  if (sector sec).toNat < s.len then return s.disk (sector sec) else throw (.die "read")

def winode (inum : Nat) (ip : Dinode) : M Unit := do
  let buf ← rsect (sb.iblock inum)
  wsect (sb.iblock inum) (ofBytes (ip.write (bytes buf) (inodeOffset inum)))

def rinode (inum : Nat) : M Dinode := do
  let buf ← rsect (sb.iblock inum)
  return Dinode.read (bytes buf) (inodeOffset inum)

def ialloc (type : Short) : M Nat := do
  let s ← get
  set { s with freeinode := s.freeinode + 1 }
  winode s.freeinode { Dinode.ofType type with nlink := 1 }
  return s.freeinode

/-- Mark the first `used` blocks in the free map. -/
def balloc (used : Nat) : M Unit := do
  assert (used < BSIZE * 8)
  wsect (BitVec.ofNat 32 sb.bmapstart)
    ((List.range used).foldl (fun buf i => setByte buf (i / 8) (bytes buf (i / 8) ||| mask i)) fun _ => 0)

/-! ## Contents -/

/-- The number in `freeblock++`. -/
def newblock : M BlockNo := do
  let s ← get
  set { s with freeblock := s.freeblock + 1 }
  return BitVec.ofNat 32 s.freeblock

/-- The inode with a block in `addrs[k]`. -/
def addrBlock (din : Dinode) (k : Fin (NDIRECT + 1)) : M Dinode :=
  if din.addrs k = 0 then do
    let b ← newblock
    return { din with addrs := Function.update din.addrs k b }
  else return din

/-- The block in entry `j` of the indirect block, a new one if there is none, and
its data. -/
def entryBlock (din : Dinode) (j : Nat) : M (BlockNo × Block) := do
  let addrs ← rsect (din.addrs indirect)
  if word addrs j = 0 then do
    let x ← newblock
    wsect (din.addrs indirect) (setWord addrs j x)
    let buf ← rsect x
    return (x, buf)
  else do
    let buf ← rsect (word addrs j)
    return (word addrs j, buf)

/-- The `fbn`-th block of an inode, a new one if there is none: the inode, the
number of the block and its data. -/
def fileBlock (din : Dinode) (fbn : Nat) : M (Dinode × BlockNo × Block) :=
  if fbn < NDIRECT then do
    let din ← addrBlock din (Fin.ofNat _ fbn)
    let buf ← rsect (din.addrs (Fin.ofNat _ fbn))
    return (din, din.addrs (Fin.ofNat _ fbn), buf)
  else do
    let din ← addrBlock din indirect
    let (x, buf) ← entryBlock din (fbn - NDIRECT)
    return (din, x, buf)

/-- The loop of `iappend`, with a bound on the number of iterations: the inode
and the offset after the bytes `p`. -/
def iappendLoop : Nat → Dinode → Nat → List Byte → M (Dinode × Nat)
  | 0, din, off, _ => return (din, off)
  | fuel + 1, din, off, p =>
    if p = [] then return (din, off)
    else do
      let fbn := off / BSIZE
      assert (fbn < MAXFILE)
      let (din, x, buf) ← fileBlock din fbn
      let n1 := min p.length ((fbn + 1) * BSIZE - off)
      wsect x (putBytes buf (off - fbn * BSIZE) (p.take n1))
      iappendLoop fuel din (off + n1) (p.drop n1)

def iappend (inum : Nat) (p : List Byte) : M Unit := do
  let din ← rinode inum
  let (din, off) ← iappendLoop p.length din din.size.toNat p
  winode inum { din with size := BitVec.ofNat 32 off }

/-! ## The program -/

/-- A file to be put into the image. -/
structure InFile where
  /-- Its path on the host, a C string. -/
  arg : List Byte
  /-- What the calls of `read` return, if the file can be opened. -/
  reads : Option (List (List Byte))
  nul : 0 ∉ arg
  /-- A `read` that is not the last one returns from 1 to `BSIZE` bytes. -/
  sizes : ∀ vs ∈ reads, ∀ v ∈ vs, v ≠ [] ∧ v.length ≤ BSIZE

/-- The bytes of `"user/"`. -/
def userDir : List Byte := [0x75, 0x73, 0x65, 0x72, 0x2f]

/-- Get rid of `"user/"`. -/
def dropUser (arg : List Byte) : List Byte := if strncmp 5 arg userDir = 0 then arg.drop 5 else arg

/-- Skip a leading `_`. -/
def skipUnderscore (name : List Byte) : List Byte := if name.headD 0 = 0x5f then name.tail else name

/-- The name of a file in the image. -/
def InFile.shortname (f : InFile) : List Byte := skipUnderscore (dropUser f.arg)

/-- What a file holds. -/
def InFile.content (f : InFile) : List Byte := (f.reads.getD []).flatten

/-- One file of the command line. -/
def addFile (rootino : Nat) (f : InFile) : M Unit := do
  assert (slash ∉ dropUser f.arg)
  match f.reads with
  | none => throw (.die "open")
  | some reads => do
    let inum ← ialloc T_FILE
    let de : Dirent := { inum := BitVec.ofNat 16 inum, name := strncpy DIRSIZ f.shortname }
    iappend rootino de.toBytes
    reads.forM (iappend inum)

/-- Write zeroes to the first `n` sectors. -/
@[irreducible] def zeroSectors (n : Nat) : M Unit := (List.range n).forM fun i => wsect (BitVec.ofNat 32 i) fun _ => 0

def main (files : List InFile) : M Unit := do
  zeroSectors FSSIZE
  wsect 1 sbBlock
  let rootino ← ialloc T_DIR
  assert (rootino = ROOTINO)
  iappend rootino ({ inum := BitVec.ofNat 16 rootino, name := [0x2e] } : Dirent).toBytes
  iappend rootino ({ inum := BitVec.ofNat 16 rootino, name := [0x2e, 0x2e] } : Dirent).toBytes
  files.forM (addFile rootino)
  -- fix size of root inode dir
  let din ← rinode rootino
  winode rootino { din with size := BitVec.ofNat 32 ((din.size.toNat / BSIZE + 1) * BSIZE) }
  let s ← get
  balloc s.freeblock

/-- The program starts with an empty image file. -/
def start : State where
  disk := fun _ _ => 0
  len := 0
  freeinode := 1
  freeblock := nmeta

end Xv6.Mkfs
