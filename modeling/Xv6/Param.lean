import Mathlib

/-!
# Limits of the kernel

The constants of `kernel/param.h` and `kernel/fs.h` that the model uses.
-/

namespace Xv6

/-- Maximum number of processes. -/
abbrev NPROC : Nat := 64
/-- Open files per process. -/
abbrev NOFILE : Nat := 16
/-- Open files per system. -/
abbrev NFILE : Nat := 100
/-- Maximum number of active inodes. -/
abbrev NINODE : Nat := 50
/-- Number of major device numbers. -/
abbrev NDEV : Nat := 10
/-- Maximum number of arguments of `exec`. -/
abbrev MAXARG : Nat := 32
/-- Maximum number of blocks any file system operation writes. -/
abbrev MAXOPBLOCKS : Nat := 10
/-- Maximum number of data blocks in the on-disk log. -/
abbrev LOGSIZE : Nat := MAXOPBLOCKS * 3
/-- Size of the file system in blocks. -/
abbrev FSSIZE : Nat := 1000
/-- Maximum length of a path name. -/
abbrev MAXPATH : Nat := 128
/-- Number of priority queues. -/
abbrev NPQ : Nat := 5
/-- Ageing threshold. -/
abbrev MAXAGE : Nat := 15
/-- Size of a disk block. -/
abbrev BSIZE : Nat := 1024
/-- Inode number of the root directory. -/
abbrev ROOTINO : Nat := 1
/-- Block addresses held in an inode itself. -/
abbrev NDIRECT : Nat := 12
/-- Block addresses held in an indirect block. -/
abbrev NINDIRECT : Nat := BSIZE / 4
/-- Maximum number of blocks of a file. -/
abbrev MAXFILE : Nat := NDIRECT + NINDIRECT
/-- Inodes per block. -/
abbrev IPB : Nat := BSIZE / 64
/-- Bitmap bits per block. -/
abbrev BPB : Nat := BSIZE * 8
/-- Maximum length of a name in a directory. -/
abbrev DIRSIZ : Nat := 14
/-- Size of a directory entry. -/
abbrev DIRENT : Nat := 2 + DIRSIZ

/-! An index of a table that is not empty can be a numeral. -/

instance neZeroOne : NeZero 1 := ⟨by decide⟩
instance neZeroTwo : NeZero 2 := ⟨by decide⟩
instance neZeroThree : NeZero 3 := ⟨by decide⟩
instance neZeroEight : NeZero 8 := ⟨by decide⟩
instance neZeroLine : NeZero 128 := ⟨by decide⟩
instance neZeroPage : NeZero 512 := ⟨by decide⟩
instance : NeZero NINODE := ⟨by decide⟩
instance : NeZero NPROC := ⟨by decide⟩
instance : NeZero BSIZE := ⟨by decide⟩
instance (priority := high) : NeZero (NDIRECT + 1) := ⟨by decide⟩

end Xv6
