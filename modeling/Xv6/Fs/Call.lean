import Xv6.Fs.Name

/-!
# System calls on files

The parts of `kernel/file.c` and `kernel/sysfile.c` that work on inodes, with
the file descriptors and the current directory that `fork` and `exit` of
`kernel/proc.c` hand on and release. The arguments of a call are what `argint`,
`argfd` and `argstr` make of the registers: a path is `none` where `argstr`
fails. Pipes are left out, and what a device driver returns is an argument.
-/

namespace Xv6.Fs

open Framework Function

variable (sb : Superblock)

/-! ## Calls on names -/

section Names

variable (cwd : Fin NINODE)

/-- The end of `sys_link` that takes the link count back. -/
def linkBad (e : Fin NINODE) : M Int := do
  ilock sb e
  let ip ← inode e
  setInode e { ip with nlink := ip.nlink - 1 }
  iupdate sb e
  iunlockput sb e
  return -1

/-- Create the path `new` as a link to the same inode as `old`. -/
def sysLink : Option (List Byte) → Option (List Byte) → M Int
  | some old, some new => do
    match ← namei sb cwd old with
    | none => return -1
    | some e => do
      ilock sb e
      let ip ← inode e
      if ip.type = T_DIR then do
        iunlockput sb e
        return -1
      else do
        setInode e { ip with nlink := ip.nlink + 1 }
        iupdate sb e
        iunlock e
        match ← nameiparent sb cwd new with
        | none => linkBad sb e
        | some (dp, name) => do
          ilock sb dp
          let r ← dirlink sb dp name ip.inum
          if r < 0 then do
            iunlockput sb dp
            linkBad sb e
          else do
            iunlockput sb dp
            iput sb e
            return 0
  | _, _ => return -1

/-- The loop of `isdirempty`. -/
def isdiremptyFrom (dp : Fin NINODE) : List Nat → M Bool
  | [] => return true
  | off :: offs => do
    let de ← readDirent sb dp off "isdirempty: readi"
    if de.inum ≠ 0 then return false else isdiremptyFrom dp offs

/-- Is the directory `dp` empty except for `"."` and `".."`? -/
def isdirempty (dp : Fin NINODE) : M Bool := do
  let ip ← inode dp
  isdiremptyFrom sb dp (offsets (2 * DIRENT) ip.size.toNat)

/-- The name `"."`. -/
abbrev dot : List Byte := [0x2e]

/-- The name `".."`. -/
abbrev dotdot : List Byte := [0x2e, 0x2e]

/-- The end of `sys_unlink` that changes nothing. -/
def unlinkBad (dp : Fin NINODE) : M Int := do
  iunlockput sb dp
  return -1

/-- The rest of `sys_unlink`, once the inode to unlink is known. -/
def unlinkEntry (dp e : Fin NINODE) (off : Nat) : M Int := do
  ilock sb e
  let ip ← inode e
  if ip.nlink.toInt < 1 then panic "unlink: nlink < 1"
  else do
    let empty ← (if ip.type = T_DIR then isdirempty sb e else pure true)
    if !empty then do
      iunlockput sb e
      unlinkBad sb dp
    else do
      writeDirent sb dp { inum := 0, name := [] } off "unlink: writei"
      (if ip.type = T_DIR then do
        let d ← inode dp
        setInode dp { d with nlink := d.nlink - 1 }
        iupdate sb dp
      else pure ())
      iunlockput sb dp
      let ip ← inode e
      setInode e { ip with nlink := ip.nlink - 1 }
      iupdate sb e
      iunlockput sb e
      return 0

def sysUnlink : Option (List Byte) → M Int
  | none => return -1
  | some path => do
    match ← nameiparent sb cwd path with
    | none => return -1
    | some (dp, name) => do
      ilock sb dp
      if namecmp name dot = 0 ∨ namecmp name dotdot = 0 then unlinkBad sb dp
      else
        match ← dirlookup sb dp name with
        | none => unlinkBad sb dp
        | some (e, off) => unlinkEntry sb dp e off

/-- The entries `"."` and `".."` of a new directory `e` in `dp`. -/
def createDots (dp e : Fin NINODE) : M Unit := do
  let d ← inode dp
  setInode dp { d with nlink := d.nlink + 1 }
  iupdate sb dp
  let ip ← inode e
  let r ← dirlink sb e dot ip.inum
  if r < 0 then panic "create dots"
  else do
    let r ← dirlink sb e dotdot d.inum
    if r < 0 then panic "create dots" else pure ()

/-- The part of `create` that makes a new inode, named `name` in `dp`. -/
def createNew (dp : Fin NINODE) (name : List Byte) (type major minor : Short) : M (Option (Fin NINODE)) := do
  let e ← ialloc sb type
  ilock sb e
  let ip ← inode e
  setInode e { ip with major := major, minor := minor, nlink := 1 }
  iupdate sb e
  (if type = T_DIR then createDots sb dp e else pure ())
  let r ← dirlink sb dp name ip.inum
  if r < 0 then panic "create: dirlink"
  else do
    iunlockput sb dp
    return some e

def create (path : List Byte) (type major minor : Short) : M (Option (Fin NINODE)) := do
  match ← nameiparent sb cwd path with
  | none => return none
  | some (dp, name) => do
    ilock sb dp
    match ← dirlookup sb dp name with
    | none => createNew sb dp name type major minor
    | some (e, _) => do
      iunlockput sb dp
      ilock sb e
      let ip ← inode e
      if type = T_FILE ∧ (ip.type = T_FILE ∨ ip.type = T_DEVICE) then return some e
      else do
        iunlockput sb e
        return none

/-- `create` in `sys_mkdir` and `sys_mknod`, and what follows it. -/
def createPut (path : Option (List Byte)) (type major minor : Short) : M Int :=
  match path with
  | none => return -1
  | some path => do
    match ← create sb cwd path type major minor with
    | none => return -1
    | some e => do
      iunlockput sb e
      return 0

def sysMkdir (path : Option (List Byte)) : M Int := createPut sb cwd path T_DIR 0 0

def sysMknod (path : Option (List Byte)) (major minor : BitVec 32) : M Int :=
  createPut sb cwd path T_DEVICE (major.setWidth 16) (minor.setWidth 16)

/-- What `sys_exec` does to inodes: it reads the program in pieces, given by
their offsets and lengths, and may stop after any of them. What it returns also
depends on memory, and is an argument. -/
def sysExec (path : Option (List Byte)) (reads : List (BitVec 32 × BitVec 32)) (ret : Int) : M Int :=
  match path with
  | none => return -1
  | some path => do
    match ← namei sb cwd path with
    | none => return -1
    | some e => do
      ilock sb e
      reads.forM fun r => do
        let _ ← readi sb e (fun _ => true) r.1.toNat r.2.toNat
      iunlockput sb e
      return ret

end Names

/-! ## Files -/

/-- The type of a `struct file`. -/
inductive FType
  | none
  | inode
  | device
  deriving DecidableEq

/-- `struct file`. -/
structure File where
  type : FType
  ref : Nat
  readable : Bool
  writable : Bool
  ip : Fin NINODE
  off : Nat
  major : Short

/-- What a process holds of the file system. -/
structure Proc where
  ofile : Fin NOFILE → Option (Fin NFILE)
  cwd : Fin NINODE

/-- The file system with its users. -/
structure State where
  store : Store
  ftable : Fin NFILE → File
  proc : Fin NPROC → Option Proc

/-- Code of `kernel/file.c` and `kernel/sysfile.c`. -/
abbrev Sys := StateT State (Except Stop)

variable {α : Type}

/-- Code of `kernel/fs.c`, which does not see the files. -/
def fs (m : M α) : Sys α := zoom State.store (fun t s => { s with store := t }) m

def file (f : Fin NFILE) : Sys File := return (← get).ftable f

def setFile (f : Fin NFILE) (x : File) : Sys Unit :=
  modify fun s => { s with ftable := update s.ftable f x }

/-- The process that makes a call; a slot without one makes none. -/
def myproc (p : Fin NPROC) : Sys Proc := do
  match (← get).proc p with
  | none => throw .hang
  | some x => return x

def setProc (p : Fin NPROC) (x : Option Proc) : Sys Unit :=
  modify fun s => { s with proc := update s.proc p x }

/-- Allocate a file structure. -/
def filealloc : Sys (Option (Fin NFILE)) := do
  let s ← get
  match (List.finRange NFILE).find? fun f => (s.ftable f).ref = 0 with
  | none => return none
  | some f => do
    setFile f { s.ftable f with ref := 1 }
    return some f

/-- Increment the reference count of a file. -/
def filedup (f : Fin NFILE) : Sys Unit := do
  let x ← file f
  if x.ref < 1 then throw (.panic "filedup") else setFile f { x with ref := x.ref + 1 }

/-- Close a file. -/
def fileclose (f : Fin NFILE) : Sys Unit := do
  let ff ← file f
  if ff.ref < 1 then throw (.panic "fileclose")
  else if ff.ref - 1 > 0 then setFile f { ff with ref := ff.ref - 1 }
  else do
    setFile f { ff with ref := 0, type := .none }
    if ff.type = .none then pure () else fs (iput sb ff.ip)

/-- Read from a file. `drv` is what the driver of a device returns, if there is
one. -/
def fileread (f : Fin NFILE) (dst : Nat → Bool) (n : BitVec 32) (drv : Option Int) : Sys (Int × List Byte) := do
  let x ← file f
  if !x.readable then return (-1, [])
  else
    match x.type with
    | .none => throw (.panic "fileread")
    | .device => return (if x.major.toInt < 0 ∨ x.major.toInt ≥ NDEV then -1 else drv.getD (-1), [])
    | .inode => do
      fs (ilock sb x.ip)
      let r ← fs (readi sb x.ip dst x.off n.toNat)
      (if r.1 > 0 then setFile f { x with off := x.off + r.1.toNat } else pure ())
      fs (iunlock x.ip)
      return r

/-- The most `filewrite` writes in one transaction. -/
abbrev filewriteMax : Nat := (MAXOPBLOCKS - 1 - 1 - 2) / 2 * BSIZE

/-- The loop of `filewrite`, with a bound on the number of iterations: the
number of bytes written. -/
def filewriteFrom (f : Fin NFILE) (src : Nat → Option Byte) (n : Nat) : Nat → Nat → Sys Nat
  | 0, i => return i
  | fuel + 1, i =>
    if i < n then do
      let n1 := min (n - i) filewriteMax
      let x ← file f
      fs (ilock sb x.ip)
      let r ← fs (writei sb x.ip (fun k => src (i + k)) x.off n1)
      (if r > 0 then setFile f { x with off := x.off + r.toNat } else pure ())
      fs (iunlock x.ip)
      if r ≠ n1 then return i else filewriteFrom f src n fuel (i + n1)
    else return i

/-- Write to a file. `drv` is what the driver of a device returns, if there is
one. -/
def filewrite (f : Fin NFILE) (src : Nat → Option Byte) (n : BitVec 32) (drv : Option Int) : Sys Int := do
  let x ← file f
  if !x.writable then return -1
  else
    match x.type with
    | .none => throw (.panic "filewrite")
    | .device => return if x.major.toInt < 0 ∨ x.major.toInt ≥ NDEV then -1 else drv.getD (-1)
    | .inode => do
      let i ← filewriteFrom sb f src n.toInt.toNat n.toInt.toNat 0
      return if (i : Int) = n.toInt then n.toInt else -1

/-! ## System calls -/

/-- `argfd`: the file of a descriptor. -/
def argfd (p : Fin NPROC) (fd : Int) : Sys (Option (Fin NOFILE × Fin NFILE)) := do
  let x ← myproc p
  if h : 0 ≤ fd ∧ fd.toNat < NOFILE then return (x.ofile ⟨fd.toNat, h.2⟩).map (⟨fd.toNat, h.2⟩, ·)
  else return none

/-- Allocate a file descriptor for a file. -/
def fdalloc (p : Fin NPROC) (f : Fin NFILE) : Sys (Option (Fin NOFILE)) := do
  let x ← myproc p
  match (List.finRange NOFILE).find? fun fd => x.ofile fd = none with
  | none => return none
  | some fd => do
    setProc p (some { x with ofile := update x.ofile fd (some f) })
    return some fd

def sysDup (p : Fin NPROC) (fd : Int) : Sys Int := do
  match ← argfd p fd with
  | none => return -1
  | some (_, f) => do
    match ← fdalloc p f with
    | none => return -1
    | some fd => do
      filedup f
      return fd.val

def sysRead (p : Fin NPROC) (fd : Int) (dst : Nat → Bool) (n : BitVec 32) (drv : Option Int) : Sys Int := do
  match ← argfd p fd with
  | none => return -1
  | some (_, f) => do
    let r ← fileread sb f dst n drv
    return r.1

def sysWrite (p : Fin NPROC) (fd : Int) (src : Nat → Option Byte) (n : BitVec 32) (drv : Option Int) : Sys Int := do
  match ← argfd p fd with
  | none => return -1
  | some (_, f) => filewrite sb f src n drv

def sysClose (p : Fin NPROC) (fd : Int) : Sys Int := do
  match ← argfd p fd with
  | none => return -1
  | some (fd, f) => do
    let x ← myproc p
    setProc p (some { x with ofile := update x.ofile fd none })
    fileclose sb f
    return 0

abbrev O_RDONLY : BitVec 32 := 0x000
abbrev O_WRONLY : BitVec 32 := 0x001
abbrev O_RDWR : BitVec 32 := 0x002
abbrev O_CREATE : BitVec 32 := 0x200
abbrev O_TRUNC : BitVec 32 := 0x400

/-- The inode that `sys_open` opens, locked. -/
def openInode (cwd : Fin NINODE) (path : List Byte) (omode : BitVec 32) : M (Option (Fin NINODE)) :=
  if omode &&& O_CREATE ≠ 0 then create sb cwd path T_FILE 0 0
  else do
    match ← namei sb cwd path with
    | none => return none
    | some e => do
      ilock sb e
      let ip ← inode e
      if ip.type = T_DIR ∧ omode ≠ O_RDONLY then do
        iunlockput sb e
        return none
      else return some e

/-- The file `sys_open` makes of an inode. -/
def openFile (x : File) (e : Fin NINODE) (ip : Inode) (omode : BitVec 32) : File :=
  let x := if ip.type = T_DEVICE then { x with type := .device, major := ip.major }
    else { x with type := .inode, off := 0 }
  { x with
    ip := e
    readable := omode &&& O_WRONLY = 0
    writable := omode &&& O_WRONLY ≠ 0 ∨ omode &&& O_RDWR ≠ 0 }

/-- The end of `sys_open` that has no file or no descriptor. -/
def openFail (e : Fin NINODE) : Sys Int := do
  fs (iunlockput sb e)
  return -1

/-- The rest of `sys_open`, once the inode is known. -/
def openFd (p : Fin NPROC) (e : Fin NINODE) (omode : BitVec 32) : Sys Int := do
  let ip ← fs (inode e)
  if ip.type = T_DEVICE ∧ (ip.major.toInt < 0 ∨ ip.major.toInt ≥ NDEV) then openFail sb e
  else
    match ← filealloc with
    | none => openFail sb e
    | some f =>
      match ← fdalloc p f with
      | none => do
        fileclose sb f
        openFail sb e
      | some fd => do
        let x ← file f
        setFile f (openFile x e ip omode)
        (if omode &&& O_TRUNC ≠ 0 ∧ ip.type = T_FILE then fs (itrunc sb e) else pure ())
        fs (iunlock e)
        return fd.val

def sysOpen (p : Fin NPROC) (path : Option (List Byte)) (omode : BitVec 32) : Sys Int :=
  match path with
  | none => return -1
  | some path => do
    let x ← myproc p
    match ← fs (openInode sb x.cwd path omode) with
    | none => return -1
    | some e => openFd sb p e omode

def sysChdir (p : Fin NPROC) (path : Option (List Byte)) : Sys Int :=
  match path with
  | none => return -1
  | some path => do
    let x ← myproc p
    match ← fs (namei sb x.cwd path) with
    | none => return -1
    | some e => do
      fs (ilock sb e)
      let ip ← fs (inode e)
      if ip.type ≠ T_DIR then do
        fs (iunlockput sb e)
        return -1
      else do
        fs (iunlock e)
        fs (iput sb x.cwd)
        setProc p (some { x with cwd := e })
        return 0

/-- The part of `fork` that hands on the files and the current directory; the
child is in slot `child`. -/
def fork (p child : Fin NPROC) : Sys Int := do
  let x ← myproc p
  if ((← get).proc child).isSome then return -1
  else do
    (List.finRange NOFILE).forM fun fd => match x.ofile fd with
      | none => pure ()
      | some f => filedup f
    let cwd ← fs (idup x.cwd)
    setProc child (some { x with cwd := cwd })
    return 0

/-- The part of `exit` that closes the files and releases the current
directory. -/
def exit (p : Fin NPROC) : Sys Int := do
  (List.finRange NOFILE).forM fun fd => do
    let x ← myproc p
    match x.ofile fd with
    | none => pure ()
    | some f => do
      fileclose sb f
      setProc p (some { x with ofile := update x.ofile fd none })
  let x ← myproc p
  fs (iput sb x.cwd)
  setProc p none
  return 0

/-- A system call, with its arguments. -/
inductive Call
  | sysOpen (path : Option (List Byte)) (omode : BitVec 32)
  | sysRead (fd : Int) (dst : Nat → Bool) (n : BitVec 32) (drv : Option Int)
  | sysWrite (fd : Int) (src : Nat → Option Byte) (n : BitVec 32) (drv : Option Int)
  | sysClose (fd : Int)
  | sysDup (fd : Int)
  | sysLink (old new : Option (List Byte))
  | sysUnlink (path : Option (List Byte))
  | sysMkdir (path : Option (List Byte))
  | sysMknod (path : Option (List Byte)) (major minor : BitVec 32)
  | sysChdir (path : Option (List Byte))
  | sysExec (path : Option (List Byte)) (reads : List (BitVec 32 × BitVec 32)) (ret : Int)
  | fork (child : Fin NPROC)
  | exit

/-- A call on names, made from the current directory of a process. -/
def fromCwd (p : Fin NPROC) (m : Fin NINODE → M Int) : Sys Int := do
  let x ← myproc p
  fs (m x.cwd)

/-- A system call of process `p`. -/
def syscall (p : Fin NPROC) : Call → Sys Int
  | .sysOpen path omode => sysOpen sb p path omode
  | .sysRead fd dst n drv => sysRead sb p fd dst n drv
  | .sysWrite fd src n drv => sysWrite sb p fd src n drv
  | .sysClose fd => sysClose sb p fd
  | .sysDup fd => sysDup p fd
  | .sysLink old new => fromCwd p fun cwd => sysLink sb cwd old new
  | .sysUnlink path => fromCwd p fun cwd => sysUnlink sb cwd path
  | .sysMkdir path => fromCwd p fun cwd => sysMkdir sb cwd path
  | .sysMknod path major minor => fromCwd p fun cwd => sysMknod sb cwd path major minor
  | .sysChdir path => sysChdir sb p path
  | .sysExec path reads ret => fromCwd p fun cwd => sysExec sb cwd path reads ret
  | .fork child => fork p child
  | .exit => exit sb p

/-- The state after a call that returns. -/
def step (s : State) (a : Fin NPROC × Call) : Option State :=
  match syscall sb a.1 a.2 s with
  | .ok (_, s') => some s'
  | .error _ => none

/-! ## Boot -/

/-- The store before the first call to the file system. -/
def Store.init (disk : Log.BlockNo → Log.Block) : Store where
  disk := disk
  logged := []
  itable _ := { Dinode.ofType 0 with inum := 0, ref := 0, valid := false, locked := false }

/-- The state in which `userinit` leaves the kernel on a disk: one process, whose
current directory is the root. -/
def boot (disk : Log.BlockNo → Log.Block) : State where
  store := { Store.init disk with
    itable := update (Store.init disk).itable 0
      { (Store.init disk).itable 0 with inum := ROOTINO, ref := 1 } }
  ftable _ := { type := .none, ref := 0, readable := false, writable := false, ip := 0, off := 0, major := 0 }
  proc := update (fun _ => none) 0 (some { ofile := fun _ => none, cwd := 0 })

end Xv6.Fs
