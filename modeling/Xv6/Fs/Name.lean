import Xv6.Fs.Inode

/-!
# Directories and paths

`namecmp` to `nameiparent` of `kernel/fs.c`. A path, like any C string, is
the list of its bytes without the final NUL, and so is a name of at most
`DIRSIZ` bytes; the current directory of the caller is a parameter.
-/

namespace Xv6.Fs

open Framework List
open Log (bytes)

variable (sb : Superblock)

/-! ## Directories -/

/-- `strncmp`. -/
def strncmp : Nat → List Byte → List Byte → Int
  | 0, _, _ => 0
  | n + 1, p, q =>
    if p.headD 0 ≠ 0 ∧ p.headD 0 = q.headD 0 then strncmp n p.tail q.tail
    else (p.headD 0).toNat - (q.headD 0).toNat

/-- The `n` bytes that `strncpy` stores. -/
def strncpy : Nat → List Byte → List Byte
  | 0, _ => []
  | n + 1, t => if t.headD 0 = 0 then replicate (n + 1) 0 else t.headD 0 :: strncpy n t.tail

def namecmp (s t : List Byte) : Int := strncmp DIRSIZ s t

/-- `struct dirent`. -/
structure Dirent where
  inum : BitVec 16
  name : List Byte

/-- The `struct dirent` in some bytes. -/
def Dirent.ofBytes (vs : List Byte) : Dirent where
  inum := BitVec.ofNat 16 ((vs.getD 0 0).toNat + 256 * (vs.getD 1 0).toNat)
  name := (vs.drop 2).take DIRSIZ

/-- The bytes of a `struct dirent`, with NULs after a short name. -/
def Dirent.toBytes (de : Dirent) : List Byte :=
  [BitVec.ofNat 8 de.inum.toNat, BitVec.ofNat 8 (de.inum.toNat / 256)] ++
    (de.name ++ replicate DIRSIZ 0).take DIRSIZ

/-- Read the entry at `off`, and panic with `msg` if that fails. -/
def readDirent (dp : Fin NINODE) (off : Nat) (msg : String) : M Dirent := do
  let r ← readi sb dp (fun _ => true) off DIRENT
  if r.1 ≠ DIRENT then panic msg else return Dirent.ofBytes r.2

/-- Write the entry at `off`, and panic with `msg` if that fails. -/
def writeDirent (dp : Fin NINODE) (de : Dirent) (off : Nat) (msg : String) : M Unit := do
  let r ← writei sb dp (fun k => de.toBytes[k]?) off DIRENT
  if r ≠ DIRENT then panic msg else pure ()

/-- The offsets of the entries of a directory of `size` bytes, from `start` on. -/
def offsets (start size : Nat) : List Nat := range' start ((size - start + (DIRENT - 1)) / DIRENT) DIRENT

/-- The loop of `dirlookup`. -/
def dirlookupFrom (dp : Fin NINODE) (name : List Byte) : List Nat → M (Option (Fin NINODE × Nat))
  | [] => return none
  | off :: offs => do
    let de ← readDirent sb dp off "dirlookup read"
    if de.inum = 0 then dirlookupFrom dp name offs
    else if namecmp name de.name = 0 then do
      let ip ← iget de.inum.toNat
      return some (ip, off)
    else dirlookupFrom dp name offs

/-- Look for a directory entry in a directory: its inode and the offset of the
entry. -/
def dirlookup (dp : Fin NINODE) (name : List Byte) : M (Option (Fin NINODE × Nat)) := do
  let ip ← inode dp
  if ip.type ≠ T_DIR then panic "dirlookup not DIR" else dirlookupFrom sb dp name (offsets 0 ip.size.toNat)

/-- The offset of the first empty entry, or the end of the directory. -/
def dirlinkFrom (dp : Fin NINODE) (last : Nat) : List Nat → M Nat
  | [] => return last
  | off :: offs => do
    let de ← readDirent sb dp off "dirlink read"
    if de.inum = 0 then return off else dirlinkFrom dp last offs

/-- Write a new directory entry into the directory `dp`. -/
def dirlink (dp : Fin NINODE) (name : List Byte) (inum : Nat) : M Int := do
  match ← dirlookup sb dp name with
  | some (ip, _) => do
    iput sb ip
    return -1
  | none => do
    let ip ← inode dp
    let size := ip.size.toNat
    let off ← dirlinkFrom sb dp ((size + (DIRENT - 1)) / DIRENT * DIRENT) (offsets 0 size)
    writeDirent sb dp { inum := BitVec.ofNat 16 inum, name := strncpy DIRSIZ name } off "dirlink"
    return 0

/-! ## Paths -/

/-- The character `'/'`. -/
abbrev slash : Byte := 0x2f

/-- The next path element, and the path that follows it. -/
def skipelem (path : List Byte) : Option (List Byte × List Byte) :=
  let path := path.dropWhile (· = slash)
  if path = [] then none
  else some ((path.takeWhile (· ≠ slash)).take DIRSIZ, (path.dropWhile (· ≠ slash)).dropWhile (· = slash))

/-- The loop of `namex`, with a bound on the number of elements: the inode and,
for the parent, the final path element. -/
def namexFrom (parent : Bool) : Nat → Fin NINODE → List Byte → M (Option (Fin NINODE × List Byte))
  | 0, ip, _ => namexEnd parent ip
  | fuel + 1, ip, path =>
    match skipelem path with
    | none => namexEnd parent ip
    | some (name, path) => do
      ilock sb ip
      let i ← inode ip
      if i.type ≠ T_DIR then do
        iunlockput sb ip
        return none
      else if parent ∧ path = [] then do
        iunlock ip
        return some (ip, name)
      else
        match ← dirlookup sb ip name with
        | none => do
          iunlockput sb ip
          return none
        | some (next, _) => do
          iunlockput sb ip
          namexFrom parent fuel next path
where
  namexEnd (parent : Bool) (ip : Fin NINODE) : M (Option (Fin NINODE × List Byte)) :=
    if parent then do
      iput sb ip
      return none
    else return some (ip, [])

/-- Look up and return the inode for a path name, or for its parent. -/
def namex (cwd : Fin NINODE) (path : List Byte) (parent : Bool) : M (Option (Fin NINODE × List Byte)) := do
  let ip ← if path.headD 0 = slash then iget ROOTINO else idup cwd
  namexFrom sb parent path.length ip path

def namei (cwd : Fin NINODE) (path : List Byte) : M (Option (Fin NINODE)) := do
  let r ← namex sb cwd path false
  return r.map Prod.fst

def nameiparent (cwd : Fin NINODE) (path : List Byte) : M (Option (Fin NINODE × List Byte)) :=
  namex sb cwd path true

section Paths

variable {path name rest : List Byte}

/-- What `skipelem` makes of a path: slashes, the element `w`, slashes again, and
the rest, which starts with the next element or is empty. -/
structure Skips (path name rest : List Byte) (s w t : List Byte) : Prop where
  path_eq : path = s ++ (w ++ (t ++ rest))
  slashes : ∀ x ∈ s ++ t, x = slash
  word : slash ∉ w
  ne_nil : w ≠ []
  name_eq : name = w.take DIRSIZ
  next : rest.head? ≠ some slash
  last : t = [] → rest = []

theorem mem_takeWhile_slash {l : List Byte} {x : Byte} (h : x ∈ l.takeWhile (· = slash)) : x = slash := by
  simpa using mem_takeWhile_imp h

theorem skipelem_spec (h : skipelem path = some (name, rest)) : ∃ s w t, Skips path name rest s w t := by
  simp only [skipelem] at h
  split at h <;> [cases h; skip]
  rename_i hp
  simp only [Option.some.injEq, Prod.mk.injEq] at h
  obtain ⟨rfl, rfl⟩ := h
  generalize hq : path.dropWhile (· = slash) = p at hp ⊢
  refine ⟨path.takeWhile (· = slash), p.takeWhile (· ≠ slash), (p.dropWhile (· ≠ slash)).takeWhile (· = slash), ?_⟩
  have hhead := head?_dropWhile_not (· = slash) path
  rw [hq] at hhead
  refine ⟨?_, fun x hx => ?_, fun hw => ?_, fun hw => ?_, rfl, fun hr => ?_, fun ht => ?_⟩
  · rw [takeWhile_append_dropWhile, takeWhile_append_dropWhile, ← hq, takeWhile_append_dropWhile]
  · exact (mem_append.mp hx).elim mem_takeWhile_slash mem_takeWhile_slash
  · simpa using mem_takeWhile_imp hw
  · cases p with
    | nil => exact hp rfl
    | cons x p =>
      rw [head?_cons] at hhead
      rw [takeWhile_cons_of_pos (by simpa using hhead)] at hw
      cases hw
  · have := head?_dropWhile_not (· = slash) (p.dropWhile (· ≠ slash))
    rw [hr] at this
    simp at this
  · -- what follows the element is empty or starts with a slash
    have hnext := head?_dropWhile_not (· ≠ slash) p
    cases hd : p.dropWhile (· ≠ slash) with
    | nil => rfl
    | cons x l =>
      rw [hd, head?_cons] at hnext
      rw [hd, takeWhile_cons_of_pos (by simpa using hnext)] at ht
      cases ht

/-- Each element takes at least one byte of the path. -/
theorem skipelem_length (h : skipelem path = some (name, rest)) : rest.length < path.length := by
  obtain ⟨s, w, t, hs⟩ := skipelem_spec h
  have := length_pos_iff.mpr hs.ne_nil
  rw [hs.path_eq, length_append, length_append, length_append]
  omega

end Paths

/-- The bound in `namex` is never met. -/
theorem namexFrom_length (parent : Bool) {n m : Nat} (ip : Fin NINODE) {path : List Byte} (hn : path.length ≤ n)
    (hm : path.length ≤ m) : namexFrom sb parent n ip path = namexFrom sb parent m ip path := by
  induction n generalizing m ip path with
  | zero =>
    obtain rfl := length_eq_zero_iff.mp (Nat.le_zero.mp hn)
    cases m <;> rfl
  | succ n ih =>
    cases m with
    | zero =>
      obtain rfl := length_eq_zero_iff.mp (Nat.le_zero.mp hm)
      rfl
    | succ m =>
      simp only [namexFrom]
      cases hs : skipelem path with
      | none => rfl
      | some r =>
        have hr := skipelem_length hs
        have hnext (next : Fin NINODE) : namexFrom sb parent n next r.2 = namexFrom sb parent m next r.2 :=
          ih next (by omega) (by omega)
        simp only [hnext]

end Xv6.Fs
