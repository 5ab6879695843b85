import Xv6.Fs.Call
import Xv6.Fs.Mem

/-!
# Calls on names

`sys_link`, `sys_unlink`, `create` and what `sys_open` does before it has an
inode, for any invariant of the store that the operations of `kernel/fs.c` keep
(`Walk`, `Io`, `Rules`). Each call gives back the claims and the locks it took, but
for those on the inode that `create` returns. An inode opened for writing is
not a directory (`openInode_spec`).
-/

namespace Xv6.Fs

open Framework Multiset

variable {off : Nat}

theorem mem_offsets {start size : Nat} (hs : start % DIRENT = 0) (h : off ∈ offsets start size) :
    off % DIRENT = 0 := by
  obtain ⟨k, -, rfl⟩ := List.mem_range'.mp h
  simp only [DIRENT, DIRSIZ] at *
  omega

/-- The claims after a search for an entry. -/
def Found (I : Multiset Claim → Store → Prop) (K : Multiset Claim) : Option (Fin NINODE × Nat) → Store → Prop
  | none, st => I K st
  | some (e, off), st => off % DIRENT = 0 ∧ I ((e, none) ::ₘ K) st

theorem claimed_cons {K : Multiset Claim} {c e} (h : ∃ o, (e, o) ∈ K) : ∃ o, (e, o) ∈ c ::ₘ K :=
  h.imp fun _ => Multiset.mem_cons_of_mem

theorem claimed_of_mem {K : Multiset Claim} {e o} (h : (e, o) ∈ K) : ∃ o, (e, o) ∈ K := ⟨o, h⟩

/-- An invariant `I K S` of the store, with claims `K` and locks `S`, that a path
lookup keeps. `Ref K` are the entries that `idup` may be given. -/
structure Walk (sb : Superblock) where
  E : Stop → Prop
  I : Multiset Claim → Multiset (Fin NINODE) → Store → Prop
  Ref : Multiset Claim → Fin NINODE → Prop
  ref_cons {K c e} : Ref K e → Ref (c ::ₘ K) e
  forget {K S st e o} : I ((e, o) ::ₘ K) S st → I ((e, none) ::ₘ K) S st
  root_spec {K S st} : I K S st → Wp E (iget ROOTINO) (fun e => I ((e, none) ::ₘ K) S) st
  idup_spec {K S st e} : I K S st → Ref K e → Wp E (idup e) (fun e' => I ((e', none) ::ₘ K) S) st
  ilock_spec {K S st e o} : I ((e, o) ::ₘ K) S st →
    Wp E (ilock sb e) (fun _ st' => I ((e, some (st'.itable e).type) ::ₘ K) (e ::ₘ S) st') st
  iunlock_spec {K S st e} : I K (e ::ₘ S) st → Wp E (iunlock e) (fun _ => I K S) st
  iput_spec {K S st e o} : I ((e, o) ::ₘ K) S st → Wp E (iput sb e) (fun _ => I K S) st
  dirlookup_spec {K S st dp ty} (name : List Byte) : I K S st → (dp, some ty) ∈ K →
    Wp E (dirlookup sb dp name) (Found (I · S) K) st

/-- An invariant that reading and writing of a file with a claim keep. -/
structure Io (sb : Superblock) where
  E : Stop → Prop
  I : Multiset Claim → Multiset (Fin NINODE) → Store → Prop
  stop {r} : Safe r → E r
  relock_spec {K S st e ty} : I K S st → (e, some ty) ∈ K → Wp E (ilock sb e) (fun _ => I K (e ::ₘ S)) st
  iunlock_spec {K S st e} : I K (e ::ₘ S) st → Wp E (iunlock e) (fun _ => I K S) st
  readi_spec {K S st e ty} (dst off) {n} : I K S st → (e, some ty) ∈ K → n < 2 ^ 32 →
    Wp E (readi sb e dst off n) (fun _ => I K S) st
  writei_spec {K S st e ty} (src off) {n} : I K S st → (e, some ty) ∈ K → ty ≠ T_DIR → n < 2 ^ 32 →
    Wp E (writei sb e src off n) (fun _ => I K S) st

/-- An invariant that calls keep. `Num` are the inode numbers that a directory may get. -/
structure Rules (sb : Superblock) extends Walk sb, Io sb where
  Num : Nat → Prop
  num {K S st e o} : I K S st → (e, o) ∈ K → Num (st.itable e).inum
  ref {K e o} : (e, o) ∈ K → Ref K e
  update_spec {K S st e ty} (dn : Dinode) : I K S st → (e, some ty) ∈ K → dn.type = (st.itable e).type →
    dn.size = (st.itable e).size → dn.addrs = (st.itable e).addrs →
    Wp E (iupdate sb e) (fun _ => I K S) (st.putDinode e dn)
  ialloc_spec {K S st} (type : Short) : I K S st → Wp E (ialloc sb type)
    (fun e => Wp E (ilock sb e) fun _ => I ((e, some type) ::ₘ K) (e ::ₘ S)) st
  dirlink_spec {K S st dp ty} (name : List Byte) {inum} : I K S st → (dp, some ty) ∈ K → Num inum →
    Wp E (dirlink sb dp name inum) (fun _ => I K S) st
  clear_spec {K S st dp ty off} : I K S st → (dp, some ty) ∈ K → off % DIRENT = 0 →
    Wp E (writeDirent sb dp { inum := 0, name := [] } off "unlink: writei") (fun _ => I K S) st
  isdirempty_spec {K S st dp ty} : I K S st → (dp, some ty) ∈ K → (st.itable dp).type = T_DIR →
    Wp E (isdirempty sb dp) (fun _ => I K S) st
  itrunc_spec {K S st e ty} : I K S st → (e, some ty) ∈ K → Wp E (itrunc sb e) (fun _ => I K S) st

variable {sb : Superblock} {K : Multiset Claim} {S : Multiset (Fin NINODE)} {st : Store} {e dp cwd : Fin NINODE}
  {o o' : Option Short} {ty : Short}

/-! ## Paths -/

namespace Walk

variable (W : Walk sb)

theorem iunlockput_spec (h : W.I ((e, o) ::ₘ K) (e ::ₘ S) st) : Wp W.E (iunlockput sb e) (fun _ => W.I K S) st :=
  (W.iunlock_spec h).bind fun _ _ h1 => W.iput_spec h1

/-- The outer one of two locks is released. -/
theorem iunlockput_outer (h : W.I ((e, o) ::ₘ (dp, o') ::ₘ K) (e ::ₘ dp ::ₘ S) st) :
    Wp W.E (iunlockput sb dp) (fun _ => W.I ((e, o) ::ₘ K) (e ::ₘ S)) st := by
  rw [cons_swap, cons_swap e] at h
  exact W.iunlockput_spec h

/-- The claims after the resolution of a path. -/
def Named {α : Type} (K : Multiset Claim) (S : Multiset (Fin NINODE)) : Option (Fin NINODE × α) → Store → Prop
  | none, st => W.I K S st
  | some (e, _), st => W.I ((e, none) ::ₘ K) S st

theorem namexEnd_spec (h : W.I ((e, none) ::ₘ K) S st) (parent : Bool) :
    Wp W.E (namexFrom.namexEnd sb parent e) (W.Named K S) st :=
  wp_ite (fun _ => (W.iput_spec h).bind fun _ _ h1 => h1) fun _ => h

theorem namexFrom_spec (parent : Bool) {fuel : Nat} {path : List Byte} (h : W.I ((e, none) ::ₘ K) S st) :
    Wp W.E (namexFrom sb parent fuel e path) (W.Named K S) st := by
  induction fuel generalizing e path st with
  | zero => exact W.namexEnd_spec h parent
  | succ fuel ih =>
    rw [namexFrom]
    split
    · exact W.namexEnd_spec h parent
    · rename_i name path' _
      refine (W.ilock_spec h).bind fun _ st1 h1 => ?_
      simp only [wp_bind, wp_inode]
      refine wp_ite (fun _ => ?_) fun _ => wp_ite (fun _ => ?_) fun _ => ?_
      · exact (W.iunlockput_spec h1).bind fun _ _ h2 => h2
      · exact (W.iunlock_spec h1).bind fun _ _ h2 => W.forget h2
      · refine (W.dirlookup_spec name h1 (mem_cons_self ..)).bind fun r st2 h2 => ?_
        rcases r with _ | ⟨next, _⟩
        · exact (W.iunlockput_spec h2).bind fun _ _ h3 => h3
        · obtain ⟨-, h2⟩ := h2
          rw [cons_swap] at h2
          exact (W.iunlockput_spec h2).bind fun _ _ h3 => ih h3

theorem namex_spec (h : W.I K S st) (hc : W.Ref K cwd) (path : List Byte) (parent : Bool) :
    Wp W.E (namex sb cwd path parent) (W.Named K S) st := by
  rw [namex]
  split
  · exact (W.root_spec h).bind fun _ _ h1 => W.namexFrom_spec parent h1
  · exact (W.idup_spec h hc).bind fun _ _ h1 => W.namexFrom_spec parent h1

/-- The claims after `namei`. -/
def Got (K : Multiset Claim) (S : Multiset (Fin NINODE)) : Option (Fin NINODE) → Store → Prop
  | none, st => W.I K S st
  | some e, st => W.I ((e, none) ::ₘ K) S st

theorem namei_spec (h : W.I K S st) (hc : W.Ref K cwd) (path : List Byte) :
    Wp W.E (namei sb cwd path) (W.Got K S) st := by
  refine (W.namex_spec h hc path false).bind fun r st1 h1 => ?_
  match r, h1 with
  | none, h1 => exact h1
  | some _, h1 => exact h1

end Walk

namespace Rules

variable (R : Rules sb)

/-! ## Links -/

theorem linkBad_spec (h : R.I ((e, o) ::ₘ K) S st) : Wp R.E (linkBad sb e) (fun _ => R.I K S) st := by
  refine (R.ilock_spec h).bind fun _ st1 h1 => ?_
  simp only [wp_bind, wp_inode, wp_setInode]
  refine (R.update_spec { (st1.itable e).toDinode with nlink := (st1.itable e).nlink - 1 } h1
    (mem_cons_self ..) rfl rfl rfl).mono fun _ st2 h2 => ?_
  exact (R.iunlockput_spec h2).mono fun _ _ h3 => h3

theorem sysLink_spec (h : R.I K S st) (hc : R.Ref K cwd) (old new : Option (List Byte)) :
    Wp R.E (sysLink sb cwd old new) (fun _ => R.I K S) st := by
  rcases old, new with ⟨_ | old, _ | new⟩
  iterate 3 exact h
  · refine (R.namei_spec h hc old).bind fun r st1 h1 => ?_
    cases r with
    | none => exact h1
    | some e =>
      refine (R.ilock_spec h1).bind fun _ st2 h2 => ?_
      have hmem := mem_cons_self (e, some (st2.itable e).type) K
      simp only [wp_bind, wp_inode]
      refine wp_ite (fun _ => (R.iunlockput_spec h2).bind fun _ _ h3 => h3) fun _ => ?_
      simp only [wp_bind, wp_setInode]
      refine (R.update_spec { (st2.itable e).toDinode with nlink := (st2.itable e).nlink + 1 } h2 hmem rfl rfl rfl).mono
        fun _ st3 h3 => (R.iunlock_spec h3).mono fun _ st4 h4 => ?_
      refine (R.namex_spec h4 (R.ref_cons hc) new true).mono fun r st5 h5 => ?_
      rcases r with _ | ⟨dp, name⟩
      · exact R.linkBad_spec h5
      · refine (R.ilock_spec h5).bind fun _ st6 h6 => ?_
        refine (R.dirlink_spec name h6 (mem_cons_self ..) (R.num h2 hmem)).bind fun r st7 h7 => ?_
        refine wp_ite (fun _ => ?_) fun _ => ?_
        · exact (R.iunlockput_spec h7).bind fun _ _ h8 => R.linkBad_spec h8
        · exact (R.iunlockput_spec h7).bind fun _ _ h8 => (R.iput_spec h8).bind fun _ _ h9 => h9

/-! ## Unlinking -/

theorem unlinkBad_spec (h : R.I ((dp, o) ::ₘ K) (dp ::ₘ S) st) :
    Wp R.E (unlinkBad sb dp) (fun _ => R.I K S) st :=
  (R.iunlockput_spec h).bind fun _ _ h1 => h1

theorem unlinkEntry_spec (h : R.I ((e, none) ::ₘ (dp, some ty) ::ₘ K) (dp ::ₘ S) st)
    (hoff : off % DIRENT = 0) : Wp R.E (unlinkEntry sb dp e off) (fun _ => R.I K S) st := by
  refine (R.ilock_spec h).bind fun _ st1 h1 => ?_
  have hmem := mem_cons_of_mem (b := (e, some (st1.itable e).type)) (mem_cons_self (dp, some ty) K)
  simp only [wp_bind, wp_inode]
  refine wp_ite (fun _ => R.stop (by simp)) fun _ => ?_
  have hempty : Wp R.E (if (st1.itable e).type = T_DIR then isdirempty sb e else pure true) (fun _ =>
      R.I ((e, some (st1.itable e).type) ::ₘ (dp, some ty) ::ₘ K) (e ::ₘ dp ::ₘ S)) st1 :=
    wp_ite (fun ht => R.isdirempty_spec h1 (mem_cons_self ..) ht) fun _ => h1
  rw [wp_bind]
  refine hempty.mono fun empty st2 h2 => ?_
  refine wp_ite (fun _ => (R.iunlockput_spec h2).bind fun _ _ h3 => R.unlinkBad_spec h3) fun _ => ?_
  refine (R.clear_spec h2 hmem hoff).bind fun _ st3 h3 => ?_
  have hnlink : Wp R.E (if (st1.itable e).type = T_DIR then do
        let d ← inode dp
        setInode dp { d with nlink := d.nlink - 1 }
        iupdate sb dp
      else pure ()) (fun _ =>
        R.I ((e, some (st1.itable e).type) ::ₘ (dp, some ty) ::ₘ K) (e ::ₘ dp ::ₘ S)) st3 := by
    refine wp_ite (fun _ => ?_) fun _ => h3
    simp only [wp_bind, wp_inode, wp_setInode]
    exact R.update_spec { (st3.itable dp).toDinode with nlink := (st3.itable dp).nlink - 1 } h3 hmem rfl rfl rfl
  rw [wp_bind]
  refine hnlink.mono fun _ st4 h4 => (R.iunlockput_outer h4).bind fun _ st5 h5 => ?_
  simp only [wp_bind, wp_inode, wp_setInode]
  refine (R.update_spec { (st5.itable e).toDinode with nlink := (st5.itable e).nlink - 1 } h5
    (mem_cons_self ..) rfl rfl rfl).mono fun _ st6 h6 => ?_
  exact (R.iunlockput_spec h6).mono fun _ _ h7 => h7

theorem sysUnlink_spec (h : R.I K S st) (hc : R.Ref K cwd) (path : Option (List Byte)) :
    Wp R.E (sysUnlink sb cwd path) (fun _ => R.I K S) st := by
  match path with
  | none => exact h
  | some path =>
    refine (R.namex_spec h hc path true).bind fun r st1 h1 => ?_
    match r, h1 with
    | none, h1 => exact h1
    | some (dp, name), h1 =>
      refine (R.ilock_spec h1).bind fun _ st2 h2 => ?_
      refine wp_ite (fun _ => R.unlinkBad_spec h2) fun _ => ?_
      refine (R.dirlookup_spec name h2 (mem_cons_self ..)).bind fun r st3 h3 => ?_
      match r, h3 with
      | none, h3 => exact R.unlinkBad_spec h3
      | some (e, off), ⟨hoff, h3⟩ => exact R.unlinkEntry_spec h3 hoff

/-! ## Creation -/

theorem createDots_spec (h : R.I K S st) {ty' : Short} (hdp : (dp, some ty) ∈ K) (he : (e, some ty') ∈ K) :
    Wp R.E (createDots sb dp e) (fun _ => R.I K S) st := by
  simp only [createDots, wp_bind, wp_inode, wp_setInode]
  refine (R.update_spec { (st.itable dp).toDinode with nlink := (st.itable dp).nlink + 1 } h hdp rfl rfl rfl).mono
    fun _ st1 h1 => ?_
  refine (R.dirlink_spec dot h1 he (R.num h1 he)).mono fun r st2 h2 => ?_
  refine wp_ite (fun _ => R.stop (by simp)) fun _ => ?_
  refine (R.dirlink_spec dotdot h2 he (R.num h hdp)).bind fun r st3 h3 => ?_
  exact wp_ite (fun _ => R.stop (by simp)) fun _ => h3

/-- The claims after a call that returns a locked inode, whose type is one of `T`. -/
def Locked (K : Multiset Claim) (S : Multiset (Fin NINODE)) (T : Short → Prop) : Option (Fin NINODE) → Store → Prop
  | none, st => R.I K S st
  | some e, st => ∃ ty, T ty ∧ R.I ((e, some ty) ::ₘ K) (e ::ₘ S) st

theorem createNew_spec (h : R.I ((dp, some ty) ::ₘ K) (dp ::ₘ S) st) (name : List Byte)
    (type major minor : Short) : Wp R.E (createNew sb dp name type major minor)
      (R.Locked K S fun ty => type = T_FILE → ty ≠ T_DIR) st := by
  simp only [createNew, wp_bind]
  refine (R.ialloc_spec type h).mono fun e st1 h1 => h1.mono fun _ st2 h2 => ?_
  have hmem := mem_cons_self (e, some type) ((dp, some ty) ::ₘ K)
  have hmem' := mem_cons_of_mem (b := (e, some type)) (mem_cons_self (dp, some ty) K)
  simp only [wp_inode, wp_setInode]
  refine (R.update_spec { (st2.itable e).toDinode with major := major, minor := minor, nlink := 1 } h2 hmem
    rfl rfl rfl).mono fun _ st3 h3 => ?_
  have hdots : Wp R.E (if type = T_DIR then createDots sb dp e else pure ())
      (fun _ => R.I ((e, some type) ::ₘ (dp, some ty) ::ₘ K) (e ::ₘ dp ::ₘ S)) st3 :=
    wp_ite (fun _ => R.createDots_spec h3 hmem' hmem) fun _ => h3
  refine hdots.mono fun _ st4 h4 => (R.dirlink_spec name h4 hmem' (R.num h2 hmem)).mono fun r st5 h5 => ?_
  refine wp_ite (fun _ => R.stop (by simp)) fun _ => (R.iunlockput_outer h5).bind fun _ _ h6 => ?_
  refine ⟨type, ?_, h6⟩
  rintro rfl
  decide

theorem create_spec (h : R.I K S st) (hc : R.Ref K cwd) (path : List Byte) (type major minor : Short) :
    Wp R.E (create sb cwd path type major minor) (R.Locked K S fun ty => type = T_FILE → ty ≠ T_DIR) st := by
  refine (R.namex_spec h hc path true).bind fun r st1 h1 => ?_
  match r, h1 with
  | none, h1 => exact h1
  | some (dp, name), h1 =>
    refine (R.ilock_spec h1).bind fun _ st2 h2 => ?_
    refine (R.dirlookup_spec name h2 (mem_cons_self ..)).bind fun r st3 h3 => ?_
    match r, h3 with
    | none, h3 => exact R.createNew_spec h3 name type major minor
    | some (e, _), ⟨_, h3⟩ =>
      rw [cons_swap] at h3
      refine (R.iunlockput_spec h3).bind fun _ st4 h4 => (R.ilock_spec h4).bind fun _ st5 h5 => ?_
      simp only [wp_bind, wp_inode]
      refine wp_ite (fun ht => ⟨_, fun _ => ?_, h5⟩) fun _ => (R.iunlockput_spec h5).bind fun _ _ h6 => h6
      obtain ht | ht := ht.2 <;> rw [ht] <;> decide

theorem createPut_spec (h : R.I K S st) (hc : R.Ref K cwd) (path : Option (List Byte)) (type major minor : Short) :
    Wp R.E (createPut sb cwd path type major minor) (fun _ => R.I K S) st := by
  match path with
  | none => exact h
  | some path =>
    refine (R.create_spec h hc path type major minor).bind fun r st1 h1 => ?_
    match r, h1 with
    | none, h1 => exact h1
    | some e, ⟨_, _, h1⟩ => exact (R.iunlockput_spec h1).bind fun _ _ h2 => h2

/-- A directory is only opened for reading. -/
theorem openInode_spec (h : R.I K S st) (hc : R.Ref K cwd) (path : List Byte) (omode : BitVec 32) :
    Wp R.E (openInode sb cwd path omode) (R.Locked K S fun ty => ty = T_DIR → omode = O_RDONLY) st := by
  rw [openInode]
  refine wp_ite (fun _ => ?_) fun _ => ?_
  · refine (R.create_spec h hc path T_FILE 0 0).mono fun r st1 h1 => ?_
    match r, h1 with
    | none, h1 => exact h1
    | some e, ⟨ty, hty, h1⟩ => exact ⟨ty, fun ht => absurd ht (hty rfl), h1⟩
  · refine (R.namei_spec h hc path).bind fun r st1 h1 => ?_
    match r, h1 with
    | none, h1 => exact h1
    | some e, h1 =>
      refine (R.ilock_spec h1).bind fun _ st2 h2 => ?_
      simp only [wp_bind, wp_inode]
      refine wp_ite (fun _ => (R.iunlockput_spec h2).bind fun _ _ h3 => h3) fun hno => ⟨_, fun ht => ?_, h2⟩
      by_contra hne
      exact hno ⟨ht, hne⟩

/-! ## Programs -/

theorem sysExec_spec (h : R.I K S st) (hc : R.Ref K cwd) (path : Option (List Byte))
    (reads : List (BitVec 32 × BitVec 32)) (ret : Int) :
    Wp R.E (sysExec sb cwd path reads ret) (fun _ => R.I K S) st := by
  match path with
  | none => exact h
  | some path =>
    refine (R.namei_spec h hc path).bind fun r st1 h1 => ?_
    match r, h1 with
    | none, h1 => exact h1
    | some e, h1 =>
      refine (R.ilock_spec h1).bind fun _ st2 h2 => ?_
      refine (wp_forM (fun _ => R.I ((e, some (st2.itable e).type) ::ₘ K) (e ::ₘ S)) (fun h3 => ?_) h2).bind
        fun _ st3 h3 => (R.iunlockput_spec h3).bind fun _ _ h4 => h4
      exact (R.readi_spec _ _ h3 (mem_cons_self ..) (BitVec.isLt _)).bind fun _ _ h4 => h4

end Rules

end Xv6.Fs
