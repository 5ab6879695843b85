import Xv6.Fs.Create
import Xv6.Fs.Write

/-!
# Directories keep the invariant

An entry read from a directory carries an inode number of the disk, so that
`iget` may be given it, and `dirlink` writes such an entry. With this the
operations on inodes keep the invariant as calls need it (`Layout.rules`).
-/

namespace Xv6.Fs

open Framework List

variable {sb : Superblock} {K : Multiset Claim} {st : Store} {e dp cwd : Fin NINODE} {o : Option Short} {ty : Short}
  {offs : List Nat} {off : Nat} {msg : String} {de : Dirent}

/-! ## Entries -/

theorem Inv.type_eq (h : Inv sb K st) (hc : (e, some ty) ∈ K) :
    ((image sb st.disk).inode (st.itable e).inum).type = ty := by
  rw [← h.current_eq hc, current_inode_self, (h.mem.know hc).2]

theorem readDirent_spec (h : Inv sb K st) (hc : (dp, some T_DIR) ∈ K) (hoff : off % DIRENT = 0)
    (hmsg : msg ≠ "freeing free block") :
    Wp Safe (readDirent sb dp off msg) (fun de st' => st' = st ∧ de.inum.toNat < sb.ninodes) st := by
  refine (readi_spec h hc (by decide)).bind fun r st1 h1 => ?_
  obtain ⟨rfl, hr, hread⟩ := h1
  refine wp_ite (fun _ => by simpa using hmsg) fun hne => ⟨rfl, ?_⟩
  have hlen : r.2.length = 16 := by simp only [DIRENT, DIRSIZ] at hne; omega
  have hget (k : Nat) (hk : k < 16) := hread k _ (List.getElem?_eq_getElem (by omega))
  obtain ⟨-, hlo⟩ := hget 0 (by decide)
  obtain ⟨-, hhi⟩ := hget 1 (by decide)
  obtain ⟨hlast, -⟩ := hget 15 (by decide)
  obtain ⟨k, rfl⟩ : ∃ k, off = 16 * k := ⟨off / 16, by simp only [DIRENT, DIRSIZ] at hoff; omega⟩
  have := h.dirs _ k _ _ (h.type_eq hc) (by omega) hlo hhi
  simp only [Dirent.ofBytes, List.getD_eq_getElem?_getD, List.getElem?_eq_getElem (show 0 < r.2.length by omega),
    List.getElem?_eq_getElem (show 1 < r.2.length by omega), Option.getD_some, BitVec.toNat_ofNat]
  exact Nat.lt_of_le_of_lt (Nat.mod_le ..) this

theorem entryOk_toBytes (h : de.inum.toNat < sb.ninodes) : EntryOk sb fun k => de.toBytes[k]? := by
  intro lo hi hlo hhi
  simp only [Dirent.toBytes, cons_append, nil_append, List.getElem?_cons_zero, List.getElem?_cons_succ,
    Option.some.injEq] at hlo hhi
  subst hlo hhi
  simp only [BitVec.toNat_ofNat]
  omega

theorem writeDirent_spec (L : Layout sb) (h : Inv sb K st) (hc : (dp, some ty) ∈ K)
    (hde : de.inum.toNat < sb.ninodes) (hoff : off % DIRENT = 0)
    (hmsg : msg ≠ "freeing free block") : Wp Safe (writeDirent sb dp de off msg) (fun _ => Inv sb K) st := by
  refine (writei_spec L h hc (by decide) fun _ => ⟨rfl, hoff, entryOk_toBytes hde⟩).bind fun r st1 h1 => ?_
  refine wp_ite (fun _ => by simpa using hmsg) fun hne => ?_
  exact h1 fun _ => by simpa using hne

/-! ## Directories -/

theorem dirlookupFrom_spec (h : Inv sb K st) (hc : (dp, some T_DIR) ∈ K) (name : List Byte)
    (hoffs : ∀ off ∈ offs, off % DIRENT = 0) :
    Wp Safe (dirlookupFrom sb dp name offs) (Found (Inv sb) K) st := by
  induction offs with
  | nil => exact h
  | cons off offs ih =>
    have ih := ih fun off hoff => hoffs off (mem_cons_of_mem _ hoff)
    have hoff := hoffs off (mem_cons_self ..)
    refine (readDirent_spec h hc hoff (by decide)).bind fun de st1 h1 => ?_
    obtain ⟨rfl, hde⟩ := h1
    refine wp_ite (fun _ => ih) fun _ => wp_ite (fun _ => ?_) fun _ => ih
    exact (iget_spec h hde).bind fun e st2 h2 => ⟨hoff, h2.1⟩

theorem dirlookup_spec (h : Inv sb K st) (hc : (dp, some ty) ∈ K) (name : List Byte) :
    Wp Safe (dirlookup sb dp name) (fun r st' => ty = T_DIR ∧ Found (Inv sb) K r st') st := by
  have hty := (h.mem.know hc).2
  simp only [dirlookup, wp_bind, wp_inode]
  refine wp_ite (fun _ => by simp) fun ht => ?_
  obtain rfl : ty = T_DIR := by rw [← hty]; simpa using ht
  exact (dirlookupFrom_spec h hc name fun off => mem_offsets rfl).mono fun _ _ h' => ⟨rfl, h'⟩

theorem dirlinkFrom_spec (h : Inv sb K st) (hc : (dp, some T_DIR) ∈ K) {last : Nat} (hlast : last % DIRENT = 0)
    (hoffs : ∀ off ∈ offs, off % DIRENT = 0) :
    Wp Safe (dirlinkFrom sb dp last offs) (fun off st' => st' = st ∧ off % DIRENT = 0) st := by
  induction offs with
  | nil => exact ⟨rfl, hlast⟩
  | cons off offs ih =>
    refine (readDirent_spec h hc (hoffs off (mem_cons_self ..)) (by decide)).bind fun de st1 h1 => ?_
    obtain ⟨rfl, -⟩ := h1
    exact wp_ite (fun _ => ⟨rfl, hoffs off (mem_cons_self ..)⟩)
      fun _ => ih fun off hoff => hoffs off (mem_cons_of_mem _ hoff)

theorem dirlink_spec (L : Layout sb) (h : Inv sb K st) (hc : (dp, some ty) ∈ K) (name : List Byte) {inum : Nat}
    (hi : inum < sb.ninodes) : Wp Safe (dirlink sb dp name inum) (fun _ => Inv sb K) st := by
  refine (dirlookup_spec h hc name).bind fun r st1 h1 => ?_
  obtain ⟨rfl, hf⟩ := h1
  match r, hf with
  | some (e, off), hf => exact (iput_spec L hf.2).bind fun _ _ h2 => h2
  | none, hf =>
    have hf : Inv sb K st1 := hf
    simp only [wp_bind, wp_inode]
    refine (dirlinkFrom_spec hf hc ?_ fun off => mem_offsets rfl).mono fun off st2 h2 => ?_
    · exact Nat.mul_mod_left ..
    · obtain ⟨rfl, hoff⟩ := h2
      refine (writeDirent_spec L hf hc ?_ hoff (by decide)).mono fun _ _ h3 => h3
      rw [BitVec.toNat_ofNat]
      exact Nat.lt_of_le_of_lt (Nat.mod_le ..) hi

theorem isdiremptyFrom_spec (h : Inv sb K st) (hc : (dp, some T_DIR) ∈ K)
    (hoffs : ∀ off ∈ offs, off % DIRENT = 0) : Wp Safe (isdiremptyFrom sb dp offs) (fun _ st' => st' = st) st := by
  induction offs with
  | nil => rfl
  | cons off offs ih =>
    refine (readDirent_spec h hc (hoffs off (mem_cons_self ..)) (by decide)).bind fun de st1 h1 => ?_
    obtain ⟨rfl, -⟩ := h1
    exact wp_ite (fun _ => rfl) fun _ => ih fun off hoff => hoffs off (mem_cons_of_mem _ hoff)

theorem isdirempty_spec (h : Inv sb K st) (hc : (dp, some T_DIR) ∈ K) :
    Wp Safe (isdirempty sb dp) (fun _ st' => st' = st) st := by
  simp only [isdirempty, wp_bind, wp_inode]
  exact isdiremptyFrom_spec h hc fun off => mem_offsets rfl

/-! ## Calls -/

/-- A second lock of an inode whose type is known says nothing new. -/
theorem ilock_again (h : Inv sb K st) (hc : (e, some ty) ∈ K) :
    Wp Safe (ilock sb e) (fun _ st' => st'.disk = st.disk ∧ Inv sb K st') st := by
  obtain ⟨K, rfl⟩ := Multiset.exists_cons_of_mem hc
  refine (ilock_spec h).mono fun _ st' h' => ⟨h'.1, ?_⟩
  have := h'.2
  rwa [h.type_eq hc] at this

/-- The invariant of the store is one that calls keep. -/
def Layout.rules (L : Layout sb) : Rules sb where
  E := Safe
  I K _ := Inv sb K
  Ref K e := ∃ o, (e, o) ∈ K
  Num i := i < sb.ninodes
  stop h := h
  ref_cons := claimed_cons
  ref := claimed_of_mem
  num h hc := h.mem.range (h.mem.ref_pos hc)
  forget h := h.of_table rfl h.mem.forget
  root_spec h := (iget_spec h L.root_lt).mono fun _ _ h1 => h1.1
  idup_spec h hc := (idup_spec h hc.choose_spec).mono fun _ _ h1 => by
    obtain ⟨rfl, h1⟩ := h1
    exact h1
  ilock_spec h := (ilock_spec h).mono fun _ _ h1 => by
    rw [(h1.2.mem.know (Multiset.mem_cons_self ..)).2]
    exact h1.2
  relock_spec h hc := (ilock_again h hc).mono fun _ _ h1 => h1.2
  iunlock_spec h := (iunlock_spec h).mono fun _ _ h1 => h1.2
  iput_spec h := iput_spec L h
  dirlookup_spec name h hc := (dirlookup_spec h hc name).mono fun _ _ h1 => h1.2
  update_spec dn h hc ht hs ha := (h.update L hc dn ht hs ha).mono fun _ _ h1 => h1.1
  ialloc_spec type h := (ialloc_spec L h type).mono fun e st1 h1 => (ilock_spec h1.1).mono fun _ _ h2 => by
    rw [h1.2] at h2
    exact h2.2
  dirlink_spec name _ h hc hi := dirlink_spec L h hc name hi
  clear_spec h hc hoff := writeDirent_spec L h hc (Nat.lt_of_le_of_lt (Nat.zero_le _) L.root_lt) hoff (by decide)
  isdirempty_spec h hc ht := by
    rw [(h.mem.know hc).2] at ht
    exact (isdirempty_spec h (ht ▸ hc)).mono fun _ _ h1 => h1 ▸ h
  readi_spec _ _ _ h hc hn := (readi_spec h hc hn).mono fun _ _ h1 => h1.1 ▸ h
  writei_spec _ _ _ h hc hd hn := (writei_spec L h hc hn fun ht => absurd ht hd).mono
    fun _ _ h1 => h1 fun ht => absurd ht hd
  itrunc_spec h hc := (itrunc_spec L h hc).mono fun _ _ h1 => h1.1

end Xv6.Fs
