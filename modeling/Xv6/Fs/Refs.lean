import Xv6.Fs.Create

/-!
# References to inodes, and their locks

The inode table counts the files and the current directories that refer to an
entry, holds an inode in one entry only, and between calls no inode is locked.
None of this depends on what is on the disk. Most of `kernel/fs.c` leaves
numbers, reference counts and locks of the table alone (`Quiet`); `Refs K S t`
says of a table `t` that its counts are those of the claims `K`, and that the
locks `S` are held. Calls keep it (`refRules`).
-/

namespace Xv6.Fs

open Framework

variable {sb : Superblock} {α β : Type} {st st' : Store} {e dp : Fin NINODE} {o : Option Short} {m : M α} {ip : Inode}
  {g : Inode → Inode}

/-- The code may stop in any way. -/
def Any (_ : Stop) : Prop := True

/-- The number of an inode, its reference count and its lock. -/
def Inode.key (ip : Inode) : Nat × Nat × Bool := (ip.inum, ip.ref, ip.locked)

def Store.keys (st : Store) (e : Fin NINODE) : Nat × Nat × Bool := (st.itable e).key

theorem keys_putInode (h : ip.key = st.keys e) : (st.putInode e ip).keys = st.keys := by
  funext e'
  rw [Store.keys, Store.putInode_itable, Function.update_apply]
  split
  · rename_i he
    rw [he, h]
  · rfl

/-! ## Code that leaves the table alone -/

/-- `m` changes no number, reference count or lock. -/
structure Quiet (m : M α) : Prop where
  keys : ∀ st, Wp Any m (fun _ st' => st'.keys = st.keys) st

namespace Quiet

theorem pure {a : α} : Quiet (Pure.pure a) := ⟨fun _ => rfl⟩

theorem panic {msg : String} : Quiet (Fs.panic msg : M α) := ⟨fun _ => trivial⟩

variable {b : Log.BlockNo} {data : Log.Block}

theorem bread : Quiet (Fs.bread b) := ⟨fun _ => rfl⟩

theorem setBlock : Quiet (Fs.setBlock b data) := ⟨fun _ => rfl⟩

theorem logWrite : Quiet (Fs.logWrite b data) := ⟨fun _ => rfl⟩

theorem inode : Quiet (Fs.inode e) := ⟨fun _ => rfl⟩

theorem bind {f : α → M β} (hm : Quiet m) (hf : ∀ a, Quiet (f a)) : Quiet (m >>= f) where
  keys st := (hm.keys st).bind fun a st' h => ((hf a).keys st').mono fun _ _ h' => h'.trans h

theorem ite {c : Prop} [Decidable c] {m' : M α} (h : Quiet m) (h' : Quiet m') : Quiet (if c then m else m') where
  keys st := wp_ite (fun _ => h.keys st) fun _ => h'.keys st

theorem forM {l : List α} {f : α → M PUnit} (hf : ∀ a, Quiet (f a)) : Quiet (l.forM f) where
  keys st := wp_forM (fun _ st' => st'.keys = st.keys) (fun h => ((hf _).keys _).mono fun _ _ h' => h'.trans h) rfl

end Quiet

theorem quiet_bzero (b : Log.BlockNo) : Quiet (bzero b) := .logWrite

theorem quiet_balloc : Quiet (balloc sb) := by
  rw [balloc]
  induction List.range' 0 ((sb.size + BPB - 1) / BPB) BPB with
  | nil => exact .panic
  | cons b bs ih =>
    refine .bind .bread fun data => ?_
    split
    · exact ih
    · exact .bind .logWrite fun _ => .bind (quiet_bzero _) fun _ => .pure

theorem quiet_bfree (b : Log.BlockNo) : Quiet (bfree sb b) :=
  .bind .bread fun _ => .ite .panic .logWrite

theorem quiet_iupdate : Quiet (iupdate sb e) :=
  .bind .inode fun _ => .bind .bread fun _ => .logWrite

theorem quiet_bmapAddr (k : Fin (NDIRECT + 1)) : Quiet (bmapAddr sb e k) := by
  refine ⟨fun st => ?_⟩
  simp only [bmapAddr, wp_bind, wp_inode]
  refine wp_ite (fun _ => ?_) fun _ => rfl
  refine (quiet_balloc.keys st).bind fun addr st1 h1 => ?_
  refine (keys_putInode ?_).trans h1
  rw [h1]
  rfl

theorem quiet_bmap (bn : Nat) : Quiet (bmap sb e bn) := by
  rw [bmap]
  refine .ite (quiet_bmapAddr _) (.ite ?_ .panic)
  refine .bind (quiet_bmapAddr _) fun addr => .bind .bread fun data => .ite ?_ .pure
  exact .bind quiet_balloc fun _ => .bind .logWrite fun _ => .pure

theorem quiet_freeAddr (k : Fin (NDIRECT + 1)) : Quiet (freeAddr sb e k) := by
  refine ⟨fun st => ?_⟩
  simp only [freeAddr, wp_bind, wp_inode]
  refine wp_ite (fun _ => rfl) fun _ => ?_
  refine ((quiet_bfree _).keys st).bind fun _ st1 h1 => ?_
  refine (keys_putInode ?_).trans h1
  rw [h1]
  rfl

/-- An entry gets other contents. -/
theorem quiet_set (hg : ∀ ip, (g ip).key = ip.key) (hm : Quiet m) :
    Quiet (do let ip ← inode e; setInode e (g ip); m) := by
  refine ⟨fun st => ?_⟩
  simp only [wp_bind, wp_inode, wp_setInode]
  exact (hm.keys _).mono fun _ st1 h1 => h1.trans (keys_putInode (hg _))

theorem quiet_put (hg : ∀ ip, (g ip).key = ip.key) :
    Quiet (do let ip ← inode e; setInode e (g ip)) := by
  refine ⟨fun st => ?_⟩
  simp only [wp_bind, wp_inode, wp_setInode]
  exact keys_putInode (hg _)

theorem quiet_itrunc : Quiet (itrunc sb e) := by
  refine .bind (.forM fun _ => quiet_freeAddr _) fun _ => .bind .inode fun ip => .bind ?_ fun _ => ?_
  · refine .ite .pure (.bind .bread fun data => .bind (.forM fun j => ?_) fun _ => quiet_freeAddr _)
    exact .ite .pure (quiet_bfree _)
  · exact quiet_set (fun _ => rfl) quiet_iupdate

theorem quiet_readi (dst : Nat → Bool) (off n : Nat) : Quiet (readi sb e dst off n) := by
  refine .bind .inode fun ip => .ite .pure ?_
  generalize (if (off + n) % 2 ^ 32 > ip.size.toNat then ip.size.toNat - off else n) = n
  suffices h : ∀ fuel tot off out, Quiet (readiLoop sb e dst n fuel tot off out) from h ..
  intro fuel
  induction fuel with
  | zero => exact fun _ _ _ => .pure
  | succ fuel ih =>
    intro tot off out
    exact .ite (.bind (quiet_bmap _) fun b => .bind .bread fun data => .ite (ih ..) .pure) .pure

theorem quiet_writei (src : Nat → Option Byte) (off n : Nat) : Quiet (writei sb e src off n) := by
  have hloop : ∀ fuel tot off, Quiet (writeiLoop sb e src n fuel tot off) := by
    intro fuel
    induction fuel with
    | zero => exact fun _ _ => .pure
    | succ fuel ih =>
      intro tot off
      refine .ite (.bind (quiet_bmap _) fun b => .bind .bread fun data => .ite ?_ ?_) .pure
      · exact .bind .logWrite fun _ => ih ..
      · exact .bind .setBlock fun _ => .pure
  refine .bind .inode fun ip => .ite .pure (.ite .pure (.bind (hloop ..) fun r => ?_))
  refine ⟨fun st => ?_⟩
  simp only [wp_bind, wp_inode]
  refine Wp.mono (Q := fun _ st' => st'.keys = st.keys) (wp_ite (fun _ => ?_) fun _ => ?_) fun _ st1 h1 => ?_
  · exact keys_putInode rfl
  · rfl
  · exact (quiet_iupdate.keys st1).mono fun _ _ h2 => h2.trans h1

theorem quiet_readDirent (off : Nat) (msg : String) : Quiet (readDirent sb dp off msg) :=
  .bind (quiet_readi ..) fun _ => .ite .panic .pure

theorem quiet_writeDirent (de : Dirent) (off : Nat) (msg : String) : Quiet (writeDirent sb dp de off msg) :=
  .bind (quiet_writei ..) fun _ => .ite .panic .pure

theorem quiet_dirlinkFrom (last : Nat) (offs : List Nat) : Quiet (dirlinkFrom sb dp last offs) := by
  induction offs with
  | nil => exact .pure
  | cons off offs ih => exact .bind (quiet_readDirent ..) fun _ => .ite .pure ih

theorem quiet_isdirempty : Quiet (isdirempty sb dp) := by
  refine .bind .inode fun ip => ?_
  induction offsets (2 * DIRENT) ip.size.toNat with
  | nil => exact .pure
  | cons off offs ih => exact .bind (quiet_readDirent ..) fun _ => .ite .pure ih

/-! ## The table -/

/-- The table counts the claims `K`, has an inode in one entry only, and the
locks `S` are held. -/
structure Refs (K : Multiset Claim) (S : Multiset (Fin NINODE)) (st : Store) : Prop where
  ref : ∀ e, (st.itable e).ref = (K.map Prod.fst).count e
  uniq : ∀ {e e'}, 0 < (st.itable e).ref → 0 < (st.itable e').ref → (st.itable e).inum = (st.itable e').inum → e = e'
  locked : ∀ e, S.count e = (st.itable e).locked.toNat

variable {K K' : Multiset Claim} {S S' : Multiset (Fin NINODE)}

theorem Refs.of_keys (h : Refs K S st) (hk : st'.keys = st.keys) : Refs K S st' := by
  have hk (e) : (st'.itable e).inum = (st.itable e).inum ∧ (st'.itable e).ref = (st.itable e).ref ∧
      (st'.itable e).locked = (st.itable e).locked := by
    have := congrFun hk e
    simpa only [Store.keys, Inode.key, Prod.mk.injEq] using this
  refine ⟨fun e => ?_, fun {e e'} => ?_, fun e => ?_⟩
  · rw [(hk e).2.1, h.ref]
  · rw [(hk e).1, (hk e').1, (hk e).2.1, (hk e').2.1]
    exact h.uniq
  · rw [(hk e).2.2, h.locked]

theorem Quiet.refs (hm : Quiet m) (h : Refs K S st) : Wp Any m (fun _ => Refs K S) st :=
  (hm.keys st).mono fun _ _ hk => h.of_keys hk

/-- One entry changes. -/
theorem Refs.put (h : Refs K S st)
    (hK : ∀ e', (K'.map Prod.fst).count e' = if e' = e then ip.ref else (K.map Prod.fst).count e')
    (hi : 0 < ip.ref → ∀ e', e' ≠ e → 0 < (st.itable e').ref → (st.itable e').inum ≠ ip.inum)
    (hS : ∀ e', S'.count e' = if e' = e then ip.locked.toNat else S.count e') : Refs K' S' (st.putInode e ip) := by
  have hself : (st.putInode e ip).itable e = ip := by rw [Store.putInode_itable, Function.update_self]
  have hne {e'} (he : e' ≠ e) : (st.putInode e ip).itable e' = st.itable e' := by
    rw [Store.putInode_itable, Function.update_of_ne he]
  refine ⟨fun e' => ?_, uniq_update h.uniq hi, fun e' => ?_⟩
  · rw [hK]
    by_cases he : e' = e
    · rw [if_pos he, he, hself]
    · rw [if_neg he, hne he, h.ref]
  · rw [hS]
    by_cases he : e' = e
    · rw [if_pos he, he, hself]
    · rw [if_neg he, hne he, h.locked]

theorem Refs.ref_pos (h : Refs K S st) (he : (e, o) ∈ K) : 0 < (st.itable e).ref := by
  rw [h.ref]
  exact Multiset.count_pos.mpr (Multiset.mem_map_of_mem Prod.fst he)

/-- The number of an entry in use is its own. -/
theorem Refs.inum_ne (h : Refs K S st) (he : 0 < (st.itable e).ref) {e' : Fin NINODE} (hne : e' ≠ e)
    (he' : 0 < (st.itable e').ref) : (st.itable e').inum ≠ (st.itable e).inum := fun heq => hne (h.uniq he' he heq)

/-- A count that depends on one entry only. -/
theorem eq_ite_self {g : Fin NINODE → β} {b : β} (h : g e = b) (e' : Fin NINODE) :
    g e' = if e' = e then b else g e' := by
  split
  · rename_i he
    rw [he, h]
  · rfl

/-- An entry that is claimed changes, but for its number and count. -/
theorem Refs.touch (h : Refs K S st) (hr : 0 < (st.itable e).ref) (href : ip.ref = (st.itable e).ref)
    (hinum : ip.inum = (st.itable e).inum) (hS : ∀ e', S'.count e' = if e' = e then ip.locked.toNat else S.count e') :
    Refs K S' (st.putInode e ip) := by
  refine h.put (fun e' => ?_) (fun _ e' hne he' => ?_) hS
  · exact eq_ite_self (g := fun e => (K.map Prod.fst).count e) (by rw [href, h.ref]) e'
  · rw [hinum]
    exact h.inum_ne hr hne he'

theorem iget_refs (h : Refs K S st) (inum : Nat) : Wp Any (iget inum) (fun e => Refs ((e, none) ::ₘ K) S) st := by
  refine iget_cases (fun e hr _ => ?_) (fun hno e he => ?_) fun _ => trivial
  · refine h.put (fun e' => ?_) (fun _ e' hne he' => h.inum_ne hr hne he') (eq_ite_self (h.locked e))
    rw [count_cons_fst, h.ref]
  · refine h.put (fun e' => ?_) (fun _ e' _ he' => hno e' he') (eq_ite_self (h.locked e))
    rw [count_cons_fst, ← h.ref e, he]

theorem idup_refs (h : Refs K S st) (he : (e, o) ∈ K) : Wp Any (idup e) (fun e' => Refs ((e', none) ::ₘ K) S) st := by
  refine h.put (fun e' => ?_) (fun _ e' hne he' => h.inum_ne (h.ref_pos he) hne he') (eq_ite_self (h.locked e))
  rw [count_cons_fst, h.ref]

theorem ilock_refs (h : Refs K S st) : Wp Any (ilock sb e) (fun _ => Refs K (e ::ₘ S)) st := by
  simp only [ilock, wp_bind, wp_inode]
  refine wp_ite (fun _ => trivial) fun hr => wp_ite (fun _ => trivial) fun hl => ?_
  have hr' : 0 < (st.itable e).ref := by omega
  have hS (e' : Fin NINODE) : (e ::ₘ S).count e' = if e' = e then true.toNat else S.count e' := by
    rw [Multiset.count_cons]
    split
    · rename_i he
      rw [he, h.locked, Bool.eq_false_of_not_eq_true hl]
      rfl
    · rfl
  refine wp_ite (fun _ => h.touch hr' rfl rfl hS) fun _ => ?_
  simp only [wp_bind, wp_bread, wp_setInode]
  exact wp_ite (fun _ => trivial) fun _ => h.touch hr' rfl rfl hS

theorem iunlock_refs (h : Refs K (e ::ₘ S) st) : Wp Any (iunlock e) (fun _ => Refs K S) st := by
  simp only [iunlock, wp_bind, wp_inode]
  refine wp_ite (fun _ => trivial) fun hl => ?_
  refine h.touch (by omega) rfl rfl fun e' => ?_
  have := h.locked e
  have := (st.itable e).locked.toNat_le
  rw [Multiset.count_cons_self] at *
  split
  · rename_i he
    rw [he]
    show _ = 0
    omega
  · rename_i he
    rw [Multiset.count_cons_of_ne he]

theorem iput_refs (h : Refs ((e, o) ::ₘ K) S st) : Wp Any (iput sb e) (fun _ => Refs K S) st := by
  have hfree : Quiet (do
      itrunc sb e
      let ip ← inode e
      setInode e { ip with type := 0 }
      iupdate sb e
      let ip ← inode e
      setInode e { ip with valid := false }) :=
    .bind quiet_itrunc fun _ => quiet_set (fun _ => rfl) (.bind quiet_iupdate fun _ => quiet_put fun _ => rfl)
  simp only [iput, wp_bind, wp_inode]
  refine Wp.mono (Q := fun _ => Refs ((e, o) ::ₘ K) S)
    (wp_ite (fun _ => wp_ite (fun _ => trivial) fun _ => hfree.refs h) fun _ => h) fun _ st1 h1 => ?_
  refine h1.put (fun e' => ?_) (fun _ e' hne he' => h1.inum_ne (h1.ref_pos (Multiset.mem_cons_self ..)) hne he')
    (eq_ite_self (h1.locked e))
  rw [h1.ref, count_cons_fst, count_cons_fst]
  simp only [↓reduceIte, Nat.add_sub_cancel]
  split
  · rename_i he
    rw [he]
  · rfl

theorem ialloc_refs (h : Refs K S st) (type : Short) :
    Wp Any (ialloc sb type) (fun e => Refs ((e, none) ::ₘ K) S) st := by
  rw [ialloc]
  induction List.range' 1 (sb.ninodes - 1) with
  | nil => trivial
  | cons inum inums ih =>
    simp only [iallocFrom, wp_bind, wp_bread]
    refine wp_ite (fun _ => ?_) fun _ => ih
    exact (Quiet.logWrite.refs h).bind fun _ _ h1 => iget_refs h1 inum

theorem dirlookup_refs (h : Refs K S st) (name : List Byte) :
    Wp Any (dirlookup sb dp name) (Found (Refs · S) K) st := by
  simp only [dirlookup, wp_bind, wp_inode]
  refine wp_ite (fun _ => trivial) fun _ => ?_
  have hoffs : ∀ off ∈ offsets 0 (st.itable dp).size.toNat, off % DIRENT = 0 := fun off => mem_offsets rfl
  generalize offsets 0 (st.itable dp).size.toNat = offs at hoffs
  clear *- h hoffs
  induction offs generalizing st with
  | nil => exact h
  | cons off offs ih =>
    have hoff := hoffs off (List.mem_cons_self ..)
    have ih {st} (h : Refs K S st) := ih h fun off hoff => hoffs off (List.mem_cons_of_mem _ hoff)
    refine ((quiet_readDirent ..).refs h).bind fun de st1 h1 => ?_
    refine wp_ite (fun _ => ih h1) fun _ => wp_ite (fun _ => ?_) fun _ => ih h1
    exact (iget_refs h1 _).bind fun _ _ h2 => ⟨hoff, h2⟩

theorem dirlink_refs (h : Refs K S st) (name : List Byte) (inum : Nat) :
    Wp Any (dirlink sb dp name inum) (fun _ => Refs K S) st := by
  refine (dirlookup_refs h name).bind fun r st1 h1 => ?_
  match r, h1 with
  | some (ip, _), h1 => exact (iput_refs h1.2).bind fun _ _ h2 => h2
  | none, h1 =>
    refine Quiet.refs ?_ h1
    exact .bind .inode fun ip => .bind (quiet_dirlinkFrom ..) fun off => .bind (quiet_writeDirent ..) fun _ => .pure

/-- The type in a claim says nothing here. -/
theorem Refs.retype {o' : Option Short} (h : Refs ((e, o) ::ₘ K) S st) : Refs ((e, o') ::ₘ K) S st := by
  refine ⟨fun e' => ?_, h.uniq, h.locked⟩
  rw [h.ref, count_cons_fst, count_cons_fst]

/-- References and locks are an invariant that calls keep, whatever the disk. -/
def refRules (sb : Superblock) : Rules sb where
  E := Any
  I := Refs
  Ref K e := ∃ o, (e, o) ∈ K
  Num _ := True
  stop _ := trivial
  ref_cons := claimed_cons
  ref := claimed_of_mem
  num _ _ := trivial
  forget := Refs.retype
  root_spec h := iget_refs h ROOTINO
  idup_spec h hc := idup_refs h hc.choose_spec
  ilock_spec h := (ilock_refs h).mono fun _ _ h1 => h1.retype
  relock_spec h _ := ilock_refs h
  iunlock_spec := iunlock_refs
  iput_spec := iput_refs
  dirlookup_spec name h _ := dirlookup_refs h name
  update_spec _ h _ _ _ _ := quiet_iupdate.refs (h.of_keys (keys_putInode rfl))
  ialloc_spec type h := (ialloc_refs h type).mono fun _ _ h1 => (ilock_refs h1).mono fun _ _ h2 => h2.retype
  dirlink_spec name _ h _ _ := dirlink_refs h name _
  clear_spec h _ _ := (quiet_writeDirent ..).refs h
  isdirempty_spec h _ _ := quiet_isdirempty.refs h
  readi_spec dst off _ h _ _ := (quiet_readi dst off _).refs h
  writei_spec src off _ h _ _ _ := (quiet_writei src off _).refs h
  itrunc_spec h _ := quiet_itrunc.refs h

end Xv6.Fs
