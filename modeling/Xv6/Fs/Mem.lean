import Xv6.Fs.Blocks

/-!
# The inode table

A `Claim` is a counted reference to an entry of the inode table, held by code
that runs, by an open file or as a current directory, together with the type
of the inode if its holder has read it. `Mem K nd t` relates the table `t` to
the claims `K` and the inodes `nd` on the disk: the counts are exact, what the
claims say is true, no inode has two entries, and an entry that is valid is a
copy of an allocated inode. Since the claims of others are part of it, whoever
works on one entry keeps what the others know.

`Inv` is the invariant of the store between the operations on inodes, and
`Dirty` what holds while the in-memory copy of one inode is ahead of the disk.
-/

namespace Xv6.Fs

open Framework Function Multiset
open Log (BlockNo Block)

/-- A reference to an entry of the inode table, with the type of the inode if it
has been read. -/
abbrev Claim := Fin NINODE × Option Short

/-- The inode table `t` serves the claims `K` on the inodes `nd`. -/
structure Mem (sb : Superblock) (K : Multiset Claim) (nd : Nat → Dinode) (t : Fin NINODE → Inode) : Prop where
  ref : ∀ e, (t e).ref = (K.map Prod.fst).count e
  know : ∀ {e ty}, (e, some ty) ∈ K → (t e).valid = true ∧ (t e).type = ty
  uniq : ∀ {e e'}, 0 < (t e).ref → 0 < (t e').ref → (t e).inum = (t e').inum → e = e'
  range : ∀ {e}, 0 < (t e).ref → (t e).inum < sb.ninodes
  mirror : ∀ {e}, 0 < (t e).ref → (t e).valid = true → nd (t e).inum = (t e).toDinode ∧ (t e).type ≠ 0

variable {sb : Superblock} {K K' : Multiset Claim} {nd : Nat → Dinode} {t : Fin NINODE → Inode} {e : Fin NINODE}
  {o : Option Short} {ty : Short} {x : Inode}

theorem Mem.ref_pos (h : Mem sb K nd t) (hc : (e, o) ∈ K) : 0 < (t e).ref := by
  rw [h.ref, count_pos]
  exact mem_map_of_mem Prod.fst hc

/-- One entry of the table changes, and no other is for its inode. -/
theorem uniq_update (h : ∀ {e e'}, 0 < (t e).ref → 0 < (t e').ref → (t e).inum = (t e').inum → e = e')
    (hin : 0 < x.ref → ∀ e', e' ≠ e → 0 < (t e').ref → (t e').inum ≠ x.inum) {e1 e2 : Fin NINODE}
    (h1 : 0 < (update t e x e1).ref) (h2 : 0 < (update t e x e2).ref)
    (hi : (update t e x e1).inum = (update t e x e2).inum) : e1 = e2 := by
  by_cases ee1 : e1 = e <;> by_cases ee2 : e2 = e
  · rw [ee1, ee2]
  · subst ee1
    rw [update_self] at h1 hi
    rw [update_of_ne ee2] at h2 hi
    exact absurd hi.symm (hin h1 e2 ee2 h2)
  · subst ee2
    rw [update_self] at h2 hi
    rw [update_of_ne ee1] at h1 hi
    exact absurd hi (hin h2 e1 ee1 h1)
  · rw [update_of_ne ee1] at h1 hi
    rw [update_of_ne ee2] at h2 hi
    exact h h1 h2 hi

/-- One entry of the table changes, and with it the claims on that entry. -/
theorem Mem.set (h : Mem sb K nd t) {nd' : Nat → Dinode}
    (href : ∀ e', (K'.map Prod.fst).count e' = if e' = e then x.ref else (K.map Prod.fst).count e')
    (hknow : ∀ ty, (e, some ty) ∈ K' → x.valid = true ∧ x.type = ty)
    (hK : ∀ e' ty, e' ≠ e → (e', some ty) ∈ K' → (e', some ty) ∈ K)
    (hin : 0 < x.ref → x.inum < sb.ninodes ∧ ∀ e', e' ≠ e → 0 < (t e').ref → (t e').inum ≠ x.inum)
    (hmir : 0 < x.ref → x.valid = true → nd' x.inum = x.toDinode ∧ x.type ≠ 0)
    (hnd : ∀ e', e' ≠ e → 0 < (t e').ref → (t e').valid = true → nd' (t e').inum = nd (t e').inum) :
    Mem sb K' nd' (update t e x) where
  ref e' := by
    rw [href, update_apply]
    split
    · rfl
    · exact h.ref e'
  know {e' ty} hc := by
    by_cases ee : e' = e
    · subst ee; rw [update_self]; exact hknow ty hc
    · rw [update_of_ne ee]; exact h.know (hK e' ty ee hc)
  uniq := uniq_update h.uniq fun hx => (hin hx).2
  range {e'} h' := by
    by_cases ee : e' = e
    · subst ee; rw [update_self] at h' ⊢; exact (hin h').1
    · rw [update_of_ne ee] at h' ⊢; exact h.range h'
  mirror {e'} h' hv := by
    by_cases ee : e' = e
    · subst ee; rw [update_self] at h' hv ⊢; exact hmir h' hv
    · rw [update_of_ne ee] at h' hv ⊢
      rw [hnd e' ee h' hv]
      exact h.mirror h' hv

/-- The other entries with a reference are for other inodes. -/
theorem Mem.inum_ne (h : Mem sb K nd t) (he : 0 < (t e).ref) (e' : Fin NINODE) (hne : e' ≠ e) (he' : 0 < (t e').ref) :
    (t e').inum ≠ (t e).inum := fun hi => hne (h.uniq he' he hi)

theorem count_cons_fst (K : Multiset Claim) (e : Fin NINODE) (o : Option Short) (e' : Fin NINODE) :
    (((e, o) ::ₘ K).map Prod.fst).count e' =
      if e' = e then (K.map Prod.fst).count e + 1 else (K.map Prod.fst).count e' := by
  rw [map_cons, count_cons]
  by_cases h : e' = e
  · subst h; simp
  · simp [h]

/-- The holder of a claim may forget the type. -/
theorem Mem.forget (h : Mem sb ((e, o) ::ₘ K) nd t) : Mem sb ((e, none) ::ₘ K) nd t where
  ref e' := by rw [h.ref, count_cons_fst, count_cons_fst]
  know {e' ty} hc := by
    obtain hc | hc := mem_cons.mp hc
    · cases hc
    · exact h.know (mem_cons_of_mem hc)
  uniq := h.uniq
  range := h.range
  mirror := h.mirror

/-- One more reference to an entry. -/
theorem Mem.dup (h : Mem sb K nd t) (he : 0 < (t e).ref) :
    Mem sb ((e, none) ::ₘ K) nd (update t e { t e with ref := (t e).ref + 1 }) := by
  refine h.set (fun e' => ?_) (fun ty hc => ?_) (fun e' ty _ hc => ?_) (fun _ => ⟨h.range he, h.inum_ne he⟩)
    (fun _ hv => h.mirror he hv) fun _ _ _ _ => rfl
  · rw [count_cons_fst, h.ref]
  · exact h.know (by simpa using hc)
  · simpa using hc

/-- An entry without references is taken for another inode. -/
theorem Mem.recycle (h : Mem sb K nd t) (he : (t e).ref = 0) {inum : Nat} (hi : inum < sb.ninodes)
    (hne : ∀ e', 0 < (t e').ref → (t e').inum ≠ inum) :
    Mem sb ((e, none) ::ₘ K) nd (update t e { t e with inum := inum, ref := 1, valid := false }) := by
  have hcount : (K.map Prod.fst).count e = 0 := by rw [← h.ref, he]
  refine h.set (fun e' => ?_) (fun ty hc => ?_) (fun e' ty _ hc => ?_) (fun _ => ⟨hi, fun e' _ => hne e'⟩)
    (fun _ hv => by cases hv) fun _ _ _ _ => rfl
  · rw [count_cons_fst, hcount]
  · have hc' : (e, some ty) ∈ K := by simpa using hc
    exact absurd (mem_map_of_mem Prod.fst hc') (count_eq_zero.mp hcount)
  · simpa using hc

/-- A change of the lock. -/
theorem Mem.lock (h : Mem sb K nd t) (b : Bool) : Mem sb K nd (update t e { t e with locked := b }) := by
  refine h.set (fun e' => ?_) (fun ty hc => h.know hc) (fun e' ty _ hc => hc) (fun he => ⟨h.range he, h.inum_ne he⟩)
    (fun he hv => h.mirror he hv) fun _ _ _ _ => rfl
  rw [h.ref e]
  split
  · rename_i ee; rw [ee]
  · rfl

/-- The holder of a claim reads the inode from the disk. -/
theorem Mem.load (h : Mem sb ((e, o) ::ₘ K) nd t) (hv : (t e).valid = false) (hty : (nd (t e).inum).type ≠ 0)
    (b : Bool) :
    Mem sb ((e, some (nd (t e).inum).type) ::ₘ K) nd
      (update t e { t e with toDinode := nd (t e).inum, valid := true, locked := b }) := by
  have he : 0 < (t e).ref := h.ref_pos (mem_cons_self ..)
  refine h.set (fun e' => ?_) (fun ty hc => ?_) (fun e' ty hne hc => ?_) (fun _ => ⟨h.range he, h.inum_ne he⟩)
    (fun _ _ => ⟨rfl, hty⟩) fun _ _ _ _ => rfl
  · rw [h.ref e, count_cons_fst, count_cons_fst, count_cons_fst]
    simp only [↓reduceIte]
    split <;> rfl
  · obtain hc | hc := mem_cons.mp hc
    · cases hc; exact ⟨rfl, rfl⟩
    · -- nobody knows the type of an inode that has not been read
      rw [(h.know (mem_cons_of_mem hc)).1] at hv
      cases hv
  · obtain hc | hc := mem_cons.mp hc
    · cases hc; exact absurd rfl hne
    · exact mem_cons_of_mem hc

/-- The holder of a claim on an inode that has been read knows its type. -/
theorem Mem.learn (h : Mem sb ((e, o) ::ₘ K) nd t) (hv : (t e).valid = true) :
    Mem sb ((e, some (t e).type) ::ₘ K) nd t where
  ref e' := by rw [h.ref, count_cons_fst, count_cons_fst]
  know {e' ty} hc := by
    obtain hc | hc := mem_cons.mp hc
    · cases hc; exact ⟨hv, rfl⟩
    · exact h.know (mem_cons_of_mem hc)
  uniq := h.uniq
  range := h.range
  mirror := h.mirror

/-- A claim is given up. -/
theorem Mem.drop (h : Mem sb ((e, o) ::ₘ K) nd t) :
    Mem sb K nd (update t e { t e with ref := (t e).ref - 1 }) := by
  have he : 0 < (t e).ref := h.ref_pos (mem_cons_self ..)
  refine h.set (fun e' => ?_) (fun ty hc => h.know (mem_cons_of_mem hc))
    (fun e' ty _ hc => mem_cons_of_mem hc) (fun _ => ⟨h.range he, h.inum_ne he⟩)
    (fun _ hv => h.mirror he hv) fun _ _ _ _ => rfl
  rw [h.ref e, count_cons_fst, count_cons_fst]
  simp only [↓reduceIte, Nat.add_sub_cancel]
  split
  · rename_i ee; rw [ee]
  · rfl

/-- The last claim on an entry is given up, and its inode freed on the disk. -/
theorem Mem.free (h : Mem sb ((e, o) ::ₘ K) nd t) (h1 : (t e).ref = 1) (hx : x.ref = 0) (dn : Dinode) :
    Mem sb K (update nd (t e).inum dn) (update t e x) := by
  have he : 0 < (t e).ref := by omega
  have hcount : (K.map Prod.fst).count e = 0 := by
    have := h.ref e
    rw [count_cons_fst, if_pos rfl, h1] at this
    omega
  refine h.set (fun e' => ?_) (fun ty hc => ?_) (fun e' ty _ hc => mem_cons_of_mem hc) (fun h0 => by omega)
    (fun h0 => by omega) fun e' hne he' _ => update_of_ne (h.inum_ne he e' hne he') ..
  · rw [hx, count_cons_fst]
    split
    · rename_i ee; rw [ee, hcount]
    · rfl
  · exact absurd (mem_map_of_mem Prod.fst hc) (count_eq_zero.mp hcount)

/-- The inode of an entry that has been read changes, in memory and on the disk,
but not its type. -/
theorem Mem.touch (h : Mem sb K nd t) (hc : (e, some ty) ∈ K) (dn : Dinode) (hty : dn.type = (t e).type) :
    Mem sb K (update nd (t e).inum dn) (update t e { t e with toDinode := dn }) := by
  have he := h.ref_pos hc
  have hv := (h.know hc).1
  refine h.set (fun e' => ?_) (fun ty' hc' => ⟨hv, hty.trans (h.know hc').2⟩) (fun e' ty _ hc => hc)
    (fun _ => ⟨h.range he, h.inum_ne he⟩) (fun _ _ => ⟨update_self .., ?_⟩)
    fun e' hne he' _ => update_of_ne (h.inum_ne he e' hne he') ..
  · rw [h.ref e]
    split
    · rename_i ee; rw [ee]
    · rfl
  · rw [hty]
    exact (h.mirror he hv).2

/-- A free inode is allocated on the disk. -/
theorem Mem.alloc (h : Mem sb K nd t) {i : Nat} (hi : (nd i).type = 0) (dn : Dinode) :
    Mem sb K (update nd i dn) t where
  ref := h.ref
  know := h.know
  uniq := h.uniq
  range := h.range
  mirror {e} he hv := by
    obtain ⟨hm, ht⟩ := h.mirror he hv
    refine ⟨?_, ht⟩
    rw [update_of_ne, hm]
    -- no valid entry is for a free inode
    rintro rfl
    rw [hm] at hi
    exact ht hi

/-! ## The invariant of the store -/

/-- The store between the operations on inodes. -/
structure Inv (sb : Superblock) (K : Multiset Claim) (st : Store) : Prop where
  mem : Mem sb K (image sb st.disk).inode st.itable
  own : Own sb (image sb st.disk)
  full : Full (image sb st.disk)
  dirs : Dirs sb (image sb st.disk)

/-- The image with the in-memory copy of one inode written. -/
def current (sb : Superblock) (e : Fin NINODE) (st : Store) : Image :=
  (image sb st.disk).setInode (st.itable e).inum (st.itable e).toDinode

/-- The store while the in-memory copy of one inode is ahead of the disk. -/
structure Dirty (sb : Superblock) (K : Multiset Claim) (e : Fin NINODE) (st : Store) : Prop where
  mem : Mem sb K (current sb e st).inode st.itable
  own : Own sb (current sb e st)

variable {st : Store} {E : Stop → Prop}

/-- An operation on the table alone. -/
theorem Inv.of_table (h : Inv sb K st) {st' : Store} (hd : st'.disk = st.disk)
    (hm : Mem sb K' (image sb st.disk).inode st'.itable) : Inv sb K' st' where
  mem := by rw [hd]; exact hm
  own := by rw [hd]; exact h.own
  full := by rw [hd]; exact h.full
  dirs := by rw [hd]; exact h.dirs

theorem current_inode_self (sb : Superblock) (e : Fin NINODE) (st : Store) :
    (current sb e st).inode (st.itable e).inum = (st.itable e).toDinode :=
  update_self ..

theorem current_data (e : Fin NINODE) (st : Store) {b : BlockNo} (hb : sb.InData b) :
    (current sb e st).data b = st.disk b := image_data st.disk hb

theorem Mem.type_ne_zero (h : Mem sb K (current sb e st).inode st.itable) (hc : (e, some ty) ∈ K) :
    ((current sb e st).inode (st.itable e).inum).type ≠ 0 := by
  rw [current_inode_self]
  exact (h.mirror (h.ref_pos hc) (h.know hc).1).2

theorem Inv.current_eq (h : Inv sb K st) (hc : (e, some ty) ∈ K) : current sb e st = image sb st.disk := by
  have := (h.mem.mirror (h.mem.ref_pos hc) (h.mem.know hc).1).1
  simp [current, ← this, Image.setInode]

theorem Inv.dirty (h : Inv sb K st) (hc : (e, some ty) ∈ K) : Dirty sb K e st where
  mem := by rw [h.current_eq hc]; exact h.mem
  own := by rw [h.current_eq hc]; exact h.own

/-! ## Changes of an inode -/

/-- The store with the copy of a disk inode in entry `e` replaced. -/
def Store.putDinode (st : Store) (e : Fin NINODE) (dn : Dinode) : Store :=
  st.putInode e { st.itable e with toDinode := dn }

@[simp] theorem Store.putDinode_disk (st : Store) (e : Fin NINODE) (dn : Dinode) :
    (st.putDinode e dn).disk = st.disk := rfl

@[simp] theorem Store.putDinode_self (st : Store) (e : Fin NINODE) (dn : Dinode) :
    (st.putDinode e dn).itable e = { st.itable e with toDinode := dn } := update_self ..

@[simp] theorem Store.putDinode_putDinode (st : Store) (e : Fin NINODE) (dn dn' : Dinode) :
    (st.putDinode e dn).putDinode e dn' = st.putDinode e dn' := by
  simp [Store.putDinode, Store.putInode]

theorem current_putDinode (sb : Superblock) (e : Fin NINODE) (st : Store) (dn : Dinode) :
    current sb e (st.putDinode e dn) = (current sb e st).setInode (st.itable e).inum dn := by
  simp [current]

theorem Mem.putDinode (h : Mem sb K (current sb e st).inode st.itable) (hc : (e, some ty) ∈ K) (dn : Dinode)
    (hty : dn.type = (st.itable e).type) :
    Mem sb K (current sb e (st.putDinode e dn)).inode (st.putDinode e dn).itable := by
  rw [current_putDinode]
  exact h.touch hc dn hty

/-- The copy in memory is written to the disk. -/
theorem iupdate_inv (L : Layout sb) (hm : Mem sb K (current sb e st).inode st.itable) (hc : (e, o) ∈ K)
    (ho : Own sb (current sb e st)) (hf : Full (current sb e st)) (hd : Dirs sb (current sb e st)) :
    Wp E (iupdate sb e) (fun _ st' => Inv sb K st' ∧ st'.itable = st.itable) st := by
  refine (iupdate_spec L (hm.range (hm.ref_pos hc))).mono fun _ st' h' => ?_
  obtain ⟨ht, him⟩ := h'
  refine ⟨⟨?_, ?_, ?_, ?_⟩, ht⟩
  · rw [him, ht]; exact hm
  · rw [him]; exact ho
  · rw [him]; exact hf
  · rw [him]; exact hd

/-- An inode changes, but for its type, its size and its addresses, and is
written to the disk. -/
theorem Inv.update (L : Layout sb) (h : Inv sb K st) (hc : (e, some ty) ∈ K) (dn : Dinode)
    (hty : dn.type = (st.itable e).type) (hs : dn.size = (st.itable e).size) (ha : dn.addrs = (st.itable e).addrs) :
    Wp E (iupdate sb e) (fun _ st' => Inv sb K st' ∧ st'.itable = (st.putDinode e dn).itable)
      (st.putDinode e dn) := by
  have hD := h.dirty hc
  have ht := hD.mem.type_ne_zero hc
  have hfull : Full (current sb e st) := by rw [h.current_eq hc]; exact h.full
  have hdirs : Dirs sb (current sb e st) := by rw [h.current_eq hc]; exact h.dirs
  have hr := Image.ref_setInode_addrs (current sb e st) dn (by rwa [hty, ← current_inode_self sb]) ht
    (by rw [ha, current_inode_self])
  refine iupdate_inv L (hD.mem.putDinode hc dn hty) hc ?_ ?_ ?_ <;> rw [current_putDinode]
  · exact hD.own.setInode hr
  · refine hfull.setInode hr fun _ bn hn hlt => hfull _ bn ht hn ?_
    rwa [current_inode_self, ← hs]
  · refine hdirs.setInode hr fun hd k lo hi hk => hdirs _ k lo hi ?_ ?_
    · rwa [current_inode_self, ← hty]
    · rwa [current_inode_self, ← hs]

end Xv6.Fs
