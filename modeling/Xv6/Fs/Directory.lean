import Xv6.Fs.Entry

/-!
# Directories

`slots` are the entries of a directory that are in use. `dirlookup` finds a
slot by its name (`dirlookup_wp`), `dirlink` fills the first free slot
(`dirlink_wp`), and an entry that is cleared leaves its slot free
(`clear_wp`). None of the three stops, as long as there are blocks, entries of
the inode table and slots.
-/

namespace Xv6.Fs

open Framework Function List

variable {sb : Superblock} {st st' : Store} {dp e : Fin NINODE} {E : Stop → Prop} {k i n a : Nat} {name : List Byte}
  {Q : Option (Fin NINODE × Nat) → Store → Prop} {de : Dirent}

/-- The entries of the directory in entry `dp` of the inode table. -/
def slots (sb : Superblock) (dp : Fin NINODE) (st : Store) : Nat → Option (Nat × List Byte) :=
  (current sb dp st).slot (st.itable dp).inum

/-- Entry `dp` of the inode table holds a directory. -/
structure Directory (sb : Superblock) (dp : Fin NINODE) (st : Store) : Prop where
  node : Node sb dp st
  solid : Solid sb dp st
  type_eq : (st.itable dp).type = T_DIR
  ref_pos : 0 < (st.itable dp).ref
  whole : DIRENT ∣ (st.itable dp).size.toNat
  size_le : (st.itable dp).size.toNat ≤ MAXFILE * BSIZE

/-- The disk and the directory are as before, up to the references to it. -/
structure Unchanged (dp : Fin NINODE) (st st' : Store) : Prop where
  disk : st'.disk = st.disk
  entry : ∃ r, 0 < r ∧ st'.itable dp = { st.itable dp with ref := r }

namespace Unchanged

theorem current_eq (h : Unchanged dp st st') : current sb dp st' = current sb dp st := by
  obtain ⟨r, -, he⟩ := h.entry
  rw [current, current, h.disk, he]

theorem slots_eq (h : Unchanged dp st st') : slots sb dp st' = slots sb dp st := by
  obtain ⟨r, -, he⟩ := h.entry
  rw [slots, slots, h.current_eq, he]

theorem directory (h : Unchanged dp st st') (hd : Directory sb dp st) : Directory sb dp st' := by
  have hcur : current sb dp st' = current sb dp st := h.current_eq
  obtain ⟨r, hr, he⟩ := h.entry
  refine ⟨⟨?_, ?_, ?_⟩, ?_, ?_, ?_, ?_, ?_⟩
  · rw [he]
    exact hd.node.range
  · rw [he]
    exact hd.node.type
  · rw [hcur]
    exact hd.node.own
  · rw [Solid, SolidTo, hcur, he]
    exact hd.solid
  · rw [he]
    exact hd.type_eq
  · rw [he]
    exact hr
  · rw [he]
    exact hd.whole
  · rw [he]
    exact hd.size_le

end Unchanged

theorem slots_some_lt (h : slots sb dp st k ≠ none) : DIRENT * k + DIRENT ≤ (st.itable dp).size.toNat := by
  by_contra hlt
  refine h ?_
  rw [slots, Image.slot, current_inode_self, if_neg hlt]

theorem slots_eq_entry (sb : Superblock) (h : DIRENT * k + DIRENT ≤ (st.itable dp).size.toNat) :
    slots sb dp st k = ((current sb dp st).dirent (st.itable dp).inum k).entry := by
  rw [slots, Image.slot, current_inode_self, if_pos h]

/-! ## Entries of the inode table -/

/-- Entry `e` of the inode table has been taken for inode `i`. -/
structure Took (st : Store) (i : Nat) (e : Fin NINODE) (st' : Store) : Prop where
  disk : st'.disk = st.disk
  inum : (st'.itable e).inum = i
  other : ∀ e', e' ≠ e → st'.itable e' = st.itable e'
  held : 0 < (st.itable e).ref → st'.itable e = { st.itable e with ref := (st.itable e).ref + 1 }
  /-- The entry has other references, or the inode has not been read. -/
  kept : 2 ≤ (st'.itable e).ref ∨ (st'.itable e).valid = false

/-- `iget` fails only when every entry of the table is in use. -/
theorem iget_wp (hE : (∃ e, (st.itable e).ref = 0) ∨ E (.panic "iget: no inodes")) :
    Wp E (iget i) (Took st i) st := by
  refine iget_cases (fun e hr hi => ⟨rfl, ?_, fun e' hne => update_of_ne hne .., fun _ => update_self .., .inl ?_⟩)
    (fun _ e hr => ⟨rfl, ?_, fun e' hne => update_of_ne hne .., fun h => by omega, .inr ?_⟩)
    fun hno => hE.resolve_left fun ⟨e, he⟩ => hno e he
  · rwa [Store.putInode_itable, update_self]
  · rw [Store.putInode_itable, update_self]
    exact Nat.succ_le_succ hr
  · rw [Store.putInode_itable, update_self]
  · rw [Store.putInode_itable, update_self]

/-- An inode that is not in the table is given a free entry. -/
theorem iget_fresh (hno : ∀ e, 0 < (st.itable e).ref → (st.itable e).inum ≠ i) (hfree : ∃ e, (st.itable e).ref = 0) :
    Wp E (iget i) (fun e st' => (st.itable e).ref = 0 ∧
      st' = st.putInode e { st.itable e with inum := i, ref := 1, valid := false }) st :=
  iget_cases (fun e hr hi => absurd hi (hno e hr)) (fun _ _ he => ⟨he, rfl⟩) fun hall => absurd hfree.choose_spec (hall _)

/-- An inode is read from the disk. -/
theorem ilock_load (hr : 0 < (st.itable e).ref) (hl : (st.itable e).locked = false)
    (hv : (st.itable e).valid = false) (ht : (dinode sb st.disk (st.itable e).inum).type ≠ 0) :
    Wp E (ilock sb e) (fun _ st' => st' = st.putInode e { st.itable e with
      toDinode := dinode sb st.disk (st.itable e).inum
      valid := true
      locked := true }) st := by
  simp only [ilock, wp_bind, wp_inode]
  rw [if_neg (by omega), if_neg (by rw [hl]; exact Bool.false_ne_true), if_neg (by rw [hv]; exact Bool.false_ne_true)]
  simp only [wp_bind, wp_bread, wp_setInode]
  refine wp_ite (fun h0 => absurd h0 ht) fun _ => ?_
  rfl

theorem Took.unchanged (h : Took st i e st') (hr : 0 < (st.itable dp).ref) : Unchanged dp st st' := by
  refine ⟨h.disk, ?_⟩
  by_cases hne : dp = e
  · subst hne
    exact ⟨_, Nat.succ_pos _, h.held hr⟩
  · exact ⟨_, hr, h.other dp hne⟩

/-- The disk and the inodes in use are as before. -/
structure Same (st st' : Store) : Prop where
  disk : st'.disk = st.disk
  entry : ∀ e, 0 < (st.itable e).ref → st'.itable e = st.itable e

theorem Same.unchanged (h : Same st st') (hr : 0 < (st.itable dp).ref) : Unchanged dp st st' :=
  ⟨h.disk, _, hr, h.entry dp hr⟩

/-- The reference that was taken is given back. -/
theorem Took.put (h : Took st i e st') :
    Same st (st'.putInode e { st'.itable e with ref := (st'.itable e).ref - 1 }) := by
  refine ⟨h.disk, fun dp hr => ?_⟩
  by_cases hne : dp = e
  · subst hne
    rw [Store.putInode_itable, update_self, h.held hr, Nat.add_sub_cancel]
  · rw [Store.putInode_itable, update_of_ne hne, h.other dp hne]

/-- The inode is not freed. -/
theorem iput_kept (h : 2 ≤ (st.itable e).ref ∨ (st.itable e).valid = false) :
    Wp E (iput sb e) (fun _ st' => st' = st.putInode e { st.itable e with ref := (st.itable e).ref - 1 }) st := by
  have hno : ¬ ((st.itable e).ref = 1 ∧ (st.itable e).valid = true ∧ (st.itable e).nlink = 0) := by
    rintro ⟨h1, h2, -⟩
    obtain h | h := h
    · omega
    · rw [h] at h2
      cases h2
  simp only [iput, wp_bind, wp_inode]
  rw [if_neg hno]
  exact rfl

/-! ## Looking up -/

theorem offsets_eq {size : Nat} (h : DIRENT ∣ size) : offsets 0 size = (range (size / DIRENT)).map (DIRENT * ·) := by
  obtain ⟨n, rfl⟩ := h
  have hD : DIRENT = 16 := rfl
  rw [offsets, Nat.mul_div_cancel_left _ (by decide), hD, show (16 * n - 0 + (16 - 1)) / 16 = n by omega]
  refine ext_getElem (by simp) fun j h1 h2 => ?_
  rw [getElem_range', getElem_map, getElem_range, Nat.zero_add]

/-- One entry: the search ends with it or goes on. -/
theorem dirlookupFrom_cons (h : Node sb dp st) (hs : SolidTo sb dp st (DIRENT * k + DIRENT))
    (hM : (st.itable dp).size.toNat ≤ MAXFILE * BSIZE) (hk : DIRENT * k + DIRENT ≤ (st.itable dp).size.toNat)
    {offs : List Nat} (hmiss : (∀ i, slots sb dp st k ≠ some (i, cut name)) → Wp E (dirlookupFrom sb dp name offs) Q st)
    (hhit : ∀ i, slots sb dp st k = some (i, cut name) → Wp E (iget i) (fun e => Q (some (e, DIRENT * k))) st) :
    Wp E (dirlookupFrom sb dp name (DIRENT * k :: offs)) Q st := by
  have hslot := slots_eq_entry sb hk
  rw [dirlookupFrom]
  refine (readDirent_wp h hs (.inl hM) (.inl hk)).bind fun de st1 h1 => ?_
  obtain ⟨rfl, -, rfl⟩ := h1
  refine wp_ite (fun h0 => hmiss fun i => ?_) fun h0 => wp_ite (fun hcmp => ?_) fun hcmp => hmiss fun i => ?_
  · rw [hslot, Dirent.entry, if_pos h0]
    simp
  · rw [wp_bind]
    refine hhit _ ?_
    rw [hslot, Dirent.entry, if_neg h0, namecmp_eq_zero.mp hcmp]
  · rw [hslot, Dirent.entry, if_neg h0]
    intro he
    exact hcmp (namecmp_eq_zero.mpr (Prod.mk.inj (Option.some.inj he)).2.symm)

theorem dirlookupFrom_wp (h : Directory sb dp st) {ks : List Nat}
    (hks : ∀ k ∈ ks, DIRENT * k + DIRENT ≤ (st.itable dp).size.toNat)
    (hnone : (∀ k ∈ ks, ∀ i, slots sb dp st k ≠ some (i, cut name)) → Q none st)
    (hsome : ∀ k i, slots sb dp st k = some (i, cut name) → Wp E (iget i) (fun e => Q (some (e, DIRENT * k))) st) :
    Wp E (dirlookupFrom sb dp name (ks.map (DIRENT * ·))) Q st := by
  induction ks with
  | nil => exact hnone nofun
  | cons k ks ih =>
    have hk := hks k (mem_cons_self ..)
    refine dirlookupFrom_cons h.node (SolidTo.mono h.solid hk) h.size_le hk (fun hno => ?_) (hsome k)
    refine ih (fun k hk => hks k (mem_cons_of_mem _ hk)) fun hall => hnone fun k' hk' => ?_
    obtain rfl | hk' := mem_cons.mp hk'
    · exact hno
    · exact hall k' hk'

/-- The search goes on to the first slot with the name, and no further: only
the entries up to there need be mapped. -/
theorem dirlookupFrom_first (h : Node sb dp st) (hs : SolidTo sb dp st (DIRENT * k + DIRENT))
    (hM : (st.itable dp).size.toNat ≤ MAXFILE * BSIZE) (hk : DIRENT * k + DIRENT ≤ (st.itable dp).size.toNat)
    (hmiss : ∀ j < k, ∀ i, slots sb dp st j ≠ some (i, cut name)) (hhit : slots sb dp st k = some (i, cut name))
    (hQ : Wp E (iget i) (fun e => Q (some (e, DIRENT * k))) st) (ha : a ≤ k) (hn : k < a + n) :
    Wp E (dirlookupFrom sb dp name ((range' a n).map (DIRENT * ·))) Q st := by
  have hD : DIRENT = 16 := rfl
  induction n generalizing a with
  | zero => omega
  | succ n ih =>
    have hle : DIRENT * a + DIRENT ≤ DIRENT * k + DIRENT := by
      rw [hD]
      omega
    rw [List.range'_succ, map_cons]
    refine dirlookupFrom_cons h (hs.mono hle) hM (hle.trans hk) (fun hno => ?_) fun j hj => ?_
    · by_cases hak : a = k
      · subst hak
        exact absurd hhit (hno i)
      · exact ih (by omega) (by omega)
    · by_cases hak : a = k
      · subst hak
        obtain rfl : j = i := (Prod.mk.inj (Option.some.inj (hj.symm.trans hhit))).1
        exact hQ
      · exact absurd hj (hmiss a (by omega) j)

theorem dirlookup_wp (h : Directory sb dp st) (hnone : (∀ k i, slots sb dp st k ≠ some (i, cut name)) → Q none st)
    (hsome : ∀ k i, slots sb dp st k = some (i, cut name) → Wp E (iget i) (fun e => Q (some (e, DIRENT * k))) st) :
    Wp E (dirlookup sb dp name) Q st := by
  have hD : DIRENT = 16 := rfl
  simp only [dirlookup, wp_bind, wp_inode]
  rw [if_neg (not_not.mpr h.type_eq), offsets_eq h.whole]
  refine dirlookupFrom_wp h (fun k hk => ?_) (fun hall => hnone fun k i he => ?_) hsome
  · have := mem_range.mp hk
    rw [hD] at this ⊢
    omega
  · have := slots_some_lt (by rw [he]; exact Option.some_ne_none _)
    refine hall k (mem_range.mpr ?_) i he
    rw [hD] at this ⊢
    omega

/-! ## Writing entries -/

/-- Slot `k` of the directory has been written. -/
structure Entered (sb : Superblock) (dp : Fin NINODE) (st : Store) (k : Nat) (x : Option (Nat × List Byte))
    (st' : Store) : Prop where
  directory : Directory sb dp st'
  slots_eq : slots sb dp st' = update (slots sb dp st) k x
  size_eq : (st'.itable dp).size.toNat = max (st.itable dp).size.toNat (DIRENT * k + DIRENT)
  ref_eq : (st'.itable dp).ref = (st.itable dp).ref
  other : ∀ e, e ≠ dp → st'.itable e = st.itable e

/-- An entry has been written, and nothing else. -/
theorem Stored.entered (h : Directory sb dp st) (hk : DIRENT * k ≤ (st.itable dp).size.toNat)
    (hM : DIRENT * k + DIRENT ≤ MAXFILE * BSIZE)
    (hS : Stored sb dp (fun j => de.toBytes[j]?) DIRENT (DIRENT * k) st DIRENT st') :
    Entered sb dp st k de.entry st' := by
  have hD : DIRENT = 16 := rfl
  obtain ⟨a, s, hs, ht⟩ := hS.table
  have he : st'.itable dp = { st.itable dp with addrs := a, size := s } := by rw [ht, Store.putDinode_self]
  refine ⟨⟨hS.node, hS.solid h.solid hk, ?_, ?_, ?_, ?_⟩, ?_, ?_, ?_, fun e hne => ?_⟩
  · rw [he]
    exact h.type_eq
  · rw [he]
    exact h.ref_pos
  · obtain ⟨n, hn⟩ := h.whole
    rw [he, hs, hn]
    rw [hn] at hk
    rw [hD] at hk ⊢
    omega
  · rw [he, hs]
    have := h.size_le
    omega
  · rw [slots, slots, he]
    refine Image.slot_write ?_ ?_ ?_ ?_ ?_ ?_
    · rw [current_inode_self]
      exact h.whole
    · rw [current_inode_self]
      exact hk
    · intro x hx
      rw [current_inode_self] at hx
      exact h.solid.byte_isSome h.size_le hx
    · have := current_inode_self sb dp st'
      rw [he] at this
      rw [this, current_inode_self]
      exact hs
    · intro x v hx hv
      exact hS.keep (.inr hx) hv
    · intro j hj
      obtain ⟨v, hv, hb⟩ := hS.wrote hj
      rw [hb, hv]
  · rw [he]
    exact hs
  · rw [he]
  · rw [ht]
    exact update_of_ne hne ..

theorem writeDirent_wp (L : Layout sb) (h : Directory sb dp st) (hk : DIRENT * k ≤ (st.itable dp).size.toNat)
    (hM : DIRENT * k + DIRENT ≤ MAXFILE * BSIZE)
    (hE : Roomy sb st ∨ E (.panic "balloc: out of blocks") ∨ DIRENT * k < (st.itable dp).size.toNat) (de : Dirent)
    (msg : String) : Wp E (writeDirent sb dp de (DIRENT * k) msg) (fun _ => Entered sb dp st k de.entry) st := by
  have hD : DIRENT = 16 := rfl
  have hsrc (j : Nat) (hj : j < DIRENT) : ∃ v, de.toBytes[j]? = some v :=
    ⟨_, List.getElem?_eq_getElem (by rwa [de.toBytes_length])⟩
  have hE' : Roomy sb st ∨ E (.panic "balloc: out of blocks") ∨
      ((current sb dp st).block (st.itable dp).inum (DIRENT * k / BSIZE)).isSome := by
    refine hE.imp_right (·.imp_right fun hlt => ?_)
    obtain ⟨v, hv⟩ := Option.isSome_iff_exists.mp (h.solid.byte_isSome h.size_le hlt)
    exact Image.block_isSome_of_byte hv
  have hone : DIRENT * k % BSIZE + DIRENT ≤ BSIZE := by simp only [hD, BSIZE]; omega
  refine (writei_once L h.node (by decide) hE' hk hM hone fun j hj => ?_).bind fun r st' hr => ?_
  · obtain ⟨v, hv⟩ := hsrc j hj
    rw [hv]
    exact Option.some_ne_none _
  · obtain ⟨rfl, hS⟩ := hr
    exact wp_ite (fun hne => absurd rfl hne) fun _ => hS.entered h hk hM

/-! ## Adding names -/

/-- The largest number of entries in a directory. -/
abbrev MAXENTRIES : Nat := MAXFILE * BSIZE / DIRENT

theorem dirlinkFrom_wp (h : Directory sb dp st) (hsize : (st.itable dp).size.toNat = DIRENT * (a + n))
    (ha : ∀ k < a, slots sb dp st k ≠ none) :
    Wp E (dirlinkFrom sb dp (st.itable dp).size.toNat ((range' a n).map (DIRENT * ·))) (fun off st' => st' = st ∧
      ∃ k, off = DIRENT * k ∧ slots sb dp st k = none ∧ (∀ k' < k, slots sb dp st k' ≠ none) ∧
        DIRENT * k ≤ (st.itable dp).size.toNat) st := by
  have hD : DIRENT = 16 := rfl
  induction n generalizing a with
  | zero =>
    refine ⟨rfl, a, hsize, ?_, ha, hsize.ge⟩
    rw [slots, Image.slot, current_inode_self, hsize, if_neg (by rw [hD]; omega)]
  | succ n ih =>
    have hk : DIRENT * a + DIRENT ≤ (st.itable dp).size.toNat := by
      rw [hsize, hD]
      omega
    have hs := slots_eq_entry sb hk
    rw [List.range'_succ, map_cons, dirlinkFrom]
    refine (readDirent_wp h.node (SolidTo.mono h.solid hk) (.inl h.size_le) (.inl hk)).bind fun de st1 h1 => ?_
    obtain ⟨rfl, -, rfl⟩ := h1
    refine wp_ite (fun h0 => ⟨rfl, a, rfl, ?_, ha, by omega⟩) fun h0 => ih ?_ fun k hlt => ?_
    · rw [hs, Dirent.entry, if_pos h0]
    · rw [hsize, Nat.add_right_comm, Nat.add_assoc]
    · by_cases hka : k = a
      · rw [hka, hs, Dirent.entry, if_neg h0]
        exact Option.some_ne_none _
      · exact ha k (by omega)

/-- The entry that `dirlink` writes. -/
abbrev newDirent (name : List Byte) (i : Nat) : Dirent := { inum := BitVec.ofNat 16 i, name := strncpy DIRSIZ name }

theorem Dirent.entry_strncpy (hi : 0 < i) (hi' : i < 2 ^ 16) : (newDirent name i).entry = some (i, cut name) := by
  have hne : BitVec.ofNat 16 i ≠ 0 := by
    intro h0
    have := congrArg BitVec.toNat h0
    rw [BitVec.toNat_ofNat, Nat.mod_eq_of_lt hi'] at this
    exact hi.ne' this
  rw [Dirent.entry, if_neg hne, BitVec.toNat_ofNat, Nat.mod_eq_of_lt hi', cut_strncpy]

/-- There is no room for an entry after the end of a file of the largest size. -/
theorem writeDirent_full (h : (st.itable dp).size.toNat ≤ MAXFILE * BSIZE)
    (hk : DIRENT * k ≤ (st.itable dp).size.toNat) (hM : ¬ DIRENT * k + DIRENT ≤ MAXFILE * BSIZE)
    {msg : String} (hE : E (.panic msg)) {Q : Unit → Store → Prop} : Wp E (writeDirent sb dp de (DIRENT * k) msg) Q st := by
  have hlt : DIRENT * k + DIRENT < 2 ^ 32 := by
    simp only [MAXFILE, NDIRECT, NINDIRECT, BSIZE, DIRENT, DIRSIZ] at h hk ⊢
    omega
  simp only [writeDirent, writei, wp_bind, wp_inode]
  rw [Nat.mod_eq_of_lt hlt, if_neg (by omega), if_pos (by omega)]
  exact hE

/-- `dirlink` finds the name, or enters it in the first free slot. -/
theorem dirlink_wp (name : List Byte) (L : Layout sb) (h : Directory sb dp st)
    (hT : (∃ e, (st.itable e).ref = 0) ∨ E (.panic "iget: no inodes"))
    (hN : (∀ k j, slots sb dp st k ≠ some (j, cut name)) → (0 < i ∧ i < 2 ^ 16) ∧
      (Roomy sb st ∨ E (.panic "balloc: out of blocks")) ∧
      ((∃ k < MAXENTRIES, slots sb dp st k = none) ∨ E (.panic "dirlink"))) :
    Wp E (dirlink sb dp name i) (fun r st' =>
      (∃ k j, slots sb dp st k = some (j, cut name)) ∧ r = -1 ∧ Same st st' ∨
      (∀ k j, slots sb dp st k ≠ some (j, cut name)) ∧ r = 0 ∧
        ∃ k, slots sb dp st k = none ∧ (∀ k' < k, slots sb dp st k' ≠ none) ∧
          Entered sb dp st k (some (i, cut name)) st') st := by
  have hD : DIRENT = 16 := rfl
  obtain ⟨n, hn⟩ := h.whole
  rw [dirlink, wp_bind]
  refine dirlookup_wp h (fun hnew => ?_) fun k j hk => (iget_wp hT).mono fun e st1 ht => ?_
  · obtain ⟨⟨hi, hi'⟩, hE, hM⟩ := hN hnew
    have hlast : ((st.itable dp).size.toNat + (DIRENT - 1)) / DIRENT * DIRENT = (st.itable dp).size.toNat := by
      rw [hn, hD]
      omega
    simp only [wp_bind, wp_inode]
    rw [hlast, offsets_eq h.whole, range_eq_range']
    refine (dirlinkFrom_wp h (a := 0) ?_ (by simp)).mono fun off st1 h1 => ?_
    · rw [hn, Nat.mul_div_cancel_left _ (by decide), Nat.zero_add]
    · obtain ⟨rfl, k, rfl, hfree, hfirst, hle⟩ := h1
      by_cases hmax : DIRENT * k + DIRENT ≤ MAXFILE * BSIZE
      · refine (writeDirent_wp L h hle hmax (hE.imp_right .inl) _ _).mono fun _ st2 h2 => ?_
        rw [Dirent.entry_strncpy hi hi'] at h2
        exact .inr ⟨hnew, rfl, k, hfree, hfirst, h2⟩
      · -- every slot is in use, and the directory is as large as a file can be
        refine writeDirent_full h.size_le hle hmax (hM.resolve_left fun hfree' => hmax ?_)
        obtain ⟨k', hlt, hnone⟩ := hfree'
        have hle' : k ≤ k' := Nat.le_of_not_lt fun hlt' => hfirst k' hlt' hnone
        simp only [MAXENTRIES, MAXFILE, NDIRECT, NINDIRECT, BSIZE] at hlt ⊢
        rw [hD] at hlt ⊢
        omega
  · refine (iput_kept ht.kept).bind fun _ st2 h2 => .inl ⟨⟨k, j, hk⟩, rfl, ?_⟩
    subst h2
    exact ht.put

/-- Clearing the entry that `dirlookup` found. -/
theorem clear_wp (L : Layout sb) (h : Directory sb dp st) {x : Nat × List Byte} (hk : slots sb dp st k = some x)
    (msg : String) :
    Wp E (writeDirent sb dp { inum := 0, name := [] } (DIRENT * k) msg) (fun _ => Entered sb dp st k none) st := by
  have hle := slots_some_lt (by rw [hk]; exact Option.some_ne_none _)
  have hlt : DIRENT * k < (st.itable dp).size.toNat := Nat.lt_of_lt_of_le (Nat.lt_add_of_pos_right (by decide)) hle
  exact writeDirent_wp L h hlt.le (hle.trans h.size_le) (.inr (.inr hlt)) _ _

end Xv6.Fs
