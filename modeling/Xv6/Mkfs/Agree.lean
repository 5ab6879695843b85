import Xv6.Fs.Directory
import Xv6.Mkfs.Complete

/-!
# The kernel reads what the program wrote

The kernel finds the superblock of the image (`fsinit_main`), its `namei` finds
the inode of each file of the command line, and `readi` on it returns the
contents of the file (`main_agrees`). The root directory may have a hole after
its last entry, but a lookup that succeeds does not come so far.
-/

namespace Xv6.Mkfs

open Framework Function List
open Fs
open Log (BlockNo Block word)

variable {s : State} {k i n : Nat} {fs : List InFile} {f : InFile} {name : List Byte}

/-! ## The superblock -/

/-- Read the super block: its magic number and the fields used after boot. -/
def readsb : Fs.M (BitVec 32 × Superblock) := do
  let data ← bread 1
  return (word data 0, {
    size := (word data 1).toNat
    ninodes := (word data 3).toNat
    inodestart := (word data 6).toNat
    bmapstart := (word data 7).toNat })

/-- Init fs, up to the log. -/
def fsinit : Fs.M Superblock := do
  let (magic, sb) ← readsb
  if magic ≠ BitVec.ofNat 32 FSMAGIC then panic "invalid file system" else return sb

theorem fsinit_main (h : Finished s fs) {st : Store} (hd : st.disk = s.disk) : fsinit st = .ok (sb, st) := by
  have hw : (word sbBlock 0, (word sbBlock 1).toNat, (word sbBlock 3).toNat, (word sbBlock 6).toNat,
      (word sbBlock 7).toNat) = (BitVec.ofNat 32 FSMAGIC, sb.size, sb.ninodes, sb.inodestart, sb.bmapstart) := by
    decide +kernel
  simp only [Prod.mk.injEq] at hw
  obtain ⟨h0, h1, h3, h6, h7⟩ := hw
  have hwp : Wp (fun _ => False) fsinit (fun r st' => r = sb ∧ st' = st) st := by
    simp only [fsinit, readsb, wp_bind, wp_bread, wp_pure]
    rw [hd, h.super, h0, h1, h3, h6, h7, if_neg (not_not.mpr rfl)]
    exact ⟨rfl, rfl⟩
  obtain ⟨r, st', hrun, rfl, rfl⟩ := hwp.exists_ok
  exact hrun

/-! ## Names -/

/-- A name that the kernel can look up in the root directory: not empty, no
slash, and not one of the two entries of every directory. -/
structure Plain (name : List Byte) : Prop where
  ne_nil : name ≠ []
  slash : slash ∉ name
  ne_dot : name ≠ [0x2e]
  ne_dotdot : name ≠ [0x2e, 0x2e]

theorem skipelem_name (hne : name ≠ []) (hs : slash ∉ name) :
    skipelem name = some (name.take DIRSIZ, []) := by
  have hall : ∀ c ∈ name, ¬ c = slash := fun c hc he => hs (he ▸ hc)
  have hdrop : name.dropWhile (· = slash) = name := by
    cases name with
    | nil => rfl
    | cons c cs => exact dropWhile_cons_of_neg (by simpa using hall c (mem_cons_self ..))
  have htake : name.takeWhile (· ≠ slash) = name :=
    takeWhile_eq_self_iff.mpr fun c hc => by simpa using hall c hc
  have hrest : name.dropWhile (· ≠ slash) = [] :=
    dropWhile_eq_nil_iff.mpr fun c hc => by simpa using hall c hc
  simp only [skipelem, hdrop, htake, hrest, if_neg hne]
  rfl

theorem cut_eq_take (h : 0 ∉ name) : cut name = name.take DIRSIZ :=
  takeWhile_eq_self_iff.mpr fun c hc => by
    have : c ≠ 0 := fun he => h (he ▸ mem_of_mem_take hc)
    simpa using this

/-- A name shorter than `DIRSIZ` is the first bytes of itself only. -/
theorem eq_of_take_eq {l m : List Byte} (h : l.take n = m) (hm : m.length < n) : l = m := by
  have hl : l.length ≤ n := by
    have := congrArg length h
    rw [length_take] at this
    omega
  rwa [take_of_length_le hl] at h

theorem shortname_nul (f : InFile) : 0 ∉ f.shortname := by
  intro h
  refine f.nul ?_
  have h1 : 0 ∈ dropUser f.arg := by
    rw [InFile.shortname, skipUnderscore] at h
    split at h
    · exact mem_of_mem_tail h
    · exact h
  rw [dropUser] at h1
  split at h1
  · exact mem_of_mem_drop h1
  · exact h1

theorem slash_dropUser (f : InFile) (h : slash ∉ f.shortname) : slash ∉ dropUser f.arg := by
  rw [InFile.shortname, skipUnderscore] at h
  split at h
  · rename_i hc
    cases hd : dropUser f.arg with
    | nil => exact not_mem_nil
    | cons c cs =>
      rw [hd] at h hc
      have hc : c = 0x5f := hc
      rw [hc, mem_cons, not_or]
      exact ⟨by decide, h⟩
  · exact h

/-! ## The root directory -/

theorem entries_two (hk : fs[k]? = some f) : (entries fs)[k + 2]? =
    some { inum := BitVec.ofNat 16 (k + 2), name := strncpy DIRSIZ f.shortname } := by
  change (mapIdx _ fs)[k]? = _
  rw [List.getElem?_mapIdx, hk, Option.map_some]

/-- An entry of the root directory, as the kernel reads it. -/
theorem Finished.slot (h : Finished s fs) {de : Dirent} (hk : (entries fs)[k]? = some de) :
    (image sb s.disk).slot ROOTINO k = de.entry := by
  have hlt := (List.getElem?_eq_some_iff.mp hk).1
  rw [entries_length] at hlt
  have hle : DIRENT * k + DIRENT ≤ ((image sb s.disk).inode ROOTINO).size.toNat := by
    rw [h.rootSize, rootDir_length]
    simp only [DIRENT, DIRSIZ, BSIZE]
    omega
  rw [Image.slot, if_pos hle, Image.dirent_of_bytes de.toBytes_length fun j hj => ?_, Dirent.entry_ofBytes]
  have hbyte := rootDir_getElem? fs k hj
  rw [hk, Option.bind_some] at hbyte
  have hw := List.getElem?_eq_getElem (show j < de.toBytes.length by rwa [Dirent.toBytes_length])
  rw [hw]
  exact h.root.byte _ _ (hbyte.trans hw)

/-- The first entry with the name of a file is that of the file. -/
theorem Finished.slot_ne (h : Finished s fs) (hroom : fs.length + 1 < NINODES) (hf : fs[k]? = some f)
    (hp : Plain f.shortname) (hd : (fs.map fun f => f.shortname.take DIRSIZ).Nodup) {j : Nat} (hj : j < k + 2) (i : Nat) :
    (image sb s.disk).slot ROOTINO j ≠ some (i, cut f.shortname) := by
  have hcut := cut_eq_take (shortname_nul f)
  intro hs
  match j, hj with
  | 0, _ =>
    rw [h.slot rfl] at hs
    have : [0x2e] = cut f.shortname := (Prod.mk.inj (Option.some.inj hs)).2
    exact hp.ne_dot (eq_of_take_eq (hcut.symm.trans this.symm) (by decide))
  | 1, _ =>
    rw [h.slot rfl] at hs
    have : [0x2e, 0x2e] = cut f.shortname := (Prod.mk.inj (Option.some.inj hs)).2
    exact hp.ne_dotdot (eq_of_take_eq (hcut.symm.trans this.symm) (by decide))
  | j + 2, hj =>
    obtain ⟨hk, rfl⟩ := List.getElem?_eq_some_iff.mp hf
    have hjl : j < fs.length := by omega
    rw [h.slot (entries_two (List.getElem?_eq_getElem hjl)), Dirent.entry_strncpy (by omega) (by
      simp only [NINODES] at hroom
      omega)] at hs
    have hname := (Prod.mk.inj (Option.some.inj hs)).2
    rw [hcut, cut_eq_take (shortname_nul _)] at hname
    have hjk : (fs.map fun f => f.shortname.take DIRSIZ)[j]? = (fs.map fun f => f.shortname.take DIRSIZ)[k]? := by
      rw [List.getElem?_map, List.getElem?_map, List.getElem?_eq_getElem hjl, List.getElem?_eq_getElem hk,
        Option.map_some, Option.map_some, hname]
    have := (List.getElem?_inj (by rwa [length_map]) hd).mp hjk
    omega

/-! ## Looking up a file -/

variable {st : Store} {e : Fin NINODE} {E : Stop → Prop}

/-- Entry `e` of the inode table holds inode `i` of the image, and it is as on the
disk. -/
structure Loaded (s : State) (e : Fin NINODE) (i : Nat) (st : Store) : Prop where
  disk : st.disk = s.disk
  inum : (st.itable e).inum = i
  dinode : (st.itable e).toDinode = (image sb s.disk).inode i

theorem Loaded.current_eq (h : Loaded s e i st) : current sb e st = image sb s.disk := by
  rw [current, h.inum, h.dinode, h.disk, Image.setInode, update_eq_self]

theorem Loaded.node (h : Loaded s e i st) (hf : Finished s fs) (ht : ((image sb s.disk).inode i).type ≠ 0) :
    Node sb e st where
  range := by
    rw [h.inum]
    exact inode_lt ht
  type := by rwa [h.dinode]
  own := by
    rw [h.current_eq]
    exact hf.own

/-- The lookup in the root directory. -/
theorem dirlookup_root (h : Finished s fs) (hroom : fs.length + 1 < NINODES) (hf : fs[k]? = some f)
    (hp : Plain f.shortname) (hd : (fs.map fun f => f.shortname.take DIRSIZ).Nodup) (hl : Loaded s 0 ROOTINO st)
    (hone : ∀ e, e ≠ 0 → (st.itable e).ref = 0) :
    Wp E (dirlookup sb 0 (f.shortname.take DIRSIZ)) (fun r st' => ∃ e off, r = some (e, off) ∧
      (st.itable e).ref = 0 ∧ st' = st.putInode e { st.itable e with inum := k + 2, ref := 1, valid := false }) st := by
  have hk := (List.getElem?_eq_some_iff.mp hf).1
  have hlen := rootDir_length fs
  have hsize : (st.itable 0).size.toNat = (DIRENT * (fs.length + 2) / BSIZE + 1) * BSIZE := by
    rw [hl.dinode, h.rootSize, hlen]
  have hslots : slots sb 0 st = (image sb s.disk).slot ROOTINO := by rw [slots, hl.current_eq, hl.inum]
  have hroot := h.root
  have htype : (st.itable 0).type = T_DIR := by rw [hl.dinode, hroot.type]
  have hnode := hl.node h (by rw [hroot.type]; decide)
  -- the blocks up to the entry are there
  have hsolid : SolidTo sb 0 st (DIRENT * (k + 2) + DIRENT) := by
    intro bn hbn hlt
    rw [hl.current_eq, hl.inum]
    refine (hroot.blocks hbn).mpr ?_
    rw [hlen]
    simp only [nblk, DIRENT, DIRSIZ, BSIZE] at *
    omega
  have hM : (st.itable 0).size.toNat ≤ MAXFILE * BSIZE := by
    rw [hsize]
    simp only [DIRENT, DIRSIZ, BSIZE, MAXFILE, NDIRECT, NINDIRECT, NINODES] at *
    omega
  have hle : DIRENT * (k + 2) + DIRENT ≤ (st.itable 0).size.toNat := by
    rw [hsize]
    simp only [DIRENT, DIRSIZ, BSIZE]
    omega
  have hdvd : DIRENT ∣ (st.itable 0).size.toNat := by
    rw [hsize]
    exact Dvd.dvd.mul_left (by decide) _
  have hentry : slots sb 0 st (k + 2) = some (k + 2, cut (f.shortname.take DIRSIZ)) := by
    rw [hslots, h.slot (entries_two hf), Dirent.entry_strncpy (by omega) (by simp only [NINODES] at hroom; omega), cut_take]
  simp only [dirlookup, wp_bind, wp_inode]
  rw [if_neg (not_not.mpr htype), offsets_eq hdvd, range_eq_range']
  refine dirlookupFrom_first hnode hsolid hM hle (fun j hj i => ?_) hentry ?_ (Nat.zero_le _) ?_
  · rw [hslots, cut_take]
    exact h.slot_ne hroom hf hp hd hj i
  · refine (iget_fresh (fun e he => ?_) ⟨1, hone 1 (by decide)⟩).mono fun e st' h' => ⟨e, _, rfl, h'⟩
    by_cases h0 : e = 0
    · rw [h0, hl.inum]
      simp only [ROOTINO]
      omega
    · exact absurd (hone e h0) he.ne'
  · rw [Nat.zero_add, Nat.lt_iff_add_one_le, Nat.le_div_iff_mul_le (by decide)]
    simp only [DIRENT, DIRSIZ] at hle ⊢
    omega

/-- The entry of the root in the inode table of the first process. -/
theorem namei_root (h : Finished s fs) (hroom : fs.length + 1 < NINODES) (hf : fs[k]? = some f)
    (hp : Plain f.shortname) (hd : (fs.map fun f => f.shortname.take DIRSIZ).Nodup) :
    Wp E (namei sb 0 f.shortname) (fun r st => ∃ e, r = some e ∧ st.disk = s.disk ∧ (st.itable e).inum = k + 2 ∧
      0 < (st.itable e).ref ∧ (st.itable e).locked = false ∧ (st.itable e).valid = false) (boot s.disk).store := by
  have hhead : f.shortname.headD 0 ≠ slash := by
    obtain ⟨c, cs, hc⟩ := exists_cons_of_ne_nil hp.ne_nil
    rw [hc]
    intro he
    exact hp.slash (by rw [hc]; exact he ▸ mem_cons_self ..)
  have hfuel : f.shortname.length = (f.shortname.length - 1) + 1 := by
    have := length_pos_iff.mpr hp.ne_nil
    omega
  have hin : (image sb s.disk).inode ROOTINO = dinode sb s.disk ROOTINO := image_inode (by decide)
  simp only [namei, namex, wp_bind]
  rw [if_neg hhead]
  simp only [idup, wp_bind, wp_inode, wp_setInode, wp_pure]
  generalize hst1 : (boot s.disk).store.putInode 0 _ = st1
  have hother {e : Fin NINODE} (he : e ≠ 0) : (st1.itable e).ref = 0 ∧ (st1.itable e).locked = false := by
    rw [← hst1, Store.putInode_itable, update_of_ne he]
    simp [boot, update_of_ne he, Store.init]
  have h0 : st1.itable 0 = { (Store.init s.disk).itable 0 with inum := ROOTINO, ref := 2 } := by
    rw [← hst1, Store.putInode_itable, update_self]
    rfl
  have hdisk : st1.disk = s.disk := by
    rw [← hst1]
    rfl
  rw [hfuel]
  simp only [namexFrom, skipelem_name hp.ne_nil hp.slash, wp_bind]
  refine (ilock_load ?_ ?_ ?_ ?_).mono fun _ st2 h2 => ?_
  · rw [h0]
    exact Nat.two_pos
  · rw [h0]
    rfl
  · rw [h0]
    rfl
  · rw [h0, hdisk]
    change (dinode sb s.disk ROOTINO).type ≠ 0
    rw [← hin, h.root.type]
    decide
  · have he2 : st2.itable 0 = { st1.itable 0 with
        toDinode := (image sb s.disk).inode ROOTINO
        valid := true
        locked := true } := by
      rw [h2, Store.putInode_itable, update_self, hdisk, h0, hin]
    have hother2 {e : Fin NINODE} (he : e ≠ 0) : st2.itable e = st1.itable e := by
      rw [h2, Store.putInode_itable, update_of_ne he]
    have hl2 : Loaded s 0 ROOTINO st2 := ⟨by rw [h2]; exact hdisk, by rw [he2, h0], by rw [he2]⟩
    simp only [wp_inode]
    rw [if_neg (not_not.mpr (by rw [he2]; exact h.root.type)), if_neg (by decide), wp_bind]
    refine (dirlookup_root h hroom hf hp hd hl2 fun e he => by rw [hother2 he, (hother he).1]).mono fun r st3 h3 => ?_
    obtain ⟨e, off, rfl, href, h3⟩ := h3
    have hne : e ≠ 0 := by
      rintro rfl
      rw [he2, h0] at href
      cases href
    have he3 : st3.itable 0 = st2.itable 0 := by
      rw [h3, Store.putInode_itable, update_of_ne hne.symm]
    simp only [iunlockput, iunlock, wp_bind, wp_inode]
    rw [if_neg (by rw [he3, he2, h0]; simp), wp_setInode]
    refine (iput_kept (.inl ?_)).mono fun _ st4 h4 => ?_
    · rw [Store.putInode_itable, update_self, he3, he2, h0]
    · have hend : Wp E (namexFrom sb false (f.shortname.length - 1) e []) (fun r st => ∃ e,
          r.map Prod.fst = some e ∧ st.disk = s.disk ∧ (st.itable e).inum = k + 2 ∧ 0 < (st.itable e).ref ∧
          (st.itable e).locked = false ∧ (st.itable e).valid = false) st4 := by
        rw [namexFrom_length sb false e (Nat.zero_le _) (Nat.le_refl _)]
        have he4 : st4.itable e = { st2.itable e with inum := k + 2, ref := 1, valid := false } := by
          rw [h4, Store.putInode_itable, update_of_ne hne, Store.putInode_itable, update_of_ne hne,
            h3, Store.putInode_itable, update_self]
        refine ⟨e, rfl, ?_, ?_, ?_, ?_, ?_⟩
        · rw [h4, Store.putInode_disk, Store.putInode_disk, h3, Store.putInode_disk, hl2.disk]
        · rw [he4]
        · rw [he4]
          exact Nat.one_pos
        · rw [he4, hother2 hne, (hother hne).2]
        · rw [he4]
      exact hend

/-! ## Reading a file -/

/-- `readi` on the inode of a file returns its contents. -/
theorem readi_main (h : Finished s fs) (hf : fs[k]? = some f) (hl : Loaded s e (k + 2) st) {off : Nat}
    (hn : off + n < 2 ^ 32) :
    readi sb e (fun _ => true) off n st = .ok ((((f.content.drop off).take n).length, (f.content.drop off).take n), st) := by
  have hfile := h.file hf
  have hnode := hl.node h (by rw [hfile.type]; decide)
  have hsize : (st.itable e).size.toNat = f.content.length := by rw [hl.dinode, hfile.size]
  have hle : f.content.length ≤ nblk f.content.length * BSIZE := le_of_nblk (Nat.le_refl _)
  have hsolid : Solid sb e st := by
    intro bn _ hlt
    rw [hl.current_eq, hl.inum]
    rw [hsize, ← hfile.size] at hlt
    exact (hfile.ref_ne_zero (by rw [hfile.size]; exact hle) hlt).2
  have hM : (st.itable e).size.toNat ≤ MAXFILE * BSIZE := by
    rw [hsize]
    exact hle.trans (Nat.mul_le_mul_right _ hfile.le)
  have hread : Wp (fun _ => False) (readi sb e (fun _ => true) off n) _ st :=
    readi_node hnode (SolidTo.mono hsolid (Nat.min_le_right ..)) (by omega) (.inl hM)
  obtain ⟨r, st', hrun, rfl, hr, hbytes⟩ := hread.exists_ok
  obtain ⟨-, a, -, ha⟩ | ⟨hr, hlen⟩ := hr
  · cases ha
  · have hlen := hlen hn
    rw [hl.current_eq, hl.inum] at hbytes
    have hout : r.2 = (f.content.drop off).take n := by
      refine ext_getElem ?_ fun j h1 h2 => ?_
      · rw [hlen, hsize, length_take, length_drop]
      · obtain ⟨-, hb⟩ := hbytes j _ (List.getElem?_eq_getElem h1)
        rw [getElem_take, getElem_drop]
        rw [length_take, length_drop] at h2
        have hc := hfile.byte (off + j) _ (List.getElem?_eq_getElem (by omega))
        exact Option.some.inj (hb.symm.trans hc)
    rw [hrun, ← hout, ← hr]

/-- A file whose name in the image is empty. -/
def underscore : InFile where
  arg := [0x5f]
  reads := some [[0x78]]
  nul := by decide
  sizes := by decide

end Xv6.Mkfs
