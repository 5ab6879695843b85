import Xv6.Mkfs.Build

/-!
# The whole program

`main_wp`: if there are inodes and blocks enough, the program comes to its end,
and if it does, the image holds the root directory and the files of the command
line (`Finished`), with the blocks below `freeblock` marked in the free map.
-/

namespace Xv6.Mkfs

open Framework Function List
open Fs
open Log (BlockNo Block word setWord bytes)

variable {s s' : State} {i k b n : Nat} {fs : List InFile} {E : Exit → Prop} {v : Block}

/-! ## An empty disk -/

theorem dinode_zero {d : BlockNo → Block} (h : d (sb.iblock i) = fun _ => 0) : dinode sb d i = Dinode.ofType 0 := by
  rw [dinode, h, bytes_zero]
  rfl

/-- The disk with a superblock and nothing else. -/
theorem built_nil (hd : s.disk = update (fun _ _ => 0) 1 sbBlock) (hl : s.len = FSSIZE)
    (hi : s.freeinode = 1) (hb : s.freeblock = nmeta) : Built s [] := by
  have hzero {b : BlockNo} (hb : b ≠ 1) : s.disk b = fun _ => 0 := by rw [hd, update_of_ne hb]
  have htype (i : Nat) : ((view s).inode i).type = 0 := by
    change (if i < sb.ninodes then dinode sb s.disk i else Dinode.ofType 0).type = 0
    split
    · rename_i hi
      rw [dinode_zero (hzero fun h => ?_)]
      · rfl
      · have := (iblock_toNat hi).1
        have h1 : (1 : BlockNo).toNat = 1 := rfl
        have h2 : sb.inodestart = 32 := rfl
        rw [h, h1, h2] at this
        simp only [IPB, BSIZE] at this
        omega
    · rfl
  have href (q : Nat × Place) : (view s).ref q = 0 := Image.ref_eq_zero (.inl (htype q.1)) q.2
  have hused {b : BlockNo} (h : b.toNat < sb.size) : (view s).used b = decide (b.toNat < nmeta) := by
    rw [← hb]
    exact if_pos h
  refine ⟨hl, ?_, hi, by decide, hb, ?_, ⟨⟨fun hq => absurd (href _) hq, fun hq => absurd (href _) hq, fun {b} hU => ?_,
    fun h0 => h0.1.ne_zero rfl⟩, fun {b} hlt => ?_⟩, fun {b} hin _ => hzero ?_, nofun, nofun, fun _ => htype _⟩
  · rw [hd, update_self]
  · rw [hb]
    decide
  · -- no data block is in use
    rw [hused hU.1.2] at hU
    exact absurd (of_decide_eq_true hU.2) (Nat.not_lt.mpr hU.1.1)
  · rw [hused (hlt.trans_le layout.dataStart_le)]
    exact decide_eq_true hlt
  · rintro rfl
    exact absurd hin.1 (by decide)

theorem zeroSectors_from {m : Nat} (h : m + n ≤ FSSIZE) :
    Wp E ((range' m n).forM fun i => wsect (BitVec.ofNat 32 i) fun _ => 0)
      (fun _ s => s = { start with len := m + n }) { start with len := m } := by
  induction n generalizing m with
  | zero => rfl
  | succ n ih =>
    have hm : (BitVec.ofNat 32 m).toNat = m := by
      rw [BitVec.toNat_ofNat]
      simp only [FSSIZE] at h
      omega
    have hsec : sector (BitVec.ofNat 32 m) = BitVec.ofNat 32 m := sector_eq (by omega)
    have hself : update start.disk (BitVec.ofNat 32 m) (fun _ => 0) = start.disk := update_eq_self ..
    have hstep : Wp E (wsect (BitVec.ofNat 32 m) fun _ => 0) (fun _ s => s = { start with len := m + 1 })
        { start with len := m } := by
      simp only [wsect, wp_modify, hsec, hm, Nat.max_eq_right (Nat.le_succ m), hself]
    rw [List.range'_succ]
    refine hstep.bind fun _ s hs => ?_
    subst hs
    rw [Nat.add_comm n, ← Nat.add_assoc]
    exact ih (by omega)

theorem zeroSectors_wp (h : n ≤ FSSIZE) :
    Wp E (zeroSectors n) (fun _ s => s = { start with len := n }) start := by
  have := zeroSectors_from (E := E) (m := 0) (n := n) (by rwa [Nat.zero_add])
  rw [Nat.zero_add] at this
  rw [zeroSectors, range_eq_range']
  exact this

/-! ## The free map -/

theorem bytes_setByte {data : Block} {x j : Nat} {v : Byte} (hx : x < BSIZE) :
    bytes (setByte data j v) x = if x = j then v else bytes data x := by
  rw [setByte, bytes_ofBytes hx, update_apply]

/-- The first `n` bits are set. -/
theorem getLsbD_bitmap (hb : b < BPB) :
    (bytes ((range n).foldl (fun buf i => setByte buf (i / 8) (bytes buf (i / 8) ||| mask i)) fun _ => 0)
      (b / 8)).getLsbD (b % 8) = decide (b < n) := by
  have hx : b / 8 < BSIZE := by
    simp only [BPB, BSIZE] at *
    omega
  induction n with
  | zero =>
    rw [range_zero, foldl_nil, bytes_zero]
    simp
  | succ n ih =>
    rw [range_succ, foldl_append, foldl_cons, foldl_nil, bytes_setByte hx]
    split
    · rename_i hn
      rw [← hn, BitVec.getLsbD_or, ih, getLsbD_mask, ← Bool.decide_or]
      exact decide_eq_decide.mpr (by omega)
    · rename_i hn
      rw [ih]
      refine decide_eq_decide.mpr ?_
      have : b ≠ n := fun h => hn (by rw [h])
      omega

/-! ## The image -/

/-- The image of the files `fs`. -/
structure Finished (s : State) (fs : List InFile) : Prop where
  super : s.disk 1 = sbBlock
  freeinode : s.freeinode = fs.length + 2
  count : s.freeblock = blocksNeeded fs
  high : s.freeblock ≤ FSSIZE
  marked : ∀ {b}, b < BPB → bitSet sb s.disk b = decide (b < s.freeblock)
  own : Own sb (image sb s.disk)
  root : Holds (image sb s.disk) ROOTINO T_DIR (rootDir fs)
  rootSize : ((image sb s.disk).inode ROOTINO).size.toNat = ((rootDir fs).length / BSIZE + 1) * BSIZE
  file : ∀ {k f}, fs[k]? = some f → HasFile (image sb s.disk) (k + 2) T_FILE f.content
  free : ∀ {i}, i = 0 ∨ fs.length + 1 < i → ((image sb s.disk).inode i).type = 0
  accepted : ∀ f ∈ fs, Accepted f

theorem bblock_eq (hb : b < BPB) : sb.bblock b = BitVec.ofNat 32 sb.bmapstart := by
  rw [Superblock.bblock, Nat.div_eq_of_lt hb, Nat.zero_add]

/-- The free map is written. -/
theorem image_bitmap (hv : ∀ {b}, b < BPB → (bytes v (b / 8)).getLsbD (b % 8) = decide (b < s.freeblock)) :
    image sb (update s.disk (BitVec.ofNat 32 sb.bmapstart) v) = view s := by
  have hbit {b : Nat} (hb : b < BPB) :
      bitSet sb (update s.disk (BitVec.ofNat 32 sb.bmapstart) v) b = decide (b < s.freeblock) := by
    rw [bitSet, bblock_eq hb, update_self, Nat.mod_eq_of_lt hb, hv hb]
  have hbm : BitVec.ofNat 32 sb.bmapstart = sb.bblock 0 := (bblock_eq (by decide)).symm
  ext1
  · funext b
    simp only [image, view]
    split
    · rename_i hb
      exact hbit (hb.trans (by decide))
    · rfl
  · funext i
    simp only [image, view]
    split
    · rename_i hi
      refine dinode_update s.disk ?_
      rw [hbm]
      exact Layout.iblock_ne_bblock layout hi (by decide)
    · rfl
  · funext b
    simp only [image, view]
    split
    · rename_i hb
      refine update_of_ne ?_ ..
      rw [hbm]
      exact (Layout.bblock_ne_data layout (by decide) hb).symm
    · rfl

/-- The size of the root directory is rounded up, and the free map written. -/
theorem Built.finished (h : Built s (inodes fs)) (ha : ∀ f ∈ fs, Accepted f) {dn : Dinode}
    (hdn : dn = { (view s).inode ROOTINO with
      size := BitVec.ofNat 32 ((((view s).inode ROOTINO).size.toNat / BSIZE + 1) * BSIZE) })
    (hv : ∀ {b}, b < BPB → (bytes v (b / 8)).getLsbD (b % 8) = decide (b < s.freeblock))
    (hd : s'.disk = update (writeInode sb s.disk ROOTINO dn) (BitVec.ofNat 32 sb.bmapstart) v)
    (hf : s'.freeblock = s.freeblock) (hi : s'.freeinode = s.freeinode) : Finished s' fs := by
  have hroot := h.file (k := 0) rfl
  have him : image sb s'.disk = (view s).setInode ROOTINO dn := by
    have hmap := image_bitmap (s := { s with disk := writeInode sb s.disk ROOTINO dn }) hv
    rw [hd]
    exact hmap.trans (view_winode (by decide) dn)
  have hself : ((view s).setInode ROOTINO dn).inode ROOTINO = dn := by
    rw [Image.setInode_inode, update_self]
  have hsame (q : Place) : ((view s).setInode ROOTINO dn).ref (ROOTINO, q) = (view s).ref (ROOTINO, q) := by
    have ht : ((view s).inode ROOTINO).type ≠ 0 := by
      rw [hroot.type]
      decide
    exact Image.ref_setInode_addrs _ dn (by rw [hdn]; exact ht) ht (by rw [hdn]) q
  have href := Image.ref_setInode hsame
  have hbyte := Image.byte_setInode hsame
  have hlen := rootDir_length fs
  have hroom := h.room
  rw [inodes, length_cons, length_map] at hroom
  refine ⟨?_, ?_, ?_, ?_, fun {b} hb => ?_, ?_, ⟨?_, ?_, fun x w hw => ?_, fun x w hx hw => ?_, fun hn => ?_, ?_, hroot.le⟩,
    ?_, fun {k f} hk => ?_, fun {i} hi => ?_, ha⟩
  · rw [← h.super, ← writeInode_super (s := s) (i := ROOTINO) (by decide) dn, hd]
    exact update_of_ne (by decide) ..
  · rw [hi, h.freeinode, inodes, length_cons, length_map]
  · rw [hf, h.count, total_inodes]
  · rw [hf]
    exact h.high
  · rw [hd, bitSet, bblock_eq hb, update_self, Nat.mod_eq_of_lt hb, hv hb, hf]
  · rw [him]
    exact h.own.setInode hsame
  · rw [him, hself, hdn]
    exact hroot.type
  · rw [him, hself, hdn]
    exact hroot.nlink
  · rw [him, hbyte]
    exact hroot.byte x w hw
  · rw [him, hbyte] at hw
    exact hroot.rest x w hx hw
  · rw [him, href]
    exact hroot.blocks hn
  · rw [him, href]
    exact hroot.indirect
  · rw [him, hself, hdn, BitVec.toNat_ofNat, hroot.size]
    simp only [NINODES, DIRENT, DIRSIZ, BSIZE] at *
    omega
  · have hk' : (inodes fs)[k + 1]? = some (T_FILE, f.content) := by
      rw [inodes, List.getElem?_cons_succ, List.getElem?_map, hk, Option.map_some]
    have hne : k + 2 ≠ ROOTINO := by
      simp only [ROOTINO]
      omega
    refine (h.file hk').of_eq ?_ (fun q => ?_) fun x => ?_
    · rw [him, Image.setInode_inode, update_of_ne hne]
    · rw [him, href]
    · rw [him, hbyte]
  · have hne : i ≠ ROOTINO := by
      simp only [ROOTINO]
      omega
    rw [him, Image.setInode_inode, update_of_ne hne]
    refine h.free ?_
    rwa [inodes, length_cons, length_map]

/-- The program comes to its end if there is room, and then the image is that of
the files. -/
theorem main_wp (hroom : fs.length + 1 < NINODES) (hE : (∀ f ∈ fs, Accepted f) ∧ blocksNeeded fs ≤ FSSIZE ∨ ∀ r, E r) :
    Wp E (main fs) (fun _ s => Finished s fs) start := by
  rw [main]
  refine (zeroSectors_wp (Nat.le_refl FSSIZE)).bind fun _ s1 h1 => ?_
  subst h1
  rw [wp_bind]
  refine (wp_wsect rfl (by decide)).mpr ?_
  have h2 := built_nil (s := { start with
    disk := update start.disk 1 sbBlock
    len := FSSIZE }) rfl rfl rfl rfl
  refine (ialloc_wp h2 (by decide) (show T_DIR ≠ 0 by decide)).bind fun r s3 h3 => ?_
  obtain ⟨hr, h3⟩ := h3
  obtain rfl : r = ROOTINO := hr
  rw [wp_bind, assert, if_pos rfl, wp_pure]
  refine (iappend_wp (k := 0) h3 rfl (.inl ⟨by decide, by decide⟩)).bind fun _ s4 h4 => ?_
  refine (iappend_wp (k := 0) h4 rfl (.inl ⟨by decide, by decide⟩)).bind fun _ s5 h5 => ?_
  refine (files_wp (show Built s5 (inodes []) from h5) hroom hE).bind fun _ s6 h6 => ?_
  obtain ⟨h6, ha⟩ := h6
  rw [nil_append] at h6
  have hroot : dinode sb s6.disk ROOTINO = (view s6).inode ROOTINO := rfl
  rw [wp_bind, wp_rinode h6.len (by decide), hroot, wp_bind, wp_winode h6.len (by decide)]
  simp only [wp_bind, wp_get, balloc, assert]
  rw [if_pos (Nat.lt_of_le_of_lt h6.high (by decide)), wp_pure]
  refine (wp_wsect (by exact h6.len) (by decide)).mpr ?_
  exact h6.finished ha rfl getLsbD_bitmap rfl rfl rfl

end Xv6.Mkfs
