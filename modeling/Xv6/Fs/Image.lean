import Xv6.Fs.Inode

/-!
# What the disk stands for

An `Image` is the file system on a disk without its encoding: which blocks
the free map marks, the inodes, and the data blocks. `image sb d` reads it off
the blocks `d`. The three areas of a disk with a `Layout` do not overlap, so
that each kind of write changes one entry of one part of the image
(`image_writeInode`, `image_writeBit`, `image_writeData`).
-/

namespace Xv6.Fs

open Framework Function
open Log (BlockNo Block word setWord bytes)

/-! ## Bytes -/

variable {m : Bytes} {x a : Nat}

theorem bytes_ofBytes (h : x < BSIZE) : bytes (ofBytes m) x = m x := by
  simp only [bytes, h, ↓reduceDIte, ofBytes]

theorem Dinode.write_apply (d : Dinode) (h : x < a ∨ a + 64 ≤ x) :
    d.write m a x = m x := by
  simp only [Dinode.write]
  rw [writeWords_apply (by simp only [NDIRECT]; omega), write32, writeLE_apply (by omega), write16,
    writeLE_apply (by omega), write16, writeLE_apply (by omega), write16, writeLE_apply (by omega), write16, writeLE_apply (by omega)]

theorem Dinode.read_congr {m' : Bytes} (h : ∀ x, a ≤ x → x < a + 64 → m x = m' x) :
    Dinode.read m a = Dinode.read m' a := by
  simp only [Dinode.read, Dinode.mk.injEq]
  refine ⟨read16_congr fun x h1 h2 => h x (by omega) (by omega), read16_congr fun x h1 h2 => h x (by omega) (by omega),
    read16_congr fun x h1 h2 => h x (by omega) (by omega), read16_congr fun x h1 h2 => h x (by omega) (by omega),
    read32_congr fun x h1 h2 => h x (by omega) (by omega), funext fun k => ?_⟩
  have hk : k.val < 13 := k.isLt
  exact read32_congr fun x h1 h2 => h x (by omega) (by omega)

@[simp] theorem Dinode.read_write (m : Bytes) (a : Nat) (d : Dinode) : Dinode.read (d.write m a) a = d := by
  have haddrs (k : Fin (NDIRECT + 1)) : read32 (d.write m a) (a + 12 + 4 * k) = d.addrs k := by
    rw [Dinode.write, read32_writeWords _ _ _ k.isLt, Fin.ofNat_val_eq_self]
  simp only [Dinode.read, haddrs]
  simp (disch := omega) only [Dinode.write, read16_writeWords_disjoint, read32_writeWords_disjoint,
    read16_write32_disjoint, read16_write16_disjoint, read16_write16_self, read32_write32_self]

theorem getLsbD_mask (bi j : Nat) : (mask bi).getLsbD j = decide (j = bi % 8) := by
  have : bi % 8 < 8 := Nat.mod_lt _ (by decide)
  simp only [mask, BitVec.getLsbD_shiftLeft, BitVec.getLsbD_one]
  by_cases h : j = bi % 8
  · subst h; simp [this]
  · simp only [h, decide_false, Bool.and_eq_false_imp]
    simp
    omega

theorem and_mask_eq_zero {v : Byte} {bi : Nat} : v &&& mask bi = 0 ↔ v.getLsbD (bi % 8) = false := by
  constructor
  · intro h
    have := congrArg (·.getLsbD (bi % 8)) h
    simpa [getLsbD_mask] using this
  · intro h
    apply BitVec.eq_of_getLsbD_eq
    intro j hj
    simp only [BitVec.getLsbD_and, getLsbD_mask]
    by_cases e : j = bi % 8
    · subst e; simp [h]
    · simp [e]

/-! ## The layout -/

/-- The first data block. -/
def Superblock.dataStart (sb : Superblock) : Nat := sb.bmapstart + sb.size / BPB + 1

/-- The inode blocks, the free map and the data blocks follow each other, and
block numbers fit the `int`s of `balloc`. -/
structure Layout (sb : Superblock) : Prop where
  inodes_le : sb.inodestart + sb.ninodes / IPB + 1 ≤ sb.bmapstart
  dataStart_le : sb.dataStart ≤ sb.size
  size_le : sb.size ≤ 2 ^ 31
  root_lt : ROOTINO < sb.ninodes

/-- A block of the data area. -/
def Superblock.InData (sb : Superblock) (b : BlockNo) : Prop := sb.dataStart ≤ b.toNat ∧ b.toNat < sb.size

instance (sb : Superblock) (b : BlockNo) : Decidable (sb.InData b) := inferInstanceAs (Decidable (_ ∧ _))

/-- A file system without its encoding. -/
@[ext] structure Image where
  /-- The free map. -/
  used : BlockNo → Bool
  inode : Nat → Dinode
  /-- The data blocks. -/
  data : BlockNo → Block

namespace Image

variable (im : Image)

/-- Block `b` is marked in the free map, or not. -/
def setUsed (b : BlockNo) (v : Bool) : Image := ⟨update im.used b v, im.inode, im.data⟩

/-- Inode `i` changes. -/
def setInode (i : Nat) (dn : Dinode) : Image := ⟨im.used, update im.inode i dn, im.data⟩

/-- The contents of block `b` change. -/
def write (b : BlockNo) (v : Block) : Image := ⟨im.used, im.inode, update im.data b v⟩

@[simp] theorem setUsed_used (b : BlockNo) (v : Bool) : (im.setUsed b v).used = update im.used b v := rfl
@[simp] theorem setUsed_inode (b : BlockNo) (v : Bool) : (im.setUsed b v).inode = im.inode := rfl
@[simp] theorem setUsed_data (b : BlockNo) (v : Bool) : (im.setUsed b v).data = im.data := rfl
@[simp] theorem setInode_used (i : Nat) (dn : Dinode) : (im.setInode i dn).used = im.used := rfl
@[simp] theorem setInode_inode (i : Nat) (dn : Dinode) :
    (im.setInode i dn).inode = update im.inode i dn := rfl
@[simp] theorem setInode_data (i : Nat) (dn : Dinode) : (im.setInode i dn).data = im.data := rfl
@[simp] theorem write_used (b : BlockNo) (v : Block) : (im.write b v).used = im.used := rfl
@[simp] theorem write_inode (b : BlockNo) (v : Block) : (im.write b v).inode = im.inode := rfl
@[simp] theorem write_data (b : BlockNo) (v : Block) : (im.write b v).data = update im.data b v := rfl

@[simp] theorem setInode_setInode (i : Nat) (dn dn' : Dinode) :
    (im.setInode i dn).setInode i dn' = im.setInode i dn' := by
  simp only [setInode, update_idem]

end Image

/-- Is the bit of block `b` set in the free map? -/
def bitSet (sb : Superblock) (d : BlockNo → Block) (b : Nat) : Bool :=
  (bytes (d (sb.bblock b)) (b % BPB / 8)).getLsbD (b % 8)

/-- Inode `i` on the disk. -/
def dinode (sb : Superblock) (d : BlockNo → Block) (i : Nat) : Dinode :=
  Dinode.read (bytes (d (sb.iblock i))) (inodeOffset i)

/-- The file system on a disk. -/
def image (sb : Superblock) (d : BlockNo → Block) : Image where
  used b := if b.toNat < sb.size then bitSet sb d b.toNat else true
  inode i := if i < sb.ninodes then dinode sb d i else Dinode.ofType 0
  data b := if sb.InData b then d b else fun _ => 0

variable {sb : Superblock} {i : Nat} {b c : BlockNo} {v : Block} {f : Byte → Byte}

theorem image_data (d : BlockNo → Block) (hb : sb.InData b) : (image sb d).data b = d b := if_pos hb

theorem Superblock.bmapstart_lt (sb : Superblock) : sb.bmapstart < sb.dataStart :=
  Nat.lt_succ_of_le (Nat.le_add_right ..)

theorem Superblock.InData.ne_zero (h : sb.InData b) : b ≠ 0 := by
  rintro rfl
  have h1 := h.1
  have h2 := sb.bmapstart_lt
  simp only [BitVec.ofNat_eq_ofNat, BitVec.toNat_ofNat, Nat.zero_mod] at h1
  omega

theorem Layout.iblock_toNat (L : Layout sb) (hi : i < sb.ninodes) :
    (sb.iblock i).toNat = i / IPB + sb.inodestart ∧ (sb.iblock i).toNat < sb.bmapstart := by
  have h1 := L.inodes_le
  have h2 := L.dataStart_le
  have h3 := L.size_le
  have h4 : i / IPB ≤ sb.ninodes / IPB := Nat.div_le_div_right hi.le
  have h5 := sb.bmapstart_lt
  rw [Superblock.iblock, BitVec.toNat_ofNat, Nat.mod_eq_of_lt (by omega)]
  omega

theorem Layout.bblock_toNat (L : Layout sb) {b : Nat} (hb : b < sb.size) :
    (sb.bblock b).toNat = b / BPB + sb.bmapstart ∧ (sb.bblock b).toNat < sb.dataStart := by
  have h2 := L.dataStart_le
  have h3 := L.size_le
  have h4 : b / BPB ≤ sb.size / BPB := Nat.div_le_div_right hb.le
  simp only [Superblock.dataStart] at h2 ⊢
  rw [Superblock.bblock, BitVec.toNat_ofNat, Nat.mod_eq_of_lt (by omega)]
  omega

theorem Layout.iblock_ne_bblock (L : Layout sb) {b : Nat} (hi : i < sb.ninodes) (hb : b < sb.size) :
    sb.iblock i ≠ sb.bblock b := by
  intro h
  have h1 := (L.iblock_toNat hi).2
  have h2 := (L.bblock_toNat hb).1
  rw [h, h2] at h1
  exact absurd (Nat.le_add_left ..) (Nat.not_le.mpr h1)

theorem Layout.iblock_ne_data (L : Layout sb) (hi : i < sb.ninodes) (hb : sb.InData b) :
    sb.iblock i ≠ b := by
  rintro rfl
  have h1 := (L.iblock_toNat hi).2
  have h2 := hb.1
  have h3 := sb.bmapstart_lt
  omega

theorem Layout.bblock_ne_data (L : Layout sb) {b : Nat} (hb : b < sb.size) (hc : sb.InData c) :
    sb.bblock b ≠ c := by
  rintro rfl
  have h1 := L.bblock_toNat hb
  have h2 := hc.1
  omega

/-! ## Writes -/

/-- The blocks `d` with inode `i` written. -/
def writeInode (sb : Superblock) (d : BlockNo → Block) (i : Nat) (dn : Dinode) : BlockNo → Block :=
  update d (sb.iblock i) (ofBytes (dn.write (bytes (d (sb.iblock i))) (inodeOffset i)))

theorem inodeOffset_add_le (i : Nat) : inodeOffset i + 64 ≤ BSIZE := by
  have : i % IPB < 16 := Nat.mod_lt _ (by decide)
  simp only [inodeOffset, BSIZE]
  omega

theorem dinode_writeInode_self (d : BlockNo → Block) (i : Nat) (dn : Dinode) :
    dinode sb (writeInode sb d i dn) i = dn := by
  have hle := inodeOffset_add_le i
  rw [dinode, writeInode, update_self, ← Dinode.read_write (bytes (d (sb.iblock i))) (inodeOffset i) dn]
  refine Dinode.read_congr fun x h1 h2 => ?_
  rw [bytes_ofBytes (by omega), Dinode.read_write]

theorem dinode_writeInode_ne (L : Layout sb) (d : BlockNo → Block) {j : Nat} (hi : i < sb.ninodes)
    (hj : j < sb.ninodes) (h : j ≠ i) (dn : Dinode) : dinode sb (writeInode sb d i dn) j = dinode sb d j := by
  have hle := inodeOffset_add_le j
  simp only [dinode, writeInode]
  by_cases e : sb.iblock j = sb.iblock i
  · -- the two inodes are in one block, at different offsets
    have hoff : j % IPB ≠ i % IPB := by
      have h1 := (L.iblock_toNat hi).1
      have h2 := (L.iblock_toNat hj).1
      rw [e] at h2
      have h3 : j / IPB = i / IPB := by omega
      intro h4
      exact h (by rw [← Nat.div_add_mod j IPB, ← Nat.div_add_mod i IPB, h3, h4])
    rw [e, update_self]
    refine Dinode.read_congr fun x h1 h2 => ?_
    rw [bytes_ofBytes (by omega), Dinode.write_apply]
    simp only [inodeOffset] at h1 h2 ⊢
    omega
  · rw [update_of_ne e]

theorem bitSet_update (d : BlockNo → Block) {b : Nat} (h : sb.bblock b ≠ c) :
    bitSet sb (update d c v) b = bitSet sb d b := by
  simp only [bitSet, update_of_ne h]

theorem dinode_update (d : BlockNo → Block) (h : sb.iblock i ≠ c) :
    dinode sb (update d c v) i = dinode sb d i := by
  simp only [dinode, update_of_ne h]

theorem image_writeInode (L : Layout sb) (d : BlockNo → Block) (hi : i < sb.ninodes) (dn : Dinode) :
    image sb (writeInode sb d i dn) = (image sb d).setInode i dn := by
  ext1
  · funext b
    simp only [image, Image.setInode_used]
    split
    · rename_i hb
      exact bitSet_update d (L.iblock_ne_bblock hi hb).symm
    · rfl
  · funext j
    simp only [image, Image.setInode_inode]
    by_cases e : j = i
    · subst e
      rw [update_self, if_pos hi, dinode_writeInode_self]
    · rw [update_of_ne e]
      split
      · rename_i hj
        exact dinode_writeInode_ne L d hi hj e dn
      · rfl
  · funext b
    simp only [image, Image.setInode_data]
    split
    · rename_i hb
      exact update_of_ne (L.iblock_ne_data hi hb).symm ..
    · rfl

theorem image_writeData (L : Layout sb) (d : BlockNo → Block) (hb : sb.InData b) (v : Block) :
    image sb (update d b v) = (image sb d).write b v := by
  ext1
  · funext c
    simp only [image, Image.write_used]
    split
    · rename_i hc
      exact bitSet_update d (L.bblock_ne_data hc hb)
    · rfl
  · funext i
    simp only [image, Image.write_inode]
    split
    · rename_i hi
      exact dinode_update d (L.iblock_ne_data hi hb)
    · rfl
  · funext c
    simp only [image, Image.write_data, update_apply]
    by_cases e : c = b
    · subst e; simp only [hb, ↓reduceIte]
    · simp only [e, ↓reduceIte]

/-- The blocks `d` with the byte of block `b` in the free map changed. -/
def writeBit (sb : Superblock) (d : BlockNo → Block) (b : Nat) (f : Byte → Byte) : BlockNo → Block :=
  update d (sb.bblock b)
    (setByte (d (sb.bblock b)) (b % BPB / 8) (f (bytes (d (sb.bblock b)) (b % BPB / 8))))

theorem bitSet_writeBit (L : Layout sb) (d : BlockNo → Block) {b c : Nat} (hb : b < sb.size) (hc : c < sb.size)
    {v : Bool} (hf : ∀ x j, j < 8 → (f x).getLsbD j = if j = b % 8 then v else x.getLsbD j) :
    bitSet sb (writeBit sb d b f) c = if c = b then v else bitSet sb d c := by
  have hB : c % BPB / 8 < BSIZE := by
    have : c % BPB < 8192 := Nat.mod_lt _ (by decide)
    simp only [BSIZE]
    omega
  simp only [bitSet, writeBit]
  by_cases e : sb.bblock c = sb.bblock b
  · have hdiv : c / BPB = b / BPB := by
      have h1 := (L.bblock_toNat hb).1
      have h2 := (L.bblock_toNat hc).1
      rw [e] at h2
      omega
    have hmod : c = b ↔ c % BPB = b % BPB :=
      ⟨fun h => by rw [h], fun h => by rw [← Nat.div_add_mod c BPB, ← Nat.div_add_mod b BPB, hdiv, h]⟩
    rw [e, update_self, setByte, bytes_ofBytes hB, update_apply]
    by_cases e1 : c % BPB / 8 = b % BPB / 8
    · rw [if_pos e1, hf _ _ (Nat.mod_lt _ (by decide)), e1]
      refine if_congr ?_ rfl rfl
      rw [hmod]
      simp only [BPB, BSIZE] at e1 ⊢
      omega
    · rw [if_neg e1, if_neg fun h => e1 (by rw [h])]
  · rw [update_of_ne e, if_neg fun h => e (by rw [h])]

theorem image_writeBit (L : Layout sb) (d : BlockNo → Block) (hb : b.toNat < sb.size) {v : Bool}
    (hf : ∀ x j, j < 8 → (f x).getLsbD j = if j = b.toNat % 8 then v else x.getLsbD j) :
    image sb (writeBit sb d b.toNat f) = (image sb d).setUsed b v := by
  ext1
  · funext c
    simp only [image, Image.setUsed_used, update_apply]
    by_cases hc : c.toNat < sb.size
    · rw [if_pos hc, if_pos hc, bitSet_writeBit L d hb hc hf]
      exact if_congr BitVec.toNat_inj rfl rfl
    · rw [if_neg hc, if_neg hc, if_neg]
      rintro rfl
      exact hc hb
  · funext i
    simp only [image, Image.setUsed_inode]
    split
    · rename_i hi
      exact dinode_update d (L.iblock_ne_bblock hi hb)
    · rfl
  · funext c
    simp only [image, Image.setUsed_data]
    split
    · rename_i hc
      exact update_of_ne (L.bblock_ne_data hb hc).symm ..
    · rfl

end Xv6.Fs
