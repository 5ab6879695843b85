import Xv6.Framework.Owns
import Xv6.Fs.Image

/-!
# Who owns a block

A block address stands in a `Place` of an inode: in `addrs`, or in its indirect
block. `Own` says that the addresses of the allocated inodes are exactly the
data blocks that the free map marks, each once, and that the blocks before the
data area are marked; `Full` that no block below the size of a file is missing;
`Dirs` that the entries of directories carry inode numbers of the disk. The
rest says how they change with the image: a new block in an empty place
(`Own.giveAddr`, `Own.giveEntry`), a block taken out of `addrs`
(`Own.takeAddr`), new contents of a file block (`Own.write`).
-/

namespace Xv6.Fs

open Framework Function Image
open Log (BlockNo Block word setWord bytes)

/-- Where an inode may hold a block address. -/
inductive Place
  | addr (k : Fin (NDIRECT + 1))
  | entry (j : Fin NINDIRECT)
  deriving DecidableEq

instance : NeZero NINDIRECT := ⟨by decide⟩

/-- The place of the address of the `bn`-th block of a file. -/
def place (bn : Nat) : Place :=
  if bn < NDIRECT then .addr (Fin.ofNat _ bn) else .entry (Fin.ofNat _ (bn - NDIRECT))

theorem place_ne_indirect (bn : Nat) : place bn ≠ .addr indirect := by
  simp only [place]
  split
  · rename_i h
    simp only [ne_eq, Place.addr.injEq, Fin.ext_iff, Fin.val_ofNat, Fin.val_last]
    simp only [NDIRECT] at h ⊢
    omega
  · exact Place.noConfusion

variable {bn i x : Nat}

theorem place_inj {bn' : Nat} (h : bn < MAXFILE) (h' : bn' < MAXFILE) (hp : place bn = place bn') : bn = bn' := by
  simp only [MAXFILE, NDIRECT, NINDIRECT, BSIZE] at h h'
  simp only [place] at hp
  split at hp <;> split at hp
  · simp only [Place.addr.injEq, Fin.ext_iff, Fin.val_ofNat, NDIRECT] at *
    omega
  · cases hp
  · cases hp
  · simp only [Place.entry.injEq, Fin.ext_iff, Fin.val_ofNat, NDIRECT, NINDIRECT, BSIZE] at *
    omega

namespace Image

/-- The block address in a place of an allocated inode, 0 if there is none. -/
def ref (im : Image) : Nat × Place → BlockNo
  | (i, .addr k) => if (im.inode i).type = 0 then 0 else (im.inode i).addrs k
  | (i, .entry j) =>
    if (im.inode i).type = 0 ∨ (im.inode i).addrs indirect = 0 then 0
    else word (im.data ((im.inode i).addrs indirect)) j

/-- The contents of the `bn`-th block of a file. -/
def block (im : Image) (i bn : Nat) : Option Block :=
  if bn < MAXFILE ∧ im.ref (i, place bn) ≠ 0 then some (im.data (im.ref (i, place bn))) else none

/-- The byte at offset `x` of a file. -/
def byte (im : Image) (i x : Nat) : Option Byte := (im.block i (x / BSIZE)).map (bytes · (x % BSIZE))

variable {im : Image}

theorem block_isSome : (im.block i bn).isSome ↔ bn < MAXFILE ∧ im.ref (i, place bn) ≠ 0 := by
  rw [block]
  split
  · rename_i h; exact ⟨fun _ => h, fun _ => rfl⟩
  · rename_i h; exact ⟨fun h' => (by cases h'), fun h' => absurd h' h⟩

theorem block_isSome_of_byte {v : Byte} (h : im.byte i x = some v) :
    (im.block i (x / BSIZE)).isSome := by
  obtain ⟨w, hw, -⟩ := Option.map_eq_some_iff.mp h
  rw [hw, Option.isSome_some]

theorem ref_addr (ht : (im.inode i).type ≠ 0) (k : Fin (NDIRECT + 1)) :
    im.ref (i, .addr k) = (im.inode i).addrs k := by
  simp only [ref, ht, ↓reduceIte]

theorem ref_entry (ht : (im.inode i).type ≠ 0) (ha : (im.inode i).addrs indirect ≠ 0)
    (j : Fin NINDIRECT) : im.ref (i, .entry j) = word (im.data ((im.inode i).addrs indirect)) j := by
  simp only [ref, ht, ha, or_self, ↓reduceIte]

theorem ref_congr (im im' : Image) (hi : im'.inode i = im.inode i)
    (hd : im.ref (i, .addr indirect) ≠ 0 → im'.data (im.ref (i, .addr indirect)) = im.data (im.ref (i, .addr indirect)))
    (p : Place) :
    im'.ref (i, p) = im.ref (i, p) := by
  cases p with
  | addr k => simp only [ref, hi]
  | entry j =>
    simp only [ref, hi] at hd ⊢
    by_cases ht : (im.inode i).type = 0
    · simp [ht]
    · simp only [ht, ↓reduceIte, false_or] at hd ⊢
      split
      · rfl
      · rw [hd ‹_›]

end Image

/-- The data blocks in use are the ones that allocated inodes hold, each in one
place, and no other block is free. -/
structure Own (sb : Superblock) (im : Image) : Prop where
  owns : Owns im.ref fun b => sb.InData b ∧ im.used b = true
  before : ∀ {b : BlockNo}, b.toNat < sb.dataStart → im.used b = true

/-- Every block below the size of a file is there. -/
def Full (im : Image) : Prop :=
  ∀ i bn, (im.inode i).type ≠ 0 → bn < MAXFILE → bn * BSIZE < (im.inode i).size.toNat → im.ref (i, place bn) ≠ 0

/-- The entries of directories carry inode numbers of the disk. -/
def Dirs (sb : Superblock) (im : Image) : Prop :=
  ∀ i k lo hi, (im.inode i).type = T_DIR → 16 * k + 16 ≤ (im.inode i).size.toNat → im.byte i (16 * k) = some lo →
    im.byte i (16 * k + 1) = some hi → lo.toNat + 256 * hi.toNat < sb.ninodes

variable {sb : Superblock} {im : Image} {p : Nat × Place} {k : Fin (NDIRECT + 1)} {R : Nat × Place → BlockNo}

theorem Full.isSome (h : Full im) (ht : (im.inode i).type ≠ 0) (hn : bn < MAXFILE)
    (hs : bn * BSIZE < (im.inode i).size.toNat) : (im.block i bn).isSome :=
  block_isSome.mpr ⟨hn, h i bn ht hn hs⟩

/-- A byte below the size of a file is there. -/
theorem Full.byte (h : Full im) (ht : (im.inode i).type ≠ 0) (hn : x / BSIZE < MAXFILE)
    (hx : x < (im.inode i).size.toNat) : ∃ v, im.byte i x = some v := by
  have := Nat.div_mul_le_self x BSIZE
  obtain ⟨w, hw⟩ := Option.isSome_iff_exists.mp (h.isSome ht hn (by omega))
  exact ⟨_, by rw [Image.byte, hw, Option.map_some]⟩

theorem Own.inData (h : Own sb im) (hp : im.ref p ≠ 0) : sb.InData (im.ref p) := (h.owns.used hp).1

theorem Own.used (h : Own sb im) (hp : im.ref p ≠ 0) : im.used (im.ref p) = true :=
  (h.owns.used hp).2

/-- A block that is free is in the data area, and nobody holds it. -/
theorem Own.fresh (h : Own sb im) {b : BlockNo} (hb : im.used b = false) (hs : b.toNat < sb.size) :
    sb.InData b ∧ ∀ p, im.ref p ≠ b := by
  have hd : sb.InData b := by
    refine ⟨Nat.not_lt.mp fun hlt => ?_, hs⟩
    rw [h.before hlt] at hb
    cases hb
  exact ⟨hd, h.owns.fresh hd.ne_zero fun hU => by rw [hU.2] at hb; cases hb⟩

/-! ## A new block -/

theorem word_zero (j : Nat) : word (fun _ => 0) j = 0 := by
  have : bytes (fun _ => 0) = fun _ => 0 := by
    funext x
    simp [bytes]
  rw [word, this]
  rfl

/-- Block `b`, zeroed, is put into `addrs[k]` of inode `i`. -/
def Image.giveAddr (im : Image) (i : Nat) (k : Fin (NDIRECT + 1)) (b : BlockNo) : Image :=
  ((im.setUsed b true).write b fun _ => 0).setInode i
    { im.inode i with addrs := update (im.inode i).addrs k b }

/-- Block `b`, zeroed, is put into entry `j` of the indirect block of inode `i`. -/
def Image.giveEntry (im : Image) (i : Nat) (j : Fin NINDIRECT) (b : BlockNo) : Image :=
  ((im.setUsed b true).write b fun _ => 0).write ((im.inode i).addrs indirect)
    (setWord (im.data ((im.inode i).addrs indirect)) j b)

namespace Image

variable (im : Image) (i : Nat) (k : Fin (NDIRECT + 1)) (j : Fin NINDIRECT) (b : BlockNo)

theorem giveAddr_inode : (im.giveAddr i k b).inode =
    update im.inode i { im.inode i with addrs := update (im.inode i).addrs k b } := rfl

theorem giveAddr_data : (im.giveAddr i k b).data = update im.data b fun _ => 0 := rfl

theorem giveEntry_inode : (im.giveEntry i j b).inode = im.inode := rfl

theorem giveEntry_data : (im.giveEntry i j b).data =
    update (update im.data b fun _ => 0) ((im.inode i).addrs indirect)
      (setWord (im.data ((im.inode i).addrs indirect)) j b) := rfl

end Image

section Give

variable {i i' : Nat} {b : BlockNo} (h : Own sb im) (ht : (im.inode i).type ≠ 0) (hb : im.used b = false)
  (hs : b.toNat < sb.size) {j : Fin NINDIRECT} {v : Block}

include h ht hb hs

theorem Own.ref_giveAddr (hk : (im.inode i).addrs k = 0) :
    (im.giveAddr i k b).ref = update im.ref (i, .addr k) b := by
  obtain ⟨hd, hf⟩ := h.fresh hb hs
  funext ⟨i', p⟩
  by_cases ei : i' = i
  · subst ei
    cases p with
    | addr k' =>
      simp only [ref, giveAddr_inode, update_self, ht, ↓reduceIte, update_apply,
        Prod.mk.injEq, true_and, Place.addr.injEq]
    | entry j =>
      rw [update_of_ne (by simp)]
      simp only [ref, giveAddr_inode, giveAddr_data, update_self, ht, false_or]
      by_cases ek : indirect = k
      · -- the new block is the indirect block, and lists nothing
        subst ek
        rw [if_neg (by rw [update_self]; exact hd.ne_zero), if_pos hk, update_self,
          update_self, word_zero]
      · have hne := hf (i', .addr indirect)
        simp only [ref, ht, ↓reduceIte] at hne
        rw [update_of_ne ek, update_of_ne hne]
  · rw [update_of_ne (by simp [ei])]
    exact ref_congr im _ (update_of_ne ei ..) (fun _ => update_of_ne (hf _) ..) p

theorem Own.ref_giveEntry (ha : (im.inode i).addrs indirect ≠ 0)
    (hj : word (im.data ((im.inode i).addrs indirect)) j = 0) :
    (im.giveEntry i j b).ref = update im.ref (i, .entry j) b := by
  obtain ⟨hd, hf⟩ := h.fresh hb hs
  have hra := ref_addr ht indirect
  funext ⟨i', p⟩
  by_cases ei : i' = i
  · subst ei
    cases p with
    | addr k => rw [update_of_ne (by simp)]; rfl
    | entry j' =>
      simp only [ref, giveEntry_inode, giveEntry_data, ht, ha, or_self, ↓reduceIte,
        update_self, update_apply, Prod.mk.injEq, true_and, Place.entry.injEq]
      by_cases ej : j' = j
      · subst ej; rw [if_pos rfl, Log.word_setWord_self _ j'.isLt]
      · rw [if_neg ej, Log.word_setWord_ne _ j.isLt fun e => ej (Fin.ext e)]
  · rw [update_of_ne (by simp [ei])]
    refine ref_congr im (im.giveEntry i j b) rfl (fun hne => ?_) p
    rw [giveEntry_data, update_of_ne, update_of_ne (hf _)]
    rw [← hra]
    intro e
    exact ei (congrArg Prod.fst (h.owns.inj hne e))

omit ht in
theorem Own.give_of {im' : Image} (hp : im.ref p = 0) (hu : im'.used = update im.used b true)
    (hr : im'.ref = update im.ref p b) : Own sb im' where
  owns := by
    rw [hr, hu]
    obtain ⟨hd, -⟩ := h.fresh hb hs
    refine h.owns.give hp hd.ne_zero (fun hU => by rw [hU.2] at hb; cases hb) fun c => ?_
    by_cases e : c = b
    · subst e; simp [hd]
    · simp [e]
  before {c} hc := by
    rw [hu, update_apply]
    split
    · rfl
    · exact h.before hc

/-- The contents of files stay as they are. -/
theorem Own.block_giveAddr (hk : (im.inode i).addrs k = 0)
    (hv : im.block i' bn = some v) : (im.giveAddr i k b).block i' bn = some v := by
  obtain ⟨-, hf⟩ := h.fresh hb hs
  simp only [block, Option.ite_none_right_eq_some, Option.some.injEq] at hv
  obtain ⟨⟨hn, hr⟩, rfl⟩ := hv
  have hp : (i', place bn) ≠ (i, .addr k) := by
    intro e
    rw [e] at hr
    simp only [ref, ht, ↓reduceIte, hk, ne_eq, not_true_eq_false] at hr
  rw [block, h.ref_giveAddr ht hb hs hk, update_of_ne hp, if_pos ⟨hn, hr⟩]
  rw [giveAddr_data, update_of_ne (hf _)]

theorem Own.block_giveEntry (ha : (im.inode i).addrs indirect ≠ 0)
    (hj : word (im.data ((im.inode i).addrs indirect)) j = 0)
    (hv : im.block i' bn = some v) : (im.giveEntry i j b).block i' bn = some v := by
  obtain ⟨-, hf⟩ := h.fresh hb hs
  simp only [block, Option.ite_none_right_eq_some, Option.some.injEq] at hv
  obtain ⟨⟨hn, hr⟩, rfl⟩ := hv
  have hra := ref_addr ht indirect
  have hp : (i', place bn) ≠ (i, .entry j) := by
    intro e
    rw [e] at hr
    simp only [ref, ht, ha, or_self, ↓reduceIte, hj, ne_eq, not_true_eq_false] at hr
  rw [block, h.ref_giveEntry ht hb hs ha hj, update_of_ne hp, if_pos ⟨hn, hr⟩]
  rw [giveEntry_data, update_of_ne, update_of_ne (hf _)]
  -- the block of a file is not an indirect block
  rw [← hra]
  intro e
  exact place_ne_indirect bn (congrArg Prod.snd (h.owns.inj hr e))

end Give

/-! ## A block less -/

/-- The block in `addrs[k]` of inode `i` is freed. -/
def Image.takeAddr (im : Image) (i : Nat) (k : Fin (NDIRECT + 1)) : Image :=
  (im.setUsed ((im.inode i).addrs k) false).setInode i
    { im.inode i with addrs := update (im.inode i).addrs k 0 }

theorem Image.takeAddr_inode (im : Image) (i : Nat) (k : Fin (NDIRECT + 1)) : (im.takeAddr i k).inode =
    update im.inode i { im.inode i with addrs := update (im.inode i).addrs k 0 } := rfl

theorem Image.ref_takeAddr (hk : k ≠ indirect) :
    (im.takeAddr i k).ref = update im.ref (i, .addr k) 0 := by
  funext ⟨i', p⟩
  by_cases ei : i' = i
  · subst ei
    cases p with
    | addr k' =>
      simp only [ref, takeAddr_inode, update_self, update_apply, Prod.mk.injEq, true_and, Place.addr.injEq]
      split <;> simp
    | entry j =>
      rw [update_of_ne (by simp)]
      simp only [ref, takeAddr_inode, update_self, update_of_ne hk.symm]
      rfl
  · rw [update_of_ne (by simp [ei])]
    exact ref_congr im (im.takeAddr i _) (update_of_ne ei ..) (fun _ => rfl) p

/-- Without its indirect block an inode has no entries. -/
theorem Image.ref_takeIndirect (he : ∀ j, R (i, .entry j) = 0) (hR : ∀ p, (∀ j, p ≠ (i, .entry j)) → R p = im.ref p) :
    (im.takeAddr i indirect).ref = update R (i, .addr indirect) 0 := by
  funext ⟨i', p⟩
  by_cases ei : i' = i
  · subst ei
    cases p with
    | addr k =>
      rw [update_apply, hR _ (by simp)]
      simp only [ref, takeAddr_inode, update_self, update_apply, Prod.mk.injEq, true_and, Place.addr.injEq]
      split <;> simp
    | entry j =>
      rw [update_of_ne (by simp), he]
      simp [ref, takeAddr_inode]
  · rw [update_of_ne (by simp [ei]), hR _ (by simp [ei])]
    exact ref_congr im (im.takeAddr i _) (update_of_ne ei ..) (fun _ => rfl) p

/-- The blocks in use, after one of them is freed. -/
theorem owns_take_used {u : BlockNo → Bool} (h : Owns R fun b => sb.InData b ∧ u b = true) (hp : R p ≠ 0) :
    Owns (update R p 0) fun b => sb.InData b ∧ update u (R p) false b = true :=
  h.take hp fun c => by
    by_cases e : c = R p
    · subst e; simp
    · simp [e]

/-! ## New contents -/

section Write

variable {i bn : Nat} (h : Own sb im) (v : Block)

include h

theorem Own.ref_write : (im.write (im.ref (i, place bn)) v).ref = im.ref := by
  funext ⟨i', p⟩
  refine ref_congr im (im.write _ v) rfl (fun hne => update_of_ne (fun e => ?_) ..) p
  exact place_ne_indirect bn (congrArg Prod.snd (h.owns.inj hne e)).symm

theorem Own.write : Own sb (im.write (im.ref (i, place bn)) v) where
  owns := by rw [h.ref_write]; exact h.owns
  before := h.before

theorem Own.block_write (hr : im.ref (i, place bn) ≠ 0) (hn : bn < MAXFILE) (i' bn' : Nat) :
    (im.write (im.ref (i, place bn)) v).block i' bn' = if i' = i ∧ bn' = bn then some v else im.block i' bn' := by
  simp only [block, h.ref_write]
  by_cases e : i' = i ∧ bn' = bn
  · obtain ⟨rfl, rfl⟩ := e
    simp only [hn, hr, ne_eq, not_false_eq_true, and_self, ↓reduceIte, Image.write, update_self]
  · rw [if_neg e]
    split
    · rename_i hc
      rw [Image.write_data, update_of_ne fun e' => e ?_]
      have hp := h.owns.inj hc.2 e'
      exact ⟨congrArg Prod.fst hp, place_inj hc.1 hn (congrArg Prod.snd hp)⟩
    · rfl

end Write

/-! ## Another inode -/

theorem Image.ref_eq_zero (h : (im.inode i).type = 0 ∨ ∀ k, (im.inode i).addrs k = 0) (p : Place) :
    im.ref (i, p) = 0 := by
  cases p with
  | addr k =>
    simp only [ref]
    split
    · rfl
    · exact h.resolve_left ‹_› k
  | entry j =>
    simp only [ref]
    rw [if_pos (h.imp_right fun h => h _)]

/-- An allocated inode that keeps its addresses and stays allocated. -/
theorem Image.ref_setInode_addrs (im : Image) (dn : Dinode) (ht : dn.type ≠ 0) (ht' : (im.inode i).type ≠ 0)
    (ha : dn.addrs = (im.inode i).addrs) (p : Place) : (im.setInode i dn).ref (i, p) = im.ref (i, p) := by
  cases p <;> simp only [setInode, ref, update_self, ht, ht', ha, ↓reduceIte, false_or]

section SetInode

variable {i : Nat} {dn : Dinode} (hr : ∀ p, (im.setInode i dn).ref (i, p) = im.ref (i, p))

include hr

theorem Image.ref_setInode : (im.setInode i dn).ref = im.ref := by
  funext ⟨i', p⟩
  by_cases e : i' = i
  · subst e; exact hr p
  · exact ref_congr im (im.setInode i dn) (update_of_ne e ..) (fun _ => rfl) p

theorem Image.byte_setInode (i' x : Nat) : (im.setInode i dn).byte i' x = im.byte i' x := by
  simp only [byte, block, ref_setInode hr]
  rfl

theorem Own.setInode (h : Own sb im) : Own sb (im.setInode i dn) where
  owns := by rw [ref_setInode hr]; exact h.owns
  before := h.before

theorem Full.setInode (h : Full im) (hd : dn.type ≠ 0 → ∀ bn, bn < MAXFILE → bn * BSIZE < dn.size.toNat →
    im.ref (i, place bn) ≠ 0) : Full (im.setInode i dn) := by
  intro i' bn ht hn hs
  rw [ref_setInode hr]
  by_cases e : i' = i
  · subst e
    simp only [Image.setInode, update_self] at ht hs
    exact hd ht bn hn hs
  · simp only [Image.setInode, update_of_ne e] at ht hs
    exact h i' bn ht hn hs

theorem Dirs.setInode (h : Dirs sb im) (hd : dn.type = T_DIR → ∀ k lo hi, 16 * k + 16 ≤ dn.size.toNat →
    im.byte i (16 * k) = some lo → im.byte i (16 * k + 1) = some hi → lo.toNat + 256 * hi.toNat < sb.ninodes) :
    Dirs sb (im.setInode i dn) := by
  intro i' k lo hi ht hk hlo hhi
  rw [byte_setInode hr] at hlo hhi
  by_cases e : i' = i
  · subst e
    simp only [Image.setInode, update_self] at ht hk
    exact hd ht k lo hi hk hlo hhi
  · simp only [Image.setInode, update_of_ne e] at ht hk
    exact h i' k lo hi ht hk hlo hhi

end SetInode

section Clear

variable {im' : Image} {i : Nat} (hi : ∀ j, j ≠ i → im'.inode j = im.inode j) (hd : im'.data = im.data)
  (hs : (im'.inode i).size = 0)

include hi hd hs

/-- One file is emptied, and the others stay. -/
theorem Full.clear (h : Full im) : Full im' := by
  intro j bn ht hn hlt
  by_cases e : j = i
  · subst e; simp [hs] at hlt
  · rw [ref_congr im im' (hi j e) fun _ => by rw [hd]]
    rw [hi j e] at ht hlt
    exact h j bn ht hn hlt

theorem Dirs.clear (h : Dirs sb im) : Dirs sb im' := by
  intro j k lo hi' ht hk hlo hhi
  by_cases e : j = i
  · subst e; simp [hs] at hk
  · have hb (x : Nat) : im'.byte j x = im.byte j x := by
      simp only [byte, block, ref_congr im im' (hi j e) fun _ => by rw [hd], hd]
    rw [hi j e] at ht hk
    rw [hb] at hlo hhi
    exact h j k lo hi' ht hk hlo hhi

end Clear

end Xv6.Fs
