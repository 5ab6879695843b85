import Xv6.Fs.Write
import Xv6.Mkfs.Program

/-!
# Appending to a file of the image

While `iappend` runs, its inode is in memory, and the blocks below `freeblock`
are in use though the free map does not say so yet: `cur` is the file system
with both. `Filled` says that its blocks have one owner each and that the inode
has its first `m` blocks. `iappend` adds the bytes to the contents, takes as
many new blocks as that needs (`cost`), and changes no other file
(`iappendLoop_wp`). It fails only for want of blocks or at the largest size of
a file.
-/

namespace Xv6.Mkfs

open Framework Function List
open Fs
open Log (BlockNo Block word setWord bytes)

variable {s s' s'' : State} {i j m m' x fbn : Nat} {din din' din'' : Dinode} {ind ind' : Prop} {E : Exit → Prop}
  {b : BlockNo} {p : Place} {Q : Block → State → Prop} {v : Byte} {old : List Byte}

theorem layout : Layout sb := ⟨by decide, by decide, by decide, by decide⟩

/-! ## Sectors -/

theorem sector_eq (hb : b.toNat < FSSIZE) : sector b = b := by
  apply BitVec.eq_of_toNat_eq
  simp only [FSSIZE] at hb
  rw [sector, BitVec.toNat_ofNat]
  simp only [BSIZE]
  omega

theorem wp_rsect (hlen : s.len = FSSIZE) (hb : b.toNat < FSSIZE) :
    Wp E (rsect b) Q s ↔ Q (s.disk b) s := by
  simp only [rsect, wp_bind, wp_get, sector_eq hb, hlen]
  rw [if_pos hb, wp_pure]

/-- Reading after the end of the image file. -/
theorem wp_rsect_end (hlen : s.len = FSSIZE) (hE : E (.die "read")) :
    Wp E (rsect (BitVec.ofNat 32 FSSIZE)) Q s := by
  simp only [rsect, wp_bind, wp_get, hlen]
  rw [if_neg (by decide)]
  exact hE

theorem wp_wsect (hlen : s.len = FSSIZE) (hb : b.toNat < FSSIZE) {v : Block} {Q : Unit → State → Prop} :
    Wp E (wsect b v) Q s ↔ Q () { s with disk := update s.disk b v } := by
  have hmax : max s.len (b.toNat + 1) = s.len := by
    rw [hlen]
    omega
  simp [wsect, sector_eq hb, hmax]

theorem iblock_toNat (hi : i < NINODES) :
    (sb.iblock i).toNat = i / IPB + sb.inodestart ∧ (sb.iblock i).toNat < sb.bmapstart :=
  Layout.iblock_toNat layout hi

theorem iblock_lt (hi : i < NINODES) : (sb.iblock i).toNat < FSSIZE := (iblock_toNat hi).2.trans (by decide)

theorem wp_rinode (hlen : s.len = FSSIZE) (hi : i < NINODES) {Q : Dinode → State → Prop} :
    Wp E (rinode i) Q s ↔ Q (dinode sb s.disk i) s := by
  rw [rinode, wp_bind, wp_rsect hlen (iblock_lt hi)]
  rfl

theorem wp_winode (hlen : s.len = FSSIZE) (hi : i < NINODES) {dn : Dinode} {Q : Unit → State → Prop} :
    Wp E (winode i dn) Q s ↔ Q () { s with disk := writeInode sb s.disk i dn } := by
  rw [winode, wp_bind, wp_rsect hlen (iblock_lt hi), wp_wsect hlen (iblock_lt hi)]
  rfl

/-! ## The file system so far -/

theorem bytes_zero : bytes (fun _ => 0) = fun _ => 0 := by
  funext x
  simp [bytes]

/-- The file system, with the blocks below `freeblock` marked. -/
def view (s : State) : Image :=
  { image sb s.disk with used := fun b => if b.toNat < sb.size then decide (b.toNat < s.freeblock) else true }

/-- The file system with inode `i` as it is in memory. -/
def cur (s : State) (i : Nat) (din : Dinode) : Image := (view s).setInode i din

theorem cur_inode_self : (cur s i din).inode i = din := update_self ..

theorem cur_data (hb : sb.InData b) : (cur s i din).data b = s.disk b := image_data s.disk hb

theorem cur_used (hb : sb.InData b) : (cur s i din).used b = decide (b.toNat < s.freeblock) := if_pos hb.2

theorem cur_update (hb : sb.InData b) (v : Block) :
    cur { s with disk := update s.disk b v } i din = (cur s i din).write b v := by
  simp only [cur, view, image_writeData layout s.disk hb v]
  rfl

/-- The inode in memory has its first `m` blocks, and an indirect block if `ind`.
Blocks that are not in use are zero. -/
structure Filled (s : State) (i : Nat) (din : Dinode) (m : Nat) (ind : Prop) : Prop where
  len : s.len = FSSIZE
  low : nmeta ≤ s.freeblock
  high : s.freeblock ≤ FSSIZE
  type : din.type ≠ 0
  own : Own sb (cur s i din)
  zero : ∀ {b}, sb.InData b → s.freeblock ≤ b.toNat → s.disk b = fun _ => 0
  blocks : ∀ {bn}, bn < MAXFILE → ((cur s i din).ref (i, place bn) ≠ 0 ↔ bn < m)
  indirect : (cur s i din).ref (i, .addr indirect) ≠ 0 ↔ ind
  le : m ≤ MAXFILE

/-- What stays as it is while inode `i` grows. -/
structure Frame (i : Nat) (s : State) (din : Dinode) (s' : State) (din' : Dinode) : Prop where
  freeinode : s'.freeinode = s.freeinode
  super : s'.disk 1 = s.disk 1
  inode : (image sb s'.disk).inode = (image sb s.disk).inode
  addrs : ∃ a, din' = { din with addrs := a }
  ref : ∀ {j p}, j ≠ i → (cur s' i din').ref (j, p) = (cur s i din).ref (j, p)
  byte : ∀ {j x}, j ≠ i → (cur s' i din').byte j x = (cur s i din).byte j x

theorem Frame.refl : Frame i s din s din where
  freeinode := rfl
  super := rfl
  inode := rfl
  addrs := ⟨din.addrs, rfl⟩
  ref _ := rfl
  byte _ := rfl

theorem Frame.trans (h : Frame i s din s' din') (h' : Frame i s' din' s'' din'') :
    Frame i s din s'' din'' where
  freeinode := h'.freeinode.trans h.freeinode
  super := h'.super.trans h.super
  inode := h'.inode.trans h.inode
  addrs := by
    obtain ⟨a, rfl⟩ := h.addrs
    obtain ⟨a', rfl⟩ := h'.addrs
    exact ⟨a', rfl⟩
  ref hj := (h'.ref hj).trans (h.ref hj)
  byte hj := (h'.byte hj).trans (h.byte hj)

/-! ## New blocks -/

/-- The next block is put into place `p` of inode `i`. -/
structure Gave (s : State) (i : Nat) (din : Dinode) (p : Place) (s' : State) (din' : Dinode) : Prop where
  len : s'.len = s.len
  freeblock : s'.freeblock = s.freeblock + 1
  own : Own sb (cur s' i din')
  zero : ∀ {b}, sb.InData b → s'.freeblock ≤ b.toNat → s'.disk b = fun _ => 0
  ref : (cur s' i din').ref = update (cur s i din).ref (i, p) (BitVec.ofNat 32 s.freeblock)
  block : ∀ {j bn v}, (cur s i din).block j bn = some v → (cur s' i din').block j bn = some v
  fresh : (cur s' i din').data (BitVec.ofNat 32 s.freeblock) = fun _ => 0
  freeinode : s'.freeinode = s.freeinode
  super : s'.disk 1 = s.disk 1
  inode : (image sb s'.disk).inode = (image sb s.disk).inode
  addrs : ∃ a, din' = { din with addrs := a }

theorem Gave.byte (h : Gave s i din p s' din')
    (hv : (cur s i din).byte j x = some v) : (cur s' i din').byte j x = some v := by
  obtain ⟨w, hw, rfl⟩ := Option.map_eq_some_iff.mp hv
  rw [Image.byte, h.block hw, Option.map_some]

/-- The new block is all zero. -/
theorem Gave.byte_cases (h : Gave s i din p s' din')
    (hv : (cur s' i din').byte j x = some v) : (cur s i din).byte j x = some v ∨ (j = i ∧ v = 0) := by
  cases hb : (cur s i din).byte j x with
  | some w =>
    rw [h.byte hb] at hv
    exact .inl hv
  | none =>
    obtain ⟨hM, hr⟩ := Image.block_isSome.mp (Image.block_isSome_of_byte hv)
    have h0 : (cur s i din).ref (j, place (x / BSIZE)) = 0 := by
      by_contra hr
      rw [Image.byte_eq hM hr] at hb
      cases hb
    rw [Image.byte_eq hM hr] at hv
    rw [h.ref] at hr hv
    by_cases hp : (j, place (x / BSIZE)) = (i, p)
    · rw [hp, update_self, h.fresh, bytes_zero] at hv
      exact .inr ⟨(Prod.mk.inj hp).1, (Option.some.inj hv).symm⟩
    · rw [update_of_ne hp] at hr
      exact absurd h0 hr

theorem Gave.frame (h : Gave s i din p s' din') : Frame i s din s' din' where
  freeinode := h.freeinode
  super := h.super
  inode := h.inode
  addrs := h.addrs
  ref hj := by rw [h.ref, update_of_ne (by simp [hj])]
  byte hj := Option.ext fun v =>
    ⟨fun hv => (h.byte_cases hv).resolve_right fun h => hj h.1, h.byte⟩

theorem Filled.fresh (h : Filled s i din m ind) (hlt : s.freeblock < FSSIZE) :
    (BitVec.ofNat 32 s.freeblock).toNat = s.freeblock ∧ sb.InData (BitVec.ofNat 32 s.freeblock) ∧
      (cur s i din).used (BitVec.ofNat 32 s.freeblock) = false := by
  have hn : (BitVec.ofNat 32 s.freeblock).toNat = s.freeblock := by
    rw [BitVec.toNat_ofNat]
    simp only [FSSIZE] at hlt
    omega
  refine ⟨hn, ⟨?_, ?_⟩, ?_⟩
  · rw [hn]
    exact h.low
  · rw [hn]
    exact hlt
  · simp only [cur, Image.setInode_used, view, hn]
    rw [if_pos hlt]
    exact decide_eq_false (Nat.lt_irrefl _)

theorem Filled.ref_old (h : Filled s i din m ind) {p : Nat × Place} (hp : (cur s i din).ref p ≠ 0) :
    ((cur s i din).ref p).toNat < s.freeblock := by
  have := h.own.used hp
  rw [cur_used (h.own.inData hp)] at this
  exact of_decide_eq_true this

theorem used_succ (hlt : s.freeblock < FSSIZE) (hn : (BitVec.ofNat 32 s.freeblock).toNat = s.freeblock) {d} :
    (view { s with disk := d, freeblock := s.freeblock + 1 }).used =
      update (view s).used (BitVec.ofNat 32 s.freeblock) true := by
  funext c
  rw [update_apply]
  split
  · rename_i hc
    simp only [view, hc, hn]
    rw [if_pos hlt]
    exact decide_eq_true (Nat.lt_succ_self _)
  · rename_i hc
    have hne : c.toNat ≠ s.freeblock := fun h => hc (BitVec.eq_of_toNat_eq (h.trans hn.symm))
    simp only [view]
    split
    · exact decide_eq_decide.mpr (by omega)
    · rfl

theorem Filled.giveAddr (h : Filled s i din m ind) (hlt : s.freeblock < FSSIZE) {k : Fin (NDIRECT + 1)}
    (hk : din.addrs k = 0) :
    Gave s i din (.addr k) { s with freeblock := s.freeblock + 1 }
      { din with addrs := update din.addrs k (BitVec.ofNat 32 s.freeblock) } := by
  obtain ⟨hn, hin, hu⟩ := h.fresh hlt
  have ht : ((cur s i din).inode i).type ≠ 0 := by
    rw [cur_inode_self]
    exact h.type
  have hk' : ((cur s i din).inode i).addrs k = 0 := by rwa [cur_inode_self]
  have hcur : cur { s with freeblock := s.freeblock + 1 } i
      { din with addrs := update din.addrs k (BitVec.ofNat 32 s.freeblock) } =
      (cur s i din).giveAddr i k (BitVec.ofNat 32 s.freeblock) := by
    ext1
    · exact used_succ hlt hn
    · simp only [Image.giveAddr_inode, cur_inode_self]
      simp only [cur, Image.setInode_inode, update_idem]
      rfl
    · rw [Image.giveAddr_data]
      -- the new block is zero already
      refine (update_eq_self_iff.mpr ?_).symm
      rw [cur_data hin, h.zero hin hn.ge]
  have href := h.own.ref_giveAddr ht hu hin.2 hk'
  refine ⟨rfl, rfl, ?_, fun hb hle => h.zero hb (Nat.le_of_succ_le hle), ?_, fun hv => ?_, ?_, rfl, rfl, rfl, ⟨_, rfl⟩⟩
  · rw [hcur]
    exact h.own.give_of hu hin.2 (by rw [Image.ref_addr ht, hk']) rfl href
  · rw [hcur, href]
  · rw [hcur]
    exact h.own.block_giveAddr ht hu hin.2 hk' hv
  · rw [cur_data hin]
    exact h.zero hin hn.ge

theorem Filled.giveEntry (h : Filled s i din m ind) (hlt : s.freeblock < FSSIZE) (ha : din.addrs Fs.indirect ≠ 0)
    {k : Fin NINDIRECT} (hk : word (s.disk (din.addrs Fs.indirect)) k = 0) :
    Gave s i din (.entry k) { s with
      disk := update s.disk (din.addrs Fs.indirect)
        (setWord (s.disk (din.addrs Fs.indirect)) k (BitVec.ofNat 32 s.freeblock))
      freeblock := s.freeblock + 1 } din := by
  obtain ⟨hn, hin, hu⟩ := h.fresh hlt
  have ht : ((cur s i din).inode i).type ≠ 0 := by
    rw [cur_inode_self]
    exact h.type
  have ha' : ((cur s i din).inode i).addrs Fs.indirect ≠ 0 := by rwa [cur_inode_self]
  have hra : (cur s i din).ref (i, .addr Fs.indirect) = din.addrs Fs.indirect := by
    rw [Image.ref_addr ht, cur_inode_self]
  have hind : sb.InData (din.addrs Fs.indirect) := by
    rw [← hra]
    exact h.own.inData (by rwa [hra])
  have hk' : word ((cur s i din).data (((cur s i din).inode i).addrs Fs.indirect)) k = 0 := by
    rwa [cur_inode_self, cur_data hind]
  have him := image_writeData layout s.disk hind (setWord (s.disk (din.addrs Fs.indirect)) k (BitVec.ofNat 32 s.freeblock))
  have hcur : cur { s with
      disk := update s.disk (din.addrs Fs.indirect)
        (setWord (s.disk (din.addrs Fs.indirect)) k (BitVec.ofNat 32 s.freeblock))
      freeblock := s.freeblock + 1 } i din = (cur s i din).giveEntry i k (BitVec.ofNat 32 s.freeblock) := by
    ext1
    · exact used_succ hlt hn
    · rw [Image.giveEntry_inode]
      simp only [cur, Image.setInode_inode, view, him]
      rfl
    · rw [Image.giveEntry_data, cur_inode_self, cur_data hind]
      have hself : update (cur s i din).data (BitVec.ofNat 32 s.freeblock) (fun _ => 0) = (cur s i din).data :=
        update_eq_self_iff.mpr (by rw [cur_data hin, h.zero hin hn.ge])
      rw [hself]
      simp only [cur, Image.setInode_data, view, him]
      rfl
  have href := h.own.ref_giveEntry ht hu hin.2 ha' hk'
  have hlow : din.addrs Fs.indirect ≠ 1 := by
    intro h1
    have := hind.1
    rw [h1] at this
    exact absurd this (by decide)
  have hold : (din.addrs Fs.indirect).toNat < s.freeblock := by
    rw [← hra] at ha ⊢
    exact h.ref_old ha
  refine ⟨rfl, rfl, ?_, fun {b} hb hle => ?_, ?_, fun hv => ?_, ?_, rfl, ?_, ?_, ⟨_, rfl⟩⟩
  · rw [hcur]
    refine h.own.give_of hu hin.2 ?_ rfl href
    rw [Image.ref_entry ht ha', hk']
  · have hne : b ≠ din.addrs Fs.indirect := by
      rintro rfl
      exact absurd (Nat.le_of_succ_le hle) (Nat.not_le.mpr hold)
    rw [← h.zero hb (Nat.le_of_succ_le hle)]
    exact update_of_ne hne ..
  · rw [hcur, href]
  · rw [hcur]
    exact h.own.block_giveEntry ht hu hin.2 ha' hk' hv
  · have hne : BitVec.ofNat 32 s.freeblock ≠ din.addrs Fs.indirect := by
      intro h1
      rw [← h1, hn] at hold
      exact absurd hold (Nat.lt_irrefl _)
    rw [cur_data hin, ← h.zero hin hn.ge]
    exact update_of_ne hne ..
  · exact update_of_ne hlow.symm ..
  · exact (congrArg Image.inode him).trans rfl

theorem Gave.filled (hg : Gave s i din p s' din') (h : Filled s i din m ind) (hlt : s.freeblock < FSSIZE)
    (hb : ∀ {bn}, bn < MAXFILE → ((cur s' i din').ref (i, place bn) ≠ 0 ↔ bn < m'))
    (hi : (cur s' i din').ref (i, .addr Fs.indirect) ≠ 0 ↔ ind') (hle : m' ≤ MAXFILE) : Filled s' i din' m' ind' where
  len := hg.len.trans h.len
  low := by
    rw [hg.freeblock]
    exact Nat.le_succ_of_le h.low
  high := by
    rw [hg.freeblock]
    exact hlt
  type := by
    obtain ⟨a, rfl⟩ := hg.addrs
    exact h.type
  own := hg.own
  zero := hg.zero
  blocks := hb
  indirect := hi
  le := hle

/-- The next block of the file. -/
theorem Gave.filled_place (h : Filled s i din m ind) (hm : m < MAXFILE) (hg : Gave s i din (place m) s' din')
    (hlt : s.freeblock < FSSIZE) : Filled s' i din' (m + 1) ind := by
  refine hg.filled h hlt (fun {bn} hn => ?_) ?_ hm
  · rw [hg.ref]
    by_cases e : bn = m
    · rw [e, update_self]
      exact iff_of_true (h.fresh hlt).2.1.ne_zero (Nat.lt_succ_self m)
    · rw [update_of_ne fun hp => e (place_inj hn hm (Prod.mk.inj hp).2), h.blocks hn]
      omega
  · rw [hg.ref, update_of_ne fun hp => place_ne_indirect m (Prod.mk.inj hp).2.symm, h.indirect]

theorem Gave.filled_indirect (h : Filled s i din m ind) (hg : Gave s i din (.addr Fs.indirect) s' din')
    (hlt : s.freeblock < FSSIZE) : Filled s' i din' m True := by
  refine hg.filled h hlt (fun {bn} hn => ?_) ?_ h.le
  · rw [hg.ref, update_of_ne fun hp => place_ne_indirect bn (Prod.mk.inj hp).2, h.blocks hn]
  · rw [hg.ref, update_self]
    exact iff_of_true (h.fresh hlt).2.1.ne_zero trivial

/-! ## The block of an offset -/

/-- The blocks of a file of `m` blocks, its indirect block included. -/
def cost (m : Nat) : Nat := m + if NDIRECT < m then 1 else 0

/-- Inode `i` has block `fbn`, which is `x` and holds `buf`. -/
structure HasBlock (i : Nat) (s : State) (din : Dinode) (m fbn : Nat) (s' : State) (din' : Dinode) (x : BlockNo)
    (buf : Block) : Prop where
  filled : Filled s' i din' (max m (fbn + 1)) (NDIRECT < max m (fbn + 1))
  frame : Frame i s din s' din'
  byte : ∀ {y v}, (cur s i din).byte i y = some v → (cur s' i din').byte i y = some v
  rest : ∀ {y v}, (cur s' i din').byte i y = some v → (cur s i din).byte i y = some v ∨ v = 0
  ref : (cur s' i din').ref (i, place fbn) = x
  data : buf = s'.disk x

theorem Filled.cur_type (h : Filled s i din m ind) : ((cur s i din).inode i).type ≠ 0 := by
  rw [cur_inode_self]
  exact h.type

theorem Filled.ref_addr (h : Filled s i din m ind) (k : Fin (NDIRECT + 1)) :
    (cur s i din).ref (i, .addr k) = din.addrs k := by
  rw [Image.ref_addr h.cur_type, cur_inode_self]

theorem Filled.congr (h : Filled s i din m ind) (hi : ind ↔ ind') : Filled s i din m ind' :=
  propext hi ▸ h

/-- The next block is put into place `fbn`. -/
theorem Gave.hasBlock (h : Filled s i din fbn ind) (hM : fbn < MAXFILE) (hlt : s.freeblock < FSSIZE)
    (hg : Gave s i din (place fbn) s' din') (hi : ind ↔ NDIRECT < fbn + 1) :
    HasBlock i s din fbn fbn s' din' (BitVec.ofNat 32 s.freeblock) (s'.disk (BitVec.ofNat 32 s.freeblock)) where
  filled := by
    rw [Nat.max_eq_right (Nat.le_succ fbn)]
    exact (hg.filled_place h hM hlt).congr hi
  frame := hg.frame
  byte := hg.byte
  rest hv := (hg.byte_cases hv).imp_right (·.2)
  ref := by rw [hg.ref, update_self]
  data := rfl

/-- The block is there. -/
theorem Filled.hasBlock (h : Filled s i din m ind) (hlt : fbn < m) (hi : ind ↔ NDIRECT < m) :
    HasBlock i s din m fbn s din ((cur s i din).ref (i, place fbn)) (s.disk ((cur s i din).ref (i, place fbn))) where
  filled := by
    rw [Nat.max_eq_left hlt]
    exact h.congr hi
  frame := .refl
  byte := id
  rest := .inl
  ref := rfl
  data := rfl

theorem Filled.ref_lt (h : Filled s i din m ind) (hp : (cur s i din).ref (i, p) ≠ 0) :
    ((cur s i din).ref (i, p)).toNat < FSSIZE := (h.own.inData hp).2

theorem entryBlock_wp (h : Filled s i din m True) (hge : NDIRECT ≤ fbn) (hle : fbn ≤ m)
    (hM : fbn < MAXFILE) (hE : s.freeblock + max m (fbn + 1) ≤ FSSIZE + m ∨ ∀ r, E r) :
    Wp E (entryBlock din (fbn - NDIRECT)) (fun r s' => HasBlock i s din m fbn s' din r.1 r.2 ∧
      s'.freeblock + m = s.freeblock + max m (fbn + 1)) s := by
  have hj : fbn - NDIRECT < NINDIRECT := by simp only [MAXFILE] at hM; omega
  have hplace : place fbn = .entry (Fin.ofNat _ (fbn - NDIRECT)) := if_neg (Nat.not_lt.mpr hge)
  have hval : (Fin.ofNat NINDIRECT (fbn - NDIRECT)).val = fbn - NDIRECT := by
    rw [Fin.val_ofNat, Nat.mod_eq_of_lt hj]
  have ha : din.addrs Fs.indirect ≠ 0 := by
    rw [← h.ref_addr]
    exact h.indirect.mpr trivial
  have hin : sb.InData (din.addrs Fs.indirect) := by
    rw [← h.ref_addr] at ha ⊢
    exact h.own.inData ha
  have hword : word (s.disk (din.addrs Fs.indirect)) (fbn - NDIRECT) = (cur s i din).ref (i, place fbn) := by
    rw [hplace, Image.ref_entry h.cur_type (by rwa [cur_inode_self]), cur_inode_self, cur_data hin, hval]
  rw [entryBlock, wp_bind, wp_rsect h.len hin.2]
  refine wp_ite (fun h0 => ?_) fun h0 => ?_
  · have hm : m = fbn := by
      rw [hword] at h0
      have := mt (h.blocks hM).mpr (not_not.mpr h0)
      omega
    subst hm
    rw [Nat.max_eq_right (Nat.le_succ m)] at hE ⊢
    simp only [newblock, wp_bind, wp_get, wp_set, wp_pure]
    refine (wp_wsect (by exact h.len) hin.2).mpr ?_
    by_cases hlt : s.freeblock < FSSIZE
    · have hg := h.giveEntry (k := Fin.ofNat _ (m - NDIRECT)) hlt ha (by rwa [hval])
      rw [hval, ← hplace] at hg
      refine (wp_rsect (by exact h.len) (by rw [(h.fresh hlt).1]; exact hlt)).mpr ⟨hg.hasBlock h hM hlt ?_, ?_⟩
      · exact iff_of_true trivial (Nat.lt_succ_of_le hge)
      · rw [hg.freeblock]
        omega
    · have hend : s.freeblock = FSSIZE := Nat.le_antisymm h.high (Nat.not_lt.mp hlt)
      rw [hend]
      exact wp_rsect_end (by exact h.len) (hE.resolve_left (by omega) _)
  · rw [hword] at h0 ⊢
    have hlt := (h.blocks hM).mp h0
    rw [wp_bind, wp_rsect h.len (h.ref_lt h0), wp_pure]
    refine ⟨h.hasBlock hlt ?_, ?_⟩
    · exact iff_of_true trivial (Nat.lt_of_le_of_lt hge hlt)
    · rw [Nat.max_eq_left hlt]

theorem Gave.trans {x : BlockNo} {buf : Block}
    (hg : Gave s i din p s' din') (h : HasBlock i s' din' m fbn s'' din'' x buf) :
    HasBlock i s din m fbn s'' din'' x buf where
  filled := h.filled
  frame := hg.frame.trans h.frame
  byte hv := h.byte (hg.byte hv)
  rest hv := by
    obtain hv | hv := h.rest hv
    · exact (hg.byte_cases hv).imp_right (·.2)
    · exact .inr hv
  ref := h.ref
  data := h.data

theorem fileBlock_wp (h : Filled s i din m (NDIRECT < m)) (hle : fbn ≤ m) (hM : fbn < MAXFILE)
    (hE : s.freeblock + cost (max m (fbn + 1)) ≤ FSSIZE + cost m ∨ ∀ r, E r) :
    Wp E (fileBlock din fbn) (fun r s' => HasBlock i s din m fbn s' r.1 r.2.1 r.2.2 ∧
      s'.freeblock + cost m = s.freeblock + cost (max m (fbn + 1))) s := by
  rw [fileBlock]
  refine wp_ite (fun hd => ?_) fun hd => ?_
  · have hplace : place fbn = .addr (Fin.ofNat _ fbn) := if_pos hd
    have hr : (cur s i din).ref (i, place fbn) = din.addrs (Fin.ofNat _ fbn) := by rw [hplace, h.ref_addr]
    have hb := h.blocks hM
    rw [hr] at hb
    rw [addrBlock, wp_bind]
    refine wp_ite (fun h0 => ?_) fun h0 => ?_
    · -- a new direct block
      obtain rfl : m = fbn := by
        have := mt hb.mpr (not_not.mpr h0)
        omega
      have hcost : cost (max m (m + 1)) = cost m + 1 := by
        rw [Nat.max_eq_right (Nat.le_succ m), cost, cost, if_neg (by omega), if_neg (by omega)]
      rw [hcost] at hE ⊢
      simp only [newblock, wp_bind, wp_get, wp_set, wp_pure, update_self]
      by_cases hlt : s.freeblock < FSSIZE
      · have hg := h.giveAddr hlt h0
        rw [← hplace] at hg
        refine (wp_rsect (by exact h.len) (by rw [(h.fresh hlt).1]; exact hlt)).mpr ⟨hg.hasBlock h hM hlt ?_, ?_⟩
        · exact iff_of_false (by omega) (by omega)
        · rw [hg.freeblock]
          omega
      · rw [Nat.le_antisymm h.high (Nat.not_lt.mp hlt)]
        exact wp_rsect_end (by exact h.len) (hE.resolve_left (by omega) _)
    · have hlt := hb.mp h0
      rw [wp_pure, wp_bind, wp_rsect h.len (by rw [← hr]; exact h.ref_lt (by rwa [hr])), wp_pure, ← hr]
      refine ⟨h.hasBlock hlt Iff.rfl, ?_⟩
      rw [Nat.max_eq_left hlt]
  · rw [addrBlock, wp_bind]
    refine wp_ite (fun h0 => ?_) fun h0 => ?_
    · -- a new indirect block, for the first entry
      obtain ⟨rfl, rfl⟩ : m = NDIRECT ∧ fbn = NDIRECT := by
        rw [← h.ref_addr] at h0
        have := mt h.indirect.mpr (not_not.mpr h0)
        omega
      have hcost : cost (max NDIRECT (NDIRECT + 1)) = NDIRECT + 2 := rfl
      have hcost' : cost NDIRECT = NDIRECT := rfl
      rw [hcost, hcost'] at hE ⊢
      simp only [newblock, wp_bind, wp_get, wp_set, wp_pure]
      by_cases hlt : s.freeblock < FSSIZE
      · have hg := h.giveAddr hlt h0
        refine (entryBlock_wp (hg.filled_indirect h hlt) le_rfl le_rfl hM ?_).mono fun r s' h' => ?_
        · rw [Nat.max_eq_right (Nat.le_succ _)]
          exact hE.imp_left fun h => by omega
        · obtain ⟨hB, hf⟩ := h'
          rw [Nat.max_eq_right (Nat.le_succ _)] at hf
          exact ⟨hg.trans hB, by omega⟩
      · have hx : ({ din with addrs := update din.addrs Fs.indirect (BitVec.ofNat 32 FSSIZE) } : Dinode).addrs
            Fs.indirect = BitVec.ofNat 32 FSSIZE := by simp
        rw [Nat.le_antisymm h.high (Nat.not_lt.mp hlt), entryBlock, wp_bind, hx]
        exact wp_rsect_end (by exact h.len) (hE.resolve_left (by omega) _)
    · have hm : NDIRECT < m := by
        rw [← h.ref_addr] at h0
        exact h.indirect.mp h0
      have hcost : cost (max m (fbn + 1)) = max m (fbn + 1) + 1 := by rw [cost, if_pos (by omega)]
      have hcost' : cost m = m + 1 := by rw [cost, if_pos hm]
      rw [hcost, hcost'] at hE ⊢
      rw [wp_pure, wp_bind]
      refine (entryBlock_wp (h.congr (iff_of_true hm trivial)) (Nat.not_lt.mp hd) hle hM ?_).mono fun r s' h' => ?_
      · exact hE.imp_left fun h => by omega
      · exact ⟨h'.1, by omega⟩

/-! ## The loop -/

/-- The number of blocks of a file of `n` bytes. -/
def nblk (n : Nat) : Nat := (n + (BSIZE - 1)) / BSIZE

theorem cost_mono (h : m ≤ m') : cost m ≤ cost m' := by
  simp only [cost]
  split <;> split <;> omega

/-- New contents of a block of the file. -/
theorem Filled.put (h : Filled s i din m ind) {bn : Nat} (hr : (cur s i din).ref (i, place bn) ≠ 0) (v : Block) :
    Filled { s with disk := update s.disk ((cur s i din).ref (i, place bn)) v } i din m ind ∧
    cur { s with disk := update s.disk ((cur s i din).ref (i, place bn)) v } i din =
      (cur s i din).write ((cur s i din).ref (i, place bn)) v := by
  have hin := h.own.inData hr
  have hcur : cur { s with disk := update s.disk ((cur s i din).ref (i, place bn)) v } i din =
      (cur s i din).write ((cur s i din).ref (i, place bn)) v := cur_update hin v
  have hold := h.ref_old hr
  have href : (cur { s with disk := update s.disk ((cur s i din).ref (i, place bn)) v } i din).ref =
      (cur s i din).ref := by rw [hcur, h.own.ref_write]
  refine ⟨⟨h.len, h.low, h.high, h.type, ?_, fun {b} hb hle => ?_, fun hn => ?_, ?_, h.le⟩, hcur⟩
  · rw [hcur]
    exact h.own.write v
  · have hne : b ≠ (cur s i din).ref (i, place bn) := by
      rintro rfl
      exact absurd hle (Nat.not_le.mpr hold)
    rw [← h.zero hb hle]
    exact update_of_ne hne ..
  · rw [href]
    exact h.blocks hn
  · rw [href]
    exact h.indirect

/-- Bytes are copied to the end of the file. -/
theorem Filled.copy (h : Filled s i din m ind) (vs : List Byte) (hn : old.length / BSIZE < MAXFILE)
    (hr : (cur s i din).ref (i, place (old.length / BSIZE)) ≠ 0) (hfit : old.length % BSIZE + vs.length ≤ BSIZE)
    (hc : ∀ x v, old[x]? = some v → (cur s i din).byte i x = some v)
    (hz : ∀ x v, old.length ≤ x → (cur s i din).byte i x = some v → v = 0)
    (hd : s' = { s with
      disk := update s.disk ((cur s i din).ref (i, place (old.length / BSIZE)))
        (putBytes (s.disk ((cur s i din).ref (i, place (old.length / BSIZE)))) (old.length % BSIZE) vs) }) :
    Filled s' i din m ind ∧ Frame i s din s' din ∧
      (∀ x v, (old ++ vs)[x]? = some v → (cur s' i din).byte i x = some v) ∧
      ∀ x v, (old ++ vs).length ≤ x → (cur s' i din).byte i x = some v → v = 0 := by
  have hin := h.own.inData hr
  obtain ⟨hF, hcur⟩ := h.put hr (putBytes (s.disk ((cur s i din).ref (i, place (old.length / BSIZE))))
    (old.length % BSIZE) vs)
  have hbyte := h.own.byte_put vs hn hr hfit
  rw [cur_data hin, ← hcur] at hbyte
  have him := image_writeData layout s.disk hin (putBytes (s.disk ((cur s i din).ref (i, place (old.length / BSIZE))))
    (old.length % BSIZE) vs)
  have hne : (cur s i din).ref (i, place (old.length / BSIZE)) ≠ 1 := by
    intro h1
    have := hin.1
    rw [h1] at this
    exact absurd this (by decide)
  subst hd
  refine ⟨hF, ⟨rfl, ?_, ?_, ⟨_, rfl⟩, fun {j p} _ => ?_, fun hj => ?_⟩, fun x v hv => ?_, fun x v hx hv => ?_⟩
  · exact update_of_ne hne.symm ..
  · exact (congrArg Image.inode him).trans rfl
  · rw [hcur, h.own.ref_write]
  · rw [hbyte, if_neg fun h => hj h.1]
  · rw [hbyte]
    rw [List.getElem?_append] at hv
    split at hv
    · rw [if_neg (by omega)]
      exact hc x v hv
    · have hx : x - old.length < vs.length := (List.getElem?_eq_some_iff.mp hv).1
      rw [if_pos ⟨rfl, by omega, by omega⟩, hv]
  · rw [length_append] at hx
    rw [hbyte, if_neg (by omega)] at hv
    exact hz x v (by omega) hv

theorem nblk_append {n k : Nat} (hk : 0 < k) (hle : n % BSIZE + k ≤ BSIZE) :
    max (nblk n) (n / BSIZE + 1) = nblk (n + k) := by
  simp only [nblk, BSIZE] at *
  omega

theorem iappendLoop_wp {fuel : Nat} {p : List Byte} (hfuel : p.length ≤ fuel)
    (h : Filled s i din (nblk old.length) (NDIRECT < nblk old.length))
    (hc : ∀ x v, old[x]? = some v → (cur s i din).byte i x = some v)
    (hz : ∀ x v, old.length ≤ x → (cur s i din).byte i x = some v → v = 0)
    (hE : old.length + p.length ≤ MAXFILE * BSIZE ∧
      s.freeblock + cost (nblk (old.length + p.length)) ≤ FSSIZE + cost (nblk old.length) ∨ ∀ r, E r) :
    Wp E (iappendLoop fuel din old.length p) (fun r s' => r.2 = old.length + p.length ∧
      Filled s' i r.1 (nblk (old.length + p.length)) (NDIRECT < nblk (old.length + p.length)) ∧ Frame i s din s' r.1 ∧
      (∀ x v, (old ++ p)[x]? = some v → (cur s' i r.1).byte i x = some v) ∧
      (∀ x v, (old ++ p).length ≤ x → (cur s' i r.1).byte i x = some v → v = 0) ∧
      s'.freeblock + cost (nblk old.length) = s.freeblock + cost (nblk (old.length + p.length))) s := by
  induction fuel generalizing s din old p with
  | zero =>
    obtain rfl := length_eq_zero_iff.mp (Nat.le_zero.mp hfuel)
    exact ⟨rfl, h, .refl, by rwa [append_nil], by rwa [append_nil], rfl⟩
  | succ fuel ih =>
    rw [iappendLoop]
    refine wp_ite (fun hp => ?_) fun hp => ?_
    · subst hp
      exact ⟨rfl, h, .refl, by rwa [append_nil], by rwa [append_nil], rfl⟩
    have hpos : 0 < p.length := length_pos_iff.mpr hp
    rw [wp_bind, assert]
    refine wp_ite (fun hM => ?_) fun hM => ?_
    · have hn1 : (old.length / BSIZE + 1) * BSIZE - old.length = BSIZE - old.length % BSIZE := by simp only [BSIZE]; omega
      have hoff : old.length - old.length / BSIZE * BSIZE = old.length % BSIZE := by simp only [BSIZE]; omega
      rw [wp_pure, hn1, hoff, wp_bind]
      generalize hk : min p.length (BSIZE - old.length % BSIZE) = k
      have hk0 : 0 < k := by simp only [BSIZE] at hk; omega
      have hfit : old.length % BSIZE + k ≤ BSIZE := by simp only [BSIZE] at hk ⊢; omega
      have hkp : k ≤ p.length := by omega
      have hnb := nblk_append hk0 hfit
      have hlen : (p.take k).length = k := by rw [length_take]; omega
      have hlen' : (old ++ p.take k).length = old.length + k := by rw [length_append, hlen]
      have htotal : old.length + k + (p.drop k).length = old.length + p.length := by rw [length_drop]; omega
      have hcost : cost (nblk (old.length + k)) ≤ cost (nblk (old.length + p.length)) := by
        refine cost_mono (Nat.div_le_div_right ?_)
        omega
      refine (fileBlock_wp h ?_ hM ?_).mono fun r s1 h1 => ?_
      · simp only [nblk, BSIZE]
        omega
      · rw [hnb]
        exact hE.imp_left fun h => by omega
      · obtain ⟨hB, hf⟩ := h1
        obtain ⟨din1, x, buf⟩ := r
        dsimp only at hB ⊢
        obtain rfl := hB.ref
        obtain rfl := hB.data
        have hfil := hB.filled
        rw [hnb] at hfil hf
        have hr := (hfil.blocks hM).mpr (by rw [← hnb]; omega)
        rw [wp_bind]
        refine (wp_wsect hfil.len (hfil.ref_lt hr)).mpr ?_
        obtain ⟨hF, hFr, hC, hZ⟩ := hfil.copy (p.take k) hM hr (by rw [hlen]; exact hfit)
          (fun x v hv => hB.byte (hc x v hv)) (fun x v hx hv => (hB.rest hv).elim (hz x v hx) id) rfl
        rw [← hlen'] at hF hf ⊢
        refine (ih (by rw [length_drop]; omega) hF hC hZ ?_).mono fun r s2 h2 => ?_
        · rw [hlen', htotal]
          exact hE.imp_left fun hE => ⟨hE.1, by rw [hlen'] at hf; dsimp only; omega⟩
        · obtain ⟨hr2, hF2, hFr2, hC2, hZ2, hf2⟩ := h2
          rw [hlen', htotal] at hr2 hF2 hf2
          rw [hlen'] at hf
          rw [append_assoc, take_append_drop] at hC2 hZ2
          exact ⟨hr2, hF2, (hB.frame.trans hFr).trans hFr2, hC2, hZ2, by dsimp only at hf2; omega⟩
    · refine hE.resolve_left (fun hfit => hM ?_) _
      exact Nat.div_lt_of_lt_mul (by rw [Nat.mul_comm]; omega)

end Xv6.Mkfs
