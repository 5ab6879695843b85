import Xv6.Fs.Own

/-!
# The block allocator, on images

What `balloc`, `bfree` and `iupdate` do to the image of the disk. `Safe` are the
ways to stop that the development allows: all but the panic of `bfree`, which
therefore has to be told that the block is marked.
-/

namespace Xv6.Fs

open Framework List
open Log (BlockNo Block bytes)

/-- Any way to stop but `panic("freeing free block")`. -/
def Safe (e : Stop) : Prop := e ≠ .panic "freeing free block"

@[simp] theorem safe_hang : Safe .hang := by simp [Safe]

variable {msg : String} {b : BlockNo} {e : Fin NINODE}

@[simp] theorem safe_panic : Safe (.panic msg) ↔ msg ≠ "freeing free block" := by simp [Safe]

section Primitives

variable {α : Type} {E : Stop → Prop} {s : Store} {Q : Unit → Store → Prop} {data : Block}

@[simp] theorem wp_panic {Q : α → Store → Prop} : Wp E (panic msg) Q s ↔ E (.panic msg) := Iff.rfl

@[simp] theorem wp_bread {Q : Block → Store → Prop} : Wp E (bread b) Q s ↔ Q (s.disk b) s := Iff.rfl

@[simp] theorem wp_setBlock :
    Wp E (setBlock b data) Q s ↔ Q () { s with disk := Function.update s.disk b data } := Iff.rfl

@[simp] theorem wp_logWrite :
    Wp E (logWrite b data) Q s ↔
      Q () { s with disk := Function.update s.disk b data, logged := s.logged ++ [b] } := Iff.rfl

@[simp] theorem wp_inode {Q : Inode → Store → Prop} :
    Wp E (inode e) Q s ↔ Q (s.itable e) s := Iff.rfl

@[simp] theorem wp_setInode {ip : Inode} :
    Wp E (setInode e ip) Q s ↔ Q () (s.putInode e ip) := Iff.rfl

/-- `iget` takes one more reference to the entry of the inode, or an entry without
references. -/
theorem iget_cases {i : Nat} {Q : Fin NINODE → Store → Prop}
    (hold : ∀ e, 0 < (s.itable e).ref → (s.itable e).inum = i →
      Q e (s.putInode e { s.itable e with ref := (s.itable e).ref + 1 }))
    (hnew : (∀ e, 0 < (s.itable e).ref → (s.itable e).inum ≠ i) → ∀ e, (s.itable e).ref = 0 →
      Q e (s.putInode e { s.itable e with inum := i, ref := 1, valid := false }))
    (hfull : (∀ e, (s.itable e).ref ≠ 0) → E (.panic "iget: no inodes")) : Wp E (iget i) Q s := by
  simp only [iget, wp_bind, wp_get]
  split
  · rename_i e hfind
    have hp := List.find?_some hfind
    simp only [Bool.decide_and, Bool.and_eq_true, decide_eq_true_eq] at hp
    exact hold e hp.1 hp.2
  · rename_i hnone
    split
    · rename_i hno
      exact hfull fun e he => by simpa [he] using List.find?_eq_none.mp hno e (mem_finRange e)
    · rename_i e hfind
      refine hnew (fun e' he' hi => ?_) e (by simpa using List.find?_some hfind)
      simpa [he', hi] using List.find?_eq_none.mp hnone e' (mem_finRange e')

end Primitives

variable {sb : Superblock} {st : Store} {E : Stop → Prop} {bs : List Nat}

theorem toNat_ofNat_of_lt (L : Layout sb) {n : Nat} (h : n < sb.size) : (BitVec.ofNat 32 n).toNat = n := by
  have := L.size_le
  rw [BitVec.toNat_ofNat]
  exact Nat.mod_eq_of_lt (by omega)

/-- The `bi`-th bit of the block of the free map for `b` is that of block `b + bi`. -/
theorem bblock_add (sb : Superblock) {b bi : Nat} (hb : b % BPB = 0) (hbi : bi < BPB) :
    sb.bblock (b + bi) = sb.bblock b ∧ (b + bi) % BPB = bi := by
  simp only [BPB, BSIZE] at hb hbi
  refine ⟨?_, by simp only [BPB, BSIZE]; omega⟩
  rw [Superblock.bblock, Superblock.bblock, show (b + bi) / BPB = b / BPB by simp only [BPB, BSIZE]; omega]

/-- What `balloc` did: it returned a block that was free, and marked and zeroed it. -/
def Balloc (sb : Superblock) (st : Store) (b : BlockNo) (st' : Store) : Prop :=
  b.toNat < sb.size ∧ (image sb st.disk).used b = false ∧ st'.itable = st.itable ∧
    image sb st'.disk = ((image sb st.disk).setUsed b true).write b fun _ => 0

/-- `balloc` may return block `b`. -/
def Image.Free (im : Image) (sb : Superblock) (b : BlockNo) : Prop := b.toNat < sb.size ∧ im.used b = false

/-- `balloc` returns a free block, or there is none. -/
theorem ballocFrom_spec (L : Layout sb)
    (before : ∀ {b : BlockNo}, b.toNat < sb.dataStart → (image sb st.disk).used b = true)
    (hbs : ∀ b ∈ bs, b % BPB = 0) (hE : (∃ b, (image sb st.disk).Free sb b ∧ b.toNat / BPB * BPB ∈ bs) ∨
      E (.panic "balloc: out of blocks")) : Wp E (ballocFrom sb bs) (Balloc sb st) st := by
  induction bs with
  | nil => exact hE.resolve_left fun ⟨_, _, hb⟩ => not_mem_nil hb
  | cons b bs ih =>
    simp only [ballocFrom, wp_bind, wp_bread]
    split
    · rename_i hnone
      refine ih (fun c hc => hbs c (mem_cons_of_mem _ hc)) (hE.imp_left ?_)
      rintro ⟨c, ⟨hs, hu⟩, hc⟩
      refine ⟨c, ⟨hs, hu⟩, (mem_cons.mp hc).resolve_left fun hb => ?_⟩
      -- the bit of `c` is in this block of the map
      have hlt := Nat.mod_lt c.toNat (show 0 < BPB by decide)
      have hsum : b + c.toNat % BPB = c.toNat := by rw [← hb, Nat.mul_comm]; exact Nat.div_add_mod ..
      obtain ⟨hblk, -⟩ := bblock_add sb (hbs b (mem_cons_self ..)) hlt
      simp only [image, hs, ↓reduceIte, bitSet] at hu
      refine absurd ?_ (List.find?_eq_none.mp hnone (c.toNat % BPB) (mem_range'.mpr ⟨_, hlt, by omega⟩))
      have hmod8 : c.toNat % BPB % 8 = c.toNat % 8 := by simp only [BPB, BSIZE]; omega
      simp only [hsum, hs, true_and, decide_eq_true_eq]
      rw [and_mask_eq_zero, hmod8, ← hblk, hsum]
      exact hu
    · rename_i bi hfind
      have hlt : bi < BPB := by
        obtain ⟨k, hk, rfl⟩ := mem_range'.mp (List.mem_of_find?_eq_some hfind)
        omega
      have hp := List.find?_some hfind
      simp only [Bool.decide_and, Bool.and_eq_true, decide_eq_true_eq] at hp
      obtain ⟨hs, hfree⟩ := hp
      have hb0 := hbs b (mem_cons_self ..)
      obtain ⟨hblk, hmod⟩ := bblock_add sb hb0 hlt
      have hn := toNat_ofNat_of_lt L hs
      have hmod8 : (b + bi) % 8 = bi % 8 := by
        simp only [BPB, BSIZE] at hb0
        omega
      have hu : (image sb st.disk).used (BitVec.ofNat 32 (b + bi)) = false := by
        simp only [image, hn, hs, ↓reduceIte, bitSet, hblk, hmod, hmod8]
        exact and_mask_eq_zero.mp hfree
      have hd : sb.InData (BitVec.ofNat 32 (b + bi)) := by
        refine ⟨Nat.not_lt.mp fun h => ?_, by rwa [hn]⟩
        rw [before h] at hu
        cases hu
      have hw := image_writeBit L st.disk (b := BitVec.ofNat 32 (b + bi)) (by rwa [hn]) (f := (· ||| mask bi)) (v := true)
        fun x j hj => by
          rw [hn, BitVec.getLsbD_or, getLsbD_mask, hmod8]
          by_cases e : j = bi % 8 <;> simp [e]
      simp only [wp_bind, wp_logWrite, bzero, wp_pure]
      refine ⟨by rwa [hn], hu, rfl, ?_⟩
      rw [image_writeData L _ hd]
      simp only [writeBit, hn, hblk, hmod] at hw
      rw [hw]

theorem balloc_spec (L : Layout sb)
    (before : ∀ {b : BlockNo}, b.toNat < sb.dataStart → (image sb st.disk).used b = true)
    (hE : (∃ b, (image sb st.disk).Free sb b) ∨ E (.panic "balloc: out of blocks")) :
    Wp E (balloc sb) (Balloc sb st) st := by
  refine ballocFrom_spec L before (fun b hb => ?_) (hE.imp_left ?_)
  · obtain ⟨k, -, rfl⟩ := mem_range'.mp hb
    simp
  · rintro ⟨b, hb⟩
    refine ⟨b, hb, mem_range'.mpr ⟨b.toNat / BPB, ?_, by rw [Nat.zero_add, Nat.mul_comm]⟩⟩
    have hlt := hb.1
    simp only [BPB, BSIZE]
    omega

/-- `balloc` logs the block of the free map and the block it returns. -/
theorem ballocFrom_logged (L : Layout sb) (hbs : ∀ b ∈ bs, b % BPB = 0) :
    Wp (fun _ => True) (ballocFrom sb bs) (fun b st' => st'.logged = st.logged ++ [sb.bblock b.toNat, b]) st := by
  induction bs with
  | nil => trivial
  | cons b bs ih =>
    simp only [ballocFrom, wp_bind, wp_bread]
    split
    · exact ih fun c hc => hbs c (mem_cons_of_mem _ hc)
    · rename_i bi hfind
      obtain ⟨k, hk, hbi⟩ := mem_range'.mp (List.mem_of_find?_eq_some hfind)
      have hp := List.find?_some hfind
      simp only [Bool.decide_and, Bool.and_eq_true, decide_eq_true_eq] at hp
      obtain ⟨hblk, -⟩ := bblock_add sb (hbs b (mem_cons_self ..)) (show bi < BPB by omega)
      simp only [wp_bind, wp_logWrite, bzero, wp_pure]
      rw [toNat_ofNat_of_lt L hp.1, hblk, append_assoc, singleton_append]

theorem balloc_logged (L : Layout sb) :
    Wp (fun _ => True) (balloc sb) (fun b st' => st'.logged = st.logged ++ [sb.bblock b.toNat, b]) st := by
  refine ballocFrom_logged L fun b hb => ?_
  obtain ⟨k, -, rfl⟩ := mem_range'.mp hb
  simp

/-- A block that is marked can be freed. -/
theorem bfree_spec (L : Layout sb) (hb : b.toNat < sb.size)
    (hu : (image sb st.disk).used b = true) : Wp E (bfree sb b) (fun _ st' => st'.itable = st.itable ∧
      image sb st'.disk = (image sb st.disk).setUsed b false) st := by
  have hbit : (bytes (st.disk (sb.bblock b.toNat)) (b.toNat % BPB / 8)).getLsbD (b.toNat % 8) = true := by
    simpa only [image, hb, ↓reduceIte, bitSet] using hu
  have hmod8 : b.toNat % BPB % 8 = b.toNat % 8 := by simp only [BPB, BSIZE]; omega
  simp only [bfree, wp_bind, wp_bread]
  rw [if_neg (by rw [and_mask_eq_zero, hmod8, hbit]; simp)]
  simp only [wp_logWrite, true_and]
  refine image_writeBit L st.disk hb (f := (· &&& ~~~mask (b.toNat % BPB))) fun x j hj => ?_
  rw [BitVec.getLsbD_and, BitVec.getLsbD_not, getLsbD_mask, hmod8]
  by_cases e : j = b.toNat % 8 <;> simp [e, hj]

theorem iupdate_spec (L : Layout sb) (hi : (st.itable e).inum < sb.ninodes) :
    Wp E (iupdate sb e) (fun _ st' => st'.itable = st.itable ∧
      image sb st'.disk = (image sb st.disk).setInode (st.itable e).inum (st.itable e).toDinode) st := by
  simp only [iupdate, wp_bind, wp_inode, wp_bread, wp_logWrite, true_and]
  exact image_writeInode L st.disk hi _

end Xv6.Fs
