import Xv6.Fs.Files
import Xv6.Fs.Lookup

/-!
# Every data block has one owner

`Owned sb d` says of a disk that the block addresses of its allocated inodes
are data blocks that the free map marks, each in one place, and that the other
data blocks are free. It holds between calls of every run from a consistent
disk (`blocks_owned`): the free map and the inodes agree, whatever calls fail
on the way.
-/

namespace Xv6.Fs

open Framework
open Log (BlockNo Block word)

/-- The block address in a place of inode `i` on a disk. -/
def addrOn (sb : Superblock) (d : BlockNo → Block) (i : Nat) : Place → BlockNo
  | .addr k => (dinode sb d i).addrs k
  | .entry j => if (dinode sb d i).addrs indirect = 0 then 0 else word (d ((dinode sb d i).addrs indirect)) j

/-- Block `b` appears in place `p` of inode `i`, which is allocated. -/
def AppearsAt (sb : Superblock) (d : BlockNo → Block) (b : BlockNo) (i : Nat) (p : Place) : Prop :=
  i < sb.ninodes ∧ (dinode sb d i).type ≠ 0 ∧ b ≠ 0 ∧ addrOn sb d i p = b

instance (sb : Superblock) (d : BlockNo → Block) (b : BlockNo) (i : Nat) (p : Place) :
    Decidable (AppearsAt sb d b i p) :=
  inferInstanceAs (Decidable (_ ∧ _ ∧ _ ∧ _))

/-- A block that appears is a data block, marked in the free map, and appears
once; a data block that does not appear is free. -/
structure Owned (sb : Superblock) (d : BlockNo → Block) : Prop where
  data : ∀ {b i p}, AppearsAt sb d b i p → sb.InData b
  marked : ∀ {b i p}, AppearsAt sb d b i p → bitSet sb d b.toNat = true
  once : ∀ {b i i' p p'}, AppearsAt sb d b i p → AppearsAt sb d b i' p' → i = i' ∧ p = p'
  free : ∀ {b}, sb.InData b → (∀ i p, ¬ AppearsAt sb d b i p) → bitSet sb d b.toNat = false

/-- A disk on which the file system can start: blocks have their owners, the
blocks before the data area are marked, files have no holes, and directories
name inodes of the disk. -/
structure Consistent (sb : Superblock) (d : BlockNo → Block) : Prop where
  layout : Layout sb
  owned : Owned sb d
  before : ∀ b < sb.dataStart, bitSet sb d b = true
  full : Full (image sb d)
  dirs : Dirs sb (image sb d)

variable {sb : Superblock} {d : BlockNo → Block} {b : BlockNo} {i : Nat} {p : Place}

/-! ## The disk and its image -/

theorem image_inode (hi : i < sb.ninodes) : (image sb d).inode i = dinode sb d i := if_pos hi

theorem image_used (hb : b.toNat < sb.size) : (image sb d).used b = bitSet sb d b.toNat := if_pos hb

theorem inode_lt (ht : ((image sb d).inode i).type ≠ 0) : i < sb.ninodes := by
  by_contra hi
  simp only [image, if_neg hi] at ht
  exact ht rfl

/-- The addresses of the image are those of the disk, if indirect blocks are
data blocks. -/
theorem ref_eq_iff (hin : ∀ i < sb.ninodes, (dinode sb d i).type ≠ 0 → (dinode sb d i).addrs indirect ≠ 0 →
    sb.InData ((dinode sb d i).addrs indirect)) (hb : b ≠ 0) :
    (image sb d).ref (i, p) = b ↔ AppearsAt sb d b i p := by
  by_cases ht : ((image sb d).inode i).type = 0
  · have hz : (image sb d).ref (i, p) = 0 := by cases p <;> simp only [Image.ref, ht, true_or, ↓reduceIte]
    rw [hz]
    refine iff_of_false hb.symm fun h => h.2.1 ?_
    rw [← image_inode h.1, ht]
  · have hi := inode_lt ht
    rw [image_inode hi] at ht
    have hr : (image sb d).ref (i, p) = addrOn sb d i p := by
      cases p with
      | addr k => simp only [Image.ref, image_inode hi, ht, ↓reduceIte, addrOn]
      | entry j =>
        simp only [Image.ref, image_inode hi, ht, false_or, addrOn]
        split
        · rfl
        · rename_i ha
          rw [image_data d (hin i hi ht ha)]
    rw [hr]
    exact ⟨fun h => ⟨hi, ht, hb, h⟩, fun h => h.2.2.2⟩

theorem Consistent.own (h : Consistent sb d) : Own sb (image sb d) := by
  have href {b i p} (hb : b ≠ 0) : (image sb d).ref (i, p) = b ↔ AppearsAt sb d b i p :=
    ref_eq_iff (fun i hi ht ha => h.owned.data (p := .addr indirect) ⟨hi, ht, ha, rfl⟩) hb
  refine ⟨⟨fun {q} hq => ?_, fun {q q'} hq heq => ?_, fun {b} hb => ?_, fun hz => hz.1.ne_zero rfl⟩, fun {b} hb => ?_⟩
  · have ha := (href hq).mp rfl
    have hin := h.owned.data ha
    exact ⟨hin, (image_used hin.2).trans (h.owned.marked ha)⟩
  · obtain ⟨hi, hp⟩ := h.owned.once ((href hq).mp rfl) ((href hq).mp heq.symm)
    exact Prod.ext hi hp
  · rw [image_used hb.1.2] at hb
    by_contra hno
    have := h.owned.free hb.1 fun i p ha => hno ⟨(i, p), (href ha.2.2.1).mpr ha⟩
    rw [this] at hb
    exact Bool.noConfusion hb.2
  · rw [image_used (hb.trans_le h.layout.dataStart_le)]
    exact h.before _ hb

theorem Own.appears_iff (h : Own sb (image sb d)) (hb : b ≠ 0) :
    (image sb d).ref (i, p) = b ↔ AppearsAt sb d b i p := by
  refine ref_eq_iff (fun i hi ht ha => ?_) hb
  rw [← image_inode hi] at ht ha ⊢
  have hr := Image.ref_addr ht indirect
  rw [← hr] at ha ⊢
  exact h.inData ha

theorem Own.appears_used (h : Own sb (image sb d)) (ha : AppearsAt sb d b i p) :
    sb.InData b ∧ (image sb d).used b = true := by
  have hr := (h.appears_iff ha.2.2.1).mpr ha
  have hu := h.owns.used (i := (i, p)) (by rw [hr]; exact ha.2.2.1)
  rwa [hr] at hu

theorem Own.owned (h : Own sb (image sb d)) : Owned sb d where
  data ha := (h.appears_used ha).1
  marked ha := by
    obtain ⟨hin, hu⟩ := h.appears_used ha
    rwa [image_used hin.2] at hu
  once {b i i' p p'} ha ha' := by
    have hr := (h.appears_iff ha.2.2.1).mpr ha
    have hr' := (h.appears_iff ha.2.2.1).mpr ha'
    exact Prod.ext_iff.mp (h.owns.inj (by rw [hr]; exact ha.2.2.1) (hr.trans hr'.symm))
  free {b} hb hno := by
    rw [← image_used hb.2]
    by_contra hu
    obtain ⟨⟨i, p⟩, hr⟩ := h.owns.owned (b := b) ⟨hb, by simpa using hu⟩
    exact hno i p ((h.appears_iff hb.ne_zero).mp hr)

/-! ## Runs -/

theorem Store.init_inv (h : Consistent sb d) : Inv sb 0 (Store.init d) where
  mem := {
    ref := fun _ => rfl
    know := fun hc => absurd hc (Multiset.notMem_zero _)
    uniq := fun he => absurd he (Nat.lt_irrefl 0)
    range := fun he => absurd he (Nat.lt_irrefl 0)
    mirror := fun he => absurd he (Nat.lt_irrefl 0) }
  own := h.own
  full := h.full
  dirs := h.dirs

theorem run_held (h : Consistent sb d) {as : List (Fin NPROC × Call)} {s : State}
    (hr : Run (step sb) (boot d) as s) : ∃ ty, Held (fun K _ => Inv sb K) ty 0 0 s :=
  h.layout.rules.run_spec (Store.init_inv h) hr

/-- Between the calls of a run from a consistent disk every data block has one
owner or is free, on the disk and in the inodes in memory. No call frees a free
block, and the next block `balloc` hands out is one that no inode has. -/
theorem blocks_owned (h : Consistent sb d) {as : List (Fin NPROC × Call)} {s : State}
    (hr : Run (step sb) (boot d) as s) :
    Owned sb s.store.disk ∧
    (∀ e, 0 < (s.store.itable e).ref → (s.store.itable e).valid = true →
      dinode sb s.store.disk (s.store.itable e).inum = (s.store.itable e).toDinode) ∧
    (∀ p c, syscall sb p c s ≠ .error (.panic "freeing free block")) ∧
    ∀ b st, balloc sb s.store = .ok (b, st) →
      sb.InData b ∧ ∀ i p, ¬ AppearsAt sb s.store.disk b i p := by
  obtain ⟨ty, hs⟩ := run_held h hr
  have hown := hs.inv.own
  refine ⟨hown.owned, fun e he hv => ?_, fun p c herr => ?_, fun b st hb => ?_⟩
  · rw [← image_inode (hs.inv.mem.range he)]
    exact (hs.inv.mem.mirror he hv).1
  · exact (h.layout.rules.syscall_spec hs c).error herr rfl
  · have hbal := (balloc_spec (E := Safe) h.layout hown.before (.inr (by simp))).ok hb
    have hin : sb.InData b := by
      refine ⟨Nat.le_of_not_lt fun hlt => ?_, hbal.1⟩
      have := hown.before hlt
      rw [hbal.2.1] at this
      cases this
    refine ⟨hin, fun i p ha => ?_⟩
    have hu := hown.owned.marked ha
    rw [← image_used hbal.1, hbal.2.1] at hu
    cases hu

/-! ## A small disk

A file system of ten blocks with an empty root directory, and a write to a new
file from a buffer that is partly unmapped: the block stays with the file,
though its size is 0. -/

def smallSb : Superblock where
  size := 10
  ninodes := 8
  inodestart := 2
  bmapstart := 3

def smallDisk : BlockNo → Block := fun b j =>
  if b = 2 then
    -- inode 1: a directory with one link and 32 bytes in block 4
    if j = 64 ∨ j = 70 then 1 else if j = 72 then 32 else if j = 76 then 4 else 0
  else if b = 3 then if j = 0 then 0x1f else 0
  else if b = 4 then if j = 0 ∨ j = 16 then 1 else if j = 2 ∨ j = 18 ∨ j = 19 then 0x2e else 0
  else 0

theorem smallDisk_inode (hi : i < smallSb.ninodes) (ht : (dinode smallSb smallDisk i).type ≠ 0) : i = 1 := by
  have h : ∀ i : Fin 8, (dinode smallSb smallDisk i).type ≠ 0 → i = 1 := by decide +kernel
  exact congrArg Fin.val (h ⟨i, hi⟩ ht)

theorem smallDisk_appears : AppearsAt smallSb smallDisk b i p ↔ b = 4 ∧ i = 1 ∧ p = .addr 0 := by
  constructor
  · rintro ⟨hi, ht, hb, rfl⟩
    obtain rfl := smallDisk_inode hi ht
    cases p with
    | addr k =>
      have h : ∀ k, addrOn smallSb smallDisk 1 (.addr k) ≠ 0 → k = 0 := by decide +kernel
      obtain rfl := h k hb
      exact ⟨by decide +kernel, rfl, rfl⟩
    | entry j =>
      have h : (dinode smallSb smallDisk 1).addrs indirect = 0 := by decide +kernel
      rw [addrOn, if_pos h] at hb
      exact absurd rfl hb
  · rintro ⟨rfl, rfl, rfl⟩
    decide +kernel

theorem smallDisk_consistent : Consistent smallSb smallDisk where
  layout := ⟨by decide, by decide, by decide, by decide⟩
  owned := {
    data := fun h => by
      obtain ⟨rfl, -⟩ := smallDisk_appears.mp h
      decide
    marked := fun h => by
      obtain ⟨rfl, -⟩ := smallDisk_appears.mp h
      decide +kernel
    once := fun h h' => by
      obtain ⟨-, rfl, rfl⟩ := smallDisk_appears.mp h
      obtain ⟨-, rfl, rfl⟩ := smallDisk_appears.mp h'
      exact ⟨rfl, rfl⟩
    free := fun {b} hb hno => by
      have h : ∀ n : Fin 10, 4 ≤ n → n ≠ 4 → bitSet smallSb smallDisk n = false := by decide +kernel
      refine h ⟨b.toNat, hb.2⟩ hb.1 fun h4 => hno 1 (.addr 0) (smallDisk_appears.mpr ⟨?_, rfl, rfl⟩)
      have h4 : b.toNat = 4 := congrArg Fin.val h4
      exact BitVec.eq_of_toNat_eq h4 }
  before := by decide +kernel
  full i bn ht hn hs := by
    have hi := inode_lt ht
    rw [image_inode hi] at ht hs
    obtain rfl := smallDisk_inode hi ht
    have hsize : (dinode smallSb smallDisk 1).size.toNat = 32 := by decide +kernel
    rw [hsize] at hs
    obtain rfl : bn = 0 := by simp only [BSIZE] at hs; omega
    decide +kernel
  dirs i k lo hi' ht hk hlo hhi := by
    have ht0 : ((image smallSb smallDisk).inode i).type ≠ 0 := by rw [ht]; decide
    have hi := inode_lt ht0
    rw [image_inode hi] at ht hk
    obtain rfl := smallDisk_inode hi (by rw [ht]; decide)
    have hsize : (dinode smallSb smallDisk 1).size.toNat = 32 := by decide +kernel
    have hbytes : ∀ k : Fin 2, (image smallSb smallDisk).byte 1 (16 * k) = some 1 ∧
        (image smallSb smallDisk).byte 1 (16 * k + 1) = some 0 := by decide +kernel
    obtain ⟨h0, h1⟩ := hbytes ⟨k, by omega⟩
    obtain rfl : 1 = lo := Option.some.inj (h0.symm.trans hlo)
    obtain rfl : 0 = hi' := Option.some.inj (h1.symm.trans hhi)
    decide

/-- `open("/a", O_CREATE|O_RDWR)` and a write of five bytes of which three are
mapped. -/
def badwrite : List (Fin NPROC × Call) :=
  [(0, .sysOpen (some [0x2f, 0x61]) (O_CREATE ||| O_RDWR)),
   (0, .sysWrite 0 (fun k => if k < 3 then some 0x78 else none) 5 none)]

theorem blocks_owned_badwrite : ∃ s, Run (step smallSb) (boot smallDisk) badwrite s ∧
    (AppearsAt smallSb s.store.disk 5 2 (.addr 0) ∧ (dinode smallSb s.store.disk 2).size = 0) ∧
    Owned smallSb s.store.disk := by
  obtain ⟨s, hr, hs⟩ := exists_run (step smallSb) (boot smallDisk) badwrite
    (Q := fun s => AppearsAt smallSb s.store.disk 5 2 (.addr 0) ∧ (dinode smallSb s.store.disk 2).size = 0)
    (by decide +kernel)
  exact ⟨s, hr, hs, (blocks_owned smallDisk_consistent hr).1⟩

end Xv6.Fs
