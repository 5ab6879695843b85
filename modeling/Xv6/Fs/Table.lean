import Xv6.Fs.Mem

/-!
# Operations on the inode table

Each operation of `kernel/fs.c` on an entry of the table, as a change of the
claims.
-/

namespace Xv6.Fs

open Framework

variable {sb : Superblock} {K : Multiset Claim} {st : Store} {e : Fin NINODE} {o : Option Short} {inum : Nat}

theorem iget_spec (h : Inv sb K st) (hi : inum < sb.ninodes) :
    Wp Safe (iget inum) (fun e st' => Inv sb ((e, none) ::ₘ K) st' ∧ (st'.itable e).inum = inum ∧ st'.disk = st.disk)
      st := by
  refine iget_cases (fun e hr hi => ⟨h.of_table rfl (h.mem.dup hr), ?_, rfl⟩)
    (fun hno e he => ⟨h.of_table rfl (h.mem.recycle he hi hno), ?_, rfl⟩) fun _ => by simp
  · rwa [Store.putInode_itable, Function.update_self]
  · rw [Store.putInode_itable, Function.update_self]

theorem idup_spec (h : Inv sb K st) (hc : (e, o) ∈ K) :
    Wp Safe (idup e) (fun e' st' => e' = e ∧ Inv sb ((e, none) ::ₘ K) st') st := by
  simp only [idup, wp_bind, wp_inode, wp_setInode, wp_pure, true_and]
  exact h.of_table rfl (h.mem.dup (h.mem.ref_pos hc))

/-- `ilock` tells the type of the inode. -/
theorem ilock_spec (h : Inv sb ((e, o) ::ₘ K) st) :
    Wp Safe (ilock sb e) (fun _ st' => st'.disk = st.disk ∧
      Inv sb ((e, some ((image sb st.disk).inode (st.itable e).inum).type) ::ₘ K) st') st := by
  have he := h.mem.ref_pos (Multiset.mem_cons_self ..)
  have hi := h.mem.range he
  simp only [ilock, wp_bind, wp_inode]
  refine wp_ite (fun hr => by simp) fun _ => wp_ite (fun _ => by simp) fun _ => wp_ite (fun hv => ?_) fun hv => ?_
  · rw [wp_setInode, (h.mem.mirror he hv).1]
    exact ⟨rfl, h.of_table rfl ((h.mem.learn hv).lock true)⟩
  · simp only [wp_bind, wp_bread, wp_setInode]
    have hd : Dinode.read (Log.bytes (st.disk (sb.iblock (st.itable e).inum))) (inodeOffset (st.itable e).inum) =
        (image sb st.disk).inode (st.itable e).inum := by
      simp [image, hi, dinode]
    rw [hd]
    refine wp_ite (fun _ => by simp) fun ht => ?_
    exact ⟨rfl, h.of_table rfl (h.mem.load (by simpa using hv) ht true)⟩

theorem iunlock_spec (h : Inv sb K st) : Wp Safe (iunlock e) (fun _ st' => st'.disk = st.disk ∧ Inv sb K st') st := by
  simp only [iunlock, wp_bind, wp_inode]
  refine wp_ite (fun _ => by simp) fun _ => ?_
  exact ⟨rfl, h.of_table rfl (h.mem.lock false)⟩

/-- A free inode of the disk is allocated. -/
theorem Inv.alloc (L : Layout sb) (h : Inv sb K st) (hi : inum < sb.ninodes)
    (hf : (dinode sb st.disk inum).type = 0) (type : Short) {st' : Store} (ht : st'.itable = st.itable)
    (hd : st'.disk = writeInode sb st.disk inum (Dinode.ofType type)) : Inv sb K st' := by
  have hf' : ((image sb st.disk).inode inum).type = 0 := by simpa only [image, hi, ↓reduceIte] using hf
  have him : image sb st'.disk = (image sb st.disk).setInode inum (Dinode.ofType type) := by
    rw [hd, image_writeInode L _ hi, Image.setInode]
  have hr (p : Place) : ((image sb st.disk).setInode inum (Dinode.ofType type)).ref (inum, p) =
      (image sb st.disk).ref (inum, p) := by
    rw [Image.ref_eq_zero (.inl hf'), Image.ref_eq_zero (.inr fun k => ?_)]
    simp [Image.setInode, Dinode.ofType]
  refine ⟨?_, ?_, ?_, ?_⟩
  · rw [him, ht]; exact h.mem.alloc hf' _
  · rw [him]; exact h.own.setInode hr
  · rw [him]
    refine h.full.setInode hr fun _ bn _ hs => ?_
    simp [Dinode.ofType] at hs
  · rw [him]
    refine h.dirs.setInode hr fun _ k lo hi' hk => ?_
    simp [Dinode.ofType] at hk

theorem iallocFrom_spec (L : Layout sb) (h : Inv sb K st) (type : Short) {inums : List Nat}
    (hin : ∀ i ∈ inums, i < sb.ninodes) :
    Wp Safe (iallocFrom sb type inums) (fun e st' => Inv sb ((e, none) ::ₘ K) st' ∧
      ((image sb st'.disk).inode (st'.itable e).inum).type = type) st := by
  induction inums with
  | nil => simp [iallocFrom]
  | cons inum inums ih =>
    have hi := hin inum (List.mem_cons_self ..)
    simp only [iallocFrom, wp_bind, wp_bread]
    refine wp_ite (fun hf => ?_) fun _ => ih fun i hi => hin i (List.mem_cons_of_mem _ hi)
    simp only [wp_bind, wp_logWrite]
    have h' : Inv sb K { st with
        disk := writeInode sb st.disk inum (Dinode.ofType type)
        logged := st.logged ++ [sb.iblock inum] } := h.alloc L hi hf type rfl rfl
    refine (iget_spec h' hi).mono fun e st' hs => ⟨hs.1, ?_⟩
    rw [hs.2.1, hs.2.2]
    simp only [image, hi, ↓reduceIte]
    exact congrArg Dinode.type (dinode_writeInode_self st.disk inum (Dinode.ofType type))

theorem ialloc_spec (L : Layout sb) (h : Inv sb K st) (type : Short) :
    Wp Safe (ialloc sb type) (fun e st' => Inv sb ((e, none) ::ₘ K) st' ∧
      ((image sb st'.disk).inode (st'.itable e).inum).type = type) st := by
  refine iallocFrom_spec L h type fun i hi => ?_
  have := List.mem_range'_1.mp hi
  omega

end Xv6.Fs
