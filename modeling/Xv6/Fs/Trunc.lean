import Xv6.Fs.Table

/-!
# Truncation

`itrunc` frees the blocks of an inode one by one, and only then writes the
inode: `Freed` is what holds in between. The entries of the indirect block are
freed while the block still lists them, so that during that loop the owners are
those of the image without the entries freed so far. `itrunc_spec` says that
nothing else changes, and `iput_spec` that `iput` gives up a claim.
-/

namespace Xv6.Fs

open Framework Function List Image Store
open Log (BlockNo Block word)

variable {sb : Superblock} {K : Multiset Claim} {st st' : Store} {e : Fin NINODE} {o : Option Short} {ty : Short}
  {E : Stop → Prop} {a : Fin (NDIRECT + 1) → BlockNo}

/-- Blocks of the inode of entry `e` have been freed, which leaves it the
addresses `a`. -/
structure Freed (sb : Superblock) (K : Multiset Claim) (e : Fin NINODE) (a : Fin (NDIRECT + 1) → BlockNo)
    (st st' : Store) : Prop where
  dirty : Dirty sb K e st'
  table : st'.itable = (st.putDinode e { (st.itable e).toDinode with addrs := a }).itable
  inode : (image sb st'.disk).inode = (image sb st.disk).inode
  data : (image sb st'.disk).data = (image sb st.disk).data

theorem putDinode_itable_congr (h : st'.itable = st.itable) (e : Fin NINODE) (dn : Dinode) :
    (st'.putDinode e dn).itable = (st.putDinode e dn).itable := by
  simp only [putDinode, putInode_itable, h]

theorem Freed.self (h : Freed sb K e a st st') :
    st'.itable e = { st.itable e with addrs := a } := by
  rw [h.table, putDinode_self]

theorem Freed.trans {st'' : Store} {a' : Fin (NDIRECT + 1) → BlockNo} (h : Freed sb K e a st st')
    (h' : Freed sb K e a' st' st'') : Freed sb K e a' st st'' where
  dirty := h'.dirty
  table := by
    rw [h'.table, putDinode_itable_congr h.table, putDinode_putDinode, h.self]
  inode := h'.inode.trans h.inode
  data := h'.data.trans h.data

/-- A block that is owned, in place `addrs[k]`, is freed. The owners `R` need
not be those of the image before. -/
theorem freeAddr_spec (L : Layout sb) (hm : Mem sb K (current sb e st).inode st.itable) (hc : (e, some ty) ∈ K)
    (before : ∀ {b : BlockNo}, b.toNat < sb.dataStart → (image sb st.disk).used b = true) {R : Nat × Place → BlockNo}
    (hR : Owns R fun b => sb.InData b ∧ (image sb st.disk).used b = true) {k : Fin (NDIRECT + 1)}
    (hk : R ((st.itable e).inum, .addr k) = (st.itable e).addrs k)
    (hz : (st.itable e).addrs k = 0 → (current sb e st).ref = R)
    (ht : ((current sb e st).takeAddr (st.itable e).inum k).ref = update R ((st.itable e).inum, .addr k) 0) :
    Wp E (freeAddr sb e k) (fun _ => Freed sb K e (update (st.itable e).addrs k 0) st) st := by
  simp only [freeAddr, wp_bind, wp_inode]
  refine wp_ite (fun h0 => ?_) fun h0 => ?_
  · rw [wp_pure]
    refine ⟨⟨hm, by rw [hz h0]; exact hR, before⟩, ?_, rfl, rfl⟩
    rw [← h0, update_eq_self]
    exact (update_eq_self ..).symm
  · have hne : R ((st.itable e).inum, .addr k) ≠ 0 := by rwa [hk]
    obtain ⟨hd, hu⟩ := hR.used hne
    rw [hk] at hd hu
    simp only [wp_bind]
    refine (bfree_spec L hd.2 hu).mono fun _ st1 h1 => ?_
    obtain ⟨ht1, him⟩ := h1
    have hcur1 : current sb e st1 = (current sb e st).setUsed ((st.itable e).addrs k) false := by
      simp only [current, him, ht1]
      rfl
    rw [wp_setInode, ← ht1]
    change Freed _ _ _ _ _ (st1.putDinode e { (st1.itable e).toDinode with addrs := _ })
    -- the image with the copy in memory written
    have hcur : current sb e (st1.putDinode e
        { (st1.itable e).toDinode with addrs := update (st1.itable e).addrs k 0 }) =
        (current sb e st).takeAddr (st.itable e).inum k := by
      rw [current_putDinode, hcur1, takeAddr, current_inode_self, ht1]
    refine ⟨⟨?_, ?_, fun {b} hb => ?_⟩, ?_, ?_, ?_⟩
    · refine Mem.putDinode ?_ hc _ rfl
      rw [hcur1, ht1]
      exact hm
    · rw [hcur, ht]
      have := owns_take_used hR hne
      rw [hk] at this
      simp only [takeAddr, current_inode_self]
      exact this
    · rw [hcur]
      simp only [takeAddr, current_inode_self, setInode_used, setUsed_used]
      rw [update_of_ne]
      · exact before hb
      · rintro rfl
        exact absurd hd.1 (Nat.not_le.mpr hb)
    · rw [putDinode_itable_congr ht1, ht1]
    · rw [putDinode_disk, him, setUsed_inode]
    · rw [putDinode_disk, him, setUsed_data]

/-- The loop over the direct blocks. -/
theorem freeAddrs_spec (L : Layout sb) (h : Dirty sb K e st) (hc : (e, some ty) ∈ K) :
    Wp E ((range NDIRECT).forM fun i => freeAddr sb e (Fin.ofNat _ i))
      (fun _ st' => ∃ a, Freed sb K e a st st' ∧ a indirect = (st.itable e).addrs indirect ∧
        ∀ k, k ≠ indirect → a k = 0) st := by
  refine (wp_forM (fun l st' => ∃ a, Freed sb K e a st st' ∧ a indirect = (st.itable e).addrs indirect ∧
      (∀ x ∈ l, x < NDIRECT) ∧ ∀ k : Fin (NDIRECT + 1), k ≠ indirect → k.val ∉ l → a k = 0)
    (fun {x l st1} hI => ?_) ?_).mono fun _ st' hI => ?_
  · obtain ⟨a, hF, ha, hlt, hz⟩ := hI
    have hx := hlt x (mem_cons_self ..)
    have hk : Fin.ofNat (NDIRECT + 1) x ≠ indirect := by
      simp only [ne_eq, Fin.ext_iff, Fin.val_ofNat, Fin.val_last, Nat.mod_eq_of_lt (Nat.lt_succ_of_lt hx)]
      omega
    have haddrs : (st1.itable e).addrs = a := by rw [hF.self]
    refine (freeAddr_spec L hF.dirty.mem hc hF.dirty.own.before hF.dirty.own.owns (ref_addr
      (hF.dirty.mem.type_ne_zero hc) _ |>.trans (by rw [current_inode_self])) (fun _ => rfl)
      (ref_takeAddr hk)).mono fun _ st2 h2 => ?_
    refine ⟨_, hF.trans h2, ?_, fun y hy => hlt y (mem_cons_of_mem _ hy), fun k hk' hkl => ?_⟩
    · rw [update_of_ne hk.symm, haddrs, ha]
    · rw [haddrs, update_apply]
      split
      · rfl
      · rename_i hne
        refine hz k hk' fun hmem => ?_
        obtain hmem | hmem := mem_cons.mp hmem
        · refine hne (Fin.ext ?_)
          rw [Fin.val_ofNat, Nat.mod_eq_of_lt (Nat.lt_succ_of_lt hx), hmem]
        · exact hkl hmem
  · refine ⟨(st.itable e).addrs, ⟨h, (update_eq_self ..).symm, rfl, rfl⟩, rfl,
      fun x hx => mem_range.mp hx, fun k hk hkl => ?_⟩
    refine absurd (mem_range.mpr ?_) hkl
    exact Fin.val_lt_last hk
  · obtain ⟨a, hF, ha, -, hz⟩ := hI
    exact ⟨a, hF, ha, fun k hk => hz k hk (not_mem_nil)⟩

/-- The owners while the entries of an indirect block are freed: `l` are those
still to come. -/
structure Entries (sb : Superblock) (e : Fin NINODE) (st : Store) (l : List Nat) (st' : Store) : Prop where
  table : st'.itable = st.itable
  inode : (image sb st'.disk).inode = (image sb st.disk).inode
  data : (image sb st'.disk).data = (image sb st.disk).data
  before : ∀ {b : BlockNo}, b.toNat < sb.dataStart → (image sb st'.disk).used b = true
  nodup : l.Nodup
  lt : ∀ x ∈ l, x < NINDIRECT
  owns : ∃ R, (Owns R fun b => sb.InData b ∧ (image sb st'.disk).used b = true) ∧
    (∀ j : Fin NINDIRECT, R ((st.itable e).inum, .entry j) =
      if j.val ∈ l then (current sb e st).ref ((st.itable e).inum, .entry j) else 0) ∧
    ∀ p, (∀ j, p ≠ ((st.itable e).inum, .entry j)) → R p = (current sb e st).ref p

/-- The loop over the entries of the indirect block. -/
theorem freeEntries_spec (L : Layout sb) (h : Dirty sb K e st) {data : Block}
    (hw : ∀ j : Fin NINDIRECT, (current sb e st).ref ((st.itable e).inum, .entry j) = word data j) :
    Wp E (freeEntries sb data) (fun _ => Entries sb e st []) st := by
  refine wp_forM (fun l st' => Entries sb e st l st') (fun {x l st1} hI => ?_) ?_
  · obtain ⟨R, hR, hent, hoth⟩ := hI.owns
    have hx : x < NINDIRECT := hI.lt x (mem_cons_self ..)
    obtain ⟨hxl, hnd⟩ := nodup_cons.mp hI.nodup
    have hlt : ∀ y ∈ l, y < NINDIRECT := fun y hy => hI.lt y (mem_cons_of_mem _ hy)
    have hRx : R ((st.itable e).inum, .entry ⟨x, hx⟩) = word data x := by
      rw [hent, if_pos (mem_cons_self ..), hw]
    -- an entry other than `x` is to come after `x` as it was before
    have hiff (j : Fin NINDIRECT) (hj : j ≠ ⟨x, hx⟩) : j.val ∈ x :: l ↔ j.val ∈ l := by
      rw [mem_cons, or_iff_right fun hj' => hj (Fin.ext hj')]
    refine wp_ite (fun h0 => ?_) fun h0 => ?_
    · refine ⟨hI.table, hI.inode, hI.data, hI.before, hnd, hlt, R, hR, fun j => ?_, hoth⟩
      by_cases ej : j = ⟨x, hx⟩
      · subst ej; rw [hRx, h0, if_neg hxl]
      · rw [hent]; exact if_congr (hiff j ej) rfl rfl
    · have hne : R ((st.itable e).inum, .entry ⟨x, hx⟩) ≠ 0 := by rwa [hRx]
      obtain ⟨hd, hu⟩ := hR.used hne
      rw [hRx] at hd hu
      refine (bfree_spec L hd.2 hu).mono fun _ st2 h2 => ?_
      obtain ⟨ht2, him⟩ := h2
      refine ⟨ht2.trans hI.table, by rw [him]; exact hI.inode, by rw [him]; exact hI.data, fun {b} hb => ?_, hnd, hlt,
        update R ((st.itable e).inum, .entry ⟨x, hx⟩) 0, ?_, fun j => ?_, fun p hp => ?_⟩
      · rw [him, setUsed_used, update_of_ne]
        · exact hI.before hb
        · rintro rfl
          exact absurd hd.1 (Nat.not_le.mpr hb)
      · have := owns_take_used hR hne
        rw [hRx] at this
        rw [him]
        exact this
      · by_cases ej : j = ⟨x, hx⟩
        · subst ej; rw [update_self, if_neg hxl]
        · rw [update_of_ne (by simpa using ej), hent]
          exact if_congr (hiff j ej) rfl rfl
      · rw [update_of_ne (hp _), hoth p hp]
  · refine ⟨rfl, rfl, rfl, h.own.before, nodup_range, fun x hx => mem_range.mp hx, (current sb e st).ref,
      h.own.owns, fun j => ?_, fun _ _ => rfl⟩
    rw [if_pos (mem_range.mpr j.isLt)]

/-- Everything is freed, and the inode written: the other files are as before. -/
theorem Freed.written (L : Layout sb) (h : Inv sb K st) (hc : (e, some ty) ∈ K)
    (hF : Freed sb K e a st st') (ha : ∀ k, a k = 0) :
    Wp E (iupdate sb e) (fun _ st'' => Inv sb K st'' ∧ st''.itable =
        (st.putDinode e { (st.itable e).toDinode with addrs := fun _ => 0, size := 0 }).itable)
      (st'.putDinode e { (st'.itable e).toDinode with size := 0 }) := by
  obtain rfl : a = fun _ => 0 := funext ha
  have he := hF.self
  have hr (p : Place) : (current sb e (st'.putDinode e { (st'.itable e).toDinode with size := 0 })).ref
      ((st'.itable e).inum, p) = (current sb e st').ref ((st'.itable e).inum, p) := by
    rw [current_putDinode, ref_eq_zero (.inr fun k => ?_), ref_eq_zero (.inr fun k => ?_)]
    · rw [current_inode_self, he]
    · rw [setInode_inode, update_self, he]
  -- the other inodes and their blocks are those of the store before
  have hoth (j : Nat) (hj : j ≠ (st'.itable e).inum) :
      (current sb e (st'.putDinode e { (st'.itable e).toDinode with size := 0 })).inode j =
        (image sb st.disk).inode j := by
    rw [current_putDinode, setInode_inode, update_of_ne hj, current, setInode_inode, update_of_ne hj, hF.inode]
  have hsize : ((current sb e (st'.putDinode e { (st'.itable e).toDinode with size := 0 })).inode
      (st'.itable e).inum).size = 0 := by
    rw [current_putDinode, setInode_inode, update_self]
  have hdata : (current sb e (st'.putDinode e { (st'.itable e).toDinode with size := 0 })).data =
      (image sb st.disk).data := hF.data
  have hm := hF.dirty.mem.putDinode hc { (st'.itable e).toDinode with size := 0 } rfl
  refine (iupdate_inv L hm hc ?_ (h.full.clear hoth hdata hsize) (h.dirs.clear hoth hdata hsize)).mono
    fun _ st'' h'' => ⟨h''.1, ?_⟩
  · rw [current_putDinode] at hr ⊢
    exact hF.dirty.own.setInode hr
  · rw [h''.2, putDinode_itable_congr hF.table, putDinode_putDinode, he]

theorem itrunc_spec (L : Layout sb) (h : Inv sb K st) (hc : (e, some ty) ∈ K) :
    Wp E (itrunc sb e) (fun _ st' => Inv sb K st' ∧ st'.itable =
      (st.putDinode e { (st.itable e).toDinode with addrs := fun _ => 0, size := 0 }).itable) st := by
  rw [itrunc]
  refine (freeAddrs_spec L (h.dirty hc) hc).bind fun _ st1 h1 => ?_
  obtain ⟨a, hF, ha, hz⟩ := h1
  have he := hF.self
  have ht := hF.dirty.mem.type_ne_zero hc
  simp only [wp_bind, wp_inode, wp_setInode]
  refine wp_ite (fun h0 => ?_) fun h0 => ?_
  · -- no indirect block
    rw [wp_pure]
    refine hF.written L h hc fun k => ?_
    by_cases hk : k = indirect
    · rw [hk, ← h0, he]
    · exact hz k hk
  · simp only [wp_bind, wp_bread]
    have href : (current sb e st1).ref ((st1.itable e).inum, .addr indirect) = (st1.itable e).addrs indirect := by
      rw [ref_addr ht, current_inode_self]
    have hin : sb.InData ((st1.itable e).addrs indirect) := by
      rw [← href]
      exact hF.dirty.own.inData (by rwa [href])
    have hw (j : Fin NINDIRECT) : (current sb e st1).ref ((st1.itable e).inum, .entry j) =
        word (st1.disk ((st1.itable e).addrs indirect)) j := by
      rw [ref_entry ht (by rwa [current_inode_self]), current_inode_self, current_data e st1 hin]
    refine (freeEntries_spec L hF.dirty hw).mono fun _ st2 h2 => ?_
    obtain ⟨R, hR, hent, hoth⟩ := h2.owns
    simp only [not_mem_nil, ↓reduceIte] at hent
    -- only the free map has changed
    have hinode : (current sb e st2).inode = (current sb e st1).inode := by
      simp only [current, setInode_inode, h2.table, h2.inode]
    have href2 : (current sb e st2).ref = (current sb e st1).ref := by
      funext x
      exact ref_congr _ _ (congrFun hinode x.1) (fun _ => congrFun h2.data _) x.2
    rw [← h2.table] at href hent hoth h0
    refine (freeAddr_spec L (by rw [hinode, h2.table]; exact hF.dirty.mem) hc h2.before hR
      ((hoth _ (by simp)).trans href) (fun h => absurd h h0)
      (ref_takeIndirect hent fun p hp => (hoth p hp).trans (by rw [href2]))).mono fun _ st3 h3 => ?_
    have hF3 : Freed sb K e (update (st2.itable e).addrs indirect 0) st1 st3 := by
      refine ⟨h3.dirty, ?_, h3.inode.trans h2.inode, h3.data.trans h2.data⟩
      rw [h3.table, putDinode_itable_congr h2.table, h2.table]
    refine (hF.trans hF3).written L h hc fun k => ?_
    rw [h2.table, he, update_apply]
    split
    · rfl
    · exact hz k ‹_›

/-- An empty inode without other claims is freed on the disk. -/
theorem Inv.free (h : Inv sb ((e, o) ::ₘ K) st) (hr : (st.itable e).ref = 1) (ha : ∀ k, (st.itable e).addrs k = 0)
    (hv : (st.itable e).valid = true) {dn : Dinode} (hdn : dn.type = 0) {x : Inode} (hx : x.ref = 0)
    (ht : st'.itable = Function.update st.itable e x)
    (him : image sb st'.disk = (image sb st.disk).setInode (st.itable e).inum dn) : Inv sb K st' := by
  have hm := (h.mem.mirror (by omega) hv).1
  have href (p : Place) : ((image sb st.disk).setInode (st.itable e).inum dn).ref ((st.itable e).inum, p) =
      (image sb st.disk).ref ((st.itable e).inum, p) := by
    rw [ref_eq_zero (.inl ?_), ref_eq_zero (.inr fun k => ?_)]
    · rw [hm, ha]
    · rw [setInode_inode, update_self, hdn]
  refine ⟨?_, ?_, ?_, ?_⟩
  · rw [him, ht]; exact h.mem.free hr hx dn
  · rw [him]; exact h.own.setInode href
  · rw [him]; exact h.full.setInode href fun h0 => absurd hdn h0
  · rw [him]
    refine h.dirs.setInode href fun h1 => ?_
    rw [hdn] at h1
    cases h1

theorem iput_spec (L : Layout sb) (h : Inv sb ((e, o) ::ₘ K) st) : Wp Safe (iput sb e) (fun _ => Inv sb K) st := by
  simp only [iput, wp_bind, wp_inode]
  refine wp_ite (fun hc => wp_ite (fun _ => by simp) fun _ => ?_) fun _ => ?_
  · obtain ⟨hr, hv, -⟩ := hc
    have h' : Inv sb ((e, some (st.itable e).type) ::ₘ K) st := h.of_table rfl (h.mem.learn hv)
    simp only [wp_bind]
    refine (itrunc_spec L h' (Multiset.mem_cons_self ..)).mono fun _ st1 h1 => ?_
    obtain ⟨h1, ht1⟩ := h1
    have he : st1.itable e = { st.itable e with addrs := fun _ => 0, size := 0 } := by
      rw [ht1, putDinode_self]
    have hi : (st1.itable e).inum < sb.ninodes := h1.mem.range (h1.mem.ref_pos (Multiset.mem_cons_self ..))
    simp only [wp_inode, wp_setInode]
    refine (iupdate_spec L (by simpa using hi)).mono fun _ st2 h2 => ?_
    obtain ⟨ht2, him⟩ := h2
    simp only [ht2, putInode_itable, putInode_disk, update_self] at him ⊢
    refine h1.free (by rw [he]; exact hr) (fun k => by rw [he]) (by rw [he]; exact hv) rfl
      (x := { st1.itable e with type := 0, valid := false, ref := (st1.itable e).ref - 1 }) ?_ ?_ him
    · simp only [he, hr]
    · simp only [putInode_itable, ht2, update_idem]
  · exact h.of_table rfl h.mem.drop

end Xv6.Fs
