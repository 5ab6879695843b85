import Xv6.Fs.ByteArray

/-!
# Writing to files in chunks

`filewrite` calls `writei` for a few blocks at a time, each time in a
transaction of its own. The blocks that one such call logs fit into what the
log reserves for a transaction (`writei_logged`), and all the calls together
do what one call would do for the whole buffer (`filewrite_eq_writei`).
-/

namespace Xv6.Fs

open Framework Function Finset Store
open Log (BlockNo Block)

variable {sb : Superblock} {st st' st1 st2 : Store} {e : Fin NINODE} {P : Finset Place} {E : Stop → Prop}
variable {src : Nat → Option Byte} {off n : Nat}

/-! ## Transactions -/

/-- Of the places of a range, all but one are those of its data blocks. -/
theorem card_span_le (off n : Nat) : (span off n).card ≤ (off + n + BSIZE - 1) / BSIZE - off / BSIZE + 1 := by
  have hsub : span off n ⊆
      insert (.addr indirect) ((Finset.Ico (off / BSIZE) ((off + n + BSIZE - 1) / BSIZE)).image place) := by
    refine biUnion_subset.mpr fun bn hbn p hp => ?_
    have hplace := mem_image_of_mem place hbn
    rw [need] at hp
    split at hp
    · rw [mem_singleton.mp hp]
      exact mem_insert_of_mem hplace
    · rcases mem_insert.mp hp with rfl | hp
      · exact mem_insert_self ..
      · rw [mem_singleton.mp hp]
        exact mem_insert_of_mem hplace
  calc (span off n).card
    _ ≤ _ := card_le_card hsub
    _ ≤ _ := card_insert_le ..
    _ ≤ _ := Nat.succ_le_succ card_image_le
    _ = _ := by rw [Nat.card_Ico]

/-- The blocks that are logged while places are filled: the inode, the blocks of
the places, and the blocks of the free map for the places that were empty. -/
theorem Grown.card_logged (g : Grown sb e P st st') : ∃ l, st'.logged = st.logged ++ l ∧
    l.toFinset.card ≤ 1 + P.card + (P.filter fun p => held sb e st p = 0).card := by
  obtain ⟨l, hl, hmem⟩ := g.logged
  refine ⟨l, hl, ?_⟩
  have hsub : l.toFinset ⊆ {sb.iblock (st.itable e).inum} ∪ P.image (held sb e st') ∪
      (P.filter fun p => held sb e st p = 0).image fun p => sb.bblock (held sb e st' p).toNat := by
    intro b hb
    simp only [mem_union, mem_singleton, mem_image, mem_filter]
    rcases hmem b (List.mem_toFinset.mp hb) with rfl | ⟨p, hp, -, rfl | ⟨h0, rfl⟩⟩
    · exact .inl (.inl rfl)
    · exact .inl (.inr ⟨p, hp, rfl⟩)
    · exact .inr ⟨p, ⟨hp, h0⟩, rfl⟩
  calc l.toFinset.card
    _ ≤ _ := card_le_card hsub
    _ ≤ _ := card_union_le ..
    _ ≤ _ := Nat.add_le_add (card_union_le ..) card_image_le
    _ ≤ _ := Nat.add_le_add_right (Nat.add_le_add_left card_image_le _) _

/-- A range that does not start with a block starts in one that is there. -/
theorem card_empty_le (hS : Solid sb e st) (hoff : off ≤ (st.itable e).size.toNat) (hn : 0 < n)
    (hM : off + n ≤ MAXFILE * BSIZE) (hmod : off % BSIZE ≠ 0) :
    ((span off n).filter fun p => held sb e st p = 0).card + 1 ≤ (span off n).card := by
  have hbn : off / BSIZE < MAXFILE := Nat.div_lt_of_lt_mul (by rw [Nat.mul_comm]; omega)
  have hheld : held sb e st (place (off / BSIZE)) ≠ 0 := by
    refine hS _ hbn ?_
    have := Nat.div_add_mod' off BSIZE
    omega
  have hmem : place (off / BSIZE) ∈ span off n := need_subset_span hn (place_mem_need _)
  refine card_lt_card ⟨filter_subset .., fun hsub => ?_⟩
  exact hheld (mem_filter.mp (hsub hmem)).2

/-- The call of `writei` in an iteration of `filewrite` logs no more blocks than
the log reserves for it. -/
theorem writei_logged (L : Layout sb) (h : Node sb e st) (hS : Solid sb e st) (hoff : off ≤ (st.itable e).size.toNat)
    (hn : n ≤ filewriteMax) {r : Int} (hrun : writei sb e src off n st = .ok (r, st')) :
    ∃ l, st'.logged = st.logged ++ l ∧ l.toFinset.card ≤ MAXOPBLOCKS := by
  have hlt : n < 2 ^ 32 := Nat.lt_of_le_of_lt hn (by decide)
  have hnone : ∃ l, st.logged = st.logged ++ l ∧ l.toFinset.card ≤ MAXOPBLOCKS :=
    ⟨[], (List.append_nil _).symm, Nat.zero_le _⟩
  by_cases hM : off + n ≤ MAXFILE * BSIZE
  · have hwp : Wp (fun _ => True) (writei sb e src off n) _ st :=
      writei_stored L h (subset_refl (span off n)) (.inr trivial) hlt
    rcases hwp.ok hrun with ⟨-, -, rfl⟩ | ⟨tot, -, -, g, -⟩
    · exact hnone
    · obtain ⟨l, hl, hcard⟩ := g.card_logged
      refine ⟨l, hl, hcard.trans ?_⟩
      have hspan := card_span_le off n
      have hfilter := card_filter_le (span off n) fun p => held sb e st p = 0
      -- four data blocks only if the first of them is there
      by_cases hfour : 0 < n ∧ off % BSIZE ≠ 0
      · have hempty := card_empty_le hS hoff hfour.1 hM hfour.2
        simp only [BSIZE, filewriteMax, MAXOPBLOCKS] at *
        omega
      · simp only [BSIZE, filewriteMax, MAXOPBLOCKS] at *
        omega
  · have hwp : Wp (fun _ => True) (writei sb e src off n) _ st := writei_fail (.inr (by omega)) hlt
    obtain ⟨-, rfl⟩ := hwp.ok hrun
    exact hnone

/-- A write to the file that `badwrite` leaves. -/
theorem writei_logged_badwrite : ∃ s, Run (step smallSb) (boot smallDisk) badwrite s ∧
    ∃ r st' l, writei smallSb (s.ftable 0).ip (fun _ => some 0x78) 0 1 s.store = .ok (r, st') ∧
      st'.logged = s.store.logged ++ l ∧ l.toFinset.card ≤ MAXOPBLOCKS := by
  obtain ⟨s, hr, hty, hok⟩ := exists_run (step smallSb) (boot smallDisk) badwrite
    (Q := fun s => (s.ftable 0).type = .inode ∧
      (writei smallSb (s.ftable 0).ip (fun _ => some 0x78) 0 1 s.store).toOption.isSome) (by decide +kernel)
  obtain ⟨ty, hs⟩ := run_held smallDisk_consistent hr
  have hf : ((s.ftable 0).ip, some (ty 0)) ∈ 0 + s.claims ty := Held.mem_file (by simp [hty])
  cases hw : writei smallSb (s.ftable 0).ip (fun _ => some 0x78) 0 1 s.store with
  | error => rw [hw] at hok; cases hok
  | ok r =>
    obtain ⟨l, hl⟩ := writei_logged smallDisk_consistent.layout (hs.inv.node hf) (hs.inv.solid hf) (Nat.zero_le _)
      (by decide) hw
    exact ⟨s, hr, r.1, r.2, l, hw, hl⟩

/-! ## Chunks -/

theorem span_subset {off' n' : Nat} (ho : off ≤ off') (hn : off' + n' ≤ off + n) : span off' n' ⊆ span off n := by
  refine biUnion_subset_biUnion_of_subset_left need (Finset.Ico_subset_Ico ?_ ?_)
  · exact Nat.div_le_div_right ho
  · exact Nat.div_le_div_right (by omega)

theorem buffer_add (src : Nat → Option Byte) (m n : Nat) :
    buffer src (m + n) = buffer src m ++ buffer (fun k => src (m + k)) n := by
  rw [buffer, List.range_add, List.map_append, List.map_map]
  rfl

/-- The store with the lock of an inode taken or released. -/
def Store.setLocked (st : Store) (e : Fin NINODE) (b : Bool) : Store := st.putInode e { st.itable e with locked := b }

theorem Store.setLocked_self (st : Store) (e : Fin NINODE) (b : Bool) :
    (st.setLocked e b).itable e = { st.itable e with locked := b } := update_self ..

theorem current_setLocked (sb : Superblock) (st : Store) (e : Fin NINODE) (b : Bool) :
    current sb e (st.setLocked e b) = current sb e st := by
  rw [current, setLocked_self]
  rfl

theorem Node.setLocked (h : Node sb e st) (b : Bool) : Node sb e (st.setLocked e b) where
  range := by rw [setLocked_self]; exact h.range
  type := by rw [setLocked_self]; exact h.type
  own := by rw [current_setLocked]; exact h.own

theorem Solid.setLocked (h : Solid sb e st) (b : Bool) : Solid sb e (st.setLocked e b) := by
  simp only [Solid, SolidTo, current_setLocked, setLocked_self]
  exact h

theorem Supply.setLocked (h : Supply sb e P st) (b : Bool) : Supply sb e P (st.setLocked e b) := by
  simp only [Supply, held, current_setLocked, setLocked_self]
  exact h

/-- Entry `e` holds an inode without holes, that is as on the disk and can be
locked. -/
structure Idle (sb : Superblock) (e : Fin NINODE) (st : Store) : Prop where
  ref : 0 < (st.itable e).ref
  valid : (st.itable e).valid = true
  unlocked : (st.itable e).locked = false
  node : Node sb e st
  solid : Solid sb e st
  disk : image sb st.disk = current sb e st

theorem Idle.of_inv {K : Multiset Claim} {ty : Short} (h : Inv sb K st) (hc : (e, some ty) ∈ K)
    (hl : (st.itable e).locked = false) : Idle sb e st where
  ref := h.mem.ref_pos hc
  valid := (h.mem.know hc).1
  unlocked := hl
  node := h.node hc
  solid := h.solid hc
  disk := (h.current_eq hc).symm

theorem Idle.ilock (h : Idle sb e st) : Wp E (ilock sb e) (fun _ st' => st' = st.setLocked e true) st := by
  have href := h.ref
  simp only [Fs.ilock, wp_bind, wp_inode]
  rw [if_neg (by omega), if_neg (by rw [h.unlocked]; decide), if_pos h.valid]
  rfl

/-- Bytes have been put into the content of the inode of entry `e`, from `off` on,
and no other inode has changed. -/
structure Spliced (sb : Superblock) (e : Fin NINODE) (off : Nat) (bs : List Byte) (st st' : Store) : Prop where
  inum : (st'.itable e).inum = (st.itable e).inum
  size : (st'.itable e).size.toNat = max (st.itable e).size.toNat (off + bs.length)
  content : (image sb st'.disk).content (st.itable e).inum =
    splice off bs ((image sb st.disk).content (st.itable e).inum)
  other : ∀ i, i ≠ (st.itable e).inum → (image sb st'.disk).content i = (image sb st.disk).content i

namespace Spliced

variable {bs cs : List Byte}

theorem refl (hoff : off ≤ (st.itable e).size.toNat) : Spliced sb e off [] st st where
  inum := rfl
  size := (Nat.max_eq_left hoff).symm
  content := splice_nil.symm
  other _ _ := rfl

theorem trans (hoff : off ≤ ((image sb st.disk).inode (st.itable e).inum).size.toNat)
    (h : Spliced sb e off bs st st1) (h' : Spliced sb e (off + bs.length) cs st1 st2) :
    Spliced sb e off (bs ++ cs) st st2 where
  inum := h'.inum.trans h.inum
  size := by
    rw [h'.size, h.size, List.length_append]
    omega
  content := by
    rw [← h.inum, h'.content, h.inum, h.content, splice_splice (by rwa [Image.length_content])]
  other i hi := (h'.other i (by rwa [h.inum])).trans (h.other i hi)

theorem setLocked (h : Spliced sb e off bs st st1) (b : Bool) : Spliced sb e off bs st (st1.setLocked e b) where
  inum := by rw [setLocked_self]; exact h.inum
  size := by rw [setLocked_self]; exact h.size
  content := h.content
  other := h.other

/-- The bytes determine all contents. -/
theorem content_eq (h : Spliced sb e off bs st st1) (h' : Spliced sb e off bs st st2) (i : Nat) :
    (image sb st1.disk).content i = (image sb st2.disk).content i := by
  by_cases hi : i = (st.itable e).inum
  · rw [hi, h.content, h'.content]
  · rw [h.other i hi, h'.other i hi]

end Spliced

/-- `writei` with the lock held, and what is there after the lock is released. -/
theorem Idle.writei (L : Layout sb) (h : Idle sb e st) (hoff : off ≤ (st.itable e).size.toNat)
    (hn : off + n ≤ MAXFILE * BSIZE) (hsrc : ∀ k < n, src k ≠ none) (hP : span off n ⊆ P) (hsup : Supply sb e P st) :
    Wp E (Fs.writei sb e src off n) (fun r st' => r = n ∧ 0 < (st'.itable e).ref ∧ (st'.itable e).locked = true ∧
      Idle sb e (st'.setLocked e false) ∧ Supply sb e P (st'.setLocked e false) ∧
      Spliced sb e off (buffer src n) st st') (st.setLocked e true) := by
  have hself := setLocked_self st e true
  have hoff' : off ≤ ((st.setLocked e true).itable e).size.toNat := by rw [hself]; exact hoff
  refine (writei_all L (h.node.setLocked true) hoff' hn hsrc hP (hsup.setLocked true)).mono fun r st' h' => ?_
  obtain ⟨rfl, hst, g⟩ := h'
  obtain ⟨a, s, hs, he⟩ := hst.self
  rw [hself] at hs he
  have hcontent := hst.content (h.solid.setLocked true) hoff'
  have hother (i : Nat) := hst.content_other (i := i) g
  rw [current_setLocked, ← h.disk, ← hst.disk, hself] at hcontent
  simp only [current_setLocked, ← h.disk, ← hst.disk, hself] at hother
  refine ⟨rfl, by rw [he]; exact h.ref, by rw [he], ⟨?_, ?_, ?_, hst.node.setLocked false,
    (hst.solid (h.solid.setLocked true) hoff').setLocked false, ?_⟩,
    (g.supply (subset_refl P) (hsup.setLocked true)).setLocked false, ?_⟩
  · rw [setLocked_self, he]; exact h.ref
  · rw [setLocked_self, he]; exact h.valid
  · rw [setLocked_self]
  · rw [current_setLocked]; exact hst.disk
  · exact ⟨by rw [he], by rw [he, length_buffer]; exact hs, hcontent, hother⟩

/-- The loop of `filewrite` writes what is left of the buffer. -/
theorem filewriteFrom_spliced (L : Layout sb) {f : Fin NFILE} {fuel i : Nat} {s : State}
    (h : Idle sb (s.ftable f).ip s.store) (hoff : (s.ftable f).off ≤ (s.store.itable (s.ftable f).ip).size.toNat)
    (hi : i ≤ n) (hn : (s.ftable f).off + (n - i) ≤ MAXFILE * BSIZE) (hsrc : ∀ k < n, src k ≠ none)
    (hP : span (s.ftable f).off (n - i) ⊆ P) (hsup : Supply sb (s.ftable f).ip P s.store) (hfuel : n ≤ i + fuel) :
    Wp E (filewriteFrom sb f src n fuel i) (fun r s' => r = n ∧
      s'.ftable = update s.ftable f { s.ftable f with off := (s.ftable f).off + (n - i) } ∧
      Spliced sb (s.ftable f).ip (s.ftable f).off (buffer (fun k => src (i + k)) (n - i)) s.store s'.store) s := by
  -- nothing is left
  have hdone {i : Nat} {s : State} (hoff : (s.ftable f).off ≤ (s.store.itable (s.ftable f).ip).size.toNat)
      (hin : i = n) : i = n ∧
      s.ftable = update s.ftable f { s.ftable f with off := (s.ftable f).off + (n - i) } ∧
      Spliced sb (s.ftable f).ip (s.ftable f).off (buffer (fun k => src (i + k)) (n - i)) s.store s.store := by
    rw [hin, Nat.sub_self]
    exact ⟨rfl, (update_eq_self ..).symm, .refl hoff⟩
  induction fuel generalizing i s with
  | zero => exact hdone hoff (by omega)
  | succ fuel ih =>
    refine wp_ite (fun hlt => ?_) fun hge => hdone hoff (by omega)
    generalize hm : min (n - i) filewriteMax = m
    have hpos : 0 < m := by simp only [filewriteMax, MAXOPBLOCKS, BSIZE] at hm; omega
    simp only [wp_bind, wp_file, wp_fs]
    refine h.ilock.mono fun _ st1 h1 => ?_
    subst h1
    refine (h.writei L hoff (by omega) (fun k hk => hsrc _ (by omega))
      ((span_subset (Nat.le_refl _) (by omega)).trans hP) hsup).mono fun r st2 h2 => ?_
    obtain ⟨rfl, href, hlock, hI, hsup2, hspl⟩ := h2
    rw [if_pos (by omega)]
    simp only [wp_setFile, iunlock, wp_bind, wp_inode]
    rw [if_neg (by rw [hlock]; simp; omega), wp_setInode, if_neg (not_not_intro rfl)]
    let s3 : State := { s with
      store := st2.setLocked (s.ftable f).ip false
      ftable := update s.ftable f { s.ftable f with off := (s.ftable f).off + m } }
    have hf : s3.ftable f = { s.ftable f with off := (s.ftable f).off + m } := update_self ..
    have hself := setLocked_self st2 (s.ftable f).ip false
    have hrest := ih (i := i + m) (s := s3)
    simp only [hf] at hrest
    refine (hrest hI ?_ (by omega) (by omega) ?_ hsup2 (by omega)).mono fun r s' h' => ?_
    · rw [hself, hspl.size, length_buffer]
      omega
    · exact (span_subset (by omega) (by omega)).trans hP
    · obtain ⟨hr, hft, hspl'⟩ := h'
      have hleft : n - i = m + (n - (i + m)) := by omega
      refine ⟨hr, ?_, ?_⟩
      · rw [hft, update_idem, hleft, Nat.add_assoc]
      · rw [hleft, buffer_add]
        simp only [← Nat.add_assoc]
        refine (hspl.setLocked false).trans ?_ (by rw [length_buffer]; exact hspl')
        rw [h.disk, current_inode_self]
        exact hoff

/-- All the iterations of `filewrite` do what one call of `writei` does for the
whole buffer. -/
theorem filewrite_eq_writei (L : Layout sb) {f : Fin NFILE} {s : State} (hty : (s.ftable f).type = .inode)
    (hw : (s.ftable f).writable = true) (h : Idle sb (s.ftable f).ip s.store) (src : Nat → Option Byte) {n : BitVec 32}
    (hn₀ : 0 ≤ n.toInt) (hoff : (s.ftable f).off ≤ (s.store.itable (s.ftable f).ip).size.toNat)
    (hn : (s.ftable f).off + n.toNat ≤ MAXFILE * BSIZE) (hsrc : ∀ k < n.toNat, src k ≠ none)
    (hsup : Supply sb (s.ftable f).ip (span (s.ftable f).off n.toNat) s.store) (drv : Option Int) :
    ∃ s' st', filewrite sb f src n drv s = .ok (n.toInt, s') ∧
      s'.ftable = update s.ftable f { s.ftable f with off := (s.ftable f).off + n.toNat } ∧
      writei sb (s.ftable f).ip src (s.ftable f).off n.toNat (s.store.setLocked (s.ftable f).ip true) =
        .ok (n.toNat, st') ∧
      (s'.store.itable (s.ftable f).ip).size = (st'.itable (s.ftable f).ip).size ∧
      ∀ i, (image sb s'.store.disk).content i = (image sb st'.disk).content i ∧
        ((image sb s'.store.disk).inode i).size = ((image sb st'.disk).inode i).size := by
  have hnat : n.toInt.toNat = n.toNat := by
    rw [BitVec.toInt_eq_toNat_cond] at hn₀ ⊢
    split at hn₀ <;> omega
  have hwrite : Wp (fun _ => False) (writei sb (s.ftable f).ip src (s.ftable f).off n.toNat) _
      (s.store.setLocked (s.ftable f).ip true) := h.writei L hoff hn hsrc (subset_refl _) hsup
  obtain ⟨r, st', hrun, rfl, -, -, -, -, hone⟩ := hwrite.exists_ok
  have hfile : Wp (fun _ => False) (filewrite sb f src n drv) (fun r s' => r = n.toInt ∧
      s'.ftable = update s.ftable f { s.ftable f with off := (s.ftable f).off + n.toNat } ∧
      Spliced sb (s.ftable f).ip (s.ftable f).off (buffer src n.toNat) s.store s'.store) s := by
    simp only [filewrite, wp_bind, wp_file]
    rw [if_neg (by rw [hw]; decide), hty, hnat]
    have hloop := filewriteFrom_spliced (E := fun _ => False) L h hoff (Nat.zero_le n.toNat) hn hsrc (subset_refl _)
      hsup (Nat.zero_add n.toNat).ge
    simp only [Nat.sub_zero, Nat.zero_add] at hloop
    refine hloop.bind fun i s' h' => ?_
    obtain ⟨rfl, hft, hspl⟩ := h'
    refine ⟨if_pos ?_, by rw [hft, hty], hspl⟩
    omega
  obtain ⟨r', s', hrun', rfl, hft, hall⟩ := hfile.exists_ok
  refine ⟨s', st', hrun', hft, hrun, BitVec.eq_of_toNat_eq (hall.size.trans hone.size.symm), fun i => ?_⟩
  have hc := hall.content_eq hone i
  refine ⟨hc, BitVec.eq_of_toNat_eq ?_⟩
  rw [← Image.length_content, hc, Image.length_content]

/-- A write of one byte to the file that `badwrite` leaves. -/
theorem filewrite_eq_writei_badwrite : ∃ s, Run (step smallSb) (boot smallDisk) badwrite s ∧
    ∃ s' st', filewrite smallSb 0 (fun _ => some 0x78) 1 none s = .ok (1, s') ∧ (s'.ftable 0).off = 1 ∧
      writei smallSb (s.ftable 0).ip (fun _ => some 0x78) 0 1 (s.store.setLocked (s.ftable 0).ip true) = .ok (1, st') ∧
      ∀ i, (image smallSb s'.store.disk).content i = (image smallSb st'.disk).content i := by
  obtain ⟨s, hr, hty, hw, hl, hoff, hheld⟩ := exists_run (step smallSb) (boot smallDisk) badwrite
    (Q := fun s => (s.ftable 0).type = .inode ∧ (s.ftable 0).writable = true ∧
      (s.store.itable (s.ftable 0).ip).locked = false ∧ (s.ftable 0).off = 0 ∧
      held smallSb (s.ftable 0).ip s.store (place 0) ≠ 0) (by decide +kernel)
  obtain ⟨ty, hs⟩ := run_held smallDisk_consistent hr
  have hf : ((s.ftable 0).ip, some (ty 0)) ∈ 0 + s.claims ty := Held.mem_file (by simp [hty])
  have hsup : Supply smallSb (s.ftable 0).ip (span (s.ftable 0).off (1 : BitVec 32).toNat) s.store := by
    rw [hoff, span_eq_need (by decide) (by decide)]
    exact supply_of_held hheld
  obtain ⟨s', st', hrun, hft, hone, -, hall⟩ := filewrite_eq_writei smallDisk_consistent.layout hty hw
    (.of_inv hs.inv hf hl) (fun _ => some 0x78) (n := 1) (by decide) (by rw [hoff]; exact Nat.zero_le _)
    (by rw [hoff]; decide) (fun _ _ => nofun) hsup none
  rw [hoff] at hft hone
  exact ⟨s, hr, s', st', hrun, by rw [hft, update_self]; rfl, hone, fun i => (hall i).1⟩

end Xv6.Fs
