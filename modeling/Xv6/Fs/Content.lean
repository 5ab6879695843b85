import Xv6.Fs.Trunc

/-!
# Contents of files

`bmap`, and `readi` and `writei` on top of it. `bmap` records a new block in
the in-memory inode or in the indirect block: `Extended` says that blocks were
added to an inode and that no contents changed, and `Grown` in which places
they are. There is a block for each of some places if `Supply` says so. For an
inode without holes, below its size, `bmap` adds nothing (`bmap_mapped`), so
that `readi` changes nothing (`readi_node`).
-/

namespace Xv6.Fs

open Framework Function List Image
open Log (BlockNo Block word setWord bytes)

variable {sb : Superblock} {K : Multiset Claim} {st st' st'' : Store} {e : Fin NINODE} {ty : Short} {E : Stop → Prop}
  {dst : Nat → Bool} {off n bn m i a k off0 : Nat} {p : Place} {P P' : Finset Place} {vs out : List Byte} {im : Image}
  {v : Byte}

/-! ## Blocks -/

/-- Entry `e` holds an allocated inode, and if the inode is as in memory, every
block has one owner. -/
structure Node (sb : Superblock) (e : Fin NINODE) (st : Store) : Prop where
  range : (st.itable e).inum < sb.ninodes
  type : (st.itable e).type ≠ 0
  own : Own sb (current sb e st)

theorem Node.current_type (h : Node sb e st) : ((current sb e st).inode (st.itable e).inum).type ≠ 0 := by
  rw [current_inode_self]
  exact h.type

theorem Dirty.node (h : Dirty sb K e st) (hc : (e, some ty) ∈ K) : Node sb e st where
  range := h.mem.range (h.mem.ref_pos hc)
  type := by
    have := h.mem.type_ne_zero hc
    rwa [current_inode_self] at this
  own := h.own

theorem Inv.node (h : Inv sb K st) (hc : (e, some ty) ∈ K) : Node sb e st := (h.dirty hc).node hc

/-- A change of the inode of entry `e` that is in memory only. -/
theorem Mem.of_table (h : Mem sb K (current sb e st).inode st.itable) (hc : (e, some ty) ∈ K) {dn : Dinode}
    (hty : dn.type = (st.itable e).type) (ht : st'.itable = (st.putDinode e dn).itable)
    (hi : (image sb st'.disk).inode = (image sb st.disk).inode) : Mem sb K (current sb e st').inode st'.itable := by
  have hcur : (current sb e st').inode = (current sb e (st.putDinode e dn)).inode := by
    simp only [current, setInode_inode, hi, ht]
    rfl
  rw [hcur, ht]
  exact h.putDinode hc dn hty

/-- Blocks have been added to the inode of entry `e`. -/
structure Extended (sb : Superblock) (e : Fin NINODE) (st st' : Store) : Prop where
  node : Node sb e st'
  table : ∃ a, st'.itable = (st.putDinode e { (st.itable e).toDinode with addrs := a }).itable
  inode : (image sb st'.disk).inode = (image sb st.disk).inode
  block : ∀ {i bn v}, (current sb e st).block i bn = some v → (current sb e st').block i bn = some v

namespace Extended

theorem refl (h : Node sb e st) : Extended sb e st st where
  node := h
  table := ⟨(st.itable e).addrs, (update_eq_self ..).symm⟩
  inode := rfl
  block := id

theorem self (h : Extended sb e st st') : ∃ a, st'.itable e = { st.itable e with addrs := a } := by
  obtain ⟨a, ht⟩ := h.table
  exact ⟨a, by rw [ht, Store.putDinode_self]⟩

theorem inum (h : Extended sb e st st') : (st'.itable e).inum = (st.itable e).inum := by
  obtain ⟨a, he⟩ := h.self
  rw [he]

theorem trans (h : Extended sb e st st') (h' : Extended sb e st' st'') : Extended sb e st st'' where
  node := h'.node
  table := by
    obtain ⟨a, ht⟩ := h.table
    obtain ⟨a', ht'⟩ := h'.table
    refine ⟨a', ?_⟩
    rw [ht', putDinode_itable_congr ht, Store.putDinode_putDinode, ht, Store.putDinode_self]
  inode := h'.inode.trans h.inode
  block hv := h'.block (h.block hv)

end Extended

/-! ## Places that are filled -/

/-- The address in a place of the inode of entry `e`. -/
def held (sb : Superblock) (e : Fin NINODE) (st : Store) (p : Place) : BlockNo :=
  (current sb e st).ref ((st.itable e).inum, p)

/-- Blocks have been put into some of the places `P` of the inode of entry `e`. All
that was logged are the inode, blocks in these places, and the blocks of the
free map for those that are new. -/
structure Grown (sb : Superblock) (e : Fin NINODE) (P : Finset Place) (st st' : Store) : Prop where
  inum : (st'.itable e).inum = (st.itable e).inum
  ref : ∀ {q}, (current sb e st).ref q ≠ 0 → (current sb e st').ref q = (current sb e st).ref q
  new : ∀ {q}, (current sb e st).ref q = 0 → (current sb e st').ref q ≠ 0 → q.1 = (st.itable e).inum ∧ q.2 ∈ P
  used : ∀ d, (image sb st'.disk).used d = (image sb st.disk).used d ∨
    ∃ q, (current sb e st).ref q = 0 ∧ (current sb e st').ref q ≠ 0 ∧ (current sb e st').ref q = d
  logged : ∃ l, st'.logged = st.logged ++ l ∧ ∀ b ∈ l, b = sb.iblock (st.itable e).inum ∨
    ∃ p ∈ P, held sb e st' p ≠ 0 ∧ (b = held sb e st' p ∨ held sb e st p = 0 ∧ b = sb.bblock (held sb e st' p).toNat)

namespace Grown

variable {P P' : Finset Place} {l : List BlockNo}

theorem refl (st : Store) : Grown sb e P st st where
  inum := rfl
  ref _ := rfl
  new h h' := absurd h h'
  used _ := .inl rfl
  logged := ⟨[], (append_nil _).symm, fun _ hb => nomatch hb⟩

theorem held_eq (h : Grown sb e P st st') (hp : held sb e st p ≠ 0) : held sb e st' p = held sb e st p := by
  rw [held, h.inum]
  exact h.ref hp

theorem mono (h : Grown sb e P st st') (hP : P ⊆ P') : Grown sb e P' st st' where
  inum := h.inum
  ref := h.ref
  new hq hq' := ⟨(h.new hq hq').1, hP (h.new hq hq').2⟩
  used := h.used
  logged := by
    obtain ⟨l, hl, hb⟩ := h.logged
    exact ⟨l, hl, fun b hmem => (hb b hmem).imp_right fun ⟨p, hp, hb⟩ => ⟨p, hP hp, hb⟩⟩

theorem trans (h : Grown sb e P st st') (h' : Grown sb e P st' st'') : Grown sb e P st st'' where
  inum := h'.inum.trans h.inum
  ref {q} hq := (h'.ref (by rwa [h.ref hq])).trans (h.ref hq)
  new {q} hq hq'' := by
    by_cases hq' : (current sb e st').ref q = 0
    · exact h.inum ▸ h'.new hq' hq''
    · exact h.new hq hq'
  used d := by
    rcases h'.used d with hd' | ⟨q, hq, hq'', hd⟩
    · rcases h.used d with hd | ⟨q, hq, hq', hd⟩
      · exact .inl (hd'.trans hd)
      · have hq'' := h'.ref hq'
        exact .inr ⟨q, hq, by rwa [hq''], by rwa [hq'']⟩
    · refine .inr ⟨q, by_contra fun hne => ?_, hq'', hd⟩
      rw [h.ref hne] at hq
      exact hne hq
  logged := by
    obtain ⟨l, hl, hb⟩ := h.logged
    obtain ⟨l', hl', hb'⟩ := h'.logged
    refine ⟨l ++ l', by rw [hl', hl, append_assoc], fun b hmem => ?_⟩
    rcases mem_append.mp hmem with hmem | hmem
    · refine (hb b hmem).imp_right ?_
      rintro ⟨p, hp, hne, hbp⟩
      have heq := h'.held_eq hne
      rw [← heq] at hne hbp
      exact ⟨p, hp, hne, hbp⟩
    · rw [← h.inum]
      refine (hb' b hmem).imp_right ?_
      rintro ⟨p, hp, hne, hbp⟩
      refine ⟨p, hp, hne, hbp.imp_right fun ⟨hp', hbp⟩ => ⟨by_contra fun h0 => ?_, hbp⟩⟩
      exact h0 ((h.held_eq h0).symm.trans hp')

/-- A free block is put into a place that is empty. -/
theorem give {b : BlockNo} (hi : (st'.itable e).inum = (st.itable e).inum) (hp : p ∈ P) (h0 : held sb e st p = 0)
    (hb : b ≠ 0) (hr : (current sb e st').ref = update (current sb e st).ref ((st.itable e).inum, p) b)
    (hu : (image sb st'.disk).used = update (image sb st.disk).used b true) (hl : st'.logged = st.logged ++ l)
    (hmem : ∀ c ∈ l, c = sb.bblock b.toNat ∨ c = b ∨ ∃ p' ∈ P, held sb e st p' ≠ 0 ∧ c = held sb e st p') :
    Grown sb e P st st' := by
  have hself : held sb e st' p = b := by rw [held, hi, hr, update_self]
  have hne {p' : Place} (hp' : held sb e st p' ≠ 0) : held sb e st' p' = held sb e st p' := by
    rw [held, hi, hr, update_of_ne, ← held]
    rintro heq
    cases heq
    exact hp' h0
  refine ⟨hi, fun {q} hq => ?_, fun {q} hq hq' => ?_, fun d => ?_, l, hl, fun c hc => .inr ?_⟩
  · rw [hr, update_of_ne]
    rintro rfl
    exact hq h0
  · rw [hr, update_apply] at hq'
    split at hq'
    · rename_i heq
      rw [heq]
      exact ⟨rfl, hp⟩
    · exact absurd hq hq'
  · by_cases hd : d = b
    · exact .inr ⟨((st.itable e).inum, p), h0, by rwa [hr, update_self], by rw [hr, update_self, hd]⟩
    · exact .inl (by rw [hu, update_of_ne hd])
  · rcases hmem c hc with rfl | rfl | ⟨p', hp', hne', rfl⟩
    · exact ⟨p, hp, by rwa [hself], .inr ⟨h0, by rw [hself]⟩⟩
    · exact ⟨p, hp, by rwa [hself], .inl hself.symm⟩
    · exact ⟨p', hp', by rwa [hne hne'], .inl (hne hne').symm⟩

/-- No place has changed. -/
theorem same (hi : (st'.itable e).inum = (st.itable e).inum) (hr : (current sb e st').ref = (current sb e st).ref)
    (hu : (image sb st'.disk).used = (image sb st.disk).used) (hl : st'.logged = st.logged ++ l)
    (hmem : ∀ c ∈ l, c = sb.iblock (st.itable e).inum ∨ ∃ p ∈ P, held sb e st p ≠ 0 ∧ c = held sb e st p) :
    Grown sb e P st st' := by
  have hheld (p : Place) : held sb e st' p = held sb e st p := by rw [held, hi, hr, held]
  refine ⟨hi, fun _ => by rw [hr], fun hq hq' => absurd (hr ▸ hq) hq', fun d => .inl (by rw [hu]), l, hl, fun c hc => ?_⟩
  refine (hmem c hc).imp_right ?_
  rintro ⟨p, hp, hne, hc⟩
  exact ⟨p, hp, by rwa [hheld], .inl (by rw [hheld, hc])⟩

end Grown

/-- There are free blocks for all the places of `P` that are empty. -/
def Supply (sb : Superblock) (e : Fin NINODE) (P : Finset Place) (st : Store) : Prop :=
  ∃ F : Finset BlockNo, (∀ b ∈ F, (image sb st.disk).Free sb b) ∧ (P.filter fun p => held sb e st p = 0).card ≤ F.card

theorem Supply.mono (h : Supply sb e P' st) (hP : P ⊆ P') : Supply sb e P st := by
  obtain ⟨F, hF, hcard⟩ := h
  exact ⟨F, hF, (Finset.card_le_card (Finset.filter_subset_filter _ hP)).trans hcard⟩

theorem Supply.exists_free (h : Supply sb e P st) (hp : p ∈ P)
    (h0 : held sb e st p = 0) : ∃ b, (image sb st.disk).Free sb b := by
  obtain ⟨F, hF, hcard⟩ := h
  have hmem : p ∈ P.filter fun p => held sb e st p = 0 := Finset.mem_filter.mpr ⟨hp, h0⟩
  have hpos := Finset.card_pos.mpr ⟨p, hmem⟩
  obtain ⟨b, hb⟩ := Finset.card_pos.mp (hpos.trans_le hcard)
  exact ⟨b, hF b hb⟩

/-- A block is used up for each place that is filled. -/
theorem Grown.supply (h : Grown sb e P st st') (hP : P ⊆ P') (hs : Supply sb e P' st) :
    Supply sb e P' st' := by
  obtain ⟨F, hF, hcard⟩ := hs
  -- the places that have been filled, and their blocks
  let N := P'.filter fun p => held sb e st p = 0 ∧ held sb e st' p ≠ 0
  refine ⟨F \ N.image (held sb e st'), fun b hb => ?_, ?_⟩
  · obtain ⟨hbF, hbN⟩ := Finset.mem_sdiff.mp hb
    refine ⟨(hF b hbF).1, ?_⟩
    rcases h.used b with hu | ⟨⟨i, p⟩, hq, hq', rfl⟩
    · rw [hu]
      exact (hF b hbF).2
    · obtain ⟨rfl, hp⟩ := h.new hq hq'
      have heq : held sb e st' p = (current sb e st').ref ((st.itable e).inum, p) := by rw [held, h.inum]
      exact absurd (Finset.mem_image.mpr ⟨p, Finset.mem_filter.mpr ⟨hP hp, hq, heq ▸ hq'⟩, heq⟩) hbN
  · have hN : N ⊆ P'.filter fun p => held sb e st p = 0 :=
      fun p hp => Finset.mem_filter.mpr ⟨(Finset.mem_filter.mp hp).1, (Finset.mem_filter.mp hp).2.1⟩
    have hsub : (P'.filter fun p => held sb e st' p = 0) ⊆ (P'.filter fun p => held sb e st p = 0) \ N := by
      intro p hp
      obtain ⟨hp, h0⟩ := Finset.mem_filter.mp hp
      refine Finset.mem_sdiff.mpr ⟨Finset.mem_filter.mpr ⟨hp, by_contra fun hne => ?_⟩, fun hpN => ?_⟩
      · exact hne ((h.held_eq hne).symm.trans h0)
      · exact (Finset.mem_filter.mp hpN).2.2 h0
    have h1 := Finset.card_le_card hsub
    rw [Finset.card_sdiff_of_subset hN] at h1
    have h2 := Finset.le_card_sdiff (N.image (held sb e st')) F
    have h3 : (N.image (held sb e st')).card ≤ N.card := Finset.card_image_le
    omega

theorem held_addr (h : Node sb e st) (k : Fin (NDIRECT + 1)) : held sb e st (.addr k) = (st.itable e).addrs k := by
  rw [held, ref_addr h.current_type, current_inode_self]

theorem bmapAddr_spec (L : Layout sb) (h : Node sb e st) (k : Fin (NDIRECT + 1))
    (hE : (held sb e st (.addr k) = 0 → ∃ b, (image sb st.disk).Free sb b) ∨ E (.panic "balloc: out of blocks")) :
    Wp E (bmapAddr sb e k) (fun b st' => Extended sb e st st' ∧ Grown sb e {.addr k} st st' ∧
      held sb e st' (.addr k) = b ∧ b ≠ 0) st := by
  have ht := h.current_type
  simp only [bmapAddr, wp_bind, wp_inode]
  refine wp_ite (fun h0 => ?_) fun h0 => ⟨.refl h, .refl st, held_addr h k, h0⟩
  rw [← held_addr h] at h0
  rw [wp_bind]
  refine ((balloc_spec L h.own.before (hE.imp_left fun hE => hE h0)).and (balloc_logged L)).mono fun b st1 hb => ?_
  obtain ⟨⟨hs, hu, ht1, him⟩, hlog⟩ := hb
  have hk : ((current sb e st).inode (st.itable e).inum).addrs k = 0 := by
    rwa [current_inode_self, ← held_addr h]
  have hb0 : b ≠ 0 := (h.own.fresh hu hs).1.ne_zero
  have hr := h.own.ref_giveAddr ht hu hs hk
  simp only [wp_bind, wp_setInode, wp_pure]
  rw [← ht1]
  change Extended _ _ _ (st1.putDinode e { (st1.itable e).toDinode with addrs := _ }) ∧ _
  have hcur1 : current sb e st1 = ((current sb e st).setUsed b true).write b fun _ => 0 := by
    simp only [current, him, ht1]
    rfl
  have hcur : current sb e (st1.putDinode e
      { (st1.itable e).toDinode with addrs := update (st1.itable e).addrs k b }) =
      (current sb e st).giveAddr (st.itable e).inum k b := by
    rw [current_putDinode, hcur1, giveAddr, current_inode_self, ht1]
  have hi : ((st1.putDinode e { (st1.itable e).toDinode with addrs := update (st1.itable e).addrs k b }).itable
      e).inum = (st.itable e).inum := by rw [Store.putDinode_self, ht1]
  have hself : held sb e (st1.putDinode e
      { (st1.itable e).toDinode with addrs := update (st1.itable e).addrs k b }) (.addr k) = b := by
    rw [held, hi, hcur, hr, update_self]
  refine ⟨⟨⟨?_, ?_, ?_⟩, ⟨update (st1.itable e).addrs k b, ?_⟩, ?_, fun hv => ?_⟩,
    .give hi (Finset.mem_singleton_self _) h0 hb0 (hcur ▸ hr) ?_ hlog fun c hc => ?_, hself, hb0⟩
  · rw [Store.putDinode_self, ht1]
    exact h.range
  · rw [Store.putDinode_self, ht1]
    exact h.type
  · rw [hcur]
    exact h.own.give_of hu hs (by rw [ref_addr ht, hk]) rfl hr
  · rw [putDinode_itable_congr ht1, ht1]
  · rw [Store.putDinode_disk, him]
    rfl
  · rw [hcur]
    exact h.own.block_giveAddr ht hu hs hk hv
  · rw [Store.putInode_disk, him, write_used, setUsed_used]
  · simp only [mem_cons, not_mem_nil, or_false] at hc
    exact hc.imp_right .inl

/-- The places that the address of the `bn`-th block of a file needs. -/
def need (bn : Nat) : Finset Place := if bn < NDIRECT then {place bn} else {.addr indirect, place bn}

theorem place_mem_need (bn : Nat) : place bn ∈ need bn := by
  rw [need]
  split <;> simp

theorem bmap_spec (L : Layout sb) (h : Node sb e st)
    (hE : Supply sb e (need bn) st ∨ E (.panic "balloc: out of blocks"))
    (hM : bn < MAXFILE ∨ E (.panic "bmap: out of range")) :
    Wp E (bmap sb e bn) (fun b st' => Extended sb e st st' ∧ Grown sb e (need bn) st st' ∧ bn < MAXFILE ∧ b ≠ 0 ∧
      held sb e st' (place bn) = b) st := by
  rw [bmap]
  refine wp_ite (fun hn => ?_) fun hn => wp_ite (fun hn' => ?_) fun hn' => ?_
  · have hneed : need bn = {place bn} := if_pos hn
    have hplace : place bn = .addr (Fin.ofNat _ bn) := if_pos hn
    rw [hneed, hplace] at hE ⊢
    refine (bmapAddr_spec L h _ (hE.imp_left fun hE h0 => hE.exists_free (Finset.mem_singleton_self _) h0)).mono
      fun b st1 h1 => ?_
    exact ⟨h1.1, h1.2.1, Nat.lt_add_right _ hn, h1.2.2.2, h1.2.2.1⟩
  · have hM : bn < MAXFILE := by simp only [MAXFILE]; omega
    have hneed : need bn = {.addr indirect, place bn} := if_neg hn
    have hplace : place bn = .entry (Fin.ofNat _ (bn - NDIRECT)) := if_neg hn
    have hsub : {.addr indirect} ⊆ need bn := by rw [hneed]; simp
    refine (bmapAddr_spec L h indirect (hE.imp_left fun hE h0 => hE.exists_free (hsub (by simp)) h0)).bind
      fun addr st1 h1 => ?_
    obtain ⟨hG, hgr, hb, hb0⟩ := h1
    have ht := hG.node.current_type
    have ha : ((current sb e st1).inode (st1.itable e).inum).addrs indirect = addr := by
      rw [current_inode_self, ← held_addr hG.node, hb]
    have hin : sb.InData addr := by
      rw [← hb]
      exact hG.node.own.inData (by rwa [← held, hb])
    have hent : held sb e st1 (place bn) = word (st1.disk addr) (bn - NDIRECT) := by
      rw [held, hplace, ref_entry ht (by rwa [ha]), ha, current_data e st1 hin, Fin.val_ofNat,
        Nat.mod_eq_of_lt hn']
    have hE1 := hE.imp_left (hgr.supply hsub)
    simp only [wp_bind, wp_bread]
    refine wp_ite (fun h0 => ?_) fun h0 => ?_
    · rw [wp_bind]
      refine ((balloc_spec L hG.node.own.before (hE1.imp_left fun hE =>
        hE.exists_free (place_mem_need bn) (hent.trans h0))).and (balloc_logged L)).mono fun b st2 h2 => ?_
      obtain ⟨⟨hs, hu, ht2, him⟩, hlog⟩ := h2
      simp only [wp_bind, wp_logWrite, wp_pure]
      have hj : word ((current sb e st1).data (((current sb e st1).inode (st1.itable e).inum).addrs indirect))
          (Fin.ofNat NINDIRECT (bn - NDIRECT)) = 0 := by
        rw [← ref_entry ht (by rwa [ha]), ← hplace, ← held, hent, h0]
      have hcur : current sb e { st2 with
          disk := update st2.disk addr (setWord (st1.disk addr) (bn - NDIRECT) b)
          logged := st2.logged ++ [addr] } =
          (current sb e st1).giveEntry (st1.itable e).inum (Fin.ofNat _ (bn - NDIRECT)) b := by
        rw [giveEntry, ha, current_data e st1 hin, Fin.val_ofNat, Nat.mod_eq_of_lt hn']
        simp only [current, image_writeData L _ hin, him, ht2]
        rfl
      have hr := hG.node.own.ref_giveEntry ht hu hs (by rwa [ha]) hj
      rw [← hplace] at hr
      have hnew : b ≠ 0 := (hG.node.own.fresh hu hs).1.ne_zero
      have hself : held sb e { st2 with
          disk := update st2.disk addr (setWord (st1.disk addr) (bn - NDIRECT) b)
          logged := st2.logged ++ [addr] } (place bn) = b := by
        rw [held, hcur, hr]
        simp [ht2]
      refine ⟨hG.trans ⟨⟨?_, ?_, ?_⟩, ⟨(st1.itable e).addrs, ?_⟩, ?_, fun hv => ?_⟩, (hgr.mono hsub).trans
        (.give (l := [sb.bblock b.toNat, b, addr]) ?_ (place_mem_need bn) (hent.trans h0) hnew (hcur ▸ hr) ?_ ?_
          fun c hc => ?_), hM, hnew, hself⟩
      · rw [ht2]
        exact hG.node.range
      · rw [ht2]
        exact hG.node.type
      · rw [hcur]
        exact hG.node.own.give_of hu hs (hent.trans h0) rfl hr
      · rw [ht2]
        exact (update_eq_self ..).symm
      · rw [image_writeData L _ hin, him]
        rfl
      · rw [hcur]
        exact hG.node.own.block_giveEntry ht hu hs (by rwa [ha]) hj hv
      · rw [ht2]
      · rw [image_writeData L _ hin, him, write_used, write_used, setUsed_used]
      · rw [hlog, append_assoc]
        rfl
      · simp only [mem_cons, not_mem_nil, or_false] at hc
        refine hc.imp_right (Or.imp_right fun hc => ⟨.addr indirect, hsub (by simp), ?_, ?_⟩)
        · rwa [hb]
        · rw [hb, hc]
    · rw [wp_pure]
      exact ⟨hG, hgr.mono hsub, hM, by rwa [← hent] at h0 ⊢, hent⟩
  · rw [wp_panic]
    exact hM.resolve_left (by simp only [MAXFILE]; omega)

/-- A block that is there needs nothing. -/
theorem supply_of_held (h : held sb e st (place bn) ≠ 0) : Supply sb e (need bn) st := by
  refine ⟨∅, fun _ hb => absurd hb (Finset.notMem_empty _), ?_⟩
  rw [Finset.card_empty, Nat.le_zero, Finset.card_eq_zero, Finset.filter_eq_empty_iff]
  intro p hp
  rw [need] at hp
  split at hp
  · rw [Finset.mem_singleton.mp hp]
    exact h
  · rename_i hn
    rcases Finset.mem_insert.mp hp with rfl | hp
    · -- an entry is in an indirect block
      intro h0
      rw [place, if_neg hn] at h
      simp only [held, ref] at h h0
      split at h0 <;> simp_all
    · rw [Finset.mem_singleton.mp hp]
      exact h

/-- `bmap` has blocks for two addresses. -/
def Roomy (sb : Superblock) (st : Store) : Prop :=
  ∃ b c, b ≠ c ∧ (image sb st.disk).Free sb b ∧ (image sb st.disk).Free sb c

theorem Roomy.supply (h : Roomy sb st) (e : Fin NINODE) (bn : Nat) : Supply sb e (need bn) st := by
  obtain ⟨b, c, hne, hb, hc⟩ := h
  refine ⟨{b, c}, ?_, ?_⟩
  · simp only [Finset.mem_insert, Finset.mem_singleton]
    rintro d (rfl | rfl)
    · exact hb
    · exact hc
  · rw [Finset.card_pair hne]
    refine (Finset.card_filter_le ..).trans ?_
    rw [need]
    split
    · exact Nat.le_succ 1
    · exact Finset.card_le_two

/-- A block that is there is found. -/
theorem bmap_mapped (h : Node sb e st) (hn : bn < MAXFILE)
    (hr : (current sb e st).ref ((st.itable e).inum, place bn) ≠ 0) :
    Wp E (bmap sb e bn) (fun b st' => b = (current sb e st).ref ((st.itable e).inum, place bn) ∧ st' = st) st := by
  have ht := h.current_type
  rw [bmap]
  refine wp_ite (fun hn => ?_) fun hn' => ?_
  · rw [place, if_pos hn, ref_addr ht, current_inode_self] at hr ⊢
    simp only [bmapAddr, wp_bind, wp_inode]
    rw [if_neg hr]
    exact ⟨rfl, rfl⟩
  · have hlt : bn - NDIRECT < NINDIRECT := by simp only [MAXFILE] at hn; omega
    rw [place, if_neg hn'] at hr ⊢
    rw [if_pos hlt]
    have ha : ((current sb e st).inode (st.itable e).inum).addrs indirect ≠ 0 := by
      intro h0
      exact hr (by simp only [ref, h0, or_true, ↓reduceIte])
    have hin : sb.InData ((st.itable e).addrs indirect) := by
      rw [← current_inode_self sb, ← ref_addr ht]
      exact h.own.inData (by rwa [ref_addr ht])
    rw [ref_entry ht ha, current_inode_self, current_data e st hin, Fin.val_ofNat, Nat.mod_eq_of_lt hlt] at hr ⊢
    rw [current_inode_self] at ha
    simp only [bmapAddr, wp_bind, wp_inode]
    rw [if_neg ha]
    simp only [wp_pure, wp_bread]
    rw [if_neg hr]
    exact ⟨rfl, rfl⟩

/-! ## Reading -/

theorem Image.byte_eq {x : Nat} (hn : x / BSIZE < MAXFILE) (hr : im.ref (i, place (x / BSIZE)) ≠ 0) :
    im.byte i x = some (bytes (im.data (im.ref (i, place (x / BSIZE)))) (x % BSIZE)) := by
  rw [byte, block, if_pos ⟨hn, hr⟩, Option.map_some]

theorem copyout_getElem? (h : (copyout dst a vs)[k]? = some v) : vs[k]? = some v := by
  induction vs generalizing a k with
  | nil => exact h
  | cons w vs ih =>
    simp only [copyout] at h
    split at h
    · cases k with
      | zero => exact h
      | succ k => exact ih h
    · cases h

theorem takeBytes_getElem? {data : Block} {o : Nat} (h : (takeBytes data o m)[k]? = some v) :
    k < m ∧ bytes data (o + k) = v := by
  simp only [takeBytes, List.getElem?_map, Option.map_eq_some_iff] at h
  obtain ⟨j, hj, rfl⟩ := h
  obtain ⟨hk, rfl⟩ := List.getElem?_eq_some_iff.mp hj
  rw [length_range] at hk
  exact ⟨hk, by rw [getElem_range]⟩

/-- The bytes `out` are those of the file from `off` on. -/
def ReadFrom (im : Image) (i off : Nat) (out : List Byte) : Prop :=
  ∀ k v, out[k]? = some v → off + k < (im.inode i).size.toNat ∧ im.byte i (off + k) = some v

/-- One block of a read. -/
theorem ReadFrom.append (h : ReadFrom im i off0 out) (ho : off = off0 + out.length) (hm : off % BSIZE + m ≤ BSIZE)
    (hs : off + m ≤ (im.inode i).size.toNat) (hn : off / BSIZE < MAXFILE) (hr : im.ref (i, place (off / BSIZE)) ≠ 0)
    (hvs : ∀ k v, vs[k]? = some v → k < m ∧ bytes (im.data (im.ref (i, place (off / BSIZE)))) (off % BSIZE + k) = v) :
    ReadFrom im i off0 (out ++ vs) := by
  intro k v hk
  rw [List.getElem?_append] at hk
  split at hk
  · exact h k v hk
  · obtain ⟨hlt, rfl⟩ := hvs _ v hk
    have hx : off0 + k = off + (k - out.length) := by omega
    generalize k - out.length = j at *
    have hdiv : (off + j) / BSIZE = off / BSIZE := by simp only [BSIZE] at *; omega
    have hmod : (off + j) % BSIZE = off % BSIZE + j := by simp only [BSIZE] at *; omega
    rw [hx]
    refine ⟨by omega, ?_⟩
    rw [byte_eq (by rwa [hdiv]) (by rwa [hdiv]), hdiv, hmod]

theorem copyout_eq (h : ∀ k < vs.length, dst (a + k) = true) :
    copyout dst a vs = vs := by
  induction vs generalizing a with
  | nil => rfl
  | cons v vs ih =>
    have h0 : dst a = true := h 0 (Nat.succ_pos _)
    rw [copyout, if_pos h0, ih fun k hk => ?_]
    rw [Nat.add_assoc, Nat.add_comm 1 k]
    exact h (k + 1) (Nat.succ_lt_succ hk)

/-- No block below offset `m` of the inode of entry `e` is missing. -/
def SolidTo (sb : Superblock) (e : Fin NINODE) (st : Store) (m : Nat) : Prop :=
  ∀ bn, bn < MAXFILE → bn * BSIZE < m → (current sb e st).ref ((st.itable e).inum, place bn) ≠ 0

/-- No block below the size of the inode of entry `e` is missing. -/
def Solid (sb : Superblock) (e : Fin NINODE) (st : Store) : Prop := SolidTo sb e st (st.itable e).size.toNat

theorem SolidTo.mono {m' : Nat} (h : SolidTo sb e st m) (hle : m' ≤ m) : SolidTo sb e st m' :=
  fun bn hn hlt => h bn hn (hlt.trans_le hle)

theorem Inv.solid (h : Inv sb K st) (hc : (e, some ty) ∈ K) : Solid sb e st := by
  intro bn hn hlt
  have ht := (h.node hc).current_type
  rw [h.current_eq hc] at ht ⊢
  refine h.full _ bn ht hn ?_
  rwa [← h.current_eq hc, current_inode_self]

theorem readiLoop_spec (h : Node sb e st) (hs : SolidTo sb e st (off0 + n))
    (hE : (st.itable e).size.toNat ≤ MAXFILE * BSIZE ∨ E (.panic "bmap: out of range"))
    (hle : off0 + n ≤ (st.itable e).size.toNat) {fuel tot : Nat} (hn : tot ≤ n) (hfuel : n ≤ tot + fuel)
    (ho : off = off0 + tot) (hl : out.length = tot) (hout : ReadFrom (current sb e st) (st.itable e).inum off0 out) :
    Wp E (readiLoop sb e dst n fuel tot off out) (fun r st' => st' = st ∧
      (r.1 = -1 ∧ (∃ a < n, dst a = false) ∨ r.1 = n ∧ r.2.length = n) ∧
      ReadFrom (current sb e st) (st.itable e).inum off0 r.2) st := by
  have hsize : ((current sb e st).inode (st.itable e).inum).size = (st.itable e).size := by rw [current_inode_self]
  induction fuel generalizing tot off out with
  | zero =>
    obtain rfl : tot = n := by omega
    exact ⟨rfl, .inr ⟨rfl, hl⟩, hout⟩
  | succ fuel ih =>
    rw [readiLoop]
    refine wp_ite (fun hlt => ?_) fun hge => ?_
    · by_cases hM : off / BSIZE < MAXFILE
      · -- no holes: the block is there
        have hr : (current sb e st).ref ((st.itable e).inum, place (off / BSIZE)) ≠ 0 := by
          refine hs _ hM ?_
          have := Nat.div_mul_le_self off BSIZE
          omega
        refine (bmap_mapped h hM hr).bind fun b st1 h1 => ?_
        obtain ⟨rfl, rfl⟩ := h1
        simp only [wp_bind, wp_bread]
        have hm : off % BSIZE + min (n - tot) (BSIZE - off % BSIZE) ≤ BSIZE := by
          have := Nat.mod_lt off (show 0 < BSIZE by decide)
          omega
        have hpos := chunk_pos off hlt
        rw [← current_data e st1 (h.own.inData hr)]
        generalize hvs : copyout dst tot (takeBytes _ _ _) = vs
        have happ : ReadFrom (current sb e st1) (st1.itable e).inum off0 (out ++ vs) :=
          hout.append (by omega) hm (by rw [hsize]; omega) hM hr fun k v hk =>
            takeBytes_getElem? (copyout_getElem? (hvs ▸ hk))
        refine wp_ite (fun hlen => ?_) fun hlen => ⟨rfl, .inl ⟨rfl, ?_⟩, happ⟩
        · refine ih (by omega) (by omega) (by omega) ?_ happ
          rw [length_append, hl, hlen]
        · by_contra hall
          simp only [not_exists, not_and, Bool.not_eq_false] at hall
          have htake (data : Block) (o m : Nat) : (takeBytes data o m).length = m := by
            rw [takeBytes, length_map, length_range]
          rw [copyout_eq fun k hk => hall _ (by rw [htake] at hk; omega)] at hvs
          exact hlen (by rw [← hvs, htake])
      · -- the panic of `bmap`
        rw [bmap, if_neg (by simp only [MAXFILE] at hM; omega), if_neg (by simp only [MAXFILE] at hM; omega)]
        refine hE.resolve_left fun hsz => hM ?_
        exact Nat.div_lt_of_lt_mul (by rw [Nat.mul_comm]; omega)
    · obtain rfl : tot = n := by omega
      exact ⟨rfl, .inr ⟨rfl, hl⟩, hout⟩

/-- `readi` changes nothing, and reads what is there up to the size of the file, if
the buffer is mapped. It stops only where a file is too large to be mapped. -/
theorem readi_node (h : Node sb e st) (hs : SolidTo sb e st (min (off + n) (st.itable e).size.toNat)) (hn : n < 2 ^ 32)
    (hE : (st.itable e).size.toNat ≤ MAXFILE * BSIZE ∨ E (.panic "bmap: out of range")) :
    Wp E (readi sb e dst off n) (fun r st' => st' = st ∧ (r.1 = -1 ∧
      (∃ a < min n ((st.itable e).size.toNat - off), dst a = false) ∨ r.1 = r.2.length ∧
      (off + n < 2 ^ 32 → r.2.length = min n ((st.itable e).size.toNat - off))) ∧
      ReadFrom (current sb e st) (st.itable e).inum off r.2) st := by
  have hlt := (st.itable e).size.isLt
  have hnil : ReadFrom (current sb e st) (st.itable e).inum off [] := by
    intro k v hk
    cases hk
  simp only [readi, wp_bind, wp_inode]
  refine wp_ite (fun hbad => ⟨rfl, .inr ⟨rfl, fun hsum => ?_⟩, hnil⟩) fun hno => ?_
  · rw [Nat.mod_eq_of_lt hsum] at hbad
    rw [length_nil]
    omega
  · refine (readiLoop_spec h (hs.mono ?_) hE ?_ (Nat.zero_le _) (by omega) rfl rfl hnil).mono fun r st' h' => ?_
    · split <;> omega
    · split <;> omega
    · obtain ⟨rfl, hr, hread⟩ := h'
      refine ⟨rfl, hr.imp (fun hr => ⟨hr.1, ?_⟩) fun hr => ⟨by rw [hr.1, hr.2], fun hsum => ?_⟩, hread⟩
      · obtain ⟨a, ha, hd⟩ := hr.2
        refine ⟨a, ?_, hd⟩
        split at ha <;> omega
      · rw [hr.2, Nat.mod_eq_of_lt hsum]
        split <;> omega

theorem readi_wp (hE : E (.panic "bmap: out of range")) (h : Inv sb K st) (hc : (e, some ty) ∈ K) (hn : n < 2 ^ 32) :
    Wp E (readi sb e dst off n) (fun r st' => st' = st ∧ (r.1 = -1 ∨ r.1 = r.2.length) ∧
      ReadFrom (image sb st.disk) (st.itable e).inum off r.2) st := by
  refine (readi_node (h.node hc) (SolidTo.mono (h.solid hc) (Nat.min_le_right ..)) hn (.inr hE)).mono fun r st' h' => ?_
  rw [h.current_eq hc] at h'
  exact ⟨h'.1, h'.2.1.imp (·.1) (·.1), h'.2.2⟩

theorem readi_spec (h : Inv sb K st) (hc : (e, some ty) ∈ K) (hn : n < 2 ^ 32) :
    Wp Safe (readi sb e dst off n) (fun r st' => st' = st ∧ (r.1 = -1 ∨ r.1 = r.2.length) ∧
      ReadFrom (image sb st.disk) (st.itable e).inum off r.2) st :=
  readi_wp (by simp) h hc hn

end Xv6.Fs
