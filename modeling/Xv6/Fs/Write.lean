import Xv6.Fs.Content

/-!
# Writing

`writei` copies a block at a time and writes the inode at the end. `Put` is
what holds in between: `tot` bytes are in the file, and nothing outside the
range to be written has changed, also if a part of the user buffer is not
mapped. `writei_spec` follows; a directory keeps entries that carry inode
numbers of the disk if the whole of such an entry is written. What is then on
the disk is `Stored`, in the places that `span` lists (`writei_stored`).
-/

namespace Xv6.Fs

open Framework Function Image Store
open Log (BlockNo Block bytes)

variable {sb : Superblock} {K : Multiset Claim} {st st1 st2 : Store} {e : Fin NINODE} {ty : Short} {E : Stop → Prop}
  {a m : Nat} {vs : List Byte}

/-! ## Copying -/

theorem copyin_length_le (src : Nat → Option Byte) (a m : Nat) : (copyin src a m).length ≤ m := by
  induction m generalizing a with
  | zero => exact Nat.le_refl _
  | succ m ih =>
    simp only [copyin]
    split
    · exact Nat.zero_le _
    · exact Nat.succ_le_succ (ih _)

theorem copyin_getElem? (src : Nat → Option Byte) {k : Nat} {v : Byte} (h : (copyin src a m)[k]? = some v) :
    src (a + k) = some v := by
  induction m generalizing a k with
  | zero => cases h
  | succ m ih =>
    simp only [copyin] at h
    split at h
    · cases h
    · rename_i w hw
      cases k with
      | zero =>
        rw [List.getElem?_cons_zero, Option.some.injEq] at h
        rw [← h]
        exact hw
      | succ k =>
        rw [← ih h]
        congr 1
        omega

/-- A copy that stops early has met an address that is not mapped. -/
theorem copyin_short {src : Nat → Option Byte} (h : (copyin src a m).length ≠ m) :
    ∃ k < a + m, src k = none := by
  induction m generalizing a with
  | zero => exact absurd rfl h
  | succ m ih =>
    rw [copyin] at h
    cases hs : src a with
    | none => exact ⟨a, by omega, hs⟩
    | some v =>
      rw [hs] at h
      obtain ⟨k, hk, hk'⟩ := ih fun hl => h (by rw [List.length_cons, hl])
      exact ⟨k, by omega, hk'⟩

theorem bytes_putBytes {data : Block} {o : Nat} {x : Nat} (hx : x < BSIZE) :
    bytes (putBytes data o vs) x = if o ≤ x then vs.getD (x - o) (bytes data x) else bytes data x :=
  bytes_ofBytes hx

/-! ## The loop -/

/-- `tot` of the `n` bytes from `off` on have been written to the inode of
entry `e`. -/
structure Put (sb : Superblock) (e : Fin NINODE) (src : Nat → Option Byte) (n off : Nat) (st : Store) (tot : Nat)
    (st' : Store) : Prop where
  node : Node sb e st'
  table : ∃ a, st'.itable = (st.putDinode e { (st.itable e).toDinode with addrs := a }).itable
  inode : (image sb st'.disk).inode = (image sb st.disk).inode
  isSome : ∀ {i bn}, ((current sb e st).block i bn).isSome → ((current sb e st').block i bn).isSome
  keep : ∀ {i x v}, i ≠ (st.itable e).inum ∨ x < off ∨ off + n ≤ x → (current sb e st).byte i x = some v →
    (current sb e st').byte i x = some v
  wrote : ∀ {k}, k < tot → ∃ v, src k = some v ∧ (current sb e st').byte (st.itable e).inum (off + k) = some v

variable {src : Nat → Option Byte} {n off0 tot fuel i off : Nat} {im : Image}

namespace Put

theorem refl (h : Node sb e st) : Put sb e src n off0 st 0 st where
  node := h
  table := ⟨(st.itable e).addrs, (update_eq_self ..).symm⟩
  inode := rfl
  isSome := id
  keep _ := id
  wrote hk := absurd hk (Nat.not_lt_zero _)

theorem self (h : Put sb e src n off0 st tot st1) : ∃ a, st1.itable e = { st.itable e with addrs := a } := by
  obtain ⟨a, ht⟩ := h.table
  exact ⟨a, by rw [ht, putDinode_self]⟩

theorem mem (h : Put sb e src n off0 st tot st1) (hm : Mem sb K (current sb e st).inode st.itable)
    (hc : (e, some ty) ∈ K) : Mem sb K (current sb e st1).inode st1.itable := by
  obtain ⟨a, ht⟩ := h.table
  refine hm.of_table hc ?_ ht h.inode
  rfl

/-- Adding blocks is no change of the contents. -/
theorem extended (h : Put sb e src n off0 st tot st1) (hG : Extended sb e st1 st2) :
    Put sb e src n off0 st tot st2 := by
  have hbyte {i x : Nat} {v : Byte} (hv : (current sb e st1).byte i x = some v) :
      (current sb e st2).byte i x = some v := by
    simp only [byte, Option.map_eq_some_iff] at hv ⊢
    obtain ⟨w, hw, hv⟩ := hv
    exact ⟨w, hG.block hw, hv⟩
  refine ⟨hG.node, ?_, hG.inode.trans h.inode, fun hs => ?_, fun hx hv => hbyte (h.keep hx hv), fun hk => ?_⟩
  · obtain ⟨a, ht⟩ := h.table
    obtain ⟨a', ht'⟩ := hG.table
    refine ⟨a', ?_⟩
    rw [ht', putDinode_itable_congr ht, putDinode_putDinode, ht, putDinode_self]
  · obtain ⟨w, hw⟩ := Option.isSome_iff_exists.mp (h.isSome hs)
    rw [hG.block hw, Option.isSome_some]
  · obtain ⟨v, hs, hv⟩ := h.wrote hk
    exact ⟨v, hs, hbyte hv⟩

end Put

/-- New contents of a block of a file. -/
theorem Node.write (L : Layout sb) (h : Node sb e st1) {bn : Nat}
    (hr : (current sb e st1).ref (i, place bn) ≠ 0) {v : Block} (ht : st2.itable = st1.itable)
    (hd : st2.disk = update st1.disk ((current sb e st1).ref (i, place bn)) v) :
    Node sb e st2 ∧ image sb st2.disk = (image sb st1.disk).write ((current sb e st1).ref (i, place bn)) v ∧
      current sb e st2 = (current sb e st1).write ((current sb e st1).ref (i, place bn)) v := by
  have him : image sb st2.disk = (image sb st1.disk).write ((current sb e st1).ref (i, place bn)) v := by
    rw [hd, image_writeData L _ (h.own.inData hr)]
  have hcur : current sb e st2 = (current sb e st1).write ((current sb e st1).ref (i, place bn)) v := by
    simp only [current, him, ht]
    rfl
  refine ⟨⟨?_, ?_, ?_⟩, him, hcur⟩
  · rw [ht]; exact h.range
  · rw [ht]; exact h.type
  · rw [hcur]; exact h.own.write v

/-- Bytes are copied into a block of a file. -/
theorem Own.byte_put (h : Own sb im) (vs : List Byte) (hn : off / BSIZE < MAXFILE)
    (hr : im.ref (i, place (off / BSIZE)) ≠ 0) (hfit : off % BSIZE + vs.length ≤ BSIZE) (i' x : Nat) :
    (im.write (im.ref (i, place (off / BSIZE)))
      (putBytes (im.data (im.ref (i, place (off / BSIZE)))) (off % BSIZE) vs)).byte i' x =
    if i' = i ∧ off ≤ x ∧ x < off + vs.length then vs[x - off]? else im.byte i' x := by
  rw [byte, h.block_write _ hr hn]
  by_cases hb : i' = i ∧ x / BSIZE = off / BSIZE
  · obtain ⟨rfl, hdiv⟩ := hb
    rw [if_pos ⟨rfl, hdiv⟩, Option.map_some, bytes_putBytes (Nat.mod_lt _ (by decide)),
      byte_eq (by rwa [hdiv]) (by rwa [hdiv]), hdiv]
    by_cases hx : off ≤ x ∧ x < off + vs.length
    · have hsub : x % BSIZE - off % BSIZE = x - off := by simp only [BSIZE] at *; omega
      have hlt : x - off < vs.length := by omega
      rw [if_pos (by simp only [BSIZE] at *; omega), if_pos ⟨rfl, hx⟩, hsub, List.getD_eq_getElem?_getD,
        List.getElem?_eq_getElem hlt, Option.getD_some]
    · have hno : ¬ (i' = i' ∧ off ≤ x ∧ x < off + vs.length) := fun h => hx h.2
      rw [if_neg hno]
      split
      · rw [List.getD_eq_getElem?_getD, List.getElem?_eq_none, Option.getD_none]
        simp only [BSIZE] at *
        omega
      · rfl
  · rw [if_neg hb, if_neg fun h => hb ⟨h.1, by simp only [BSIZE] at *; omega⟩, byte]

/-- Bytes of the buffer are copied into a block of the file. -/
theorem Put.put (L : Layout sb) (h : Put sb e src n off0 st tot st1)
    (hvs : ∀ k v, vs[k]? = some v → src (tot + k) = some v) (hlen : tot + vs.length ≤ n)
    (hfit : (off0 + tot) % BSIZE + vs.length ≤ BSIZE) (hn : (off0 + tot) / BSIZE < MAXFILE)
    (hr : (current sb e st1).ref ((st.itable e).inum, place ((off0 + tot) / BSIZE)) ≠ 0)
    (ht : st2.itable = st1.itable)
    (hd : st2.disk = update st1.disk
      ((current sb e st1).ref ((st.itable e).inum, place ((off0 + tot) / BSIZE)))
      (putBytes (st1.disk ((current sb e st1).ref ((st.itable e).inum, place ((off0 + tot) / BSIZE))))
        ((off0 + tot) % BSIZE) vs)) {tot' : Nat} (htot : tot' ≤ tot + vs.length) :
    Put sb e src n off0 st tot' st2 := by
  obtain ⟨hD, him, hcur⟩ := h.node.write L hr ht hd
  have hbyte := h.node.own.byte_put vs hn hr hfit
  rw [current_data e st1 (h.node.own.inData hr), ← hcur] at hbyte
  -- a byte outside the range copied is as it was
  have hkeep {i x : Nat} {v : Byte} (hx : i ≠ (st.itable e).inum ∨ x < off0 + tot ∨ off0 + tot + vs.length ≤ x)
      (hv : (current sb e st1).byte i x = some v) : (current sb e st2).byte i x = some v := by
    rw [hbyte, if_neg (by omega), hv]
  -- a byte in the range is that of the buffer
  have hput {k : Nat} (hk : k < vs.length) :
      ∃ v, src (tot + k) = some v ∧ (current sb e st2).byte (st.itable e).inum (off0 + (tot + k)) = some v := by
    have hg : vs[k]? = some (vs.get ⟨k, hk⟩) := List.getElem?_eq_getElem hk
    refine ⟨vs.get ⟨k, hk⟩, hvs k _ hg, ?_⟩
    rw [hbyte, if_pos ⟨rfl, by omega, by omega⟩, ← Nat.add_assoc, Nat.add_sub_cancel_left, hg]
  refine ⟨hD, ?_, ?_, fun {i bn} hs => ?_, fun hx hv => hkeep (by omega) (h.keep hx hv), fun {k} hk => ?_⟩
  · obtain ⟨a, ha⟩ := h.table
    exact ⟨a, ht.trans ha⟩
  · rw [him]; exact h.inode
  · rw [hcur, h.node.own.block_write _ hr hn]
    split
    · rfl
    · exact h.isSome hs
  · by_cases hlt : k < tot
    · obtain ⟨v, hs, hv⟩ := h.wrote hlt
      exact ⟨v, hs, hkeep (by omega) hv⟩
    · obtain ⟨j, rfl⟩ := Nat.exists_eq_add_of_le (Nat.not_lt.mp hlt)
      exact hput (by omega)

/-- The places that `n` bytes of a file from `off` on need. -/
def span (off n : Nat) : Finset Place := (Finset.Ico (off / BSIZE) ((off + n + BSIZE - 1) / BSIZE)).biUnion need

theorem need_subset_span (h : tot < n) : need ((off + tot) / BSIZE) ⊆ span off n := by
  refine Finset.subset_biUnion_of_mem need (Finset.mem_Ico.mpr ⟨Nat.div_le_div_right (Nat.le_add_right ..), ?_⟩)
  simp only [BSIZE]
  omega

/-- Bytes that are all in one block. -/
theorem span_eq_need (hn : 0 < n) (hone : off % BSIZE + n ≤ BSIZE) : span off n = need (off / BSIZE) := by
  have hend : (off + n + BSIZE - 1) / BSIZE = off / BSIZE + 1 := by simp only [BSIZE] at *; omega
  rw [span, hend, Nat.Ico_succ_singleton, Finset.singleton_biUnion]

variable {P : Finset Place} {s : BitVec 32}

/-- An iteration of `writei`. -/
theorem writeiLoop_step (L : Layout sb) (h : Put sb e src n off0 st tot st1) (g : Grown sb e P st st1)
    (hlt : tot < n) (hP : need ((off0 + tot) / BSIZE) ⊆ P)
    (hE : Supply sb e P st1 ∨ E (.panic "balloc: out of blocks")) (hM : off0 + n ≤ MAXFILE * BSIZE)
    {Q : Nat × Nat → Store → Prop}
    (hstop : ∀ st2, (∃ k < n, src k = none) → Put sb e src n off0 st tot st2 → Grown sb e P st st2 →
      Q (tot, off0 + tot) st2)
    (hnext : ∀ st2, Put sb e src n off0 st (tot + min (n - tot) (BSIZE - (off0 + tot) % BSIZE)) st2 →
      Grown sb e P st st2 → Wp E (writeiLoop sb e src n fuel (tot + min (n - tot) (BSIZE - (off0 + tot) % BSIZE))
        (off0 + tot + min (n - tot) (BSIZE - (off0 + tot) % BSIZE))) Q st2) :
    Wp E (writeiLoop sb e src n (fuel + 1) tot (off0 + tot)) Q st1 := by
  have hi : (st1.itable e).inum = (st.itable e).inum := by
    obtain ⟨a, he⟩ := h.self
    rw [he]
  have hbn : (off0 + tot) / BSIZE < MAXFILE := Nat.div_lt_of_lt_mul (by rw [Nat.mul_comm]; omega)
  rw [writeiLoop, if_pos hlt]
  refine (bmap_spec L h.node (hE.imp_left fun hs => hs.mono hP) (.inl hbn)).bind fun b st2 h2 => ?_
  obtain ⟨hG, g2, -, hb, hheld⟩ := h2
  have g2 := g.trans (g2.mono hP)
  -- the block is written, and logged or not
  have hwrite {st3 : Store} {v : Block} {l : List BlockNo} (ht : st3.itable = st2.itable)
      (hd : st3.disk = update st2.disk b v) (hl : st3.logged = st2.logged ++ l) (hb' : ∀ c ∈ l, c = b) :
      Grown sb e P st st3 := by
    rw [← hheld] at hd hb hb'
    obtain ⟨-, him, hcur⟩ := hG.node.write L hb ht hd
    refine g2.trans (.same (by rw [ht]) ?_ ?_ hl fun c hc => .inr ⟨_, hP (place_mem_need _), hb, hb' c hc⟩)
    · rw [hcur]
      exact hG.node.own.ref_write v
    · rw [him, write_used]
  have hinum : (st2.itable e).inum = (st.itable e).inum := hG.inum.trans hi
  rw [held, hinum] at hheld
  subst hheld
  simp only [wp_bind, wp_bread]
  have hfit := Nat.mod_lt (off0 + tot) (show 0 < BSIZE by decide)
  have hl := copyin_length_le src tot (min (n - tot) (BSIZE - (off0 + tot) % BSIZE))
  have hvs (k : Nat) (v : Byte) :=
    copyin_getElem? src (a := tot) (m := min (n - tot) (BSIZE - (off0 + tot) % BSIZE)) (k := k) (v := v)
  refine wp_ite (fun hm => ?_) fun hm => ?_
  · rw [wp_bind, wp_logWrite]
    refine hnext _ ((h.extended hG).put L hvs ?_ ?_ hbn hb ?_ ?_ ?_) (hwrite rfl rfl rfl (by simp))
    · omega
    · omega
    · rfl
    · rfl
    · rw [hm]
  · rw [wp_bind, wp_setBlock]
    refine hstop _ ?_ ((h.extended hG).put L hvs ?_ ?_ hbn hb ?_ ?_ ?_)
      (hwrite rfl rfl (List.append_nil _).symm (by simp))
    · obtain ⟨k, hk, hk'⟩ := copyin_short hm
      exact ⟨k, by omega, hk'⟩
    · omega
    · omega
    · rfl
    · rfl
    · exact Nat.le_add_right ..

/-- The loop of `writei` stops early only if a part of the buffer is not mapped. -/
theorem writeiLoop_spec (L : Layout sb) (hP : span off0 n ⊆ P)
    (hE : Supply sb e P st ∨ E (.panic "balloc: out of blocks")) (hM : off0 + n ≤ MAXFILE * BSIZE)
    (h : Put sb e src n off0 st tot st1) (g : Grown sb e P st st1) (hn : tot ≤ n) (hfuel : n ≤ tot + fuel) :
    Wp E (writeiLoop sb e src n fuel tot (off0 + tot)) (fun r st' => Put sb e src n off0 st r.1 st' ∧
      r.2 = off0 + r.1 ∧ r.1 ≤ n ∧ Grown sb e P st st' ∧ ((∀ k < n, src k ≠ none) → r.1 = n)) st1 := by
  induction fuel generalizing tot st1 with
  | zero => exact ⟨h, rfl, hn, g, fun _ => by omega⟩
  | succ fuel ih =>
    by_cases hlt : tot < n
    · refine writeiLoop_step L h g hlt ((need_subset_span hlt).trans hP) (hE.imp_left (g.supply (subset_refl P))) hM
        (fun st2 hno h2 g2 => ⟨h2, rfl, hn, g2, fun hsrc => ?_⟩) fun st2 h2 g2 => ?_
      · obtain ⟨k, hk, hk'⟩ := hno
        exact absurd hk' (hsrc k hk)
      · have hpos := chunk_pos (off0 + tot) hlt
        rw [Nat.add_assoc]
        exact ih h2 g2 (by omega) (by omega)
    · rw [writeiLoop, if_neg hlt]
      exact ⟨h, rfl, hn, g, fun _ => by omega⟩

/-! ## The whole of it -/

/-- The inode number in an entry of a directory that is written. -/
def EntryOk (sb : Superblock) (src : Nat → Option Byte) : Prop :=
  ∀ lo hi, src 0 = some lo → src 1 = some hi → lo.toNat + 256 * hi.toNat < sb.ninodes

/-- What was written of a file, with the size it then has, is written to the
disk. -/
theorem Put.written (L : Layout sb) (h : Inv sb K st) (hc : (e, some ty) ∈ K) (hW : Put sb e src n off0 st tot st1)
    (hoff : off0 ≤ (st.itable e).size.toNat) (hs : s.toNat = max (st.itable e).size.toNat (off0 + tot))
    (hdir : ty = T_DIR → n = DIRENT ∧ tot = DIRENT ∧ off0 % DIRENT = 0 ∧ EntryOk sb src) :
    Wp Safe (iupdate sb e) (fun _ => Inv sb K) (st1.putDinode e { (st1.itable e).toDinode with size := s }) := by
  obtain ⟨a, he⟩ := hW.self
  have hm := hW.mem (h.dirty hc).mem hc
  have ht1 := hW.node.current_type
  have ht : ((current sb e st).inode (st.itable e).inum).type ≠ 0 := (h.dirty hc).mem.type_ne_zero hc
  have hfull : Full (current sb e st) := by rw [h.current_eq hc]; exact h.full
  have hdirs : Dirs sb (current sb e st) := by rw [h.current_eq hc]; exact h.dirs
  have hi : (st1.itable e).inum = (st.itable e).inum := by rw [he]
  have hr := ref_setInode_addrs (current sb e st1) { (st1.itable e).toDinode with size := s }
    (by rwa [current_inode_self] at ht1) ht1 (by rw [current_inode_self])
  -- the other inodes are those of the store before
  have hoth {j : Nat} (hj : j ≠ (st.itable e).inum) : (current sb e st1).inode j = (current sb e st).inode j := by
    simp [current, hi, update_of_ne hj, hW.inode]
  refine (iupdate_inv L (hm.putDinode hc { (st1.itable e).toDinode with size := s } rfl) hc ?_ ?_ ?_).mono
    fun _ _ h' => h'.1
  · rw [current_putDinode]
    exact hW.node.own.setInode hr
  · rw [current_putDinode]
    intro i bn ht' hn hlt
    rw [ref_setInode hr]
    refine (block_isSome.mp ?_).2
    by_cases ei : i = (st.itable e).inum
    · subst ei
      rw [setInode_inode, hi, update_self] at hlt
      simp only [hs] at hlt
      by_cases hlt' : bn * BSIZE < (st.itable e).size.toNat
      · exact hW.isSome (hfull.isSome ht hn (by rwa [current_inode_self]))
      · -- beyond the old size everything was written
        obtain ⟨v, -, hv⟩ := hW.wrote (k := bn * BSIZE - off0) (by omega)
        have := block_isSome_of_byte hv
        rwa [show off0 + (bn * BSIZE - off0) = bn * BSIZE by omega, Nat.mul_div_cancel _ (by decide)] at this
    · rw [setInode_inode, hi, update_of_ne ei, hoth ei] at ht' hlt
      exact hW.isSome (hfull.isSome ht' hn hlt)
  · rw [current_putDinode]
    intro i k lo hi' ht' hk hlo hhi
    rw [byte_setInode hr] at hlo hhi
    -- a byte that was not written is that of the store before
    have hback {x : Nat} {v : Byte} (hx : i ≠ (st.itable e).inum ∨ x < off0 ∨ off0 + n ≤ x)
        (hti : ((current sb e st).inode i).type ≠ 0) (hlt : x < ((current sb e st).inode i).size.toNat)
        (hv : (current sb e st1).byte i x = some v) : (current sb e st).byte i x = some v := by
      obtain ⟨w, hw⟩ := hfull.byte hti (block_isSome.mp (block_isSome_of_byte hv)).1 hlt
      rw [hw, ← hv, hW.keep hx hw]
    by_cases ei : i = (st.itable e).inum
    · subst ei
      rw [setInode_inode, hi, update_self] at ht' hk
      simp only [hs] at ht' hk
      obtain ⟨rfl, rfl, hmod, hok⟩ := hdir ((hm.know hc).2.symm.trans ht')
      by_cases hko : 16 * k = off0
      · obtain ⟨v, hv, hb⟩ := hW.wrote (k := 0) (by decide)
        obtain ⟨v', hv', hb'⟩ := hW.wrote (k := 1) (by decide)
        rw [hko] at hlo hhi
        rw [Nat.add_zero, hlo, Option.some.injEq] at hb
        rw [hhi, Option.some.injEq] at hb'
        subst hb hb'
        exact hok _ _ hv hv'
      · have hsz : ((current sb e st).inode (st.itable e).inum).size = (st.itable e).size := by rw [current_inode_self]
        have hlt : 16 * k + 16 ≤ (st.itable e).size.toNat := by simp only [DIRENT, DIRSIZ] at *; omega
        refine hdirs _ k lo hi' ?_ (by rwa [hsz]) (hback ?_ ht (by rw [hsz]; omega) hlo)
          (hback ?_ ht (by rw [hsz]; omega) hhi)
        · rw [current_inode_self, ← ht', he]
        · simp only [DIRENT, DIRSIZ] at *; omega
        · simp only [DIRENT, DIRSIZ] at *; omega
    · rw [setInode_inode, hi, update_of_ne ei, hoth ei] at ht' hk
      have hti : ((current sb e st).inode i).type ≠ 0 := by rw [ht']; decide
      exact hdirs i k lo hi' ht' hk (hback (.inl ei) hti (by omega) hlo) (hback (.inl ei) hti (by omega) hhi)

theorem putDinode_eq_self (st : Store) (e : Fin NINODE) : st.putDinode e (st.itable e).toDinode = st := by
  simp [putDinode, putInode]

theorem writei_fail (hbad : (st.itable e).size.toNat < off ∨ MAXFILE * BSIZE < off + n)
    (hn : n < 2 ^ 32) : Wp E (writei sb e src off n) (fun r st' => r = -1 ∧ st' = st) st := by
  have hlt := (st.itable e).size.isLt
  simp only [writei, wp_bind, wp_inode]
  refine wp_ite (fun _ => ⟨rfl, rfl⟩) fun h1 => ?_
  rw [if_pos (by omega)]
  exact ⟨rfl, rfl⟩

/-- `writei` fails, or comes to the write of the inode with `tot` bytes written:
all of them, if the buffer is mapped. -/
theorem writei_wp (L : Layout sb) (h : Node sb e st) (hP : span off n ⊆ P)
    (hE : Supply sb e P st ∨ E (.panic "balloc: out of blocks")) (hn : n < 2 ^ 32) {Q : Int → Store → Prop}
    (hfail : (st.itable e).size.toNat < off ∨ MAXFILE * BSIZE < off + n → Q (-1) st)
    (hwrote : ∀ (tot : Nat) (st1 : Store) (s : BitVec 32), off ≤ (st.itable e).size.toNat → tot ≤ n →
      Put sb e src n off st tot st1 → s.toNat = max (st.itable e).size.toNat (off + tot) → Grown sb e P st st1 →
      ((∀ k < n, src k ≠ none) → tot = n) →
      Wp E (iupdate sb e) (fun _ => Q tot) (st1.putDinode e { (st1.itable e).toDinode with size := s })) :
    Wp E (writei sb e src off n) Q st := by
  have hlt := (st.itable e).size.isLt
  by_cases hbad : (st.itable e).size.toNat < off ∨ MAXFILE * BSIZE < off + n
  · refine (writei_fail hbad hn).mono fun r st' h' => ?_
    obtain ⟨rfl, rfl⟩ := h'
    exact hfail hbad
  · have hM : off + n ≤ MAXFILE * BSIZE := by omega
    have hsum : off + n < 2 ^ 32 := by simp only [MAXFILE, NDIRECT, NINDIRECT, BSIZE] at hM; omega
    simp only [writei, wp_bind, wp_inode]
    rw [Nat.mod_eq_of_lt hsum, if_neg (by omega), if_neg (by omega), wp_bind]
    refine (writeiLoop_spec L hP hE hM (Put.refl h) (.refl st) (Nat.zero_le _) (Nat.zero_add n).ge).mono
      fun r st1 h1 => ?_
    obtain ⟨hW, hr, hle, g, hall⟩ := h1
    obtain ⟨a, he⟩ := hW.self
    have hsz : (st1.itable e).size = (st.itable e).size := by rw [he]
    simp only [wp_bind, wp_inode]
    refine wp_ite (fun hgt => ?_) fun hle' => ?_
    · refine hwrote r.1 st1 (BitVec.ofNat 32 r.2) (by omega) hle hW ?_ g hall
      rw [BitVec.toNat_ofNat, hr, Nat.mod_eq_of_lt (by omega)]
      rw [hr, hsz] at hgt
      omega
    · have := hwrote r.1 st1 (st1.itable e).size (by omega) hle hW
        (by rw [hr] at hle'; rw [hsz] at hle' ⊢; omega) g hall
      rwa [putDinode_eq_self] at this

/-- `writei` keeps the invariant: for a directory, if a whole entry is written. -/
theorem writei_spec (L : Layout sb) (h : Inv sb K st) (hc : (e, some ty) ∈ K) (hn : n < 2 ^ 32)
    (hdir : ty = T_DIR → n = DIRENT ∧ off % DIRENT = 0 ∧ EntryOk sb src) :
    Wp Safe (writei sb e src off n) (fun r st' => (ty = T_DIR → r = n) → Inv sb K st') st := by
  refine writei_wp L (h.node hc) (subset_refl _) (.inr (by simp)) hn (fun _ _ => h)
    fun tot st1 s hoff hle hW hs _ _ => ?_
  by_cases hd : ty = T_DIR → (tot : Int) = n
  · refine (hW.written L h hc hoff hs fun ht => ?_).mono fun _ _ h' _ => h'
    obtain ⟨hn, hmod, hok⟩ := hdir ht
    exact ⟨hn, by have := hd ht; omega, hmod, hok⟩
  · refine (iupdate_spec L ?_).mono fun _ _ _ hd' => absurd hd' hd
    rw [putDinode_self]
    exact hW.node.range

/-! ## What is on the disk then -/

/-- `tot` bytes have been written to the inode of entry `e`, from `off` on, and
nothing else has changed outside the range of `n` bytes. -/
structure Written (sb : Superblock) (e : Fin NINODE) (src : Nat → Option Byte) (n off : Nat) (st : Store) (tot : Nat)
    (st' : Store) : Prop where
  table : ∃ a s, s.toNat = max (st.itable e).size.toNat (off + tot) ∧
    st'.itable = (st.putDinode e { (st.itable e).toDinode with addrs := a, size := s }).itable
  inode : ∀ {i}, i ≠ (st.itable e).inum → (image sb st'.disk).inode i = (image sb st.disk).inode i
  keep : ∀ {i x v}, i ≠ (st.itable e).inum ∨ x < off ∨ off + n ≤ x → (image sb st.disk).byte i x = some v →
    (image sb st'.disk).byte i x = some v
  wrote : ∀ {k}, k < tot → ∃ v, src k = some v ∧ (image sb st'.disk).byte (st.itable e).inum (off + k) = some v

/-- `tot` bytes have been written to the inode of entry `e` in memory and on the
disk. -/
structure Stored (sb : Superblock) (e : Fin NINODE) (src : Nat → Option Byte) (n off : Nat) (st : Store) (tot : Nat)
    (st' : Store) : Prop where
  node : Node sb e st'
  disk : image sb st'.disk = current sb e st'
  table : ∃ a s, s.toNat = max (st.itable e).size.toNat (off + tot) ∧
    st'.itable = (st.putDinode e { (st.itable e).toDinode with addrs := a, size := s }).itable
  inode : ∀ {i}, i ≠ (st.itable e).inum → (current sb e st').inode i = (current sb e st).inode i
  isSome : ∀ {i bn}, ((current sb e st).block i bn).isSome → ((current sb e st').block i bn).isSome
  keep : ∀ {i x v}, i ≠ (st.itable e).inum ∨ x < off ∨ off + n ≤ x → (current sb e st).byte i x = some v →
    (current sb e st').byte i x = some v
  wrote : ∀ {k}, k < tot → ∃ v, src k = some v ∧ (current sb e st').byte (st.itable e).inum (off + k) = some v

theorem Put.stored (L : Layout sb) (hW : Put sb e src n off st tot st1)
    (hs : s.toNat = max (st.itable e).size.toNat (off + tot)) : Wp E (iupdate sb e)
      (fun _ => Stored sb e src n off st tot) (st1.putDinode e { (st1.itable e).toDinode with size := s }) := by
  obtain ⟨a, ht⟩ := hW.table
  have hi : (st1.itable e).inum = (st.itable e).inum := by rw [ht, putDinode_self]
  refine (iupdate_spec L (by rw [putDinode_self]; exact hW.node.range)).mono fun _ st' h' => ?_
  obtain ⟨ht', him⟩ := h'
  change image sb st'.disk = current sb e (st1.putDinode e _) at him
  have hcur : current sb e st' = current sb e (st1.putDinode e { (st1.itable e).toDinode with size := s }) := by
    rw [current, him, ht', current, setInode_setInode]
  have hdisk : image sb st'.disk = current sb e st' := him.trans hcur.symm
  rw [current_putDinode] at hcur
  have ht1 := hW.node.current_type
  have hr := ref_setInode_addrs (current sb e st1) { (st1.itable e).toDinode with size := s }
    (by rwa [current_inode_self] at ht1) ht1 (by rw [current_inode_self])
  have hblock (i bn : Nat) : (current sb e st').block i bn = (current sb e st1).block i bn := by
    rw [hcur]
    simp only [block, ref_setInode hr]
    rfl
  have hbyte (i x : Nat) : (current sb e st').byte i x = (current sb e st1).byte i x := by
    rw [byte, byte, hblock]
  refine ⟨⟨?_, ?_, ?_⟩, hdisk, ⟨a, s, hs, ?_⟩, fun hne => ?_, fun hv => ?_, fun hx hv => ?_, fun hk => ?_⟩
  · rw [ht', putDinode_self]
    exact hW.node.range
  · rw [ht', putDinode_self]
    exact hW.node.type
  · rw [hcur]
    exact hW.node.own.setInode hr
  · rw [ht', putDinode_itable_congr ht, putDinode_putDinode, ht, putDinode_self]
  · rw [hcur, setInode_inode, hi, update_of_ne hne]
    simp [current, hi, update_of_ne hne, hW.inode]
  · rw [hblock]
    exact hW.isSome hv
  · rw [hbyte]
    exact hW.keep hx hv
  · rw [hbyte]
    exact hW.wrote hk

/-- Writing the inode with a new size fills no place. -/
theorem Grown.iupdate (L : Layout sb) (h : Grown sb e P st st1) (hN : Node sb e st1) (s : BitVec 32) :
    Wp E (Fs.iupdate sb e) (fun _ => Grown sb e P st) (st1.putDinode e { (st1.itable e).toDinode with size := s }) := by
  have ht := hN.current_type
  have hi : ((st1.putDinode e { (st1.itable e).toDinode with size := s }).itable e).inum = (st1.itable e).inum := by
    rw [putDinode_self]
  have hlog : Wp E (Fs.iupdate sb e) (fun _ st' => st'.logged = st1.logged ++ [sb.iblock (st1.itable e).inum])
      (st1.putDinode e { (st1.itable e).toDinode with size := s }) := by
    simp only [Fs.iupdate, wp_bind, wp_inode, wp_bread, wp_logWrite, hi]
    rfl
  refine ((iupdate_spec L (by rw [hi]; exact hN.range)).and hlog).mono fun _ st' h' => ?_
  obtain ⟨⟨ht', him⟩, hlog⟩ := h'
  have hcur : current sb e st' = (current sb e st1).setInode (st1.itable e).inum
      { (st1.itable e).toDinode with size := s } := by
    rw [current, him, ht', setInode_setInode]
    exact current_putDinode ..
  have hr := ref_setInode_addrs (current sb e st1) { (st1.itable e).toDinode with size := s }
    (by rwa [current_inode_self] at ht) ht (by rw [current_inode_self])
  refine h.trans (.same (by rw [ht', hi]) (by rw [hcur, ref_setInode hr]) (by rw [him]; rfl) hlog fun c hc => ?_)
  exact .inl (List.mem_singleton.mp hc)

namespace Stored

variable {off : Nat}

theorem self (h : Stored sb e src n off st tot st1) : ∃ a s, s.toNat = max (st.itable e).size.toNat (off + tot) ∧
    st1.itable e = { st.itable e with addrs := a, size := s } := by
  obtain ⟨a, s, hs, ht⟩ := h.table
  exact ⟨a, s, hs, by rw [ht, putDinode_self]⟩

/-- What is written is below the size, or continues the file. -/
theorem solid (h : Stored sb e src n off st tot st1) (hS : Solid sb e st) (hoff : off ≤ (st.itable e).size.toNat) :
    Solid sb e st1 := by
  obtain ⟨a, s, hs, he⟩ := h.self
  intro bn hn hlt
  rw [he] at hlt ⊢
  simp only [hs] at hlt
  refine (block_isSome.mp ?_).2
  by_cases hlt' : bn * BSIZE < (st.itable e).size.toNat
  · exact h.isSome (block_isSome.mpr ⟨hn, hS bn hn hlt'⟩)
  · obtain ⟨v, -, hv⟩ := h.wrote (k := bn * BSIZE - off) (by omega)
    have := block_isSome_of_byte hv
    rwa [show off + (bn * BSIZE - off) = bn * BSIZE by omega, Nat.mul_div_cancel _ (by decide)] at this

end Stored

theorem writei_written (L : Layout sb) (h : Inv sb K st) (hc : (e, some ty) ∈ K) (hn : n < 2 ^ 32) :
    Wp Safe (writei sb e src off n) (fun r st' => (r = -1 ∧ st' = st) ∨
      ∃ tot : Nat, r = tot ∧ tot ≤ n ∧ off ≤ (st.itable e).size.toNat ∧ Written sb e src n off st tot st') st := by
  refine writei_wp L (h.node hc) (subset_refl _) (.inr (by simp)) hn (fun _ => .inl ⟨rfl, rfl⟩)
    fun tot st1 s hoff hle hW hs _ _ => ?_
  refine (hW.stored L hs).mono fun _ st' h' => .inr ⟨tot, rfl, hle, hoff, h'.table, fun hne => ?_, fun hx hv => ?_,
    fun hk => ?_⟩
  · rw [h'.disk, ← h.current_eq hc]
    exact h'.inode hne
  · rw [h'.disk]
    exact h'.keep hx (by rwa [h.current_eq hc])
  · rw [h'.disk]
    exact h'.wrote hk

/-- What `writei` leaves, if it does not fail. -/
theorem writei_stored (L : Layout sb) (h : Node sb e st) (hP : span off n ⊆ P)
    (hE : Supply sb e P st ∨ E (.panic "balloc: out of blocks")) (hn : n < 2 ^ 32) :
    Wp E (writei sb e src off n) (fun r st' =>
      ((st.itable e).size.toNat < off ∨ MAXFILE * BSIZE < off + n) ∧ r = -1 ∧ st' = st ∨
      ∃ tot : Nat, r = tot ∧ Stored sb e src n off st tot st' ∧ Grown sb e P st st' ∧
        ((∀ k < n, src k ≠ none) → tot = n)) st := by
  refine writei_wp L h hP hE hn (fun hbad => .inl ⟨hbad, rfl, rfl⟩) fun tot st1 s hoff hle hW hs g hall => ?_
  refine ((hW.stored L hs).and (g.iupdate (E := E) L hW.node s)).mono fun _ st' h' => ?_
  exact .inr ⟨tot, rfl, h'.1, h'.2, hall⟩

/-- `writei` of bytes that are all in one block. -/
theorem writei_once (L : Layout sb) (h : Node sb e st) (hn : 0 < n)
    (hE : Roomy sb st ∨ E (.panic "balloc: out of blocks") ∨
      ((current sb e st).block (st.itable e).inum (off / BSIZE)).isSome)
    (hoff : off ≤ (st.itable e).size.toNat) (hM : off + n ≤ MAXFILE * BSIZE) (hone : off % BSIZE + n ≤ BSIZE)
    (hsrc : ∀ k < n, src k ≠ none) :
    Wp E (writei sb e src off n) (fun r st' => r = n ∧ Stored sb e src n off st n st') st := by
  have hE' : Supply sb e (need (off / BSIZE)) st ∨ E (.panic "balloc: out of blocks") := by
    rcases hE with hE | hE | hE
    · exact .inl (hE.supply e _)
    · exact .inr hE
    · exact .inl (supply_of_held (block_isSome.mp hE).2)
  have hlt : n < 2 ^ 32 := by simp only [BSIZE] at hone; omega
  refine (writei_stored L h (span_eq_need hn hone).subset hE' hlt).mono fun r st' h' => ?_
  rcases h' with ⟨hbad, -⟩ | ⟨tot, rfl, h', -, hall⟩
  · omega
  · rw [hall hsrc] at h' ⊢
    exact ⟨rfl, h'⟩

/-- The directories of one image are in the other as they were. -/
def SameDirs (im im' : Image) : Prop :=
  ∀ i, (im.inode i).type = T_DIR → im'.inode i = im.inode i ∧ ∀ x v, im.byte i x = some v → im'.byte i x = some v

theorem SameDirs.refl (im : Image) : SameDirs im im := fun _ _ => ⟨rfl, fun _ _ hv => hv⟩

theorem SameDirs.trans {im' im'' : Image} (h : SameDirs im im') (h' : SameDirs im' im'') : SameDirs im im'' := by
  intro i hi
  obtain ⟨hn, hb⟩ := h i hi
  obtain ⟨hn', hb'⟩ := h' i (by rw [hn]; exact hi)
  exact ⟨hn'.trans hn, fun x v hv => hb' x v (hb x v hv)⟩

/-- A write to an inode that is not a directory. -/
theorem Written.sameDirs (h : Written sb e src n off st tot st1)
    (hne : ((image sb st.disk).inode (st.itable e).inum).type ≠ T_DIR) :
    SameDirs (image sb st.disk) (image sb st1.disk) := by
  intro i hi
  have hi' : i ≠ (st.itable e).inum := fun heq => hne (by rw [← heq]; exact hi)
  exact ⟨h.inode hi', fun x v hv => h.keep (.inl hi') hv⟩

end Xv6.Fs
