import Xv6.Framework.Splice
import Xv6.Fs.Owned

/-!
# Files as arrays of bytes

The content of an inode is the list of the bytes below its size. `writei`
replaces a part of the content of one inode (`Stored.content`) and leaves that
of every other (`Stored.content_other`); `readi` delivers a part of it.
-/

namespace Xv6.Fs

open Framework List Image
open Log (BlockNo Block bytes)

/-- The bytes of inode `i` below its size. -/
def Image.content (im : Image) (i : Nat) : List Byte :=
  (range (im.inode i).size.toNat).map fun x => (im.byte i x).getD 0

/-- The first `n` bytes of a buffer. -/
def buffer (src : Nat → Option Byte) (n : Nat) : List Byte := (range n).map fun k => (src k).getD 0

@[simp]
theorem Image.length_content (im : Image) (i : Nat) : (im.content i).length = (im.inode i).size.toNat := by
  rw [content, length_map, length_range]

@[simp]
theorem length_buffer (src : Nat → Option Byte) (n : Nat) : (buffer src n).length = n := by
  rw [buffer, length_map, length_range]

variable {i x : Nat}

theorem Image.getElem?_content {im : Image} (h : x < (im.inode i).size.toNat) :
    (im.content i)[x]? = some ((im.byte i x).getD 0) := by
  rw [content, getElem?_map, getElem?_range h, Option.map_some]

theorem getElem?_buffer {src : Nat → Option Byte} {n k : Nat} (h : k < n) :
    (buffer src n)[k]? = some ((src k).getD 0) := by
  rw [buffer, getElem?_map, getElem?_range h, Option.map_some]

variable {sb : Superblock} {st st' : Store} {e : Fin NINODE} {E : Stop → Prop} {P : Finset Place}
variable {src : Nat → Option Byte} {dst : Nat → Bool} {off n : Nat}

/-! ## Writing -/

theorem Stored.size (h : Stored sb e src n off st n st') :
    ((current sb e st').inode (st.itable e).inum).size.toNat = max (st.itable e).size.toNat (off + n) := by
  obtain ⟨a, s, hs, he⟩ := h.self
  have hi : (st'.itable e).inum = (st.itable e).inum := by rw [he]
  rw [← hi, current_inode_self, he]
  exact hs

/-- What is written replaces a part of the content. -/
theorem Stored.content (h : Stored sb e src n off st n st') (hS : Solid sb e st)
    (hoff : off ≤ (st.itable e).size.toNat) :
    (current sb e st').content (st.itable e).inum =
      splice off (buffer src n) ((current sb e st).content (st.itable e).inum) := by
  have hlen : ((current sb e st).content (st.itable e).inum).length = (st.itable e).size.toNat := by
    rw [length_content, current_inode_self]
  refine ext_getElem? fun k => ?_
  rw [getElem?_splice (by rwa [hlen]), length_buffer]
  by_cases hk : k < max (st.itable e).size.toNat (off + n)
  · rw [getElem?_content (by rwa [h.size])]
    by_cases hnew : off ≤ k ∧ k < off + n
    · obtain ⟨v, hv, hb⟩ := h.wrote (k := k - off) (by omega)
      rw [Nat.add_sub_cancel' hnew.1] at hb
      rw [if_pos hnew, getElem?_buffer (by omega), hb, hv]
    · rw [if_neg hnew, getElem?_content (by rw [current_inode_self]; omega)]
      by_cases hM : k / BSIZE < MAXFILE
      · have hb := byte_eq hM (hS _ hM ((Nat.div_mul_le_self k BSIZE).trans_lt (by omega)))
        rw [hb, h.keep (by omega) hb]
      · simp [byte, block, hM]
  · rw [if_neg (by omega), getElem?_eq_none (by rw [length_content, h.size]; omega),
      getElem?_eq_none (by omega)]

/-- A byte of another inode that is not there stays away. -/
theorem Grown.byte_none (g : Grown sb e P st st') (hi : i ≠ (st.itable e).inum)
    (hx : (current sb e st).byte i x = none) : (current sb e st').byte i x = none := by
  rw [byte, Option.map_eq_none_iff, block, ite_eq_right_iff] at hx ⊢
  rintro ⟨hn, hr⟩
  by_cases h0 : (current sb e st).ref (i, place (x / BSIZE)) = 0
  · exact absurd (g.new h0 hr).1 hi
  · cases hx ⟨hn, h0⟩

theorem Stored.content_other {tot : Nat} (h : Stored sb e src n off st tot st') (g : Grown sb e P st st')
    (hi : i ≠ (st.itable e).inum) : (current sb e st').content i = (current sb e st).content i := by
  rw [Image.content, Image.content, h.inode hi]
  refine map_congr_left fun x _ => ?_
  cases hx : (current sb e st).byte i x with
  | none => rw [g.byte_none hi hx]
  | some v => rw [h.keep (.inl hi) hx]

/-- `writei` writes all of a buffer that is mapped, if there are enough blocks. -/
theorem writei_all (L : Layout sb) (h : Node sb e st) (hoff : off ≤ (st.itable e).size.toNat)
    (hn : off + n ≤ MAXFILE * BSIZE) (hsrc : ∀ k < n, src k ≠ none) (hP : span off n ⊆ P) (hsup : Supply sb e P st) :
    Wp E (writei sb e src off n) (fun r st' => r = n ∧ Stored sb e src n off st n st' ∧ Grown sb e P st st') st := by
  have hlt : n < 2 ^ 32 := by simp only [MAXFILE, NDIRECT, NINDIRECT, BSIZE] at hn; omega
  refine (writei_stored L h hP (.inl hsup) hlt).mono fun r st' h' => ?_
  obtain ⟨hbad, -⟩ | ⟨tot, rfl, hst, g, hall⟩ := h'
  · omega
  · obtain rfl := hall hsrc
    exact ⟨rfl, hst, g⟩

/-! ## Reading -/

theorem readi_none (hbad : (st.itable e).size.toNat < off ∨ 2 ^ 32 ≤ off + n) (hn : n < 2 ^ 32) :
    readi sb e dst off n st = .ok ((0, []), st) := by
  have hlt := (st.itable e).size.isLt
  have hwp : Wp (fun _ => False) (readi sb e dst off n) (fun r st' => r = (0, []) ∧ st' = st) st := by
    simp only [readi, wp_bind, wp_inode]
    rw [if_pos (by omega)]
    exact ⟨rfl, rfl⟩
  obtain ⟨r, st', hrun, rfl, rfl⟩ := hwp.exists_ok
  exact hrun

/-! ## Both -/

/-- An inode without holes is an array of bytes for `writei` and `readi`. -/
theorem inode_array (L : Layout sb) (h : Node sb e st) (hS : Solid sb e st)
    (hM : (st.itable e).size.toNat ≤ MAXFILE * BSIZE) :
    (∀ (src : Nat → Option Byte) (off n : Nat), off ≤ (st.itable e).size.toNat → off + n ≤ MAXFILE * BSIZE →
      (∀ k < n, src k ≠ none) → Supply sb e (span off n) st →
      ∃ st', writei sb e src off n st = .ok (n, st') ∧
        (current sb e st').content (st.itable e).inum =
          splice off (buffer src n) ((current sb e st).content (st.itable e).inum) ∧
        (st'.itable e).size.toNat = max (st.itable e).size.toNat (off + n) ∧
        ∀ i, i ≠ (st.itable e).inum → (current sb e st').content i = (current sb e st).content i) ∧
    ∀ (dst : Nat → Bool) (off n : Nat), n < 2 ^ 32 → (∀ a < min n ((st.itable e).size.toNat - off), dst a = true) →
      ∃ bs, readi sb e dst off n st = .ok ((bs.length, bs), st) ∧
        bs = if (st.itable e).size.toNat < off ∨ 2 ^ 32 ≤ off + n then []
          else (((current sb e st).content (st.itable e).inum).drop off).take n := by
  refine ⟨fun src off n hoff hn hsrc hsup => ?_, fun dst off n hn hdst => ?_⟩
  · have hwp : Wp (fun _ => False) (writei sb e src off n) _ st :=
      writei_all L h hoff hn hsrc (subset_refl _) hsup
    obtain ⟨r, st', hrun, rfl, hst, g⟩ := hwp.exists_ok
    refine ⟨st', hrun, hst.content hS hoff, ?_, fun i hi => hst.content_other g hi⟩
    obtain ⟨a, s, hs, he⟩ := hst.self
    rw [he]
    exact hs
  · by_cases hbad : (st.itable e).size.toNat < off ∨ 2 ^ 32 ≤ off + n
    · exact ⟨[], readi_none hbad hn, by rw [if_pos hbad]⟩
    rw [if_neg hbad]
    have hwp : Wp (fun _ => False) (readi sb e dst off n) _ st :=
      readi_node h (SolidTo.mono hS (Nat.min_le_right ..)) (by omega) (.inl hM)
    obtain ⟨r, st', hrun, rfl, ⟨-, a, ha, hd⟩ | ⟨hr, hlen⟩, hread⟩ := hwp.exists_ok
    · rw [hdst a ha] at hd
      cases hd
    refine ⟨r.2, by rw [← hr]; exact hrun, ext_getElem? fun k => ?_⟩
    have hlen := hlen (by omega)
    by_cases hk : k < r.2.length
    · obtain ⟨hx, hb⟩ := hread k _ (getElem?_eq_getElem hk)
      rw [getElem?_take_of_lt (by omega), getElem?_drop, getElem?_content hx, hb,
        getElem?_eq_getElem hk, Option.getD_some]
    · rw [getElem?_eq_none (by omega), getElem?_eq_none]
      rw [length_take, length_drop, length_content, current_inode_self]
      omega

/-- The file that `badwrite` leaves has a block and no content. -/
theorem inode_array_badwrite : ∃ s, Run (step smallSb) (boot smallDisk) badwrite s ∧
    (s.store.itable (s.ftable 0).ip).size = 0 ∧
    ∃ st', writei smallSb (s.ftable 0).ip (fun _ => some 0x78) 0 1 s.store = .ok (1, st') ∧
      (current smallSb (s.ftable 0).ip st').content (s.store.itable (s.ftable 0).ip).inum = [0x78] := by
  obtain ⟨s, hr, hty, hsize, hheld⟩ := exists_run (step smallSb) (boot smallDisk) badwrite
    (Q := fun s => (s.ftable 0).type = .inode ∧ (s.store.itable (s.ftable 0).ip).size = 0 ∧
      held smallSb (s.ftable 0).ip s.store (place 0) ≠ 0) (by decide +kernel)
  obtain ⟨ty, hs⟩ := run_held smallDisk_consistent hr
  have hf : ((s.ftable 0).ip, some (ty 0)) ∈ 0 + s.claims ty := Held.mem_file (by simp [hty])
  have hM : (s.store.itable (s.ftable 0).ip).size.toNat ≤ MAXFILE * BSIZE := by rw [hsize]; decide
  have hsup : Supply smallSb (s.ftable 0).ip (span 0 1) s.store := by
    rw [span_eq_need (by decide) (by decide)]
    exact supply_of_held hheld
  obtain ⟨st', hrun, hc, -⟩ := (inode_array smallDisk_consistent.layout (hs.inv.node hf) (hs.inv.solid hf) hM).1
    (fun _ => some 0x78) 0 1 (Nat.zero_le _) (by decide) (fun _ _ => nofun) hsup
  have hnil : (current smallSb (s.ftable 0).ip s.store).content (s.store.itable (s.ftable 0).ip).inum = [] := by
    rw [← length_eq_zero_iff, length_content, current_inode_self]
    exact congrArg BitVec.toNat hsize
  rw [hnil] at hc
  exact ⟨s, hr, hsize, st', hrun, hc⟩

end Xv6.Fs
