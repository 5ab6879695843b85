import Xv6.Fs.Name
import Xv6.Fs.Write

/-!
# Directory entries

What the bytes of a directory mean: `Image.slot` is the inode number and the
name in a slot that is in use. Names are compared up to the first NUL and to
`DIRSIZ` bytes (`namecmp_eq_zero`), and stored that far (`cut_strncpy`). An
entry is read as it is (`readDirent_wp`), and a write of an entry changes one
slot (`Image.slot_write`).
-/

namespace Xv6.Fs

open Framework List
open Log (BlockNo Block)

/-! ## Names -/

/-- What `namecmp` sees of a name: its bytes before the first NUL, `DIRSIZ` at
most. -/
def cut (name : List Byte) : List Byte := (name.take DIRSIZ).takeWhile (· ≠ 0)

theorem takeWhile_take_succ (n : Nat) (p : List Byte) : (p.take (n + 1)).takeWhile (· ≠ 0) =
    if p.headD 0 = 0 then [] else p.headD 0 :: (p.tail.take n).takeWhile (· ≠ 0) := by
  cases p with
  | nil => rfl
  | cons c p =>
    rw [take_succ_cons, takeWhile_cons]
    by_cases hc : c = 0 <;> simp [hc]

theorem strncmp_eq_zero {n : Nat} {p q : List Byte} :
    strncmp n p q = 0 ↔ (p.take n).takeWhile (· ≠ 0) = (q.take n).takeWhile (· ≠ 0) := by
  induction n generalizing p q with
  | zero => simp [strncmp]
  | succ n ih =>
    rw [strncmp, takeWhile_take_succ, takeWhile_take_succ]
    generalize p.headD 0 = a, q.headD 0 = b
    by_cases ha : a = 0
    · -- the first name ends here
      rw [if_neg (fun h => h.1 ha), if_pos ha, ha]
      by_cases hb : b = 0
      · simp [hb]
      · have : b.toNat ≠ 0 := fun h => hb (BitVec.eq_of_toNat_eq h)
        rw [if_neg hb]
        exact iff_of_false (by simpa using this) (cons_ne_nil _ _).symm
    · by_cases hab : a = b
      · subst hab
        simp only [ne_eq, ha, not_false_eq_true, and_self, ↓reduceIte, List.cons.injEq, true_and, ih]
      · have : a.toNat ≠ b.toNat := fun h => hab (BitVec.eq_of_toNat_eq h)
        simp only [ne_eq, hab, and_false, ↓reduceIte, ha]
        refine iff_of_false (by omega) ?_
        split <;> simp [hab]

theorem namecmp_eq_zero {s t : List Byte} : namecmp s t = 0 ↔ cut s = cut t := strncmp_eq_zero

theorem takeWhile_strncpy (n : Nat) (t : List Byte) :
    (strncpy n t).takeWhile (· ≠ 0) = (t.take n).takeWhile (· ≠ 0) := by
  induction n generalizing t with
  | zero => rfl
  | succ n ih =>
    rw [strncpy, takeWhile_take_succ]
    by_cases h : t.headD 0 = 0
    · rw [if_pos h, if_pos h]
      rfl
    · rw [if_neg h, if_neg h, takeWhile_cons, if_pos (by simpa using h), ih]

theorem strncpy_length (n : Nat) (t : List Byte) : (strncpy n t).length = n := by
  induction n generalizing t with
  | zero => rfl
  | succ n ih =>
    rw [strncpy]
    split
    · exact length_replicate
    · rw [length_cons, ih]

theorem cut_strncpy (name : List Byte) : cut (strncpy DIRSIZ name) = cut name := by
  rw [cut, take_of_length_le (strncpy_length ..).le, takeWhile_strncpy, cut]

theorem cut_append_zeros (name : List Byte) (n : Nat) : cut (name ++ replicate n 0) = cut name := by
  have hzeros (m : Nat) : (replicate m (0 : Byte)).takeWhile (· ≠ 0) = [] := by cases m <;> rfl
  rw [cut, take_append, take_replicate, takeWhile_append, hzeros, append_nil, cut]
  split
  · rename_i h
    exact (( takeWhile_prefix _).eq_of_length h).symm
  · rfl

theorem cut_take (name : List Byte) : cut (name.take DIRSIZ) = cut name := by rw [cut, take_take, Nat.min_self, cut]

/-! ## Slots -/

/-- The inode number and the name of an entry that is in use. -/
def Dirent.entry (de : Dirent) : Option (Nat × List Byte) :=
  if de.inum = 0 then none else some (de.inum.toNat, cut de.name)

theorem Dirent.entry_ofBytes (de : Dirent) : (Dirent.ofBytes de.toBytes).entry = de.entry := by
  have hinum : (Dirent.ofBytes de.toBytes).inum = de.inum := by
    have := de.inum.isLt
    apply BitVec.eq_of_toNat_eq
    simp only [ofBytes, toBytes, cons_append, nil_append, getD_cons_zero, getD_cons_succ, BitVec.toNat_ofNat]
    omega
  have hname : cut (Dirent.ofBytes de.toBytes).name = cut de.name := by
    simp only [ofBytes, toBytes, cons_append, nil_append, drop_succ_cons, drop_zero]
    rw [cut_take, cut_take, cut_append_zeros]
  rw [entry, hinum, hname, entry]

theorem Dirent.toBytes_length (de : Dirent) : de.toBytes.length = DIRENT := by
  rw [toBytes, length_append, length_take, length_append, length_replicate, Nat.min_eq_left (Nat.le_add_left ..)]
  rfl

namespace Image

/-- The entry in slot `k` of directory `d`. -/
def dirent (im : Image) (d k : Nat) : Dirent :=
  Dirent.ofBytes ((List.range DIRENT).map fun j => (im.byte d (DIRENT * k + j)).getD 0)

/-- The inode number and the name in slot `k` of directory `d`, if there is such
a slot and it is in use. -/
def slot (im : Image) (d k : Nat) : Option (Nat × List Byte) :=
  if DIRENT * k + DIRENT ≤ (im.inode d).size.toNat then (im.dirent d k).entry else none

variable {im im' : Image} {d d' k : Nat}

theorem dirent_congr (h : ∀ j < DIRENT, im'.byte d' (DIRENT * k + j) = im.byte d (DIRENT * k + j)) :
    im'.dirent d' k = im.dirent d k := by
  refine congrArg Dirent.ofBytes (map_congr_left fun j hj => ?_)
  rw [h j (mem_range.mp hj)]

theorem dirent_of_bytes {vs : List Byte} (hl : vs.length = DIRENT)
    (h : ∀ j < DIRENT, im.byte d (DIRENT * k + j) = vs[j]?) : im.dirent d k = Dirent.ofBytes vs := by
  refine congrArg Dirent.ofBytes (ext_getElem ?_ fun j h1 h2 => ?_)
  · rw [length_map, length_range, hl]
  · rw [getElem_map, getElem_range, h j (hl ▸ h2), List.getElem?_eq_getElem h2, Option.getD_some]

/-- A new entry, in a slot of the directory or at its end. -/
theorem slot_write {de : Dirent} (hdvd : DIRENT ∣ (im.inode d).size.toNat) (hk : DIRENT * k ≤ (im.inode d).size.toNat)
    (hsome : ∀ x < (im.inode d).size.toNat, (im.byte d x).isSome)
    (hsize : (im'.inode d).size.toNat = max (im.inode d).size.toNat (DIRENT * k + DIRENT))
    (hkeep : ∀ x v, x < DIRENT * k ∨ DIRENT * k + DIRENT ≤ x → im.byte d x = some v → im'.byte d x = some v)
    (hwrote : ∀ j < DIRENT, im'.byte d (DIRENT * k + j) = de.toBytes[j]?) :
    im'.slot d = Function.update (im.slot d) k de.entry := by
  funext k'
  obtain ⟨n, hn⟩ := hdvd
  have hD : DIRENT = 16 := rfl
  rw [hn, hD] at hk
  rw [hn, hD] at hsize
  by_cases e : k' = k
  · rw [e, Function.update_self, slot, if_pos (by rw [hsize, hD]; omega), dirent_of_bytes de.toBytes_length hwrote,
      Dirent.entry_ofBytes]
  · rw [Function.update_of_ne e, slot, slot, hsize, hn, hD]
    by_cases hk' : k' < n
    · rw [if_pos (by omega), if_pos (by omega)]
      refine congrArg Dirent.entry (dirent_congr fun j hj => ?_)
      rw [hD] at hj ⊢
      obtain ⟨v, hv⟩ := Option.isSome_iff_exists.mp (hsome (16 * k' + j) (by rw [hn, hD]; omega))
      rw [hv]
      exact hkeep _ v (by rw [hD]; omega) hv
    · rw [if_neg (by omega), if_neg (by omega)]

end Image

variable {sb : Superblock} {st st' : Store} {e : Fin NINODE} {E : Stop → Prop}

/-- `readDirent` reads the entry of a slot, or fails where there is none. -/
theorem readDirent_wp (h : Node sb e st) {k : Nat} (hs : SolidTo sb e st (DIRENT * k + DIRENT))
    (hM : (st.itable e).size.toNat ≤ MAXFILE * BSIZE ∨ E (.panic "bmap: out of range")) {msg : String}
    (hk : DIRENT * k + DIRENT ≤ (st.itable e).size.toNat ∨ E (.panic msg)) :
    Wp E (readDirent sb e (DIRENT * k) msg) (fun de st' => st' = st ∧
      DIRENT * k + DIRENT ≤ (st.itable e).size.toNat ∧ de = (current sb e st).dirent (st.itable e).inum k) st := by
  refine (readi_node h (hs.mono (Nat.min_le_left ..)) (by decide) hM).bind fun r st1 h1 => ?_
  obtain ⟨rfl, hr, hread⟩ := h1
  have hlt := (st1.itable e).size.isLt
  have hlen : r.1 = r.2.length := by
    obtain ⟨-, a, -, ha⟩ | hr := hr
    · cases ha
    · exact hr.1
  refine wp_ite (fun hne => hk.resolve_left fun hle => hne ?_) fun heq => ⟨rfl, ?_⟩
  · -- the 16 bytes are there
    obtain ⟨-, a, -, ha⟩ | hr := hr
    · cases ha
    · rw [hlen, hr.2 (by omega)]
      simp only [DIRENT, DIRSIZ] at hle ⊢
      omega
  · have hlen : r.2.length = DIRENT := by omega
    have hbyte (j : Nat) (hj : j < DIRENT) := hread j _ (List.getElem?_eq_getElem (hlen ▸ hj))
    have hlast := (hbyte (DIRENT - 1) (by decide)).1
    rw [current_inode_self] at hlast
    refine ⟨by simp only [DIRENT, DIRSIZ] at hlast ⊢; omega, (Image.dirent_of_bytes hlen fun j hj => ?_).symm⟩
    rw [(hbyte j hj).2, List.getElem?_eq_getElem (hlen ▸ hj)]

theorem Solid.byte_isSome (h : Solid sb e st) (hM : (st.itable e).size.toNat ≤ MAXFILE * BSIZE) {x : Nat}
    (hx : x < (st.itable e).size.toNat) : ((current sb e st).byte (st.itable e).inum x).isSome := by
  have hdiv : x / BSIZE < MAXFILE := Nat.div_lt_of_lt_mul (by rw [Nat.mul_comm]; omega)
  have := Nat.div_mul_le_self x BSIZE
  rw [Image.byte_eq hdiv (h _ hdiv (by omega)), Option.isSome_some]

end Xv6.Fs
