import Xv6.Framework.Slots
import Xv6.Fs.Directory
import Xv6.Fs.Owned

/-!
# A directory is a map from names to inode numbers

`dirMap` is the map that the entries of a directory stand for, from names of
`DIRSIZ` bytes at most to inode numbers. No run of changes to a directory gives
a name twice, so that `dirlookup` finds what a name is mapped to, `dirlink`
adds one binding and a cleared entry takes one away (`directory_map`).
-/

namespace Xv6.Fs

open Framework Function
open Log (BlockNo Block)

variable {sb : Superblock} {st st' : Store} {dp e : Fin NINODE} {E : Stop → Prop} {k i : Nat} {name : List Byte}

/-- The inode numbers of the names in a directory. -/
noncomputable def dirMap (sb : Superblock) (dp : Fin NINODE) (st : Store) : List Byte → Option Nat :=
  Slots.lookup (slots sb dp st)

/-! ## Changes -/

/-- Remove a name: the part of `sys_unlink` that is about the directory. -/
def dirunlink (sb : Superblock) (dp : Fin NINODE) (name : List Byte) : M Int := do
  match ← dirlookup sb dp name with
  | none => return -1
  | some (ip, off) => do
    writeDirent sb dp { inum := 0, name := [] } off "unlink: writei"
    iput sb ip
    return 0

/-- A change of a directory. -/
inductive DirOp
  | link (name : List Byte) (inum : Nat)
  | unlink (name : List Byte)

/-- The state after a change that returns. An entry can hold the inode numbers
from 1 to 65535. -/
def dirStep (sb : Superblock) (dp : Fin NINODE) (st : Store) : DirOp → Option Store
  | .link name inum =>
    if 0 < inum ∧ inum < 2 ^ 16 then (dirlink sb dp name inum st).toOption.map Prod.snd else none
  | .unlink name => (dirunlink sb dp name st).toOption.map Prod.snd

theorem dirunlink_wp (name : List Byte) (L : Layout sb) (h : Directory sb dp st)
    (hT : (∃ e, (st.itable e).ref = 0) ∨ E (.panic "iget: no inodes")) :
    Wp E (dirunlink sb dp name) (fun _ st' => Directory sb dp st' ∧
      (slots sb dp st' = slots sb dp st ∨ ∃ k, slots sb dp st' = update (slots sb dp st) k none)) st := by
  rw [dirunlink, wp_bind]
  refine dirlookup_wp h (fun _ => ⟨h, .inl rfl⟩) fun k j hk => (iget_wp hT).mono fun e st1 ht => ?_
  have hu := ht.unchanged h.ref_pos
  refine (clear_wp L (hu.directory h) (by rw [hu.slots_eq, hk]) _).bind fun _ st2 h2 => ?_
  have hkept : 2 ≤ (st2.itable e).ref ∨ (st2.itable e).valid = false := by
    by_cases hne : e = dp
    · subst hne
      rw [h2.ref_eq, ht.held h.ref_pos]
      exact .inl (Nat.succ_le_succ h.ref_pos)
    · rw [h2.other e hne]
      exact ht.kept
  refine (iput_kept hkept).bind fun _ st3 h3 => ?_
  subst h3
  have hu' : Unchanged dp st2 (st2.putInode e { st2.itable e with ref := (st2.itable e).ref - 1 }) := by
    refine ⟨rfl, ?_⟩
    by_cases hne : dp = e
    · subst hne
      refine ⟨_, ?_, update_self ..⟩
      rw [h2.ref_eq, ht.held h.ref_pos]
      exact h.ref_pos
    · exact ⟨_, h2.directory.ref_pos, update_of_ne hne ..⟩
  refine ⟨hu'.directory h2.directory, .inr ⟨k, ?_⟩⟩
  rw [hu'.slots_eq, h2.slots_eq, hu.slots_eq]

/-- The slots of a directory with distinct names, after a change. -/
theorem dirStep_distinct (L : Layout sb) (h : Directory sb dp st) (hd : Slots.Distinct (slots sb dp st)) {op : DirOp}
    (hs : dirStep sb dp st op = some st') : Directory sb dp st' ∧ Slots.Distinct (slots sb dp st') := by
  cases op with
  | link name inum =>
    simp only [dirStep] at hs
    split at hs <;> [skip; cases hs]
    rename_i hi
    have hw := dirlink_wp (E := fun _ => True) name L h (.inr trivial)
      fun _ => ⟨hi, .inr trivial, .inr trivial⟩
    simp only [Wp] at hw
    split at hw
    · rename_i hok
      rw [hok] at hs
      cases hs
      obtain ⟨-, -, hs⟩ | ⟨hnew, -, k, -, -, hent⟩ := hw
      · have hu := hs.unchanged h.ref_pos
        exact ⟨hu.directory h, by rwa [hu.slots_eq]⟩
      · refine ⟨hent.directory, ?_⟩
        rw [hent.slots_eq]
        exact hd.fill (Slots.lookup_eq_none.mpr hnew)
    · rename_i herr
      rw [herr] at hs
      cases hs
  | unlink name =>
    simp only [dirStep] at hs
    have hw := dirunlink_wp (E := fun _ => True) name L h (.inr trivial)
    simp only [Wp] at hw
    split at hw
    · rename_i hok
      rw [hok] at hs
      cases hs
      obtain ⟨hdir, hsl | ⟨k, hsl⟩⟩ := hw
      · exact ⟨hdir, by rwa [hsl]⟩
      · exact ⟨hdir, by rw [hsl]; exact hd.clear⟩
    · rename_i herr
      rw [herr] at hs
      cases hs

/-! ## Operations on the map -/

/-- `iget` panics because every entry of the inode table is in use. -/
def TableFull (st : Store) (r : Stop) : Prop := r = .panic "iget: no inodes" ∧ ∀ e, (st.itable e).ref ≠ 0

/-- A panic for want of an entry of the inode table or of blocks. -/
def Exhausted (sb : Superblock) (st : Store) (r : Stop) : Prop :=
  TableFull st r ∨ r = .panic "balloc: out of blocks" ∧ ¬ Roomy sb st

/-- What the operations do to the directory in entry `dp`, as a map. -/
structure MapOps (sb : Superblock) (dp : Fin NINODE) (st : Store) : Prop where
  /-- No two entries in use have the same name. -/
  unique : ∀ k k', DIRENT * k + DIRENT ≤ (st.itable dp).size.toNat → DIRENT * k' + DIRENT ≤ (st.itable dp).size.toNat →
    ((current sb dp st).dirent (st.itable dp).inum k).inum ≠ 0 →
    ((current sb dp st).dirent (st.itable dp).inum k').inum ≠ 0 →
    namecmp ((current sb dp st).dirent (st.itable dp).inum k).name
      ((current sb dp st).dirent (st.itable dp).inum k').name = 0 → k = k'
  lookup : ∀ name, Wp (TableFull st) (dirlookup sb dp name) (fun r st' =>
    r.map (fun p => (st'.itable p.1).inum) = dirMap sb dp st (cut name) ∧ Unchanged dp st st') st
  present : ∀ name inum, dirMap sb dp st (cut name) ≠ none →
    Wp (TableFull st) (dirlink sb dp name inum) (fun r st' => r = -1 ∧ Same st st') st
  /-- A new name is entered in the first free slot, or at the end. -/
  absent : ∀ name inum, dirMap sb dp st (cut name) = none → 0 < inum → inum < 2 ^ 16 →
    ((Finset.range MAXENTRIES).filter fun k => (slots sb dp st k).isSome).card < MAXENTRIES →
    Wp (Exhausted sb st) (dirlink sb dp name inum) (fun r st' => r = 0 ∧
      dirMap sb dp st' = update (dirMap sb dp st) (cut name) (some inum) ∧
      ∃ k, slots sb dp st k = none ∧ (∀ k' < k, slots sb dp st k' ≠ none) ∧
        slots sb dp st' = update (slots sb dp st) k (some (inum, cut name)) ∧
        (st'.itable dp).size.toNat = max (st.itable dp).size.toNat (DIRENT * k + DIRENT)) st
  clear : ∀ name e off st', dirlookup sb dp name st = .ok (some (e, off), st') →
    Wp (fun _ => False) (writeDirent sb dp { inum := 0, name := [] } off "unlink: writei") (fun _ st'' =>
      dirMap sb dp st'' = update (dirMap sb dp st) (cut name) none ∧
      ∃ k, off = DIRENT * k ∧ slots sb dp st'' = update (slots sb dp st) k none) st'

theorem tableFull_or (st : Store) : (∃ e, (st.itable e).ref = 0) ∨ TableFull st (.panic "iget: no inodes") := by
  by_cases h : ∃ e, (st.itable e).ref = 0
  · exact .inl h
  · exact .inr ⟨rfl, not_exists.mp h⟩

theorem Directory.mapOps (L : Layout sb) (h : Directory sb dp st) (hd : Slots.Distinct (slots sb dp st)) :
    MapOps sb dp st where
  unique k k' hk hk' hu hu' hcmp := by
    have hs := slots_eq_entry sb hk
    have hs' := slots_eq_entry sb hk'
    rw [Dirent.entry, if_neg hu, namecmp_eq_zero.mp hcmp] at hs
    rw [Dirent.entry, if_neg hu'] at hs'
    exact hd hs hs'
  lookup name := by
    refine dirlookup_wp h (fun hnew => ?_) fun k j hk => (iget_wp (tableFull_or st)).mono fun e st1 ht => ?_
    · exact ⟨(Slots.lookup_eq_none.mpr hnew).symm, rfl, _, h.ref_pos, rfl⟩
    · refine ⟨?_, ht.unchanged h.ref_pos⟩
      rw [Option.map_some, ht.inum, dirMap, hd.lookup_eq_some.mpr ⟨k, hk⟩]
  present name inum hp := by
    refine (dirlink_wp _ L h (tableFull_or st) fun hnew => absurd (Slots.lookup_eq_none.mpr hnew) hp).mono
      fun r st' h' => ?_
    obtain ⟨-, hr⟩ | ⟨hnew, -⟩ := h'
    · exact hr
    · exact absurd (Slots.lookup_eq_none.mpr hnew) hp
  absent name inum hp hi hi' hcard := by
    have hroom : Roomy sb st ∨ Exhausted sb st (.panic "balloc: out of blocks") := by
      by_cases hr : Roomy sb st
      · exact .inl hr
      · exact .inr (.inr ⟨rfl, hr⟩)
    have hfree : ∃ k < MAXENTRIES, slots sb dp st k = none := by
      by_contra hno
      refine absurd hcard (Nat.not_lt.mpr ?_)
      rw [Finset.filter_true_of_mem, Finset.card_range]
      intro k hk
      exact Option.isSome_iff_ne_none.mpr fun hs => hno ⟨k, Finset.mem_range.mp hk, hs⟩
    refine (dirlink_wp _ L h ((tableFull_or st).imp_right .inl) fun _ => ⟨⟨hi, hi'⟩, hroom, .inl hfree⟩).mono
      fun r st' h' => ?_
    obtain ⟨⟨k, j, hk⟩, -⟩ | ⟨-, rfl, k, hk, hfirst, hent⟩ := h'
    · exact absurd hk (Slots.lookup_eq_none.mp hp k j)
    · refine ⟨rfl, ?_, k, hk, hfirst, hent.slots_eq, hent.size_eq⟩
      rw [dirMap, hent.slots_eq, Slots.lookup_fill hd hk hp, dirMap]
  clear name e off st' hl := by
    have hfound : Wp (fun _ => True) (dirlookup sb dp name) (fun r st' => ∀ e off, r = some (e, off) →
        Unchanged dp st st' ∧ ∃ k j, off = DIRENT * k ∧ slots sb dp st k = some (j, cut name)) st := by
      refine dirlookup_wp h (fun _ => (by simp)) fun k j hk => (iget_wp (.inr trivial)).mono fun e1 st1 ht => ?_
      rintro _ _ ⟨⟩
      exact ⟨ht.unchanged h.ref_pos, k, j, rfl, hk⟩
    obtain ⟨hu, k, j, rfl, hk⟩ := hfound.ok hl e off rfl
    refine (clear_wp L (hu.directory h) (by rw [hu.slots_eq, hk]) _).mono fun _ st'' h'' => ?_
    rw [dirMap, h''.slots_eq, hu.slots_eq, Slots.lookup_clear hd hk]
    exact ⟨rfl, k, rfl, rfl⟩

/-- In every state that some changes of a directory lead to, no two entries have
the same name, `dirlookup` finds what a name is mapped to, `dirlink` adds one
binding unless the name is there, and clearing an entry removes one. -/
theorem directory_map (L : Layout sb) {st₀ : Store} (h : Directory sb dp st₀)
    (hd : Slots.Distinct (slots sb dp st₀)) {ops : List DirOp} (hr : Run (dirStep sb dp) st₀ ops st) :
    MapOps sb dp st := by
  have hI := hr.invariant (I := fun st => Directory sb dp st ∧ Slots.Distinct (slots sb dp st)) ⟨h, hd⟩
    fun hs hstep => dirStep_distinct L hs.1 hs.2 hstep
  exact hI.1.mapOps L hI.2

/-! The root directory of a small disk, and names of fourteen bytes and more. -/

/-- The small disk with its root directory in memory. -/
def smallRoot : Store := (Store.init smallDisk).putInode 0
  { toDinode := dinode smallSb smallDisk 1, inum := 1, ref := 1, valid := true, locked := true }

theorem smallRoot_current : current smallSb 0 smallRoot = image smallSb smallDisk := by
  have hi : (image smallSb smallDisk).inode 1 = dinode smallSb smallDisk 1 := rfl
  change (image smallSb smallDisk).setInode 1 (dinode smallSb smallDisk 1) = _
  rw [← hi, Image.setInode, update_eq_self]

theorem smallRoot_directory : Directory smallSb 0 smallRoot where
  node := ⟨by decide, by decide +kernel, by rw [smallRoot_current]; exact smallDisk_consistent.own⟩
  solid bn hn hlt := by
    rw [smallRoot_current]
    exact smallDisk_consistent.full 1 bn (by decide +kernel) hn hlt
  type_eq := by decide +kernel
  ref_pos := by decide
  whole := by decide +kernel
  size_le := by decide +kernel

theorem smallRoot_distinct : Slots.Distinct (slots smallSb 0 smallRoot) := by
  have hsize : (smallRoot.itable 0).size.toNat = 32 := by decide +kernel
  have h0 : slots smallSb 0 smallRoot 0 = some (1, [0x2e]) := by decide +kernel
  have h1 : slots smallSb 0 smallRoot 1 = some (1, [0x2e, 0x2e]) := by decide +kernel
  have hlt {k : Nat} {y : Nat × List Byte} (hk : slots smallSb 0 smallRoot k = some y) : k = 0 ∨ k = 1 := by
    have := slots_some_lt (by rw [hk]; exact Option.some_ne_none _)
    rw [hsize] at this
    simp only [DIRENT, DIRSIZ] at this
    omega
  intro k k' a b x hk hk'
  obtain rfl | rfl := hlt hk <;> obtain rfl | rfl := hlt hk'
  · rfl
  · rw [h0] at hk
    rw [h1] at hk'
    cases hk
    cases hk'
  · rw [h1] at hk
    rw [h0] at hk'
    cases hk
    cases hk'
  · rfl

/-- Fourteen bytes. -/
def fourteen : List Byte := [0x31, 0x32, 0x33, 0x34, 0x35, 0x36, 0x37, 0x38, 0x39, 0x30, 0x31, 0x32, 0x33, 0x34]

/-- A longer name is refused once its first fourteen bytes are there; removed by
the longer name, they leave a free slot to the next one. -/
theorem directory_map_fourteen : ∃ st, Run (dirStep smallSb 0) smallRoot
    [.link fourteen 65535, .link (fourteen ++ [0x35]) 2, .link [0x61] 3, .unlink (fourteen ++ [0x36]), .link [0x62] 4]
      st ∧
    (slots smallSb 0 st 2 = some (4, [0x62]) ∧ slots smallSb 0 st 3 = some (3, [0x61]) ∧
      slots smallSb 0 st 4 = none) ∧ MapOps smallSb 0 st := by
  obtain ⟨st, hr, hs⟩ := exists_run (dirStep smallSb 0) smallRoot
    [.link fourteen 65535, .link (fourteen ++ [0x35]) 2, .link [0x61] 3, .unlink (fourteen ++ [0x36]), .link [0x62] 4]
    (Q := fun st => slots smallSb 0 st 2 = some (4, [0x62]) ∧ slots smallSb 0 st 3 = some (3, [0x61]) ∧
      slots smallSb 0 st 4 = none) (by decide +kernel)
  exact ⟨st, hr, hs, directory_map smallDisk_consistent.layout smallRoot_directory smallRoot_distinct hr⟩

end Xv6.Fs
