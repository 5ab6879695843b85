import Xv6.Fs.Entry
import Xv6.Mkfs.Fill

/-!
# What the program builds

`Built s cs` says that the image file holds the files `cs`, by type and
contents, in the inodes from 1 on: their bytes are in blocks of their own, as
many as they need, and the rest of the disk is free. A call of `ialloc` adds an
empty file, `iappend` adds bytes to one (`iappend_wp`), and so the program
comes to the root directory and the files of the command line (`files_wp`).
-/

namespace Xv6.Mkfs

open Framework Function List
open Fs
open Log (BlockNo Block word setWord bytes)

variable {s s' : State} {i k n : Nat} {ty : Short} {c p : List Byte} {cs : List (Short × List Byte)} {E : Exit → Prop}
  {fs : List InFile}

/-- Inode `i` is a file of type `ty` whose blocks hold `content`. -/
structure Holds (im : Image) (i : Nat) (ty : Short) (content : List Byte) : Prop where
  type : (im.inode i).type = ty
  nlink : (im.inode i).nlink = 1
  byte : ∀ x v, content[x]? = some v → im.byte i x = some v
  /-- The rest of the last block is zero. -/
  rest : ∀ x v, content.length ≤ x → im.byte i x = some v → v = 0
  blocks : ∀ {bn}, bn < MAXFILE → (im.ref (i, place bn) ≠ 0 ↔ bn < nblk content.length)
  indirect : im.ref (i, .addr indirect) ≠ 0 ↔ NDIRECT < nblk content.length
  le : nblk content.length ≤ MAXFILE

/-- Inode `i` is a file of type `ty` with the contents `c`. -/
structure HasFile (im : Image) (i : Nat) (ty : Short) (c : List Byte) : Prop extends Holds im i ty c where
  size : (im.inode i).size.toNat = c.length

/-- The blocks of some files. -/
def total (cs : List (Short × List Byte)) : Nat := (cs.map fun f => cost (nblk f.2.length)).sum

theorem total_append (cs ds : List (Short × List Byte)) : total (cs ++ ds) = total cs + total ds := by
  rw [total, map_append, sum_append, total, total]

/-- The image file holds the files `cs`. -/
structure Built (s : State) (cs : List (Short × List Byte)) : Prop where
  len : s.len = FSSIZE
  super : s.disk 1 = sbBlock
  freeinode : s.freeinode = cs.length + 1
  room : cs.length < NINODES
  count : s.freeblock = nmeta + total cs
  high : s.freeblock ≤ FSSIZE
  own : Own sb (view s)
  zero : ∀ {b}, sb.InData b → s.freeblock ≤ b.toNat → s.disk b = fun _ => 0
  alloc : ∀ {ty c}, (ty, c) ∈ cs → ty ≠ 0
  file : ∀ {k ty c}, cs[k]? = some (ty, c) → HasFile (view s) (k + 1) ty c
  free : ∀ {i}, i = 0 ∨ cs.length < i → ((view s).inode i).type = 0

theorem view_winode (hi : i < NINODES) (dn : Dinode) :
    view { s with disk := writeInode sb s.disk i dn } = (view s).setInode i dn := by
  simp only [view, image_writeInode layout s.disk hi dn]
  rfl

theorem writeInode_super (hi : i < NINODES) (dn : Dinode) : writeInode sb s.disk i dn 1 = s.disk 1 := by
  have h1 : (1 : BlockNo).toNat = 1 := rfl
  have h2 : sb.inodestart = 32 := rfl
  have hne : (1 : BlockNo) ≠ sb.iblock i := by
    intro h
    have := (iblock_toNat hi).1
    rw [← h, h1, h2] at this
    simp only [IPB, BSIZE] at this
    omega
  exact update_of_ne hne ..

theorem writeInode_data (hi : i < NINODES) (dn : Dinode) {b : BlockNo} (hb : sb.InData b) :
    writeInode sb s.disk i dn b = s.disk b :=
  update_of_ne (Layout.iblock_ne_data layout hi hb).symm ..

/-- A file that keeps its inode and its blocks. -/
theorem HasFile.of_eq {im im' : Image} (h : HasFile im i ty c) (hi : im'.inode i = im.inode i)
    (hr : ∀ p, im'.ref (i, p) = im.ref (i, p)) (hb : ∀ x, im'.byte i x = im.byte i x) : HasFile im' i ty c where
  type := by rw [hi, h.type]
  nlink := by rw [hi, h.nlink]
  size := by rw [hi, h.size]
  byte x v hv := by rw [hb, h.byte x v hv]
  rest x v hx hv := h.rest x v hx (by rwa [hb] at hv)
  blocks hn := by rw [hr, h.blocks hn]
  indirect := by rw [hr, h.indirect]
  le := h.le

/-! ## A new inode -/

theorem ialloc_wp (h : Built s cs) (hroom : cs.length + 1 < NINODES) (hty : ty ≠ 0) :
    Wp E (ialloc ty) (fun r s' => r = cs.length + 1 ∧ Built s' (cs ++ [(ty, [])])) s := by
  simp only [ialloc, wp_bind, wp_get, wp_set]
  rw [h.freeinode]
  refine (wp_winode (by exact h.len) hroom).mpr ⟨rfl, ?_⟩
  generalize hdn : ({ Dinode.ofType ty with nlink := 1 } : Dinode) = dn
  have hview : view { s with
      disk := writeInode sb s.disk (cs.length + 1) dn
      freeinode := cs.length + 1 + 1 } = (view s).setInode (cs.length + 1) dn := view_winode hroom dn
  have haddrs (p : Place) : ((view s).setInode (cs.length + 1) dn).ref (cs.length + 1, p) = 0 := by
    refine Image.ref_eq_zero (.inr fun k => ?_) p
    rw [Image.setInode_inode, update_self, ← hdn]
    rfl
  have href : ((view s).setInode (cs.length + 1) dn).ref = (view s).ref := by
    refine Image.ref_setInode fun p => ?_
    rw [haddrs, Image.ref_eq_zero (.inl (h.free (.inr (Nat.lt_succ_self _))))]
  have hbyte (i x : Nat) : ((view s).setInode (cs.length + 1) dn).byte i x = (view s).byte i x := by
    simp only [Image.byte, Image.block, href]
    rfl
  refine ⟨h.len, ?_, ?_, ?_, ?_, h.high, ?_, fun hb hle => ?_, fun hm => ?_, fun {k ty' c} hk => ?_, fun {i} hi => ?_⟩
  · rw [← h.super]
    exact writeInode_super hroom dn
  · rw [length_append]
    rfl
  · rw [length_append]
    exact hroom
  · have h0 : total [(ty, ([] : List Byte))] = 0 := by
      simp only [total, map_cons, map_nil]
      decide
    rw [total_append, h0]
    exact h.count
  · rw [hview]
    exact h.own.setInode fun p => congrFun href _
  · rw [← h.zero hb hle]
    exact writeInode_data hroom dn hb
  · obtain hm | hm := mem_append.mp hm
    · exact h.alloc hm
    · cases mem_singleton.mp hm
      exact hty
  · rw [List.getElem?_append] at hk
    split at hk
    · rename_i hlt
      refine (h.file hk).of_eq ?_ (fun p => ?_) fun x => ?_
      · rw [hview, Image.setInode_inode, update_of_ne (by omega)]
      · rw [hview, href]
      · rw [hview, hbyte]
    · -- the new one
      obtain ⟨h0, he⟩ := List.getElem?_eq_some_iff.mp hk
      rw [length_singleton] at h0
      obtain rfl : k = cs.length := by omega
      simp only [Nat.sub_self, getElem_cons_zero, Prod.mk.injEq] at he
      obtain ⟨rfl, rfl⟩ := he
      have hdn' : ((view s).setInode (cs.length + 1) dn).inode (cs.length + 1) = dn := update_self ..
      refine ⟨⟨?_, ?_, fun x v hv => ?_, fun x v _ hv => ?_, fun _ => ?_, ?_, Nat.zero_le _⟩, ?_⟩
      · rw [hview, hdn', ← hdn]
        rfl
      · rw [hview, hdn', ← hdn]
      · cases hv
      · have := (Image.block_isSome.mp (Image.block_isSome_of_byte hv)).2
        rw [hview, haddrs] at this
        exact absurd rfl this
      · rw [hview, haddrs]
        exact iff_of_false (not_not.mpr rfl) (Nat.not_lt_zero _)
      · rw [hview, haddrs]
        exact iff_of_false (not_not.mpr rfl) (by decide)
      · rw [hview, hdn', ← hdn]
        rfl
  · rw [length_append, length_singleton] at hi
    rw [hview, Image.setInode_inode, update_of_ne (by omega)]
    exact h.free (by omega)

/-! ## More bytes -/

theorem total_set {d : List Byte} (hk : cs[k]? = some (ty, c)) :
    total (cs.set k (ty, d)) + cost (nblk c.length) = total cs + cost (nblk d.length) := by
  induction cs generalizing k with
  | nil => cases hk
  | cons y cs ih =>
    simp only [total, map_cons, sum_cons] at ih ⊢
    cases k with
    | zero =>
      cases hk
      simp only [set_cons_zero, map_cons, sum_cons]
      omega
    | succ k =>
      have := ih (k := k) hk
      simp only [set_cons_succ, map_cons, sum_cons]
      omega

theorem Built.filled (h : Built s cs) (hk : cs[k]? = some (ty, c)) :
    cur s (k + 1) ((view s).inode (k + 1)) = view s ∧
    Filled s (k + 1) ((view s).inode (k + 1)) (nblk c.length) (NDIRECT < nblk c.length) := by
  have hf := h.file hk
  have hcur : cur s (k + 1) ((view s).inode (k + 1)) = view s := by
    rw [cur, Image.setInode, update_eq_self]
  refine ⟨hcur, h.len, ?_, h.high, ?_, ?_, h.zero, fun hn => ?_, ?_, hf.le⟩
  · rw [h.count]
    exact Nat.le_add_right ..
  · rw [hf.type]
    exact h.alloc (mem_of_getElem? hk)
  · rw [hcur]
    exact h.own
  · rw [hcur]
    exact hf.blocks hn
  · rw [hcur]
    exact hf.indirect

theorem iappend_wp (h : Built s cs) (hk : cs[k]? = some (ty, c))
    (hE : c.length + p.length ≤ MAXFILE * BSIZE ∧ nmeta + total (cs.set k (ty, c ++ p)) ≤ FSSIZE ∨ ∀ r, E r) :
    Wp E (iappend (k + 1) p) (fun _ s' => Built s' (cs.set k (ty, c ++ p))) s := by
  obtain ⟨hcur, hfill⟩ := h.filled hk
  have hf := h.file hk
  have htotal := total_set (d := c ++ p) hk
  have hlen : (c ++ p).length = c.length + p.length := length_append
  have hi : k + 1 < NINODES := Nat.lt_of_le_of_lt (List.getElem?_eq_some_iff.mp hk).1 h.room
  have hin : dinode sb s.disk (k + 1) = (view s).inode (k + 1) := (if_pos hi).symm
  have hcount := h.count
  simp only [hlen] at htotal
  rw [iappend, wp_bind, wp_rinode h.len hi, hin, hf.size, wp_bind]
  refine (iappendLoop_wp le_rfl hfill (by rw [hcur]; exact hf.byte) (by rw [hcur]; exact hf.rest) ?_).mono fun r s1 h1 => ?_
  · exact hE.imp_left fun hE => ⟨hE.1, by omega⟩
  · obtain ⟨hr, hF, hfr, hc, hz, hfree⟩ := h1
    obtain ⟨din, off⟩ := r
    dsimp only at hr hF hfr hc hz ⊢
    refine (wp_winode hF.len hi).mpr ?_
    generalize hdn : ({ din with size := BitVec.ofNat 32 off } : Dinode) = dn
    have hview : view { s1 with disk := writeInode sb s1.disk (k + 1) dn } = (cur s1 (k + 1) din).setInode (k + 1) dn := by
      rw [view_winode hi, cur, Image.setInode_setInode]
    have hdn' : ((cur s1 (k + 1) din).setInode (k + 1) dn).inode (k + 1) = dn := update_self ..
    obtain ⟨a, ha⟩ := hfr.addrs
    have hsame (q : Place) : ((cur s1 (k + 1) din).setInode (k + 1) dn).ref (k + 1, q) =
        (cur s1 (k + 1) din).ref (k + 1, q) := by
      refine Image.ref_setInode_addrs _ dn ?_ hF.cur_type ?_ q
      · rw [← hdn]
        exact hF.type
      · rw [← hdn, cur_inode_self]
    have href := Image.ref_setInode hsame
    have hbyte := Image.byte_setInode hsame
    have hinode {j : Nat} (hj : j ≠ k + 1) :
        ((cur s1 (k + 1) din).setInode (k + 1) dn).inode j = (view s).inode j := by
      rw [Image.setInode_inode, update_of_ne hj, cur, Image.setInode_inode, update_of_ne hj]
      exact congrFun hfr.inode j
    refine ⟨hF.len, ?_, ?_, ?_, ?_, hF.high, ?_, fun hb hle => ?_, fun hm => ?_, fun {k' ty' c'} hk' => ?_,
      fun {i} hi' => ?_⟩
    · rw [← h.super, ← hfr.super]
      exact writeInode_super hi dn
    · rw [length_set, ← h.freeinode]
      exact hfr.freeinode
    · rw [length_set]
      exact h.room
    · dsimp only
      omega
    · rw [hview]
      exact hF.own.setInode hsame
    · rw [← hF.zero hb hle]
      exact writeInode_data hi dn hb
    · obtain hm | hm := mem_or_eq_of_mem_set hm
      · exact h.alloc hm
      · rw [(Prod.mk.inj hm).1]
        exact h.alloc (mem_of_getElem? hk)
    · by_cases e : k' = k
      · subst e
        rw [List.getElem?_set_self (List.getElem?_eq_some_iff.mp hk).1] at hk'
        obtain ⟨rfl, rfl⟩ := Prod.mk.inj (Option.some.inj hk')
        refine ⟨⟨?_, ?_, fun x v hv => ?_, fun x v hx hv => ?_, fun hn => ?_, ?_, ?_⟩, ?_⟩
        · rw [hview, hdn', ← hdn, ha]
          exact hf.type
        · rw [hview, hdn', ← hdn, ha]
          exact hf.nlink
        · rw [hview, hbyte]
          exact hc x v hv
        · rw [hview, hbyte] at hv
          exact hz x v hx hv
        · rw [hview, href, hlen]
          exact hF.blocks hn
        · rw [hview, href, hlen]
          exact hF.indirect
        · rw [hlen]
          exact hF.le
        · have hle := hF.le
          rw [hview, hdn', ← hdn, BitVec.toNat_ofNat, hr, hlen]
          simp only [nblk, MAXFILE, NDIRECT, NINDIRECT, BSIZE] at hle
          omega
      · rw [List.getElem?_set_ne (Ne.symm e)] at hk'
        have hne : k' + 1 ≠ k + 1 := by omega
        refine (h.file hk').of_eq ?_ (fun q => ?_) fun x => ?_
        · rw [hview, hinode hne]
        · rw [hview, href, hfr.ref hne, hcur]
        · rw [hview, hbyte, hfr.byte hne, hcur]
    · rw [length_set] at hi'
      have := (List.getElem?_eq_some_iff.mp hk).1
      rw [hview, hinode (by omega)]
      exact h.free hi'

/-! ## The files of the command line -/

theorem Built.set_self (hk : cs[k]? = some (ty, c)) : cs.set k (ty, c) = cs := by
  obtain ⟨hlt, he⟩ := List.getElem?_eq_some_iff.mp hk
  rw [← he]
  exact set_getElem_self hlt

theorem cost_nblk_mono {n' : Nat} (h : n ≤ n') : cost (nblk n) ≤ cost (nblk n') :=
  cost_mono (Nat.div_le_div_right (by omega))

/-- The contents of a file, piece by piece. -/
theorem reads_wp {ps : List (List Byte)} (h : Built s cs) (hk : cs[k]? = some (ty, c))
    (hE : c.length + ps.flatten.length ≤ MAXFILE * BSIZE ∧
      nmeta + total (cs.set k (ty, c ++ ps.flatten)) ≤ FSSIZE ∨ ∀ r, E r) :
    Wp E (ps.forM (iappend (k + 1))) (fun _ s' => Built s' (cs.set k (ty, c ++ ps.flatten))) s := by
  induction ps generalizing s cs c with
  | nil =>
    rw [flatten_nil, append_nil, Built.set_self hk]
    exact h
  | cons p ps ih =>
    have hlt := (List.getElem?_eq_some_iff.mp hk).1
    rw [flatten_cons, length_append] at hE
    have hset (x : List Byte) : (cs.set k (ty, c ++ p)).set k (ty, x) = cs.set k (ty, x) := set_set ..
    refine (iappend_wp h hk (hE.imp_left fun hE => ⟨by omega, ?_⟩)).bind fun _ s1 h1 => ?_
    · have h1 := total_set (d := c ++ p) hk
      have h2 := total_set (d := c ++ (p ++ ps.flatten)) hk
      have h3 : cost (nblk (c ++ p).length) ≤ cost (nblk (c ++ (p ++ ps.flatten)).length) := by
        refine cost_nblk_mono ?_
        simp only [length_append]
        omega
      omega
    · rw [flatten_cons, ← append_assoc, ← hset]
      refine ih h1 (by rw [List.getElem?_set_self hlt]) ?_
      rw [hset, append_assoc, length_append]
      exact hE.imp_left fun hE => ⟨by omega, hE.2⟩

/-- The entries of the root directory, for the files `fs`. -/
def entries (fs : List InFile) : List Dirent :=
  [{ inum := 1, name := [0x2e] }, { inum := 1, name := [0x2e, 0x2e] }] ++
    fs.mapIdx fun k f => { inum := BitVec.ofNat 16 (k + 2), name := strncpy DIRSIZ f.shortname }

/-- The contents of the root directory. -/
def rootDir (fs : List InFile) : List Byte := (entries fs).flatMap Dirent.toBytes

/-- The root directory and the files `fs`. -/
def inodes (fs : List InFile) : List (Short × List Byte) :=
  (T_DIR, rootDir fs) :: fs.map fun f => (T_FILE, f.content)

theorem entries_length (fs : List InFile) : (entries fs).length = fs.length + 2 := by
  simp only [entries, length_append, length_cons, length_nil, length_mapIdx]
  omega

theorem rootDir_length (fs : List InFile) : (rootDir fs).length = DIRENT * (fs.length + 2) := by
  rw [rootDir, length_flatMap, map_congr_left (g := fun _ => DIRENT) fun de _ => de.toBytes_length,
    map_const', sum_replicate_nat, entries_length, Nat.mul_comm]

theorem rootDir_append (fs : List InFile) (f : InFile) : rootDir (fs ++ [f]) = rootDir fs ++
    ({ inum := BitVec.ofNat 16 (fs.length + 2), name := strncpy DIRSIZ f.shortname } : Dirent).toBytes := by
  simp [rootDir, entries, ← append_assoc]

/-- The blocks of the image of the files `fs`. -/
def blocksNeeded (fs : List InFile) : Nat :=
  nmeta + (cost (nblk (DIRENT * (fs.length + 2))) + (fs.map fun f => cost (nblk f.content.length)).sum)

theorem total_inodes (fs : List InFile) : nmeta + total (inodes fs) = blocksNeeded fs := by
  rw [total, inodes, map_cons, sum_cons, rootDir_length, map_map]
  rfl

theorem blocksNeeded_append (fs gs : List InFile) : blocksNeeded fs ≤ blocksNeeded (fs ++ gs) := by
  have := cost_nblk_mono (show DIRENT * (fs.length + 2) ≤ DIRENT * ((fs ++ gs).length + 2) by
    rw [length_append]
    exact Nat.mul_le_mul_left _ (by omega))
  rw [blocksNeeded, blocksNeeded, map_append, sum_append]
  omega

/-- A file that the program accepts. -/
structure Accepted (f : InFile) : Prop where
  slash : slash ∉ dropUser f.arg
  opened : f.reads.isSome
  size : f.content.length ≤ MAXFILE * BSIZE

theorem le_of_nblk {m : Nat} (h : nblk n ≤ m) : n ≤ m * BSIZE := by
  simp only [nblk, BSIZE] at *
  omega

theorem addFile_wp {f : InFile} (h : Built s (inodes fs)) (hroom : fs.length + 2 < NINODES)
    (hE : Accepted f ∧ blocksNeeded (fs ++ [f]) ≤ FSSIZE ∨ ∀ r, E r) :
    Wp E (addFile ROOTINO f) (fun _ s' => Built s' (inodes (fs ++ [f])) ∧ Accepted f) s := by
  have hlen : (inodes fs).length = fs.length + 1 := by rw [inodes, length_cons, length_map]
  have htotal := total_inodes (fs ++ [f])
  rw [addFile, wp_bind, assert]
  refine wp_ite (fun hs => ?_) fun hs => hE.resolve_left (fun hE => hs hE.1.slash) _
  rw [wp_pure]
  cases hreads : f.reads with
  | none =>
    refine hE.resolve_left (fun hE => ?_) _
    have := hE.1.opened
    rw [hreads] at this
    cases this
  | some reads =>
    have hcontent : f.content = reads.flatten := by rw [InFile.content, hreads, Option.getD_some]
    -- the list after the new entry, and at the end
    have hmid : (inodes fs ++ [(T_FILE, [])]).set 0 (T_DIR, rootDir (fs ++ [f])) =
        (T_DIR, rootDir (fs ++ [f])) :: (fs.map fun f => (T_FILE, f.content)) ++ [(T_FILE, [])] := rfl
    have hend : ((inodes fs ++ [(T_FILE, [])]).set 0 (T_DIR, rootDir (fs ++ [f]))).set (fs.length + 1)
        (T_FILE, [] ++ reads.flatten) = inodes (fs ++ [f]) := by
      rw [hmid, cons_append, set_cons_succ, set_append_right _ _ (by rw [length_map]), inodes,
        map_append, length_map, Nat.sub_self, nil_append, ← hcontent]
      rfl
    have hlast : ((inodes fs ++ [(T_FILE, [])]).set 0 (T_DIR, rootDir (fs ++ [f])))[fs.length + 1]? =
        some (T_FILE, []) := by
      rw [hmid, cons_append, List.getElem?_cons_succ, List.getElem?_append_right (by rw [length_map]),
        length_map, Nat.sub_self]
      rfl
    refine (ialloc_wp h (by rw [hlen]; exact hroom) (by decide)).bind fun r s1 h1 => ?_
    obtain ⟨rfl, h1⟩ := h1
    rw [hlen]
    refine (iappend_wp (k := 0) h1 rfl ?_).bind fun _ s2 h2 => ?_
    · refine hE.imp_left fun hE => ⟨?_, ?_⟩
      · rw [rootDir_length, Dirent.toBytes_length]
        simp only [MAXFILE, NDIRECT, NINDIRECT, BSIZE, DIRENT, DIRSIZ, NINODES] at *
        omega
      · rw [← rootDir_append]
        have := total_set (d := [] ++ reads.flatten) hlast
        rw [hend] at this
        have h0 : cost (nblk ([] : List Byte).length) = 0 := by decide
        omega
    · rw [← rootDir_append] at h2
      refine (reads_wp h2 hlast ?_).mono fun _ s3 h3 => ?_
      · rw [hend, htotal, ← hcontent]
        exact hE.imp_left fun hE => ⟨by simpa using hE.1.size, hE.2⟩
      · rw [hend] at h3
        refine ⟨h3, hs, by rw [hreads]; rfl, ?_⟩
        have hnew : (inodes (fs ++ [f]))[fs.length + 1]? = some (T_FILE, f.content) := by
          rw [inodes, List.getElem?_cons_succ, map_append, List.getElem?_append_right (by rw [length_map]),
            length_map, Nat.sub_self]
          rfl
        exact le_of_nblk (h3.file hnew).le

theorem files_wp {gs : List InFile} (h : Built s (inodes fs)) (hroom : (fs ++ gs).length + 1 < NINODES)
    (hE : (∀ f ∈ gs, Accepted f) ∧ blocksNeeded (fs ++ gs) ≤ FSSIZE ∨ ∀ r, E r) :
    Wp E (gs.forM (addFile ROOTINO)) (fun _ s' => Built s' (inodes (fs ++ gs)) ∧ ∀ f ∈ gs, Accepted f) s := by
  induction gs generalizing s fs with
  | nil =>
    rw [append_nil]
    exact ⟨h, nofun⟩
  | cons f gs ih =>
    have happ : fs ++ f :: gs = (fs ++ [f]) ++ gs := by rw [append_assoc, singleton_append]
    rw [happ] at hroom hE
    refine (addFile_wp h ?_ (hE.imp_left fun hE => ⟨hE.1 f (mem_cons_self ..), ?_⟩)).bind fun _ s1 h1 => ?_
    · rw [length_append, length_append, length_singleton] at hroom
      omega
    · exact (blocksNeeded_append ..).trans hE.2
    · rw [happ]
      refine (ih h1.1 hroom (hE.imp_left fun hE => ⟨fun g hg => hE.1 g (mem_cons_of_mem _ hg), hE.2⟩)).mono
        fun _ s2 h2 => ⟨h2.1, fun g hg => ?_⟩
      obtain rfl | hg := mem_cons.mp hg
      · exact h1.2
      · exact h2.2 g hg

end Xv6.Mkfs
