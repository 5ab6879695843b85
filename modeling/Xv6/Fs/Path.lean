import Xv6.Fs.Blocks
import Xv6.Fs.Name

/-!
# Paths

The elements of a path are what stands between its slashes, each cut to `DIRSIZ`
bytes (`components`), and `skipelem` takes them off one by one
(`skipelem_spec`, `elems_eq`). `namei` looks them up one after the other
(`resolve`), and `nameiparent` all but the last (`path_resolution`). None of this
depends on what is on the disk.
-/

namespace Xv6.Fs

open Framework List

variable (sb : Superblock) {path name rest s w t : List Byte} {st : Store} {n : Nat} {α : Type} {ip : Fin NINODE}

/-! ## The elements of a path -/

/-- The maximal parts of a path without a slash that are not empty, each cut to
`DIRSIZ` bytes. -/
def components (path : List Byte) : List (List Byte) := ((path.splitOn slash).filter (· ≠ [])).map (take DIRSIZ)

/-- The path elements that `skipelem` returns, one after the other. -/
def elems (path : List Byte) : List (List Byte) :=
  match h : skipelem path with
  | none => []
  | some (name, rest) =>
    have := skipelem_length h
    name :: elems rest
termination_by path.length

theorem elems_of_none (h : skipelem path = none) : elems path = [] := by
  rw [elems]
  split <;> simp_all

theorem elems_of_some (h : skipelem path = some (name, rest)) : elems path = name :: elems rest := by
  rw [elems]
  split <;> simp_all

theorem components_slashes (hs : ∀ x ∈ s, x = slash) (l : List Byte) :
    components (s ++ l) = components l := by
  induction s with
  | nil => rfl
  | cons x s ih =>
    obtain rfl := hs x (mem_cons_self ..)
    rw [← ih fun y hy => hs y (mem_cons_of_mem _ hy)]
    rw [components, splitOn, cons_append, splitOnP_cons_eq_if_modifyHead, if_pos (beq_self_eq_true _)]
    rfl

theorem components_last (hw : slash ∉ w) (h0 : w ≠ []) : components w = [w.take DIRSIZ] := by
  have h : w.splitOn slash = [w] := splitOnP_eq_singleton fun x hx => beq_false_of_ne fun he => hw (he ▸ hx)
  simp only [components, h, ne_eq, h0, not_false_eq_true, decide_true, filter_cons_of_pos, filter_nil, map_cons, map_nil]

theorem components_word (hw : slash ∉ w) (h0 : w ≠ []) (l : List Byte) :
    components (w ++ slash :: l) = w.take DIRSIZ :: components l := by
  have h : (w ++ slash :: l).splitOn slash = w :: l.splitOn slash :=
    splitOnP_append_cons_of_forall_mem (p := (· == slash)) (fun x hx => beq_false_of_ne fun he => hw (he ▸ hx))
      slash (beq_self_eq_true _) l
  simp only [components, h, ne_eq, h0, not_false_eq_true, decide_true, filter_cons_of_pos, map_cons]

theorem Skips.components_eq (h : Skips path name rest s w t) :
    components path = name :: components rest := by
  rw [h.path_eq, components_slashes fun x hx => h.slashes x (mem_append_left _ hx), h.name_eq]
  have ht : ∀ x ∈ t, x = slash := fun x hx => h.slashes x (mem_append_right _ hx)
  cases t with
  | nil =>
    rw [h.last rfl, append_nil, append_nil, components_last h.word h.ne_nil]
    rfl
  | cons x t =>
    rw [ht x (mem_cons_self ..), cons_append, components_word h.word h.ne_nil,
      components_slashes fun y hy => ht y (mem_cons_of_mem _ hy)]

theorem skipelem_eq_none : skipelem path = none ↔ ∀ x ∈ path, x = slash := by
  simp only [skipelem, ite_eq_left_iff, reduceCtorEq, imp_false, not_not, dropWhile_eq_nil_iff, decide_eq_true_eq]

theorem elems_eq (path : List Byte) : elems path = components path := by
  fun_induction elems path with
  | case1 path h =>
    have := components_slashes (skipelem_eq_none.mp h) []
    rw [append_nil] at this
    rw [this]
    rfl
  | case2 path name rest h hlt ih =>
    obtain ⟨s, w, t, hs⟩ := skipelem_spec h
    rw [hs.components_eq, ih]

/-- A path that `skipelem` returns has an element, or is empty. -/
theorem elems_ne_nil (h : skipelem path = some (name, rest)) (hr : rest ≠ []) : elems rest ≠ [] := by
  obtain ⟨s, w, t, hs⟩ := skipelem_spec h
  cases hk : skipelem rest with
  | some r => rw [elems_of_some hk]; exact cons_ne_nil _ _
  | none =>
    cases rest with
    | nil => exact absurd rfl hr
    | cons x l => exact absurd (congrArg some (skipelem_eq_none.mp hk x (mem_cons_self ..))) hs.next

/-! ## Their inodes -/

/-- The inode of a list of path elements, from `ip`: each is looked up in the one
before. There is none if one of these is not a directory or does not have the
element. -/
def resolve : Fin NINODE → List (List Byte) → M (Option (Fin NINODE))
  | ip, [] => return some ip
  | ip, name :: names => do
    ilock sb ip
    let i ← inode ip
    let next ← (if i.type = T_DIR then dirlookup sb ip name else pure none)
    iunlockput sb ip
    match next with
    | none => return none
    | some (next, _) => resolve next names

/-- Where a path starts. -/
def start (cwd : Fin NINODE) (path : List Byte) : M (Fin NINODE) :=
  if path.headD 0 = slash then iget ROOTINO else idup cwd

/-- `dirlookup` in a directory that is locked for it, and given up. -/
def lookupIn (dp : Fin NINODE) (name : List Byte) : M (Option (Fin NINODE)) := do
  ilock sb dp
  let r ← dirlookup sb dp name
  iunlockput sb dp
  return r.map Prod.fst

theorem namex_eq (cwd : Fin NINODE) (path : List Byte) (parent : Bool) :
    namex sb cwd path parent = (do namexFrom sb parent path.length (← start cwd path) path) := by
  rw [namex, start]
  split <;> rfl

theorem namexFrom_false (hn : path.length ≤ n) (ip : Fin NINODE) :
    namexFrom sb false n ip path = (do return (← resolve sb ip (elems path)).map (·, [])) := by
  induction n generalizing ip path with
  | zero =>
    obtain rfl := length_eq_zero_iff.mp (Nat.le_zero.mp hn)
    rw [elems_of_none rfl]
    rfl
  | succ n ih =>
    rw [namexFrom]
    cases hs : skipelem path with
    | none =>
      rw [elems_of_none hs]
      rfl
    | some r =>
      have hlen := skipelem_length hs
      rw [elems_of_some hs, resolve]
      simp only [bind_assoc]
      refine bind_congr fun _ => bind_congr fun i => ?_
      by_cases ht : i.type = T_DIR
      · rw [if_neg (not_not.mpr ht), if_neg (by simp), if_pos ht]
        refine bind_congr fun next => ?_
        cases next with
        | none => simp only [pure_bind, Option.map_none]
        | some next => simp only [ih (show r.2.length ≤ n by omega)]
      · rw [if_pos ht, if_neg ht]
        simp only [pure_bind, Option.map_none]

/-- An inode that has been locked is locked again as it was. -/
theorem relock {st1 : Store} (h : ilock sb ip st = .ok ((), st1)) (k : M α) :
    (do iunlock ip; ilock sb ip; k) st1 = k st1 := by
  have hl : Wp (fun _ => True) (ilock sb ip) (fun _ st1 => (st1.itable ip).locked = true ∧
      ¬ (st1.itable ip).ref < 1 ∧ (st1.itable ip).valid = true) st := by
    simp only [ilock, wp_bind, wp_inode]
    refine wp_ite (fun _ => trivial) fun hr => wp_ite (fun _ => trivial) fun _ => wp_ite (fun hv => ?_) fun _ => ?_
    · simpa using ⟨Nat.ne_of_gt (Nat.not_lt.mp hr), hv⟩
    · simp only [wp_bind, wp_bread, wp_setInode]
      exact wp_ite (fun _ => trivial) fun _ => by simpa using hr
  obtain ⟨h1, h2, h3⟩ := hl.ok h
  have hw : Wp (fun _ => False) (do iunlock ip; ilock sb ip : M Unit) (fun _ st' => st' = st1) st1 := by
    simp only [iunlock, ilock, wp_bind, wp_inode]
    refine wp_ite (fun hno => by simp [h1] at hno; omega) fun _ => ?_
    simp only [wp_setInode, Store.putInode_itable, Function.update_self]
    rw [if_neg h2, if_neg Bool.false_ne_true, if_pos h3]
    simp only [wp_setInode, Store.putInode, Function.update_idem]
    rw [← h1]
    simp only [Function.update_eq_self]
  obtain ⟨⟨⟩, st', ho, rfl⟩ := hw.exists_ok
  rw [← bind_assoc]
  exact bind_of_ok ho

/-- The last element is looked up in the parent. -/
theorem resolve_singleton (ip : Fin NINODE) (name : List Byte) :
    (do
      ilock sb ip
      let i ← inode ip
      if i.type ≠ T_DIR then do
        iunlockput sb ip
        return none
      else do
        iunlock ip
        lookupIn sb ip name) = resolve sb ip [name] := by
  funext st
  cases hl : ilock sb ip st with
  | error e => simp only [resolve, bind, StateT.bind, Except.bind, hl]
  | ok r =>
    obtain ⟨⟨⟩, st1⟩ := r
    have hi (k : Inode → M (Option (Fin NINODE))) : (inode ip >>= k) st1 = k (st1.itable ip) st1 := rfl
    rw [bind_of_ok hl, resolve, bind_of_ok hl, hi, hi]
    by_cases ht : (st1.itable ip).type = T_DIR
    · rw [if_neg (not_not.mpr ht), if_pos ht, lookupIn, relock sb hl]
      refine congrFun (bind_congr fun next => bind_congr fun _ => ?_) _
      cases next <;> rfl
    · rw [if_pos ht, if_neg ht]
      rfl

theorem namexFrom_true (hn : path.length ≤ n) (hne : elems path ≠ []) (ip : Fin NINODE) :
    (do
      match ← namexFrom sb true n ip path with
      | none => return none
      | some (dp, name) => lookupIn sb dp name) = resolve sb ip (elems path) := by
  induction n generalizing ip path with
  | zero =>
    obtain rfl := length_eq_zero_iff.mp (Nat.le_zero.mp hn)
    exact absurd (elems_of_none rfl) hne
  | succ n ih =>
    rw [namexFrom]
    cases hs : skipelem path with
    | none => exact absurd (elems_of_none hs) hne
    | some r =>
      have hlen := skipelem_length hs
      rw [elems_of_some hs]
      by_cases hr : r.2 = []
      · rw [hr, elems_of_none (show skipelem [] = none from rfl), ← resolve_singleton]
        simp only [bind_assoc]
        refine bind_congr fun _ => bind_congr fun i => ?_
        by_cases ht : i.type = T_DIR
        · rw [if_neg (not_not.mpr ht), if_pos ⟨trivial, hr⟩, if_neg (not_not.mpr ht)]
          simp only [bind_assoc, pure_bind]
        · rw [if_pos ht, if_pos ht]
          simp only [bind_assoc, pure_bind]
      · rw [resolve]
        simp only [bind_assoc]
        refine bind_congr fun _ => bind_congr fun i => ?_
        by_cases ht : i.type = T_DIR
        · rw [if_neg (not_not.mpr ht), if_neg (fun hc => hr hc.2), if_pos ht]
          simp only [bind_assoc]
          refine bind_congr fun next => ?_
          cases next with
          | none => simp only [bind_assoc, pure_bind]
          | some next =>
            simp only [bind_assoc]
            exact bind_congr fun _ => ih (by omega) (elems_ne_nil hs hr) _
        · rw [if_pos ht, if_neg ht]
          simp only [bind_assoc, pure_bind]

/-- One of the elements is missing in the directory before it, or what is before
it is not a directory. -/
def Stops (ip : Fin NINODE) (names : List (List Byte)) (st : Store) : Prop :=
  ∃ pre name post dp st1 st2, names = pre ++ name :: post ∧ resolve sb ip pre st = .ok (some dp, st1) ∧
    ilock sb dp st1 = .ok ((), st2) ∧
    ((st2.itable dp).type ≠ T_DIR ∨ ∃ st3, dirlookup sb dp name st2 = .ok (none, st3))

theorem bind_ok_iff {β : Type} {m : M α} {k : α → M β} {r : β × Store} :
    (m >>= k) st = .ok r ↔ ∃ a st1, m st = .ok (a, st1) ∧ k a st1 = .ok r := by
  cases hm : m st with
  | error e => simp [bind, StateT.bind, Except.bind, hm]
  | ok p => simp [bind_of_ok hm, Prod.ext_iff]

theorem resolve_eq_none {names : List (List Byte)} {st' : Store} {r : Option (Fin NINODE)}
    (h : resolve sb ip names st = .ok (r, st')) : r = none ↔ Stops sb ip names st := by
  induction names generalizing ip st with
  | nil =>
    cases h
    refine iff_of_false nofun ?_
    rintro ⟨pre, name, post, -, -, -, hn, -⟩
    simp at hn
  | cons name names ih =>
    obtain ⟨⟨⟩, st1, hl, h1⟩ := bind_ok_iff.mp h
    obtain ⟨i, _, hi, h2⟩ := bind_ok_iff.mp h1
    cases hi
    obtain ⟨next, st2, hn, h3⟩ := bind_ok_iff.mp h2
    obtain ⟨⟨⟩, st3, hp, h4⟩ := bind_ok_iff.mp h3
    match next, hn, h4 with
    | none, hn, h4 =>
      cases h4
      refine iff_of_true rfl ⟨[], name, names, ip, st, st1, rfl, rfl, hl, ?_⟩
      by_cases ht : (st1.itable ip).type = T_DIR
      · exact .inr ⟨st2, by rwa [if_pos ht] at hn⟩
      · exact .inl ht
    | some (d, off), hn, h4 =>
      have ht : (st1.itable ip).type = T_DIR := by
        by_contra ht
        rw [if_neg ht] at hn
        cases hn
      rw [if_pos ht] at hn
      have hcons (ns : List (List Byte)) : resolve sb ip (name :: ns) st = resolve sb d ns st3 := by
        rw [resolve, bind_of_ok hl, bind_of_ok (show inode ip st1 = _ from rfl), if_pos ht, bind_of_ok hn, bind_of_ok hp]
      refine (ih h4).trans ⟨?_, ?_⟩
      · rintro ⟨pre, nm, post, dp, s1, s2, rfl, hpre, hstop⟩
        exact ⟨name :: pre, nm, post, dp, s1, s2, rfl, (hcons pre).trans hpre, hstop⟩
      · rintro ⟨pre, nm, post, dp, s1, s2, hns, hpre, hlock, hstop⟩
        cases pre with
        | nil =>
          -- the first element is found
          cases hns
          cases hpre
          cases hl.symm.trans hlock
          obtain hno | ⟨_, hno⟩ := hstop
          · exact absurd ht hno
          · cases hn.symm.trans hno
        | cons x pre =>
          cases hns
          exact ⟨pre, nm, post, dp, s1, s2, rfl, (hcons pre).symm.trans hpre, hlock, hstop⟩

/-- **Path resolution.** `skipelem` takes the elements off a path one by one, until
only slashes are left, and returns the path from the next element on. `namei`
looks up the elements from the root or the current directory, and fails exactly
where one is missing, or what should have it is not a directory. The inode that
`nameiparent` returns and the name that goes with it lead to the same inode. -/
theorem path_resolution (cwd : Fin NINODE) (path : List Byte) :
    elems path = components path ∧
    (skipelem path = none ↔ ∀ x ∈ path, x = slash) ∧
    (∀ {name rest}, skipelem path = some (name, rest) → ∃ s w t, Skips path name rest s w t) ∧
    namei sb cwd path = (do resolve sb (← start cwd path) (components path)) ∧
    (∀ {ip st r st'}, resolve sb ip (components path) st = .ok (r, st') →
      (r = none ↔ Stops sb ip (components path) st)) ∧
    (components path ≠ [] →
      (do
        match ← nameiparent sb cwd path with
        | none => return none
        | some (dp, name) => lookupIn sb dp name) = namei sb cwd path) := by
  have hnamei : namei sb cwd path = (do resolve sb (← start cwd path) (components path)) := by
    simp only [namei, namex_eq, bind_assoc, ← elems_eq]
    refine bind_congr fun ip => ?_
    rw [namexFrom_false sb le_rfl, bind_assoc]
    refine (bind_congr fun r => ?_).trans (bind_pure _)
    cases r <;> rfl
  refine ⟨elems_eq path, skipelem_eq_none, skipelem_spec, hnamei, resolve_eq_none sb, fun hne => ?_⟩
  rw [hnamei, nameiparent, namex_eq, bind_assoc]
  rw [← elems_eq] at hne ⊢
  exact bind_congr fun ip => namexFrom_true sb le_rfl hne ip

end Xv6.Fs
