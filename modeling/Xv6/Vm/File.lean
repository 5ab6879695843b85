import Xv6.Vm.Exec

/-!
# Files and pipes

The file table of `kernel/file.c` and the pipes of `kernel/pipe.c`. A pipe is a
page that its two ends share; the flags in it say which of them are open.
`FilesOk m ft C` says that the table counts the references `C`, and that the
flags of every open pipe are right; `pipePages ft` are the pages of the open
pipes. `fileclose_ok` and `pipealloc_ok` say that a pipe takes a page from the
free list when it is made, and gives it back when its second end is closed.
-/

namespace Xv6.Vm

open Framework Function Multiset Option

/-- The type of `struct file`. -/
inductive FileType
  | none
  | pipe
  | inode
  | device
  deriving DecidableEq

/-- `struct file`, less the fields of inodes and devices. -/
structure File where
  type : FileType := .none
  ref : Nat := 0
  readable : Bool := false
  writable : Bool := false
  pipe : Nat := 0

/-- `ftable.file`. -/
abbrev Ftable := Nat → File

/-- `filealloc`; `none` is the null pointer. -/
def filealloc (ft : Ftable) : Option Nat × Ftable :=
  match (List.range NFILE).find? fun f => (ft f).ref = 0 with
  | none => (none, ft)
  | some f => (some f, update ft f { ft f with ref := 1 })

/-- `filedup`; `none` is its panic. -/
def filedup (ft : Ftable) (f : Nat) : Option Ftable :=
  if (ft f).ref < 1 then none
  else some (update ft f { ft f with ref := (ft f).ref + 1 })

/-- The address of `pi->readopen` or `pi->writeopen`. -/
def openFlag (pi : Nat) (writable : Bool) : Nat := if writable then pi + 548 else pi + 544

variable (L : Layout)

/-- `pipeclose`, less the wakeups. -/
def pipeclose (k : Kmem) (pi : Nat) (writable : Bool) : Option Kmem :=
  let mem := write32 k.mem (openFlag pi writable) 0
  if read32 mem (openFlag pi false) = 0 ∧ read32 mem (openFlag pi true) = 0 then kfree L { k with mem := mem } pi
  else some { k with mem := mem }

/-- `fileclose`. Files other than pipes have no pages. -/
def fileclose (k : Kmem) (ft : Ftable) (f : Nat) : Option (Kmem × Ftable) :=
  if (ft f).ref < 1 then none
  else if (ft f).ref - 1 > 0 then some (k, update ft f { ft f with ref := (ft f).ref - 1 })
  else
    let ft' := update ft f { ft f with ref := 0, type := .none }
    if (ft f).type = .pipe then do some (← pipeclose L k (ft f).pipe (ft f).writable, ft')
    else some (k, ft')

/-- What `pipealloc` stores in the page of a pipe, less the lock. -/
def initPipe (m : Bytes) (pi : Nat) : Bytes :=
  let m := write32 m (openFlag pi false) 1
  let m := write32 m (openFlag pi true) 1
  let m := write32 m (pi + 540) 0
  write32 m (pi + 536) 0

/-- What `pipealloc` stores in the two files. -/
def initEnds (ft : Ftable) (f0 f1 pi : Nat) : Ftable :=
  let ft := update ft f0 { ft f0 with type := .pipe, readable := true, writable := false, pipe := pi }
  update ft f1 { ft f1 with type := .pipe, readable := false, writable := true, pipe := pi }

/-- `pipealloc`: the two files, if it succeeds. -/
def pipealloc (k : Kmem) (ft : Ftable) : Option (Option (Nat × Nat) × Kmem × Ftable) :=
  match filealloc ft with
  | (none, ft) => some (none, k, ft)
  | (some f0, ft) =>
    match filealloc ft with
    | (none, ft) => do
      let (k, ft) ← fileclose L k ft f0
      some (none, k, ft)
    | (some f1, ft) =>
      match kalloc k with
      | (none, k) => do
        let (k, ft) ← fileclose L k ft f0
        let (k, ft) ← fileclose L k ft f1
        some (none, k, ft)
      | (some pi, k) =>
        some (some (f0, f1), { k with mem := initPipe k.mem pi }, initEnds ft f0 f1 pi)

/-! ## The invariant of the table -/

/-- The references `C` are those that the table counts, and the flags of the
open pipes are set for the ends that are open. -/
structure FilesOk (m : Bytes) (ft : Ftable) (C : Multiset Nat) : Prop where
  ref : ∀ f, (ft f).ref = C.count f
  lt : ∀ f ∈ C, f < NFILE
  closed : ∀ f ∉ C, (ft f).type = .none
  aligned : ∀ f, (ft f).type = .pipe → (ft f).pipe = 4096 * ((ft f).pipe / 4096)
  mine : ∀ f, (ft f).type = .pipe → read32 m (openFlag (ft f).pipe (ft f).writable) ≠ 0
  other : ∀ f, (ft f).type = .pipe → read32 m (openFlag (ft f).pipe (!(ft f).writable)) ≠ 0 →
    ∃ g, (ft g).type = .pipe ∧ (ft g).pipe = (ft f).pipe ∧ (ft g).writable = !(ft f).writable
  inj : ∀ f g, (ft f).type = .pipe → (ft g).type = .pipe → (ft f).pipe = (ft g).pipe →
    (ft f).writable = (ft g).writable → f = g

/-- The pages of the open pipes. -/
def pipeFrames (ft : Ftable) : Finset Nat :=
  ((Finset.range NFILE).filter fun f => (ft f).type = .pipe).image fun f => (ft f).pipe / 4096

def pipePages (ft : Ftable) : Multiset Nat := (pipeFrames ft).val

/-- A file with references has a type now, or had the same one before, with
references. -/
def Typed (ft ft' : Ftable) : Prop :=
  ∀ f, 0 < (ft' f).ref → (ft' f).type ≠ .none ∨ (ft' f).type = (ft f).type ∧ 0 < (ft f).ref

/-- What an action may do to the files, when `l'` is the free list after it: a
page of a pipe still belongs to one or is free. -/
structure FilesStep (l' : List Nat) (ft ft' : Ftable) : Prop where
  typed : Typed ft ft'
  pages : pipePages ft ≤ l' + pipePages ft'

variable {L} {k k' : Kmem} {l l' : List Nat} {m m' : Bytes} {ft ft' ft'' : Ftable} {C T : Multiset Nat} {f g n : Nat}

theorem Frame.read32 {a : Nat} (h : Frame T m m') (hn : n ∉ T) (hd : 4096 * n ≤ a)
    (hl : a + 4 ≤ 4096 * n + 4096) : Framework.read32 m' a = Framework.read32 m a := by
  simp only [Framework.read32]
  rw [readLE_congr fun x h1 h2 => h x (by rwa [show x / 4096 = n by omega])]

theorem openFlag_ge (n : Nat) (w : Bool) : 4096 * n ≤ openFlag (4096 * n) w := by
  cases w <;> simp only [openFlag, Bool.false_eq_true, if_false, if_true] <;> omega

theorem openFlag_le (n : Nat) (w : Bool) : openFlag (4096 * n) w + 4 ≤ 4096 * n + 4096 := by
  cases w <;> simp only [openFlag, Bool.false_eq_true, if_false, if_true] <;> omega

theorem read32_openFlag_frame (h : Frame T m m') (hn : n ∉ T) (w : Bool) :
    read32 m' (openFlag (4096 * n) w) = read32 m (openFlag (4096 * n) w) :=
  h.read32 hn (openFlag_ge n w) (openFlag_le n w)

theorem read32_openFlag_not (m : Bytes) (pi : Nat) (w : Bool) (v : BitVec 32) :
    read32 (write32 m (openFlag pi w) v) (openFlag pi (!w)) = read32 m (openFlag pi (!w)) := by
  refine read32_write32_disjoint ?_
  cases w <;> simp only [openFlag, Bool.not_false, Bool.not_true, Bool.false_eq_true, if_false, if_true] <;> omega

namespace FilesOk

theorem mem_of_pipe (h : FilesOk m ft C) (hf : (ft f).type = .pipe) : f ∈ C := by
  by_contra hc
  rw [h.closed f hc] at hf
  cases hf

theorem mem_pipeFrames (h : FilesOk m ft C) : n ∈ pipeFrames ft ↔ ∃ f, (ft f).type = .pipe ∧ (ft f).pipe = 4096 * n := by
  simp only [pipeFrames, Finset.mem_image, Finset.mem_filter, Finset.mem_range]
  constructor
  · rintro ⟨f, ⟨-, hf⟩, rfl⟩
    exact ⟨f, hf, h.aligned f hf⟩
  · rintro ⟨f, hf, hp⟩
    exact ⟨f, ⟨h.lt f (h.mem_of_pipe hf), hf⟩, by rw [hp, Nat.mul_div_cancel_left n (by decide)]⟩

/-- What keeps the pages of the pipes keeps their flags. -/
theorem frame (h : FilesOk m ft C) (hf : Frame T m m') (hT : ∀ q ∈ pipePages ft, q ∉ T) :
    FilesOk m' ft C := by
  have hread : ∀ f w, (ft f).type = .pipe →
      read32 m' (openFlag (ft f).pipe w) = read32 m (openFlag (ft f).pipe w) := fun f w hp => by
    have hal := h.aligned f hp
    have hmem : (ft f).pipe / 4096 ∈ pipePages ft := h.mem_pipeFrames.mpr ⟨f, hp, hal⟩
    rw [hal]
    exact read32_openFlag_frame hf (hT _ hmem) w
  refine ⟨h.ref, h.lt, h.closed, h.aligned, fun f hp => ?_, fun f hp hne => ?_, h.inj⟩
  · rw [hread f _ hp]
    exact h.mine f hp
  · rw [hread f _ hp] at hne
    exact h.other f hp hne

variable {C' : Multiset Nat}

/-- A table with the same pipes. -/
theorem of_same (h : FilesOk m ft C) (hpipe : ∀ g, (ft' g).type = .pipe ↔ (ft g).type = .pipe)
    (hdata : ∀ g, (ft g).type = .pipe → (ft' g).pipe = (ft g).pipe ∧ (ft' g).writable = (ft g).writable)
    (href : ∀ g, (ft' g).ref = C'.count g) (hlt : ∀ g ∈ C', g < NFILE) (hclosed : ∀ g ∉ C', (ft' g).type = .none) :
    FilesOk m ft' C' ∧ pipePages ft' = pipePages ft := by
  have hok : FilesOk m ft' C' := by
    refine ⟨href, hlt, hclosed, fun g hg => ?_, fun g hg => ?_, fun g hg => ?_, fun g g' hg hg' => ?_⟩
    · rw [(hdata g ((hpipe g).mp hg)).1]
      exact h.aligned g ((hpipe g).mp hg)
    · rw [(hdata g ((hpipe g).mp hg)).1, (hdata g ((hpipe g).mp hg)).2]
      exact h.mine g ((hpipe g).mp hg)
    · rw [(hdata g ((hpipe g).mp hg)).1, (hdata g ((hpipe g).mp hg)).2]
      intro hne
      obtain ⟨g', h1, h2, h3⟩ := h.other g ((hpipe g).mp hg) hne
      exact ⟨g', (hpipe g').mpr h1, (hdata g' h1).1.trans h2, (hdata g' h1).2.trans h3⟩
    · rw [(hdata g ((hpipe g).mp hg)).1, (hdata g ((hpipe g).mp hg)).2, (hdata g' ((hpipe g').mp hg')).1,
        (hdata g' ((hpipe g').mp hg')).2]
      exact h.inj g g' ((hpipe g).mp hg) ((hpipe g').mp hg')
  refine ⟨hok, congrArg Finset.val (Finset.ext fun n => ?_)⟩
  rw [hok.mem_pipeFrames, h.mem_pipeFrames]
  constructor
  · rintro ⟨g, hg, hn⟩
    exact ⟨g, (hpipe g).mp hg, by rw [← (hdata g ((hpipe g).mp hg)).1, hn]⟩
  · rintro ⟨g, hg, hn⟩
    exact ⟨g, (hpipe g).mpr hg, by rw [(hdata g hg).1, hn]⟩

/-- Another reference count for `f`. -/
theorem set_ref {r : Nat} (h : FilesOk m ft C) (hr : C'.count f = r)
    (hC : ∀ g, g ≠ f → C'.count g = C.count g) (hf : f < NFILE) (hf' : f ∈ C') :
    FilesOk m (update ft f { ft f with ref := r }) C' ∧
      pipePages (update ft f { ft f with ref := r }) = pipePages ft := by
  have hmem : ∀ g, g ≠ f → (g ∈ C' ↔ g ∈ C) := fun g hg => by
    rw [← count_pos, ← count_pos, hC g hg]
  refine h.of_same (fun g => ?_) (fun g _ => ?_) (fun g => ?_) (fun g hg => ?_) fun g hg => ?_
  all_goals by_cases hgf : g = f
  all_goals first
    | subst hgf
    | skip
  · rw [update_self]
  · rw [update_of_ne hgf]
  · rw [update_self]
    exact ⟨rfl, rfl⟩
  · rw [update_of_ne hgf]
    exact ⟨rfl, rfl⟩
  · rw [update_self, hr]
  · rw [update_of_ne hgf, hC g hgf, h.ref]
  · exact hf
  · exact h.lt g ((hmem g hgf).mp hg)
  · exact absurd hf' hg
  · rw [update_of_ne hgf]
    exact h.closed g fun hgC => hg ((hmem g hgf).mpr hgC)

end FilesOk

protected theorem Typed.refl (ft : Ftable) : Typed ft ft := fun _ hf => .inr ⟨rfl, hf⟩

protected theorem Typed.trans (h : Typed ft ft') (h' : Typed ft' ft'') : Typed ft ft'' := by
  intro f hf
  obtain hne | ⟨hty, hr⟩ := h' f hf
  · exact .inl hne
  · rw [hty]
    exact h f hr

/-- One file changes. -/
theorem Typed.update (ft : Ftable) {x : File}
    (hx : 0 < x.ref → x.type ≠ .none ∨ x.type = (ft f).type ∧ 0 < (ft f).ref) :
    Typed ft (Function.update ft f x) := by
  intro g
  by_cases hg : g = f
  · subst hg; rw [update_self]; exact hx
  · rw [update_of_ne hg]; exact Typed.refl ft g

protected theorem FilesStep.refl (ft : Ftable) : FilesStep l' ft ft := ⟨.refl ft, Multiset.le_add_left _ _⟩

theorem FilesStep.of_same (h : Typed ft ft') (hp : pipePages ft' = pipePages ft) : FilesStep l' ft ft' :=
  ⟨h, by rw [hp]; exact Multiset.le_add_left _ _⟩

/-- The pages that pipes gain or lose are those the free list loses or gains. -/
theorem FilesStep.of_total (h : Typed ft ft') (ht : (l' : Multiset Nat) + pipePages ft' = l + pipePages ft) :
    FilesStep l' ft ft' := ⟨h, by rw [ht]; exact Multiset.le_add_left _ _⟩

/-! ## References -/

theorem filedup_ok (h : FilesOk m ft C) (hf : f ∈ C) :
    ∃ ft', filedup ft f = some ft' ∧ FilesOk m ft' (f ::ₘ C) ∧ pipePages ft' = pipePages ft ∧ Typed ft ft' := by
  have hpos := count_pos.mpr hf
  obtain ⟨hok, hpages⟩ := h.set_ref (count_cons_self f C) (fun g hg => count_cons_of_ne hg C)
    (h.lt f hf) (mem_cons_self f C)
  rw [filedup, h.ref, if_neg (by omega)]
  exact ⟨_, rfl, hok, hpages, .update ft fun _ => .inr ⟨rfl, by rw [h.ref]; exact hpos⟩⟩

/-- `filealloc` finds a file without references. -/
theorem filealloc_ok (h : FilesOk m ft C) :
    filealloc ft = (none, ft) ∨ ∃ f ft', filealloc ft = (some f, ft') ∧ f ∉ C ∧ FilesOk m ft' (f ::ₘ C) ∧
      (∀ g, (ft' g).type = (ft g).type) ∧ pipePages ft' = pipePages ft := by
  rw [filealloc]
  cases hfind : (List.range NFILE).find? fun f => decide ((ft f).ref = 0) with
  | none => exact .inl rfl
  | some f =>
    have href : (ft f).ref = 0 := of_decide_eq_true (List.find?_some hfind :)
    have hlt : f < NFILE := List.mem_range.mp (List.mem_of_find?_eq_some hfind)
    have hf : f ∉ C := by
      rw [h.ref] at href
      exact count_eq_zero.mp href
    have hcount : (f ::ₘ C).count f = 1 := by rw [count_cons_self, count_eq_zero.mpr hf]
    obtain ⟨hok, hpages⟩ := h.set_ref hcount (fun g hg => count_cons_of_ne hg C) hlt
      (mem_cons_self f C)
    refine .inr ⟨f, _, rfl, hf, hok, fun g => ?_, hpages⟩
    by_cases hgf : g = f
    · subst hgf
      rw [update_self]
    · rw [update_of_ne hgf]

/-- A file gets a type other than a pipe. -/
theorem FilesOk.setType {type : FileType} (readable writable : Bool) (h : FilesOk m ft C) (hf : f ∈ C)
    (hty : (ft f).type = .none) (hne : type ≠ .pipe) :
    FilesOk m (update ft f { ft f with type := type, readable := readable, writable := writable }) C ∧
      pipePages (update ft f { ft f with type := type, readable := readable, writable := writable }) =
        pipePages ft := by
  refine h.of_same (fun g => ?_) (fun g hg => ?_) (fun g => ?_) h.lt fun g hg => ?_
  · by_cases hgf : g = f
    · subst hgf
      rw [update_self, hty]
      exact ⟨fun hc => absurd hc hne, nofun⟩
    · rw [update_of_ne hgf]
  · have hgf : g ≠ f := fun hc => by rw [hc, hty] at hg; cases hg
    rw [update_of_ne hgf]
    exact ⟨rfl, rfl⟩
  · by_cases hgf : g = f
    · subst hgf
      rw [update_self]
      exact h.ref g
    · rw [update_of_ne hgf]
      exact h.ref g
  · have hgf : g ≠ f := fun hc => hg (hc ▸ hf)
    rw [update_of_ne hgf]
    exact h.closed g hg

/-! ## Closing -/

/-- `pipeclose` of one end when the other is open keeps the page, and else
frees it. -/
theorem pipeclose_ok {w : Bool} (hfree : k.Free l) (hT : n ::ₘ (l : Multiset Nat) ≤ L.frames.val) :
    ∃ k' l', pipeclose L k (4096 * n) w = some k' ∧ k'.Free l' ∧ Frame (n ::ₘ (l : Multiset Nat)) k.mem k'.mem ∧
      (read32 k.mem (openFlag (4096 * n) (!w)) = 0 ∧ (l' : Multiset Nat) = n ::ₘ (l : Multiset Nat) ∨
        read32 k.mem (openFlag (4096 * n) (!w)) ≠ 0 ∧ l' = l ∧ read32 k'.mem (openFlag (4096 * n) w) = 0 ∧
          read32 k'.mem (openFlag (4096 * n) (!w)) = read32 k.mem (openFlag (4096 * n) (!w)) ∧
          Frame {n} k.mem k'.mem) := by
  have hn : n ∉ l := (nodup_cons.mp (nodup_of_le hT L.frames.nodup)).1
  let m1 := write32 k.mem (openFlag (4096 * n) w) 0
  have hf1 : Frame {n} k.mem m1 := Frame.write32 (openFlag_ge n w) (openFlag_le n w)
  have hle : ({n} : Multiset Nat) ≤ n ::ₘ (l : Multiset Nat) :=
    singleton_le.mpr (mem_cons_self n _)
  have hfree1 : Kmem.Free { k with mem := m1 } l := hfree.frame hf1 fun q hq hqn =>
    hn (mem_singleton.mp hqn ▸ hq)
  have hself : read32 m1 (openFlag (4096 * n) w) = 0 := read32_write32_self _ _ _
  have hnot : read32 m1 (openFlag (4096 * n) (!w)) = read32 k.mem (openFlag (4096 * n) (!w)) :=
    read32_openFlag_not _ _ _ _
  -- both flags are clear exactly when the other one was
  have hcond : (read32 m1 (openFlag (4096 * n) false) = 0 ∧ read32 m1 (openFlag (4096 * n) true) = 0) ↔
      read32 k.mem (openFlag (4096 * n) (!w)) = 0 := by
    rw [← hnot]
    cases w with
    | false => exact ⟨fun h => h.2, fun h => ⟨hself, h⟩⟩
    | true => exact ⟨fun h => h.1, fun h => ⟨h, hself⟩⟩
  simp only [pipeclose]
  by_cases hc : read32 k.mem (openFlag (4096 * n) (!w)) = 0
  · obtain ⟨k', hk', hfree', hf'⟩ := kfree_ok hfree1 hT
    rw [if_pos (hcond.mpr hc)]
    exact ⟨k', n :: l, hk', hfree', (hf1.trans hf').mono hle, .inl ⟨hc, rfl⟩⟩
  · rw [if_neg fun h => hc (hcond.mp h)]
    exact ⟨_, l, rfl, hfree1, hf1.mono hle, .inr ⟨hc, rfl, hself, hnot, hf1⟩⟩

section Last

/-! The last reference to `f` is closed. -/

variable (h : FilesOk m ft (f ::ₘ C)) (hf : f ∉ C) (hself : (ft' f).ref = 0 ∧ (ft' f).type = .none)
  (hsame : ∀ g, g ≠ f → ft' g = ft g)

include h hf hself hsame

theorem FilesOk.drop_ref (g : Nat) : (ft' g).ref = C.count g := by
  by_cases hgf : g = f
  · subst hgf
    rw [hself.1, count_eq_zero.mpr hf]
  · rw [hsame g hgf, h.ref, count_cons_of_ne hgf]

omit hf in
theorem FilesOk.drop_closed (g : Nat) (hg : g ∉ C) : (ft' g).type = .none := by
  by_cases hgf : g = f
  · subst hgf
    exact hself.2
  · rw [hsame g hgf]
    exact h.closed g fun hg' => (mem_cons.mp hg').elim hgf hg

/-- A file that is no pipe. -/
theorem FilesOk.drop (hp : (ft f).type ≠ .pipe) : FilesOk m ft' C ∧ pipePages ft' = pipePages ft := by
  refine h.of_same (fun g => ?_) (fun g hg => ?_) (h.drop_ref hf hself hsame)
    (fun g hg => h.lt g (mem_cons_of_mem hg)) (h.drop_closed hself hsame)
  · by_cases hgf : g = f
    · subst hgf
      rw [hself.2]
      exact ⟨nofun, fun hc => absurd hc hp⟩
    · rw [hsame g hgf]
  · rw [hsame g fun hc => hp (hc ▸ hg)]
    exact ⟨rfl, rfl⟩

/-- An end of a pipe, when its flag is cleared or the other end was closed
before. -/
theorem FilesOk.drop_pipe (hp : (ft f).type = .pipe)
    (hrest : ∀ g w, (ft g).type = .pipe → (ft g).pipe ≠ (ft f).pipe →
      read32 m' (openFlag (ft g).pipe w) = read32 m (openFlag (ft g).pipe w))
    (hend : read32 m (openFlag (ft f).pipe (!(ft f).writable)) = 0 ∨
      read32 m' (openFlag (ft f).pipe (ft f).writable) = 0 ∧
        read32 m' (openFlag (ft f).pipe (!(ft f).writable)) = read32 m (openFlag (ft f).pipe (!(ft f).writable))) :
    FilesOk m' ft' C := by
  have hne : ∀ g, (ft' g).type = .pipe → g ≠ f ∧ (ft g).type = .pipe := fun g hg => by
    have hgf : g ≠ f := fun hc => by rw [hc, hself.2] at hg; cases hg
    exact ⟨hgf, hsame g hgf ▸ hg⟩
  -- a file with the same pipe is its other end
  have hopp : ∀ g, g ≠ f → (ft g).type = .pipe → (ft g).pipe = (ft f).pipe → (ft g).writable = !(ft f).writable :=
    fun g hgf hg hpg => by
      rcases Bool.eq_or_eq_not (ft g).writable (ft f).writable with hw | hw
      · exact absurd (h.inj g f hg hp hpg hw) hgf
      · exact hw
  refine ⟨h.drop_ref hf hself hsame, fun g hg => h.lt g (mem_cons_of_mem hg), h.drop_closed hself hsame,
    fun g hg' => ?_, fun g hg' => ?_, fun g hg' => ?_, fun g g' h1 h2 => ?_⟩
  · obtain ⟨hgf, hg⟩ := hne g hg'
    rw [hsame g hgf]
    exact h.aligned g hg
  · obtain ⟨hgf, hg⟩ := hne g hg'
    rw [hsame g hgf]
    have hmine := h.mine g hg
    by_cases hpg : (ft g).pipe = (ft f).pipe
    · rw [hpg, hopp g hgf hg hpg] at hmine ⊢
      rwa [(hend.resolve_left hmine).2]
    · rwa [hrest g _ hg hpg]
  · obtain ⟨hgf, hg⟩ := hne g hg'
    rw [hsame g hgf]
    intro hflag
    by_cases hpg : (ft g).pipe = (ft f).pipe
    · have hmine := h.mine g hg
      rw [hpg, hopp g hgf hg hpg] at hmine hflag
      rw [Bool.not_not] at hflag
      exact absurd (hend.resolve_left hmine).1 hflag
    · rw [hrest g _ hg hpg] at hflag
      obtain ⟨g', h1, h2, h3⟩ := h.other g hg hflag
      have hg'f : g' ≠ f := fun hc => hpg (by rw [← h2, hc])
      exact ⟨g', by rw [hsame g' hg'f]; exact ⟨h1, h2, h3⟩⟩
  · obtain ⟨hgf, hg⟩ := hne g h1
    obtain ⟨hgf', hg'⟩ := hne g' h2
    rw [hsame g hgf, hsame g' hgf']
    exact h.inj g g' hg hg'

omit h hf in
/-- The pipes that are left. -/
theorem FilesOk.mem_drop (hok : FilesOk m' ft' C) :
    n ∈ pipeFrames ft' ↔ ∃ g, g ≠ f ∧ (ft g).type = .pipe ∧ (ft g).pipe = 4096 * n := by
  rw [hok.mem_pipeFrames]
  constructor
  · rintro ⟨g, hg, hn⟩
    have hgf : g ≠ f := fun hc => by rw [hc, hself.2] at hg; cases hg
    rw [hsame g hgf] at hg hn
    exact ⟨g, hgf, hg, hn⟩
  · rintro ⟨g, hgf, hg, hn⟩
    exact ⟨g, by rw [hsame g hgf]; exact ⟨hg, hn⟩⟩

omit hf in
/-- When the other end was closed before, no file has the pipe. -/
theorem FilesOk.pipePages_drop_last (hok : FilesOk m' ft' C) (hp : (ft f).type = .pipe)
    (hn : (ft f).pipe = 4096 * n) (hflag : read32 m (openFlag (ft f).pipe (!(ft f).writable)) = 0) :
    pipePages ft = n ::ₘ pipePages ft' := by
  have hframes : pipeFrames ft = insert n (pipeFrames ft') := by
    ext q
    rw [h.mem_pipeFrames, Finset.mem_insert, FilesOk.mem_drop hself hsame hok]
    constructor
    · rintro ⟨g, hg, hq⟩
      by_cases hgf : g = f
      · subst hgf
        exact .inl (by omega)
      · exact .inr ⟨g, hgf, hg, hq⟩
    · rintro (rfl | ⟨g, -, hg, hq⟩)
      · exact ⟨f, hp, hn⟩
      · exact ⟨g, hg, hq⟩
  have hnot : n ∉ pipeFrames ft' := fun hc => by
    obtain ⟨g, hgf, hg, hq⟩ := (FilesOk.mem_drop hself hsame hok).mp hc
    have hpg : (ft g).pipe = (ft f).pipe := hq.trans hn.symm
    have hmine := h.mine g hg
    rcases Bool.eq_or_eq_not (ft g).writable (ft f).writable with hw | hw
    · exact hgf (h.inj g f hg hp hpg hw)
    · rw [hpg, hw] at hmine
      exact hmine hflag
  rw [pipePages, pipePages, hframes, Finset.insert_val_of_notMem hnot]

omit hf in
/-- When the other end is open, it has the pipe still. -/
theorem FilesOk.pipePages_drop (hok : FilesOk m' ft' C) (hp : (ft f).type = .pipe)
    (hflag : read32 m (openFlag (ft f).pipe (!(ft f).writable)) ≠ 0) : pipePages ft' = pipePages ft := by
  refine congrArg Finset.val (Finset.ext fun q => ?_)
  rw [h.mem_pipeFrames, FilesOk.mem_drop hself hsame hok]
  constructor
  · rintro ⟨g, -, hg, hq⟩
    exact ⟨g, hg, hq⟩
  · rintro ⟨g, hg, hq⟩
    by_cases hgf : g = f
    · subst hgf
      obtain ⟨g', h1, h2, h3⟩ := h.other g hp hflag
      refine ⟨g', fun hc => ?_, h1, h2.trans hq⟩
      rw [hc] at h3
      exact (Bool.eq_not_self _).mp h3
    · exact ⟨g, hgf, hg, hq⟩

end Last

/-- `fileclose` drops a reference, and the type with the last one. -/
theorem fileclose_eq_some (h : fileclose L k ft f = some (k', ft')) :
    ∃ x, ft' = update ft f x ∧ x.ref = (ft f).ref - 1 ∧ (0 < x.ref → x.type = (ft f).type) := by
  rw [fileclose] at h
  split at h <;> [cases h; skip]
  split at h
  · rename_i hpos
    simp only [some.injEq, Prod.mk.injEq] at h
    exact ⟨_, h.2.symm, rfl, fun _ => rfl⟩
  · rename_i hpos
    refine ⟨{ ft f with ref := 0, type := .none }, ?_, by simp only; omega, nofun⟩
    simp only at h
    split at h
    · simp only [bind_eq_bind, bind_eq_some_iff, some.injEq, Prod.mk.injEq] at h
      obtain ⟨_, -, -, h⟩ := h
      exact h.symm
    · simp only [some.injEq, Prod.mk.injEq] at h
      exact h.2.symm

theorem fileclose_typed (h : fileclose L k ft f = some (k', ft')) : Typed ft ft' := by
  obtain ⟨x, rfl, hr, hty⟩ := fileclose_eq_some h
  exact .update ft fun hx => .inr ⟨hty hx, by omega⟩

/-- `filealloc` finds a file without references. -/
theorem filealloc_eq_some (h : filealloc ft = (some f, ft')) : ft' = update ft f { ft f with ref := 1 } := by
  rw [filealloc] at h
  split at h
  · cases h
  · simp only [Prod.mk.injEq, some.injEq] at h
    obtain ⟨rfl, rfl⟩ := h
    rfl

/-- A file that `filealloc` has found is closed again. -/
theorem fileclose_filealloc_typed (ha : filealloc ft = (some f, ft'))
    (h : fileclose L k ft' f = some (k', ft'')) : Typed ft ft'' := by
  obtain rfl := filealloc_eq_some ha
  obtain ⟨x, rfl, hr, -⟩ := fileclose_eq_some h
  rw [update_idem]
  refine .update ft fun hx => ?_
  rw [hr, update_self] at hx
  exact absurd hx (Nat.lt_irrefl 0)

/-- Two files change, and are without references or with a type then. -/
theorem Typed.of_two (f0 f1 : Nat) (h0 : 0 < (ft' f0).ref → (ft' f0).type ≠ .none)
    (h1 : 0 < (ft' f1).ref → (ft' f1).type ≠ .none) (h : ∀ g, g ≠ f0 → g ≠ f1 → ft' g = ft g) : Typed ft ft' := by
  intro g hg
  by_cases hg0 : g = f0
  · subst hg0; exact .inl (h0 hg)
  by_cases hg1 : g = f1
  · subst hg1; exact .inl (h1 hg)
  rw [h g hg0 hg1] at hg ⊢
  exact Typed.refl ft g hg

/-- `fileclose` drops a reference, and frees the page of a pipe with the last
one. -/
theorem fileclose_ok (h : FilesOk k.mem ft (f ::ₘ C)) (hfree : k.Free l) (hT : l + pipePages ft ≤ L.frames.val) :
    ∃ k' ft' l', fileclose L k ft f = some (k', ft') ∧ FilesOk k'.mem ft' C ∧ k'.Free l' ∧
      (l' : Multiset Nat) + pipePages ft' = l + pipePages ft ∧ Frame (l + pipePages ft) k.mem k'.mem := by
  have hcount := h.ref f
  rw [count_cons_self] at hcount
  rw [fileclose, if_neg (by omega)]
  by_cases hf : f ∈ C
  · have hpos := count_pos.mpr hf
    obtain ⟨hok, hpages⟩ := h.set_ref (r := (ft f).ref - 1) (by omega)
      (fun g hg => (count_cons_of_ne hg C).symm) (h.lt f (mem_cons_self f C)) hf
    rw [if_pos (by omega)]
    exact ⟨k, _, l, rfl, hok, hfree, by rw [hpages], Frame.rfl'⟩
  have hzero := count_eq_zero.mpr hf
  rw [if_neg (by omega)]
  generalize hft' : update ft f { ft f with ref := 0, type := .none } = ft'
  have hself : (ft' f).ref = 0 ∧ (ft' f).type = .none := by rw [← hft', update_self]; exact ⟨rfl, rfl⟩
  have hsame : ∀ g, g ≠ f → ft' g = ft g := fun g hg => by rw [← hft', update_of_ne hg]
  by_cases hp : (ft f).type = .pipe
  · have hal := h.aligned f hp
    generalize hn : (ft f).pipe / 4096 = n at hal
    have hmem : n ∈ pipePages ft := h.mem_pipeFrames.mpr ⟨f, hp, hal⟩
    have hdis := (nodup_add.mp (nodup_of_le hT L.frames.nodup)).2.2
    have hT' : n ::ₘ (l : Multiset Nat) ≤ l + pipePages ft := by
      rw [← singleton_add, add_comm]
      exact add_le_add_right (singleton_le.mpr hmem) _
    obtain ⟨k', l', hk', hfree', hframe, hcase⟩ := pipeclose_ok (w := (ft f).writable) hfree (hT'.trans hT)
    have hrest : ∀ g w, (ft g).type = .pipe → (ft g).pipe ≠ (ft f).pipe →
        read32 k'.mem (openFlag (ft g).pipe w) = read32 k.mem (openFlag (ft g).pipe w) := fun g w hg hne => by
      have halg := h.aligned g hg
      have hg' : (ft g).pipe / 4096 ∈ pipePages ft := h.mem_pipeFrames.mpr ⟨g, hg, halg⟩
      rw [halg]
      refine read32_openFlag_frame hframe (fun hc => ?_) w
      rcases mem_cons.mp hc with hc | hc
      · exact hne (by rw [halg, hal, hc])
      · exact disjoint_left.mp hdis hc hg'
    rw [← hal] at hk' hcase
    have hok : FilesOk k'.mem ft' C := h.drop_pipe hf hself hsame hp hrest
      (hcase.imp And.left fun h => ⟨h.2.2.1, h.2.2.2.1⟩)
    simp only [if_pos hp, hk', bind_eq_bind, bind_some]
    refine ⟨k', ft', l', rfl, hok, hfree', ?_, hframe.mono hT'⟩
    rcases hcase with ⟨hflag, hl'⟩ | ⟨hflag, hl', -⟩
    · rw [hl', h.pipePages_drop_last hself hsame hok hp hal hflag, cons_add, add_cons]
    · rw [hl', h.pipePages_drop hself hsame hok hp hflag]
  · obtain ⟨hok, hpages⟩ := h.drop hf hself hsame hp
    rw [if_neg hp]
    exact ⟨k, ft', l, rfl, hok, hfree, by rw [hpages], Frame.rfl'⟩

/-! ## `pipealloc` -/

theorem initPipe_frame (m : Bytes) (n : Nat) : Frame {n} m (initPipe m (4096 * n)) := by
  refine (((Frame.write32 (openFlag_ge n false) (openFlag_le n false)).trans
    (Frame.write32 (openFlag_ge n true) (openFlag_le n true))).trans
    (Frame.write32 ?_ ?_)).trans (Frame.write32 ?_ ?_)
  all_goals omega

theorem read32_initPipe (m : Bytes) (pi : Nat) (w : Bool) : read32 (initPipe m pi) (openFlag pi w) = 1 := by
  have h1 : openFlag pi w + 4 ≤ pi + 540 ∨ pi + 540 + 4 ≤ openFlag pi w := by cases w <;> simp [openFlag]
  have h2 : openFlag pi w + 4 ≤ pi + 536 ∨ pi + 536 + 4 ≤ openFlag pi w := by cases w <;> simp [openFlag]
  rw [initPipe, read32_write32_disjoint (by omega), read32_write32_disjoint (by omega)]
  cases w with
  | false => rw [← Bool.not_true, read32_openFlag_not, Bool.not_true, read32_write32_self]
  | true => rw [read32_write32_self]

/-- Two files without a type become the ends of a new pipe. -/
theorem FilesOk.link {f0 f1 : Nat} (h : FilesOk m ft C) (hf0 : f0 ∈ C) (hf1 : f1 ∈ C) (hne : f0 ≠ f1)
    (ht0 : (ft f0).type = .none) (ht1 : (ft f1).type = .none) (hn : n ∉ pipePages ft)
    (hnew : ∀ w, read32 m' (openFlag (4096 * n) w) ≠ 0) (hf : Frame {n} m m') :
    FilesOk m' (initEnds ft f0 f1 (4096 * n)) C ∧
      pipePages (initEnds ft f0 f1 (4096 * n)) = n ::ₘ pipePages ft := by
  have h0 : initEnds ft f0 f1 (4096 * n) f0 =
      { ft f0 with type := .pipe, readable := true, writable := false, pipe := 4096 * n } := by
    rw [initEnds, update_of_ne hne, update_self]
  have h1 : initEnds ft f0 f1 (4096 * n) f1 =
      { ft f1 with type := .pipe, readable := false, writable := true, pipe := 4096 * n } := by
    rw [initEnds, update_self, update_of_ne hne.symm]
  have hsame : ∀ g, g ≠ f0 → g ≠ f1 → initEnds ft f0 f1 (4096 * n) g = ft g := fun g hg0 hg1 => by
    rw [initEnds, update_of_ne hg1, update_of_ne hg0]
  generalize initEnds ft f0 f1 (4096 * n) = ft' at h0 h1 hsame ⊢
  have h' := h.frame hf fun q hq hqn => hn (mem_singleton.mp hqn ▸ hq)
  -- the pipes are the old ones and the new one
  have hcases : ∀ g, (ft' g).type = .pipe → g = f0 ∨ g = f1 ∨
      (g ≠ f0 ∧ g ≠ f1 ∧ ft' g = ft g ∧ (ft g).type = .pipe ∧ (ft g).pipe ≠ 4096 * n) := fun g hg => by
    by_cases hg0 : g = f0
    · exact .inl hg0
    by_cases hg1 : g = f1
    · exact .inr (.inl hg1)
    have he := hsame g hg0 hg1
    rw [he] at hg
    exact .inr (.inr ⟨hg0, hg1, he, hg, fun hc => hn (h.mem_pipeFrames.mpr ⟨g, hg, hc⟩)⟩)
  have hok : FilesOk m' ft' C := by
    refine ⟨fun g => ?_, h.lt, fun g hg => ?_, fun g hg => ?_, fun g hg => ?_, fun g hg => ?_,
      fun g g' hg hg' hp hw => ?_⟩
    · by_cases hg0 : g = f0
      · rw [hg0, h0, ← h.ref]
      by_cases hg1 : g = f1
      · rw [hg1, h1, ← h.ref]
      rw [hsame g hg0 hg1, h.ref]
    · rw [hsame g (fun hc => hg (hc ▸ hf0)) fun hc => hg (hc ▸ hf1)]
      exact h.closed g hg
    · rcases hcases g hg with rfl | rfl | ⟨-, -, he, hg', -⟩
      · rw [h0, Nat.mul_div_cancel_left n (by decide)]
      · rw [h1, Nat.mul_div_cancel_left n (by decide)]
      · rw [he]
        exact h.aligned g hg'
    · rcases hcases g hg with rfl | rfl | ⟨-, -, he, hg', -⟩
      · rw [h0]
        exact hnew false
      · rw [h1]
        exact hnew true
      · rw [he]
        exact h'.mine g hg'
    · rcases hcases g hg with rfl | rfl | ⟨-, -, he, hg', hp⟩
      · exact fun _ => ⟨f1, by rw [h1], by rw [h0, h1], by rw [h0, h1]; rfl⟩
      · exact fun _ => ⟨f0, by rw [h0], by rw [h0, h1], by rw [h0, h1]; rfl⟩
      · rw [he]
        intro hflag
        obtain ⟨g', h2, h3, h4⟩ := h'.other g hg' hflag
        have hg0 : g' ≠ f0 := fun hc => by rw [hc, ht0] at h2; cases h2
        have hg1 : g' ≠ f1 := fun hc => by rw [hc, ht1] at h2; cases h2
        exact ⟨g', by rw [hsame g' hg0 hg1]; exact ⟨h2, h3, h4⟩⟩
    · rcases hcases g hg with rfl | rfl | ⟨-, -, he, hg1, hn1⟩ <;>
        rcases hcases g' hg' with rfl | rfl | ⟨-, -, he', hg1', hn1'⟩
      · rfl
      · rw [h0, h1] at hw
        cases hw
      · rw [h0, he'] at hp
        exact absurd hp.symm hn1'
      · rw [h0, h1] at hw
        cases hw
      · rfl
      · rw [h1, he'] at hp
        exact absurd hp.symm hn1'
      · rw [h0, he] at hp
        exact absurd hp hn1
      · rw [h1, he] at hp
        exact absurd hp hn1
      · rw [he, he'] at hp hw
        exact h.inj g g' hg1 hg1' hp hw
  refine ⟨hok, ?_⟩
  have hframes : pipeFrames ft' = insert n (pipeFrames ft) := by
    ext q
    rw [hok.mem_pipeFrames, Finset.mem_insert, h.mem_pipeFrames]
    constructor
    · rintro ⟨g, hg, hq⟩
      rcases hcases g hg with rfl | rfl | ⟨-, -, he, hg', -⟩
      · simp only [h0] at hq
        exact .inl (by omega)
      · simp only [h1] at hq
        exact .inl (by omega)
      · rw [he] at hq
        exact .inr ⟨g, hg', hq⟩
    · rintro (rfl | ⟨g, hg, hq⟩)
      · exact ⟨f0, by rw [h0], by rw [h0]⟩
      · have hg0 : g ≠ f0 := fun hc => by rw [hc, ht0] at hg; cases hg
        have hg1 : g ≠ f1 := fun hc => by rw [hc, ht1] at hg; cases hg
        exact ⟨g, by rw [hsame g hg0 hg1]; exact ⟨hg, hq⟩⟩
  rw [pipePages, pipePages, hframes, Finset.insert_val_of_notMem hn]

/-- `pipealloc` makes two new references to a new pipe, or leaves everything as
it was. -/
theorem pipealloc_ok (h : FilesOk k.mem ft C) (hfree : k.Free l) (hT : l + pipePages ft ≤ L.frames.val) :
    ∃ r k' ft' l', pipealloc L k ft = some (r, k', ft') ∧ k'.Free l' ∧
      (l' : Multiset Nat) + pipePages ft' = l + pipePages ft ∧ Frame (l + pipePages ft) k.mem k'.mem ∧
      (r = none ∧ FilesOk k'.mem ft' C ∨ ∃ f0 f1, r = some (f0, f1) ∧ FilesOk k'.mem ft' (f0 ::ₘ f1 ::ₘ C)) ∧
      Typed ft ft' := by
  simp only [pipealloc]
  obtain hnone | ⟨f0, ft1, he1, hf0, hok1, ht1, hp1⟩ := filealloc_ok h
  · rw [hnone]
    exact ⟨none, k, ft, l, rfl, hfree, rfl, Frame.rfl', .inl ⟨rfl, h⟩, .refl ft⟩
  simp only [he1]
  obtain hnone | ⟨f1, ft2, he2, hf1, hok2, ht2, hp2⟩ := filealloc_ok hok1
  · obtain ⟨k', ft', l', hk', hok', hfree', htot, hf'⟩ := fileclose_ok hok1 hfree (by rwa [hp1])
    rw [hp1] at htot hf'
    simp only [hnone, hk', bind_eq_bind, bind_some]
    exact ⟨none, k', ft', l', rfl, hfree', htot, hf', .inl ⟨rfl, hok'⟩, fileclose_filealloc_typed he1 hk'⟩
  simp only [he2]
  have hpages : pipePages ft2 = pipePages ft := hp2.trans hp1
  rcases l with _ | ⟨n, l⟩
  · rw [kalloc_nil hfree]
    rw [cons_swap] at hok2
    obtain ⟨k3, ft3, l3, hk3, hok3, hfree3, htot3, hf3⟩ := fileclose_ok hok2 hfree (by rwa [hpages])
    rw [hpages] at htot3 hf3
    obtain ⟨k', ft', l', hk', hok', hfree', htot, hf'⟩ := fileclose_ok hok3 hfree3 (by rwa [htot3])
    rw [htot3] at htot hf'
    simp only [hk3, hk', bind_eq_bind, bind_some]
    refine ⟨none, k', ft', l', rfl, hfree', htot, hf3.trans hf', .inl ⟨rfl, hok'⟩, ?_⟩
    obtain rfl := filealloc_eq_some he1
    obtain rfl := filealloc_eq_some he2
    obtain ⟨x, rfl, hx, -⟩ := fileclose_eq_some hk3
    obtain ⟨y, rfl, hy, -⟩ := fileclose_eq_some hk'
    have hne : f0 ≠ f1 := fun hc => hf1 (hc ▸ mem_cons_self f0 C)
    simp only [update_self, update_of_ne hne, update_of_ne hne.symm] at hx hy
    refine .of_two f0 f1 (fun h0 => ?_) (fun h1 => ?_) fun g hg0 hg1 => ?_
    · rw [update_of_ne hne, update_self, hx] at h0
      cases h0
    · rw [update_self, hy] at h1
      cases h1
    · simp only [update_of_ne hg0, update_of_ne hg1]
  have hnd := nodup_of_le hT L.frames.nodup
  rw [← cons_coe, cons_add, nodup_cons, mem_add, not_or, mem_coe] at hnd
  obtain ⟨⟨hnl, hnp⟩, hnd⟩ := hnd
  obtain ⟨k3, hk3, hfree3, hf3⟩ := kalloc_cons hfree hnl
  simp only [hk3]
  have hf1' : f1 ≠ f0 := fun hc => hf1 (hc ▸ mem_cons_self f0 C)
  have hok3 := hok2.frame hf3 fun q hq hqn => hnp (by rw [← hpages, ← mem_singleton.mp hqn]; exact hq)
  have hty0 : (ft2 f0).type = .none := by rw [ht2, ht1, h.closed f0 hf0]
  have hty1 : (ft2 f1).type = .none := by rw [ht2, hok1.closed f1 hf1]
  have hlink := hok3.link (mem_cons_of_mem (mem_cons_self f0 C)) (mem_cons_self f1 _)
    hf1'.symm hty0 hty1 (by rwa [hpages]) (fun w => by rw [read32_initPipe]; decide) (initPipe_frame k3.mem n)
  refine ⟨_, { k3 with mem := initPipe k3.mem (4096 * n) }, _, l, rfl, ?_, ?_, ?_, .inr ⟨f0, f1, rfl, ?_⟩, ?_⟩
  · exact hfree3.frame (initPipe_frame k3.mem n) fun q hq hqn => hnl (mem_singleton.mp hqn ▸ hq)
  · rw [hlink.2, hpages, add_cons, ← cons_coe, cons_add]
  · refine (hf3.trans (initPipe_frame k3.mem n)).mono (singleton_le.mpr ?_)
    exact mem_add.mpr (.inl (List.mem_cons_self ..))
  · rw [cons_swap]
    exact hlink.1
  · obtain rfl := filealloc_eq_some he1
    obtain rfl := filealloc_eq_some he2
    refine .of_two f0 f1 (fun _ => ?_) (fun _ => ?_) fun g hg0 hg1 => ?_
    · simp [initEnds, update_of_ne hf1'.symm]
    · simp [initEnds]
    · simp only [initEnds, update_of_ne hg0, update_of_ne hg1]

end Xv6.Vm
