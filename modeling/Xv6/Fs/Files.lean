import Xv6.Framework.Run
import Xv6.Fs.Create

/-!
# Files and processes keep the invariant

An open file has a claim on its inode, with the type the inode had when it was
opened, and a process has one on its current directory. `Held I ty K S s` says
that the invariant `I` holds with these claims, with the types `ty`, and with
the claims `K` and the locks `S` of the call in progress. Every call gives back
what it takes (`syscall_spec`).
-/

namespace Xv6.Fs

open Framework Function Multiset State

/-- The claim of a file whose inode had type `t` when it was opened. -/
def fileClaim (t : Short) (x : File) : Multiset Claim := if x.type = .none then 0 else {(x.ip, some t)}

/-- The claim of a process on its current directory. -/
def cwdClaim (x : Option Proc) : Multiset Claim := x.elim 0 fun x => {(x.cwd, none)}

/-- The claims of the files and the processes. -/
def State.claims (ty : Fin NFILE → Short) (s : State) : Multiset Claim :=
  ∑ f, fileClaim (ty f) (s.ftable f) + ∑ p, cwdClaim (s.proc p)

/-- The claims are those of the files, of the processes and of a call in
progress; a directory is not open for writing. -/
structure Held (I : Multiset Claim → Multiset (Fin NINODE) → Store → Prop) (ty : Fin NFILE → Short)
    (K : Multiset Claim) (S : Multiset (Fin NINODE)) (s : State) : Prop where
  inv : I (K + s.claims ty) S s.store
  unused : ∀ {f}, (s.ftable f).ref = 0 → (s.ftable f).type = .none
  writable : ∀ {f}, (s.ftable f).type = .inode → (s.ftable f).writable = true → ty f ≠ T_DIR

variable {sb : Superblock} {I : Multiset Claim → Multiset (Fin NINODE) → Store → Prop} {ty : Fin NFILE → Short}
  {K K' : Multiset Claim} {S S' : Multiset (Fin NINODE)} {s : State} {f : Fin NFILE} {p : Fin NPROC} {x : Proc}
  {e : Fin NINODE} {o : Option Short} {t : Short} {α : Type} {E : Stop → Prop} {m : M α} {Q : Unit → State → Prop}
  {st : Store} {c : Claim}

/-! ## Steps of a call -/

@[simp] theorem wp_fs {Q : α → State → Prop} :
    Wp E (fs m) Q s ↔ Wp E m (fun a st => Q a { s with store := st }) s.store := wp_zoom

@[simp] theorem wp_file {Q : File → State → Prop} : Wp E (file f) Q s ↔ Q (s.ftable f) s := Iff.rfl

@[simp] theorem wp_setFile {x : File} :
    Wp E (setFile f x) Q s ↔ Q () { s with ftable := update s.ftable f x } := Iff.rfl

@[simp] theorem wp_setProc {x : Option Proc} :
    Wp E (setProc p x) Q s ↔ Q () { s with proc := update s.proc p x } := Iff.rfl

theorem wp_myproc {Q : Proc → State → Prop} (hE : E .hang) (h : ∀ x, s.proc p = some x → Q x s) :
    Wp E (myproc p) Q s := by
  simp only [myproc, wp_bind, wp_get]
  cases hx : s.proc p with
  | none => exact hE
  | some x => exact h x hx

theorem add_cwdClaim (x : Proc) : K + cwdClaim (some x) = (x.cwd, none) ::ₘ K := by
  rw [add_comm]
  exact singleton_add _ _

/-! What the files and the processes have of something, added up. -/

section Total

variable {A : Type} [AddCommMonoid A]

theorem sum_file (φ ψ : Fin NFILE → File → A) (s : State) (f : Fin NFILE) (x : File) (h : ∀ g, g ≠ f → ψ g = φ g) :
    ∑ g, ψ g (update s.ftable f x g) + φ f (s.ftable f) = ∑ g, φ g (s.ftable g) + ψ f x := by
  have hf : (fun g => ψ g (update s.ftable f x g)) =
      update (fun g => φ g (s.ftable g)) f (ψ f x) := by
    funext g
    by_cases hg : g = f
    · subst hg; simp only [update_self]
    · simp only [update_of_ne hg, h g hg]
  rw [hf]
  exact sum_update_add _ f _

theorem sum_proc (φ : Option Proc → A) (s : State) (p : Fin NPROC) (x : Option Proc) :
    ∑ q, φ (update s.proc p x q) + φ (s.proc p) = ∑ q, φ (s.proc q) + φ x := by
  simp only [Function.apply_update fun _ => φ]
  exact sum_update_add _ p _

end Total

theorem claims_file (s : State) (f : Fin NFILE) (x : File) (t : Short) :
    claims (update ty f t) { s with ftable := update s.ftable f x } +
      fileClaim (ty f) (s.ftable f) = s.claims ty + fileClaim t x := by
  have hsum := sum_file (fun g => fileClaim (ty g)) (fun g => fileClaim (update ty f t g)) s f x
    fun g hg => by rw [update_of_ne hg]
  simp only [update_self] at hsum
  rw [claims, add_right_comm, hsum, add_right_comm, claims]

theorem claims_proc (s : State) (p : Fin NPROC) (x : Option Proc) :
    claims ty { s with proc := update s.proc p x } + cwdClaim (s.proc p) =
      s.claims ty + cwdClaim x := by
  rw [claims, add_assoc, sum_proc, claims, add_assoc]

theorem boot_claims (d : Log.BlockNo → Log.Block) (ty : Fin NFILE → Short) : (boot d).claims ty = {(0, none)} := by
  have h0 : claims ty { boot d with proc := fun _ => none } = 0 := by
    simp [claims, fileClaim, boot, cwdClaim]
  have h : claims ty (boot d) + 0 = _ + {(0, none)} :=
    claims_proc { boot d with proc := fun _ => none } 0 (some { ofile := fun _ => none, cwd := 0 })
  rwa [h0, zero_add, add_zero] at h

theorem Held.store (h : Held I ty K S s) (hst : I (K' + s.claims ty) S' st) :
    Held I ty K' S' { s with store := st } :=
  ⟨hst, h.unused, h.writable⟩

/-- A file changes, and with it the claims of the call. -/
theorem Held.file (h : Held I ty K S s) (f : Fin NFILE) (x : File) (t : Short)
    (hK : K' + fileClaim t x = K + fileClaim (ty f) (s.ftable f)) (hu : x.ref = 0 → x.type = .none)
    (hw : x.type = .inode → x.writable = true → t ≠ T_DIR) :
    Held I (update ty f t) K' S { s with ftable := update s.ftable f x } where
  inv := by
    have hsum : K' + claims (update ty f t) { s with ftable := update s.ftable f x } =
        K + s.claims ty := by
      apply add_right_cancel (b := fileClaim (ty f) (s.ftable f))
      rw [add_assoc, claims_file, add_right_comm, ← hK]
      abel
    rw [hsum]
    exact h.inv
  unused {g} := by
    by_cases hg : g = f
    · subst hg; simpa only [update_self] using hu
    · simpa only [update_of_ne hg] using h.unused
  writable {g} := by
    by_cases hg : g = f
    · subst hg; simpa only [update_self] using hw
    · simpa only [update_of_ne hg] using h.writable

/-- A process changes, and with it the claims of the call. -/
theorem Held.proc (h : Held I ty K S s) (p : Fin NPROC) (x : Option Proc)
    (hK : K' + cwdClaim x = K + cwdClaim (s.proc p)) :
    Held I ty K' S { s with proc := update s.proc p x } where
  inv := by
    have hsum : K' + claims ty { s with proc := update s.proc p x } = K + s.claims ty := by
      apply add_right_cancel (b := cwdClaim (s.proc p))
      rw [add_assoc, claims_proc, add_right_comm, ← hK]
      abel
    rw [hsum]
    exact h.inv
  unused := h.unused
  writable := h.writable

/-- A change of a file other than of its inode. -/
theorem Held.keep (h : Held I ty K S s) {x : File} (ht : x.type = (s.ftable f).type) (hi : x.ip = (s.ftable f).ip)
    (hw : x.writable = (s.ftable f).writable) (hr : x.ref = 0 → x.type = .none) :
    Held I ty K S { s with ftable := update s.ftable f x } := by
  have hK : K + fileClaim (ty f) x = K + fileClaim (ty f) (s.ftable f) := by rw [fileClaim, fileClaim, ht, hi]
  have := h.file f x (ty f) hK hr (by rw [ht, hw]; exact h.writable)
  rwa [update_eq_self] at this

theorem Held.mem_file (h : (s.ftable f).type ≠ .none) : ((s.ftable f).ip, some (ty f)) ∈ K + s.claims ty := by
  refine mem_add.mpr (.inr (mem_add.mpr (.inl ?_)))
  refine mem_sum.mpr ⟨f, Finset.mem_univ f, ?_⟩
  rw [fileClaim, if_neg h]
  exact mem_singleton_self _

theorem Held.mem_cwd (h : s.proc p = some x) : (x.cwd, none) ∈ K + s.claims ty := by
  refine mem_add.mpr (.inr (mem_add.mpr (.inr ?_)))
  refine mem_sum.mpr ⟨p, Finset.mem_univ p, ?_⟩
  rw [h]
  exact mem_singleton_self _

/-- A claim of the call, in front of all others. -/
theorem Held.front (h : Held I ty (c ::ₘ K) S s) : I (c ::ₘ (K + s.claims ty)) S s.store := by
  rw [← cons_add]
  exact h.inv

theorem Held.push (h : Held I ty K S s) (hst : I (c ::ₘ (K' + s.claims ty)) S' st) :
    Held I ty (c ::ₘ K') S' { s with store := st } :=
  h.store (by rwa [cons_add])

/-! ## Files -/

theorem filealloc_spec (h : Held I ty K S s) : Wp E filealloc (fun r s' => Held I ty K S s' ∧
    ∀ f, r = some f → (s'.ftable f).type = .none ∧ (s'.ftable f).ref = 1) s := by
  simp only [filealloc, wp_bind, wp_get]
  split
  · exact ⟨h, by simp⟩
  · rename_i f hf
    have hr : (s.ftable f).ref = 0 := by simpa using List.find?_some hf
    simp only [wp_bind, wp_setFile, wp_pure]
    refine ⟨h.keep rfl rfl rfl (by simp), ?_⟩
    rintro g ⟨⟩
    rw [update_self]
    exact ⟨h.unused hr, rfl⟩

theorem argfd_spec (hE : E .hang) (fd : Int) : Wp E (argfd p fd) (fun _ s' => s' = s) s := by
  rw [argfd, wp_bind]
  refine wp_myproc hE fun x _ => ?_
  split <;> rfl

namespace Io

variable (R : Io sb)

/-- An inode is locked around an operation that keeps the invariant. -/
theorem locked_spec {β : Type} {g : α → Sys Unit} {h : α → Sys β} {Q : β → State → Prop}
    (hs : Held R.I ty K S s) (hf : (s.ftable f).type ≠ .none)
    (hm : ∀ st, R.I (K + s.claims ty) ((s.ftable f).ip ::ₘ S) st →
      Wp R.E m (fun _ => R.I (K + s.claims ty) ((s.ftable f).ip ::ₘ S)) st)
    (hg : ∀ a s', Held R.I ty K ((s.ftable f).ip ::ₘ S) s' → s'.ftable = s.ftable →
      Wp R.E (g a) (fun _ s'' => Held R.I ty K ((s.ftable f).ip ::ₘ S) s'' ∧
        (s''.ftable f).type = (s.ftable f).type ∧ (s''.ftable f).writable = (s.ftable f).writable) s')
    (hh : ∀ a s', Held R.I ty K S s' → (s'.ftable f).type = (s.ftable f).type →
      (s'.ftable f).writable = (s.ftable f).writable → Wp R.E (h a) Q s') :
    Wp R.E (do fs (ilock sb (s.ftable f).ip); let a ← fs m; g a; fs (iunlock (s.ftable f).ip); h a) Q s := by
  simp only [wp_bind, wp_fs]
  refine (R.relock_spec hs.inv (Held.mem_file hf)).mono fun _ st1 h1 => (hm st1 h1).mono fun a st2 h2 => ?_
  refine (hg a _ (hs.store h2) rfl).mono fun _ s3 h3 => (R.iunlock_spec h3.1.inv).mono fun _ st4 h4 => ?_
  exact hh a _ (h3.1.store h4) h3.2.1 h3.2.2

/-- The offset of a file moves. -/
theorem setOff_spec {c : Prop} [Decidable c] {s' : State} {off : Nat} (h : Held R.I ty K S s')
    (hs : s'.ftable = s.ftable) : Wp R.E (if c then setFile f { s.ftable f with off := off } else pure ())
      (fun _ s'' => Held R.I ty K S s'' ∧ (s''.ftable f).type = (s.ftable f).type ∧
        (s''.ftable f).writable = (s.ftable f).writable) s' := by
  refine wp_ite (fun _ => ?_) fun _ => ⟨h, by rw [hs], by rw [hs]⟩
  rw [← hs]
  exact ⟨h.keep rfl rfl rfl h.unused, by simp only [update_self], by simp only [update_self]⟩

theorem fileread_spec (h : Held R.I ty K S s) (dst : Nat → Bool) (n : BitVec 32) (drv : Option Int) :
    Wp R.E (fileread sb f dst n drv) (fun _ => Held R.I ty K S) s := by
  simp only [fileread, wp_bind, wp_file]
  refine wp_ite (fun _ => h) fun _ => ?_
  split
  · exact R.stop (by simp)
  · exact h
  · rename_i hty
    have hf : (s.ftable f).type ≠ .none := by simp [hty]
    exact R.locked_spec h hf (fun _ h1 => R.readi_spec _ _ h1 (Held.mem_file hf) n.isLt)
      (fun _ _ h2 hs => R.setOff_spec h2 hs) fun _ _ h3 _ _ => h3

theorem filewriteFrom_spec (src : Nat → Option Byte) (n : Nat) {fuel i : Nat} (h : Held R.I ty K S s)
    (hty : (s.ftable f).type = .inode) (hw : (s.ftable f).writable = true) :
    Wp R.E (filewriteFrom sb f src n fuel i) (fun _ => Held R.I ty K S) s := by
  induction fuel generalizing i s with
  | zero => exact h
  | succ fuel ih =>
    have hf : (s.ftable f).type ≠ .none := by simp [hty]
    have hn : min (n - i) filewriteMax < 2 ^ 32 := Nat.lt_of_le_of_lt (Nat.min_le_right ..) (by decide)
    refine wp_ite (fun _ => ?_) fun _ => h
    rw [wp_bind, wp_file]
    refine R.locked_spec h hf (fun _ h1 => R.writei_spec _ _ h1 (Held.mem_file hf) (h.writable hty hw) hn)
      (fun _ _ h2 hs => R.setOff_spec h2 hs) fun _ _ h3 hty3 hw3 => ?_
    exact wp_ite (fun _ => h3) fun _ => ih h3 (hty3.trans hty) (hw3.trans hw)

theorem sysWrite_spec (h : Held R.I ty K S s) (fd : Int) (src : Nat → Option Byte) (n : BitVec 32)
    (drv : Option Int) : Wp R.E (sysWrite sb p fd src n drv) (fun _ => Held R.I ty K S) s := by
  refine (argfd_spec (R.stop safe_hang) fd).bind fun r s1 h1 => ?_
  subst h1
  match r with
  | none => exact h
  | some (_, f) =>
    simp only [filewrite, wp_bind, wp_file]
    refine wp_ite (fun _ => h) fun hw => ?_
    split
    · exact R.stop (by simp)
    · exact h
    · rename_i hty
      exact (R.filewriteFrom_spec src _ h hty (by simpa using hw)).bind fun _ _ h1 => h1

end Io

namespace Rules

variable (R : Rules sb)

theorem filedup_spec (h : Held R.I ty K S s) :
    Wp R.E (filedup f) (fun _ s' => Held R.I ty K S s' ∧ s'.proc = s.proc) s := by
  simp only [filedup, wp_bind, wp_file]
  exact wp_ite (fun _ => R.stop (by simp)) fun _ => ⟨h.keep rfl rfl rfl (by simp), rfl⟩

theorem fileclose_spec (h : Held R.I ty K S s) :
    Wp R.E (fileclose sb f) (fun _ s' => Held R.I ty K S s' ∧ s'.proc = s.proc) s := by
  simp only [fileclose, wp_bind, wp_file]
  refine wp_ite (fun _ => R.stop (by simp)) fun _ => wp_ite (fun hr => ?_) fun _ => ?_
  · refine ⟨h.keep rfl rfl rfl fun h0 => ?_, rfl⟩
    simp only at h0
    omega
  · -- the last reference: the claim of the file passes to the call
    have hK : K + fileClaim (ty f) (s.ftable f) + fileClaim (ty f) { s.ftable f with ref := 0, type := .none } =
        K + fileClaim (ty f) (s.ftable f) := add_zero _
    have h1 := h.file f _ (ty f) hK (fun _ => rfl) (by simp)
    rw [update_eq_self] at h1
    simp only [wp_bind, wp_setFile]
    refine wp_ite (fun hn => ⟨?_, rfl⟩) fun hn => ?_
    · rwa [fileClaim, if_pos hn, add_zero] at h1
    · rw [fileClaim, if_neg hn, add_comm K, singleton_add] at h1
      rw [wp_fs]
      exact (R.iput_spec h1.front).mono fun _ _ h2 => ⟨h1.store h2, rfl⟩

/-! ## Descriptors -/

theorem fdalloc_spec (h : Held R.I ty K S s) :
    Wp R.E (fdalloc p f) (fun _ s' => Held R.I ty K S s' ∧ s'.ftable = s.ftable) s := by
  rw [fdalloc, wp_bind]
  refine wp_myproc (R.stop safe_hang) fun x hx => ?_
  split
  · exact ⟨h, rfl⟩
  · exact ⟨h.proc p _ (by rw [hx]; rfl), rfl⟩

theorem sysDup_spec (h : Held R.I ty K S s) (fd : Int) : Wp R.E (sysDup p fd) (fun _ => Held R.I ty K S) s := by
  refine (argfd_spec (R.stop safe_hang) fd).bind fun r s1 h1 => ?_
  subst h1
  match r with
  | none => exact h
  | some (_, f) =>
    refine (R.fdalloc_spec h).bind fun r s2 h2 => ?_
    match r with
    | none => exact h2.1
    | some fd => exact (R.filedup_spec h2.1).bind fun _ _ h3 => h3.1

theorem sysRead_spec (h : Held R.I ty K S s) (fd : Int) (dst : Nat → Bool) (n : BitVec 32) (drv : Option Int) :
    Wp R.E (sysRead sb p fd dst n drv) (fun _ => Held R.I ty K S) s := by
  refine (argfd_spec (R.stop safe_hang) fd).bind fun r s1 h1 => ?_
  subst h1
  match r with
  | none => exact h
  | some (_, f) => exact (R.fileread_spec h dst n drv).bind fun _ _ h2 => h2

theorem sysClose_spec (h : Held R.I ty K S s) (fd : Int) :
    Wp R.E (sysClose sb p fd) (fun _ => Held R.I ty K S) s := by
  refine (argfd_spec (R.stop safe_hang) fd).bind fun r s1 h1 => ?_
  subst h1
  match r with
  | none => exact h
  | some (fd, f) =>
    rw [wp_bind]
    refine wp_myproc (R.stop safe_hang) fun x hx => ?_
    simp only [wp_bind, wp_setProc]
    exact (R.fileclose_spec (h.proc p _ (by rw [hx]; rfl))).mono fun _ _ h2 => h2.1

/-! ## Opening -/

theorem openFail_spec (h : Held R.I ty ((e, o) ::ₘ K) (e ::ₘ S) s) :
    Wp R.E (openFail sb e) (fun _ => Held R.I ty K S) s := by
  simp only [openFail, wp_bind, wp_fs]
  exact (R.iunlockput_spec h.front).mono fun _ _ h1 => h.store h1

end Rules

section Open

variable (x : File) (ip : Inode) (omode : BitVec 32)

theorem openFile_type : (openFile x e ip omode).type ≠ .none := by
  simp only [openFile]
  split <;> simp

theorem openFile_ref : (openFile x e ip omode).ref = x.ref := by
  simp only [openFile]
  split <;> rfl

theorem openFile_ip : (openFile x e ip omode).ip = e := rfl

theorem openFile_rdonly : (openFile x e ip O_RDONLY).writable = false := rfl

/-- The claim of the call passes to the file. -/
theorem Held.openFile (h : Held I ty ((e, some t) ::ₘ K) S s) (hf : (s.ftable f).type = .none)
    (hr : (s.ftable f).ref = 1) (hdir : t = T_DIR → omode = O_RDONLY) :
    Held I (update ty f t) K S { s with ftable := update s.ftable f (openFile (s.ftable f) e ip omode) } := by
  refine h.file f _ t ?_ (fun h0 => ?_) fun _ hw ht => ?_
  · rw [fileClaim, if_neg (openFile_type _ _ _), openFile_ip, fileClaim, if_pos hf, add_zero, add_comm, singleton_add]
  · rw [openFile_ref, hr] at h0
    cases h0
  · rw [hdir ht, openFile_rdonly] at hw
    cases hw

theorem Held.mem_openFile : (e, some t) ∈ K + State.claims (update ty f t)
    { s with ftable := update s.ftable f (Fs.openFile x e ip omode) } := by
  refine mem_add.mpr (.inr (mem_add.mpr (.inl ?_)))
  refine mem_sum.mpr ⟨f, Finset.mem_univ f, ?_⟩
  simp only [update_self, fileClaim, if_neg (openFile_type _ _ _)]
  exact mem_singleton_self _

end Open

namespace Rules

variable (R : Rules sb)

theorem openFd_spec (h : Held R.I ty ((e, some t) ::ₘ K) (e ::ₘ S) s) {omode : BitVec 32}
    (hdir : t = T_DIR → omode = O_RDONLY) : Wp R.E (openFd sb p e omode) (fun _ s' => ∃ ty, Held R.I ty K S s') s := by
  simp only [openFd, wp_bind, wp_fs, wp_inode]
  refine wp_ite (fun _ => (R.openFail_spec h).mono fun _ _ h1 => ⟨ty, h1⟩) fun _ => ?_
  rw [wp_bind]
  refine (filealloc_spec h).mono fun r s1 h1 => ?_
  cases r with
  | none => exact (R.openFail_spec h1.1).mono fun _ _ h2 => ⟨ty, h2⟩
  | some f =>
    refine (R.fdalloc_spec h1.1).bind fun r s2 h2 => ?_
    cases r with
    | none => exact (R.fileclose_spec h2.1).bind fun _ _ h3 => (R.openFail_spec h3.1).mono fun _ _ h4 => ⟨ty, h4⟩
    | some fd =>
      obtain ⟨hf, hr⟩ := h1.2 f rfl
      rw [← h2.2] at hf hr
      have h3 := h2.1.openFile (s.store.itable e) omode hf hr hdir
      simp only [wp_bind, wp_file, wp_setFile]
      refine Wp.mono (Q := fun _ => Held R.I (update ty f t) K (e ::ₘ S)) (wp_ite (fun _ => ?_) fun _ => h3)
        fun _ s3 h4 => ?_
      · rw [wp_fs]
        exact (R.itrunc_spec h3.inv (Held.mem_openFile ..)).mono fun _ _ h4 => h3.store h4
      · rw [wp_fs]
        exact (R.iunlock_spec h4.inv).mono fun _ _ h5 => ⟨_, h4.store h5⟩

theorem sysOpen_spec (h : Held R.I ty K S s) (path : Option (List Byte)) (omode : BitVec 32) :
    Wp R.E (sysOpen sb p path omode) (fun _ s' => ∃ ty, Held R.I ty K S s') s := by
  match path with
  | none => exact ⟨ty, h⟩
  | some path =>
    rw [sysOpen, wp_bind]
    refine wp_myproc (R.stop safe_hang) fun x hx => ?_
    rw [wp_bind, wp_fs]
    refine (R.openInode_spec h.inv (R.ref (Held.mem_cwd hx)) path omode).mono fun r st1 h1 => ?_
    match r, h1 with
    | none, h1 => exact ⟨ty, h.store h1⟩
    | some e, ⟨t, ht, h1⟩ => exact R.openFd_spec (h.push h1) ht

/-! ## Processes -/

theorem sysChdir_spec (h : Held R.I ty K S s) (path : Option (List Byte)) :
    Wp R.E (sysChdir sb p path) (fun _ => Held R.I ty K S) s := by
  match path with
  | none => exact h
  | some path =>
    rw [sysChdir, wp_bind]
    refine wp_myproc (R.stop safe_hang) fun x hx => ?_
    rw [wp_bind, wp_fs]
    refine (R.namei_spec h.inv (R.ref (Held.mem_cwd hx)) path).mono fun r st1 h1 => ?_
    match r, h1 with
    | none, h1 => exact h.store h1
    | some e, h1 =>
      simp only [wp_bind, wp_fs]
      refine (R.ilock_spec h1).mono fun _ st2 h2 => ?_
      rw [wp_inode]
      refine wp_ite (fun _ => ?_) fun _ => ?_
      · rw [wp_bind, wp_fs]
        exact (R.iunlockput_spec h2).mono fun _ _ h3 => h.store h3
      · simp only [wp_bind, wp_fs]
        refine (R.iunlock_spec h2).mono fun _ st3 h3 => ?_
        -- the old directory is released before the new one is recorded
        have hK : (x.cwd, none) ::ₘ K + cwdClaim (some { x with cwd := e }) =
            (e, none) ::ₘ K + cwdClaim (s.proc p) := by
          rw [hx, add_cwdClaim, add_cwdClaim, cons_swap]
        have h4 := (h.push (R.forget h3)).proc p _ hK
        exact (R.iput_spec h4.front).mono fun _ _ h5 => h4.store h5

theorem fork_spec (h : Held R.I ty K S s) (child : Fin NPROC) :
    Wp R.E (fork p child) (fun _ => Held R.I ty K S) s := by
  rw [fork, wp_bind]
  refine wp_myproc (R.stop safe_hang) fun x hx => ?_
  simp only [wp_bind, wp_get]
  refine wp_ite (fun _ => h) fun hchild => ?_
  rw [wp_bind]
  refine (wp_forM (fun _ s' => Held R.I ty K S s' ∧ s'.proc = s.proc) ?_ ⟨h, rfl⟩).mono fun _ s1 h1 => ?_
  · intro fd _ s1 h1
    cases x.ofile fd with
    | none => exact h1
    | some f => exact (R.filedup_spec h1.1).mono fun _ _ h2 => ⟨h2.1, h2.2.trans h1.2⟩
  obtain ⟨h1, hp⟩ := h1
  rw [wp_bind, wp_fs]
  refine (R.idup_spec h1.inv (R.ref (Held.mem_cwd (by rw [hp]; exact hx)))).mono fun cwd st2 h2 => ?_
  refine (h1.push h2).proc child _ ?_
  rw [hp, Option.not_isSome_iff_eq_none.mp hchild, add_cwdClaim]
  exact (add_zero _).symm

theorem exit_spec (h : Held R.I ty K S s) : Wp R.E (exit sb p) (fun _ => Held R.I ty K S) s := by
  refine Wp.bind (wp_forM (fun _ => Held R.I ty K S) ?_ h) fun _ s1 h1 => ?_
  · intro fd _ s1 h1
    rw [wp_bind]
    refine wp_myproc (R.stop safe_hang) fun x hx => ?_
    cases x.ofile fd with
    | none => exact h1
    | some f =>
      refine (R.fileclose_spec h1).bind fun _ s2 h2 => h2.1.proc p _ ?_
      rw [h2.2, hx]
      rfl
  · rw [wp_bind]
    refine wp_myproc (R.stop safe_hang) fun x hx => ?_
    have hK : (x.cwd, none) ::ₘ K + cwdClaim none = K + cwdClaim (s1.proc p) := by
      rw [hx, add_cwdClaim]
      exact add_zero _
    have h2 := h1.proc p none hK
    rw [wp_bind, wp_fs]
    exact (R.iput_spec h2.front).mono fun _ _ h3 => h2.store h3

theorem fromCwd_spec {m : Fin NINODE → M Int} (h : Held R.I ty K S s)
    (hm : ∀ {cwd K st}, R.I K S st → R.Ref K cwd → Wp R.E (m cwd) (fun _ => R.I K S) st) :
    Wp R.E (fromCwd p m) (fun _ s' => ∃ ty, Held R.I ty K S s') s := by
  rw [fromCwd, wp_bind]
  refine wp_myproc (R.stop safe_hang) fun x hx => ?_
  rw [wp_fs]
  exact (hm h.inv (R.ref (Held.mem_cwd hx))).mono fun _ _ h1 => ⟨ty, h.store h1⟩

/-- A call keeps the invariant, and gives back its claims and its locks. -/
theorem syscall_spec (h : Held R.I ty K S s) (c : Call) :
    Wp R.E (syscall sb p c) (fun _ s' => ∃ ty, Held R.I ty K S s') s := by
  cases c with
  | sysOpen path omode => exact R.sysOpen_spec h path omode
  | sysRead fd dst n drv => exact (R.sysRead_spec h fd dst n drv).mono fun _ _ h' => ⟨ty, h'⟩
  | sysWrite fd src n drv => exact (R.sysWrite_spec h fd src n drv).mono fun _ _ h' => ⟨ty, h'⟩
  | sysClose fd => exact (R.sysClose_spec h fd).mono fun _ _ h' => ⟨ty, h'⟩
  | sysDup fd => exact (R.sysDup_spec h fd).mono fun _ _ h' => ⟨ty, h'⟩
  | sysLink old new => exact R.fromCwd_spec h fun h' hc => R.sysLink_spec h' hc old new
  | sysUnlink path => exact R.fromCwd_spec h fun h' hc => R.sysUnlink_spec h' hc path
  | sysMkdir path | sysMknod path major minor => exact R.fromCwd_spec h fun h' hc => R.createPut_spec h' hc path ..
  | sysChdir path => exact (R.sysChdir_spec h path).mono fun _ _ h' => ⟨ty, h'⟩
  | sysExec path reads ret => exact R.fromCwd_spec h fun h' hc => R.sysExec_spec h' hc path reads ret
  | fork child => exact (R.fork_spec h child).mono fun _ _ h' => ⟨ty, h'⟩
  | exit => exact (R.exit_spec h).mono fun _ _ h' => ⟨ty, h'⟩

/-- The invariant holds between the calls of a run. -/
theorem run_spec {d : Log.BlockNo → Log.Block} (h : R.I 0 0 (Store.init d)) {as : List (Fin NPROC × Call)}
    (hr : Run (step sb) (boot d) as s) : ∃ ty, Held R.I ty 0 0 s := by
  have hboot : Held R.I (fun _ => 0) 0 0 (boot d) := by
    refine ⟨?_, fun _ => rfl, nofun⟩
    rw [boot_claims, zero_add]
    have hroot : iget ROOTINO (Store.init d) = .ok (0, (boot d).store) := rfl
    exact (R.root_spec h).ok hroot
  refine hr.invariant (I := fun s => ∃ ty, Held R.I ty 0 0 s) ⟨_, hboot⟩ fun {s a s'} hs hstep => ?_
  obtain ⟨ty, hs⟩ := hs
  rw [step] at hstep
  split at hstep
  · rename_i hok
    cases hstep
    exact (R.syscall_spec hs a.2).ok hok
  · cases hstep

end Rules

end Xv6.Fs
