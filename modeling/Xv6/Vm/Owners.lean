import Xv6.Vm.ExecCommit
import Xv6.Vm.Inv

/-!
# The owners of physical pages

Every action of a process keeps the invariant of physical memory (`Act.run_inv`),
and `main` establishes it (`boot_inv`).
-/

namespace Xv6.Vm

open Framework Machine Function Multiset Option

variable {L : Layout} {s s' : Sys} {k k' : Kmem} {l l' : List Nat} {m m' : Bytes} {p p' : MProc} {i : Slot}
  {E E' S : Multiset Nat} {ft ft' : Ftable} {f n : Nat} {fd : Fin NOFILE} {a : Act}

namespace Inv

/-! ## `sbrk` and `exec` -/

theorem sysSbrk {n : Word} (h : Inv L s l E) (hp : Alive (s.proc i).toProc) :
    ∃ r s' l', Vm.sysSbrk L s i n = some (r, s') ∧ Inv L s' l' E ∧ FilesStep l' s.file s'.file := by
  have hi := state_ne_unused hp
  have hok := (h.slot i).ok hi
  obtain ⟨ok, k', l', sz, hk', hf, hfree, hok', htot⟩ := growproc_ok (n := n) hok h.free (h.space_le hi)
  have hslot : SlotOk L k'.mem ((s.proc i).resize sz) := .of_alive hok' hi (state_ne_zombie hp)
  refine ⟨_, _, l', by rw [Vm.sysSbrk, hk']; rfl, h.set ?_ hfree hslot ?_ rfl, .refl _⟩
  · rw [slotPages_of_ne hi]
    exact hf.mono (add_le_add_right (le_cons_self _ _) _)
  · rw [slotPages_of_ne hi, slotPages_of_ne (p := (s.proc i).resize sz) hi, procPages, procPages, add_cons,
      add_cons, htot]
    rfl

theorem execCall {namei : List Byte → Option Program} {path uargv : Nat} (h : Inv L s l E)
    (hp : Alive (s.proc i).toProc) :
    ∃ r s' l', Vm.execCall L s i namei path uargv = some (r, s') ∧ Inv L s' l' E ∧ FilesStep l' s.file s'.file := by
  have hi := state_ne_unused hp
  have hok := (h.slot i).ok hi
  obtain ⟨r, k', l', pagetable, sz, hk', hc, -, -⟩ := sysExec_ok namei path uargv hok h.free
    (h.proc_le hi)
  have hslot : SlotOk L k'.mem ((s.proc i).remap pagetable sz) := .of_alive hc.ok hi (state_ne_zombie hp)
  refine ⟨_, _, l', by rw [Vm.execCall, hk']; rfl, h.set ?_ hc.free hslot ?_ rfl, .refl _⟩
  · rw [slotPages_of_ne hi]
    exact hc.frame
  · rw [slotPages_of_ne hi, slotPages_of_ne (p := (s.proc i).remap pagetable sz) hi]
    exact hc.total

/-! ## `fork` -/

theorem dupFiles (h : Inv L s l E) (ofile : Fin NOFILE → Option Nat) (fds : List (Fin NOFILE))
    (hsub : ∀ fd f, ofile fd = some f → f ∈ refs s.proc) :
    ∃ ft', Vm.dupFiles ofile fds s.file = some ft' ∧
      Inv L { s with file := ft' } l ((fds.map fun fd => (ofile fd).elim 0 ({·})).sum + E) ∧
      pipePages ft' = pipePages s.file ∧ Typed s.file ft' := by
  induction fds generalizing s E with
  | nil =>
    rw [List.map_nil, List.sum_nil, zero_add]
    exact ⟨s.file, rfl, h, rfl, .refl _⟩
  | cons fd fds ih =>
    rw [List.map_cons, List.sum_cons]
    cases hfd : ofile fd with
    | none =>
      rw [elim_none, zero_add]
      obtain ⟨ft', hft', h'⟩ := ih h hsub
      exact ⟨ft', by rw [Vm.dupFiles, hfd, hft'], h'⟩
    | some f =>
      obtain ⟨ft1, hft1, h1, hp1, ht1⟩ := h.filedup (hsub fd f hfd)
      obtain ⟨ft', hft', h', hp', ht'⟩ := ih h1 hsub
      refine ⟨ft', ?_, ?_, hp'.trans hp1, ht1.trans ht'⟩
      · simp only [Vm.dupFiles, hfd, hft1, bind_eq_bind, bind_some]
        exact hft'
      · rw [add_cons, ← cons_add, ← singleton_add] at h'
        exact h'

theorem copyTrapframe_frame {tf src : Nat} (m : Bytes) : Frame {tf} m (copyTrapframe m (4096 * tf) src) :=
  (Frame.move (by omega) (by omega)).trans (Frame.write64 (by omega) (by omega))

/-- `allocproc` makes a process without user memory, or leaves the slot unused. -/
theorem allocproc (h : Inv L s l E) (hi : (s.proc i).state = .unused) (pid ticks : Word) :
    ∃ ok k' np l', Vm.allocproc L s.kmem (s.proc i) pid ticks = some (ok, k', np) ∧ Inv L (s.setProc k' i np) l' E ∧
      (ok = false ∧ l.length ≤ 6 ∨
        ok = true ∧ np.state = .used ∧ np.sz = 0 ∧ (np.ofile = fun _ => none) ∧ l.length ≤ l'.length + 6) := by
  obtain ⟨hpt, hsz⟩ := (h.slot i).unused hi
  have hofile := (h.slot i).closed (.inl hi)
  have hzero : l + slotPages s.kmem.mem (s.proc i) = l := by rw [slotPages_of_unused hi, add_zero]
  obtain ⟨ok, k', np, l', hk', hf, hcase⟩ := allocproc_holds pid ticks hpt h.free
    (hzero ▸ h.slot_le i)
  refine ⟨ok, k', np, l', hk', ?_⟩
  rcases hcase with ⟨rfl, hfree, hl', rfl, hlen⟩ | ⟨rfl, tf, n, T, hT, hnp, hh, hlen⟩
  · refine ⟨h.set (by rwa [hzero]) hfree ⟨fun hc => absurd rfl hc, fun _ => ⟨rfl, rfl⟩, fun _ => hofile⟩ ?_ rfl,
      .inl ⟨rfl, hlen⟩⟩
    rw [slotPages_of_unused rfl, add_zero, hl', hzero]
  · have hst : np.state = .used ∧ np.sz = 0 ∧ np.ofile = fun _ => none := by
      rw [hnp]
      exact ⟨rfl, hsz, hofile⟩
    have hu : np.state ≠ .unused := by rw [hst.1]; decide
    have hz : np.state ≠ .zombie := by rw [hst.1]; decide
    obtain ⟨hok, htot⟩ := ProcOk.of_holds (p := np) (by rw [hst.2.1]; exact hh) (by rw [hnp]) (by rw [hnp])
    refine ⟨h.set (by rwa [hzero]) hh.free (.of_alive hok hu hz) ?_ (by rw [hst.2.2, hofile]),
      .inr ⟨rfl, hst.1, hst.2.1, hst.2.2, hlen⟩⟩
    rw [slotPages_of_ne hu, htot, hzero, hT]

/-- The memory of a new process has its size. -/
theorem setSize {sz : Nat} (h : Inv L s l E) (hi : (s.proc i).state = .used)
    (hf : Frame (l + spacePages s.kmem.mem (s.proc i)) s.kmem.mem k'.mem)
    (hh : Holds k' l' (s.proc i).root (fun _ => True) (Finset.range (npages sz)) (procFixed L (s.proc i).tfPage)
      (l + spacePages s.kmem.mem (s.proc i))) : Inv L (s.setProc k' i ((s.proc i).resize sz)) l' E := by
  have hu : (s.proc i).state ≠ .unused := by rw [hi]; decide
  have hz : (s.proc i).state ≠ .zombie := by rw [hi]; decide
  have hok := (h.slot i).ok hu
  obtain ⟨hok', htot⟩ := ProcOk.of_holds (p := (s.proc i).resize sz) hh hok.trapframe hok.pagetable
  refine h.set ?_ hh.free (.of_alive hok' hu hz) ?_ rfl
  · rw [slotPages_of_ne hu]
    exact hf.mono (add_le_add_right (le_cons_self _ _) _)
  · rw [slotPages_of_ne hu, slotPages_of_ne (p := (s.proc i).resize sz) hu, htot, procPages, add_cons]

variable {j : Slot} {ticks w : Word} {addr : Nat}

/-- `uvmcopy` to a process without user memory. -/
theorem uvmcopy (h : Inv L s l E) (hij : i ≠ j) (hi : (s.proc i).state ≠ .unused)
    (hj : (s.proc j).state = .used) (hsz : (s.proc j).sz = 0) :
    ∃ ok k' l', Vm.uvmcopy L s.kmem (s.proc i).pagetable (s.proc j).pagetable (s.proc i).sz = some (ok, k') ∧
      (ok = true → Inv L (s.setProc k' j ((s.proc j).resize (s.proc i).sz)) l' E) ∧
      (ok = false → Inv L (s.setKmem k') l' E) := by
  have hu : (s.proc j).state ≠ .unused := by rw [hj]; decide
  have hok := (h.slot i).ok hi
  have hokj := (h.slot j).ok hu
  have hdis : ∀ q ∈ spacePages s.kmem.mem (s.proc i), q ∉ l + spacePages s.kmem.mem (s.proc j) := fun q hq hqT => by
    refine h.slots_disjoint hij q ?_ ?_
    · rw [slotPages_of_ne hi]
      exact mem_cons_of_mem hq
    · rw [slotPages_of_ne hu, procPages, add_cons]
      exact mem_cons_of_mem hqT
  have hh := hokj.holds h.free
  rw [MProc.vpages, hsz] at hh
  obtain ⟨ok, k', l', hk', hf, htrue, hfalse⟩ := uvmcopy_holds hok.space
    (fun q hq => hdis q (mem_add.mpr (.inl hq))) (fun q hq => hdis q (mem_add.mpr (.inr hq))) hh
    (h.space_le hu) fun _ => procFixed_of_lt
  rw [← hok.pagetable, ← hokj.pagetable] at hk'
  refine ⟨ok, k', l', hk', fun ht => h.setSize hj hf (htrue ht).1, fun hc => h.setSpace hu hf ?_⟩
  rw [MProc.vpages, hsz]
  exact hfalse hc

/-- A process that owns its memory is freed. -/
theorem freeproc (h : Inv L s l E) (hi : (s.proc i).state ≠ .unused) (hclosed : (s.proc i).ofile = fun _ => none) :
    ∃ k' p' l', Vm.freeproc L s.kmem (s.proc i) = some (k', p') ∧ Inv L (s.setProc k' i p') l' E := by
  obtain ⟨k', l', hk', hfree, hl', hf⟩ := freeproc_free ((h.slot i).ok hi) h.free (h.proc_le hi)
  refine ⟨k', _, l', hk', h.set ?_ hfree ⟨fun hc => absurd rfl hc, fun _ => ⟨rfl, rfl⟩, fun _ => hclosed⟩ ?_ rfl⟩
  · rwa [slotPages_of_ne hi]
  · rw [slotPages_of_unused rfl, add_zero, hl', slotPages_of_ne hi]

/-- The rest of `fork`, once the child `np` has a copy of the parent's memory. -/
theorem forked {np : MProc} (h : Inv L (s.setProc k j (np.resize (s.proc i).sz)) l E) (hij : i ≠ j)
    (hj : np.state = .used) (hof : np.ofile = fun _ => none) :
    ∃ ft', Vm.dupFiles (s.proc i).ofile (List.finRange NOFILE) s.file = some ft' ∧
      Inv L (({ s with file := ft' } : Sys).setProc
        { k with mem := copyTrapframe k.mem np.trapframe (s.proc i).trapframe } j (np.fork i (s.proc i).toProc)) l E ∧
      pipePages ft' = pipePages s.file ∧ Typed s.file ft' := by
  have hu : (np.resize (s.proc i).sz).state ≠ .unused := by
    rw [show (np.resize (s.proc i).sz).state = .used from hj]
    decide
  have htf : np.trapframe = 4096 * (np.resize (s.proc i).sz).tfPage := (h.slot_set.ok hu).trapframe
  generalize hk' : ({ k with mem := copyTrapframe k.mem np.trapframe (s.proc i).trapframe } : Kmem) = k'
  have h1 : Inv L (s.setProc k' j (np.resize (s.proc i).sz)) l E := by
    rw [← hk']
    refine h.setTrapframe (i := j) (by rwa [Sys.setProc_self]) ?_
    rw [Sys.setProc_self, htf]
    exact copyTrapframe_frame k.mem
  obtain ⟨ft', hft', h2, hstep⟩ := h1.dupFiles (s.proc i).ofile (List.finRange NOFILE) fun fd f hf => by
    refine mem_of_le (held_le_refs _ i) ?_
    rw [Sys.setProc_of_ne hij]
    exact mem_held hf
  rw [← Fin.sum_univ_def, ← held] at h2
  refine ⟨ft', hft', ?_, hstep⟩
  have h3 : Inv L (({ s with file := ft' } : Sys).setProc k' j (np.resize (s.proc i).sz)) l
    (held (s.proc i).ofile + E) := h2
  have hru : (np.fork i (s.proc i).toProc).state ≠ .unused := ProcState.noConfusion
  have hrz : (np.fork i (s.proc i).toProc).state ≠ .zombie := ProcState.noConfusion
  refine h3.reset (.of_alive ((h3.slot_set.ok hu).congr rfl rfl rfl) hru hrz) ?_ ?_
  · rw [slotPages_of_ne hu, slotPages_of_ne hru]
    rfl
  · have hofile : (np.fork i (s.proc i).toProc).ofile = (s.proc i).ofile := by
      funext fd
      rw [MProc.fork]
      simp [Proc.adopt, Proc.copyFrom, hof]
    rw [hofile, show (np.resize (s.proc i).sz).ofile = fun _ => none from hof, held_none, zero_add]

theorem fork (h : Inv L s l E) (hp : Alive (s.proc i).toProc) :
    ∃ r s' l', Vm.fork L s i ticks = some (r, s') ∧ Inv L s' l' E ∧ FilesStep l' s.file s'.file := by
  rw [Vm.fork]
  split
  · exact ⟨_, s, l, rfl, h, .refl _⟩
  rename_i j hfind
  have hj : (s.proc j).state = .unused := of_decide_eq_true (List.find?_some hfind :)
  have hij : i ≠ j := fun hc => state_ne_unused hp (hc ▸ hj)
  have h0 : Inv L { s with nextpid := s.nextpid + 1 } l E := ⟨h.free, h.kernel, h.slot, h.files, h.total⟩
  have hp0 : Alive (({ s with nextpid := s.nextpid + 1 } : Sys).proc i).toProc := hp
  obtain ⟨ok, k1, np, l1, hk1, h1, hcase⟩ := h0.allocproc (i := j) hj s.nextpid ticks
  change ∃ r s' l', _ ∧ Inv L s' l' E ∧ FilesStep l' ({ s with nextpid := s.nextpid + 1 } : Sys).file s'.file
  generalize { s with nextpid := s.nextpid + 1 } = s0 at *
  have hself := s0.setProc_self k1 j np
  have hother := s0.setProc_of_ne hij k1 np
  simp only [hk1, bind_eq_bind, bind_some]
  rcases hcase with ⟨rfl, -⟩ | ⟨rfl, hst, hsz, hof, -⟩
  · exact ⟨-1, _, l1, rfl, h1, .refl _⟩
  obtain ⟨ok, k2, l2, hk2, htrue, hfalse⟩ := h1.uvmcopy hij (by rw [hother]; exact state_ne_unused hp0)
    (by rw [hself]; exact hst) (by rw [hself]; exact hsz)
  rw [hself, hother] at hk2 htrue
  simp only [Sys.setProc] at hk2
  simp only [hk2, if_true, bind_some]
  cases ok with
  | false =>
    have hu : np.state ≠ .unused := by rw [hst]; decide
    have h2 : Inv L (s0.setProc k2 j np) l2 E := hfalse rfl
    have hself2 := s0.setProc_self k2 j np
    obtain ⟨k3, p3, l3, hk3, h3⟩ := h2.freeproc (i := j) (by rwa [hself2]) (by rwa [hself2])
    rw [hself2] at hk3
    simp only [Sys.setProc] at hk3
    rw [Sys.setProc_setProc] at h3
    exact ⟨-1, _, l3, by simp only [hk3, Bool.false_eq_true, if_false, bind_some], h3, .refl _⟩
  | true =>
    have h2 := htrue rfl
    rw [Sys.setProc_setProc] at h2
    obtain ⟨ft', hft', h3, hpages, hty⟩ := h2.forked hij hst hof
    exact ⟨_, _, l2, by simp only [hft', if_true, bind_some]; rfl, h3, .of_same hty hpages⟩

/-! ## `exit` -/

theorem closeFiles (h : Inv L s l E) (hp : Alive (s.proc i).toProc) (fds : List (Fin NOFILE)) :
    ∃ s' l', Vm.closeFiles L i fds s = some s' ∧ Inv L s' l' E ∧ Alive (s'.proc i).toProc ∧
      ((l' : Multiset Nat) + pipePages s'.file = l + pipePages s.file ∧ Typed s.file s'.file) ∧
      (∀ fd, (fd ∈ fds ∨ (s.proc i).ofile fd = none) → (s'.proc i).ofile fd = none) := by
  induction fds generalizing s l with
  | nil => exact ⟨s, l, rfl, h, hp, ⟨rfl, .refl _⟩, fun fd hfd => hfd.resolve_left List.not_mem_nil⟩
  | cons fd fds ih =>
    cases hfd : (s.proc i).ofile fd with
    | none =>
      obtain ⟨s', l', hs', h', hp', hstep, hnone⟩ := ih h hp
      refine ⟨s', l', by simp only [Vm.closeFiles, hfd, hs'], h', hp', hstep, fun fd' hfd' => hnone fd' ?_⟩
      rcases hfd' with hfd' | hfd'
      · rcases List.mem_cons.mp hfd' with rfl | hfd'
        · exact .inr hfd
        · exact .inl hfd'
      · exact .inr hfd'
    | some f =>
      obtain ⟨k1, ft1, l1, hk1, h1, htot1⟩ := (h.takeFd hp hfd).fileclose
      have hself : ((s.setFile k1 ft1).setProc k1 i ((s.proc i).setFd fd none)).proc i = (s.proc i).setFd fd none :=
        Sys.setProc_self ..
      obtain ⟨s', l', hs', h', hp', ⟨htot, hty⟩, hnone⟩ := ih (s := (s.setFile k1 ft1).setProc k1 i ((s.proc i).setFd fd none)) h1
        (by rw [hself]; exact hp)
      refine ⟨s', l', ?_, h', hp', ⟨htot.trans htot1, (fileclose_typed hk1).trans hty⟩, fun fd' hfd' => hnone fd' ?_⟩
      · rw [← hs', Vm.closeFiles, hfd]
        simp only [Sys.setProc] at hk1
        simp [hk1]
      · rw [hself]
        by_cases hc : fd' = fd
        · subst hc
          exact .inr (MProc.setFd_self ..)
        · rw [MProc.setFd_of_ne hc]
          exact hfd'.imp (fun hm => (List.mem_cons.mp hm).resolve_left hc) id

theorem reparent (h : Inv L s l E) (i : Slot) : Inv L { s with proc := Vm.reparent s.proc i } l E := by
  refine h.setTable (fun j => ?_) (fun j => ?_) fun j => ?_
  · rcases reparent_cases s.proc i j with hj | hj <;> rw [hj]
    · exact h.slot j
    · exact ⟨fun hu => ((h.slot j).ok hu).congr rfl rfl rfl, (h.slot j).unused, (h.slot j).closed⟩
  · rcases reparent_cases s.proc i j with hj | hj <;> rw [hj]
    rfl
  · rcases reparent_cases s.proc i j with hj | hj <;> rw [hj]

theorem exit {status : Word} (h : Inv L s l E) (hp : Alive (s.proc i).toProc) (hi : i ≠ initproc) :
    ∃ s' l', Vm.exit L s i status ticks = some s' ∧ Inv L s' l' E ∧ FilesStep l' s.file s'.file := by
  obtain ⟨s1, l1, hs1, h1, hp1, ⟨htot, hty⟩, hnone⟩ := h.closeFiles hp (List.finRange NOFILE)
  have hu := state_ne_unused hp1
  have hclosed : (s1.proc i).ofile = fun _ => none := funext fun fd => hnone fd (.inl (List.mem_finRange fd))
  -- the current directory, the children, and then the state
  have h2 : Inv L (s1.setProc s1.kmem i (s1.proc i).dropCwd) l1 E :=
    h1.setOfile (.of_alive (((h1.slot i).ok hu).congr rfl rfl rfl) hu (state_ne_zombie hp1)) rfl rfl
  have hself : (s1.setProc s1.kmem i (s1.proc i).dropCwd).proc i = (s1.proc i).dropCwd := Sys.setProc_self ..
  generalize hs2 : s1.setProc s1.kmem i (s1.proc i).dropCwd = s2 at h2 hself
  have hsame : (Vm.reparent s2.proc i i).state ≠ .unused ∧ (Vm.reparent s2.proc i i).ofile = fun _ => none := by
    rcases reparent_cases s2.proc i i with hj | hj <;> rw [hj, hself] <;> exact ⟨hu, hclosed⟩
  have h3 := h2.reparent i
  have hslot : SlotOk L s2.kmem.mem ((Vm.reparent s2.proc i i).zombify status ticks) :=
    ⟨fun _ => ((h3.slot i).ok hsame.1).congr rfl rfl rfl, (nomatch ·), fun _ => hsame.2⟩
  have h4 := h3.setOfile (i := i) hslot ((slotPages_of_ne hsame.1).symm) rfl
  have hfile : s2.file = s1.file := by rw [← hs2]; rfl
  refine ⟨_, l1, ?_, h4, .of_total (by rwa [← hfile] at hty) (by rwa [← hfile] at htot)⟩
  rw [Vm.exit, if_neg hi, hs1, ← hs2]
  rfl

/-! ## `wait` and `waitx` -/

theorem reap (h : Inv L s l E) (hp : Alive (s.proc i).toProc) (addr : Nat) :
    ∃ r s' l', Vm.reap L s i addr = some (r, s') ∧ Inv L s' l' E ∧ Alive (s'.proc i).toProc ∧ s'.file = s.file := by
  rw [Vm.reap]
  split
  · rename_i hk j hscan
    obtain ⟨⟨-, hz⟩, -⟩ := firstExited_of_scan hscan
    have hji : i ≠ j := fun hc => state_ne_zombie hp (hc ▸ hz)
    -- the status goes to the caller's memory
    obtain ⟨ok, k1, hcopy, h1⟩ : ∃ ok k1, (if addr ≠ 0 then
        Vm.copyout s.kmem (s.proc i).pagetable addr (UserMem.ofWord (s.proc j).xstate) 4 else (true, s.kmem)) =
          (ok, k1) ∧ Inv L (s.setKmem k1) l E := by
      split
      · exact ⟨_, _, Prod.mk.eta.symm, h.copyout (state_ne_unused hp) _ _ _⟩
      · exact ⟨true, s.kmem, rfl, h⟩
    simp only [hcopy]
    cases ok with
    | false => exact ⟨_, _, l, rfl, h1, hp, rfl⟩
    | true =>
      have hu : (s.proc j).state ≠ .unused := by
        rw [show (s.proc j).state = .zombie from hz]
        decide
      obtain ⟨k', p', l', hk', h'⟩ := h1.freeproc (i := j) hu ((h.slot j).closed (.inr hz))
      refine ⟨some ((s.proc j).pid, some j), s.setProc k' j p', l', ?_, h', ?_, rfl⟩
      · simp only [Sys.setKmem] at hk'
        simp [hk']
      · rwa [Sys.setProc_of_ne hji]
  · exact ⟨_, s, l, rfl, h, hp, rfl⟩

theorem wait (h : Inv L s l E) (hp : Alive (s.proc i).toProc) :
    ∃ r s' l', Vm.wait L s i addr = some (r, s') ∧ Inv L s' l' E ∧ FilesStep l' s.file s'.file := by
  obtain ⟨r, s', l', hs', h', -, hfile⟩ := h.reap hp addr
  exact ⟨_, s', l', by rw [Vm.wait, hs']; rfl, h', by rw [hfile]; exact .refl _⟩

theorem sysWaitx {addr1 addr2 : Nat} {wtime rtime : Word} (h : Inv L s l E) (hp : Alive (s.proc i).toProc) :
    ∃ r s' l', Vm.sysWaitx L s i addr addr1 addr2 wtime rtime = some (r, s') ∧ Inv L s' l' E ∧
      FilesStep l' s.file s'.file := by
  obtain ⟨r, s1, l1, hs1, h1, hp1, hfile⟩ := h.reap hp addr
  rw [← hfile]
  have hu := state_ne_unused hp1
  rw [Vm.sysWaitx, Vm.waitx, hs1]
  simp only [bind_eq_bind, bind_some]
  split
  · exact ⟨none, s1, l1, rfl, h1, .refl _⟩
  rename_i ret w1 w2 _
  have h2 := h1.copyout hu addr1 (UserMem.ofWord w1) 4
  generalize Vm.copyout s1.kmem (s1.proc i).pagetable addr1 (UserMem.ofWord w1) 4 = c at h2 ⊢
  obtain ⟨ok, k2⟩ := c
  cases ok with
  | false => exact ⟨_, _, l1, rfl, h2, .refl _⟩
  | true =>
    have h3 := h2.copyout (i := i) hu addr2 (UserMem.ofWord w2) 4
    exact ⟨_, _, l1, rfl, h3, .refl _⟩

/-! ## File descriptors -/

theorem fdalloc_eq_some {q : MProc} (h : fdalloc p f = some (fd, q)) :
    p.ofile fd = none ∧ q = p.setFd fd (some f) := by
  simp only [fdalloc, map_eq_some_iff, Prod.mk.injEq] at h
  obtain ⟨fd', hfind, rfl, rfl⟩ := h
  exact ⟨of_decide_eq_true (List.find?_some hfind :), rfl⟩

theorem argfd_eq_some (h : argfd p w = some (fd, f)) : p.ofile fd = some f := by
  rw [argfd] at h
  split at h <;> [skip; cases h]
  simp only [map_eq_some_iff, Prod.mk.injEq] at h
  obtain ⟨f', hf, rfl, rfl⟩ := h
  exact hf

theorem closeEnds {rf wf : Nat} (h : Inv L s l (rf ::ₘ wf ::ₘ E)) :
    ∃ r s' l', Vm.closeEnds L s rf wf = some (r, s') ∧ Inv L s' l' E ∧
      (l' : Multiset Nat) + pipePages s'.file = l + pipePages s.file ∧ Typed s.file s'.file := by
  obtain ⟨k1, ft1, l1, hk1, h1, htot1⟩ := h.fileclose
  obtain ⟨k2, ft2, l2, hk2, h2, htot2⟩ := h1.fileclose
  simp only [Sys.setFile] at hk2
  refine ⟨-1, _, l2, ?_, h2, htot2.trans htot1, (fileclose_typed hk1).trans (fileclose_typed hk2)⟩
  simp only [Vm.closeEnds, hk1, hk2, bind_eq_bind, bind_some]
  rfl

theorem sysClose (h : Inv L s l E) (hp : Alive (s.proc i).toProc) :
    ∃ r s' l', Vm.sysClose L s i w = some (r, s') ∧ Inv L s' l' E ∧ FilesStep l' s.file s'.file := by
  rw [Vm.sysClose]
  split
  · exact ⟨_, s, l, rfl, h, .refl _⟩
  rename_i fd f harg
  obtain ⟨k', ft', l', hk', h', htot⟩ := (h.takeFd hp (argfd_eq_some harg)).fileclose
  exact ⟨0, _, l', by simp only [hk', bind_eq_bind, bind_some], h', .of_total (fileclose_typed hk') htot⟩

theorem sysDup (h : Inv L s l E) (hp : Alive (s.proc i).toProc) :
    ∃ r s' l', Vm.sysDup s i w = some (r, s') ∧ Inv L s' l' E ∧ FilesStep l' s.file s'.file := by
  rw [Vm.sysDup]
  split
  · exact ⟨_, s, l, rfl, h, .refl _⟩
  rename_i fd0 f harg
  split
  · exact ⟨_, s, l, rfl, h, .refl _⟩
  rename_i fd q halloc
  obtain ⟨hnone, rfl⟩ := fdalloc_eq_some halloc
  have hf : f ∈ refs s.proc := mem_of_le (held_le_refs s.proc i) (mem_held (argfd_eq_some harg))
  obtain ⟨ft', hft', h', hpages, hty⟩ := h.filedup hf
  exact ⟨_, _, l, by simp only [hft', bind_eq_bind, bind_some]; rfl, h'.giveFd hp hnone,
    .of_same hty hpages⟩

theorem sysOpen {device readable writable : Bool} (h : Inv L s l E) (hp : Alive (s.proc i).toProc) :
    ∃ r s' l', Vm.sysOpen L s i device readable writable = some (r, s') ∧ Inv L s' l' E ∧
      FilesStep l' s.file s'.file := by
  rw [Vm.sysOpen]
  obtain hnone | ⟨f, ft1, he, hf, hok, hty, hpages⟩ := filealloc_ok h.files
  · rw [hnone]
    exact ⟨_, _, l, rfl, h, .refl _⟩
  have h1 : Inv L (s.setFile s.kmem ft1) l (f ::ₘ E) :=
    h.setFile Frame.rfl' h.free (by rwa [add_cons]) (by rw [hpages])
  rw [he]
  simp only
  split
  · obtain ⟨k', ft', l', hk', h', htot⟩ := h1.fileclose
    simp only [Sys.setFile] at hk' htot
    rw [hpages] at htot
    exact ⟨-1, _, l', by simp only [hk', bind_eq_bind, bind_some]; rfl, h',
      .of_total (fileclose_filealloc_typed he hk') htot⟩
  rename_i fd q halloc
  obtain ⟨hnone, rfl⟩ := fdalloc_eq_some halloc
  have hne : (if device then FileType.device else .inode) ≠ .pipe := by cases device <;> decide
  obtain ⟨hok2, hpages2⟩ := h1.files.setType readable writable
    (mem_add.mpr (.inr (mem_cons_self f E))) ((hty f).trans (h.files.closed f hf)) hne
  have h2 := h1.setFile Frame.rfl' h1.free hok2 (by rw [hpages2])
  refine ⟨_, _, l, rfl, h2.giveFd hp hnone, .of_same ?_ (hpages2.trans hpages)⟩
  obtain rfl := filealloc_eq_some he
  simp only [Sys.setProc, update_idem]
  refine .update _ fun _ => .inl ?_
  show (if device then FileType.device else .inode) ≠ .none
  cases device <;> decide

theorem sysPipe {fdarray : Nat} (h : Inv L s l E) (hp : Alive (s.proc i).toProc) :
    ∃ r s' l', Vm.sysPipe L s i fdarray = some (r, s') ∧ Inv L s' l' E ∧ FilesStep l' s.file s'.file := by
  obtain ⟨r, k1, ft1, l1, hk1, hcase, htot, hty⟩ := h.pipealloc
  simp only [Vm.sysPipe, hk1, bind_eq_bind, bind_some]
  rcases hcase with ⟨rfl, h1⟩ | ⟨rf, wf, rfl, h1⟩
  · exact ⟨-1, _, l1, rfl, h1, .of_total hty htot⟩
  have hp1 : Alive ((s.setFile k1 ft1).proc i).toProc := hp
  have hfile : (s.setFile k1 ft1).file = ft1 := rfl
  generalize s.setFile k1 ft1 = s1 at h1 hp1 hfile
  subst hfile
  have hends {s2 : Sys} (hs2 : s2.file = s1.file) (h2 : Inv L s2 l1 (rf ::ₘ wf ::ₘ E)) :
      ∃ r s' l', Vm.closeEnds L s2 rf wf = some (r, s') ∧ Inv L s' l' E ∧ FilesStep l' s.file s'.file := by
    obtain ⟨r, s', l', hs', h', htot', hty'⟩ := h2.closeEnds
    rw [hs2] at htot' hty'
    exact ⟨r, s', l', hs', h', .of_total (hty.trans hty') (htot'.trans htot)⟩
  simp only
  split
  · exact hends rfl h1
  rename_i fd0 q halloc
  obtain ⟨hnone, rfl⟩ := fdalloc_eq_some halloc
  split
  · rw [MProc.setFd_setFd, MProc.setFd_eq_self hnone, Sys.setProc_eq_self]
    exact hends rfl h1
  rename_i fd1 q halloc1
  obtain ⟨hnone1, rfl⟩ := fdalloc_eq_some halloc1
  have hne : fd0 ≠ fd1 := fun hc => by
    rw [← hc, MProc.setFd_self] at hnone1
    cases hnone1
  -- the process has both ends
  have h2 := (h1.giveFd hp1 hnone).giveFd_set (p := (s1.proc i).setFd fd0 (some rf)) hp1 hnone1
  generalize hq : ((s1.proc i).setFd fd0 (some rf)).setFd fd1 (some wf) = q at h2 ⊢
  have hq0 : q.ofile fd0 = some rf := by rw [← hq, MProc.setFd_of_ne hne, MProc.setFd_self]
  have hq1 : (q.setFd fd0 none).ofile fd1 = some wf := by rw [MProc.setFd_of_ne hne.symm, ← hq, MProc.setFd_self]
  have hpq : Alive q.toProc := by
    rw [← hq]
    exact hp1
  have hclose : ∀ {k : Kmem}, Inv L (s1.setProc k i q) l1 E →
      ∃ r s' l', Vm.closeEnds L (s1.setProc k i ((q.setFd fd0 none).setFd fd1 none)) rf wf = some (r, s') ∧
        Inv L s' l' E ∧ FilesStep l' s.file s'.file := fun h => by
    have h' := (h.takeFd_set hpq hq0).takeFd_set hpq hq1
    rw [cons_swap] at h'
    exact hends rfl h'
  have h3 := h2.copyout_set (state_ne_unused hpq) fdarray (UserMem.ofWord (BitVec.ofNat 32 fd0.val)) 4
  generalize Vm.copyout s1.kmem q.pagetable fdarray (UserMem.ofWord (BitVec.ofNat 32 fd0.val)) 4 = c at h3 ⊢
  obtain ⟨ok, k3⟩ := c
  cases ok with
  | false => exact hclose h3
  | true =>
    have h4 := h3.copyout_set (state_ne_unused hpq) ((fdarray + 4) % 2 ^ 64)
      (UserMem.ofWord (BitVec.ofNat 32 fd1.val)) 4
    simp only [if_true]
    generalize Vm.copyout k3 q.pagetable ((fdarray + 4) % 2 ^ 64) (UserMem.ofWord (BitVec.ofNat 32 fd1.val)) 4 = c
      at h4 ⊢
    obtain ⟨ok, k4⟩ := c
    cases ok with
    | false => exact hclose h4
    | true => exact ⟨0, _, l1, rfl, h4, .of_total hty htot⟩

end Inv

/-! ## The system -/

/-- A process that is alive may do anything, except that `init` may not exit. -/
theorem Act.run_inv (h : Inv L s l 0) (hp : Alive (s.proc a.caller).toProc)
    (hexit : ∀ status ticks, a ≠ .exit initproc status ticks) :
    ∃ s' l', a.run L s = some s' ∧ Inv L s' l' 0 ∧ FilesStep l' s.file s'.file := by
  have hmap : ∀ {α : Type} {c : Option (α × Sys)},
      (∃ r s' l', c = some (r, s') ∧ Inv L s' l' 0 ∧ FilesStep l' s.file s'.file) →
      ∃ s' l', c.map Prod.snd = some s' ∧ Inv L s' l' 0 ∧ FilesStep l' s.file s'.file := by
    rintro α c ⟨r, s', l', rfl, h'⟩
    exact ⟨s', l', rfl, h'⟩
  cases a with
  | fork p ticks => exact hmap (h.fork hp)
  | exec p namei path uargv => exact hmap (h.execCall hp)
  | sbrk p n => exact hmap (h.sysSbrk hp)
  | pipe p fdarray => exact hmap (h.sysPipe hp)
  | close p fd => exact hmap (h.sysClose hp)
  | dup p fd => exact hmap (h.sysDup hp)
  | openFile p device readable writable => exact hmap (h.sysOpen hp)
  | exit p status ticks => exact h.exit hp fun hc => hexit status ticks (by rw [hc])
  | wait p addr => exact hmap (h.wait hp)
  | waitx p addr addr1 addr2 wtime rtime => exact hmap (h.sysWaitx hp)
  | store p va b =>
    refine ⟨_, l, rfl, h.userStore (state_ne_unused hp), ?_⟩
    rw [Vm.userStore]
    split <;> exact .refl _
  | trap p regs => exact ⟨_, l, rfl, h.saveRegs (state_ne_unused hp), .refl _⟩

theorem step_inv (h : Inv L s l 0) (hs : step L s a = some s') :
    ∃ l', Inv L s' l' 0 ∧ FilesStep l' s.file s'.file := by
  rw [step] at hs
  split at hs <;> [skip; cases hs]
  rename_i hp
  have hexit : ∀ status ticks, a ≠ .exit initproc status ticks := by
    rintro status ticks rfl
    rw [Act.run, exit, if_pos rfl] at hs
    cases hs
  obtain ⟨s1, l', hs1, h'⟩ := Act.run_inv h hp hexit
  rw [hs1] at hs
  exact ⟨l', Option.some.inj hs ▸ h'⟩

theorem Inv.run {s0 : Sys} {as : List Act} (h : Inv L s0 l 0) (hrun : Run (step L) s0 as s) : ∃ l', Inv L s l' 0 :=
  hrun.invariant (I := fun s => ∃ l, Inv L s l 0) ⟨l, h⟩ fun ⟨_, h⟩ hs => (step_inv h hs).imp fun _ h' => h'.1

/-! ## Booting -/

/-- After `kvminit` the kernel has its pages, and the others are free. -/
theorem kvmmake_inv (m : Bytes) (nextpid : Word) (hL : KPAGES < L.frames.card) :
    ∃ k kernelPagetable k' l', kinit L m = some k ∧ kvmmake L k = some (kernelPagetable, k') ∧
      L.frames.card ≤ l'.length + KPAGES ∧
      Inv L { kmem := k', proc := fun _ => {}, file := fun _ => {}, nextpid := nextpid,
              kernelPagetable := kernelPagetable } l' 0 := by
  obtain ⟨k, l, hk, hfree, hl⟩ := kinit_free (L := L) m
  have hcard : l.length = L.frames.card := by rw [Finset.card, ← hl, coe_card]
  obtain ⟨n, k', l', hk', hlen, hh⟩ := kvmmake_holds hfree hl.le (by omega)
  have hrefs : refs (fun _ => {}) = 0 := by
    rw [refs]
    exact Finset.sum_eq_zero fun i _ => held_none
  have hpipe : pipePages (fun _ => {}) = 0 := by
    rw [pipePages, pipeFrames, Finset.filter_false_of_mem fun f _ => (by simp), Finset.image_empty]
    rfl
  have hroot : 4096 * n / 4096 = n := Nat.mul_div_cancel_left n (by decide)
  refine ⟨k, 4096 * n, k', l', hk, hk', by omega, hh.free, ?_, fun i => ⟨fun hc => absurd rfl hc, fun _ => ⟨rfl, rfl⟩,
    fun _ => rfl⟩, ?_, ?_⟩
  · rw [KernelOk, hroot]
    exact hh.space
  · simp only [hrefs, add_zero]
    exact ⟨fun f => (count_zero f).symm, by simp, fun f _ => rfl, by simp, by simp, by simp, by simp⟩
  · have hslots : ∑ _i : Slot, slotPages k'.mem {} = 0 := Finset.sum_eq_zero fun i _ => slotPages_of_unused rfl
    simp only [hpipe, hslots, add_zero]
    rw [kernelPages, hroot, hh.total, hl]

theorem Inv.uvminit (h : Inv L s l E) (src : Bytes) (hi : (s.proc i).state = .used)
    (hsz : (s.proc i).sz = 0) (hn : n < 4096) (hl : 4 ≤ l.length) :
    ∃ k' l', Vm.uvminit s.kmem (s.proc i).pagetable src n = some k' ∧
      Inv L (s.setProc k' i ((s.proc i).resize PGSIZE)) l' E := by
  have hu : (s.proc i).state ≠ .unused := by rw [hi]; decide
  have hok := (h.slot i).ok hu
  have hh := hok.holds h.free
  rw [MProc.vpages, hsz] at hh
  obtain ⟨k', l', hk', hf, hh'⟩ := uvminit_holds src hh (h.space_le hu) (fun _ => procFixed_of_lt) hn hl
  rw [← hok.pagetable] at hk'
  exact ⟨k', l', hk', h.setSize hi hf hh'⟩

/-- `userinit` makes the first process, when there are pages for it. -/
theorem Inv.userinit (h : Inv L s l E) (hi : s.proc i = {}) (hl : 10 ≤ l.length) :
    ∃ k' p' l', Vm.userinit L s.kmem = some (k', p') ∧ p'.state = .runnable ∧ Inv L (s.setProc k' i p') l' E := by
  obtain ⟨ok, k1, np, l1, hk1, h1, hcase⟩ := h.allocproc (i := i) (by rw [hi]) 1 0
  rw [hi] at hk1
  rcases hcase with ⟨-, hlen⟩ | ⟨rfl, hst, hsz, hof, hlen⟩
  · omega
  have hself := s.setProc_self k1 i np
  obtain ⟨k2, l2, hk2, h2⟩ := h1.uvminit (i := i) (n := initcode.length) (ofList initcode) (by rwa [hself])
    (by rwa [hself]) (by decide) (by omega)
  rw [hself, Sys.setProc_setProc] at h2
  rw [hself] at hk2
  simp only [Sys.setProc] at hk2
  have hu : (np.resize PGSIZE).state ≠ .unused := by
    rw [show (np.resize PGSIZE).state = .used from hst]
    decide
  have htf := (h2.slot_set.ok hu).trapframe
  -- the trapframe, and what userinit sets at its end
  generalize hm : write64 (write64 k2.mem (np.trapframe + 24) 0) (np.trapframe + 48) (BitVec.ofNat 64 PGSIZE) = m
  have hf : Frame {(np.resize PGSIZE).tfPage} k2.mem m := by
    rw [← hm, show np.trapframe = _ from htf]
    exact (Frame.write64 (by omega) (by omega)).trans (Frame.write64 (by omega) (by omega))
  have hself2 := s.setProc_self k2 i (np.resize PGSIZE)
  have h3 : Inv L (s.setProc { k2 with mem := m } i (np.resize PGSIZE)) l2 E :=
    h2.setTrapframe (i := i) (by rwa [hself2]) (by rwa [hself2])
  refine ⟨{ k2 with mem := m }, { np with sz := PGSIZE, cwd := some 1, state := .runnable }, l2, ?_, rfl, ?_⟩
  · simp only [Vm.userinit, hk1, hk2, hm, if_true, bind_eq_bind, bind_some]
  · refine h3.reset (.of_alive ((h3.slot_set.ok hu).congr rfl rfl rfl) (by simp) (by simp)) ?_ rfl
    rw [slotPages_of_ne hu, slotPages_of_ne (by simp)]
    rfl

/-- `main` brings up the first process, when there are pages for it. -/
theorem boot_inv (m : Bytes) (hL : KPAGES + 10 ≤ L.frames.card) :
    ∃ s0 l, boot L m = some s0 ∧ Inv L s0 l 0 ∧ Alive (s0.proc initproc).toProc := by
  obtain ⟨k, kernelPagetable, k', l', hk, hk', hlen, h⟩ := kvmmake_inv (L := L) m 2 (by omega)
  obtain ⟨k1, p, l1, hk1, hp, h1⟩ := h.userinit (i := initproc) rfl (by omega)
  refine ⟨_, l1, ?_, h1, ?_⟩
  · simp only [boot, hk, hk', hk1, bind_eq_bind, bind_some]
    rfl
  · rw [Sys.setProc_self]
    exact .inr (.inl hp)

/-! ## Owners -/

/-- Who may own a page. -/
inductive Owner
  | freelist
  /-- The kernel's page table and the kernel stacks. -/
  | kernel
  | pipe
  | trapframe (i : Slot)
  | pagetable (i : Slot)
  | user (i : Slot)
  deriving DecidableEq

/-- The pages of an owner, when the pages in `free` are linked from
`kmem.freelist`. -/
def Sys.pages (s : Sys) (free : List Nat) : Owner → Multiset Nat
  | .freelist => free
  | .kernel => kernelPages s.kmem.mem s.kernelPagetable
  | .pipe => pipePages s.file
  | .trapframe i => if (s.proc i).state = .unused then 0 else {(s.proc i).tfPage}
  | .pagetable i => if (s.proc i).state = .unused then 0 else tables s.kmem.mem (s.proc i).root
  | .user i =>
    if (s.proc i).state = .unused then 0 else userPages s.kmem.mem (s.proc i).root (s.proc i).vpages

/-- What the page table of process `i` maps: its user pages, the trampoline and
its trapframe. -/
def Sys.MapsOwn (L : Layout) (s : Sys) (i : Slot) : Prop :=
  ∀ v < VPAGES, pteAt s.kmem.mem (s.proc i).root v &&& PTE_V ≠ 0 → let pa := pte2pa (pteAt s.kmem.mem (s.proc i).root v)
    4096 * v < (s.proc i).sz ∧ pa / 4096 ∈ userPages s.kmem.mem (s.proc i).root (s.proc i).vpages ∨
      4096 * v = TRAMPOLINE ∧ pa = L.trampoline ∨ 4096 * v = TRAPFRAME ∧ pa = (s.proc i).trapframe

def Owner.equiv : Owner ≃ (Unit ⊕ Unit ⊕ Unit) ⊕ (Slot ⊕ Slot ⊕ Slot) where
  toFun
    | .freelist => .inl (.inl ())
    | .kernel => .inl (.inr (.inl ()))
    | .pipe => .inl (.inr (.inr ()))
    | .trapframe i => .inr (.inl i)
    | .pagetable i => .inr (.inr (.inl i))
    | .user i => .inr (.inr (.inr i))
  invFun
    | .inl (.inl ()) => .freelist
    | .inl (.inr (.inl ())) => .kernel
    | .inl (.inr (.inr ())) => .pipe
    | .inr (.inl i) => .trapframe i
    | .inr (.inr (.inl i)) => .pagetable i
    | .inr (.inr (.inr i)) => .user i
  left_inv o := by cases o <;> rfl
  right_inv o := by rcases o with (_ | _ | _) | (_ | _ | _) <;> rfl

instance : Fintype Owner := .ofEquiv _ Owner.equiv.symm

theorem slotPages_eq (s : Sys) (free : List Nat) (i : Slot) : slotPages s.kmem.mem (s.proc i) =
    s.pages free (.trapframe i) + (s.pages free (.pagetable i) + s.pages free (.user i)) := by
  by_cases hu : (s.proc i).state = .unused
  · rw [slotPages_of_unused hu, Sys.pages, Sys.pages, Sys.pages, if_pos hu, if_pos hu, if_pos hu]
    rfl
  · rw [slotPages_of_ne hu, Sys.pages, Sys.pages, Sys.pages, if_neg hu, if_neg hu, if_neg hu, procPages, spacePages,
      singleton_add]

/-- The owners have all pages between them, each page once. -/
theorem Inv.sum_pages (h : Inv L s l E) : ∑ o, s.pages l o = L.frames.val := by
  rw [Fintype.sum_equiv Owner.equiv _ (fun o => s.pages l (Owner.equiv.symm o)) fun o => by rw [Equiv.symm_apply_apply]]
  simp only [Fintype.sum_sum_type, Finset.univ_unique, Finset.sum_singleton]
  rw [← h.total, Finset.sum_congr rfl fun i _ => slotPages_eq s l i, Finset.sum_add_distrib, Finset.sum_add_distrib]
  simp only [Owner.equiv, Equiv.coe_fn_symm_mk, Sys.pages]
  abel

theorem Inv.existsUnique_owner (h : Inv L s l E) (hn : n ∈ L.frames) : ∃! o, n ∈ s.pages l o := by
  have hcount : ∑ o, (s.pages l o).count n = 1 := by
    rw [← count_sum', h.sum_pages, count_eq_one_of_mem L.frames.nodup hn]
  have hmem : n ∈ ∑ o, s.pages l o := by
    rw [h.sum_pages]
    exact hn
  obtain ⟨o, -, ho⟩ := mem_sum.mp hmem
  refine ⟨o, ho, fun o' ho' => by_contra fun hne => ?_⟩
  -- otherwise the page is counted twice
  have hsum := Finset.add_sum_erase Finset.univ (fun o => (s.pages l o).count n) (Finset.mem_univ o)
  have hle := Finset.single_le_sum (f := fun o => (s.pages l o).count n) (fun _ _ => Nat.zero_le _)
    (Finset.mem_erase.mpr ⟨hne, Finset.mem_univ o'⟩)
  have hpos := count_pos.mpr ho
  have hpos' := count_pos.mpr ho'
  omega

theorem Inv.pages_le (h : Inv L s l E) (o : Owner) : s.pages l o ≤ L.frames.val := by
  rw [← h.sum_pages]
  exact Finset.single_le_sum (fun _ _ => Multiset.zero_le _) (Finset.mem_univ o)

theorem Inv.mapsOwn (h : Inv L s l E) (hi : (s.proc i).state ≠ .unused) : s.MapsOwn L i := by
  intro v hv hvalid
  have hok := (h.slot i).ok hi
  by_cases hU : v ∈ (s.proc i).vpages
  · refine .inl ⟨?_, mem_map_of_mem _ hU⟩
    simp only [MProc.vpages, npages, Finset.mem_range] at hU
    omega
  · have hrest := hok.space.rest v hv hU
    by_cases htf : v = 2 ^ 26 - 2
    · subst htf
      rw [procFixed, update_self] at hrest
      exact .inr (.inr ⟨trapframe_eq.symm, hrest.2.1.trans hok.trapframe.symm⟩)
    rw [procFixed, update_of_ne htf] at hrest
    by_cases htr : v = 2 ^ 26 - 1
    · subst htr
      rw [update_self] at hrest
      exact .inr (.inl ⟨trampoline_eq.symm, hrest.2.1⟩)
    rw [update_of_ne htr] at hrest
    exact absurd hrest hvalid

/-- From boot on, whatever the processes do, every page from `end` to `PHYSTOP`
has one owner, and no action of a process panics, except when `init` exits. -/
theorem page_ownership (m : Bytes) (hL : KPAGES + 10 ≤ L.frames.card) :
    ∃ s₀, boot L m = some s₀ ∧ ∀ as s, Run (step L) s₀ as s →
      ∃ free, s.kmem.Free free ∧ (∀ n ∈ L.frames, ∃! o, n ∈ s.pages free o) ∧
        (∀ o, (s.pages free o).Nodup ∧ ∀ n ∈ s.pages free o, n ∈ L.frames) ∧
        (∀ f, (s.file f).type = .pipe → 0 < (s.file f).ref) ∧
        (∀ i, (s.proc i).state ≠ .unused → s.MapsOwn L i) ∧
        ∀ a : Act, Alive (s.proc a.caller).toProc → (∀ status ticks, a ≠ .exit initproc status ticks) →
          ∃ s', step L s a = some s' := by
  obtain ⟨s₀, l0, hs0, h0, -⟩ := boot_inv m hL
  refine ⟨s₀, hs0, fun as s hrun => ?_⟩
  obtain ⟨l, h⟩ := h0.run hrun
  refine ⟨l, h.free, fun n hn => h.existsUnique_owner hn, fun o => ⟨?_, fun n hn => ?_⟩, fun f hf => ?_,
    fun i hi => h.mapsOwn hi, fun a hp hexit => ?_⟩
  · exact nodup_of_le (h.pages_le o) L.frames.nodup
  · exact mem_of_le (h.pages_le o) hn
  · rw [h.files.ref f, count_pos]
    by_contra hc
    rw [h.files.closed f hc] at hf
    cases hf
  · obtain ⟨s', -, hs', -⟩ := Act.run_inv h hp hexit
    exact ⟨s', by rw [step, if_pos hp, hs']⟩

/-- The addresses of a kernel of usual size. -/
def Layout.usual : Layout where
  etext := 0x80008000
  kend := 0x80027000
  trampoline := 0x80007000
  etext_dvd := by decide
  etext_gt := by decide
  etext_le := by decide
  trampoline_dvd := by decide
  trampoline_lt := by decide
  kend_le := by decide

theorem Layout.usual_frames : KPAGES + 10 ≤ Layout.usual.frames.card := by
  rw [Layout.frames, Nat.card_Ico]
  decide

/-- The kernel boots, `init` forks, and every page has one owner. -/
theorem page_ownership_fork :
    ∃ s₀ s₁, boot .usual (fun _ => 0) = some s₀ ∧ step .usual s₀ (.fork initproc 0) = some s₁ ∧
      ∃ free, s₁.kmem.Free free ∧ ∀ n ∈ Layout.usual.frames, ∃! o, n ∈ s₁.pages free o := by
  obtain ⟨s₀, hs0, h⟩ := page_ownership (fun _ => 0) Layout.usual_frames
  obtain ⟨s, l, hs, -, halive⟩ := boot_inv (fun _ => 0) Layout.usual_frames
  cases hs0.symm.trans hs
  obtain ⟨-, -, -, -, -, -, hstep⟩ := h [] s₀ .nil
  obtain ⟨s₁, hs1⟩ := hstep (.fork initproc 0) halive nofun
  obtain ⟨free, hfree, howner, -⟩ := h [.fork initproc 0] s₁ (.snoc .nil hs1)
  exact ⟨s₀, s₁, hs0, hs1, free, hfree, howner⟩

/-- From boot on, whatever the processes do, the kernel's page table maps all of
memory at its own address, and the stack of each process to a page that no other
stack has, with no page mapped below it; and it maps nothing for the user. -/
theorem kernel_map (m : Bytes) (hL : KPAGES + 10 ≤ L.frames.card) :
    ∃ s₀, boot L m = some s₀ ∧ ∀ as s, Run (step L) s₀ as s →
      let pte := pteAt s.kmem.mem (s.kernelPagetable / 4096)
      (∀ v, KERNBASE ≤ 4096 * v → 4096 * v < PHYSTOP → IsLeaf (pte v) ∧ pte2pa (pte v) = 4096 * v) ∧
      (∀ p < NPROC, IsLeaf (pte (kstackPage p)) ∧ pte (kstackPage p - 1) &&& PTE_V = 0 ∧
        ∀ q < NPROC, pte2pa (pte (kstackPage p)) / 4096 = pte2pa (pte (kstackPage q)) / 4096 → p = q) ∧
      ∀ v < VPAGES, pte v &&& PTE_V ≠ 0 → pte v &&& PTE_U = 0 := by
  obtain ⟨s₀, l0, hs0, h0, -⟩ := boot_inv m hL
  refine ⟨s₀, hs0, fun as s hrun => ?_⟩
  obtain ⟨l, h⟩ := h0.run hrun
  obtain ⟨-, -, huser, hrest⟩ := h.kernel
  have hmem {v : Nat} : v ∈ kstacks NPROC ↔ ∃ p < NPROC, kstackPage p = v := by simp [kstacks]
  have hinj : ∀ v ∈ kstacks NPROC, ∀ w ∈ kstacks NPROC, _ → v = w :=
    inj_on_of_nodup_map (nodup_of_le (le_add_left _ _) (nodup_of_le (h.pages_le .kernel) L.frames.nodup))
  have h1 := L.etext_dvd
  have h2 := L.etext_gt
  have h3 := L.etext_le.trans L.kend_le
  simp only [KERNBASE, PHYSTOP, PGSIZE, hmem, kstackPage, NPROC, VPAGES] at *
  refine ⟨fun v hv hv' => ?_, fun p hp => ⟨(huser _ ⟨p, hp, rfl⟩).1, ?_, fun q hq he => ?_⟩, fun v hv hV => ?_⟩
  · have hr := hrest v (by omega) (by omega)
    rw [kernelFixed, mapRange_of_not (by omega)] at hr
    simp only [mapRange] at hr
    split at hr
    · exact ⟨hr.1, hr.2.1.trans (by omega)⟩
    · rw [if_pos (by omega)] at hr
      exact ⟨hr.1, hr.2.1.trans (by omega)⟩
  · have hr := hrest (2 ^ 26 - 1 - 2 * (p + 1) - 1) (by omega) (by omega)
    rw [kernelFixed] at hr
    iterate 6 rw [mapRange_of_not (by omega)] at hr
    exact hr
  · have := hinj _ ⟨p, hp, rfl⟩ _ ⟨q, hq, rfl⟩ he
    omega
  · by_cases hst : ∃ p < 64, 2 ^ 26 - 1 - 2 * (p + 1) = v
    · exact (huser v hst).2
    · have hr := hrest v hv hst
      cases hf : kernelFixed L v <;> rw [hf] at hr
      · exact absurd hr hV
      · exact hr.2.2

theorem kernel_map_usual : ∃ s₀, boot .usual (fun _ => 0) = some s₀ ∧
    pteAt s₀.kmem.mem (s₀.kernelPagetable / 4096) (kstackPage 0 - 1) &&& PTE_V = 0 := by
  obtain ⟨s₀, hs0, h⟩ := kernel_map (fun _ => 0) Layout.usual_frames
  exact ⟨s₀, hs0, ((h [] s₀ .nil).2.1 0 (by decide)).2.1⟩

end Xv6.Vm
