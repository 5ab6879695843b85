import Xv6.Vm.CopyBytes
import Xv6.Vm.Process

/-!
# `exec`

`exec` of `kernel/exec.c` and `sys_exec` of `kernel/sysfile.c`, on a program
file with any contents. The segments go to pages that `exec` has mapped for
them, and memory is what they say in their order (`loadSegments_holds`).
-/

namespace Xv6.Vm

open Framework Finset

/-- A file as `exec` reads it. -/
structure Program where
  size : Nat
  data : Bytes

/-- The number of bytes `readi` reads of the `n` at `off`. -/
def Program.readi (ip : Program) (off n : Nat) : Nat :=
  if ip.size < off ∨ (off + n) % 2 ^ 32 < off then 0
  else if ip.size < off + n then ip.size - off
  else n

/-- `struct proghdr`, less the fields `exec` does not use. -/
structure Proghdr where
  type : Nat
  off : Nat
  vaddr : Nat
  filesz : Nat
  memsz : Nat

/-- The program header at `off`. -/
def Program.proghdr (ip : Program) (off : Nat) : Proghdr where
  type := readLE ip.data off 4
  off := readLE ip.data (off + 8) 8
  vaddr := readLE ip.data (off + 16) 8
  filesz := readLE ip.data (off + 32) 8
  memsz := readLE ip.data (off + 40) 8

/-- `elf.magic`, `elf.entry`, `elf.phoff` and `elf.phnum`. -/
def Program.magic (ip : Program) : Nat := readLE ip.data 0 4
def Program.entry (ip : Program) : Nat := readLE ip.data 24 8
def Program.phoff (ip : Program) : Nat := readLE ip.data 32 8
def Program.phnum (ip : Program) : Nat := readLE ip.data 56 2

abbrev ELF_MAGIC : Nat := 0x464C457F
abbrev ELF_PROG_LOAD : Nat := 1

/-- The loop of `loadseg`, over `n` pages from `i`. -/
def loadsegLoop (ip : Program) (pagetable va offset sz : Nat) : Nat → Kmem → Nat → Option (Bool × Kmem)
  | 0, k, _ => some (true, k)
  | n + 1, k, i =>
    let pa := walkaddr k pagetable (va + i)
    -- panic("loadseg: address should exist")
    if pa = 0 then none
    else
      let len := if sz - i < PGSIZE then sz - i else PGSIZE
      let r := ip.readi ((offset + i) % 2 ^ 32) len
      let k := { k with mem := UserMem.move k.mem pa ip.data ((offset + i) % 2 ^ 32) r }
      if r ≠ len then some (false, k) else loadsegLoop ip pagetable va offset sz n k (i + PGSIZE)

/-- `loadseg`: whether it succeeds. -/
def loadseg (ip : Program) (k : Kmem) (pagetable va offset sz : Nat) : Option (Bool × Kmem) :=
  loadsegLoop ip pagetable va offset sz ((sz + PGSIZE - 1) / PGSIZE) k 0

variable (L : Layout)

/-- The loop of `exec` over the program headers: whether all are loaded, and
the size of the image. -/
def loadSegments (ip : Program) (pagetable : Nat) : Nat → Kmem → Nat → Nat → Option (Bool × Kmem × Nat)
  | 0, k, _, sz => some (true, k, sz)
  | n + 1, k, off, sz =>
    if ip.readi off 56 ≠ 56 then some (false, k, sz)
    else
      let ph := ip.proghdr off
      if ph.type ≠ ELF_PROG_LOAD then loadSegments ip pagetable n k ((off + 56) % 2 ^ 32) sz
      else if ph.memsz < ph.filesz then some (false, k, sz)
      else if (ph.vaddr + ph.memsz) % 2 ^ 64 < ph.vaddr then some (false, k, sz)
      else do
        let (sz1, k) ← uvmalloc L k pagetable sz ((ph.vaddr + ph.memsz) % 2 ^ 64)
        if sz1 = 0 then some (false, k, sz)
        else if ph.vaddr % PGSIZE ≠ 0 then some (false, k, sz1)
        else
          let (ok, k) ← loadseg ip k pagetable ph.vaddr (ph.off % 2 ^ 32) (ph.filesz % 2 ^ 32)
          if ok then loadSegments ip pagetable n k ((off + 56) % 2 ^ 32) sz1 else some (false, k, sz1)

/-- `strlen` of a string that ends within `n` bytes. -/
def strlen (m : Bytes) (a : Nat) : Nat → Nat
  | 0 => 0
  | n + 1 => if m a = 0 then 0 else strlen m (a + 1) n + 1

/-- The loop of `exec` over the arguments. The strings lie in pages of the
kernel, which the copies do not change. -/
def pushArgs (pagetable stackbase : Nat) : List Nat → Kmem → Nat → List Nat → Bool × Kmem × Nat × List Nat
  | [], k, sp, ustack => (true, k, sp, ustack)
  | s :: argv, k, sp, ustack =>
    if MAXARG ≤ ustack.length then (false, k, sp, ustack)
    else
      let len := strlen k.mem s PGSIZE + 1
      let sp := (sp - len) - (sp - len) % 16
      if sp < stackbase then (false, k, sp, ustack)
      else
        let (ok, k) := copyout k pagetable sp (fun i => k.mem (s + i)) len
        if ok then pushArgs pagetable stackbase argv k sp (ustack ++ [sp]) else (false, k, sp, ustack)

/-- The bytes of an array of `uint64`. -/
def ofWords (ws : List Nat) : Bytes := fun i => BitVec.ofNat 8 (ws.getD (i / 8) 0 / 256 ^ (i % 8))

/-- `exec` from its new page table to the point of no return: the size of the
image, and `argc` and the stack pointer if nothing has failed. -/
def buildImage (ip : Program) (argv : List Nat) (k : Kmem) (pagetable : Nat) :
    Option (Kmem × Nat × Option (Nat × Nat)) := do
  let (ok, k, sz) ← loadSegments L ip pagetable ip.phnum k (ip.phoff % 2 ^ 32) 0
  if ok then
    let sz := pgroundup sz
    let (sz1, k) ← uvmalloc L k pagetable sz (sz + 2 * PGSIZE)
    if sz1 = 0 then some (k, sz, none)
    else
      let k ← uvmclear k pagetable (sz1 - 2 * PGSIZE)
      let (ok, k, sp, ustack) := pushArgs pagetable (sz1 - PGSIZE) argv k sz1 []
      if ok then
        let len := (ustack.length + 1) * 8
        let sp := (sp - len) - (sp - len) % 16
        if sp < sz1 - PGSIZE then some (k, sz1, none)
        else
          let (ok, k) := copyout k pagetable sp (ofWords (ustack ++ [0])) len
          if ok then some (k, sz1, some (ustack.length, sp)) else some (k, sz1, none)
      else some (k, sz1, none)
  else some (k, sz, none)

/-- `p->trapframe->a1`, `epc` and `sp` are set. -/
def setTrapframe (m : Bytes) (trapframe sp entry : Nat) : Bytes :=
  let m := write64 m (trapframe + 120) (BitVec.ofNat 64 sp)
  let m := write64 m (trapframe + 24) (BitVec.ofNat 64 entry)
  write64 m (trapframe + 48) (BitVec.ofNat 64 sp)

/-- `exec` of the file `namei` finds: `argc` if it succeeds. -/
def exec (k : Kmem) (p : MProc) (ip : Option Program) (argv : List Nat) : Option (Option Nat × Kmem × MProc) :=
  match ip with
  | none => some (none, k, p)
  | some ip =>
    if ip.readi 0 64 ≠ 64 then some (none, k, p)
    else if ip.magic ≠ ELF_MAGIC then some (none, k, p)
    else do
      let (pagetable, k) ← procPagetable L k p.trapframe
      match pagetable with
      | none => some (none, k, p)
      | some pagetable =>
        let (k, sz, out) ← buildImage L ip argv k pagetable
        match out with
        | none =>
          let k ← procFreepagetable L k pagetable sz
          some (none, k, p)
        | some (argc, sp) =>
          let mem := setTrapframe k.mem p.trapframe sp ip.entry
          let k ← procFreepagetable L { k with mem := mem } p.pagetable p.sz
          some (some argc, k, p.remap pagetable sz)

/-- `fetchaddr`. -/
def fetchaddr (k : Kmem) (p : MProc) (addr : Nat) : Option Nat :=
  if p.sz ≤ addr ∨ p.sz < (addr + 8) % 2 ^ 64 then none
  else
    let (ok, s) := copyin k p.pagetable addr 8
    if ok then some (readLE (ofList s) 0 8) else none

/-- The loop of `sys_exec` over the arguments: whether all are fetched, and the
pages that hold them. -/
def fetchArgs (p : MProc) (uargv : Nat) : Nat → Kmem → List Nat → Bool × Kmem × List Nat
  | 0, k, argv => (false, k, argv)
  | n + 1, k, argv =>
    match fetchaddr k p ((uargv + 8 * argv.length) % 2 ^ 64) with
    | none => (false, k, argv)
    | some uarg =>
      if uarg = 0 then (true, k, argv)
      else
        match kalloc k with
        | (none, k) => (false, k, argv)
        | (some page, k) =>
          let (ok, s) := copyinstr k p.pagetable uarg PGSIZE
          let k := { k with mem := UserMem.move k.mem page (ofList s) 0 s.length }
          if ok then fetchArgs p uargv n k (argv ++ [page]) else (false, k, argv ++ [page])

/-- The loop of `sys_exec` that frees the arguments. -/
def freeArgs (k : Kmem) (argv : List Nat) : Option Kmem := argv.foldlM (kfree L) k

/-- `sys_exec`, where `namei` says which file a path names. -/
def sysExec (namei : List Byte → Option Program) (k : Kmem) (p : MProc) (path uargv : Nat) :
    Option (Option Nat × Kmem × MProc) :=
  let (ok, s) := copyinstr k p.pagetable path MAXPATH
  if ok then
    let (ok, k, argv) := fetchArgs p uargv MAXARG k []
    if ok then do
      let (r, k, p) ← exec L k p (namei s) argv
      let k ← freeArgs L k argv
      some (r, k, p)
    else do
      let k ← freeArgs L k argv
      some (none, k, p)
  else some (none, k, p)

/-! ## The image -/

/-- An entry the user may use. -/
def ForUser (pte : Pte) : Prop := pte &&& PTE_U ≠ 0

variable {L} {k k' : Kmem} {l l' : List Nat} {m m' f : Bytes} {n v tf sz c V : Nat} {p : MProc} {P : Pte → Prop}
  {U : Finset Nat} {fixed : Nat → Option Nat} {T : Multiset Nat} {ip : Program}

theorem Program.readi_le (ip : Program) (off n : Nat) : ip.readi off n ≤ n := by
  simp only [readi]
  split
  · exact Nat.zero_le n
  · split <;> omega

theorem forUser_flags (pa : Nat) : ForUser (pa2pte pa ||| (PTE_W ||| PTE_X ||| PTE_R ||| PTE_U) ||| PTE_V) := by
  rw [ForUser, pte_and (by decide)]
  decide

theorem Holds.mono (h : Holds k l n P U fixed T) : Holds k l n (fun _ => True) U fixed T :=
  ⟨h.free, h.space.mono, h.total⟩

/-- `readi` reads all it is asked for within the file, where offsets do not wrap around. -/
theorem Program.readi_eq {off : Nat} (hoff : off < 2 ^ 32) (hn : 0 < n) (hlt : n < 2 ^ 32) (h : ip.readi off n = n) :
    off + n < 2 ^ 32 := by
  simp only [readi] at h
  split at h <;> omega

/-- `walkaddr` finds the pages of an image, which the user reaches. -/
theorem Holds.walkaddr_user (h : Holds k l n ForUser U fixed T) (hT : T ≤ L.frames.val) (hv : v ∈ U) :
    ∃ g ∈ userPages k.mem n U, walkaddr k (4096 * n) (4096 * v) = 4096 * g ∧ 4096 * g ≠ 0 ∧
      ∀ y, y / 4096 = v → userAddr k.mem n y = some (4096 * g + y % 4096) := by
  have hlt := h.space.lt v hv
  obtain ⟨hleaf, hu⟩ := h.space.user v hv
  have hg := mem_userPages (m := k.mem) (n := n) hv
  have hpos := Layout.pos_of_mem (Multiset.mem_of_le (h.userPages_le.trans hT) hg)
  refine ⟨_, hg, ?_, by omega, fun y hy => ?_⟩
  · rw [walkaddr_eq (by simp only [MAXVA]; omega), Nat.mul_div_cancel_left v (by decide), if_neg hleaf.1, if_neg hu,
      pte2pa_eq]
  · rw [userAddr, hy, if_pos ⟨by simp only [MAXVA]; omega, hleaf.1, hu⟩, pte2pa_eq]

/-- The bytes of the file from `offset` on, as `loadseg` reads them. -/
def Program.from (ip : Program) (offset : Nat) : Bytes := fun i => ip.data ((offset + i) % 2 ^ 32)

theorem loadsegLoop_holds {j : Nat} (ip : Program) (offset sz : Nat) (h : Holds k l n ForUser (range V) fixed T)
    (hT : T ≤ L.frames.val) (hc : v + j + c ≤ V) :
    ∃ ok k', loadsegLoop ip (4096 * n) (4096 * v) offset sz c k (4096 * j) = some (ok, k') ∧ Frame T k.mem k'.mem ∧
      Holds k' l n ForUser (range V) fixed T ∧
      (ok = true → c = npages (sz - 4096 * j) →
        Wrote k.mem n (4096 * (v + j)) (ip.from offset) (4096 * j) (sz - 4096 * j) k'.mem) := by
  induction c generalizing k j with
  | zero =>
    refine ⟨true, k, rfl, Frame.rfl', h, fun _ hz => ?_⟩
    rw [show sz - 4096 * j = 0 by simp only [npages] at hz; omega]
    exact .zero
  | succ c ih =>
    obtain ⟨g, hg, hpa, hne, hall⟩ := h.walkaddr_user (v := v + j) hT (mem_range.mpr (by omega))
    simp only [loadsegLoop]
    rw [show 4096 * v + 4096 * j = 4096 * (v + j) by omega, hpa, if_neg hne]
    generalize hlen : (if sz - 4096 * j < PGSIZE then sz - 4096 * j else PGSIZE) = len
    have hlen' : len = min (sz - 4096 * j) 4096 := by
      rw [← hlen]
      simp only [PGSIZE]
      split <;> omega
    have hoff : (offset + 4096 * j) % 2 ^ 32 < 2 ^ 32 := Nat.mod_lt _ (by decide)
    generalize hq : (offset + 4096 * j) % 2 ^ 32 = off at hoff ⊢
    have hr := ip.readi_le off len
    have hfg : Frame {g} k.mem (UserMem.move k.mem (4096 * g) ip.data off (ip.readi off len)) :=
      Frame.move (le_refl _) (by omega)
    obtain ⟨hf, h'⟩ := h.write hT (hfg.mono (Multiset.singleton_le.mpr hg))
    split
    · exact ⟨false, _, rfl, hf, h', by simp⟩
    rename_i hfull
    have hfull : ip.readi off len = len := not_not.mp hfull
    have hw : Wrote k.mem n (4096 * (v + j)) ip.data off len (UserMem.move k.mem (4096 * g) ip.data off len) := by
      rw [show 4096 * g = 4096 * g + 4096 * (v + j) % 4096 by omega]
      exact .page (fun y hy => hall y (by omega)) (by omega)
    rw [hfull] at hf h' ⊢
    obtain ⟨ok, k', hk', hf', h'', hwrote⟩ := ih (j := j + 1) h' (by omega)
    refine ⟨ok, k', ?_, hf.trans hf', h'', fun hok hcount => ?_⟩
    · rw [show 4096 * (j + 1) = 4096 * j + PGSIZE by simp only [PGSIZE]; omega] at hk'
      exact hk'
    · have hpos : 0 < len := by simp only [npages] at hcount; omega
      have hnowrap := Program.readi_eq hoff hpos (by omega) hfull
      have hw1 : Wrote _ _ _ (ip.from offset) (4096 * j) _ _ := hw.congr fun i hi => by
        rw [Program.from, ← Nat.add_assoc, Nat.add_mod, hq, Nat.mod_eq_of_lt (a := i) (by omega), Nat.mod_eq_of_lt (by omega)]
      have hw2 := hwrote hok (by simp only [npages] at hcount ⊢; omega)
      by_cases hlast : len = 4096
      · rw [show 4096 * (v + (j + 1)) = 4096 * (v + j) + len by omega, show 4096 * (j + 1) = 4096 * j + len by omega] at hw2
        have := hw1.append (h.clean hT) (hw1.userAddr (h.clean hT)) hw2
        rwa [show len + (sz - (4096 * j + len)) = sz - 4096 * j by omega] at this
      · -- the last page of the segment
        rw [show sz - 4096 * (j + 1) = 0 by omega] at hw2
        have := hw1.append (h.clean hT) (hw1.userAddr (h.clean hT)) (j := 0)
          ⟨fun i hi => absurd hi (Nat.not_lt_zero i), fun a _ => hw2.rest a fun i hi => absurd hi (Nat.not_lt_zero i)⟩
        rwa [show len + 0 = sz - 4096 * j by omega] at this

/-! ## The segments -/

/-- The headers of the segments to load, of `n` headers from `off` on. -/
def Program.segments (ip : Program) : Nat → Nat → List Proghdr
  | 0, _ => []
  | n + 1, off =>
    if (ip.proghdr off).type = ELF_PROG_LOAD then ip.proghdr off :: ip.segments n ((off + 56) % 2 ^ 32)
    else ip.segments n ((off + 56) % 2 ^ 32)

/-- Memory with a segment loaded. -/
def Program.load (ip : Program) (f : Bytes) (ph : Proghdr) : Bytes := fun x =>
  if ph.vaddr ≤ x ∧ x < ph.vaddr + ph.filesz then ip.data ((ph.off + (x - ph.vaddr)) % 2 ^ 32) else f x

/-- The user's memory below page `v` is `f`, which is zero above. -/
def ImageAt (m : Bytes) (n v : Nat) (f : Bytes) : Prop :=
  (∀ x < 4096 * v, ubyte m n x = some (f x)) ∧ ∀ x, 4096 * v ≤ x → f x = 0

/-- Fresh pages hold zeros. -/
theorem ImageAt.grow {a b : Nat} (h : ImageAt m n a f) (hab : a ≤ b) (hb : ∀ v < b, v < 2 ^ 26)
    (hk : Keeps n (range a) (Finset.Ico a b) m m') (hfresh : ∀ w, a ≤ w → w < b → Fresh m' n w) :
    ImageAt m' n b f := by
  refine ⟨fun x hx => ?_, fun x hx => h.2 x (by omega)⟩
  have hlt := hb (x / 4096) (by omega)
  by_cases hxa : x / 4096 < a
  · rw [hk.ubyte (by simp only [VPAGES]; omega) (mem_range.mpr hxa)
      fun hc => by have := mem_Ico.mp hc; omega, h.1 x (by omega)]
  · rw [(hfresh _ (Nat.not_lt.mp hxa) (by omega)).ubyte hlt rfl, h.2 x (by omega)]

theorem ImageAt.load {ph : Proghdr} (h : ImageAt m n v f) (hm : Clean m n)
    (hw : Wrote m n ph.vaddr (ip.from (ph.off % 2 ^ 32)) 0 ph.filesz m') (hv : ph.vaddr + ph.filesz ≤ 4096 * v) :
    ImageAt m' n v (ip.load f ph) := by
  refine ⟨fun x hx => ?_, fun x hx => ?_⟩
  · rw [hw.ubyte hm, Program.load]
    split
    · rw [Program.from, Nat.zero_add, Nat.mod_add_mod]
    · exact h.1 x hx
  · rw [Program.load, if_neg (by omega), h.2 x hx]

theorem loadseg_holds (ip : Program) (va offset : Nat) (h : Holds k l n ForUser (range V) fixed T)
    (hT : T ≤ L.frames.val) (hva : va % 4096 = 0) (hV : va + sz ≤ 4096 * V) :
    ∃ ok k', loadseg ip k (4096 * n) va offset sz = some (ok, k') ∧ Frame T k.mem k'.mem ∧
      Holds k' l n ForUser (range V) fixed T ∧ (ok = true → Wrote k.mem n va (ip.from offset) 0 sz k'.mem) := by
  obtain ⟨ok, k', hk', hf, h', hw⟩ := loadsegLoop_holds (v := va / 4096) (j := 0) (c := npages sz) ip offset sz h hT
    (by simp only [npages]; omega)
  rw [show 4096 * (va / 4096) = va by omega] at hk'
  refine ⟨ok, k', hk', hf, h', fun hok => ?_⟩
  have := hw hok rfl
  rwa [show 4096 * (va / 4096 + 0) = va by omega] at this

/-- The segments are loaded into pages that `uvmalloc` has mapped for them. -/
theorem loadSegments_holds (ip : Program) (off : Nat) (h : Holds k l n ForUser (range (npages sz)) fixed T)
    (hT : T ≤ L.frames.val) (hfix : ∀ w < 2 ^ 26 - 2, fixed w = none) :
    ∃ ok k' l' sz', loadSegments L ip (4096 * n) c k off sz = some (ok, k', sz') ∧ Frame T k.mem k'.mem ∧
      Holds k' l' n ForUser (range (npages sz')) fixed T ∧
      (ok = true → ∀ f, ImageAt k.mem n (npages sz) f →
        ImageAt k'.mem n (npages sz') ((ip.segments c off).foldl ip.load f)) := by
  induction c generalizing k l off sz with
  | zero => exact ⟨true, k, l, sz, rfl, Frame.rfl', h, fun _ _ hf => hf⟩
  | succ c ih =>
    simp only [loadSegments, Program.segments]
    split
    · exact ⟨false, k, l, sz, rfl, Frame.rfl', h, nofun⟩
    generalize hph : ip.proghdr off = ph
    have hvaddr : ph.vaddr < 256 ^ 8 := hph ▸ readLE_lt _ _ _
    have hmemsz : ph.memsz < 256 ^ 8 := hph ▸ readLE_lt _ _ _
    by_cases htype : ph.type = ELF_PROG_LOAD
    swap
    · rw [if_pos htype, if_neg htype]
      exact ih _ h
    rw [if_neg (not_not.mpr htype), if_pos htype]
    split
    · exact ⟨false, k, l, sz, rfl, Frame.rfl', h, nofun⟩
    split
    · exact ⟨false, k, l, sz, rfl, Frame.rfl', h, nofun⟩
    rename_i hfilesz hwrap
    -- the end of the segment does not wrap around
    rw [show (ph.vaddr + ph.memsz) % 2 ^ 64 = ph.vaddr + ph.memsz by omega]
    obtain ⟨r, k1, l1, hk1, hf1, hcase⟩ := uvmalloc_holds (ph.vaddr + ph.memsz) h hT hfix
      fun g => forUser_flags _
    simp only [hk1, Option.bind_eq_bind, Option.bind_some]
    rcases hcase with ⟨rfl, h1, hkeep, hfresh⟩ | ⟨rfl, h1, -⟩
    · split
      · rename_i hzero
        rw [hzero] at h1
        rw [show sz = 0 by omega]
        exact ⟨false, k1, l1, 0, rfl, hf1, h1, nofun⟩
      split
      · exact ⟨false, k1, l1, _, rfl, hf1, h1, nofun⟩
      rename_i halign
      have halign : ph.vaddr % 4096 = 0 := not_not.mp halign
      -- there is not that much memory
      have hsz := h1.user_le hT
      have hmod : ph.filesz % 2 ^ 32 = ph.filesz := by simp only [npages] at hsz; omega
      have hin : ph.vaddr + ph.filesz ≤ 4096 * npages (max sz (ph.vaddr + ph.memsz)) := by simp only [npages]; omega
      obtain ⟨ok, k2, hk2, hf2, h2, hw⟩ := loadseg_holds ip ph.vaddr (ph.off % 2 ^ 32) h1 hT halign hin
      simp only [hmod, hk2, Option.bind_some]
      cases ok with
      | true =>
        obtain ⟨ok, k', l', sz', hk', hf', h', himage⟩ := ih _ h2
        refine ⟨ok, k', l', sz', hk', hf1.trans (hf2.trans hf'), h', fun hok f hf => himage hok _ ?_⟩
        refine ImageAt.load (hf.grow ?_ ?_ hkeep hfresh) (h1.clean hT) (hw rfl) hin
        · simp only [npages]
          omega
        · exact fun v hv => h1.space.lt v (mem_range.mpr hv)
      | false => exact ⟨false, k2, l1, _, rfl, hf1.trans hf2, h2, nofun⟩
    · exact ⟨false, k1, l1, sz, by rw [if_pos rfl], hf1, h1, nofun⟩

end Xv6.Vm
