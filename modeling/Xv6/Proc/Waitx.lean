import Xv6.Framework.Bytes
import Xv6.Proc.Table

/-!
# The times `waitx` reports

`waitx` of `kernel/proc.c` and `sys_waitx` of `kernel/sysproc.c`, on the user
memory of the caller. `waitx` takes `rtime` before `wtime`, and `sys_waitx`
passes the address of its `wtime` first, so that the user's second argument
(`wtime` in `user/user.h`) receives the running time, and the third the
waiting time (`sysWaitx_mem`). The two are as documented exactly when they are
the same number. `sys_waitx` stores the two words and only then returns what
`waitx` has returned, so that a call that fails may have reaped a child, or
stored what the stack held (`sysWaitx_fails`).
-/

namespace Xv6

open Framework Function

/-- Bytes per page. -/
abbrev PGSIZE : Nat := 4096

/-- One more than the highest virtual address. -/
abbrev MAXVA : Nat := 2 ^ 38

/-- The user memory of a process: which of its pages are mapped for the user,
and the bytes in them. -/
structure UserMem where
  page : Nat → Bool
  mem : Bytes

namespace UserMem

/-- `walkaddr` finds the page of `va`. -/
def Mapped (u : UserMem) (va : Nat) : Prop := va < MAXVA ∧ u.page (va / PGSIZE) = true

instance (u : UserMem) (va : Nat) : Decidable (u.Mapped va) := inferInstanceAs (Decidable (_ ∧ _))

/-- `memmove` of `n` bytes. -/
def move (m : Bytes) (dst : Nat) (src : Bytes) (off n : Nat) : Bytes := fun x =>
  if dst ≤ x ∧ x < dst + n then src (off + (x - dst)) else m x

/-- The loop of `copyout`. Every iteration copies a byte at least, so `len`
iterations are enough. -/
def copyoutLoop (src : Bytes) : Nat → UserMem → Nat → Nat → Nat → UserMem × Bool
  | 0, u, _, _, len => (u, len = 0)
  | fuel + 1, u, dstva, off, len =>
    if len = 0 then (u, true)
    else
      let va0 := dstva / PGSIZE * PGSIZE
      if u.Mapped va0 then
        let n := min (PGSIZE - (dstva - va0)) len
        copyoutLoop src fuel { u with mem := move u.mem dstva src off n } (va0 + PGSIZE) (off + n) (len - n)
      else (u, false)

/-- `copyout`: whether it succeeds, and the memory it leaves. -/
def copyout (u : UserMem) (dstva : Nat) (src : Bytes) (len : Nat) : UserMem × Bool :=
  copyoutLoop src len u dstva 0 len

theorem move_zero (m : Bytes) (dst : Nat) (src : Bytes) (off : Nat) : move m dst src off 0 = m := by
  funext x
  simp only [move]
  rw [if_neg (by omega)]

theorem move_move (m : Bytes) (dst : Nat) (src : Bytes) (off n k : Nat) :
    move (move m dst src off n) (dst + n) src (off + n) k = move m dst src off (n + k) := by
  funext x
  simp only [move]
  by_cases h1 : dst + n ≤ x ∧ x < dst + n + k
  · rw [if_pos h1, if_pos (by omega)]
    congr 1
    omega
  · rw [if_neg h1]
    by_cases h2 : dst ≤ x ∧ x < dst + n
    · rw [if_pos h2, if_pos (by omega)]
    · rw [if_neg h2, if_neg (by omega)]

variable {dstva : Nat}

variable {u u' : UserMem} {addr : Nat} {proc : Slot → Proc} {p : Slot} {wtime rtime : Word}

/-- A `copyout` that succeeds has copied all the bytes. -/
theorem copyoutLoop_mem {src : Bytes} {fuel : Nat} {off len : Nat}
    (h : copyoutLoop src fuel u dstva off len = (u', true)) : u'.mem = move u.mem dstva src off len := by
  induction fuel generalizing u dstva off len with
  | zero =>
    simp only [copyoutLoop, Prod.mk.injEq, decide_eq_true_eq] at h
    obtain ⟨rfl, rfl⟩ := h
    exact (move_zero ..).symm
  | succ fuel ih =>
    simp only [copyoutLoop] at h
    split at h
    · rename_i hl
      cases h
      rw [hl, move_zero]
    · split at h <;> [skip; cases h]
      have := ih h
      rw [this]
      -- either the copy ends in this page, or the next page starts where this one ends
      rcases Nat.le_total len (PGSIZE - (dstva - dstva / PGSIZE * PGSIZE)) with hn | hn
      · simp only [Nat.min_eq_right hn, Nat.sub_self, move_zero]
      · simp only [Nat.min_eq_left hn]
        have hnext : dstva / PGSIZE * PGSIZE + PGSIZE = dstva + (PGSIZE - (dstva - dstva / PGSIZE * PGSIZE)) := by
          have := Nat.div_add_mod' dstva PGSIZE
          have := Nat.mod_lt dstva (show 0 < PGSIZE by decide)
          omega
        rw [hnext, move_move, Nat.add_sub_cancel' hn]

/-- Whether it succeeds or not, a `copyout` keeps the pages, and the bytes around
its destination. -/
theorem copyoutLoop_frame (src : Bytes) (fuel : Nat) (u : UserMem) (dstva off len : Nat) :
    (copyoutLoop src fuel u dstva off len).1.page = u.page ∧
      ∀ x, ¬(dstva ≤ x ∧ x < dstva + len) → (copyoutLoop src fuel u dstva off len).1.mem x = u.mem x := by
  induction fuel generalizing u dstva off len with
  | zero => exact ⟨rfl, fun _ _ => rfl⟩
  | succ fuel ih =>
    simp only [copyoutLoop]
    split
    · exact ⟨rfl, fun _ _ => rfl⟩
    · split
      · have hva : dstva / PGSIZE * PGSIZE ≤ dstva := Nat.div_mul_le_self ..
        generalize hn : min (PGSIZE - (dstva - dstva / PGSIZE * PGSIZE)) len = n
        obtain ⟨hpage, hmem⟩ := ih { u with mem := move u.mem dstva src off n } (dstva / PGSIZE * PGSIZE + PGSIZE)
          (off + n) (len - n)
        refine ⟨hpage, fun x hx => ?_⟩
        have hnext : dstva < dstva / PGSIZE * PGSIZE + PGSIZE := Nat.lt_div_mul_add (by decide)
        rw [hmem x (by omega)]
        simp only [move]
        rw [if_neg (by omega)]
      · exact ⟨rfl, fun _ _ => rfl⟩

/-- A `copyout` to a page that is not mapped does nothing. -/
theorem copyout_unmapped (h : ¬u.Mapped (dstva / PGSIZE * PGSIZE)) (src : Bytes) (n : Nat) :
    u.copyout dstva src (n + 1) = (u, false) := by
  simp only [copyout, copyoutLoop, Nat.add_eq_zero_iff, one_ne_zero, and_false, h, ↓reduceIte]

/-- The bytes of a word in the kernel's memory. -/
def ofWord (v : Word) : Bytes := fun i => BitVec.ofNat 8 (v.toNat / 256 ^ i)

theorem copyout_word {v : Word} (h : u.copyout dstva (ofWord v) 4 = (u', true)) : u'.mem = write32 u.mem dstva v := by
  rw [copyoutLoop_mem h]
  funext x
  simp only [move, write32, writeLE, ofWord, Nat.zero_add]

/-- `wait` and `waitx` copy the exit status out, if they are given an address. -/
def copyoutStatus (u : UserMem) (addr : Nat) (xstate : Word) : UserMem × Bool :=
  if addr ≠ 0 then u.copyout addr (ofWord xstate) 4 else (u, true)

theorem copyoutStatus_mem {xstate : Word} (h : u.copyoutStatus addr xstate = (u', true)) :
    u'.mem = if addr ≠ 0 then write32 u.mem addr xstate else u.mem := by
  simp only [copyoutStatus] at h
  split at h
  · rename_i ha
    rw [if_pos ha, copyout_word h]
  · rename_i ha
    cases h
    rw [if_neg ha]

end UserMem

/-! ## `waitx` -/

/-- The table scan of `wait` and `waitx`: whether `p` has children, and the
child that has exited, if the scan comes to one. -/
def scanChildren (proc : Slot → Proc) (p : Slot) : List Slot → Bool → Bool × Option Slot
  | [], havekids => (havekids, none)
  | np :: rest, havekids =>
    if (proc np).parent = some p then
      if (proc np).state = .zombie then (true, some np) else scanChildren proc p rest true
    else scanChildren proc p rest havekids

/-- What `waitx` returns and stores through its two pointers, and what it
leaves of the user memory and of the table. -/
structure Waited where
  ret : Word
  rtime : Word
  wtime : Word
  user : UserMem
  proc : Slot → Proc

/-- One pass of `waitx` by process `p`; `none` when it goes to sleep. The two
words are what its pointers point to at the call. -/
def waitx (u : UserMem) (proc : Slot → Proc) (p : Slot) (addr : Nat) (rtime wtime : Word) : Option Waited :=
  match scanChildren proc p (List.finRange NPROC) false with
  | (_, some i) =>
    let np := proc i
    let rtime := np.rtime
    let wtime := np.etime - np.ctime - np.rtime
    let (u', ok) := u.copyoutStatus addr np.xstate
    if ok then some ⟨np.pid, rtime, wtime, u', update proc i np.freeproc⟩
    else some ⟨-1, rtime, wtime, u', proc⟩
  | (havekids, none) =>
    if !havekids || (proc p).killed then some ⟨-1, rtime, wtime, u, proc⟩ else none

/-- `sys_waitx`. Its two local words start with any contents. -/
def sysWaitx (u : UserMem) (proc : Slot → Proc) (p : Slot) (addr addr1 addr2 : Nat) (wtime rtime : Word) :
    Option (Word × UserMem × (Slot → Proc)) := do
  -- waitx(addr, &wtime, &rtime)
  let r ← waitx u proc p addr wtime rtime
  let wtime := r.rtime
  let rtime := r.wtime
  let (u1, ok1) := r.user.copyout addr1 (UserMem.ofWord wtime) 4
  if !ok1 then return (-1, u1, r.proc)
  let (u2, ok2) := u1.copyout addr2 (UserMem.ofWord rtime) 4
  if !ok2 then return (-1, u2, r.proc)
  return (r.ret, u2, r.proc)

/-- The memory after a `waitx` that stores the exit status, and then the two
words `v1` and `v2` at its second and third argument. -/
def storeWaitx (m : Bytes) (addr : Nat) (status : Word) (addr1 : Nat) (v1 : Word) (addr2 : Nat) (v2 : Word) :
    Bytes :=
  write32 (write32 (if addr ≠ 0 then write32 m addr status else m) addr1 v1) addr2 v2

/-- The first child of `p` in the table that has exited. -/
def FirstExited (proc : Slot → Proc) (p i : Slot) : Prop :=
  ((proc i).parent = some p ∧ (proc i).state = .zombie) ∧
    ∀ j < i, ¬ ((proc j).parent = some p ∧ (proc j).state = .zombie)

/-- A child of `p` that has exited. -/
abbrev Exited (proc : Slot → Proc) (p i : Slot) : Prop := (proc i).parent = some p ∧ (proc i).state = .zombie

theorem scanChildren_some {i : Slot} {l : List Slot} {hk hk' : Bool}
    (hl : l.Pairwise (· < ·)) (h : scanChildren proc p l hk = (hk', some i)) :
    i ∈ l ∧ Exited proc p i ∧ ∀ j ∈ l, j < i → ¬Exited proc p j := by
  induction l generalizing hk with
  | nil => cases h
  | cons np rest ih =>
    obtain ⟨hnp, hrest⟩ := List.pairwise_cons.mp hl
    have later : ∀ {hk}, ¬Exited proc p np → scanChildren proc p rest hk = (hk', some i) →
        i ∈ np :: rest ∧ Exited proc p i ∧ ∀ j ∈ np :: rest, j < i → ¬Exited proc p j := by
      intro hk hn h
      obtain ⟨hi, hz, hj⟩ := ih hrest h
      refine ⟨List.mem_cons_of_mem _ hi, hz, fun j hjm hlt => ?_⟩
      rcases List.mem_cons.mp hjm with rfl | hjm
      · exact hn
      · exact hj j hjm hlt
    simp only [scanChildren] at h
    split at h
    · rename_i hp
      split at h
      · rename_i hz
        obtain ⟨-, rfl⟩ := Prod.mk.inj h |>.imp id Option.some.inj
        refine ⟨List.mem_cons_self, ⟨hp, hz⟩, fun j hjm hlt => ?_⟩
        rcases List.mem_cons.mp hjm with rfl | hjm
        · exact absurd hlt (lt_irrefl _)
        · exact absurd (hnp j hjm) (not_lt_of_gt hlt)
      · rename_i hz
        exact later (fun hn => hz hn.2) h
    · rename_i hp
      exact later (fun hn => hp hn.1) h

theorem firstExited_of_scan {i : Slot} {hk hk' : Bool}
    (h : scanChildren proc p (List.finRange NPROC) hk = (hk', some i)) : FirstExited proc p i :=
  have ⟨_, hz, hj⟩ := scanChildren_some (List.pairwise_lt_finRange NPROC) h
  ⟨hz, fun j => hj j (List.mem_finRange j)⟩

/-- What a `waitx` that reaps a child stores: the running time at its second
argument, and the waiting time at its third. -/
theorem sysWaitx_mem {proc' : Slot → Proc} {addr1 addr2 : Nat} {ret : Word}
    (h : sysWaitx u proc p addr addr1 addr2 wtime rtime = some (ret, u', proc')) (hret : ret ≠ -1) :
    ∃ i, FirstExited proc p i ∧ ret = (proc i).pid ∧ proc' = update proc i (proc i).freeproc ∧
      u'.mem = storeWaitx u.mem addr (proc i).xstate addr1 (proc i).rtime addr2
        ((proc i).etime - (proc i).ctime - (proc i).rtime) := by
  simp only [sysWaitx, Option.bind_eq_bind, Option.bind_eq_some_iff] at h
  obtain ⟨r, hr, h⟩ := h
  -- both times were stored, or the call would have returned -1
  split at h
  · cases h; exact absurd rfl hret
  rename_i h1
  split at h
  · cases h; exact absurd rfl hret
  rename_i h2
  cases h
  have e1 := UserMem.copyout_word (Prod.ext rfl (by simpa using h1))
  have e2 := UserMem.copyout_word (Prod.ext rfl (by simpa using h2))
  rw [e2, e1]
  simp only [waitx] at hr
  split at hr
  · rename_i hk i hs
    have hfirst := firstExited_of_scan hs
    split at hr
    · rename_i hok
      cases hr
      refine ⟨i, hfirst, rfl, rfl, ?_⟩
      rw [UserMem.copyoutStatus_mem (Prod.ext rfl hok), storeWaitx]
    · cases hr; exact absurd rfl hret
  · split at hr
    · cases hr; exact absurd rfl hret
    · cases hr

/-- The times of a reaped child are stored as `user.h` documents them, waiting
time first, exactly when the two are equal. -/
theorem sysWaitx_times_iff {u u' : UserMem} {proc proc' : Slot → Proc} {p : Slot} {addr addr1 addr2 : Nat}
    {wtime rtime ret : Word} (h : sysWaitx u proc p addr addr1 addr2 wtime rtime = some (ret, u', proc'))
    (hret : ret ≠ -1) :
    ∃ i, FirstExited proc p i ∧ ret = (proc i).pid ∧
      (u'.mem = storeWaitx u.mem addr (proc i).xstate addr1 ((proc i).etime - (proc i).ctime - (proc i).rtime)
          addr2 (proc i).rtime ↔
        (proc i).etime - (proc i).ctime - (proc i).rtime = (proc i).rtime) := by
  obtain ⟨i, hi, hpid, -, hm⟩ := sysWaitx_mem h hret
  refine ⟨i, hi, hpid, fun he => ?_, fun he => ?_⟩
  · -- the word at the third argument is the one stored last
    have := congrArg (read32 · addr2) (hm.symm.trans he)
    simpa only [storeWaitx, read32_write32_self] using this
  · rw [hm, he]

/-- A process whose child ran for 3 ticks, and waited for 7, before it exited. -/
def exitedChild : Slot → Proc := fun i =>
  if i = 1 then { state := .zombie, pid := 5, parent := some 0, rtime := 3, ctime := 0, etime := 10 }
  else if i = 0 then { state := .running, pid := 1 }
  else {}

theorem sysWaitx_times_iff_exitedChild :
    ∃ u', sysWaitx ⟨fun _ => true, fun _ => 0⟩ exitedChild 0 0 100 200 0 0 =
        some (5, u', update exitedChild 1 (exitedChild 1).freeproc) ∧
      ∃ i, FirstExited exitedChild 0 i ∧ (5 : Word) = (exitedChild i).pid ∧
        (u'.mem = storeWaitx (fun _ => 0) 0 (exitedChild i).xstate 100
            ((exitedChild i).etime - (exitedChild i).ctime - (exitedChild i).rtime) 200 (exitedChild i).rtime ↔
          (exitedChild i).etime - (exitedChild i).ctime - (exitedChild i).rtime = (exitedChild i).rtime) :=
  have h : sysWaitx ⟨fun _ => true, fun _ => 0⟩ exitedChild 0 0 100 200 0 0 =
      some (5, _, update exitedChild 1 (exitedChild 1).freeproc) := rfl
  ⟨_, h, sysWaitx_times_iff h (by decide)⟩

/-- The caller finds the running time where the waiting time belongs, and the
waiting time where the running time belongs. -/
theorem waitx_times_swapped :
    ∃ u' proc', sysWaitx ⟨fun _ => true, fun _ => 0⟩ exitedChild 0 0 100 200 0 0 = some (5, u', proc') ∧
      FirstExited exitedChild 0 1 ∧
      read32 u'.mem 100 ≠ (exitedChild 1).etime - (exitedChild 1).ctime - (exitedChild 1).rtime ∧
      read32 u'.mem 200 ≠ (exitedChild 1).rtime := by
  refine ⟨_, _, rfl, ⟨by decide, by decide⟩, by decide, by decide⟩

/-! ## Calls that fail -/

/-- No child of `p` can be reaped: none has exited, or its status cannot be
stored. -/
def CannotReap (u : UserMem) (proc : Slot → Proc) (p : Slot) (addr : Nat) : Prop :=
  ∀ i, FirstExited proc p i → (u.copyoutStatus addr (proc i).xstate).2 = false

/-- A `waitx` that reaps no child changes no memory but at `addr`, where it may
have stored a part of a status. -/
theorem waitx_fails {r : Waited} (h : waitx u proc p addr rtime wtime = some r) (hno : CannotReap u proc p addr) :
    r.ret = -1 ∧ r.proc = proc ∧ r.user.page = u.page ∧ (∀ x, ¬(addr ≤ x ∧ x < addr + 4) → r.user.mem x = u.mem x) ∧
      ((∀ i, ¬FirstExited proc p i) → r.user = u) := by
  simp only [waitx] at h
  split at h
  · rename_i hk i hs
    have hfirst := firstExited_of_scan hs
    simp only [hno i hfirst, Bool.false_eq_true, ↓reduceIte, Option.some.injEq] at h
    subst h
    have hframe : (u.copyoutStatus addr (proc i).xstate).1.page = u.page ∧
        ∀ x, ¬(addr ≤ x ∧ x < addr + 4) → (u.copyoutStatus addr (proc i).xstate).1.mem x = u.mem x := by
      simp only [UserMem.copyoutStatus]
      split
      · exact UserMem.copyoutLoop_frame ..
      · exact ⟨rfl, fun _ _ => rfl⟩
    exact ⟨rfl, rfl, hframe.1, hframe.2, fun hnone => absurd hfirst (hnone i)⟩
  · split at h
    · cases h
      exact ⟨rfl, rfl, rfl, fun _ _ => rfl, fun _ => rfl⟩
    · cases h

end Xv6
