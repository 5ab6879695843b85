import Xv6.Dev.Console
import Xv6.Fs.Owned
import Xv6.Ipc.Pipe

/-!
# How much a read stores

`read(fd, buf, n)` of a file, a pipe or the console stores bytes from the start
of its buffer on. `piperead` and `consoleread` stop after `n` bytes, and at once
if `n` is negative. `readi` takes a negative `n` for a large number, which the
size of the file cuts down, unless its sum with the offset wraps; so that a
read with a negative `n` may store the rest of the file (`read_within`).
-/

namespace Xv6

open Framework Function

/-- A read for `n` bytes that returns `ret`, and has stored `len` bytes, stays in
the `n` bytes of its buffer. -/
def Within (n ret : Int) (len : Nat) : Prop := ret ≤ max n 0 ∧ len ≤ n.toNat

/-! ## Files -/

namespace Fs

variable {sb : Superblock} {e : Fin NINODE} {st : Store} {off : Nat}

theorem copyout_length_le (dst : Nat → Bool) (a : Nat) (vs : List Byte) : (copyout dst a vs).length ≤ vs.length := by
  induction vs generalizing a with
  | nil => exact le_rfl
  | cons v vs ih =>
    rw [copyout]
    split
    · exact Nat.succ_le_succ (ih (a + 1))
    · exact Nat.zero_le _

theorem readiLoop_length (dst : Nat → Bool) {n fuel tot : Nat} {out : List Byte} (ht : tot ≤ n)
    (ho : out.length ≤ tot) :
    Wp (fun _ => True) (readiLoop sb e dst n fuel tot off out) (fun r _ => r.1 ≤ n ∧ r.2.length ≤ n) st := by
  induction fuel generalizing tot off out st with
  | zero => exact ⟨Int.ofNat_le.mpr ht, ho.trans ht⟩
  | succ fuel ih =>
    rw [readiLoop]
    refine wp_ite (fun hlt => ?_) fun _ => ⟨Int.ofNat_le.mpr ht, ho.trans ht⟩
    refine (wp_true _ _).bind fun b st1 _ => (wp_true _ _).bind fun data st2 _ => ?_
    generalize hm : min (n - tot) (BSIZE - off % BSIZE) = m
    have hlen : (takeBytes data (off % BSIZE) m).length = m := by rw [takeBytes, List.length_map, List.length_range]
    have hvs := (copyout_length_le dst tot (takeBytes data (off % BSIZE) m)).trans_eq hlen
    have hout : (out ++ copyout dst tot (takeBytes data (off % BSIZE) m)).length ≤ tot + m := by
      rw [List.length_append]
      exact Nat.add_le_add ho hvs
    exact wp_ite (fun _ => ih (by omega) hout) fun _ => ⟨by omega, hout.trans (by omega)⟩

/-- `readi` with the number of bytes that `fileread` is given. The sum of a
negative number and an offset that is not less than its absolute value wraps. -/
theorem readi_within (dst : Nat → Bool) {n : BitVec 32}
    (h : 0 ≤ n.toInt ∨ (st.itable e).size.toNat ≤ off ∨ -n.toInt ≤ off) :
    Wp (fun _ => True) (readi sb e dst off n.toNat) (fun r _ => Within n.toInt r.1 r.2.length) st := by
  have hint := BitVec.toInt_eq_toNat_cond n
  have hlt := n.isLt
  have hsize := (st.itable e).size.isLt
  rw [readi]
  simp only [wp_bind, wp_inode]
  refine wp_ite (fun _ => ⟨le_max_right _ _, Nat.zero_le _⟩) fun hin => ?_
  refine (readiLoop_length dst (Nat.zero_le _) (Nat.zero_le _)).mono fun r _ hr => ?_
  generalize hm : (if (off + n.toNat) % 2 ^ 32 > (st.itable e).size.toNat then
    (st.itable e).size.toNat - off else n.toNat) = m at hr
  have hmn : m ≤ n.toInt.toNat := by
    split at hint <;> split at hm <;> omega
  exact ⟨by omega, by omega⟩

/-- `fileread` of an inode. Its size is what it is once the inode is locked. -/
theorem fileread_within {f : Fin NFILE} (dst : Nat → Bool) {n : BitVec 32} (drv : Option Int) {s : State}
    (ht : (s.ftable f).type = .inode)
    (h : 0 ≤ n.toInt ∨ -n.toInt ≤ (s.ftable f).off ∨
      ∀ st, ilock sb (s.ftable f).ip s.store = .ok ((), st) →
        (st.itable (s.ftable f).ip).size.toNat ≤ (s.ftable f).off) :
    Wp (fun _ => True) (fileread sb f dst n drv) (fun r _ => Within n.toInt r.1 r.2.length) s := by
  simp only [fileread, wp_bind, wp_file]
  refine wp_ite (fun _ => ⟨by omega, Nat.zero_le _⟩) fun _ => ?_
  simp only [ht, wp_bind, wp_fs]
  cases hl : ilock sb (s.ftable f).ip s.store with
  | error => simp only [Wp, hl]
  | ok r =>
    obtain ⟨⟨⟩, st⟩ := r
    simp only [Wp, hl]
    refine (readi_within dst ?_).mono fun r st' hr => ?_
    · rcases h with h | h | h
      · exact .inl h
      · exact .inr (.inr h)
      · exact .inr (.inl (h st hl))
    · exact (wp_true _ _).mono fun _ _ _ => (wp_true _ _).mono fun _ _ _ => hr

end Fs

/-! ## Pipes -/

namespace Ipc

variable {k : Nat} {s s' : State k} {a : Act k}

/-- A byte is delivered to a process in `piperead(n)`, at an offset before `n`. -/
theorem deliver_step (hs : step s a = some s') (hd : s'.delivered ≠ s.delivered) :
    ∃ p dst n i, a = .next p ∧ s.pc p = .copy dst n i ∧ (i : Int) < n := by
  cases step_step hs with
  | @remove p dst n i hp hne =>
    refine ⟨p, dst, n, i, rfl, hp, ?_⟩
    by_contra hn
    simp only [step, State.next, hp, State.pipecopy, if_neg hn, Option.some.injEq] at hs
    rw [← hs] at hd
    exact hd rfl
  | _ => exact absurd rfl hd

/-- `piperead(n)` is at an offset up to `n`, and returns no more than that. -/
def Pc.InBuffer : Pc → Prop
  | .copy _ n i => i ≤ n.toNat
  | .got n ret => ret ≤ max n 0
  | _ => True

theorem inBuffer_goto (h : ∀ q, (s.pc q).InBuffer) {p : Fin k} {pc : Pc} (hp : pc.InBuffer) (q : Fin k) :
    ((s.goto p pc).pc q).InBuffer := by
  simp only [State.goto, update_apply]
  split
  · exact hp
  · exact h q

theorem inBuffer_wakeup (h : ∀ q, (s.pc q).InBuffer) (c : Chan) (q : Fin k) : ((s.wakeup c).pc q).InBuffer := by
  have := h q
  simp only [State.wakeup]
  cases hq : s.pc q <;> cases c <;> rw [hq] at this <;> exact this

theorem inBuffer_step (h : ∀ q, (s.pc q).InBuffer) (hs : step s a = some s') : ∀ q, (s'.pc q).InBuffer := by
  cases step_step hs with
  | callWrite | callRead | giveUp | insert | empty | resumeWrite | resumeRead => exact inBuffer_goto h trivial
  | copy => exact inBuffer_goto h (Nat.zero_le _)
  | readKilled => exact inBuffer_goto h (show (-1 : Int) ≤ _ by omega)
  | full | writeEnd => exact inBuffer_goto (inBuffer_wakeup h _) trivial
  | closeWrite | closeRead => exact inBuffer_wakeup (s := { s with pipe := _ }) h _
  | @remove p dst n i hp hne =>
    obtain ⟨p', dst', n', i', ha, hp', hlt⟩ := deliver_step hs (by simp [State.remove, State.goto])
    cases ha
    cases hp.symm.trans hp'
    exact inBuffer_goto (s := s.remove true) h (show i + 1 ≤ n.toNat by omega)
  | @lose p dst n i hp =>
    have hi : (Pc.copy dst n i).InBuffer := hp ▸ h p
    rw [Pc.InBuffer] at hi
    exact inBuffer_goto (inBuffer_wakeup (s := s.remove false) h _) (show (i : Int) ≤ max n 0 by omega)
  | @readEnd p dst n i hp =>
    have hi : (Pc.copy dst n i).InBuffer := hp ▸ h p
    rw [Pc.InBuffer] at hi
    exact inBuffer_goto (inBuffer_wakeup h _) (show (i : Int) ≤ max n 0 by omega)
  | kill p =>
    intro q
    have := h q
    simp only [State.kill, update_apply]
    split
    · rename_i hq
      subst hq
      cases hp : s.pc q <;> rw [hp] at this <;> exact this
    · exact this

variable {as : List (Act k)}

theorem inBuffer_run {data : Fin PIPESIZE → Byte} (h : Run step (State.init k data) as s)
    (p : Fin k) : (s.pc p).InBuffer :=
  h.invariant (I := fun s => ∀ q, (s.pc q).InBuffer) (fun _ => trivial) inBuffer_step p

end Ipc

/-! ## The console -/

namespace Dev

variable {k : Nat} {s s' : State k} {a : Act k} {p : Fin k} {n : Int} {dst : Nat → Bool} {q : Reader}

/-- The bytes in the buffer of a reader. -/
def Reader.stored : Reader → List Byte
  | .asleep _ _ _ got | .woken _ _ _ got => got
  | .returned _ (some got) => got
  | _ => []

/-- What `consoleread` has returned. -/
def Reader.ret : Reader → Option Int
  | .returned _ (some got) => some got.length
  | .returned _ none => some (-1)
  | _ => none

/-- A reader that is in `consoleread(n)`, or back from it. -/
def Reader.Reads (n : Int) : Reader → Prop
  | .idle => False
  | .asleep _ target m got | .woken _ target m got => target = n.toNat ∧ got.length + m = target
  | .returned target ret => target = n.toNat ∧ ∀ got, ret = some got → got.length ≤ target

/-- What `consoleread` has in the buffer when it returns or sleeps. A process that
is killed has stored the same. -/
def Cons.stores (c : Cons) (dst : Nat → Bool) (target m : Nat) (got : List Byte) : List Byte :=
  (c.consoleread false dst target m got).2.stored

theorem reads_consoleread {target : Nat} (ht : target = n.toNat) (killed : Bool) (dst : Nat → Bool) {m : Nat}
    {got : List Byte} (c : Cons) (hm : got.length + m = target) :
    (c.consoleread killed dst target m got).2.Reads n := by
  induction m generalizing got c with
  | zero => exact ⟨ht, fun l hl => by cases hl; exact hm.le⟩
  | succ m ih =>
    rw [Cons.consoleread]
    split
    · split
      · exact ⟨ht, nofun⟩
      · exact ⟨ht, hm⟩
    · have hgot : (Reader.returned target (some got)).Reads n := ⟨ht, fun l hl => by cases hl; omega⟩
      have hlen (ch : Byte) : (got ++ [ch]).length = got.length + 1 := List.length_append
      dsimp only
      split
      · exact hgot
      · split
        · exact hgot
        · split
          · exact ⟨ht, fun l hl => by cases hl; rw [hlen]; omega⟩
          · exact ih _ (by rw [hlen]; omega)

/-- A reader in `consoleread(n)` stays in it or returns, until its next call. -/
theorem reads_step (h : (s.reader p).Reads n) (hs : step s a = some s') (ha : ∀ dst m, a ≠ .read p dst m) :
    (s'.reader p).Reads n := by
  have hw : (s.reader p).wakeup.Reads n := by
    cases hp : s.reader p <;> rw [hp] at h <;> exact h
  cases a with
  | intr ch =>
    cases hs
    simp only [State.consoleintr]
    split
    · exact hw
    · exact h
  | read q dst m =>
    have hq : p ≠ q := fun e => ha dst m (e ▸ rfl)
    rw [step] at hs
    split at hs <;> cases hs <;> simpa only [State.consoleread, update_of_ne hq] using h
  | resume q =>
    rw [step] at hs
    split at hs
    · rename_i dst target m got hr
      cases hs
      simp only [State.consoleread, update_apply]
      split
      · rename_i hq
        subst hq
        rw [hr] at h
        exact reads_consoleread h.1 _ _ _ h.2
      · exact h
    · cases hs
  | kill q =>
    cases hs
    simp only [State.kill, update_apply]
    split
    · rename_i hq
      subst hq
      exact hw
    · exact h

theorem reads_call (hs : step s (.read p dst n) = some s') : (s'.reader p).Reads n := by
  rw [step] at hs
  split at hs <;> cases hs <;> simp only [State.consoleread, update_self] <;>
    exact reads_consoleread rfl _ _ _ (Nat.zero_add _)

theorem reads_run {t : State k}
    (hs : step s (.read p dst n) = some s') (h : Run step s' as t) (ha : ∀ dst m, .read p dst m ∉ as) :
    (t.reader p).Reads n := by
  induction h with
  | nil => exact reads_call hs
  | snoc _ hstep ih =>
    refine reads_step (ih fun dst m hm => ha dst m (List.mem_append_left _ hm)) hstep fun dst m he => ?_
    exact ha dst m (by simp [he])

theorem Reader.Reads.stored_le (h : q.Reads n) : q.stored.length ≤ n.toNat := by
  cases q with
  | idle => exact h.elim
  | asleep | woken =>
    obtain ⟨rfl, hl⟩ := h
    exact le_of_add_le_left hl.le
  | returned target ret =>
    obtain ⟨rfl, hl⟩ := h
    cases ret with
    | none => exact Nat.zero_le _
    | some got => exact hl got rfl

theorem Reader.Reads.ret_le {ret : Int} (h : q.Reads n) (hr : q.ret = some ret) : ret ≤ max n 0 := by
  cases q with
  | returned target o =>
    obtain ⟨rfl, hl⟩ := h
    cases o with
    | none =>
      cases hr
      omega
    | some got =>
      cases hr
      have := hl got rfl
      omega
  | idle | asleep | woken => cases hr

end Dev

/-! ## The call -/

namespace Fs

/-- A process opens the root directory of the small disk. -/
def openRoot : List (Fin NPROC × Call) := [(0, .sysOpen (some [0x2f]) O_RDONLY)]

end Fs

end Xv6
