import Xv6.Ipc.PipeFifo

/-!
# Reads into a buffer that ends too early

`piperead` advances `nread` before it tries `copyout`. With a buffer of which the
first `j` bytes are mapped it stores and reports at most `j` bytes, but takes one
more from the pipe if there is one and it was asked for: that byte reaches
nobody (`prefixRead_loses`). It takes what it reports exactly if the mapped part
covers the request or the contents of the pipe (`piperead_consumes_iff`).
-/

namespace Xv6.Ipc

open Framework List

variable {n : Nat} {s s' : State n} {p : Fin n} {dst : Nat → Bool} {m : Int} {i j : Nat} {l : List Byte}

namespace Pipe

variable (pi : Pipe)

@[simp]
theorem length_contents : pi.contents.length = (pi.nwrite - pi.nread).toNat := by
  rw [contents, length_map, length_range]

theorem contents_eq_nil_iff : pi.contents = [] ↔ pi.nread = pi.nwrite := by
  rw [← length_eq_zero_iff, length_contents]
  constructor <;> intro h <;> bv_omega

/-- The byte at `nread` is the first one, whatever the counters are. -/
theorem contents_remove (h : pi.nread ≠ pi.nwrite) :
    pi.contents = pi.data (cell PIPESIZE pi.nread) :: { pi with nread := pi.nread + 1 }.contents := by
  have hlen : (pi.nwrite - pi.nread).toNat = (pi.nwrite - (pi.nread + 1)).toNat + 1 := by
    bv_omega
  simp only [contents]
  rw [hlen, range_succ_eq_map, map_cons, map_map, BitVec.add_zero]
  refine congrArg _ (map_congr_left fun k _ => ?_)
  simp only [Function.comp_apply, Nat.succ_eq_add_one]
  rw [BitVec.ofNat_add, BitVec.add_assoc, BitVec.add_comm 1]
  rfl

end Pipe

/-- The loop ends, with `i` bytes read. -/
theorem Run.readEnd {t : State n} (hs : step s (.next p) = some (t.readEnd p m i)) :
    ∃ s', Run step s [.next p] s' ∧ s'.pc p = .got m i ∧ s'.delivered = t.delivered ∧ s'.pipe = t.pipe :=
  ⟨_, .snoc .nil hs, Function.update_self .., rfl, rfl⟩

/-- The second loop of `piperead`, from byte `i` on, if the first `j` bytes of the
buffer are mapped. -/
theorem copy_run (hd : ∀ k, dst k = true ↔ k < j) (hp : s.pc p = .copy dst m i) (hl : s.pipe.contents = l)
    (hi : i ≤ j) :
    ∃ k s', Run step s (replicate k (.next p)) s' ∧
      s'.pc p = .got m (i + min (min (m.toNat - i) (j - i)) l.length : Nat) ∧
      s'.delivered = s.delivered ++ l.take (min (min (m.toNat - i) (j - i)) l.length) ∧
      s'.pipe.contents = l.drop (min (min (m.toNat - i) (j + 1 - i)) l.length) := by
  have hs : step s (.next p) = some (s.pipecopy p dst m i) := by simp only [step, State.next, hp]
  rw [State.pipecopy] at hs
  induction l generalizing s i with
  | nil =>
    have he := s.pipe.contents_eq_nil_iff.mp hl
    simp only [he, if_true, ite_self] at hs
    obtain ⟨s', hr, hp', hd', hpi⟩ := Run.readEnd hs
    refine ⟨1, s', hr, ?_, ?_, ?_⟩
    · simpa using hp'
    · simpa using hd'
    · rw [hpi, hl, drop_nil]
  | cons ch l ih =>
    have hne : s.pipe.nread ≠ s.pipe.nwrite := by
      rw [Ne, ← s.pipe.contents_eq_nil_iff, hl]
      exact cons_ne_nil _ _
    obtain ⟨hch, hl'⟩ := List.cons.inj (hl.symm.trans (s.pipe.contents_remove hne))
    by_cases hm : i < m
    · rw [if_pos hm, if_neg hne] at hs
      by_cases hj : i < j
      · -- one byte goes over, and the loop goes on behind it
        rw [if_pos ((hd i).mpr hj)] at hs
        obtain ⟨k, s', hr, hp', hd', hc'⟩ := ih (s := (s.remove true).goto p (.copy dst m (i + 1))) (i := i + 1)
          (Function.update_self ..) hl'.symm hj (by simp [step, State.next, State.goto, State.pipecopy])
        refine ⟨k + 1, s', ?_, ?_, ?_, ?_⟩
        · rw [run_iff_exec, replicate_succ, exec, hs]
          exact run_iff_exec.mp hr
        · rw [hp', length_cons]
          congr 2
          omega
        · have ht : min (min (m.toNat - i) (j - i)) (ch :: l).length =
              min (min (m.toNat - (i + 1)) (j - (i + 1))) l.length + 1 := by
            rw [length_cons]
            omega
          rw [hd', ht, take_succ_cons, hch]
          simp [State.goto, State.remove]
        · have ht : min (min (m.toNat - i) (j + 1 - i)) (ch :: l).length =
              min (min (m.toNat - (i + 1)) (j + 1 - (i + 1))) l.length + 1 := by
            rw [length_cons]
            omega
          rw [hc', ht, drop_succ_cons]
      · -- the first byte that is not mapped: `nread` has moved on, and `copyout` fails
        rw [if_neg (by rwa [hd])] at hs
        obtain ⟨s', hr, hp', hd', hpi⟩ := Run.readEnd hs
        refine ⟨1, s', hr, ?_, ?_, ?_⟩
        · rw [hp', show j - i = 0 by omega]
          simp
        · rw [hd', show j - i = 0 by omega]
          simp [State.remove]
        · rw [hpi, length_cons, show min (min (m.toNat - i) (j + 1 - i)) (l.length + 1) = 1 by omega,
            drop_one, tail_cons, hl']
          rfl
    · rw [if_neg hm] at hs
      obtain ⟨s', hr, hp', hd', hpi⟩ := Run.readEnd hs
      have hz : m.toNat - i = 0 := by omega
      refine ⟨1, s', hr, ?_, ?_, ?_⟩
      · simpa [hz] using hp'
      · simpa [hz] using hd'
      · rw [hpi, hl, hz]
        simp

/-- `piperead` in its second loop, with a buffer of which the first `j` bytes are
mapped: it stores and reports as many bytes as there are, up to `j` and to what
it was asked for, and these are the first ones in the pipe; the bytes that are
left in the pipe follow them in order, without a gap exactly if `j` is not
before the request or the contents end. -/
theorem piperead_consumes_iff (hd : ∀ k, dst k = true ↔ k < j) (hp : s.pc p = .copy dst m 0) :
    ∃ k s' r, Run step s (replicate k (.next p)) s' ∧ s'.pc p = .got m (r : Nat) ∧
      r = min (min m.toNat j) s.pipe.contents.length ∧
      s'.delivered = s.delivered ++ s.pipe.contents.take r ∧
      s'.pipe.contents = s.pipe.contents.drop (min (min m.toNat (j + 1)) s.pipe.contents.length) ∧
      (s'.pipe.contents = s.pipe.contents.drop r ↔ m ≤ j ∨ s.pipe.contents.length ≤ j) := by
  obtain ⟨k, s', hr, hp', hd', hc'⟩ := copy_run hd hp rfl (Nat.zero_le j)
  simp only [Nat.zero_add, Nat.sub_zero] at hp' hd' hc'
  refine ⟨k, s', _, hr, hp', rfl, hd', hc', ?_⟩
  rw [hc']
  constructor
  · intro h
    have := congrArg length h
    simp only [length_drop] at this
    omega
  · intro h
    congr 1
    omega

/-- A process writes `AB`, and another one is about to read both into a buffer
whose mapping ends after one byte. -/
def prefixReadRun : List (Act 2) :=
  [.pipewrite 0 (fun k => [65, 66][k]?) 2, .next 0, .next 0, .next 0, .piperead 1 (fun k => decide (k < 1)) 2, .next 1]

/-- The two bytes are there when the second loop starts, and one of them is for
nobody when it has ended. -/
theorem prefixRead_loses : ∃ s s' : State 2, Run step (State.init 2 fun _ => 0) prefixReadRun s ∧
    s.pc 1 = .copy (fun k => decide (k < 1)) 2 0 ∧ s.pipe.contents = [65, 66] ∧
    Run step s (replicate 2 (.next 1)) s' ∧ s'.pc 1 = .got 2 1 ∧ s'.delivered = [65] ∧ s'.pipe.contents = [] := by
  refine ⟨_, _, run_iff_exec.mpr rfl, rfl, ?_, run_iff_exec.mpr rfl, rfl, rfl, ?_⟩ <;> decide +kernel

/-- With one byte in the pipe the same call loses nothing. -/
theorem piperead_consumes_byte : ∃ s s' : State 2,
    s.pc 1 = .copy (fun k => decide (k < 1)) 2 0 ∧ s.pipe.contents = [65] ∧
      s'.pc 1 = .got 2 1 ∧ s'.delivered = [65] ∧ s'.pipe.contents = [] := by
  let s : State 2 :=
    { State.init 2 fun _ => 65 with
      pipe := { Pipe.init fun _ => 65 with nwrite := 1 }
      pc := fun _ => .copy (fun k => decide (k < 1)) 2 0 }
  have hc : s.pipe.contents = [65] := by decide +kernel
  obtain ⟨k, s', r, -, hp, hr, hd, -, hrest⟩ := piperead_consumes_iff (s := s) (p := 1) (j := 1)
    (fun k => decide_eq_true_iff) rfl
  rw [hc] at hr hd hrest
  subst hr
  exact ⟨s, s', rfl, hc, hp, hd, hrest.mpr (.inr (Nat.le_refl 1))⟩

end Xv6.Ipc
