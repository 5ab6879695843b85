import Xv6.Ipc.Pipe

/-!
# A pipe is a queue

`Fifo s l` says that the bytes in the pipe are `l`: the counters are `l.length`
apart, whatever they have been through, and what was put in is what was
delivered and then `l`. It is kept by every step as long as the readers' buffers
are mapped (`Queue.step`), and so `piperead` returns 0 only at the end of all
that was ever written (`pipe_fifo`).
-/

namespace Xv6.Ipc

open Framework Function List

variable {n : Nat} {s : State n}

/-- The bytes of `data` from `nread` to `nwrite`. -/
def Pipe.contents (pi : Pipe) : List Byte :=
  (range (pi.nwrite - pi.nread).toNat).map fun k => pi.data (cell PIPESIZE (pi.nread + BitVec.ofNat 32 k))

/-- The bytes in the pipe are `l`. -/
structure Fifo (s : State n) (l : List Byte) : Prop where
  bytes : s.inserted = s.delivered ++ l
  le : l.length ≤ PIPESIZE
  nwrite : s.pipe.nwrite = s.pipe.nread + BitVec.ofNat 32 l.length
  stored : Stored s.pipe.data s.pipe.nread l

theorem pipesize_dvd : PIPESIZE ∣ 2 ^ 32 := ⟨2 ^ 23, rfl⟩

namespace Fifo

variable {s : State n} {l : List Byte}

theorem length_lt (h : Fifo s l) : l.length < 2 ^ 32 := Nat.lt_of_le_of_lt h.le (by decide)

/-- The test for an empty pipe. -/
theorem empty_iff (h : Fifo s l) : s.pipe.nread = s.pipe.nwrite ↔ l = [] := by
  rw [h.nwrite, eq_comm, add_length_eq_self _ h.length_lt, length_eq_zero_iff]

/-- The test for a full pipe. -/
theorem full_iff (h : Fifo s l) :
    s.pipe.nwrite = s.pipe.nread + BitVec.ofNat 32 PIPESIZE ↔ l.length = PIPESIZE := by
  rw [h.nwrite, add_length_inj _ h.length_lt (by decide)]

theorem insert (h : Fifo s l) (hf : s.pipe.nwrite ≠ s.pipe.nread + BitVec.ofNat 32 PIPESIZE) (ch : Byte) :
    Fifo (s.insert ch) (l ++ [ch]) := by
  have hlt : l.length < PIPESIZE := Nat.lt_of_le_of_ne h.le (h.full_iff.not.mp hf)
  refine ⟨?_, ?_, ?_, ?_⟩
  · simp only [State.insert]
    rw [h.bytes, append_assoc]
  · rwa [length_append, length_singleton]
  · simp only [State.insert]
    rw [h.nwrite, length_append, length_singleton, BitVec.ofNat_add, BitVec.add_assoc]
    rfl
  · simp only [State.insert]
    rw [h.nwrite]
    exact h.stored.push pipesize_dvd hlt ch

theorem remove {ch : Byte} (h : Fifo s (ch :: l)) : Fifo (s.remove true) l := by
  obtain ⟨hb, hle, hn, hc, hst⟩ := h
  refine ⟨?_, Nat.le_of_succ_le hle, ?_, hst⟩ <;> simp only [State.remove, if_true]
  · rw [hb, hc, append_assoc, singleton_append]
  · rw [hn, add_length_cons]

theorem contents_eq (h : Fifo s l) : s.pipe.contents = l := by
  rw [Pipe.contents, h.nwrite, sub_length _ h.length_lt]
  exact h.stored.eq_map.symm

end Fifo

/-! ## What a process knows of the pipe -/

/-- The first `m` bytes of a buffer are mapped. -/
def Mapped (dst : Nat → Bool) (m : Int) : Prop := ∀ k : Nat, k < m → dst k = true

/-- A reader has a mapped buffer; it reads nothing, and has read nothing, only
at the end of the file. -/
def Pc.Ok (pi : Pipe) : Pc → Prop
  | read dst m | readSleep dst m | readWoken dst m => Mapped dst m
  | copy dst m i => Mapped dst m ∧ (i = 0 → pi.nread = pi.nwrite → pi.writeopen = false)
  | got m ret => ret = 0 → 0 < m → pi.nread = pi.nwrite ∧ pi.writeopen = false
  | _ => True

namespace Pc.Ok

variable {pi : Pipe} {pc : Pc}

theorem wakeup (h : pc.Ok pi) (c : Chan) : (pc.wakeup c).Ok pi := by
  cases c <;> cases pc <;> exact h

theorem kill (h : pc.Ok pi) : pc.kill.Ok pi := by
  cases pc <;> exact h

theorem closeWrite (h : pc.Ok pi) : pc.Ok { pi with writeopen := false } := by
  cases pc with
  | copy => exact ⟨h.1, fun _ _ => rfl⟩
  | got => exact fun hr hm => ⟨(h hr hm).1, rfl⟩
  | _ => exact h

theorem closeRead (h : pc.Ok pi) : pc.Ok { pi with readopen := false } := by
  cases pc <;> exact h

end Pc.Ok

/-- The pipe is a queue, and the processes know. -/
structure Queue (s : State n) : Prop where
  fifo : ∃ l, Fifo s l
  ok : ∀ p, (s.pc p).Ok s.pipe

namespace Queue

variable {s s' : State n} {p : Fin n} {pc : Pc} {m : Int} {i : Nat}

theorem init (n : Nat) (data : Fin PIPESIZE → Byte) : Queue (State.init n data) where
  fifo := ⟨[], rfl, Nat.zero_le _, rfl, trivial⟩
  ok _ := trivial

theorem goto (h : Queue s) (hpc : pc.Ok s.pipe) : Queue (s.goto p pc) := by
  obtain ⟨l, hl⟩ := h.fifo
  refine ⟨⟨l, hl.bytes, hl.le, hl.nwrite, hl.stored⟩, fun q => ?_⟩
  simp only [State.goto]
  by_cases hq : q = p
  · subst hq
    rwa [update_self]
  · rw [update_of_ne hq]
    exact h.ok q

theorem wakeup (h : Queue s) (c : Chan) : Queue (s.wakeup c) := by
  obtain ⟨l, hl⟩ := h.fifo
  exact ⟨⟨l, hl.bytes, hl.le, hl.nwrite, hl.stored⟩, fun q => (h.ok q).wakeup c⟩

theorem kill (h : Queue s) (p : Fin n) : Queue (s.kill p) := by
  obtain ⟨l, hl⟩ := h.fifo
  refine ⟨⟨l, hl.bytes, hl.le, hl.nwrite, hl.stored⟩, fun q => ?_⟩
  simp only [State.kill]
  by_cases hq : q = p
  · subst hq
    rw [update_self]
    exact (h.ok q).kill
  · rw [update_of_ne hq]
    exact h.ok q

/-- While a process has the lock, what the others know stays true if the pipe
changes in a way that the end of the file does not allow. -/
theorem ok_change {pi : Pipe} (h : Queue s) (hc : Control s) (hp : (s.pc p).locked = true)
    (heof : s.pipe.nread = s.pipe.nwrite → s.pipe.writeopen = true) {q : Fin n} (hq : q ≠ p) :
    (s.pc q).Ok pi := by
  have hok := h.ok q
  have hne : (s.pc q).locked = false := by
    by_contra hl
    exact hq (hc.eq_of_locked hp (by simpa using hl))
  cases hpc : s.pc q <;> rw [hpc] at hok hne <;> try exact hok
  case copy => cases hne
  case got m ret =>
    intro hr hm
    obtain ⟨he, hw⟩ := hok hr hm
    rw [heof he] at hw
    cases hw

theorem insert (h : Queue s) (hc : Control s) {src : Nat → Option Byte}
    (hp : s.pc p = .write src m i) (hf : s.pipe.nwrite ≠ s.pipe.nread + BitVec.ofNat 32 PIPESIZE) (ch : Byte) :
    Queue (s.insert ch) := by
  obtain ⟨l, hl⟩ := h.fifo
  obtain ⟨-, hw, -⟩ := hc.here hp rfl
  refine ⟨⟨_, hl.insert hf ch⟩, fun q => ?_⟩
  simp only [State.insert]
  by_cases hq : q = p
  · rw [hq, hp]
    trivial
  · exact h.ok_change hc (by rw [hp]; rfl) (fun _ => hw rfl) hq

theorem remove (h : Queue s) (hc : Control s) {dst : Nat → Bool}
    (hp : s.pc p = .copy dst m (i + 1)) (hne : s.pipe.nread ≠ s.pipe.nwrite) : Queue (s.remove true) := by
  obtain ⟨l, hl⟩ := h.fifo
  cases l with
  | nil => exact absurd (hl.empty_iff.mpr rfl) hne
  | cons ch l =>
    refine ⟨⟨l, hl.remove⟩, fun q => ?_⟩
    simp only [State.remove]
    by_cases hq : q = p
    · have hok := h.ok p
      rw [hp] at hok
      rw [hq, hp]
      exact ⟨hok.1, by simp⟩
    · exact h.ok_change hc (by rw [hp]; rfl) (fun he => absurd he hne) hq

theorem closeWrite (h : Queue s) : Queue (s.pipeclose true) := by
  obtain ⟨l, hl⟩ := h.fifo
  exact wakeup (s := { s with pipe := { s.pipe with writeopen := false } })
    ⟨⟨l, hl.bytes, hl.le, hl.nwrite, hl.stored⟩, fun q => (h.ok q).closeWrite⟩ .nread

theorem closeRead (h : Queue s) : Queue (s.pipeclose false) := by
  obtain ⟨l, hl⟩ := h.fifo
  exact wakeup (s := { s with pipe := { s.pipe with readopen := false } })
    ⟨⟨l, hl.bytes, hl.le, hl.nwrite, hl.stored⟩, fun q => (h.ok q).closeRead⟩ .nwrite

/-- What the process at `pc` knows. -/
theorem here (h : Queue s) (hp : s.pc p = pc) : pc.Ok s.pipe := hp ▸ h.ok p

end Queue

/-- A call of `piperead` has a mapped buffer. -/
def Act.Mapped : Act n → Prop
  | .piperead _ dst m => Ipc.Mapped dst m
  | _ => True

theorem Queue.step {s' : State n} (h : Queue s) (hc : Control s) {a : Act n} (ha : a.Mapped) (hs : Step s a s') :
    Queue s' := by
  cases hs with
  | callWrite | giveUp | resumeWrite => exact h.goto trivial
  | callRead => exact h.goto ha
  | closeWrite => exact h.closeWrite
  | closeRead => exact h.closeRead
  | full | writeEnd => exact (h.wakeup .nread).goto trivial
  | insert hp _ hf ch => exact (h.insert hc hp hf ch).goto trivial
  | readKilled => exact h.goto nofun
  | empty hp | resumeRead _ hp =>
    have hok := h.here hp
    exact h.goto hok
  | copy hp hr => exact h.goto ⟨h.here hp, fun _ => hr⟩
  | @remove p dst m i hp hne =>
    obtain ⟨hl, -, hr⟩ := hc.here hp rfl
    have hq : Queue (s.goto p (.copy dst m (i + 1))) := h.goto ⟨(h.here hp).1, nofun⟩
    have hc' : Control (s.goto p (.copy dst m (i + 1))) := hc.goto (.inr hl) nofun hr
    exact hq.remove hc' (update_self ..) hne
  | @lose p dst m i hp hne hi hd =>
    have := (h.here hp).1 i hi
    rw [hd] at this
    cases this
  | @readEnd p dst m i hp hwhy =>
    refine (h.wakeup .nwrite).goto fun hr hm => ?_
    -- nothing was read: the pipe was found empty, and the write end closed
    have hi : i = 0 := by omega
    have he : s.pipe.nread = s.pipe.nwrite := by
      rcases hwhy with hle | he
      · omega
      · exact he
    exact ⟨he, (h.here hp).2 hi he⟩
  | kill p => exact h.kill p

theorem run_queue {data : Fin PIPESIZE → Byte} {as : List (Act n)}
    (hr : Run step (State.init n data) as s) (hm : ∀ a ∈ as, a.Mapped) : Control s ∧ Queue s := by
  induction hr with
  | nil => exact ⟨Control.init n data, Queue.init n data⟩
  | snoc _ hs ih =>
    obtain ⟨hc, hq⟩ := ih fun a ha => hm a (mem_append_left _ ha)
    exact ⟨hc.step (step_step hs), hq.step hc (hm _ (by simp)) (step_step hs)⟩

/-- A pipe with mapped readers is a queue of at most 512 bytes, however often its
counters wrap, and `piperead` returns 0 only at the end of the file. -/
theorem pipe_fifo {s : State n} {data : Fin PIPESIZE → Byte} {as : List (Act n)}
    (hr : Run step (State.init n data) as s) (hm : ∀ a ∈ as, a.Mapped) :
    (s.pipe.nwrite - s.pipe.nread).toNat ≤ PIPESIZE ∧ s.inserted = s.delivered ++ s.pipe.contents ∧
      ∀ p m, s.pc p = .got m 0 → 0 < m → s.pipe.writeopen = false ∧ s.delivered = s.inserted := by
  obtain ⟨-, hq⟩ := run_queue hr hm
  obtain ⟨l, hl⟩ := hq.fifo
  refine ⟨?_, ?_, fun p m hp hpos => ?_⟩
  · rw [hl.nwrite, sub_length _ hl.length_lt]
    exact hl.le
  · rw [hl.contents_eq]
    exact hl.bytes
  · obtain ⟨he, hw⟩ := hq.here hp rfl hpos
    refine ⟨hw, ?_⟩
    rw [hl.bytes, hl.empty_iff.mp he, append_nil]

/-- Two processes write a byte each, a third reads both and then the end of the
file. -/
def pipeFifoRun : List (Act 3) :=
  [.pipewrite 0 (fun _ => some 65) 1, .next 0, .next 0, .pipewrite 1 (fun _ => some 66) 1, .next 1, .next 1,
    .piperead 2 (fun _ => true) 10, .next 2, .next 2, .next 2, .next 2, .pipeclose true,
    .piperead 2 (fun _ => true) 10, .next 2, .next 2]

theorem pipeFifoRun_mapped : ∀ a ∈ pipeFifoRun, a.Mapped := by
  simp [pipeFifoRun, Act.Mapped, Mapped]

theorem pipe_fifo_end : ∃ s, Run step (State.init 3 fun _ => 0) pipeFifoRun s ∧ s.delivered = [65, 66] ∧
    s.delivered = s.inserted ∧ s.pipe.contents = [] := by
  obtain ⟨s, hr, hd, hi⟩ := exists_run step (State.init 3 fun _ => 0) pipeFifoRun
    (Q := fun s => s.delivered = [65, 66] ∧ s.inserted = [65, 66]) (by decide +kernel)
  have hf := (pipe_fifo hr pipeFifoRun_mapped).2.1
  refine ⟨s, hr, hd, hd.trans hi.symm, ?_⟩
  rw [hi, hd] at hf
  exact append_right_eq_self.mp hf.symm

end Xv6.Ipc
