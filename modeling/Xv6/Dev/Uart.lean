import Xv6.Framework.Bytes
import Xv6.Framework.Circular
import Xv6.Framework.Run
import Xv6.Param

/-!
# Output to the UART

`uartputc`, `uartstart` and `uartintr` of `kernel/uart.c`. Any number of
processes call `uartputc`, and the interrupt handler of any CPU calls
`uartstart`; all of it is under `uart_tx_lock`, and a step is an iteration of the
loop of the one that holds it. `wakeup` is a part of the step that makes room. The
device is idle from some moment on after it was given a byte, and `uartputc_sync`,
which does not take the lock, may give it bytes as well. The bytes in the buffer are
a list (`Buffered`), and every run keeps it (`uart_fifo`).
-/

namespace Xv6.Dev.Uart

open Framework Function List

abbrev UART_TX_BUF_SIZE : Nat := 32

/-- A process in `uartputc`. -/
inductive Phase
  | out
  /-- It calls `acquire`. -/
  | enter (c : Byte)
  /-- It has the lock. -/
  | inside
  /-- SLEEPING on `&uart_tx_r` -/
  | asleep (c : Byte)
  /-- `sleep` takes the lock again. -/
  | woken (c : Byte)
  deriving DecidableEq

/-- What the holder of `uart_tx_lock` is at. -/
inductive Lock (n : Nat)
  | free
  | put (p : Fin n) (c : Byte)
  /-- `uartstart`, called by a process or by `uartintr`. -/
  | start (p : Option (Fin n))
  deriving DecidableEq

structure State (n : Nat) where
  buf : Fin UART_TX_BUF_SIZE → Byte
  w : BitVec 64
  r : BitVec 64
  lock : Lock n
  phase : Fin n → Phase
  panicked : Bool
  /-- `LSR_TX_IDLE` -/
  idle : Bool
  /-- What `uartputc` has put into the buffer. -/
  accepted : List Byte
  /-- What `uartstart` has written to `THR`. -/
  sent : List Byte

variable {n : Nat}

def Phase.wakeup : Phase → Phase
  | asleep c => woken c
  | p => p

namespace State

variable (s : State n)

def goto (p : Fin n) (x : Phase) : State n := { s with phase := update s.phase p x }

/-- An iteration of the loop of `uartputc`. -/
def uartputc (p : Fin n) (c : Byte) : State n :=
  if s.w = s.r + BitVec.ofNat 64 UART_TX_BUF_SIZE then { s.goto p (.asleep c) with lock := .free }
  else { s with buf := update s.buf (cell _ s.w) c, w := s.w + 1, lock := .start (some p), accepted := s.accepted ++ [c] }

/-- `uartstart` returns. -/
def ret (p : Option (Fin n)) : State n :=
  { s with lock := .free, phase := fun q => if p = some q then .out else s.phase q }

/-- An iteration of the loop of `uartstart`. -/
def uartstart (p : Option (Fin n)) : State n :=
  if s.w = s.r then s.ret p
  else if s.idle = false then s.ret p
  else { s with r := s.r + 1, phase := fun q => (s.phase q).wakeup, idle := false, sent := s.sent ++ [s.buf (cell _ s.r)] }

end State

inductive Act (n : Nat)
  | call (p : Fin n) (c : Byte)
  | acquire (p : Fin n)
  /-- An iteration of the holder of the lock. -/
  | step
  | uartintr
  /-- A byte of `uartputc_sync`. -/
  | sync
  /-- The device has sent its byte. -/
  | idle
  | kill (p : Fin n)
  | panic

def step (s : State n) : Act n → Option (State n)
  | .call p c => if s.phase p = .out then some (s.goto p (.enter c)) else none
  | .acquire p =>
    if s.lock = .free then
      match s.phase p with
      -- with `panicked` it spins, and keeps the lock
      | .enter c => if s.panicked then none else some { s.goto p .inside with lock := .put p c }
      | .woken c => some { s.goto p .inside with lock := .put p c }
      | _ => none
    else none
  | .step =>
    match s.lock with
    | .free => none
    | .put p c => some (s.uartputc p c)
    | .start p => some (s.uartstart p)
  | .uartintr => if s.lock = .free then some { s with lock := .start none } else none
  | .sync => if s.idle then some { s with idle := false } else none
  | .idle => some { s with idle := true }
  | .kill p => some (s.goto p (s.phase p).wakeup)
  | .panic => some { s with panicked := true }

def State.init (n : Nat) (buf : Fin UART_TX_BUF_SIZE → Byte) (idle : Bool) : State n :=
  ⟨buf, 0, 0, .free, fun _ => .out, false, idle, [], []⟩

/-- The bytes in the buffer are `l`, and a process sleeps only if it is full. -/
structure Buffered (s : State n) (l : List Byte) : Prop where
  bytes : s.accepted = s.sent ++ l
  le : l.length ≤ UART_TX_BUF_SIZE
  w : s.w = s.r + BitVec.ofNat 64 l.length
  stored : Stored s.buf s.r l
  full : ∀ p c, s.phase p = .asleep c → l.length = UART_TX_BUF_SIZE

namespace Buffered

variable {s s' : State n} {l : List Byte} {x : Phase}

theorem length_lt (h : Buffered s l) : l.length < 2 ^ 64 := Nat.lt_of_le_of_lt h.le (by decide)

/-- A process goes on, and sleeps only if the buffer is full. -/
theorem goto (h : Buffered s l) (p : Fin n) (hx : ∀ c, x = .asleep c → l.length = UART_TX_BUF_SIZE) :
    Buffered (s.goto p x) l := by
  refine { h with full := fun q c hq => ?_ }
  simp only [State.goto, update_apply] at hq
  split at hq
  · exact hx c hq
  · exact h.full q c hq

theorem uartputc (h : Buffered s l) (p : Fin n) (c : Byte) : ∃ l, Buffered (s.uartputc p c) l := by
  have hfull : s.w = s.r + BitVec.ofNat 64 UART_TX_BUF_SIZE ↔ l.length = UART_TX_BUF_SIZE := by
    rw [h.w, add_length_inj _ h.length_lt (by decide)]
  rw [State.uartputc]
  split
  · rename_i hw
    exact ⟨l, { h.goto p (x := .asleep c) fun _ _ => hfull.mp hw with }⟩
  · rename_i hw
    have hlt : l.length < UART_TX_BUF_SIZE := Nat.lt_of_le_of_ne h.le (mt hfull.mpr hw)
    refine ⟨l ++ [c], ?_, by rwa [length_append], ?_, ?_, fun q d hq => absurd (h.full q d hq) hlt.ne⟩
    · simp only [h.bytes, append_assoc]
    · simp only [h.w, length_append, length_singleton, BitVec.ofNat_add, BitVec.add_assoc]
      rfl
    · simp only [h.w]
      exact h.stored.push ⟨2 ^ 59, rfl⟩ hlt c

theorem ret (h : Buffered s l) (p : Option (Fin n)) : Buffered (s.ret p) l := by
  refine { h with full := fun q c hq => ?_ }
  simp only [State.ret] at hq
  split at hq
  · cases hq
  · exact h.full q c hq

theorem wakeup_ne {c : Byte} : x.wakeup ≠ .asleep c := by
  cases x <;> exact nofun

theorem uartstart (h : Buffered s l) (p : Option (Fin n)) : ∃ l, Buffered (s.uartstart p) l := by
  rw [State.uartstart]
  split
  · exact ⟨l, h.ret p⟩
  split
  · exact ⟨l, h.ret p⟩
  cases l with
  | nil => exact absurd (h.w.trans (BitVec.add_zero _)) ‹_›
  | cons c l =>
    refine ⟨l, ?_, Nat.le_of_succ_le h.le, ?_, h.stored.2, fun q d hq => absurd hq wakeup_ne⟩
    · simp only [h.bytes, h.stored.1, append_assoc, singleton_append]
    · simp only [h.w, add_length_cons]

theorem step (h : Buffered s l) {a : Act n} (hs : Uart.step s a = some s') : ∃ l, Buffered s' l := by
  cases a with
  | call p c =>
    simp only [Uart.step, Option.ite_none_right_eq_some, Option.some.injEq] at hs
    obtain ⟨-, rfl⟩ := hs
    exact ⟨l, h.goto p nofun⟩
  | acquire p =>
    simp only [Uart.step, Option.ite_none_right_eq_some] at hs
    obtain ⟨-, hs⟩ := hs
    have hin := h.goto p (x := .inside) nofun
    split at hs
    · simp only [Option.ite_none_left_eq_some, Option.some.injEq] at hs
      obtain ⟨-, rfl⟩ := hs
      exact ⟨l, { hin with }⟩
    · cases hs
      exact ⟨l, { hin with }⟩
    · cases hs
  | step =>
    simp only [Uart.step] at hs
    split at hs <;> cases hs
    · exact h.uartputc _ _
    · exact h.uartstart _
  | uartintr | sync =>
    simp only [Uart.step, Option.ite_none_right_eq_some, Option.some.injEq] at hs
    obtain ⟨-, rfl⟩ := hs
    exact ⟨l, { h with }⟩
  | idle | panic =>
    cases hs
    exact ⟨l, { h with }⟩
  | kill p =>
    cases hs
    exact ⟨l, h.goto p fun c hc => absurd hc wakeup_ne⟩

end Buffered

/-- The bytes of `uart_tx_buf` from `uart_tx_r` to `uart_tx_w`. -/
def State.contents (s : State n) : List Byte :=
  (range (s.w - s.r).toNat).map fun k => s.buf (cell UART_TX_BUF_SIZE (s.r + BitVec.ofNat 64 k))

/-- In every run: at most 32 bytes are in the buffer, they are what was accepted and
not yet sent, in order, and no process sleeps while there is room. -/
theorem uart_fifo (n : Nat) (buf : Fin UART_TX_BUF_SIZE → Byte) (idle : Bool) (as : List (Act n)) (s : State n)
    (hr : Run step (State.init n buf idle) as s) :
    (s.w - s.r).toNat ≤ UART_TX_BUF_SIZE ∧ s.accepted = s.sent ++ s.contents ∧
      (s.lock = .free → ∀ p c, s.phase p = .asleep c → (s.w - s.r).toNat = UART_TX_BUF_SIZE) := by
  obtain ⟨l, h⟩ := hr.invariant (I := fun s => ∃ l, Buffered s l) ⟨[], rfl, Nat.zero_le _, rfl, trivial, nofun⟩
    fun ⟨_, h⟩ hs => h.step hs
  rw [State.contents, h.w, sub_length _ h.length_lt]
  exact ⟨h.le, by rw [← h.stored.eq_map, h.bytes], fun _ => h.full⟩

/-- Two bytes are put in; the first is sent at once, the second waits. -/
theorem uart_fifo_two : ∃ s : State 1, Run step (State.init 1 (fun _ => 0) true)
    [.call 0 5, .acquire 0, .step, .step, .step, .call 0 6, .acquire 0, .step, .step] s ∧
    s.sent = [5] ∧ s.accepted = [5, 6] ∧ s.accepted = s.sent ++ s.contents := by
  obtain ⟨s, hr, h1, h2⟩ := exists_run step (State.init 1 (fun _ => 0) true)
    [.call 0 5, .acquire 0, .step, .step, .step, .call 0 6, .acquire 0, .step, .step]
    (Q := fun s => s.sent = [5] ∧ s.accepted = [5, 6]) (by decide)
  exact ⟨s, hr, h1, h2, (uart_fifo 1 _ true _ s hr).2.1⟩

end Xv6.Dev.Uart
