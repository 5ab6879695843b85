import Xv6.Framework.Bytes
import Xv6.Framework.Circular
import Xv6.Framework.Run
import Xv6.Param

/-!
# The console

`consoleintr` and `consoleread` of `kernel/console.c`, for any number of readers.
A step is what is done with `cons.lock` held: `consoleintr` for a character, and
`consoleread` up to its return or its next `sleep`. The echo of the characters
is left out.
-/

namespace Xv6.Dev

open Framework Function

abbrev INPUT_BUF : Nat := 128

/-- `C(x)`: Control-x. -/
def C (x : Char) : Byte := BitVec.ofNat 8 (x.toNat - '@'.toNat)

def newline : Byte := BitVec.ofNat 8 '\n'.toNat

def carriageReturn : Byte := BitVec.ofNat 8 '\r'.toNat

def delete : Byte := 0x7f

/-- `cons`, but for its lock. -/
structure Cons where
  buf : Fin INPUT_BUF → Byte
  r : BitVec 32
  w : BitVec 32
  e : BitVec 32

namespace Cons

/-- The loop for `^U`; `fuel` is the number of characters from `w` to `e`. -/
def killLine : Nat → Cons → Cons
  | 0, c => c
  | fuel + 1, c =>
    if c.e ≠ c.w ∧ c.buf (cell INPUT_BUF (c.e - 1)) ≠ newline then killLine fuel { c with e := c.e - 1 } else c

/-- `cons.buf[cons.e++ % INPUT_BUF] = ch` -/
def append (c : Cons) (ch : Byte) : Cons :=
  { c with buf := update c.buf (cell INPUT_BUF c.e) ch, e := c.e + 1 }

/-- The default case of `consoleintr`, and if it wakes up the readers. -/
def store (c : Cons) (ch : Byte) : Cons × Bool :=
  if ch = newline ∨ ch = C 'D' ∨ (c.append ch).e = c.r + BitVec.ofNat 32 INPUT_BUF then
    ({ c.append ch with w := (c.append ch).e }, true)
  else (c.append ch, false)

def consoleintr (c : Cons) (ch : Byte) : Cons × Bool :=
  if ch = C 'P' then (c, false)
  else if ch = C 'U' then (c.killLine (c.e - c.w).toNat, false)
  else if ch = C 'H' ∨ ch = delete then (if c.e ≠ c.w then { c with e := c.e - 1 } else c, false)
  else if ch ≠ 0 ∧ (c.e - c.r).toNat < INPUT_BUF then c.store (if ch = carriageReturn then newline else ch)
  else (c, false)

end Cons

/-- Where a reader is: in `consoleread(target)` with `n` bytes to go and the bytes
`got` in its buffer, or back from it. It has returned -1 if `ret` is `none`, and
else the number of the bytes `ret`. -/
inductive Reader
  | idle
  | asleep (dst : Nat → Bool) (target n : Nat) (got : List Byte)
  | woken (dst : Nat → Bool) (target n : Nat) (got : List Byte)
  | returned (target : Nat) (ret : Option (List Byte))

/-- `wakeup(&cons.r)`, and `kill`. -/
def Reader.wakeup : Reader → Reader
  | asleep dst target n got => woken dst target n got
  | q => q

/-- The loop of `consoleread` until it returns or sleeps. A byte of the buffer
that is not mapped is `false` in `dst`. -/
def Cons.consoleread (killed : Bool) (dst : Nat → Bool) (target : Nat) : Nat → List Byte → Cons → Cons × Reader
  | 0, got, c => (c, .returned target (some got))
  | n + 1, got, c =>
    if c.r = c.w then (c, if killed then .returned target none else .asleep dst target (n + 1) got)
    else
      let ch := c.buf (cell INPUT_BUF c.r)
      if ch = C 'D' then (if n + 1 < target then c else { c with r := c.r + 1 }, .returned target (some got))
      else if dst got.length = false then ({ c with r := c.r + 1 }, .returned target (some got))
      else if ch = newline then ({ c with r := c.r + 1 }, .returned target (some (got ++ [ch])))
      else consoleread killed dst target n (got ++ [ch]) { c with r := c.r + 1 }

/-- The console and its readers. -/
structure State (k : Nat) where
  cons : Cons
  reader : Fin k → Reader
  killed : Fin k → Bool

variable {k : Nat}

namespace State

def init (k : Nat) (buf : Fin INPUT_BUF → Byte) : State k where
  cons := ⟨buf, 0, 0, 0⟩
  reader _ := .idle
  killed _ := false

def consoleintr (s : State k) (ch : Byte) : State k :=
  { s with
    cons := (s.cons.consoleintr ch).1
    reader := if (s.cons.consoleintr ch).2 then fun p => (s.reader p).wakeup else s.reader }

def consoleread (s : State k) (p : Fin k) (dst : Nat → Bool) (target n : Nat) (got : List Byte) : State k :=
  { s with
    cons := (s.cons.consoleread (s.killed p) dst target n got).1
    reader := update s.reader p (s.cons.consoleread (s.killed p) dst target n got).2 }

def kill (s : State k) (p : Fin k) : State k :=
  { s with
    killed := update s.killed p true
    reader := update s.reader p (s.reader p).wakeup }

end State

/-- What happens next. -/
inductive Act (k : Nat)
  | intr (ch : Byte)
  | read (p : Fin k) (dst : Nat → Bool) (n : Int)
  | resume (p : Fin k)
  | kill (p : Fin k)

/-- The console as a system. -/
def step (s : State k) : Act k → Option (State k)
  | .intr ch => some (s.consoleintr ch)
  | .read p dst n =>
    match s.reader p with
    | .idle | .returned .. => some (s.consoleread p dst n.toNat n.toNat [])
    | _ => none
  | .resume p =>
    match s.reader p with
    | .woken dst target n got => some (s.consoleread p dst target n got)
    | _ => none
  | .kill p => some (s.kill p)

end Xv6.Dev
