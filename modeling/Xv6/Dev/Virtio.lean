import Xv6.Framework.Bytes
import Xv6.Framework.Circular
import Xv6.Framework.Run
import Xv6.Param

/-!
# The disk driver

`virtio_disk_rw` and `virtio_disk_intr` of `kernel/virtio_disk.c`, for any number
of processes, and the device behind the two rings. A step is what is done
between two looks at shared memory: the driver writes a slot of the avail ring in
one step and moves `avail->idx` in the next, the interrupt handler takes one entry
of the used ring at a time, and the device moves at any time, with or without
`vdisk_lock` held. It takes the heads off the avail ring in order, follows the
descriptors of each, and completes the requests it has taken in any order.

`bio.c` calls `virtio_disk_rw` only with the sleep-lock of the buffer held, and so
does a process here. Requests are numbered, and those that the device has
completed and the buffers the handler was done with are recorded.
-/

namespace Xv6.Dev.Virtio

open Framework Function

abbrev NUM : Nat := 8

abbrev VRING_DESC_F_NEXT : BitVec 16 := 1

abbrev VRING_DESC_F_WRITE : BitVec 16 := 2

/-- What the address in a descriptor points to. -/
inductive Addr
  | null
  | op (i : Fin NUM)
  | data (b : Nat)
  | status (i : Fin NUM)
  deriving DecidableEq

/-- `struct virtq_desc`, but for the length. -/
structure Desc where
  addr : Addr
  flags : BitVec 16
  next : BitVec 16
  deriving DecidableEq

/-- `struct virtio_blk_req`, with the number of the request. -/
structure Op where
  write : Bool
  sector : BitVec 64
  tag : Nat
  deriving DecidableEq

/-- `disk.info`: the buffer, if any, and the status byte. -/
structure Info where
  b : Option Nat
  status : Byte
  deriving DecidableEq

/-- A request to move a buffer's data to or from a sector. -/
structure Req where
  op : Op
  buf : Nat
  deriving DecidableEq

/-- The descriptors of a request: `idx[0]`, `idx[1]` and `idx[2]`. -/
structure Idx where
  hdr : Fin NUM
  data : Fin NUM
  status : Fin NUM
  deriving DecidableEq

/-- `disk`, with the rings it shares with the device. -/
structure Disk where
  desc : Fin NUM → Desc
  ring : Fin NUM → BitVec 16
  availIdx : BitVec 16
  usedRing : Fin NUM → BitVec 32
  usedIdx : BitVec 16
  free : Fin NUM → Bool
  used_idx : BitVec 16
  info : Fin NUM → Info
  ops : Fin NUM → Op

namespace Disk

/-- `virtio_disk_init` -/
def init : Disk where
  desc _ := ⟨.null, 0, 0⟩
  ring _ := 0
  availIdx := 0
  usedRing _ := 0
  usedIdx := 0
  free _ := true
  used_idx := 0
  info _ := ⟨none, 0⟩
  ops _ := ⟨false, 0, 0⟩

variable (d : Disk)

def allocDesc : Option (Fin NUM × Disk) :=
  match (List.finRange NUM).find? d.free with
  | some i => some (i, { d with free := update d.free i false })
  | none => none

/-- `free_desc`, but for its `wakeup`. -/
def freeDesc (i : Nat) : Except String Disk :=
  if h : i < NUM then
    if d.free ⟨i, h⟩ then .error "free_desc 2"
    else .ok { d with
      desc := update d.desc ⟨i, h⟩ ⟨.null, 0, 0⟩
      free := update d.free ⟨i, h⟩ true }
  else .error "free_desc 1"

/-- `free_chain`, but for its wakeups. An iteration marks one more descriptor as
free or panics, so that `NUM + 1` of them are enough. -/
def freeChain : Nat → Nat → Disk → Except String Disk
  | 0, _, _ => .error "free_chain"
  | fuel + 1, i, d =>
    let desc := if h : i < NUM then d.desc ⟨i, h⟩ else ⟨.null, 0, 0⟩
    match d.freeDesc i with
    | .error e => .error e
    | .ok d => if desc.flags &&& VRING_DESC_F_NEXT ≠ 0 then freeChain fuel desc.next.toNat d else .ok d

/-- `alloc3_desc`, its loop written out. If there are not enough descriptors, it
also says whether it has freed some, and so has called `wakeup`. -/
def alloc3Desc : Except String (Disk × (Idx ⊕ Bool)) :=
  match d.allocDesc with
  | none => .ok (d, .inr false)
  | some (i0, d0) =>
    match d0.allocDesc with
    | none => do
      let d ← d0.freeDesc i0
      return (d, .inr true)
    | some (i1, d1) =>
      match d1.allocDesc with
      | none => do
        let d ← d1.freeDesc i0
        let d ← d.freeDesc i1
        return (d, .inr true)
      | some (i2, d2) => .ok (d2, .inl ⟨i0, i1, i2⟩)

/-- The descriptors of a request are formatted, and its head is written to the
avail ring. -/
def format (r : Req) (i : Idx) : Disk :=
  { d with
    ops := update d.ops i.hdr r.op
    desc := update (update (update d.desc
      i.hdr ⟨.op i.hdr, VRING_DESC_F_NEXT, BitVec.ofNat 16 i.data⟩)
      i.data ⟨.data r.buf, (if r.op.write then 0 else VRING_DESC_F_WRITE) ||| VRING_DESC_F_NEXT,
        BitVec.ofNat 16 i.status⟩)
      i.status ⟨.status i.hdr, VRING_DESC_F_WRITE, 0⟩
    info := update d.info i.hdr ⟨some r.buf, 0xff⟩
    ring := update d.ring (cell NUM d.availIdx) (BitVec.ofNat 16 i.hdr) }

end Disk

/-! ## The processes -/

/-- How a process is in a loop that sleeps: at its test with the lock held, asleep,
or woken up. -/
inductive Mode
  | running
  | asleep
  | woken
  deriving DecidableEq

/-- Where a process is in `virtio_disk_rw`. -/
inductive Pc
  | outside
  /-- The loop around `alloc3_desc`. -/
  | alloc (r : Req) (m : Mode)
  /-- Before `disk.avail->idx += 1`. -/
  | publish (r : Req) (i : Idx)
  /-- The loop on `b->disk`. -/
  | wait (r : Req) (i : Idx) (m : Mode)
  | returned (r : Req)
  deriving DecidableEq

namespace Pc

/-- The process has `vdisk_lock`. -/
def locked : Pc → Bool
  | alloc _ .running | publish .. | wait _ _ .running => true
  | _ => false

/-- The buffer that the process is in `virtio_disk_rw` for. -/
def buf : Pc → Option Nat
  | alloc r _ | publish r _ | wait r _ _ => some r.buf
  | _ => none

/-- The request of the process and its descriptors, while it has them. -/
def owned : Pc → Option (Req × Idx)
  | publish r i | wait r i _ => some (r, i)
  | _ => none

/-- The process after `wakeup(&disk.free[0])`. -/
def wakeFree : Pc → Pc
  | alloc r .asleep => alloc r .woken
  | pc => pc

/-- The process after `wakeup(b)`. -/
def wakeBuf (b : Nat) : Pc → Pc
  | wait r i .asleep => wait r i (if r.buf = b then .woken else .asleep)
  | pc => pc

/-- The process after a `kill`. -/
def kill : Pc → Pc
  | alloc r .asleep => alloc r .woken
  | wait r i .asleep => wait r i .woken
  | pc => pc

end Pc

/-- Who has `vdisk_lock`. -/
inductive Owner (n : Nat)
  | free
  | proc (p : Fin n)
  | intr
  deriving DecidableEq

/-- A request that the device has taken: its head, what its descriptors say, and
where the status goes. -/
structure Taken where
  head : Fin NUM
  req : Req
  status : Fin NUM
  deriving DecidableEq

structure State (n : Nat) where
  disk : Disk
  lock : Owner n
  pc : Fin n → Pc
  /-- Who has the sleep-lock of a buffer. -/
  holder : Nat → Option (Fin n)
  /-- `b->disk` -/
  flag : Nat → Bool
  /-- How far the device has looked in the avail ring. -/
  seen : BitVec 16
  /-- The requests that the device is at. -/
  pending : List Taken
  panic : Option String
  /-- The number of the next request. -/
  tags : Nat
  completed : List Req
  cleared : List Nat

variable {n : Nat}

namespace State

def init (n : Nat) : State n where
  disk := Disk.init
  lock := .free
  pc _ := .outside
  holder _ := none
  flag _ := false
  seen := 0
  pending := []
  panic := none
  tags := 0
  completed := []
  cleared := []

variable (s : State n) (p : Fin n)

/-- Process `p` goes on at `pc`, and has the lock if it has it there. -/
def goto (pc : Pc) : State n :=
  { s with lock := if pc.locked then .proc p else .free, pc := update s.pc p pc }

def wakeFree : State n := { s with pc := fun q => (s.pc q).wakeFree }

/-- `virtio_disk_rw` up to the write of the avail ring, or to the `sleep`. -/
def tryAlloc (r : Req) : State n :=
  match s.disk.alloc3Desc with
  | .error e => { s with panic := some e }
  | .ok (d, .inl i) =>
    { s with disk := d.format r i, flag := update s.flag r.buf true }.goto p (.publish r i)
  | .ok (d, .inr freed) =>
    (if freed then { s with disk := d }.wakeFree else { s with disk := d }).goto p (.alloc r .asleep)

/-- `disk.avail->idx += 1` -/
def publish (r : Req) (i : Idx) : State n :=
  { s with disk := { s.disk with availIdx := s.disk.availIdx + 1 } }.goto p (.wait r i .running)

/-- The test of the loop on `b->disk`, and the end of `virtio_disk_rw`. -/
def await (r : Req) (i : Idx) : State n :=
  if s.flag r.buf then s.goto p (.wait r i .asleep)
  else
    match Disk.freeChain (NUM + 1) i.hdr
      { s.disk with info := update s.disk.info i.hdr { s.disk.info i.hdr with b := none } } with
    | .error e => { s with panic := some e }
    | .ok d => ({ s with disk := d }.wakeFree).goto p (.returned r)

/-- What a process does next with the lock held. -/
def next : Option (State n) :=
  match s.pc p with
  | .alloc r .running => some (s.tryAlloc p r)
  | .publish r i => some (s.publish p r i)
  | .wait r i .running => some (s.await p r i)
  | _ => none

/-- `sleep` returns. -/
def resume : Option (State n) :=
  match s.pc p with
  | .alloc r .woken => some (s.goto p (.alloc r .running))
  | .wait r i .woken => some (s.goto p (.wait r i .running))
  | _ => none

/-- A call of `virtio_disk_rw`. -/
def call (b : Nat) (blockno : BitVec 32) (write : Bool) : State n :=
  { s with tags := s.tags + 1 }.goto p (.alloc ⟨⟨write, (blockno * 2).setWidth 64, s.tags⟩, b⟩ .running)

/-- An iteration of the loop of `virtio_disk_intr`. -/
def intrNext : State n :=
  if s.disk.used_idx ≠ s.disk.usedIdx then
    let id := (s.disk.usedRing (cell NUM s.disk.used_idx)).toNat
    if h : id < NUM then
      if (s.disk.info ⟨id, h⟩).status ≠ 0 then { s with panic := some "virtio_disk_intr status" }
      else
        match (s.disk.info ⟨id, h⟩).b with
        | none => { s with panic := some "null pointer" }
        | some b =>
          { s with
            flag := update s.flag b false
            pc := fun q => (s.pc q).wakeBuf b
            disk := { s.disk with used_idx := s.disk.used_idx + 1 }
            cleared := s.cleared ++ [b] }
    else { s with panic := some "disk.info" }
  else { s with lock := .free }

/-- The device follows the descriptors of a head. -/
def follow (head : Fin NUM) : Option Taken :=
  match (s.disk.desc head).addr with
  | .op j =>
    if h1 : (s.disk.desc head).next.toNat < NUM then
      let d1 := s.disk.desc ⟨_, h1⟩
      match d1.addr with
      | .data b =>
        if h2 : d1.next.toNat < NUM then
          match (s.disk.desc ⟨_, h2⟩).addr with
          | .status k => some ⟨head, ⟨s.disk.ops j, b⟩, k⟩
          | _ => none
        else none
      | _ => none
    else none
  | _ => none

/-- The device takes the next head off the avail ring. -/
def take : Option (State n) :=
  if s.seen = s.disk.availIdx then none
  else
    let head := (s.disk.ring (cell NUM s.seen)).toNat
    if h : head < NUM then
      (s.follow ⟨head, h⟩).map fun t => { s with seen := s.seen + 1, pending := s.pending ++ [t] }
    else none

/-- The device completes a request. -/
def complete (t : Taken) : State n :=
  { s with
    pending := s.pending.erase t
    disk := { s.disk with
      info := update s.disk.info t.status { s.disk.info t.status with status := 0 }
      usedRing := update s.disk.usedRing (cell NUM s.disk.usedIdx) (BitVec.ofNat 32 t.head)
      usedIdx := s.disk.usedIdx + 1 }
    completed := s.completed ++ [t.req] }

end State

/-- What happens next. -/
inductive Act (n : Nat)
  /-- `acquiresleep(&b->lock)` -/
  | acquire (p : Fin n) (b : Nat)
  /-- `releasesleep(&b->lock)` -/
  | release (p : Fin n) (b : Nat)
  | call (p : Fin n) (b : Nat) (blockno : BitVec 32) (write : Bool)
  | next (p : Fin n)
  | resume (p : Fin n)
  | kill (p : Fin n)
  | intr
  | intrNext
  | take
  | complete (t : Taken)
  deriving DecidableEq

/-- The driver and the device as a system. Nothing happens after a panic. -/
def step (s : State n) (a : Act n) : Option (State n) :=
  if s.panic ≠ none then none
  else
    match a with
    | .acquire p b =>
      if (s.pc p).buf = none ∧ s.holder b = none then some { s with holder := update s.holder b (some p) }
      else none
    | .release p b =>
      if (s.pc p).buf = none ∧ s.holder b = some p then some { s with holder := update s.holder b none }
      else none
    | .call p b blockno write =>
      if s.lock = .free ∧ (s.pc p).buf = none ∧ s.holder b = some p then some (s.call p b blockno write) else none
    | .next p => s.next p
    | .resume p => if s.lock = .free then s.resume p else none
    | .kill p => some { s with pc := update s.pc p (s.pc p).kill }
    | .intr => if s.lock = .free then some { s with lock := .intr } else none
    | .intrNext => if s.lock = .intr then some s.intrNext else none
    | .take => s.take
    | .complete t => if t ∈ s.pending then some (s.complete t) else none

end Xv6.Dev.Virtio
