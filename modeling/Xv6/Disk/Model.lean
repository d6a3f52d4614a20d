import Xv6.Lib.Prog
import Xv6.Lib.Ring
import Xv6.Param
import Mathlib.Data.BitVec
import Mathlib.Data.Fintype.Basic
import Mathlib.Data.List.FinRange

/-!
# The disk driver and its device

`virtio_disk_rw` and `virtio_disk_intr` of `kernel/virtio_disk.c` as programs of
atomic steps, run by any number of threads, and the device they share
descriptors and two rings with.  A step of the driver is the acquisition or
release of a lock or a section of the code under `vdisk_lock`; what tells the
device of a request (the slot of the available ring, then its index) are steps
of their own.  The device acts between any two of them: it takes the next
entry of the available ring, executes one of the chains it has taken, or adds
one it has executed to the used ring, in any order.

A caller holds the sleep-lock of its buffer, as `bread` and `bwrite` do.  An
interrupt is a thread of its own, since `vdisk_lock` is held with interrupts off.  The
loops that wait go round as often as they are woken: their programs take a bound
on the number of rounds, after which they are never scheduled again, and a call
may come with any bound.

The fields of the state from `inflight` on are history: no step looks at them.

## Main definitions

* `State` — the driver's book-keeping, the memory shared with the device, and the device.
* `alloc_desc`, `free_desc`, `free_chain`, `alloc3_desc`, `virtio_disk_rw`,
  `virtio_disk_intr` — the functions of the source, under its names.
* `Device` — what the device may do.
* `machine` — any number of requests and interrupts, and the device.
-/

namespace Xv6.Disk

open Conc

variable {T B : Type}

/-! ### Data -/

/-- How many descriptors there are. -/
abbrev NUM : ℕ := 8

instance : NeZero NUM := ⟨by decide⟩

/-- What a descriptor points to: a command header, a buffer's data, or a status byte. -/
inductive Addr (B : Type) where
  | null
  | ops (i : Fin NUM)
  | data (b : B)
  | status (i : Fin NUM)

/-- `struct virtq_desc`. -/
structure Desc (B : Type) where
  addr : Addr B
  len : ℕ
  flags : BitVec 16
  next : ℕ

abbrev VRING_DESC_F_NEXT : BitVec 16 := 1
abbrev VRING_DESC_F_WRITE : BitVec 16 := 2

/-- `struct virtio_blk_req`. -/
structure BlkReq where
  type : ℕ
  reserved : ℕ
  sector : ℕ

abbrev VIRTIO_BLK_T_IN : ℕ := 0
abbrev VIRTIO_BLK_T_OUT : ℕ := 1

/-- An element of `disk.info`. -/
structure Info (B : Type) where
  b : Option B
  status : UInt8

/-- What a process may sleep on: `&disk.free[0]`, or a buffer. -/
inductive Chan (B : Type) where
  | free
  | buf (b : B)
  deriving DecidableEq

/-- A request, from the allocation of its descriptors to their release. -/
structure Request (B : Type) where
  buf : B
  head : Fin NUM
  mid : Fin NUM
  last : Fin NUM

/-- A request was handed to the device, or found completed. -/
inductive Event (B : Type) where
  | submit (h : Fin NUM) (b : B)
  | complete (h : Fin NUM) (b : B)

structure State (T B : Type) where
  /-- The thread that holds `vdisk_lock`. -/
  lock : Option T
  desc : Fin NUM → Desc B
  /-- `avail->idx`. -/
  availIdx : BitVec 16
  /-- `avail->ring`. -/
  availRing : Fin NUM → Fin NUM
  /-- `used->idx`. -/
  usedIdx : BitVec 16
  /-- `used->ring[].id`. -/
  usedRing : Fin NUM → Fin NUM
  free : Fin NUM → Bool
  /-- `used_idx`: the driver has looked this far. -/
  seenIdx : BitVec 16
  info : Fin NUM → Info B
  ops : Fin NUM → BlkReq
  /-- `b->disk`. -/
  disk : B → Bool
  blockno : B → ℕ
  data : B → Block
  /-- `b->lock`. -/
  buflock : B → Option T
  asleep : T → Option (Chan B)
  /-- The device has looked this far in the available ring. -/
  lastAvail : BitVec 16
  /-- The chains the device has taken and not executed. -/
  running : List (Fin NUM)
  /-- The chains it has executed and not reported. -/
  finished : List (Fin NUM)
  /-- The blocks of the disk, by their first sector. -/
  media : ℕ → Block
  /-- The request of each thread. -/
  inflight : T → Option (Request B)
  /-- The heads put in the available ring, and those the device has taken. -/
  published : List (Fin NUM)
  taken : List (Fin NUM)
  /-- The heads put in the used ring, and those the driver has looked at. -/
  produced : List (Fin NUM)
  consumed : List (Fin NUM)
  /-- The last event first. -/
  hist : List (Event B)

/-- Programs of the threads. -/
abbrev DiskM (T B : Type) := Prog T (State T B)

/-- `i % NUM`. -/
def slot (i : BitVec 16) : Fin NUM := Ring.cell NUM i

section Functions

variable [DecidableEq T] [DecidableEq B]

/-! ### Locks and sleeping -/

def acquire : DiskM T B Unit := .atomic fun t s =>
  if s.lock = some t then some (.panic "acquire")
  else if s.lock = none then some (.done () { s with lock := some t })
  else none

def release : DiskM T B Unit := .atomic fun t s =>
  if s.lock = some t then some (.done () { s with lock := none })
  else some (.panic "release")

def acquiresleep (b : B) : DiskM T B Unit := .atomic fun t s =>
  if s.buflock b = none then
    some (.done () { s with buflock := Function.update s.buflock b (some t) })
  else none

def releasesleep (b : B) : DiskM T B Unit :=
  .act fun _ s => { s with buflock := Function.update s.buflock b none }

/-- `sleep(chan, &disk.vdisk_lock)`. -/
def sleep (chan : Chan B) : DiskM T B Unit := do
  .act fun t s => { s with lock := none, asleep := Function.update s.asleep t (some chan) }
  .atomic fun t s => if s.asleep t = none then some (.done () s) else none
  acquire

/-- The processes that still sleep after a wakeup. -/
def woken (asleep : T → Option (Chan B)) (chan : Chan B) : T → Option (Chan B) :=
  fun u => if asleep u = some chan then none else asleep u

/-! ### Descriptors -/

/-- Find a free descriptor, mark it non-free. -/
def State.alloc_desc (s : State T B) : Option (Fin NUM × State T B) :=
  ((List.finRange NUM).find? s.free).map fun i =>
    (i, { s with free := Function.update s.free i false })

/-- Mark a descriptor as free, and wake those who wait for one. -/
def State.free_desc (s : State T B) (i : ℕ) : Except String (State T B) :=
  if h : i < NUM then
    if s.free ⟨i, h⟩ then .error "free_desc 2"
    else .ok { s with
      desc := Function.update s.desc ⟨i, h⟩ ⟨.null, 0, 0, 0⟩
      free := Function.update s.free ⟨i, h⟩ true
      asleep := woken s.asleep .free }
  else .error "free_desc 1"

/-- Free a chain of descriptors, at most `n` of them. -/
def State.free_chain : ℕ → State T B → ℕ → Except String (State T B)
  | 0, s, _ => .ok s
  | n + 1, s, i => do
      if h : i < NUM then
        let d := s.desc ⟨i, h⟩
        let s ← s.free_desc i
        if d.flags &&& VRING_DESC_F_NEXT ≠ 0 then State.free_chain n s d.next else return s
      else .error "free_desc 1"

/-- Allocate three descriptors, or none. -/
def State.alloc3_desc (s : State T B) :
    Except String (Option (Fin NUM × Fin NUM × Fin NUM) × State T B) :=
  match s.alloc_desc with
  | none => .ok (none, s)
  | some (i0, s) =>
    match s.alloc_desc with
    | none => do
        let s ← s.free_desc i0
        return (none, s)
    | some (i1, s) =>
      match s.alloc_desc with
      | none => do
          let s ← s.free_desc i0
          let s ← s.free_desc i1
          return (none, s)
      | some (i2, s) => .ok (some (i0, i1, i2), s)

/-! ### Requests -/

/-- A section of the code that may panic. -/
def critical {ρ : Type} (f : T → State T B → Except String (ρ × State T B)) : DiskM T B ρ :=
  .atomic fun t s =>
    match f t s with
    | .error msg => some (.panic msg)
    | .ok (r, s') => some (.done r s')

/-- The loop that allocates the descriptors of a request. -/
def allocLoop (b : B) : ℕ → DiskM T B (Fin NUM × Fin NUM × Fin NUM)
  | 0 => .atomic fun _ _ => none
  | rounds + 1 => do
      let r ← critical fun t s => do
        let (r, s) ← s.alloc3_desc
        let req := r.map fun idx => Request.mk b idx.1 idx.2.1 idx.2.2
        return (r, { s with inflight := Function.update s.inflight t req })
      match r with
      | some idx => return idx
      | none => do
          sleep .free
          allocLoop b rounds

/-- Format the three descriptors, and record the buffer for `virtio_disk_intr`. -/
def State.format (s : State T B) (b : B) (write : Bool) (idx : Fin NUM × Fin NUM × Fin NUM) :
    State T B :=
  let (i0, i1, i2) := idx
  let flags := (if write then 0 else VRING_DESC_F_WRITE) ||| VRING_DESC_F_NEXT
  let d0 : Desc B := ⟨.ops i0, 16, VRING_DESC_F_NEXT, i1⟩
  let d1 : Desc B := ⟨.data b, BSIZE, flags, i2⟩
  let d2 : Desc B := ⟨.status i0, 1, VRING_DESC_F_WRITE, 0⟩
  { s with
    ops := Function.update s.ops i0
      ⟨if write then VIRTIO_BLK_T_OUT else VIRTIO_BLK_T_IN, 0,
        s.blockno b * (BSIZE / 512) % 2 ^ 32⟩
    desc := Function.update (Function.update (Function.update s.desc i0 d0) i1 d1) i2 d2
    disk := Function.update s.disk b true
    info := Function.update s.info i0 ⟨some b, 0xff⟩ }

/-- `disk.avail->ring[disk.avail->idx % NUM] = idx[0]`. -/
def writeSlot (head : Fin NUM) : DiskM T B Unit :=
  .act fun _ s => { s with availRing := Function.update s.availRing (slot s.availIdx) head }

/-- `disk.avail->idx += 1`. -/
def publish (b : B) (head : Fin NUM) : DiskM T B Unit :=
  .act fun _ s => { s with
    availIdx := s.availIdx + 1
    published := s.published ++ [head]
    hist := .submit head b :: s.hist }

/-- Wait for `virtio_disk_intr` to say the request has finished. -/
def waitLoop (b : B) : ℕ → DiskM T B Unit
  | 0 => .atomic fun _ _ => none
  | rounds + 1 => do
      if ← .look fun s => s.disk b then
        sleep (.buf b)
        waitLoop b rounds

/-- `disk.info[idx[0]].b = 0; free_chain(idx[0])`. -/
def finish (head : Fin NUM) : DiskM T B Unit := critical fun t s => do
  let s := { s with info := Function.update s.info head { s.info head with b := none } }
  let s ← s.free_chain NUM head
  return ((), { s with inflight := Function.update s.inflight t none })

def virtio_disk_rw (b : B) (write : Bool) (rounds : ℕ) : DiskM T B Unit := do
  acquire
  let idx ← allocLoop b rounds
  .act fun _ s => s.format b write idx
  writeSlot idx.1
  publish b idx.1
  waitLoop b rounds
  finish idx.1
  release

/-- What `bread` and `bwrite` do around it. -/
def request (b : B) (write : Bool) (rounds : ℕ) : DiskM T B Unit := do
  acquiresleep b
  virtio_disk_rw b write rounds
  releasesleep b

/-! ### Interrupts -/

/-- One round of the loop of `virtio_disk_intr`. -/
def complete : DiskM T B Unit := critical fun _ s =>
  let id := s.usedRing (slot s.seenIdx)
  if (s.info id).status ≠ 0 then .error "virtio_disk_intr status"
  else
    match (s.info id).b with
    | none => .error "kerneltrap"
    | some b => .ok ((), { s with
        disk := Function.update s.disk b false
        asleep := woken s.asleep (.buf b)
        seenIdx := s.seenIdx + 1
        consumed := s.consumed ++ [id]
        hist := .complete id b :: s.hist })

def intrLoop : ℕ → DiskM T B Unit
  | 0 => .atomic fun _ _ => none
  | rounds + 1 => do
      if ← .look fun s => s.seenIdx != s.usedIdx then
        complete
        intrLoop rounds

def virtio_disk_intr (rounds : ℕ) : DiskM T B Unit := do
  acquire
  intrLoop rounds
  release

/-! ### The device -/

/-- The descriptors of a chain, at most `n` of them. -/
def State.chain (s : State T B) : ℕ → ℕ → List (Desc B)
  | 0, _ => []
  | n + 1, i =>
      if h : i < NUM then
        let d := s.desc ⟨i, h⟩
        d :: (if d.flags &&& VRING_DESC_F_NEXT ≠ 0 then s.chain n d.next else [])
      else []

/-- Read or write a block, as the command header says. -/
def State.transfer (s : State T B) (i : Fin NUM) (b : B) : State T B :=
  if (s.ops i).type = VIRTIO_BLK_T_OUT then
    { s with media := Function.update s.media (s.ops i).sector (s.data b) }
  else { s with data := Function.update s.data b (s.media (s.ops i).sector) }

/-- Execute a chain: header, data and status. -/
def State.execute (s : State T B) (h : Fin NUM) : Option (State T B) :=
  match (s.chain NUM h).map Desc.addr with
  | [.ops i, .data b, .status j] =>
      let s := s.transfer i b
      some { s with info := Function.update s.info j { s.info j with status := 0 } }
  | _ => none

/-- What the device may do. -/
inductive Device (s : State T B) : State T B → Prop where
  | take (h : s.lastAvail ≠ s.availIdx) : Device s { s with
      running := s.running ++ [s.availRing (slot s.lastAvail)]
      taken := s.taken ++ [s.availRing (slot s.lastAvail)]
      lastAvail := s.lastAvail + 1 }
  | execute {h : Fin NUM} {s' : State T B} (hh : h ∈ s.running) (he : s.execute h = some s') :
      Device s { s' with running := s.running.erase h, finished := s.finished ++ [h] }
  | report {h : Fin NUM} (hh : h ∈ s.finished) : Device s { s with
      usedRing := Function.update s.usedRing (slot s.usedIdx) h
      usedIdx := s.usedIdx + 1
      finished := s.finished.erase h
      produced := s.produced ++ [h] }

/-! ### The machine -/

/-- A process that sleeps is also woken when it is killed. -/
def Killed (s s' : State T B) : Prop :=
  ∃ t, s' = { s with asleep := Function.update s.asleep t none }

inductive Call : DiskM T B Unit → Prop where
  | request (b : B) (write : Bool) (rounds : ℕ) : Call (request b write rounds)
  | virtio_disk_intr (rounds : ℕ) : Call (virtio_disk_intr rounds)

/-- After `virtio_disk_init`: all descriptors are free, and nothing is in the rings. -/
structure Fresh (s : State T B) : Prop where
  lock : s.lock = none
  availIdx : s.availIdx = 0
  usedIdx : s.usedIdx = 0
  seenIdx : s.seenIdx = 0
  lastAvail : s.lastAvail = 0
  free : ∀ i, s.free i = true
  disk : ∀ b, s.disk b = false
  buflock : ∀ b, s.buflock b = none
  running : s.running = []
  finished : s.finished = []
  inflight : ∀ t, s.inflight t = none
  published : s.published = []
  taken : s.taken = []
  produced : s.produced = []
  consumed : s.consumed = []
  hist : s.hist = []

def machine (T B : Type) [DecidableEq T] [DecidableEq B] : System T (State T B) where
  init c := Fresh c.st ∧ (∀ t, c.code t = .ret ()) ∧ c.halted = none
  call _ _ p := Call p
  env c c' := ∃ s', (Device c.st s' ∨ Killed c.st s') ∧ c' = { c with st := s' }

end Functions

end Xv6.Disk
