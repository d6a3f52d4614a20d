import Xv6.Lib.Prog
import Xv6.Lib.Ring
import Xv6.Param
import Mathlib.Data.BitVec
import Mathlib.Data.List.FinRange

/-!
# Pipes

`pipewrite`, `piperead` and `pipeclose` of `kernel/pipe.c` as programs of atomic
steps, run by any number of processes on one pipe.  A step is the acquisition or
release of `pi->lock`, an access to the pipe under it, or a section under the
`p->lock` of one process; `sleep` is cut where it has released `pi->lock` and
not yet fallen asleep, and `wakeup` after each process it looks at.

The loops of `pipewrite` and `piperead` go round as often as they are woken.
Their programs take a bound on the number of rounds, after which they are never
scheduled again; as a call may come with any bound, every run of the source is
one of the runs considered here.

The fields of the state marked as history are not in the source: they record
the bytes that went through the pipe, and no step looks at them.

## Main definitions

* `State` — the pipe, and what the processes that use it sleep on.
* `pipewrite`, `piperead`, `pipeclose`, `sleep`, `wakeup`, `killed` — the functions of
  the source, under its names.
* `machine` — any number of processes that use the pipe, and kills at any time.
-/

namespace Xv6.Pipes

open Conc

variable {N : ℕ}

/-! ### Data -/

/-- The capacity of a pipe. -/
abbrev PIPESIZE : ℕ := 512

instance : NeZero PIPESIZE := ⟨by decide⟩

/-- `struct pipe`, without its lock. -/
structure Pipe where
  data : Fin PIPESIZE → UInt8
  /-- The number of bytes read. -/
  nread : BitVec 32
  /-- The number of bytes written. -/
  nwrite : BitVec 32
  /-- The read end is still open. -/
  readopen : Bool
  /-- The write end is still open. -/
  writeopen : Bool

/-- The channels processes sleep on: `&pi->nread` and `&pi->nwrite`. -/
inductive Chan where
  | nread
  | nwrite
  deriving DecidableEq

/-- The states of a process that uses the pipe.  Whether it has a processor
(`RUNNING`) or waits for one (`RUNNABLE`) is left to the scheduler. -/
inductive ProcState where
  | RUNNABLE
  | SLEEPING
  deriving DecidableEq

/-- `struct proc`, as far as the pipe is concerned. -/
structure Proc where
  /-- `p->lock` is held by the process itself, which is about to sleep. -/
  lock : Bool
  state : ProcState
  chan : Option Chan
  killed : Bool

/-- A pipe and the processes.  The fields from `accepted` on are history. -/
structure State (N : ℕ) where
  /-- The process that holds `pi->lock`. -/
  lock : Option (Fin N)
  pipe : Pipe
  /-- The page of the pipe has not been given back by `kfree`. -/
  live : Bool
  proc : Fin N → Proc
  /-- The bytes `pipewrite` has stored, in this order. -/
  accepted : List UInt8
  /-- The bytes `piperead` has taken out, in this order. -/
  taken : List UInt8
  /-- Those of them whose `copyout` succeeded. -/
  delivered : List UInt8

/-- Programs of the processes. -/
abbrev PipeM (N : ℕ) := Prog (Fin N) (State N)

/-- The place of the byte with number `n`: `n % PIPESIZE`. -/
def slot (n : BitVec 32) : Fin PIPESIZE := Ring.cell PIPESIZE n

/-- Change the record of one process. -/
def State.setProc (s : State N) (p : Fin N) (pr : Proc) : State N :=
  { s with proc := Function.update s.proc p pr }

/-! ### Locks -/

def acquire : PipeM N Unit := .atomic fun t s =>
  if s.lock = some t then some (.panic "acquire")
  else if s.lock = none then some (.done () { s with lock := some t })
  else none

def release : PipeM N Unit := .atomic fun t s =>
  if s.lock = some t then some (.done () { s with lock := none })
  else some (.panic "release")

/-- A section under the lock of process `p`. -/
def withProc {ρ : Type} (p : Fin N) (f : State N → ρ × State N) : PipeM N ρ := .atomic fun _ s =>
  if (s.proc p).lock then none else some (.done (f s).1 (f s).2)

/-! ### Sleeping -/

/-- A process that is no longer `SLEEPING` is chosen by the scheduler and goes on. -/
def resume : PipeM N Unit := .atomic fun t s =>
  if (s.proc t).lock = false ∧ (s.proc t).state ≠ .SLEEPING then
    some (.done () (s.setProc t { s.proc t with chan := none }))
  else none

/-- `sleep(chan, &pi->lock)`. -/
def sleep (chan : Chan) : PipeM N Unit := do
  -- acquire(&p->lock); release(lk)
  .act fun t s => { s.setProc t { s.proc t with lock := true } with lock := none }
  -- p->chan = chan; p->state = SLEEPING; sched(), after which the scheduler drops p->lock
  .act fun t s => s.setProc t { s.proc t with chan := some chan, state := .SLEEPING, lock := false }
  resume
  acquire

/-- What a wakeup of `chan` does to a process. -/
def Proc.wake (pr : Proc) (chan : Chan) : Proc :=
  if pr.state = .SLEEPING ∧ pr.chan = some chan then { pr with state := .RUNNABLE } else pr

/-- The loop of `wakeup`. -/
def wakeupFrom (chan : Chan) (me : Fin N) : List (Fin N) → PipeM N Unit
  | [] => pure ()
  | p :: ps => do
      if p ≠ me then
        withProc p fun s => ((), s.setProc p ((s.proc p).wake chan))
      wakeupFrom chan me ps

/-- The process that runs. -/
def myproc : PipeM N (Fin N) := .atomic fun t s => some (.done t s)

def wakeup (chan : Chan) : PipeM N Unit := do
  let me ← myproc
  wakeupFrom chan me (List.finRange N)

def killed : PipeM N Bool := do
  let me ← myproc
  withProc me fun s => ((s.proc me).killed, s)

/-- What `kkill` does to the process it finds. -/
def Proc.kill (pr : Proc) : Proc :=
  { pr with killed := true, state := if pr.state = .SLEEPING then .RUNNABLE else pr.state }

/-! ### Writing -/

/-- Look at the pipe. -/
def look {ρ : Type} (f : Pipe → ρ) : PipeM N ρ := .look fun s => f s.pipe

/-- `pi->nwrite == pi->nread + PIPESIZE`. -/
def Pipe.full (pi : Pipe) : Bool := pi.nwrite == pi.nread + BitVec.ofNat 32 PIPESIZE

/-- `pi->nread == pi->nwrite`. -/
def Pipe.empty (pi : Pipe) : Bool := pi.nread == pi.nwrite

/-- `pi->data[pi->nwrite++ % PIPESIZE] = ch`. -/
def Pipe.push (pi : Pipe) (ch : UInt8) : Pipe :=
  { pi with data := Function.update pi.data (slot pi.nwrite) ch, nwrite := pi.nwrite + 1 }

def push (ch : UInt8) : PipeM N Unit :=
  .act fun _ s => { s with pipe := s.pipe.push ch, accepted := s.accepted ++ [ch] }

/-- `pi->readopen == 0 || killed(pr)`. -/
def gone : PipeM N Bool := do
  if ← look Pipe.readopen then killed else return true

/-- The end of `pipewrite` once its loop is over. -/
def writeDone (i : ℕ) : PipeM N ℤ := do
  wakeup .nread
  release
  return i

/-- The loop of `pipewrite`, at most `rounds` times.  `src i` is the byte `copyin` reads at
`addr + i`, if it can. -/
def writeLoop (src : ℕ → Option UInt8) (n : ℤ) : ℕ → ℕ → PipeM N ℤ
  | 0, _ => .atomic fun _ _ => none
  | rounds + 1, i =>
      if (i : ℤ) < n then do
        if ← gone then
          release
          return -1
        if ← look Pipe.full then
          wakeup .nread
          sleep .nwrite
          writeLoop src n rounds i
        else
          match src i with
          | none => writeDone i
          | some ch => do
              push ch
              writeLoop src n rounds (i + 1)
      else writeDone i

def pipewrite (src : ℕ → Option UInt8) (n : ℤ) (rounds : ℕ) : PipeM N ℤ := do
  acquire
  writeLoop src n rounds 0

/-! ### Reading -/

/-- `ch = pi->data[pi->nread++ % PIPESIZE]`, and `copyout` to user memory if it can. -/
def pop (ok : Bool) : PipeM N Unit := .act fun _ s =>
  let ch := s.pipe.data (slot s.pipe.nread)
  { s with
    pipe := { s.pipe with nread := s.pipe.nread + 1 }
    taken := s.taken ++ [ch]
    delivered := if ok then s.delivered ++ [ch] else s.delivered }

/-- The copying loop of `piperead`, with `left` bytes to go.  `dst i` says whether `copyout`
to `addr + i` succeeds. -/
def readCopy (dst : ℕ → Bool) : ℕ → ℕ → PipeM N ℕ
  | 0, i => pure i
  | left + 1, i => do
      if ← look Pipe.empty then return i
      pop (dst i)
      if dst i then readCopy dst left (i + 1) else pure i

/-- The rest of `piperead` once there is something to read. -/
def readDone (dst : ℕ → Bool) (n : ℤ) : PipeM N ℤ := do
  let i ← readCopy dst n.toNat 0
  wakeup .nwrite
  release
  return i

/-- The waiting loop of `piperead`, at most `rounds` times. -/
def readLoop (dst : ℕ → Bool) (n : ℤ) : ℕ → PipeM N ℤ
  | 0 => .atomic fun _ _ => none
  | rounds + 1 => do
      if ← look fun pi => pi.empty && pi.writeopen then
        if ← killed then
          release
          return -1
        sleep .nread
        readLoop dst n rounds
      else readDone dst n

def piperead (dst : ℕ → Bool) (n : ℤ) (rounds : ℕ) : PipeM N ℤ := do
  acquire
  readLoop dst n rounds

/-! ### Closing -/

/-- Change the pipe. -/
def modify (f : Pipe → Pipe) : PipeM N Unit := .act fun _ s => { s with pipe := f s.pipe }

/-- Close an end, and wake those that wait for it. -/
def closeEnd (f : Pipe → Pipe) (chan : Chan) : PipeM N Unit := do
  modify f
  wakeup chan

/-- The end of `pipeclose`, where the pipe is freed with its last end. -/
def closeDone : PipeM N Unit := do
  if ← look fun pi => !pi.readopen && !pi.writeopen then
    release
    .act fun _ s => { s with live := false }
  else release

def pipeclose (writable : Bool) : PipeM N Unit := do
  acquire
  if writable then closeEnd (fun pi => { pi with writeopen := false }) .nread
  else closeEnd (fun pi => { pi with readopen := false }) .nwrite
  closeDone

/-! ### The machine -/

/-- The calls a process may make on a pipe that is there.  With `copies` all the user memory
they name can be read and written. -/
inductive Call (copies : Prop) : PipeM N Unit → Prop where
  | pipewrite (src : ℕ → Option UInt8) (n : ℤ) (rounds : ℕ)
      (h : copies → ∀ i : ℕ, (i : ℤ) < n → src i ≠ none) :
      Call copies (do let _ ← pipewrite src n rounds)
  | piperead (dst : ℕ → Bool) (n : ℤ) (rounds : ℕ)
      (h : copies → ∀ i : ℕ, (i : ℤ) < n → dst i = true) :
      Call copies (do let _ ← piperead dst n rounds)
  | pipeclose (writable : Bool) : Call copies (pipeclose writable)

/-- A pipe that `pipealloc` has just set up, on a page with any contents. -/
structure Fresh (s : State N) : Prop where
  lock : s.lock = none
  live : s.live = true
  nread : s.pipe.nread = 0
  nwrite : s.pipe.nwrite = 0
  readopen : s.pipe.readopen = true
  writeopen : s.pipe.writeopen = true
  proc : ∀ p, (s.proc p).lock = false ∧ (s.proc p).state = .RUNNABLE
  accepted : s.accepted = []
  taken : s.taken = []
  delivered : s.delivered = []

/-- Processes use the pipe, and between any two of their steps `kkill` may find one of them.
With `spare` it does not find a process that holds `pi->lock`. -/
def machine (N : ℕ) (copies spare : Prop) : System (Fin N) (State N) where
  init c := Fresh c.st ∧ (∀ t, c.code t = .ret ()) ∧ c.halted = none
  call _ s p := s.live = true ∧ Call copies p
  env c c' := ∃ q, (c.st.proc q).lock = false ∧ (spare → c.st.lock ≠ some q) ∧
    c' = { c with st := c.st.setProc q (c.st.proc q).kill }

end Xv6.Pipes
