import Xv6.Lib.Prog
import Xv6.Param
import Mathlib.Data.List.FinRange

/-!
# Processes and processors

The scheduler and the life of a process, from `kernel/proc.c`: `scheduler`,
`sched`, `yield`, `sleep`, `wakeup`, `kfork`, `kexit`, `kwait`, `reparent`,
`kkill`, and `forkret`, on any number of processors `C`.

There is one kernel thread for each processor's scheduler and one for each slot
of the process table.  A processor executes on one kernel stack at a time, its
scheduler's or that of a process (`State.stack`); a thread takes steps only while
a processor executes on its stack, and `swtch` passes the processor on.  Two
processors on the stack of one process are a state of the model like any other;
that it is never reached is one of the results.

A step is the acquisition or release of a lock, an access under a lock that is
held, a whole section under a `p->lock` or `wait_lock` that contains no `swtch`,
or a `swtch`.  A process that holds no lock may be interrupted by the timer and
yield (`preempt`).

The waiting loops of `kwait` and of `await` take a bound on the number of rounds,
after which they are never scheduled again; as a call may come with any bound,
every run of the source is one of the runs considered here.

The fields marked as history are not in the source, and no step looks at them.

## Main definitions

* `State` — the process table, the processors and the locks.
* `scheduler`, `sched`, `yield`, `sleep`, `wakeup`, `kfork`, `kexit`, `kwait`, `reparent`,
  `kkill`, `allocproc`, `forkret` — the functions of the source.
* `await`, `signal` — processes that wait for a condition and make it true.
* `machine` — the system they run in.
-/

namespace Xv6.Sched

open Conc

variable {C : Type} [DecidableEq C] {N : ℕ} {ρ : Type}

/-! ### Data -/

/-- The kernel threads. -/
inductive Thread (C : Type) (N : ℕ) where
  /-- The scheduler of a processor. -/
  | cpu (c : C)
  /-- The process in a slot of the process table. -/
  | proc (p : Fin N)
  deriving DecidableEq

/-- What processes sleep on.  `kwait` sleeps on the address of the process itself. -/
inductive Chan (N : ℕ) where
  | proc (p : Fin N)
  | other (k : ℕ)
  deriving DecidableEq

/-- The spinlocks: `p->lock`, `wait_lock`, and any others. -/
inductive Lk (N : ℕ) where
  | proc (p : Fin N)
  | wait_lock
  | other (l : ℕ)
  deriving DecidableEq

/-- `enum procstate`. -/
inductive ProcState where
  | UNUSED
  | USED
  | SLEEPING
  | RUNNABLE
  | RUNNING
  | ZOMBIE
  deriving DecidableEq

/-- Where the kernel thread of a process goes on when it is in none of the functions below. -/
inductive Context where
  /-- It has never run. -/
  | forkret
  /-- It is in user space, or anywhere else in the kernel. -/
  | kernel
  /-- After the `sched` of `kexit`. -/
  | zombie
  deriving DecidableEq

/-- `struct proc`.  The last two fields are history. -/
structure Proc (N : ℕ) where
  state : ProcState
  chan : Option (Chan N)
  killed : Bool
  xstate : BitVec 32
  pid : BitVec 32
  parent : Option (Fin N)
  context : Context
  /-- Which of the processes of the run it is. -/
  gen : ℕ
  /-- How often `freeproc` was applied to the slot. -/
  freed : ℕ

/-- A call of `kexit`. -/
structure Exit where
  gen : ℕ
  pid : BitVec 32
  status : BitVec 32

/-- A child found by `kwait`: who waits, which process it was, the pid that is returned, and what
was copied to user space. -/
structure Reap (N : ℕ) where
  waiter : Fin N
  gen : ℕ
  pid : BitVec 32
  status : Option (BitVec 32)
  deriving DecidableEq

/-- A call of `sleep` that returned: the lock it was called with, and the locks and the processor
when it returned. -/
structure Slept (C : Type) (N : ℕ) where
  lk : Lk N
  cpu : C
  lock : Lk N → Option C

/-- The process table, the processors and the locks.  The fields from `nextgen` on are history. -/
structure State (C : Type) (N : ℕ) where
  proc : Fin N → Proc N
  /-- The processor that holds a lock. -/
  lock : Lk N → Option C
  /-- `c->noff`. -/
  noff : C → ℕ
  /-- `c->proc`. -/
  cur : C → Option (Fin N)
  /-- The kernel stack a processor executes on; `none` is its scheduler's. -/
  stack : C → Option (Fin N)
  /-- The processor whose registers a process is loaded in (its `tp`). -/
  tp : Fin N → Option C
  nextpid : BitVec 32
  /-- A timer interrupt is pending. -/
  tick : Bool
  /-- The conditions processes wait for. -/
  flag : ℕ → Bool
  nextgen : ℕ
  exits : List Exit
  /-- The children `kwait` has freed, and those whose pid it has returned, with the process to
  which it has. -/
  reaped : List (Reap N)
  returned : List (Fin N × Reap N)
  /-- The last test a process has made in `await`: for which condition, under which lock, and
  how many wakeups under that lock were over by then. -/
  test : Fin N → Option (ℕ × ℕ × ℕ)
  /-- How many wakeups for a condition are over, by the lock that was held. -/
  woken : ℕ → ℕ → ℕ
  slept : List (Slept C N)

/-- Programs of the kernel threads. -/
abbrev SchedM (C : Type) (N : ℕ) := Prog (Thread C N) (State C N)

/-- Change one process. -/
def State.setProc (s : State C N) (p : Fin N) (pr : Proc N) : State C N :=
  { s with proc := Function.update s.proc p pr }

def State.setLock (s : State C N) (l : Lk N) (o : Option C) : State C N :=
  { s with lock := Function.update s.lock l o }

def State.setNoff (s : State C N) (c : C) (n : ℕ) : State C N :=
  { s with noff := Function.update s.noff c n }

def State.setCur (s : State C N) (c : C) (o : Option (Fin N)) : State C N :=
  { s with cur := Function.update s.cur c o }

/-! ### Steps -/

/-- The processor that executes a thread. -/
def State.mycpu (s : State C N) : Thread C N → Option C
  | .cpu c => if s.stack c = none then some c else none
  | .proc p => s.tp p

/-- A step, taken by a thread that some processor executes. -/
def onCpu (f : C → State C N → Option (Outcome (State C N) ρ)) : SchedM C N ρ :=
  .atomic fun t s => (s.mycpu t).bind fun c => f c s

def look (f : State C N → ρ) : SchedM C N ρ := onCpu fun _ s => some (.done (f s) s)

def modify (f : State C N → State C N) : SchedM C N Unit := onCpu fun _ s => some (.done () (f s))

def acquire (l : Lk N) : SchedM C N Unit := onCpu fun c s =>
  if s.lock l = some c then some (.panic "acquire")
  else if s.lock l = none then some (.done () ((s.setLock l (some c)).setNoff c (s.noff c + 1)))
  else none

def release (l : Lk N) : SchedM C N Unit := onCpu fun c s =>
  if s.lock l = some c then some (.done () ((s.setLock l none).setNoff c (s.noff c - 1)))
  else some (.panic "release")

/-- A section under a lock, from `acquire` to `release`. -/
def locked (l : Lk N) (f : State C N → ρ × State C N) : SchedM C N ρ := onCpu fun c s =>
  if s.lock l = some c then some (.panic "acquire")
  else if s.lock l = none then some (.done (f s).1 (f s).2)
  else none

def myproc : SchedM C N (Option (Fin N)) := onCpu fun c s => some (.done (s.cur c) s)

/-- `myproc()` where its result is used as a pointer. -/
def thisproc : SchedM C N (Fin N) := onCpu fun c s =>
  match s.cur c with
  | some p => some (.done p s)
  | none => some (.panic "kerneltrap")

/-! ### Switching -/

/-- `swtch(&c->context, &p->context)` of the scheduler. -/
def swtch (p : Fin N) : SchedM C N Unit := onCpu fun c s =>
  some (.done () { s with
    stack := Function.update s.stack c (some p)
    tp := Function.update s.tp p (some c) })

/-- The body of the loop of `scheduler`. -/
def schedule (p : Fin N) : SchedM C N Unit := do
  acquire (.proc p)
  if (← look fun s => (s.proc p).state) = .RUNNABLE then
    onCpu fun c s => some (.done ()
      ((s.setProc p { s.proc p with state := .RUNNING }).setCur c (some p)))
    swtch p
    onCpu fun c s => some (.done () (s.setCur c none))
  release (.proc p)

/-- One pass of `scheduler` over the process table. -/
def scheduler : List (Fin N) → SchedM C N Unit
  | [] => pure ()
  | p :: ps => do
      schedule p
      scheduler ps

/-- `sched`; `next` is where the thread goes on. -/
def sched (p : Fin N) (next : Context) : SchedM C N Unit := onCpu fun c s =>
  if s.lock (.proc p) ≠ some c then some (.panic "sched p->lock")
  else if s.noff c ≠ 1 then some (.panic "sched locks")
  else if (s.proc p).state = .RUNNING then some (.panic "sched RUNNING")
  else some (.done () { s.setProc p { s.proc p with context := next } with
    stack := Function.update s.stack c none
    tp := Function.update s.tp p none })

def yield : SchedM C N Unit := do
  let p ← thisproc
  acquire (.proc p)
  modify fun s => s.setProc p { s.proc p with state := .RUNNABLE }
  sched p .kernel
  release (.proc p)

/-- Interrupts are on: the process may have to give up its processor. -/
def preempt : SchedM C N Unit := do
  if ← look State.tick then yield

/-- A process that runs for the first time still holds its lock from the scheduler. -/
def forkret (p : Fin N) : SchedM C N Unit := do
  modify fun s => s.setProc p { s.proc p with context := .kernel }
  release (.proc p)

/-! ### Sleeping -/

def sleep (chan : Chan N) (lk : Lk N) : SchedM C N Unit := do
  let p ← thisproc
  acquire (.proc p)
  release lk
  modify fun s => s.setProc p { s.proc p with chan := some chan, state := .SLEEPING }
  sched p .kernel
  modify fun s => s.setProc p { s.proc p with chan := none }
  release (.proc p)
  preempt
  acquire lk
  onCpu fun c s => some (.done () { s with slept := s.slept ++ [⟨lk, c, s.lock⟩] })

/-- What `wakeup` does to a process. -/
def Proc.wake (pr : Proc N) (chan : Option (Chan N)) : Proc N :=
  if pr.state = .SLEEPING ∧ pr.chan = chan then { pr with state := .RUNNABLE } else pr

/-- The loop of `wakeup`. -/
def wakeupFrom (chan : Option (Chan N)) (me : Option (Fin N)) : List (Fin N) → SchedM C N Unit
  | [] => pure ()
  | p :: ps => do
      if some p ≠ me then
        locked (.proc p) fun s => ((), s.setProc p ((s.proc p).wake chan))
      wakeupFrom chan me ps

def wakeup (chan : Option (Chan N)) : SchedM C N Unit := do
  let me ← myproc
  wakeupFrom chan me (List.finRange N)

def killed (p : Fin N) : SchedM C N Bool :=
  locked (.proc p) fun s => ((s.proc p).killed, s)

/-- What `kkill` does to the process it finds. -/
def Proc.kill (pr : Proc N) : Proc N :=
  { pr with killed := true, state := if pr.state = .SLEEPING then .RUNNABLE else pr.state }

/-- The loop of `kkill`. -/
def kkillFrom (pid : BitVec 32) : List (Fin N) → SchedM C N ℤ
  | [] => pure (-1)
  | p :: ps => do
      preempt
      let found ← locked (.proc p) fun s =>
        if (s.proc p).pid = pid then (true, s.setProc p (s.proc p).kill) else (false, s)
      if found then return 0 else kkillFrom pid ps

def kkill (pid : BitVec 32) : SchedM C N ℤ := kkillFrom pid (List.finRange N)

/-! ### Processes come and go -/

/-- What `freeproc` leaves of a process. -/
def Proc.free (pr : Proc N) : Proc N :=
  { pr with
    pid := 0
    parent := none
    chan := none
    killed := false
    xstate := 0
    state := .UNUSED
    freed := pr.freed + 1 }

/-- What `allocproc` makes of a slot. -/
def Proc.alloc (pr : Proc N) (pid : BitVec 32) (gen : ℕ) : Proc N :=
  { pr with pid := pid, state := .USED, context := .forkret, gen := gen }

/-- The loop of `allocproc`, with the copying that `kfork` does before it releases the lock of
the new process; `mem` says whether there is enough memory for it. -/
def allocproc (mem : Bool) : List (Fin N) → SchedM C N (Option (Fin N × BitVec 32))
  | [] => pure none
  | p :: ps => do
      preempt
      let r ← locked (.proc p) fun s =>
        if (s.proc p).state = .UNUSED then
          let pr := (s.proc p).alloc s.nextpid s.nextgen
          (some (if mem then some (p, s.nextpid) else none),
            { s.setProc p (if mem then pr else pr.free) with
              nextpid := s.nextpid + 1
              nextgen := s.nextgen + 1 })
        else (none, s)
      match r with
      | some r => pure r
      | none => allocproc mem ps

/-- `kfork`.  The result is the pid of the child. -/
def kfork (mem : Bool) : SchedM C N (Option (BitVec 32)) := do
  let p ← thisproc
  match ← allocproc mem (List.finRange N) with
  | none => return none
  | some (np, pid) =>
      preempt
      locked .wait_lock fun s => ((), s.setProc np { s.proc np with parent := some p })
      preempt
      locked (.proc np) fun s => ((), s.setProc np { s.proc np with state := .RUNNABLE })
      return some pid

/-- The loop of `reparent`. -/
def reparentFrom (initproc p : Fin N) : List (Fin N) → SchedM C N Unit
  | [] => pure ()
  | pp :: ps => do
      let mine ← onCpu fun _ s =>
        if (s.proc pp).parent = some p then
          some (.done true (s.setProc pp { s.proc pp with parent := some initproc }))
        else some (.done false s)
      if mine then wakeup (some (.proc initproc))
      reparentFrom initproc p ps

def reparent (initproc p : Fin N) : SchedM C N Unit := reparentFrom initproc p (List.finRange N)

/-- `kexit`, once the files of the process are closed. -/
def kexit (initproc : Fin N) (status : BitVec 32) : SchedM C N Unit := do
  let p ← thisproc
  if p = initproc then .stop "init exiting"
  preempt
  acquire .wait_lock
  reparent initproc p
  let parent ← look fun s => (s.proc p).parent
  wakeup (parent.map .proc)
  acquire (.proc p)
  modify fun s => { s.setProc p { s.proc p with xstate := status, state := .ZOMBIE } with
    exits := s.exits ++ [⟨(s.proc p).gen, (s.proc p).pid, status⟩] }
  release .wait_lock
  sched p .zombie

/-- What `kwait` finds out about a child. -/
inductive Child (N : ℕ) where
  | alive
  /-- It has exited, and its status cannot be copied to user space. -/
  | fault
  | reaped (r : Reap N)

/-- The section of `kwait` under the lock of a child of `p`.  `addr` is where its status goes, if
anywhere; whether that is mapped is all that matters here. -/
def reap (addr : Option Bool) (p pp : Fin N) : SchedM C N (Child N) :=
  locked (.proc pp) fun s =>
    if (s.proc pp).state = .ZOMBIE then
      if addr = some false then (.fault, s)
      else
        let r : Reap N :=
          ⟨p, (s.proc pp).gen, (s.proc pp).pid, addr.map fun _ => (s.proc pp).xstate⟩
        (.reaped r, { s.setProc pp (s.proc pp).free with reaped := s.reaped ++ [r] })
    else (.alive, s)

/-- The scan of `kwait`: what it found, and whether there was a child at all. -/
def scan (addr : Option Bool) (p : Fin N) : List (Fin N) → Bool → SchedM C N (Child N × Bool)
  | [], havekids => pure (.alive, havekids)
  | pp :: ps, havekids => do
      if (← look fun s => (s.proc pp).parent) = some p then
        match ← reap addr p pp with
        | .alive => scan addr p ps true
        | found => pure (found, true)
      else scan addr p ps havekids

/-- The loop of `kwait`, at most `rounds` times. -/
def kwaitLoop (addr : Option Bool) (p : Fin N) : ℕ → SchedM C N (Option (Reap N))
  | 0 => .atomic fun _ _ => none
  | rounds + 1 => do
      match ← scan addr p (List.finRange N) false with
      | (.reaped r, _) =>
          release .wait_lock
          return some r
      | (.fault, _) =>
          release .wait_lock
          return none
      | (.alive, false) =>
          release .wait_lock
          return none
      | (.alive, true) =>
          if ← killed p then
            release .wait_lock
            return none
          sleep (.proc p) .wait_lock
          kwaitLoop addr p rounds

/-- `kwait`; the pid it returns is that of the result. -/
def kwait (addr : Option Bool) (rounds : ℕ) : SchedM C N (Option (Reap N)) := do
  let p ← thisproc
  preempt
  acquire .wait_lock
  kwaitLoop addr p rounds

/-- `sys_wait`: what was returned goes down in history. -/
def sys_wait (addr : Option Bool) (rounds : ℕ) : SchedM C N Unit := do
  match ← kwait addr rounds with
  | some r =>
      let p ← thisproc
      modify fun s => { s with returned := s.returned ++ [(p, r)] }
  | none => pure ()

/-! ### Conditions -/

/-- Test condition `k`, while holding lock `l`. -/
def test (k l : ℕ) : SchedM C N Bool := do
  let p ← thisproc
  modify fun s => { s with test := Function.update s.test p (some (k, l, s.woken k l)) }
  look fun s => s.flag k

/-- Wait for condition `k`, at most `rounds` times round the loop, and take it. -/
def awaitLoop (k l : ℕ) : ℕ → SchedM C N Unit
  | 0 => .atomic fun _ _ => none
  | rounds + 1 => do
      if ← test k l then
        let p ← thisproc
        modify fun s => { s with
          flag := Function.update s.flag k false
          test := Function.update s.test p none }
        release (.other l)
      else
        sleep (.other k) (.other l)
        awaitLoop k l rounds

def await (k l rounds : ℕ) : SchedM C N Unit := do
  acquire (.other l)
  awaitLoop k l rounds

/-- Make condition `k` true, and wake those that wait for it. -/
def signal (k l : ℕ) : SchedM C N Unit := do
  acquire (.other l)
  modify fun s => { s with flag := Function.update s.flag k true }
  wakeup (some (.other k))
  modify fun s => { s with
    woken := Function.update s.woken k (Function.update (s.woken k) l (s.woken k l + 1)) }
  release (.other l)

/-! ### The machine -/

/-- What a kernel thread may do next. -/
inductive Call (initproc : Fin N) (s : State C N) : Thread C N → SchedM C N Unit → Prop where
  | scheduler (c : C) : Call initproc s (.cpu c) (scheduler (List.finRange N))
  /-- A device interrupt. -/
  | devintr (c : C) (chan : Option (Chan N)) : Call initproc s (.cpu c) (wakeup chan)
  | forkret (p : Fin N) (h : (s.proc p).context = .forkret) :
      Call initproc s (.proc p) (forkret p)
  | zombie (p : Fin N) (h : (s.proc p).context = .zombie) :
      Call initproc s (.proc p) (.stop "zombie exit")
  | yield (p : Fin N) (h : (s.proc p).context = .kernel) : Call initproc s (.proc p) yield
  | kfork (p : Fin N) (mem : Bool) (h : (s.proc p).context = .kernel) :
      Call initproc s (.proc p) (do let _ ← kfork mem)
  | kexit (p : Fin N) (status : BitVec 32) (h : (s.proc p).context = .kernel) :
      Call initproc s (.proc p) (kexit initproc status)
  | sys_wait (p : Fin N) (addr : Option Bool) (rounds : ℕ) (h : (s.proc p).context = .kernel) :
      Call initproc s (.proc p) (sys_wait addr rounds)
  | kkill (p : Fin N) (pid : BitVec 32) (h : (s.proc p).context = .kernel) :
      Call initproc s (.proc p) (do let _ ← kkill pid)
  | await (p : Fin N) (k l rounds : ℕ) (h : (s.proc p).context = .kernel) :
      Call initproc s (.proc p) (await k l rounds)
  | signal (p : Fin N) (k l : ℕ) (h : (s.proc p).context = .kernel) :
      Call initproc s (.proc p) (signal k l)

/-- The first process is ready to run, and nothing else has happened. -/
structure Booted (initproc : Fin N) (s : State C N) : Prop where
  init : (s.proc initproc).state = .RUNNABLE
  unused : ∀ p, p ≠ initproc → (s.proc p).state = .UNUSED
  context : ∀ p, (s.proc p).context = .forkret
  parent : ∀ p, (s.proc p).parent = none
  lock : ∀ l, s.lock l = none
  noff : ∀ c, s.noff c = 0
  cur : ∀ c, s.cur c = none
  stack : ∀ c, s.stack c = none
  tp : ∀ p, s.tp p = none
  nextgen : (s.proc initproc).gen < s.nextgen
  exits : s.exits = []
  reaped : s.reaped = []
  returned : s.returned = []
  test : ∀ p, s.test p = none
  slept : s.slept = []

/-- The kernel threads run on the processors `C`, and timer interrupts come at any time. -/
def machine (C : Type) [DecidableEq C] (initproc : Fin N) :
    System (Thread C N) (State C N) where
  init c := Booted initproc c.st ∧ (∀ t, c.code t = .ret ()) ∧ c.halted = none
  call t s p := (s.mycpu t).isSome = true ∧ Call initproc s t p
  env c c' := ∃ b, c' = { c with st := { c.st with tick := b } }

end Xv6.Sched
