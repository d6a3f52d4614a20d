import Xv6.Param
import Mathlib.Data.List.Infix
import Mathlib.Logic.Function.Basic

/-!
# Running commands

`runcmd` of `user/sh.c` and the descriptor tables of the processes it makes.

`runcmd` never returns, so it is embedded as the system calls a process still has
to make (`Code`), where `if(fork1() == 0)` carries the code of the child.  The
processes run in any order.  Descriptors are placed as the kernel does it, in
the lowest free slot (`fdalloc`), and the memory for a pipe or a process and the
files of redirections are there.  A program started by `exec` may close and
duplicate what it holds, open files of its own and fork.

Some fields are not in the source: a process knows which node of the command
tree it runs (`Proc.node`) and to which subtree it belongs (`Proc.home`), a call
of `dup` or `open` knows the descriptor it is meant for, and `State.pipes`
records where each pipe was made.

## Main definitions

* `Cmd`, `Code`, `runcmd` — commands, and what a process has to do for one.
* `fdalloc`, `dup`, `pipe` — placing descriptors.
* `Step`, `Reachable` — the processes of a command, in any order.
-/

namespace Xv6.Shell

open Function

/-! ### Commands -/

/-- The bytes of a C string. -/
abbrev Word := List UInt8

/-- `struct cmd`. -/
inductive Cmd where
  | exec (argv : List Word)
  | redir (cmd : Cmd) (file : Word) (mode fd : ℕ)
  | pipe (left right : Cmd)
  | list (left right : Cmd)
  | back (cmd : Cmd)
  deriving DecidableEq

/-- Only the three standard descriptors are redirected. -/
def Cmd.Standard : Cmd → Prop
  | .exec _ => True
  | .redir cmd _ _ fd => fd < 3 ∧ cmd.Standard
  | .pipe left right => left.Standard ∧ right.Standard
  | .list left right => left.Standard ∧ right.Standard
  | .back cmd => cmd.Standard

/-- From a node of a command tree to one below it. -/
inductive Branch where
  | sub
  | left
  | right
  deriving DecidableEq

/-- A node of a command tree, from the root. -/
abbrev Pos := List Branch

/-! ### What a process has to do -/

/-- The operand of `close` and `dup`. -/
inductive Arg where
  | const (fd : ℕ)
  /-- `p[0]`. -/
  | p0
  /-- `p[1]`. -/
  | p1
  deriving DecidableEq

def Arg.fd (p : ℕ × ℕ) : Arg → ℕ
  | .const fd => fd
  | .p0 => p.1
  | .p1 => p.2

/-- The system calls a process still has to make. -/
inductive Code where
  | close (a : Arg) (k : Code)
  /-- `dup(a)`, which is meant to give `meant`. -/
  | dup (a : Arg) (meant : ℕ) (k : Code)
  /-- `open(file, mode)`, which is meant to give `meant`. -/
  | openFile (file : Word) (mode meant : ℕ) (k : Code)
  | pipe (k : Code)
  /-- The child has its own code, for the node at `b`. -/
  | fork (b : Branch) (child k : Code)
  | wait (k : Code)
  | exec (argv : List Word) (k : Code)
  | exit
  /-- `runcmd(cmd)`, for the node at `b`. -/
  | runcmd (cmd : Cmd) (b : Branch)

/-- Execute cmd.  Never returns. -/
def runcmd : Cmd → Code
  | .exec argv => if argv = [] then .exit else .exec argv .exit
  | .redir cmd file mode fd =>
      .close (.const fd) <|
      .openFile file mode fd <|
      .runcmd cmd .sub
  | .list left right =>
      .fork .left (.runcmd left .left) <|
      .wait <|
      .runcmd right .right
  | .pipe left right =>
      .pipe <|
      .fork .left
        (.close (.const 1) <| .dup .p1 1 <| .close .p0 <| .close .p1 <| .runcmd left .left) <|
      .fork .right
        (.close (.const 0) <| .dup .p0 0 <| .close .p0 <| .close .p1 <| .runcmd right .right) <|
      .close .p0 <|
      .close .p1 <|
      .wait <|
      .wait
      .exit
  | .back cmd =>
      .fork .sub (.runcmd cmd .sub)
      .exit

/-- The process has calls of `close` before it. -/
def Code.closing : Code → Bool
  | .close _ _ => true
  | .dup _ _ k | .openFile _ _ _ k | .pipe k | .fork _ _ k | .wait k | .exec _ k => k.closing
  | .exit | .runcmd _ _ => false

/-! ### Descriptors -/

/-- An open file. -/
inductive File where
  /-- One end of a pipe made by the shell. -/
  | pipe (n : ℕ) (write : Bool)
  /-- Any other. -/
  | other
  deriving DecidableEq

/-- `p->ofile`, with `NOFILE` entries. -/
abbrev Ofile := List (Option File)

/-- Put a file in the lowest free slot. -/
def fdalloc (o : Ofile) (f : File) : Option (ℕ × Ofile) :=
  (o.findIdx? (·.isNone)).map fun fd => (fd, o.set fd (some f))

/-- `dup(fd)`, if it succeeds. -/
def dup (o : Ofile) (fd : ℕ) : Option (ℕ × Ofile) :=
  match o[fd]? with
  | some (some f) => fdalloc o f
  | _ => none

/-- `pipe(p)`, if there are descriptors for its ends. -/
def pipe (o : Ofile) (n : ℕ) : Option ((ℕ × ℕ) × Ofile) := do
  let (fd0, o) ← fdalloc o (.pipe n false)
  let (fd1, o) ← fdalloc o (.pipe n true)
  return ((fd0, fd1), o)

/-- `close(fd)`; nothing happens if it is not open. -/
def close (o : Ofile) (fd : ℕ) : Ofile := o.set fd none

/-! ### Processes -/

/-- What a process runs. -/
inductive Image where
  /-- The shell. -/
  | shell (code : Code)
  /-- A program started by `exec`. -/
  | program
  /-- It has exited, and its parent has not waited for it. -/
  | zombie

structure Proc where
  /-- `none` is init. -/
  parent : Option ℕ
  ofile : Ofile
  /-- `int p[2]`. -/
  p : ℕ × ℕ
  /-- The node it runs. -/
  node : Pos
  /-- The subtree it was made for. -/
  home : Pos
  image : Image

structure State where
  proc : ℕ → Option Proc
  /-- Where each pipe was made. -/
  pipes : List Pos

/-- Replace a process. -/
def State.set (s : State) (x : ℕ) (pr : Option Proc) : State :=
  { s with proc := Function.update s.proc x pr }

@[simp] theorem State.set_self (s : State) (x : ℕ) (pr : Option Proc) : (s.set x pr).proc x = pr :=
  update_self ..

theorem State.set_of_ne (s : State) {x y : ℕ} (h : y ≠ x) (pr : Option Proc) :
    (s.set x pr).proc y = s.proc y := update_of_ne h ..

/-- A pipe is made by the process that runs a node. -/
def State.addPipe (s : State) (q : Pos) : State := { s with pipes := s.pipes ++ [q] }

/-- What is left of a process that exits. -/
def Proc.dead (pr : Proc) : Proc :=
  { pr with ofile := List.replicate NOFILE none, image := .zombie }

/-- The children of `x` go to init. -/
def Proc.reparent (x : ℕ) (pr : Proc) : Proc :=
  if pr.parent = some x then { pr with parent := none } else pr

def State.exit (s : State) (x : ℕ) (pr : Proc) : State where
  proc := Function.update (fun y => (s.proc y).map (Proc.reparent x)) x (some pr.dead)
  pipes := s.pipes

@[simp] theorem State.exit_self (s : State) (x : ℕ) (pr : Proc) :
    (s.exit x pr).proc x = some pr.dead := by simp [State.exit]

theorem State.exit_of_ne (s : State) {x y : ℕ} (h : y ≠ x) (pr : Proc) :
    (s.exit x pr).proc y = (s.proc y).map (Proc.reparent x) := by simp [State.exit, h]

/-- One system call of one process. -/
inductive Step (s : State) : State → Prop where
  | close {x : ℕ} {pr : Proc} {a : Arg} {k : Code} (hx : s.proc x = some pr)
      (hi : pr.image = .shell (.close a k)) :
      Step s (s.set x (some { pr with ofile := close pr.ofile (a.fd pr.p), image := .shell k }))
  | dup {x : ℕ} {pr : Proc} {a : Arg} {meant fd : ℕ} {o : Ofile} {k : Code}
    (hx : s.proc x = some pr)
      (hi : pr.image = .shell (.dup a meant k)) (hd : dup pr.ofile (a.fd pr.p) = some (fd, o)) :
      Step s (s.set x (some { pr with ofile := o, image := .shell k }))
  /-- The result of `dup` is not looked at. -/
  | dup_fails {x : ℕ} {pr : Proc} {a : Arg} {meant : ℕ} {k : Code} (hx : s.proc x = some pr)
      (hi : pr.image = .shell (.dup a meant k)) (hd : dup pr.ofile (a.fd pr.p) = none) :
      Step s (s.set x (some { pr with image := .shell k }))
  | openFile {x : ℕ} {pr : Proc} {file : Word} {mode meant fd : ℕ} {o : Ofile} {k : Code}
      (hx : s.proc x = some pr) (hi : pr.image = .shell (.openFile file mode meant k))
      (hd : fdalloc pr.ofile .other = some (fd, o)) :
      Step s (s.set x (some { pr with ofile := o, image := .shell k }))
  | openFile_fails {x : ℕ} {pr : Proc} {file : Word} {mode meant : ℕ} {k : Code}
      (hx : s.proc x = some pr) (hi : pr.image = .shell (.openFile file mode meant k))
      (hd : fdalloc pr.ofile .other = none) :
      Step s (s.set x (some { pr with image := .shell .exit }))
  | pipe {x : ℕ} {pr : Proc} {p : ℕ × ℕ} {o : Ofile} {k : Code} (hx : s.proc x = some pr)
      (hi : pr.image = .shell (.pipe k)) (hd : pipe pr.ofile s.pipes.length = some (p, o)) :
      Step s ((s.addPipe pr.node).set x (some { pr with ofile := o, p := p, image := .shell k }))
  /-- `panic("pipe")`. -/
  | pipe_fails {x : ℕ} {pr : Proc} {k : Code} (hx : s.proc x = some pr)
      (hi : pr.image = .shell (.pipe k)) (hd : pipe pr.ofile s.pipes.length = none) :
      Step s (s.set x (some { pr with image := .shell .exit }))
  | fork {x y : ℕ} {pr : Proc} {b : Branch} {child k : Code} (hx : s.proc x = some pr)
      (hy : s.proc y = none) (hi : pr.image = .shell (.fork b child k)) :
      Step s ((s.set x (some { pr with image := .shell k })).set y (some { pr with
        parent := some x, home := pr.node ++ [b], image := .shell child }))
  /-- `wait` finds a child that has exited. -/
  | wait {x y : ℕ} {pr q : Proc} {k : Code} (hx : s.proc x = some pr)
      (hi : pr.image = .shell (.wait k)) (hy : s.proc y = some q) (hp : q.parent = some x)
      (hz : q.image = .zombie) :
      Step s ((s.set y none).set x (some { pr with image := .shell k }))
  /-- `wait` returns at once when there are no children. -/
  | wait_fails {x : ℕ} {pr : Proc} {k : Code} (hx : s.proc x = some pr)
      (hi : pr.image = .shell (.wait k))
      (hc : ∀ y q, s.proc y = some q → q.parent ≠ some x) :
      Step s (s.set x (some { pr with image := .shell k }))
  | exec {x : ℕ} {pr : Proc} {argv : List Word} {k : Code} (hx : s.proc x = some pr)
      (hi : pr.image = .shell (.exec argv k)) :
      Step s (s.set x (some { pr with image := .program }))
  | exec_fails {x : ℕ} {pr : Proc} {argv : List Word} {k : Code} (hx : s.proc x = some pr)
      (hi : pr.image = .shell (.exec argv k)) :
      Step s (s.set x (some { pr with image := .shell k }))
  | exit {x : ℕ} {pr : Proc} (hx : s.proc x = some pr) (hi : pr.image = .shell .exit) :
      Step s (s.exit x pr)
  /-- The new frame has its own `p`, with any contents. -/
  | runcmd {x : ℕ} {pr : Proc} {cmd : Cmd} {b : Branch} (p : ℕ × ℕ) (hx : s.proc x = some pr)
      (hi : pr.image = .shell (.runcmd cmd b)) :
      Step s (s.set x (some { pr with
        p := p, node := pr.node ++ [b], home := pr.node ++ [b], image := .shell (runcmd cmd) }))
  /-- A program changes its descriptors. -/
  | program {x : ℕ} {pr : Proc} (o : Ofile) (hx : s.proc x = some pr) (hi : pr.image = .program)
      (ho : ∀ f, some f ∈ o → some f ∈ pr.ofile ∨ f = .other) :
      Step s (s.set x (some { pr with ofile := o }))
  | program_fork {x y : ℕ} {pr : Proc} (hx : s.proc x = some pr) (hi : pr.image = .program)
      (hy : s.proc y = none) : Step s (s.set y (some { pr with parent := some x }))
  | program_exit {x : ℕ} {pr : Proc} (hx : s.proc x = some pr) (hi : pr.image = .program) :
      Step s (s.exit x pr)
  /-- Init, and programs, wait for their children. -/
  | reap {y : ℕ} {q : Proc} (hy : s.proc y = some q) (hz : q.image = .zombie) :
      Step s (s.set y none)

/-- The table of a process with only the standard descriptors open. -/
def standard (f0 f1 f2 : File) : Ofile :=
  some f0 :: some f1 :: some f2 :: List.replicate (NOFILE - 3) none

/-- The process that is about to run a command. -/
def start (cmd : Cmd) (x : ℕ) (p : ℕ × ℕ) : State where
  proc := Function.update (fun _ => none) x
    (some ⟨none, standard .other .other .other, p, [], [], .shell (runcmd cmd)⟩)
  pipes := []

/-- The states the processes of a command go through. -/
inductive Reachable (cmd : Cmd) : State → Prop where
  | start (x : ℕ) (p : ℕ × ℕ) : Reachable cmd (start cmd x p)
  | step {s s' : State} (h : Reachable cmd s) (hs : Step s s') : Reachable cmd s'

end Xv6.Shell
