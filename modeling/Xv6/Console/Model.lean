import Xv6.Lib.Prog
import Xv6.Lib.Ring
import Mathlib.Data.BitVec
import Mathlib.Data.List.DropRight

/-!
# The console

`consoleread` and `consoleintr` of `kernel/console.c` as programs of atomic
steps, run by any number of threads: processes that read, and the interrupts
that bring the characters typed.  A step is the acquisition or release of
`cons.lock`, or a section of the code under it.

Echoing is left out, as it does not touch `cons`.  A reader is not killed and
its copies succeed.  The loop of `consoleread` goes round as often as the reader
is woken: its program takes a bound on the number of rounds, after which it is
never scheduled again, and a call may come with any bound.

`State.hist` is not in the source: it records what the console did, the last
event first, and no step looks at it.

## Main definitions

* `Cons`, `State` — the input buffer, and who uses it.
* `consoleread`, `consoleintr` — the functions of the source, under its names.
* `machine` — any number of readers and interrupts.
-/

namespace Xv6.Console

open Conc

variable {T : Type} [DecidableEq T]

/-! ### Data -/

abbrev INPUT_BUF_SIZE : ℕ := 128

instance : NeZero INPUT_BUF_SIZE := ⟨by decide⟩

/-- The input side of `cons`, without its lock. -/
structure Cons where
  buf : Fin INPUT_BUF_SIZE → UInt8
  /-- Read index. -/
  r : BitVec 32
  /-- Write index. -/
  w : BitVec 32
  /-- Edit index. -/
  e : BitVec 32

/-- What the console did. -/
inductive Event (T : Type) where
  /-- `consoleintr(c)` did its work. -/
  | typed (c : ℤ)
  /-- Thread `t` began to read `n` bytes. -/
  | call (t : T) (n : ℤ)
  /-- The read of `t` took `c`. -/
  | byte (t : T) (c : UInt8)
  /-- The read of `t` met a `^D`, and took it. -/
  | eof (t : T)
  /-- The read of `t` met a `^D`, and left it for the next. -/
  | saved (t : T)
  /-- The read of `t` returned `n`. -/
  | ret (t : T) (n : ℤ)
  deriving DecidableEq

/-- The console and its users. -/
structure State (T : Type) where
  /-- The thread that holds `cons.lock`. -/
  lock : Option T
  cons : Cons
  /-- The readers that sleep on `&cons.r`. -/
  asleep : T → Bool
  /-- History: the last event first. -/
  hist : List (Event T)

/-- Programs of the threads. -/
abbrev ConsM (T : Type) := Prog T (State T)

/-- `C(x)`, Control-x. -/
def ctrl (x : Char) : ℤ := x.toNat - '@'.toNat

/-- `(char)c`. -/
def char (c : ℤ) : UInt8 := UInt8.ofNat (c % 256).toNat

/-- `i % INPUT_BUF_SIZE`. -/
def slot (i : BitVec 32) : Fin INPUT_BUF_SIZE := Ring.cell INPUT_BUF_SIZE i

/-- The byte a newline is stored as. -/
abbrev newline : UInt8 := 10

/-- The byte a `^D` is stored as. -/
abbrev ctrlD : UInt8 := 4

/-! ### Locks and sleeping -/

def acquire : ConsM T Unit := .atomic fun t s =>
  if s.lock = some t then some (.panic "acquire")
  else if s.lock = none then some (.done () { s with lock := some t })
  else none

def release : ConsM T Unit := .atomic fun t s =>
  if s.lock = some t then some (.done () { s with lock := none })
  else some (.panic "release")

/-- `sleep(&cons.r, &cons.lock)`. -/
def sleep : ConsM T Unit := do
  .act fun t s => { s with lock := none, asleep := Function.update s.asleep t true }
  .atomic fun t s => if s.asleep t then none else some (.done () s)
  acquire

/-- `wakeup(&cons.r)`. -/
def wakeup : ConsM T Unit := .act fun _ s => { s with asleep := fun _ => false }

/-- Record an event. -/
def note (ev : T → Event T) : ConsM T Unit := .act fun t s => { s with hist := ev t :: s.hist }

/-! ### Reading -/

/-- `c = cons.buf[cons.r++ % INPUT_BUF_SIZE]`, and what becomes of a `^D`: a reader that already
has bytes (`got`) takes the step of `cons.r` back. -/
def take (got : Bool) : ConsM T UInt8 := .atomic fun t s =>
  let c := s.cons.buf (slot s.cons.r)
  let d := { s.cons with r := s.cons.r + 1 }
  if c = ctrlD then
    if got then
      some (.done c { s with cons := { d with r := d.r - 1 }, hist := .saved t :: s.hist })
    else some (.done c { s with cons := d, hist := .eof t :: s.hist })
  else some (.done c { s with cons := d, hist := .byte t c :: s.hist })

/-- The end of `consoleread`, with `n` bytes still wanted. -/
def readDone (target n : ℤ) : ConsM T ℤ := do
  note (.ret · (target - n))
  release
  return target - n

/-- The loop of `consoleread`, at most `rounds` times. -/
def readLoop (target : ℤ) : ℕ → ℤ → ConsM T ℤ
  | 0, _ => .atomic fun _ _ => none
  | rounds + 1, n =>
      if 0 < n then do
        if ← .look fun s => s.cons.r == s.cons.w then
          sleep
          readLoop target rounds n
        else
          let c ← take (n < target)
          if c = ctrlD then readDone target n
          else if c = newline then readDone target (n - 1)
          else readLoop target rounds (n - 1)
      else readDone target n

def consoleread (n : ℤ) (rounds : ℕ) : ConsM T ℤ := do
  acquire
  note (.call · n)
  readLoop n rounds n

/-! ### Typing -/

/-- The loop of kill-line, which goes round at most `cons.e - cons.w` times. -/
def Cons.killFrom : ℕ → Cons → Cons
  | 0, d => d
  | k + 1, d =>
      if d.e ≠ d.w ∧ d.buf (slot (d.e - 1)) ≠ newline then Cons.killFrom k { d with e := d.e - 1 }
      else d

def Cons.killLine (d : Cons) : Cons := Cons.killFrom (d.e - d.w).toNat d

def Cons.backspace (d : Cons) : Cons := if d.e ≠ d.w then { d with e := d.e - 1 } else d

/-- Store a character, and say whether a whole line, or an end of file, has arrived. -/
def Cons.store (d : Cons) (c : ℤ) : Cons × Bool :=
  let c := if c = '\r'.toNat then ('\n'.toNat : ℤ) else c
  let d := { d with buf := Function.update d.buf (slot d.e) (char c), e := d.e + 1 }
  if c = '\n'.toNat ∨ c = ctrl 'D' ∨ (d.e - d.r).toNat = INPUT_BUF_SIZE then
    ({ d with w := d.e }, true)
  else (d, false)

/-- The `switch` of `consoleintr`, and whether it calls `wakeup`. -/
def Cons.input (d : Cons) (c : ℤ) : Cons × Bool :=
  if c = ctrl 'P' then (d, false)   -- prints the process list
  else if c = ctrl 'U' then (d.killLine, false)
  else if c = ctrl 'H' ∨ c = 0x7f then (d.backspace, false)
  else if c ≠ 0 ∧ (d.e - d.r).toNat < INPUT_BUF_SIZE then d.store c
  else (d, false)

def consoleintr (c : ℤ) : ConsM T Unit := do
  acquire
  let wake ← .atomic fun _ s => some (.done (s.cons.input c).2
    { s with cons := (s.cons.input c).1, hist := .typed c :: s.hist })
  if wake then wakeup
  release

/-! ### The machine -/

/-- The calls a thread may make. -/
inductive Call : ConsM T Unit → Prop where
  | consoleread (n : ℤ) (rounds : ℕ) : Call (do let _ ← consoleread n rounds)
  | consoleintr (c : ℤ) : Call (consoleintr c)

/-- The console after boot: nobody has typed or read anything. -/
structure Fresh (s : State T) : Prop where
  lock : s.lock = none
  r : s.cons.r = 0
  w : s.cons.w = 0
  e : s.cons.e = 0
  asleep : ∀ t, s.asleep t = false
  hist : s.hist = []

def machine (T : Type) [DecidableEq T] : System T (State T) where
  init c := Fresh c.st ∧ (∀ t, c.code t = .ret ()) ∧ c.halted = none
  call _ _ p := Call p
  env _ _ := False

end Xv6.Console
