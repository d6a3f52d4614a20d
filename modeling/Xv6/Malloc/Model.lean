import Xv6.Lib.Extent
import Xv6.Lib.Links
import Mathlib.Data.BitVec

/-!
# The memory allocator of user programs

`malloc` and `free` of `user/umalloc.c`.  The free blocks are a ring of pointers
that starts and ends at the static header `base`; every block, free or not, has a
header of its own in front of it, and its size is counted in headers.  Addresses
are in bytes, and `0` is the null pointer.

The loops take a bound on the number of their rounds and return `none` when it is
used up.  What `sbrk` answers is given from outside.

## Main definitions

* `State` — the fields of the headers, and `freep`.
* `State.free`, `State.morecore`, `State.malloc` — the functions of the source.
* `Sbrk` — what is assumed of `sbrk`.
* `Reachable` — the states after any sequence of calls.
-/

namespace Xv6.Malloc

open Extent

/-- `sizeof(Header)`. -/
abbrev HEADER : ℕ := 16

/-- The headers in memory, and what was obtained and handed out. -/
structure State where
  /-- `p->s.ptr`. -/
  ptr : ℕ → ℕ
  /-- `p->s.size`, a `uint`. -/
  size : ℕ → ℕ
  freep : ℕ
  /-- The regions obtained from `sbrk`: their start and length in bytes. -/
  regions : List (ℕ × ℕ)
  /-- The blocks handed out and not freed: the address of their header and the number of bytes
  that was asked for. -/
  live : List (ℕ × ℕ)
  /-- What `sbrk` was asked for, the last call first. -/
  asked : List ℤ

namespace State

/-- `p + p->s.size`. -/
def past (s : State) (p : ℕ) : ℕ := p + s.size p * HEADER

/-! ### `free` -/

/-- The loop that looks for the free block before `bp`. -/
def freeLoop (s : State) (bp : ℕ) : ℕ → ℕ → Option ℕ
  | 0, _ => none
  | fuel + 1, p =>
      if bp > p ∧ bp < s.ptr p then some p
      else if p ≥ s.ptr p ∧ (bp > p ∨ bp < s.ptr p) then some p
      else s.freeLoop bp fuel (s.ptr p)

/-- Let `x` point to `y`, or to what follows `y` if the two blocks can be joined. -/
def join (s : State) (x y : ℕ) : State :=
  if s.past x = y then
    { s with
      size := Function.update s.size x ((s.size x + s.size y) % 2 ^ 32)
      ptr := Function.update s.ptr x (s.ptr y) }
  else { s with ptr := Function.update s.ptr x y }

/-- What `free` does once it has found `p`. -/
def link (s : State) (bp p : ℕ) : State :=
  let s := s.join bp (s.ptr p)
  let s := s.join p bp
  { s with freep := p }

def free (s : State) (fuel ap : ℕ) : Option State :=
  let bp := ap - HEADER
  (s.freeLoop bp fuel s.freep).map fun p =>
    { s.link bp p with live := s.live.filter fun e => e.1 ≠ bp }

/-! ### `malloc` -/

/-- An unsigned number passed as an `int`. -/
def toInt (n : ℕ) : ℤ := (BitVec.ofNat 32 n).toInt

/-- `sbrk` is asked for `n` bytes. -/
def ask (s : State) (n : ℤ) : State := { s with asked := n :: s.asked }

/-- The header of a new region, of `nu` units, where `n` bytes were asked for. -/
def grow (s : State) (hp nu : ℕ) (n : ℤ) : State :=
  { s with
    size := Function.update s.size hp nu
    regions := (hp, n.toNat) :: s.regions }

/-- Ask for more memory, and put it in the free list. -/
def morecore (s : State) (sbrk : State → ℤ → Option ℕ) (fuel nu : ℕ) : Option (ℕ × State) :=
  let nu := if nu < 4096 then 4096 else nu
  let n := toInt (nu * HEADER)
  match sbrk s n with
  | none => some (0, s.ask n)
  | some hp =>
      (((s.ask n).grow hp nu n).free fuel (hp + HEADER)).map fun s => (s.freep, s)

/-- Take `nunits` headers from the end of the free block `p`, which comes after `prevp`. -/
def carve (s : State) (nunits prevp p : ℕ) : ℕ × State :=
  if s.size p = nunits then
    (p, { s with ptr := Function.update s.ptr prevp (s.ptr p), freep := prevp })
  else
    let s := { s with size := Function.update s.size p (s.size p - nunits) }
    let p := s.past p
    (p, { s with size := Function.update s.size p nunits, freep := prevp })

/-- The loop of `malloc`. -/
def mallocLoop (sbrk : State → ℤ → Option ℕ) (nbytes nunits : ℕ) :
    ℕ → State → ℕ → ℕ → Option (ℕ × State)
  | 0, _, _, _ => none
  | fuel + 1, s, prevp, p =>
      if nunits ≤ s.size p then
        let (p, s) := s.carve nunits prevp p
        some (p + HEADER, { s with live := (p, nbytes) :: s.live })
      else if p = s.freep then do
        let (q, s) ← s.morecore sbrk fuel nunits
        if q = 0 then return (0, s) else mallocLoop sbrk nbytes nunits fuel s q (s.ptr q)
      else mallocLoop sbrk nbytes nunits fuel s p (s.ptr p)

/-- How many headers are needed for so many bytes and one header. -/
def nunits (nbytes : ℕ) : ℕ := (nbytes + HEADER - 1) / HEADER + 1

/-- The first call makes the ring, with `base` alone in it. -/
def start (s : State) (base : ℕ) : State :=
  if s.freep = 0 then
    { s with
      ptr := Function.update s.ptr base base
      freep := base
      size := Function.update s.size base 0 }
  else s

def malloc (s : State) (base : ℕ) (sbrk : State → ℤ → Option ℕ) (fuel nbytes : ℕ) :
    Option (ℕ × State) :=
  let s := s.start base
  mallocLoop sbrk nbytes (nunits nbytes) fuel s s.freep (s.ptr s.freep)

end State

/-! ### Runs -/

/-- A region above the program's data, where `base` is, that overlaps no earlier one. -/
structure Fresh (base limit : ℕ) (s : State) (a n : ℕ) : Prop where
  above : base + HEADER ≤ a
  apart : ∀ r ∈ s.regions, Apart (a, n) r
  room : total s.regions + n ≤ limit

/-- What is assumed of `sbrk`: it returns a fresh region or fails, on a machine that gives a
program at most `limit` bytes. -/
def Sbrk (base limit : ℕ) (sbrk : State → ℤ → Option ℕ) : Prop :=
  ∀ s n a, sbrk s n = some a → Fresh base limit s a n.toNat

/-- If `malloc(nbytes)` calls `sbrk`, the number of bytes it passes fits in a positive `int`. -/
def Fits (s : State) (nbytes : ℕ) : Prop :=
  State.nunits nbytes * HEADER < 2 ^ 31 ∨
    s.freep ≠ 0 ∧ ∃ d, State.nunits nbytes ≤ s.size (s.ptr^[d] s.freep)

inductive Step (base limit : ℕ) (s : State) : State → Prop where
  | malloc {sbrk : State → ℤ → Option ℕ} {fuel nbytes r : ℕ} {s' : State}
      (hs : Sbrk base limit sbrk) (hn : nbytes < 2 ^ 32) (hf : Fits s nbytes)
      (h : s.malloc base sbrk fuel nbytes = some (r, s')) : Step base limit s s'
  | free {fuel : ℕ} {e : ℕ × ℕ} {s' : State} (he : e ∈ s.live)
      (h : s.free fuel (e.1 + HEADER) = some s') : Step base limit s s'

/-- The states after any sequence of calls. -/
inductive Reachable (base limit : ℕ) : State → Prop where
  | init {s : State} (hf : s.freep = 0) (hr : s.regions = []) (hl : s.live = []) :
      Reachable base limit s
  | step {s s' : State} (h : Reachable base limit s) (hs : Step base limit s s') :
      Reachable base limit s'

end Xv6.Malloc
