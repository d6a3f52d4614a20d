import Xv6.Lib.Sum
import Xv6.Log.Model
import Mathlib.Tactic.SplitIfs

/-!
# The invariant of the cache and the log

What every process knows (`Know`), and the invariant that ties that knowledge to
the machine (`Inv`).  The invariant has three parts: the buffer cache, the
outstanding operations, and the disk.  The last depends on how far the process
that commits, or recovers, has come (`Phase`).

The whole argument about crashes is `Recoverable`: at every moment, installing
the log that the header on disk describes would leave in every home block what
the last durable group commit put there.

## Main definitions

* `Tag`, `Phase`, `Know` — what a process knows.
* `Recoverable` — what recovery would produce.
* `BufInv`, `CacheInv`, `OpInv`, `DiskInv`, `Inv` — the invariant.
* `discipline` — the discipline the programs of `Xv6.Log.Model` are proved to keep to.
-/

namespace Xv6.Log

open Conc

/-! ### The header block -/

theorem get_setBlocks_of_le {o i : ℕ} (ho : o ≤ 4 * i) : ∀ (lh : List ℕ) (d : Block),
    Bytes.get 4 (setBlocks d i lh) o = Bytes.get 4 d o := by
  intro lh
  induction lh generalizing i with
  | nil => intro d; rfl
  | cons b bs ih =>
    intro d
    rw [setBlocks, ih (by omega), Bytes.get_set_of_disjoint (by omega)]

theorem get_setBlocks {lh : List ℕ} (hlt : ∀ b ∈ lh, b < 2 ^ 32) : ∀ (d : Block) (i j : ℕ)
    (hj : j < lh.length), Bytes.get 4 (setBlocks d i lh) (4 + 4 * (i + j)) = lh[j] := by
  induction lh with
  | nil => intro d i j hj; simp at hj
  | cons b bs ih =>
    intro d i j hj
    rw [setBlocks]
    cases j with
    | zero =>
      rw [get_setBlocks_of_le (by omega), Nat.add_zero,
        Bytes.get_set_self (by have := hlt b (by simp); omega)]
      rfl
    | succ j =>
      have := ih (fun x hx => hlt x (by simp [hx])) (Bytes.set 4 d (4 + 4 * i) b) (i + 1) j
        (by simpa using hj)
      rw [show i + (j + 1) = i + 1 + j by omega, this]
      rfl

theorem header_setHeader {lh : List ℕ} (hlen : lh.length ≤ LOGBLOCKS)
    (hlt : ∀ b ∈ lh, b < 2 ^ 32) (d : Block) : header (setHeader d lh) = lh := by
  have hn : Bytes.get 4 (setHeader d lh) 0 = lh.length := by
    rw [setHeader, get_setBlocks_of_le (by omega),
      Bytes.get_set_self (by have : LOGBLOCKS = 30 := rfl; omega)]
  unfold header
  rw [hn]
  refine List.ext_getElem (by simp) fun j h1 h2 => ?_
  rw [List.getElem_map, List.getElem_range, setHeader]
  simpa using get_setBlocks hlt (Bytes.set 4 d 0 lh.length) 0 j h2

/-! ### What a process knows -/

/-- What a process knows about a buffer. -/
inductive Hold where
  /-- It does not hold the sleep-lock. -/
  | none
  /-- It holds the sleep-lock, and has not looked at the contents yet. -/
  | locked
  /-- It holds the sleep-lock, the contents are `d`, and are modified or not. -/
  | full (d : Block) (dirty : Bool)

/-- How far a commit or a recovery has come.  `h` is the history it works on and
`lh` the list of blocks. -/
inductive Phase where
  | idle
  /-- `write_log` has written `k` blocks. -/
  | writing (h : List Rec) (lh : List ℕ) (k : ℕ)
  /-- `install_trans` has written `k` blocks and unpinned `u`. -/
  | installing (h : List Rec) (lh : List ℕ) (k u : ℕ)
  /-- Every block is installed; the header is still to be cleared. -/
  | clearing (h : List Rec)
  /-- The header is clear; `log.committing` is still to be reset. -/
  | finishing
  /-- Recovery has not read the header yet. -/
  | boot (h : List Rec)
  /-- Recovery has installed `k` blocks. -/
  | recovering (h : List Rec) (lh : List ℕ) (k : ℕ)
  /-- Recovery has installed every block; the header is still to be cleared. -/
  | recClearing (h : List Rec)
  /-- Recovery has cleared the header. -/
  | recovered

/-- A process's relation to a buffer: its references, the device and block of a
buffer it has references to, and what it knows of the contents. -/
structure Tag where
  refs : ℕ
  ident : ℕ × ℕ
  hold : Hold

/-- What a process knows: its relation to every buffer, the operation it is in,
how far its commit or recovery has come, and whether recovery is over. -/
structure Know where
  tag : Fin NBUF → Tag
  op : Option Op
  phase : Phase
  up : Bool

variable {T : Type}

/-! ### The disk -/

/-- Installing the log described by the header on `disk` leaves the contents
`want` in every home block. -/
structure Recoverable (start : ℕ) (disk : ℕ → Block) (want : ℕ → Block) : Prop where
  short : (header (disk start)).length ≤ LOGBLOCKS
  nodup : (header (disk start)).Nodup
  home : ∀ b ∈ header (disk start), ¬ InLog start b
  logged : ∀ j (hj : j < (header (disk start)).length),
    disk (start + j + 1) = want ((header (disk start))[j])
  other : ∀ b, ¬ InLog start b → b ∉ header (disk start) → disk b = want b

/-- What a reader of the cache sees in a block. -/
def LogDisk.view (img : ℕ → Block) (start : ℕ) (l : LogDisk T) (b : ℕ) : Block :=
  if l.up = true ∧ ¬ InLog start b then replay img l.hist b else l.disk b

/-- The blocks that are pinned in the cache. -/
def LogDisk.pins (l : LogDisk T) : List ℕ := if l.up then l.lh.drop l.unpinned else []

/-- What holds of the log and the disk in each phase. -/
def PhaseOk (img : ℕ → Block) (start : ℕ) (l : LogDisk T) : Phase → Prop
  | .idle => l.up = true ∧ l.committing = false ∧ l.unpinned = 0 ∧ header (l.disk start) = []
  | .writing h lh k => l.up = true ∧ l.committing = true ∧ l.unpinned = 0 ∧
      header (l.disk start) = [] ∧ l.hist = h ∧ l.lh = lh ∧ lh ≠ [] ∧ k ≤ lh.length ∧
      ∀ j (hj : j < lh.length), j < k → l.disk (start + j + 1) = replay img h lh[j]
  | .installing h lh k u => l.up = true ∧ l.committing = true ∧ l.unpinned = u ∧ u ≤ k ∧
      k ≤ lh.length ∧ header (l.disk start) = lh ∧ l.hist = h ∧ l.durable = h ∧ l.lh = lh ∧
      ∀ j (hj : j < lh.length), j < k → l.disk lh[j] = replay img h lh[j]
  | .clearing h => l.up = true ∧ l.committing = true ∧ l.unpinned = 0 ∧ l.hist = h ∧
      l.durable = h ∧ l.lh = [] ∧ ∀ b, ¬ InLog start b → l.disk b = replay img h b
  | .finishing => l.up = true ∧ l.committing = true ∧ l.unpinned = 0 ∧ l.lh = [] ∧
      header (l.disk start) = []
  | .boot h => l.up = false ∧ l.committing = false ∧ l.unpinned = 0 ∧ l.hist = h ∧
      l.durable = h ∧ l.lh = []
  | .recovering h lh k => l.up = false ∧ l.committing = false ∧ l.unpinned = 0 ∧ l.hist = h ∧
      l.durable = h ∧ l.lh = lh ∧ header (l.disk start) = lh ∧ k ≤ lh.length ∧
      ∀ j (hj : j < lh.length), j < k → l.disk lh[j] = replay img h lh[j]
  | .recClearing h => l.up = false ∧ l.committing = false ∧ l.unpinned = 0 ∧ l.hist = h ∧
      l.durable = h ∧ l.lh = [] ∧ ∀ b, ¬ InLog start b → l.disk b = replay img h b
  | .recovered => l.up = false ∧ l.committing = false ∧ l.unpinned = 0 ∧ l.hist = l.durable ∧
      l.lh = [] ∧ header (l.disk start) = []

/-- The phase of the process that commits or recovers, if there is one. -/
def phaseOf (gs : T → Know) : Option T → Phase
  | none => .idle
  | some t => (gs t).phase

/-! ### The invariant -/

variable [Fintype T]

/-- One buffer, and what the processes know of it. -/
structure BufInv (b : Buf T) (dy : Bool) (pins : List ℕ) (view : ℕ → Block) (k : T → Tag) :
    Prop where
  uint : b.blockno < 2 ^ 32
  refcnt : b.refcnt = (∑ t, (k t).refs) + if b.dev = ROOTDEV ∧ b.blockno ∈ pins then 1 else 0
  ident : ∀ t, 0 < (k t).refs → (k t).ident = (b.dev, b.blockno)
  lock : ∀ t, b.lock = some t ↔ (k t).hold ≠ .none
  held : ∀ t, (k t).hold ≠ .none → 0 < (k t).refs
  full : ∀ t d dy', (k t).hold = .full d dy' → b.valid = true ∧ b.data = d ∧ dy = dy'
  dirty : dy = true → ∃ t d, (k t).hold = .full d true
  clean : b.valid = true → b.dev = ROOTDEV → dy = false → b.data = view b.blockno

/-- The buffer cache, with the blocks that are pinned and what readers see. -/
structure CacheInv (c : Cache T) (pins : List ℕ) (view : ℕ → Block) (ks : T → Fin NBUF → Tag) :
    Prop where
  mem_lru : ∀ i, i ∈ c.lru
  uniq : ∀ i j, (c.buf i).dev ≠ 0 → (c.buf i).dev = (c.buf j).dev →
    (c.buf i).blockno = (c.buf j).blockno → i = j
  buf : ∀ i, BufInv (c.buf i) (c.dirty i) pins view fun t => ks t i
  refs : ∀ t i, c.refs t i = (ks t i).refs
  pinned : ∀ b ∈ pins, ∃ i, (c.buf i).dev = ROOTDEV ∧ (c.buf i).blockno = b ∧
    (c.buf i).valid = true

/-- What an operation may still put into the log. -/
def reserve : Option Op → ℕ
  | none => 0
  | some o => MAXOPBLOCKS - o.logged.card

/-- The in-memory log and the outstanding operations. -/
structure OpInv (start : ℕ) (small : Prop) (l : LogDisk T) : Prop where
  nodup : l.lh.Nodup
  short : l.lh.length ≤ LOGBLOCKS
  home : ∀ b ∈ l.lh, ¬ InLog start b ∧ b < 2 ^ 32
  outstanding : l.outstanding = ∑ t, if (l.op t).isSome then 1 else 0
  alone : l.committing = true → l.outstanding = 0
  down : l.up = false → l.outstanding = 0
  logged : ∀ t o, l.op t = some o → ∀ b ∈ o.logged, b ∈ l.lh
  reserved : small → l.lh.length + ∑ t, reserve (l.op t) ≤ LOGBLOCKS
  few : small → ∀ t o, l.op t = some o → o.logged.card ≤ MAXOPBLOCKS

/-- The disk and the history of the run. -/
structure DiskInv (img : ℕ → Block) (start : ℕ) (l : LogDisk T) : Prop where
  recoverable : Recoverable start l.disk (replay img l.durable)
  since : ∀ b, ¬ InLog start b → b ∉ l.lh → replay img l.hist b = replay img l.durable b
  prefixed : l.durable <+: l.hist
  boot : l.boot ≤ l.durable.length
  fresh : l.up = true → ∀ b ∈ l.lh, ∃ r ∈ l.hist.drop l.boot, r.blockno = b
  homes : ∀ r ∈ l.hist, ¬ InLog start r.blockno
  booting : l.up = false → l.hist.length ≤ l.boot
  subset : ∀ r ∈ l.hist, r ∈ l.all
  ids : ∀ r ∈ l.all, r.op < l.nextOp
  opIds : ∀ t o, l.op t = some o → o.id < l.nextOp
  current : ∀ t o, l.op t = some o → ∀ r ∈ l.all, r.op = o.id → r ∈ l.hist
  unfinished : ∀ t o, l.op t = some o → ∀ r ∈ l.durable, r.op ≠ o.id
  whole : ∀ r ∈ l.all, ∀ r' ∈ l.hist, r.op = r'.op → r ∈ l.hist
  wholeDurable : ∀ r ∈ l.all, ∀ r' ∈ l.durable, r.op = r'.op → r ∈ l.durable

/-- A `bread` returned the contents left by the last `log_write` of the block
since boot, or those on the disk if there was none. -/
def Read.Ok (r : Read) : Prop :=
  r.dev = ROOTDEV → r.data = (lastLogged r.since r.blockno).getD r.onDisk

/-- The invariant.  `o` is the process that commits or recovers. -/
structure Inv (img : ℕ → Block) (start : ℕ) (small : Prop) (s : State T) (gs : T → Know) :
    Prop where
  cache : CacheInv s.toCache s.pins (s.view img start) fun t => (gs t).tag
  ops : OpInv start small s.toLogDisk
  disk : DiskInv img start s.toLogDisk
  op : ∀ t, s.op t = (gs t).op
  up : ∀ t, (gs t).up = true → s.up = true
  reads : ∀ r ∈ s.reads, r.Ok
  phase : ∃ o, (∀ t, (gs t).phase ≠ .idle → o = some t) ∧
    PhaseOk img start s.toLogDisk (phaseOf gs o)

/-- What a process knows between two calls. -/
def Know.Idle (g : Know) : Prop := g.phase = .idle ∧ ∀ i, (g.tag i).hold ≠ .locked

/-- No step recycles a buffer that is referred to. -/
def Keeps (s s' : State T) : Prop :=
  ∀ i, 0 < (s.buf i).refcnt →
    (s'.buf i).dev = (s.buf i).dev ∧ (s'.buf i).blockno = (s.buf i).blockno

/-- The discipline of the cache and the log.  A run may end because the cache is
full of referenced buffers or the log of blocks; no other panic can happen. -/
def discipline (T : Type) [Fintype T] (img : ℕ → Block) (start : ℕ) (small : Prop) :
    Discipline T (State T) Know where
  Inv := Inv img start small
  Guar := Keeps
  refl := fun _ _ _ => ⟨rfl, rfl⟩
  idle := Know.Idle
  allow msg := msg = "bget: no buffers" ∨ msg = "too big a transaction"

end Xv6.Log
