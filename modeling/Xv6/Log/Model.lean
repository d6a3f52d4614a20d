import Xv6.Lib.Prog
import Xv6.Param
import Mathlib.Data.Finset.Card

/-!
# The buffer cache and the log

`kernel/bio.c` and `kernel/log.c` as programs of atomic steps.  A step is a
section under `bcache.lock` or `log.lock`, the acquisition or release of a
buffer's sleep-lock, or the transfer of one block to or from the disk.

Processes are the elements of an arbitrary type `T`.  They use the cache and the
log the way the file system does (`Client`): they read blocks at any time, and
inside an operation they modify buffers they hold, pass what they modified to
`log_write` and release it.  Power may fail between any two steps (`crash`):
the disk survives, everything else is lost, and the machine comes back up in
`recover_from_log`.

The fields marked as history are not in the source.  They record what happened,
so that properties of runs can be stated; no step looks at them to decide what
to do, except that clients wait for recovery and keep to their protocol.

## Main definitions

* `State` — the cache, the in-memory log, the disk, and the history of a run.
* `bread`, `bwrite`, `brelse`, `begin_op`, `log_write`, `end_op`, `commit`,
  `recover_from_log` — the functions of the source, under its names.
* `Client`, `machine` — what processes call, and the system they run in.
-/

namespace Xv6.Log

open Conc Function

variable {T : Type} [DecidableEq T]

/-! ### Data -/

/-- `struct buf`.  The sleep-lock is the process that holds it. -/
structure Buf (T : Type) where
  valid : Bool
  dev : ℕ
  blockno : ℕ
  lock : Option T
  refcnt : ℕ
  data : Block

/-- One `log_write`: the operation it belongs to, the block, and its contents. -/
structure Rec where
  op : ℕ
  blockno : ℕ
  data : Block

/-- An operation between `begin_op` and `end_op`. -/
structure Op where
  /-- Distinguishes it from every other operation of the run. -/
  id : ℕ
  /-- The distinct blocks it has passed to `log_write`. -/
  logged : Finset ℕ

/-- The buffer cache.  The last two fields are history. -/
structure Cache (T : Type) where
  /-- `bcache.buf`. -/
  buf : Fin NBUF → Buf T
  /-- The buffers from `bcache.head.next`, most recently used first. -/
  lru : List (Fin NBUF)
  /-- The buffer was modified since it was last logged or written. -/
  dirty : Fin NBUF → Bool
  /-- The references each process has taken by `bget` and not given back. -/
  refs : T → Fin NBUF → ℕ

/-- The in-memory log and the disk.  The fields from `up` on are history. -/
structure LogDisk (T : Type) where
  /-- `log.outstanding`. -/
  outstanding : ℕ
  /-- `log.committing`. -/
  committing : Bool
  /-- The first `log.lh.n` entries of `log.lh.block`. -/
  lh : List ℕ
  /-- The disk. -/
  disk : ℕ → Block
  /-- Recovery has completed. -/
  up : Bool
  /-- The operation each process is in. -/
  op : T → Option Op
  /-- How many buffers the current `install_trans` has unpinned. -/
  unpinned : ℕ
  /-- The number of the next operation. -/
  nextOp : ℕ
  /-- Every `log_write` of the run. -/
  all : List Rec
  /-- The `log_write`s since the beginning that no crash has undone. -/
  hist : List Rec
  /-- `hist` as it was when the last header of a group commit reached the disk. -/
  durable : List Rec
  /-- How much of `hist` is older than the last boot. -/
  boot : ℕ

/-- What a `bread` returned, and what it was to return: the `log_write`s since
the last boot, and the block on the disk. -/
structure Read where
  dev : ℕ
  blockno : ℕ
  data : Block
  since : List Rec
  onDisk : Block

/-- The machine. -/
structure State (T : Type) extends Cache T, LogDisk T where
  /-- Who sleeps on `&log`. -/
  asleep : T → Bool
  /-- Every `bread` of the run that has returned. -/
  reads : List Read

/-- The contents of the disk after a list of `log_write`s, over the image `img`. -/
def replay (img : ℕ → Block) (h : List Rec) : ℕ → Block :=
  h.foldl (fun m r => Function.update m r.blockno r.data) img

@[simp] theorem replay_concat (img : ℕ → Block) (h : List Rec) (r : Rec) :
    replay img (h ++ [r]) = update (replay img h) r.blockno r.data := by
  simp [replay]

theorem replay_append (img : ℕ → Block) (h h' : List Rec) :
    replay img (h ++ h') = replay (replay img h) h' := by
  simp [replay]

/-- The contents left by the last `log_write` of a block, if there is one. -/
def lastLogged (h : List Rec) (b : ℕ) : Option Block :=
  (h.reverse.find? fun r => r.blockno = b).map Rec.data

theorem replay_eq_lastLogged (img : ℕ → Block) (h : List Rec) (b : ℕ) :
    replay img h b = (lastLogged h b).getD (img b) := by
  induction h using List.reverseRecOn with
  | nil => rfl
  | append_singleton h r ih =>
    rw [replay_concat]
    obtain rfl | hr := eq_or_ne r.blockno b
    · simp [lastLogged]
    · rw [update_of_ne (Ne.symm hr), ih]
      simp [lastLogged, hr]

/-- The blocks of the on-disk log: the header at `start` and what follows it. -/
def InLog (start b : ℕ) : Prop := start ≤ b ∧ b ≤ start + LOGBLOCKS

instance (start b : ℕ) : Decidable (InLog start b) := inferInstanceAs (Decidable (_ ∧ _))

/-! ### The header block -/

/-- `lh->block[0..n)` of a header block, with `n = lh->n`. -/
def header (d : Block) : List ℕ :=
  (List.range (Bytes.get 4 d 0)).map fun i => Bytes.get 4 d (4 + 4 * i)

/-- Store block numbers in `hb->block`, from index `i` on. -/
def setBlocks (d : Block) : ℕ → List ℕ → Block
  | _, [] => d
  | i, b :: bs => setBlocks (Bytes.set 4 d (4 + 4 * i) b) (i + 1) bs

/-- Store `lh` in a header block; the entries past its length stay as they were. -/
def setHeader (d : Block) (lh : List ℕ) : Block :=
  setBlocks (Bytes.set 4 d 0 lh.length) 0 lh

/-! ### Updates -/

namespace State

variable (s : State T)

/-- Change one buffer. -/
def setBuf (i : Fin NBUF) (f : Buf T → Buf T) : State T :=
  { s with buf := Function.update s.buf i (f (s.buf i)) }

/-- Change the number of references a process holds on a buffer. -/
def setRefs (t : T) (i : Fin NBUF) (n : ℕ) : State T :=
  { s with refs := Function.update s.refs t (Function.update (s.refs t) i n) }

/-- `wakeup(&log)`. -/
def wakeup : State T := { s with asleep := fun _ => false }

/-- Set the contents of a buffer. -/
def setData (i : Fin NBUF) (d : Block) : State T :=
  { s.setBuf i ({ · with data := d }) with dirty := Function.update s.dirty i true }

/-- A `bread` returns the buffer `i`. -/
def noteRead (i : Fin NBUF) : State T :=
  { s with
    reads := s.reads ++ [⟨(s.buf i).dev, (s.buf i).blockno, (s.buf i).data, s.hist.drop s.boot,
      s.disk (s.buf i).blockno⟩] }

/-- A buffer's contents reach the disk.  Writing the header with a non-empty
`log.lh` is the point at which a group commit becomes durable. -/
def diskWrite (start : ℕ) (i : Fin NBUF) : State T :=
  { s with
    disk := Function.update s.disk (s.buf i).blockno (s.buf i).data
    dirty := Function.update s.dirty i false
    durable := if (s.buf i).blockno = start ∧ s.lh ≠ [] then s.hist else s.durable }

end State

/-! ### bio.c -/

/-- The buffer that caches a block, if any. -/
def State.cached (s : State T) (dev blockno : ℕ) : Option (Fin NBUF) :=
  s.lru.find? fun i => (s.buf i).dev = dev ∧ (s.buf i).blockno = blockno

/-- The least recently used buffer that nobody refers to. -/
def State.unused (s : State T) : Option (Fin NBUF) :=
  s.lru.reverse.find? fun i => (s.buf i).refcnt = 0

/-- `bget`, without the acquisition of the buffer's sleep-lock at its end. -/
def bget (dev blockno : ℕ) : Prog T (State T) (Fin NBUF) :=
  .atomic fun t s =>
    match s.cached dev blockno with
    | some i =>
        some (.done i ((s.setBuf i fun b => { b with refcnt := b.refcnt + 1 }).setRefs t i
          (s.refs t i + 1)))
    | none =>
        match s.unused with
        | some i =>
            some (.done i ((s.setBuf i fun b =>
              { b with dev := dev, blockno := blockno, valid := false, refcnt := 1 }).setRefs t i
                (s.refs t i + 1)))
        | none => some (.panic "bget: no buffers")

/-- `acquiresleep(&b->lock)`. -/
def acquiresleep (i : Fin NBUF) : Prog T (State T) Unit :=
  .atomic fun t s =>
    match (s.buf i).lock with
    | none => some (.done () (s.setBuf i ({ · with lock := some t })))
    | some _ => none

/-- The end of `bread`: read the block from the disk unless the buffer is valid. -/
def fill (i : Fin NBUF) : Prog T (State T) Unit :=
  .act fun _ s =>
    (if (s.buf i).valid then s
    else s.setBuf i fun b => { b with data := s.disk b.blockno, valid := true }).noteRead i

/-- Return a locked buffer with the contents of the indicated block. -/
def bread (dev blockno : ℕ) : Prog T (State T) (Fin NBUF) := do
  let i ← bget dev blockno
  acquiresleep i
  fill i
  return i

/-- Write a buffer's contents to disk.  Must be locked. -/
def bwrite (start : ℕ) (i : Fin NBUF) : Prog T (State T) Unit :=
  .atomic fun t s =>
    if (s.buf i).lock = some t then some (.done () (s.diskWrite start i))
    else some (.panic "bwrite")

/-- `releasesleep(&b->lock)`, after the check that the caller holds it. -/
def releasesleep (i : Fin NBUF) : Prog T (State T) Unit :=
  .atomic fun t s =>
    if (s.buf i).lock = some t then some (.done () (s.setBuf i ({ · with lock := none })))
    else some (.panic "brelse")

/-- The section of `brelse` under `bcache.lock`: give back the reference, and
move a buffer nobody refers to any more to the head of the list. -/
def State.unref (t : T) (i : Fin NBUF) (s : State T) : State T :=
  let s' := (s.setBuf i fun b => { b with refcnt := b.refcnt - 1 }).setRefs t i (s.refs t i - 1)
  if (s'.buf i).refcnt = 0 then { s' with lru := i :: s'.lru.erase i } else s'

/-- Release a locked buffer. -/
def brelse (i : Fin NBUF) : Prog T (State T) Unit := do
  releasesleep i
  .act fun t s => s.unref t i

/-- Drop the extra reference that keeps a logged buffer in the cache. -/
def bunpin (i : Fin NBUF) : Prog T (State T) Unit :=
  .act fun _ s =>
    { s.setBuf i fun b => { b with refcnt := b.refcnt - 1 } with unpinned := s.unpinned + 1 }

/-! ### log.c -/

/-- `memmove(to->data, from->data, BSIZE)`. -/
def memmove (dst src : Fin NBUF) : Prog T (State T) Unit :=
  .act fun _ s => s.setData dst (s.buf src).data

/-- `log.lh.n = 0`. -/
def clearHead : Prog T (State T) Unit :=
  .act fun _ s => { s with lh := [], unpinned := 0 }

/-- `if(recovering == 0) bunpin(dbuf)`. -/
def unpin (recovering : Bool) (dbuf : Fin NBUF) : Prog T (State T) Unit :=
  if recovering then pure () else bunpin dbuf

/-- The loop of `install_trans`, from index `tail` on. -/
def installFrom (start : ℕ) (recovering : Bool) : ℕ → List ℕ → Prog T (State T) Unit
  | _, [] => pure ()
  | tail, b :: bs => do
      let lbuf ← bread ROOTDEV (start + tail + 1)
      let dbuf ← bread ROOTDEV b
      memmove dbuf lbuf
      bwrite start dbuf
      unpin recovering dbuf
      brelse lbuf
      brelse dbuf
      installFrom start recovering (tail + 1) bs

/-- Copy committed blocks from the log to their home location. -/
def install_trans (start : ℕ) (recovering : Bool) : Prog T (State T) Unit := do
  let lh ← .look fun s => s.lh
  installFrom start recovering 0 lh

/-- Read the log header from disk into the in-memory log header. -/
def read_head (start : ℕ) : Prog T (State T) Unit := do
  let buf ← bread ROOTDEV start
  .act fun _ s => { s with lh := header (s.buf buf).data }
  brelse buf

/-- Write the in-memory log header to disk. -/
def write_head (start : ℕ) : Prog T (State T) Unit := do
  let buf ← bread ROOTDEV start
  .act fun _ s => s.setData buf (setHeader (s.buf buf).data s.lh)
  bwrite start buf
  brelse buf

def recover_from_log (start : ℕ) : Prog T (State T) Unit := do
  read_head start
  install_trans start true
  clearHead
  write_head start

/-- Called at the start of each file-system call. -/
def begin_op : Prog T (State T) Unit :=
  .atomic fun t s =>
    if s.asleep t then none
    else if s.committing then
      some (.again { s with asleep := Function.update s.asleep t true })
    else if s.lh.length + (s.outstanding + 1) * MAXOPBLOCKS > LOGBLOCKS then
      some (.again { s with asleep := Function.update s.asleep t true })
    else
      some (.done () { s with
        outstanding := s.outstanding + 1
        op := Function.update s.op t (some ⟨s.nextOp, ∅⟩)
        nextOp := s.nextOp + 1 })

/-- The loop of `write_log`, from index `tail` on. -/
def writeFrom (start : ℕ) : ℕ → List ℕ → Prog T (State T) Unit
  | _, [] => pure ()
  | tail, b :: bs => do
      let dst ← bread ROOTDEV (start + tail + 1)
      let src ← bread ROOTDEV b
      memmove dst src
      bwrite start dst
      brelse src
      brelse dst
      writeFrom start (tail + 1) bs

/-- Copy modified blocks from the cache to the log. -/
def write_log (start : ℕ) : Prog T (State T) Unit := do
  let lh ← .look fun s => s.lh
  writeFrom start 0 lh

def commit (start : ℕ) : Prog T (State T) Unit := do
  let lh ← .look fun s => s.lh
  if lh.length > 0 then
    write_log start
    write_head start
    install_trans start false
    clearHead
    write_head start

/-- The first section of `end_op`: whether the caller has to commit. -/
def endSection : Prog T (State T) Bool :=
  .atomic fun t s =>
    let s' := { s with outstanding := s.outstanding - 1, op := Function.update s.op t none }
    if s.committing then some (.panic "log.committing")
    else if s'.outstanding = 0 then some (.done true { s' with committing := true })
    else some (.done false s'.wakeup)

/-- Called at the end of each file-system call; commits if this was the last
outstanding operation. -/
def end_op (start : ℕ) : Prog T (State T) Unit := do
  let do_commit ← endSection
  if do_commit then
    commit start
    .act fun _ s => { s with committing := false }.wakeup

/-- What `log_write` leaves for `install_trans` and for recovery to find. -/
def State.logRec (t : T) (i : Fin NBUF) (s : State T) : State T :=
  match s.op t with
  | none => s
  | some o =>
      let r : Rec := ⟨o.id, (s.buf i).blockno, (s.buf i).data⟩
      { s with
        op := Function.update s.op t (some { o with logged := insert (s.buf i).blockno o.logged })
        dirty := Function.update s.dirty i false
        all := s.all ++ [r]
        hist := s.hist ++ [r] }

/-- Record a modified buffer in the log and pin it in the cache. -/
def log_write (i : Fin NBUF) : Prog T (State T) Unit :=
  .atomic fun t s =>
    if s.lh.length ≥ LOGBLOCKS then some (.panic "too big a transaction")
    else if s.outstanding < 1 then some (.panic "log_write outside of trans")
    else if (s.buf i).blockno ∈ s.lh then some (.done () (s.logRec t i))
    else
      some (.done () { (s.logRec t i).setBuf i fun b => { b with refcnt := b.refcnt + 1 } with
        lh := s.lh ++ [(s.buf i).blockno] })

/-! ### Clients, crashes, and the machine -/

/-- The first process of a booting machine recovers the log; others wait. -/
def bootCode (start : ℕ) (t0 : T) : T → Prog T (State T) Unit :=
  Function.update (fun _ => pure ()) t0 do
    recover_from_log start
    .act fun _ s => { s with up := true }

/-- What a process may call next.  `small` asks that an operation logs at most
`MAXOPBLOCKS` distinct blocks. -/
inductive Client (start : ℕ) (small : Prop) (t : T) (s : State T) :
    Prog T (State T) Unit → Prop where
  | begin_op (hup : s.up = true) (hop : s.op t = none) : Client start small t s Log.begin_op
  | bread (hup : s.up = true) (dev blockno : ℕ) (hb : blockno < 2 ^ 32) :
      Client start small t s do
        let _ ← Log.bread dev blockno
        pure ()
  | modify (i : Fin NBUF) (d : Block) (hop : s.op t ≠ none) (hl : (s.buf i).lock = some t)
      (hd : (s.buf i).dev = ROOTDEV) (hb : ¬ InLog start (s.buf i).blockno) :
      Client start small t s (.act fun _ s => s.setData i d)
  | log_write (i : Fin NBUF) (o : Op) (hop : s.op t = some o) (hl : (s.buf i).lock = some t)
      (hd : (s.buf i).dev = ROOTDEV) (hb : ¬ InLog start (s.buf i).blockno)
      (hsmall : small → (s.buf i).blockno ∈ o.logged ∨ o.logged.card < MAXOPBLOCKS) :
      Client start small t s (Log.log_write i)
  | brelse (i : Fin NBUF) (hl : (s.buf i).lock = some t) (hd : s.dirty i = false) :
      Client start small t s (Log.brelse i)
  | end_op (hop : s.op t ≠ none) : Client start small t s (Log.end_op start)

/-- The cache as `binit` leaves it. -/
def coldBuf : Buf T := ⟨false, 0, 0, none, 0, fun _ => 0⟩

/-- A machine that has just been switched on, with a given disk. -/
def State.cold (disk : ℕ → Block) : State T where
  buf := fun _ => coldBuf
  lru := (List.finRange NBUF).reverse
  outstanding := 0
  committing := false
  lh := []
  asleep := fun _ => false
  reads := []
  disk := disk
  up := false
  op := fun _ => none
  dirty := fun _ => false
  refs := fun _ _ => 0
  unpinned := 0
  nextOp := 0
  all := []
  hist := []
  durable := []
  boot := 0

/-- A power failure: the disk survives; of the history, what was durable. -/
def State.crash (s : State T) : State T :=
  { State.cold s.disk with
    nextOp := s.nextOp, all := s.all, hist := s.durable, durable := s.durable,
    boot := s.durable.length, reads := s.reads }

/-- The machine on an image whose log is empty. -/
def machine (T : Type) [DecidableEq T] (start : ℕ) (img : ℕ → Block) (small : Prop) :
    System T (State T) where
  init c := ∃ t0, c = ⟨.cold img, bootCode start t0, none⟩
  call := fun t s p => Client start small t s p
  env c c' := ∃ t0, c' = ⟨c.st.crash, bootCode start t0, none⟩

end Xv6.Log
