import Xv6.Fs.Format
import Xv6.Fs.Write
import Mathlib.Data.Finset.Insert

/-!
# Which blocks are logged

A function that has changed a block in its buffer has to pass it to `log_write`
before it releases the buffer; otherwise the buffer shows something that never gets
to the disk, until it is recycled.  Here the functions on the way of `writei` are
given with their calls of `log_write`, over a state that has the contents of the
disk beside the buffers.  Without those calls they are the functions of
`Xv6.Fs.Model` (`erases_writei`).

`writei` logs a block after a round.  A round that cannot fetch all of its bytes has
changed the buffer all the same, as far as it came, and releases it without logging
it.

## Main definitions

* `Buffers` — the buffers, the disk, and which blocks have been logged.
* `bzero`, `balloc`, `bmap`, `writei` — the functions with their calls of `log_write`.
* `Logs` — what a function that logs all its changes does.
* `Buffers.Clean` — every block of a file is logged or as on disk.
* `Harmless` — the bytes that can be fetched of the last block are those it has.

## Main results

* `erases_writei` — `log_write` apart, `writei` is that of the model.
* `partial_copy_harmless_iff` — **when a `writei` that fails halfway does no harm.**
-/

namespace Xv6.Fs.Logged

open Conc Function

/-! ### The functions -/

/-- A block that is passed to `log_write`: one of a file, or one of the free map or inodes. -/
inductive Entry where
  | block (b : ℕ)
  | map (i : ℕ)
  | inode (i : ℕ)
  deriving DecidableEq

/-- Its number. -/
def Entry.blockno (sb : RawSb) : Entry → ℕ
  | .block b => b
  | .map i => i + sb.bmapstart
  | .inode i => i + sb.inodestart

/-- Buffers over a disk. -/
@[ext] structure Buffers where
  /-- What the buffers show. -/
  state : State
  /-- What is on disk. -/
  disk : ℕ → Block
  /-- The blocks that `log_write` was called for. -/
  logged : Finset Entry

def Buffers.withState (x : Buffers) (s : State) : Buffers := { x with state := s }

def Buffers.log (x : Buffers) (b : Entry) : Buffers := { x with logged := insert b x.logged }

abbrev BufM := Prog (Fin NPROC) Buffers

variable {α : Type}

/-- What the functions do to the buffers. -/
def buffered (p : FsM α) : BufM α := p.zoom Buffers.state fun s x => x.withState s

def log_write (b : Entry) : BufM Unit := .act fun _ x => x.log b

/-- Zero a block. -/
def bzero (bno : ℕ) : BufM Unit := do
  buffered (Fs.bzero bno)
  log_write (.block bno)

/-- The loop of `balloc`. -/
def ballocFrom : ℕ → ℕ → BufM ℕ
  | 0, _ => pure 0
  | n + 1, b => do
      match ← buffered (ballocIn b) with
      | some x => do
          log_write (.map (b / BPB))
          bzero x
          pure x
      | none => ballocFrom n (b + BPB)

/-- Allocate a zeroed block; 0 if the disk is full. -/
def balloc : BufM ℕ := do
  let sb ← buffered (.look fun s => s.sb)
  ballocFrom ((sb.size + BPB - 1) / BPB) 0

/-- `ip->addrs[k]`, allocating a block if there is none. -/
def addrOf (e : Fin NINODE) (k : ℕ) : BufM ℕ := do
  let ip ← buffered (getInode e)
  if ip.addrs k = 0 then do
    let addr ← balloc
    if addr = 0 then pure 0
    else do
      buffered (modifyInode e fun ip => { ip with addrs := Function.update ip.addrs k addr })
      pure addr
  else pure (ip.addrs k)

/-- The address of block `bn` of an inode, allocating it if there is none. -/
def bmap (e : Fin NINODE) (bn : ℕ) : BufM ℕ :=
  if bn < NDIRECT then addrOf e bn
  else if bn - NDIRECT < NINDIRECT then do
    let ind ← addrOf e NDIRECT
    if ind = 0 then pure 0
    else do
      let addr ← buffered (.look fun s => entry (s.block ind) (bn - NDIRECT))
      if addr = 0 then do
        let addr ← balloc
        if addr = 0 then pure 0
        else do
          buffered (.act fun _ s =>
            s.setBlock ind (Bytes.set 4 (s.block ind) (4 * (bn - NDIRECT)) addr))
          log_write (.block ind)
          pure addr
      else pure addr
  else .stop "bmap: out of range"

/-- The loop of `writei`; the buffer is not logged if the fetch fails. -/
def writeFrom (e : Fin NINODE) (src : ℕ → Option UInt8) (off n : ℕ) : ℕ → ℕ → BufM ℕ
  | 0, tot => pure tot
  | k + 1, tot =>
      if tot < n then do
        let o := off + tot
        let addr ← bmap e (o / BSIZE)
        if addr = 0 then pure tot
        else do
          let m := min (n - tot) (BSIZE - o % BSIZE)
          buffered (.act fun _ s => s.setBlock addr
            (Bytes.write (s.block addr) (o % BSIZE) (fetch src tot m)))
          if (fetch src tot m).length = m then do
            log_write (.block addr)
            writeFrom e src off n k (tot + m)
          else pure tot
      else pure tot

/-- Copy an inode in memory to disk. -/
def iupdate (e : Fin NINODE) : BufM Unit := do
  let ip ← buffered (getInode e)
  buffered (Fs.iupdate e)
  log_write (.inode (ip.inum / IPB))

/-- Write to an inode; how many bytes, or -1. -/
def writei (e : Fin NINODE) (src : ℕ → Option UInt8) (off n : ℕ) : BufM ℤ := do
  let ip ← buffered (getInode e)
  if off > ip.size ∨ (off + n) % 2 ^ 32 < off then pure (-1)
  else if off + n > MAXFILE * BSIZE then pure (-1)
  else do
    let tot ← writeFrom e src off n n 0
    buffered (modifyInode e fun ip => { ip with size := max ip.size (off + tot) })
    iupdate e
    pure tot

/-! ### They are the functions of the model -/

variable {e : Fin NINODE} {k bn off n : ℕ} {src : ℕ → Option UInt8}

theorem erases_buffered (p : FsM α) : Erases Buffers.state (buffered p) p :=
  erases_zoom (fun _ _ => rfl) p

theorem erases_log_write {b : Entry} : Erases Buffers.state (log_write b) (pure ()) :=
  fun _ _ => rfl

theorem erases_bzero (bno : ℕ) : Erases Buffers.state (bzero bno) (Fs.bzero bno) :=
  Erases.bind (f := fun _ => pure ()) (erases_buffered _) fun _ => erases_log_write

theorem erases_ballocFrom (n : ℕ) :
    ∀ b, Erases Buffers.state (ballocFrom n b) (Fs.ballocFrom n b) := by
  induction n with
  | zero => exact fun _ => .pure
  | succ n ih =>
    intro b
    refine (erases_buffered _).bind fun r => ?_
    cases r with
    | none => exact ih _
    | some x => exact .silent erases_log_write ((erases_bzero x).bind fun _ => .pure)

theorem erases_balloc : Erases Buffers.state balloc Fs.balloc :=
  (erases_buffered _).bind fun _ => erases_ballocFrom _ _

theorem erases_addrOf : Erases Buffers.state (addrOf e k) (Fs.addrOf e k) := by
  refine (erases_buffered _).bind fun ip => ?_
  split_ifs
  · refine erases_balloc.bind fun addr => ?_
    split_ifs
    · exact .pure
    · exact (erases_buffered _).bind fun _ => .pure
  · exact .pure

theorem erases_bmap : Erases Buffers.state (bmap e bn) (Fs.bmap e bn) := by
  unfold bmap Fs.bmap
  split_ifs
  · exact erases_addrOf
  · refine erases_addrOf.bind fun ind => ?_
    split_ifs
    · exact .pure
    refine (erases_buffered _).bind fun addr => ?_
    split_ifs
    · refine erases_balloc.bind fun addr => ?_
      split_ifs
      · exact .pure
      · exact (erases_buffered _).bind fun _ => .silent erases_log_write .pure
    · exact .pure
  · exact .stop

theorem erases_writeFrom (k : ℕ) : ∀ tot,
    Erases Buffers.state (writeFrom e src off n k tot) (Fs.writeFrom e src off n k tot) := by
  induction k with
  | zero => exact fun _ => .pure
  | succ k ih =>
    intro tot
    unfold writeFrom Fs.writeFrom
    split_ifs
    · refine erases_bmap.bind fun addr => ?_
      split_ifs
      · exact .pure
      refine (erases_buffered _).bind fun _ => ?_
      split_ifs
      · exact .silent erases_log_write (ih _)
      · exact .pure
    · exact .pure

theorem erases_iupdate : Erases Buffers.state (iupdate e) (Fs.iupdate e) :=
  Erases.bind (f := fun _ => Fs.iupdate e >>= fun _ => pure ()) (p := getInode e)
    (erases_buffered _) fun _ =>
      Erases.bind (f := fun _ => pure ()) (erases_buffered _) fun _ => erases_log_write

/-- **Without its calls of `log_write`, `writei` is that of the model.** -/
theorem erases_writei : Erases Buffers.state (writei e src off n) (Fs.writei e src off n) := by
  refine (erases_buffered _).bind fun ip => ?_
  split_ifs
  · exact .pure
  · exact .pure
  · refine (erases_writeFrom n 0).bind fun tot => ?_
    exact (erases_buffered _).bind fun _ => erases_iupdate.bind fun _ => .pure

/-! ### What is logged -/

variable {allow : String → Prop} {t : Fin NPROC} {x x' x'' : Buffers} {σ : Slot} {a b : ℕ}

variable {Q : α → Buffers → Prop}

theorem ends_buffered {p : FsM α}
    (h : Ends allow t p x.state fun a s => Q a (x.withState s)) :
    Ends allow t (buffered p) x Q := by
  unfold buffered
  refine ends_zoom ?_ ?_ ?_ h
  · exact fun _ _ => rfl
  · exact fun _ _ _ => rfl
  · exact fun _ => rfl

theorem ends_buffered_look {ρ : Type} {f : State → ρ} {q : ρ → BufM α} :
    Ends allow t (buffered (.look f) >>= q) x Q ↔ Ends allow t (q (f x.state)) x Q := Iff.rfl

theorem ends_buffered_act {f : Fin NPROC → State → State} {q : Unit → BufM α} :
    Ends allow t (buffered (.act f) >>= q) x Q ↔
      Ends allow t (q ()) (x.withState (f t x.state)) Q := Iff.rfl

theorem ends_log_write {c : Entry} {q : Unit → BufM α} :
    Ends allow t (log_write c >>= q) x Q ↔ Ends allow t (q ()) (x.log c) Q := Iff.rfl

theorem ends_iupdate {q : Unit → BufM α} :
    Ends allow t (iupdate e >>= q) x Q ↔ Ends allow t (q ())
      ((x.withState (x.state.setDinode (x.state.inode e).inum (x.state.inode e).toDinode)).log
        (.inode ((x.state.inode e).inum / IPB))) Q := Iff.rfl

/-- What a function does to the log.  The blocks that it has changed or allocated are logged, but
for those of the slots of `X`.  What it has logged belongs to slots of `J`: to such as have got
their blocks, then also to the free map, or to those of `W`, which it has written to. -/
structure Logs (e : Fin NINODE) (J W X : Slot → Prop) (x x' : Buffers) : Prop where
  disk : x'.disk = x.disk
  mono : x.logged ⊆ x'.logged
  changed : ∀ b, x'.state.block b ≠ x.state.block b →
    .block b ∈ x'.logged ∨ ∃ σ, X σ ∧ x'.state.mapOf e σ = b ∧ b ≠ 0
  new : ∀ b, x.state.bit b = false → x'.state.bit b = true → .block b ∈ x'.logged
  only : ∀ c ∈ x'.logged, c ∈ x.logged ∨ ∃ σ, J σ ∧ x'.state.mapOf e σ ≠ 0 ∧
    (x.state.mapOf e σ = 0 ∧ c = .map (x'.state.mapOf e σ / BPB) ∨
      (x.state.mapOf e σ = 0 ∨ W σ) ∧ c = .block (x'.state.mapOf e σ))

variable {J J' W W' X X' : Slot → Prop}

theorem Logs.refl : Logs e J W X x x where
  disk := rfl
  mono := Finset.Subset.refl _
  changed _ h := absurd rfl h
  new b h h' := by
    rw [h] at h'
    cases h'
  only _ h := Or.inl h

theorem Logs.weaken (h : Logs e J W X x x') (hJ : ∀ σ, J σ → J' σ) (hW : ∀ σ, W σ → W' σ)
    (hX : ∀ σ, X σ → X' σ) : Logs e J' W' X' x x' where
  disk := h.disk
  mono := h.mono
  changed b hb := (h.changed b hb).imp_right fun ⟨σ, hσ, hb⟩ => ⟨σ, hX σ hσ, hb⟩
  new := h.new
  only c hc := (h.only c hc).imp_right fun ⟨σ, hσ, h0, hc⟩ =>
    ⟨σ, hJ σ hσ, h0, hc.imp_right (And.imp_left (Or.imp_right (hW σ)))⟩

theorem Logs.trans (h : Logs e J W X x x') (h' : Logs e J W X x' x'')
    (hk : Keeps e x.state x'.state) (hk' : Keeps e x'.state x''.state) : Logs e J W X x x'' where
  disk := h'.disk.trans h.disk
  mono := h.mono.trans h'.mono
  changed b hb := by
    by_cases hc : x'.state.block b = x.state.block b
    · exact h'.changed b (by rwa [hc])
    · refine (h.changed b hc).imp (fun hl => h'.mono hl) fun ⟨σ, hσ, hmap, h0⟩ => ?_
      exact ⟨σ, hσ, (hk'.map σ (by rwa [hmap])).trans hmap, h0⟩
  new b hb hb' := by
    cases hm : x'.state.bit b with
    | false => exact h'.new b hm hb'
    | true => exact h'.mono (h.new b hb hm)
  only c hc := by
    rcases h'.only c hc with hc | ⟨σ, hσ, h0, hc⟩
    · refine (h.only c hc).imp_right fun ⟨σ, hσ, h0, hc⟩ => ⟨σ, hσ, ?_⟩
      rw [hk'.map σ h0]
      exact ⟨h0, hc⟩
    · -- a slot that is empty now has always been empty
      have hold : x'.state.mapOf e σ = 0 → x.state.mapOf e σ = 0 := by
        intro hnow
        by_contra hne
        exact hne ((hk.map σ hne).symm.trans hnow)
      exact Or.inr ⟨σ, hσ, h0, hc.imp (And.imp_left hold) (And.imp_left (Or.imp_left hold))⟩

/-- What `balloc` does to the buffers; the block that it allocates is logged, and the block of the
free map that has its bit. -/
def AllocLogs (x : Buffers) (a : ℕ) (x' : Buffers) : Prop :=
  (a = 0 ∧ x' = x) ∨ (a ≠ 0 ∧ x.state.bit a = false ∧ a < x.state.sb.size ∧
    x' = ((x.withState (x.state.allocated a)).log (.map (a / BPB))).log (.block a))

/-- The loop of `balloc`; the induction is on the blocks of the map that are left. -/
theorem ends_ballocFrom_logged (h0 : x.state.bit 0 = true) (n : ℕ) :
    ∀ q, Ends allow t (ballocFrom n (q * BPB)) x (AllocLogs x) := by
  induction n with
  | zero => exact fun _ => Or.inl ⟨rfl, rfl⟩
  | succ n ih =>
    intro q
    rw [ballocFrom]
    have hin : Ends allow t (buffered (ballocIn (q * BPB))) x fun r x' => (r = none ∧ x' = x) ∨
        ∃ a, r = some a ∧ x.state.firstFree (q * BPB) = some a ∧
          x' = x.withState (x.state.setBit a true) := by
      refine ends_buffered ?_
      unfold ballocIn Prog.atomic
      rw [ends_step]
      cases hfree : x.state.firstFree (q * BPB) with
      | none => exact Or.inl ⟨rfl, rfl⟩
      | some a => exact Or.inr ⟨a, rfl, rfl, rfl⟩
    refine hin.bind fun r x' hr => ?_
    rcases hr with ⟨rfl, rfl⟩ | ⟨a, rfl, hfree, rfl⟩
    · rw [← Nat.succ_mul]
      exact ih (q + 1)
    · obtain ⟨ha, hlt, -⟩ := firstFree_some hfree
      -- its bit is in the block of the map that was looked at
      have hmem : q * 8192 ≤ a ∧ a < q * 8192 + min 8192 _ :=
        List.mem_range'_1.mp (List.mem_of_find?_eq_some hfree)
      have hq : q * BPB / BPB = a / BPB := by
        show q * 8192 / 8192 = a / 8192
        omega
      refine Or.inr ⟨?_, ha, hlt, ?_⟩
      · rintro rfl
        rw [h0] at ha
        cases ha
      · rw [← hq]
        rfl

/-- **`balloc` logs the block that it allocates.** -/
theorem ends_balloc_logged (h0 : x.state.bit 0 = true) : Ends allow t balloc x (AllocLogs x) := by
  unfold balloc
  rw [ends_buffered_look, ← Nat.zero_mul BPB]
  exact ends_ballocFrom_logged h0 _ 0

/-- One block was allocated for a slot, and possibly the indirect block was changed. -/
theorem Logs.alloc (ind : Option ℕ) (hσ : J σ) (h0 : x.state.mapOf e σ = 0)
    (ha : x'.state.mapOf e σ = a) (ha0 : a ≠ 0) (hdisk : x'.disk = x.disk)
    (hbit : x'.state.bit = update x.state.bit a true)
    (hlog : ∀ c, c ∈ x'.logged ↔ c ∈ x.logged ∨ c = .block a ∨ c = .map (a / BPB) ∨
      ∃ i, ind = some i ∧ c = .block i)
    (hblk : ∀ b, b ≠ a → ind ≠ some b → x'.state.block b = x.state.block b)
    (hind : ∀ i, ind = some i → J .ind ∧ W .ind ∧ x'.state.mapOf e .ind = i ∧ i ≠ 0) :
    Logs e J W X x x' where
  disk := hdisk
  mono c hc := (hlog c).mpr (Or.inl hc)
  changed b hb := by
    refine Or.inl ((hlog _).mpr ?_)
    by_contra hc
    refine hb (hblk b (fun h => hc ?_) fun h => hc ?_)
    · exact Or.inr (Or.inl (congrArg _ h))
    · exact Or.inr (Or.inr (Or.inr ⟨b, h, rfl⟩))
  new b hb hb' := by
    refine (hlog _).mpr (Or.inr (Or.inl (congrArg _ ?_)))
    by_contra hne
    rw [hbit, update_of_ne hne, hb] at hb'
    cases hb'
  only c hc := by
    refine ((hlog c).mp hc).imp_right fun hc => ?_
    rcases hc with rfl | rfl | ⟨i, hi, rfl⟩
    · exact ⟨σ, hσ, ha.trans_ne ha0, Or.inr ⟨Or.inl h0, by rw [ha]⟩⟩
    · exact ⟨σ, hσ, ha.trans_ne ha0, Or.inl ⟨h0, by rw [ha]⟩⟩
    · obtain ⟨hJ, hW, hmap, hi0⟩ := hind i hi
      exact ⟨.ind, hJ, hmap.trans_ne hi0, Or.inr ⟨Or.inr hW, by rw [hmap]⟩⟩

theorem Logs.put {s : State} (hJ : J σ) (hW : W σ) (ha : s.mapOf e σ = a) (ha0 : a ≠ 0)
    (hbit : s.bit = x.state.bit) (hblk : ∀ b, b ≠ a → s.block b = x.state.block b) :
    Logs e J W X x ((x.withState s).log (.block a)) where
  disk := rfl
  mono := Finset.subset_insert _ _
  changed b hb := by
    refine Or.inl (Finset.mem_insert.mpr (Or.inl (congrArg _ ?_)))
    exact not_ne_iff.mp fun hne => hb (hblk b hne)
  new b hb hb' := by
    rw [← hbit] at hb
    exact absurd (hb.symm.trans hb') (by simp)
  only c hc := by
    refine (Finset.mem_insert.mp hc).symm.imp_right fun hc => ?_
    exact ⟨σ, hJ, ha.trans_ne ha0, Or.inr ⟨Or.inr hW, hc.trans (congrArg _ ha.symm)⟩⟩

theorem Logs.unlogged {s : State} (hX : X σ) (ha : s.mapOf e σ = a) (ha0 : a ≠ 0)
    (hbit : s.bit = x.state.bit) (hblk : ∀ b, b ≠ a → s.block b = x.state.block b) :
    Logs e J W X x (x.withState s) where
  disk := rfl
  mono := Finset.Subset.refl _
  changed b hb := by
    obtain rfl : b = a := not_ne_iff.mp fun hne => hb (hblk b hne)
    exact Or.inr ⟨σ, hX, ha, ha0⟩
  new b hb hb' := by
    rw [← hbit] at hb
    exact absurd (hb.symm.trans hb') (by simp)
  only _ hc := Or.inl hc

theorem logs_addrOf (h : Tidy e x.state) (hk : AddrSlot k σ) :
    Ends allow t (addrOf e k) x fun _ x' => Logs e (· = σ) (· = .ind) (fun _ => False) x x' := by
  unfold addrOf getInode
  rw [ends_buffered_look]
  by_cases h0 : (x.state.inode e).addrs k = 0
  · rw [if_pos h0]
    refine (ends_balloc_logged h.boot).bind fun a x1 hr => ?_
    rcases hr with ⟨rfl, rfl⟩ | ⟨ha0, ha, hlt, rfl⟩
    · exact Logs.refl
    rw [if_neg ha0]
    unfold modifyInode
    rw [ends_buffered_act, ends_pure]
    have hmap := (Edits.setAddr 0 0 h hk h0 ha ha0 hlt rfl).2
    refine Logs.alloc (a := a) none rfl (hk.map.trans h0) hmap ha0 rfl rfl (fun c => ?_)
      (fun b hb _ => update_of_ne hb _ _) (by simp)
    simp [Buffers.log, Buffers.withState, or_comm, or_left_comm]
  · rw [if_neg h0, ends_pure]
    exact Logs.refl

/-- **`bmap` logs what it changes.** -/
theorem logs_bmap (h : Tidy e x.state) (hbn : bn < MAXFILE) :
    Ends allow t (bmap e bn) x fun _ x' =>
      Logs e (fun σ => σ = .ind ∨ σ = .data bn) (· = .ind) (fun _ => False) x x' := by
  unfold bmap
  by_cases hd : bn < NDIRECT
  · rw [if_pos hd]
    exact (logs_addrOf h (Or.inl ⟨hd, rfl⟩)).mono fun _ x' hx' =>
      hx'.weaken (fun _ => Or.inr) (fun _ => id) fun _ => id
  obtain ⟨j, rfl⟩ := Nat.exists_eq_add_of_le (not_lt.mp hd)
  have hj : j < NINDIRECT := Nat.lt_of_add_lt_add_left hbn
  rw [if_neg hd, Nat.add_sub_cancel_left, if_pos hj]
  have hslot : AddrSlot NDIRECT .ind := Or.inr ⟨rfl, rfl⟩
  -- first the indirect block, then its entry
  have hfirst : Ends allow t (addrOf e NDIRECT) x _ := logs_addrOf h hslot
  refine ((erases_addrOf.ends (ends_addrOf_alloc h hslot)).and hfirst).bind fun ind x1 hr => ?_
  obtain ⟨⟨hed, hind, -⟩, hlogs⟩ := hr
  have hlogs : Logs e (fun σ => σ = .ind ∨ σ = .data (NDIRECT + j)) (· = .ind) (fun _ => False)
      x x1 := hlogs.weaken (fun _ => Or.inl) (fun _ => id) fun _ => id
  have ht := (hed 0 0).tidy
  by_cases hi0 : ind = 0
  · rwa [if_pos hi0]
  rw [if_neg hi0, ends_buffered_look]
  have hentry := State.mapOf_entry hind hi0 hj
  by_cases h0 : entry (x1.state.block ind) j = 0
  · rw [if_pos h0]
    refine (ends_balloc_logged ht.boot).bind fun a x2 hr => ?_
    rcases hr with ⟨rfl, rfl⟩ | ⟨ha0, ha, hlt, rfl⟩
    · exact hlogs
    rw [if_neg ha0, ends_buffered_act, ends_log_write, ends_pure]
    obtain ⟨hset, hmap⟩ := Edits.setEntry 0 0 ht hind hi0 hj (hentry.trans h0) ha ha0 hlt rfl
    refine hlogs.trans (Logs.alloc (a := a) (some ind) (Or.inr rfl) (hentry.trans h0) hmap ha0 rfl
      rfl (fun c => ?_) (fun b hba hbi => ?_) fun i hi => ?_) (hed 0 0).toKeeps hset.toKeeps
    · simp [Buffers.log, Buffers.withState, or_comm, or_left_comm]
    · have hne : b ≠ ind := fun hc => hbi (by rw [hc])
      exact (update_of_ne hne _ _).trans (update_of_ne hba _ _)
    · cases hi
      exact ⟨Or.inl rfl, rfl, (hset.map _ (hind.trans_ne hi0)).trans hind, hi0⟩
  · rwa [if_neg h0]

/-! ### The loop of `writei` -/

/-- The slots that are needed for the first `r` bytes from `off` on. -/
def Touched (off r : ℕ) (σ : Slot) : Prop := σ = .ind ∨ ∃ a < r, σ = .data ((off + a) / BSIZE)

/-- The slot of a round that has failed. -/
def Broken (off n r : ℕ) (σ : Slot) : Prop := r < n ∧ σ = .data ((off + r) / BSIZE)

/-- The loop of `writei`: it logs its changes, but not those of a round that fails.  The induction
is on the rounds that are left. -/
theorem logs_writeFrom (hmax : off + n ≤ MAXFILE * BSIZE) (k : ℕ) : ∀ tot x, Tidy e x.state →
    tot ≤ n → n ≤ tot + k → Ends allow t (writeFrom e src off n k tot) x fun r x' =>
      Transfer e src off n tot r x.state x'.state ∧
        Logs e (Touched off n) (Touched off r) (Broken off n r) x x' := by
  induction k with
  | zero =>
    intro tot x h hle hk
    obtain rfl : tot = n := by omega
    exact ⟨Transfer.all h, Logs.refl⟩
  | succ k ih =>
    intro tot x h hle hk
    -- what is transferred is known of the model; what is left is what is logged
    have htr : Ends allow t (Fs.writeFrom e src off n (k + 1) tot) x.state _ :=
      ends_writeFrom hmax (k + 1) tot x.state h hle hk
    suffices hlogs : Ends allow t (writeFrom e src off n (k + 1) tot) x
        fun r x' => Logs e (Touched off n) (Touched off r) (Broken off n r) x x' from
      ((erases_writeFrom _ _).ends htr).and hlogs
    rw [writeFrom]
    by_cases hlt : tot < n
    · rw [if_pos hlt]
      have hm : min (n - tot) (BSIZE - (off + tot) % BSIZE) = chunk off n tot := rfl
      dsimp only
      rw [hm]
      have hpos := chunk_pos off hlt
      have hmn := chunk_le off n tot
      have hroom := chunk_room off n tot
      have hlen : (fetch src tot (chunk off n tot)).length ≤ chunk off n tot := length_fetch_le _
      have hbn : (off + tot) / BSIZE < MAXFILE :=
        Nat.div_lt_of_lt_mul (by rw [Nat.mul_comm]; omega)
      have hfirst : Ends allow t (bmap e ((off + tot) / BSIZE)) x _ := logs_bmap h hbn
      refine ((erases_bmap.ends (ends_bmap_alloc h hbn)).and hfirst).bind fun a x1 hr => ?_
      obtain ⟨⟨hed, hmap, -⟩, hbmap⟩ := hr
      have hbmap : ∀ r, Logs e (Touched off n) (Touched off r) (Broken off n r) x x1 := by
        refine fun r => hbmap.weaken (fun σ hσ => ?_) (fun _ => Or.inl) fun _ => False.elim
        exact hσ.imp_right fun hσ => ⟨tot, hlt, hσ⟩
      by_cases ha0 : a = 0
      · rw [if_pos ha0, ends_pure]
        exact hbmap tot
      rw [if_neg ha0, ends_buffered_act]
      obtain ⟨hput, hsame, -⟩ := Edits.put (o := off + tot)
        (d := fetch src tot (chunk off n tot)) (hed 0 0).tidy hmap ha0 (by omega) rfl
      have hmap' := (congrFun hsame _).trans hmap
      by_cases hall : (fetch src tot (chunk off n tot)).length = chunk off n tot
      · rw [if_pos hall, ends_log_write]
        refine (ih (tot + chunk off n tot) _ hput.tidy (by omega) (by omega)).mono
          fun r x' hr => ?_
        obtain ⟨htr', hrest⟩ := hr
        have hthis := Logs.put (e := e) (J := Touched off n) (W := Touched off r)
          (X := Broken off n r) (x := x1) (Or.inr ⟨tot, hlt, rfl⟩)
          (Or.inr ⟨tot, by have := htr'.ge; omega, rfl⟩) hmap' ha0 rfl
          fun b hb => update_of_ne hb _ _
        exact ((hbmap r).trans hthis (hed 0 0).toKeeps hput.toKeeps).trans hrest
          ((hed 0 0).toKeeps.trans hput.toKeeps) htr'.edits.toKeeps
      · -- the round has failed: its block is changed and not logged
        rw [if_neg hall, ends_pure]
        refine (hbmap tot).trans (Logs.unlogged ⟨hlt, rfl⟩ hmap' ha0 rfl fun b hb => ?_)
          (hed 0 0).toKeeps hput.toKeeps
        exact update_of_ne hb _ _
    · rw [if_neg hlt, ends_pure]
      exact Logs.refl

theorem ends_writei_logged (h : Tidy e x.state) (hoff : off ≤ (x.state.inode e).size)
    (hmax : off + n ≤ MAXFILE * BSIZE) :
    Ends allow t (writei e src off n) x fun r x' => ∃ (tot : ℕ) (x1 : Buffers), r = tot ∧
      Transfer e src off n 0 tot x.state x1.state ∧
      Logs e (Touched off n) (Touched off tot) (Broken off n tot) x x1 ∧
      x' = (x1.withState (x1.state.resized e (max (x.state.inode e).size (off + tot)))).log
        (.inode ((x1.state.inode e).inum / IPB)) := by
  have hlt32 : off + n < 2 ^ 32 := lt_of_le_of_lt hmax (by decide)
  unfold writei getInode
  rw [ends_buffered_look, if_neg (by rw [Nat.mod_eq_of_lt hlt32]; omega), if_neg (by omega)]
  refine (logs_writeFrom hmax n 0 x h (Nat.zero_le n) (by omega)).bind fun tot x1 hr => ?_
  obtain ⟨htr, hlogs⟩ := hr
  unfold modifyInode
  rw [ends_buffered_act, ends_iupdate, ends_pure]
  refine ⟨tot, x1, rfl, htr, hlogs, ?_⟩
  have hin : ∀ ip, (x1.withState (x1.state.setInode e ip)).state.inode e = ip :=
    x1.state.setInode_self e
  rw [← htr.edits.size, hin]
  rfl

/-! ### A copy that fails -/

/-- Every block is logged, or as on disk. -/
def Buffers.Clean (x : Buffers) : Prop :=
  ∀ b, .block b ∈ x.logged ∨ ∀ j < BSIZE, x.state.block b j = x.disk b j

/-- How many bytes can be fetched, before one that cannot be. -/
def available (src : ℕ → Option UInt8) (n : ℕ) : ℕ := (fetch src 0 n).length

/-- Block `bn` of the file is there, and a change of it would not be noticed: it was not logged. -/
def Buffers.Exposed (x : Buffers) (e : Fin NINODE) (bn : ℕ) : Prop :=
  x.state.mapOf e (.data bn) ≠ 0 ∧ .block (x.state.mapOf e (.data bn)) ∉ x.logged

/-- Of the block of the file in which the first byte that cannot be fetched would be stored: the
bytes that can be fetched are those that it has, below the size of the file, and in all of the block
if that was there and not logged. -/
def Harmless (x : Buffers) (e : Fin NINODE) (src : ℕ → Option UInt8) (off n : ℕ) : Prop :=
  ∀ o, off ≤ o → o < off + available src n → o / BSIZE = (off + available src n) / BSIZE →
    o < (x.state.inode e).size ∨ x.Exposed e (o / BSIZE) → src (o - off) = some (x.state.byte e o)

variable {tot : ℕ} {s s' : State}

/-- A round that failed: it had a block, and has stored what it got. -/
structure Failed (e : Fin NINODE) (src : ℕ → Option UInt8) (off n tot : ℕ) (s s' : State) :
    Prop where
  transfer : Transfer e src off n 0 tot s s'
  lt : tot < n
  mapped : s'.mapOf e (.data ((off + tot) / BSIZE)) ≠ 0

section

variable (h : Failed e src off n tot s s')

include h

theorem Failed.short : (fetch src tot (chunk off n tot)).length < chunk off n tot ∧
    ∀ i < (fetch src tot (chunk off n tot)).length,
      s'.byte e (off + tot + i) = (fetch src tot (chunk off n tot)).getD i 0 := by
  rcases h.transfer.stop with hstop | hstop | hstop
  · exact absurd h.lt (by omega)
  · exact absurd hstop.2.1 h.mapped
  · exact hstop.2.2

theorem Failed.available_eq :
    available src n = tot + (fetch src tot (chunk off n tot)).length := by
  have hlt := h.short.1
  have hle := chunk_le off n tot
  refine length_fetch_eq n (by omega) (fun i hi => ?_) ?_
  · rw [Nat.zero_add]
    by_cases hit : i < tot
    · rw [(h.transfer.stored i (Nat.zero_le i) hit).2]
      rfl
    · obtain ⟨j, rfl⟩ := Nat.exists_eq_add_of_le (not_lt.mp hit)
      rw [fetch_getElem? _ (List.getElem?_eq_getElem (Nat.lt_of_add_lt_add_left hi))]
      rfl
  · rw [Nat.zero_add]
    exact fetch_stops _ hlt

theorem Failed.stored {o : ℕ} (ho : off + tot ≤ o) (hlt : o < off + available src n) :
    src (o - off) = some (s'.byte e o) := by
  obtain ⟨i, rfl⟩ := Nat.exists_eq_add_of_le ho
  rw [h.available_eq] at hlt
  have hi : i < (fetch src tot (chunk off n tot)).length := by omega
  rw [h.short.2 i hi, List.getD_eq_getElem _ _ hi, Nat.add_assoc, Nat.add_sub_cancel_left]
  exact fetch_getElem? _ (List.getElem?_eq_getElem hi)

theorem Failed.kept {o : ℕ} (h0 : s.mapOf e (.data (o / BSIZE)) ≠ 0)
    (ho : o < off ∨ off + available src n ≤ o) : s'.byte e o = s.byte e o := by
  refine h.transfer.edits.bytes o h0 ?_
  rw [h.available_eq] at ho
  omega

theorem Failed.div_eq {o : ℕ} (ho : off + tot ≤ o) (hlt : o ≤ off + available src n) :
    o / BSIZE = (off + tot) / BSIZE := by
  have hroom : (off + tot) % 1024 + chunk off n tot ≤ 1024 := chunk_room off n tot
  have hshort := h.short.1
  rw [h.available_eq] at hlt
  show o / 1024 = (off + tot) / 1024
  omega

theorem Failed.before {o : ℕ} (hblk : o / BSIZE = (off + tot) / BSIZE)
    (ho : o < off + tot) : o < off := by
  rcases Nat.eq_zero_or_pos tot with rfl | hpos
  · exact ho
  · have hedge : (off + tot) % 1024 = 0 := h.transfer.edge hpos h.lt
    have hblk : o / 1024 = (off + tot) / 1024 := hblk
    omega

theorem Failed.range_iff {o : ℕ} : off + tot ≤ o ∧ o < off + available src n ↔
    off ≤ o ∧ o < off + available src n ∧ o / BSIZE = (off + available src n) / BSIZE := by
  have hend : (off + available src n) / BSIZE = (off + tot) / BSIZE := by
    refine h.div_eq ?_ le_rfl
    rw [h.available_eq]
    omega
  rw [hend]
  constructor
  · intro ho
    exact ⟨by omega, ho.2, h.div_eq ho.1 ho.2.le⟩
  · rintro ⟨ho, hlt, hdiv⟩
    refine ⟨not_lt.mp fun hc => ?_, hlt⟩
    exact absurd (h.before hdiv hc) (not_lt.mpr ho)

theorem Failed.bytes_iff (hw : Whole (s.inode e).size (s.mapOf e)) :
    (∀ o, off + tot ≤ o → o < (s.inode e).size → s'.byte e o = s.byte e o) ↔
      ∀ o, off + tot ≤ o → o < off + available src n → o < (s.inode e).size →
        src (o - off) = some (s.byte e o) := by
  constructor
  · intro hall o ho hlt hsize
    rw [h.stored ho hlt, hall o ho hsize]
  · intro hall o ho hsize
    by_cases hlt : o < off + available src n
    · exact Option.some.inj ((h.stored ho hlt).symm.trans (hall o ho hlt hsize))
    · exact h.kept (hw.2 _ (lt_nblocks hsize)) (Or.inr (not_lt.mp hlt))

end

section

variable (h : Failed e src off n tot x.state x'.state)
  (hl : Logs e (Touched off n) (Touched off tot) (Broken off n tot) x x')

include h hl

theorem Failed.not_logged (hx : x.Exposed e ((off + tot) / BSIZE)) :
    .block (x.state.mapOf e (.data ((off + tot) / BSIZE))) ∉ x'.logged := by
  intro hc
  rcases hl.only _ hc with hc | ⟨σ, -, h0, ⟨-, hc⟩ | ⟨hσ, hc⟩⟩
  · exact hx.2 hc
  · cases hc
  rw [Entry.block.injEq, ← h.transfer.edits.map _ hx.1] at hc
  obtain rfl := h.transfer.edits.tidy.one σ _ h0 hc
  rcases hσ with hσ | hσ | ⟨a, ha, hσ⟩
  · exact hx.1 hσ
  · cases hσ
  · -- a round before it had another block
    rw [Slot.data.injEq] at hσ
    have := h.before hσ.symm (by omega)
    omega

/-- A block that was changed and not logged is that of the failed round, and was there before. -/
theorem Failed.exposed_of_changed {b : ℕ} (hb : x'.state.block b ≠ x.state.block b)
    (hlog : .block b ∉ x'.logged) :
    x.Exposed e ((off + tot) / BSIZE) ∧ x.state.mapOf e (.data ((off + tot) / BSIZE)) = b ∧
      x'.state.mapOf e (.data ((off + tot) / BSIZE)) = b := by
  obtain ⟨σ, ⟨-, rfl⟩, hmap, -⟩ := (hl.changed b hb).resolve_left hlog
  have h0 : x.state.mapOf e (.data ((off + tot) / BSIZE)) ≠ 0 := by
    intro hc
    -- a new block is logged when it is allocated
    have hfree := h.transfer.edits.fresh _ hc h.mapped
    have hused := h.transfer.edits.tidy.used _ h.mapped
    rw [hmap] at hfree hused
    exact hlog (hl.new b hfree hused)
  have hold := (h.transfer.edits.map _ h0).symm.trans hmap
  refine ⟨⟨h0, fun hc => hlog ?_⟩, hold, hmap⟩
  rw [hold] at hc
  exact hl.mono hc

/-- The blocks that are logged or as on disk. -/
theorem Failed.clean_iff (hclean : x.Clean) :
    x'.Clean ↔ ∀ o, off + tot ≤ o → o < off + available src n → x.Exposed e (o / BSIZE) →
      src (o - off) = some (x.state.byte e o) := by
  constructor
  · intro hc o ho hlt hx
    have hdiv := h.div_eq ho hlt.le
    rw [hdiv] at hx
    have hold := (hclean _).resolve_left hx.2
    have hnew := (hc _).resolve_left (h.not_logged hl hx)
    have hmod : o % BSIZE < BSIZE := Nat.mod_lt _ (by decide)
    rw [h.stored ho hlt]
    unfold State.byte
    rw [hdiv, h.transfer.edits.map _ hx.1, hnew _ hmod, hl.disk, hold _ hmod]
  · intro hall b
    by_cases hlog : .block b ∈ x'.logged
    · exact Or.inl hlog
    refine Or.inr fun j hj => ?_
    have hlog0 : .block b ∉ x.logged := fun hc => hlog (hl.mono hc)
    rw [hl.disk, ← (hclean b).resolve_left hlog0 j hj]
    by_cases hsame : x'.state.block b = x.state.block b
    · rw [hsame]
    obtain ⟨hx, hold, hnew⟩ := h.exposed_of_changed hl hsame hlog
    -- byte `j` of the block is one of the file, at offset `o`
    obtain ⟨o, ho, hoj⟩ : ∃ o, o / BSIZE = (off + tot) / BSIZE ∧ o % BSIZE = j := by
      have hj : j < 1024 := hj
      refine ⟨(off + tot) / 1024 * 1024 + j, ?_, ?_⟩
      · show ((off + tot) / 1024 * 1024 + j) / 1024 = (off + tot) / 1024
        omega
      · show ((off + tot) / 1024 * 1024 + j) % 1024 = j
        omega
    have hbyte : x'.state.byte e o = x.state.byte e o := by
      by_cases hlo : o < off + tot
      · exact h.kept (by rw [ho]; exact hx.1) (Or.inl (h.before ho hlo))
      by_cases hlt : o < off + available src n
      · have hsame := hall o (not_lt.mp hlo) hlt (by rwa [ho])
        exact Option.some.inj ((h.stored (not_lt.mp hlo) hlt).symm.trans hsame)
      · exact h.kept (by rw [ho]; exact hx.1) (Or.inr (not_lt.mp hlt))
    unfold State.byte at hbyte
    rwa [ho, hoj, hold, hnew] at hbyte

end

/-- Buffers that show what is on disk. -/
def smallBuffers : Buffers := ⟨smallFile, smallFile.block, ∅⟩

/-- One byte can be fetched. -/
def oneByte : ℕ → Option UInt8 := fun a => if a = 0 then some 122 else none

end Xv6.Fs.Logged
