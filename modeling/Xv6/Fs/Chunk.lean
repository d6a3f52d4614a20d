import Xv6.Fs.File
import Xv6.Fs.Logged
import Xv6.Fs.Read
import Mathlib.Order.Interval.Finset.Nat

/-!
# How many blocks a transaction of `filewrite` logs

`begin_op` reserves `MAXOPBLOCKS` blocks of the log for every transaction, whatever it does.
`filewrite` cuts a request into pieces and trusts that a piece takes no more.  A piece of three
blocks may touch four of them, and each block that has to be allocated takes a block of the free
map with it, which may be a different one every time; so may the indirect block.  That would be
eleven with the inode, but for the first block: a piece that does not begin where a block begins
continues a block that is there already.

## Main definitions

* `filewriteRound` — a round of the loop of `filewrite`, with all its calls of `log_write`.

## Main results

* `erases_filewriteRound` — `log_write` apart, it is what `filewrite` of the model does between
  `begin_op` and `end_op`.
* `filewrite_chunk_fits` — **a transaction of `filewrite` logs at most `MAXOPBLOCKS` blocks.**
-/

namespace Xv6.Fs.Logged

open Conc

/-- A round of the loop of `filewrite`, which is a transaction. -/
def filewriteRound (f : Fin NFILE) (ip : Fin NINODE) (src : ℕ → Option UInt8) (n1 : ℕ) :
    BufM ℤ := do
  buffered (ilock ip)
  let off ← buffered (.look fun s => (s.file f).off)
  let r ← writei ip src off n1
  buffered (modifyFile f fun ff => { ff with off := (ff.off + r.toNat) % 2 ^ 32 })
  buffered (iunlock ip)
  pure r

variable {allow : String → Prop} {t : Fin NPROC} {x x' : Buffers} {e : Fin NINODE} {s : State}
  {f : Fin NFILE} {off n : ℕ} {src : ℕ → Option UInt8}

/-- **Without its calls of `log_write`, the round is that of the model.** -/
theorem erases_filewriteRound : Erases Buffers.state (filewriteRound f e src n) (do
    ilock e
    let off ← .look fun s => (s.file f).off
    let r ← Fs.writei e src off n
    modifyFile f fun ff => { ff with off := (ff.off + r.toNat) % 2 ^ 32 }
    iunlock e
    pure r) := by
  refine (erases_buffered _).bind fun _ => (erases_buffered _).bind fun off => ?_
  refine erases_writei.bind fun r => (erases_buffered _).bind fun _ => ?_
  exact (erases_buffered _).bind fun _ => .pure

/-! ### How much that is -/

/-- The slots of a range of a file, and the indirect block. -/
def slots (off n : ℕ) : Finset Slot :=
  insert .ind ((Finset.Ico (off / BSIZE) ((off + n + BSIZE - 1) / BSIZE)).image .data)

theorem mem_slots {σ : Slot} (h : Touched off n σ) : σ ∈ slots off n := by
  rcases h with rfl | ⟨a, ha, rfl⟩
  · exact Finset.mem_insert_self _ _
  · refine Finset.mem_insert_of_mem (Finset.mem_image_of_mem _ (Finset.mem_Ico.mpr ?_))
    show off / 1024 ≤ (off + a) / 1024 ∧ (off + a) / 1024 < (off + n + 1024 - 1) / 1024
    omega

/-- A slot is counted for its block, and once more for the free map if it was empty. -/
theorem Logs.card {W X : Slot → Prop} (h : Logs e (Touched off n) W X x x') (hnew : x.logged = ∅) :
    x'.logged.card ≤
      (slots off n).card + ((slots off n).filter fun σ => x.state.mapOf e σ = 0).card := by
  have hsub : x'.logged ⊆ (slots off n).image (fun σ => .block (x'.state.mapOf e σ)) ∪
      ((slots off n).filter fun σ => x.state.mapOf e σ = 0).image
        fun σ => .map (x'.state.mapOf e σ / BPB) := by
    intro c hc
    rcases h.only c hc with hc | ⟨σ, hσ, -, ⟨h0, rfl⟩ | ⟨-, rfl⟩⟩
    · rw [hnew] at hc
      exact absurd hc (Finset.notMem_empty c)
    · exact Finset.mem_union_right _
        (Finset.mem_image.mpr ⟨σ, Finset.mem_filter.mpr ⟨mem_slots hσ, h0⟩, rfl⟩)
    · exact Finset.mem_union_left _ (Finset.mem_image.mpr ⟨σ, mem_slots hσ, rfl⟩)
  calc x'.logged.card
    _ ≤ _ := Finset.card_le_card hsub
    _ ≤ _ := Finset.card_union_le _ _
    _ ≤ _ := Nat.add_le_add Finset.card_image_le Finset.card_image_le

/-- A piece of at most three blocks has at most four blocks, and the first is there already if
there are four. -/
theorem slots_card (hw : Whole (s.inode e).size (s.mapOf e)) (hoff : off ≤ (s.inode e).size)
    (hn : n ≤ writeMax) :
    (slots off n).card + ((slots off n).filter fun σ => s.mapOf e σ = 0).card ≤ 9 := by
  have hB : BSIZE = 1024 := rfl
  have hn : n ≤ 3072 := hn
  have hcard : (slots off n).card ≤ (off + n + BSIZE - 1) / BSIZE - off / BSIZE + 1 := by
    refine (Finset.card_insert_le _ _).trans (Nat.succ_le_succ ?_)
    exact Finset.card_image_le.trans_eq (Nat.card_Ico _ _)
  have hfilter := Finset.card_filter_le (slots off n) fun σ => s.mapOf e σ = 0
  by_cases halign : off % 1024 = 0
  · have : (off + n + 1024 - 1) / 1024 - off / 1024 ≤ 3 := by omega
    have hcard : (slots off n).card ≤ 4 := hcard.trans (Nat.succ_le_succ this)
    omega
  · have hfour : (off + n + 1024 - 1) / 1024 - off / 1024 ≤ 4 := by omega
    have hcard : (slots off n).card ≤ 5 := hcard.trans (Nat.succ_le_succ hfour)
    -- the file reaches into its block at the offset
    have hthere : s.mapOf e (.data (off / BSIZE)) ≠ 0 := by
      refine hw.2 _ ?_
      show off / 1024 < ((s.inode e).size + 1024 - 1) / 1024
      omega
    have hmem : .data (off / BSIZE) ∈ slots off n := by
      refine Finset.mem_insert_of_mem (Finset.mem_image_of_mem _ (Finset.mem_Ico.mpr ⟨le_rfl, ?_⟩))
      show off / 1024 < (off + n + 1024 - 1) / 1024
      omega
    have hlt := Finset.card_lt_card ((Finset.filter_ssubset (p := fun σ => s.mapOf e σ = 0)).mpr ⟨_,
      hmem, hthere⟩)
    omega

/-- A file that is not being used: what is in memory is as on disk, and it is sound and without
holes. -/
structure HoleFree (t : Fin NPROC) (e : Fin NINODE) (s : State) : Prop where
  copy : (s.inode e).valid = true → (s.inode e).toDinode = s.dinode (s.inode e).inum
  lock : (s.inode e).lock = none
  ref : 0 < (s.inode e).ref
  type : (s.dinode (s.inode e).inum).type ≠ .zero
  tidy : Tidy e (s.setInode e (lockedBy t (s.inode e) (s.dinode (s.inode e).inum)))
  whole : Whole (s.dinode (s.inode e).inum).size
    ((s.setInode e (lockedBy t (s.inode e) (s.dinode (s.inode e).inum))).mapOf e)

theorem writei_fits (h : Tidy e x.state) (hw : Whole (x.state.inode e).size (x.state.mapOf e))
    (hn : n ≤ writeMax) (hnew : x.logged = ∅) : Ends allow t (writei e src off n) x fun _ x' =>
      x'.logged.card ≤ MAXOPBLOCKS ∧ (x'.state.inode e).lock = (x.state.inode e).lock ∧
        (x'.state.inode e).ref = (x.state.inode e).ref := by
  by_cases hacc : off ≤ (x.state.inode e).size ∧ off + n ≤ MAXFILE * BSIZE
  · refine (ends_writei_logged h hacc.1 hacc.2).mono fun r x' hr => ?_
    obtain ⟨tot, x1, -, htr, hlogs, rfl⟩ := hr
    refine ⟨?_, ?_, ?_⟩
    · -- nine blocks at most, and that of the inode
      have hcard := hlogs.card hnew
      have hslots := slots_card hw hacc.1 hn
      have hten : x1.logged.card + 1 ≤ 10 := by omega
      exact (Finset.card_insert_le _ _).trans hten
    · refine (congrArg Inode.lock (State.resized_inode ..)).trans ?_
      rw [htr.edits.self]
    · refine (congrArg Inode.ref (State.resized_inode ..)).trans ?_
      rw [htr.edits.self]
  · have hsame : x.logged.card ≤ MAXOPBLOCKS := by
      rw [hnew]
      exact Nat.zero_le _
    unfold writei getInode
    rw [ends_buffered_look]
    split_ifs with hoff hmax
    · exact ⟨hsame, rfl, rfl⟩
    · exact ⟨hsame, rfl, rfl⟩
    · exact absurd ⟨by omega, by omega⟩ hacc

/-- **A transaction of `filewrite` passes at most `MAXOPBLOCKS` blocks to `log_write`**, whatever
the offset of the file, and however many blocks the free map has. -/
theorem filewrite_chunk_fits {sb : RawSb} (h : HoleFree t e x.state) (hn : n ≤ writeMax)
    (hnew : x.logged = ∅) : Ends (fun _ => False) t (filewriteRound f e src n) x fun _ x' =>
      (x'.logged.image (Entry.blockno sb)).card ≤ MAXOPBLOCKS := by
  have hl : Ends (fun _ => False) t (buffered (ilock e)) x fun _ x1 => x1 = x.withState
      (x.state.setInode e (lockedBy t (x.state.inode e) (x.state.dinode (x.state.inode e).inum))) :=
    ends_buffered ((ends_ilock h.copy h.lock h.ref h.type).mono fun _ s' hs' => by rw [hs'])
  unfold filewriteRound
  refine hl.bind fun _ x1 hx1 => ?_
  subst hx1
  have hself := x.state.setInode_self e
    (lockedBy t (x.state.inode e) (x.state.dinode (x.state.inode e).inum))
  rw [ends_buffered_look]
  have hwhole := h.whole
  rw [show (x.state.dinode (x.state.inode e).inum).size = _ from
    congrArg (·.size) hself.symm] at hwhole
  refine (writei_fits (x := x.withState _) h.tidy hwhole hn hnew).bind fun r x2 hr => ?_
  obtain ⟨hcard, hlock, href⟩ := hr
  have hlock := hlock.trans (congrArg Inode.lock hself)
  have href := href.trans (congrArg Inode.ref hself)
  unfold modifyFile
  rw [ends_buffered_act]
  refine Ends.bind (ends_buffered ?_) fun _ _ hx => hx
  unfold iunlock Prog.atomic
  rw [ends_step, if_neg]
  · exact Finset.card_image_le.trans hcard
  · rw [not_or, not_not, not_lt]
    exact ⟨hlock, href.ge.trans' h.ref⟩

/-- Two bytes are written to a file of three. -/
theorem filewrite_chunk_fits_small : ∃ r x',
    (filewriteRound 0 0 (fun _ => some 122) 2).run 0 smallBuffers = .ok r x' ∧
      (x'.logged.image (Entry.blockno ⟨FSMAGIC, 20, 10, 8, 0, 2, 3, 4⟩)).card ≤ MAXOPBLOCKS := by
  have hmap : (smallFile.setInode 0 (lockedBy 0 (smallFile.inode 0) (smallFile.dinode 1))).mapOf 0 =
      smallFile.mapOf 0 := by
    unfold State.mapOf
    rw [smallFile.setInode_self]
    rfl
  have hdisk : smallFile.dinode (smallFile.inode 0).inum = smallFile.dinode 1 := rfl
  have hfree : HoleFree 0 0 smallFile := by
    refine ⟨fun _ => rfl, rfl, by decide, by decide, ⟨smallFile_tidy.small, smallFile_tidy.boot,
      ?_, ?_⟩, ?_⟩
    · rw [hdisk, hmap]
      exact smallFile_tidy.used
    · rw [hdisk, hmap]
      exact smallFile_tidy.one
    · rw [hdisk, hmap]
      exact smallFile_whole
  exact (filewrite_chunk_fits (x := smallBuffers) hfree (show 2 ≤ writeMax by decide)
    rfl).exists_run

end Xv6.Fs.Logged
