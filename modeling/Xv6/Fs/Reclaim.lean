import Xv6.Fs.File
import Xv6.Fs.Write

/-!
# Reclaiming orphans

A crash may leave inodes that are allocated and that no directory names: their
last name was removed while a process had them open.  `ireclaim` finds them when
the system boots and frees them, with their blocks, by taking a reference to each
and dropping it.

The blocks of an image are owned (`Xv6.Fs.Blocks`): the free map agrees with the
maps of the inodes.  Freeing an inode takes its blocks from it one by one
(`Ahead`), so that at the end the free map agrees with the maps of the others.

## Main definitions

* `Disk.inodeMaps`, `Disk.Consistent` — the maps of the inodes, and that the free map agrees.
* `Disk.Orphan` — an inode that no directory names.
* `Cut` — an inode is being truncated.
* `Reclaimed` — the orphans below a number have been reclaimed.

## Main results

* `ends_itrunc`, `ends_iput_last` — an inode is truncated, and freed.
* `ireclaim_frees_orphans` — **after `ireclaim` there are no orphans, their blocks are free, and
  everything else is as it was.**
-/

namespace Xv6.Fs

open Conc Function

variable {allow : String → Prop} {t : Fin NPROC} {s s' s0 : State} {e : Fin NINODE}
  {b c i n inum : ℕ}
  {maps : ℕ → Slot → ℕ} {own : ℕ → Owner Empty} {m : Slot → ℕ} {σ : Slot} {d : Disk}

/-! ### Images -/

/-- The blocks of an inode on disk. -/
def diskMap (d : Dinode) (blk : ℕ → Block) : Slot → ℕ :=
  if d.type = .zero then fun _ => 0 else d.map blk

/-- The blocks of the inodes of an image. -/
def Disk.inodeMaps (d : Disk) (i : ℕ) : Slot → ℕ :=
  if 0 < i ∧ i < d.sb.ninodes then diskMap (d.dinode i) d.block else fun _ => 0

/-- The free map agrees with the maps of the inodes: a block is in use if it comes before the data
blocks or one inode names it, in one place. -/
def Disk.Consistent (d : Disk) : Prop :=
  ∃ own : ℕ → Owner Empty, Owned d.sb d.bit d.inodeMaps (fun _ => none) own

/-- An allocated inode that no directory names. -/
def Disk.Orphan (d : Disk) (i : ℕ) : Prop :=
  (0 < i ∧ i < d.sb.ninodes) ∧ (d.dinode i).type ≠ .zero ∧ (d.dinode i).nlink = 0

theorem Disk.Orphan.inodeMaps (h : d.Orphan i) : d.inodeMaps i = (d.dinode i).map d.block := by
  rw [Disk.inodeMaps, if_pos h.1, diskMap, if_neg h.2.1]

variable {bit : ℕ → Bool} {sb : Superblock}

theorem Owned.bit_iff (h : Owned sb bit maps (fun _ : Empty => none) own)
    (hb : b < sb.size) : bit b = true ↔ b < sb.nmeta ∨ ∃ i σ, b ≠ 0 ∧ maps i σ = b := by
  rw [h.used b hb]
  constructor
  · intro hne
    cases hown : own b with
    | free => exact absurd hown hne
    | system => exact Or.inl ((h.system b).mp hown)
    | held u => exact u.elim
    | slot i σ => exact Or.inr ⟨i, σ, (h.slot b i σ).mp hown⟩
  · rintro (hlt | ⟨i, σ, h0, hmap⟩) hfree
    · rw [(h.system b).mpr hlt] at hfree
      cases hfree
    · rw [(h.slot b i σ).mpr ⟨h0, hmap⟩] at hfree
      cases hfree

theorem Owned.not_meta (h : Owned sb bit maps (fun _ : Empty => none) own)
    (h0 : maps i σ ≠ 0) : ¬ maps i σ < sb.nmeta := by
  intro hlt
  have hsys := (h.system _).mpr hlt
  rw [(h.slot _ i σ).mpr ⟨h0, rfl⟩] at hsys
  cases hsys

/-! ### Truncating -/

theorem ends_forEach_range {I : ℕ → State → Prop} {f : ℕ → FsM Unit} {n : ℕ}
    (hstep : ∀ k < n, ∀ s, I k s → Ends allow t (f k) s fun _ s' => I (k + 1) s') (h : I 0 s) :
    Ends allow t (forEach (List.range n) f) s fun _ s' => I n s' := by
  have key : ∀ j k s, k + j = n → I k s → Ends allow t (forEach (List.range' k j) f) s fun _ s' =>
      I n s' := by
    intro j
    induction j with
    | zero =>
      intro k s hk hI
      obtain rfl : k = n := hk
      exact hI
    | succ j ih =>
      intro k s hk hI
      rw [List.range'_succ, forEach]
      exact (hstep k (by omega) s hI).bind fun _ s' hI' => ih (k + 1) s' (by omega) hI'
  rw [List.range_eq_range']
  exact key n 0 s (Nat.zero_add n) h

theorem ends_bfree (h : s.bit b = true) :
    Ends allow t (bfree b) s fun _ s' => s' = s.setBit b false := by
  unfold bfree Prog.atomic
  rw [ends_step, if_neg (by rw [h]; exact Bool.noConfusion)]
  exact rfl

/-- The map `m` of an inode whose first `c` slots have been truncated. -/
structure Ahead (d : Dinode) (blk : ℕ → Block) (m : Slot → ℕ) (c : ℕ) : Prop where
  data : ∀ bn, m (.data bn) = if bn < c then 0 else d.map blk (.data bn)
  ind : m .ind = if MAXFILE < c then 0 else d.addrs NDIRECT

namespace Ahead

variable {d d' : Dinode} {blk : ℕ → Block} {m : Slot → ℕ} {c k : ℕ}

theorem free_data (h : Ahead d blk m c) (hc : c < MAXFILE) :
    Ahead d blk (update m (.data c) 0) (c + 1) := by
  constructor
  · intro bn
    by_cases hbn : bn = c
    · rw [hbn, update_self, if_pos (Nat.lt_succ_self c)]
    · have hiff : bn < c + 1 ↔ bn < c := by omega
      rw [update_of_ne (by simpa using hbn), h.data, if_congr hiff rfl rfl]
  · rw [update_of_ne (by simp), h.ind, if_neg (by omega), if_neg (by omega)]

theorem skip_data (h : Ahead d blk m c) (hc : c < MAXFILE) (h0 : d.map blk (.data c) = 0) :
    Ahead d blk m (c + 1) := by
  have hm : update m (.data c) 0 = m := by
    rw [update_eq_self_iff, h.data, if_neg (lt_irrefl c), h0]
  have hnext := h.free_data hc
  rwa [hm] at hnext

theorem free_ind (h : Ahead d blk m MAXFILE) : Ahead d blk (update m .ind 0) (MAXFILE + 1) := by
  constructor
  · intro bn
    rw [update_of_ne (by simp), h.data]
    by_cases hbn : bn < MAXFILE
    · rw [if_pos hbn, if_pos (Nat.lt_succ_of_lt hbn)]
    · rw [if_neg hbn, Dinode.map_of_le (not_lt.mp hbn), ite_self]
  · rw [update_self, if_pos (Nat.lt_succ_self _)]

theorem skip_ind (h : Ahead d blk m NDIRECT) (h0 : d.addrs NDIRECT = 0) :
    Ahead d blk m (MAXFILE + 1) := by
  constructor
  · intro bn
    rw [h.data]
    by_cases hbn : bn < NDIRECT
    · have hlt : bn < MAXFILE + 1 := hbn.trans (by decide)
      rw [if_pos hbn, if_pos hlt]
    · rw [if_neg hbn, Dinode.map_of_no_ind (not_lt.mp hbn) h0, ite_self]
  · rw [h.ind, if_neg (by decide), if_pos (Nat.lt_succ_self _), h0]

theorem clear (h : Ahead d blk m c) (hk : k < c) (hlt : k < NDIRECT)
    (ha : d'.addrs = update d.addrs k 0) : Ahead d' blk m c := by
  constructor
  · intro bn
    rw [h.data, Dinode.map_setDirect ha hlt]
    by_cases hbn : bn < c
    · rw [if_pos hbn, if_pos hbn]
    · rw [if_neg hbn, if_neg hbn, update_of_ne]
      rw [ne_eq, Slot.data.injEq]
      omega
  · rw [h.ind, ha, update_of_ne hlt.ne']

theorem all : Ahead d blk m (MAXFILE + 1) ↔ m = fun _ => 0 := by
  constructor
  · intro h
    funext σ
    cases σ with
    | ind => rw [h.ind, if_pos (Nat.lt_succ_self _)]
    | data bn =>
      rw [h.data]
      by_cases hbn : bn < MAXFILE + 1
      · rw [if_pos hbn]
      · rw [if_neg hbn, Dinode.map_of_le (by omega)]
  · rintro rfl
    refine ⟨fun bn => ?_, (if_pos (Nat.lt_succ_self _)).symm⟩
    by_cases hbn : bn < MAXFILE + 1
    · rw [if_pos hbn]
    · rw [if_neg hbn, Dinode.map_of_le (by omega)]

theorem none : Ahead d blk m 0 ↔ m = d.map blk := by
  constructor
  · intro h
    funext σ
    cases σ with
    | ind =>
      rw [h.ind, if_neg (by decide)]
      rfl
    | data bn => rw [h.data, if_neg (Nat.not_lt_zero bn)]
  · rintro rfl
    refine ⟨fun bn => ?_, ?_⟩
    · rw [if_neg (Nat.not_lt_zero bn)]
    · rw [if_neg (by decide)]
      rfl

end Ahead

/-- An inode is being truncated: its first `c` slots are empty, and what they named is free.  Maps
are those at the start, but for this inode. -/
structure Cut (e : Fin NINODE) (maps : ℕ → Slot → ℕ) (s0 : State) (c : ℕ) (s : State) : Prop where
  sb : s.sb = s0.sb
  tables : s.toTables = s0.toTables
  dinode : s.dinode = s0.dinode
  block : s.block = s0.block
  others : ∀ e', e' ≠ e → s.inode e' = s0.inode e'
  self : s.inode e = { s0.inode e with addrs := (s.inode e).addrs }
  cleared : ∀ k < c, k < NDIRECT → (s.inode e).addrs k = 0
  ind : c ≤ MAXFILE → (s.inode e).addrs NDIRECT = (s0.inode e).addrs NDIRECT
  owned : ∃ own m, Owned s.sb s.bit (Function.update maps (s0.inode e).inum m)
    (fun _ : Empty => none) own ∧
    Ahead (s.inode e).toDinode s.block m c

theorem Owned.free_slot
    (h : Owned sb bit (update maps i m) (fun _ : Empty => none) own) (h0 : m σ ≠ 0) :
    bit (m σ) = true ∧ ∃ own', Owned sb (update bit (m σ) false)
      (update maps i (update m σ 0)) (fun _ : Empty => none) own' := by
  have hself : update maps i m i = m := update_self ..
  have hslot := h.bit_slot (i := i) (σ := σ) (by rwa [hself])
  rw [hself] at hslot
  refine ⟨hslot.2, _, h.detach (i := i) (σ := σ) (by rw [hself]) h0 ?_⟩
  rw [hself, update_idem]

/-- **A block of the inode is freed**, and its address is cleared. -/
theorem Cut.freeAddr (h : Cut e maps s0 c s) (hc : c < NDIRECT) :
    Ends allow t (freeAddr e c) s fun _ s' => Cut e maps s0 (c + 1) s' := by
  have hmax : c < MAXFILE := hc.trans (by decide)
  obtain ⟨own, m, hown, hahead⟩ := h.owned
  have hmap : (s.inode e).map s.block (.data c) = (s.inode e).addrs c := Dinode.map_direct hc
  unfold Fs.freeAddr getInode
  rw [ends_look_bind]
  by_cases h0 : (s.inode e).addrs c = 0
  · -- there is no block, so the map ahead is already that of the next round
    rw [if_pos h0, ends_pure]
    refine { h with
      cleared := fun k hk hlt => ?_
      ind := fun _ => h.ind hmax.le
      owned := ⟨own, m, hown, hahead.skip_data hmax (hmap.trans h0)⟩ }
    by_cases hkc : k = c
    · rw [hkc, h0]
    · exact h.cleared k (by omega) hlt
  · rw [if_neg h0]
    -- the owner's map still names the block, so it may be freed
    have hm : m (.data c) = (s.inode e).addrs c := by rw [hahead.data, if_neg (lt_irrefl c), hmap]
    obtain ⟨hbit, own', hown'⟩ := hown.free_slot (σ := .data c) (by rwa [hm])
    rw [hm] at hbit hown'
    refine (ends_bfree hbit).bind fun _ s' hs' => ?_
    subst hs'
    suffices hcut : Cut e maps s0 (c + 1) ((s.setBit ((s.inode e).addrs c) false).setInode e
        { s.inode e with addrs := update (s.inode e).addrs c 0 }) from hcut
    have hin := (s.setBit ((s.inode e).addrs c) false).setInode_self e
      { s.inode e with addrs := update (s.inode e).addrs c 0 }
    refine ⟨h.sb, h.tables, h.dinode, h.block, fun e' he => ?_, ?_, fun k hk hlt => ?_, fun _ => ?_,
      ⟨own', _, hown', ?_⟩⟩
    · exact (State.setInode_of_ne _ _ he).trans (h.others e' he)
    · rw [hin, h.self]
    · rw [hin]
      by_cases hkc : k = c
      · rw [hkc]
        exact update_self ..
      · exact (update_of_ne hkc _ _).trans (h.cleared k (by omega) hlt)
    · rw [hin]
      exact (update_of_ne hc.ne' _ _).trans (h.ind hmax.le)
    · rw [hin]
      exact (hahead.free_data hmax).clear (Nat.lt_succ_self c) hc rfl

/-- **A block that the indirect block names is freed.** -/
theorem Cut.freeEntry {j : ℕ} (h : Cut e maps s0 (NDIRECT + j) s) (hj : j < NINDIRECT)
    (h0 : (s0.inode e).addrs NDIRECT ≠ 0) :
    Ends allow t (freeEntry ((s0.inode e).addrs NDIRECT) j) s fun _ s' =>
      Cut e maps s0 (NDIRECT + (j + 1)) s' := by
  have hmax : NDIRECT + j < MAXFILE := Nat.add_lt_add_left hj _
  obtain ⟨own, m, hown, hahead⟩ := h.owned
  have hind := h.ind hmax.le
  have hmap : (s.inode e).map s.block (.data (NDIRECT + j)) =
      entry (s.block ((s0.inode e).addrs NDIRECT)) j := by
    rw [Dinode.map_indirect (Nat.le_add_right _ _) hmax (by rwa [hind]), hind,
      Nat.add_sub_cancel_left]
  unfold Fs.freeEntry
  rw [ends_look_bind]
  by_cases he0 : entry (s.block ((s0.inode e).addrs NDIRECT)) j = 0
  · rw [if_pos he0, ends_pure]
    exact { h with
      cleared := fun k _ hlt => h.cleared k (by omega) hlt
      ind := fun _ => hind
      owned := ⟨own, m, hown, hahead.skip_data hmax (hmap.trans he0)⟩ }
  · rw [if_neg he0]
    have hm : m (.data (NDIRECT + j)) = entry (s.block ((s0.inode e).addrs NDIRECT)) j := by
      rw [hahead.data, if_neg (lt_irrefl _), hmap]
    obtain ⟨hbit, own', hown'⟩ := hown.free_slot (σ := .data (NDIRECT + j)) (by rwa [hm])
    rw [hm] at hbit hown'
    refine (ends_bfree hbit).mono fun _ s' hs' => ?_
    subst hs'
    exact ⟨h.sb, h.tables, h.dinode, h.block, h.others, h.self,
      fun k _ hlt => h.cleared k (by omega) hlt, fun _ => hind,
      ⟨own', _, hown', hahead.free_data hmax⟩⟩

/-- **The indirect block is freed.** -/
theorem Cut.freeInd (h : Cut e maps s0 MAXFILE s) (h0 : (s0.inode e).addrs NDIRECT ≠ 0) :
    Ends allow t (Fs.freeAddr e NDIRECT) s fun _ s' =>
      Cut e maps s0 (MAXFILE + 1) s' ∧ (s'.inode e).addrs NDIRECT = 0 := by
  obtain ⟨own, m, hown, hahead⟩ := h.owned
  have h0 : (s.inode e).addrs NDIRECT ≠ 0 := by rwa [h.ind le_rfl]
  unfold Fs.freeAddr getInode
  rw [ends_look_bind, if_neg h0]
  have hm : m .ind = (s.inode e).addrs NDIRECT := by rw [hahead.ind, if_neg (lt_irrefl _)]
  obtain ⟨hbit, own', hown'⟩ := hown.free_slot (σ := .ind) (by rwa [hm])
  rw [hm] at hbit hown'
  refine (ends_bfree hbit).bind fun _ s' hs' => ?_
  subst hs'
  suffices hcut : Cut e maps s0 (MAXFILE + 1)
    ((s.setBit ((s.inode e).addrs NDIRECT) false).setInode e
      { s.inode e with addrs := update (s.inode e).addrs NDIRECT 0 }) by
    refine ⟨hcut, ?_⟩
    show (update s.inode e { s.inode e with addrs := update (s.inode e).addrs NDIRECT 0 } e).addrs
      NDIRECT = 0
    rw [update_self]
    exact update_self NDIRECT 0 (s.inode e).addrs
  have hin := (s.setBit ((s.inode e).addrs NDIRECT) false).setInode_self e
    { s.inode e with addrs := update (s.inode e).addrs NDIRECT 0 }
  have hmax : NDIRECT ≤ MAXFILE := by decide
  refine ⟨h.sb, h.tables, h.dinode, h.block, fun e' he => ?_, ?_, fun k _ hlt => ?_,
    fun hc => absurd hc (by omega), ⟨own', _, hown', ?_⟩⟩
  · exact (State.setInode_of_ne _ _ he).trans (h.others e' he)
  · rw [hin, h.self]
  · rw [hin]
    exact (update_of_ne hlt.ne _ _).trans (h.cleared k (by omega) hlt)
  · exact Ahead.all.mpr (Ahead.all.mp hahead.free_ind)

/-- What `itrunc` does. -/
structure Truncated (e : Fin NINODE) (maps : ℕ → Slot → ℕ) (s0 s : State) : Prop where
  sb : s.sb = s0.sb
  tables : s.toTables = s0.toTables
  block : s.block = s0.block
  others : ∀ e', e' ≠ e → s.inode e' = s0.inode e'
  self : s.inode e = { s0.inode e with addrs := (s.inode e).addrs, size := 0 }
  cleared : ∀ k ≤ NDIRECT, (s.inode e).addrs k = 0
  dinode : s.dinode = Function.update s0.dinode (s0.inode e).inum (s.inode e).toDinode
  owned : ∃ own, Owned s.sb s.bit (Function.update maps (s0.inode e).inum fun _ => 0)
    (fun _ : Empty => none) own

/-- **An inode is truncated.** -/
theorem ends_itrunc (hown : Owned s.sb s.bit maps (fun _ : Empty => none) own)
    (hmap : maps (s.inode e).inum = (s.inode e).map s.block) :
    Ends allow t (itrunc e) s fun _ s' => Truncated e maps s s' := by
  have hstart : Cut e maps s 0 s := by
    refine ⟨rfl, rfl, rfl, rfl, fun _ _ => rfl, rfl, fun k hk => absurd hk (Nat.not_lt_zero k),
      fun _ => rfl, own, _, ?_, Ahead.none.mpr hmap⟩
    rwa [update_eq_self]
  have hdirect : Ends allow t (forEach (List.range NDIRECT) (freeAddr e)) s fun _ s' =>
      Cut e maps s NDIRECT s' :=
    ends_forEach_range (fun k hk s' hcut => hcut.freeAddr hk) hstart
  -- what is left when all blocks are free
  have hend : ∀ s', Cut e maps s (MAXFILE + 1) s' → (s'.inode e).addrs NDIRECT = 0 →
      Truncated e maps s (s'.resized e 0) := by
    intro s' hcut hind
    obtain ⟨own', m, hown', hahead⟩ := hcut.owned
    rw [Ahead.all.mp hahead] at hown'
    have hin := s'.resized_inode e 0
    have hnum : (s'.inode e).inum = (s.inode e).inum := by rw [hcut.self]
    refine ⟨hcut.sb, hcut.tables, hcut.block, fun e' he => ?_, ?_, fun k hk => ?_, ?_, own', hown'⟩
    · exact (State.setInode_of_ne _ _ he).trans (hcut.others e' he)
    · rw [hin]
      conv_lhs => rw [hcut.self]
    · rw [hin]
      rcases Nat.lt_or_eq_of_le hk with hlt | rfl
      · exact hcut.cleared k (hlt.trans (by decide)) hlt
      · exact hind
    · rw [hin, ← hcut.dinode, ← hnum]
      rfl
  have hsize : ∀ s', Ends allow t (do modifyInode e fun ip => { ip with size := 0 }; iupdate e) s'
      fun _ s'' =>
      s'' = s'.resized e 0 := by
    intro s'
    unfold modifyInode iupdate
    rw [ends_act_bind, ends_act, State.setInode_self]
    rfl
  unfold itrunc
  refine hdirect.bind fun _ s1 hcut => ?_
  unfold getInode
  rw [ends_look_bind]
  have hind := hcut.ind (by decide)
  by_cases h0 : (s1.inode e).addrs NDIRECT = 0
  · -- there is no indirect block
    rw [if_pos h0]
    obtain ⟨own', m, hown', hahead⟩ := hcut.owned
    refine (hsize s1).mono fun _ s2 hs2 => ?_
    rw [hs2]
    exact hend s1 { hcut with
      cleared := fun k _ hlt => hcut.cleared k hlt hlt
      ind := fun hc => absurd hc (by omega)
      owned := ⟨own', m, hown', hahead.skip_ind h0⟩ } h0
  · rw [if_neg h0, hind]
    rw [hind] at h0
    have hentries : Ends allow t (forEach (List.range NINDIRECT)
      (freeEntry ((s.inode e).addrs NDIRECT))) s1
        fun _ s' => Cut e maps s (NDIRECT + NINDIRECT) s' :=
      ends_forEach_range (I := fun j s' => Cut e maps s (NDIRECT + j) s')
        (fun j hj s' hcut => hcut.freeEntry hj h0) hcut
    refine hentries.bind fun _ s2 hcut2 => ?_
    refine (hcut2.freeInd h0).bind fun _ s2 hr => ?_
    refine (hsize s2).mono fun _ s3 hs3 => ?_
    rw [hs3]
    exact hend s2 hr.1 hr.2

/-! ### The last reference -/

theorem State.setDinode_setInode (s : State) (i : ℕ) (d : Dinode) (e : Fin NINODE) (ip : Inode) :
    (s.setDinode i d).setInode e ip = (s.setInode e ip).setDinode i d := rfl

theorem State.setDinode_inode (s : State) (i : ℕ) (d : Dinode) :
    (s.setDinode i d).inode = s.inode := rfl

/-- An inode that has been freed, in memory and on disk. -/
def State.freed (s : State) (e : Fin NINODE) : State :=
  (s.setInode e
    { s.inode e with
      type := .zero, valid := false, lock := none, ref := (s.inode e).ref - 1 }).setDinode
    (s.inode e).inum { (s.inode e).toDinode with type := .zero }

/-- The last reference to an inode without names. -/
structure Last (e : Fin NINODE) (maps : ℕ → Slot → ℕ) (s : State) : Prop where
  owned : ∃ own, Owned s.sb s.bit maps (fun _ : Empty => none) own
  map : maps (s.inode e).inum = (s.inode e).map s.block
  ref : (s.inode e).ref = 1
  valid : (s.inode e).valid = true
  nlink : (s.inode e).nlink = 0
  lock : (s.inode e).lock = none

/-- What dropping it does. -/
structure Freed (e : Fin NINODE) (maps : ℕ → Slot → ℕ) (s s' : State) : Prop where
  sb : s'.sb = s.sb
  tables : s'.toTables = s.toTables
  block : s'.block = s.block
  others : ∀ e', e' ≠ e → s'.inode e' = s.inode e'
  ref : (s'.inode e).ref = 0
  lock : (s'.inode e).lock = none
  dinode : ∃ d : Dinode, d.type = .zero ∧ s'.dinode = Function.update s.dinode (s.inode e).inum d
  owned : ∃ own, Owned s'.sb s'.bit (Function.update maps (s.inode e).inum fun _ => 0)
    (fun _ : Empty => none) own

/-- **The last reference to an inode without names is dropped.** -/
theorem ends_iput_last (h : Last e maps s) : Ends allow t (iput e) s fun _ s' =>
    Freed e maps s s' := by
  obtain ⟨own, hown⟩ := h.owned
  have hstart : Ends allow t (iputStart e) s fun r s' => r = true ∧
      s' = s.setInode e { s.inode e with lock := some t } := by
    unfold iputStart Prog.atomic
    rw [ends_step, if_pos ⟨h.ref, h.valid, h.nlink⟩, if_pos h.lock]
    exact ⟨rfl, rfl⟩
  unfold iput
  refine hstart.bind fun r s1 hr => ?_
  obtain ⟨rfl, hs1⟩ := hr
  rw [if_pos rfl]
  have hin : s1.inode e = { s.inode e with lock := some t } := by rw [hs1, State.setInode_self]
  have hown1 : Owned s1.sb s1.bit maps (fun _ : Empty => none) own := by
    rwa [hs1]
  have hmap1 : maps (s1.inode e).inum = (s1.inode e).map s1.block := by
    rw [hin, hs1]
    exact h.map
  refine (ends_itrunc hown1 hmap1).bind fun _ s2 h2 => ?_
  -- the inode is empty; what is left clears its type and drops the entry
  unfold iupdate releasesleep modifyInode
  simp only [ends_act_bind, ends_act, State.setInode_self, State.setDinode_setInode,
    State.setDinode_inode, State.setInode_idem]
  have hnum1 : (s1.inode e).inum = (s.inode e).inum := by rw [hin]
  have hnum : (s2.inode e).inum = (s.inode e).inum := by rw [h2.self, hin]
  have href : (s2.inode e).ref = 1 := by
    rw [h2.self, hin]
    exact h.ref
  have hfin : (s2.freed e).inode e =
      { s2.inode e with
        type := .zero, valid := false, lock := none, ref := (s2.inode e).ref - 1 } :=
    s2.setInode_self e _
  suffices hfreed : Freed e maps s (s2.freed e) from hfreed
  refine ⟨?_, ?_, ?_, fun e' he => ?_, ?_, ?_, ⟨{ (s2.inode e).toDinode with type := .zero },
    rfl, ?_⟩, ?_⟩
  · exact h2.sb.trans (by rw [hs1]; rfl)
  · exact h2.tables.trans (by rw [hs1]; rfl)
  · exact h2.block.trans (by rw [hs1]; rfl)
  · have h1 : s1.inode e' = s.inode e' := by
      rw [hs1]
      exact s.setInode_of_ne _ he
    exact (s2.setInode_of_ne _ he).trans ((h2.others e' he).trans h1)
  · rw [hfin]
    show (s2.inode e).ref - 1 = 0
    rw [href]
  · rw [hfin]
  · show update s2.dinode (s2.inode e).inum _ = _
    have hdin : s1.dinode = s.dinode := by rw [hs1]; rfl
    rw [hnum, h2.dinode, hnum1, hdin, update_idem]
  · obtain ⟨own', hown'⟩ := h2.owned
    rw [hnum1] at hown'
    exact ⟨own', hown'⟩

/-! ### The loop -/

/-- The table of inodes when the system boots: there is room, and no orphan is in use. -/
structure Booting (s : State) : Prop where
  empty : s.HasEmpty
  lock : ∀ e, (s.inode e).lock = none
  fresh : ∀ e, 0 < (s.inode e).ref → ¬ s.toDisk.Orphan (s.inode e).inum

/-- The orphans below `n` have been reclaimed. -/
structure Reclaimed (s0 : State) (n : ℕ) (s : State) : Prop where
  sb : s.sb = s0.sb
  tables : s.toTables = s0.toTables
  block : s.block = s0.block
  consistent : s.toDisk.Consistent
  gone : ∀ i < n, s0.toDisk.Orphan i → (s.dinode i).type = .zero
  same : ∀ i, ¬ (i < n ∧ s0.toDisk.Orphan i) → s.dinode i = s0.dinode i
  lock : ∀ e, (s.inode e).lock = none
  ref : ∀ e, (s.inode e).ref = (s0.inode e).ref
  kept : ∀ e, 0 < (s0.inode e).ref → s.inode e = s0.inode e

theorem Reclaimed.entry_none (h : Reclaimed s0 i s) (hboot : Booting s0) (hi : s0.toDisk.Orphan i) :
    s.entry? ROOTDEV i = none := by
  unfold State.entry?
  rw [List.find?_eq_none]
  intro e _
  simp only [decide_eq_true_eq]
  rintro ⟨href, -, hnum⟩
  rw [h.ref e] at href
  rw [h.kept e href] at hnum
  exact hboot.fresh e href (hnum ▸ hi)

theorem inodeMaps_freed {d' : Disk} {x : Dinode} (hsb : d'.sb = d.sb) (hblk : d'.block = d.block)
    (hx : x.type = .zero) (hdin : d'.dinode = update d.dinode i x) :
    d'.inodeMaps = update d.inodeMaps i fun _ => 0 := by
  funext j
  unfold Disk.inodeMaps
  rw [hsb, hblk, hdin]
  obtain rfl | hj := eq_or_ne j i
  · rw [update_self, update_self, diskMap, if_pos hx, ite_self]
  · rw [update_of_ne hj, update_of_ne hj]

/-- **An orphan is reclaimed.** -/
theorem Reclaimed.orphan (h : Reclaimed s0 i s) (hboot : Booting s0) (hi : s0.toDisk.Orphan i) :
    Ends allow t (reclaimOne ROOTDEV i) s fun _ s' => Reclaimed s0 (i + 1) s' := by
  have hdin : s.dinode i = s0.dinode i := h.same i fun hc => lt_irrefl i hc.1
  unfold reclaimOne
  rw [ends_look_bind, if_pos (by rw [hdin]; exact hi.2)]
  have hempty : s.HasEmpty := by
    obtain ⟨e, he⟩ := hboot.empty
    exact ⟨e, (h.ref e).trans he⟩
  obtain ⟨e, hemp, he0⟩ := hempty.exists_empty
  have hget : Ends allow t (iget ROOTDEV i) s fun r s' => r = e ∧
      s' = s.setInode e { s.inode e with dev := ROOTDEV, inum := i, ref := 1, valid := false } := by
    unfold iget Prog.atomic
    rw [ends_step, h.entry_none hboot hi, hemp]
    exact ⟨rfl, rfl⟩
  refine hget.bind fun r s1 hr => ?_
  obtain ⟨rfl, hs1⟩ := hr
  have hin1 : s1.inode r =
      { s.inode r with dev := ROOTDEV, inum := i, ref := 1, valid := false } := by
    rw [hs1, State.setInode_self]
  have hdin1 : s1.dinode = s.dinode := by rw [hs1]; rfl
  have htype : (s1.dinode (s1.inode r).inum).type ≠ .zero := by
    rw [hin1, hdin1, hdin]
    exact hi.2.1
  have hlock : Ends allow t (ilock r) s1 fun _ s' =>
      s' = s.setInode r (lockedBy t (s1.inode r) (s.dinode i)) := by
    have hfree : (s1.inode r).lock = none := by
      rw [hin1]
      exact h.lock r
    refine (ends_ilock (fun hv => ?_) hfree (by rw [hin1]; exact Nat.one_pos) htype).mono
      fun _ s' hs' => ?_
    · rw [hin1] at hv
      cases hv
    · rw [hs', hs1, State.setInode_idem, State.setInode_self]
      rfl
  unfold begin_op end_op
  rw [Prog.pure_bind]
  refine hlock.bind fun _ s2 hs2 => ?_
  have hin2 : s2.inode r = lockedBy t (s1.inode r) (s.dinode i) := by rw [hs2, State.setInode_self]
  -- the entry as `iput` finds it
  obtain ⟨ip, hip⟩ : ∃ ip : Inode, ip = ⟨s.dinode i, ROOTDEV, i, 1, none, true⟩ := ⟨_, rfl⟩
  have hunlock : Ends allow t (iunlock r) s2 fun _ s' => s' = s.setInode r ip := by
    have href2 : (s2.inode r).ref = 1 := by rw [hin2, hin1]; rfl
    have hl2 : (s2.inode r).lock = some t := by rw [hin2]; rfl
    unfold iunlock Prog.atomic
    rw [ends_step, if_neg (by rw [hl2, href2]; simp), hin2, hs2, State.setInode_idem, hip, hin1]
    exact rfl
  refine hunlock.bind fun _ s3 hs3 => ?_
  have hin3 : s3.inode r = ip := by rw [hs3, State.setInode_self]
  obtain ⟨own, hown⟩ := h.consistent
  -- no name leads to the inode, and this is the only reference
  have hlast : Last r s.toDisk.inodeMaps s3 := by
    refine ⟨⟨own, by rw [hs3]; exact hown⟩, ?_, ?_, ?_, ?_, ?_⟩
    all_goals rw [hin3, hip]
    · have horphan : s.toDisk.Orphan i := by
        unfold Disk.Orphan
        rwa [h.sb, hdin]
      rw [horphan.inodeMaps, hs3]
      rfl
    · show (s.dinode i).nlink = 0
      rw [hdin]
      exact hi.2.2
  refine (ends_iput_last hlast).bind fun _ s' hf => ?_
  rw [ends_pure]
  have hnum3 : (s3.inode r).inum = i := by rw [hin3, hip]
  -- the entry is free again, and one orphan is gone
  have hothers : ∀ e', e' ≠ r → s'.inode e' = s.inode e' := by
    intro e' he
    rw [hf.others e' he, hs3, State.setInode_of_ne _ _ he]
  obtain ⟨x, hx, hdin'⟩ := hf.dinode
  obtain ⟨own', hown'⟩ := hf.owned
  rw [hnum3] at hdin' hown'
  have hdin3 : s3.dinode = s.dinode := by rw [hs3]; rfl
  rw [hdin3] at hdin'
  have hsb : s'.sb = s.sb := hf.sb.trans (by rw [hs3]; rfl)
  have hblk : s'.block = s.block := hf.block.trans (by rw [hs3]; rfl)
  have hmaps : s'.toDisk.inodeMaps = update s.toDisk.inodeMaps i fun _ => 0 :=
    inodeMaps_freed hsb hblk hx hdin'
  refine ⟨hsb.trans h.sb, (hf.tables.trans (by rw [hs3]; rfl)).trans h.tables, hblk.trans h.block,
    ⟨own', by rw [hmaps]; exact hown'⟩, fun j hj hjo => ?_, fun j hj => ?_, fun e' => ?_,
    fun e' => ?_, fun e' href => ?_⟩
  · rw [hdin']
    by_cases hji : j = i
    · rw [hji, update_self, hx]
    · rw [update_of_ne hji]
      exact h.gone j (by omega) hjo
  · have hji : j ≠ i := fun hc => hj ⟨by omega, hc ▸ hi⟩
    rw [hdin', update_of_ne hji]
    exact h.same j fun hc => hj ⟨by omega, hc.2⟩
  · by_cases he : e' = r
    · rw [he, hf.lock]
    · rw [hothers e' he, h.lock]
  · by_cases he : e' = r
    · rw [he, hf.ref, ← h.ref r, he0]
    · rw [hothers e' he, h.ref]
  · have he : e' ≠ r := by
      rintro rfl
      rw [← h.ref e', he0] at href
      exact absurd href (lt_irrefl 0)
    rw [hothers e' he, h.kept e' href]

theorem Reclaimed.other (h : Reclaimed s0 i s) (hrange : 0 < i ∧ i < s0.sb.ninodes)
    (hi : ¬ s0.toDisk.Orphan i) :
    Ends allow t (reclaimOne ROOTDEV i) s fun _ s' => Reclaimed s0 (i + 1) s' := by
  have hdin : s.dinode i = s0.dinode i := h.same i fun hc => lt_irrefl i hc.1
  unfold reclaimOne
  rw [ends_look_bind, if_neg (by rw [hdin]; exact fun hc => hi ⟨hrange, hc⟩), ends_pure]
  refine { h with
    gone := fun j hj hjo => h.gone j ?_ hjo
    same := fun j hj => h.same j fun hc => hj ?_ }
  · have hne : j ≠ i := fun hc => hi (hc ▸ hjo)
    omega
  · exact ⟨by omega, hc.2⟩

/-- The loop of `ireclaim`; the induction is on the inodes that are left. -/
theorem ends_ireclaimFrom (hboot : Booting s0) (k : ℕ) :
    ∀ i s, 0 < i → i + k ≤ s0.sb.ninodes → Reclaimed s0 i s →
    Ends allow t (ireclaimFrom ROOTDEV k i) s fun _ s' => Reclaimed s0 (i + k) s' := by
  induction k with
  | zero => exact fun i s _ _ h => h
  | succ k ih =>
    intro i s hi hle h
    have hone : Ends allow t (reclaimOne ROOTDEV i) s fun _ s' => Reclaimed s0 (i + 1) s' := by
      by_cases ho : s0.toDisk.Orphan i
      · exact h.orphan hboot ho
      · exact h.other ⟨hi, by omega⟩ ho
    rw [ireclaimFrom]
    refine hone.bind fun _ s' h' => ?_
    have hnum : i + (k + 1) = i + 1 + k := by omega
    rw [hnum]
    exact ih (i + 1) s' (Nat.succ_pos i) (by omega) h'

/-! ### What is left -/

/-- **After `ireclaim` there are no orphans, their blocks are free, and everything else is as it
was**: from any consistent image, with any orphans. -/
theorem ireclaim_frees_orphans (t : Fin NPROC) (s : State) (hcons : s.toDisk.Consistent)
    (hboot : Booting s) :
    ∃ s', (ireclaim ROOTDEV).run t s = .ok () s' ∧
      (∀ i, ¬ s'.toDisk.Orphan i) ∧
      (∀ i, s.toDisk.Orphan i → (s'.dinode i).type = .zero ∧
        ∀ σ, (s.dinode i).map s.block σ ≠ 0 → s'.bit ((s.dinode i).map s.block σ) = false) ∧
      (∀ i, ¬ s.toDisk.Orphan i → s'.dinode i = s.dinode i) ∧ s'.block = s.block ∧ s'.sb = s.sb ∧
      (∀ b < s.sb.size, (∀ i σ, s.toDisk.Orphan i → (s.dinode i).map s.block σ ≠ b) →
        s'.bit b = s.bit b) ∧
      s'.toTables = s.toTables ∧ (∀ e, (s'.inode e).ref = (s.inode e).ref) ∧
      (∀ e, 0 < (s.inode e).ref → s'.inode e = s.inode e) ∧ s'.toDisk.Consistent := by
  have hstart : Reclaimed s 1 s := by
    refine ⟨rfl, rfl, rfl, hcons, fun i hi ho => ?_, fun _ _ => rfl, hboot.lock, fun _ => rfl,
      fun _ _ => rfl⟩
    have := ho.1.1
    omega
  -- the loop looks at every inode there is
  have hrun : Ends (fun _ => False) t (ireclaim ROOTDEV) s fun _ s' =>
      ∃ n, s.sb.ninodes ≤ n ∧ Reclaimed s n s' := by
    unfold ireclaim
    rw [ends_look_bind]
    by_cases h0 : s.sb.ninodes = 0
    · rw [h0]
      exact ⟨1, by omega, hstart⟩
    · refine (ends_ireclaimFrom hboot _ 1 s Nat.one_pos (by omega) hstart).mono fun _ s' h' => ?_
      exact ⟨_, by omega, h'⟩
  obtain ⟨_, s', hok, n, hn, h⟩ := hrun.exists_run
  have hbelow : ∀ i, s.toDisk.Orphan i → i < n := fun i hi => lt_of_lt_of_le hi.1.2 hn
  have hgone : ∀ i, s.toDisk.Orphan i → (s'.dinode i).type = .zero := fun i hi =>
    h.gone i (hbelow i hi) hi
  have hsame : ∀ i, ¬ s.toDisk.Orphan i → s'.dinode i = s.dinode i := fun i hi => h.same i fun hc =>
    hi hc.2
  -- the maps of the others are what they were
  have hmaps : ∀ i, ¬ s.toDisk.Orphan i → s'.toDisk.inodeMaps i = s.toDisk.inodeMaps i := by
    intro i hi
    unfold Disk.inodeMaps
    rw [h.sb, h.block, hsame i hi]
  have hmaps0 : ∀ i σ, s'.toDisk.inodeMaps i σ ≠ 0 → ¬ s.toDisk.Orphan i := by
    intro i σ h0 hi
    unfold Disk.inodeMaps diskMap at h0
    rw [hgone i hi, if_pos rfl, ite_self] at h0
    exact h0 rfl
  obtain ⟨own, hown⟩ := hcons
  obtain ⟨own', hown'⟩ := h.consistent
  rw [h.sb] at hown'
  refine ⟨s', hok, fun i hi => ?_, fun i hi => ⟨hgone i hi, fun σ h0 => ?_⟩, hsame, h.block, h.sb,
    fun b hb hno => ?_, h.tables, h.ref, h.kept, h.consistent⟩
  · have hno : ¬ s.toDisk.Orphan i := fun hc => hi.2.1 (hgone i hc)
    have hi' := hi
    unfold Disk.Orphan at hi'
    rw [h.sb, hsame i hno] at hi'
    exact hno hi'
  · -- nobody else names the block, so it is free now
    rw [← hi.inodeMaps] at h0 ⊢
    by_contra hc
    have hused := (hown'.bit_iff (hown.bit_slot h0).1).mp (by simpa using hc)
    rcases hused with hmeta | ⟨j, τ, h0', hj⟩
    · exact hown.not_meta h0 hmeta
    · have hjo := hmaps0 j τ (by rw [hj]; exact h0)
      rw [hmaps j hjo] at hj
      have hji := (hown.slot_unique h0 hj).1
      exact hjo (hji ▸ hi)
  · refine Bool.eq_iff_iff.mpr ((hown'.bit_iff hb).trans (Iff.trans ?_ (hown.bit_iff hb).symm))
    refine or_congr_right ?_
    constructor
    · rintro ⟨i, σ, h0, hi⟩
      exact ⟨i, σ, h0, by rw [← hmaps i (hmaps0 i σ (by rwa [hi]))]; exact hi⟩
    · rintro ⟨i, σ, h0, hi⟩
      have hio : ¬ s.toDisk.Orphan i := by
        intro hc
        rw [hc.inodeMaps] at hi
        exact hno i σ hc hi
      exact ⟨i, σ, h0, by rw [hmaps i hio]; exact hi⟩

/-- A disk with an orphan of one block, number 2, next to an empty root directory. -/
def orphanDisk : State where
  sb := ⟨16, 8, 4⟩
  dinode i :=
    if i = 2 then ⟨.T_FILE, 0, 0, 0, 3, Function.update (fun _ => 0) 0 8⟩
    else if i = 1 then ⟨.T_DIR, 0, 0, 1, 0, fun _ => 0⟩ else Dinode.zero
  bit b := decide (b < 9)
  block _ _ := 0
  file _ := ⟨.FD_NONE, false, false, 0, 0⟩
  proc _ := ⟨none⟩
  inode _ := ⟨Dinode.zero, 0, 0, 0, none, false⟩

theorem orphanDisk_orphan : orphanDisk.toDisk.Orphan 2 := ⟨by decide, by decide, rfl⟩

theorem orphanDisk_map : orphanDisk.toDisk.inodeMaps 2 = update (fun _ => 0) (.data 0) 8 := by
  have hzero : (Dinode.mk .T_FILE 0 0 0 3 fun _ => 0).map orphanDisk.block = fun _ => 0 :=
    Dinode.map_eq_zero fun _ _ => rfl
  rw [orphanDisk_orphan.inodeMaps, ← hzero]
  exact Dinode.map_setDirect rfl (by decide)

theorem orphanDisk_other {i : ℕ} (h : i ≠ 2) : orphanDisk.toDisk.inodeMaps i = fun _ => 0 := by
  have haddrs : ∀ k, (orphanDisk.dinode i).addrs k = 0 := by
    intro k
    show (ite (i = 2) _ _ : Dinode).addrs k = 0
    rw [if_neg h]
    split_ifs <;> rfl
  have hmap : (orphanDisk.dinode i).map orphanDisk.block = fun _ => 0 :=
    Dinode.map_eq_zero fun k _ => haddrs k
  unfold Disk.inodeMaps diskMap
  rw [hmap]
  split_ifs <;> rfl

/-- Who owns its blocks. -/
def orphanOwner (b : ℕ) : Owner Empty :=
  if b < 8 then .system else if b = 8 then .slot 2 (.data 0) else .free

theorem orphanDisk_consistent : orphanDisk.toDisk.Consistent := by
  refine ⟨orphanOwner, fun b => ?_, fun b hb => ?_, fun b => ?_, nofun, fun b i σ => ?_⟩
  all_goals unfold orphanOwner
  · show _ ↔ b < 8
    split_ifs <;> simp_all
  · show decide (b < 9) = true ↔ _
    split_ifs <;> simp <;> omega
  · show _ → b < 16
    split_ifs <;> simp <;> omega
  · obtain rfl | hi := eq_or_ne i 2
    · rw [orphanDisk_map]
      by_cases hσ : σ = .data 0
      · subst hσ
        rw [update_self]
        split_ifs <;> simp <;> omega
      · rw [update_of_ne hσ]
        refine iff_of_false (fun hc => ?_) fun hc => hc.1 hc.2.symm
        split_ifs at hc
        cases hc
        exact hσ rfl
    · rw [orphanDisk_other hi]
      split_ifs <;> simp <;> omega

theorem orphanDisk_booting : Booting orphanDisk :=
  ⟨⟨0, rfl⟩, fun _ => rfl, fun _ h => absurd h (lt_irrefl 0)⟩

/-- The orphan is reclaimed and its block is free. -/
theorem ireclaim_frees_orphans_one : ∃ s', (ireclaim ROOTDEV).run 0 orphanDisk = .ok () s' ∧
    orphanDisk.toDisk.Orphan 2 ∧ (s'.dinode 2).type = .zero ∧ orphanDisk.bit 8 = true ∧
    s'.bit 8 = false ∧
    s'.dinode 1 = orphanDisk.dinode 1 := by
  obtain ⟨s', hrun, -, hgone, hsame, -⟩ :=
    ireclaim_frees_orphans 0 orphanDisk orphanDisk_consistent orphanDisk_booting
  have hmap := congrFun orphanDisk_map (.data 0)
  rw [orphanDisk_orphan.inodeMaps, update_self] at hmap
  obtain ⟨htype, hfree⟩ := hgone 2 orphanDisk_orphan
  have hbit := hfree (.data 0) (by rw [hmap]; decide)
  rw [hmap] at hbit
  exact ⟨s', hrun, orphanDisk_orphan, htype, rfl, hbit, hsame 1 fun hc => absurd hc.2.2 (by decide)⟩

end Xv6.Fs
