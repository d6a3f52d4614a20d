import Xv6.Fs.Model
import Mathlib.Tactic.SplitIfs
import Mathlib.Logic.Function.Basic

/-!
# Who owns a block

A block is free, or part of the area before the data blocks, or just allocated
by a process, or it is named by one slot of one inode: its indirect block, or its
block number `bn`.  The free map agrees with that (`Owned`).  An inode's map from
slots to addresses is read from the inode and from its indirect block
(`Dinode.map`); while an inode is being truncated its map is ahead of both.

## Main definitions

* `Slot`, `Dinode.map` — the blocks of an inode.
* `Owner`, `Owned` — where a block is, and that the free map agrees.
* `Whole` — an inode without holes.

## Main results

* `Owned.grow`, `Owned.detach` — an inode gets blocks, and a block is freed.
* `Dinode.map_setBlock` — writing to a block that is not the indirect block of an
  inode leaves its map alone.
-/

namespace Xv6.Fs

open Function

variable {T : Type}

/-! ### The blocks of an inode -/

/-- A place in an inode for the address of a block. -/
inductive Slot where
  /-- The indirect block. -/
  | ind
  /-- Block `bn` of the contents. -/
  | data (bn : ℕ)
  deriving DecidableEq

/-- The addresses of an inode; 0 where there is no block. -/
def Dinode.map (d : Dinode) (blk : ℕ → Block) : Slot → ℕ
  | .ind => d.addrs NDIRECT
  | .data bn =>
      if bn < NDIRECT then d.addrs bn
      else if bn < MAXFILE ∧ d.addrs NDIRECT ≠ 0 then
        entry (blk (d.addrs NDIRECT)) (bn - NDIRECT)
      else 0

variable {d d' : Dinode} {blk : ℕ → Block} {k bn j b : ℕ}

@[simp] theorem Dinode.map_ind : d.map blk .ind = d.addrs NDIRECT := rfl

theorem Dinode.map_direct (h : bn < NDIRECT) : d.map blk (.data bn) = d.addrs bn := if_pos h

theorem Dinode.map_indirect (h : NDIRECT ≤ bn) (hlt : bn < MAXFILE) (h0 : d.addrs NDIRECT ≠ 0) :
    d.map blk (.data bn) = entry (blk (d.addrs NDIRECT)) (bn - NDIRECT) := by
  rw [Dinode.map, if_neg (Nat.not_lt.mpr h), if_pos ⟨hlt, h0⟩]

theorem Dinode.map_of_no_ind (h : NDIRECT ≤ bn) (h0 : d.addrs NDIRECT = 0) :
    d.map blk (.data bn) = 0 := by
  rw [Dinode.map, if_neg (Nat.not_lt.mpr h), if_neg fun hc => hc.2 h0]

theorem Dinode.map_of_le (h : MAXFILE ≤ bn) : d.map blk (.data bn) = 0 := by
  have hn : ¬ bn < NDIRECT := by
    have : NDIRECT ≤ MAXFILE := by decide
    omega
  rw [Dinode.map, if_neg hn, if_neg fun hc => absurd hc.1 (Nat.not_lt.mpr h)]

theorem Dinode.map_congr (h : ∀ k ≤ NDIRECT, d'.addrs k = d.addrs k) : d'.map blk = d.map blk := by
  funext σ
  cases σ with
  | ind => exact h NDIRECT le_rfl
  | data bn =>
    rw [Dinode.map, Dinode.map, h NDIRECT le_rfl]
    by_cases hbn : bn < NDIRECT
    · rw [if_pos hbn, if_pos hbn, h bn hbn.le]
    · rw [if_neg hbn, if_neg hbn]

theorem Dinode.map_block {blk' : ℕ → Block}
    (h : d.addrs NDIRECT ≠ 0 → blk' (d.addrs NDIRECT) = blk (d.addrs NDIRECT)) :
    d.map blk' = d.map blk := by
  funext σ
  cases σ with
  | ind => rfl
  | data bn =>
    rw [Dinode.map, Dinode.map]
    by_cases h0 : d.addrs NDIRECT = 0
    · simp [h0]
    · rw [h h0]

theorem Dinode.map_setBlock {x : Block} (h : d.addrs NDIRECT = 0 ∨ d.addrs NDIRECT ≠ b) :
    d.map (update blk b x) = d.map blk :=
  Dinode.map_block fun h0 => update_of_ne (h.resolve_left h0) ..

theorem Dinode.map_eq_zero (h : ∀ k ≤ NDIRECT, d.addrs k = 0) : d.map blk = fun _ => 0 := by
  funext σ
  cases σ with
  | ind => exact h NDIRECT le_rfl
  | data bn =>
    by_cases hbn : bn < NDIRECT
    · rw [Dinode.map_direct hbn, h bn hbn.le]
    · exact Dinode.map_of_no_ind (Nat.not_lt.mp hbn) (h NDIRECT le_rfl)

theorem Dinode.map_setDirect (ha : d'.addrs = update d.addrs k b) (hk : k < NDIRECT) :
    d'.map blk = update (d.map blk) (.data k) b := by
  have hind : d'.addrs NDIRECT = d.addrs NDIRECT := by rw [ha, update_of_ne hk.ne']
  funext σ
  cases σ with
  | ind =>
    rwa [update_of_ne (by simp)]
  | data bn =>
    obtain rfl | hbn := eq_or_ne bn k
    · rw [update_self, Dinode.map_direct hk, ha, update_self]
    · rw [update_of_ne (by simpa using hbn), Dinode.map, Dinode.map, hind, ha,
        update_of_ne hbn]

theorem Dinode.map_setInd (ha : d'.addrs = update d.addrs NDIRECT b)
    (h0 : d.addrs NDIRECT = 0) (hz : blk b = fun _ => 0) :
    d'.map blk = update (d.map blk) .ind b := by
  have hind : d'.addrs NDIRECT = b := by rw [ha, update_self]
  funext σ
  cases σ with
  | ind =>
    rwa [update_self]
  | data bn =>
    rw [update_of_ne (by simp)]
    by_cases hbn : bn < NDIRECT
    · rw [Dinode.map_direct hbn, Dinode.map_direct hbn, ha, update_of_ne hbn.ne]
    · rw [Dinode.map_of_no_ind (Nat.not_lt.mp hbn) h0, Dinode.map, if_neg hbn, hind, hz]
      split_ifs <;> rfl

/-- The slot of an address in the inode. -/
def AddrSlot (k : ℕ) (σ : Slot) : Prop := (k < NDIRECT ∧ σ = .data k) ∨ (k = NDIRECT ∧ σ = .ind)

theorem AddrSlot.map {σ : Slot} (h : AddrSlot k σ) : d.map blk σ = d.addrs k := by
  rcases h with ⟨hk, rfl⟩ | ⟨rfl, rfl⟩
  · exact Dinode.map_direct hk
  · rfl

theorem AddrSlot.map_set {σ : Slot} (h : AddrSlot k σ) (ha : d'.addrs = update d.addrs k b)
    (h0 : d.addrs k = 0) (hz : blk b = fun _ => 0) : d'.map blk = update (d.map blk) σ b := by
  rcases h with ⟨hk, rfl⟩ | ⟨rfl, rfl⟩
  · exact Dinode.map_setDirect ha hk
  · exact Dinode.map_setInd ha h0 hz

/-- Setting an entry of the indirect block. -/
theorem Dinode.map_setEntry (h0 : d.addrs NDIRECT ≠ 0) (hj : j < NINDIRECT) (hb : b < 2 ^ 32) :
    d.map (update blk (d.addrs NDIRECT) (Bytes.set 4 (blk (d.addrs NDIRECT)) (4 * j) b)) =
      update (d.map blk) (.data (NDIRECT + j)) b := by
  funext σ
  cases σ with
  | ind => rw [update_of_ne (by simp), Dinode.map_ind, Dinode.map_ind]
  | data bn =>
    by_cases hbn : bn < NDIRECT
    · have hne : bn ≠ NDIRECT + j := by omega
      rw [update_of_ne (by simpa using hne), Dinode.map_direct hbn, Dinode.map_direct hbn]
    by_cases hlt : bn < MAXFILE
    · rw [Dinode.map_indirect (Nat.not_lt.mp hbn) hlt h0, update_self]
      by_cases hbj : bn = NDIRECT + j
      · subst hbj
        rw [update_self, Nat.add_sub_cancel_left, entry,
          Bytes.get_set_self (by simpa using hb)]
      · rw [update_of_ne (by simpa using hbj),
          Dinode.map_indirect (Nat.not_lt.mp hbn) hlt h0, entry, entry]
        exact Bytes.get_set_of_disjoint (by omega)
    · have hne : bn ≠ NDIRECT + j := by
        have : MAXFILE = NDIRECT + NINDIRECT := rfl
        omega
      rw [update_of_ne (by simpa using hne), Dinode.map_of_le (Nat.not_lt.mp hlt),
        Dinode.map_of_le (Nat.not_lt.mp hlt)]

/-! ### Holes -/

/-- How many blocks a file of that size has. -/
def nblocks (size : ℕ) : ℕ := (size + BSIZE - 1) / BSIZE

theorem lt_nblocks {off size : ℕ} (h : off < size) : off / BSIZE < nblocks size := by
  show off / 1024 < (size + 1024 - 1) / 1024
  omega

/-- An inode that is not too big, with a block for everything below its size. -/
def Whole (size : ℕ) (m : Slot → ℕ) : Prop :=
  size ≤ MAXFILE * BSIZE ∧ ∀ bn < nblocks size, m (.data bn) ≠ 0

/-! ### Owners -/

/-- Where a block is. -/
inductive Owner (T : Type) where
  | free
  /-- Before the data blocks. -/
  | system
  /-- Just allocated by a process. -/
  | held (t : T)
  /-- Named by a slot of an inode. -/
  | slot (inum : ℕ) (σ : Slot)
  deriving DecidableEq

/-- The number of blocks before the data blocks. -/
def Superblock.nmeta (sb : Superblock) : ℕ := sb.size - sb.nblocks

/-- The free map agrees with the maps of the inodes and with what processes hold. -/
structure Owned (sb : Superblock) (bit : ℕ → Bool) (maps : ℕ → Slot → ℕ) (held : T → Option ℕ)
    (own : ℕ → Owner T) : Prop where
  system : ∀ b, own b = .system ↔ b < sb.nmeta
  used : ∀ b < sb.size, bit b = true ↔ own b ≠ .free
  range : ∀ b, own b ≠ .free → b < sb.size
  held : ∀ b t, own b = .held t ↔ held t = some b
  slot : ∀ b i σ, own b = .slot i σ ↔ b ≠ 0 ∧ maps i σ = b

namespace Owned

variable {sb : Superblock} {bit : ℕ → Bool} {maps maps' : ℕ → Slot → ℕ} {held : T → Option ℕ}
  {own : ℕ → Owner T} {x i i' : ℕ} {σ σ' : Slot} {t : T}

section

variable (h : Owned sb bit maps held own)

include h

theorem slot_unique {j : ℕ} {τ : Slot} (hx : maps i σ ≠ 0)
    (he : maps j τ = maps i σ) : j = i ∧ τ = σ := by
  have h1 := (h.slot _ i σ).mpr ⟨hx, rfl⟩
  have h2 := (h.slot _ j τ).mpr ⟨hx, he⟩
  rw [h1, Owner.slot.injEq] at h2
  exact ⟨h2.1.symm, h2.2.symm⟩

theorem bit_slot (h0 : maps i σ ≠ 0) : maps i σ < sb.size ∧ bit (maps i σ) = true := by
  have hown : own (maps i σ) ≠ .free := by
    rw [(h.slot _ i σ).mpr ⟨h0, rfl⟩]
    simp
  exact ⟨h.range _ hown, (h.used _ (h.range _ hown)).mpr hown⟩

/-- An inode gets free blocks for empty slots. -/
theorem grow {m : Slot → ℕ} {bit' : ℕ → Bool} (hold : ∀ σ, maps i σ ≠ 0 → m σ = maps i σ)
    (hnew : ∀ σ, maps i σ = 0 → m σ ≠ 0 → bit (m σ) = false ∧ m σ < sb.size)
    (hone : ∀ σ σ', m σ ≠ 0 → m σ' = m σ → σ' = σ)
    (hbit : ∀ b < sb.size, bit' b = true ↔ bit b = true ∨ ∃ σ, m σ ≠ 0 ∧ m σ = b) :
    ∃ own', Owned sb bit' (update maps i m) held own' := by
  classical
  -- a slot that names a free block is a new one
  have hfree : ∀ b σ, m σ ≠ 0 → m σ = b → own b = .free → maps i σ = 0 := by
    intro b σ h0 hb ho
    by_contra hc
    have hs := (h.slot b i σ).mpr ⟨hb ▸ h0, (hold σ hc).symm.trans hb⟩
    rw [ho] at hs
    cases hs
  have hslot : ∀ b j τ, own b = .free → b ≠ 0 → maps j τ ≠ b := by
    intro b j τ ho hb hc
    rw [(h.slot b j τ).mpr ⟨hb, hc⟩] at ho
    cases ho
  have hsome : ∀ b σ, b ≠ 0 → own b ≠ .free → (m σ = b ↔ maps i σ = b) := by
    intro b σ hb ho
    constructor
    · rintro rfl
      by_contra hc
      by_cases h0 : maps i σ = 0
      · obtain ⟨hf, hlt⟩ := hnew σ h0 hb
        rw [(h.used _ hlt).mpr ho] at hf
        cases hf
      · exact hc (hold σ h0).symm
    · rintro rfl
      exact hold σ hb
  -- a free block that a slot names now is that slot's; all others keep their owner
  let own' : ℕ → Owner T := fun b => if own b ≠ .free then own b
    else if hσ : ∃ σ, m σ ≠ 0 ∧ m σ = b then .slot i hσ.choose else .free
  have hkept : ∀ b, own b ≠ .free → own' b = own b := fun b ho => if_pos ho
  have hgot : ∀ b σ, own b = .free → m σ ≠ 0 → m σ = b → own' b = .slot i σ := by
    intro b σ ho h0 hb
    have hσ : ∃ σ, m σ ≠ 0 ∧ m σ = b := ⟨σ, h0, hb⟩
    have hc := hone σ hσ.choose h0 (hσ.choose_spec.2.trans hb.symm)
    show (if own b ≠ .free then own b else if hσ : ∃ σ, m σ ≠ 0 ∧ m σ = b then .slot i hσ.choose
      else .free) = _
    rw [if_neg (not_not.mpr ho), dif_pos hσ, hc]
  have hleft : ∀ b, own b = .free → (¬ ∃ σ, m σ ≠ 0 ∧ m σ = b) → own' b = .free := by
    intro b ho hσ
    show (if own b ≠ .free then own b else if hσ : ∃ σ, m σ ≠ 0 ∧ m σ = b then .slot i hσ.choose
      else .free) = _
    rw [if_neg (not_not.mpr ho), dif_neg hσ]
  refine ⟨own', fun b => ?_, fun b hb => ?_, fun b => ?_, fun b u => ?_, fun b j τ => ?_⟩
  all_goals by_cases ho : own b = .free
  all_goals try by_cases hσ : ∃ σ, m σ ≠ 0 ∧ m σ = b
  · obtain ⟨σ, h0, hb⟩ := hσ
    rw [hgot b σ ho h0 hb, ← h.system, ho]
    simp
  · rw [hleft b ho hσ, ← h.system, ho]
  · rw [hkept b ho, h.system]
  · rw [hkept b ho, h.system]
  · obtain ⟨σ, h0, hb'⟩ := hσ
    rw [hgot b σ ho h0 hb', hbit b hb]
    exact iff_of_true (Or.inr ⟨σ, h0, hb'⟩) (by simp)
  · rw [hleft b ho hσ, hbit b hb, h.used b hb, ho]
    simpa using hσ
  · rw [hkept b ho, hbit b hb, h.used b hb]
    exact iff_of_true (Or.inl ho) ho
  · rw [hkept b ho, hbit b hb, h.used b hb]
    exact iff_of_true (Or.inl ho) ho
  · obtain ⟨σ, h0, hb⟩ := hσ
    exact fun _ => hb ▸ (hnew σ (hfree b σ h0 hb ho) h0).2
  · rw [hleft b ho hσ]
    exact fun hc => absurd rfl hc
  · exact fun _ => h.range b ho
  · exact fun _ => h.range b ho
  · obtain ⟨σ, h0, hb⟩ := hσ
    rw [hgot b σ ho h0 hb, ← h.held, ho]
    simp
  · rw [hleft b ho hσ, ← h.held, ho]
  · rw [hkept b ho, h.held]
  · rw [hkept b ho, h.held]
  · obtain ⟨σ, h0, hb⟩ := hσ
    rw [hgot b σ ho h0 hb, Owner.slot.injEq]
    by_cases hj : j = i
    · rw [hj, update_self]
      constructor
      · rintro ⟨-, rfl⟩
        exact ⟨hb ▸ h0, hb⟩
      · rintro ⟨-, hτ⟩
        exact ⟨rfl, (hone σ τ h0 (hτ.trans hb.symm)).symm⟩
    · rw [update_of_ne hj]
      exact iff_of_false (fun hc => hj hc.1.symm) fun hc => hslot b j τ ho hc.1 hc.2
  · rw [hleft b ho hσ]
    refine iff_of_false (by simp) fun hc => ?_
    by_cases hj : j = i
    · rw [hj, update_self] at hc
      exact hσ ⟨τ, hc.2 ▸ hc.1, hc.2⟩
    · rw [update_of_ne hj] at hc
      exact hslot b j τ ho hc.1 hc.2
  all_goals
    rw [hkept b ho, h.slot]
    by_cases hj : j = i
    · rw [hj, update_self]
      exact and_congr_right fun hb => (hsome b τ hb ho).symm
    · rw [update_of_ne hj]

/-- It gets one. -/
theorem attach (hx : bit x = false) (hlt : x < sb.size) (h0 : x ≠ 0)
    (hσ : maps i σ = 0) : ∃ own', Owned sb (update bit x true)
      (update maps i (update (maps i) σ x)) held own' := by
  -- a free block is not in the map
  have hne : ∀ τ, maps i τ ≠ x := by
    rintro τ rfl
    rw [(h.bit_slot h0).2] at hx
    cases hx
  refine h.grow (fun τ hτ => ?_) (fun τ h1 h2 => ?_) (fun τ τ' h1 he => ?_) fun b _ => ?_
  · rw [update_of_ne]
    rintro rfl
    exact hτ hσ
  · have hτ : τ = σ := by
      by_contra hc
      rw [update_of_ne hc] at h2
      exact h2 h1
    rw [hτ, update_self]
    exact ⟨hx, hlt⟩
  · by_cases hτ : τ = σ <;> by_cases hτ' : τ' = σ
    · rw [hτ, hτ']
    · rw [hτ, update_self, update_of_ne hτ'] at he
      exact absurd he (hne τ')
    · rw [hτ', update_self, update_of_ne hτ] at he
      exact absurd he.symm (hne τ)
    · rw [update_of_ne hτ] at h1 he
      rw [update_of_ne hτ'] at he
      exact (h.slot_unique h1 he).2
  · by_cases hb : b = x
    · rw [hb, update_self]
      exact iff_of_true rfl (Or.inr ⟨σ, by rwa [update_self], update_self ..⟩)
    · rw [update_of_ne hb]
      refine ⟨Or.inl, fun hc => hc.elim id ?_⟩
      rintro ⟨τ, h1, rfl⟩
      have hτ : τ ≠ σ := by
        rintro rfl
        exact hb (update_self ..)
      rw [update_of_ne hτ] at h1 ⊢
      exact (h.bit_slot h1).2

/-- The block of a slot is freed, and the slot is empty. -/
theorem detach (hσ : maps i σ = x) (h0 : x ≠ 0)
    (hmaps : maps' = update maps i (update (maps i) σ 0)) :
    Owned sb (update bit x false) maps' held (update own x .free) := by
  have hown := (h.slot x i σ).mpr ⟨h0, hσ⟩
  subst hmaps
  refine ⟨fun b => ?_, fun b hb => ?_, fun b => ?_, fun b u => ?_, fun b i' σ' => ?_⟩
  all_goals by_cases hbx : b = x
  · subst hbx
    rw [update_self, ← h.system, hown]
    simp
  · rw [update_of_ne hbx, h.system]
  · subst hbx
    simp
  · rw [update_of_ne hbx, update_of_ne hbx, h.used b hb]
  · subst hbx
    rw [update_self]
    exact fun hc => absurd rfl hc
  · rw [update_of_ne hbx]
    exact h.range b
  · subst hbx
    rw [update_self, ← h.held, hown]
    simp
  · rw [update_of_ne hbx, h.held]
  -- nothing else named the block
  · subst hbx
    rw [update_self]
    refine iff_of_false (by simp) fun hc => ?_
    obtain rfl | hi := eq_or_ne i' i
    · rw [update_self] at hc
      by_cases hs : σ' = σ
      · rw [hs, update_self] at hc
        exact hc.1 hc.2.symm
      · rw [update_of_ne hs, ← h.slot, hown, Owner.slot.injEq] at hc
        exact hs hc.2.symm
    · rw [update_of_ne hi, ← h.slot, hown, Owner.slot.injEq] at hc
      exact hi hc.1.symm
  · rw [update_of_ne hbx, h.slot]
    obtain rfl | hi := eq_or_ne i' i
    · rw [update_self]
      obtain rfl | hs := eq_or_ne σ' σ
      · rw [update_self, hσ]
        exact iff_of_false (fun hc => hbx hc.2.symm) fun hc => hc.1 hc.2.symm
      · rw [update_of_ne hs]
    · rw [update_of_ne hi]

end

end Owned

end Xv6.Fs
