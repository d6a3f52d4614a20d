import Xv6.Fs.Read
import Mathlib.Data.List.GetD

/-!
# Files as arrays of bytes

What `readi` and `writei` do to one file while nothing else happens: a file is an
array of bytes that grows at its end.  `writei` goes through the file block by
block; a round finds or allocates a block (`bmap`) and stores in it what it can
fetch from the buffer.  It ends early if the disk is full, or if a byte cannot be
fetched.

Every block in the map of the file is marked as used and named once (`Tidy`).  A
block that is allocated was free before, so it is none of the blocks that the file
or any other file had, and nothing that was there is lost (`Edits`).

## Main definitions

* `State.mapOf`, `State.byte` — the blocks and the bytes of a file.
* `Tidy` — the blocks of a file are its own.
* `Keeps`, `Edits` — what is left alone, and where bytes may have changed.
* `Transfer` — what the loop of `writei` has done.

## Main results

* `ends_balloc`, `ends_bmap_alloc` — blocks are found or allocated.
* `ends_writeFrom`, `ends_writei` — bytes are stored.
* `files_are_byte_arrays` — **`readi` and `writei` implement an array of bytes.**
-/

namespace Xv6.Fs

open Conc Function

variable {allow : String → Prop} {t : Fin NPROC} {s s' s'' : State} {e : Fin NINODE} {σ : Slot}
  {a b k bn off n lo hi lo' hi' : ℕ} {src : ℕ → Option UInt8} {dst : ℕ → Bool}

/-! ### One file -/

/-- The blocks of an inode in memory. -/
def State.mapOf (s : State) (e : Fin NINODE) : Slot → ℕ := (s.inode e).map s.block

/-- The byte of a file at an offset. -/
def State.byte (s : State) (e : Fin NINODE) (o : ℕ) : UInt8 :=
  s.block (s.mapOf e (.data (o / BSIZE))) (o % BSIZE)

/-- No block is free. -/
def State.Full (s : State) : Prop := ∀ b < s.sb.size, s.bit b = true

/-- The blocks of a file are in use, and no two of its slots name the same one. -/
structure Tidy (e : Fin NINODE) (s : State) : Prop where
  small : s.sb.size ≤ 2 ^ 32
  boot : s.bit 0 = true
  used : ∀ σ, s.mapOf e σ ≠ 0 → s.bit (s.mapOf e σ) = true
  one : ∀ σ σ', s.mapOf e σ ≠ 0 → s.mapOf e σ' = s.mapOf e σ → σ' = σ

/-- What a function that works on one file leaves alone: other files and inodes, and
the blocks that the file has. -/
structure Keeps (e : Fin NINODE) (s s' : State) : Prop where
  sb : s'.sb = s.sb
  tables : s'.toTables = s.toTables
  others : ∀ e', e' ≠ e → s'.inode e' = s.inode e'
  self : s'.inode e = { s.inode e with addrs := (s'.inode e).addrs, size := (s'.inode e).size }
  dinode : ∀ i, i ≠ (s.inode e).inum → s'.dinode i = s.dinode i
  bit : ∀ b, s.bit b = true → s'.bit b = true
  map : ∀ σ, s.mapOf e σ ≠ 0 → s'.mapOf e σ = s.mapOf e σ
  fresh : ∀ σ, s.mapOf e σ = 0 → s'.mapOf e σ ≠ 0 → s.bit (s'.mapOf e σ) = false
  block : ∀ b, s.bit b = true → (∀ σ, s.mapOf e σ ≠ b) → s'.block b = s.block b

theorem Keeps.refl : Keeps e s s :=
  ⟨rfl, rfl, fun _ _ => rfl, rfl, fun _ _ => rfl, fun _ h => h, fun _ _ => rfl,
    fun _ h0 h => absurd h0 h, fun _ _ _ => rfl⟩

theorem Keeps.not_mine (h : Keeps e s s') (hb : s.bit b = true) (hno : ∀ σ, s.mapOf e σ ≠ b) :
    ∀ σ, s'.mapOf e σ ≠ b := by
  intro σ hc
  by_cases h0 : s.mapOf e σ = 0
  · by_cases h0' : s'.mapOf e σ = 0
    · exact hno σ (h0.trans (h0'.symm.trans hc))
    · have hfree := h.fresh σ h0 h0'
      rw [hc, hb] at hfree
      cases hfree
  · rw [h.map σ h0] at hc
    exact hno σ hc

theorem Keeps.trans (h : Keeps e s s') (h' : Keeps e s' s'') : Keeps e s s'' where
  sb := h'.sb.trans h.sb
  tables := h'.tables.trans h.tables
  others e' he := (h'.others e' he).trans (h.others e' he)
  self := by
    rw [h'.self, h.self]
  dinode i hi := by
    have hnum : (s'.inode e).inum = (s.inode e).inum := by rw [h.self]
    rw [h'.dinode i (by rwa [hnum]), h.dinode i hi]
  bit b hb := h'.bit b (h.bit b hb)
  map σ h0 := by
    have hmap := h.map σ h0
    rw [h'.map σ (by rwa [hmap]), hmap]
  fresh σ h0 h1 := by
    by_cases h0' : s'.mapOf e σ = 0
    · have hfree := h'.fresh σ h0' h1
      by_contra hc
      rw [h.bit _ (by simpa using hc)] at hfree
      cases hfree
    · rw [h'.map σ h0'] at h1 ⊢
      exact h.fresh σ h0 h1
  block b hb hno := by
    rw [h'.block b (h.bit b hb) (h.not_mine hb hno), h.block b hb hno]

/-- The file has been changed between two offsets only, and may have new blocks. -/
structure Edits (e : Fin NINODE) (lo hi : ℕ) (s s' : State) : Prop extends Keeps e s s' where
  tidy : Tidy e s'
  size : (s'.inode e).size = (s.inode e).size
  same : s'.dinode = s.dinode
  grew : ∀ b, s'.bit b = true → s.bit b = true ∨ b < s.sb.size ∧ b ≠ 0 ∧ ∃ σ, s'.mapOf e σ = b
  bytes : ∀ o, s.mapOf e (.data (o / BSIZE)) ≠ 0 → o < lo ∨ hi ≤ o → s'.byte e o = s.byte e o

theorem Edits.refl (h : Tidy e s) : Edits e lo hi s s :=
  ⟨.refl, h, rfl, rfl, fun _ => Or.inl, fun _ _ _ => rfl⟩

theorem Edits.mono (h : Edits e lo hi s s') (hlo : lo' ≤ lo) (hhi : hi ≤ hi') :
    Edits e lo' hi' s s' :=
  { h with bytes := fun o ho hout => h.bytes o ho (by omega) }

theorem Edits.trans (h : Edits e lo hi s s') (h' : Edits e lo hi s' s'') : Edits e lo hi s s'' where
  toKeeps := h.toKeeps.trans h'.toKeeps
  tidy := h'.tidy
  size := h'.size.trans h.size
  same := h'.same.trans h.same
  grew b hb := by
    rcases h'.grew b hb with hb' | ⟨hlt, h0, σ, hσ⟩
    · rcases h.grew b hb' with hb'' | ⟨hlt, h0, σ, hσ⟩
      · exact Or.inl hb''
      · exact Or.inr ⟨hlt, h0, σ, (h'.map σ (hσ ▸ h0)).trans hσ⟩
    · exact Or.inr ⟨h.sb ▸ hlt, h0, σ, hσ⟩
  bytes o ho hout := by
    have hmap := h.map _ ho
    rw [h'.bytes o (by rwa [hmap]) hout, h.bytes o ho hout]

/-! ### Blocks that are allocated -/

theorem firstFree_some {d : Disk} (h : d.firstFree b = some a) :
    d.bit a = false ∧ a < d.sb.size ∧ ∀ x, b ≤ x → x < a → d.bit x = true := by
  obtain ⟨hbit, hmem, hbelow⟩ := List.find?_range'_eq_some.mp h
  obtain ⟨hle, hlt⟩ := List.mem_range'_1.mp hmem
  exact ⟨by simpa using hbit, by omega, by simpa using hbelow⟩

theorem firstFree_none {d : Disk} (h : d.firstFree b = none) (ha : b ≤ a) (hlt : a < b + BPB)
    (hsize : a < d.sb.size) : d.bit a = true := by
  have hm : a ∈ List.range' b (min BPB (d.sb.size - b)) := by
    rw [List.mem_range'_1]
    omega
  simpa using List.find?_eq_none.mp h a hm

/-- A state in which a block has just been allocated. -/
def State.allocated (s : State) (a : ℕ) : State := (s.setBit a true).setBlock a fun _ => 0

/-- What `balloc` does: it finds the first free block, or there is none. -/
def Alloced (s : State) (a : ℕ) (s' : State) : Prop :=
  (a = 0 ∧ s' = s ∧ s.Full) ∨ (a ≠ 0 ∧ s.bit a = false ∧ a < s.sb.size ∧
    (∀ x < a, s.bit x = true) ∧ s' = s.allocated a)

/-- The loop of `balloc`; the induction is on the blocks of the map that are left. -/
theorem ends_ballocFrom (h0 : s.bit 0 = true) (n : ℕ) :
    ∀ b, (∀ x < b, x < s.sb.size → s.bit x = true) →
    s.sb.size ≤ b + n * BPB → Ends allow t (ballocFrom n b) s (Alloced s) := by
  induction n with
  | zero =>
    intro b hbelow hsize
    exact Or.inl ⟨rfl, rfl, fun x hx => hbelow x (by omega) hx⟩
  | succ n ih =>
    intro b hbelow hsize
    rw [ballocFrom]
    have hin : Ends allow t (ballocIn b) s fun r s' =>
        (r = none ∧ s' = s ∧ s.firstFree b = none) ∨
        ∃ x, r = some x ∧ s' = s.setBit x true ∧ s.firstFree b = some x := by
      unfold ballocIn Prog.atomic
      rw [ends_step]
      cases hfree : s.firstFree b with
      | none => exact Or.inl ⟨rfl, rfl, rfl⟩
      | some x => exact Or.inr ⟨x, rfl, rfl, rfl⟩
    refine hin.bind fun r s' hr => ?_
    rcases hr with ⟨rfl, rfl, hfree⟩ | ⟨x, rfl, rfl, hfree⟩
    · -- no bit of this block is clear, so none is below the next one
      refine ih (b + BPB) (fun x hx hlt => ?_) (by rw [Nat.succ_mul] at hsize; omega)
      by_cases hxb : x < b
      · exact hbelow x hxb hlt
      · exact firstFree_none hfree (not_lt.mp hxb) hx hlt
    · obtain ⟨hbit, hlt, hleast⟩ := firstFree_some hfree
      refine Or.inr ⟨?_, hbit, hlt, fun y hy => ?_, rfl⟩
      · rintro rfl
        rw [h0] at hbit
        cases hbit
      · by_cases hyb : y < b
        · exact hbelow y hyb (hy.trans hlt)
        · exact hleast y (not_lt.mp hyb) hy

/-- **A free block is found, unless there is none.** -/
theorem ends_balloc (h0 : s.bit 0 = true) : Ends allow t balloc s (Alloced s) := by
  unfold balloc
  rw [ends_look_bind]
  refine ends_ballocFrom h0 _ 0 (fun x hx => absurd hx (Nat.not_lt_zero x)) ?_
  show s.sb.size ≤ 0 + (s.sb.size + 8192 - 1) / 8192 * 8192
  omega

section

variable (h : Tidy e s) (ha : s.bit a = false) (ha0 : a ≠ 0)

include h ha ha0

theorem Tidy.ne_of_free (σ : Slot) : s.mapOf e σ ≠ a := by
  rintro rfl
  rw [h.used σ ha0] at ha
  cases ha

theorem Tidy.allocated_map : (s.allocated a).mapOf e = s.mapOf e :=
  Dinode.map_setBlock (Or.inr (h.ne_of_free ha ha0 .ind))

/-- A new block is named by an empty slot of the file. -/
theorem Tidy.attach (hsb : s'.sb = s.sb) (hmap : s'.mapOf e = update (s.mapOf e) σ a)
    (hbit : s'.bit = update s.bit a true) : Tidy e s' := by
  have hnew := h.ne_of_free ha ha0
  refine ⟨hsb ▸ h.small, ?_, fun τ hτ => ?_, fun τ τ' hτ heq => ?_⟩
  · rw [hbit, update_of_ne ha0.symm]
    exact h.boot
  · rw [hmap, hbit] at *
    by_cases hts : τ = σ
    · rw [hts, update_self, update_self]
    · rw [update_of_ne hts] at hτ ⊢
      rw [update_of_ne (hnew τ)]
      exact h.used τ hτ
  · rw [hmap] at hτ heq
    by_cases hts : τ = σ
    · by_cases hts' : τ' = σ
      · rw [hts, hts']
      · rw [hts, update_self, update_of_ne hts'] at heq
        exact absurd heq (hnew τ')
    · rw [update_of_ne hts] at hτ heq
      by_cases hts' : τ' = σ
      · rw [hts', update_self] at heq
        exact absurd heq.symm (hnew τ)
      · rw [update_of_ne hts'] at heq
        exact h.one τ τ' hτ heq

end

/-- Nothing is lost when an empty slot gets a new block. -/
theorem Edits.attach (h : Tidy e s) (hσ : s.mapOf e σ = 0) (ha : s.bit a = false) (ha0 : a ≠ 0)
    (hlt : a < s.sb.size)
    (hsb : s'.sb = s.sb) (htab : s'.toTables = s.toTables) (hdin : s'.dinode = s.dinode)
    (hoth : ∀ e', e' ≠ e → s'.inode e' = s.inode e')
    (hself : s'.inode e = { s.inode e with addrs := (s'.inode e).addrs })
    (hmap : s'.mapOf e = update (s.mapOf e) σ a)
    (hbit : s'.bit = update s.bit a true)
    (hblk : ∀ b, b ≠ a → b ≠ s.mapOf e .ind → s'.block b = s.block b) : Edits e lo hi s s' := by
  have hnew := h.ne_of_free ha ha0
  have hold : ∀ τ, s.mapOf e τ ≠ 0 → s'.mapOf e τ = s.mapOf e τ := by
    intro τ hτ
    rw [hmap, update_of_ne]
    rintro rfl
    exact hτ hσ
  have hsize : (s'.inode e).size = (s.inode e).size := by rw [hself]
  refine ⟨⟨hsb, htab, hoth, ?_, fun i _ => by rw [hdin], fun b hb => ?_, hold, fun τ h0 h1 => ?_,
    fun b hb hno => ?_⟩,
    h.attach ha ha0 hsb hmap hbit, hsize, hdin, fun b hb => ?_, fun o ho _ => ?_⟩
  · rw [hself]
  · rw [hbit]
    by_cases hba : b = a
    · rw [hba, update_self]
    · rwa [update_of_ne hba]
  · have hτ : τ = σ := by
      by_contra hc
      rw [hmap, update_of_ne hc] at h1
      exact h1 h0
    rwa [hτ, hmap, update_self]
  · refine hblk b ?_ (hno .ind).symm
    rintro rfl
    rw [ha] at hb
    cases hb
  · rw [hbit] at hb
    by_cases hba : b = a
    · exact Or.inr ⟨hba ▸ hlt, hba ▸ ha0, σ, by rw [hmap, update_self, hba]⟩
    · rw [update_of_ne hba] at hb
      exact Or.inl hb
  · unfold State.byte
    rw [hold _ ho, hblk _ (hnew _) fun hc => ?_]
    -- the indirect block is not a block of the contents
    have hslot := h.one _ _ ho hc.symm
    cases hslot

/-- A new block becomes `ip->addrs[k]`. -/
theorem Edits.setAddr (lo hi : ℕ) (h : Tidy e s) (hk : AddrSlot k σ)
    (h0 : (s.inode e).addrs k = 0) (ha : s.bit a = false)
    (ha0 : a ≠ 0) (hlt : a < s.sb.size) (hs' : s' = (s.allocated a).setInode e
      { s.inode e with addrs := update (s.inode e).addrs k a }) :
    Edits e lo hi s s' ∧ s'.mapOf e σ = a := by
  have hin : s'.inode e = { s.inode e with addrs := update (s.inode e).addrs k a } := by
    rw [hs', State.setInode_self]
  have hblk : s'.block = (s.allocated a).block := by rw [hs']; rfl
  have hmap : s'.mapOf e = update (s.mapOf e) σ a := by
    rw [← h.allocated_map ha ha0]
    unfold State.mapOf
    rw [hin, hblk]
    exact hk.map_set rfl h0 (update_self ..)
  constructor
  · refine Edits.attach h (hk.map.trans h0) ha ha0 hlt (by rw [hs']; rfl) (by rw [hs']; rfl)
      (by rw [hs']; rfl)
      (fun e' he => ?_) (by rw [hin]) hmap (by rw [hs']; rfl) fun b hba _ => ?_
    · rw [hs', State.setInode_of_ne _ _ he]
      rfl
    · rw [hblk]
      exact update_of_ne hba _ _
  · rw [hmap, update_self]

/-- A new block becomes an entry of the indirect block. -/
theorem Edits.setEntry {ind j : ℕ} (lo hi : ℕ) (h : Tidy e s) (hind : s.mapOf e .ind = ind)
    (hi0 : ind ≠ 0) (hj : j < NINDIRECT)
    (h0 : s.mapOf e (.data (NDIRECT + j)) = 0) (ha : s.bit a = false) (ha0 : a ≠ 0)
    (hlt : a < s.sb.size)
    (hs' : s' = (s.allocated a).setBlock ind (Bytes.set 4 ((s.allocated a).block ind) (4 * j) a)) :
    Edits e lo hi s s' ∧ s'.mapOf e (.data (NDIRECT + j)) = a := by
  have hind : (s.inode e).addrs NDIRECT = ind := hind
  have hmap : s'.mapOf e = update (s.mapOf e) (.data (NDIRECT + j)) a := by
    have hset : Dinode.map (s.inode e).toDinode (update (s.allocated a).block
        ((s.inode e).addrs NDIRECT)
        (Bytes.set 4 ((s.allocated a).block ((s.inode e).addrs NDIRECT)) (4 * j) a)) =
        update ((s.allocated a).mapOf e) (.data (NDIRECT + j)) a :=
      Dinode.map_setEntry (by rwa [hind]) hj (lt_of_lt_of_le hlt h.small)
    rw [hind, h.allocated_map ha ha0] at hset
    rwa [hs']
  constructor
  · refine Edits.attach h h0 ha ha0 hlt (by rw [hs']; rfl) (by rw [hs']; rfl) (by rw [hs']; rfl)
      (fun _ _ => by rw [hs']; rfl) (by rw [hs']; rfl) hmap (by rw [hs']; rfl) fun b hba hbi => ?_
    have hne : b ≠ ind := fun hc => hbi (hc.trans hind.symm)
    rw [hs']
    exact (update_of_ne hne _ _).trans (update_of_ne hba _ _)
  · rw [hmap, update_self]

/-- **`ip->addrs[k]` is found or allocated.** -/
theorem ends_addrOf_alloc (h : Tidy e s) (hk : AddrSlot k σ) :
    Ends allow t (addrOf e k) s fun a s' =>
      (∀ lo hi, Edits e lo hi s s') ∧ s'.mapOf e σ = a ∧ (a = 0 → s'.Full) := by
  unfold addrOf getInode
  rw [ends_look_bind]
  by_cases h0 : (s.inode e).addrs k = 0
  · rw [if_pos h0]
    refine (ends_balloc h.boot).bind fun a s' ha => ?_
    rcases ha with ⟨rfl, rfl, hfull⟩ | ⟨ha0, ha, hlt, -, rfl⟩
    · rw [if_pos rfl, ends_pure]
      exact ⟨fun _ _ => .refl h, hk.map.trans h0, fun _ => hfull⟩
    rw [if_neg ha0]
    unfold modifyInode
    rw [ends_act_bind, ends_pure]
    have hset := fun lo hi => Edits.setAddr lo hi h hk h0 ha ha0 hlt rfl
    exact ⟨fun lo hi => (hset lo hi).1, (hset 0 0).2, fun hc => absurd hc ha0⟩
  · rw [if_neg h0, ends_pure]
    exact ⟨fun _ _ => .refl h, hk.map, fun hc => absurd hc h0⟩

theorem State.mapOf_entry {ind j : ℕ} (hind : s.mapOf e .ind = ind) (hi0 : ind ≠ 0)
    (hj : j < NINDIRECT) :
    s.mapOf e (.data (NDIRECT + j)) = entry (s.block ind) j := by
  have hind : (s.inode e).addrs NDIRECT = ind := hind
  have hm : s.mapOf e (.data (NDIRECT + j)) =
      entry (s.block ((s.inode e).addrs NDIRECT)) (NDIRECT + j - NDIRECT) :=
    Dinode.map_indirect (Nat.le_add_right _ _) (Nat.add_lt_add_left hj _) (by rwa [hind])
  rwa [Nat.add_sub_cancel_left, hind] at hm

/-- **A block of the file is found or allocated.** -/
theorem ends_bmap_alloc (h : Tidy e s) (hbn : bn < MAXFILE) :
    Ends allow t (bmap e bn) s fun a s' =>
      (∀ lo hi, Edits e lo hi s s') ∧ s'.mapOf e (.data bn) = a ∧ (a = 0 → s'.Full) := by
  unfold bmap
  by_cases hd : bn < NDIRECT
  · rw [if_pos hd]
    exact ends_addrOf_alloc h (Or.inl ⟨hd, rfl⟩)
  obtain ⟨j, rfl⟩ := Nat.exists_eq_add_of_le (not_lt.mp hd)
  have hj : j < NINDIRECT := Nat.lt_of_add_lt_add_left hbn
  rw [if_neg hd, Nat.add_sub_cancel_left, if_pos hj]
  refine (ends_addrOf_alloc h (Or.inr ⟨rfl, rfl⟩)).bind fun ind s1 hr => ?_
  obtain ⟨hed, hind, hfull⟩ := hr
  by_cases hi0 : ind = 0
  · rw [if_pos hi0, ends_pure]
    exact ⟨hed, Dinode.map_of_no_ind (Nat.le_add_right _ _) (hind.trans hi0), fun _ => hfull hi0⟩
  rw [if_neg hi0, ends_look_bind]
  have hentry := State.mapOf_entry hind hi0 hj
  have ht := (hed 0 0).tidy
  by_cases h0 : entry (s1.block ind) j = 0
  · rw [if_pos h0]
    refine (ends_balloc ht.boot).bind fun a s2 ha => ?_
    rcases ha with ⟨rfl, rfl, hfull⟩ | ⟨ha0, ha, hlt, -, rfl⟩
    · rw [if_pos rfl, ends_pure]
      exact ⟨hed, hentry.trans h0, fun _ => hfull⟩
    rw [if_neg ha0, ends_act_bind, ends_pure]
    have hset := fun lo hi => Edits.setEntry lo hi ht hind hi0 hj (hentry.trans h0) ha ha0 hlt rfl
    exact ⟨fun lo hi => (hed lo hi).trans (hset lo hi).1, (hset 0 0).2, fun hc => absurd hc ha0⟩
  · rw [if_neg h0, ends_pure]
    exact ⟨hed, hentry, fun hc => absurd hc h0⟩

/-! ### The loop of `writei` -/

theorem fetch_getElem? (m : ℕ) : ∀ {a j : ℕ} {y : UInt8}, (fetch src a m)[j]? = some y → src
    (a + j) = some y := by
  induction m with
  | zero => exact fun h => nomatch h
  | succ m ih =>
    intro a j y h
    rw [fetch] at h
    cases hs : src a with
    | none =>
      rw [hs] at h
      cases h
    | some z =>
      rw [hs] at h
      cases j with
      | zero =>
        cases h
        exact hs
      | succ j =>
        rw [List.getElem?_cons_succ] at h
        have := ih h
        rwa [Nat.add_right_comm] at this

theorem length_fetch_le (m : ℕ) : ∀ {a : ℕ}, (fetch src a m).length ≤ m := by
  induction m with
  | zero => exact le_rfl
  | succ m ih =>
    intro a
    rw [fetch]
    cases src a with
    | none => exact Nat.zero_le _
    | some z => exact Nat.succ_le_succ ih

theorem length_fetch_eq (m : ℕ) : ∀ {a k : ℕ}, k < m → (∀ i < k, (src (a + i)).isSome = true) →
    src (a + k) = none → (fetch src a m).length = k := by
  induction m with
  | zero => exact fun hk => absurd hk (Nat.not_lt_zero _)
  | succ m ih =>
    intro a k hk hsome hnone
    rw [fetch]
    cases k with
    | zero =>
      rw [Nat.add_zero] at hnone
      rw [hnone, List.length_nil]
    | succ k =>
      obtain ⟨z, hz⟩ := Option.isSome_iff_exists.mp (hsome 0 (Nat.succ_pos k))
      rw [Nat.add_zero] at hz
      rw [hz, List.length_cons, ih (Nat.lt_of_succ_lt_succ hk)]
      · intro i hi
        rw [Nat.add_assoc, Nat.add_comm 1]
        exact hsome (i + 1) (Nat.succ_lt_succ hi)
      · rw [Nat.add_assoc, Nat.add_comm 1]
        exact hnone

theorem fetch_stops (m : ℕ) : ∀ {a : ℕ}, (fetch src a m).length < m →
    src (a + (fetch src a m).length) = none := by
  induction m with
  | zero => exact fun h => absurd h (Nat.not_lt_zero _)
  | succ m ih =>
    intro a h
    rw [fetch] at h ⊢
    cases hs : src a with
    | none => exact hs
    | some z =>
      rw [hs] at h
      have := ih (Nat.lt_of_succ_lt_succ h)
      rwa [Nat.add_assoc, Nat.add_comm 1] at this

theorem length_fetch (m : ℕ) : ∀ {a : ℕ}, (∀ i < m, (src (a + i)).isSome = true) →
    (fetch src a m).length = m := by
  induction m with
  | zero => exact fun _ => rfl
  | succ m ih =>
    intro a h
    obtain ⟨z, hz⟩ := Option.isSome_iff_exists.mp (h 0 (Nat.succ_pos m))
    rw [Nat.add_zero] at hz
    rw [fetch, hz, List.length_cons, ih]
    intro i hi
    have := h (i + 1) (Nat.succ_lt_succ hi)
    rwa [← Nat.add_assoc, Nat.add_right_comm] at this

/-- How many bytes a round that starts at `tot` is for. -/
def chunk (off n tot : ℕ) : ℕ := min (n - tot) (BSIZE - (off + tot) % BSIZE)

theorem chunk_pos (off : ℕ) (h : a < n) : 0 < chunk off n a := by
  have hmod : (off + a) % BSIZE < BSIZE := Nat.mod_lt _ (by decide)
  unfold chunk
  omega

theorem chunk_le (off n a : ℕ) : chunk off n a ≤ n - a := Nat.min_le_left _ _

theorem chunk_room (off n a : ℕ) : (off + a) % BSIZE + chunk off n a ≤ BSIZE := by
  have hmod : (off + a) % BSIZE < BSIZE := Nat.mod_lt _ (by decide)
  unfold chunk
  omega

theorem chunk_edge (off : ℕ) (h : a + chunk off n a < n) :
    (off + (a + chunk off n a)) % BSIZE = 0 := by
  have hc : chunk off n a = min (n - a) (1024 - (off + a) % 1024) := rfl
  show (off + (a + chunk off n a)) % 1024 = 0
  omega

theorem div_mod_add {o i : ℕ} (h : o % BSIZE + i < BSIZE) :
    (o + i) / BSIZE = o / BSIZE ∧ (o + i) % BSIZE = o % BSIZE + i := by
  have h : o % 1024 + i < 1024 := h
  constructor
  · show (o + i) / 1024 = o / 1024
    omega
  · show (o + i) % 1024 = o % 1024 + i
    omega

/-- Bytes are stored in one block of the file. -/
theorem Edits.put {o : ℕ} {d : List UInt8} (h : Tidy e s) (hmap : s.mapOf e (.data (o / BSIZE)) = a)
    (ha0 : a ≠ 0) (hfit : o % BSIZE + d.length ≤ BSIZE)
    (hs' : s' = s.setBlock a (Bytes.write (s.block a) (o % BSIZE) d)) :
    Edits e o (o + d.length) s s' ∧ s'.mapOf e = s.mapOf e ∧
      ∀ i < d.length, s'.byte e (o + i) = d.getD i 0 := by
  have hself : s'.block a = Bytes.write (s.block a) (o % BSIZE) d := by
    rw [hs']
    exact update_self ..
  have hother : ∀ b, b ≠ a → s'.block b = s.block b := by
    intro b hb
    rw [hs']
    exact update_of_ne hb _ _
  have hsame : s'.mapOf e = s.mapOf e := by
    rw [hs']
    refine Dinode.map_setBlock (Or.inr fun hc => ?_)
    have hslot := h.one _ .ind (by rwa [hmap]) (hc.trans hmap.symm)
    cases hslot
  have hin : s'.inode = s.inode := by rw [hs']; rfl
  have hbit : s'.bit = s.bit := by rw [hs']; rfl
  refine ⟨⟨⟨by rw [hs']; rfl, by rw [hs']; rfl, fun _ _ => by rw [hin], by rw [hin],
    fun _ _ => by rw [hs']; rfl,
    fun b hb => by rwa [hbit], fun σ _ => by rw [hsame], fun σ h0 h1 => ?_, fun b _ hno => ?_⟩,
    ⟨by rw [hs']; exact h.small, by rw [hbit]; exact h.boot, by rw [hsame, hbit]; exact h.used,
      by rw [hsame]; exact h.one⟩, by rw [hin], by rw [hs']; rfl, fun b hb =>
        Or.inl (by rwa [hbit] at hb),
      fun p hp hout => ?_⟩, hsame, fun i hi => ?_⟩
  · rw [hsame] at h1
    exact absurd h0 h1
  · exact hother b fun hc => hno _ (hmap.trans hc.symm)
  · unfold State.byte
    rw [hsame]
    by_cases hpa : s.mapOf e (.data (p / BSIZE)) = a
    · -- the same block: the byte lies before or behind those that are stored
      have hslot := h.one _ _ (by rwa [hmap]) (hpa.trans hmap.symm)
      rw [Slot.data.injEq] at hslot
      rw [hpa, hself, Bytes.write, if_neg]
      have hslot : p / 1024 = o / 1024 := hslot
      show ¬ (o % 1024 ≤ p % 1024 ∧ p % 1024 < o % 1024 + d.length)
      omega
    · rw [hother _ hpa]
  · obtain ⟨hdiv, hmod⟩ := div_mod_add (o := o) (i := i) (by omega)
    unfold State.byte
    rw [hsame, hdiv, hmod, hmap, hself, Bytes.write, if_pos (by omega), Nat.add_sub_cancel_left]

/-- What the loop of `writei` has done when it ends with `r`, from `tot` on: bytes up to `r`
are stored, then possibly a part of a round.  It has come to its end, or the disk is
full, or a byte could not be fetched. -/
structure Transfer (e : Fin NINODE) (src : ℕ → Option UInt8) (off n tot r : ℕ) (s s' : State) :
    Prop where
  ge : tot ≤ r
  le : r ≤ n
  edits : Edits e (off + tot) (off + r + (fetch src r (chunk off n r)).length) s s'
  /-- A round that is not the last one ends where a block ends. -/
  edge : tot < r → r < n → (off + r) % BSIZE = 0
  stored : ∀ a, tot ≤ a → a < r →
    s'.mapOf e (.data ((off + a) / BSIZE)) ≠ 0 ∧ src a = some (s'.byte e (off + a))
  stop : r = n ∨ (r < n ∧ s'.mapOf e (.data ((off + r) / BSIZE)) = 0 ∧ s'.Full) ∨
    (r < n ∧ s'.mapOf e (.data ((off + r) / BSIZE)) ≠ 0 ∧
      (fetch src r (chunk off n r)).length < chunk off n r ∧
      ∀ i < (fetch src r (chunk off n r)).length,
        s'.byte e (off + r + i) = (fetch src r (chunk off n r)).getD i 0)

theorem Transfer.all (h : Tidy e s) : Transfer e src off n n n s s :=
  ⟨le_rfl, le_rfl, .refl h, fun _ => by omega, fun _ _ _ => by omega, Or.inl rfl⟩

/-- **The loop of `writei`**; the induction is on the rounds that are left. -/
theorem ends_writeFrom (hmax : off + n ≤ MAXFILE * BSIZE) (k : ℕ) : ∀ tot s, Tidy e s → tot ≤ n →
    n ≤ tot + k →
    Ends allow t (writeFrom e src off n k tot) s fun r s' => Transfer e src off n tot r s s' := by
  induction k with
  | zero =>
    intro tot s h hle hk
    obtain rfl : tot = n := by omega
    exact Transfer.all h
  | succ k ih =>
    intro tot s h hle hk
    rw [writeFrom]
    by_cases hlt : tot < n
    · rw [if_pos hlt]
      have hm : min (n - tot) (BSIZE - (off + tot) % BSIZE) = chunk off n tot := rfl
      dsimp only
      rw [hm]
      have hpos := chunk_pos off hlt
      have hmn := chunk_le off n tot
      have hroom := chunk_room off n tot
      have hlen : (fetch src tot (chunk off n tot)).length ≤ chunk off n tot := length_fetch_le _
      have hbn : (off + tot) / BSIZE < MAXFILE := Nat.div_lt_of_lt_mul (by rw [Nat.mul_comm]; omega)
      refine (ends_bmap_alloc h hbn).bind fun a s1 hr => ?_
      obtain ⟨hed, hmap, hfull⟩ := hr
      by_cases ha0 : a = 0
      · rw [if_pos ha0, ends_pure]
        exact ⟨le_rfl, hle, hed _ _, fun _ => by omega, fun _ _ _ => by omega,
          Or.inr (Or.inl ⟨hlt, hmap.trans ha0, hfull ha0⟩)⟩
      rw [if_neg ha0, ends_act_bind]
      obtain ⟨hput, hsame, hbytes⟩ :=
        Edits.put (o := off + tot) (d := fetch src tot (chunk off n tot))
        (hed 0 0).tidy hmap ha0 (by omega) rfl
      -- from here on the round is known only by what it has stored
      generalize s1.setBlock a (Bytes.write (s1.block a) ((off + tot) % BSIZE)
        (fetch src tot (chunk off n tot))) = s2 at hput hsame hbytes ⊢
      have hmap2 : s2.mapOf e (.data ((off + tot) / BSIZE)) = a := by rw [hsame, hmap]
      by_cases hall : (fetch src tot (chunk off n tot)).length = chunk off n tot
      · rw [if_pos hall]
        rw [hall] at hput hbytes
        refine (ih (tot + chunk off n tot) s2 hput.tidy (by omega) (by omega)).mono fun r s' hr =>
          ?_
        have hge := hr.ge
        refine ⟨by omega, hr.le, ?_, fun _ hrn => ?_, fun b hb hbr => ?_, hr.stop⟩
        · have h1 := (hed (off + tot) (off + r + (fetch src r (chunk off n r)).length)).trans
            (hput.mono le_rfl (by omega))
          exact h1.trans (hr.edits.mono (by omega) le_rfl)
        · rcases Nat.eq_or_lt_of_le hge with rfl | hlt'
          · exact chunk_edge off hrn
          · exact hr.edge hlt' hrn
        · by_cases hbt : tot + chunk off n tot ≤ b
          · exact hr.stored b hbt hbr
          -- a byte of this round, which the rounds after it have left alone
          obtain ⟨i, rfl⟩ := Nat.exists_eq_add_of_le hb
          obtain ⟨hdiv, -⟩ := div_mod_add (o := off + tot) (i := i) (by omega)
          have hblk : s2.mapOf e (.data ((off + (tot + i)) / BSIZE)) ≠ 0 := by
            rwa [← Nat.add_assoc, hdiv, hmap2]
          have hi : i < (fetch src tot (chunk off n tot)).length := by omega
          rw [hr.edits.map _ hblk, hr.edits.bytes _ hblk (by omega), ← Nat.add_assoc off,
            hbytes i (by omega), List.getD_eq_getElem _ _ hi]
          refine ⟨?_, fetch_getElem? _ (List.getElem?_eq_getElem hi)⟩
          rwa [hdiv, hmap2]
      · rw [if_neg hall, ends_pure]
        refine ⟨le_rfl, hle, (hed _ _).trans hput, fun _ => by omega, fun _ _ _ => by omega,
          Or.inr (Or.inr ⟨hlt, ?_, ?_, hbytes⟩)⟩
        · rwa [hmap2]
        · omega
    · rw [if_neg hlt, ends_pure]
      obtain rfl : tot = n := by omega
      exact Transfer.all h

/-! ### `writei` -/

/-- A state in which the size of a file has been set, in memory and on disk. -/
def State.resized (s : State) (e : Fin NINODE) (size : ℕ) : State :=
  (s.setInode e { s.inode e with size := size }).setDinode (s.inode e).inum
    { (s.inode e).toDinode with size := size }

theorem State.resized_inode (s : State) (e : Fin NINODE) (size : ℕ) :
    (s.resized e size).inode e = { s.inode e with size := size } := s.setInode_self e _

@[simp] theorem State.resized_mapOf (s : State) (e : Fin NINODE) (size : ℕ) :
    (s.resized e size).mapOf e = s.mapOf e := by
  unfold State.mapOf
  rw [State.resized_inode]
  exact Dinode.map_congr fun _ _ => rfl

@[simp] theorem State.resized_byte (s : State) (e : Fin NINODE) (size o : ℕ) :
    (s.resized e size).byte e o = s.byte e o := by
  unfold State.byte
  rw [State.resized_mapOf]
  rfl

theorem Keeps.resized {size : ℕ} : Keeps e s (s.resized e size) where
  sb := rfl
  tables := rfl
  others _ he := s.setInode_of_ne _ he
  self := by rw [State.resized_inode]
  dinode _ hi := update_of_ne hi _ _
  bit _ h := h
  map σ _ := by rw [State.resized_mapOf]
  fresh σ h0 h1 := by
    rw [State.resized_mapOf] at h1
    exact absurd h0 h1
  block _ _ _ := rfl

/-- **`writei` with arguments that it accepts.** -/
theorem ends_writei (h : Tidy e s) (hoff : off ≤ (s.inode e).size)
    (hmax : off + n ≤ MAXFILE * BSIZE) :
    Ends allow t (writei e src off n) s fun r s' => ∃ (tot : ℕ) (s1 : State), r = tot ∧
      Transfer e src off n 0 tot s s1 ∧ s' = s1.resized e (max (s.inode e).size (off + tot)) := by
  have hlt32 : off + n < 2 ^ 32 := lt_of_le_of_lt hmax (by decide)
  unfold writei getInode
  rw [ends_look_bind, if_neg (by rw [Nat.mod_eq_of_lt hlt32]; omega), if_neg (by omega)]
  refine (ends_writeFrom hmax n 0 s h (Nat.zero_le n) (by omega)).bind fun tot s1 hr => ?_
  unfold modifyInode iupdate
  rw [ends_act_bind, ends_act_bind, ends_pure]
  refine ⟨tot, s1, rfl, hr, ?_⟩
  rw [State.setInode_self, ← hr.edits.size]
  rfl

theorem ends_writei_reject (h : ¬ (off ≤ (s.inode e).size ∧ off + n ≤ MAXFILE * BSIZE)) :
    Ends allow t (writei e src off n) s fun r s' => r = -1 ∧ s' = s := by
  unfold writei getInode
  rw [ends_look_bind]
  split_ifs with h1 h2
  · exact ⟨rfl, rfl⟩
  · exact ⟨rfl, rfl⟩
  · omega

/-- The file has no holes after `writei` either. -/
theorem Transfer.whole {tot : ℕ} (h : Transfer e src off n 0 tot s s')
    (hw : Whole (s.inode e).size (s.mapOf e)) (hoff : off ≤ (s.inode e).size)
    (hmax : off + n ≤ MAXFILE * BSIZE) : Whole (max (s.inode e).size (off + tot)) (s'.mapOf e) := by
  have hle := h.le
  refine ⟨max_le hw.1 (by omega), fun bn hbn => ?_⟩
  by_cases hold : bn < nblocks (s.inode e).size
  · rw [h.edits.map _ (hw.2 bn hold)]
    exact hw.2 bn hold
  -- a block behind the old end starts with a byte that was stored
  have hnew : (s.inode e).size ≤ bn * 1024 ∧ bn * 1024 < off + tot := by
    have hold : ¬ bn < ((s.inode e).size + 1024 - 1) / 1024 := hold
    have hbn : bn < (max (s.inode e).size (off + tot) + 1024 - 1) / 1024 := hbn
    omega
  have hst := (h.stored (bn * 1024 - off) (Nat.zero_le _) (by omega)).1
  have hdiv : (off + (bn * 1024 - off)) / BSIZE = bn := by
    show (off + (bn * 1024 - off)) / 1024 = bn
    omega
  rwa [hdiv] at hst

/-! ### Arrays of bytes -/

/-- The bytes of a file. -/
def State.contents (s : State) (e : Fin NINODE) : List UInt8 :=
  (List.range (s.inode e).size).map (s.byte e)

theorem Whole.holds (h : Whole (s.inode e).size (s.mapOf e)) :
    Holds s.block (s.inode e).toDinode (s.contents e) := by
  have hlen : (s.contents e).length = (s.inode e).size := by simp [State.contents]
  constructor
  · intro o ho
    exact h.2 _ (lt_nblocks (by omega))
  · intro o ho
    have hget : (s.contents e).getD o 0 = s.byte e o := by
      simp [State.contents, show o < (s.inode e).size by omega]
    rw [hget]
    rfl

/-- **`readi` and `writei` implement an array of bytes**: for an inode without holes and arguments
of 32 bits, `readi` delivers the bytes that there are, and `writei` stores a part of the
buffer that is all of it unless the disk is full; everything else in the file stays, and
what is out of range is refused. -/
theorem files_are_byte_arrays (t : Fin NPROC) (s : State) (e : Fin NINODE) (off n : ℕ)
    (src : ℕ → Option UInt8) (dst : ℕ → Bool) (htidy : Tidy e s)
    (hwhole : Whole (s.inode e).size (s.mapOf e))
    (hoff : off < 2 ^ 32) (hn : n < 2 ^ 32) (hdst : ∀ i < n, dst i = true)
    (hsrc : ∀ i < n, (src i).isSome = true) :
    (readi e dst off n).run t s =
      .ok (some (if off + n < 2 ^ 32 then ((s.contents e).drop off).take n else [])) s ∧
    ∃ r s', (writei e src off n).run t s = .ok r s' ∧ (s'.inode e).size ≤ MAXFILE * BSIZE ∧
      (¬ (off ≤ (s.inode e).size ∧ off + n ≤ MAXFILE * BSIZE) → r = -1 ∧ s' = s) ∧
      (off ≤ (s.inode e).size → off + n ≤ MAXFILE * BSIZE → ∃ tot : ℕ, r = tot ∧ tot ≤ n ∧
        (tot < n → s'.Full) ∧ (s'.inode e).size = max (s.inode e).size (off + tot) ∧
        (∀ i < tot, src i = some (s'.byte e (off + i))) ∧
        (∀ o < (s.inode e).size, o < off ∨ off + tot ≤ o → s'.byte e o = s.byte e o) ∧
        Whole (s'.inode e).size (s'.mapOf e) ∧ Keeps e s s') := by
  have hlen : (s.contents e).length = (s.inode e).size := by simp [State.contents]
  constructor
  · have hread : Ends (fun _ => False) t (readi e dst off n) s fun r s' =>
        r = some (if off + n < 2 ^ 32 then ((s.contents e).drop off).take n else []) ∧ s' = s := by
      by_cases hlt : off + n < 2 ^ 32
      · rw [if_pos hlt]
        exact ends_readi_file hwhole.holds hlen.symm hlt hdst
      · unfold readi getInode
        rw [if_neg hlt, ends_look_bind, if_pos (by omega), ends_pure]
        exact ⟨rfl, rfl⟩
    obtain ⟨r, s', hrun, rfl, rfl⟩ := hread.exists_run
    exact hrun
  by_cases hok : off ≤ (s.inode e).size ∧ off + n ≤ MAXFILE * BSIZE
  · obtain ⟨hle, hmax⟩ := hok
    have hwrite : Ends (fun _ => False) t (writei e src off n) s _ := ends_writei htidy hle hmax
    obtain ⟨r, s', hrun, tot, s1, rfl, htr, rfl⟩ := hwrite.exists_run
    have hw' := htr.whole hwhole hle hmax
    have hsize : ((s1.resized e (max (s.inode e).size (off + tot))).inode e).size =
        max (s.inode e).size (off + tot) := by rw [State.resized_inode]
    -- the source can be read, so a short write is for want of a block
    have hall : (fetch src tot (chunk off n tot)).length = chunk off n tot := by
      refine length_fetch _ fun i hi => hsrc _ ?_
      have := chunk_le off n tot
      omega
    refine ⟨tot, _, hrun, by rw [hsize]; exact hw'.1, fun hc => absurd ⟨hle, hmax⟩ hc, fun _ _ =>
      ⟨tot, rfl, htr.le, fun hlt => ?_, hsize, fun i hi => ?_, fun o ho hout => ?_, ?_, ?_⟩⟩
    · rcases htr.stop with hstop | hstop | hstop
      · omega
      · exact hstop.2.2
      · exact absurd hall hstop.2.2.1.ne
    · rw [State.resized_byte]
      exact (htr.stored i (Nat.zero_le i) hi).2
    · rw [State.resized_byte]
      have hblk := hwhole.2 _ (lt_nblocks ho)
      refine htr.edits.bytes o hblk ?_
      by_contra hc
      -- a byte of a round that was not made, because there was no block for it
      rcases htr.stop with hstop | hstop | hstop
      · subst hstop
        have : chunk off tot tot = 0 := by
          have := chunk_le off tot tot
          omega
        omega
      · obtain ⟨i, rfl⟩ := Nat.exists_eq_add_of_le (show off + tot ≤ o by omega)
        have hroom := chunk_room off n tot
        obtain ⟨hdiv, -⟩ := div_mod_add (o := off + tot) (i := i) (by omega)
        rw [hdiv] at hblk
        exact hblk ((htr.edits.map _ hblk).symm.trans hstop.2.1)
      · exact absurd hall hstop.2.2.1.ne
    · rwa [hsize, State.resized_mapOf]
    · exact htr.edits.toKeeps.trans .resized
  · have hreject : Ends (fun _ => False) t (writei e src off n) s _ := ends_writei_reject hok
    obtain ⟨r, s', hrun, rfl, rfl⟩ := hreject.exists_run
    exact ⟨-1, _, hrun, hwhole.1, fun _ => ⟨rfl, rfl⟩, fun h1 h2 => absurd ⟨h1, h2⟩ hok⟩

/-- A disk with a file of three bytes. -/
def smallFile : State where
  sb := ⟨16, 8, 4⟩
  dinode _ := ⟨.T_FILE, 0, 0, 1, 3, Function.update (fun _ => 0) 0 8⟩
  bit b := decide (b < 9)
  block b o := if b = 8 ∧ o < 3 then 97 + UInt8.ofNat o else 0
  file _ := ⟨.FD_NONE, false, false, 0, 0⟩
  proc _ := ⟨none⟩
  inode _ := ⟨⟨.T_FILE, 0, 0, 1, 3, Function.update (fun _ => 0) 0 8⟩, 1, 1, 1, none, true⟩

theorem smallFile_map : smallFile.mapOf 0 = update (fun _ => 0) (.data 0) 8 := by
  have hzero : (Dinode.mk .T_FILE 0 0 1 3 fun _ => 0).map smallFile.block = fun _ => 0 :=
    Dinode.map_eq_zero fun _ _ => rfl
  rw [← hzero]
  exact Dinode.map_setDirect rfl (by decide)

theorem smallFile_mapped {σ : Slot} (h : smallFile.mapOf 0 σ ≠ 0) : σ = .data 0 := by
  by_contra hc
  rw [smallFile_map, update_of_ne hc] at h
  exact h rfl

theorem smallFile_tidy : Tidy 0 smallFile := by
  refine ⟨by decide, rfl, fun σ h => ?_, fun σ σ' h heq => ?_⟩
  · rw [smallFile_mapped h]
    rfl
  · have h' : smallFile.mapOf 0 σ' ≠ 0 := by rwa [heq]
    rw [smallFile_mapped h, smallFile_mapped h']

theorem smallFile_whole : Whole (smallFile.inode 0).size (smallFile.mapOf 0) := by
  refine ⟨by decide, fun bn hbn => ?_⟩
  have hbn : bn < 1 := hbn
  obtain rfl : bn = 0 := by omega
  rw [smallFile_map, update_self]
  decide

/-- Two bytes are written over the last byte of a file of three. -/
theorem files_are_byte_arrays_small :
    ∃ r s', (writei 0 (fun _ => some 122) 2 2).run 0 smallFile = .ok r s' ∧
      ∃ tot : ℕ, r = tot ∧ (tot < 2 → s'.Full) ∧ (s'.inode 0).size = max 3 (2 + tot) ∧
        (∀ i < tot, s'.byte 0 (2 + i) = 122) ∧ s'.byte 0 1 = 98 := by
  obtain ⟨-, r, s', hrun, -, -, h⟩ := files_are_byte_arrays 0 smallFile 0 2 2 (fun _ => some 122)
    (fun _ => true)
    smallFile_tidy smallFile_whole (by decide) (by decide) (fun _ _ => rfl) fun _ _ => rfl
  obtain ⟨tot, hr, -, hfull, hsize, hnew, hold, -, -⟩ := h (by decide) (by decide)
  refine ⟨r, s', hrun, tot, hr, hfull, hsize, fun i hi => ?_, ?_⟩
  · exact (Option.some.inj (hnew i hi)).symm
  · rw [hold 1 (by decide) (Or.inl (by decide))]
    decide

end Xv6.Fs
