import Xv6.Fs.Format
import Xv6.Fs.Write

/-!
# The free map as bytes

`balloc` and `bfree` of `kernel/fs.c` on the blocks of a disk, for a map of any
number of blocks.  `Xv6.Fs.Model` has them on a map of bits; here are the bytes, the
masks and the two loops.  The counter `b` is an `int`: `none` if it overflows.

A block whose bit is clear comes after the map, so that to zero it harms no bit.

## Main results

* `balloc_refines`, `bfree_refines` — on the bytes they do what they do in the model.
* `balloc_bfree` — **`balloc` takes the first free block, and `bfree` gives it back.**
-/

namespace Xv6.Fs.Bitmap

open Conc Function

/-! ### The functions -/

/-- `m`. -/
def mask (bi : ℕ) : UInt8 := UInt8.ofNat (1 <<< (bi % 8))

/-- `bp->data[o] = v`, for the buffer of block `c`. -/
def poke (raw : ℕ → Block) (c o : ℕ) (v : UInt8) : ℕ → Block :=
  update raw c (update (raw c) o v)

def bzero (raw : ℕ → Block) (bno : ℕ) : ℕ → Block := update raw bno fun _ => 0

/-- The inner loop: the first clear bit of `bp`, among those of blocks from `b` on. -/
def search (bp : Block) (sb : RawSb) (b : ℕ) : Option ℕ :=
  (List.range (min BPB (sb.size - b))).find? fun bi => decide (bp (bi / 8) &&& mask bi = 0)

/-- The outer loop. -/
def ballocFrom (raw : ℕ → Block) (sb : RawSb) : ℕ → ℕ → Option (ℕ × (ℕ → Block))
  | 0, _ => none
  | n + 1, b =>
      if b < sb.size then
        let bp := raw (BBLOCK b sb)
        match search bp sb b with
        | some bi =>
            let raw := poke raw (BBLOCK b sb) (bi / 8) (bp (bi / 8) ||| mask bi)
            some (b + bi, bzero raw (b + bi))
        | none => if b + BPB < 2 ^ 31 then ballocFrom raw sb n (b + BPB) else none
      else some (0, raw)

/-- The block, or 0 if there is none, and the disk after the call. -/
def balloc (raw : ℕ → Block) (sb : RawSb) : Option (ℕ × (ℕ → Block)) :=
  ballocFrom raw sb (sb.size / BPB + 2) 0

/-- `none` if it panics. -/
def bfree (raw : ℕ → Block) (sb : RawSb) (b : ℕ) : Option (ℕ → Block) :=
  let bp := raw (BBLOCK b sb)
  let bi := b % BPB
  if bp (bi / 8) &&& mask bi = 0 then none
  else some (poke raw (BBLOCK b sb) (bi / 8) (bp (bi / 8) &&& ~~~mask bi))

/-! ### Bits -/

variable {raw raw' : ℕ → Block} {sb : RawSb} {b bi j n x : ℕ} {v : UInt8}

theorem bitAt_eq (raw : ℕ → Block) (sb : RawSb) (x : ℕ) :
    bitAt raw sb x = (raw (BBLOCK x sb) (x % BPB / 8)).toNat.testBit (x % BPB % 8) :=
  and_shift_ne_zero ..

theorem and_mask : v &&& mask bi = 0 ↔ v.toNat.testBit (bi % 8) = false := by
  rw [← and_shift_ne_zero, bne_eq_false_iff_eq, ← UInt8.toNat_inj, UInt8.toNat_and, mask,
    toNat_shift, Nat.one_shiftLeft]
  rfl

theorem testBit_or_mask :
    (v ||| mask bi).toNat.testBit j = (decide (bi % 8 = j) || v.toNat.testBit j) := by
  rw [UInt8.toNat_or, Nat.testBit_or, mask, toNat_shift, Nat.testBit_two_pow, Bool.or_comm]

theorem testBit_and_not :
    (v &&& ~~~mask bi).toNat.testBit j = (v.toNat.testBit j && !decide (bi % 8 = j)) := by
  rw [UInt8.toNat_and, Nat.testBit_and, UInt8.toNat_not, Nat.sub_sub, Nat.add_comm 1,
    show UInt8.size = 2 ^ 8 from rfl, Nat.testBit_two_pow_sub_succ (UInt8.toNat_lt _), mask,
    toNat_shift, Nat.testBit_two_pow]
  by_cases hj : j < 8
  · simp [hj]
  · rw [Nat.testBit_lt_two_pow (v.toNat_lt.trans_le (Nat.pow_le_pow_right (by decide)
      (not_lt.mp hj)))]
    rfl

theorem bblock_add (sb : RawSb) (hb : b % BPB = 0) (h : x < BPB) :
    BBLOCK (b + x) sb = BBLOCK b sb ∧ (b + x) % BPB = x := by
  simp only [BBLOCK, BPB, BSIZE] at *
  omega

theorem bblock_le (hb : b < sb.size) : BBLOCK b sb ≤ BBLOCK (sb.size - 1) sb :=
  Nat.add_le_add_right (Nat.div_le_div_right (Nat.le_pred_of_lt hb)) _

theorem bitAt_poke (hv : ∀ j, j ≠ b % BPB % 8 → v.toNat.testBit j =
      (raw (BBLOCK b sb) (b % BPB / 8)).toNat.testBit j) :
    bitAt (poke raw (BBLOCK b sb) (b % BPB / 8) v) sb x =
      if x = b then v.toNat.testBit (b % BPB % 8) else bitAt raw sb x := by
  rw [bitAt_eq, bitAt_eq, poke]
  by_cases hblock : BBLOCK x sb = BBLOCK b sb
  · rw [hblock, update_self]
    by_cases hbyte : x % BPB / 8 = b % BPB / 8
    · rw [hbyte, update_self]
      split_ifs with hx
      · rw [hx]
      · refine hv _ fun hbit => hx ?_
        simp only [BBLOCK, BPB, BSIZE] at *
        omega
    · rw [update_of_ne hbyte, if_neg (fun hx => hbyte (by rw [hx]))]
  · rw [update_of_ne hblock, if_neg (fun hx => hblock (by rw [hx]))]

/-! ### The search -/

/-- The disk after block `x` was taken. -/
def taken (raw : ℕ → Block) (sb : RawSb) (x : ℕ) : ℕ → Block :=
  bzero (poke raw (BBLOCK x sb) (x % BPB / 8)
    (raw (BBLOCK x sb) (x % BPB / 8) ||| mask (x % BPB))) x

/-- The free blocks. -/
def Free (raw : ℕ → Block) (sb : RawSb) : Set ℕ := {x | x < sb.size ∧ bitAt raw sb x = false}

theorem ballocFrom_spec (hsize : sb.size < 2 ^ 31 - BPB) (hb : b % BPB = 0)
    (hlow : ∀ x < b, x ∉ Free raw sb) (hlt : b < sb.size + BPB) (hn : sb.size + BPB ≤ b + n * BPB) :
    (∃ x, IsLeast (Free raw sb) x ∧ ballocFrom raw sb n b = some (x, taken raw sb x)) ∨
      Free raw sb = ∅ ∧ ballocFrom raw sb n b = some (0, raw) := by
  induction n generalizing b with
  | zero => omega
  | succ n ih =>
    rw [ballocFrom]
    by_cases hbs : b < sb.size
    · rw [if_pos hbs]
      have hbit : ∀ j < BPB, (raw (BBLOCK b sb) (j / 8) &&& mask j = 0 ↔
          bitAt raw sb (b + j) = false) := by
        intro j hj
        obtain ⟨hblock, hmod⟩ := bblock_add sb hb hj
        rw [and_mask, bitAt_eq, hblock, hmod]
      -- the blocks before `b + k` are in use if the bits before `k` are set
      have hnext : ∀ k ≤ BPB, (∀ j < k, b + j ∉ Free raw sb) → ∀ x < b + k, x ∉ Free raw sb := by
        intro k hk hset x hx
        by_cases hxb : x < b
        · exact hlow x hxb
        · obtain ⟨j, rfl⟩ := Nat.exists_eq_add_of_le (not_lt.mp hxb)
          exact hset j (by omega)
      dsimp only
      cases hk : search (raw (BBLOCK b sb)) sb b with
      | some k =>
        obtain ⟨hclear, hkn, hset⟩ := List.find?_range_eq_some.mp hk
        obtain ⟨hkB, hks⟩ := lt_min_iff.mp (List.mem_range.mp hkn)
        refine Or.inl ⟨b + k, ⟨⟨by omega, (hbit k hkB).mp (of_decide_eq_true hclear)⟩,
          fun x hx => ?_⟩, ?_⟩
        · by_contra hlt
          refine hnext k hkB.le (fun j hj hmem => ?_) x (not_le.mp hlt) hx
          simpa [(hbit j (hj.trans hkB)).mpr hmem.2] using hset j hj
        · obtain ⟨hblock, hmod⟩ := bblock_add sb hb hkB
          simp only [taken, hblock, hmod]
      | none =>
        have hset := List.find?_range_eq_none.mp hk
        dsimp only
        rw [if_pos (by omega)]
        refine ih (by rw [Nat.add_mod_right, hb]) (hnext BPB le_rfl fun j hj hmem => ?_) (by omega)
          (by rw [Nat.succ_mul] at hn; omega)
        have hlt := hmem.1
        simpa [(hbit j hj).mpr hmem.2] using hset j (lt_min hj (by omega))
    · rw [if_neg hbs]
      refine Or.inr ⟨Set.eq_empty_iff_forall_notMem.mpr fun x hx => ?_, rfl⟩
      exact hlow x (hx.1.trans_le (not_lt.mp hbs)) hx

theorem balloc_spec (raw : ℕ → Block) (hsize : sb.size < 2 ^ 31 - BPB) :
    (∃ x, IsLeast (Free raw sb) x ∧ balloc raw sb = some (x, taken raw sb x)) ∨
      Free raw sb = ∅ ∧ balloc raw sb = some (0, raw) :=
  ballocFrom_spec hsize rfl (fun x hx => absurd hx (Nat.not_lt_zero _))
    (Nat.add_pos_right _ (by decide)) (by simp only [BPB, BSIZE]; omega)

/-! ### Taking a block and giving it back -/

/-- What `balloc` did if it returns `b`. -/
structure Took (raw : ℕ → Block) (sb : RawSb) (b : ℕ) (raw' : ℕ → Block) : Prop where
  least : IsLeast (Free raw sb) b
  /-- In all blocks of the map. -/
  bit : ∀ x, BBLOCK x sb ≤ BBLOCK (sb.size - 1) sb →
    bitAt raw' sb x = (decide (x = b) || bitAt raw sb x)
  zero : raw' b = fun _ => 0
  frame : ∀ c, c ≠ b → c ≠ BBLOCK b sb → raw' c = raw c

/-- The blocks up to the end of the map are in use. -/
def MetaUsed (raw : ℕ → Block) (sb : RawSb) : Prop :=
  ∀ b < sb.size, b ≤ BBLOCK (sb.size - 1) sb → bitAt raw sb b = true

theorem MetaUsed.ne (hmeta : MetaUsed raw sb) (hb : b ∈ Free raw sb)
    (hx : BBLOCK x sb ≤ BBLOCK (sb.size - 1) sb) : BBLOCK x sb ≠ b := by
  rintro rfl
  exact absurd (hmeta _ hb.1 hx) (by rw [hb.2]; decide)

theorem took (hmeta : MetaUsed raw sb) (hb : IsLeast (Free raw sb) b) :
    Took raw sb b (taken raw sb b) := by
  refine ⟨hb, fun x hx => ?_, update_self .., fun c hc hc' => ?_⟩
  · have hzero : bitAt (taken raw sb b) sb x = bitAt (poke raw (BBLOCK b sb) (b % BPB / 8)
        (raw (BBLOCK b sb) (b % BPB / 8) ||| mask (b % BPB))) sb x := by
      rw [bitAt_eq, bitAt_eq, taken, bzero, update_of_ne (hmeta.ne hb.1 hx)]
    rw [hzero, bitAt_poke fun j hj => by
      rw [testBit_or_mask, decide_eq_false hj.symm, Bool.false_or], testBit_or_mask]
    split_ifs with hxb <;> simp [hxb]
  · rw [taken, bzero, update_of_ne hc, poke, update_of_ne hc']

theorem bfree_spec (hb : bitAt raw sb b = true) : ∃ raw', bfree raw sb b = some raw' ∧
    (∀ x, bitAt raw' sb x = (bitAt raw sb x && decide (x ≠ b))) ∧
    ∀ c, c ≠ BBLOCK b sb → raw' c = raw c := by
  rw [bitAt_eq] at hb
  refine ⟨_, if_neg ?_, fun x => ?_, fun c hc => update_of_ne hc ..⟩
  · rw [and_mask, hb]
    decide
  · rw [bitAt_poke fun j hj => by
      rw [testBit_and_not, decide_eq_false hj.symm, Bool.not_false, Bool.and_true], testBit_and_not]
    split_ifs with hxb <;> simp [hxb]

/-- Right after `balloc`, it undoes what was done to the map. -/
theorem bfree_taken (hmeta : MetaUsed raw sb) (hb : b ∈ Free raw sb) :
    bfree (taken raw sb b) sb b = some (update raw b fun _ => 0) := by
  have hclear := hb.2
  rw [bitAt_eq] at hclear
  have hne : BBLOCK b sb ≠ b := hmeta.ne hb (bblock_le hb.1)
  set v := raw (BBLOCK b sb) (b % BPB / 8) with hv
  have hbyte : taken raw sb b (BBLOCK b sb) (b % BPB / 8) = v ||| mask (b % BPB) := by
    rw [taken, bzero, update_of_ne hne, poke, update_self, update_self]
  have hback : (v ||| mask (b % BPB)) &&& ~~~mask (b % BPB) = v := by
    refine UInt8.toNat_inj.mp (Nat.eq_of_testBit_eq fun j => ?_)
    rw [testBit_and_not, testBit_or_mask]
    by_cases hj : b % BPB % 8 = j
    · rw [← hj, hclear, decide_eq_true rfl]
      rfl
    · rw [decide_eq_false hj, Bool.false_or, Bool.not_false, Bool.and_true]
  rw [bfree, hbyte, if_neg (by rw [and_mask, testBit_or_mask]; simp), hback, poke]
  congr 1
  funext c
  by_cases hc : c = BBLOCK b sb
  · rw [hc, update_self, update_of_ne hne, taken, bzero, update_of_ne hne, poke, update_self,
      update_idem, hv, update_eq_self]
  · rw [update_of_ne hc, taken, bzero]
    by_cases hcb : c = b
    · rw [hcb, update_self, update_self]
    · rw [update_of_ne hcb, update_of_ne hcb, poke, update_of_ne hc]

/-! ### The functions of the model -/

/-- A state of the model shows this disk: its size, its bits, and the blocks behind the map. -/
structure Shows (raw : ℕ → Block) (sb : RawSb) (s : State) : Prop where
  size : s.sb.size = sb.size
  bit : ∀ x < sb.size, s.bit x = bitAt raw sb x
  block : ∀ c, BBLOCK (sb.size - 1) sb < c → s.block c = raw c

variable {s : State} {t : Fin NPROC}

theorem Shows.mem_free (h : Shows raw sb s) (hlt : b < s.sb.size) (hb : s.bit b = false) :
    b ∈ Free raw sb := by
  rw [h.size] at hlt
  exact ⟨hlt, (h.bit b hlt).symm.trans hb⟩

/-- **`balloc` on the bytes refines that of the model.** -/
theorem balloc_refines (h : Shows raw sb s) (hsize : sb.size < 2 ^ 31 - BPB) (hpos : 0 < sb.size)
    (hmeta : MetaUsed raw sb) : ∃ r raw' s', balloc raw sb = some (r, raw') ∧
      Fs.balloc.run t s = .ok r s' ∧ Shows raw' sb s' := by
  have h0 : s.bit 0 = true := (h.bit 0 hpos).trans (hmeta 0 hpos (Nat.zero_le _))
  have hall : Ends (fun _ => False) t Fs.balloc s (Alloced s) := ends_balloc h0
  obtain ⟨r, s', hrun, hr⟩ := hall.exists_run
  rcases balloc_spec raw hsize with ⟨x, hx, hraw⟩ | ⟨hnone, hraw⟩
  · have hfree := (h.bit x hx.1.1).trans hx.1.2
    rcases hr with ⟨-, -, hfull⟩ | ⟨hr0, hbit, hlt, hleast, rfl⟩
    · rw [hfull x (hx.1.1.trans_eq h.size.symm)] at hfree
      cases hfree
    -- both blocks are the first free one
    have hmem := h.mem_free hlt hbit
    obtain rfl : x = r := by
      refine le_antisymm (hx.2 hmem) (not_lt.mp fun hc => ?_)
      rw [hleast x hc] at hfree
      cases hfree
    have htook := took hmeta hx
    refine ⟨x, _, _, hraw, hrun, h.size, fun y hy => ?_, fun c hc => ?_⟩
    · rw [htook.bit y (bblock_le hy), ← h.bit y hy]
      show update s.bit x true y = _
      by_cases hyx : y = x
      · simp [hyx]
      · simp [hyx]
    · show update s.block x (fun _ => 0) c = _
      by_cases hcx : c = x
      · rw [hcx, update_self, htook.zero]
      · rw [update_of_ne hcx, htook.frame c hcx (by have := bblock_le hx.1.1; omega), h.block c hc]
  · rcases hr with ⟨rfl, rfl, -⟩ | ⟨-, hbit, hlt, -, -⟩
    · exact ⟨0, raw, s', hraw, hrun, h⟩
    · have hmem := h.mem_free hlt hbit
      rw [hnone] at hmem
      exact hmem.elim

/-- **`bfree` on the bytes refines that of the model.** -/
theorem bfree_refines (h : Shows raw sb s) (hb : b < sb.size) (hbit : bitAt raw sb b = true) :
    ∃ raw' s', bfree raw sb b = some raw' ∧ (Fs.bfree b).run t s = .ok () s' ∧
      Shows raw' sb s' := by
  obtain ⟨raw', hraw, hbits, hframe⟩ := bfree_spec hbit
  have hrun : (Fs.bfree b).run t s = .ok () (s.setBit b false) := by
    have hne : s.bit b ≠ false := by
      rw [h.bit b hb, hbit]
      decide
    simp [Fs.bfree, Prog.atomic, Prog.run, hne]
  refine ⟨raw', _, hraw, hrun, h.size, fun y hy => ?_, fun c hc => ?_⟩
  · rw [hbits y, ← h.bit y hy]
    show update s.bit b false y = _
    by_cases hyb : y = b
    · simp [hyb]
    · simp [hyb]
  · rw [hframe c (by have := bblock_le hb; omega)]
    exact h.block c hc

/-- **`balloc` takes the first free block, and `bfree` gives it back**, whatever the free map and
the number of its blocks, as long as the blocks up to the end of the map are marked.  `balloc`
returns 0 exactly if no block is free; and after any block was freed it returns no greater one. -/
theorem balloc_bfree (hsize : sb.size < 2 ^ 31 - BPB) (hmeta : MetaUsed raw sb) :
    (∃ r raw', balloc raw sb = some (r, raw') ∧ (r = 0 ↔ Free raw sb = ∅) ∧ (r = 0 → raw' = raw) ∧
      (r ≠ 0 → Took raw sb r raw' ∧ bfree raw' sb r = some (update raw r fun _ => 0))) ∧
    ∀ b < sb.size, bitAt raw sb b = true → ∃ raw', bfree raw sb b = some raw' ∧
      (∀ x, bitAt raw' sb x = (bitAt raw sb x && decide (x ≠ b))) ∧
      (∀ c, c ≠ BBLOCK b sb → raw' c = raw c) ∧
      ∃ r raw'', balloc raw' sb = some (r, raw'') ∧ r ≤ b := by
  refine ⟨?_, fun b hb hbit => ?_⟩
  · rcases balloc_spec raw hsize with ⟨x, hx, h⟩ | ⟨hnone, h⟩
    · have hpos : x ≠ 0 := by
        rintro rfl
        exact absurd (hmeta 0 hx.1.1 (Nat.zero_le _)) (by rw [hx.1.2]; decide)
      exact ⟨x, _, h, iff_of_false hpos (Set.nonempty_iff_ne_empty.mp ⟨x, hx.1⟩),
        fun h => absurd h hpos, fun _ => ⟨took hmeta hx, bfree_taken hmeta hx.1⟩⟩
    · exact ⟨0, raw, h, iff_of_true rfl hnone, fun _ => rfl, fun h => absurd rfl h⟩
  · obtain ⟨raw', hfree, hbits, hframe⟩ := bfree_spec hbit
    have hmem : b ∈ Free raw' sb := ⟨hb, by simp [hbits]⟩
    refine ⟨raw', hfree, hbits, hframe, ?_⟩
    rcases balloc_spec raw' hsize with ⟨x, hx, h⟩ | ⟨hnone, -⟩
    · exact ⟨x, _, h, hx.2 hmem⟩
    · rw [hnone] at hmem
      exact hmem.elim

/-- A disk with four blocks, whose map is block 1. -/
def small (c o : ℕ) : UInt8 := if c = 1 ∧ o = 0 then 3 else 0

def smallSb : RawSb := ⟨FSMAGIC, 4, 2, 0, 0, 1, 1, 1⟩

theorem balloc_bfree_small : ∃ r raw', balloc small smallSb = some (r, raw') ∧
    Took small smallSb r raw' := by
  obtain ⟨⟨r, raw', h, hzero, -, htook⟩, -⟩ := @balloc_bfree small smallSb
    (by decide) (by unfold MetaUsed; decide)
  have hmem : 2 ∈ Free small smallSb := ⟨by decide, by decide⟩
  exact ⟨r, raw', h, (htook fun h0 => (hzero.mp h0 ▸ hmem : 2 ∈ (∅ : Set ℕ))).1⟩

end Xv6.Fs.Bitmap
