import Mathlib.Data.BitVec
import Mathlib.Data.List.Basic
import Mathlib.Logic.Function.Basic

/-!
# Ring buffers with free-running counters

A buffer of `size` cells between a producer and a consumer.  Each of them counts
the elements it has moved with a machine word that wraps around, and the element
with number `n` lives in cell `n % size`.  The counters are never reduced modulo
`size`, so that "empty" and "full" are told apart by comparing them; this works
across a wraparound when `size` divides the range of the counters.

## Main definitions

* `Ring.cell` — the cell of an element.
* `Ring.Holds` — what was put in and what was taken out, against the cells and counters.
* `Ring.pending` — the elements between the two counters.

## Main results

* `Ring.Holds.push`, `Ring.Holds.pop` — moving an element; `Ring.Holds.unpush` — taking back
  the last one put in.
* `Ring.Holds.pending_eq` — **the elements between the counters are those put in and not
  taken out, in order.**
* `Ring.Holds.used_le` — there are at most `size` of them.
-/

namespace Ring

open Function

variable {α : Type} {size w : ℕ} [NeZero size]

/-- The cell of the element with number `n`. -/
def cell (size : ℕ) [NeZero size] (n : BitVec w) : Fin size :=
  ⟨n.toNat % size, Nat.mod_lt _ (Nat.pos_of_ne_zero (NeZero.ne size))⟩

/-- `input` was put in and `output` was taken out. -/
structure Holds (data : Fin size → α) (r n : BitVec w) (output input : List α) : Prop where
  taken : output <+: input
  room : input.length ≤ output.length + size
  read : r = BitVec.ofNat w output.length
  written : n = BitVec.ofNat w input.length
  data : ∀ k (hk : k < input.length), output.length ≤ k →
    data (cell size (BitVec.ofNat w k)) = input[k]

/-- The elements between the two counters. -/
def pending (data : Fin size → α) (r n : BitVec w) : List α :=
  (List.range (n - r).toNat).map fun k => data (cell size (r + BitVec.ofNat w k))

/-- The consumer takes the first of the elements between the counters. -/
theorem pending_pop {data : Fin size → α} {r n : BitVec w} (h : r ≠ n) :
    pending data r n = data (cell size r) :: pending data (r + 1) n := by
  have hne : (n - r).toNat ≠ 0 := by
    intro hc
    refine h ?_
    have hzero : n - r = 0 := BitVec.eq_of_toNat_eq hc
    exact (sub_eq_zero.mp hzero).symm
  have hone : (1 : BitVec w).toNat = 1 := by
    have := (n - r).isLt
    exact (BitVec.toNat_ofNat 1 w).trans (Nat.mod_eq_of_lt (by omega))
  have hsub : (n - (r + 1)).toNat + 1 = (n - r).toNat := by
    rw [← sub_sub, BitVec.toNat_sub_of_le (by rw [BitVec.le_def, hone]; omega), hone]
    omega
  unfold pending
  rw [← hsub, List.range_succ_eq_map, List.map_cons, List.map_map]
  refine congrArg₂ List.cons (by simp) (List.map_congr_left fun k _ => ?_)
  show data (cell size (r + BitVec.ofNat w (k + 1))) = _
  rw [BitVec.ofNat_add, BitVec.add_comm (BitVec.ofNat w k), ← BitVec.add_assoc]
  rfl

/-- The range of the counters is a multiple of the size, so a cell does not depend on
how often the counter has wrapped around. -/
theorem cell_ofNat (hd : size ∣ 2 ^ w) (k : ℕ) : (cell size (BitVec.ofNat w k)).val = k % size := by
  simp only [cell, BitVec.toNat_ofNat]
  exact Nat.mod_mod_of_dvd k hd

/-- Elements that are less than `size` apart have different cells. -/
theorem cell_ne (hd : size ∣ 2 ^ w) {k n : ℕ} (hk : k < n) (hn : n < k + size) :
    cell size (BitVec.ofNat w k) ≠ cell size (BitVec.ofNat w n) := by
  intro h
  have h' := congrArg Fin.val h
  rw [cell_ofNat hd, cell_ofNat hd] at h'
  obtain ⟨c, hc⟩ := (Nat.modEq_iff_dvd' hk.le).mp h'
  have hlt : size * c < size * 1 := by omega
  have hc0 : c = 0 := by
    have := Nat.lt_of_mul_lt_mul_left hlt
    omega
  subst hc0
  omega

namespace Holds

variable {data : Fin size → α} {r n : BitVec w} {output input : List α}

theorem start (data : Fin size → α) : Holds data (0 : BitVec w) 0 [] [] :=
  ⟨List.nil_prefix, Nat.zero_le _, rfl, rfl, fun _ hk => absurd hk (Nat.not_lt_zero _)⟩

section

variable (h : Holds data r n output input)

include h

/-- Putting an element in a buffer that is not full. -/
theorem push (hd : size ∣ 2 ^ w) (hfull : n ≠ r + BitVec.ofNat w size) (a : α) :
    Holds (update data (cell size n) a) r (n + 1) output (input ++ [a]) := by
  have hroom : input.length < output.length + size := by
    refine lt_of_le_of_ne h.room fun heq => hfull ?_
    rw [h.written, heq, h.read, BitVec.ofNat_add]
  refine ⟨h.taken.trans (List.prefix_append _ _), ?_, h.read, ?_, fun k hk hle => ?_⟩
  · rwa [List.length_append]
  · rw [List.length_append, h.written, BitVec.ofNat_add]
    rfl
  · rw [List.length_append, List.length_singleton] at hk
    rcases Nat.lt_succ_iff_lt_or_eq.mp hk with hk' | rfl
    · have hne := cell_ne hd hk' (by omega)
      rw [← h.written] at hne
      rw [update_of_ne hne, h.data k hk' hle, List.getElem_append_left hk']
    · rw [← h.written, update_self]
      simp

/-- The test for a full buffer, from the number of elements. -/
theorem not_full (hw : size < 2 ^ w)
    (hlt : input.length < output.length + size) : n ≠ r + BitVec.ofNat w size := by
  intro heq
  have hle := h.taken.length_le
  rw [h.written, h.read, ← BitVec.ofNat_add, ← BitVec.toNat_inj, BitVec.toNat_ofNat,
    BitVec.toNat_ofNat] at heq
  obtain ⟨c, hc⟩ := (Nat.modEq_iff_dvd' hlt.le).mp heq
  have hc0 : c ≠ 0 := by
    rintro rfl
    omega
  have := Nat.le_mul_of_pos_right (2 ^ w) (Nat.pos_of_ne_zero hc0)
  omega

/-- Taking an element out of a buffer that is not empty. -/
theorem pop (hempty : r ≠ n) : Holds data (r + 1) n (output ++ [data (cell size r)]) input := by
  have hlt : output.length < input.length := by
    refine lt_of_le_of_ne h.taken.length_le fun heq => hempty ?_
    rw [h.read, h.written, heq]
  have hget : data (cell size r) = input[output.length] := by
    rw [h.read]
    exact h.data _ hlt le_rfl
  refine ⟨?_, ?_, ?_, h.written, fun k hk hle => h.data k hk ?_⟩
  · obtain ⟨rest, rfl⟩ := h.taken
    cases rest with
    | nil => simp at hlt
    | cons a rest =>
      rw [hget]
      exact ⟨rest, by simp⟩
  · have := h.room
    rw [List.length_append]
    omega
  · rw [List.length_append, h.read, BitVec.ofNat_add]
    rfl
  · rw [List.length_append] at hle
    omega

/-- The element taken out is the first of those in the buffer. -/
theorem drop_pop (hempty : r ≠ n) :
    input.drop output.length =
      data (cell size r) :: input.drop (output ++ [data (cell size r)]).length := by
  obtain ⟨rest, hrest⟩ := (h.pop hempty).taken
  rw [← hrest]
  simp

/-- An element put in comes after those in the buffer. -/
theorem drop_push (a : α) : (input ++ [a]).drop output.length = input.drop output.length ++ [a] :=
  List.drop_append_of_le_length h.taken.length_le

end

/-- The counter before the last element put in. -/
theorem written_sub {a : α} (h : Holds data r n output (input ++ [a])) :
    n - 1 = BitVec.ofNat w input.length := by
  rw [h.written, List.length_append, List.length_singleton, BitVec.ofNat_add]
  exact BitVec.add_sub_cancel _ _

/-- The last element put in, if it has not been taken out. -/
theorem last {a : α} (h : Holds data r n output (input ++ [a]))
    (hle : output.length ≤ input.length) : data (cell size (n - 1)) = a := by
  rw [h.written_sub, h.data input.length (by simp) hle]
  simp

/-- Any part of what is in the buffer may be looked at through counters of its own. -/
theorem window {output' input' : List α} (h : Holds data r n output input)
    (ho : output <+: output') (hm : output' <+: input') (hi : input' <+: input) :
    Holds data (BitVec.ofNat w output'.length) (BitVec.ofNat w input'.length) output' input' := by
  have hroom := h.room
  have ho' := ho.length_le
  have hi' := hi.length_le
  refine ⟨hm, by omega, rfl, rfl, fun k hk hle => ?_⟩
  rw [h.data k (by omega) (by omega), hi.getElem hk]

/-- Taking back the last element put in. -/
theorem unpush {a : α} (h : Holds data r n output (input ++ [a]))
    (hle : output.length ≤ input.length) : Holds data r (n - 1) output input := by
  rw [h.written_sub, h.read]
  exact h.window List.prefix_rfl
    (List.prefix_of_prefix_length_le h.taken (List.prefix_append _ _) hle) (List.prefix_append _ _)

section

variable (h : Holds data r n output input)

include h

/-- Writing to the next cell of a buffer that is not full, before the counter says so. -/
theorem scribble (hd : size ∣ 2 ^ w) (hfull : n ≠ r + BitVec.ofNat w size) (a : α) :
    Holds (update data (cell size n) a) r n output input := by
  have h' := (h.push hd hfull a).unpush h.taken.length_le
  rwa [BitVec.add_sub_cancel] at h'

/-- How many elements there are between the counters. -/
theorem used (hw : size < 2 ^ w) : (n - r).toNat = input.length - output.length := by
  have hle := h.taken.length_le
  have hroom := h.room
  have hsum : n = r + BitVec.ofNat w (input.length - output.length) := by
    rw [h.written, h.read, ← BitVec.ofNat_add]
    congr 1
    omega
  rw [hsum, BitVec.add_comm, BitVec.add_sub_cancel, BitVec.toNat_ofNat]
  exact Nat.mod_eq_of_lt (by omega)

theorem used_le (hw : size < 2 ^ w) : (n - r).toNat ≤ size := by
  rw [h.used hw]
  have := h.room
  omega

/-- The next cell to be written holds none of the elements between the counters. -/
theorem cell_ne_written (hd : size ∣ 2 ^ w) (hw : size < 2 ^ w)
    (hfull : n ≠ r + BitVec.ofNat w size) {i : BitVec w} (hi : (i - r).toNat < (n - r).toNat) :
    cell size i ≠ cell size n := by
  have hroom : input.length < output.length + size := by
    refine lt_of_le_of_ne h.room fun heq => hfull ?_
    rw [h.written, heq, h.read, BitVec.ofNat_add]
  have heq : i = BitVec.ofNat w (output.length + (i - r).toNat) := by
    rw [BitVec.ofNat_add, ← h.read, BitVec.ofNat_toNat, BitVec.setWidth_eq, BitVec.add_comm,
      BitVec.sub_add_cancel]
  rw [h.used hw] at hi
  rw [heq, h.written]
  exact cell_ne hd (by omega) (by omega)

/-- The elements between the counters are those put in and not taken out, in order. -/
theorem pending_eq (hw : size < 2 ^ w) : pending data r n = input.drop output.length := by
  have hle := h.taken.length_le
  apply List.ext_getElem
  · simp only [pending, List.length_map, List.length_range, List.length_drop]
    exact h.used hw
  · intro k hk _
    simp only [pending, List.length_map, List.length_range] at hk
    rw [h.used hw] at hk
    simp only [pending, List.getElem_map, List.getElem_range, List.getElem_drop]
    rw [h.read, ← BitVec.ofNat_add]
    exact h.data _ (by omega) (by omega)

end

end Holds

end Ring
