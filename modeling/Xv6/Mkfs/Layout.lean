import Xv6.Mkfs.Model

/-!
# The format is read as it is written

An inode, the superblock and the free map that `mkfs` writes are what the kernel
reads.

## Main results

* `getDinode_putDinode`, `getDinode_putDinode_of_disjoint` — inodes.
* `readsb_sbBlock` — the superblock.
* `testBit_usedBits` — the free map.
-/

namespace Xv6.Mkfs

open Fs

variable {b b' : Block} {o o' n k j : ℕ} {d : Dinode} {addrs : ℕ → ℕ}

/-! ### Inodes -/

/-- An inode that fits its place on disk. -/
structure Fits (d : Dinode) : Prop where
  major : short d.major = d.major
  minor : short d.minor = d.minor
  nlink : short d.nlink = d.nlink
  size : d.size < 2 ^ 32
  addrs : ∀ k, d.addrs k < 2 ^ 32
  tail : ∀ k, NDIRECT < k → d.addrs k = 0

theorem short_ushort (x : ℤ) : short (ushort x) = short x := by
  unfold short ushort
  omega

theorem ushort_lt (x : ℤ) : ushort x < 256 ^ 2 := by
  unfold ushort
  omega

theorem FileType.ofNum_num (type : FileType) : FileType.ofNum type.num = type := by
  cases type with
  | other n => exact congrArg FileType.other (Fin.ext (Nat.mod_eq_of_lt n.isLt))
  | _ => rfl

theorem FileType.num_lt (type : FileType) : type.num < 256 ^ 2 := by
  cases type with
  | other n => exact Nat.add_lt_add_right n.isLt 4
  | _ => decide

theorem get_putAddrs_of_disjoint (h : o' + n ≤ o + 12 ∨ o + 12 + 4 * k ≤ o') :
    Bytes.get n (putAddrs b o addrs k) o' = Bytes.get n b o' := by
  induction k with
  | zero => rfl
  | succ k ih =>
    rw [putAddrs, Bytes.get_set_of_disjoint (by omega), ih (by omega)]

theorem get_putAddrs (hj : j < k) (ha : addrs j < 2 ^ 32) :
    Bytes.get 4 (putAddrs b o addrs k) (o + 12 + 4 * j) = addrs j := by
  induction k with
  | zero => omega
  | succ k ih =>
    rw [putAddrs]
    by_cases hjk : j = k
    · rw [hjk] at ha ⊢
      exact Bytes.get_set_self ha
    · rw [Bytes.get_set_of_disjoint (by omega), ih (by omega)]

theorem putDinode_get_of_disjoint (h : o' + n ≤ o ∨ o + DINODE ≤ o') :
    Bytes.get n (putDinode b o d) o' = Bytes.get n b o' := by
  have h : o' + n ≤ o ∨ o + 64 ≤ o' := h
  have hN : NDIRECT = 12 := rfl
  unfold putDinode
  simp (disch := omega) only [get_putAddrs_of_disjoint, Bytes.get_set_of_disjoint]

theorem getDinode_addrs (b : Block) (o k : ℕ) :
    (getDinode b o).addrs k = if k ≤ NDIRECT then Bytes.get 4 b (o + 12 + 4 * k) else 0 := by
  unfold getDinode
  dsimp only
  rw [List.getD_eq_getElem?_getD, List.getElem?_map]
  by_cases hk : k ≤ NDIRECT
  · rw [if_pos hk, List.getElem?_range (Nat.lt_succ_of_le hk)]
    rfl
  · rw [if_neg hk, List.getElem?_eq_none (by rw [List.length_range]; omega)]
    rfl

/-- **An inode is read as it was written.** -/
theorem getDinode_putDinode (h : Fits d) : getDinode (putDinode b o d) o = d := by
  have htype : Bytes.get 2 (putDinode b o d) o = d.type.num := by
    unfold putDinode
    simp (disch := omega) only [get_putAddrs_of_disjoint, Bytes.get_set_of_disjoint]
    exact Bytes.get_set_self (FileType.num_lt _)
  have hshort : Bytes.get 2 (putDinode b o d) (o + 2) = ushort d.major ∧
      Bytes.get 2 (putDinode b o d) (o + 4) = ushort d.minor ∧
      Bytes.get 2 (putDinode b o d) (o + 6) = ushort d.nlink := by
    unfold putDinode
    simp (disch := omega) only [get_putAddrs_of_disjoint, Bytes.get_set_of_disjoint,
      Bytes.get_set_self (ushort_lt _), and_self]
  obtain ⟨hmajor, hminor, hnlink⟩ := hshort
  have hsize : Bytes.get 4 (putDinode b o d) (o + 8) = d.size := by
    unfold putDinode
    rw [get_putAddrs_of_disjoint (by omega), Bytes.get_set_self h.size]
  refine Dinode.ext ?_ ?_ ?_ ?_ hsize (funext fun k => ?_)
  · exact (congrArg FileType.ofNum htype).trans (FileType.ofNum_num _)
  · show short (Bytes.get 2 (putDinode b o d) (o + 2)) = d.major
    rw [hmajor, short_ushort, h.major]
  · show short (Bytes.get 2 (putDinode b o d) (o + 4)) = d.minor
    rw [hminor, short_ushort, h.minor]
  · show short (Bytes.get 2 (putDinode b o d) (o + 6)) = d.nlink
    rw [hnlink, short_ushort, h.nlink]
  · rw [getDinode_addrs]
    by_cases hk : k ≤ NDIRECT
    · rw [if_pos hk]
      exact get_putAddrs (Nat.lt_succ_of_le hk) (h.addrs k)
    · rw [if_neg hk, h.tail k (not_le.mp hk)]

/-- The other inodes of the block stay. -/
theorem getDinode_putDinode_of_disjoint (h : o' + DINODE ≤ o ∨ o + DINODE ≤ o') :
    getDinode (putDinode b o d) o' = getDinode b o' := by
  have h' : o' + 64 ≤ o ∨ o + 64 ≤ o' := h
  have hget : ∀ n k, k + n ≤ 64 → Bytes.get n (putDinode b o d) (o' + k) = Bytes.get n b
      (o' + k) := by
    intro n k hk
    exact putDinode_get_of_disjoint (show o' + k + n ≤ o ∨ o + 64 ≤ o' + k by omega)
  refine Dinode.ext ?_ ?_ ?_ ?_ (hget 4 8 (by omega)) (funext fun k => ?_)
  · exact congrArg FileType.ofNum (hget 2 0 (by omega))
  · exact congrArg (fun n : ℕ => short n) (hget 2 2 (by omega))
  · exact congrArg (fun n : ℕ => short n) (hget 2 4 (by omega))
  · exact congrArg (fun n : ℕ => short n) (hget 2 6 (by omega))
  · rw [getDinode_addrs, getDinode_addrs]
    by_cases hk : k ≤ NDIRECT
    · have hk' : k ≤ 12 := hk
      rw [if_pos hk, if_pos hk, Nat.add_assoc, hget 4 _ (by omega)]
    · rw [if_neg hk, if_neg hk]

theorem getDinode_zero (o : ℕ) : getDinode (fun _ => 0) o = Dinode.zero := by
  have hget : ∀ n o, Bytes.get n (fun _ => 0) o = 0 := by
    intro n
    induction n with
    | zero => exact fun _ => rfl
    | succ n ih => exact fun o => by rw [Bytes.get_succ, ih]; rfl
  refine Dinode.ext ?_ ?_ ?_ ?_ (hget 4 _) (funext fun k => ?_)
  · exact congrArg FileType.ofNum (hget 2 o)
  · show short (Bytes.get 2 _ (o + 2)) = 0
    rw [hget]
    decide
  · show short (Bytes.get 2 _ (o + 4)) = 0
    rw [hget]
    decide
  · show short (Bytes.get 2 _ (o + 6)) = 0
    rw [hget]
    decide
  · rw [getDinode_addrs, hget]
    split_ifs <;> rfl

/-! ### The superblock and the free map -/

/-- **The superblock is read as it was written.** -/
theorem readsb_sbBlock {disk : ℕ → Block} (h : disk 1 = sbBlock) : readsb disk = sb := by
  unfold readsb
  rw [h]
  rfl

/-- **The kernel finds the blocks below `used` in use.** -/
theorem testBit_usedBits (used i : ℕ) :
    (usedBits used (i / 8)).toNat.testBit (i % 8) = decide (i < used) := by
  induction used with
  | zero => simp [usedBits]
  | succ n ih =>
    rw [usedBits]
    by_cases hi : i / 8 = n / 8
    · rw [hi, Function.update_self, UInt8.toNat_or, Nat.testBit_or, toNat_shift, ← hi, ih,
        Nat.testBit_two_pow]
      by_cases hin : i = n
      · simp [hin]
      · have h1 : ¬ n % 8 = i % 8 := by omega
        have h2 : i < n + 1 ↔ i < n := by omega
        simp [h1, h2]
    · rw [Function.update_of_ne hi, ih]
      have h2 : i < n + 1 ↔ i < n := by
        have : i ≠ n := fun hc => hi (by rw [hc])
        omega
      simp [h2]

end Xv6.Mkfs
