import Mathlib.Algebra.Order.Ring.Nat
import Mathlib.Data.Nat.Basic
import Mathlib.Logic.Function.Basic

/-!
# Copying bytes

`memmove` of `kernel/string.c` and of `user/ulib.c`.  They choose the direction by
different tests: the kernel copies downwards only if the end of the source reaches into
the destination, the library whenever the source is not above the destination.  In either
direction, no byte of the source is overwritten before it has been copied.

## Main results

* `memmove_moves` — **both functions copy the bytes, and change no other.**
-/

namespace Xv6.User

open Function

/-- An address. -/
abbrev Ptr := BitVec 64

/-- The byte at each address. -/
abbrev Mem := Ptr → UInt8

/-- `while(n-- > 0) *d++ = *s++`. -/
def copyUp : ℕ → Ptr → Ptr → Mem → Mem
  | 0, _, _, m => m
  | n + 1, d, s, m => copyUp n (d + 1) (s + 1) (update m d (m s))

/-- `while(n-- > 0) *--d = *--s`. -/
def copyDown : ℕ → Ptr → Ptr → Mem → Mem
  | 0, _, _, m => m
  | n + 1, d, s, m => copyDown n (d - 1) (s - 1) (update m (d - 1) (m (s - 1)))

/-- The kernel's `memmove`; `n` is a `uint`. -/
def memmove (dst src : Ptr) (n : ℕ) (m : Mem) : Ptr × Mem :=
  if n = 0 then (dst, m)
  else if src < dst ∧ src + .ofNat 64 n > dst then
    (dst, copyDown n (dst + .ofNat 64 n) (src + .ofNat 64 n) m)
  else (dst, copyUp n dst src m)

/-- The library's `memmove`; `n` is an `int`. -/
def memmoveUser (vdst vsrc : Ptr) (n : ℤ) (m : Mem) : Ptr × Mem :=
  if vsrc > vdst then (vdst, copyUp n.toNat vdst vsrc m)
  else (vdst, copyDown n.toNat (vdst + .ofInt 64 n) (vsrc + .ofInt 64 n) m)

/-- Memory in which the `n` bytes at `src` have been copied to `dst` all at once. -/
def moved (dst src : Ptr) (n : ℕ) (m : Mem) : Mem := fun a =>
  if dst.toNat ≤ a.toNat ∧ a.toNat < dst.toNat + n then m (src + (a - dst)) else m a

variable {dst src : Ptr} {n : ℕ} {m : Mem}

theorem copyDown_eq (hd : dst.toNat + n ≤ 2 ^ 64) (hle : src ≤ dst) :
    copyDown n (dst + .ofNat 64 n) (src + .ofNat 64 n) m = moved dst src n m := by
  induction n generalizing m with
  | zero =>
    funext a
    exact (if_neg (by omega)).symm
  | succ n ih =>
    have hlast : ∀ p : Ptr, p + .ofNat 64 (n + 1) - 1 = p + .ofNat 64 n := by
      intro p
      bv_omega
    rw [copyDown, hlast, hlast, ih (by omega)]
    funext a
    unfold moved
    split_ifs with h1 h2 h2
    · -- the byte that has been written is above those that are still read
      exact update_of_ne (by bv_omega) ..
    · omega
    · obtain rfl : a = dst + .ofNat 64 n := by bv_omega
      rw [update_self, BitVec.add_comm dst, BitVec.add_sub_cancel]
    · exact update_of_ne (by bv_omega) ..

theorem copyUp_eq (hd : dst.toNat + n ≤ 2 ^ 64) (hs : src.toNat + n ≤ 2 ^ 64)
    (hle : src < dst → src.toNat + n ≤ dst.toNat) : copyUp n dst src m = moved dst src n m := by
  induction n generalizing dst src m with
  | zero =>
    funext a
    exact (if_neg (by omega)).symm
  | succ n ih =>
    rw [copyUp, ih (by bv_omega) (by bv_omega) (by bv_omega)]
    funext a
    unfold moved
    split_ifs with h1 h2 h2
    · rw [update_of_ne (by bv_omega), BitVec.add_assoc,
        show 1 + (a - (dst + 1)) = a - dst by bv_omega]
    · bv_omega
    · obtain rfl : a = dst := by bv_omega
      rw [update_self, BitVec.sub_self, BitVec.add_zero]
    · exact update_of_ne (by bv_omega) ..

section

variable (hd : dst.toNat + n ≤ 2 ^ 64) (hs : src.toNat + n ≤ 2 ^ 64)

include hd hs

theorem memmove_eq : memmove dst src n m = (dst, moved dst src n m) := by
  unfold memmove
  split_ifs with h0 hlt
  · rw [← copyUp_eq hd hs (by bv_omega), h0, copyUp]
  · rw [copyDown_eq hd (BitVec.le_of_lt hlt.1)]
  · -- if the end of the source wraps around to 0, then the destination is not above the source
    rw [copyUp_eq hd hs (by bv_omega)]

theorem memmoveUser_eq : memmoveUser dst src n m = (dst, moved dst src n m) := by
  unfold memmoveUser
  rw [Int.toNat_natCast, show BitVec.ofInt 64 n = .ofNat 64 n from rfl]
  split_ifs with hlt
  · rw [copyUp_eq hd hs (by bv_omega)]
  · rw [copyDown_eq hd (BitVec.not_lt.mp hlt)]

end

/-- **Both functions leave the bytes of the source in the destination, however the two overlap,
and change no other byte.** -/
theorem memmove_moves (m : Mem) (dst src : Ptr) (n : ℕ) (hd : dst.toNat + n ≤ 2 ^ 64)
    (hs : src.toNat + n ≤ 2 ^ 64) :
    ∀ r ∈ [memmove dst src n m, memmoveUser dst src n m], r.1 = dst ∧
      (∀ i < n, r.2 (dst + .ofNat 64 i) = m (src + .ofNat 64 i)) ∧
      ∀ a, a.toNat < dst.toNat ∨ dst.toNat + n ≤ a.toNat → r.2 a = m a := by
  intro r hr
  obtain rfl : r = (dst, moved dst src n m) := by
    rw [memmove_eq hd hs, memmoveUser_eq hd hs] at hr
    simpa using hr
  refine ⟨rfl, fun i hi => ?_, fun a ha => if_neg (by omega)⟩
  refine (if_pos (by bv_omega)).trans ?_
  rw [BitVec.add_comm dst, BitVec.add_sub_cancel]

/-- Two bytes that move up by one, onto themselves. -/
theorem memmove_moves_overlap : (memmove 1 0 2 fun a => .ofNat a.toNat).2 2 = 1 := by
  exact (memmove_moves (fun a => .ofNat a.toNat) 1 0 2 (by decide) (by decide) _
    List.mem_cons_self).2.1 1 (by decide)

end Xv6.User
