import Mathlib.Tactic.Ring
import Mathlib.Data.Nat.Basic

/-!
# Little-endian numbers in byte memories

A memory is a function from offsets to bytes.  `get n m o` is the unsigned
number stored in the `n` bytes at offset `o`, least significant byte first, and
`set n m o v` stores one there; `read` and `write` are for strings of bytes.

## Main results

* `get_set_self` — what was stored is read back, if it fits.
* `get_set_of_disjoint` — storing changes no number that shares no byte with it.
-/

namespace Bytes

/-- A memory: bytes by offset. -/
abbrev Mem := ℕ → UInt8

/-- The number in the `n` bytes at offset `o`, least significant byte first. -/
def get : ℕ → Mem → ℕ → ℕ
  | 0, _, _ => 0
  | n + 1, m, o => (m o).toNat + 256 * get n m (o + 1)

/-- Store the number `v` in the `n` bytes at offset `o`. -/
def set (n : ℕ) (m : Mem) (o v : ℕ) : Mem :=
  fun i => if o ≤ i ∧ i < o + n then UInt8.ofNat (v / 256 ^ (i - o)) else m i

/-- The `n` bytes at offset `o`. -/
def read (m : Mem) (o n : ℕ) : List UInt8 := (List.range n).map fun i => m (o + i)

/-- Store bytes at offset `o`. -/
def write (m : Mem) (o : ℕ) (src : List UInt8) : Mem := fun i =>
  if o ≤ i ∧ i < o + src.length then src.getD (i - o) 0 else m i

@[simp] theorem get_zero (m : Mem) (o : ℕ) : get 0 m o = 0 := rfl

theorem get_succ (n : ℕ) (m : Mem) (o : ℕ) :
    get (n + 1) m o = (m o).toNat + 256 * get n m (o + 1) := rfl

theorem get_lt (n : ℕ) (m : Mem) (o : ℕ) : get n m o < 256 ^ n := by
  induction n generalizing o with
  | zero => simp
  | succ n ih =>
    have h1 := ih (o + 1)
    have h2 := (m o).toNat_lt
    rw [get_succ, pow_succ]
    omega

/-- A number depends only on the bytes it is stored in. -/
theorem get_congr {n : ℕ} {m m' : Mem} {o o' : ℕ} (h : ∀ i, i < n → m (o + i) = m' (o' + i)) :
    get n m o = get n m' o' := by
  induction n generalizing o o' with
  | zero => rfl
  | succ n ih =>
    rw [get_succ, get_succ]
    have h0 : m o = m' o' := by simpa using h 0 (by omega)
    rw [h0, ih]
    intro i hi
    have := h (i + 1) (by omega)
    rwa [Nat.add_right_comm, Nat.add_right_comm o', ← Nat.add_assoc, ← Nat.add_assoc] at *

theorem set_apply_of_not_mem {n : ℕ} {m : Mem} {o v i : ℕ} (h : i < o ∨ o + n ≤ i) :
    set n m o v i = m i := by
  unfold set
  rw [if_neg (by omega)]

/-- Storing changes no number that shares no byte with it. -/
theorem get_set_of_disjoint {n n' : ℕ} {m : Mem} {o o' v : ℕ}
    (h : o' + n' ≤ o ∨ o + n ≤ o') : get n' (set n m o v) o' = get n' m o' :=
  get_congr fun _ _ => set_apply_of_not_mem (by omega)

/-- The byte of a stored number at distance `k` from its first one. -/
private theorem get_shift (n : ℕ) (m : Mem) (o v k : ℕ) (hk : k ≤ n)
    (hm : ∀ i, i < n → m (o + i) = UInt8.ofNat (v / 256 ^ i)) :
    get (n - k) m (o + k) = v / 256 ^ k % 256 ^ (n - k) := by
  induction hd : n - k generalizing k with
  | zero => simp [Nat.mod_one]
  | succ d ih =>
    have hrec := ih (k + 1) (by omega) (by omega)
    rw [get_succ, hm k (by omega), Nat.add_assoc, hrec, UInt8.toNat_ofNat', pow_succ 256 k,
      ← Nat.div_div_eq_div_mul, pow_succ' 256 d]
    exact (Nat.mod_mul).symm

/-- What was stored is read back, if it fits. -/
theorem get_set_self {n : ℕ} {m : Mem} {o v : ℕ} (h : v < 256 ^ n) : get n (set n m o v) o = v := by
  have := get_shift n (set n m o v) o v 0 (Nat.zero_le _) fun i hi => by
    unfold set
    rw [if_pos (by omega), Nat.add_sub_cancel_left]
  simpa [Nat.mod_eq_of_lt h] using this

end Bytes
