import Mathlib.Data.Nat.Digits.Defs

/-!
# Printing numbers

`printint` of `kernel/printf.c` and of `user/printf.c`, which differ in their table
of digits.  Both write the digits into a buffer of 20 bytes, the last one first, and
print the buffer backwards.  A write past the end of the buffer, or a digit that is not
in the table, is `none`.

The longest outputs fill the buffer: `2 ^ 64 - 1` has 20 decimal digits, and
`-2 ^ 63`, whose negation wraps around to itself, has 19 and a sign.

## Main results

* `printint_canonical` — **both functions print the number**, and stay in the buffer.
-/

namespace Xv6.User

/-- `buf[i++] = c`, where `i` is the number of bytes written so far. -/
def store (buf : List Char) (c : Char) : Option (List Char) :=
  if buf.length < 20 then some (buf ++ [c]) else none

/-- The loop that writes the digits of `x`. -/
def convert (digits : List Char) (base : ℕ) : ℕ → List Char → ℕ → Option (List Char)
  | 0, _, _ => none
  | fuel + 1, buf, x => do
      let buf ← store buf (← digits[x % base]?)
      if x / base = 0 then return buf else convert digits base fuel buf (x / base)

/-- What is printed, given the table of digits. -/
def printintWith (digits : List Char) (xx : BitVec 64) (base : ℕ) (sign : Bool) :
    Option (List Char) := do
  let neg : Bool := sign && decide (xx.toInt < 0)
  let x := if neg then -xx else xx
  let buf ← convert digits base 64 [] x.toNat
  let buf ← if neg then store buf '-' else some buf
  return buf.reverse

/-- The kernel's. -/
def printint := printintWith "0123456789abcdef".toList

/-- The one of the user library. -/
def printintUser := printintWith "0123456789ABCDEF".toList

/-- An integer in decimal. -/
def decimal (z : ℤ) : List Char :=
  if z < 0 then '-' :: Nat.toDigits 10 z.natAbs else Nat.toDigits 10 z.natAbs

variable {digits buf : List Char} {f : Char → Char} {base fuel x : ℕ}

/-- The loop writes the digits of `x`, where `f` tells how the table writes a digit. -/
theorem convert_eq (ht : ∀ k < base, digits[k]? = some (f (Nat.digitChar k))) (hbase : 1 < base)
    (hbuf : buf.length + (Nat.toDigits base x).length ≤ 20)
    (hfuel : (Nat.toDigits base x).length ≤ fuel) :
    convert digits base fuel buf x = some (buf ++ ((Nat.toDigits base x).map f).reverse) := by
  induction fuel generalizing buf x with
  | zero =>
    rw [Nat.toDigits_eq_if hbase] at hfuel
    split_ifs at hfuel <;> simp at hfuel
  | succ fuel ih =>
    have hdigit := ht (x % base) (Nat.mod_lt x (by omega))
    rw [Nat.toDigits_eq_if hbase] at hbuf hfuel ⊢
    rw [convert, hdigit, Option.bind_eq_bind, Option.bind_some]
    by_cases hx : x < base
    · rw [if_pos hx, List.length_singleton] at hbuf
      rw [if_pos hx, store, if_pos (by omega), Nat.mod_eq_of_lt hx, Nat.div_eq_of_lt hx]
      rfl
    · rw [if_neg hx, List.length_append, List.length_singleton] at hbuf hfuel
      have hdiv : x / base ≠ 0 := (Nat.div_pos (not_lt.mp hx) (by omega)).ne'
      rw [if_neg hx, store, if_pos (by omega), Option.bind_eq_bind, Option.bind_some, if_neg hdiv,
        ih (by simp only [List.length_append, List.length_singleton]; omega) (by omega)]
      simp

theorem printintWith_unsigned (xx : BitVec 64) (hbase : 10 ≤ base)
    (ht : ∀ k < base, digits[k]? = some (f (Nat.digitChar k))) :
    printintWith digits xx base false = some ((Nat.toDigits base xx.toNat).map f) := by
  have hlen : (Nat.toDigits base xx.toNat).length ≤ 20 := by
    rw [Nat.length_toDigits_le_iff (by omega) (by decide)]
    calc xx.toNat < 2 ^ 64 := xx.isLt
      _ ≤ 10 ^ 20 := by decide
      _ ≤ base ^ 20 := Nat.pow_le_pow_left hbase 20
  have hconvert : convert digits base 64 [] xx.toNat =
      some ((Nat.toDigits base xx.toNat).map f).reverse :=
    convert_eq ht (by omega) (by simpa using hlen) (hlen.trans (by decide))
  simp [printintWith, hconvert]

theorem toNat_neg_eq (xx : BitVec 64) (h : xx.toInt < 0) : (-xx).toNat = xx.toInt.natAbs := by
  rw [BitVec.toNat_neg]
  rw [BitVec.toInt_eq_toNat_cond] at h ⊢
  have := xx.isLt
  omega

theorem printintWith_signed (xx : BitVec 64) (ht : ∀ k < 10, digits[k]? = some (Nat.digitChar k)) :
    printintWith digits xx 10 true = some (decimal xx.toInt) := by
  have hlen : (Nat.toDigits 10 xx.toInt.natAbs).length ≤ 19 := by
    rw [Nat.length_toDigits_le_iff (by decide) (by decide)]
    have := BitVec.le_toInt xx
    have := BitVec.toInt_lt (x := xx)
    omega
  have hconvert : convert digits 10 64 [] xx.toInt.natAbs =
      some (Nat.toDigits 10 xx.toInt.natAbs).reverse := by
    rw [convert_eq (f := id) ht (by decide) (by simp; omega) (by omega), List.map_id,
      List.nil_append]
  by_cases h : xx.toInt < 0
  · simp [printintWith, decimal, h, toNat_neg_eq xx h, hconvert, store, Nat.lt_succ_of_le hlen]
  · have habs : xx.toNat = xx.toInt.natAbs := by
      rw [BitVec.toInt_eq_toNat_cond] at h ⊢
      have := xx.isLt
      omega
    simp [printintWith, decimal, h, habs, hconvert]

/-- **Both functions print the number** without leading zeros and with a sign only if it is
negative, and no write is outside the buffer. -/
theorem printint_canonical (xx : BitVec 64) :
    (printint xx 10 true = some (decimal xx.toInt) ∧
      printint xx 10 false = some (Nat.toDigits 10 xx.toNat) ∧
      printint xx 16 false = some (Nat.toDigits 16 xx.toNat)) ∧
    printintUser xx 10 true = some (decimal xx.toInt) ∧
      printintUser xx 10 false = some (Nat.toDigits 10 xx.toNat) ∧
      printintUser xx 16 false = some ((Nat.toDigits 16 xx.toNat).map Char.toUpper) := by
  refine ⟨⟨printintWith_signed xx (by decide), ?_, ?_⟩, printintWith_signed xx (by decide), ?_, ?_⟩
  · rw [printint, printintWith_unsigned (f := id) xx le_rfl (by decide), List.map_id]
  · rw [printint, printintWith_unsigned (f := id) xx (by decide) (by decide), List.map_id]
  · rw [printintUser, printintWith_unsigned (f := id) xx le_rfl (by decide), List.map_id]
  · exact printintWith_unsigned xx (by decide) (by decide)

end Xv6.User
