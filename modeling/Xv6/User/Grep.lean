import Mathlib.Computability.Language

/-!
# Searching files for a pattern

`user/grep.c`: the matcher and the loop that puts together the lines of a file
from what `read` returns.  A string is the list of the bytes before its
terminator, so the end of the list is where the source sees a NUL.

The matcher backtracks; what a pattern means is said without it, as a product of
languages, one for each atom of the pattern.

`grep` keeps what it has read of a line in a buffer of 1024 bytes, and asks
`read` for as much as there is still room for.  A line of 1023 bytes or more
fills the buffer: `grep` then asks for no byte at all, takes the answer for the
end of the file, and nothing from that line on is searched.

## Main definitions

* `matchstar`, `matchhere`, `matchRe` — the matcher (`match` in the source).
* `atoms`, `anchored`, `Matched` — what a pattern means.
* `strchr`, `scan`, `grep` — the search of a file.
* `lines` — the lines of a file that end with a newline.

## Main results

* `matchRe_iff` — **the matcher finds what the pattern means.**
* `grep_lines_iff` — **`grep` writes the lines that match**, exactly if none of them comes after
  a line that is too long.
-/

namespace Xv6.User

/-- The bytes of a C string. -/
abbrev Str := List UInt8

/-! ### The matcher

The operators `*`, `.`, `$` and `^` are the bytes 42, 46, 36 and 94. -/

/-- `here` is `matchhere` for the rest of the pattern. -/
def matchstar (c : UInt8) (here : Str → Bool) : Str → Bool
  | [] => here []
  | x :: text => here (x :: text) || (x == c || c == 46) && matchstar c here text

def matchhere : Str → Str → Bool
  | [], _ => true
  | c :: 42 :: re, text => matchstar c (matchhere re) text
  | [36], text => text.isEmpty
  | _ :: _, [] => false
  | c :: re, x :: text => (c == 46 || c == x) && matchhere re text

/-- The loop of `match`. -/
def matchFrom (re : Str) : Str → Bool
  | [] => matchhere re []
  | x :: text => matchhere re (x :: text) || matchFrom re text

/-- `match` in the source. -/
def matchRe : Str → Str → Bool
  | 94 :: re, text => matchhere re text
  | re, text => matchFrom re text

/-! ### The meaning of a pattern -/

inductive Atom where
  /-- One character. -/
  | char (c : UInt8)
  /-- Any number of them. -/
  | star (c : UInt8)

/-- The characters that a character of a pattern stands for. -/
def Stands (c x : UInt8) : Prop := c = 46 ∨ c = x

/-- One of them. -/
def one (c : UInt8) : Language UInt8 := {w | ∃ x, Stands c x ∧ w = [x]}

def Atom.language : Atom → Language UInt8
  | .char c => one c
  | .star c => KStar.kstar (one c)

def atoms : Str → List Atom
  | [] => []
  | c :: 42 :: re => .star c :: atoms re
  | [36] => []
  | c :: re => .char c :: atoms re

/-- The pattern ends with a `$` that has no star. -/
def anchored : Str → Bool
  | [] => false
  | _ :: 42 :: re => anchored re
  | [36] => true
  | _ :: re => anchored re

/-- The pattern matches `w` where `rest` follows. -/
def Matched (re w rest : Str) : Prop :=
  w ∈ ((atoms re).map Atom.language).prod ∧ (anchored re = true → rest = [])

variable {c x : UInt8} {re text w : Str}

theorem stands_iff : (c == 46 || c == x) = true ↔ Stands c x := by
  rw [Bool.or_eq_true, beq_iff_eq, beq_iff_eq, Stands]

theorem mem_star : w ∈ (Atom.star c).language ↔ ∀ x ∈ w, Stands c x := by
  rw [Atom.language, Language.mem_kstar]
  constructor
  · rintro ⟨L, rfl, hL⟩ x hx
    obtain ⟨y, hy, hxy⟩ := List.mem_flatten.mp hx
    obtain ⟨z, hz, rfl⟩ := hL y hy
    rwa [List.mem_singleton.mp hxy]
  · intro h
    refine ⟨w.map fun x => [x], ?_, fun y hy => ?_⟩
    · rw [← List.flatMap_def, List.flatMap_singleton']
    · obtain ⟨x, hx, rfl⟩ := List.mem_map.mp hy
      exact ⟨x, h x hx, rfl⟩

theorem matchstar_iff {here : Str → Bool} :
    matchstar c here text = true ↔
      ∃ w rest, text = w ++ rest ∧ (∀ x ∈ w, Stands c x) ∧ here rest = true := by
  induction text with
  | nil => simp [matchstar]
  | cons x text ih =>
    rw [matchstar, Bool.or_eq_true, Bool.and_eq_true, Bool.or_comm (x == c), BEq.comm (b := c),
      stands_iff, ih]
    constructor
    · rintro (h | ⟨hx, w, rest, rfl, hw, h⟩)
      · exact ⟨[], _, rfl, by simp, h⟩
      · exact ⟨x :: w, rest, rfl, by simpa using ⟨hx, hw⟩, h⟩
    · rintro ⟨_ | ⟨y, w⟩, rest, heq, hw, h⟩
      · exact Or.inl (by rw [heq]; exact h)
      · obtain ⟨rfl, rfl⟩ := List.cons.inj heq
        obtain ⟨hx, hw⟩ := List.forall_mem_cons.mp hw
        exact Or.inr ⟨hx, w, rest, rfl, hw, h⟩

theorem matchhere_iff :
    matchhere re text = true ↔ ∃ w rest, text = w ++ rest ∧ Matched re w rest := by
  -- along the atoms of the pattern
  induction re using atoms.induct generalizing text with
  | case1 => simp [matchhere, Matched, atoms, anchored, Language.mem_one]
  | case2 c re ih =>
    simp only [matchhere, matchstar_iff, ih, Matched, atoms, anchored, List.map_cons,
      List.prod_cons, Language.mem_mul, mem_star]
    constructor
    · rintro ⟨r, _, rfl, hr, w, rest, rfl, hw, hend⟩
      exact ⟨r ++ w, rest, (List.append_assoc ..).symm, ⟨r, hr, w, hw, rfl⟩, hend⟩
    · rintro ⟨_, rest, rfl, ⟨r, hr, w, hw, rfl⟩, hend⟩
      exact ⟨r, w ++ rest, List.append_assoc .., hr, w, rest, rfl, hw, hend⟩
  | case3 => cases text <;> simp [matchhere, Matched, atoms, anchored, Language.mem_one]
  | case4 c re hstar hend ih =>
    have hmem : ∀ w, w ∈ ((atoms (c :: re)).map Atom.language).prod ↔
        ∃ x w', w = x :: w' ∧ Stands c x ∧ w' ∈ ((atoms re).map Atom.language).prod := by
      intro w
      rw [atoms.eq_4 c re hstar hend, List.map_cons, List.prod_cons, Language.mem_mul]
      constructor
      · rintro ⟨_, ⟨x, hx, rfl⟩, w', hw', rfl⟩
        exact ⟨x, w', rfl, hx, hw'⟩
      · rintro ⟨x, w', rfl, hx, hw'⟩
        exact ⟨[x], ⟨x, hx, rfl⟩, w', hw', rfl⟩
    simp only [Matched, hmem, anchored.eq_4 c re hstar hend]
    cases text with
    | nil => simp [matchhere.eq_4 c re hstar hend]
    | cons x text =>
      rw [matchhere.eq_5 c re x text hstar hend, Bool.and_eq_true, stands_iff, ih]
      constructor
      · rintro ⟨hx, w, rest, rfl, hw, hrest⟩
        exact ⟨x :: w, rest, rfl, ⟨x, w, rfl, hx, hw⟩, hrest⟩
      · rintro ⟨_, rest, heq, ⟨y, w, rfl, hx, hw⟩, hrest⟩
        obtain ⟨rfl, rfl⟩ := List.cons.inj heq
        exact ⟨hx, w, rest, rfl, hw, hrest⟩

theorem matchFrom_iff :
    matchFrom re text = true ↔ ∃ pre s, text = pre ++ s ∧ matchhere re s = true := by
  induction text with
  | nil => simp [matchFrom]
  | cons x text ih =>
    rw [matchFrom, Bool.or_eq_true, ih]
    constructor
    · rintro (h | ⟨pre, s, rfl, h⟩)
      · exact ⟨[], _, rfl, h⟩
      · exact ⟨x :: pre, s, rfl, h⟩
    · rintro ⟨_ | ⟨y, pre⟩, s, heq, h⟩
      · exact Or.inl (by rw [heq]; exact h)
      · exact Or.inr ⟨pre, s, (List.cons.inj heq).2, h⟩

/-- **The matcher finds what the pattern means.**  A pattern that begins with `^` matches at the
start of the text, any other one wherever a part of the text is in its language. -/
theorem matchRe_iff (re text : Str) : matchRe re text = true ↔
    ∃ pre w rest, text = pre ++ (w ++ rest) ∧ (re.head? = some 94 → pre = []) ∧
      Matched (if re.head? = some 94 then re.tail else re) w rest := by
  by_cases hre : re.head? = some 94
  · obtain ⟨re, rfl⟩ := List.head?_eq_some_iff.mp hre
    rw [matchRe, matchhere_iff]
    constructor
    · rintro ⟨w, rest, rfl, h⟩
      exact ⟨[], w, rest, rfl, fun _ => rfl, h⟩
    · rintro ⟨pre, w, rest, rfl, hpre, h⟩
      obtain rfl := hpre rfl
      exact ⟨w, rest, rfl, h⟩
  · rw [matchRe.eq_2 re text fun re' heq => hre (by rw [heq]; rfl), matchFrom_iff]
    simp only [hre, matchhere_iff, if_false, false_implies, true_and]
    constructor
    · rintro ⟨pre, _, rfl, w, rest, rfl, h⟩
      exact ⟨pre, w, rest, rfl, h⟩
    · rintro ⟨pre, w, rest, rfl, h⟩
      exact ⟨pre, _, rfl, w, rest, rfl, h⟩

/-! ### The lines of a file -/

/-- `strchr(s, c)`, as an index. -/
def strchr (c : UInt8) : Str → Option ℕ
  | [] => none
  | x :: s => if x = 0 then none else if x = c then some 0 else (strchr c s).map (· + 1)

/-- The loop over the lines in the buffer from `p` on: what it writes, and where it leaves `p`. -/
def scan (re : Str) : ℕ → Str → List Str × Str
  | 0, p => ([], p)
  | n + 1, p =>
      match strchr 10 p with
      | none => ([], p)
      | some q =>
          let (out, rest) := scan re n (p.drop (q + 1))
          (if matchRe re (p.take q) then p.take (q + 1) :: out else out, rest)

/-- How many bytes `read` returns if it is asked for `k` and can have up to `most + 1` at once. -/
def readCount (most k : ℕ) (file : Str) : ℕ := min (most + 1) (min k file.length)

/-- `grep`, with the first bytes of a line in `buf` and the rest of the file ahead.  The `i`-th
`read` returns no more than `chunk i + 1` bytes. -/
def grep (re : Str) (chunk : ℕ → ℕ) : ℕ → ℕ → Str → Str → Option (List Str)
  | 0, _, _, _ => none
  | fuel + 1, i, buf, file =>
      let n := readCount (chunk i) (1024 - buf.length - 1) file
      if n = 0 then some []
      else
        let buf := buf ++ file.take n
        let (out, rest) := scan re (buf.length + 1) buf
        (grep re chunk fuel (i + 1) rest (file.drop n)).map (out ++ ·)

/-- The lines of a file that end with a newline, without it. -/
def lines (file : Str) : List Str := (file.splitOnP (· == 10)).dropLast

/-- What is to be written for some lines. -/
def found (re : Str) (ls : List Str) : List Str := (ls.filter (matchRe re)).map (· ++ [10])

/-- The line and its newline fit in the buffer. -/
def short (l : Str) : Bool := l.length < 1023

variable {a b p buf file : Str} {n q fuel i : ℕ} {chunk : ℕ → ℕ}

theorem lines_of_not_mem (h : 10 ∉ a) : lines a = [] := by
  rw [lines, List.splitOnP_eq_singleton, List.dropLast_singleton]
  exact fun x hx => beq_false_of_ne fun h10 => h (h10 ▸ hx)

theorem lines_append (h : 10 ∉ a) : lines (a ++ 10 :: b) = a :: lines b := by
  rw [lines, List.splitOnP_append_cons_of_forall_mem (fun x hx => ?_) 10 rfl,
    List.dropLast_cons_of_ne_nil (List.splitOnP_ne_nil _ _), lines]
  exact beq_false_of_ne fun h10 => h (h10 ▸ hx)

theorem strchr_cases (h0 : 0 ∉ p) : strchr 10 p = none ∧ 10 ∉ p ∨
    ∃ a b, p = a ++ 10 :: b ∧ 10 ∉ a ∧ strchr 10 p = some a.length := by
  induction p with
  | nil => exact Or.inl ⟨rfl, List.not_mem_nil⟩
  | cons x p ih =>
    obtain ⟨hx, h0⟩ : 0 ≠ x ∧ 0 ∉ p := by simpa using h0
    rw [strchr, if_neg hx.symm]
    by_cases h10 : x = 10
    · exact Or.inr ⟨[], p, by rw [h10]; rfl, List.not_mem_nil, if_pos h10⟩
    · rw [if_neg h10]
      rcases ih h0 with ⟨hnone, hp⟩ | ⟨a, b, rfl, ha, hsome⟩
      · exact Or.inl ⟨by rw [hnone]; rfl, by simp [Ne.symm h10, hp]⟩
      · exact Or.inr ⟨x :: a, b, rfl, by simp [Ne.symm h10, ha], by rw [hsome]; rfl⟩

/-- What the loop over the buffer does, and that the lines of the file are those it has seen and
those that begin with what it leaves. -/
theorem scan_spec (re : Str) (h0 : 0 ∉ p) (hn : p.length < n) :
    ∃ rest, scan re n p = (found re (lines p), rest) ∧ 10 ∉ rest ∧ rest <:+ p ∧
      (∀ l ∈ lines p, l.length < p.length) ∧
      ∀ more, lines (p ++ more) = lines p ++ lines (rest ++ more) := by
  induction n generalizing p with
  | zero => exact absurd hn (Nat.not_lt_zero _)
  | succ n ih =>
    rcases strchr_cases h0 with ⟨hnone, hp⟩ | ⟨a, b, rfl, ha, hsome⟩
    · rw [scan, hnone, lines_of_not_mem hp]
      exact ⟨p, rfl, hp, List.suffix_refl p, nofun, fun _ => rfl⟩
    · rw [List.length_append, List.length_cons] at hn
      obtain ⟨rest, hscan, hrest, hsuffix, hlen, hlines⟩ :=
        ih (p := b) (fun h => h0 (by simp [h])) (by omega)
      have hdrop : (a ++ 10 :: b).drop (a.length + 1) = b := by simp
      have htake : (a ++ 10 :: b).take (a.length + 1) = a ++ [10] := by simp [List.take_append]
      refine ⟨rest, ?_, hrest, hsuffix.trans ⟨a ++ [10], by simp⟩, fun l hl => ?_, fun more => ?_⟩
      · rw [scan, hsome]
        dsimp only
        rw [hdrop, hscan, htake, List.take_left, lines_append ha, found, found, List.filter_cons]
        split_ifs <;> rfl
      · rw [lines_append ha] at hl
        rw [List.length_append, List.length_cons]
        rcases List.mem_cons.mp hl with rfl | hl
        · omega
        · have := hlen l hl
          omega
      · rw [List.append_assoc, List.cons_append, lines_append ha, lines_append ha, hlines,
          List.cons_append]

theorem takeWhile_short (h : 10 ∉ buf) (hlen : 1023 ≤ buf.length) :
    (lines (buf ++ file)).takeWhile short = [] := by
  by_cases hmem : 10 ∈ file
  · obtain ⟨a, b, rfl, ha⟩ := List.eq_append_cons_of_mem hmem
    rw [← List.append_assoc, lines_append (by simp [h, ha]), List.takeWhile_cons_of_neg]
    simp only [short, List.length_append, decide_eq_true_eq, not_lt]
    omega
  · rw [lines_of_not_mem (by simp [h, hmem])]
    rfl

/-- `grep` writes the lines that match up to the first one that is too long. -/
theorem grep_eq (h0 : 0 ∉ buf ++ file) (hbuf : 10 ∉ buf) (hlen : buf.length ≤ 1023)
    (hfuel : file.length < fuel) :
    grep re chunk fuel i buf file = some (found re ((lines (buf ++ file)).takeWhile short)) := by
  induction fuel generalizing i buf file with
  | zero => exact absurd hfuel (Nat.not_lt_zero _)
  | succ fuel ih =>
    rw [grep]
    by_cases hn : readCount (chunk i) (1024 - buf.length - 1) file = 0
    · rw [if_pos hn]
      -- at the end of the file, or the buffer is full of one line
      have hend : file = [] ∨ 1023 ≤ buf.length := by
        rw [← List.length_eq_zero_iff]
        simp only [readCount] at hn
        omega
      rcases hend with rfl | hfull
      · rw [List.append_nil, lines_of_not_mem hbuf]
        rfl
      · rw [takeWhile_short hbuf hfull]
        rfl
    · rw [if_neg hn]
      generalize hk : readCount (chunk i) (1024 - buf.length - 1) file = k at hn ⊢
      simp only [readCount] at hk
      have hsplit : buf ++ file = (buf ++ file.take k) ++ file.drop k := by simp
      rw [hsplit] at h0
      -- `scan` takes the whole lines out of the buffer and leaves the start of one
      obtain ⟨rest, hscan, hrest, hsuffix, hshort, hlines⟩ :=
        scan_spec re (fun h => h0 (List.mem_append_left _ h)) (Nat.lt_succ_self _)
      have hroom : (buf ++ file.take k).length ≤ 1023 := by
        rw [List.length_append, List.length_take]
        omega
      dsimp only
      rw [hscan, ih (fun h => h0 ?_) hrest (hsuffix.length_le.trans hroom)
        (by rw [List.length_drop]; omega), hsplit, hlines, List.takeWhile_append_of_pos]
      · simp [found]
      · intro l hl
        exact decide_eq_true ((hshort l hl).trans_le hroom)
      · exact (List.mem_append.mp h).elim (fun h => List.mem_append_left _ (hsuffix.subset h))
          (List.mem_append_right _)

/-- **`grep` writes the lines that match**, however `read` splits the file, exactly if none of them
is a line of 1023 bytes or more or comes after one. -/
theorem grep_lines_iff (h0 : 0 ∉ file) (hfuel : file.length < fuel) :
    grep re chunk fuel 0 [] file = some (found re (lines file)) ↔
      ∀ l ∈ (lines file).dropWhile short, matchRe re l = false := by
  rw [grep_eq (by simpa using h0) List.not_mem_nil (Nat.zero_le _) hfuel, List.nil_append]
  have hsplit : found re (lines file) = found re ((lines file).takeWhile short) ++
      found re ((lines file).dropWhile short) := by
    rw [found, found, found, ← List.map_append, ← List.filter_append,
      List.takeWhile_append_dropWhile]
  rw [hsplit, Option.some_inj, List.self_eq_append_right]
  simp [found]

/-- A line of 1023 bytes, and a line `a` after it. -/
def long : Str := List.replicate 1023 120 ++ [10, 97, 10]

/-- The pattern `a` is not found. -/
theorem grep_stops : 0 ∉ long ∧ [97] ∈ lines long ∧ matchRe [97] [97] = true ∧
    ∀ chunk, grep [97] chunk (long.length + 1) 0 [] long = some [] := by
  have h0 : 0 ∉ long := by decide +kernel
  refine ⟨h0, by decide +kernel, by decide, fun chunk => ?_⟩
  rw [grep_eq (by simpa using h0) List.not_mem_nil (Nat.zero_le _) (Nat.lt_succ_self _)]
  decide +kernel

/-- A file that is read byte by byte. -/
theorem grep_lines_iff_bytes :
    grep [97] (fun _ => 0) 10 0 [] [98, 97, 10, 98, 10, 97] = some [[98, 97, 10]] :=
  (grep_lines_iff (by decide) (by decide)).mpr (by decide)

end Xv6.User
