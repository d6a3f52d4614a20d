import Xv6.Console.Model

/-!
# The line being typed, and what has been committed of it

What a console is for, without its buffer: characters typed go to the end of a
line, where they may still be erased; a newline, an end of file or a full buffer
commits the line; and reads take what was committed from its front.  The buffer
of the source shows such a line through its three indices, and every character
`consoleintr` handles does to the buffer what typing it does to the line.

## Main definitions

* `Line` — the committed input, the line being edited, and what was taken.
* `Line.type` — typing a character.
* `Cons.Shows` — the buffer shows the line.

## Main results

* `Cons.Shows.input` — **the buffer follows the line**, whatever is typed.
* `Cons.Shows.take` — reading the next byte.
* `Cons.Shows.unread_eq`, `Cons.Shows.tail_eq` — what lies between the indices.
-/

namespace Xv6.Console

/-! ### Lines -/

/-- What has become of the characters typed. -/
structure Line where
  /-- The input committed since boot. -/
  committed : List UInt8
  /-- The line being edited. -/
  tail : List UInt8
  /-- What reads have taken so far of the committed input. -/
  taken : List UInt8

/-- There is no room for another character. -/
def Line.full (l : Line) : Prop :=
  l.taken.length + INPUT_BUF_SIZE ≤ l.committed.length + l.tail.length

instance (l : Line) : Decidable l.full :=
  inferInstanceAs (Decidable (l.taken.length + INPUT_BUF_SIZE ≤ l.committed.length + l.tail.length))

def Line.commit (l : Line) : Line := { l with committed := l.committed ++ l.tail, tail := [] }

/-- A character goes to the end of the line, a carriage return as a newline. -/
def Line.store (l : Line) (c : ℤ) : Line :=
  let c := if c = '\r'.toNat then ('\n'.toNat : ℤ) else c
  let l := { l with tail := l.tail ++ [char c] }
  if c = '\n'.toNat ∨ c = ctrl 'D' ∨ l.full then l.commit else l

/-- A character is typed.  What was committed is out of reach of the editing keys. -/
def Line.type (l : Line) (c : ℤ) : Line :=
  if c = ctrl 'P' then l
  else if c = ctrl 'U' then { l with tail := l.tail.rdropWhile (· ≠ newline) }
  else if c = ctrl 'H' ∨ c = 0x7f then { l with tail := l.tail.dropLast }
  else if c ≠ 0 ∧ ¬l.full then l.store c
  else l

/-- A read takes a byte. -/
def Line.take (l : Line) (b : UInt8) : Line := { l with taken := l.taken ++ [b] }

/-- The bytes committed and not yet taken. -/
def Line.unread (l : Line) : List UInt8 := l.committed.drop l.taken.length

theorem Line.committed_prefix_type (l : Line) (c : ℤ) : l.committed <+: (l.type c).committed := by
  unfold Line.type
  split_ifs
  · exact List.prefix_rfl
  · exact List.prefix_rfl
  · exact List.prefix_rfl
  · unfold Line.store
    dsimp only
    split_ifs
    all_goals first | exact List.prefix_append _ _ | exact List.prefix_rfl
  · exact List.prefix_rfl

@[simp] theorem Line.taken_type (l : Line) (c : ℤ) : (l.type c).taken = l.taken := by
  unfold Line.type
  split_ifs
  · rfl
  · rfl
  · rfl
  · unfold Line.store
    dsimp only
    split_ifs
    all_goals rfl
  · rfl

/-! ### The buffer -/

/-- The bytes before the write index that have not been read. -/
def Cons.unread (d : Cons) : List UInt8 := Ring.pending d.buf d.r d.w

/-- The bytes that can still be erased. -/
def Cons.tail (d : Cons) : List UInt8 := Ring.pending d.buf d.w d.e

/-- `r <= w <= e <= r + INPUT_BUF_SIZE`, where the indices may have wrapped around. -/
def Cons.Ordered (d : Cons) : Prop :=
  (d.w - d.r).toNat ≤ (d.e - d.r).toNat ∧ (d.e - d.r).toNat ≤ INPUT_BUF_SIZE

/-- The buffer shows the line. -/
structure Cons.Shows (d : Cons) (l : Line) : Prop where
  ring : Ring.Holds d.buf d.r d.e l.taken (l.committed ++ l.tail)
  taken : l.taken <+: l.committed
  w : d.w = BitVec.ofNat 32 l.committed.length

theorem size_dvd : INPUT_BUF_SIZE ∣ 2 ^ 32 := ⟨2 ^ 25, by decide⟩

namespace Cons.Shows

variable {d : Cons} {l : Line}

section

variable (h : d.Shows l)

include h

theorem front : Ring.Holds d.buf d.r d.w l.taken l.committed := by
  have := h.ring.window List.prefix_rfl h.taken (List.prefix_append _ _)
  rwa [← h.ring.read, ← h.w] at this

theorem back : Ring.Holds d.buf d.w d.e l.committed (l.committed ++ l.tail) := by
  have := h.ring.window h.taken (List.prefix_append _ _) List.prefix_rfl
  rwa [← h.ring.written, ← h.w] at this

theorem unread_eq : d.unread = l.unread :=
  h.front.pending_eq (by decide)

theorem tail_eq : d.tail = l.tail := by
  unfold Cons.tail
  rw [h.back.pending_eq (by decide), List.drop_left]

theorem e_sub_r : (d.e - d.r).toNat = l.committed.length + l.tail.length - l.taken.length := by
  rw [h.ring.used (by decide), List.length_append]

theorem e_sub_w : (d.e - d.w).toNat = l.tail.length := by
  rw [h.back.used (by decide), List.length_append, Nat.add_sub_cancel_left]

theorem ordered : d.Ordered := by
  refine ⟨?_, h.ring.used_le (by decide)⟩
  rw [h.e_sub_r, h.front.used (by decide)]
  omega

theorem full_iff : (d.e - d.r).toNat < INPUT_BUF_SIZE ↔ ¬l.full := by
  have htaken := h.taken.length_le
  rw [h.e_sub_r]
  unfold Line.full
  omega

theorem e_eq_w_iff : d.e = d.w ↔ l.tail = [] := by
  constructor
  · intro heq
    have := h.e_sub_w
    rw [heq, BitVec.sub_self] at this
    exact List.length_eq_zero_iff.mp this.symm
  · intro hnil
    rw [h.ring.written, h.w, hnil, List.append_nil]

theorem erase {rest : List UInt8} {a : UInt8} (ht : l.tail = rest ++ [a]) :
    Cons.Shows { d with e := d.e - 1 } { l with tail := rest } ∧ d.buf (slot (d.e - 1)) = a := by
  have hring := h.ring
  rw [ht, ← List.append_assoc] at hring
  have hle : l.taken.length ≤ (l.committed ++ rest).length := by
    rw [List.length_append]
    have := h.taken.length_le
    omega
  exact ⟨⟨hring.unpush hle, h.taken, h.w⟩, hring.last hle⟩

theorem backspace : d.backspace.Shows { l with tail := l.tail.dropLast } := by
  unfold Cons.backspace
  split_ifs with he
  · have hne : l.tail ≠ [] := fun hnil => he (h.e_eq_w_iff.mpr hnil)
    exact (h.erase (List.dropLast_append_getLast hne).symm).1
  · rw [h.e_eq_w_iff.mp (not_not.mp he)]
    exact ⟨by rw [List.dropLast_nil, ← h.e_eq_w_iff.mp (not_not.mp he)]; exact h.ring, h.taken, h.w⟩

/-- The loop of kill-line erases to the last newline, or to the start of the line. -/
theorem killFrom {k : ℕ} (hk : k = l.tail.length) :
    (Cons.killFrom k d).Shows { l with tail := l.tail.rdropWhile (· ≠ newline) } := by
  induction k generalizing d l with
  | zero =>
    rw [List.length_eq_zero_iff.mp hk.symm]
    rw [Cons.killFrom, List.rdropWhile_nil]
    rwa [show ({ l with tail := [] } : Line) = l by rw [← List.length_eq_zero_iff.mp hk.symm]]
  | succ k ih =>
    have hne : l.tail ≠ [] := by
      intro hnil
      rw [hnil] at hk
      cases hk
    obtain ⟨rest, a, ht⟩ : ∃ rest a, l.tail = rest ++ [a] :=
      ⟨_, _, (List.dropLast_append_getLast hne).symm⟩
    obtain ⟨herase, hlast⟩ := h.erase ht
    have hew : d.e ≠ d.w := fun he => hne (h.e_eq_w_iff.mp he)
    have hlen : k = rest.length := by
      rw [ht, List.length_append, List.length_singleton] at hk
      exact Nat.succ.inj hk
    rw [Cons.killFrom, hlast, ht]
    by_cases ha : a = newline
    · -- the loop stops at a newline
      rwa [if_neg (fun hc => hc.2 ha), List.rdropWhile_concat_neg _ _ _ (by simp [ha]), ← ht]
    · rw [if_pos ⟨hew, ha⟩, List.rdropWhile_concat_pos _ _ _ (by simp [ha])]
      exact ih herase hlen

theorem killLine : d.killLine.Shows { l with tail := l.tail.rdropWhile (· ≠ newline) } :=
  h.killFrom h.e_sub_w

theorem commit : Cons.Shows { d with w := d.e } l.commit := by
  refine ⟨?_, h.taken.trans (List.prefix_append _ _), h.ring.written⟩
  have := h.ring
  rwa [← List.append_nil (l.committed ++ l.tail)] at this

theorem store (hroom : ¬l.full) (c : ℤ) : (d.store c).1.Shows (l.store c) := by
  unfold Cons.store Line.store
  dsimp only
  generalize (if c = '\r'.toNat then ('\n'.toNat : ℤ) else c) = c'
  -- there is room, so the indices are not a whole buffer apart
  have hne : d.e ≠ d.r + BitVec.ofNat 32 INPUT_BUF_SIZE := by
    intro he
    have := h.full_iff.mpr hroom
    rw [he, BitVec.add_comm, BitVec.add_sub_cancel] at this
    exact absurd this (by decide)
  have hpush : Cons.Shows { d with buf := Function.update d.buf (slot d.e) (char c'), e := d.e + 1 }
      { l with tail := l.tail ++ [char c'] } := by
    refine ⟨?_, h.taken, h.w⟩
    have := h.ring.push size_dvd hne (char c')
    rwa [List.append_assoc] at this
  have hfull : (d.e + 1 - d.r).toNat = INPUT_BUF_SIZE ↔
      Line.full { l with tail := l.tail ++ [char c'] } := by
    have hlt := hpush.full_iff
    have hle := hpush.ordered.2
    dsimp only at hlt hle
    constructor
    · intro heq
      by_contra hc
      have := hlt.mpr hc
      omega
    · intro hf
      by_contra hc
      exact hlt.mp (by omega) hf
  simp only [hfull]
  split_ifs
  · exact hpush.commit
  · exact hpush

/-- **The buffer follows the line**, whatever is typed. -/
theorem input (c : ℤ) : (d.input c).1.Shows (l.type c) := by
  unfold Cons.input Line.type
  simp only [h.full_iff]
  split_ifs with hP hU hH hroom
  · exact h
  · exact h.killLine
  · exact h.backspace
  · exact h.store hroom.2 c
  · exact h

theorem unread_cons (hne : d.r ≠ d.w) :
    l.unread = d.buf (slot d.r) :: (l.take (d.buf (slot d.r))).unread := by
  obtain ⟨rest, hrest⟩ := (h.front.pop hne).taken
  unfold Line.unread Line.take slot
  dsimp only
  rw [← hrest, List.append_assoc, List.drop_left, ← List.append_assoc, List.drop_left]
  rfl

theorem take (hne : d.r ≠ d.w) :
    Cons.Shows { d with r := d.r + 1 } (l.take (d.buf (slot d.r))) := by
  refine ⟨h.ring.pop fun he => hne ?_, (h.front.pop hne).taken, h.w⟩
  -- the read index does not reach the edit index before the write index
  have hused := h.front.used (by decide)
  have he' := h.e_sub_r
  rw [he, BitVec.sub_self] at he'
  have hzero : (d.w - d.r).toNat = 0 := by
    rw [hused]
    have : (0#32).toNat = 0 := rfl
    omega
  rw [h.front.read, h.front.written]
  have := h.taken.length_le
  congr 1
  omega

end

end Cons.Shows

end Xv6.Console
