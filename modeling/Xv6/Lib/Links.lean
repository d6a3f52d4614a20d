import Mathlib.Data.List.Basic
import Mathlib.Logic.Function.Iterate

/-!
# Lists and rings of pointers

Nodes that point to one another: `next x` is the node that `x` points to.

## Main definitions

* `Links.Path` — the nodes of a list point each to the following one.

A ring is a path that comes back to its first node.

## Main results

* `Links.path_append`, `Links.Path.frame` — cutting paths, and changing pointers elsewhere.
* `Links.iterate_mem_ring`, `Links.ring_reach` — following pointers in a ring stays in it and
  leads from any node to any other.
-/

namespace Links

variable {α : Type} {next next' : α → α} {l m : List α} {x y z : α}

/-- Each node of the list points to the following one, and the last one to `z`. -/
def Path (next : α → α) : List α → α → Prop
  | [], _ => True
  | x :: l, z => next x = l.headD z ∧ Path next l z

theorem path_append : Path next (l ++ m) z ↔ Path next l (m.headD z) ∧ Path next m z := by
  induction l with
  | nil => simp [Path]
  | cons x l ih =>
    have hhead : (l ++ m).headD z = l.headD (m.headD z) := by
      cases l with
      | nil => rfl
      | cons y l => rfl
    simp only [List.cons_append, Path, ih, hhead, and_assoc]

/-- Pointers of other nodes may change. -/
theorem Path.frame (h : Path next l z) (he : ∀ x ∈ l, next' x = next x) : Path next' l z := by
  induction l with
  | nil => trivial
  | cons x l ih =>
    refine ⟨(he x List.mem_cons_self).trans h.1, ih h.2 fun y hy => ?_⟩
    exact he y (List.mem_cons_of_mem _ hy)

/-- Following all pointers of a path. -/
theorem Path.iterate (h : Path next (x :: l) z) : next^[l.length + 1] x = z := by
  induction l generalizing x with
  | nil => exact h.1
  | cons y l ih =>
    rw [List.length_cons, Function.iterate_succ_apply, show next x = y from h.1]
    exact ih h.2

theorem Path.next_mem (h : Path next l z) (hx : x ∈ l) : next x ∈ l ∨ next x = z := by
  obtain ⟨l1, l2, rfl⟩ := List.append_of_mem hx
  have hnext : next x = l2.headD z := (path_append.mp h).2.1
  cases l2 with
  | nil => exact Or.inr hnext
  | cons y l2 =>
    left
    rw [hnext]
    simp

/-! ### Rings -/

theorem iterate_mem_ring (h : Path next (z :: l) z) (hx : x ∈ z :: l) (d : ℕ) :
    next^[d] x ∈ z :: l := by
  induction d with
  | zero => exact hx
  | succ d ih =>
    rw [Function.iterate_succ_apply']
    rcases h.next_mem ih with hmem | heq
    · exact hmem
    · rw [heq]
      exact List.mem_cons_self

/-- From any node of a ring to the first one. -/
theorem ring_home (h : Path next (z :: l) z) (hx : x ∈ z :: l) : ∃ d, next^[d + 1] x = z := by
  obtain ⟨l1, l2, heq⟩ := List.append_of_mem hx
  rw [heq] at h
  exact ⟨l2.length, (path_append.mp h).2.iterate⟩

/-- From the first node of a ring to any of them. -/
theorem ring_out (h : Path next (z :: l) z) (hy : y ∈ z :: l) : ∃ d, next^[d] z = y := by
  obtain ⟨l1, l2, heq⟩ := List.append_of_mem hy
  cases l1 with
  | nil =>
    obtain rfl := (List.cons.inj heq).1
    exact ⟨0, rfl⟩
  | cons x l1 =>
    obtain rfl := (List.cons.inj heq).1
    rw [heq] at h
    exact ⟨l1.length + 1, (path_append.mp h).1.iterate⟩

/-- From any node of a ring to any other, following at least one pointer. -/
theorem ring_reach (h : Path next (z :: l) z) (hx : x ∈ z :: l) (hy : y ∈ z :: l) :
    ∃ d, next^[d + 1] x = y := by
  obtain ⟨d, hd⟩ := ring_home h hx
  obtain ⟨e, he⟩ := ring_out h hy
  refine ⟨e + d, ?_⟩
  rw [Nat.add_assoc, Function.iterate_add_apply, hd, he]

end Links
