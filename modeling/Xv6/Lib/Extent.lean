import Mathlib.Algebra.Order.Ring.Nat
import Mathlib.Data.List.Basic
import Mathlib.Data.List.Perm.Basic
import Mathlib.Order.Interval.Finset.Nat

/-!
# Extents

Intervals of addresses, given by their start and length.

## Main definitions

* `Extent.Covers` — an address lies in one of the extents.
* `Extent.Apart` — two extents do not overlap.
* `Extent.Tiles` — extents that do not overlap cover the same addresses as others.

## Main results

* `Extent.Tiles.merge`, `Extent.Tiles.split`, `Extent.Tiles.grow` — joining neighbours, cutting
  an extent in two, and adding one on both sides.
* `Extent.Tiles.length_le` — no tile is longer than what is tiled.
-/

namespace Extent

variable {l l' r : List (ℕ × ℕ)} {e f : ℕ × ℕ} {a m n : ℕ}

/-- The address lies in one of the extents. -/
def Covers (l : List (ℕ × ℕ)) (a : ℕ) : Prop := ∃ e ∈ l, e.1 ≤ a ∧ a < e.1 + e.2

/-- The extents do not overlap. -/
def Apart (e f : ℕ × ℕ) : Prop := e.1 + e.2 ≤ f.1 ∨ f.1 + f.2 ≤ e.1

/-- The extents of `l` are not empty, do not overlap, and cover what those of `r` cover. -/
structure Tiles (l r : List (ℕ × ℕ)) : Prop where
  pos : ∀ e ∈ l, 0 < e.2
  apart : l.Pairwise Apart
  cover : ∀ a, Covers l a ↔ Covers r a

/-- The sum of the lengths. -/
def total (r : List (ℕ × ℕ)) : ℕ := (r.map Prod.snd).sum

theorem Apart.symm (h : Apart e f) : Apart f e := Or.symm h

theorem covers_cons : Covers (e :: l) a ↔ (e.1 ≤ a ∧ a < e.1 + e.2) ∨ Covers l a := by
  simp only [Covers, List.exists_mem_cons_iff]

/-- Extents that are not empty and have no address in common. -/
theorem apart_of_disjoint (he : 0 < e.2) (hf : 0 < f.2)
    (h : ∀ a, e.1 ≤ a → a < e.1 + e.2 → f.1 ≤ a → a < f.1 + f.2 → False) : Apart e f := by
  by_contra hn
  simp only [Apart, not_or, not_le] at hn
  rcases Nat.le_total e.1 f.1 with hle | hle
  · exact h f.1 hle hn.1 le_rfl (by omega)
  · exact h e.1 le_rfl (by omega) hle hn.2

namespace Tiles

theorem perm (h : Tiles l r) (hp : l.Perm l') : Tiles l' r where
  pos e he := h.pos e (hp.mem_iff.mpr he)
  apart := (hp.pairwise_iff Apart.symm).mp h.apart
  cover a := by
    rw [← h.cover a]
    simp only [Covers, hp.mem_iff]

/-- Joining two neighbours. -/
theorem merge (h : Tiles ((a, m) :: (a + m, n) :: l) r) : Tiles ((a, m + n) :: l) r := by
  have hm : 0 < m := h.pos (a, m) List.mem_cons_self
  have hn : 0 < n := h.pos (a + m, n) (List.mem_cons_of_mem _ List.mem_cons_self)
  obtain ⟨h1, h2⟩ := List.pairwise_cons.mp h.apart
  obtain ⟨h2, h3⟩ := List.pairwise_cons.mp h2
  constructor
  · intro e he
    rcases List.mem_cons.mp he with rfl | he
    · exact Nat.add_pos_left hm n
    · exact h.pos e (List.mem_cons_of_mem _ (List.mem_cons_of_mem _ he))
  · refine List.pairwise_cons.mpr ⟨fun f hf => ?_, h3⟩
    have hf1 := h1 f (List.mem_cons_of_mem _ hf)
    have hf2 := h2 f hf
    have hpos := h.pos f (List.mem_cons_of_mem _ (List.mem_cons_of_mem _ hf))
    simp only [Apart] at hf1 hf2 ⊢
    omega
  · intro x
    rw [← h.cover x, covers_cons, covers_cons, covers_cons, ← or_assoc]
    refine or_congr_left ?_
    dsimp only
    omega

/-- Cutting an extent in two. -/
theorem split (h : Tiles ((a, m + n) :: l) r) (hm : 0 < m) (hn : 0 < n) :
    Tiles ((a, m) :: (a + m, n) :: l) r := by
  obtain ⟨h1, h2⟩ := List.pairwise_cons.mp h.apart
  constructor
  · intro e he
    rcases List.mem_cons.mp he with rfl | he
    · exact hm
    rcases List.mem_cons.mp he with rfl | he
    · exact hn
    · exact h.pos e (List.mem_cons_of_mem _ he)
  · refine List.pairwise_cons.mpr ⟨fun f hf => ?_, List.pairwise_cons.mpr ⟨fun f hf => ?_, h2⟩⟩
    · rcases List.mem_cons.mp hf with rfl | hf
      · exact Or.inl le_rfl
      · have hf1 := h1 f hf
        simp only [Apart] at hf1 ⊢
        omega
    · have hf1 := h1 f hf
      simp only [Apart] at hf1 ⊢
      omega
  · intro x
    rw [← h.cover x, covers_cons, covers_cons, covers_cons, ← or_assoc]
    refine or_congr_left ?_
    dsimp only
    omega

/-- Adding an extent on both sides. -/
theorem grow (h : Tiles l r) (he : 0 < e.2) (ha : ∀ f ∈ r, Apart e f) :
    Tiles (e :: l) (e :: r) := by
  constructor
  · intro f hf
    rcases List.mem_cons.mp hf with rfl | hf
    · exact he
    · exact h.pos f hf
  · refine List.pairwise_cons.mpr ⟨fun f hf => ?_, h.apart⟩
    refine apart_of_disjoint he (h.pos f hf) fun a he1 he2 hf1 hf2 => ?_
    obtain ⟨g, hg, hg1, hg2⟩ := (h.cover a).mp ⟨f, hf, hf1, hf2⟩
    have hapart := ha g hg
    simp only [Apart] at hapart
    omega
  · intro a
    rw [covers_cons, covers_cons, h.cover a]

theorem nil : Tiles [] [] where
  pos _ he := nomatch he
  apart := List.Pairwise.nil
  cover _ := Iff.rfl

end Tiles

/-- The addresses of extents. -/
def cells (r : List (ℕ × ℕ)) : Finset ℕ :=
  r.foldr (fun e acc => Finset.Ico e.1 (e.1 + e.2) ∪ acc) ∅

theorem mem_cells : a ∈ cells r ↔ Covers r a := by
  induction r with
  | nil => simp [cells, Covers]
  | cons e r ih =>
    rw [covers_cons, ← ih]
    simp [cells]

theorem card_cells_le : (cells r).card ≤ total r := by
  induction r with
  | nil => simp [cells, total]
  | cons e r ih =>
    have hunion := Finset.card_union_le (Finset.Ico e.1 (e.1 + e.2)) (cells r)
    rw [Nat.card_Ico] at hunion
    simp only [cells, List.foldr_cons, total, List.map_cons, List.sum_cons] at hunion ih ⊢
    omega

/-- No tile is longer than what is tiled. -/
theorem Tiles.length_le (h : Tiles l r) (he : e ∈ l) : e.2 ≤ total r := by
  have hsub : Finset.Ico e.1 (e.1 + e.2) ⊆ cells r := by
    intro a ha
    rw [Finset.mem_Ico] at ha
    exact mem_cells.mpr ((h.cover a).mp ⟨e, he, ha⟩)
  have hcard := Finset.card_le_card hsub
  rw [Nat.card_Ico, Nat.add_sub_cancel_left] at hcard
  exact hcard.trans card_cells_le

end Extent
