import Mathlib.Algebra.BigOperators.Group.Finset.Basic
import Mathlib.Algebra.Order.BigOperators.Group.Finset

/-!
# Sums over threads

Counters that several threads share are sums of what each thread has put in.
These lemmas follow such a sum when one thread's share changes.
-/

namespace Conc

open Function

variable {T L : Type} [DecidableEq T] [Fintype T]

omit [Fintype T] in
/-- Changing one thread's share changes the sum by the difference. -/
theorem sum_change {A : Finset T} {h k : T → ℕ} {t : T} (ht : t ∈ A)
    (hne : ∀ u, u ≠ t → k u = h u) : (∑ u ∈ A, k u) + h t = (∑ u ∈ A, h u) + k t := by
  have hl := Finset.add_sum_erase A k ht
  have hr := Finset.add_sum_erase A h ht
  have hsame : ∑ u ∈ A.erase t, k u = ∑ u ∈ A.erase t, h u :=
    Finset.sum_congr rfl fun u hu => hne u (Finset.ne_of_mem_erase hu)
  omega

theorem sum_update (gs : T → L) (t : T) (g : L) (h : L → ℕ) :
    (∑ u, h (update gs t g u)) + h (gs t) = (∑ u, h (gs u)) + h g := by
  have hch : (∑ u, h (update gs t g u)) + h (gs t) =
      (∑ u, h (gs u)) + h (update gs t g t) :=
    sum_change (h := fun u => h (gs u)) (Finset.mem_univ t) fun u hu => by rw [update_of_ne hu]
  rwa [update_self] at hch

theorem sum_update_of_eq (gs : T → L) (t : T) {g : L} {h : L → ℕ} (hg : h g = h (gs t)) :
    ∑ u, h (update gs t g u) = ∑ u, h (gs u) := by
  have := sum_update gs t g h
  omega

omit [Fintype T] in
/-- What is not changed by an update of one thread's share. -/
theorem update_proj {M : Type} (f : L → M) {gs : T → L} {t : T} {g : L} (h : f g = f (gs t))
    (u : T) :
    f (update gs t g u) = f (gs u) := by
  by_cases hu : u = t
  · rw [hu, update_self, h]
  · rw [update_of_ne hu]

omit [Fintype T] in
theorem update_proj_of_eq {M : Type} {gs : T → L} {t : T} {g g0 : L} (hg : gs t = g0) (f : L → M)
    (h : f g = f g0) (u : T) : f (update gs t g u) = f (gs u) :=
  update_proj f (by rw [h, hg]) u

omit [DecidableEq T] in
/-- One thread's share is at most the sum. -/
theorem le_sum (gs : T → L) (t : T) (h : L → ℕ) : h (gs t) ≤ ∑ u, h (gs u) :=
  Finset.single_le_sum (f := fun u => h (gs u)) (fun _ _ => Nat.zero_le _) (Finset.mem_univ t)

end Conc
