import Xv6.Vm.Map
import Mathlib.Algebra.Order.Ring.Nat

/-!
# Page tables as maps

What the page-table functions do to the map from virtual pages to entries
(`Kmem.lookup`), and to the pages they own.  An operation on the table with root
`r` touches free pages and pages of that table only (`Frame`): everything the
rest of the kernel holds, and every other table, stays as it is.

## Main definitions

* `Kmem.pageAt` — the page at a position of a table.
* `Mine`, `Frame` — what an operation on one table may touch.

## Main results

* `Owned.lookup_cases` — an entry is read from the page at its position.
* `Owned.pageAt_iff` — the position of a page can be read from memory.
* `Frame.lookup_eq` — other tables map what they mapped.
-/

namespace Xv6.Vm

open Conc Function

/-! ### Positions -/

/-- The page at depth `d` and position `x` of the table with root `r`: the root, a
page-table page, or at depth 3 the page that `x` is mapped to. -/
def Kmem.pageAt (m : Kmem) (r : ℕ) : ℕ → ℕ → Option ℕ
  | 0, x => if x = 0 then some r else none
  | d + 1, x =>
      match m.pageAt r d (x / 512) with
      | none => none
      | some q => if m.pte q (x % 512) &&& PTE_V ≠ 0 then some (PTE2PA (m.pte q (x % 512)))
        else none

/-- The position of a page in the tree of page-table pages with root `r`. -/
def Place.pos (r : ℕ) : Place → Option (ℕ × ℕ)
  | .node r' lv x => if r' = r ∧ 1 ≤ lv then some (lv, x) else none
  | .outside => none
  | .free => none
  | .held => none

theorem Place.pos_eq_some {pl : Place} {r lv x : ℕ} :
    pl.pos r = some (lv, x) ↔ pl = .node r lv x ∧ 1 ≤ lv := by
  cases pl with
  | node r' lv' x' =>
    rw [pos]
    constructor
    · intro h
      split_ifs at h with hc
      cases h
      exact ⟨by rw [hc.1], hc.2⟩
    · rintro ⟨h, hlv⟩
      cases h
      rw [if_pos ⟨rfl, hlv⟩]
  | outside => exact iff_of_false nofun fun h => Place.noConfusion h.1
  | free => exact iff_of_false nofun fun h => Place.noConfusion h.1
  | held => exact iff_of_false nofun fun h => Place.noConfusion h.1

namespace Owned

variable {K : Layout} {D : Set (ℕ × ℕ)} {m m' : Kmem} {own own' : ℕ → Place}
  {p q r lv x y i w v : ℕ}

theorem above (h : Owned K D m own) (hq : own q = .node r lv x) (k : ℕ) (hk : lv + k ≤ 3) :
    ∃ q', own q' = .node r (lv + k) (x / 512 ^ k) := by
  induction k with
  | zero => exact ⟨q, by simpa using hq⟩
  | succ k ih =>
    obtain ⟨q', hq'⟩ := ih (by omega)
    obtain ⟨q'', hq'', -⟩ := h.up q' r (lv + k) _ hq' (by omega)
    refine ⟨q'', ?_⟩
    rwa [Nat.div_div_eq_div_mul, ← Nat.pow_succ] at hq''

theorem not_node (h : Owned K D m own) (hr : own r ≠ .node r 3 0) : own q ≠ .node r lv x := by
  intro hq
  have hlv := h.level q r lv x hq
  obtain ⟨q', hq'⟩ := h.above hq (3 - lv) (by omega)
  rw [show lv + (3 - lv) = 3 by omega] at hq'
  obtain ⟨rfl, h0⟩ := h.root q' r _ hq'
  rw [h0] at hq'
  exact hr hq'

section

variable (h : Owned K ∅ m own) (hr : own r = .node r 3 0)

include h hr

/-- The page-table pages of a table that is owned form a tree. -/
theorem table : Table m r fun q => (own q).pos r := by
  refine ⟨fun q x => ?_, fun q lv x hq => ?_, fun q lv x i hq hi hv => ?_, fun q lv x hq hlv => ?_,
    fun q hq => ?_, h.nodup⟩
  · rw [Place.pos_eq_some]
    constructor
    · rintro ⟨hq, -⟩
      exact h.root q r x hq
    · rintro ⟨rfl, rfl⟩
      exact ⟨hr, by decide⟩
  · rw [Place.pos_eq_some] at hq
    exact ⟨hq.2, h.level q r lv x hq.1⟩
  · rw [Place.pos_eq_some] at hq ⊢
    have hl := h.down q r (lv + 1) x i hq.1 hi (by simp) hv
    unfold Leads at hl
    rw [if_neg (Nat.succ_ne_zero lv)] at hl
    exact ⟨hl.2, by omega⟩
  · rw [Place.pos_eq_some] at hq
    obtain ⟨q', hq', hv, hpa, -⟩ := h.up q r lv x hq.1 hlv
    exact ⟨q', Place.pos_eq_some.mpr ⟨hq', by omega⟩, hv, hpa⟩
  · rw [h.free] at hq
    rw [hq]
    exact ⟨rfl, h.lt (by rw [hq]; exact Place.noConfusion)⟩

/-- **An entry is read from the page at its position**, if there is one. -/
theorem lookup_cases (hv : v < 512 ^ 3) :
    (∃ q, own q = .node r 1 (v / 512) ∧ m.lookup r v = m.pte q (v % 512)) ∨
      ((∀ q, own q ≠ .node r 1 (v / 512)) ∧ m.lookup r v = 0) := by
  rcases (h.table hr).lookup_cases hv with ⟨q, hq, he⟩ | ⟨hn, he⟩
  · exact Or.inl ⟨q, (Place.pos_eq_some.mp hq).1, he⟩
  · exact Or.inr ⟨fun q hq => hn q (Place.pos_eq_some.mpr ⟨hq, le_rfl⟩), he⟩

theorem lookup_eq (hv : v < 512 ^ 3)
    (hq : own q = .node r 1 (v / 512)) : m.lookup r v = m.pte q (v % 512) := by
  rcases h.lookup_cases hr hv with ⟨q', hq', he⟩ | ⟨hn, -⟩
  · rw [he, h.node_unique hq' hq]
  · exact absurd hq (hn q)

theorem leaf_of_lookup (hv : v < 512 ^ 3) (hval : m.lookup r v &&& PTE_V ≠ 0) :
    m.lookup r v &&& RWX ≠ 0 ∧ (¬ Special v → own (PTE2PA (m.lookup r v)) = .node r 0 v) := by
  rcases h.lookup_cases hr hv with ⟨q, hq, he⟩ | ⟨-, he⟩
  · rw [he] at hval ⊢
    have hl := h.down q r 0 _ _ hq (Nat.mod_lt _ (by decide)) (by simp) hval
    unfold Leads at hl
    rwa [if_pos rfl, Nat.div_add_mod'] at hl
  · rw [he] at hval
    exact absurd rfl hval

theorem lookup_of_leaf (hv : v < 512 ^ 3) (hp : own p = .node r 0 v) :
    m.lookup r v &&& PTE_V ≠ 0 ∧ PTE2PA (m.lookup r v) = p ∧ ¬ Special v := by
  obtain ⟨q, hq, hval, hpa, hs⟩ := h.up p r 0 v hp (by decide)
  rw [h.lookup_eq hr hv hq]
  exact ⟨hval, hpa, hs rfl⟩

/-- **What memory says is at a position is what is there.** -/
theorem pageAt_iff {d : ℕ} (hd : d + lv = 3)
    (hs : lv = 0 → ¬ Special x) : m.pageAt r d x = some p ↔ own p = .node r lv x := by
  induction d generalizing lv x p with
  | zero =>
    obtain rfl : lv = 3 := by omega
    unfold Kmem.pageAt
    constructor
    · intro hp
      split_ifs at hp with hx
      cases hp
      rw [hx, hr]
    · intro hp
      obtain ⟨rfl, rfl⟩ := h.root p r x hp
      rfl
  | succ d ih =>
    have ih' : ∀ q, m.pageAt r d (x / 512) = some q ↔ own q = .node r (lv + 1) (x / 512) :=
      fun q => ih (by omega) fun h0 => absurd h0 (Nat.succ_ne_zero lv)
    unfold Kmem.pageAt
    constructor
    · intro hp
      cases hq : m.pageAt r d (x / 512) with
      | none =>
        rw [hq] at hp
        cases hp
      | some q =>
        rw [hq] at hp
        dsimp only at hp
        split_ifs at hp with hv
        cases hp
        -- a valid entry leads to the place of its page
        have hl := h.down q r lv _ _ ((ih' q).mp hq) (Nat.mod_lt _ (by decide)) (by simp) hv
        rw [Nat.div_add_mod'] at hl
        unfold Leads at hl
        split_ifs at hl with h0
        · rw [h0]
          exact hl.2 (hs h0)
        · exact hl.2
    · intro hp
      obtain ⟨q, hq, hv, hpa, -⟩ := h.up p r lv x hp (by omega)
      rw [(ih' q).mpr hq]
      dsimp only
      rw [if_pos hv, hpa]

end

theorem lookup_congr (h : Owned K ∅ m own) (h' : Owned K ∅ m' own') (hr : own r = .node r 3 0)
    (hr' : own' r = .node r 3 0) (hv : v < 512 ^ 3)
    (hto : ∀ q, own q = .node r 1 (v / 512) →
      own' q = .node r 1 (v / 512) ∧ m'.pte q (v % 512) = m.pte q (v % 512))
    (hfrom : ∀ q, own' q = .node r 1 (v / 512) → own q = .node r 1 (v / 512) ∨
      m'.pte q (v % 512) = 0) : m'.lookup r v = m.lookup r v := by
  rcases h.lookup_cases hr hv with ⟨q, hq, he⟩ | ⟨hn, he⟩
  · rw [he, h'.lookup_eq hr' hv (hto q hq).1, (hto q hq).2]
  · rw [he]
    rcases h'.lookup_cases hr' hv with ⟨q, hq, he'⟩ | ⟨-, he'⟩
    · rw [he']
      exact (hfrom q hq).resolve_left (hn q)
    · exact he'

end Owned

/-! ### What an operation on one table may touch -/

/-- A free page, or one of the table with root `r`. -/
def Mine (r : ℕ) : Place → Prop
  | .free => True
  | .node r' _ _ => r' = r
  | .outside => False
  | .held => False

/-- An operation on the table `r`, and on the pages in `H`, leaves everything else alone. -/
structure Frame (r : ℕ) (H : Set ℕ) (m : Kmem) (own : ℕ → Place) (m' : Kmem)
    (own' : ℕ → Place) : Prop where
  keep : ∀ p, p ∉ H → ¬ Mine r (own p) → own' p = own p ∧ m'.mem p = m.mem p
  mine : ∀ p, p ∉ H → Mine r (own p) → Mine r (own' p)

namespace Frame

variable {K : Layout} {m m' m'' : Kmem} {own own' own'' : ℕ → Place} {H : Set ℕ} {p q r r' v : ℕ}

theorem refl (r : ℕ) (H : Set ℕ) (m : Kmem) (own : ℕ → Place) : Frame r H m own m own :=
  ⟨fun _ _ _ => ⟨rfl, rfl⟩, fun _ _ h => h⟩

theorem trans (h : Frame r H m own m' own') (h' : Frame r H m' own' m'' own'') :
    Frame r H m own m'' own'' := by
  refine ⟨fun p hp hn => ?_, fun p hp hm => h'.mine p hp (h.mine p hp hm)⟩
  obtain ⟨h1, h2⟩ := h.keep p hp hn
  obtain ⟨h3, h4⟩ := h'.keep p hp (by rw [h1]; exact hn)
  exact ⟨h3.trans h1, h4.trans h2⟩

theorem mono {H' : Set ℕ} (h : Frame r H m own m' own') (hH : ∀ p ∈ H, p ∈ H') :
    Frame r H' m own m' own' :=
  ⟨fun p hp => h.keep p fun hc => hp (hH p hc), fun p hp => h.mine p fun hc => hp (hH p hc)⟩

theorem discharge (h : Frame r (insert p H) m own m' own') (hp : Mine r (own p))
    (hp' : Mine r (own' p)) : Frame r H m own m' own' := by
  refine ⟨fun q hq hn => h.keep q ?_ hn, fun q hq hm => ?_⟩
  · rintro (rfl | hc)
    · exact hn hp
    · exact hq hc
  · by_cases hqp : q = p
    · rw [hqp]; exact hp'
    · exact h.mine q (by rintro (hc | hc); exact hqp hc; exact hq hc) hm

theorem of_same (h : Frame r {p} m own m' own') (hp : own' p = own p) (hm : m'.mem p = m.mem p) :
    Frame r ∅ m own m' own' := by
  refine ⟨fun q _ hn => ?_, fun q _ hq => ?_⟩
  · by_cases hqp : q = p
    · rw [hqp]
      exact ⟨hp, hm⟩
    · exact h.keep q hqp hn
  · by_cases hqp : q = p
    · rw [hqp] at hq ⊢
      rwa [hp]
    · exact h.mine q hqp hq

theorem of_update {pl : Place} (hp : Mine r (own p) ∨ p ∈ H) (hpl : Mine r pl ∨ p ∈ H)
    (hmem : ∀ q, q ∉ H → ¬ Mine r (own q) → m'.mem q = m.mem q) :
    Frame r H m own m' (update own p pl) := by
  refine ⟨fun q hq hn => ⟨?_, hmem q hq hn⟩, fun q hq hm => ?_⟩
  · rw [update_of_ne]
    rintro rfl
    exact hp.elim hn hq
  · obtain rfl | hqp := eq_or_ne q p
    · rw [update_self]
      exact hpl.resolve_right hq
    · rwa [update_of_ne hqp]

theorem of_mem (hmem : ∀ q, q ∉ H → ¬ Mine r (own q) → m'.mem q = m.mem q) :
    Frame r H m own m' own :=
  ⟨fun q hq hn => ⟨rfl, hmem q hq hn⟩, fun _ _ hm => hm⟩

theorem node_iff (h : Frame r ∅ m own m' own') (hr : r' ≠ r) {lv x : ℕ} :
    own' p = .node r' lv x ↔ own p = .node r' lv x := by
  constructor
  · intro hp
    by_cases hm : Mine r (own p)
    · have := h.mine p (by simp) hm
      rw [hp] at this
      exact absurd this hr
    · rw [← (h.keep p (by simp) hm).1, hp]
  · intro hp
    rw [(h.keep p (by simp) (by rw [hp]; exact hr)).1, hp]

theorem held_iff (h : Frame r ∅ m own m' own') : own' p = .held ↔ own p = .held := by
  constructor
  · intro hp
    by_cases hm : Mine r (own p)
    · have := h.mine p (by simp) hm
      rw [hp] at this
      exact this.elim
    · rw [← (h.keep p (by simp) hm).1, hp]
  · intro hp
    rw [(h.keep p (by simp) (by rw [hp]; exact id)).1, hp]

theorem lookup_eq (h : Frame r ∅ m own m' own') (ho : Owned K ∅ m own) (ho' : Owned K ∅ m' own')
    (hr : r' ≠ r) (hroot : own r' = .node r' 3 0) (hv : v < 512 ^ 3) :
    m'.lookup r' v = m.lookup r' v := by
  refine ho.lookup_congr ho' hroot ((h.node_iff hr).mpr hroot) hv (fun q hq => ?_) fun q hq => ?_
  · obtain ⟨h1, h2⟩ := h.keep q (by simp) (by rw [hq]; exact hr)
    exact ⟨h1.trans hq, Kmem.pte_congr h2 _⟩
  · exact Or.inl ((h.node_iff hr).mp hq)

end Frame

end Xv6.Vm
