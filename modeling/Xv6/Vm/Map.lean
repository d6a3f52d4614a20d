import Xv6.Vm.Owned
import Mathlib.Algebra.Order.Ring.Nat

/-!
# A page table is a map

Whatever its leaves lead to, a three-level page table is a map from virtual pages to
entries, and the functions of `kernel/vm.c` change it one entry at a time.  All
that is needed is that the page-table pages form a tree (`Table`): every valid
entry above the lowest level leads to the page at its position, no page has two
positions, and the allocator will not hand out any of them.

## Main definitions

* `Kmem.lookup`, `Kmem.map` — the entry of a virtual page, and what it is mapped to.
* `Table` — the page-table pages form a tree.
* `Table.Grows` — what `walk` with `alloc` may do to it.

## Main results

* `Table.lookup_cases` — an entry is read from the page at its position.
* `Table.ends_walk`, `Table.ends_walk_alloc`, `Table.ends_mappages`, `Table.ends_unmapFrom`,
  `Table.ends_uvmclear` — what the functions do to the map.
* `table_refines_map` — **page-table operations are operations on a map.**
-/

namespace Xv6.Vm

open Conc Function

variable {K : Layout} {allow : String → Prop} {m m' m'' : Kmem}
  {pos pos' pos'' : ℕ → Option (ℕ × ℕ)}
  {p q r lv x y i w v u va k : ℕ}

/-! ### Positions -/

theorem PX_eq (level va : ℕ) : PX level va = va / PGSIZE / 512 ^ level % 512 := by
  rw [PX, Nat.div_div_eq_div_mul, show (512 : ℕ) = 2 ^ 9 from rfl, ← Nat.pow_mul,
    show PGSIZE = 2 ^ 12 from rfl, ← Nat.pow_add]

theorem div_pow_succ_mul_add (v l : ℕ) :
    v / 512 ^ (l + 1) * 512 + v / 512 ^ l % 512 = v / 512 ^ l := by
  rw [Nat.pow_succ, ← Nat.div_div_eq_div_mul]
  exact Nat.div_add_mod' _ _

/-- The entry for page `v`, from the page-table page `pt` at a level on. -/
def Kmem.lookFrom (m : Kmem) (v : ℕ) : ℕ → ℕ → ℕ
  | 0, pt => m.pte pt (v % 512)
  | l + 1, pt =>
      if m.pte pt (v / 512 ^ (l + 1) % 512) &&& PTE_V ≠ 0 then
        m.lookFrom v l (PTE2PA (m.pte pt (v / 512 ^ (l + 1) % 512)))
      else 0

/-- The entry for page `v` in the table with root `r`, 0 if there is none. -/
def Kmem.lookup (m : Kmem) (r v : ℕ) : ℕ := m.lookFrom v 2 r

/-- What virtual page `v` is mapped to: a physical page, and flags. -/
def Kmem.map (m : Kmem) (r v : ℕ) : Option (ℕ × ℕ) :=
  if m.lookup r v &&& PTE_V = 0 then none
  else some (PTE2PA (m.lookup r v), PTE_FLAGS (m.lookup r v))

theorem page_lt (hva : va < MAXVA) : va / PGSIZE < 512 ^ 3 :=
  Nat.div_lt_of_lt_mul (lt_trans hva (by decide))

theorem Kmem.lookup_of_mem_eq (h : m'.mem = m.mem) (r v : ℕ) : m'.lookup r v = m.lookup r v := by
  have hpte : ∀ q i, m'.pte q i = m.pte q i := fun q i => Kmem.pte_congr (by rw [h]) i
  simp only [Kmem.lookup, Kmem.lookFrom, hpte]

/-- The entry that `mappages` writes. -/
abbrev mkPte (p perm : ℕ) : ℕ := PA2PTE p ||| perm ||| PTE_V

theorem mkPte_eq (p perm : ℕ) : mkPte p perm = PA2PTE p ||| (perm ||| PTE_V) := Nat.or_assoc _ _ _

theorem mkPte_valid (p perm : ℕ) : mkPte p perm &&& PTE_V ≠ 0 := or_V_valid _

variable {perm : ℕ}

theorem PTE2PA_mkPte (hperm : perm < 2 ^ 10) : PTE2PA (mkPte p perm) = p := by
  rw [mkPte_eq, PTE2PA_mk (perm_or_V_lt hperm)]

theorem PTE_FLAGS_mkPte (hperm : perm < 2 ^ 10) : PTE_FLAGS (mkPte p perm) = perm ||| PTE_V := by
  have hlt := perm_or_V_lt hperm
  rw [mkPte_eq, PTE_FLAGS, Nat.or_mod_two_pow, Nat.mod_eq_of_lt hlt, PA2PTE, Nat.shiftLeft_eq,
    Nat.mul_mod_left, Nat.zero_or]

theorem mkPte_lt (hp : p < 2 ^ 44) (hperm : perm < 2 ^ 10) : mkPte p perm < 2 ^ 64 := by
  rw [mkPte_eq]
  exact mk_lt hp (perm_or_V_lt hperm)

theorem mkPte_and_RWX (p perm : ℕ) : mkPte p perm &&& RWX = perm &&& RWX := by
  rw [mkPte_eq, mk_and_RWX, Nat.and_or_distrib_right, show PTE_V &&& RWX = 0 from rfl, Nat.or_zero]

/-! ### Reading a table -/

section

variable {Q : Option (ℕ × ℕ) → Kmem → Prop}

/-- The loop of `walk` without `alloc`; `P` is known of the pages on the way. -/
theorem ends_walkFrom (P : ℕ → ℕ → Prop) (hP : ∀ l q, P (l + 1) q →
      m.pte q (va / PGSIZE / 512 ^ (l + 1) % 512) &&& PTE_V ≠ 0 →
      P l (PTE2PA (m.pte q (va / PGSIZE / 512 ^ (l + 1) % 512)))) (l pt : ℕ) (hpt : P l pt)
    (hnone : m.lookFrom (va / PGSIZE) l pt = 0 → Q none m)
    (hsome : ∀ q, P 0 q → m.lookFrom (va / PGSIZE) l pt = m.pte q (va / PGSIZE % 512) →
      Q (some (q, va / PGSIZE % 512)) m) : Ends allow () (walkFrom false va l pt) m Q := by
  induction l generalizing pt with
  | zero =>
    rw [walkFrom, ends_pure, PX_eq, Nat.pow_zero, Nat.div_one]
    exact hsome pt hpt rfl
  | succ l ih =>
    rw [walkFrom, ends_look_bind, PX_eq]
    rw [Kmem.lookFrom] at hnone hsome
    by_cases hv : m.pte pt (va / PGSIZE / 512 ^ (l + 1) % 512) &&& PTE_V ≠ 0
    · rw [if_pos hv] at hnone hsome ⊢
      exact ih _ (hP l pt hpt hv) hnone hsome
    · rw [if_neg hv] at hnone ⊢
      exact hnone rfl

/-- `walk` finds the entry for an address, whatever is in memory. -/
theorem Kmem.ends_walk (hva : va < MAXVA) (hnone : m.lookup r (va / PGSIZE) = 0 → Q none m)
    (hsome : ∀ q, m.lookup r (va / PGSIZE) = m.pte q (va / PGSIZE % 512) →
      Q (some (q, va / PGSIZE % 512)) m) : Ends allow () (walk r va false) m Q := by
  rw [walk, if_neg (by omega)]
  exact ends_walkFrom (fun _ _ => True) (fun _ _ _ _ => trivial) 2 r trivial hnone fun q _ =>
    hsome q

end

/-- `walkaddr` finds the pages that are mapped for the user. -/
theorem Kmem.ends_walkaddr {Q : Option ℕ → Kmem → Prop}
    (hsome : va < MAXVA → m.lookup r (va / PGSIZE) &&& PTE_V ≠ 0 →
      m.lookup r (va / PGSIZE) &&& PTE_U ≠ 0 → Q (some (PTE2PA (m.lookup r (va / PGSIZE)))) m)
    (hnone : (va < MAXVA → m.lookup r (va / PGSIZE) &&& PTE_V ≠ 0 →
      m.lookup r (va / PGSIZE) &&& PTE_U = 0) → Q none m) :
    Ends allow () (walkaddr r va) m Q := by
  rw [walkaddr]
  by_cases hva : va ≥ MAXVA
  · rw [if_pos hva, ends_pure]
    exact hnone fun hc => absurd hc (by omega)
  rw [if_neg hva]
  refine Ends.seq (Kmem.ends_walk (not_le.mp hva) (fun h0 => ?_) fun q hlook => ?_)
  · exact hnone fun _ hc => absurd (by rw [h0, Nat.zero_and]) hc
  apply ends_look_bind.mpr
  rw [← hlook]
  by_cases hval : m.lookup r (va / PGSIZE) &&& PTE_V = 0
  · rw [if_pos hval]
    exact hnone fun _ hc => absurd hval hc
  rw [if_neg hval]
  by_cases hu : m.lookup r (va / PGSIZE) &&& PTE_U = 0
  · rw [if_pos hu]
    exact hnone fun _ _ => hu
  · rw [if_neg hu]
    exact hsome (not_le.mp hva) hval hu

/-! ### Trees of page-table pages -/

/-- The page-table pages of the table with root `r` form a tree.  `pos q` is the height of page
`q` and its position at that height: 3 for the root, 1 for the pages that hold leaves. -/
structure Table (m : Kmem) (r : ℕ) (pos : ℕ → Option (ℕ × ℕ)) : Prop where
  root : ∀ q x, pos q = some (3, x) ↔ q = r ∧ x = 0
  level : ∀ q lv x, pos q = some (lv, x) → 1 ≤ lv ∧ lv ≤ 3
  down : ∀ q lv x i, pos q = some (lv + 2, x) → i < 512 → m.pte q i &&& PTE_V ≠ 0 →
    pos (PTE2PA (m.pte q i)) = some (lv + 1, x * 512 + i)
  up : ∀ q lv x, pos q = some (lv, x) → lv < 3 → ∃ q', pos q' = some (lv + 1, x / 512) ∧
    m.pte q' (x % 512) &&& PTE_V ≠ 0 ∧ PTE2PA (m.pte q' (x % 512)) = q
  free : ∀ q ∈ m.freelist, pos q = none ∧ q < 2 ^ 44
  nodup : m.freelist.Nodup

namespace Table

section

variable (h : Table m r pos)

include h

theorem congr (hmem : ∀ q, pos q ≠ none → m'.mem q = m.mem q)
    (hfree : ∀ q ∈ m'.freelist, q ∈ m.freelist) (hnd : m'.freelist.Nodup) : Table m' r pos := by
  have hpte : ∀ {q lv x}, pos q = some (lv, x) → ∀ i, m'.pte q i = m.pte q i := fun hq i =>
    Kmem.pte_congr (hmem _ (by rw [hq]; exact nofun)) i
  refine ⟨h.root, h.level, fun q lv x i hq hi hv => ?_, fun q lv x hq hlv => ?_,
    fun q hq => h.free q (hfree q hq), hnd⟩
  · rw [hpte hq] at hv ⊢
    exact h.down q lv x i hq hi hv
  · obtain ⟨q', hq', he⟩ := h.up q lv x hq hlv
    refine ⟨q', hq', ?_⟩
    rwa [hpte hq']

theorem root_pos : pos r = some (3, 0) := (h.root r 0).mpr ⟨rfl, rfl⟩

theorem pos_unique (hp : pos p = some (lv, x)) (hq : pos q = some (lv, x)) : p = q := by
  obtain ⟨n, hn⟩ : ∃ n, n + lv = 3 := ⟨3 - lv, by have := h.level p lv x hp; omega⟩
  induction n generalizing p q lv x with
  | zero =>
    obtain rfl : lv = 3 := by omega
    rw [((h.root p x).mp hp).1, ((h.root q x).mp hq).1]
  | succ n ih =>
    obtain ⟨p', hp', -, hpe⟩ := h.up p lv x hp (by omega)
    obtain ⟨q', hq', -, hqe⟩ := h.up q lv x hq (by omega)
    rw [← hpe, ← hqe, ih hp' hq' (by omega)]

theorem above (hq : pos q = some (lv, x)) (k : ℕ) (hk : lv + k ≤ 3) :
    ∃ q', pos q' = some (lv + k, x / 512 ^ k) := by
  induction k with
  | zero => exact ⟨q, by simpa using hq⟩
  | succ k ih =>
    obtain ⟨q', hq'⟩ := ih (by omega)
    obtain ⟨q'', hq'', -⟩ := h.up q' (lv + k) _ hq' (by omega)
    refine ⟨q'', ?_⟩
    rwa [Nat.div_div_eq_div_mul, ← Nat.pow_succ] at hq''

theorem entry_of_pos (hp : pos p = some (lv, y)) (hq : pos q = some (lv + 1, y / 512)) :
    m.pte q (y % 512) &&& PTE_V ≠ 0 ∧ PTE2PA (m.pte q (y % 512)) = p := by
  have hlv := h.level q _ _ hq
  obtain ⟨q', hq', he⟩ := h.up p lv y hp (by omega)
  rwa [h.pos_unique hq' hq] at he

/-- An invalid entry on the way to a page: there is no such page. -/
theorem no_pos (l : ℕ) (hq : pos q = some (l + 2, v / 512 ^ (l + 2)))
    (hv : m.pte q (v / 512 ^ (l + 1) % 512) &&& PTE_V = 0) : ∀ q', pos q' ≠ some (1, v / 512) := by
  intro q' hq'
  have hlv := h.level q _ _ hq
  obtain ⟨c, hc⟩ := h.above hq' l (by omega)
  rw [Nat.div_div_eq_div_mul, ← Nat.pow_succ', Nat.add_comm 1 l] at hc
  refine absurd hv (h.entry_of_pos hc ?_).1
  rwa [Nat.div_div_eq_div_mul, ← Nat.pow_succ]

theorem next (l : ℕ) (hq : pos q = some (l + 2, v / 512 ^ (l + 2)))
    (hv : m.pte q (v / 512 ^ (l + 1) % 512) &&& PTE_V ≠ 0) :
    pos (PTE2PA (m.pte q (v / 512 ^ (l + 1) % 512))) = some (l + 1, v / 512 ^ (l + 1)) := by
  have hd := h.down q l _ _ hq (Nat.mod_lt _ (by decide)) hv
  rwa [div_pow_succ_mul_add] at hd

theorem lookFrom_cases (l : ℕ) (hq : pos q = some (l + 1, v / 512 ^ (l + 1))) :
    (∃ q', pos q' = some (1, v / 512) ∧ m.lookFrom v l q = m.pte q' (v % 512)) ∨
      ((∀ q', pos q' ≠ some (1, v / 512)) ∧ m.lookFrom v l q = 0) := by
  induction l generalizing q with
  | zero => exact Or.inl ⟨q, by simpa using hq, rfl⟩
  | succ l ih =>
    rw [Kmem.lookFrom]
    by_cases hv : m.pte q (v / 512 ^ (l + 1) % 512) &&& PTE_V ≠ 0
    · rw [if_pos hv]
      exact ih (h.next l hq hv)
    · rw [if_neg hv]
      exact Or.inr ⟨h.no_pos l hq (not_not.mp hv), rfl⟩

theorem root_at (hv : v < 512 ^ 3) : pos r = some (2 + 1, v / 512 ^ (2 + 1)) := by
  rw [h.root_pos, Nat.div_eq_of_lt hv]

/-- **An entry is read from the page at its position**, if there is one. -/
theorem lookup_cases (hv : v < 512 ^ 3) :
    (∃ q, pos q = some (1, v / 512) ∧ m.lookup r v = m.pte q (v % 512)) ∨
      ((∀ q, pos q ≠ some (1, v / 512)) ∧ m.lookup r v = 0) :=
  h.lookFrom_cases 2 (h.root_at hv)

theorem lookup_eq (hv : v < 512 ^ 3) (hq : pos q = some (1, v / 512)) :
    m.lookup r v = m.pte q (v % 512) := by
  rcases h.lookup_cases hv with ⟨q', hq', he⟩ | ⟨hn, -⟩
  · rw [he, h.pos_unique hq' hq]
  · exact absurd hq (hn q)

theorem lookup_congr (h' : Table m' r pos') (hv : v < 512 ^ 3)
    (hto : ∀ q, pos q = some (1, v / 512) →
      pos' q = some (1, v / 512) ∧ m'.pte q (v % 512) = m.pte q (v % 512))
    (hfrom : ∀ q, pos' q = some (1, v / 512) → pos q = some (1, v / 512) ∨
      m'.pte q (v % 512) = 0) : m'.lookup r v = m.lookup r v := by
  rcases h.lookup_cases hv with ⟨q, hq, he⟩ | ⟨hn, he⟩
  · rw [he, h'.lookup_eq hv (hto q hq).1, (hto q hq).2]
  · rw [he]
    rcases h'.lookup_cases hv with ⟨q, hq, he'⟩ | ⟨-, he'⟩
    · rw [he']
      exact (hfrom q hq).resolve_left (hn q)
    · exact he'

end

theorem slot_unique (hq : pos q = some (1, v / 512)) (hq' : pos q = some (1, u / 512))
    (hi : v % 512 = u % 512) : v = u := by
  rw [hq] at hq'
  injection hq' with hq'
  injection hq' with _ hd
  rw [← Nat.div_add_mod' v 512, ← Nat.div_add_mod' u 512, hd, hi]

/-! ### Writing -/

theorem setLeaf (h : Table m r pos) (hq : pos q = some (1, x)) (i w : ℕ) :
    Table (m.setPte q i w) r pos := by
  have hpte : ∀ {q' lv x'} (j : ℕ), pos q' = some (lv + 2, x') →
      (m.setPte q i w).pte q' j = m.pte q' j := by
    intro q' lv x' j hq'
    refine Kmem.pte_setPte_of_ne _ fun hc => ?_
    rw [hc.1, hq] at hq'
    cases hq'
  refine ⟨h.root, h.level, fun q' lv x' j hq' hj hv => ?_, fun q' lv x' hq' hlv => ?_,
    h.free, h.nodup⟩
  · rw [hpte j hq'] at hv ⊢
    exact h.down q' lv x' j hq' hj hv
  · obtain ⟨q'', hq'', he⟩ := h.up q' lv x' hq' hlv
    refine ⟨q'', hq'', ?_⟩
    obtain ⟨k, rfl⟩ : ∃ k, lv = k + 1 := ⟨lv - 1, by have := h.level q' lv x' hq'; omega⟩
    rwa [hpte _ hq'']

theorem lookup_setLeaf (h : Table m r pos) (hv : v < 512 ^ 3) (hq : pos q = some (1, v / 512))
    (hw : w < 2 ^ 64) (hu : u < 512 ^ 3) :
    (m.setPte q (v % 512) w).lookup r u = if u = v then w else m.lookup r u := by
  have h' := h.setLeaf hq (v % 512) w
  split_ifs with huv
  · subst huv
    rw [h'.lookup_eq hu hq, Kmem.pte_setPte_self _ hw]
  · refine h.lookup_congr h' hu (fun q' hq' => ⟨hq', Kmem.pte_setPte_of_ne _ fun hc => huv ?_⟩)
      fun q' hq' => Or.inl hq'
    obtain ⟨rfl, hi⟩ := hc
    exact slot_unique hq' hq hi

theorem lookup_lt (h : Table m r pos) (hv : v < 512 ^ 3) : m.lookup r v < 2 ^ 64 := by
  rcases h.lookup_cases hv with ⟨q, -, he⟩ | ⟨-, he⟩
  · rw [he]
    exact Bytes.get_lt _ _ _
  · rw [he]
    decide

/-- A page of zeros becomes a page-table page. -/
theorem link (h : Table m r pos) (hq : pos q = some (lv + 2, x)) (hi : i < 512)
    (hinv : m.pte q i &&& PTE_V = 0) (hp : pos p = none) (hp' : p ∉ m.freelist) (hlt : p < 2 ^ 44)
    (hzero : m.mem p = fun _ => 0) :
    Table (m.setPte q i (PA2PTE p ||| PTE_V)) r (update pos p (some (lv + 1, x * 512 + i))) := by
  have hw : PA2PTE p ||| PTE_V < 2 ^ 64 := mk_lt hlt (by decide)
  have hqp : q ≠ p := by
    rintro rfl
    rw [hp] at hq
    cases hq
  have hlv := h.level q _ _ hq
  have hne : ∀ {q' lv' x'}, pos q' = some (lv', x') → q' ≠ p := by
    rintro q' lv' x' hq' rfl
    rw [hp] at hq'
    cases hq'
  -- every other page is where it was
  have hto : ∀ {q' lv' x'}, pos q' = some (lv', x') →
      update pos p (some (lv + 1, x * 512 + i)) q' = some (lv', x') := by
    intro q' lv' x' hq'
    rwa [update_of_ne (hne hq')]
  have hpte : ∀ {q' j}, ¬ (q' = q ∧ j = i) →
      (m.setPte q i (PA2PTE p ||| PTE_V)).pte q' j = m.pte q' j := fun hc =>
    Kmem.pte_setPte_of_ne _ hc
  refine ⟨fun q' x' => ?_, fun q' lv' x' hq' => ?_, fun q' lv' x' j hq' hj hv => ?_,
    fun q' lv' x' hq' hlv' => ?_, fun q' hq' => ?_, h.nodup⟩
  · obtain rfl | hqq := eq_or_ne q' p
    · rw [update_self]
      constructor
      · intro hc
        injection hc with hc
        injection hc with hc _
        omega
      · rintro ⟨rfl, -⟩
        rw [h.root_pos] at hp
        cases hp
    · rw [update_of_ne hqq]
      exact h.root q' x'
  · obtain rfl | hqq := eq_or_ne q' p
    · rw [update_self] at hq'
      cases hq'
      omega
    · rw [update_of_ne hqq] at hq'
      exact h.level q' lv' x' hq'
  · by_cases hqq : q' = p
    · -- the new page has no valid entry
      subst hqq
      rw [hpte fun hc => hqp hc.1.symm, m.pte_zero hzero] at hv
      exact absurd rfl hv
    · rw [update_of_ne hqq] at hq'
      by_cases hqi : q' = q ∧ j = i
      · obtain ⟨rfl, rfl⟩ := hqi
        rw [hq] at hq'
        cases hq'
        rw [Kmem.pte_setPte_self _ hw, PTE2PA_mk (by decide), update_self]
      · rw [hpte hqi] at hv ⊢
        exact hto (h.down q' lv' x' j hq' hj hv)
  · obtain rfl | hqq := eq_or_ne q' p
    · rw [update_self] at hq'
      cases hq'
      rw [show (x * 512 + i) / 512 = x by omega, show (x * 512 + i) % 512 = i by omega]
      refine ⟨q, hto hq, ?_⟩
      rw [Kmem.pte_setPte_self _ hw]
      exact ⟨or_V_valid _, PTE2PA_mk (by decide)⟩
    · rw [update_of_ne hqq] at hq'
      obtain ⟨q'', hq'', hv, he⟩ := h.up q' lv' x' hq' hlv'
      refine ⟨q'', hto hq'', ?_⟩
      rw [hpte]
      · exact ⟨hv, he⟩
      · rintro ⟨rfl, rfl⟩
        exact hv hinv
  · obtain ⟨h1, h2⟩ := h.free q' hq'
    refine ⟨?_, h2⟩
    rw [update_of_ne, h1]
    rintro rfl
    exact hp' hq'

/-! ### walk -/

variable {Q : Option (ℕ × ℕ) → Kmem → Prop}

/-- **`walk` finds the slot of an entry**, if there is one. -/
theorem ends_walk (h : Table m r pos) (hva : va < MAXVA)
    (hnone : m.lookup r (va / PGSIZE) = 0 → Q none m)
    (hsome : ∀ q, pos q = some (1, va / PGSIZE / 512) →
      m.lookup r (va / PGSIZE) = m.pte q (va / PGSIZE % 512) →
      Q (some (q, va / PGSIZE % 512)) m) : Ends allow () (walk r va false) m Q := by
  rw [walk, if_neg (by omega)]
  exact ends_walkFrom (fun l q => pos q = some (l + 1, va / PGSIZE / 512 ^ (l + 1)))
    (fun l q => h.next l) 2 r
    (h.root_at (page_lt hva)) hnone fun q hq => hsome q (by simpa using hq)

/-- What `walk` with `alloc` may do to a table: free pages become page-table pages without
entries, and nothing else changes. -/
structure Grows (r : ℕ) (m : Kmem) (pos : ℕ → Option (ℕ × ℕ)) (m' : Kmem)
    (pos' : ℕ → Option (ℕ × ℕ)) : Prop where
  keep : ∀ q, pos q ≠ none → pos' q = pos q
  new : ∀ q, pos q = none → pos' q ≠ none → q ∈ m.freelist
  free : ∀ q, q ∈ m'.freelist ↔ q ∈ m.freelist ∧ pos' q = none
  mem : ∀ q, pos' q = none → q ∉ m.freelist → m'.mem q = m.mem q
  lookup : ∀ v < 512 ^ 3, m'.lookup r v = m.lookup r v

theorem Grows.refl (h : Table m r pos) (hmem : m'.mem = m.mem) (hfree : m'.freelist = m.freelist) :
    Grows r m pos m' pos := by
  refine ⟨fun _ _ => rfl, fun q h1 h2 => absurd h1 h2, fun q => ?_, fun q _ _ => by rw [hmem],
    fun v _ => Kmem.lookup_of_mem_eq hmem r v⟩
  rw [hfree]
  exact ⟨fun hq => ⟨hq, (h.free q hq).1⟩, fun hq => hq.1⟩

theorem Grows.trans (h : Grows r m pos m' pos') (h' : Grows r m' pos' m'' pos'') :
    Grows r m pos m'' pos'' := by
  -- a page that is no page-table page in the end never was one
  have hback : ∀ q, pos'' q = none → pos' q = none := by
    intro q hq
    by_contra hne
    rw [h'.keep q hne] at hq
    exact hne hq
  refine ⟨fun q hq => ?_, fun q h1 h2 => ?_, fun q => ?_, fun q h1 h2 => ?_,
    fun v hv => (h'.lookup v hv).trans (h.lookup v hv)⟩
  · have hk := h.keep q hq
    rw [h'.keep q (by rwa [hk]), hk]
  · by_cases hq : pos' q = none
    · exact ((h.free q).mp (h'.new q hq h2)).1
    · exact h.new q h1 hq
  · rw [h'.free, h.free]
    exact ⟨fun hq => ⟨hq.1.1, hq.2⟩, fun hq => ⟨⟨hq.1, hback q hq.2⟩, hq.2⟩⟩
  · rw [h'.mem q h1 fun hq => h2 ((h.free q).mp hq).1]
    exact h.mem q (hback q h1) h2

theorem ends_kalloc (h : Table m r pos) {Q : Option ℕ → Kmem → Prop}
    (hnone : ∀ m', m'.mem = m.mem → m'.freelist = m.freelist → Q none m')
    (hsome : ∀ p m', p ∈ m.freelist → (∀ q, q ∈ m'.freelist ↔ q ∈ m.freelist ∧ q ≠ p) →
      m'.freelist.Nodup → (∀ q, q ≠ p → m'.mem q = m.mem q) → Q (some p) m') :
    Ends allow () kalloc m Q := by
  rw [kalloc, Prog.atomic, ends_step]
  by_cases hf : m.fail m.calls = true
  · simp only [hf, if_true]
    exact hnone _ rfl rfl
  simp only [hf]
  cases hl : m.freelist with
  | nil => exact hnone _ rfl hl.symm
  | cons p ps =>
    have hnd := h.nodup
    rw [hl, List.nodup_cons] at hnd
    refine hsome p _ (by rw [hl]; exact List.mem_cons_self) (fun q => ?_) hnd.2
      fun q hq => Kmem.setPage_mem_of_ne _ _ hq
    show q ∈ ps ↔ _
    rw [hl, List.mem_cons]
    constructor
    · intro hq
      refine ⟨Or.inr hq, ?_⟩
      rintro rfl
      exact hnd.1 hq
    · rintro ⟨rfl | hq, hne⟩
      · exact absurd rfl hne
      · exact hq

/-- Linking a page that was free. -/
theorem Grows.link (h : Table m r pos) (h' : Table m' r (update pos p (some (lv + 1, y))))
    (hp : p ∈ m.freelist) (hq : pos q = some (lv + 2, x))
    (hfree : ∀ z, z ∈ m'.freelist ↔ z ∈ m.freelist ∧ z ≠ p)
    (hmem : ∀ z, z ≠ p → z ≠ q → m'.mem z = m.mem z) (hzero : m'.mem p = fun _ => 0) :
    Grows r m pos m' (update pos p (some (lv + 1, y))) := by
  -- the new page is not in the table yet, and it has no entries
  have hnone := (h.free p hp).1
  have hne : ∀ {z}, pos z ≠ none → z ≠ p := by
    rintro z hz rfl
    exact hz hnone
  refine ⟨fun z hz => by rw [update_of_ne (hne hz)], fun z h1 h2 => ?_, fun z => ?_,
    fun z h1 h2 => ?_, fun v hv => ?_⟩
  · by_cases hz : z = p
    · rwa [hz]
    · rw [update_of_ne hz] at h2
      exact absurd h1 h2
  · rw [hfree]
    obtain rfl | hz := eq_or_ne z p
    · rw [update_self]
      exact ⟨fun hc => absurd rfl hc.2, fun hc => absurd hc.2 nofun⟩
    · rw [update_of_ne hz]
      exact ⟨fun hc => ⟨hc.1, (h.free z hc.1).1⟩, fun hc => ⟨hc.1, hz⟩⟩
  · have hz : z ≠ p := by
      rintro rfl
      exact h2 hp
    rw [update_of_ne hz] at h1
    refine hmem z hz ?_
    rintro rfl
    rw [hq] at h1
    cases h1
  · refine h.lookup_congr h' hv (fun z hz => ?_) fun z hz => ?_
    · have hzp : z ≠ p := hne (by rw [hz]; exact nofun)
      rw [update_of_ne hzp]
      refine ⟨hz, Kmem.pte_congr (hmem z hzp ?_) _⟩
      rintro rfl
      rw [hz] at hq
      cases hq
    · obtain rfl | hzp := eq_or_ne z p
      · exact Or.inr (m'.pte_zero hzero _)
      · rw [update_of_ne hzp] at hz
        exact Or.inl hz

/-- The loop of `walk` with `alloc`. -/
theorem ends_walkFrom_alloc (l : ℕ) :
    ∀ (pt : ℕ) (m : Kmem) (pos : ℕ → Option (ℕ × ℕ)), Table m r pos →
    pos pt = some (l + 1, va / PGSIZE / 512 ^ (l + 1)) →
    (∀ m' pos', Table m' r pos' → Grows r m pos m' pos' → Q none m') →
    (∀ m' pos' q, Table m' r pos' → Grows r m pos m' pos' →
      pos' q = some (1, va / PGSIZE / 512) → Q (some (q, va / PGSIZE % 512)) m') →
    Ends allow () (walkFrom true va l pt) m Q := by
  induction l with
  | zero =>
    intro pt m pos h hpt _ hsome
    rw [walkFrom, ends_pure, PX_eq, Nat.pow_zero, Nat.div_one]
    exact hsome m pos pt h (Grows.refl h rfl rfl) (by simpa using hpt)
  | succ l ih =>
    intro pt m pos h hpt hnone hsome
    rw [walkFrom]
    rw [ends_look_bind]
    rw [PX_eq]
    by_cases hv : m.pte pt (va / PGSIZE / 512 ^ (l + 1) % 512) &&& PTE_V ≠ 0
    · rw [if_pos hv]
      exact ih _ m pos h (h.next l hpt hv) hnone hsome
    · rw [if_neg hv, if_neg (by decide)]
      refine Ends.seq (h.ends_kalloc (fun m1 hm1 hf1 => ?_) fun p m1 hp hf1 hnd hm1 => ?_)
      · refine hnone m1 pos (h.congr (fun q _ => by rw [hm1]) (fun q hq => ?_) ?_)
          (Grows.refl h hm1 hf1)
        · rwa [hf1] at hq
        · rw [hf1]
          exact h.nodup
      · -- the new page is cleared, and linked as a page-table page
        obtain ⟨hpn, hlt⟩ := h.free p hp
        have hne : ∀ {z}, pos z ≠ none → z ≠ p := by
          rintro z hz rfl
          exact hz hpn
        have hpt' : pt ≠ p := hne (by rw [hpt]; exact nofun)
        apply ends_act_bind.mpr
        have h2 : Table (m1.setPage p fun _ => 0) r pos :=
          h.congr (fun q hq => by rw [Kmem.setPage_mem_of_ne _ _ (hne hq), hm1 q (hne hq)])
            (fun q hq => ((hf1 q).mp hq).1) hnd
        have hpte : (m1.setPage p fun _ => 0).pte pt (va / PGSIZE / 512 ^ (l + 1) % 512) =
            m.pte pt (va / PGSIZE / 512 ^ (l + 1) % 512) :=
          Kmem.pte_congr (by rw [Kmem.setPage_mem_of_ne _ _ hpt', hm1 pt hpt']) _
        have h3 :=
          h2.link (p := p) hpt (Nat.mod_lt _ (by decide)) (by rw [hpte]; exact not_not.mp hv)
          hpn (fun hc => ((hf1 p).mp hc).2 rfl) hlt (Kmem.setPage_mem_self _ _ _)
        rw [div_pow_succ_mul_add] at h3
        apply ends_act_bind.mpr
        have hg := Grows.link h h3 hp hpt hf1 (fun z hzp hzt => ?_) ?_
        · refine ih p _ _ h3 (update_self ..) (fun m' pos' hm' hg' => ?_)
            fun m' pos' q hm' hg' hq => ?_
          · exact hnone m' pos' hm' (hg.trans hg')
          · exact hsome m' pos' q hm' (hg.trans hg') hq
        · rw [Kmem.setPte_mem_of_ne _ _ _ hzt, Kmem.setPage_mem_of_ne _ _ hzp, hm1 z hzp]
        · rw [Kmem.setPte_mem_of_ne _ _ _ (Ne.symm hpt'), Kmem.setPage_mem_self]

/-- **`walk` with `alloc` makes the slot of an entry**, or runs out of memory; either way no
mapping changes. -/
theorem ends_walk_alloc (h : Table m r pos) (hva : va < MAXVA)
    (hnone : ∀ m' pos', Table m' r pos' → Grows r m pos m' pos' → Q none m')
    (hsome : ∀ m' pos' q, Table m' r pos' → Grows r m pos m' pos' →
      pos' q = some (1, va / PGSIZE / 512) → Q (some (q, va / PGSIZE % 512)) m') :
    Ends allow () (walk r va true) m Q := by
  rw [walk, if_neg (by omega)]
  exact ends_walkFrom_alloc 2 r m pos h (h.root_at (page_lt hva)) hnone hsome

/-! ### What walk finds -/

theorem map_congr (h : m'.lookup r v = m.lookup r v) : m'.map r v = m.map r v := by
  rw [Kmem.map, Kmem.map, h]

theorem map_eq_none : m.map r v = none ↔ m.lookup r v &&& PTE_V = 0 := by
  unfold Kmem.map
  split_ifs with hv
  · exact iff_of_true rfl hv
  · exact iff_of_false nofun hv

theorem map_eq (h : m.lookup r v = w) (hw : w &&& PTE_V ≠ 0) :
    m.map r v = some (PTE2PA w, PTE_FLAGS w) := by
  rw [Kmem.map, h, if_neg hw]

theorem ends_walkaddr (hva : va < MAXVA) :
    Ends allow () (walkaddr r va) m fun o m' => m' = m ∧
      o = (m.map r (va / PGSIZE)).bind fun e => if e.2 &&& PTE_U = 0 then none else some e.1 := by
  refine Kmem.ends_walkaddr (fun _ hv hu => ⟨rfl, ?_⟩) fun hn => ⟨rfl, ?_⟩
  · rw [map_eq rfl hv, Option.bind_some, PTE_FLAGS_and (by decide), if_neg hu]
  · by_cases hv : m.lookup r (va / PGSIZE) &&& PTE_V = 0
    · rw [map_eq_none.mpr hv, Option.bind_none]
    · rw [map_eq rfl hv, Option.bind_some, PTE_FLAGS_and (by decide), if_pos (hn hva hv)]

/-! ### mappages -/

/-- `mappages` of one page adds one mapping, or changes no mapping. -/
theorem ends_mappages (h : Table m r pos) (hva : va < MAXVA) (hal : va % PGSIZE = 0)
    {perm : ℕ} (hp : p < 2 ^ 44) (hperm : perm < 2 ^ 10) {Q : Bool → Kmem → Prop}
    (hremap : m.lookup r (va / PGSIZE) &&& PTE_V ≠ 0 → allow "mappages: remap")
    (hfail : ∀ m' pos', Table m' r pos' → Grows r m pos m' pos' → Q false m')
    (hok : ∀ m' pos', Table m' r pos' → (∀ u < 512 ^ 3, m'.lookup r u =
      if u = va / PGSIZE then mkPte p perm else m.lookup r u) → Q true m') :
    Ends allow () (mappages r va PGSIZE p perm) m Q := by
  have hv := page_lt hva
  rw [mappages, if_neg (not_not.mpr hal), if_neg (by decide), if_neg (by decide),
    show PGSIZE / PGSIZE = 0 + 1 from rfl, mapFrom]
  refine Ends.seq (h.ends_walk_alloc hva hfail fun m1 pos1 q h1 hg hq => ?_)
  have hlook : m1.pte q (va / PGSIZE % 512) = m.lookup r (va / PGSIZE) := by
    rw [← h1.lookup_eq hv hq, hg.lookup _ hv]
  rw [ends_look_bind, hlook]
  by_cases hval : m.lookup r (va / PGSIZE) &&& PTE_V ≠ 0
  · rw [if_pos hval]
    exact hremap hval
  · rw [if_neg hval]
    apply ends_act_bind.mpr
    refine hok _ pos1 (h1.setLeaf hq _ _) fun u hu => ?_
    rw [h1.lookup_setLeaf hv hq (mkPte_lt hp hperm) hu, hg.lookup u hu]

/-! ### uvmunmap -/

/-- The pages that `n` virtual pages from `lo` on are mapped to may be freed: they are pages of
the allocator that are in use, each of them once, and not for the table itself. -/
structure Freeable (K : Layout) (m : Kmem) (r : ℕ) (pos : ℕ → Option (ℕ × ℕ)) (lo n : ℕ) :
    Prop where
  page : ∀ v, lo ≤ v → v < lo + n → ∀ p f, m.map r v = some (p, f) →
    (K.kend ≤ p ∧ p < PHYSTOP) ∧ pos p = none ∧ p ∉ m.freelist
  once : ∀ v u, lo ≤ v → v < lo + n → lo ≤ u → u < lo + n → ∀ p f g, m.map r v = some (p, f) →
    m.map r u = some (p, g) → v = u

/-- The pages that are mapped elsewhere in the range may be freed after the first one. -/
theorem Freeable.tail {lo n : ℕ} (h : Freeable K m r pos lo (n + 1))
    (hmap : ∀ u, lo < u → u < lo + 1 + n → m'.map r u = m.map r u)
    (hfree : ∀ z ∈ m'.freelist, z ∈ m.freelist ∨ ∃ f, m.map r lo = some (z, f)) :
    Freeable K m' r pos (lo + 1) n := by
  refine ⟨fun v h1 h2 p f hp => ?_, fun v u h1 h2 h3 h4 p f g hp hp' => ?_⟩
  · rw [hmap v (by omega) h2] at hp
    obtain ⟨hr, hpos, hnf⟩ := h.page v (by omega) (by omega) p f hp
    refine ⟨hr, hpos, fun hc => ?_⟩
    rcases hfree p hc with hc | ⟨f', hc⟩
    · exact hnf hc
    · have := h.once v lo (by omega) (by omega) le_rfl (by omega) p f f' hp hc
      omega
  · rw [hmap v (by omega) h2] at hp
    rw [hmap u (by omega) h4] at hp'
    exact h.once v u (by omega) (by omega) (by omega) (by omega) p f g hp hp'

/-- One round of `uvmunmap`. -/
theorem ends_unmapPage (h : Table m r pos) (hva : va < MAXVA) {do_free : Bool}
    (hfr : do_free = true → ∀ p f, m.map r (va / PGSIZE) = some (p, f) →
      (K.kend ≤ p ∧ p < PHYSTOP) ∧ pos p = none ∧ p ∉ m.freelist) {Q : Unit → Kmem → Prop}
    (hQ : ∀ m', Table m' r pos →
      (∀ u < 512 ^ 3, m'.map r u = if u = va / PGSIZE then none else m.map r u) →
      (∀ z ∈ m'.freelist, z ∈ m.freelist ∨ ∃ f, m.map r (va / PGSIZE) = some (z, f)) → Q () m') :
    Ends allow () (unmapPage K r do_free va) m Q := by
  have hv := page_lt hva
  -- an entry that is not valid is left as it is
  have hsame : m.lookup r (va / PGSIZE) &&& PTE_V = 0 → Q () m := by
    intro h0
    refine hQ m h (fun u _ => ?_) fun z hz => Or.inl hz
    split_ifs with hu
    · rw [hu, map_eq_none.mpr h0]
    · rfl
  rw [unmapPage]
  refine Ends.seq (h.ends_walk hva (fun h0 => hsame (by rw [h0]; rfl)) fun q hq hlook => ?_)
  rw [ends_look_bind, ← hlook]
  by_cases hval : m.lookup r (va / PGSIZE) &&& PTE_V = 0
  · rw [if_pos hval]
    exact hsame hval
  rw [if_neg hval]
  have hmap := map_eq rfl hval
  -- storing 0 unmaps the page, whether it has been freed before or not
  have hstore : ∀ {m1 : Kmem}, Table m1 r pos → (∀ u < 512 ^ 3, m1.lookup r u = m.lookup r u) →
      ∀ u < 512 ^ 3, (m1.setPte q (va / PGSIZE % 512) 0).map r u =
        if u = va / PGSIZE then none else m.map r u := by
    intro m1 h1 hlk u hu
    have hset := h1.lookup_setLeaf hv hq (w := 0) (by decide) hu
    split_ifs at hset ⊢ with huv
    · exact map_eq_none.mpr (by rw [hset]; rfl)
    · exact map_congr (hset.trans (hlk u hu))
  unfold unmapEntry
  cases do_free with
  | false =>
    rw [if_neg (by decide)]
    exact hQ _ (h.setLeaf hq _ _) (hstore h fun _ _ => rfl) fun z hz => Or.inl hz
  | true =>
    rw [if_pos rfl]
    obtain ⟨hrange, hpos, hnf⟩ := hfr rfl _ _ hmap
    have hne : ∀ {z}, pos z ≠ none → z ≠ PTE2PA (m.lookup r (va / PGSIZE)) := by
      rintro z hz rfl
      exact hz hpos
    have h1 : Table { m.setPage (PTE2PA (m.lookup r (va / PGSIZE))) fun _ => 1 with
        freelist := PTE2PA (m.lookup r (va / PGSIZE)) :: m.freelist
        refreed := m.refreed || decide (PTE2PA (m.lookup r (va / PGSIZE)) ∈ m.freelist) } r
          pos := by
      have hmem : ∀ z, pos z ≠ none →
          (m.setPage (PTE2PA (m.lookup r (va / PGSIZE))) fun _ => 1).mem z = m.mem z :=
        fun z hz => Kmem.setPage_mem_of_ne _ _ (hne hz)
      have h₀ : Table (m.setPage (PTE2PA (m.lookup r (va / PGSIZE))) fun _ => 1) r pos :=
        h.congr hmem (fun z hz => hz) h.nodup
      refine ⟨h₀.root, h₀.level, h₀.down, h₀.up, fun z hz => ?_, List.nodup_cons.mpr ⟨hnf, h.nodup⟩⟩
      rcases List.mem_cons.mp hz with rfl | hz
      · have : PHYSTOP ≤ 2 ^ 44 := by decide
        exact ⟨hpos, by omega⟩
      · exact h.free z hz
    refine Ends.bind (R := fun _ m1 => m1 = { m.setPage (PTE2PA (m.lookup r (va / PGSIZE)))
        fun _ => 1 with
        freelist := PTE2PA (m.lookup r (va / PGSIZE)) :: m.freelist
        refreed := m.refreed || decide (PTE2PA (m.lookup r (va / PGSIZE)) ∈ m.freelist) }) ?_ ?_
    · rw [kfree, Prog.atomic, ends_step, if_neg (by omega)]
      rfl
    · rintro _ _ rfl
      refine hQ _ (h1.setLeaf hq _ _) (hstore h1 fun u hu => ?_) fun z hz => ?_
      · refine h.lookup_congr h1 hu (fun z hz => ⟨hz, Kmem.pte_congr ?_ _⟩) fun z hz => Or.inl hz
        exact Kmem.setPage_mem_of_ne _ _ (hne (by rw [hz]; exact nofun))
      · rcases List.mem_cons.mp hz with rfl | hz
        · exact Or.inr ⟨_, hmap⟩
        · exact Or.inl hz

/-- **`uvmunmap` removes the mappings of the pages it is given**, and no other. -/
theorem ends_unmapFrom {do_free : Bool} {Q : Unit → Kmem → Prop} (n : ℕ) :
    ∀ (m : Kmem) (va : ℕ), Table m r pos → va % PGSIZE = 0 → va + n * PGSIZE ≤ MAXVA →
    (do_free = true → Freeable K m r pos (va / PGSIZE) n) →
    (∀ m', Table m' r pos → (∀ u < 512 ^ 3, m'.map r u =
      if va / PGSIZE ≤ u ∧ u < va / PGSIZE + n then none else m.map r u) → Q () m') →
    Ends allow () (unmapFrom K r do_free n va) m Q := by
  induction n with
  | zero =>
    intro m va h _ _ _ hQ
    refine hQ m h fun u _ => ?_
    rw [if_neg (by omega)]
  | succ n ih =>
    intro m va h hal hle hfr hQ
    have hle' : va + (n + 1) * 4096 ≤ 2 ^ 38 := hle
    have hal' : va % 4096 = 0 := hal
    have hva : va < MAXVA := show va < 2 ^ 38 by omega
    have hnext : (va + PGSIZE) / PGSIZE = va / PGSIZE + 1 := Nat.add_div_right va (by decide)
    have hpage : va / PGSIZE + n < 512 ^ 3 := show va / 4096 + n < 512 ^ 3 by omega
    rw [unmapFrom]
    refine Ends.bind (R := fun _ m1 => Table m1 r pos ∧
      (∀ u < 512 ^ 3, m1.map r u = if u = va / PGSIZE then none else m.map r u) ∧
      ∀ z ∈ m1.freelist, z ∈ m.freelist ∨ ∃ f, m.map r (va / PGSIZE) = some (z, f))
      (h.ends_unmapPage hva (fun hd p f hp => ?_) fun m1 h1 hm1 hf1 => ⟨h1, hm1, hf1⟩) ?_
    · exact (hfr hd).page _ le_rfl (by omega) p f hp
    · rintro _ m1 ⟨h1, hm1, hf1⟩
      refine ih m1 (va + PGSIZE) h1 (show (va + 4096) % 4096 = 0 by omega)
        (show va + 4096 + n * 4096 ≤ 2 ^ 38 by omega) (fun hd => ?_) fun m' h' hm' => ?_
      · rw [hnext]
        refine (hfr hd).tail (fun u hu hu' => ?_) hf1
        rw [hm1 u (by omega), if_neg (by omega)]
      · refine hQ m' h' fun u hu => ?_
        rw [hm' u hu, hnext, hm1 u hu]
        -- a page that the rest unmaps, the one unmapped now, or another one
        by_cases h1 : va / PGSIZE + 1 ≤ u ∧ u < va / PGSIZE + 1 + n
        · rw [if_pos h1, if_pos (by omega)]
        · rw [if_neg h1]
          by_cases h2 : u = va / PGSIZE
          · rw [if_pos h2, if_pos (by omega)]
          · rw [if_neg h2, if_neg (by omega)]

/-! ### uvmclear -/

/-- `uvmclear` takes one page from the user. -/
theorem ends_uvmclear (h : Table m r pos) (hva : va < MAXVA) {Q : Unit → Kmem → Prop}
    (hstop : m.map r (va / PGSIZE) = none → allow "uvmclear")
    (hQ : ∀ m', Table m' r pos → (∀ u < 512 ^ 3, m'.map r u =
      if u = va / PGSIZE then (m.map r u).map fun e => (e.1, e.2 - (e.2 &&& PTE_U))
      else m.map r u) → Q () m') :
    Ends allow () (uvmclear r va) m Q := by
  have hv := page_lt hva
  rw [uvmclear]
  refine Ends.seq (h.ends_walk hva (fun h0 => hstop (map_eq_none.mpr (by rw [h0]; rfl)))
    fun q hq hlook => ?_)
  show Q () (m.setPte q (va / PGSIZE % 512)
    (m.pte q (va / PGSIZE % 512) - (m.pte q (va / PGSIZE % 512) &&& PTE_U)))
  rw [← hlook]
  have hlt : m.lookup r (va / PGSIZE) - (m.lookup r (va / PGSIZE) &&& PTE_U) < 2 ^ 64 :=
    lt_of_le_of_lt (Nat.sub_le _ _) (h.lookup_lt hv)
  refine hQ _ (h.setLeaf hq _ _) fun u hu => ?_
  have hset := h.lookup_setLeaf hv hq hlt hu
  split_ifs at hset ⊢ with huv
  · subst huv
    by_cases hval : m.lookup r (va / PGSIZE) &&& PTE_V = 0
    · rw [map_eq_none.mpr hval, map_eq_none.mpr (by rw [hset, clearU_and (by decide)]; exact hval)]
      rfl
    · rw [map_eq rfl hval, map_eq hset (by rw [clearU_and (by decide)]; exact hval), PTE2PA_clearU,
        PTE_FLAGS_clearU]
      rfl
  · exact map_congr hset

end Table

/-! ### The map -/

theorem Table.slot_of_walk (h : Table m r pos) (hva : va < MAXVA)
    (hw : (walk r va false).run () m = .ok (some (q, i)) m') :
    pos q = some (1, va / PGSIZE / 512) ∧ i = va / PGSIZE % 512 := by
  have hends : Ends (fun _ => False) () (walk r va false) m fun o _ =>
      ∀ q i, o = some (q, i) → pos q = some (1, va / PGSIZE / 512) ∧ i = va / PGSIZE % 512 := by
    refine h.ends_walk hva (fun _ => nofun) fun q hq _ q' i' he => ?_
    cases he
    exact ⟨hq, rfl⟩
  exact hends.of_run hw q i rfl

/-! ### Enough memory -/

/-- There are `k` pages left, and `kalloc` hands them out. -/
structure Ample (k : ℕ) (m : Kmem) : Prop where
  nofail : ∀ i < k, m.fail (m.calls + i) = false
  room : k ≤ m.freelist.length

instance : Decidable (Ample k m) :=
  decidable_of_iff ((∀ i < k, m.fail (m.calls + i) = false) ∧ k ≤ m.freelist.length)
    ⟨fun h => ⟨h.1, h.2⟩, fun h => ⟨h.1, h.2⟩⟩

theorem Ample.mono {l : ℕ} (h : Ample k m) (hl : l ≤ k) : Ample l m :=
  ⟨fun i hi => h.nofail i (by omega), hl.trans h.room⟩

theorem ample_kalloc (h : Ample (k + 1) m) :
    Ends allow () kalloc m fun o m' => o ≠ none ∧ Ample k m' := by
  rw [kalloc, Prog.atomic, ends_step]
  have hroom := h.room
  have hfail : m.fail m.calls = false := h.nofail 0 (Nat.succ_pos k)
  simp only [hfail]
  cases hl : m.freelist with
  | nil =>
    rw [hl] at hroom
    exact absurd hroom (by simp)
  | cons p ps =>
    rw [hl, List.length_cons] at hroom
    refine ⟨by simp, fun i hi => ?_, Nat.le_of_succ_le_succ hroom⟩
    have hnext := h.nofail (i + 1) (by omega)
    rwa [show m.calls + (i + 1) = m.calls + 1 + i by omega] at hnext

theorem ample_walkFrom (l : ℕ) : ∀ (pt : ℕ) (m : Kmem), Ample (k + l) m →
    Ends allow () (walkFrom true va l pt) m fun o m' => o ≠ none ∧ Ample k m' := by
  induction l with
  | zero => exact fun pt m h => ⟨nofun, h⟩
  | succ l ih =>
    intro pt m h
    rw [walkFrom]
    apply ends_look_bind.mpr
    split_ifs with hv hf
    · exact ih _ m (h.mono (by omega))
    · cases hf
    · refine Ends.bind (ample_kalloc (k := k + l) h) ?_
      rintro (_ | p) m1 ⟨hp, h1⟩
      · exact absurd rfl hp
      · apply ends_act_bind.mpr
        apply ends_act_bind.mpr
        exact ih p _ ⟨h1.nofail, h1.room⟩

theorem ample_walk (h : Ample (k + 2) m) (hva : va < MAXVA) :
    Ends (fun _ => True) () (walk r va true) m fun o m' => o ≠ none ∧ Ample k m' := by
  rw [walk, if_neg (by omega)]
  exact ample_walkFrom 2 r m h

theorem ample_mappages (h : Ample (k + 2) m) (hva : va < MAXVA) (hal : va % PGSIZE = 0) :
    Ends (fun _ => True) () (mappages r va PGSIZE p perm) m fun ok m' => ok = true ∧
      Ample k m' := by
  rw [mappages, if_neg (not_not.mpr hal), if_neg (by decide), if_neg (by decide),
    show PGSIZE / PGSIZE = 0 + 1 from rfl, mapFrom]
  refine Ends.bind (ample_walk h hva) ?_
  rintro (_ | ⟨q, i⟩) m1 ⟨hp, h1⟩
  · exact absurd rfl hp
  · apply ends_look_bind.mpr
    split_ifs
    · trivial
    · apply ends_act_bind.mpr
      exact ⟨rfl, h1.nofail, h1.room⟩

/-! ### The results -/

/-- **Page-table operations are operations on a map** from virtual pages to physical pages and
flags.  The map is what `walk` and `walkaddr` read.  `mappages` of one page adds one mapping, or
none if memory runs out, which two pages prevent; `uvmunmap` removes the mappings of the pages it
is given; `uvmclear` takes one page from the user; `walk` with `alloc` turns free pages into
page-table pages, and changes no mapping; and no two pages have one slot. -/
theorem table_refines_map (h : Table m r pos) (hva : va < MAXVA) (hal : va % PGSIZE = 0) :
    Ends (fun _ => False) () (walk r va false) m (fun o m' => m' = m ∧
      m.map r (va / PGSIZE) = o.bind fun e => if m.pte e.1 e.2 &&& PTE_V = 0 then none
        else some (PTE2PA (m.pte e.1 e.2), PTE_FLAGS (m.pte e.1 e.2))) ∧
    Ends (fun _ => False) () (walkaddr r va) m (fun o m' => m' = m ∧
      o = (m.map r (va / PGSIZE)).bind fun e => if e.2 &&& PTE_U = 0 then none else some e.1) ∧
    (∀ p perm, p < 2 ^ 44 → perm < 2 ^ 10 →
      Ends (fun msg => msg = "mappages: remap" ∧ m.map r (va / PGSIZE) ≠ none) ()
        (mappages r va PGSIZE p perm) m fun ok m' => (Ample 2 m → ok = true) ∧
          (∃ pos', Table m' r pos') ∧ ∀ u < MAXVA / PGSIZE, m'.map r u =
            if ok = true ∧ u = va / PGSIZE then some (p, perm ||| PTE_V) else m.map r u) ∧
    (∀ n do_free, va + n * PGSIZE ≤ MAXVA →
      (do_free = true → Table.Freeable K m r pos (va / PGSIZE) n) →
      Ends (fun _ => False) () (uvmunmap K r va n do_free) m fun _ m' => Table m' r pos ∧
        ∀ u < MAXVA / PGSIZE, m'.map r u =
          if va / PGSIZE ≤ u ∧ u < va / PGSIZE + n then none else m.map r u) ∧
    Ends (fun msg => msg = "uvmclear" ∧ m.map r (va / PGSIZE) = none) () (uvmclear r va) m
      (fun _ m' => Table m' r pos ∧ ∀ u < MAXVA / PGSIZE, m'.map r u =
        if u = va / PGSIZE then (m.map r u).map fun e => (e.1, e.2 - (e.2 &&& PTE_U))
        else m.map r u) ∧
    Ends (fun _ => False) () (walk r va true) m (fun o m' => (Ample 2 m → o ≠ none) ∧ ∃ pos',
      Table m' r pos' ∧ (∀ q, pos q ≠ none → pos' q = pos q) ∧
      (∀ q, pos q = none → pos' q ≠ none → q ∈ m.freelist) ∧
      (∀ q, q ∈ m'.freelist ↔ q ∈ m.freelist ∧ pos' q = none) ∧
      (∀ q, pos' q = none → q ∉ m.freelist → m'.mem q = m.mem q) ∧
      ∀ u < MAXVA / PGSIZE, m'.map r u = m.map r u) ∧
    ∀ va' < MAXVA, ∀ slot, (walk r va false).run () m = .ok (some slot) m →
      (walk r va' false).run () m = .ok (some slot) m → va' / PGSIZE = va / PGSIZE := by
  have hlt : ∀ {u}, u < MAXVA / PGSIZE → u < 512 ^ 3 := fun hu => lt_trans hu (by decide)
  refine ⟨h.ends_walk hva (fun h0 => ⟨rfl, ?_⟩) fun q _ hlook => ⟨rfl, ?_⟩, Table.ends_walkaddr hva,
    fun p perm hp hperm => ?_, fun n do_free hn hfr => ?_, ?_, ?_, fun va' hva' slot hw hw' => ?_⟩
  · rw [Table.map_eq_none.mpr (by rw [h0]; rfl)]
    rfl
  · rw [Kmem.map, hlook]
    rfl
  · -- `mappages`
    refine Ends.and_of (R := fun ok _ => ok = true) ?_ fun hA =>
      (ample_mappages (k := 0) hA hva hal).mono fun _ _ hok => hok.1
    refine h.ends_mappages hva hal hp hperm
      (fun hv => ⟨rfl, fun h0 => hv (Table.map_eq_none.mp h0)⟩)
      (fun m' pos' h' hg => ⟨⟨pos', h'⟩, fun u hu => ?_⟩)
      fun m' pos' h' hlook => ⟨⟨pos', h'⟩, fun u hu => ?_⟩
    · rw [if_neg (fun hc => absurd hc.1 nofun)]
      exact Table.map_congr (hg.lookup u (hlt hu))
    · have hl := hlook u (hlt hu)
      by_cases huv : u = va / PGSIZE
      · rw [if_pos huv] at hl
        rw [if_pos ⟨rfl, huv⟩, Table.map_eq hl (mkPte_valid p perm), PTE2PA_mkPte hperm,
          PTE_FLAGS_mkPte hperm]
      · rw [if_neg huv] at hl
        rw [if_neg fun hc => huv hc.2]
        exact Table.map_congr hl
  · -- `uvmunmap`, `uvmclear`, and `walk` with `alloc`
    rw [uvmunmap, if_neg (not_not.mpr hal)]
    exact Table.ends_unmapFrom n m va h hal hn hfr fun m' h' hm' => ⟨h', fun u hu => hm' u (hlt hu)⟩
  · exact h.ends_uvmclear hva (fun h0 => ⟨rfl, h0⟩) fun m' h' hm' =>
      ⟨h', fun u hu => hm' u (hlt hu)⟩
  · refine Ends.and_of (R := fun o _ => o ≠ none) ?_ fun hA =>
      (ample_walk (k := 0) hA hva).mono fun _ _ ho => ho.1
    refine h.ends_walk_alloc hva (fun m' pos' h' hg => ?_) fun m' pos' q h' hg _ => ?_
    all_goals exact ⟨pos', h', hg.keep, hg.new, hg.free, hg.mem,
      fun u hu => Table.map_congr (hg.lookup u (hlt hu))⟩
  · -- no two pages have one entry
    obtain ⟨q, i⟩ := slot
    obtain ⟨h1, h2⟩ := h.slot_of_walk hva hw
    obtain ⟨h3, h4⟩ := h.slot_of_walk hva' hw'
    exact Table.slot_unique h3 h1 (h4.symm.trans h2)

/-- A table without mappings, whose root is page 1, and two free pages. -/
def blank : Kmem := ⟨fun _ _ => 0, [2, 3], fun _ => false, 0, false⟩

theorem blank_pte (q i : ℕ) : blank.pte q i = 0 := blank.pte_zero rfl i

theorem blank_map (u : ℕ) : blank.map 1 u = none := by
  simp [Kmem.map, Kmem.lookup, Kmem.lookFrom, blank_pte]

theorem blank_table : Table blank 1 fun q => if q = 1 then some (3, 0) else none := by
  refine ⟨fun q x => ?_, fun q lv x hq => ?_, fun q lv x i _ _ hv => ?_, fun q lv x hq hlv => ?_,
    by decide, by decide⟩
  · by_cases hq : q = 1
    · simp [hq, eq_comm]
    · simp [hq]
  · split_ifs at hq
    cases hq
    decide
  · rw [blank_pte] at hv
    exact absurd rfl hv
  · split_ifs at hq
    cases hq
    omega

/-- The first page is mapped, and both free pages become page-table pages. -/
theorem table_refines_map_blank : Table blank 1 (fun q => if q = 1 then some (3, 0) else none) ∧
    Ample 2 blank ∧ ∃ m', (mappages 1 0 PGSIZE 7 PTE_R).run () blank = .ok true m' ∧
      (∃ pos', Table m' 1 pos') ∧
      ∀ u < MAXVA / PGSIZE, m'.map 1 u = if u = 0 then some (7, PTE_R ||| PTE_V) else none := by
  obtain ⟨m', hr⟩ : ∃ m', (mappages 1 0 PGSIZE 7 PTE_R).run () blank = .ok true m' := ⟨_, rfl⟩
  have hmap := (table_refines_map (K := ⟨KERNBASE + 1, KERNBASE, by decide, by decide, by decide⟩)
    blank_table (show 0 < MAXVA by decide) rfl).2.2.1 7 PTE_R (by decide) (by decide)
  obtain ⟨-, htab, hm⟩ := hmap.of_run hr
  refine ⟨blank_table, by decide, m', hr, htab, fun u hu => ?_⟩
  rw [hm u hu, blank_map]
  simp

end Xv6.Vm
