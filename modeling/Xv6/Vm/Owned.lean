import Xv6.Vm.Model
import Mathlib.Data.Set.Insert
import Mathlib.Tactic.SplitIfs

/-!
# Who owns a physical page

Ownership of physical pages is implicit in the source: a page is on the free
list, or some page-table entry points to it, or the kernel has a pointer to it.
Here it is a function: `own p` is the one place where page `p` is, and `Owned`
says that memory agrees.  A page of a table is named by the root of the table,
its height (`3` for the root, `1` for the pages of leaf entries, `0` for the
pages that leaves map) and its position at that height, so that entry `i` of the
node at `x` leads to position `512 * x + i` one level down.

While a page is being given back, the entry that led to it is stale for a
moment; `Owned` ignores the entries it is told to.

## Main definitions

* `Place`, `Owned` — the places a page can be in, and the invariant.

## Main results

* `Owned.node_unique` — a position of a table is one page.
* `Owned.retag`, `Owned.link`, `Owned.setEntry`, `Owned.release`, `Owned.newRoot` —
  what the code does to memory, one write at a time.
-/

namespace Xv6.Vm

open Function

/-! ### Page-table entries -/

/-- The bits that tell a leaf from a pointer to a lower page-table page. -/
abbrev RWX : ℕ := PTE_R ||| PTE_W ||| PTE_X

theorem or_V_valid (x : ℕ) : (x ||| PTE_V) &&& PTE_V ≠ 0 := by
  rw [Nat.and_comm, Nat.and_or_distrib_left]
  simp

theorem PA2PTE_and {p k : ℕ} (hk : k < 2 ^ 10) : PA2PTE p &&& k = 0 := by
  apply Nat.eq_of_testBit_eq
  intro i
  rw [Nat.testBit_and, PA2PTE, Nat.testBit_shiftLeft, Nat.zero_testBit]
  by_cases hi : 10 ≤ i
  · rw [Nat.testBit_lt_two_pow (lt_of_lt_of_le hk (Nat.pow_le_pow_right (by decide) hi))]
    simp
  · simp [hi]

theorem PTE2PA_mk {p f : ℕ} (hf : f < 2 ^ 10) : PTE2PA (PA2PTE p ||| f) = p := by
  rw [PTE2PA, PA2PTE, Nat.shiftRight_or_distrib, Nat.shiftLeft_shiftRight,
    Nat.shiftRight_eq_div_pow, Nat.div_eq_of_lt hf, Nat.or_zero]

theorem mk_lt {p f : ℕ} (hp : p < 2 ^ 44) (hf : f < 2 ^ 10) : PA2PTE p ||| f < 2 ^ 64 := by
  apply Nat.or_lt_two_pow
  · rw [PA2PTE, Nat.shiftLeft_eq]
    omega
  · omega

theorem perm_or_V_lt {f : ℕ} (hf : f < 2 ^ 10) : f ||| PTE_V < 2 ^ 10 :=
  Nat.or_lt_two_pow hf (by decide)

theorem mk_and_RWX (p f : ℕ) : (PA2PTE p ||| f) &&& RWX = f &&& RWX := by
  rw [Nat.and_or_distrib_right, PA2PTE_and (by decide), Nat.zero_or]

theorem clearU_mod (e : ℕ) : (e - (e &&& PTE_U)) % 2 ^ 4 = e % 2 ^ 4 := by
  rw [show PTE_U = 2 ^ 4 from rfl, Nat.and_two_pow]
  cases hb : e.testBit 4 with
  | false => simp
  | true =>
    have hge := Nat.ge_two_pow_of_testBit hb
    simp only [Bool.toNat_true, Nat.one_mul]
    omega

theorem clearU_and {e k : ℕ} (hk : k < 2 ^ 4) : (e - (e &&& PTE_U)) &&& k = e &&& k := by
  have hmask : ∀ x, x &&& k = x % 2 ^ 4 &&& k := by
    intro x
    apply Nat.eq_of_testBit_eq
    intro i
    rw [Nat.testBit_and, Nat.testBit_and, Nat.testBit_mod_two_pow]
    by_cases hi : i < 4
    · simp [hi]
    · rw [Nat.testBit_lt_two_pow
        (lt_of_lt_of_le hk (Nat.pow_le_pow_right (by decide) (not_lt.mp hi)))]
      simp
  rw [hmask, clearU_mod, ← hmask]

theorem PTE2PA_clearU (e : ℕ) : PTE2PA (e - (e &&& PTE_U)) = PTE2PA e := by
  rw [PTE2PA, PTE2PA, Nat.shiftRight_eq_div_pow, Nat.shiftRight_eq_div_pow,
    show PTE_U = 2 ^ 4 from rfl, Nat.and_two_pow]
  cases hb : e.testBit 4 with
  | false => simp
  | true =>
    have hbit : e / 2 ^ 4 % 2 = 1 := by
      rw [Nat.testBit_eq_decide_div_mod_eq] at hb
      exact of_decide_eq_true hb
    simp only [Bool.toNat_true, Nat.one_mul]
    omega

theorem PTE_FLAGS_lt (e : ℕ) : PTE_FLAGS e < 2 ^ 10 := Nat.mod_lt _ (by decide)

theorem PTE_FLAGS_and {e k : ℕ} (hk : k < 2 ^ 10) : PTE_FLAGS e &&& k = e &&& k := by
  apply Nat.eq_of_testBit_eq
  intro i
  rw [Nat.testBit_and, Nat.testBit_and, PTE_FLAGS, Nat.testBit_mod_two_pow]
  by_cases hi : i < 10
  · simp [hi]
  · rw [Nat.testBit_lt_two_pow
      (lt_of_lt_of_le hk (Nat.pow_le_pow_right (by decide) (not_lt.mp hi)))]
    simp

theorem PTE_FLAGS_clearU (e : ℕ) :
    PTE_FLAGS (e - (e &&& PTE_U)) = PTE_FLAGS e - (PTE_FLAGS e &&& PTE_U) := by
  have hk : PTE_FLAGS e &&& PTE_U = e &&& PTE_U := PTE_FLAGS_and (by decide)
  have hle : e &&& PTE_U ≤ PTE_FLAGS e := hk ▸ Nat.and_le_left
  rw [hk]
  unfold PTE_FLAGS at hle ⊢
  omega

/-! ### Entries in memory -/

namespace Kmem

variable (m : Kmem)

@[simp] theorem setPage_mem_self (p : ℕ) (b : Bytes.Mem) : (m.setPage p b).mem p = b := by
  simp [setPage]

theorem setPage_mem_of_ne {p q : ℕ} (b : Bytes.Mem) (h : q ≠ p) :
    (m.setPage p b).mem q = m.mem q := by
  simp [setPage, h]

theorem setPte_mem_of_ne {q p : ℕ} (i v : ℕ) (h : p ≠ q) : (m.setPte q i v).mem p = m.mem p :=
  setPage_mem_of_ne _ _ h

theorem pte_congr {m m' : Kmem} {q : ℕ} (h : m'.mem q = m.mem q) (i : ℕ) :
    m'.pte q i = m.pte q i := by
  rw [pte, pte, h]

theorem pte_setPte_self {q i v : ℕ} (hv : v < 2 ^ 64) : (m.setPte q i v).pte q i = v := by
  rw [pte, setPte, setPage_mem_self]
  exact Bytes.get_set_self (by simpa using hv)

theorem pte_setPte_of_ne {q i q' i' v : ℕ} (h : ¬ (q' = q ∧ i' = i)) :
    (m.setPte q i v).pte q' i' = m.pte q' i' := by
  obtain rfl | hq := eq_or_ne q' q
  · rw [pte, setPte, setPage_mem_self, pte]
    exact Bytes.get_set_of_disjoint (by have := fun hi => h ⟨rfl, hi⟩; omega)
  · exact pte_congr (setPte_mem_of_ne _ _ _ hq) i'

theorem pte_zero {q : ℕ} (h : m.mem q = fun _ => 0) (i : ℕ) : m.pte q i = 0 := by
  rw [pte, h]
  rfl

end Kmem

/-! ### Places -/

/-- Where a physical page is. -/
inductive Place where
  /-- Not a page of the allocator. -/
  | outside
  /-- On the free list. -/
  | free
  /-- The kernel has a pointer to it. -/
  | held
  /-- Part of the table with root `r`, at height `lv` and position `x`. -/
  | node (r lv x : ℕ)
  deriving DecidableEq

theorem Place.ne {own : ℕ → Place} {p q : ℕ} {a b : Place} (hp : own p = a) (hq : own q = b)
    (h : a ≠ b) : p ≠ q := by
  rintro rfl
  exact h (hp.symm.trans hq)

/-- The pages at the top of every user address space, which it does not own. -/
def Special (v : ℕ) : Prop := v = TRAMPOLINE / PGSIZE ∨ v = TRAPFRAME / PGSIZE

instance (v : ℕ) : Decidable (Special v) := inferInstanceAs (Decidable (_ ∨ _))

/-- What a valid entry `e` of a node leads to, at height `lv` and position `y`. -/
def Leads (own : ℕ → Place) (r lv y e : ℕ) : Prop :=
  if lv = 0 then e &&& RWX ≠ 0 ∧ (¬ Special y → own (PTE2PA e) = .node r 0 y)
  else e &&& RWX = 0 ∧ own (PTE2PA e) = .node r lv y

theorem Leads.update {own : ℕ → Place} {r lv y e p : ℕ} {pl : Place}
    (h : Leads own r lv y e) (hp : ∀ r lv x, own p ≠ .node r lv x) :
    Leads (Function.update own p pl) r lv y e := by
  unfold Leads at h ⊢
  have hne : ∀ {lv}, own (PTE2PA e) = .node r lv y →
      Function.update own p pl (PTE2PA e) = .node r lv y := by
    intro lv he
    rw [update_of_ne, he]
    rintro rfl
    exact hp _ _ _ he
  split_ifs at h ⊢ with hlv
  · exact ⟨h.1, fun hs => hne (h.2 hs)⟩
  · exact ⟨h.1, hne h.2⟩

/-- **Memory agrees with who owns what**, except for the stale entries. -/
structure Owned (K : Layout) (stale : Set (ℕ × ℕ)) (m : Kmem) (own : ℕ → Place) : Prop where
  range : ∀ p, own p ≠ .outside ↔ K.kend ≤ p ∧ p < PHYSTOP
  free : ∀ p, p ∈ m.freelist ↔ own p = .free
  nodup : m.freelist.Nodup
  once : m.refreed = false
  level : ∀ p r lv x, own p = .node r lv x → lv ≤ 3
  root : ∀ p r x, own p = .node r 3 x → p = r ∧ x = 0
  down : ∀ q r lv x i, own q = .node r (lv + 1) x → i < 512 → (q, i) ∉ stale →
    m.pte q i &&& PTE_V ≠ 0 → Leads own r lv (x * 512 + i) (m.pte q i)
  up : ∀ p r lv y, own p = .node r lv y → lv < 3 → ∃ q, own q = .node r (lv + 1) (y / 512) ∧
    m.pte q (y % 512) &&& PTE_V ≠ 0 ∧ PTE2PA (m.pte q (y % 512)) = p ∧ (lv = 0 → ¬ Special y)

namespace Owned

variable {K : Layout} {D : Set (ℕ × ℕ)} {m m' : Kmem} {own : ℕ → Place} {p q r lv x y i w : ℕ}

section

variable (h : Owned K D m own)

include h

theorem lt (hp : own p ≠ .outside) : p < 2 ^ 44 := by
  have h1 := ((h.range p).mp hp).2
  have h2 : PHYSTOP ≤ 2 ^ 44 := by decide
  omega

theorem node_unique (hp : own p = .node r lv x) (hq : own q = .node r lv x) : p = q := by
  obtain ⟨n, hn⟩ : ∃ n, n + lv = 3 := ⟨3 - lv, by have := h.level p r lv x hp; omega⟩
  induction n generalizing p q lv x with
  | zero =>
    obtain rfl : lv = 3 := by omega
    rw [(h.root p r x hp).1, (h.root q r x hq).1]
  | succ n ih =>
    obtain ⟨p', hp', -, hpe, -⟩ := h.up p r lv x hp (by omega)
    obtain ⟨q', hq', -, hqe, -⟩ := h.up q r lv x hq (by omega)
    rw [← hpe, ← hqe, ih hp' hq' (by omega)]

theorem mono {E : Set (ℕ × ℕ)} (hD : ∀ e ∈ D, e ∈ E) : Owned K E m own :=
  ⟨h.range, h.free, h.nodup, h.once, h.level, h.root,
    fun q r lv x i hq hi he => h.down q r lv x i hq hi fun hd => he (hD _ hd), h.up⟩

section

variable {pl : Place}

theorem range_update (hp : own p ≠ .outside) (hpl : pl ≠ .outside) (q : ℕ) :
    update own p pl q ≠ .outside ↔ K.kend ≤ q ∧ q < PHYSTOP := by
  obtain rfl | hqp := eq_or_ne q p
  · rw [update_self, ← h.range]
    exact iff_of_true hpl hp
  · rw [update_of_ne hqp, h.range]

theorem free_update (hp : own p ≠ .free) (hpl : pl ≠ .free) (q : ℕ) :
    q ∈ m.freelist ↔ update own p pl q = .free := by
  rw [h.free]
  obtain rfl | hqp := eq_or_ne q p
  · rw [update_self]
    exact iff_of_false hp hpl
  · rw [update_of_ne hqp]

theorem level_update (hpl : ∀ r lv x, pl = .node r lv x → lv ≤ 3) (q r lv x : ℕ)
    (hq : update own p pl q = .node r lv x) : lv ≤ 3 := by
  obtain rfl | hqp := eq_or_ne q p
  · rw [update_self] at hq
    exact hpl r lv x hq
  · rw [update_of_ne hqp] at hq
    exact h.level q r lv x hq

theorem root_update (hpl : ∀ r x, pl = .node r 3 x → p = r ∧ x = 0) (q r x : ℕ)
    (hq : update own p pl q = .node r 3 x) : q = r ∧ x = 0 := by
  obtain rfl | hqp := eq_or_ne q p
  · rw [update_self] at hq
    exact hpl r x hq
  · rw [update_of_ne hqp] at hq
    exact h.root q r x hq

end

/-- Changing the place of a page that is not in a table. -/
theorem retag {pl : Place} (hp : own p = .free ∨ own p = .held)
    (hpl : pl = .free ∨ pl = .held) (hmem : ∀ q, q ≠ p → m'.mem q = m.mem q)
    (hfree : ∀ q, q ∈ m'.freelist ↔ update own p pl q = .free)
    (hnodup : m'.freelist.Nodup) (honce : m'.refreed = m.refreed) :
    Owned K D m' (update own p pl) := by
  -- a page of a table is another one
  have hnode : ∀ {q r lv x}, update own p pl q = .node r lv x →
      q ≠ p ∧ own q = .node r lv x := by
    intro q r lv x hq
    obtain rfl | hqp := eq_or_ne q p
    · rw [update_self] at hq
      rcases hpl with rfl | rfl <;> cases hq
    · exact ⟨hqp, by rwa [update_of_ne hqp] at hq⟩
  have hto : ∀ {q r lv x}, own q = .node r lv x → update own p pl q = .node r lv x := by
    intro q r lv x hq
    have hqp : q ≠ p := by
      rintro rfl
      rcases hp with hp | hp <;> rw [hp] at hq <;> cases hq
    rwa [update_of_ne hqp]
  refine ⟨h.range_update (by rcases hp with hp | hp <;> simp [hp])
    (by rcases hpl with rfl | rfl <;> simp), hfree, hnodup, honce.trans h.once,
    fun q r lv x hq => h.level q r lv x (hnode hq).2, fun q r x hq => h.root q r x (hnode hq).2, ?_,
      ?_⟩
  · intro q r lv x i hq hi he hv
    obtain ⟨hqp, hq⟩ := hnode hq
    rw [Kmem.pte_congr (hmem q hqp)] at hv ⊢
    refine (h.down q r lv x i hq hi he hv).update fun r lv x hn => ?_
    rcases hp with hp | hp <;> rw [hp] at hn <;> cases hn
  · intro p' r lv y hp' hlv
    obtain ⟨q, hq, hv, hpa, hs⟩ := h.up p' r lv y (hnode hp').2 hlv
    refine ⟨q, hto hq, ?_⟩
    rw [Kmem.pte_congr (hmem q (hnode (hto hq)).1)]
    exact ⟨hv, hpa, hs⟩

/-- Writing an entry that leads where the owner of that place is. -/
theorem setEntry (hq : own q = .node r (lv + 1) x) (hw : w < 2 ^ 64)
    (hi : i < 512) (hdown : w &&& PTE_V ≠ 0 → Leads own r lv (x * 512 + i) w)
    (hup : ∀ p, own p = .node r lv (x * 512 + i) → w &&& PTE_V ≠ 0 ∧ PTE2PA w = p) :
    Owned K (D \ {(q, i)}) (m.setPte q i w) own := by
  refine ⟨h.range, h.free, h.nodup, h.once, h.level, h.root, ?_, ?_⟩
  · intro q' r' lv' x' i' hq' hi' he hv
    by_cases hqi : q' = q ∧ i' = i
    · obtain ⟨rfl, rfl⟩ := hqi
      rw [Kmem.pte_setPte_self _ hw] at hv ⊢
      rw [hq] at hq'
      cases hq'
      exact hdown hv
    · rw [Kmem.pte_setPte_of_ne _ hqi] at hv ⊢
      refine h.down q' r' lv' x' i' hq' hi' (fun hd => he ⟨hd, ?_⟩) hv
      rintro hc
      rw [Set.mem_singleton_iff, Prod.mk.injEq] at hc
      exact hqi hc
  · intro p' r' lv' y hp' hlv'
    obtain ⟨q', hq', hv, hpa, hs⟩ := h.up p' r' lv' y hp' hlv'
    refine ⟨q', hq', ?_⟩
    by_cases hqi : q' = q ∧ y % 512 = i
    · obtain ⟨rfl, rfl⟩ := hqi
      rw [hq] at hq'
      cases hq'
      rw [Nat.div_add_mod' y 512] at hup
      rw [Kmem.pte_setPte_self _ hw]
      exact ⟨(hup p' hp').1, (hup p' hp').2, hs⟩
    · rw [Kmem.pte_setPte_of_ne _ hqi]
      exact ⟨hv, hpa, hs⟩

/-- Entry `i` of the node `q` is made to lead to a page the kernel has in hand. -/
theorem link (hq : own q = .node r (lv + 1) x) (hi : i < 512)
    (hinv : m.pte q i &&& PTE_V = 0) (hp : own p = .held) (hw : w < 2 ^ 64)
    (hv : w &&& PTE_V ≠ 0) (hpa : PTE2PA w = p)
    (hlv : if lv = 0 then w &&& RWX ≠ 0 ∧ ¬ Special (x * 512 + i)
      else w &&& RWX = 0 ∧ ∀ j < 512, m.pte p j &&& PTE_V = 0) :
    Owned K D (m.setPte q i w) (update own p (.node r lv (x * 512 + i))) := by
  have hqp : q ≠ p := Place.ne hq hp nofun
  have hlv3 := h.level q r (lv + 1) x hq
  have hnn : ∀ r lv x, own p ≠ .node r lv x := fun _ _ _ hn => by rw [hp] at hn; cases hn
  have hne : ∀ {q' r' lv' x'}, own q' = .node r' lv' x' → q' ≠ p := by
    rintro q' r' lv' x' hq' rfl
    exact hnn _ _ _ hq'
  refine ⟨h.range_update (by simp [hp]) (by simp), h.free_update (by simp [hp]) (by simp), h.nodup,
    h.once, h.level_update fun _ _ _ he => by cases he; omega,
    h.root_update fun _ _ he => by cases he; omega, ?_, ?_⟩
  · intro q' r' lv' x' i' hq' hi' he hv'
    by_cases hqq : q' = p
    · -- the new node has no valid entry
      subst hqq
      rw [update_self] at hq'
      cases hq'
      rw [if_neg (Nat.succ_ne_zero _)] at hlv
      rw [Kmem.pte_setPte_of_ne _ (fun hc => hqp hc.1.symm)] at hv'
      exact absurd (hlv.2 i' hi') hv'
    · rw [update_of_ne hqq] at hq'
      by_cases hqi : q' = q ∧ i' = i
      · obtain ⟨rfl, rfl⟩ := hqi
        rw [hq] at hq'
        cases hq'
        rw [Kmem.pte_setPte_self _ hw]
        unfold Leads
        rw [hpa, update_self]
        split_ifs at hlv ⊢ with h0
        · exact ⟨hlv.1, fun _ => by rw [h0]⟩
        · exact ⟨hlv.1, rfl⟩
      · rw [Kmem.pte_setPte_of_ne _ hqi] at hv' ⊢
        exact (h.down q' r' lv' x' i' hq' hi' he hv').update hnn
  · intro p' r' lv' y' hp' hlv'
    obtain rfl | hpp := eq_or_ne p' p
    · rw [update_self] at hp'
      cases hp'
      rw [show (x * 512 + i) / 512 = x by omega, show (x * 512 + i) % 512 = i by omega]
      refine ⟨q, by rwa [update_of_ne hqp], ?_⟩
      rw [Kmem.pte_setPte_self _ hw]
      refine ⟨hv, hpa, fun h0 => ?_⟩
      rw [if_pos h0] at hlv
      exact hlv.2
    · rw [update_of_ne hpp] at hp'
      obtain ⟨q', hq', hv', hpa', hs⟩ := h.up p' r' lv' y' hp' hlv'
      refine ⟨q', by rwa [update_of_ne (hne hq')], ?_⟩
      rw [Kmem.pte_setPte_of_ne _ ?_]
      · exact ⟨hv', hpa', hs⟩
      · rintro ⟨rfl, rfl⟩
        exact hv' hinv

/-- A page of a table is taken out of it: the entry that leads to it is stale, and
it has no valid entries itself. -/
theorem release (hp : own p = .node r lv y)
    (hstale : lv < 3 → ∀ q, own q = .node r (lv + 1) (y / 512) → (q, y % 512) ∈ D)
    (hempty : 0 < lv → ∀ j < 512, m.pte p j &&& PTE_V = 0) : Owned K D m (update own p .held) := by
  have hnode : ∀ {q r lv x}, update own p .held q = .node r lv x →
      q ≠ p ∧ own q = .node r lv x := by
    intro q r lv x hq
    obtain rfl | hqp := eq_or_ne q p
    · rw [update_self] at hq
      cases hq
    · exact ⟨hqp, by rwa [update_of_ne hqp] at hq⟩
  refine ⟨h.range_update (by simp [hp]) (by simp), h.free_update (by simp [hp]) (by simp), h.nodup,
    h.once, h.level_update (by simp), h.root_update (by simp), ?_, ?_⟩
  · intro q' r' lv' x' i' hq' hi' he hv'
    obtain ⟨hqp, hq'⟩ := hnode hq'
    have hl := h.down q' r' lv' x' i' hq' hi' he hv'
    -- an entry that is not stale does not lead to the page
    have hne : own (PTE2PA (m.pte q' i')) = .node r' lv' (x' * 512 + i') →
        PTE2PA (m.pte q' i') ≠ p := by
      intro hc hcp
      rw [hcp, hp] at hc
      cases hc
      have hlv3 := h.level q' r (lv + 1) x' hq'
      refine he ?_
      have := hstale (by omega) q' (by rwa [show (x' * 512 + i') / 512 = x' by omega])
      rwa [show (x' * 512 + i') % 512 = i' by omega] at this
    unfold Leads at hl ⊢
    split_ifs at hl ⊢ with h0
    · subst h0
      exact ⟨hl.1, fun hs => by rw [update_of_ne (hne (hl.2 hs)), hl.2 hs]⟩
    · exact ⟨hl.1, by rw [update_of_ne (hne hl.2), hl.2]⟩
  · intro p' r' lv' y' hp' hlv'
    obtain ⟨hpp, hp'⟩ := hnode hp'
    obtain ⟨q', hq', hv', hpa', hs⟩ := h.up p' r' lv' y' hp' hlv'
    refine ⟨q', ?_, hv', hpa', hs⟩
    rw [update_of_ne, hq']
    rintro rfl
    rw [hp] at hq'
    cases hq'
    exact hv' (hempty (by omega) _ (Nat.mod_lt _ (by decide)))

/-- A page of zeros becomes the root of an empty table. -/
theorem newRoot (hp : own p = .held) (hempty : ∀ j < 512, m.pte p j &&& PTE_V = 0) :
    Owned K D m (update own p (.node p 3 0)) := by
  have hnn : ∀ r lv x, own p ≠ .node r lv x := fun _ _ _ hn => by rw [hp] at hn; cases hn
  refine ⟨h.range_update (by simp [hp]) (by simp), h.free_update (by simp [hp]) (by simp), h.nodup,
    h.once, h.level_update fun _ _ _ he => by cases he; exact le_rfl,
    h.root_update fun _ _ he => by cases he; exact ⟨rfl, rfl⟩, ?_, ?_⟩
  · intro q' r' lv' x' i' hq' hi' he hv'
    obtain rfl | hqq := eq_or_ne q' p
    · exact absurd (hempty i' hi') hv'
    · rw [update_of_ne hqq] at hq'
      exact (h.down q' r' lv' x' i' hq' hi' he hv').update hnn
  · intro p' r' lv' y' hp' hlv'
    have hpp : p' ≠ p := by
      rintro rfl
      rw [update_self] at hp'
      cases hp'
      omega
    rw [update_of_ne hpp] at hp'
    obtain ⟨q', hq', hv', hpa', hs⟩ := h.up p' r' lv' y' hp' hlv'
    refine ⟨q', ?_, hv', hpa', hs⟩
    rw [update_of_ne, hq']
    rintro rfl
    exact hnn _ _ _ hq'

end

end Owned

end Xv6.Vm
