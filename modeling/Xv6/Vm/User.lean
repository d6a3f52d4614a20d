import Xv6.Vm.Ops
import Mathlib.Data.Finset.Card
import Mathlib.Order.Interval.Finset.Nat

/-!
# User address spaces

A process's table maps pages below its size, and at the top of the address space
the trampoline and its trapframe, which the address space does not own
(`Space`).  The functions that grow, shrink, copy, fault in, read and write user
memory keep this, whatever the allocator does, and touch free pages and pages of
that table only.

A table cannot fill up to the trapframe: each page below is a different one of
the machine's pages, and there are not that many (`Owned.card_leaves`).  This is
what bounds `exec`, which gives `uvmalloc` whatever sizes the file asks for.

## Main definitions

* `pages` — how many pages a size takes.
* `Space` — the table of a process of some size.

## Main results

* `ends_uvmalloc`, `ends_uvmdealloc` — the operations on a process's memory keep `Space`.
* `ends_uvmcopy` — `uvmcopy` makes equal pages with equal flags, or none.
-/

namespace Xv6.Vm

open Conc Function

variable {K : Layout} {allow : String → Prop} {m m' : Kmem} {own own' : ℕ → Place}
  {p q r v va sz n tr tf perm : ℕ}

/-! ### Sizes and pages -/

/-- How many pages a size takes. -/
def pages (sz : ℕ) : ℕ := (sz + PGSIZE - 1) / PGSIZE

theorem pages_eq (sz : ℕ) : pages sz = (sz + 4095) / 4096 := by
  show (sz + 4096 - 1) / 4096 = _
  omega

theorem TRAPFRAME_eq : TRAPFRAME = (2 ^ 26 - 2) * 4096 := by decide

theorem special_iff : Special v ↔ v = 2 ^ 26 - 1 ∨ v = 2 ^ 26 - 2 := by
  unfold Special
  rw [show TRAMPOLINE / PGSIZE = 2 ^ 26 - 1 by decide,
    show TRAPFRAME / PGSIZE = 2 ^ 26 - 2 by decide]

theorem not_special (hv : v < 2 ^ 26 - 2) : ¬ Special v := by
  rw [special_iff]
  omega

theorem pages_le (hsz : sz ≤ TRAPFRAME) : pages sz ≤ 2 ^ 26 - 2 := by
  rw [TRAPFRAME_eq] at hsz
  rw [pages_eq]
  omega

theorem pages_mono {sz sz' : ℕ} (h : sz ≤ sz') : pages sz ≤ pages sz' := by
  rw [pages_eq, pages_eq]
  omega

theorem le_of_pages_le (h : pages sz ≤ 2 ^ 26 - 2) : sz ≤ TRAPFRAME := by
  rw [TRAPFRAME_eq]
  rw [pages_eq] at h
  omega

theorem PGROUNDUP_eq (hsz : sz < 2 ^ 63) : PGROUNDUP sz = pages sz * PGSIZE := by
  rw [PGROUNDUP, pages, Nat.mod_eq_of_lt]
  show sz + 4096 - 1 < 2 ^ 64
  omega

@[simp] theorem pages_mul (v : ℕ) : pages (v * PGSIZE) = v := by
  show (v * 4096 + 4096 - 1) / 4096 = v
  omega

@[simp] theorem mul_PGSIZE_div (v : ℕ) : v * PGSIZE / PGSIZE = v := Nat.mul_div_cancel v (by decide)

theorem PGROUNDDOWN_eq (va : ℕ) : PGROUNDDOWN va = va / PGSIZE * PGSIZE := rfl

theorem div_lt_pages (h : va < sz) : va / PGSIZE < pages sz := by
  show va / 4096 < (sz + 4096 - 1) / 4096
  omega

theorem mul_PGSIZE_lt (hv : v < 2 ^ 26) : v * PGSIZE < MAXVA := by
  show v * 4096 < 2 ^ 38
  omega

theorem lt_512 (hv : v < 2 ^ 26) : v < 512 ^ 3 := by omega

/-! ### Address spaces -/

/-- The table `r` of a process whose memory takes `n` pages, with the trampoline
page `tr` and the trapframe page `tf`. -/
structure Space (m : Kmem) (own : ℕ → Place) (r n tr tf : ℕ) : Prop where
  root : own r = .node r 3 0
  bound : ∀ v < 512 ^ 3, m.lookup r v &&& PTE_V ≠ 0 → v < n ∨ Special v
  trampoline : m.lookup r (2 ^ 26 - 1) = mkPte tr (PTE_R ||| PTE_X)
  trapframe : m.lookup r (2 ^ 26 - 2) = mkPte tf (PTE_R ||| PTE_W)

namespace Space

theorem unmapped (h : Space m own r n tr tf) (hn : n ≤ v) (hv : v < 2 ^ 26 - 2) :
    m.lookup r v &&& PTE_V = 0 := by
  by_contra hc
  rcases h.bound v (by omega) hc with hlt | hs
  · omega
  · exact not_special hv hs

theorem mkPte_and_U {perm : ℕ} (hperm : perm &&& PTE_U = 0) : mkPte p perm &&& PTE_U = 0 := by
  rw [mkPte_eq, Nat.and_or_distrib_right, PA2PTE_and (by decide), Nat.zero_or,
    Nat.and_or_distrib_right, hperm]
  rfl

theorem special_U (h : Space m own r n tr tf) (hs : Special v) : m.lookup r v &&& PTE_U = 0 := by
  rcases special_iff.mp hs with rfl | rfl
  · rw [h.trampoline]
    exact mkPte_and_U rfl
  · rw [h.trapframe]
    exact mkPte_and_U rfl

theorem edit {P : ℕ → Prop} {n' : ℕ} (h : Space m own r n tr tf) (he : Edit r P m own m' own')
    (hP : ∀ v, P v → v < 2 ^ 26 - 2)
    (hn : ∀ v < 512 ^ 3, ¬ Special v → m'.lookup r v &&& PTE_V ≠ 0 → v < n') :
    Space m' own' r n' tr tf := by
  refine ⟨he.root, fun v hv hval => ?_, ?_, ?_⟩
  · by_cases hs : Special v
    · exact Or.inr hs
    · exact Or.inl (hn v hv hs hval)
  · rw [he.other _ (by decide) fun hc => absurd (hP _ hc) (by decide), h.trampoline]
  · rw [he.other _ (by decide) fun hc => absurd (hP _ hc) (by decide), h.trapframe]

theorem of_lookup (h : Space m own r n tr tf) (hr : own' r = .node r 3 0)
    (hlk : ∀ v < 512 ^ 3, m'.lookup r v = m.lookup r v) : Space m' own' r n tr tf := by
  refine ⟨hr, fun v hv hval => ?_, ?_, ?_⟩
  · rw [hlk v hv] at hval
    exact h.bound v hv hval
  · rw [hlk _ (by decide), h.trampoline]
  · rw [hlk _ (by decide), h.trapframe]

theorem mono {n' : ℕ} (h : Space m own r n tr tf) (hn : n ≤ n') : Space m own r n' tr tf :=
  ⟨h.root, fun v hv hval => (h.bound v hv hval).imp_left fun hc => lt_of_lt_of_le hc hn,
    h.trampoline, h.trapframe⟩

end Space

/-- **A table cannot fill up**: pages that are mapped are different pages of the machine. -/
theorem Owned.card_leaves (h : Owned K ∅ m own) (hr : own r = .node r 3 0) (hn : n ≤ 2 ^ 26 - 2)
    (hall : ∀ v < n, m.lookup r v &&& PTE_V ≠ 0) : n ≤ PHYSTOP := by
  have hleaf : ∀ v < n, own (PTE2PA (m.lookup r v)) = .node r 0 v := fun v hv =>
    (h.leaf_of_lookup hr (by omega) (hall v hv)).2 (not_special (by omega))
  have hcard := Finset.card_le_card_of_injOn (s := Finset.range n) (t := Finset.range PHYSTOP)
    (fun v => PTE2PA (m.lookup r v)) ?_ ?_
  · simpa only [Finset.card_range] using hcard
  · intro v hv
    have hin := (h.range (PTE2PA (m.lookup r v))).mp (by
      rw [hleaf v (by simpa using hv)]
      exact Place.noConfusion)
    simpa using hin.2
  · intro v hv w hw he
    have hv' := hleaf v (by simpa using hv)
    have hw' := hleaf w (by simpa using hw)
    have he : PTE2PA (m.lookup r v) = PTE2PA (m.lookup r w) := he
    rw [he, hw'] at hv'
    injection hv' with _ _ hvw
    exact hvw.symm

/-! ### Taking a page and mapping it -/

theorem update_node_iff {pl : Place} {lv x : ℕ} (hp : ∀ r lv x, own p ≠ .node r lv x)
    (hpl : ∀ r lv x, pl ≠ .node r lv x) :
    update own p pl q = .node r lv x ↔ own q = .node r lv x := by
  obtain rfl | hq := eq_or_ne q p
  · rw [update_self]
    exact iff_of_false (hpl r lv x) (hp r lv x)
  · rw [update_of_ne hq]

theorem free_not_node (hp : own p = .free) (r lv x : ℕ) : own p ≠ .node r lv x := by
  rw [hp]
  exact Place.noConfusion

theorem held_not_node (hp : own p = .held) (r lv x : ℕ) : own p ≠ .node r lv x := by
  rw [hp]
  exact Place.noConfusion

theorem Owned.lookup_retag (h : Owned K ∅ m own) (h' : Owned K ∅ m' own')
    (hr : own r = .node r 3 0) (hnode : ∀ q lv x, own' q = .node r lv x ↔ own q = .node r lv x)
    (hmem : ∀ q x, own q = .node r 1 x → m'.mem q = m.mem q) (hv : v < 512 ^ 3) :
    m'.lookup r v = m.lookup r v :=
  h.lookup_congr h' hr ((hnode _ _ _).mpr hr) hv
    (fun q hq => ⟨(hnode _ _ _).mpr hq, Kmem.pte_congr (hmem q _ hq) _⟩)
    fun _ hq => Or.inl ((hnode _ _ _).mp hq)

theorem frame_taken (hm : ∀ q, q ≠ p → m'.mem q = m.mem q) :
    Frame r {p} m own m' (update own p .held) :=
  Frame.of_update (Or.inr rfl) (Or.inr rfl) fun q hq _ => hm q hq

section MapNew

variable {m1 : Kmem} (h : Owned K ∅ m own) (hr : own r = .node r 3 0) (hp : own p = .free)
  (h₁ : Owned K ∅ m1 (Function.update own p .held)) (hm1 : ∀ q, q ≠ p → m1.mem q = m.mem q)
include h hr hp h₁ hm1

theorem lookup_taken (hv : v < 512 ^ 3) : m1.lookup r v = m.lookup r v := by
  have hnode : ∀ q lv x, update own p .held q = .node r lv x ↔ own q = .node r lv x :=
    fun _ _ _ => update_node_iff (free_not_node hp) fun _ _ _ => Place.noConfusion
  refine h.lookup_retag h₁ hr hnode (fun q x hq => hm1 q ?_) hv
  rintro rfl
  exact free_not_node hp _ _ _ hq

theorem Mapped.edit (hs : ¬ Special v) (hM : Mapped r v p perm m1 (update own p .held) m' own') :
    Edit r (· = v) m own m' own' := by
  have hpage := hM.page
  rw [if_neg hs] at hpage
  have hfr := (frame_taken hm1).trans hM.frame
  rw [← insert_empty_eq p] at hfr
  refine ⟨hfr.discharge (by rw [hp]; trivial) (by rw [hpage]; rfl), hM.root, ?_, ?_⟩
  · intro q y hq _
    have hqp : q ≠ p := by
      rintro rfl
      exact free_not_node hp _ _ _ hq
    obtain ⟨h1, h2⟩ := hM.data q y (by rw [update_of_ne hqp, hq])
    exact ⟨h1, h2.trans (hm1 q hqp)⟩
  · intro u hu huv
    rw [hM.lookup u hu, if_neg huv, lookup_taken h hr hp h₁ hm1 hu]

omit h hr hp h₁ hm1 in
theorem Mapped.edit_special (hs : Special v) (hM : Mapped r v p perm m own m' own') :
    Edit r (· = v) m own m' own' := by
  have hpage := hM.page
  rw [if_pos hs] at hpage
  refine ⟨hM.frame.of_same hpage hM.mem, hM.root, fun q y hq _ => hM.data q y hq, ?_⟩
  intro u hu huv
  rw [hM.lookup u hu, if_neg huv]

/-- There was no memory to map a page that was free, and it has been given back. -/
theorem Grown.edit {m2 : Kmem} {own2 : ℕ → Place}
    (hg : Grown r m1 (update own p .held) m2 own2) (h2 : Owned K ∅ m2 own2)
    (h' : Owned K ∅ m' (update own2 p .free)) (hm' : ∀ q, q ≠ p → m'.mem q = m2.mem q) :
    Edit r (fun _ => False) m own m' (update own2 p .free) := by
  have hp2 : own2 p = .held := hg.frame.held_iff.mpr (update_self _ _ _)
  have hr2 : own2 r = .node r 3 0 := by
    refine hg.nodes r 3 0 ?_
    rwa [update_node_iff (free_not_node hp) fun _ _ _ => Place.noConfusion]
  have hnode : ∀ q lv x, update own2 p .free q = .node r lv x ↔ own2 q = .node r lv x :=
    fun _ _ _ => update_node_iff (held_not_node hp2) fun _ _ _ => Place.noConfusion
  have hne : ∀ {q lv x}, own2 q = .node r lv x → q ≠ p := by
    rintro q lv x hq rfl
    exact held_not_node hp2 _ _ _ hq
  have hback : Frame r {p} m2 own2 m' (update own2 p .free) :=
    Frame.of_update (Or.inr rfl) (Or.inr rfl) fun q hq _ => hm' q hq
  have hfr := ((frame_taken hm1).trans (hg.frame.mono (by simp))).trans hback
  rw [← insert_empty_eq p] at hfr
  refine ⟨hfr.discharge (by rw [hp]; trivial) (by rw [update_self]; trivial),
    (hnode _ _ _).mpr hr2, ?_, ?_⟩
  · intro q y hq _
    have hqp : q ≠ p := by
      rintro rfl
      exact free_not_node hp _ _ _ hq
    have hq1 : update own p .held q = .node r 0 y := by rw [update_of_ne hqp, hq]
    refine ⟨(hnode _ _ _).mpr (hg.nodes q 0 y hq1), ?_⟩
    rw [hm' q hqp, hg.data q y hq1, hm1 q hqp]
  · intro u hu _
    rw [h2.lookup_retag h' hr2 hnode (fun q x hq => hm' q (hne hq)) hu, hg.lookup u hu,
      lookup_taken h hr hp h₁ hm1 hu]

/-- **A page in hand is mapped, or given back** when there is no memory for
page-table pages. -/
theorem ends_mapNew {α : Type} {A B : VmM α} {Q : α → Kmem → Prop} (hv : v < 2 ^ 26)
    (hs : Special v → m.lookup r v &&& PTE_V ≠ 0) (hperm : perm < 2 ^ 10) (hrwx : perm &&& RWX ≠ 0)
    (hremap : m.lookup r v &&& PTE_V ≠ 0 → allow "mappages: remap")
    (hfail : ∀ m' own', Owned K ∅ m' own' → Edit r (fun _ => False) m own m' own' →
      Ends allow () B m' Q)
    (hok : ∀ m' own', m.lookup r v &&& PTE_V = 0 → Owned K ∅ m' own' →
      Edit r (· = v) m own m' own' →
      m'.lookup r v = mkPte p perm → m'.mem p = m1.mem p → own' p = .node r 0 v →
      Ends allow () A m' Q) :
    Ends allow () (do
      if ← mappages r (v * PGSIZE) PGSIZE p perm then A
      else do
        kfree K p
        B) m1 Q := by
  have hv' := lt_512 hv
  have hr1 : update own p .held r = .node r 3 0 := by
    rwa [update_node_iff (free_not_node hp) fun _ _ _ => Place.noConfusion]
  have hlook := lookup_taken h hr hp h₁ hm1 hv'
  have hmap : Mappable (update own p .held) r v p := by
    unfold Mappable
    split_ifs with hsp
    · rw [update_self]
      exact ⟨id, h.lt (by rw [hp]; exact Place.noConfusion)⟩
    · rw [update_self]
  refine Ends.seq (ends_mappages h₁ hr1 (Nat.mul_mod_left _ _) (mul_PGSIZE_lt hv)
    (by rwa [mul_PGSIZE_div]) hperm hrwx ?_ (fun m2 own2 h2 hg => ?_) fun m2 own2 hinv h2 hM => ?_)
  · rwa [mul_PGSIZE_div, hlook]
  · -- no memory: the page goes back
    have hp2 : own2 p = .held := hg.frame.held_iff.mpr (update_self _ _ _)
    exact Ends.seq (ends_kfree h2 hp2 fun m3 h3 hm3 =>
      hfail m3 _ h3 (Grown.edit h hr hp h₁ hm1 hg h2 h3 hm3))
  · rw [mul_PGSIZE_div] at hM hinv
    rw [hlook] at hinv
    have hns : ¬ Special v := fun hc => hs hc hinv
    have hpage := hM.page
    rw [if_neg hns] at hpage
    have hlv := hM.lookup v hv'
    rw [if_pos rfl] at hlv
    exact hok m2 own2 hinv h2 (Mapped.edit h hr hp h₁ hm1 hns hM) hlv hM.mem hpage

end MapNew

/-! ### Growing and shrinking -/

variable {Q : ℕ → Kmem → Prop}

theorem viaInt_of_lt {n : ℕ} (h : n < 2 ^ 31) : viaInt n = n := by
  rw [viaInt, Nat.mod_eq_of_lt (by omega), if_pos h]

/-- `uvmdealloc` removes the mappings between two sizes. -/
theorem ends_uvmdealloc {oldsz newsz : ℕ} (h : Owned K ∅ m own) (hr : own r = .node r 3 0)
    (ho : oldsz ≤ TRAPFRAME) (hsame : oldsz ≤ newsz → Q oldsz m)
    (hQ : ∀ m' own', newsz < oldsz → Owned K ∅ m' own' →
      Unmapped r (fun u => pages newsz ≤ u ∧ u < pages oldsz) m own m' own' → Q newsz m') :
    Ends allow () (uvmdealloc K r oldsz newsz) m Q := by
  rw [uvmdealloc]
  by_cases hle : newsz ≥ oldsz
  · rw [if_pos hle, ends_pure]
    exact hsame hle
  rw [if_neg hle]
  have hT := TRAPFRAME_eq
  rw [PGROUNDUP_eq (by omega), PGROUNDUP_eq (by omega)]
  have hmono : pages newsz ≤ pages oldsz := pages_mono (by omega)
  have hmax := pages_le ho
  by_cases hlt : pages newsz * PGSIZE < pages oldsz * PGSIZE
  · rw [if_pos hlt, ← Nat.sub_mul, mul_PGSIZE_div, viaInt_of_lt (by omega)]
    refine Ends.seq (ends_uvmunmap h hr ?_ ?_ fun m' own' h' hu => ?_)
    · show _ ≤ 2 ^ 38 / 4096
      omega
    · intro u _ hu
      exact iff_of_true rfl (not_special (by omega))
    · exact hQ m' own' (by omega) h' (hu.congr fun u => by omega)
  · rw [if_neg hlt, ends_pure]
    have heq : pages oldsz ≤ pages newsz := Nat.le_of_mul_le_mul_right (not_lt.mp hlt) (by decide)
    exact hQ m own (by omega) h (Unmapped.none hr fun u _ hu => by omega)

/-- What `uvmalloc` has mapped, from page `v0` on. -/
def Filled (m : Kmem) (r v0 v perm : ℕ) : Prop :=
  ∀ u, v0 ≤ u → u < v → ∃ p, m.lookup r u = mkPte p perm

/-- The pages it has mapped are zero. -/
def Zeroed (m : Kmem) (r v0 v : ℕ) : Prop :=
  ∀ u, v0 ≤ u → u < v → m.mem (PTE2PA (m.lookup r u)) = fun _ => 0

/-- Why the loop of `uvmalloc` does not reach the trapframe, if it does not: the
table would be full.  If it does, `mappages` finds it mapped. -/
def Reaches (allow : String → Prop) (m : Kmem) (r v0 : ℕ) : Prop :=
  (∀ u < v0, m.lookup r u &&& PTE_V ≠ 0) ∨ allow "mappages: remap"

/-- The loop of `uvmalloc`, at page `v`. -/
theorem ends_allocFrom {m0 : Kmem} {own0 : ℕ → Place} {v0 newsz xperm : ℕ}
    (hS : Space m0 own0 r v0 tr tf) (hx : xperm < 2 ^ 10)
    (hreach : pages newsz ≤ 2 ^ 26 - 2 ∨ Reaches allow m0 r v0)
    (hfail : ∀ m' own', Owned K ∅ m' own' →
      Unmapped r (fun u => v0 ≤ u ∧ u < 2 ^ 26 - 2) m0 own0 m' own' → Q 0 m')
    (hok : ∀ m' own', pages newsz ≤ 2 ^ 26 - 2 → Owned K ∅ m' own' →
      Edit r (fun u => v0 ≤ u ∧ u < pages newsz) m0 own0 m' own' →
      Filled m' r v0 (pages newsz) (PTE_R ||| PTE_U ||| xperm) → Zeroed m' r v0 (pages newsz) →
      Q newsz m') (n : ℕ) :
    ∀ (v : ℕ) (m : Kmem) (own : ℕ → Place), v + n = pages newsz → v0 ≤ v → v ≤ 2 ^ 26 - 2 →
    Owned K ∅ m own → Edit r (fun u => v0 ≤ u ∧ u < v) m0 own0 m own →
    Filled m r v0 v (PTE_R ||| PTE_U ||| xperm) → Zeroed m r v0 v →
    Ends allow () (allocFrom K r (v0 * PGSIZE) newsz xperm n (v * PGSIZE)) m Q := by
  have hperm : PTE_R ||| PTE_U ||| xperm < 2 ^ 10 := Nat.or_lt_two_pow (by decide) hx
  have hrwx : (PTE_R ||| PTE_U ||| xperm) &&& RWX ≠ 0 := by
    rw [Nat.and_or_distrib_right, Nat.and_or_distrib_right]
    intro hc
    have := (Nat.or_eq_zero_iff.mp (Nat.or_eq_zero_iff.mp hc).1).1
    exact absurd this (by decide)
  -- what was mapped so far is given back
  have hundo : ∀ {v : ℕ} {m : Kmem} {own : ℕ → Place}, v0 ≤ v → v ≤ 2 ^ 26 - 2 → Owned K ∅ m own →
      Edit r (fun u => v0 ≤ u ∧ u < v) m0 own0 m own →
      Ends allow () (do let _ ← uvmdealloc K r (v * PGSIZE) (v0 * PGSIZE); pure 0) m Q := by
    intro v m own hv0 hv h he
    have hle : v * PGSIZE ≤ TRAPFRAME := le_of_pages_le (by rwa [pages_mul])
    have hun : ∀ m' own', Unmapped r (fun u => v0 ≤ u ∧ u < v) m own m' own' →
        Unmapped r (fun u => v0 ≤ u ∧ u < 2 ^ 26 - 2) m0 own0 m' own' := by
      intro m' own' hu
      refine ⟨(he.trans hu.toEdit).mono fun u hc => by omega, fun u hu' hc => ?_⟩
      by_cases huv : u < v
      · exact hu.gone u hu' ⟨hc.1, huv⟩
      · rw [hu.other u hu' (by omega), he.other u hu' (by omega)]
        exact hS.unmapped hc.1 hc.2
    refine Ends.seq (ends_uvmdealloc h he.root hle (fun hge => ?_) fun m' own' _ h' hu => ?_)
    · have hvv : v ≤ v0 := Nat.le_of_mul_le_mul_right hge (by decide)
      exact hfail m own h (hun m own (Unmapped.none he.root fun u _ hc => by omega))
    · rw [pages_mul, pages_mul] at hu
      exact hfail m' own' h' (hun m' own' hu)
  induction n with
  | zero =>
    intro v m own hvn hv0 hv h he hfill hzero
    rw [allocFrom, ends_pure]
    obtain rfl : v = pages newsz := hvn
    exact hok m own hv h he hfill hzero
  | succ n ih =>
    intro v m own hvn hv0 hv h he hfill hzero
    have hr := he.root
    rw [allocFrom]
    refine Ends.seq (ends_kalloc h (fun m1 h₁ hm1 => ?_) fun p m1 hp h₁ hm1 => ?_)
    · exact hundo hv0 hv h₁ (he.trans (Edit.of_mem_eq hm1 hr))
    apply ends_act_bind.mpr
    have h2 := h₁.setPage (by rw [update_self]) fun _ => 0
    have htf : m.lookup r (2 ^ 26 - 2) &&& PTE_V ≠ 0 := by
      rw [he.other _ (by decide) (by omega), hS.trapframe]
      exact mkPte_valid _ _
    refine ends_mapNew h hr hp h2 (fun q hq => ?_) (by omega) (fun hs => ?_) hperm hrwx
      (fun hval => ?_) (fun m' own' h' he' => ?_) fun m' own' hinv h' he' hlk hmem _ => ?_
    · rw [Kmem.setPage_mem_of_ne _ _ hq, hm1 q hq]
    · rcases special_iff.mp hs with hc | hc
      · omega
      · rwa [hc]
    · -- the page is mapped, so it is the trapframe; the table below it is not full
      have hveq : v = 2 ^ 26 - 2 := by
        by_contra hne
        rw [he.other v (by omega) (by omega)] at hval
        exact hval (hS.unmapped hv0 (by omega))
      rcases hreach.resolve_left (by omega) with hall | hallow
      · have hcard := h.card_leaves hr hv fun u hu => by
          by_cases huv : v0 ≤ u
          · obtain ⟨p', hp'⟩ := hfill u huv hu
            rw [hp']
            exact mkPte_valid _ _
          · rw [he.other u (by omega) (by omega)]
            exact hall u (by omega)
        have : PHYSTOP < 2 ^ 26 - 2 := by decide
        omega
      · exact hallow
    · exact hundo hv0 hv h' (he.trans (he'.mono fun _ => False.elim))
    · have hvlt : v < 2 ^ 26 - 2 := by
        rcases lt_or_eq_of_le hv with hlt | heq
        · exact hlt
        · rw [heq] at hinv
          exact absurd hinv htf
      rw [← Nat.succ_mul]
      refine ih (v + 1) m' own' (by omega) (by omega) hvlt h'
        ((he.mono fun u hc => by omega).trans (he'.mono fun u hc => by omega)) (fun u hu0 hu => ?_)
        fun u hu0 hu => ?_
      · by_cases huv : u = v
        · exact ⟨p, by rw [huv, hlk]⟩
        · rw [he'.other u (by omega) huv]
          exact hfill u hu0 (by omega)
      · by_cases huv : u = v
        · rw [huv, hlk, PTE2PA_mkPte hperm, hmem, Kmem.setPage_mem_self]
        · obtain ⟨p', hp'⟩ := hfill u hu0 (by omega)
          have hval : m.lookup r u &&& PTE_V ≠ 0 := by rw [hp']; exact mkPte_valid _ _
          have hleaf := (h.leaf_of_lookup hr (by omega) hval).2 (not_special (by omega))
          rw [he'.other u (by omega) huv, (he'.data _ u hleaf huv).2]
          exact hzero u hu0 (by omega)

/-- **`uvmalloc` maps every page between two sizes, or none of them.** -/
theorem ends_uvmalloc {oldsz newsz xperm : ℕ} (h : Owned K ∅ m own)
    (hS : Space m own r (pages oldsz) tr tf) (ho : oldsz ≤ TRAPFRAME) (hx : xperm < 2 ^ 10)
    (hle : oldsz ≤ newsz) (hreach : pages newsz ≤ 2 ^ 26 - 2 ∨ Reaches allow m r (pages oldsz))
    (hfail : ∀ m' own', Owned K ∅ m' own' →
      Unmapped r (fun u => pages oldsz ≤ u ∧ u < 2 ^ 26 - 2) m own m' own' → Q 0 m')
    (hok : ∀ m' own', pages newsz ≤ 2 ^ 26 - 2 → Owned K ∅ m' own' →
      Edit r (fun u => pages oldsz ≤ u ∧ u < pages newsz) m own m' own' →
      Filled m' r (pages oldsz) (pages newsz) (PTE_R ||| PTE_U ||| xperm) →
      Zeroed m' r (pages oldsz) (pages newsz) → Q newsz m') :
    Ends allow () (uvmalloc K r oldsz newsz xperm) m Q := by
  have hT := TRAPFRAME_eq
  rw [uvmalloc, if_neg (by omega), PGROUNDUP_eq (by omega)]
  refine ends_allocFrom hS hx hreach hfail hok _ (pages oldsz) m own ?_ le_rfl (pages_le ho) h
    (Edit.refl hS.root) (fun u h1 h2 => by omega) fun u h1 h2 => by omega
  show pages oldsz + (newsz - pages oldsz * 4096 + 4096 - 1) / 4096 = pages newsz
  have hmono := pages_mono hle
  simp only [pages_eq] at hmono ⊢
  omega

/-! ### Making and freeing tables -/

theorem Kmem.lookup_zero (hz : m.mem r = fun _ => 0) (v : ℕ) : m.lookup r v = 0 := by
  rw [Kmem.lookup, Kmem.lookFrom, m.pte_zero hz, Nat.zero_and, if_neg (by simp)]

/-- `uvmcreate` makes an empty table out of a free page. -/
theorem ends_uvmcreate (h : Owned K ∅ m own) {Q : Option ℕ → Kmem → Prop}
    (hnone : ∀ m', Owned K ∅ m' own → m'.mem = m.mem → Q none m')
    (hsome : ∀ r m', own r = .free → Owned K ∅ m' (update own r (.node r 3 0)) →
      (∀ q, q ≠ r → m'.mem q = m.mem q) → (∀ v, m'.lookup r v = 0) → Q (some r) m') :
    Ends allow () uvmcreate m Q := by
  rw [uvmcreate]
  refine Ends.seq (ends_kalloc h (fun m1 h₁ hm1 => ?_) fun r m1 hr h₁ hm1 => ?_)
  · exact hnone m1 h₁ hm1
  apply ends_act_bind.mpr
  rw [ends_pure]
  have hz : (m1.setPage r fun _ => 0).mem r = fun _ => 0 := Kmem.setPage_mem_self _ _ _
  have h2 := (h₁.setPage (update_self _ _ _) fun _ => 0).newRoot
    (update_self _ _ _) fun j _ => by rw [Kmem.pte_zero _ hz, Nat.zero_and]
  rw [update_idem] at h2
  refine hsome r _ hr h2 (fun q hq => ?_) (Kmem.lookup_zero hz)
  rw [Kmem.setPage_mem_of_ne _ _ hq, hm1 q hq]

/-- **`uvmfree` gives back every page of a table** whose mappings are below the size. -/
theorem ends_uvmfree (h : Owned K ∅ m own) (hr : own r = .node r 3 0) (hsz : sz ≤ TRAPFRAME)
    (hbound : ∀ v < 512 ^ 3, m.lookup r v &&& PTE_V ≠ 0 → v < pages sz) {Q : Unit → Kmem → Prop}
    (hQ : ∀ m' own', Owned K ∅ m' own' → Dropped r m own m' own' → Q () m') :
    Ends allow () (uvmfree K r sz) m Q := by
  have hT := TRAPFRAME_eq
  have hmax := pages_le hsz
  rw [uvmfree]
  by_cases h0 : sz > 0
  · rw [if_pos h0, PGROUNDUP_eq (by omega), mul_PGSIZE_div, ← Nat.zero_mul PGSIZE]
    refine Ends.seq (ends_uvmunmap h hr ?_ ?_ fun m1 own1 h₁ hu => ?_)
    · show _ ≤ 2 ^ 38 / 4096
      omega
    · intro u _ hu
      exact iff_of_true rfl (not_special (by omega))
    · refine ends_freewalk h₁ hu.root (fun v hv => ?_) fun m' own' h' hd =>
        hQ m' own' h' ⟨hu.frame.trans hd.frame, hd.gone⟩
      by_cases hlt : v < pages sz
      · exact hu.gone v hv ⟨Nat.zero_le v, by omega⟩
      · rw [hu.other v hv (by omega)]
        by_contra hc
        exact hlt (hbound v hv hc)
  · rw [if_neg h0]
    refine ends_freewalk h hr (fun v hv => ?_) hQ
    by_contra hc
    have hlt := hbound v hv hc
    rw [pages_eq] at hlt
    omega

/-! ### Copying a table -/

/-- What a copy of the pages below `v` looks like. -/
def Copied (m : Kmem) (old new v : ℕ) : Prop :=
  ∀ u < v, (m.lookup old u &&& PTE_V = 0 → m.lookup new u &&& PTE_V = 0) ∧
    (m.lookup old u &&& PTE_V ≠ 0 → ∃ p, m.lookup new u = mkPte p (PTE_FLAGS (m.lookup old u)) ∧
      m.mem p = m.mem (PTE2PA (m.lookup old u)))

section Uvmcopy

variable {old new : ℕ} (hne : old ≠ new)
include hne

theorem Edit.old_eq {P : ℕ → Prop} (he : Edit new P m own m' own') (h : Owned K ∅ m own)
    (h' : Owned K ∅ m' own') (hold : own old = .node old 3 0) {u : ℕ} (hu : u < 2 ^ 26 - 2) :
    m'.lookup old u = m.lookup old u ∧ (m.lookup old u &&& PTE_V ≠ 0 →
      m'.mem (PTE2PA (m.lookup old u)) = m.mem (PTE2PA (m.lookup old u))) := by
  refine ⟨he.frame.lookup_eq h h' hne hold (by omega), fun hval => ?_⟩
  have hleaf := (h.leaf_of_lookup hold (by omega) hval).2 (not_special hu)
  exact (he.frame.keep _ (by simp) (by rw [hleaf]; exact hne)).2

/-- A copy stays one while other pages are copied. -/
theorem Copied.edit {P : ℕ → Prop} (hc : Copied m old new v) (he : Edit new P m own m' own')
    (h : Owned K ∅ m own) (h' : Owned K ∅ m' own') (hold : own old = .node old 3 0)
    (hnew : own new = .node new 3 0) (hv : v ≤ 2 ^ 26 - 2) (hP : ∀ u < v, ¬ P u) :
    Copied m' old new v := by
  intro u hu
  obtain ⟨hlk, hmem⟩ := he.old_eq hne h h' hold (show u < 2 ^ 26 - 2 by omega)
  rw [hlk, he.other u (by omega) (hP u hu)]
  refine ⟨(hc u hu).1, fun hval => ?_⟩
  obtain ⟨p, hp, hpm⟩ := (hc u hu).2 hval
  have hpv : m.lookup new u &&& PTE_V ≠ 0 := by
    rw [hp]
    exact mkPte_valid _ _
  have hpl := (h.leaf_of_lookup hnew (by omega) hpv).2 (not_special (by omega))
  rw [hp, PTE2PA_mkPte (PTE_FLAGS_lt _)] at hpl
  exact ⟨p, hp, by rw [(he.data p u hpl (hP u hu)).2, hpm, hmem hval]⟩

variable {Q : Bool → Kmem → Prop}

/-- The loop of `uvmcopy`, at page `v`. -/
theorem ends_copyFrom {m0 : Kmem} {own0 : ℕ → Place} {e n0 tr' tf' : ℕ}
    (hSo : Space m0 own0 old n0 tr' tf') (hS : Space m0 own0 new 0 tr tf) (he : e ≤ 2 ^ 26 - 2)
    (hfail : ∀ m' own', Owned K ∅ m' own' →
      Unmapped new (fun u => u < 2 ^ 26 - 2) m0 own0 m' own' → Q false m')
    (hok : ∀ m' own', Owned K ∅ m' own' → Edit new (fun u => u < e) m0 own0 m' own' →
      Copied m' old new e → Q true m') (n : ℕ) :
    ∀ (v : ℕ) (m : Kmem) (own : ℕ → Place), v + n = e → Owned K ∅ m own →
    Edit new (fun u => u < v) m0 own0 m own → Copied m old new v →
    Ends allow () (copyFrom K old new n (v * PGSIZE)) m Q := by
  -- the pages copied so far are given back
  have hundo : ∀ {v : ℕ} {m : Kmem} {own : ℕ → Place}, v ≤ e → Owned K ∅ m own →
      Edit new (fun u => u < v) m0 own0 m own →
      Ends allow () (do uvmunmap K new 0 v true; pure false) m Q := by
    intro v m own hv h hed
    rw [← Nat.zero_mul PGSIZE]
    refine Ends.seq (ends_uvmunmap h hed.root ?_ ?_ fun m' own' h' hu => ?_)
    · show _ ≤ 2 ^ 38 / 4096
      omega
    · intro u _ hu
      exact iff_of_true rfl (not_special (by omega))
    · refine hfail m' own' h' ⟨(hed.mono fun u hc => by omega).trans
        (hu.toEdit.mono fun u hc => by omega), fun u hu' hc => ?_⟩
      by_cases huv : u < v
      · exact hu.gone u hu' ⟨Nat.zero_le u, by omega⟩
      · rw [hu.other u hu' (by omega), hed.other u hu' huv]
        exact hS.unmapped (Nat.zero_le u) hc
  induction n with
  | zero =>
    intro v m own hvn h hed hc
    obtain rfl : v = e := hvn
    rw [copyFrom, ends_pure]
    exact hok m own h hed hc
  | succ n ih =>
    intro v m own hvn h hed hc
    have hold : own old = .node old 3 0 := (hed.frame.node_iff hne).mpr hSo.root
    have hvlt : v < 2 ^ 26 - 2 := by omega
    -- a page that is not mapped is not copied
    have hskip : m.lookup old v &&& PTE_V = 0 →
        Ends allow () (copyFrom K old new n (v * PGSIZE + PGSIZE)) m Q := by
      intro hinv
      rw [← Nat.succ_mul]
      refine ih (v + 1) m own (by omega) h (hed.mono fun u hu => by omega) fun u hu => ?_
      by_cases huv : u < v
      · exact hc u huv
      · obtain rfl : u = v := by omega
        refine ⟨fun _ => ?_, fun hval => absurd hinv hval⟩
        rw [hed.other u (by omega) huv]
        exact hS.unmapped (Nat.zero_le u) hvlt
    rw [copyFrom]
    refine Ends.seq (ends_walk h hold (mul_PGSIZE_lt (by omega)) ?_ fun q hq hlook => ?_)
    · intro h0
      rw [mul_PGSIZE_div] at h0
      exact hskip (by rw [h0, Nat.zero_and])
    apply ends_look_bind.mpr
    rw [← hlook, mul_PGSIZE_div]
    by_cases hval : m.lookup old v &&& PTE_V = 0
    · rw [if_pos hval]
      exact hskip hval
    rw [if_neg hval]
    have hleaf := h.leaf_of_lookup hold (by omega) hval
    refine Ends.seq (ends_kalloc h (fun m1 h₁ hm1 => ?_) fun p m1 hp h₁ hm1 => ?_)
    · exact hundo (by omega) h₁ (hed.trans (Edit.of_mem_eq hm1 hed.root))
    apply ends_act_bind.mpr
    have hpp : PTE2PA (m.lookup old v) ≠ p := by
      intro heq
      have := hleaf.2 (not_special hvlt)
      rw [heq, hp] at this
      cases this
    refine ends_mapNew h hed.root hp (h₁.setPage (update_self _ _ _) _) (fun q hq => ?_)
      (by omega) (fun hs => absurd hs (not_special hvlt)) (PTE_FLAGS_lt _) ?_ (fun hv' => ?_)
      (fun m' own' h' he' => ?_) fun m' own' _ h' he' hlk hmem _ => ?_
    · rw [Kmem.setPage_mem_of_ne _ _ hq, hm1 q hq]
    · rw [PTE_FLAGS_and (by decide)]
      exact hleaf.1
    · rw [hed.other v (by omega) (by omega)] at hv'
      exact absurd (hS.unmapped (Nat.zero_le v) hvlt) hv'
    · exact hundo (by omega) h' (hed.trans (he'.mono fun _ => False.elim))
    · rw [← Nat.succ_mul]
      refine ih (v + 1) m' own' (by omega) h' ((hed.mono fun u hu => by omega).trans
        (he'.mono fun u hu => by omega)) fun u hu => ?_
      by_cases huv : u < v
      · exact hc.edit hne he' h h' hold hed.root (by omega) (fun w hw => by omega) u huv
      · obtain rfl : u = v := by omega
        obtain ⟨hlo, hmo⟩ := he'.old_eq hne h h' hold hvlt
        rw [hlo, hlk]
        refine ⟨fun hc => absurd hc hval, fun _ => ⟨p, rfl, ?_⟩⟩
        rw [hmem, Kmem.setPage_mem_self, hm1 _ hpp, hmo hval]

/-- **`uvmcopy` copies every mapped page with its flags**, or leaves the new table
without any. -/
theorem ends_uvmcopy {n0 tr' tf' : ℕ} (h : Owned K ∅ m own) (hSo : Space m own old n0 tr' tf')
    (hS : Space m own new 0 tr tf) (hsz : sz ≤ TRAPFRAME)
    (hfail : ∀ m' own', Owned K ∅ m' own' →
      Unmapped new (fun u => u < 2 ^ 26 - 2) m own m' own' → Q false m')
    (hok : ∀ m' own', Owned K ∅ m' own' → Edit new (fun u => u < pages sz) m own m' own' →
      Copied m' old new (pages sz) → Q true m') :
    Ends allow () (uvmcopy K old new sz) m Q := by
  rw [uvmcopy, ← Nat.zero_mul PGSIZE]
  exact ends_copyFrom hne hSo hS (pages_le hsz) hfail hok _ 0 m own (Nat.zero_add _) h
    (Edit.refl hS.root) fun u hu => absurd hu (Nat.not_lt_zero u)

end Uvmcopy

/-! ### Reading and writing user memory -/

section

variable (h : Owned K ∅ m own)

include h

theorem Owned.setLeaf (hp : own p = .node r 0 v) (b : Bytes.Mem) :
    Owned K ∅ (m.setPage p b) own := by
  have hne : ∀ {q r lv x}, own q = .node r (lv + 1) x → q ≠ p := fun hq => Place.ne hq hp nofun
  have hpte : ∀ {q r lv x}, own q = .node r (lv + 1) x → ∀ i, (m.setPage p b).pte q i = m.pte q i :=
    fun hq i => Kmem.pte_congr (Kmem.setPage_mem_of_ne _ _ (hne hq)) i
  refine ⟨h.range, h.free, h.nodup, h.once, h.level, h.root, ?_, ?_⟩
  · intro q r lv x i hq hi he hv
    rw [hpte hq] at hv ⊢
    exact h.down q r lv x i hq hi he hv
  · intro p' r lv y hp' hlv
    obtain ⟨q, hq, hrest⟩ := h.up p' r lv y hp' hlv
    refine ⟨q, hq, ?_⟩
    rwa [hpte hq]

theorem Owned.lookup_setLeaf (hp : own p = .node r 0 v) (b : Bytes.Mem)
    {s u : ℕ} (hs : own s = .node s 3 0) (hu : u < 512 ^ 3) :
    (m.setPage p b).lookup s u = m.lookup s u := by
  refine h.lookup_retag (h.setLeaf hp b) hs (fun _ _ _ => Iff.rfl) (fun q x hq => ?_) hu
  exact Kmem.setPage_mem_of_ne _ _ (Place.ne hq hp nofun)

theorem Edit.setLeaf (hr : own r = .node r 3 0) (hp : own p = .node r 0 v)
    (b : Bytes.Mem) : Edit r (· = v) m own (m.setPage p b) own := by
  refine ⟨Frame.of_mem fun q _ hn => ?_, hr, fun q y hq hy => ⟨hq, ?_⟩, fun u hu _ => ?_⟩
  · apply Kmem.setPage_mem_of_ne
    rintro rfl
    exact hn (by rw [hp]; rfl)
  · apply Kmem.setPage_mem_of_ne
    rintro rfl
    rw [hp] at hq
    injection hq with _ _ hvy
    exact hy hvy.symm
  · exact h.lookup_setLeaf hp b hr hu

theorem Owned.lookup_lt (hr : own r = .node r 3 0) (hv : v < 512 ^ 3) : m.lookup r v < 2 ^ 64 := by
  rcases h.lookup_cases hr hv with ⟨q, -, he⟩ | ⟨-, he⟩
  · rw [he]
    exact Bytes.get_lt _ _ _
  · rw [he]
    decide

/-- `uvmclear` takes a page from the user; it stays mapped. -/
theorem ends_uvmclear (hr : own r = .node r 3 0) (hv : v < 2 ^ 26 - 2)
    (hval : m.lookup r v &&& PTE_V ≠ 0) {Q : Unit → Kmem → Prop}
    (hQ : ∀ m', Owned K ∅ m' own → Edit r (· = v) m own m' own →
      m'.lookup r v &&& PTE_V ≠ 0 → PTE2PA (m'.lookup r v) = PTE2PA (m.lookup r v) →
      m'.mem (PTE2PA (m.lookup r v)) = m.mem (PTE2PA (m.lookup r v)) → Q () m') :
    Ends allow () (uvmclear r (v * PGSIZE)) m Q := by
  have hv' : v < 512 ^ 3 := by omega
  rw [uvmclear]
  refine Ends.seq (ends_walk h hr (mul_PGSIZE_lt (by omega)) ?_ fun q hq hlook => ?_)
  · intro h0
    rw [mul_PGSIZE_div] at h0
    rw [h0] at hval
    exact absurd rfl hval
  rw [mul_PGSIZE_div] at hq hlook
  rw [mul_PGSIZE_div]
  show Q () (m.setPte q (v % 512) (m.pte q (v % 512) - (m.pte q (v % 512) &&& PTE_U)))
  rw [← hlook]
  have hlt : m.lookup r v - (m.lookup r v &&& PTE_U) < 2 ^ 64 :=
    lt_of_le_of_lt (Nat.sub_le _ _) (h.lookup_lt hr hv')
  -- the entry is valid as before, and it is of the same page
  have hleaf := h.leaf_of_lookup hr hv' hval
  have h2 := h.setEntry (w := m.lookup r v - (m.lookup r v &&& PTE_U)) (i := v % 512) hq hlt
    (Nat.mod_lt _ (by decide)) (fun _ => ?_) fun p' hp' => ?_
  · rw [Set.empty_sdiff] at h2
    have hlk : ∀ {u}, u < 512 ^ 3 → _ := fun hu =>
      lookup_setPte h hr hv' hq hlt h2 (fun _ _ _ => Iff.rfl) (fun _ _ _ _ => rfl) hu
    have hdata : ∀ q' y, own q' = .node r 0 y →
        (m.setPte q (v % 512) (m.lookup r v - (m.lookup r v &&& PTE_U))).mem q' = m.mem q' :=
      fun q' y hq' => Kmem.setPte_mem_of_ne _ _ _ (Place.ne hq' hq (by simp))
    refine hQ _ h2 ⟨Frame.of_mem fun q' _ hn => ?_, hr, fun q' y hq' _ => ⟨hq', hdata q' y hq'⟩,
      fun u hu huv => ?_⟩ ?_ ?_ (hdata _ v (hleaf.2 (not_special hv)))
    · apply Kmem.setPte_mem_of_ne
      rintro rfl
      exact hn (by rw [hq]; rfl)
    · rw [hlk hu, if_neg huv]
    · rwa [hlk hv', if_pos rfl, clearU_and (by decide)]
    · rw [hlk hv', if_pos rfl, PTE2PA_clearU]
  · unfold Leads
    rwa [if_pos rfl, Nat.div_add_mod', clearU_and (by decide), PTE2PA_clearU]
  · rw [Nat.div_add_mod'] at hp'
    rw [clearU_and (by decide), PTE2PA_clearU]
    exact ⟨hval, (h.lookup_of_leaf hr hv' hp').2.1⟩

end

end Xv6.Vm
