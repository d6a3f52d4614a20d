import Xv6.Vm.Tables

/-!
# Page-table operations

What `walk`, `mappages`, `uvmunmap` and `freewalk` do, to the map of the table
they are given and to the ownership of pages.

## Main results

* `ends_walk`, `ends_walk_alloc` — `walk` finds the page of an entry, or makes it.
* `ends_mappages` — `mappages` adds one mapping, or changes no mapping.
* `ends_uvmunmap` — `uvmunmap` removes mappings, and gives back the pages.
* `ends_freewalk` — `freewalk` gives back every page of a table without leaves.
-/

namespace Xv6.Vm

open Conc Function

variable {K : Layout} {D : Set (ℕ × ℕ)} {allow : String → Prop} {m m' : Kmem} {own : ℕ → Place}
  {p q r lv x y i w v va : ℕ}

/-! ### The allocator -/

theorem Owned.congr (h : Owned K D m own) (hmem : m'.mem = m.mem)
    (hfree : m'.freelist = m.freelist) (honce : m'.refreed = m.refreed) : Owned K D m' own := by
  have hpte : ∀ q i, m'.pte q i = m.pte q i := fun q i => Kmem.pte_congr (by rw [hmem]) i
  refine ⟨h.range, by rw [hfree]; exact h.free, by rw [hfree]; exact h.nodup,
    honce.trans h.once, h.level, h.root, ?_, ?_⟩
  · simp only [hpte]; exact h.down
  · simp only [hpte]; exact h.up

theorem ends_kalloc (h : Owned K D m own) {Q : Option ℕ → Kmem → Prop}
    (hnone : ∀ m', Owned K D m' own → m'.mem = m.mem → Q none m')
    (hsome : ∀ p m', own p = .free → Owned K D m' (update own p .held) →
      (∀ q, q ≠ p → m'.mem q = m.mem q) → Q (some p) m') :
    Ends allow () kalloc m Q := by
  rw [kalloc, Prog.atomic, ends_step]
  by_cases hf : m.fail m.calls = true
  · simp only [hf, if_true]
    exact hnone _ (h.congr rfl rfl rfl) rfl
  simp only [hf]
  cases hl : m.freelist with
  | nil => exact hnone _ (h.congr rfl hl.symm rfl) rfl
  | cons p ps =>
    have hp : own p = .free := (h.free p).mp (by rw [hl]; simp)
    have hnd := h.nodup
    rw [hl, List.nodup_cons] at hnd
    refine hsome p _ hp (h.retag (Or.inl hp) (Or.inr rfl) ?_ ?_ hnd.2 rfl) ?_
    · intro q hq
      exact Kmem.setPage_mem_of_ne _ _ hq
    · intro q
      show q ∈ ps ↔ _
      obtain rfl | hq := eq_or_ne q p
      · simp [hnd.1]
      · rw [update_of_ne hq, ← h.free, hl]
        simp [hq]
    · intro q hq
      exact Kmem.setPage_mem_of_ne _ _ hq

variable {Q : Unit → Kmem → Prop}

theorem ends_kfree (h : Owned K D m own) (hp : own p = .held)
    (hQ : ∀ m', Owned K D m' (update own p .free) → (∀ q, q ≠ p → m'.mem q = m.mem q) →
      Q () m') : Ends allow () (kfree K p) m Q := by
  rw [kfree, Prog.atomic, ends_step]
  have hrange := (h.range p).mp (by rw [hp]; simp)
  rw [if_neg (by omega)]
  have hmem : ∀ q, q ≠ p → (m.setPage p fun _ => 1).mem q = m.mem q :=
    fun q hq => Kmem.setPage_mem_of_ne _ _ hq
  have hnot : p ∉ m.freelist := by
    rw [h.free, hp]
    simp
  refine hQ _ (h.retag (Or.inr hp) (Or.inl rfl) hmem ?_ ?_ ?_) hmem
  · intro q
    show q ∈ p :: m.freelist ↔ _
    by_cases hq : q = p
    · subst hq; simp
    · rw [update_of_ne hq, ← h.free]
      simp [hq]
  · exact List.nodup_cons.mpr ⟨hnot, h.nodup⟩
  · show (m.refreed || decide (p ∈ m.freelist)) = m.refreed
    rw [decide_eq_false hnot, Bool.or_false]

theorem Owned.setPage (h : Owned K D m own) (hp : own p = .held) (b : Bytes.Mem) :
    Owned K D (m.setPage p b) own := by
  have hsame : update own p .held = own := by rw [← hp, update_eq_self]
  have hset : Owned K D (m.setPage p b) (update own p .held) :=
    h.retag (Or.inr hp) (Or.inr rfl) (fun q hq => Kmem.setPage_mem_of_ne _ _ hq)
      (fun q => by rw [hsame]; exact h.free q) h.nodup rfl
  rwa [hsame] at hset

/-! ### walk -/

/-- **`walk` finds the page of an entry**, if there is one. -/
theorem ends_walk (h : Owned K ∅ m own) (hr : own r = .node r 3 0) (hva : va < MAXVA)
    {Q : Option (ℕ × ℕ) → Kmem → Prop} (hnone : m.lookup r (va / PGSIZE) = 0 → Q none m)
    (hsome : ∀ q, own q = .node r 1 (va / PGSIZE / 512) →
      m.lookup r (va / PGSIZE) = m.pte q (va / PGSIZE % 512) →
      Q (some (q, va / PGSIZE % 512)) m) : Ends allow () (walk r va false) m Q :=
  (h.table hr).ends_walk hva hnone fun q hq => hsome q (Place.pos_eq_some.mp hq).1

/-- What `walk` with `alloc` may do to a table: add page-table pages without entries. -/
structure Grown (r : ℕ) (m : Kmem) (own : ℕ → Place) (m' : Kmem) (own' : ℕ → Place) : Prop where
  frame : Frame r ∅ m own m' own'
  nodes : ∀ q lv x, own q = .node r lv x → own' q = .node r lv x
  leaf : ∀ q y, own' q = .node r 0 y → own q = .node r 0 y
  data : ∀ q y, own q = .node r 0 y → m'.mem q = m.mem q
  lookup : ∀ v < 512 ^ 3, m'.lookup r v = m.lookup r v

namespace Grown

variable {m'' : Kmem} {own' own'' : ℕ → Place}

theorem of_mem_eq (h : m'.mem = m.mem) : Grown r m own m' own :=
  ⟨Frame.of_mem fun q _ _ => by rw [h], fun _ _ _ hq => hq, fun _ _ hq => hq,
    fun _ _ _ => by rw [h], fun v _ => Kmem.lookup_of_mem_eq h r v⟩

theorem trans (h : Grown r m own m' own') (h' : Grown r m' own' m'' own'') :
    Grown r m own m'' own'' :=
  ⟨h.frame.trans h'.frame, fun q lv x hq => h'.nodes q lv x (h.nodes q lv x hq),
    fun q y hq => h.leaf q y (h'.leaf q y hq),
    fun q y hq => (h'.data q y (h.nodes q 0 y hq)).trans (h.data q y hq),
    fun v hv => (h'.lookup v hv).trans (h.lookup v hv)⟩

/-- Linking a page of zeros as a new page-table page. -/
theorem link {pt : ℕ} (h : Owned K ∅ m own) (h' : Owned K ∅ m' (update own p (.node r (lv + 1) y)))
    (hr : own r = .node r 3 0) (hpt : own pt = .node r (lv + 2) x) (hp : own p = .free)
    (hmem : ∀ q, q ≠ p → q ≠ pt → m'.mem q = m.mem q) (hzero : m'.mem p = fun _ => 0) :
    Grown r m own m' (update own p (.node r (lv + 1) y)) := by
  have hne : ∀ {q lv x}, own q = .node r lv x → q ≠ p := fun hq => Place.ne hq hp nofun
  -- the entry that changes is above the last level
  have hnpt : ∀ {q l x}, own q = .node r l x → l < 2 → q ≠ pt := by
    rintro q l x hq hl rfl
    rw [hpt] at hq
    cases hq
    omega
  refine ⟨Frame.of_update (Or.inl (by rw [hp]; trivial)) (Or.inl rfl) fun q _ hq => ?_,
    fun q l x hq => by rw [update_of_ne (hne hq), hq], fun q y' hq => ?_, ?_, ?_⟩
  · refine hmem q ?_ ?_
    · rintro rfl
      rw [hp] at hq
      exact hq trivial
    · rintro rfl
      rw [hpt] at hq
      exact hq rfl
  · obtain rfl | hqp := eq_or_ne q p
    · rw [update_self] at hq
      cases hq
    · rwa [update_of_ne hqp] at hq
  · intro q y' hq
    exact hmem q (hne hq) (hnpt hq (by decide))
  · intro v hv
    refine h.lookup_congr h' hr (by rw [update_of_ne (hne hr), hr]) hv ?_ ?_
    · intro q hq
      rw [update_of_ne (hne hq)]
      exact ⟨hq, Kmem.pte_congr (hmem q (hne hq) (hnpt hq (by decide))) _⟩
    · intro q hq
      obtain rfl | hqp := eq_or_ne q p
      · exact Or.inr (m'.pte_zero hzero _)
      · rw [update_of_ne hqp] at hq
        exact Or.inl hq

end Grown

/-- The loop of `walk` with `alloc`. -/
theorem ends_walkFrom_alloc {Q : Option (ℕ × ℕ) → Kmem → Prop} (l : ℕ) :
    ∀ (pt : ℕ) (m : Kmem) (own : ℕ → Place), Owned K ∅ m own → own r = .node r 3 0 →
    own pt = .node r (l + 1) (va / PGSIZE / 512 ^ (l + 1)) →
    (∀ m' own', Owned K ∅ m' own' → Grown r m own m' own' → Q none m') →
    (∀ m' own' q, Owned K ∅ m' own' → Grown r m own m' own' →
      own' q = .node r 1 (va / PGSIZE / 512) → Q (some (q, va / PGSIZE % 512)) m') →
    Ends allow () (walkFrom true va l pt) m Q := by
  induction l with
  | zero =>
    intro pt m own h _ hpt _ hsome
    rw [walkFrom, ends_pure, PX_eq, Nat.pow_zero, Nat.div_one]
    exact hsome m own pt h (Grown.of_mem_eq rfl) (by simpa using hpt)
  | succ l ih =>
    intro pt m own h hr hpt hnone hsome
    rw [walkFrom]
    rw [ends_look_bind]
    rw [PX_eq]
    by_cases hv : m.pte pt (va / PGSIZE / 512 ^ (l + 1) % 512) &&& PTE_V ≠ 0
    · rw [if_pos hv]
      have hl := h.down pt r (l + 1) _ _ hpt (Nat.mod_lt _ (by decide)) (by simp) hv
      unfold Leads at hl
      rw [if_neg (Nat.succ_ne_zero l), div_pow_succ_mul_add] at hl
      exact ih _ m own h hr hl.2 hnone hsome
    · rw [if_neg hv, if_neg (by decide)]
      refine Ends.seq (ends_kalloc h (fun m1 h1 hm1 => ?_) fun p m1 hp h1 hm1 => ?_)
      · exact hnone m1 own h1 (Grown.of_mem_eq hm1)
      · -- the new page is cleared, and linked as a page-table page
        have hpt' : pt ≠ p := Place.ne hpt hp (by simp)
        apply ends_act_bind.mpr
        have h2 := h1.setPage (by rw [update_self]) fun _ => 0
        have hpte : (m1.setPage p fun _ => 0).pte pt (va / PGSIZE / 512 ^ (l + 1) % 512) =
            m.pte pt (va / PGSIZE / 512 ^ (l + 1) % 512) :=
          Kmem.pte_congr (by rw [Kmem.setPage_mem_of_ne _ _ hpt', hm1 pt hpt']) _
        have hlt := h.lt (p := p) (by rw [hp]; simp)
        have h3 := h2.link (w := PA2PTE p ||| PTE_V) (p := p)
          (by rw [update_of_ne hpt', hpt])
          (Nat.mod_lt _ (by decide)) (by rw [hpte]; exact not_not.mp hv)
          (by rw [update_self]) (mk_lt hlt (by decide)) (or_V_valid _)
          (PTE2PA_mk (by decide)) ?_
        · rw [div_pow_succ_mul_add, update_idem] at h3
          apply ends_act_bind.mpr
          have hg := Grown.link h h3 hr hpt hp (fun q hqp hqt => ?_) ?_
          · refine ih p _ _ h3 ?_ (by rw [update_self]) (fun m' own' hm' hg' => ?_)
              fun m' own' q hm' hg' hq => ?_
            · exact hg.nodes r 3 0 hr
            · exact hnone m' own' hm' (hg.trans hg')
            · exact hsome m' own' q hm' (hg.trans hg') hq
          · rw [Kmem.setPte_mem_of_ne _ _ _ hqt, Kmem.setPage_mem_of_ne _ _ hqp, hm1 q hqp]
          · rw [Kmem.setPte_mem_of_ne _ _ _ (Ne.symm hpt'), Kmem.setPage_mem_self]
        · rw [if_neg (Nat.succ_ne_zero l)]
          exact ⟨by rw [mk_and_RWX]; decide, fun j _ => by
            rw [Kmem.pte_zero _ (Kmem.setPage_mem_self _ _ _)]; rfl⟩

/-- **`walk` with `alloc` makes the page of an entry**, or runs out of memory;
either way no mapping changes. -/
theorem ends_walk_alloc (h : Owned K ∅ m own) (hr : own r = .node r 3 0) (hva : va < MAXVA)
    {Q : Option (ℕ × ℕ) → Kmem → Prop}
    (hnone : ∀ m' own', Owned K ∅ m' own' → Grown r m own m' own' → Q none m')
    (hsome : ∀ m' own' q, Owned K ∅ m' own' → Grown r m own m' own' →
      own' q = .node r 1 (va / PGSIZE / 512) → Q (some (q, va / PGSIZE % 512)) m') :
    Ends allow () (walk r va true) m Q := by
  rw [walk, if_neg (by omega)]
  refine ends_walkFrom_alloc 2 r m own h hr ?_ hnone hsome
  rw [hr, Nat.div_eq_of_lt (page_lt hva)]

/-! ### mappages -/

variable {own' : ℕ → Place}

/-- The map after the entry of one page has been written. -/
theorem lookup_setPte (h : Owned K ∅ m own) (hr : own r = .node r 3 0)
    (hv : v < 512 ^ 3) (hq : own q = .node r 1 (v / 512)) (hw : w < 2 ^ 64) (h' : Owned K ∅ m' own')
    (hnodes : ∀ q lv x, own' q = .node r (lv + 1) x ↔ own q = .node r (lv + 1) x)
    (hpte : ∀ q' i x, own q' = .node r 1 x →
      m'.pte q' i = (m.setPte q (v % 512) w).pte q' i) {u : ℕ} (hu : u < 512 ^ 3) :
    m'.lookup r u = if u = v then w else m.lookup r u := by
  have hr' := (hnodes r 2 0).mpr hr
  split_ifs with huv
  · subst huv
    rw [h'.lookup_eq hr' hu ((hnodes q 0 _).mpr hq), hpte q _ _ hq, Kmem.pte_setPte_self _ hw]
  · refine h.lookup_congr h' hr hr' hu (fun q' hq' => ⟨(hnodes q' 0 _).mpr hq', ?_⟩)
      fun q' hq' => Or.inl ((hnodes q' 0 _).mp hq')
    rw [hpte q' _ _ hq', Kmem.pte_setPte_of_ne]
    rintro ⟨rfl, hi⟩
    rw [hq] at hq'
    injection hq' with _ _ hd
    exact huv (by rw [← Nat.div_add_mod' u 512, ← Nat.div_add_mod' v 512, hi, hd])

/-- What mapping page `v` to `p` does. -/
structure Mapped (r v p perm : ℕ) (m : Kmem) (own : ℕ → Place) (m' : Kmem) (own' : ℕ → Place) :
    Prop where
  frame : Frame r {p} m own m' own'
  page : own' p = if Special v then own p else .node r 0 v
  root : own' r = .node r 3 0
  mem : m'.mem p = m.mem p
  data : ∀ q y, own q = .node r 0 y → own' q = .node r 0 y ∧ m'.mem q = m.mem q
  lookup : ∀ u < 512 ^ 3, m'.lookup r u = if u = v then mkPte p perm else m.lookup r u

/-- The page that is mapped: one in hand, or, at the top of the address space, one
that stays where it is. -/
def Mappable (own : ℕ → Place) (r v p : ℕ) : Prop :=
  if Special v then ¬ Mine r (own p) ∧ p < 2 ^ 44 else own p = .held

/-- **`mappages` of one page adds one mapping**, or runs out of memory and changes
none. -/
theorem ends_mappages {perm : ℕ} (h : Owned K ∅ m own) (hr : own r = .node r 3 0)
    (hal : va % PGSIZE = 0) (hva : va < MAXVA) (hp : Mappable own r (va / PGSIZE) p)
    (hperm : perm < 2 ^ 10) (hrwx : perm &&& RWX ≠ 0) {Q : Bool → Kmem → Prop}
    (hremap : m.lookup r (va / PGSIZE) &&& PTE_V ≠ 0 → allow "mappages: remap")
    (hfail : ∀ m' own', Owned K ∅ m' own' → Grown r m own m' own' → Q false m')
    (hok : ∀ m' own', m.lookup r (va / PGSIZE) &&& PTE_V = 0 → Owned K ∅ m' own' →
      Mapped r (va / PGSIZE) p perm m own m' own' → Q true m') :
    Ends allow () (mappages r va PGSIZE p perm) m Q := by
  rw [mappages, if_neg (by simpa using hal), if_neg (by decide), if_neg (by decide),
    Nat.div_self (by decide), mapFrom]
  refine Ends.seq (ends_walk_alloc h hr hva hfail fun m1 own1 q h1 hg hq => ?_)
  have hv := page_lt hva
  have hr1 := hg.nodes r 3 0 hr
  have hlook := h1.lookup_eq hr1 hv hq
  rw [ends_look_bind]
  rw [← hlook, hg.lookup _ hv]
  by_cases hval : m.lookup r (va / PGSIZE) &&& PTE_V ≠ 0
  · rw [if_pos hval, ends_stop]
    exact hremap hval
  rw [if_neg hval]
  have hinv := not_not.mp hval
  apply ends_act_bind.mpr
  rw [mapFrom, ends_pure]
  -- only the last page-table page on the way is written
  have hqn : ∀ {r' lv x}, own1 q = .node r' lv x → lv = 1 := by
    intro r' lv x hq'
    rw [hq] at hq'
    injection hq' with _ hl _
    exact hl.symm
  have hmod : va / PGSIZE % 512 < 512 := Nat.mod_lt _ (by decide)
  have hpn : ¬ Mine r (own p) := by
    unfold Mappable at hp
    split_ifs at hp with hs
    · exact hp.1
    · rw [hp]; exact id
  have hp1 := hg.frame.keep p (by simp) hpn
  have hqp : q ≠ p := by
    rintro rfl
    rw [hp1.1] at hq
    exact hpn (by rw [hq]; rfl)
  have hmem : ∀ q', q' ≠ q → (m1.setPte q (va / PGSIZE % 512) (mkPte p perm)).mem q' = m1.mem q' :=
    fun q' hq' => Kmem.setPte_mem_of_ne _ _ _ hq'
  have hmine : ∀ q', q' ∉ ({p} : Set ℕ) → ¬ Mine r (own1 q') →
      (m1.setPte q (va / PGSIZE % 512) (mkPte p perm)).mem q' = m1.mem q' := by
    intro q' _ hn
    refine hmem q' ?_
    rintro rfl
    exact hn (by rw [hq]; rfl)
  have hdata : ∀ q' y, own1 q' = .node r 0 y →
      (m1.setPte q (va / PGSIZE % 512) (mkPte p perm)).mem q' = m1.mem q' := by
    intro q' y hq'
    refine hmem q' ?_
    rintro rfl
    exact absurd (hqn hq') (by decide)
  unfold Mappable at hp
  by_cases hs : Special (va / PGSIZE)
  · -- a page the address space does not own: only the entry changes
    rw [if_pos hs] at hp
    have hlt := mkPte_lt hp.2 hperm
    have h2 := h1.setEntry (w := mkPte p perm) (i := va / PGSIZE % 512) hq hlt hmod (fun _ => ?_)
      fun p' hp' => ?_
    · rw [Set.empty_sdiff] at h2
      refine hok _ own1 hinv h2 ⟨(hg.frame.mono (by simp)).trans (Frame.of_mem hmine), ?_, hr1, ?_,
        fun q' y hq' => ⟨hg.nodes q' 0 y hq', ?_⟩, fun u hu => ?_⟩
      · rw [if_pos hs]; exact hp1.1
      · rw [hmem p (Ne.symm hqp), hp1.2]
      · rw [hdata q' y (hg.nodes q' 0 y hq'), hg.data q' y hq']
      · rw [lookup_setPte h1 hr1 hv hq hlt h2 (fun _ _ _ => Iff.rfl) (fun _ _ _ _ => rfl) hu,
          hg.lookup u hu]
    · unfold Leads
      rw [if_pos rfl, Nat.div_add_mod', mkPte_and_RWX]
      exact ⟨hrwx, fun hn => absurd hs hn⟩
    · rw [Nat.div_add_mod'] at hp'
      exact absurd hs ((h1.lookup_of_leaf hr1 hv hp').2.2)
  · rw [if_neg hs] at hp
    have hlt := mkPte_lt (h.lt (p := p) (by rw [hp]; simp)) hperm
    have hpheld : own1 p = .held := hp1.1.trans hp
    have h2 := h1.link (w := mkPte p perm) (i := va / PGSIZE % 512) hq hmod ?_ hpheld hlt
      (mkPte_valid _ _) (PTE2PA_mkPte hperm) ?_
    · rw [Nat.div_add_mod'] at h2
      have hnodes : ∀ q' lv x, update own1 p (.node r 0 (va / PGSIZE)) q' =
          .node r (lv + 1) x ↔ own1 q' = .node r (lv + 1) x := by
        intro q' lv x
        obtain rfl | hqp' := eq_or_ne q' p
        · rw [update_self, hpheld]
          simp
        · rw [update_of_ne hqp']
      refine hok _ _ hinv h2 ⟨(hg.frame.mono (by simp)).trans (Frame.of_update (Or.inr rfl)
        (Or.inr rfl) hmine), ?_, (hnodes r 2 0).mpr hr1, ?_, fun q' y hq' => ⟨?_, ?_⟩,
        fun u hu => ?_⟩
      · rw [if_neg hs, update_self]
      · rw [hmem p (Ne.symm hqp), hp1.2]
      · rw [update_of_ne (Place.ne hq' hp (by simp)), hg.nodes q' 0 y hq']
      · rw [hdata q' y (hg.nodes q' 0 y hq'), hg.data q' y hq']
      · rw [lookup_setPte h1 hr1 hv hq hlt h2 hnodes (fun _ _ _ _ => rfl) hu, hg.lookup u hu]
    · rwa [← hlook, hg.lookup _ hv]
    · rw [if_pos rfl, Nat.div_add_mod', mkPte_and_RWX]
      exact ⟨hrwx, hs⟩

/-! ### uvmunmap -/

/-- An operation on the table `r` that changes mappings and pages at `P` only. -/
structure Edit (r : ℕ) (P : ℕ → Prop) (m : Kmem) (own : ℕ → Place) (m' : Kmem)
    (own' : ℕ → Place) : Prop where
  frame : Frame r ∅ m own m' own'
  root : own' r = .node r 3 0
  data : ∀ q y, own q = .node r 0 y → ¬ P y → own' q = .node r 0 y ∧ m'.mem q = m.mem q
  other : ∀ v < 512 ^ 3, ¬ P v → m'.lookup r v = m.lookup r v

namespace Edit

variable {m'' : Kmem} {own' own'' : ℕ → Place} {P P' : ℕ → Prop}

theorem refl (hr : own r = .node r 3 0) : Edit r P m own m own :=
  ⟨Frame.refl _ _ _ _, hr, fun _ _ hq _ => ⟨hq, rfl⟩, fun _ _ _ => rfl⟩

theorem of_mem_eq (hm : m'.mem = m.mem) (hr : own r = .node r 3 0) : Edit r P m own m' own :=
  ⟨Frame.of_mem fun q _ _ => by rw [hm], hr, fun q _ hq _ => ⟨hq, by rw [hm]⟩,
    fun v _ _ => Kmem.lookup_of_mem_eq hm r v⟩

theorem mono (h : Edit r P m own m' own') (hP : ∀ v, P v → P' v) : Edit r P' m own m' own' :=
  ⟨h.frame, h.root, fun q y hq hn => h.data q y hq fun hc => hn (hP y hc),
    fun v hv hn => h.other v hv fun hc => hn (hP v hc)⟩

theorem trans (h : Edit r P m own m' own') (h' : Edit r P m' own' m'' own'') :
    Edit r P m own m'' own'' := by
  refine ⟨h.frame.trans h'.frame, h'.root, ?_, fun v hv hn => ?_⟩
  · intro q y hq hn
    obtain ⟨h1, h2⟩ := h.data q y hq hn
    obtain ⟨h3, h4⟩ := h'.data q y h1 hn
    exact ⟨h3, h4.trans h2⟩
  · rw [h'.other v hv hn, h.other v hv hn]

end Edit

/-- What removing the mappings of some pages does. -/
structure Unmapped (r : ℕ) (P : ℕ → Prop) (m : Kmem) (own : ℕ → Place) (m' : Kmem)
    (own' : ℕ → Place) : Prop extends Edit r P m own m' own' where
  gone : ∀ v < 512 ^ 3, P v → m'.lookup r v &&& PTE_V = 0

namespace Unmapped

variable {m'' : Kmem} {own' own'' : ℕ → Place} {P P' : ℕ → Prop}

theorem none (hr : own r = .node r 3 0) (hP : ∀ v < 512 ^ 3, P v → m.lookup r v &&& PTE_V = 0) :
    Unmapped r P m own m own :=
  ⟨Edit.refl hr, hP⟩

theorem trans (h : Unmapped r P m own m' own') (h' : Unmapped r P' m' own' m'' own'') :
    Unmapped r (fun v => P v ∨ P' v) m own m'' own'' := by
  refine ⟨(h.toEdit.mono fun _ => Or.inl).trans (h'.toEdit.mono fun _ => Or.inr), ?_⟩
  intro v hv hg
  by_cases hP' : P' v
  · exact h'.gone v hv hP'
  · rw [h'.other v hv hP']
    exact h.gone v hv (hg.resolve_right hP')

theorem congr (h : Unmapped r P m own m' own') (hP : ∀ v, P v ↔ P' v) :
    Unmapped r P' m own m' own' := by
  obtain rfl : P = P' := funext fun v => propext (hP v)
  exact h

end Unmapped

section

variable (h : Owned K ∅ m own) (hr : own r = .node r 3 0) (hv : v < 512 ^ 3)
  (hq : own q = .node r 1 (v / 512))

include h hr hv hq

/-- The entry of a special page is cleared; the page stays where it is. -/
theorem Owned.clear_special (hs : Special v) :
    Owned K ∅ (m.setPte q (v % 512) 0) own ∧
      Unmapped r (· = v) m own (m.setPte q (v % 512) 0) own := by
  have h2 := h.setEntry (w := 0) (i := v % 512) hq (by decide) (Nat.mod_lt _ (by decide))
    (fun hc => absurd rfl hc) fun p' hp' => by
      rw [Nat.div_add_mod'] at hp'
      exact absurd hs (h.lookup_of_leaf hr hv hp').2.2
  rw [Set.empty_sdiff] at h2
  have hlk : ∀ u < 512 ^ 3, (m.setPte q (v % 512) 0).lookup r u = if u = v then 0
      else m.lookup r u :=
    fun u hu => lookup_setPte h hr hv hq (by decide) h2 (fun _ _ _ => Iff.rfl)
      (fun _ _ _ _ => rfl) hu
  refine ⟨h2, ⟨Frame.of_mem fun q' _ hn => ?_, hr, fun q' y hq' _ => ⟨hq', ?_⟩, ?_⟩, ?_⟩
  · refine Kmem.setPte_mem_of_ne _ _ _ ?_
    rintro rfl
    exact hn (by rw [hq]; rfl)
  · exact Kmem.setPte_mem_of_ne _ _ _ (Place.ne hq' hq nofun)
  · intro u hu hn
    rw [hlk u hu, if_neg hn]
  · intro u hu huv
    rw [hlk u hu, if_pos huv, Nat.zero_and]

/-- A mapped page is given back and its entry is cleared. -/
theorem ends_unmapEntry (hp : own p = .node r 0 v) (hw : PTE2PA w = p)
    (hQ : ∀ m' own', Owned K ∅ m' own' → Unmapped r (· = v) m own m' own' → Q () m') :
    Ends allow () (unmapEntry K true q (v % 512) w) m Q := by
  have hne : ∀ {q' lv x}, own q' = .node r (lv + 1) x → q' ≠ p :=
    fun hq' => Place.ne hq' hp nofun
  rw [unmapEntry, if_pos rfl, hw]
  -- the page is given back while its entry still leads to it
  have h1 := (h.mono (E := {(q, v % 512)}) (by simp)).release hp
    (fun _ q' hq' => by rw [h.node_unique hq' hq]; rfl) (fun h0 => absurd h0 (by decide))
  refine Ends.bind (R := fun _ m1 => Owned K {(q, v % 512)} m1 (update own p .free) ∧
    ∀ q', q' ≠ p → m1.mem q' = m.mem q') (ends_kfree h1 (by rw [update_self]) ?_) ?_
  · intro m1 h1 hm1
    rw [update_idem] at h1
    exact ⟨h1, hm1⟩
  rintro _ m1 ⟨h1, hm1⟩
  have hnodes : ∀ q' lv x, update own p .free q' = .node r (lv + 1) x ↔
      own q' = .node r (lv + 1) x := by
    intro q' lv x
    by_cases hqp' : q' = p
    · rw [hqp', update_self, hp]
      simp
    · rw [update_of_ne hqp']
  -- then the entry is cleared, and all entries are good again
  have h2 := h1.setEntry (w := 0) (i := v % 512) ((hnodes q 0 _).mpr hq) (by decide)
    (Nat.mod_lt _ (by decide)) (fun hc => absurd rfl hc) fun p' hp' => by
      rw [Nat.div_add_mod'] at hp'
      have hpp : p' ≠ p := by
        rintro rfl
        rw [update_self] at hp'
        cases hp'
      rw [update_of_ne hpp] at hp'
      exact absurd (h.node_unique hp' hp) hpp
  rw [Set.sdiff_self] at h2
  have hlk : ∀ u < 512 ^ 3, (m1.setPte q (v % 512) 0).lookup r u =
      if u = v then 0 else m.lookup r u := by
    intro u hu
    refine lookup_setPte h hr hv hq (by decide) h2 hnodes (fun q' i x hq' => ?_) hu
    by_cases hqi : q' = q ∧ i = v % 512
    · rw [hqi.1, hqi.2, Kmem.pte_setPte_self _ (by decide), Kmem.pte_setPte_self _ (by decide)]
    · rw [Kmem.pte_setPte_of_ne _ hqi, Kmem.pte_setPte_of_ne _ hqi,
        Kmem.pte_congr (hm1 q' (hne hq'))]
  refine hQ _ _ h2 ⟨⟨Frame.of_update (Or.inl (by rw [hp]; rfl)) (Or.inl trivial)
    fun q' _ hn => ?_, (hnodes r 2 0).mpr hr, fun q' y hq' hy => ?_, ?_⟩, ?_⟩
  · rw [Kmem.setPte_mem_of_ne, hm1]
    · rintro rfl
      exact hn (by rw [hp]; rfl)
    · rintro rfl
      exact hn (by rw [hq]; rfl)
  · have hqp' : q' ≠ p := by
      rintro rfl
      rw [hp] at hq'
      injection hq' with _ _ hy'
      exact hy hy'.symm
    rw [update_of_ne hqp', Kmem.setPte_mem_of_ne _ _ _ (Place.ne hq' hq nofun), hm1 q' hqp']
    exact ⟨hq', rfl⟩
  · intro u hu hn
    rw [hlk u hu, if_neg hn]
  · intro u hu huv
    rw [hlk u hu, if_pos huv, Nat.zero_and]

end

variable {do_free : Bool}

/-- One round of the loop of `uvmunmap`. -/
theorem ends_unmapPage (h : Owned K ∅ m own) (hr : own r = .node r 3 0)
    (hva : va < MAXVA) (hs : do_free = true ↔ ¬ Special (va / PGSIZE))
    (hQ : ∀ m' own', Owned K ∅ m' own' → Unmapped r (· = va / PGSIZE) m own m' own' → Q () m') :
    Ends allow () (unmapPage K r do_free va) m Q := by
  have hv := page_lt hva
  have hnone : m.lookup r (va / PGSIZE) &&& PTE_V = 0 → Q () m := by
    intro h0
    refine hQ m own h (Unmapped.none hr ?_)
    rintro _ _ rfl
    exact h0
  refine Ends.seq (ends_walk h hr hva (fun h0 => ?_) fun q hq hlook => ?_)
  · exact hnone (by rw [h0, Nat.zero_and])
  rw [ends_look_bind]
  rw [← hlook]
  by_cases hval : m.lookup r (va / PGSIZE) &&& PTE_V = 0
  · rw [if_pos hval]
    exact hnone hval
  rw [if_neg hval]
  cases do_free with
  | false =>
    have hspec : Special (va / PGSIZE) := by
      by_contra hn
      exact absurd (hs.mpr hn) (by decide)
    have hcl := h.clear_special hr hv hq hspec
    exact hQ _ own hcl.1 hcl.2
  | true => exact ends_unmapEntry h hr hv hq ((h.leaf_of_lookup hr hv hval).2 (hs.mp rfl)) rfl hQ

/-- The loop of `uvmunmap`. -/
theorem ends_unmapFrom (n : ℕ) :
    ∀ (v : ℕ) (m : Kmem) (own : ℕ → Place), Owned K ∅ m own → own r = .node r 3 0 →
    v + n ≤ MAXVA / PGSIZE → (∀ u, v ≤ u → u < v + n → (do_free = true ↔ ¬ Special u)) →
    (∀ m' own', Owned K ∅ m' own' →
      Unmapped r (fun u => v ≤ u ∧ u < v + n) m own m' own' → Q () m') →
    Ends allow () (unmapFrom K r do_free n (v * PGSIZE)) m Q := by
  induction n with
  | zero =>
    intro v m own h hr _ _ hQ
    rw [unmapFrom, ends_pure]
    exact hQ m own h (Unmapped.none hr fun u _ hu => by omega)
  | succ n ih =>
    intro v m own h hr hle hs hQ
    have hdiv : v * PGSIZE / PGSIZE = v := Nat.mul_div_cancel v (by decide)
    rw [unmapFrom]
    refine Ends.bind (ends_unmapPage h hr ?_ ?_ (Q := fun _ m' => ∃ own', Owned K ∅ m' own' ∧
      Unmapped r (· = v) m own m' own') fun m' own' h' hu => ?_) ?_
    · have hM : MAXVA = 2 ^ 26 * 4096 := by decide
      have hd : MAXVA / PGSIZE = 2 ^ 26 := by decide
      show v * 4096 < MAXVA
      omega
    · rw [hdiv]
      exact hs v le_rfl (by omega)
    · rw [hdiv] at hu
      exact ⟨own', h', hu⟩
    · rintro _ m' ⟨own', h', hu⟩
      rw [← Nat.succ_mul]
      refine ih (v + 1) m' own' h' hu.root (by omega) (fun u h1 h2 => hs u (by omega) (by omega))
        fun m'' own'' h'' hu' => hQ m'' own'' h'' ((hu.trans hu').congr fun u => ?_)
      omega

/-- **`uvmunmap` removes the mappings of a range of pages**, and gives the pages
back unless they are special. -/
theorem ends_uvmunmap {n : ℕ} (h : Owned K ∅ m own) (hr : own r = .node r 3 0)
    (hle : v + n ≤ MAXVA / PGSIZE) (hs : ∀ u, v ≤ u → u < v + n → (do_free = true ↔ ¬ Special u))
    (hQ : ∀ m' own', Owned K ∅ m' own' →
      Unmapped r (fun u => v ≤ u ∧ u < v + n) m own m' own' → Q () m') :
    Ends allow () (uvmunmap K r (v * PGSIZE) n do_free) m Q := by
  rw [uvmunmap, if_neg (by rw [Nat.mul_mod_left]; simp)]
  exact ends_unmapFrom n v m own h hr hle hs hQ

/-! ### freewalk -/

/-- Pages of the table `r` up to a height have been given back, and nothing else has
changed but the contents of the pages in `X`. -/
def Pruned (r d : ℕ) (X : Set ℕ) (m : Kmem) (own : ℕ → Place) (m' : Kmem) (own' : ℕ → Place) :
    Prop :=
  ∀ q, (own' q = own q ∧ (q ∉ X → m'.mem q = m.mem q)) ∨
    (own' q = .free ∧ ∃ lv y, own q = .node r lv y ∧ lv ≤ d)

namespace Pruned

variable {m'' : Kmem} {own' own'' : ℕ → Place} {d : ℕ} {X : Set ℕ}

theorem refl (r d : ℕ) (X : Set ℕ) (m : Kmem) (own : ℕ → Place) : Pruned r d X m own m own :=
  fun _ => Or.inl ⟨rfl, fun _ => rfl⟩

section

variable (h : Pruned r d X m own m' own')

include h

theorem trans (h' : Pruned r d X m' own' m'' own'') : Pruned r d X m own m'' own'' := by
  intro q
  rcases h' q with ⟨h1, h2⟩ | ⟨h1, lv, y, h2, h3⟩
  · rcases h q with ⟨h4, h5⟩ | ⟨h4, h5⟩
    · exact Or.inl ⟨h1.trans h4, fun hq => (h2 hq).trans (h5 hq)⟩
    · exact Or.inr ⟨h1.trans h4, h5⟩
  · rcases h q with ⟨h4, -⟩ | ⟨h4, -⟩
    · exact Or.inr ⟨h1, lv, y, h4 ▸ h2, h3⟩
    · rw [h4] at h2
      cases h2

theorem mono {d' : ℕ} {X' : Set ℕ} (hd : d ≤ d')
    (hX : ∀ q ∈ X, q ∈ X') : Pruned r d' X' m own m' own' := by
  intro q
  rcases h q with ⟨h1, h2⟩ | ⟨h1, lv, y, h2, h3⟩
  · exact Or.inl ⟨h1, fun hq => h2 fun hc => hq (hX q hc)⟩
  · exact Or.inr ⟨h1, lv, y, h2, h3.trans hd⟩

theorem node {r' : ℕ} (hq : own' q = .node r' lv y) :
    own q = .node r' lv y ∧ (q ∉ X → m'.mem q = m.mem q) := by
  rcases h q with ⟨h1, h2⟩ | ⟨h1, -⟩
  · exact ⟨h1 ▸ hq, h2⟩
  · rw [h1] at hq
    cases hq

theorem high (hq : own q = .node r lv y) (hd : d < lv) :
    own' q = .node r lv y ∧ (q ∉ X → m'.mem q = m.mem q) := by
  rcases h q with ⟨h1, h2⟩ | ⟨-, lv', y', h2, h3⟩
  · exact ⟨h1.trans hq, h2⟩
  · rw [hq] at h2
    cases h2
    omega

end

end Pruned

/-- A table without leaves, whose entries up to a height are not stale. -/
structure Bare (r d : ℕ) (D : Set (ℕ × ℕ)) (m : Kmem) (own : ℕ → Place) : Prop where
  leaf : ∀ q y, own q = .node r 1 y → ∀ i < 512, m.pte q i &&& PTE_V = 0
  stale : ∀ q i lv y, (q, i) ∈ D → own q = .node r lv y → d < lv

theorem Bare.prune {d d' : ℕ} {X : Set ℕ} (h : Bare r d D m own) (hp : Pruned r d' X m own m' own')
    (hX : ∀ q ∈ X, ∀ i < 512, m'.pte q i = m.pte q i ∨ m'.pte q i &&& PTE_V = 0) :
    Bare r d D m' own' := by
  refine ⟨fun q y hq i hi => ?_, fun q i lv y hqi hq => h.stale q i lv y hqi (hp.node hq).1⟩
  obtain ⟨hq0, hmem⟩ := hp.node hq
  by_cases hqX : q ∈ X
  · rcases hX q hqX i hi with he | he
    · rw [he]
      exact h.leaf q y hq0 i hi
    · exact he
  · rw [Kmem.pte_congr (hmem hqX)]
    exact h.leaf q y hq0 i hi

/-- What `freewalk` does for the page-table pages of a height. -/
def FreesAt (K : Layout) (allow : String → Prop) (r d : ℕ) (free : ℕ → VmM Unit) : Prop :=
  ∀ (pt x : ℕ) (D : Set (ℕ × ℕ)) (m : Kmem) (own : ℕ → Place), Owned K D m own →
    own pt = .node r d x → Bare r d D m own →
    (d < 3 → ∀ q, own q = .node r (d + 1) (x / 512) → (q, x % 512) ∈ D) →
    Ends allow () (free pt) m fun _ m' => ∃ own', Owned K D m' own' ∧
      Pruned r d ∅ m own m' own' ∧ own' pt = .free

variable {free : ℕ → VmM Unit}

/-- One round of the loop of `freewalk`. -/
theorem ends_freeEntry {l pt : ℕ} (hfree : FreesAt K allow r l free)
    (h : Owned K D m own) (hpt : own pt = .node r (l + 1) x) (hb : Bare r (l + 1) D m own)
    (hi : i < 512) :
    Ends allow () (freeEntry free pt i) m fun _ m' => ∃ own', Owned K D m' own' ∧
      Pruned r l {pt} m own m' own' ∧ m'.pte pt i &&& PTE_V = 0 ∧
      ∀ j, j ≠ i → m'.pte pt j = m.pte pt j := by
  rw [freeEntry]
  rw [ends_look_bind]
  have hns : (pt, i) ∉ D := fun hc => absurd (hb.stale pt i _ _ hc hpt) (by omega)
  by_cases hv : m.pte pt i &&& PTE_V = 0
  · rw [if_neg fun hc => hc.1 hv, if_neg (fun hc => hc hv), ends_pure]
    exact ⟨own, h, Pruned.refl _ _ _ _ _, hv, fun _ _ => rfl⟩
  -- a valid entry is not in a page of leaves, so it leads to a lower page-table page
  have hl0 : l ≠ 0 := by
    rintro rfl
    exact hv (hb.leaf pt x hpt i hi)
  have hl := h.down pt r l x i hpt hi hns hv
  unfold Leads at hl
  rw [if_neg hl0] at hl
  rw [if_pos ⟨hv, hl.1⟩]
  have hx : (x * 512 + i) / 512 = x := by omega
  have hxi : (x * 512 + i) % 512 = i := by omega
  refine Ends.bind (hfree _ _ (insert (pt, i) D) m own (h.mono fun _ hc => Or.inr hc) hl.2
    ⟨hb.leaf, fun q j lv y hqj hq => ?_⟩ fun _ q hq => ?_) ?_
  · rcases hqj with hqj | hqj
    · cases hqj
      rw [hpt] at hq
      cases hq
      omega
    · exact lt_trans (Nat.lt_succ_self l) (hb.stale q j lv y hqj hq)
  · rw [hx] at hq
    rw [hxi, h.node_unique hq hpt]
    exact Or.inl rfl
  rintro _ m1 ⟨own1, h1, hp1, hfree1⟩
  obtain ⟨hpt1, hm1⟩ := hp1.high hpt (Nat.lt_succ_self l)
  have h2 := h1.setEntry (w := 0) (i := i) hpt1 (by decide) hi (fun hc => absurd rfl hc)
    fun p hp => by
      obtain ⟨hp0, -⟩ := hp1.node hp
      rw [h.node_unique hp0 hl.2, hfree1] at hp
      cases hp
  rw [Set.insert_sdiff_self_of_notMem hns] at h2
  refine ⟨own1, h2, ?_, ?_, fun j hj => ?_⟩
  · refine (hp1.mono le_rfl (by simp)).trans fun q => Or.inl ⟨rfl, fun hq => ?_⟩
    exact Kmem.setPte_mem_of_ne _ _ _ hq
  · rw [Kmem.pte_setPte_self _ (by decide), Nat.zero_and]
  · rw [Kmem.pte_setPte_of_ne _ fun hc => hj hc.2, Kmem.pte_congr (hm1 (by simp))]

/-- The loop of `freewalk`. -/
theorem ends_freeFrom {l pt : ℕ} (hfree : FreesAt K allow r l free) (n : ℕ) :
    ∀ (i : ℕ) (m : Kmem) (own : ℕ → Place), i + n = 512 → Owned K D m own →
    own pt = .node r (l + 1) x → Bare r (l + 1) D m own → (∀ j < i, m.pte pt j &&& PTE_V = 0) →
    Ends allow () (freeFrom free pt n i) m fun _ m' => ∃ own', Owned K D m' own' ∧
      Pruned r l {pt} m own m' own' ∧ ∀ j < 512, m'.pte pt j &&& PTE_V = 0 := by
  induction n with
  | zero =>
    intro i m own hin h _ _ hinv
    rw [freeFrom, ends_pure]
    exact ⟨own, h, Pruned.refl _ _ _ _ _, fun j hj => hinv j (by omega)⟩
  | succ n ih =>
    intro i m own hin h hpt hb hinv
    rw [freeFrom]
    refine Ends.bind (ends_freeEntry hfree h hpt hb (by omega)) ?_
    rintro _ m1 ⟨own1, h1, hp1, hi1, hj1⟩
    refine (ih (i + 1) m1 own1 (by omega) h1 (hp1.high hpt (Nat.lt_succ_self l)).1
      (hb.prune hp1 ?_) ?_).mono ?_
    · rintro q rfl j -
      by_cases hji : j = i
      · rw [hji]
        exact Or.inr hi1
      · exact Or.inl (hj1 j hji)
    · intro j hj
      by_cases hji : j = i
      · rwa [hji]
      · rw [hj1 j hji]
        exact hinv j (by omega)
    · rintro _ m2 ⟨own2, h2, hp2, hinv2⟩
      exact ⟨own2, h2, hp1.trans hp2, hinv2⟩

/-- `freewalk` gives back a page-table page and all those below it. -/
theorem freesAt_freewalk (d : ℕ) : FreesAt K allow r d (freewalk K d) := by
  induction d with
  | zero =>
    intro pt x D m own h hpt hb _
    obtain ⟨q, hq, hv, -⟩ := h.up pt r 0 x hpt (by decide)
    exact absurd (hb.leaf q _ hq _ (Nat.mod_lt _ (by decide))) hv
  | succ d ih =>
    intro pt x D m own h hpt hb hpar
    rw [freewalk]
    refine Ends.bind (ends_freeFrom ih 512 0 m own (by decide) h hpt hb (by simp)) ?_
    rintro _ m1 ⟨own1, h1, hp1, hinv1⟩
    have hpt1 := (hp1.high hpt (Nat.lt_succ_self d)).1
    have h2 := h1.release hpt1 (fun hd q hq => hpar hd q (hp1.node hq).1) fun _ => hinv1
    refine ends_kfree h2 (by rw [update_self]) fun m3 h3 hm3 => ?_
    rw [update_idem] at h3
    refine ⟨_, h3, fun q => ?_, by rw [update_self]⟩
    obtain rfl | hq := eq_or_ne q pt
    · exact Or.inr ⟨by rw [update_self], _, _, hpt, le_rfl⟩
    · rw [update_of_ne hq, hm3 q hq]
      rcases hp1 q with ⟨h4, h5⟩ | ⟨h4, lv, y, h5, h6⟩
      · exact Or.inl ⟨h4, fun _ => h5 hq⟩
      · exact Or.inr ⟨h4, lv, y, h5, h6.trans (Nat.le_succ d)⟩

/-- What giving back a whole table does. -/
structure Dropped (r : ℕ) (m : Kmem) (own : ℕ → Place) (m' : Kmem) (own' : ℕ → Place) : Prop where
  frame : Frame r ∅ m own m' own'
  gone : ∀ q lv y, own' q ≠ .node r lv y

/-- A table made out of free pages leaves nothing behind. -/
theorem Dropped.own_eq (hd : Dropped r m own m' own') (h : Owned K ∅ m own)
    (hr : own r = .free) : own' = own := by
  have hnn : ∀ q lv y, own q ≠ .node r lv y := fun q lv y =>
    h.not_node (by rw [hr]; exact Place.noConfusion)
  funext q
  by_cases hm : Mine r (own q)
  · have hm' := hd.frame.mine q (by simp) hm
    cases hq : own q with
    | free =>
      cases hq' : own' q with
      | free => rfl
      | node r' lv y =>
        rw [hq'] at hm'
        obtain rfl : r' = r := hm'
        exact absurd hq' (hd.gone q lv y)
      | outside => rw [hq'] at hm'; exact hm'.elim
      | held => rw [hq'] at hm'; exact hm'.elim
    | node r' lv y =>
      rw [hq] at hm
      obtain rfl : r' = r := hm
      exact absurd hq (hnn q lv y)
    | outside => rw [hq] at hm; exact hm.elim
    | held => rw [hq] at hm; exact hm.elim
  · exact (hd.frame.keep q (by simp) hm).1

theorem Dropped.mem_eq (hd : Dropped r m own m' own') (h : Owned K ∅ m own)
    (hr : own r = .free) (hq : own q ≠ .free) : m'.mem q = m.mem q := by
  refine (hd.frame.keep q (by simp) fun hm => ?_).2
  cases hq' : own q with
  | free => exact hq hq'
  | node r' lv y =>
    rw [hq'] at hm
    obtain rfl : r' = r := hm
    exact h.not_node (by rw [hr]; exact Place.noConfusion) hq'
  | outside => rw [hq'] at hm; exact hm
  | held => rw [hq'] at hm; exact hm

/-- **`freewalk` gives back every page of a table** that maps nothing. -/
theorem ends_freewalk (h : Owned K ∅ m own) (hr : own r = .node r 3 0)
    (hnone : ∀ v < 512 ^ 3, m.lookup r v &&& PTE_V = 0)
    (hQ : ∀ m' own', Owned K ∅ m' own' → Dropped r m own m' own' → Q () m') :
    Ends allow () (freewalk K 3 r) m Q := by
  refine (freesAt_freewalk 3 r 0 ∅ m own h hr ⟨fun q y hq i hi => ?_, by simp⟩
    (fun hc => absurd hc (by decide))).mono ?_
  · -- the entry is read for some page of the address space
    obtain ⟨q', hq'⟩ := h.above hq 2 (by decide)
    have hy := (h.root q' r _ hq').2
    have hlt : y < 512 ^ 2 := (Nat.div_eq_zero_iff_lt (by decide)).mp hy
    have hv : y * 512 + i < 512 ^ 3 := by omega
    have := hnone _ hv
    rwa [h.lookup_eq hr hv (q := q) (by rw [hq, show (y * 512 + i) / 512 = y by omega]),
      show (y * 512 + i) % 512 = i by omega] at this
  · rintro _ m' ⟨own', h', hp, hfree⟩
    refine hQ m' own' h' ⟨⟨fun q _ hn => ?_, fun q _ hm => ?_⟩, fun q lv y hq => ?_⟩
    · rcases hp q with ⟨h1, h2⟩ | ⟨-, lv, y, h1, -⟩
      · exact ⟨h1, h2 (by simp)⟩
      · exact absurd (by rw [h1]; rfl) hn
    · rcases hp q with ⟨h1, -⟩ | ⟨h1, -⟩
      · rwa [h1]
      · rw [h1]
        trivial
    · -- a page that is left would be below the root
      refine h'.not_node ?_ hq
      rw [hfree]
      exact Place.noConfusion

end Xv6.Vm
