import Xv6.Process.Lazy

/-!
# User memory, byte by byte

`copyout` and `copyin` work on whole pages: each round rounds an address down, walks the table,
perhaps allocates a page, and moves a part of it.  Here is what that comes to for the single
byte of physical memory: which ones are written or read, and that no other page that is in use
changes.

`uvmcopy` and `uvmalloc` can run out of memory at any page.  Either they have done all of it, or
the table maps what it mapped before.

## Main definitions

* `Kmem.byteAt` — the byte at a user address.

## Main results

* `user_copies_exact` — **`copyout` and `copyin` move the bytes of the range, and touch no other.**
* `copied_whole_or_not` — **`uvmcopy` and `uvmalloc` leave nothing half done.**
-/

namespace Xv6.Process

open Conc Vm

variable {K : Layout} {allow : String → Prop} {m m' m'' : Kmem} {own own' own'' : ℕ → Place}
  {p q r v va sz n tr tf lo hi : ℕ}

/-! ### What is written -/

/-- The byte at an address, if the user may read it. -/
def Kmem.byteAt (m : Kmem) (r va : ℕ) : Option UInt8 :=
  if va ≥ MAXVA then none
  else (m.map r (va / PGSIZE)).bind fun e =>
    if e.2 &&& PTE_U = 0 then none else some (m.mem e.1 (va % PGSIZE))

theorem byteAt_of_shows {b : UInt8} (h : m.Shows r va b) : Kmem.byteAt m r va = some b := by
  obtain ⟨hva, hv, hu, hb⟩ := h
  rw [Kmem.byteAt, if_neg (not_le.mpr hva), Table.map_eq rfl hv, Option.bind_some,
    PTE_FLAGS_and (by decide), if_neg hu, hb]

theorem mine_cases (h : Owned K ∅ m own) (hr : own r = .node r 3 0) (hp : Mine r (own p)) :
    p ∈ m.freelist ∨ (∃ d < 3, ∃ x, m.pageAt r d x = some p) ∨ ∃ v, own p = .node r 0 v := by
  cases ho : own p with
  | outside =>
    rw [ho] at hp
    exact hp.elim
  | held =>
    rw [ho] at hp
    exact hp.elim
  | free => exact Or.inl ((h.free p).mpr ho)
  | node r' lv x =>
    rw [ho] at hp
    obtain rfl : r' = r := hp
    have hlv := h.level p r' lv x ho
    cases lv with
    | zero => exact Or.inr (Or.inr ⟨x, rfl⟩)
    | succ lv =>
      have hd : 3 - (lv + 1) + (lv + 1) = 3 := Nat.sub_add_cancel hlv
      exact Or.inr (Or.inl ⟨3 - (lv + 1), by omega, x,
        (h.pageAt_iff hr hd fun hc => nomatch hc).mpr ho⟩)

/-! ### The results -/

/-- **`copyout` and `copyin` move the bytes of the range, and touch no other.**  What `copyout`
changes in a page that is neither free nor a page of the table itself is at an address of the range
that the user may write to; whatever it maps is below the size, at the range, and zero outside of
it. -/
theorem user_copies_exact (h : Owned K ∅ m own) (hS : Space m own r (pages sz) tr tf)
    (hsz : sz ≤ TRAPFRAME) :
    (∀ dstva src, Ends (fun _ => False) () (copyout K sz r r dstva src) m fun ok m' =>
      (ok = true → ∀ i < src.length, Kmem.byteAt m' r (dstva + i) = src[i]?) ∧
      (∀ p a, m'.mem p a ≠ m.mem p a → p ∉ m.freelist → (∀ d < 3, ∀ x, m.pageAt r d x ≠ some p) →
        ∃ va f, (dstva ≤ va ∧ va < dstva + src.length) ∧ va % PGSIZE = a ∧
          m.map r (va / PGSIZE) = some (p, f) ∧
          f &&& PTE_U ≠ 0 ∧ f &&& PTE_W ≠ 0) ∧
      ∀ v < MAXVA / PGSIZE, m'.map r v = m.map r v ∨ m.map r v = none ∧ v < pages sz ∧
        (∃ va, (dstva ≤ va ∧ va < dstva + src.length) ∧ va / PGSIZE = v) ∧
        ∃ p, m'.map r v = some (p, PTE_W ||| PTE_U ||| PTE_R ||| PTE_V) ∧ ∀ a < PGSIZE,
          ¬ (dstva ≤ v * PGSIZE + a ∧ v * PGSIZE + a < dstva + src.length) → m'.mem p a = 0) ∧
    ∀ srcva len, Ends (fun _ => False) () (copyin K sz r r srcva len) m fun o m' =>
      (o.1 = true → o.2.length = len) ∧ ∀ i < o.2.length, Kmem.byteAt m' r
      (srcva + i) = o.2[i]? := by
  refine ⟨fun dstva src => ?_, fun srcva len => ?_⟩
  · refine (ends_copyoutFrom hsz _ dstva src m own le_rfl h hS).mono fun ok m' hm' => ?_
    obtain ⟨own', hw, hok, -⟩ := hm'
    have h' := hw.owned
    have hS' := hw.space
    refine ⟨fun hk i hi => ?_, fun p a ha hfree htab => ?_, fun v hv => ?_⟩
    · have hb := List.getElem?_eq_getElem hi
      rw [hb]
      exact byteAt_of_shows (hok hk i _ hb)
    · -- a page of the table that is neither free nor a node is a leaf
      have hmine : Mine r (own p) := by
        by_contra hc
        exact ha (by rw [(hw.frame.keep p (Set.notMem_empty p) hc).2])
      rcases mine_cases h hS.root hmine with hc | ⟨d, hd, x, hc⟩ | ⟨x, hp⟩
      · exact absurd hc hfree
      · exact absurd hc (htab d hd x)
      obtain ⟨hlt, hin, hu, hW⟩ := (hw.leaf p x hp).2.2 a ha
      obtain ⟨hval, hpa, -⟩ := h.lookup_of_leaf hS.root (leaf_lt h hp) hp
      have hdiv : (x * PGSIZE + a) / PGSIZE = x ∧ (x * PGSIZE + a) % PGSIZE = a := by
        rw [Nat.mul_comm, Nat.mul_add_div (by decide), Nat.mul_add_mod, Nat.div_eq_of_lt hlt,
          Nat.mod_eq_of_lt hlt]
        exact ⟨Nat.add_zero x, rfl⟩
      refine ⟨x * PGSIZE + a, PTE_FLAGS (m.lookup r x), hin, hdiv.2, ?_, ?_, ?_⟩
      · rw [hdiv.1, Table.map_eq rfl hval, hpa]
      · rwa [PTE_FLAGS_and (by decide)]
      · rwa [PTE_FLAGS_and (by decide)]
    · have hv : v < 512 ^ 3 := lt_of_lt_of_le hv (by decide)
      by_cases hs : Special v
      · exact Or.inl (Table.map_congr (hw.special v hs))
      by_cases hval : m.lookup r v &&& PTE_V = 0
      · by_cases hval' : m'.lookup r v &&& PTE_V = 0
        · left
          rw [Table.map_eq_none.mpr hval, Table.map_eq_none.mpr hval']
        · have ho := (h'.leaf_of_lookup hS'.root hv hval').2 hs
          rcases hw.new _ v ho with hc | ⟨-, hlt, hin, hlk, hz⟩
          · exact absurd hval (h.lookup_of_leaf hS.root hv hc).1
          · refine Or.inr ⟨Table.map_eq_none.mpr hval, hlt, hin, _, ?_, hz⟩
            rw [Table.map_eq hlk (mkPte_valid _ _), PTE2PA_mkPte (by decide),
              PTE_FLAGS_mkPte (by decide)]
      · exact Or.inl (Table.map_congr (hw.leaf _ v ((h.leaf_of_lookup hS.root hv hval).2 hs)).2.1)
  · refine (ends_copyinFrom hsz _ srcva len m own le_rfl h hS).mono fun o m' hm' => ?_
    obtain ⟨own', -, -, hok, hbytes, -⟩ := hm'
    refine ⟨hok, fun i hi => ?_⟩
    have hb := List.getElem?_eq_getElem hi
    rw [hb]
    exact byteAt_of_shows (hbytes i _ hb)

set_option maxRecDepth 1000 in
/-- Four bytes are written across the boundary of two pages that are missing, and read again. -/
theorem user_copies_exact_across : ∃ s s2 m',
    (machine smallLayout (fun _ => False) RequestOk).Reachable s ∧ (s.proc 0).sz = 2 * PGSIZE ∧
    s.kmem.map (s.proc 0).pagetable 0 = none ∧ s.kmem.map (s.proc 0).pagetable 1 = none ∧
    (copyout smallLayout (2 * PGSIZE) (s.proc 0).pagetable (s.proc 0).pagetable 4094
      [1, 2, 3, 4]).run () s.kmem = .ok true m' ∧
    (∀ i < 4, Kmem.byteAt m' (s.proc 0).pagetable (4094 + i) = [1, 2, 3, 4][i]?) ∧
    (machine smallLayout (fun _ => False) RequestOk).Reachable s2 ∧ ∃ m2,
      (copyin smallLayout (2 * PGSIZE) (s2.proc 0).pagetable (s2.proc 0).pagetable 4094 4).run ()
        s2.kmem = .ok (true, [1, 2, 3, 4]) m2 ∧
      ∀ i < 4, Kmem.byteAt m2 (s2.proc 0).pagetable (4094 + i) = [1, 2, 3, 4][i]? := by
  have hle : 2 * PGSIZE ≤ TRAPFRAME := by decide
  obtain ⟨s, hs, hrun, hsz, h0, h1, hout⟩ := exists_of_play (fun _ _ _ _ hreq => hreq)
    (P := fun s => (s.proc 0).state = .RUNNABLE ∧ (s.proc 0).sz = 2 * PGSIZE ∧
      s.kmem.map (s.proc 0).pagetable 0 = none ∧ s.kmem.map (s.proc 0).pagetable 1 = none ∧
      ((copyout smallLayout (2 * PGSIZE) (s.proc 0).pagetable (s.proc 0).pagetable 4094
        [1, 2, 3, 4]).run () s.kmem).value? = some true)
    [(0, .sbrk 8192 2)] (by decide +kernel)
  obtain ⟨s2, hs2, hrun2, hsz2, hin⟩ := exists_of_play (fun _ _ _ _ hreq => hreq)
    (P := fun s => (s.proc 0).state = .RUNNABLE ∧ (s.proc 0).sz = 2 * PGSIZE ∧
      ((copyin smallLayout (2 * PGSIZE) (s.proc 0).pagetable (s.proc 0).pagetable 4094 4).run ()
        s.kmem).value? = some (true, [1, 2, 3, 4]))
    [(0, .sbrk 8192 2), (0, .copyout 4094 [1, 2, 3, 4])] (by decide +kernel)
  obtain ⟨own, h, hS⟩ := space_of_reachable hs hrun
  obtain ⟨own2, h2, hS2⟩ := space_of_reachable hs2 hrun2
  rw [hsz] at hS
  rw [hsz2] at hS2
  obtain ⟨m', hr⟩ := Result.exists_of_value? hout
  obtain ⟨m2, hr2⟩ := Result.exists_of_value? hin
  have hbytes := (((user_copies_exact h hS hle).1 4094 [1, 2, 3, 4]).of_run hr).1 rfl
  have hbytes2 := (((user_copies_exact h2 hS2 hle).2 4094 4).of_run hr2).2
  exact ⟨s, s2, m', hs, hsz, h0, h1, hr, hbytes, hs2, m2, hr2, hbytes2⟩

/-! ### All or nothing -/

/-- Where a table maps what it mapped before, the pages it took are its own page-table pages. -/
theorem given_back (h : Owned K ∅ m own) (h' : Owned K ∅ m' own') (hr : own r = .node r 3 0)
    (hr' : own' r = .node r 3 0) (hframe : Frame r ∅ m own m' own')
    (hmap : ∀ v < 512 ^ 3, m'.map r v = m.map r v) (hp : p ∈ m.freelist) :
    p ∈ m'.freelist ∨ ∃ d < 3, ∃ x, m'.pageAt r d x = some p := by
  have hfree := (h.free p).mp hp
  have hmine := hframe.mine p (Set.notMem_empty p) (by rw [hfree]; trivial)
  refine (mine_cases h' hr' hmine).imp_right fun hc => hc.resolve_right fun hleaf => ?_
  obtain ⟨v, hv⟩ := hleaf
  have hlt := leaf_lt h' hv
  obtain ⟨hval, hpa, hs⟩ := h'.lookup_of_leaf hr' hlt hv
  have hm := hmap v hlt
  rw [Table.map_eq rfl hval, hpa] at hm
  have hval0 : m.lookup r v &&& PTE_V ≠ 0 := fun hc => by
    rw [Table.map_eq_none.mpr hc] at hm
    cases hm
  rw [Table.map_eq rfl hval0, Option.some.injEq, Prod.mk.injEq] at hm
  have ho := (h.leaf_of_lookup hr hlt hval0).2 hs
  rw [← hm.1, hfree] at ho
  cases ho

theorem flags_or_V {e : ℕ} (he : e &&& PTE_V ≠ 0) : PTE_FLAGS e ||| PTE_V = PTE_FLAGS e := by
  have hone : e % 2 = 1 := by
    rw [Nat.and_one_is_mod] at he
    omega
  apply Nat.eq_of_testBit_eq
  intro i
  cases i with
  | zero => simp [PTE_FLAGS, Nat.testBit_zero, hone]
  | succ i =>
    have hV : PTE_V.testBit (i + 1) = false := by
      rw [Nat.testBit_succ]
      exact Nat.zero_testBit i
    rw [Nat.testBit_or, hV, Bool.or_false]

/-- **`uvmcopy` and `uvmalloc` leave nothing half done.**  A copy has the parent's pages, flags and
bytes, in pages that are not the parent's; where it fails, the child has no user page.  Memory that
could not be grown is mapped as before, and of the pages that were free only page-table pages are
not free again. -/
theorem copied_whole_or_not (h : Owned K ∅ m own) :
    (∀ old new tr tf tr' tf', old ≠ new → sz ≤ TRAPFRAME → Space m own old (pages sz) tr tf →
      own tr = .outside →
      own tf = .held → Space m own new 0 tr' tf' → Ends (fun _ => False) () (uvmcopy K old new sz) m
        fun ok m' =>
        (ok = true → ∀ u < TRAPFRAME / PGSIZE, m'.map old u = m.map old u ∧
          (m'.map new u).map Prod.snd = (m.map old u).map Prod.snd ∧
          ∀ p q f g, m.map old u = some (p, f) → m'.map new u = some (q, g) → m'.mem q = m.mem p ∧
            (∀ d < 3, ∀ x, m'.pageAt old d x ≠ some q) ∧
              ∀ v < MAXVA / PGSIZE, ∀ f, m'.map old v ≠ some (q, f)) ∧
        (ok = false → ∀ u < TRAPFRAME / PGSIZE, m'.map new u = none)) ∧
    ∀ r tr tf oldsz newsz xperm, Space m own r (pages oldsz) tr tf → oldsz ≤ TRAPFRAME →
      xperm < 2 ^ 10 →
      Ends (fun msg => msg = "mappages: remap" ∧ TRAPFRAME < newsz) ()
        (uvmalloc K r oldsz newsz xperm) m
        fun size m' => size = 0 → (∀ u < MAXVA / PGSIZE, m'.map r u = m.map r u) ∧
          ∀ p ∈ m.freelist, p ∈ m'.freelist ∨ ∃ d < 3, ∃ x, m'.pageAt r d x = some p := by
  have htop : TRAPFRAME / PGSIZE = 2 ^ 26 - 2 := by decide
  refine ⟨fun old new tr tf tr' tf' hne hsz hSo htr htf hSn => ?_,
    fun r tr tf oldsz newsz xperm hS ho hx => ?_⟩
  · refine ends_uvmcopy hne h hSo hSn hsz (fun m' own' h' hU => ⟨nofun, fun _ u hu => ?_⟩)
      fun m' own' h' he hc => ⟨fun _ u hu => ?_, nofun⟩
    · rw [htop] at hu
      exact Table.map_eq_none.mpr (hU.gone u (by omega) hu)
    rw [htop] at hu
    have hold := (he.frame.node_iff hne).mpr hSo.root
    obtain ⟨hlk, hmem⟩ := Edit.old_eq hne he h h' hSo.root hu
    refine ⟨Table.map_congr hlk, ?_⟩
    -- pages beyond the size are mapped in neither
    by_cases hval : m.lookup old u &&& PTE_V = 0
    · have hnew : m'.lookup new u &&& PTE_V = 0 := by
        by_cases hlt : u < pages sz
        · exact (hc u hlt).1 (by rwa [hlk])
        · rw [he.other u (by omega) hlt]
          exact hSn.unmapped (Nat.zero_le _) hu
      rw [Table.map_eq_none.mpr hval, Table.map_eq_none.mpr hnew]
      exact ⟨rfl, nofun⟩
    have hlt : u < pages sz := (hSo.bound u (by omega) hval).resolve_right (not_special hu)
    obtain ⟨q, hq, hqm⟩ := (hc u hlt).2 (by rwa [hlk])
    rw [hlk] at hq hqm
    rw [Table.map_eq rfl hval, Table.map_eq hq (mkPte_valid _ _), PTE2PA_mkPte (PTE_FLAGS_lt _),
      PTE_FLAGS_mkPte (PTE_FLAGS_lt _), flags_or_V hval]
    refine ⟨rfl, fun p q' f g hp hg => ?_⟩
    cases hp
    cases hg
    have hown : own' q = .node new 0 u := by
      have hl := (h'.leaf_of_lookup he.root (by omega) (by rw [hq]; exact mkPte_valid _ _)).2
        (not_special hu)
      rwa [hq, PTE2PA_mkPte (PTE_FLAGS_lt _)] at hl
    have hother : ∀ lv x, own' q ≠ .node old lv x := by
      intro lv x hc
      rw [hown] at hc
      injection hc with hc
      exact hne hc.symm
    refine ⟨hqm.trans (hmem hval), fun d hd x hx => ?_, fun v hv f hf => ?_⟩
    · exact hother _ _ ((h'.pageAt_iff hold (Nat.add_sub_cancel' (by omega : d ≤ 3)) (by omega)).mp
        hx)
    · have hv : v < 512 ^ 3 := lt_of_lt_of_le hv (by decide)
      have hlv := he.frame.lookup_eq h h' hne hSo.root hv
      have hval' : m'.lookup old v &&& PTE_V ≠ 0 := fun hc => by
        rw [Table.map_eq_none.mpr hc] at hf
        cases hf
      rw [Table.map_eq rfl hval', Option.some.injEq, Prod.mk.injEq] at hf
      by_cases hs : Special v
      · -- the pages at the top of the address space stay where they are
        have hkeep : ∀ z, own z = .outside ∨ own z = .held → q ≠ z := by
          rintro z hz rfl
          have hn : ¬ Mine new (own q) := by rcases hz with hz | hz <;> rw [hz] <;> exact id
          rw [(he.frame.keep q (Set.notMem_empty q) hn).1] at hown
          rcases hz with hz | hz <;> rw [hz] at hown <;> cases hown
        rw [hlv] at hf
        rcases special_iff.mp hs with rfl | rfl
        · rw [hSo.trampoline, PTE2PA_mkPte (by decide)] at hf
          exact hkeep tr (Or.inl htr) hf.1.symm
        · rw [hSo.trapframe, PTE2PA_mkPte (by decide)] at hf
          exact hkeep tf (Or.inr htf) hf.1.symm
      · have hl := (h'.leaf_of_lookup hold hv hval').2 hs
        rw [hf.1] at hl
        exact hother _ _ hl
  · have hsame : ∀ m' own' (P : ℕ → Prop), Owned K ∅ m' own' → Edit r P m own m' own' →
        (∀ v < 512 ^ 3, P v → m.map r v = none ∧ m'.map r v = none) →
        (∀ u < MAXVA / PGSIZE, m'.map r u = m.map r u) ∧
          ∀ p ∈ m.freelist, p ∈ m'.freelist ∨ ∃ d < 3, ∃ x, m'.pageAt r d x = some p := by
      intro m' own' P h' he hP
      have hmap : ∀ v < 512 ^ 3, m'.map r v = m.map r v := by
        intro v hv
        by_cases hPv : P v
        · rw [(hP v hv hPv).1, (hP v hv hPv).2]
        · exact Table.map_congr (he.other v hv hPv)
      exact ⟨fun u hu => hmap u (lt_of_lt_of_le hu (by decide)),
        fun p hp => given_back h h' hS.root he.root he.frame hmap hp⟩
    by_cases hle : newsz < oldsz
    · rw [uvmalloc, if_pos hle]
      exact fun h0 => absurd h0 (by omega)
    refine ends_uvmalloc h hS ho hx (not_lt.mp hle) ?_
      (fun m' own' h' hU _ => hsame m' own' _ h' hU.toEdit ?_)
      fun m' own' _ h' he _ _ h0 => hsame m' own' _ h' he fun v _ hv => ?_
    · by_cases hbig : TRAPFRAME < newsz
      · exact Or.inr (Or.inr ⟨rfl, hbig⟩)
      · exact Or.inl (pages_le (not_lt.mp hbig))
    · -- nothing was mapped above the old size, and nothing is
      exact fun v hv hP => ⟨Table.map_eq_none.mpr (hS.unmapped hP.1 hP.2),
        Table.map_eq_none.mpr (hU.gone v hv hP)⟩
    · subst h0
      have : pages 0 = 0 := by decide
      omega

/-- A process has a byte in its first page, a new table could be made, and its memory copied. -/
def copies (K : Layout) (p : Proc) : Result Kmem (Option ℕ) → Bool
  | .ok (some new) m => decide (((uvmcopy K p.pagetable new p.sz).run () m).value? = some true ∧
      ((m.map p.pagetable 0).any fun e => m.mem e.1 0 = 42) = true)
  | _ => false

/-- The first process asks for a page and writes a byte into it; the page is copied to a new
table. -/
theorem copied_whole_or_not_forked : ∃ m own old new tr tf m' p q f, Owned smallLayout ∅ m own ∧
    Space m own old (pages PGSIZE) tr tf ∧ Space m own new 0 tr tf ∧
    (uvmcopy smallLayout old new PGSIZE).run () m = .ok true m' ∧ m.map old 0 = some (p, f) ∧
    m.mem p 0 = 42 ∧ m'.map new 0 = some (q, f) ∧ m'.mem q = m.mem p ∧
    ∀ v < MAXVA / PGSIZE, ∀ f, m'.map old v ≠ some (q, f) := by
  obtain ⟨s, hs, hrun, hsz, hcopies⟩ := exists_of_play (fun _ _ _ _ hreq => hreq)
    (P := fun s => (s.proc 0).state = .RUNNABLE ∧ (s.proc 0).sz = PGSIZE ∧
      copies smallLayout (s.proc 0)
        ((proc_pagetable smallLayout (s.proc 0).trapframe).run () s.kmem) = true)
    [(0, .sbrk 4096 2), (0, .copyout 0 [42])] (by decide +kernel)
  obtain ⟨⟨hW, own, hI⟩, -⟩ := sizes_of_reachable hs
  obtain ⟨htf, hpt⟩ := hW.runnable hrun
  have hS := hI.space 0 hpt id
  rw [hsz] at hS
  have hheld := hI.trapframe_held htf
  -- the child's table, as `kfork` makes it
  have hE : Ends (fun _ => False) () (proc_pagetable smallLayout (s.proc 0).trapframe) s.kmem
      fun o m' => o = none ∨
        ∃ r own', o = some r ∧ Fresh smallLayout r 0 (s.proc 0).trapframe s.kmem own m' own' :=
    ends_proc_pagetable hI.owned hheld (fun _ _ => Or.inl rfl)
      fun r m' own' hF => Or.inr ⟨r, own', rfl, hF⟩
  obtain ⟨o, m, hnew, ho⟩ := hE.exists_run
  rw [hnew] at hcopies
  obtain rfl | ⟨new, own', rfl, hF⟩ := ho
  · cases hcopies
  obtain ⟨hval, hbyte⟩ := of_decide_eq_true hcopies
  rw [hsz] at hval
  obtain ⟨m', hcopy⟩ := Result.exists_of_value? hval
  obtain ⟨⟨p, f⟩, hmap, hbyte⟩ := (Option.any_eq_true _ _).mp hbyte
  have hne := hI.pagetable_ne hF.free 0
  have hold := Space.frame hS hI.owned hF.owned hF.frame hne
  obtain ⟨-, hflags, hpages⟩ :=
    (((copied_whole_or_not hF.owned).1 _ new _ _ _ _ hne (by decide) hold
    (trampoline_outside hF.owned) (hF.frame.held_iff.mpr hheld) hF.space).of_run hcopy).1 rfl 0
    (by decide)
  rw [hmap] at hflags
  obtain ⟨⟨q, g⟩, hq, hg⟩ := Option.map_eq_some_iff.mp hflags
  obtain rfl : g = f := hg
  obtain ⟨hmem, -, hother⟩ := hpages p q g g hmap hq
  exact ⟨m, own', _, new, _, _, m', p, q, g, hF.owned, hold, hF.space, hcopy, hmap,
    of_decide_eq_true hbyte, hq, hmem, hother⟩

end Xv6.Process
