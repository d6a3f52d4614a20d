import Xv6.Process.Model
import Xv6.Vm.Lazy

/-!
# Making, loading and freeing user images

What `proc_pagetable`, `proc_freepagetable` and the building of a new image in
`kexec` do to physical memory.  An image is built in pages that were free, in a
table that no process has yet: if anything fails, every page goes back and
nothing else has changed.

The sizes come from the executable, and nothing bounds them but memory: while an
image is built all its pages are mapped, so that the table cannot grow to the
trapframe (`Owned.card_leaves`), every address that is loaded exists, and no copy
to the new stack ever faults.

## Main definitions

* `Fresh`, `Restored` — a table made of free pages; memory as it was.
* `Loaded` — an image under construction.
* `Fits`, `Pile` — arguments the stack has room for; what lies on it.

## Main results

* `ends_proc_pagetable`, `ends_proc_freepagetable` — tables are made and freed whole.
* `ends_buildImage` — **an image is built, or everything is as it was.**
-/

namespace Xv6.Process

open Conc Vm Function

variable {K : Layout} {allow : String → Prop} {m m' : Kmem} {own own' : ℕ → Place}
  {p q r v va sz n tf perm : ℕ}

theorem TRAMPOLINE_eq : TRAMPOLINE = (2 ^ 26 - 1) * PGSIZE := by decide

theorem TRAPFRAME_eq_mul : TRAPFRAME = (2 ^ 26 - 2) * PGSIZE := by decide

theorem special_trampoline : Special (2 ^ 26 - 1) := special_iff.mpr (Or.inl rfl)

theorem special_trapframe : Special (2 ^ 26 - 2) := special_iff.mpr (Or.inr rfl)

/-! ### Page tables of processes -/

theorem ends_unmap_special (h : Owned K ∅ m own) (hr : own r = .node r 3 0) (hs : Special v)
    {Q : Unit → Kmem → Prop}
    (hQ : ∀ m' own', Owned K ∅ m' own' → Unmapped r (· = v) m own m' own' → Q () m') :
    Ends allow () (uvmunmap K r (v * PGSIZE) 1 false) m Q := by
  refine ends_uvmunmap h hr ?_ (fun u hu hu' => ?_) fun m' own' h' hun => ?_
  · rw [show MAXVA / PGSIZE = 2 ^ 26 by decide]
    rcases special_iff.mp hs with rfl | rfl <;> omega
  · obtain rfl : u = v := by omega
    exact iff_of_false (by decide) fun hc => hc hs
  · exact hQ m' own' h' (hun.congr fun u => by omega)

/-- **`proc_freepagetable` gives back every page of a process's table.** -/
theorem ends_proc_freepagetable {tr : ℕ} (h : Owned K ∅ m own)
    (hS : Space m own r (pages sz) tr tf) (hsz : sz ≤ TRAPFRAME) {Q : Unit → Kmem → Prop}
    (hQ : ∀ m' own', Owned K ∅ m' own' → Dropped r m own m' own' → Q () m') :
    Ends allow () (proc_freepagetable K r sz) m Q := by
  rw [proc_freepagetable, TRAMPOLINE_eq, TRAPFRAME_eq_mul]
  refine Ends.seq (ends_unmap_special h hS.root special_trampoline fun m1 own1 h1 hu1 => ?_)
  refine Ends.seq (ends_unmap_special h1 hu1.root special_trapframe fun m2 own2 h2 hu2 => ?_)
  have hu := hu1.trans hu2
  refine ends_uvmfree h2 hu2.root hsz (fun v hv hval => ?_) fun m' own' h' hd =>
    hQ m' own' h' ⟨hu.frame.trans hd.frame, hd.gone⟩
  -- what is still mapped was mapped before, and is not special
  by_cases hs : v = 2 ^ 26 - 1 ∨ v = 2 ^ 26 - 2
  · exact absurd (hu.gone v hv hs) hval
  · rw [hu.other v hv hs] at hval
    exact (hS.bound v hv hval).resolve_right fun hc => hs (special_iff.mp hc)

/-- Pages that were free have become the table of an address space of `n` pages. -/
structure Fresh (K : Layout) (r n tf : ℕ) (m : Kmem) (own : ℕ → Place) (m' : Kmem)
    (own' : ℕ → Place) : Prop where
  free : own r = .free
  owned : Owned K ∅ m' own'
  frame : Frame r ∅ m own m' own'
  space : Space m' own' r n K.trampoline tf

/-- Memory is as it was, but for the contents of free pages. -/
structure Restored (K : Layout) (m : Kmem) (own : ℕ → Place) (m' : Kmem) : Prop where
  owned : Owned K ∅ m' own
  mem : ∀ q, own q ≠ .free → m'.mem q = m.mem q

theorem Restored.of_dropped (h : Owned K ∅ m own) (hr : own r = .free) (h' : Owned K ∅ m' own')
    (hd : Dropped r m own m' own') : Restored K m own m' := by
  have heq := hd.own_eq h hr
  rw [heq] at h'
  exact ⟨h', fun q hq => hd.mem_eq h hr hq⟩

theorem Fresh.edit {P : ℕ → Prop} {m'' : Kmem} {own'' : ℕ → Place} {n' : ℕ}
    (hf : Fresh K r n tf m own m' own') (h'' : Owned K ∅ m'' own'')
    (he : Edit r P m' own' m'' own'')
    (hS : Space m'' own'' r n' K.trampoline tf) : Fresh K r n' tf m own m'' own'' :=
  ⟨hf.free, h'', hf.frame.trans he.frame, hS⟩

theorem trampoline_outside (h : Owned K ∅ m own) : own K.trampoline = .outside := by
  by_contra hc
  have hin := (h.range K.trampoline).mp hc
  have := K.trampoline_lt
  omega

variable {Q : Bool → Kmem → Prop}

/-- A special page is mapped in a table that does not map it yet. -/
theorem ends_map_special (h : Owned K ∅ m own) (hr : own r = .node r 3 0)
    (hs : Special v) (hp : ¬ Mine r (own p)) (hlt : p < 2 ^ 44) (hperm : perm < 2 ^ 10)
    (hrwx : perm &&& RWX ≠ 0) (hinv : m.lookup r v &&& PTE_V = 0)
    (hfail : ∀ m' own', Owned K ∅ m' own' → Edit r (fun _ => False) m own m' own' → Q false m')
    (hok : ∀ m' own', Owned K ∅ m' own' → Edit r (· = v) m own m' own' →
      m'.lookup r v = mkPte p perm → Q true m') :
    Ends allow () (mappages r (v * PGSIZE) PGSIZE p perm) m Q := by
  have hv : v < 2 ^ 26 := by
    rcases special_iff.mp hs with rfl | rfl <;> omega
  have hmap : Mappable own r v p := by
    unfold Mappable
    rw [if_pos hs]
    exact ⟨hp, hlt⟩
  refine ends_mappages h hr (Nat.mul_mod_left _ _) (mul_PGSIZE_lt hv) (by rwa [mul_PGSIZE_div])
    hperm hrwx ?_ (fun m' own' h' hg => ?_) fun m' own' _ h' hM => ?_
  · rw [mul_PGSIZE_div]
    exact fun hc => absurd hinv hc
  · exact hfail m' own' h' ⟨hg.frame, hg.nodes r 3 0 hr,
      fun q y hq _ => ⟨hg.nodes q 0 y hq, hg.data q y hq⟩, fun u hu _ => hg.lookup u hu⟩
  · rw [mul_PGSIZE_div] at hM
    refine hok m' own' h' (Mapped.edit_special hs hM) ?_
    rw [hM.lookup v (lt_512 hv), if_pos rfl]

/-- **`proc_pagetable` makes an address space without user pages**, or gives
everything back. -/
theorem ends_proc_pagetable (h : Owned K ∅ m own) (htf : own tf = .held)
    {Q : Option ℕ → Kmem → Prop} (hnone : ∀ m', Restored K m own m' → Q none m')
    (hsome : ∀ r m' own', Fresh K r 0 tf m own m' own' → Q (some r) m') :
    Ends allow () (proc_pagetable K tf) m Q := by
  rw [proc_pagetable]
  refine Ends.seq (ends_uvmcreate h (fun m1 h₁ hm1 => ?_) fun r m1 hr h₁ hm1 hz1 => ?_)
  · exact hnone m1 ⟨h₁, fun q _ => by rw [hm1]⟩
  have hr1 : update own r (.node r 3 0) r = .node r 3 0 := update_self _ _ _
  have hfr1 : Frame r ∅ m own m1 (update own r (.node r 3 0)) := by
    refine Frame.of_update (Or.inl (by rw [hr]; trivial)) (Or.inl rfl) fun q _ hq => hm1 q ?_
    rintro rfl
    rw [hr] at hq
    exact hq trivial
  -- the pages at the top of the address space are not of the table
  have htr1 : update own r (.node r 3 0) K.trampoline = .outside := trampoline_outside h₁
  have htf1 : update own r (.node r 3 0) tf = .held := hfr1.held_iff.mpr htf
  have htrlt : K.trampoline < 2 ^ 44 := by
    have h1 := K.trampoline_lt
    have h2 := K.kend_le
    have h3 : PHYSTOP < 2 ^ 44 := by decide
    omega
  -- a table that maps nothing is freed
  have hdrop : ∀ m2 own2, Owned K ∅ m2 own2 → own2 r = .node r 3 0 → Frame r ∅ m own m2 own2 →
      (∀ v < 512 ^ 3, m2.lookup r v &&& PTE_V = 0) →
      Ends allow () (do uvmfree K r 0; pure none) m2 Q := by
    intro m2 own2 h₂ hr2 hfr hinv
    refine Ends.seq (ends_uvmfree h₂ hr2 (Nat.zero_le _) (fun v hv hc => absurd (hinv v hv) hc)
      fun m3 own3 h₃ hd => ?_)
    exact hnone m3 (Restored.of_dropped h hr h₃ ⟨hfr.trans hd.frame, hd.gone⟩)
  rw [TRAMPOLINE_eq, TRAPFRAME_eq_mul]
  refine Ends.seq (ends_map_special h₁ hr1 special_trampoline (by rw [htr1]; exact id) htrlt
    (by decide) (by decide) (by rw [hz1, Nat.zero_and]) (fun m2 own2 h₂ he2 => ?_)
    fun m2 own2 h₂ he2 hlk2 => ?_)
  · rw [if_neg (by decide)]
    exact hdrop m2 own2 h₂ he2.root (hfr1.trans he2.frame) fun v hv => by
      rw [he2.other v hv (fun hc => hc), hz1, Nat.zero_and]
  rw [if_pos rfl]
  have hzero2 : ∀ v < 512 ^ 3, v ≠ 2 ^ 26 - 1 → m2.lookup r v = 0 := fun v hv hne => by
    rw [he2.other v hv hne, hz1]
  have htf2 : own2 tf = .held := he2.frame.held_iff.mpr htf1
  refine Ends.seq (ends_map_special h₂ he2.root special_trapframe (by rw [htf2]; exact id)
    (h₂.lt (by rw [htf2]; exact Place.noConfusion)) (by decide) (by decide)
    (by rw [hzero2 _ (by decide) (by decide), Nat.zero_and]) (fun m3 own3 h₃ he3 => ?_)
    fun m3 own3 h₃ he3 hlk3 => ?_)
  · rw [if_neg (by decide)]
    refine Ends.seq (ends_unmap_special h₃ he3.root special_trampoline fun m4 own4 h4 hu4 => ?_)
    refine hdrop m4 own4 h4 hu4.root (((hfr1.trans he2.frame).trans he3.frame).trans hu4.frame)
      fun v hv => ?_
    by_cases hv1 : v = 2 ^ 26 - 1
    · exact hu4.gone v hv hv1
    · rw [hu4.other v hv hv1, he3.other v hv (fun hc => hc), hzero2 v hv hv1, Nat.zero_and]
  · rw [if_pos rfl, ends_pure]
    refine hsome r m3 own3 ⟨hr, h₃, (hfr1.trans he2.frame).trans he3.frame, he3.root, ?_, ?_, hlk3⟩
    · intro v hv hval
      by_cases hs : Special v
      · exact Or.inr hs
      · rw [special_iff, not_or] at hs
        rw [he3.other v hv hs.2, hzero2 v hv hs.1, Nat.zero_and] at hval
        exact absurd rfl hval
    · rw [he3.other _ (by decide) (by decide), hlk2]

/-! ### Loading a program -/

/-- Below page `n` the table `r` maps pages that hold `c`, by virtual address. -/
def Holds (m : Kmem) (r n : ℕ) (c : ℕ → UInt8) : Prop :=
  ∀ u < n, m.lookup r u &&& PTE_V ≠ 0 ∧
    ∀ a < PGSIZE, m.mem (PTE2PA (m.lookup r u)) a = c (u * PGSIZE + a)

theorem Holds.keep {c : ℕ → UInt8} (hh : Holds m r n c) (h : Owned K ∅ m own)
    (hr : own r = .node r 3 0)
    (hn : n ≤ 2 ^ 26 - 2) (hlk : ∀ u < n, m'.lookup r u = m.lookup r u)
    (hmem : ∀ q, ∀ u < n, own q = .node r 0 u → m'.mem q = m.mem q) : Holds m' r n c := by
  intro u hu
  rw [hlk u hu,
    hmem _ u hu ((h.leaf_of_lookup hr (by omega) (hh u hu).1).2 (not_special (by omega)))]
  exact hh u hu

theorem Holds.edit {P : ℕ → Prop} {c : ℕ → UInt8} (hh : Holds m r n c) (h : Owned K ∅ m own)
    (hr : own r = .node r 3 0) (hn : n ≤ 2 ^ 26 - 2) (he : Edit r P m own m' own')
    (hP : ∀ u < n, ¬ P u) : Holds m' r n c :=
  hh.keep h hr hn (fun u hu => he.other u (by omega) (hP u hu)) fun q u hu hq =>
    (he.data q u hq (hP u hu)).2

/-- An image of size `sz` under construction, which holds `c`: all its pages are mapped for the
user, and pages to come will be zero. -/
structure Loaded (K : Layout) (r sz tf : ℕ) (c : ℕ → UInt8) (m : Kmem) (own : ℕ → Place) (m' : Kmem)
    (own' : ℕ → Place) : Prop where
  fresh : Fresh K r (pages sz) tf m own m' own'
  le : sz ≤ TRAPFRAME
  full : ∀ u < pages sz, m'.lookup r u &&& PTE_U ≠ 0
  holds : Holds m' r (pages sz) c
  rest : ∀ x, pages sz * PGSIZE ≤ x → c x = 0

theorem Fresh.setLeaf (hf : Fresh K r n tf m own m' own') (hp : own' p = .node r 0 v)
    (b : Bytes.Mem) : Fresh K r n tf m own (m'.setPage p b) own' := by
  exact hf.edit (hf.owned.setLeaf hp b) (Edit.setLeaf hf.owned hf.space.root hp b)
    (hf.space.of_lookup hf.space.root fun u hu => hf.owned.lookup_setLeaf hp b hf.space.root hu)

variable {c c' : ℕ → UInt8}

theorem Loaded.leaf (hl : Loaded K r sz tf c m own m' own') (hv : v < pages sz) :
    own' (PTE2PA (m'.lookup r v)) = .node r 0 v := by
  have hmax := pages_le hl.le
  exact (hl.fresh.owned.leaf_of_lookup hl.fresh.space.root (by omega) (hl.holds v hv).1).2
    (not_special (by omega))

/-- The contents of page `v` are replaced. -/
def putPage (c : ℕ → UInt8) (v : ℕ) (b : Bytes.Mem) : ℕ → UInt8 :=
  fun x => if x / PGSIZE = v then b (x % PGSIZE) else c x

theorem Loaded.setLeaf (hl : Loaded K r sz tf c m own m' own') (hv : v < pages sz) (b : Bytes.Mem) :
    Loaded K r sz tf (putPage c v b) m own (m'.setPage (PTE2PA (m'.lookup r v)) b) own' := by
  have hmax := pages_le hl.le
  have hlk : ∀ u < pages sz, (m'.setPage (PTE2PA (m'.lookup r v)) b).lookup r u = m'.lookup r u :=
    fun u hu => hl.fresh.owned.lookup_setLeaf (hl.leaf hv) b hl.fresh.space.root (by omega)
  refine ⟨hl.fresh.setLeaf (hl.leaf hv) b, hl.le, fun u hu => ?_, fun u hu => ⟨?_, fun a ha => ?_⟩,
    fun x hx => ?_⟩
  · rw [hlk u hu]
    exact hl.full u hu
  · rw [hlk u hu]
    exact (hl.holds u hu).1
  · have hdiv : (u * PGSIZE + a) / PGSIZE = u := by
      rw [Nat.mul_comm, Nat.mul_add_div (by decide), Nat.div_eq_of_lt ha, Nat.add_zero]
    rw [hlk u hu]
    unfold putPage
    rw [hdiv, Nat.mul_comm, Nat.mul_add_mod, Nat.mod_eq_of_lt ha]
    obtain rfl | huv := eq_or_ne u v
    · rw [if_pos rfl, Kmem.setPage_mem_self]
    · rw [if_neg huv, Kmem.setPage_mem_of_ne, (hl.holds u hu).2 a ha, Nat.mul_comm]
      intro hc
      have hu' := hl.leaf hu
      rw [hc, hl.leaf hv] at hu'
      injection hu' with _ _ hu'
      exact huv hu'.symm
  · unfold putPage
    rw [if_neg, hl.rest x hx]
    have hx' := Nat.le_div_iff_mul_le (k := PGSIZE) (by decide) |>.mpr hx
    omega

/-- What `loadseg` reads for the page at distance `j` from its address. -/
def segPage (ip : File) (offset fsz j : ℕ) : List UInt8 :=
  readi ip ((offset + j) % 2 ^ 32) (min (fsz - j) PGSIZE)

/-- The bytes of a segment have been put in their place, from distance `i` on. -/
structure Patched (ip : File) (va offset fsz i : ℕ) (c c' : ℕ → UInt8) : Prop where
  out : ∀ x, x < va + i ∨ va + fsz ≤ x → c' x = c x
  full : ∀ j, i ≤ j → j < fsz → j % PGSIZE = 0 →
    (segPage ip offset fsz j).length = min (fsz - j) PGSIZE
  bytes : ∀ j, i ≤ j → j < fsz → j % PGSIZE = 0 → ∀ a < min (fsz - j) PGSIZE,
    c' (va + j + a) = (segPage ip offset fsz j).getD a 0

variable {ip : File}

/-- One page is put in its place, and then the others. -/
theorem Patched.step {offset fsz i : ℕ} {b : Bytes.Mem} (hva : va % PGSIZE = 0)
    (hi : i % PGSIZE = 0) (hlt : i < fsz) (hb : ∀ a < PGSIZE, b a = c (va + i + a))
    (hfull : (segPage ip offset fsz i).length = min (fsz - i) PGSIZE)
    (hp : Patched ip va offset fsz (i + PGSIZE)
      (putPage c ((va + i) / PGSIZE) (Bytes.write b 0 (segPage ip offset fsz i))) c') :
    Patched ip va offset fsz i c c' := by
  have hva : va % 4096 = 0 := hva
  have hi : i % 4096 = 0 := hi
  -- a later page is at least a page away
  have hlater : ∀ j, i ≤ j → j % PGSIZE = 0 → j = i ∨ i + PGSIZE ≤ j := by
    intro j hj hj0
    have hj0 : j % 4096 = 0 := hj0
    show j = i ∨ i + 4096 ≤ j
    omega
  refine ⟨fun x hx => ?_, fun j hj hjf hj0 => ?_, fun j hj hjf hj0 a ha => ?_⟩
  · rw [hp.out x (by omega)]
    unfold putPage Bytes.write
    by_cases hpg : x / PGSIZE = (va + i) / PGSIZE
    · have hpg' : x / 4096 = (va + i) / 4096 := hpg
      have hm : x % PGSIZE = x - (va + i) ∧ va + i ≤ x := by
        show x % 4096 = x - (va + i) ∧ va + i ≤ x
        omega
      rw [if_pos hpg, if_neg (by rw [hfull, hm.1]; omega), hb _ (Nat.mod_lt _ (by decide)), hm.1,
        Nat.add_sub_cancel' hm.2]
    · rw [if_neg hpg]
  · rcases hlater j hj hj0 with rfl | hle
    · exact hfull
    · exact hp.full j hle hjf hj0
  · rcases hlater j hj hj0 with rfl | hle
    · have ha' : a < 4096 := lt_of_lt_of_le ha (Nat.min_le_right _ _)
      rw [hp.out _ (Or.inl (by show va + j + a < va + (j + 4096); omega))]
      unfold putPage Bytes.write
      have hpg : (va + j + a) / PGSIZE = (va + j) / PGSIZE ∧ (va + j + a) % PGSIZE = a := by
        show (va + j + a) / 4096 = (va + j) / 4096 ∧ (va + j + a) % 4096 = a
        omega
      rw [if_pos hpg.1, hpg.2, if_pos ⟨Nat.zero_le _, by rw [hfull]; omega⟩, Nat.sub_zero]
    · exact hp.bytes j hle hjf hj0 a ha

/-- The loop of `loadseg`. -/
theorem ends_loadsegFrom {offset fsz : ℕ} (hva : va % PGSIZE = 0) (hle : va + fsz ≤ sz) (n : ℕ) :
    ∀ (i : ℕ) (c : ℕ → UInt8) (m' : Kmem), i % PGSIZE = 0 → i + n * 4096 < fsz + 4096 →
    fsz ≤ i + n * 4096 → Loaded K r sz tf c m own m' own' →
    (∀ b c' m', Loaded K r sz tf c' m own m' own' → (b = true → Patched ip va offset fsz i c c') →
      Q b m') →
    Ends allow () (loadsegFrom r va ip offset fsz n i) m' Q := by
  induction n with
  | zero =>
    intro i c m' _ _ hn hl hQ
    exact hQ true c m' hl fun _ => ⟨fun _ _ => rfl, fun j hj hjf => by omega,
      fun j hj hjf => by omega⟩
  | succ n ih =>
    intro i c m' h0 hi hn hl hQ
    have hT := TRAPFRAME_eq
    have hszle := hl.le
    have hmax := pages_le hszle
    have hpg : (va + i) / PGSIZE < pages sz := div_lt_pages (by omega)
    rw [loadsegFrom, Nat.mod_eq_of_lt (show va + i < 2 ^ 64 by omega)]
    refine Ends.seq (Kmem.ends_walkaddr (fun _ hval _ => ?_)
      fun hc => ?_)
    · apply ends_act_bind.mpr
      have hl' := hl.setLeaf hpg (Bytes.write (m'.mem (PTE2PA (m'.lookup r ((va + i) / PGSIZE)))) 0
        (segPage ip offset fsz i))
      split_ifs with hshort
      · exact hQ false _ _ hl' nofun
      · have hi' : (i + PGSIZE) % PGSIZE = 0 := by rw [Nat.add_mod_right, h0]
        refine ih (i + PGSIZE) _ _ hi' (show i + 4096 + n * 4096 < _ by omega)
          (show fsz ≤ i + 4096 + n * 4096 by omega) hl' fun b c' m'' hl'' hp =>
            hQ b c' m'' hl'' fun hb => ?_
        refine (hp hb).step hva h0 (by omega) (fun a ha => ?_) (not_not.mp hshort)
        have hmul : (va + i) / PGSIZE * PGSIZE = va + i :=
          Nat.div_mul_cancel (Nat.dvd_of_mod_eq_zero (by rw [Nat.add_mod, hva, h0, Nat.zero_mod]))
        rw [(hl.holds _ hpg).2 a ha, hmul]
    · -- the page is there: the segment is below the size
      have hlt : va + i < MAXVA := by
        show va + i < 2 ^ 38
        omega
      exact absurd (hc hlt (hl.holds _ hpg).1) (hl.full _ hpg)

theorem ends_loadseg {offset fsz : ℕ} (hva : va % PGSIZE = 0)
    (hle : va + fsz ≤ sz) (hl : Loaded K r sz tf c m own m' own')
    (hQ : ∀ b c' m', Loaded K r sz tf c' m own m' own' →
      (b = true → Patched ip va offset fsz 0 c c') → Q b m') :
    Ends allow () (loadseg r va ip offset fsz) m' Q := by
  refine ends_loadsegFrom hva hle _ 0 c m' rfl ?_ ?_ hl hQ
  · show 0 + (fsz + 4096 - 1) / 4096 * 4096 < fsz + 4096
    omega
  · show fsz ≤ 0 + (fsz + 4096 - 1) / 4096 * 4096
    omega

theorem mkPte_user (p x : ℕ) : mkPte p (PTE_R ||| PTE_U ||| x) &&& PTE_U ≠ 0 := by
  rw [mkPte_eq]
  simp only [Nat.and_or_distrib_right]
  intro hc
  have := (Nat.or_eq_zero_iff.mp (Nat.or_eq_zero_iff.mp (Nat.or_eq_zero_iff.mp
    (Nat.or_eq_zero_iff.mp hc).2).1).1).2
  exact absurd this (by decide)

theorem flags2perm_lt (flags : ℕ) : flags2perm flags < 2 ^ 10 := by
  rw [flags2perm]
  apply Nat.or_lt_two_pow <;> split_ifs <;> decide

theorem field_lt (bytes : List UInt8) (off len : ℕ) : field bytes off len < 256 ^ len :=
  Bytes.get_lt _ _ _

/-- `uvmalloc` for an image: the size is the new one, or the table is as it was. -/
theorem ends_uvmalloc_loaded {newsz xperm : ℕ} {Q : ℕ → Kmem → Prop} (hx : xperm < 2 ^ 10)
    (hl : Loaded K r sz tf c m own m' own') (hle : sz ≤ newsz)
    (hfail : ∀ m' own', Loaded K r sz tf c m own m' own' → Q 0 m')
    (hok : ∀ m' own', Loaded K r newsz tf c m own m' own' →
      Filled m' r (pages sz) (pages newsz) (PTE_R ||| PTE_U ||| xperm) → Q newsz m') :
    Ends allow () (uvmalloc K r sz newsz xperm) m' Q := by
  have hmax := pages_le hl.le
  have hold := hl.fresh.owned
  have hroot := hl.fresh.space.root
  refine ends_uvmalloc hold hl.fresh.space hl.le hx hle
    (Or.inr (Or.inl fun u hu => (hl.holds u hu).1)) (fun m2 own2 h2 hu => ?_)
    fun m2 own2 hnew h2 he hfill hzero => ?_
  · -- `uvmdealloc` takes away what is above the old size
    refine hfail m2 own2 ⟨hl.fresh.edit h2 hu.toEdit (hl.fresh.space.edit hu.toEdit
      (fun v hv => hv.2) fun v hv hs hval => ?_), hl.le, fun u hu' => ?_,
      hl.holds.edit hold hroot hmax hu.toEdit fun u hu' => by omega, hl.rest⟩
    · by_cases hP : pages sz ≤ v ∧ v < 2 ^ 26 - 2
      · exact absurd (hu.gone v hv hP) hval
      · rw [hu.other v hv hP] at hval
        exact (hl.fresh.space.bound v hv hval).resolve_right hs
    · rw [hu.other u (by omega) (by omega)]
      exact hl.full u hu'
  · have hmono := pages_mono hle
    -- the new pages are zeros, as is what is not yet loaded
    have hkeep : Holds m2 r (pages sz) c := hl.holds.edit hold hroot hmax he fun u hu' => by omega
    refine hok m2 own2 ⟨hl.fresh.edit h2 he (hl.fresh.space.edit he (fun v hv => by omega)
      fun v hv hs hval => ?_), le_of_pages_le hnew, fun u hu => ?_, fun u hu => ?_,
      fun x hx => hl.rest x ((Nat.mul_le_mul_right _ hmono).trans hx)⟩ hfill
    · by_cases hP : pages sz ≤ v ∧ v < pages newsz
      · exact hP.2
      · rw [he.other v hv hP] at hval
        exact lt_of_lt_of_le ((hl.fresh.space.bound v hv hval).resolve_right hs) hmono
    · by_cases hP : pages sz ≤ u
      · obtain ⟨p, hp⟩ := hfill u hP hu
        rw [hp]
        exact mkPte_user _ _
      · rw [he.other u (by omega) (by omega)]
        exact hl.full u (by omega)
    · by_cases hP : pages sz ≤ u
      · obtain ⟨p, hp⟩ := hfill u hP hu
        refine ⟨by rw [hp]; exact mkPte_valid _ _, fun a _ => ?_⟩
        rw [hzero u hP hu, hl.rest _ ((Nat.mul_le_mul_right _ hP).trans (Nat.le_add_right _ _))]
      · exact hkeep u (by omega)

/-- The fields of `struct proghdr` that say what is loaded, and where. -/
structure Proghdr where
  off : ℕ
  vaddr : ℕ
  filesz : ℕ
  memsz : ℕ
  deriving DecidableEq

/-- The segments to be loaded, of the program headers that `kexec` reads. -/
def segments (ip : File) : ℕ → ℕ → List Proghdr
  | 0, _ => []
  | n + 1, off =>
      let ph := readi ip off PROGHDR
      if field ph 0 4 ≠ ELF_PROG_LOAD then segments ip n ((off + PROGHDR) % 2 ^ 32)
      else ⟨field ph 8 8, field ph 16 8, field ph 32 8, field ph 40 8⟩ ::
        segments ip n ((off + PROGHDR) % 2 ^ 32)

/-- Two segments have no page in common. -/
def Proghdr.Apart (g g' : Proghdr) : Prop :=
  ∀ v, ¬ ((g.vaddr / PGSIZE ≤ v ∧ v < pages (g.vaddr + g.memsz)) ∧
    g'.vaddr / PGSIZE ≤ v ∧ v < pages (g'.vaddr + g'.memsz))

/-- An image of size `sz` that held `c` and now holds `c'`, with the segments in it. -/
structure Placed (ip : File) (gs : List Proghdr) (sz : ℕ) (c c' : ℕ → UInt8) : Prop where
  inside : ∀ g ∈ gs, g.filesz ≤ g.memsz ∧ g.vaddr + g.memsz ≤ sz
  patched : gs.Pairwise Proghdr.Apart → ∀ g ∈ gs, ∃ c1 c2,
    Patched ip g.vaddr (g.off % 2 ^ 32) (g.filesz % 2 ^ 32) 0 c1 c2 ∧
    ∀ x, g.vaddr ≤ x → x < g.vaddr + g.filesz → c' x = c2 x
  out : ∀ x, (∀ g ∈ gs, x < g.vaddr ∨ g.vaddr + g.filesz ≤ x) → c' x = c x

theorem Placed.cons {g : Proghdr} {gs : List Proghdr} {c1 : ℕ → UInt8}
    (hms : g.filesz ≤ g.memsz) (hsz : g.vaddr + g.memsz ≤ sz)
    (hp : Patched ip g.vaddr (g.off % 2 ^ 32) (g.filesz % 2 ^ 32) 0 c c1)
    (h : Placed ip gs sz c1 c') :
    Placed ip (g :: gs) sz c c' := by
  have hmod := Nat.mod_le g.filesz (2 ^ 32)
  refine ⟨fun g' hg' => ?_, fun hdis g' hg' => ?_, fun x hx => ?_⟩
  · rcases List.mem_cons.mp hg' with rfl | hg'
    · exact ⟨hms, hsz⟩
    · exact h.inside g' hg'
  · obtain ⟨hfar, hdis⟩ := List.pairwise_cons.mp hdis
    rcases List.mem_cons.mp hg' with rfl | hg'
    · -- no later segment has a byte in this one
      refine ⟨c, c1, hp, fun x hlo hhi => h.out x fun g hg => ?_⟩
      by_contra hc
      have hms' := (h.inside g hg).1
      exact hfar g hg (x / PGSIZE) ⟨⟨Nat.div_le_div_right hlo, div_lt_pages (by omega)⟩,
        Nat.div_le_div_right (by omega), div_lt_pages (by omega)⟩
    · exact h.patched hdis g' hg'
  · rw [h.out x fun g' hg' => hx g' (List.mem_cons_of_mem _ hg')]
    have hx' := hx g List.mem_cons_self
    exact hp.out x (by omega)

/-- The loop over the program headers. -/
theorem ends_loadSegments {Q : Bool × ℕ → Kmem → Prop} (n : ℕ) :
    ∀ (off sz : ℕ) (c : ℕ → UInt8) (m' : Kmem) (own' : ℕ → Place), Loaded K r sz tf c m
      own m' own' →
    (∀ b sz' c' m' own', Loaded K r sz' tf c' m own m' own' →
      (b = true → sz ≤ sz' ∧ Placed ip (segments ip n off) sz' c c') → Q (b, sz') m') →
    Ends allow () (loadSegments K r ip n off sz) m' Q := by
  induction n with
  | zero => exact fun _ sz c m' own' hl hQ => hQ true sz c m' own' hl fun _ =>
    ⟨le_rfl, nofun, nofun, fun _ _ => rfl⟩
  | succ n ih =>
    intro off sz c m' own' hl hQ
    rw [loadSegments]
    rw [segments] at hQ
    generalize readi ip off PROGHDR = ph at hQ ⊢
    have hva := field_lt ph 16 8
    have hms := field_lt ph 40 8
    generalize field ph 16 8 = vaddr at hva hQ ⊢
    generalize field ph 40 8 = memsz at hms hQ ⊢
    generalize field ph 32 8 = filesz at hQ ⊢
    generalize field ph 8 8 = poff at hQ ⊢
    split_ifs with h1 h2 h3 h4 h5
    · exact hQ false sz c m' own' hl nofun
    · rw [if_pos h2] at hQ
      exact ih _ sz c m' own' hl hQ
    · exact hQ false sz c m' own' hl nofun
    · exact hQ false sz c m' own' hl nofun
    · exact hQ false sz c m' own' hl nofun
    rw [if_neg h2] at hQ
    -- the end of the segment has not wrapped around
    have hsum : (vaddr + memsz) % 2 ^ 64 = vaddr + memsz := by
      omega
    rw [hsum]
    have hseg : vaddr + filesz % 2 ^ 32 ≤ vaddr + memsz := by
      have := Nat.mod_le (filesz) (2 ^ 32)
      omega
    have hrest : ∀ sz1 m1 own1, vaddr + memsz ≤ sz1 → sz ≤ sz1 →
        Loaded K r sz1 tf c m own m1 own1 →
        Ends allow () (do
          if ← loadseg r (vaddr) ip (poff % 2 ^ 32) (filesz % 2 ^ 32) then
            loadSegments K r ip n ((off + PROGHDR) % 2 ^ 32) sz1
          else pure (false, sz1)) m1 Q := by
      intro sz1 m1 own1 hle hsz hl1
      refine Ends.seq (ends_loadseg (not_not.mp h5) (hseg.trans hle) hl1 fun b c1 m2 hl2 hp => ?_)
      cases b with
      | true =>
        refine ih _ sz1 c1 m2 own1 hl2 fun b sz' c' m'' own'' hl'' hb => hQ b sz' c' m'' own'' hl''
          fun hb' => ?_
        obtain ⟨hsz', hpl⟩ := hb hb'
        exact ⟨hsz.trans hsz', hpl.cons (not_lt.mp h3) (hle.trans hsz') (hp rfl)⟩
      | false => exact hQ false sz1 c1 m2 own1 hl2 nofun
    by_cases hlt : vaddr + memsz < sz
    · -- the segment lies in pages that exist already
      rw [uvmalloc, if_pos hlt]
      refine Ends.seq (ends_pure.mpr ?_)
      rw [if_neg (by omega)]
      exact hrest sz m' own' (by omega) le_rfl hl
    · refine Ends.seq (ends_uvmalloc_loaded (flags2perm_lt _) hl (not_lt.mp hlt)
        (fun m1 own1 hl1 => ?_) fun m1 own1 hl1 _ => ?_)
      · rw [if_pos rfl]
        exact hQ false sz c m1 own1 hl1 nofun
      · split_ifs with h0
        · obtain rfl : sz = vaddr + memsz := by omega
          exact hQ false _ c m1 own1 hl1 nofun
        · exact hrest _ m1 own1 le_rfl (not_lt.mp hlt) hl1

/-! ### The user stack -/

/-- An image of `vs + 1` pages, the last of which is the stack, page `p`; below it is `c`. -/
structure Stacked (K : Layout) (r vs p tf : ℕ) (c : ℕ → UInt8) (m : Kmem) (own : ℕ → Place)
    (m' : Kmem)
    (own' : ℕ → Place) : Prop where
  fresh : Fresh K r (vs + 1) tf m own m' own'
  le : vs + 1 ≤ 2 ^ 26 - 2
  pos : 1 ≤ vs
  lookup : m'.lookup r vs = mkPte p (PTE_R ||| PTE_U ||| PTE_W)
  holds : Holds m' r vs c

/-- The room that argument strings take on the stack, each with its terminator and aligned. -/
def argBytes : List (List UInt8) → ℕ
  | [] => 0
  | arg :: argv => (arg.length + 1 + 15) / 16 * 16 + argBytes argv

/-- The arguments and the array of pointers to them fit into the stack. -/
def Fits (argv : List (List UInt8)) : Prop := argv.length < MAXARG ∧
  argBytes argv + ((argv.length + 1) * 8 + 15) / 16 * 16 ≤ USERSTACK * PGSIZE

/-- Strings of bytes that memory `c` holds at addresses from `sp` up to `top`, each below the one
before it. -/
structure Pile (c : ℕ → UInt8) (base top sp : ℕ) (ps : List (ℕ × List UInt8)) : Prop where
  lo : base ≤ sp
  hi : sp ≤ top
  aligned : sp % 16 = 0
  inside : ∀ q ∈ ps, sp ≤ q.1 ∧ q.1 + q.2.length ≤ top
  bytes : ∀ q ∈ ps, ∀ k < q.2.length, c (q.1 + k) = q.2.getD k 0
  apart : ps.Pairwise fun q q' => q'.1 + q'.2.length ≤ q.1

theorem Pile.nil (c : ℕ → UInt8) (v : ℕ) : Pile c (v * 4096) ((v + 1) * 4096) ((v + 1) * 4096)
    [] := by
  refine ⟨?_, le_rfl, ?_, by simp, by simp, .nil⟩ <;> omega

theorem Pile.push {base top sp a : ℕ} {ps : List (ℕ × List UInt8)} {b : List UInt8}
    (h : Pile c base top sp ps) (hlo : base ≤ a) (ha : a % 16 = 0) (hle : a + b.length ≤ sp) :
    Pile (Bytes.write c a b) base top a (ps ++ [(a, b)]) := by
  have hhi := h.hi
  refine ⟨hlo, by omega, ha, fun q hq => ?_, fun q hq k hk => ?_, List.pairwise_append.mpr
    ⟨h.apart, List.pairwise_singleton _ _, fun q hq q' hq' => ?_⟩⟩
  · rcases List.mem_append.mp hq with hq | hq
    · have := h.inside q hq
      omega
    · rw [List.mem_singleton.mp hq]
      exact ⟨le_rfl, hle.trans hhi⟩
  · unfold Bytes.write
    rcases List.mem_append.mp hq with hq | hq
    · have := h.inside q hq
      rw [if_neg (by omega), h.bytes q hq k hk]
    · obtain rfl := List.mem_singleton.mp hq
      rw [if_pos ⟨Nat.le_add_right _ _, Nat.add_lt_add_left hk _⟩, Nat.add_sub_cancel_left]
  · rw [List.mem_singleton.mp hq']
    exact hle.trans (h.inside q hq).1

section Stack

variable {vs : ℕ} {ps : List (ℕ × List UInt8)}

theorem Stacked.leaf (h : Stacked K r vs p tf c m own m' own') : own' p = .node r 0 vs := by
  have hle := h.le
  have hval : m'.lookup r vs &&& PTE_V ≠ 0 := by
    rw [h.lookup]
    exact mkPte_valid _ _
  have hleaf := (h.fresh.owned.leaf_of_lookup h.fresh.space.root (by omega) hval).2
    (not_special (by omega))
  rwa [h.lookup, PTE2PA_mkPte (by decide)] at hleaf

theorem Stacked.setPage (h : Stacked K r vs p tf c m own m' own') (b : Bytes.Mem) :
    Stacked K r vs p tf c m own (m'.setPage p b) own' := by
  have hle := h.le
  refine ⟨h.fresh.setLeaf h.leaf b, h.le, h.pos, ?_,
    h.holds.edit h.fresh.owned h.fresh.space.root (by omega)
    (Edit.setLeaf h.fresh.owned h.fresh.space.root h.leaf b) fun u hu => by omega⟩
  rw [h.fresh.owned.lookup_setLeaf h.leaf b h.fresh.space.root (by omega), h.lookup]

theorem Stacked.image (h : Stacked K r vs p tf c m own m' own') :
    Holds m' r (vs + 1) (putPage c vs (m'.mem p)) := by
  intro u hu
  unfold putPage
  have hdiv : ∀ a < PGSIZE, (u * PGSIZE + a) / PGSIZE = u ∧ (u * PGSIZE + a) % PGSIZE = a := by
    show ∀ a < 4096, (u * 4096 + a) / 4096 = u ∧ (u * 4096 + a) % 4096 = a
    omega
  obtain rfl | huv := eq_or_ne u vs
  · rw [h.lookup, PTE2PA_mkPte (by decide)]
    exact ⟨mkPte_valid _ _, fun a ha => by rw [if_pos (hdiv a ha).1, (hdiv a ha).2]⟩
  · obtain ⟨hv, hb⟩ := h.holds u (by omega)
    exact ⟨hv, fun a ha => by rw [if_neg (by rwa [(hdiv a ha).1]), hb a ha]⟩

/-- A string below the stack pointer is copied to the stack, whatever process does it. -/
theorem ends_copyout_stack {psz ppt sp a : ℕ} {src : List UInt8} {Q : Bool → Kmem → Prop}
    (h : Stacked K r vs p tf c m own m' own')
    (hp : Pile (putPage c vs (m'.mem p)) (vs * 4096) ((vs + 1) * 4096) sp ps) (hlo : vs * 4096 ≤ a)
    (ha : a % 16 = 0) (hhi : a + src.length ≤ sp) (hsrc : src ≠ [])
    (hQ : ∀ m', Stacked K r vs p tf c m own m' own' →
      Pile (putPage c vs (m'.mem p)) (vs * 4096) ((vs + 1) * 4096) a (ps ++ [(a, src)]) →
        Q true m') :
    Ends allow () (copyout K psz ppt r a src) m' Q := by
  have hle := h.le
  have htop := hp.hi
  have hpos := List.length_pos_iff.mpr hsrc
  have hpg : a / PGSIZE = vs := by
    show a / 4096 = vs
    omega
  refine ends_copyout_page (by omega) (by rw [hpg, h.lookup]) ?_ hsrc (hQ _ (h.setPage _) ?_)
  · show a % 4096 + src.length ≤ 4096
    omega
  · -- the page is written where the image is
    rw [Kmem.setPage_mem_self]
    convert hp.push hlo ha hhi using 1
    funext x
    simp only [putPage, Bytes.write, show PGSIZE = 4096 from rfl] at hpg ⊢
    by_cases hx : x / 4096 = vs
    · rw [if_pos hx, if_pos hx, show x % 4096 - a % 4096 = x - a by omega]
      exact if_congr (by omega) rfl rfl
    · rw [if_neg hx, if_neg hx, if_neg (by omega)]

theorem ends_copyout_beyond {psz ppt sp : ℕ} {src : List UInt8} {Q : Bool → Kmem → Prop}
    (hsp : MAXVA + PGSIZE ≤ sp) (hsrc : src ≠ []) (hQ : Q false m) :
    Ends allow () (copyout K psz ppt r sp src) m Q := by
  obtain ⟨b, bs, rfl⟩ := List.exists_cons_of_ne_nil hsrc
  have hmax : PGROUNDDOWN sp ≥ MAXVA := by
    have hsp : 2 ^ 38 + 4096 ≤ sp := hsp
    show 2 ^ 38 ≤ sp / 4096 * 4096
    omega
  rwa [copyout, List.length_cons, copyoutFrom, if_neg (List.cons_ne_nil _ _), if_pos hmax]

theorem sub64_eq {a b : ℕ} (hb : b ≤ a) (ha : a < 2 ^ 64) : sub64 a b = a - b := by
  rw [sub64]
  omega

/-- The loop over the argument strings. -/
theorem ends_pushArgs {psz ppt : ℕ} {Q : Option (ℕ × List ℕ) → Kmem → Prop}
    (argv : List (List UInt8)) : (∀ arg ∈ argv, arg.length + 1 < 2 ^ 31) →
    ∀ (sp : ℕ) (ps : List (ℕ × List UInt8)) (m' : Kmem),
    (∀ m', Stacked K r vs p tf c m own m' own' →
      (ps.length + argv.length < MAXARG → sp < vs * 4096 + argBytes argv) → Q none m') →
    (∀ sp' ps' m', Stacked K r vs p tf c m own m' own' →
      Pile (putPage c vs (m'.mem p)) (vs * 4096) ((vs + 1) * 4096) sp' ps' →
        sp' + argBytes argv = sp →
      ps'.map Prod.snd = ps.map Prod.snd ++ argv.map (· ++ [0]) → ps'.length ≤ MAXARG →
      Q (some (sp', ps'.map Prod.fst)) m') →
    Stacked K r vs p tf c m own m' own' →
    Pile (putPage c vs (m'.mem p)) (vs * 4096) ((vs + 1) * 4096) sp ps → ps.length ≤ MAXARG →
    Ends allow () (pushArgs K psz ppt r (vs * PGSIZE) argv sp (ps.map Prod.fst)) m' Q := by
  induction argv with
  | nil => exact fun _ sp ps m' _ hsome h hp hps => hsome sp ps m' h hp rfl (by simp) hps
  | cons arg argv ih =>
    intro hargs sp ps m' hnone hsome h hp hps
    have hlen := hargs arg List.mem_cons_self
    have hpos := h.pos
    have hle := h.le
    have h16 := hp.aligned
    have hhi := hp.hi
    rw [List.length_cons, argBytes] at hnone
    rw [pushArgs, List.length_map]
    dsimp only
    split_ifs with hmax hlow
    · exact hnone m' h (by omega)
    · refine hnone m' h fun _ => ?_
      have hlow : _ < vs * 4096 := hlow
      rw [sub64] at hlow
      omega
    by_cases hwrap : arg.length + 1 ≤ sp
    swap
    · -- the stack pointer wrapped around, to an address that is not there
      have hbig : MAXVA + PGSIZE ≤ sub64 sp (arg.length + 1) - sub64 sp (arg.length + 1) % 16 := by
        show 2 ^ 38 + 4096 ≤ _
        rw [sub64]
        omega
      refine Ends.seq (ends_copyout_beyond hbig (by simp) ?_)
      rw [if_neg (by decide)]
      exact hnone m' h (by omega)
    rw [sub64_eq hwrap (by omega)] at hlow ⊢
    -- the string ends where the stack pointer was
    have hlow : vs * 4096 ≤ sp - (arg.length + 1) - (sp - (arg.length + 1)) % 16 := not_lt.mp hlow
    refine Ends.seq (ends_copyout_stack h hp hlow (by omega) (by simp; omega) (by simp)
      fun m1 h1 hp1 => ?_)
    rw [if_pos rfl]
    have hih := ih (fun a ha => hargs a (List.mem_cons_of_mem _ ha)) _ _ m1 (fun m2 h2 hno => ?_)
      (fun sp' ps' m2 h2 hp2 hsp heq hle' => ?_) h1 hp1 (by simp; omega)
    · rwa [List.map_append] at hih
    · refine hnone m2 h2 fun hlt => ?_
      rw [List.length_append, List.length_singleton] at hno
      have := hno (by omega)
      omega
    · refine hsome sp' ps' m2 h2 hp2 (by rw [argBytes]; omega) ?_ hle'
      rw [heq, List.map_append, List.append_assoc]
      rfl

/-- The arguments are on the stack of an image: their strings, and below them the array of
pointers to these. -/
def Pushed (m : Kmem) (img : Image) (argv : List (List UInt8)) : Prop :=
  Fits argv ∧ img.argc = argv.length ∧ ∃ c ps, ps.map Prod.snd = argv.map (· ++ [0]) ∧
    Holds m img.pagetable (pages img.sz) c ∧ Pile c (img.sz - USERSTACK * PGSIZE) img.sz img.sp
      (ps ++ [(img.sp, wordBytes (ps.map Prod.fst ++ [0]))])

theorem wordBytes_length (ws : List ℕ) : (wordBytes ws).length = ws.length * 8 := by
  simp [wordBytes, List.length_flatMap]

variable {Q : Option Image → Kmem → Prop} {argv : List (List UInt8)}

/-- `bad:` gives everything back. -/
theorem ends_bad (h : Owned K ∅ m own)
    (hf : Fresh K r (pages sz) tf m own m' own') (hsz : sz ≤ TRAPFRAME)
    (hnone : ∀ m', Restored K m own m' → Q none m') : Ends allow () (bad K r sz) m' Q := by
  rw [bad]
  refine Ends.seq (ends_proc_freepagetable hf.owned hf.space hsz fun m1 own1 h1 hd => ?_)
  exact hnone m1 (Restored.of_dropped h hf.free h1 ⟨hf.frame.trans hd.frame, hd.gone⟩)

/-- A program builds an image. -/
def Yields (prog : VmM (Option Image)) (m : Kmem) : Prop :=
  Ends (fun _ => False) () prog m fun o _ => o ≠ none

theorem not_yields_none : ¬ Yields (pure none) m := fun h => h rfl

theorem not_yields_bad : ¬ Yields (bad K r sz) m := by
  intro h
  obtain ⟨_, _, -, hne⟩ := (ends_bind.mp h).exists_run
  exact hne rfl

theorem ends_pushUstack {psz ppt entry sp : ℕ} (h0 : Owned K ∅ m own)
    (h : Stacked K r vs p tf c m own m' own')
    (hp : Pile (putPage c vs (m'.mem p)) (vs * 4096) ((vs + 1) * 4096) sp ps)
    (hsp : sp + argBytes argv = (vs + 1) * 4096) (hps : ps.map Prod.snd = argv.map (· ++ [0]))
    (hargc : argv.length < MAXARG) (hnone : ∀ m', Restored K m own m' → ¬ Fits argv → Q none m')
    (hsome : ∀ img m' own', Fresh K img.pagetable (pages img.sz) tf m own m' own' →
      img.sz ≤ TRAPFRAME →
      img.sz = (vs + 1) * PGSIZE → img.entry = entry → Holds m' img.pagetable vs c →
      Pushed m' img argv → Q (some img) m') :
    Ends allow () (pushUstack K psz ppt r ((vs + 1) * PGSIZE) (vs * PGSIZE) entry sp
      (ps.map Prod.fst))
      m' Q := by
  have hpos := h.pos
  have hle := h.le
  have hlo := hp.lo
  have h16 := hp.aligned
  have hlen : (ps.map Prod.fst).length = argv.length := by simpa using congrArg List.length hps
  have hus' : argv.length < 32 := hargc
  have hsz : (vs + 1) * PGSIZE ≤ TRAPFRAME := le_of_pages_le (by rwa [pages_mul])
  have hfits : Fits argv ↔
      vs * 4096 ≤ sp - (argv.length + 1) * 8 - (sp - (argv.length + 1) * 8) % 16 := by
    show _ ∧ _ ≤ 1 * 4096 ↔ _
    omega
  rw [pushUstack, hlen, sub64_eq (by omega) (by omega), if_neg (not_le.mpr hargc)]
  split_ifs with hlow
  · exact ends_bad h0 (by rw [pages_mul]; exact h.fresh) hsz fun m1 hR =>
      hnone m1 hR fun hc => absurd (hfits.mp hc) (not_le.mpr hlow)
  have hlow := not_lt.mp hlow
  have hbytes : (wordBytes (ps.map Prod.fst ++ [0])).length = (argv.length + 1) * 8 := by
    rw [wordBytes_length, List.length_append, hlen, List.length_singleton]
  refine Ends.seq (ends_copyout_stack h hp hlow (by omega) (by omega)
    (List.ne_nil_of_length_pos (by omega)) fun m1 h1 hp1 => ?_)
  rw [if_pos rfl, ends_pure]
  refine hsome _ m1 own' (by rw [pages_mul]; exact h1.fresh) hsz rfl rfl h1.holds
    ⟨hfits.mpr hlow, rfl, _, ps, hps, by rw [pages_mul]; exact h1.image, ?_⟩
  show Pile _ ((vs + 1) * PGSIZE - 1 * PGSIZE) _ _ _
  rwa [← Nat.sub_mul]

/-- The stack is built on an image, or everything is given back; if it can be built without
arguments, then because these do not fit. -/
theorem ends_pushStack {psz ppt entry : ℕ} {ok : Prop} (h : Owned K ∅ m own)
    (hl : Loaded K r sz tf c m own m' own') (hargc : argv.length ≠ MAXARG)
    (hargs : ∀ arg ∈ argv, arg.length + 1 < 2 ^ 31)
    (H : ok → Yields (pushStack K psz ppt r sz entry []) m')
    (hnone : ∀ m', Restored K m own m' → (ok → ¬ Fits argv) → Q none m')
    (hsome : ∀ img m' own', Fresh K img.pagetable (pages img.sz) tf m own m' own' →
      img.sz ≤ TRAPFRAME →
      img.sz = (pages sz + (USERSTACK + 1)) * PGSIZE → img.entry = entry →
      Holds m' img.pagetable (pages sz + 1) c → Pushed m' img argv → Q (some img) m') :
    Ends allow () (pushStack K psz ppt r sz entry argv) m' Q := by
  have hT := TRAPFRAME_eq
  have hmax := pages_le hl.le
  have hszle := hl.le
  have hup : PGROUNDUP sz = pages sz * PGSIZE := PGROUNDUP_eq (by omega)
  have hle : pages sz * PGSIZE ≤ TRAPFRAME := le_of_pages_le (by rwa [pages_mul])
  have hl' : Loaded K r (pages sz * PGSIZE) tf c m own m' own' :=
    ⟨by rw [pages_mul]; exact hl.fresh, hle, by rw [pages_mul]; exact hl.full,
      by rw [pages_mul]; exact hl.holds, by rw [pages_mul]; exact hl.rest⟩
  rw [pushStack, hup, ← Nat.add_mul] at H ⊢
  refine Ends.along H (ends_uvmalloc_loaded (by decide) hl' (Nat.mul_le_mul_right _ (by omega))
    (fun m1 own1 hl1 H => ?_) fun m1 own1 hl1 hfill _ => ?_)
  · rw [if_pos rfl] at H ⊢
    exact ends_bad h hl1.fresh hle fun m2 hR => hnone m2 hR fun hok => absurd (H hok) not_yields_bad
  rw [pages_mul, pages_mul] at hfill
  have hf1 := hl1.fresh
  have hh1 := hl1.holds
  rw [pages_mul] at hf1 hh1
  have hle1 := pages_le hl1.le
  rw [pages_mul] at hle1
  have hU : USERSTACK = 1 := rfl
  rw [if_neg (Nat.mul_ne_zero (by omega) (by decide)),
    show (pages sz + (USERSTACK + 1)) * PGSIZE - (USERSTACK + 1) * PGSIZE = pages sz * PGSIZE by
      rw [← Nat.sub_mul, Nat.add_sub_cancel],
    show (pages sz + (USERSTACK + 1)) * PGSIZE - USERSTACK * PGSIZE = (pages sz + 1) * PGSIZE by
      rw [← Nat.sub_mul]; rfl]
  -- the guard page
  obtain ⟨g, hg⟩ := hfill (pages sz) le_rfl (by omega)
  obtain ⟨p, hp⟩ := hfill (pages sz + 1) (by omega) (by omega)
  refine Ends.seq (ends_uvmclear hf1.owned hf1.space.root (by omega)
    (by rw [hg]; exact mkPte_valid _ _) fun m2 h2 he2 hval2 hpa2 hmem2 => ?_)
  have hS2 : Space m2 own1 r (pages sz + 1 + 1) K.trampoline tf := by
    refine hf1.space.edit he2 (fun v hv => by omega) fun v hv hs hval => ?_
    by_cases hvg : v = pages sz
    · omega
    · rw [he2.other v hv hvg] at hval
      exact (hf1.space.bound v hv hval).resolve_right hs
  -- the guard page is not the user's any more, but has its bytes
  have hh2 : Holds m2 r (pages sz + 1) c := by
    intro u hu
    by_cases hug : u = pages sz
    · rw [hug]
      refine ⟨hval2, ?_⟩
      rw [hpa2, hmem2]
      exact (hh1 _ (by omega)).2
    · have hlow : Holds m1 r (pages sz) c := fun u hu => hh1 u (by omega)
      exact hlow.edit hf1.owned hf1.space.root hmax he2 (fun u hu => by omega) u (by omega)
  have hst : Stacked K r (pages sz + 1) p tf c m own m2 own1 :=
    ⟨hf1.edit h2 he2 hS2, hle1, by omega, by
      rw [he2.other _ (by omega) (by omega), hp], hh2⟩
  rw [show (pages sz + (USERSTACK + 1)) * PGSIZE = (pages sz + 1 + 1) * 4096 from rfl]
  refine Ends.seq (ends_pushArgs argv hargs _ [] m2 (fun m3 h3 hno => ?_)
    (fun sp ps m3 h3 hp hsp heq hps => ?_) hst (.nil _ _) (Nat.zero_le _))
  · refine ends_bad h (by rw [pages_mul]; exact h3.fresh) (le_of_pages_le (by rwa [pages_mul]))
      fun m4 hR => hnone m4 hR fun _ hfits => ?_
    have hno := hno (by simpa using hfits.1)
    have hle : argBytes argv + _ ≤ 1 * 4096 := hfits.2
    clear * - hno hle
    omega
  · have hlen : ps.length = argv.length := by simpa using congrArg List.length heq
    exact ends_pushUstack h h3 hp hsp heq (lt_of_le_of_ne (hlen ▸ hps) hargc)
      (fun m4 hR hno => hnone m4 hR fun _ => hno) hsome

end Stack

theorem Fresh.loaded (hf : Fresh K r 0 tf m own m' own') :
    Loaded K r 0 tf (fun _ => 0) m own m' own' :=
  ⟨hf, Nat.zero_le _, fun u hu => absurd hu (Nat.not_lt_zero u),
    fun u hu => absurd hu (Nat.not_lt_zero u), fun _ _ => rfl⟩

/-- The segments that `kexec` loads from an executable. -/
def programSegments (ip : File) : List Proghdr :=
  segments ip (field (readi ip 0 ELFHDR) 56 2) (field (readi ip 0 ELFHDR) 32 8 % 2 ^ 32)

/-- The image of an executable: the segments with zeros around them, above them a page that the
user may not touch and the stack; and where the program begins. -/
def Imaged (ip : File) (img : Image) (m : Kmem) : Prop :=
  img.entry = field (readi ip 0 ELFHDR) 24 8 ∧ ∃ c top, top ≤ PHYSTOP * PGSIZE ∧
    Placed ip (programSegments ip) top (fun _ => 0) c ∧
    img.sz = (pages top + (USERSTACK + 1)) * PGSIZE ∧ pages top + 1 ≤ 2 ^ 26 - 2 ∧
    Holds m img.pagetable (pages top + 1) c

/-- **An image is built, or everything is as it was.** -/
theorem ends_buildImage {psz ppt : ℕ} {argv : List (List UInt8)} {ok : Prop}
    {Q : Option Image → Kmem → Prop} (h : Owned K ∅ m own) (htf : own tf = .held)
    (hargc : argv.length ≠ MAXARG) (hargs : ∀ arg ∈ argv, arg.length + 1 < 2 ^ 31)
    (H : ok → Yields (buildImage K psz ppt tf ip []) m)
    (hnone : ∀ m', Restored K m own m' → (ok → ¬ Fits argv) → Q none m')
    (hsome : ∀ img m' own', Fresh K img.pagetable (pages img.sz) tf m own m' own' →
      img.sz ≤ TRAPFRAME → Imaged ip img m' → Pushed m' img argv → Q (some img) m') :
    Ends allow () (buildImage K psz ppt tf ip argv) m Q := by
  have hsame : Restored K m own m := ⟨h, fun _ _ => rfl⟩
  have hfail : ∀ m', Restored K m own m' → (ok → Yields (pure none) m') → Q none m' :=
      fun m' hR H =>
    hnone m' hR fun hok => absurd (H hok) not_yields_none
  rw [buildImage] at H ⊢
  split_ifs at H ⊢ with h1 h2
  · exact hfail m hsame H
  · exact hfail m hsame H
  refine Ends.along H (ends_proc_pagetable h htf (fun m1 hr1 H => ?_) fun r m1 own1 hf1 H => ?_)
  · exact hfail m1 hr1 H
  refine Ends.along H (ends_loadSegments _ _ 0 _ m1 own1 hf1.loaded fun b sz c m2 own2 hl2 hp H =>
    ?_)
  cases b with
  | true =>
    refine ends_pushStack h hl2 hargc hargs H hnone fun img m' own' hf hle hsz hentry hh hpush =>
      hsome img m' own' hf hle ?_ hpush
    have hmax := pages_le hle
    rw [hsz, pages_mul] at hmax
    -- there are not more pages than memory has
    have hcard := hl2.fresh.owned.card_leaves hl2.fresh.space.root (by omega) fun u hu =>
      (hl2.holds u hu).1
    refine ⟨hentry, c, sz, ?_, (hp rfl).2, hsz, by omega, hh⟩
    rw [pages_eq] at hcard
    show sz ≤ PHYSTOP * 4096
    omega
  | false =>
    exact ends_bad h hl2.fresh hl2.le fun m3 hR => hnone m3 hR fun hok =>
      absurd (H hok) not_yields_bad

end Xv6.Process
