import Xv6.Process.Inv

/-!
# System calls keep track of pages

Every function of the process layer keeps the invariant, at every point where
memory runs out.  What a call may assume about sizes is a hypothesis: `uvmunmap`
and `uvmcopy` trust `p->sz`, so it must not exceed `TRAPFRAME`.

## Main results

* `ends_freeproc`, `ends_allocproc` — processes are made and freed whole.
* `Agrees.frameProc` — an operation on the table of one process.
* `ends_growproc`, `ends_sys_sbrk` — the size of a process changes, or nothing.
-/

namespace Xv6.Process

open Conc Vm Function

variable {K : Layout} {allow : String → Prop} {boot L : ℕ → Prop} {s s' : Kernel} {m' : Kmem}
  {own own' : ℕ → Place} {p q r v sz n : ℕ} {i j : Fin NPROC} {P P' : Proc}

@[simp] theorem setProc_kmem : (s.setProc i P).kmem = s.kmem := rfl

@[simp] theorem setProc_files : (s.setProc i P).files = s.files := rfl

@[simp] theorem setProc_proc : (s.setProc i P).proc = update s.proc i P := rfl

/-- What a call does to the kernel besides keeping the invariant. -/
structure After (K : Layout) (boot : ℕ → Prop) (s : Kernel) (procs : Fin NPROC → Proc)
    (s' : Kernel) : Prop where
  inv : Inv K boot s'
  proc : s'.proc = procs
  initproc : s'.initproc = s.initproc

/-! ### Process table entries -/

theorem inj_update {f g : Fin NPROC → ℕ} (hf : ∀ j k, f j = f k → f j ≠ 0 → j = k)
    (hg : ∀ j, j ≠ i → g j = f j) (hi : g i ≠ 0 → g i = f i ∨ ∀ j, f j ≠ g i) (j k : Fin NPROC)
    (hjk : g j = g k) (h0 : g j ≠ 0) : j = k := by
  have key : ∀ k, k ≠ i → g i = g k → g i ≠ 0 → i = k := by
    intro k hk hik h0
    rw [hg k hk] at hik
    rcases hi h0 with heq | hnew
    · exact hf i k (by rw [← heq, hik]) (by rwa [← heq])
    · exact absurd hik.symm (hnew k)
  by_cases hji : j = i <;> by_cases hki : k = i
  · rw [hji, hki]
  · subst hji
    exact key k hki hjk h0
  · subst hki
    exact (key j hji hjk.symm (by rwa [← hjk])).symm
  · rw [hg j hji, hg k hki] at hjk
    rw [hg j hji] at h0
    exact hf j k hjk h0

/-- The kernel's pointers after one entry of the process table has changed. -/
theorem Wf.update (hW : Wf boot s) (hproc : s'.proc = update s.proc i P)
    (hfiles : s'.files = s.files)
    (htf : P.trapframe ≠ 0 → P.trapframe = (s.proc i).trapframe ∨
      ¬ boot P.trapframe ∧ (∀ w, (P.trapframe, w) ∉ s.files) ∧
        ∀ j, (s.proc j).trapframe ≠ P.trapframe)
    (hpt : P.pagetable ≠ 0 → P.pagetable = (s.proc i).pagetable ∨
      ∀ j, (s.proc j).pagetable ≠ P.pagetable)
    (hun : P.state = .UNUSED → P = .unused)
    (hre : P.state ≠ .UNUSED → P.state ≠ .USED → P.trapframe ≠ 0 ∧ P.pagetable ≠ 0) :
    Wf boot s' := by
  have hi : s'.proc i = P := by rw [hproc, update_self]
  have hj : ∀ {j}, j ≠ i → s'.proc j = s.proc j := fun hne => by rw [hproc, update_of_ne hne]
  -- a trapframe is an old one, or a page that nobody had
  have htfs : ∀ j, (s'.proc j).trapframe ≠ 0 →
      ¬ boot (s'.proc j).trapframe ∧ ∀ w, ((s'.proc j).trapframe, w) ∉ s.files := by
    intro j hj0
    obtain rfl | hji := eq_or_ne j i
    · rw [hi] at hj0 ⊢
      rcases htf hj0 with heq | hnew
      · rw [heq] at hj0 ⊢
        exact ⟨hW.boot_trapframe j hj0, fun w => hW.trapframe_pipe j w hj0⟩
      · exact ⟨hnew.1, hnew.2.1⟩
    · rw [hj hji] at hj0 ⊢
      exact ⟨hW.boot_trapframe j hj0, fun w => hW.trapframe_pipe j w hj0⟩
  refine ⟨fun j hj0 => (htfs j hj0).1, fun p w hp => ?_, fun j w hj0 => hfiles ▸ (htfs j hj0).2 w,
    inj_update hW.trapframe_inj (fun j hji => by rw [hj hji]) fun h0 => ?_,
    inj_update hW.pagetable_inj (fun j hji => by rw [hj hji]) fun h0 => ?_,
    fun j hju => ?_, fun j h1 h2 => ?_, hfiles ▸ hW.files⟩
  · rw [hfiles] at hp
    exact hW.boot_pipe p w hp
  · rw [hi] at h0 ⊢
    exact (htf h0).imp_right fun hnew => hnew.2.2
  · rw [hi] at h0 ⊢
    exact hpt h0
  · obtain rfl | hji := eq_or_ne j i
    · rw [hi] at hju ⊢
      exact hun hju
    · rw [hj hji] at hju ⊢
      exact hW.unused j hju
  · obtain rfl | hji := eq_or_ne j i
    · rw [hi] at h1 h2 ⊢
      exact hre h1 h2
    · rw [hj hji] at h1 h2 ⊢
      exact hW.ready j h1 h2

/-- **An operation on the table of one process leaves the others alone.** -/
theorem Agrees.frameProc {L' : ℕ → Prop} (h : Agrees K boot L s own) (h' : Owned K ∅ s'.kmem own')
    (hfr : Frame P.pagetable ∅ s.kmem own s'.kmem own') (hfiles : s'.files = s.files)
    (hproc : s'.proc = update s.proc i P) (htf : P.trapframe = (s.proc i).trapframe)
    (hL : ∀ r, r ≠ P.pagetable → r ≠ 0 → (s.proc i).pagetable = r ∨ L r → L' r)
    (hother : ∀ j ≠ i, (s.proc j).pagetable ≠ P.pagetable ∧ ¬ L (s.proc j).pagetable)
    (hS : Space s'.kmem own' P.pagetable (pages P.sz) K.trampoline P.trapframe) :
    Agrees K boot L' s' own' := by
  have hi : s'.proc i = P := by rw [hproc, update_self]
  have hj : ∀ {j}, j ≠ i → s'.proc j = s.proc j := fun hne => by rw [hproc, update_of_ne hne]
  refine h.frame h' hfr hfiles (fun j => ?_) (fun q lv x _ => Or.inl ⟨i, by rw [hi]⟩)
    (fun r hr h0 hor => ?_) (fun j hjr _ _ => ?_) fun j hjr _ _ => ?_
  · obtain rfl | hji := eq_or_ne j i
    · rw [hi, htf]
    · rw [hj hji]
  · rcases hor with ⟨j, hjr⟩ | hLr
    · obtain rfl | hji := eq_or_ne j i
      · exact Or.inr (hL r hr h0 (Or.inl hjr))
      · exact Or.inl ⟨j, by rw [hj hji, hjr]⟩
    · exact Or.inr (hL r hr h0 (Or.inr hLr))
  · have hji : j ≠ i := by
      rintro rfl
      exact hjr (by rw [hi])
    rw [hj hji]
    exact ⟨(hother j hji).2, rfl, rfl⟩
  · obtain rfl : j = i := by
      by_contra hji
      rw [hj hji] at hjr
      exact (hother j hji).1 hjr
    rwa [hi]

theorem Agrees.pagetable_ne (h : Agrees K boot (fun _ => False) s own) (hr : own r = .free)
    (j : Fin NPROC) : (s.proc j).pagetable ≠ r := by
  rintro rfl
  have hS := h.space j (h.pos (by rw [hr]; exact Place.noConfusion)) id
  rw [hS.root] at hr
  cases hr

theorem Agrees.not_held (h : Agrees K boot L s own) (hp : own p ≠ .held) :
    ¬ boot p ∧ (∀ w, (p, w) ∉ s.files) ∧ ∀ j, (s.proc j).trapframe ≠ p ∨ p = 0 := by
  refine ⟨fun hb => hp ((h.held p).mpr (Or.inl hb)), fun w hw => ?_, fun j => ?_⟩
  · exact hp ((h.held p).mpr (Or.inr (Or.inr ⟨w, hw⟩)))
  · by_cases h0 : p = 0
    · exact Or.inr h0
    · exact Or.inl fun hj => hp ((h.held p).mpr (Or.inr (Or.inl ⟨j, hj, h0⟩)))

theorem ne_unused (hrun : (s.proc i).state = .RUNNABLE) : (s.proc i).state ≠ .UNUSED := by
  rw [hrun]
  exact ProcState.noConfusion

theorem Wf.runnable (hW : Wf boot s) (hrun : (s.proc i).state = .RUNNABLE) :
    (s.proc i).trapframe ≠ 0 ∧ (s.proc i).pagetable ≠ 0 :=
  hW.ready i (ne_unused hrun) (by rw [hrun]; exact ProcState.noConfusion)

theorem Agrees.trapframe_held (h : Agrees K boot L s own) (hi : (s.proc i).trapframe ≠ 0) :
    own (s.proc i).trapframe = .held :=
  (h.held _).mpr (Or.inr (Or.inl ⟨i, rfl, hi⟩))

/-! ### freeproc -/

/-- `if(p->trapframe) kfree(p->trapframe); p->trapframe = 0`.  The table still maps
the page, so it is loose from here on. -/
theorem ends_freeTrapframe (hW : Wf boot s) (h : Agrees K boot (fun _ => False) s own)
    {Q : Unit → Kernel → Prop}
    (hQ : ∀ m' own', Agrees K boot (· = (s.proc i).pagetable)
        (({ s with kmem := m' } : Kernel).setProc i { s.proc i with trapframe := 0 }) own' →
      ((s.proc i).pagetable ≠ 0 → Space m' own' (s.proc i).pagetable (pages (s.proc i).sz)
        K.trampoline (s.proc i).trapframe) →
      Q () { s with kmem := m' }) :
    Ends allow () (vm (if (s.proc i).trapframe ≠ 0 then kfree K (s.proc i).trapframe else pure ()))
      s Q := by
  apply ends_vm
  have hloose : Agrees K boot (· = (s.proc i).pagetable) s own := h.loosen fun _ => False.elim
  have hj : ∀ {j} {P : Proc}, j ≠ i → update s.proc i P j = s.proc j := fun hne =>
    update_of_ne hne _ _
  by_cases htf : (s.proc i).trapframe = 0
  · rw [if_neg (not_not.mpr htf), ends_pure]
    refine hQ s.kmem own (hloose.procs rfl rfl (fun j => ?_) (fun j => ?_) fun j _ => ?_)
      fun hi => h.space i hi id
    all_goals
      rw [setProc_proc]
      obtain rfl | hji := eq_or_ne j i
      · simp [htf]
      · simp [hj hji]
  rw [if_pos htf]
  have hheld := h.trapframe_held htf
  refine ends_kfree h.owned hheld fun m1 h1 hm1 => hQ m1 _ (hloose.retag (held_not_node hheld)
    (fun _ _ _ => Place.noConfusion) h1 hm1 (fun q => ?_) (fun j => ?_) (fun j h0 hL => ?_)
    fun q w hq => ?_) fun hi => ?_
  · -- the page was the trapframe of this process only
    simp only [setProc_proc, setProc_files]
    by_cases hq : q = (s.proc i).trapframe
    · subst hq
      rw [update_self]
      refine iff_of_false Place.noConfusion ?_
      rintro (hb | ⟨j, hjq, -⟩ | ⟨w, hw⟩)
      · exact hW.boot_trapframe i htf hb
      · obtain rfl | hji := eq_or_ne j i
        · rw [update_self] at hjq
          exact htf hjq.symm
        · rw [hj hji] at hjq
          exact hji (hW.trapframe_inj j i hjq (by rwa [hjq]))
      · exact hW.trapframe_pipe i w htf hw
    · rw [update_of_ne hq, h.held]
      refine or_congr_right (or_congr_left (exists_congr fun j => ?_))
      obtain rfl | hji := eq_or_ne j i
      · rw [update_self]
        exact ⟨fun hc => absurd hc.1.symm hq, fun hc => absurd hc.1.symm hc.2⟩
      · rw [hj hji]
  · rw [setProc_proc]
    obtain rfl | hji := eq_or_ne j i
    · rw [update_self]
    · rw [hj hji]
  · have hji : j ≠ i := fun hji => hL (by rw [hji])
    rw [setProc_proc, hj hji]
    exact ⟨rfl, rfl⟩
  · have hne : q ≠ (s.proc i).trapframe := by
      rintro rfl
      exact hW.trapframe_pipe i w htf hq
    simp only [setProc_kmem, setProc_files, hm1 q hne]
    exact h.pipe q w hq
  · have hS := h.space i hi id
    refine hS.of_lookup ?_ fun v hv => h.owned.lookup_retag h1 hS.root (fun q lv x => ?_)
      (fun q x hq => hm1 q ?_) hv
    · rw [update_node_iff (held_not_node hheld) fun _ _ _ => Place.noConfusion]
      exact hS.root
    · exact update_node_iff (held_not_node hheld) fun _ _ _ => Place.noConfusion
    · rintro rfl
      exact held_not_node hheld _ _ _ hq

theorem ends_freeTable {tf : ℕ} {m : Kmem} (h : Owned K ∅ m own)
    (hS : r ≠ 0 → Space m own r (pages sz) K.trampoline tf) (hsz : sz ≤ TRAPFRAME)
    {Q : Unit → Kmem → Prop}
    (hQ : ∀ m' own', Owned K ∅ m' own' → Frame r ∅ m own m' own' →
      (∀ q lv x, own' q ≠ .node r lv x) → Q () m') :
    Ends allow () (if r ≠ 0 then proc_freepagetable K r sz else pure ()) m Q := by
  obtain rfl | hr := eq_or_ne r 0
  · rw [if_neg (by simp), ends_pure]
    exact hQ m own h (Frame.refl _ _ _ _) fun q lv x hq => root_ne_zero h hq rfl
  · rw [if_pos hr]
    exact ends_proc_freepagetable h (hS hr) hsz fun m1 own1 h1 hd => hQ m1 own1 h1 hd.frame hd.gone

/-- **`freeproc` gives back everything that hangs from a process.** -/
theorem ends_freeproc (hI : Inv K boot s) (hsz : (s.proc i).sz ≤ TRAPFRAME)
    {Q : Unit → Kernel → Prop} (hQ : ∀ s', After K boot s (update s.proc i .unused) s' → Q () s') :
    Ends allow () (freeproc K i) s Q := by
  obtain ⟨hW, own, h⟩ := hI
  rw [freeproc]
  apply ends_look_bind.mpr
  refine Ends.seq (ends_freeTrapframe hW h fun m1 own1 h1 hS1 => ?_)
  apply ends_act_bind.mpr
  refine Ends.seq (ends_vm (ends_freeTable h1.owned hS1 hsz fun m2 own2 h2 hfr hgone => ?_))
  apply ends_act.mpr
  have hproc : update (update s.proc i { s.proc i with trapframe := 0 }) i .unused =
      update s.proc i .unused := update_idem _ _ _
  have hi : update s.proc i .unused i = .unused := update_self _ _ _
  have hj : ∀ {j} {P : Proc}, j ≠ i → update s.proc i P j = s.proc j := fun hne =>
    update_of_ne hne _ _
  refine hQ _ ⟨⟨?_, own2, ?_⟩, hproc, rfl⟩
  · exact hW.update hproc rfl (fun hc => absurd rfl hc) (fun hc => absurd rfl hc) (fun _ => rfl)
      fun hc => absurd rfl hc
  · refine h1.frame h2 hfr rfl (fun j => ?_) (fun q lv x hq => absurd hq (hgone q lv x))
      (fun r' hr' _ hor => ?_) (fun j hjr hj0 _ => ?_) fun j hjr hr0 _ => ?_
    · simp only [setProc_proc, hproc]
      obtain rfl | hji := eq_or_ne j i
      · rw [hi, update_self]
        rfl
      · rw [hj hji, hj hji]
    · simp only [setProc_proc, hproc] at hor ⊢
      obtain ⟨j, hjr⟩ := hor.resolve_right hr'
      have hji : j ≠ i := by
        rintro rfl
        rw [update_self] at hjr
        exact hr' hjr.symm
      rw [hj hji] at hjr
      exact Or.inl ⟨j, by rw [hj hji, hjr]⟩
    · simp only [setProc_proc, hproc] at hjr hj0 ⊢
      have hji : j ≠ i := by
        rintro rfl
        rw [hi] at hj0
        exact hj0 rfl
      rw [hj hji] at hjr hj0 ⊢
      rw [hj hji]
      exact ⟨hjr, rfl, rfl⟩
    · -- no other process has this table
      simp only [setProc_proc, hproc] at hjr
      have hji : j ≠ i := by
        rintro rfl
        rw [hi] at hjr
        exact hr0 hjr.symm
      rw [hj hji] at hjr
      exact absurd (hW.pagetable_inj j i hjr (by rwa [hjr])) hji

/-! ### allocproc -/

/-- A process that has memory of its own but has not been given any user memory. -/
structure Proc.Empty (P : Proc) : Prop where
  state : P.state = .USED
  sz : P.sz = 0
  trapframe : P.trapframe ≠ 0
  pagetable : P.pagetable ≠ 0

theorem update_same (hP : (s.proc i) = P) : update s.proc i P = s.proc := by
  rw [← hP, update_eq_self]

theorem setProc_same (hP : s.proc i = P) : s.setProc i P = s := by
  rw [Kernel.setProc, update_same hP]

variable {Q : Option (Fin NPROC) → Kernel → Prop}

theorem ends_giveUp (hI : Inv K boot s') (hproc : s'.proc = update s.proc i P)
    (hun : s.proc i = .unused) (hsz : P.sz = 0) (hinit : s'.initproc = s.initproc)
    (hnone : ∀ s', After K boot s s.proc s' → Q none s') :
    Ends allow () (do freeproc K i; pure none) s' Q := by
  refine Ends.seq (ends_freeproc hI ?_ fun s1 hA => ?_)
  · rw [hproc, update_self, hsz]
    exact Nat.zero_le _
  · refine hnone s1 ⟨hA.inv, ?_, hA.initproc.trans hinit⟩
    rw [hA.proc, hproc, update_idem, update_same hun]

theorem ends_allocpid {Q : ℕ → Kernel → Prop}
    (hQ : Q s.nextpid { s with nextpid := s.nextpid + 1 }) : Ends allow () allocpid s Q := hQ

/-- An entry of the process table that is in use and has no memory. -/
theorem inv_mark (hW : Wf boot s) (h : Agrees K boot (fun _ => False) s own)
    (hun : s.proc i = .unused) (hP : P.state = .USED) (htf : P.trapframe = 0)
    (hpt : P.pagetable = 0) (hmem : s'.kmem = s.kmem) (hfiles : s'.files = s.files)
    (hproc : s'.proc = update s.proc i P) : Wf boot s' ∧ Agrees K boot (fun _ => False) s' own := by
  refine ⟨hW.update hproc hfiles (fun hc => absurd htf hc) (fun hc => absurd hpt hc)
    (fun hc => ?_) fun _ hc => absurd hP hc, h.procs hmem hfiles (fun j => ?_) (fun j => ?_)
    fun j hj0 => ?_⟩
  · rw [hP] at hc
    cases hc
  all_goals rw [hproc] at *
  all_goals by_cases hji : j = i
  · subst hji
    rw [update_self, htf, hun]
    rfl
  · rw [update_of_ne hji]
  · subst hji
    rw [update_self, hpt, hun]
    rfl
  · rw [update_of_ne hji]
  · subst hji
    rw [update_self] at hj0
    exact absurd hpt hj0
  · rw [update_of_ne hji]

variable {m' : Kmem}

/-- The entry gets its trapframe. -/
theorem inv_trapframe {tf : ℕ} (hW : Wf boot s)
    (h : Agrees K boot (fun _ => False) s own) (hpt : (s.proc i).pagetable = 0)
    (hz : (s.proc i).trapframe = 0) (hst : (s.proc i).state = .USED) (htf : own tf = .free)
    (h' : Owned K ∅ m' (update own tf .held)) (hm : ∀ q, q ≠ tf → m'.mem q = s.kmem.mem q) :
    Wf boot (({ s with kmem := m' } : Kernel).setProc i { s.proc i with trapframe := tf }) ∧
      Agrees K boot (fun _ => False)
        (({ s with kmem := m' } : Kernel).setProc i { s.proc i with trapframe := tf })
        (update own tf .held) := by
  have h0 := h.pos (p := tf) (by rw [htf]; exact Place.noConfusion)
  obtain ⟨hb, hfi, htfs⟩ := h.not_held (p := tf) (by rw [htf]; exact Place.noConfusion)
  have hj : ∀ {j} {P : Proc}, j ≠ i → update s.proc i P j = s.proc j := fun hne =>
    update_of_ne hne _ _
  refine ⟨hW.update rfl rfl (fun _ => Or.inr ⟨hb, hfi, fun j => (htfs j).resolve_right h0⟩)
    (fun hc => absurd hpt hc) (fun hc => ?_) fun _ hc => absurd hst hc,
    h.retag (free_not_node htf) (fun _ _ _ => Place.noConfusion) h' hm (fun q => ?_) (fun j => ?_)
      (fun j hj0 _ => ?_) fun q w hq => ?_⟩
  · have hc : (s.proc i).state = .UNUSED := hc
    rw [hst] at hc
    cases hc
  · simp only [setProc_proc, setProc_files]
    obtain rfl | hq := eq_or_ne q tf
    · rw [update_self]
      exact iff_of_true rfl (Or.inr (Or.inl ⟨i, by rw [update_self], h0⟩))
    · -- another page: the process had no trapframe before
      rw [update_of_ne hq, h.held]
      refine or_congr_right (or_congr_left (exists_congr fun j => ?_))
      obtain rfl | hji := eq_or_ne j i
      · rw [update_self]
        exact ⟨fun hc => absurd (hc.1.symm.trans hz) hc.2, fun hc => absurd hc.1.symm hq⟩
      · rw [hj hji]
  · rw [setProc_proc]
    obtain rfl | hji := eq_or_ne j i
    · rw [update_self]
    · rw [hj hji]
  · have hji : j ≠ i := by
      rintro rfl
      exact hj0 hpt
    rw [setProc_proc, hj hji]
    exact ⟨rfl, rfl⟩
  · have hne : q ≠ tf := by
      rintro rfl
      exact hfi w hq
    simp only [setProc_kmem, setProc_files, hm q hne]
    exact h.pipe q w hq

/-- The entry gets its table. -/
theorem inv_pagetable (hW : Wf boot s) (h : Agrees K boot (fun _ => False) s own)
    (hsz : (s.proc i).sz = 0) (hpt : (s.proc i).pagetable = 0) (hst : (s.proc i).state = .USED)
    (hf : Fresh K r 0 (s.proc i).trapframe s.kmem own m' own') :
    Wf boot (({ s with kmem := m' } : Kernel).setProc i { s.proc i with pagetable := r }) ∧
      Agrees K boot (fun _ => False)
        (({ s with kmem := m' } : Kernel).setProc i { s.proc i with pagetable := r }) own' := by
  refine ⟨hW.update rfl rfl (fun _ => Or.inl rfl) (fun _ => Or.inr (h.pagetable_ne hf.free))
    (fun hc => ?_) fun _ hc => absurd hst hc,
    h.frameProc (P := { s.proc i with pagetable := r }) hf.owned hf.frame rfl rfl rfl
      (fun _ _ h0 hor => h0 ((hor.resolve_right id).symm.trans hpt))
      (fun j _ => ⟨h.pagetable_ne hf.free j, id⟩) ?_⟩
  · have hc : (s.proc i).state = .UNUSED := hc
    rw [hst] at hc
    cases hc
  · simp only [hsz]
    exact hf.space

/-- `allocproc` for the entry it has found. -/
theorem ends_initProc (hI : Inv K boot s) (hun : s.proc i = .unused)
    (hnone : ∀ s', After K boot s s.proc s' → Q none s')
    (hsome : ∀ P s', P.Empty → After K boot s (update s.proc i P) s' → Q (some i) s') :
    Ends allow () (initProc K i) s Q := by
  obtain ⟨hW, own, h⟩ := hI
  rw [initProc]
  refine Ends.seq (ends_allocpid ?_)
  apply ends_act_bind.mpr
  -- the entry is in use, without any memory yet
  set P1 : Proc := { s.proc i with pid := s.nextpid, state := .USED } with hP1
  have htf1 : P1.trapframe = 0 := by rw [hP1, hun]; rfl
  have hpt1 : P1.pagetable = 0 := by rw [hP1, hun]; rfl
  have hsz1 : P1.sz = 0 := by rw [hP1, hun]; rfl
  set s1 : Kernel := ({ s with nextpid := s.nextpid + 1 } : Kernel).setProc i P1 with hs1
  have hproc1 : s1.proc = update s.proc i P1 := rfl
  have hi1 : s1.proc i = P1 := update_self _ _ _
  obtain ⟨hW1, h1⟩ := inv_mark hW h hun rfl htf1 hpt1 (show s1.kmem = s.kmem from rfl) rfl hproc1
  refine Ends.seq (ends_vm (ends_kalloc h1.owned (fun m2 h2 hm2 => ?_)
    fun tf m2 htf h2 hm2 => ?_))
  · -- no memory for the trapframe
    apply ends_act_bind.mpr
    rw [setProc_same (by rw [hi1]; exact Proc.ext rfl rfl rfl rfl rfl rfl rfl htf1)]
    have h2' := h1.restored ⟨h2, fun q _ => by rw [hm2]⟩
    exact ends_giveUp ⟨hW1.mem, own, h2'⟩ hproc1 hun hsz1 rfl hnone
  apply ends_act_bind.mpr
  obtain ⟨hW2, h2'⟩ := inv_trapframe hW1 h1 (by rw [hi1, hpt1]) (by rw [hi1, htf1]) (by rw [hi1])
    htf h2 hm2
  rw [hi1] at hW2 h2'
  set P2 : Proc := { P1 with trapframe := tf } with hP2
  set s2 : Kernel := ({ s1 with kmem := m2 } : Kernel).setProc i P2 with hs2
  have hi2 : s2.proc i = P2 := update_self _ _ _
  have hproc2 : s2.proc = update s.proc i P2 := update_idem _ _ _
  show Ends allow () _ (({ s1 with kmem := m2 } : Kernel).setProc i
    { s1.proc i with trapframe := tf }) Q
  rw [hi1]
  refine Ends.seq (ends_vm (ends_proc_pagetable h2'.owned (update_self _ _ _)
    (fun m3 hR => ?_) fun r m3 own3 hf => ?_))
  · -- no memory for the table
    apply ends_act_bind.mpr
    show Ends allow () _ (({ s2 with kmem := m3 } : Kernel).setProc i
      { s2.proc i with pagetable := 0 }) Q
    have hsame : s2.proc i = { s2.proc i with pagetable := 0 } :=
      Proc.ext rfl rfl rfl rfl rfl rfl (by rw [hi2]; exact hpt1) rfl
    rw [setProc_same (s := { s2 with kmem := m3 }) hsame]
    exact ends_giveUp ⟨hW2.mem, _, h2'.restored hR⟩ hproc2 hun hsz1 rfl hnone
  · apply ends_act_bind.mpr
    obtain ⟨hW3, h3⟩ := inv_pagetable hW2 h2' (by rw [hi2]; exact hsz1) (by rw [hi2]; exact hpt1)
      (by rw [hi2]) (by rw [hi2]; exact hf)
    rw [hi2] at hW3 h3
    have htf0 : tf ≠ 0 := h1.pos (by rw [htf]; exact Place.noConfusion)
    have hr0 : r ≠ 0 := root_ne_zero hf.owned hf.space.root
    refine hsome { P2 with pagetable := r } _ ⟨rfl, hsz1, htf0, hr0⟩ ⟨⟨?_, own3, ?_⟩, ?_, rfl⟩
    · show Wf boot (({ s2 with kmem := m3 } : Kernel).setProc i { s2.proc i with pagetable := r })
      rwa [hi2]
    · show Agrees K boot _ (({ s2 with kmem := m3 } : Kernel).setProc i
        { s2.proc i with pagetable := r }) own3
      rwa [hi2]
    · show update s2.proc i { s2.proc i with pagetable := r } = _
      rw [hi2, hproc2, update_idem]

/-- **`allocproc` sets up an unused entry**, or leaves the process table alone. -/
theorem ends_allocproc (hI : Inv K boot s) (hnone : ∀ s', After K boot s s.proc s' → Q none s')
    (hsome : ∀ i P s', s.proc i = .unused → P.Empty →
      After K boot s (update s.proc i P) s' → Q (some i) s') :
    Ends allow () (allocproc K) s Q := by
  rw [allocproc]
  apply ends_look_bind.mpr
  cases hfind : (List.finRange NPROC).find? fun i => (s.proc i).state = .UNUSED with
  | none => exact hnone s ⟨hI, rfl, rfl⟩
  | some i =>
    have hun := hI.1.unused i (by simpa using List.find?_some hfind)
    exact ends_initProc hI hun hnone fun P s' => hsome i P s' hun

/-! ### Changes to one process -/

section

variable (hW : Wf boot s) (h : Agrees K boot (fun _ => False) s own) (hi : (s.proc i).pagetable ≠ 0)
  (hst : (s.proc i).state ≠ .UNUSED)

include hW h hi hst

theorem inv_user
    (h' : Owned K ∅ s'.kmem own') (hfr : Frame (s.proc i).pagetable ∅ s.kmem own s'.kmem own')
    (hS : Space s'.kmem own' (s.proc i).pagetable (pages sz) K.trampoline (s.proc i).trapframe)
    (hproc : s'.proc = update s.proc i { s.proc i with sz := sz })
    (hfiles : s'.files = s.files) : Inv K boot s' := by
  refine ⟨hW.update hproc hfiles (fun _ => Or.inl rfl) (fun _ => Or.inl rfl)
    (fun hc => absurd hc hst)
    (fun h1 h2 => hW.ready i h1 h2), own', h.frameProc
    (P := { s.proc i with sz := sz }) h' hfr hfiles hproc rfl
      (fun _ hr' _ hor => hr' (hor.resolve_right id).symm) (fun j hji => ⟨fun hc => hji ?_, id⟩) hS⟩
  exact hW.pagetable_inj j i hc (by rwa [hc])

theorem inv_touched (h' : Owned K ∅ m' own') (hfr : Frame (s.proc i).pagetable ∅ s.kmem own m' own')
    (hS : Space m' own' (s.proc i).pagetable (pages (s.proc i).sz) K.trampoline
      (s.proc i).trapframe) : Inv K boot { s with kmem := m' } :=
  inv_user hW h hi hst h' hfr hS (update_eq_self _ _).symm rfl

end

/-- The process table has changed, but no pointer to memory. -/
theorem inv_procs (hI : Inv K boot s) (hmem : s'.kmem = s.kmem) (hfiles : s'.files = s.files)
    (htf : ∀ i, (s'.proc i).trapframe = (s.proc i).trapframe)
    (hpt : ∀ i, (s'.proc i).pagetable = (s.proc i).pagetable)
    (hsz : ∀ i, (s'.proc i).pagetable ≠ 0 → pages (s.proc i).sz ≤ pages (s'.proc i).sz)
    (hun : ∀ i, (s'.proc i).state = .UNUSED → s'.proc i = .unused)
    (hre : ∀ i, (s'.proc i).state ≠ .UNUSED → (s'.proc i).state ≠ .USED →
      (s.proc i).trapframe ≠ 0 ∧ (s.proc i).pagetable ≠ 0) : Inv K boot s' := by
  obtain ⟨hW, own, h⟩ := hI
  refine ⟨⟨fun i => ?_, fun p w => ?_, fun i w => ?_, fun i j => ?_, fun i j => ?_, hun,
    fun i h1 h2 => ?_, ?_⟩, own, h.procs hmem hfiles htf hpt hsz⟩
  · rw [htf]
    exact hW.boot_trapframe i
  · rw [hfiles]
    exact hW.boot_pipe p w
  · rw [htf, hfiles]
    exact hW.trapframe_pipe i w
  · rw [htf, htf]
    exact hW.trapframe_inj i j
  · rw [hpt, hpt]
    exact hW.pagetable_inj i j
  · rw [htf, hpt]
    exact hre i h1 h2
  · rw [hfiles]
    exact hW.files

/-- Fields of one process that say nothing about memory have changed. -/
theorem inv_modify (hI : Inv K boot s) (htf : P.trapframe = (s.proc i).trapframe)
    (hpt : P.pagetable = (s.proc i).pagetable) (hsz : pages (s.proc i).sz ≤ pages P.sz)
    (hun : P.state ≠ .UNUSED)
    (hre : P.state ≠ .USED → (s.proc i).trapframe ≠ 0 ∧ (s.proc i).pagetable ≠ 0) :
    Inv K boot (s.setProc i P) := by
  have hj : ∀ {j}, j ≠ i → update s.proc i P j = s.proc j := fun hne =>
    update_of_ne hne _ _
  refine inv_procs hI rfl rfl (fun j => ?_) (fun j => ?_) (fun j _ => ?_) (fun j => ?_) fun j => ?_
  all_goals
    rw [setProc_proc]
    by_cases hji : j = i
  · rw [hji, update_self, htf]
  · rw [hj hji]
  · rw [hji, update_self, hpt]
  · rw [hj hji]
  · rwa [hji, update_self]
  · rw [hj hji]
  · rw [hji, update_self]
    exact fun hc => absurd hc hun
  · rw [hj hji]
    exact hI.1.unused j
  · rw [hji, update_self]
    exact fun _ h2 => hre h2
  · rw [hj hji]
    exact hI.1.ready j

/-! ### growproc and sbrk -/

theorem add64_pos {n : ℤ} (hsz : sz ≤ TRAPFRAME) (h0 : 0 < n) (hn : n < 2 ^ 31) :
    add64 sz n = sz + n.toNat := by
  have hT := TRAPFRAME_eq
  rw [add64]
  omega

variable {n : ℤ} (hI : Inv K boot s) (hrun : (s.proc i).state = .RUNNABLE)
  (hsz : (s.proc i).sz ≤ TRAPFRAME) (hn : n < 2 ^ 31)
  (hreach : TRAPFRAME < (s.proc i).sz + n → allow "mappages: remap")

include hI hrun hsz hn hreach

/-- **`growproc` changes the size, or nothing.** -/
theorem ends_growproc {Q : Bool → Kernel → Prop}
    (hQ : ∀ b sz s', sz ≤ TRAPFRAME →
      After K boot s (update s.proc i { s.proc i with sz := sz }) s' → Q b s') :
    Ends allow () (growproc K i n) s Q := by
  obtain ⟨hW, own, h⟩ := hI
  have hT := TRAPFRAME_eq
  have hst := ne_unused hrun
  have hpt := (hW.runnable hrun).2
  have hS := h.space i hpt id
  have hmax := pages_le hsz
  -- what is left after mappings have been removed
  have hless : ∀ {sz : ℕ} {m' : Kmem} {own' : ℕ → Place} {P : ℕ → Prop},
      Unmapped (s.proc i).pagetable P s.kmem own m' own' → (∀ u, P u → u < 2 ^ 26 - 2) →
      (∀ u < 512 ^ 3, ¬ P u → s.kmem.lookup (s.proc i).pagetable u &&& PTE_V ≠ 0 → ¬ Special u →
        u < pages sz) →
      Space m' own' (s.proc i).pagetable (pages sz) K.trampoline (s.proc i).trapframe := by
    intro sz m' own' P hu hP hlow
    refine hS.edit hu.toEdit hP fun v hv hs hval => ?_
    by_cases hPv : P v
    · exact absurd (hu.gone v hv hPv) hval
    · rw [hu.other v hv hPv] at hval
      exact hlow v hv hPv hval hs
  rw [growproc]
  apply ends_look_bind.mpr
  split_ifs with hpos hneg
  · -- growing
    rw [add64_pos hsz hpos hn]
    refine Ends.seq (ends_vm (ends_uvmalloc h.owned hS hsz (by decide) (Nat.le_add_right _ _) ?_
      (fun m1 own1 h1 hu => ?_) fun m1 own1 hle h1 he _ _ => ?_))
    · by_cases hbig : TRAPFRAME < (s.proc i).sz + n
      · exact Or.inr (Or.inr (hreach hbig))
      · exact Or.inl (pages_le (by omega))
    · rw [if_pos rfl]
      have hS1 := hless hu (fun u hu => hu.2) fun u hu _ hval hs =>
        (hS.bound u hu hval).resolve_right hs
      exact hQ false _ _ hsz ⟨inv_touched hW h hpt hst h1 hu.frame hS1,
        (update_eq_self _ _).symm, rfl⟩
    · rw [if_neg (by omega)]
      have hS1 : Space m1 own1 (s.proc i).pagetable (pages ((s.proc i).sz + n.toNat)) K.trampoline
          (s.proc i).trapframe := by
        refine hS.edit he (fun v hv => by omega) fun v hv hs hval => ?_
        by_cases hP : pages (s.proc i).sz ≤ v ∧ v < pages ((s.proc i).sz + n.toNat)
        · exact hP.2
        · rw [he.other v hv hP] at hval
          exact lt_of_lt_of_le ((hS.bound v hv hval).resolve_right hs) (pages_mono (by omega))
      apply ends_act_bind.mpr
      exact hQ true _ _ (le_of_pages_le hle)
        ⟨inv_user hW h hpt hst h1 he.frame hS1 rfl rfl, rfl, rfl⟩
  · -- shrinking; a size below zero wraps around and changes nothing
    refine Ends.seq (ends_vm (ends_uvmdealloc h.owned hS.root hsz (fun hge => ?_)
      fun m1 own1 hlt h1 hu => ?_))
    · apply ends_act_bind.mpr
      exact hQ true _ _ hsz
        ⟨inv_user hW h hpt hst h.owned (Frame.refl _ _ _ _) hS rfl rfl, rfl, rfl⟩
    · apply ends_act_bind.mpr
      have hmono := pages_mono (le_of_lt hlt)
      have hS1 : Space m1 own1 (s.proc i).pagetable (pages (add64 (s.proc i).sz n)) K.trampoline
          (s.proc i).trapframe := hless hu (fun u hu => by omega) fun u hu hP hval hs => by
        have := (hS.bound u hu hval).resolve_right hs
        omega
      exact hQ true _ _ (by omega) ⟨inv_user hW h hpt hst h1 hu.frame hS1 rfl rfl, rfl, rfl⟩
  · exact hQ true _ s hsz ⟨⟨hW, own, h⟩, by rw [update_eq_self], rfl⟩

/-- **`sys_sbrk`**: the size stays below the trapframe if what is asked for does. -/
theorem ends_sys_sbrk {t : ℤ} {Q : ℤ → Kernel → Prop}
    (hQ : ∀ b sz s', ((s.proc i).sz + n ≤ TRAPFRAME → sz ≤ TRAPFRAME) →
      After K boot s (update s.proc i { s.proc i with sz := sz }) s' → Q b s') :
    Ends allow () (sys_sbrk K i n t) s Q := by
  have hT := TRAPFRAME_eq
  rw [sys_sbrk]
  apply ends_look_bind.mpr
  split_ifs with heager hwrap
  · refine Ends.seq (ends_growproc hI hrun hsz hn hreach fun b sz s' hle hA => ?_)
    cases b <;> exact hQ _ sz s' (fun _ => hle) hA
  · exact hQ _ _ s (fun _ => hsz) ⟨hI, by rw [update_eq_self], rfl⟩
  · apply ends_act_bind.mpr
    refine hQ _ (add64 (s.proc i).sz n) _ (fun hle => ?_) ⟨inv_modify hI rfl rfl
      (pages_mono (not_lt.mp hwrap)) (ne_unused hrun) fun _ => hI.1.runnable hrun, rfl, rfl⟩
    have hn0 : 0 ≤ n := by
      by_contra hc
      exact heager (Or.inr (not_le.mp hc))
    rw [add64]
    omega

end Xv6.Process
