import Xv6.Process.Ops

/-!
# Fork, exec, exit, wait and pipes

The system calls that make and end processes, and those that use their memory,
keep the invariant.

## Main results

* `ends_userinit`, `ends_kfork`, `ends_kexec`, `ends_kexit`, `ends_kwait`,
  `ends_pagefault`, `ends_either_copyout`, `ends_either_copyin`, `ends_pipealloc`,
  `ends_closePipe`.
-/

namespace Xv6.Process

open Conc Vm Function

variable {K : Layout} {allow : String → Prop} {boot L : ℕ → Prop} {s s' : Kernel} {m' : Kmem}
  {own own' : ℕ → Place} {p q r v sz n : ℕ} {i j : Fin NPROC} {P P' : Proc}

/-! ### The first process -/

theorem ends_userinit (hI : Inv K boot s) {Q : Unit → Kernel → Prop} (hstop : allow "kerneltrap")
    (hQ : ∀ i P s', Inv K boot s' → s.proc i = .unused → P.sz = 0 → P.state = .RUNNABLE →
      s'.proc = update s.proc i P → Q () s') :
    Ends allow () (userinit K) s Q := by
  rw [userinit]
  refine Ends.seq (ends_allocproc hI (fun s1 _ => hstop) fun i P s1 hun hP hA => ?_)
  apply ends_act_bind.mpr
  have hi : s1.proc i = P := by rw [hA.proc, update_self]
  -- the pointer to the first process does not matter to memory
  have hI1 : Inv K boot { s1 with initproc := some i } := by
    refine inv_procs hA.inv rfl rfl (fun _ => rfl) (fun _ => rfl) (fun _ _ => le_rfl) ?_ ?_
    · exact hA.inv.1.unused
    · exact hA.inv.1.ready
  have hI2 := inv_modify (i := i) (P := { P with state := .RUNNABLE }) hI1 (by rw [hi]) (by rw [hi])
    (by rw [hi]) ProcState.noConfusion fun _ => by
      rw [hi]
      exact ⟨hP.trapframe, hP.pagetable⟩
  refine hQ i { P with state := .RUNNABLE } _ ?_ hun hP.sz rfl ?_
  · show Inv K boot (({ s1 with initproc := some i } : Kernel).setProc i
      { s1.proc i with state := .RUNNABLE })
    rwa [hi]
  · show update s1.proc i { s1.proc i with state := .RUNNABLE } = _
    rw [hi, hA.proc, update_idem]

/-! ### Exit -/

/-- What `kexit` does to the process table. -/
def exited (s : Kernel) (i : Fin NPROC) (status : ℤ) : Fin NPROC → Proc :=
  Function.update (fun j =>
      if (s.proc j).parent = some i then { s.proc j with parent := s.initproc } else s.proc j) i
    { (if (s.proc i).parent = some i then { s.proc i with parent := s.initproc } else s.proc i) with
      xstate := status, state := .ZOMBIE }

theorem exited_eq (s : Kernel) (i : Fin NPROC) (status : ℤ) (j : Fin NPROC) :
    (exited s i status j).trapframe = (s.proc j).trapframe ∧
      (exited s i status j).pagetable = (s.proc j).pagetable ∧
      (exited s i status j).sz = (s.proc j).sz ∧
      (exited s i status j).state = if j = i then .ZOMBIE else (s.proc j).state := by
  unfold exited
  obtain rfl | hji := eq_or_ne j i
  · rw [update_self, if_pos rfl]
    split_ifs <;> exact ⟨rfl, rfl, rfl, rfl⟩
  · rw [update_of_ne hji, if_neg hji]
    split_ifs <;> exact ⟨rfl, rfl, rfl, rfl⟩

theorem ends_kexit {status : ℤ} (hI : Inv K boot s) (hrun : (s.proc i).state = .RUNNABLE)
    {Q : Unit → Kernel → Prop} (hstop : s.initproc = some i → allow "init exiting")
    (hQ : ∀ s', After K boot s (exited s i status) s' → Q () s') :
    Ends allow () (kexit i status) s Q := by
  rw [kexit]
  apply ends_look_bind.mpr
  split_ifs with hinit
  · exact hstop hinit
  apply ends_act_bind.mpr
  apply ends_act.mpr
  refine hQ _ ⟨inv_procs hI rfl rfl (fun j => (exited_eq s i status j).1)
    (fun j => (exited_eq s i status j).2.1) (fun j _ => ?_) (fun j hj => ?_) fun j h1 h2 =>
      ?_, rfl, rfl⟩
  · exact le_of_eq (by rw [← (exited_eq s i status j).2.2.1]; rfl)
  · -- an unused entry has no parent
    have hst := (exited_eq s i status j).2.2.2
    have hji : j ≠ i := by
      rintro rfl
      rw [if_pos rfl] at hst
      rw [show (exited s j status j).state = .UNUSED from hj] at hst
      cases hst
    rw [if_neg hji, show (exited s i status j).state = .UNUSED from hj] at hst
    have hun := hI.1.unused j hst.symm
    show exited s i status j = _
    unfold exited
    rw [update_of_ne hji, if_neg (by rw [hun]; simp [Proc.unused]), hun]
  · have hst := (exited_eq s i status j).2.2.2
    by_cases hji : j = i
    · rw [hji]
      exact hI.1.runnable hrun
    · rw [if_neg hji] at hst
      have h1 : (exited s i status j).state ≠ .UNUSED := h1
      have h2 : (exited s i status j).state ≠ .USED := h2
      rw [hst] at h1 h2
      exact hI.1.ready j h1 h2

/-! ### Using memory -/

section

variable (hI : Inv K boot s) (hrun : (s.proc i).state = .RUNNABLE) (hsz : (s.proc i).sz ≤ TRAPFRAME)

include hI hrun hsz

theorem ends_either_copyout {dst : ℕ} {src : List UInt8}
    {Q : Bool → Kernel → Prop} (hQ : ∀ b s', After K boot s s.proc s' → Q b s') :
    Ends allow () (either_copyout K i dst src) s Q := by
  obtain ⟨hW, own, h⟩ := hI
  have hpt := (hW.runnable hrun).2
  rw [either_copyout]
  apply ends_look_bind.mpr
  refine ends_vm ((ends_copyoutFrom hsz _ dst src _ own le_rfl h.owned (h.space i hpt id)).mono
    fun b m1 hm => ?_)
  obtain ⟨own1, hu, -⟩ := hm
  exact hQ b _ ⟨inv_touched hW h hpt (ne_unused hrun) hu.owned hu.edit.frame hu.space, rfl, rfl⟩

theorem ends_either_copyin {src len : ℕ}
    {Q : Bool × List UInt8 → Kernel → Prop} (hQ : ∀ b s', After K boot s s.proc s' → Q b s') :
    Ends allow () (either_copyin K i src len) s Q := by
  obtain ⟨hW, own, h⟩ := hI
  have hpt := (hW.runnable hrun).2
  rw [either_copyin]
  apply ends_look_bind.mpr
  refine ends_vm ((ends_copyinFrom hsz _ src len _ own le_rfl h.owned (h.space i hpt id)).mono
    fun b m1 hm => ?_)
  obtain ⟨own1, hu, -⟩ := hm
  exact hQ b _ ⟨inv_touched hW h hpt (ne_unused hrun) hu.owned hu.edit.frame hu.space, rfl, rfl⟩

/-- A page fault maps a page, or ends the process. -/
theorem ends_pagefault {va : ℕ} {Q : Unit → Kernel → Prop}
    (hstop : s.initproc = some i → allow "init exiting")
    (hQ : ∀ s', Inv K boot s' → (∀ j, (s'.proc j).sz = (s.proc j).sz) → Q () s') :
    Ends allow () (pagefault K i va) s Q := by
  obtain ⟨hW, own, h⟩ := hI
  have hpt := (hW.runnable hrun).2
  have hS := h.space i hpt id
  have hst := ne_unused hrun
  rw [pagefault]
  apply ends_look_bind.mpr
  refine Ends.seq (ends_vm (ends_vmfault h.owned hS hsz (fun m1 own1 h1 he => ?_)
    fun p m1 own1 hlt _ h1 he _ _ => ?_))
  · have ht := Touched.of_edit hS hsz he fun _ => False.elim
    have hI1 := inv_touched hW h hpt hst h1 ht.edit.frame ht.space
    apply ends_act_bind.mpr
    have hI2 := inv_modify (i := i) (P := { s.proc i with killed := true }) hI1 rfl rfl le_rfl hst
      fun _ => hW.runnable hrun
    refine ends_kexit hI2 (by simp [hrun]) hstop fun s' hA => hQ s' hA.inv fun j => ?_
    rw [hA.proc, (exited_eq _ _ _ _).2.2.1, setProc_proc]
    by_cases hji : j = i
    · rw [hji, update_self]
    · rw [update_of_ne hji]
  · have ht := Touched.of_edit hS hsz he fun v hv => hv ▸ hlt
    exact hQ _ (inv_touched hW h hpt hst h1 ht.edit.frame ht.space) fun _ => rfl

end

/-! ### Wait -/

section

variable (hI : Inv K boot s) (hrun : (s.proc i).state = .RUNNABLE)
  (hsz : ∀ j, (s.proc j).sz ≤ TRAPFRAME)

include hI hrun hsz

theorem ends_reap {addr : ℕ} {Q : ℤ → Kernel → Prop}
    (hQ : ∀ b s', (addr ≠ 0 ∧ After K boot s s.proc s' ∨
      After K boot s (update s.proc j .unused) s') →
      Q b s') : Ends allow () (reap K i addr j) s Q := by
  rw [reap]
  apply ends_look_bind.mpr
  apply ends_look_bind.mpr
  -- whatever the copy does to the parent's memory
  have hrest : ∀ b s1, (b = false → addr ≠ 0) → After K boot s s.proc s1 →
    Ends allow () (if b = true
      then do
        freeproc K j
        pure ((s.proc j).pid : ℤ)
      else pure (-1)) s1 Q := by
    intro b s1 hb hA
    cases b with
    | false => exact hQ _ s1 (Or.inl ⟨hb rfl, hA⟩)
    | true =>
      rw [if_pos rfl]
      refine Ends.seq (ends_freeproc hA.inv (by rw [hA.proc]; exact hsz j) fun s2 hA2 => ?_)
      exact hQ _ s2 (Or.inr ⟨hA2.inv, by rw [hA2.proc, hA.proc], hA2.initproc.trans hA.initproc⟩)
  by_cases haddr : addr ≠ 0
  · rw [if_pos haddr]
    exact Ends.seq (ends_look_bind.mp (ends_either_copyout hI hrun (hsz i) fun b s1 =>
      hrest b s1 fun _ => haddr))
  · rw [if_neg haddr]
    exact Ends.seq (ends_vm (ends_pure.mpr (hrest true _ nofun ⟨hI, rfl, rfl⟩)))

/-- **`kwait` frees a zombie whole, or leaves the process table alone**; it frees the first that it
finds, unless the status cannot be delivered. -/
theorem ends_kwait {addr : ℕ} {Q : Option ℤ → Kernel → Prop}
    (hQ : ∀ b s', (After K boot s s.proc s' ∨ ∃ j, After K boot s (update s.proc j .unused) s') →
      (addr = 0 → ∀ j, ((List.finRange NPROC).find? fun j =>
        (s.proc j).parent = some i ∧ (s.proc j).state = .ZOMBIE) = some j →
          After K boot s (update s.proc j .unused) s') → Q b s') :
    Ends allow () (kwait K i addr) s Q := by
  rw [kwait]
  apply ends_look_bind.mpr
  cases hf : (List.finRange NPROC).find? fun j =>
      (s.proc j).parent = some i ∧ (s.proc j).state = .ZOMBIE with
  | some j =>
    refine Ends.seq (ends_reap hI hrun hsz fun b s1 hA => hQ _ s1 ?_ fun h0 j' hj => ?_)
    · exact hA.imp And.right fun hA => ⟨j, hA⟩
    · obtain rfl := Option.some.inj (hf.symm.trans hj)
      exact hA.resolve_left fun hc => hc.1 h0
  | none =>
    have hsame : ∀ b, Q b s := fun b => hQ b s (Or.inl ⟨hI, rfl, rfl⟩) fun _ j hj =>
      absurd (hf.symm.trans hj) (Option.some_ne_none j).symm
    dsimp only
    split_ifs <;> exact hsame _

end

/-! ### Fork -/

theorem ends_copyTrapframe {src dst : ℕ} {m : Kmem} {Q : Unit → Kmem → Prop}
    (hQ : ∀ b, Q () ((m.setPage dst b).setPage dst
      (Bytes.set 8 ((m.setPage dst b).mem dst) 112 0))) :
    Ends allow () (copyTrapframe src dst) m Q := by
  rw [copyTrapframe]
  apply ends_act_bind.mpr
  exact hQ _

theorem inv_setTrapframe (hI : Inv K boot s) (htf : (s.proc i).trapframe ≠ 0) (b : Bytes.Mem) :
    Inv K boot { s with kmem := s.kmem.setPage (s.proc i).trapframe b } := by
  obtain ⟨hW, own, h⟩ := hI
  exact ⟨hW.mem, own, h.setPage (h.trapframe_held htf) (fun w => hW.trapframe_pipe i w htf) b⟩

/-- The end of `kfork`: the child gets its registers and its parent, and can run. -/
theorem ends_forkTail {src : ℕ} {pid : ℤ} (hI : Inv K boot s) (hP : s.proc j = P)
    (hst : P.state = .USED) (htf : P.trapframe ≠ 0) (hpt : P.pagetable ≠ 0) {Q : ℤ → Kernel → Prop}
    (hQ : ∀ s', After K boot s
      (update s.proc j { P with parent := some i, state := .RUNNABLE }) s' → Q pid s') :
    Ends allow () (do
      vm (copyTrapframe src P.trapframe)
      modifyProc j fun c => { c with parent := some i }
      modifyProc j fun c => { c with state := .RUNNABLE }
      pure pid) s Q := by
  subst hP
  refine Ends.seq (ends_vm (ends_copyTrapframe fun b => ?_))
  have hI1 := inv_setTrapframe (inv_setTrapframe hI htf b) htf
    (Bytes.set 8 ((s.kmem.setPage (s.proc j).trapframe b).mem (s.proc j).trapframe) 112 0)
  have hI2 := inv_modify (i := j) (P := { s.proc j with parent := some i }) hI1 rfl rfl le_rfl
    (by rw [hst]; exact ProcState.noConfusion) fun hc => absurd hst hc
  have hI3 := inv_modify (i := j) (P := { s.proc j with parent := some i, state := .RUNNABLE }) hI2
    (by rw [setProc_proc, update_self]) (by rw [setProc_proc, update_self])
    (by rw [setProc_proc, update_self]) ProcState.noConfusion fun _ => by
      rw [setProc_proc, update_self]
      exact ⟨htf, hpt⟩
  apply ends_act_bind.mpr
  apply ends_act_bind.mpr
  refine hQ _ ⟨?_, ?_, rfl⟩
  · simpa only [Kernel.setProc, update_self] using hI3
  · simp only [Kernel.setProc, update_self, update_idem]

/-- **`kfork` makes a child with a copy of the parent's memory, or changes nothing.** -/
theorem ends_kfork (hI : Inv K boot s) (hrun : (s.proc i).state = .RUNNABLE)
    (hsz : (s.proc i).sz ≤ TRAPFRAME) {Q : ℤ → Kernel → Prop}
    (hQ : ∀ b s', (After K boot s s.proc s' ∨ ∃ j P, s.proc j = .unused ∧
      P.sz = (s.proc i).sz ∧ After K boot s (update s.proc j P) s') → Q b s') :
    Ends allow () (kfork K i) s Q := by
  rw [kfork]
  refine Ends.seq (ends_allocproc hI (fun s1 hA => hQ _ s1 (Or.inl hA)) fun np P s1 hun hP hA => ?_)
  have hne : i ≠ np := by
    rintro rfl
    rw [hun] at hrun
    cases hrun
  have hnp : s1.proc np = P := by rw [hA.proc, update_self]
  have hi : s1.proc i = s.proc i := by rw [hA.proc, update_of_ne hne]
  obtain ⟨hW1, own1, h1⟩ := hA.inv
  apply ends_look_bind.mpr
  apply ends_look_bind.mpr
  rw [hi, hnp]
  have hpt := (hI.1.runnable hrun).2
  have hSi := h1.space i (by rwa [hi]) id
  have hSn := h1.space np (by rw [hnp]; exact hP.pagetable) id
  rw [hi] at hSi
  rw [hnp, hP.sz] at hSn
  -- the tables of parent and child are different
  have htables : (s.proc i).pagetable ≠ P.pagetable := by
    intro hc
    exact hne (hW1.pagetable_inj i np (by rw [hi, hnp, hc]) (by rwa [hi]))
  have hstnp : (s1.proc np).state ≠ .UNUSED := by
    rw [hnp, hP.state]
    exact ProcState.noConfusion
  have hptnp : (s1.proc np).pagetable ≠ 0 := by
    rw [hnp]
    exact hP.pagetable
  refine Ends.seq (ends_vm (ends_uvmcopy htables h1.owned hSi hSn hsz (fun m2 own2 h2 hu => ?_)
    fun m2 own2 h2 he hc => ?_))
  · -- no memory: the child is given up
    rw [if_neg (by decide)]
    have hS2 : Space m2 own2 P.pagetable (pages P.sz) K.trampoline P.trapframe := by
      rw [hP.sz]
      refine hSn.edit hu.toEdit (fun v hv => hv) fun v hv hs hval => ?_
      by_cases hlt : v < 2 ^ 26 - 2
      · exact absurd (hu.gone v hv hlt) hval
      · rw [hu.other v hv hlt] at hval
        exact (hSn.bound v hv hval).resolve_right hs
    have hI2 := inv_touched hW1 h1 hptnp hstnp h2 (by rw [hnp]; exact hu.frame)
      (by rw [hnp]; exact hS2)
    refine Ends.seq (ends_freeproc hI2 ?_ fun s3 hA3 => ?_)
    · show (s1.proc np).sz ≤ _
      rw [hnp, hP.sz]
      exact Nat.zero_le _
    · refine hQ _ s3 (Or.inl ⟨hA3.inv, ?_, hA3.initproc.trans hA.initproc⟩)
      rw [hA3.proc]
      show update s1.proc np .unused = _
      rw [hA.proc, update_idem, update_same hun]
  · rw [if_pos rfl]
    apply ends_act_bind.mpr
    have hS2 : Space m2 own2 P.pagetable (pages (s.proc i).sz) K.trampoline P.trapframe := by
      have hmax := pages_le hsz
      refine hSn.edit he (fun v hv => by omega) fun v hv hs hval => ?_
      by_cases hlt : v < pages (s.proc i).sz
      · exact hlt
      · rw [he.other v hv hlt] at hval
        exact absurd ((hSn.bound v hv hval).resolve_right hs) (Nat.not_lt_zero v)
    set P2 : Proc := { P with sz := (s.proc i).sz } with hP2
    set s2 : Kernel := ({ s1 with kmem := m2 } : Kernel).setProc np P2 with hs2
    have hI2 : Inv K boot s2 := inv_user hW1 h1 hptnp hstnp h2 (by rw [hnp]; exact he.frame)
      (by rw [hnp]; exact hS2) (by rw [hnp]; rfl) rfl
    show Ends allow () _ (({ s1 with kmem := m2 } : Kernel).setProc np
      { s1.proc np with sz := (s.proc i).sz }) Q
    rw [hnp]
    refine ends_forkTail hI2 (update_self _ _ _) hP.state hP.trapframe hP.pagetable
      fun s3 hA3 => hQ _ s3 (Or.inr ⟨np, { P2 with parent := some i, state := .RUNNABLE }, hun, rfl,
        hA3.inv, ?_, hA3.initproc.trans hA.initproc⟩)
    rw [hA3.proc]
    show update (update s1.proc np P2) np _ = _
    rw [update_idem, hA.proc, update_idem]

/-! ### Exec -/

theorem Space.setHeld {m : Kmem} {tr tf : ℕ} (hS : Space m own r n tr tf) (h : Owned K ∅ m own)
    (hp : own p = .held) (b : Bytes.Mem) : Space (m.setPage p b) own r n tr tf := by
  refine Space.congr hS h (h.setPage hp b) fun q x hq => ?_
  apply Kmem.setPage_mem_of_ne
  rintro rfl
  exact held_not_node hp _ _ _ hq

theorem Holds.setHeld {m : Kmem} {c : ℕ → UInt8} (hh : Holds m r n c) (h : Owned K ∅ m own)
    (hr : own r = .node r 3 0) (hn : n ≤ 2 ^ 26 - 2) (hp : own p = .held) (b : Bytes.Mem) :
    Holds (m.setPage p b) r n c := by
  have hne : ∀ {q lv x}, own q = .node r lv x → (m.setPage p b).mem q = m.mem q := by
    intro q lv x hq
    apply Kmem.setPage_mem_of_ne
    rintro rfl
    exact held_not_node hp _ _ _ hq
  exact hh.keep h hr hn (fun u hu => h.lookup_retag (h.setPage hp b) hr (fun _ _ _ => Iff.rfl)
    (fun _ _ hq => hne hq) (by omega)) fun _ _ _ hq => hne hq

theorem ends_setWord {off w : ℕ} {Q : Unit → Kernel → Prop}
    (hQ : ∀ b, b = Bytes.set 8 (s.kmem.mem p) off w → Q () { s with kmem := s.kmem.setPage p b }) :
    Ends allow () (vm (setWord p off w)) s Q :=
  ends_vm (hQ _ rfl)

theorem Agrees.build {tf : ℕ} (h : Agrees K boot (fun _ => False) s own)
    (hf : Fresh K r n tf s.kmem own m' own') : Agrees K boot (· = r) { s with kmem := m' } own' :=
  h.frame hf.owned hf.frame rfl (fun _ => rfl) (fun _ _ _ _ => Or.inr rfl)
    (fun _ _ _ hor => Or.inl (hor.resolve_right id)) (fun _ _ _ _ => ⟨id, rfl, rfl⟩)
    fun _ _ _ hc => absurd rfl hc

theorem Agrees.swap (h : Agrees K boot (· = r) s own) (hr : ∀ j, (s.proc j).pagetable ≠ r)
    (hS : Space s.kmem own r (pages sz) K.trampoline (s.proc i).trapframe) :
    Agrees K boot (· = (s.proc i).pagetable)
      (s.setProc i { s.proc i with pagetable := r, sz := sz }) own :=
  h.frameProc (P := { s.proc i with pagetable := r, sz := sz }) h.owned
    (Frame.refl r ∅ _ _) rfl rfl rfl
    (fun _ hr' _ hor => (hor.resolve_right hr').symm) (fun j _ => ⟨hr j, hr j⟩) hS

theorem Agrees.drop (h : Agrees K boot (· = r) s own) (h' : Owned K ∅ m' own')
    (hd : Dropped r s.kmem own m' own') (hr : ∀ j, (s.proc j).pagetable ≠ r) :
    Agrees K boot (fun _ => False) { s with kmem := m' } own' :=
  h.frame h' hd.frame rfl (fun _ => rfl) (fun q lv x hq => absurd hq (hd.gone q lv x))
    (fun _ hr' _ hor => Or.inl (hor.resolve_right hr')) (fun j _ _ _ => ⟨hr j, rfl, rfl⟩)
    fun j hj => absurd hj (hr j)

/-- Page `q` is a page of table `r`, or a user page that is mapped there. -/
def InTable (m : Kmem) (r q : ℕ) : Prop :=
  ∃ d x, d ≤ 3 ∧ (d = 3 → ¬ Special x) ∧ m.pageAt r d x = some q

theorem inTable_iff {m : Kmem} (h : Owned K ∅ m own) (hr : own r = .node r 3 0) {q : ℕ} :
    InTable m r q ↔ ∃ lv x, own q = .node r lv x := by
  constructor
  · rintro ⟨d, x, hd, hx, hq⟩
    exact ⟨3 - d, x, (h.pageAt_iff hr (by omega) fun h0 => hx (by omega)).mp hq⟩
  · rintro ⟨lv, x, hq⟩
    have hlv := h.level q r lv x hq
    have hx : lv = 0 → ¬ Special x := by
      rintro rfl
      obtain ⟨-, -, -, -, hs⟩ := h.up q r 0 x hq (by decide)
      exact hs rfl
    exact ⟨3 - lv, x, by omega, fun h0 => hx (by omega), (h.pageAt_iff hr (by omega) hx).mpr hq⟩

/-- **The image of a file is in place of the memory of process `i`**, with the arguments on its
stack and the registers set; what the process had is free, and nobody else's memory is touched. -/
structure Installed (K : Layout) (boot : ℕ → Prop) (i : Fin NPROC) (ip : File)
    (argv : List (List UInt8)) (img : Image) (s s' : Kernel) : Prop where
  le : img.sz ≤ TRAPFRAME
  after : After K boot s
    (update s.proc i { s.proc i with pagetable := img.pagetable, sz := img.sz }) s'
  files : s'.files = s.files
  fresh : img.pagetable ∈ s.kmem.freelist
  imaged : Imaged ip img s'.kmem
  pushed : Pushed s'.kmem img argv
  regs : s'.kmem.mem (s.proc i).trapframe = Bytes.set 8 (Bytes.set 8
    (Bytes.set 8 (s.kmem.mem (s.proc i).trapframe) 120 img.sp) 24 img.entry) 48 img.sp
  freed : ∀ q, InTable s.kmem (s.proc i).pagetable q → q ∈ s'.kmem.freelist
  others : ∀ q ∉ s.kmem.freelist, q ≠ (s.proc i).trapframe →
    ¬ InTable s.kmem (s.proc i).pagetable q → s'.kmem.mem q = s.kmem.mem q

/-- The new image is put in place of the old one, which is freed. -/
theorem ends_commit {img : Image} {m1 : Kmem} {own1 : ℕ → Place} {b1 : Bytes.Mem} {ip : File}
    {argv : List (List UInt8)} (hW : Wf boot s) (h : Agrees K boot (fun _ => False) s own)
    (hrun : (s.proc i).state = .RUNNABLE) (hsz : (s.proc i).sz ≤ TRAPFRAME)
    (hf : Fresh K img.pagetable (pages img.sz) (s.proc i).trapframe s.kmem own m1 own1)
    (hle : img.sz ≤ TRAPFRAME) (himg : Imaged ip img m1) (hpush : Pushed m1 img argv)
    (hb1 : b1 = Bytes.set 8 (m1.mem (s.proc i).trapframe) 120 img.sp) {Q : ℤ → Kernel → Prop}
    (hQ : ∀ s', Installed K boot i ip argv img s s' → Q img.argc s') :
    Ends allow () (commit K i (s.proc i) img)
      { s with kmem := m1.setPage (s.proc i).trapframe b1 } Q := by
  obtain ⟨htf, hpt⟩ := hW.runnable hrun
  have hheld := h.trapframe_held htf
  have hnew := h.pagetable_ne hf.free
  have hr0 : img.pagetable ≠ 0 := root_ne_zero hf.owned hf.space.root
  have hheld1 : own1 (s.proc i).trapframe = .held := hf.frame.held_iff.mpr hheld
  have hnp : ∀ w, ((s.proc i).trapframe, w) ∉ s.files := fun w => hW.trapframe_pipe i w htf
  have hold1 := Space.frame (h.space i hpt id) h.owned hf.owned hf.frame (hnew i)
  rw [commit]
  apply ends_act_bind.mpr
  refine Ends.seq (ends_setWord fun b2 hb2 => ?_)
  refine Ends.seq (ends_setWord fun b3 hb3 => ?_)
  -- the trapframe was written to before and after the new table was put in place
  have h2 := (h.build hf).setPage hheld1 hnp b1
  have hSr2 := Space.setHeld hf.space hf.owned hheld1 b1
  have hSo2 := Space.setHeld hold1 hf.owned hheld1 b1
  have h3 := (h2.swap hnew hSr2 (i := i)).setPage hheld1 hnp b2
  have h4 := h3.setPage hheld1 hnp b3
  have hSo3 := Space.setHeld hSo2 h2.owned hheld1 b2
  have hSo4 := Space.setHeld hSo3 h3.owned hheld1 b3
  refine Ends.seq (ends_vm (ends_proc_freepagetable h4.owned hSo4 hsz
    fun m5 own5 h5 hd => ?_))
  -- no process has the old table any more
  have hgone : ∀ j, (update s.proc i { s.proc i with pagetable := img.pagetable, sz := img.sz }
      j).pagetable ≠ (s.proc i).pagetable := by
    intro j
    obtain rfl | hji := eq_or_ne j i
    · rw [update_self]
      exact (hnew j).symm
    · rw [update_of_ne hji]
      exact fun hc => hji (hW.pagetable_inj j i hc (by rwa [hc]))
  -- neither the trapframe nor the old table has pages of the new one
  have hkeep : ∀ n c, n ≤ 2 ^ 26 - 2 → Holds m1 img.pagetable n c →
      Holds m5 img.pagetable n c := by
    intro n c hn hh
    have hne : img.pagetable ≠ (s.proc i).pagetable := (hnew i).symm
    have hh2 := hh.setHeld hf.owned hf.space.root hn hheld1 b1
    have hh3 := hh2.setHeld h2.owned hf.space.root hn hheld1 b2
    have hh4 := hh3.setHeld h3.owned hf.space.root hn hheld1 b3
    refine hh4.keep h4.owned hf.space.root hn (fun v hv => ?_) (fun q v _ hq => ?_)
    · exact hd.frame.lookup_eq h4.owned h5 hne hf.space.root (by omega)
    · exact (hd.frame.keep q (Set.notMem_empty q) (by rw [hq]; exact hne)).2
  have hroot := (h.space i hpt id).root
  refine hQ _ ⟨hle, ⟨⟨hW.update rfl rfl (fun _ => Or.inl rfl) (fun _ => Or.inr hnew)
    (fun hc => absurd hc (ne_unused hrun)) (fun _ _ => ⟨htf, hr0⟩), own5,
    h4.drop h5 hd hgone⟩, rfl, rfl⟩, rfl, (h.owned.free _).mpr hf.free, ?_, ?_, ?_,
    fun q hq => ?_, fun q hq hqtf hqi => ?_⟩
  · obtain ⟨hentry, c, top, htop, hp, hsz', hmax, hh⟩ := himg
    exact ⟨hentry, c, top, htop, hp, hsz', hmax, hkeep _ c hmax hh⟩
  · obtain ⟨hfits, hargc', c, ps, hps, hh, hp⟩ := hpush
    exact ⟨hfits, hargc', c, ps, hps, hkeep _ c (pages_le hle) hh, hp⟩
  · have hb2 : b2 = Bytes.set 8 ((m1.setPage (s.proc i).trapframe b1).mem _) 24 img.entry := hb2
    have hold : m1.mem (s.proc i).trapframe = s.kmem.mem (s.proc i).trapframe :=
      (hf.frame.keep _ (Set.notMem_empty _) (by rw [hheld]; exact id)).2
    rw [Kmem.setPage_mem_self] at hb2 hb3
    rw [← hold, ← hb1, ← hb2, ← hb3]
    exact (hd.frame.keep _ (Set.notMem_empty _) (by rw [hheld1]; exact id)).2.trans
      (Kmem.setPage_mem_self ..)
  · -- a page of the old table was not touched before the table was given back
    obtain ⟨lv, x, hq⟩ := (inTable_iff h.owned hroot).mp hq
    have hq1 := (hf.frame.keep q (Set.notMem_empty q) (by rw [hq]; exact hnew i)).1
    have hmine := hd.frame.mine q (Set.notMem_empty q) (by rw [hq1, hq]; rfl)
    refine (h5.free q).mpr ?_
    cases hq5 : own5 q with
    | free => rfl
    | node r' lv' y =>
      rw [hq5] at hmine
      exact absurd (hmine ▸ hq5) (hd.gone q lv' y)
    | outside | held =>
      rw [hq5] at hmine
      exact hmine.elim
  · have hnode := fun lv x hc => hqi ((inTable_iff h.owned hroot).mpr ⟨lv, x, hc⟩)
    have hmine : ¬ Mine img.pagetable (own q) ∧ ¬ Mine (s.proc i).pagetable (own q) := by
      cases ho : own q with
      | free => exact absurd ((h.owned.free q).mpr ho) hq
      | node r' lv x =>
        refine ⟨?_, ?_⟩ <;> rintro rfl
        · exact h.owned.not_node (by rw [hf.free]; exact Place.noConfusion) ho
        · exact hnode lv x ho
      | outside | held => exact ⟨id, id⟩
    obtain ⟨hq1, hmem1⟩ := hf.frame.keep q (Set.notMem_empty q) hmine.1
    refine ((hd.frame.keep q (Set.notMem_empty q) (by rw [hq1]; exact hmine.2)).2.trans ?_).trans
      hmem1
    rw [Kmem.setPage_mem_of_ne _ _ hqtf]
    exact (Kmem.setPage_mem_of_ne _ _ hqtf).trans (Kmem.setPage_mem_of_ne _ _ hqtf)

def built : Result Kmem (Option Image) → Bool
  | .ok (some _) _ => true
  | _ => false

/-- Whether a process can build the image of a file. -/
def Builds (K : Layout) (s : Kernel) (i : Fin NPROC) (ip : File) : Prop :=
  built ((buildImage K (s.proc i).sz (s.proc i).pagetable (s.proc i).trapframe ip []).run
    () s.kmem) = true

instance (ip : File) : Decidable (Builds K s i ip) := inferInstanceAs (Decidable (_ = _))

theorem yields_of_built {m : Kmem} {prog : VmM (Option Image)} (h : built (prog.run () m) = true) :
    Yields prog m := by
  unfold Yields Ends
  cases hr : prog.run () m with
  | ok o m' =>
    rintro rfl
    rw [hr] at h
    cases h
  | stuck => rw [hr] at h; cases h
  | panic msg => rw [hr] at h; cases h

/-- **`kexec` replaces the memory of a process by the image of a file**, with the arguments on the
stack, or changes nothing. -/
theorem ends_kexec {path : Option File} {argv : List (List UInt8)} (hI : Inv K boot s)
    (hrun : (s.proc i).state = .RUNNABLE) (hsz : (s.proc i).sz ≤ TRAPFRAME)
    (hargc : argv.length ≠ MAXARG) (hargs : ∀ arg ∈ argv, arg.length + 1 < 2 ^ 31)
    {Q : ℤ → Kernel → Prop}
    (hfail : ∀ s', After K boot s s.proc s' → (∀ ip ∈ path, Builds K s i ip → ¬ Fits argv) →
      Q (-1) s')
    (hok : ∀ ip img s', path = some ip → Installed K boot i ip argv img s s' → Q img.argc s') :
    Ends allow () (kexec K i path argv) s Q := by
  cases path with
  | none => exact hfail s ⟨hI, rfl, rfl⟩ (by simp)
  | some ip =>
    rw [kexec]
    obtain ⟨hW, own, h⟩ := hI
    obtain ⟨htf, hpt⟩ := hW.runnable hrun
    have hheld := h.trapframe_held htf
    apply ends_look_bind.mpr
    refine Ends.seq (ends_vm (ends_buildImage h.owned hheld hargc hargs
      (fun hb : Builds K s i ip => yields_of_built hb) (fun m1 hR hno => ?_)
      fun img m1 own1 hf hle himg hpush => ?_))
    · exact hfail _ ⟨⟨hW.mem, own, h.restored hR⟩, rfl, rfl⟩ fun ip' hip =>
        Option.some.inj hip ▸ hno
    refine Ends.seq (ends_setWord fun b1 hb1 => ?_)
    exact ends_commit hW h hrun hsz hf hle himg hpush hb1 fun s' hs' => hok ip img s' rfl hs'

/-! ### Pipes -/

theorem ends_setPipe {m : Kmem} {f w : ℕ} (h : Owned K ∅ m own) (hp : own p = .held)
    {Q : Unit → Kmem → Prop}
    (hQ : ∀ m', Owned K ∅ m' own → (∀ q, q ≠ p → m'.mem q = m.mem q) →
      m'.mem p = Bytes.set 4 (m.mem p) f w → Q () m') : Ends allow () (setPipe p f w) m Q := by
  refine ends_act.mpr (hQ _ (h.setPage hp _) (fun q hq => ?_) ?_)
  · exact Kmem.setPage_mem_of_ne _ _ hq
  · exact Kmem.setPage_mem_self _ _ _

theorem ends_initPipe {m : Kmem} (h : Owned K ∅ m own) (hp : own p = .held) {Q : Unit → Kmem → Prop}
    (hQ : ∀ m', Owned K ∅ m' own → (∀ q, q ≠ p → m'.mem q = m.mem q) →
      Bytes.get 4 (m'.mem p) READOPEN = 1 → Bytes.get 4 (m'.mem p) WRITEOPEN = 1 → Q () m') :
    Ends allow () (initPipe p) m Q := by
  rw [initPipe]
  refine Ends.seq (ends_setPipe h hp fun m1 h1 hm1 he1 => ?_)
  refine Ends.seq (ends_setPipe h1 hp fun m2 h2 hm2 he2 => ?_)
  refine Ends.seq (ends_setPipe h2 hp fun m3 h3 hm3 he3 => ?_)
  refine ends_setPipe h3 hp fun m4 h4 hm4 he4 => hQ m4 h4 (fun q hq => ?_) ?_ ?_
  · rw [hm4 q hq, hm3 q hq, hm2 q hq, hm1 q hq]
  · rw [he4, Bytes.get_set_of_disjoint (by decide), he3, Bytes.get_set_of_disjoint (by decide), he2,
      Bytes.get_set_of_disjoint (by decide), he1, Bytes.get_set_self (by decide)]
  · rw [he4, Bytes.get_set_of_disjoint (by decide), he3, Bytes.get_set_of_disjoint (by decide), he2,
      Bytes.get_set_self (by decide)]

theorem Wf.setFiles {fs : List (ℕ × Bool)} (hW : Wf boot s) (hnodup : fs.Nodup)
    (hfs : ∀ p w, (p, w) ∈ fs → (p, w) ∈ s.files ∨
      ¬ boot p ∧ ∀ j, (s.proc j).trapframe ≠ 0 → (s.proc j).trapframe ≠ p) :
    Wf boot { s with kmem := m', files := fs } := by
  refine ⟨hW.boot_trapframe, fun p w hp => ?_, fun j w hj hc => ?_, hW.trapframe_inj,
    hW.pagetable_inj, hW.unused, hW.ready, hnodup⟩
  · rcases hfs p w hp with hold | hnew
    · exact hW.boot_pipe p w hold
    · exact hnew.1
  · rcases hfs _ w hc with hold | hnew
    · exact hW.trapframe_pipe j w hj hold
    · exact hnew.2 j hj rfl

/-- **`pipealloc` makes a pipe out of a free page, or changes nothing.** -/
theorem ends_pipealloc {f0 f1 : Bool} (hI : Inv K boot s) {Q : Bool → Kernel → Prop}
    (hQ : ∀ b s', After K boot s s.proc s' → Q b s') : Ends allow () (pipealloc f0 f1) s Q := by
  rw [pipealloc]
  split_ifs with hf
  · exact hQ _ s ⟨hI, rfl, rfl⟩
  obtain ⟨hW, own, h⟩ := hI
  refine Ends.seq (ends_vm (ends_kalloc h.owned (fun m1 h₁ hm1 => ?_)
    fun pi m1 hpi h₁ hm1 => ?_))
  · exact hQ _ _ ⟨⟨hW.mem, own, h.restored ⟨h₁, fun q _ => by rw [hm1]⟩⟩, rfl, rfl⟩
  obtain ⟨hb, hfi, htfs⟩ := h.not_held (p := pi) (by rw [hpi]; exact Place.noConfusion)
  have h0 := h.pos (p := pi) (by rw [hpi]; exact Place.noConfusion)
  refine Ends.seq (ends_vm (ends_initPipe h₁ (update_self _ _ _)
    fun m2 h₂ hm2 hro hwo => ?_))
  apply ends_act_bind.mpr
  have hmem : ∀ q, q ≠ pi → m2.mem q = s.kmem.mem q := fun q hq => (hm2 q hq).trans (hm1 q hq)
  -- the page was free, so only the two new files are of this pipe
  have hin : ∀ {q w}, q ≠ pi → ((q, w) ∈ (pi, false) :: (pi, true) :: s.files ↔
      (q, w) ∈ s.files) := by
    intro q w hq
    simp [hq]
  refine hQ _ _ ⟨⟨?_, update own pi .held, ?_⟩, rfl, rfl⟩
  · refine hW.setFiles ?_ fun p w hp => ?_
    · simp [hfi, hW.files]
    · obtain rfl | hpp := eq_or_ne p pi
      · exact Or.inr ⟨hb, fun j _ => (htfs j).resolve_right h0⟩
      · exact Or.inl ((hin hpp).mp hp)
  · refine h.retag (free_not_node hpi) (fun _ _ _ => Place.noConfusion) h₂ hmem (fun q => ?_)
      (fun _ => rfl) (fun _ _ _ => ⟨rfl, rfl⟩) fun q w hq => ?_
    · obtain rfl | hq := eq_or_ne q pi
      · rw [update_self]
        exact iff_of_true rfl (Or.inr (Or.inr ⟨false, List.mem_cons_self⟩))
      · rw [update_of_ne hq, h.held]
        simp only [hin hq]
    · obtain rfl | hqp := eq_or_ne q pi
      · have h1 : Bytes.get 4 (m2.mem q) READOPEN ≠ 0 := by rw [hro]; decide
        have h2 : Bytes.get 4 (m2.mem q) WRITEOPEN ≠ 0 := by rw [hwo]; decide
        exact ⟨iff_of_false h1 (by simp), iff_of_false h2 (by simp)⟩
      · rw [hin hqp, hin hqp]
        rw [hin hqp] at hq
        simp only [hmem q hqp]
        exact h.pipe q w hq

/-- **`pipeclose` frees the page of a pipe with its last end.** -/
theorem ends_closePipe {f : ℕ × Bool} (hI : Inv K boot s) (hf : f ∈ s.files)
    {Q : Unit → Kernel → Prop} (hQ : ∀ s', After K boot s s.proc s' → Q () s') :
    Ends allow () (closePipe K f) s Q := by
  obtain ⟨pi, w⟩ := f
  obtain ⟨hW, own, h⟩ := hI
  have hheld : own pi = .held := (h.held pi).mpr (Or.inr (Or.inr ⟨w, hf⟩))
  have hin : ∀ {q x}, (q, x) ∈ s.files.erase (pi, w) ↔ (q, x) ≠ (pi, w) ∧ (q, x) ∈ s.files :=
    hW.files.mem_erase_iff
  have hne : ∀ {q x}, q ≠ pi → ((q, x) ∈ s.files.erase (pi, w) ↔ (q, x) ∈ s.files) := by
    intro q x hq
    rw [hin]
    simp [hq]
  have hW' : ∀ m', Wf boot { s with kmem := m', files := s.files.erase (pi, w) } := fun m' =>
    hW.setFiles (hW.files.erase _) fun p x hp => Or.inl (hin.mp hp).2
  rw [closePipe]
  apply ends_act_bind.mpr
  apply ends_vm
  rw [pipeclose]
  refine Ends.seq (ends_setPipe h.owned hheld fun m1 h1 hm1 he1 => ?_)
  apply ends_look_bind.mpr
  -- the flags say which ends are left
  have hflags : (Bytes.get 4 (m1.mem pi) READOPEN = 0 ↔ (pi, false) ∉ s.files.erase (pi, w)) ∧
      (Bytes.get 4 (m1.mem pi) WRITEOPEN = 0 ↔ (pi, true) ∉ s.files.erase (pi, w)) := by
    have hp := h.pipe pi w hf
    rw [he1]
    cases w with
    | false =>
      rw [if_neg Bool.false_ne_true, Bytes.get_set_self (by decide),
        Bytes.get_set_of_disjoint (by decide)]
      refine ⟨iff_of_true rfl (by rw [hin]; simp), ?_⟩
      rw [hp.2, hin]
      simp
    | true =>
      rw [if_pos rfl, Bytes.get_set_of_disjoint (by decide), Bytes.get_set_self (by decide)]
      refine ⟨?_, iff_of_true rfl (by rw [hin]; simp)⟩
      rw [hp.1, hin]
      simp
  have hother : ∀ {m2 : Kmem}, (∀ q, q ≠ pi → m2.mem q = s.kmem.mem q) → ∀ q x, q ≠ pi →
      (q, x) ∈ s.files.erase (pi, w) →
      (Bytes.get 4 (m2.mem q) READOPEN = 0 ↔ (q, false) ∉ s.files.erase (pi, w)) ∧
      (Bytes.get 4 (m2.mem q) WRITEOPEN = 0 ↔ (q, true) ∉ s.files.erase (pi, w)) := by
    intro m2 hm2 q x hq hqx
    rw [hne hq, hne hq, hm2 q hq]
    exact h.pipe q x ((hne hq).mp hqx)
  split_ifs with hlast
  · -- both ends are closed, so nothing refers to the page
    refine ends_kfree h1 hheld fun m2 h2 hm2 => hQ _ ⟨⟨hW' m2, update own pi .free, ?_⟩,
      rfl, rfl⟩
    have hgone : ∀ x, (pi, x) ∉ s.files.erase (pi, w) := by
      rintro (_ | _)
      · exact hflags.1.mp hlast.1
      · exact hflags.2.mp hlast.2
    have hmem : ∀ q, q ≠ pi → m2.mem q = s.kmem.mem q := fun q hq => (hm2 q hq).trans (hm1 q hq)
    refine h.retag (held_not_node hheld) (fun _ _ _ => Place.noConfusion) h2 hmem (fun q => ?_)
      (fun _ => rfl) (fun _ _ _ => ⟨rfl, rfl⟩) fun q x hqx => ?_
    · obtain rfl | hq := eq_or_ne q pi
      · rw [update_self]
        refine iff_of_false Place.noConfusion ?_
        rintro (hb | ⟨j, hjq, h0⟩ | ⟨x, hx⟩)
        · exact hW.boot_pipe q w hf hb
        · have hjq : (s.proc j).trapframe = q := hjq
          exact hW.trapframe_pipe j w (by rwa [hjq]) (by rwa [hjq])
        · exact hgone x hx
      · rw [update_of_ne hq, h.held]
        simp only [hne hq]
    · have hq : q ≠ pi := by
        rintro rfl
        exact hgone x hqx
      exact hother hmem q x hq hqx
  · -- the other end is open, and the page stays
    rw [ends_pure]
    have hsame : update own pi .held = own := by rw [← hheld, update_eq_self]
    refine hQ _ ⟨⟨hW' m1, update own pi .held, ?_⟩, rfl, rfl⟩
    refine h.retag (held_not_node hheld) (fun _ _ _ => Place.noConfusion) (by rwa [hsame]) hm1
      (fun q => ?_) (fun _ => rfl) (fun _ _ _ => ⟨rfl, rfl⟩) fun q x hqx => ?_
    · rw [hsame]
      obtain rfl | hq := eq_or_ne q pi
      · refine iff_of_true hheld (Or.inr (Or.inr ?_))
        by_contra hc
        exact hlast ⟨hflags.1.mpr fun hc' => hc ⟨false, hc'⟩,
          hflags.2.mpr fun hc' => hc ⟨true, hc'⟩⟩
      · rw [h.held]
        simp only [hne hq]
    · obtain rfl | hq := eq_or_ne q pi
      · exact hflags
      · exact hother hm1 q x hq hqx

end Xv6.Process
