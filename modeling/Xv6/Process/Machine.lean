import Xv6.Process.Calls

/-!
# Every page is in one place

Runs of system calls, from the state in which `userinit` leaves the machine.  At
the end of every call each page of the allocator is in exactly one place: on the
free list, in one process's table as a page-table page or as a user page, a
trapframe, a pipe, or part of what the kernel took at boot.

`p->sz` is trusted by the loops over user memory, and nothing in the source
bounds it: `sys_sbrk` with lazy allocation checks only that the size does not
wrap around.  A process that asks for memory often enough gets a size beyond
`TRAPFRAME` (`sz_exceeds_trapframe`).  The results here are about runs in which
that has not happened, or in which no call asks for it.

## Main definitions

* `Syscall`, `machine` — what processes may do.
* `Site`, `Site.At` — where a page is.

## Main results

* `inv_of_reachable` — the invariant holds in every reachable state.
* `pages_in_one_place` — **every page is in exactly one place after every call.**
* `sz_below_trapframe` — **sizes stay below the trapframe if every request does.**
-/

namespace Xv6.Process

open Conc Vm Function

variable {K : Layout} {allow : String → Prop} {boot : ℕ → Prop} {s s' : Kernel}
  {own : ℕ → Place} {p q r v : ℕ} {i j : Fin NPROC}

/-! ### Runs -/

/-- What a process can ask of the kernel. -/
inductive Syscall where
  | fork
  | exec (path : Option File) (argv : List (List UInt8))
  | exit (status : ℤ)
  | wait (addr : ℕ)
  | sbrk (n t : ℤ)
  | fault (va : ℕ)
  | copyout (dst : ℕ) (src : List UInt8)
  | copyin (src len : ℕ)
  | pipe (f0 f1 : Bool)
  | close (f : ℕ × Bool)

/-- What is promised about the arguments: there are fewer than `MAXARG` strings that fit in a
page, as `sys_exec` fetches them; `n` is an `int`; only an open end of a pipe is closed. -/
def Syscall.Ok (s : Kernel) : Syscall → Prop
  | .exec _ argv => argv.length < MAXARG ∧ ∀ arg ∈ argv, arg.length < PGSIZE
  | .sbrk n _ => -2 ^ 31 ≤ n ∧ n < 2 ^ 31
  | .close f => f ∈ s.files
  | _ => True

/-- The call, as process `i` makes it. -/
def Syscall.run (K : Layout) (i : Fin NPROC) : Syscall → KM Unit
  | .fork => do
      let _ ← kfork K i
      pure ()
  | .exec path argv => do
      let _ ← kexec K i path argv
      pure ()
  | .exit status => kexit i status
  | .wait addr => do
      let _ ← kwait K i addr
      pure ()
  | .sbrk n t => do
      let _ ← sys_sbrk K i n t
      pure ()
  | .fault va => pagefault K i va
  | .copyout dst src => do
      let _ ← either_copyout K i dst src
      pure ()
  | .copyin src len => do
      let _ ← either_copyin K i src len
      pure ()
  | .pipe f0 f1 => do
      let _ ← pipealloc f0 f1
      pure ()
  | .close f => closePipe K f

/-- The kernel before the first process: what the kernel did not take for itself
is on the free list. -/
structure Booted (K : Layout) (boot : ℕ → Prop) (s : Kernel) : Prop where
  freelist : ∀ p, p ∈ s.kmem.freelist ↔ (K.kend ≤ p ∧ p < PHYSTOP) ∧ ¬ boot p
  nodup : s.kmem.freelist.Nodup
  once : s.kmem.refreed = false
  boot : ∀ p, boot p → K.kend ≤ p ∧ p < PHYSTOP
  proc : ∀ i, s.proc i = .unused
  files : s.files = []

/-- Runs in which every call meets a condition on the state, the process and the call. -/
def machine (K : Layout) (boot : ℕ → Prop) (guard : Kernel → Fin NPROC → Syscall → Prop) :
    Calls Unit Kernel where
  init s := ∃ s0, Booted K boot s0 ∧ (userinit K).run () s0 = .ok () s
  call s _ f := ∃ i c, (s.proc i).state = .RUNNABLE ∧ Syscall.Ok s c ∧ guard s i c ∧ f = c.run K i

/-- No size exceeds the trapframe. -/
def SizesOk (s : Kernel) : Prop := ∀ j, (s.proc j).sz ≤ TRAPFRAME

/-- No request for memory asks for more than there is below the trapframe. -/
def RequestOk (s : Kernel) (i : Fin NPROC) : Syscall → Prop
  | .sbrk n _ => 0 < n → (s.proc i).sz + n ≤ TRAPFRAME
  | _ => True

/-- The invariant holds when the kernel has booted. -/
theorem Booted.inv (h : Booted K boot s) : Inv K boot s := by
  classical
  refine ⟨⟨fun i hi => ?_, ?_, fun i w hi => ?_, fun i j _ hi => ?_, fun i j _ hi => ?_,
    fun i _ => h.proc i, fun i hi => ?_, ?_⟩,
    fun p => if K.kend ≤ p ∧ p < PHYSTOP then (if boot p then .held else .free) else .outside,
    ⟨fun p => ?_, fun p => ?_, h.nodup, h.once, ?_, ?_, ?_, ?_⟩, fun p => ?_, ?_, fun i hi =>
      ?_, ?_⟩
  · exact absurd (by rw [h.proc]; rfl) hi
  · rw [h.files]
    exact fun _ _ hc => absurd hc List.not_mem_nil
  · exact absurd (by rw [h.proc]; rfl) hi
  · exact absurd (by rw [h.proc]; rfl) hi
  · exact absurd (by rw [h.proc]; rfl) hi
  · exact absurd (by rw [h.proc]; rfl) hi
  · rw [h.files]
    exact List.nodup_nil
  · split_ifs with hr hb <;> simp [hr]
  · rw [h.freelist]
    split_ifs with hr hb
    · simp [hb]
    · simp [hr, hb]
    · simp [hr]
  -- there is no table yet
  · intro p r lv x hp
    split_ifs at hp
  · intro p r x hp
    split_ifs at hp
  · intro q r lv x i hq
    split_ifs at hq
  · intro p r lv y hp
    split_ifs at hp
  · have htf : ¬ ∃ i, (s.proc i).trapframe = p ∧ p ≠ 0 := by
      rintro ⟨i, hi, h0⟩
      rw [h.proc] at hi
      exact h0 hi.symm
    rw [h.files]
    have hbr := h.boot p
    split_ifs with hr hb
    · simp [hb]
    · simp [hb, htf]
    · have hb : ¬ boot p := fun hc => hr (hbr hc)
      simp [hb, htf]
  · intro q r lv x hq
    split_ifs at hq
  · exact absurd (by rw [h.proc]; rfl) hi
  · rw [h.files]
    exact fun _ _ hc => absurd hc List.not_mem_nil

theorem SizesOk.update {P : Proc} (hs : SizesOk s) (hproc : s'.proc = update s.proc i P)
    (hP : P.sz ≤ TRAPFRAME) : SizesOk s' := by
  intro j
  rw [hproc]
  by_cases hji : j = i
  · rwa [hji, update_self]
  · rw [update_of_ne hji]
    exact hs j

/-- **Every call keeps the invariant**, and the sizes below the trapframe if it
asks for no more; nothing stops the machine but the exit of init, and a request
beyond the trapframe. -/
theorem ends_call {c : Syscall} (hI : Inv K boot s) (hrun : (s.proc i).state = .RUNNABLE)
    (hsz : SizesOk s) (hok : Syscall.Ok s c) (hexit : allow "init exiting")
    (hremap : ¬ RequestOk s i c → allow "mappages: remap") :
    Ends allow () (c.run K i) s fun _ s' => Inv K boot s' ∧ (RequestOk s i c → SizesOk s') := by
  have hsame : ∀ {s'}, After K boot s s.proc s' → SizesOk s' := fun hA j => by
    rw [hA.proc]
    exact hsz j
  have hT := TRAPFRAME_eq
  -- only `fork`, `exec`, `wait` and `sbrk` change a size
  cases c with
  | fork =>
    refine Ends.seq (ends_kfork hI hrun (hsz i) fun b s' hA => ?_)
    rcases hA with hA | ⟨j, P, -, hP, hA⟩
    · exact ⟨hA.inv, fun _ => hsame hA⟩
    · exact ⟨hA.inv, fun _ => hsz.update hA.proc (by rw [hP]; exact hsz i)⟩
  | exec path argv =>
    obtain ⟨hargc, hargs⟩ := hok
    refine Ends.seq (ends_kexec hI hrun (hsz i) hargc.ne (fun arg harg => ?_)
      (fun s' hA _ => ⟨hA.inv, fun _ => hsame hA⟩) fun _ _ s' _ hs' => ?_)
    · have hlen : arg.length < 4096 := hargs arg harg
      omega
    · exact ⟨hs'.after.inv, fun _ => hsz.update hs'.after.proc hs'.le⟩
  | exit status =>
    refine ends_kexit hI hrun (fun _ => hexit) fun s' hA => ⟨hA.inv, fun _ j => ?_⟩
    rw [hA.proc, (exited_eq _ _ _ _).2.2.1]
    exact hsz j
  | wait addr =>
    refine Ends.seq (ends_kwait hI hrun hsz fun b s' hA _ => ?_)
    rcases hA with hA | ⟨j, hA⟩
    · exact ⟨hA.inv, fun _ => hsame hA⟩
    · exact ⟨hA.inv, fun _ => hsz.update hA.proc (Nat.zero_le _)⟩
  | sbrk n t =>
    refine Ends.seq (ends_sys_sbrk hI hrun (hsz i) hok.2 (fun hbig => hremap fun hreq => ?_)
      fun b sz s' hle hA => ?_)
    · have hreq : 0 < n → (s.proc i).sz + n ≤ TRAPFRAME := hreq
      have hi := hsz i
      omega
    · refine ⟨hA.inv, fun hreq => hsz.update hA.proc (hle ?_)⟩
      have hreq : 0 < n → (s.proc i).sz + n ≤ TRAPFRAME := hreq
      have hi := hsz i
      omega
  | fault va =>
    refine ends_pagefault hI hrun (hsz i) (fun _ => hexit) fun s' hI' hszs => ⟨hI', fun _ j => ?_⟩
    rw [hszs]
    exact hsz j
  | copyout dst src =>
    exact Ends.seq (ends_either_copyout hI hrun (hsz i) fun b s' hA => ⟨hA.inv, fun _ => hsame hA⟩)
  | copyin src len =>
    exact Ends.seq (ends_either_copyin hI hrun (hsz i) fun b s' hA => ⟨hA.inv, fun _ => hsame hA⟩)
  | pipe f0 f1 =>
    exact Ends.seq (ends_pipealloc hI fun b s' hA => ⟨hA.inv, fun _ => hsame hA⟩)
  | close f => exact ends_closePipe hI hok fun s' hA => ⟨hA.inv, fun _ => hsame hA⟩

theorem inv_of_init {guard : Kernel → Fin NPROC → Syscall → Prop}
    (h : (machine K boot guard).init s) :
    Inv K boot s ∧ SizesOk s := by
  obtain ⟨s0, hB, hr⟩ := h
  have hE : Ends (fun _ => True) () (userinit K) s0 fun _ s' => Inv K boot s' ∧ SizesOk s' := by
    refine ends_userinit hB.inv trivial fun i P s' hI _ hP _ hproc => ⟨hI, fun j => ?_⟩
    rw [hproc]
    by_cases hji : j = i
    · rw [hji, update_self, hP]
      exact Nat.zero_le _
    · rw [update_of_ne hji, hB.proc]
      exact Nat.zero_le _
  exact hE.of_run hr

theorem inv_of_reachable (h : (machine K boot fun s _ _ => SizesOk s).Reachable s) :
    Inv K boot s := by
  refine Calls.invariant (fun s hs => (inv_of_init hs).1) ?_ h
  rintro s - f hI ⟨i, c, hrun, hok, hsz, rfl⟩
  exact (ends_call hI hrun hsz hok trivial fun _ => trivial).mono fun _ _ h => h.1

theorem sizes_of_reachable (h : (machine K boot RequestOk).Reachable s) :
    Inv K boot s ∧ SizesOk s := by
  refine Calls.invariant (fun s hs => inv_of_init hs) ?_ h
  rintro s - f ⟨hI, hsz⟩ ⟨i, c, hrun, hok, hreq, rfl⟩
  exact (ends_call hI hrun hsz hok trivial fun _ => trivial).mono fun _ _ h => ⟨h.1, h.2 hreq⟩

theorem space_of_reachable (h : (machine K boot RequestOk).Reachable s)
    (hrun : (s.proc i).state = .RUNNABLE) : ∃ own, Owned K ∅ s.kmem own ∧
      Space s.kmem own (s.proc i).pagetable (pages (s.proc i).sz) K.trampoline
        (s.proc i).trapframe := by
  obtain ⟨⟨hW, own, hI⟩, -⟩ := sizes_of_reachable h
  exact ⟨own, hI.owned, hI.space i (hW.runnable hrun).2 id⟩

/-! ### Where a page is -/

/-- The places in which a page can be. -/
inductive Site where
  /-- On the free list. -/
  | free
  /-- A page-table page of process `i`: depth 0 is the root. -/
  | table (i : Fin NPROC) (d x : ℕ)
  /-- What user page `v` of process `i` is mapped to. -/
  | leaf (i : Fin NPROC) (v : ℕ)
  /-- The trapframe of process `i`. -/
  | trapframe (i : Fin NPROC)
  /-- A pipe with an open end. -/
  | pipe
  /-- Taken while booting. -/
  | boot

/-- Page `p` is in that place, as memory and the kernel's pointers say. -/
def Site.At (boot : ℕ → Prop) (s : Kernel) (p : ℕ) : Site → Prop
  | .free => p ∈ s.kmem.freelist
  | .table i d x => (s.proc i).pagetable ≠ 0 ∧ d < 3 ∧
    s.kmem.pageAt (s.proc i).pagetable d x = some p
  | .leaf i v => (s.proc i).pagetable ≠ 0 ∧ ¬ Special v ∧
      s.kmem.pageAt (s.proc i).pagetable 3 v = some p
  | .trapframe i => (s.proc i).trapframe ≠ 0 ∧ (s.proc i).trapframe = p
  | .pipe => ∃ w, (p, w) ∈ s.files
  | .boot => boot p

/-- The owner of a page that is in a place. -/
def Site.place (s : Kernel) : Site → Place
  | .free => .free
  | .table i d x => .node (s.proc i).pagetable (3 - d) x
  | .leaf i v => .node (s.proc i).pagetable 0 v
  | _ => .held

namespace Agrees

variable {σ τ : Site}

theorem place_of_at (h : Agrees K boot (fun _ => False) s own) (hσ : Site.At boot s p σ) :
    own p = σ.place s := by
  cases σ with
  | free => exact (h.owned.free p).mp hσ
  | table i d x =>
    obtain ⟨hi, hd, hp⟩ := hσ
    have hS := h.space i hi id
    exact (h.owned.pageAt_iff hS.root (by omega) fun h0 => absurd h0 (by omega)).mp hp
  | leaf i v =>
    obtain ⟨hi, hv, hp⟩ := hσ
    have hS := h.space i hi id
    exact (h.owned.pageAt_iff hS.root rfl fun _ => hv).mp hp
  | trapframe i => exact (h.held p).mpr (Or.inr (Or.inl ⟨i, hσ.2, hσ.2 ▸ hσ.1⟩))
  | pipe => exact (h.held p).mpr (Or.inr (Or.inr hσ))
  | boot => exact (h.held p).mpr (Or.inl hσ)

/-- A page that has an owner is in a place. -/
theorem exists_at (h : Agrees K boot (fun _ => False) s own) (hp : own p ≠ .outside) :
    ∃ σ, Site.At boot s p σ := by
  cases ho : own p with
  | outside => exact absurd ho hp
  | free => exact ⟨.free, (h.owned.free p).mpr ho⟩
  | held =>
    rcases (h.held p).mp ho with hb | ⟨i, hi, h0⟩ | hf
    · exact ⟨.boot, hb⟩
    · exact ⟨.trapframe i, hi ▸ h0, hi⟩
    · exact ⟨.pipe, hf⟩
  | node r lv x =>
    have hr := root_ne_zero h.owned ho
    have hlv := h.owned.level p r lv x ho
    obtain ⟨i, rfl⟩ := (h.tables p r lv x ho).resolve_right id
    have hS := h.space i hr id
    obtain rfl | h0 := eq_or_ne lv 0
    · obtain ⟨-, -, -, -, hs⟩ := h.owned.up p _ 0 x ho (by decide)
      exact ⟨.leaf i x, hr, hs rfl, (h.owned.pageAt_iff hS.root rfl fun _ => hs rfl).mpr ho⟩
    · refine ⟨.table i (3 - lv) x, hr, by omega, ?_⟩
      exact (h.owned.pageAt_iff hS.root (by omega) fun hc => absurd hc h0).mpr ho

/-- Different places have different pages. -/
theorem at_unique (hW : Wf boot s) (h : Agrees K boot (fun _ => False) s own)
    (hσ : Site.At boot s p σ) (hτ : Site.At boot s p τ) : σ = τ := by
  -- `own` tells the kinds of places apart; held pages are told apart by `Wf`
  have hst : σ.place s = τ.place s := (h.place_of_at hσ).symm.trans (h.place_of_at hτ)
  cases σ <;> cases τ <;> simp only [Site.place, Place.node.injEq, reduceCtorEq] at hst
  case free.free => rfl
  case table.table i d x j e y =>
    obtain ⟨hr, hd, rfl⟩ := hst
    obtain rfl := hW.pagetable_inj i j hr hσ.1
    obtain rfl : d = e := by have := hσ.2.1; have := hτ.2.1; omega
    rfl
  case table.leaf i d x j v => exact absurd hst.2.1 (by have := hσ.2.1; omega)
  case leaf.table i v j d x => exact absurd hst.2.1 (by have := hτ.2.1; omega)
  case leaf.leaf i v j w =>
    obtain ⟨hr, -, rfl⟩ := hst
    obtain rfl := hW.pagetable_inj i j hr hσ.1
    rfl
  case trapframe.trapframe i j =>
    obtain rfl := hW.trapframe_inj i j (hσ.2.trans hτ.2.symm) hσ.1
    rfl
  case trapframe.pipe i =>
    obtain ⟨w, hw⟩ := hτ
    exact absurd (hσ.2 ▸ hw) (hW.trapframe_pipe i w hσ.1)
  case trapframe.boot i => exact absurd (hσ.2 ▸ hτ) (hW.boot_trapframe i hσ.1)
  case pipe.trapframe j =>
    obtain ⟨w, hw⟩ := hσ
    exact absurd (hτ.2 ▸ hw) (hW.trapframe_pipe j w hτ.1)
  case pipe.pipe => rfl
  case pipe.boot =>
    obtain ⟨w, hw⟩ := hσ
    exact absurd hτ (hW.boot_pipe p w hw)
  case boot.trapframe j => exact absurd (hτ.2 ▸ hσ) (hW.boot_trapframe j hτ.1)
  case boot.pipe =>
    obtain ⟨w, hw⟩ := hτ
    exact absurd hσ (hW.boot_pipe p w hw)
  case boot.boot => rfl

theorem range_of_at (h : Agrees K boot (fun _ => False) s own) (hσ : Site.At boot s p σ) :
    K.kend ≤ p ∧ p < PHYSTOP := by
  rw [← h.owned.range, h.place_of_at hσ]
  cases σ <;> exact Place.noConfusion

end Agrees

/-! ### A small machine -/

/-- A machine with twenty pages to allocate. -/
def smallLayout : Layout where
  kend := PHYSTOP - 20
  trampoline := KERNBASE
  kernbase_le := le_rfl
  trampoline_lt := by decide
  kend_le := by decide

/-- It, before the first process; the kernel took none of the pages for itself. -/
def smallKernel : Kernel where
  kmem := ⟨fun _ _ => 0, List.range' (PHYSTOP - 20) 20, fun _ => false, 0, false⟩
  proc := fun _ => .unused
  nextpid := 1
  initproc := none
  files := []

theorem smallKernel_booted : Booted smallLayout (fun _ => False) smallKernel := by
  refine ⟨fun p => ?_, List.nodup_range', rfl, fun _ h => h.elim, fun _ => rfl, rfl⟩
  show p ∈ List.range' (PHYSTOP - 20) 20 ↔ (PHYSTOP - 20 ≤ p ∧ p < PHYSTOP) ∧ ¬ False
  rw [List.mem_range'_1, not_false_eq_true, and_true]
  have hP : PHYSTOP = 0x88000 := rfl
  omega

instance decidableOk (s : Kernel) : (c : Syscall) → Decidable (Syscall.Ok s c)
  | .exec _ argv => inferInstanceAs (Decidable (argv.length < MAXARG ∧ ∀ arg ∈ argv, _))
  | .sbrk n _ => inferInstanceAs (Decidable (-2 ^ 31 ≤ n ∧ n < 2 ^ 31))
  | .close f => inferInstanceAs (Decidable (f ∈ s.files))
  | .fork | .exit _ | .wait _ | .fault _ | .copyout _ _ | .copyin _ _ | .pipe _ _ => .isTrue trivial

instance (s : Kernel) : Decidable (SizesOk s) := inferInstanceAs (Decidable (∀ _ : Fin NPROC, _))

instance decidableRequestOk (s : Kernel) (i : Fin NPROC) : (c : Syscall) → Decidable
    (RequestOk s i c)
  | .sbrk n _ => inferInstanceAs (Decidable (0 < n → (s.proc i).sz + n ≤ TRAPFRAME))
  | .fork | .exec _ _ | .exit _ | .wait _ | .fault _ | .copyout _ _ | .copyin _ _ | .pipe _ _
  | .close _ => .isTrue trivial

/-- Processes make calls one after the other, as long as no size and no request is too large. -/
def play (K : Layout) : List (Fin NPROC × Syscall) → Kernel → Option Kernel
  | [], s => some s
  | (i, c) :: calls, s =>
      if (s.proc i).state = .RUNNABLE ∧ Syscall.Ok s c ∧ SizesOk s ∧ RequestOk s i c then
        ((c.run K i).run () s).state?.bind (play K calls)
      else none

section Play

variable {guard : Kernel → Fin NPROC → Syscall → Prop}
  (hguard : ∀ s i c, SizesOk s → RequestOk s i c → guard s i c)

include hguard

theorem play_reachable (calls : List (Fin NPROC × Syscall)) : ∀ {s : Kernel},
    (machine K boot guard).Reachable s → play K calls s = some s' →
    (machine K boot guard).Reachable s' := by
  induction calls with
  | nil =>
    intro s h hr
    cases hr
    exact h
  | cons call calls ih =>
    intro s h hr
    obtain ⟨i, c⟩ := call
    rw [play] at hr
    split_ifs at hr with hc
    obtain ⟨hrun, hok, hsz, hreq⟩ := hc
    obtain ⟨s1, h1, hr⟩ := Option.bind_eq_some_iff.mp hr
    exact ih (h.call ⟨i, c, hrun, hok, hguard s i c hsz hreq, rfl⟩ (Result.eq_ok_of_state? h1)) hr

/-- Calls that the first process of the small machine and its children can make: what is found by
evaluation is a property of a state that is reached. -/
theorem exists_of_play {P : Kernel → Prop} [DecidablePred P] (calls : List (Fin NPROC × Syscall))
    (h : (((userinit smallLayout).run () smallKernel).state?.bind (play smallLayout calls)).any
      (fun s => decide (P s)) = true) :
    ∃ s, (machine smallLayout (fun _ => False) guard).Reachable s ∧ P s := by
  obtain ⟨s, hs, hP⟩ := (Option.any_eq_true _ _).mp h
  obtain ⟨s0, h0, hs⟩ := Option.bind_eq_some_iff.mp hs
  have hinit : (machine smallLayout (fun _ => False) guard).init s0 :=
    ⟨smallKernel, smallKernel_booted, Result.eq_ok_of_state? h0⟩
  exact ⟨s, play_reachable hguard calls (.init hinit) hs, of_decide_eq_true hP⟩

end Play

/-! ### The results -/

/-- **Every page is in exactly one place after every call**, as long as no size
exceeds the trapframe: nothing is leaked, nothing is freed twice, and no call
stops the machine but the exit of init, and a request for memory that runs into
the trapframe. -/
theorem pages_in_one_place (h : (machine K boot fun s _ _ => SizesOk s).Reachable s) :
    (∀ p, K.kend ≤ p ∧ p < PHYSTOP → ∃! σ, Site.At boot s p σ) ∧
    (∀ p σ, Site.At boot s p σ → K.kend ≤ p ∧ p < PHYSTOP) ∧
    s.kmem.freelist.Nodup ∧ s.files.Nodup ∧ s.kmem.refreed = false ∧
    ∀ i c, (s.proc i).state = .RUNNABLE → SizesOk s → Syscall.Ok s c →
      Ends (fun msg => msg = "init exiting" ∨ msg = "mappages: remap" ∧ ¬ RequestOk s i c) ()
        (c.run K i) s fun _ _ => True := by
  have hI := inv_of_reachable h
  obtain ⟨hW, own, hA⟩ := hI
  refine ⟨fun p hp => ?_, fun p σ => hA.range_of_at, hA.owned.nodup, hW.files, hA.owned.once,
    fun i c hrun hsz hok => ?_⟩
  · obtain ⟨σ, hσ⟩ := hA.exists_at ((hA.owned.range p).mpr hp)
    exact ⟨σ, hσ, fun τ hτ => hA.at_unique hW hτ hσ⟩
  · exact (ends_call ⟨hW, own, hA⟩ hrun hsz hok (Or.inl rfl) fun hr => Or.inr ⟨rfl, hr⟩).mono
      fun _ _ _ => trivial

/-- The first process asks for a page and makes a pipe; its child asks for another page and exits;
the parent waits for it. -/
theorem pages_in_one_place_forked : ∃ s s',
    (machine smallLayout (fun _ => False) fun s _ _ => SizesOk s).Reachable s ∧
    s.files.length = 2 ∧ (s.proc 0).sz = PGSIZE ∧ (s.proc 1).sz = 2 * PGSIZE ∧
    (s.proc 1).state = .ZOMBIE ∧ ((Syscall.wait 0).run smallLayout 0).run () s = .ok () s' ∧
    (s'.proc 1).state = .UNUSED ∧
    ∀ p, PHYSTOP - 20 ≤ p ∧ p < PHYSTOP → ∃! σ, Site.At (fun _ => False) s' p σ := by
  obtain ⟨s, hs, hfiles, h0, h1, hz, hrun, hsz, hfind⟩ := exists_of_play (fun _ _ _ hsz _ => hsz)
    (P := fun s => s.files.length = 2 ∧ (s.proc 0).sz = PGSIZE ∧ (s.proc 1).sz = 2 * PGSIZE ∧
      (s.proc 1).state = .ZOMBIE ∧ (s.proc 0).state = .RUNNABLE ∧ SizesOk s ∧
      ((List.finRange NPROC).find? fun j =>
        (s.proc j).parent = some 0 ∧ (s.proc j).state = .ZOMBIE) = some 1)
    [(0, .sbrk 4096 1), (0, .pipe true true), (0, .fork), (1, .sbrk 4096 1), (1, .exit 7)]
    (by decide +kernel)
  have hE : Ends (fun _ => False) () ((Syscall.wait 0).run smallLayout 0) s fun _ s' =>
      (s'.proc 1).state = .UNUSED := by
    refine Ends.seq (ends_kwait (inv_of_reachable hs) hrun hsz fun _ s' _ hA => ?_)
    rw [ends_pure, (hA rfl 1 hfind).proc, update_self]
    rfl
  obtain ⟨_, s', hr, hun⟩ := hE.exists_run
  have hs' := hs.call ⟨0, .wait 0, hrun, trivial, hsz, rfl⟩ hr
  exact ⟨s, s', hs, hfiles, h0, h1, hz, hr, hun, (pages_in_one_place hs').1⟩

/-- **Sizes stay below the trapframe if every request does**: then each process has
the trampoline and its trapframe mapped where they belong, and nothing else above
its size; its trapframe is in no other place; and only the exit of init stops
the machine. -/
theorem sz_below_trapframe (h : (machine K boot RequestOk).Reachable s) :
    (∀ i, (s.proc i).sz ≤ TRAPFRAME) ∧
    (∀ i, (s.proc i).pagetable ≠ 0 →
      s.kmem.lookup (s.proc i).pagetable (TRAMPOLINE / PGSIZE) =
        mkPte K.trampoline (PTE_R ||| PTE_X) ∧
      s.kmem.lookup (s.proc i).pagetable (TRAPFRAME / PGSIZE) =
        mkPte (s.proc i).trapframe (PTE_R ||| PTE_W) ∧
      ∀ v < 512 ^ 3, s.kmem.lookup (s.proc i).pagetable v &&& PTE_V ≠ 0 →
        v * PGSIZE < (s.proc i).sz ∨ v = TRAMPOLINE / PGSIZE ∨ v = TRAPFRAME / PGSIZE) ∧
    (∀ i σ, (s.proc i).trapframe ≠ 0 → Site.At boot s (s.proc i).trapframe σ → σ = .trapframe i) ∧
    (∀ σ, ¬ Site.At boot s K.trampoline σ) ∧
    ∀ i c, (s.proc i).state = .RUNNABLE → Syscall.Ok s c → RequestOk s i c →
      Ends (fun msg => msg = "init exiting") () (c.run K i) s fun _ _ => True := by
  obtain ⟨hI, hsz⟩ := sizes_of_reachable h
  obtain ⟨hW, own, hA⟩ := hI
  refine ⟨hsz, fun i hi => ?_, fun i σ h0 hσ => hA.at_unique hW hσ ⟨h0, rfl⟩, fun σ hσ => ?_,
    fun i c hrun hok hreq => ?_⟩
  · have hS := hA.space i hi id
    refine ⟨hS.trampoline, hS.trapframe, fun v hv hval => (hS.bound v hv hval).imp_left
      fun hlt => ?_⟩
    rw [pages_eq] at hlt
    show v * 4096 < _
    omega
  · have hlt := (hA.range_of_at hσ).1
    have htr := K.trampoline_lt
    omega
  · have hcall : Ends (fun msg => msg = "init exiting") () (c.run K i) s _ :=
      ends_call ⟨hW, own, hA⟩ hrun hsz hok rfl fun hr => absurd hreq hr
    exact hcall.mono fun _ _ _ => trivial

set_option maxRecDepth 1000 in
/-- The first process asks for two pages, touches the second, gives it back and forks. -/
theorem sz_below_trapframe_forked :
    ∃ s, (machine smallLayout (fun _ => False) RequestOk).Reachable s ∧
    (s.proc 0).sz = PGSIZE ∧ (s.proc 1).sz = PGSIZE ∧ (s.proc 1).state = .RUNNABLE ∧
    (∀ i, (s.proc i).sz ≤ TRAPFRAME) ∧
    s.kmem.lookup (s.proc 1).pagetable (TRAPFRAME / PGSIZE) =
      mkPte (s.proc 1).trapframe (PTE_R ||| PTE_W) := by
  obtain ⟨s, hs, h0, h1, hrun, hpt⟩ := exists_of_play (fun _ _ _ _ hreq => hreq)
    (P := fun s => (s.proc 0).sz = PGSIZE ∧ (s.proc 1).sz = PGSIZE ∧
      (s.proc 1).state = .RUNNABLE ∧ (s.proc 1).pagetable ≠ 0)
    [(0, .sbrk 8192 2), (0, .fault 4096), (0, .sbrk (-4096) 1), (0, .fork)] (by decide +kernel)
  obtain ⟨hsz, htables, -⟩ := sz_below_trapframe hs
  exact ⟨s, hs, h0, h1, hrun, hsz, (htables 1 hpt).2.1⟩

/-! ### A size beyond the trapframe -/

/-- A lazy request only moves the size. -/
theorem ends_lazy {n : ℕ} (hn : (s.proc i).sz + n < 2 ^ 64) :
    Ends (fun _ => False) () ((Syscall.sbrk n 2).run K i) s fun _ s' =>
      s'.proc i = { s.proc i with sz := (s.proc i).sz + n } ∧ s'.kmem = s.kmem := by
  have hadd : add64 (s.proc i).sz n = (s.proc i).sz + n := by
    rw [add64]
    omega
  refine Ends.bind (R := fun _ (s' : Kernel) => s'.proc i =
    { s.proc i with sz := (s.proc i).sz + n } ∧ s'.kmem = s.kmem) ?_ fun _ _ h => h
  have heager : ¬ ((2 : ℤ) = SBRK_EAGER ∨ (n : ℤ) < 0) := by
    rintro (h2 | h2)
    · exact absurd h2 (by decide)
    · omega
  rw [sys_sbrk]
  apply ends_look_bind.mpr
  rw [if_neg heager, hadd, if_neg (by omega)]
  apply ends_act_bind.mpr
  rw [ends_pure]
  dsimp only [Kernel.setProc]
  rw [update_self, hadd]
  exact ⟨rfl, rfl⟩

/-- Lazy requests add up. -/
theorem exists_lazy (k : ℕ) (hk : k ≤ 129) : ∃ s i,
    (machine smallLayout (fun _ => False) fun _ _ _ => True).Reachable s ∧
      (s.proc i).state = .RUNNABLE ∧ (s.proc i).sz = k * (2 ^ 31 - 1) := by
  induction k with
  | zero =>
    obtain ⟨s, hs, hrun, hsz⟩ := @exists_of_play (fun _ _ _ => True) (fun _ _ _ _ _ => trivial)
      (fun s => (s.proc 0).state = .RUNNABLE ∧ (s.proc 0).sz = 0) _ [] (by decide +kernel)
    exact ⟨s, 0, hs, hrun, by rw [hsz, Nat.zero_mul]⟩
  | succ k ih =>
    obtain ⟨s, i, hs, hrun, hsz⟩ := ih (by omega)
    obtain ⟨_, s', hr, hproc, -⟩ :=
      (ends_lazy (K := smallLayout) (s := s) (i := i) (n := 2 ^ 31 - 1) (by omega)).exists_run
    have hok : Syscall.Ok s (.sbrk (2 ^ 31 - 1 : ℕ) 2) := ⟨by decide, by decide⟩
    refine ⟨s', i, hs.call ⟨i, _, hrun, hok, trivial, rfl⟩ hr, by rw [hproc]; exact hrun, ?_⟩
    rw [hproc]
    dsimp only
    rw [hsz, Nat.succ_mul]

theorem pagefault_beyond (hsz : MAXVA < (s.proc i).sz) :
    (Syscall.run K i (.fault MAXVA)).run () s = .panic "walk" := by
  have hE : Ends (fun msg => msg = "walk") () (pagefault K i MAXVA) s fun _ _ => False := by
    rw [pagefault]
    apply ends_look_bind.mpr
    refine Ends.bind (R := fun _ _ => False) (ends_vm ?_) fun _ _ h => h.elim
    rw [vmfault, if_neg (by omega), ismapped, walk, if_pos (by decide)]
    exact rfl
  unfold Ends at hE
  show (pagefault K i MAXVA).run () s = .panic "walk"
  cases hr : (pagefault K i MAXVA).run () s with
  | ok a s' =>
    rw [hr] at hE
    exact hE.elim
  | stuck =>
    rw [hr] at hE
    exact hE.elim
  | panic msg =>
    rw [hr] at hE
    rw [show msg = "walk" from hE]

/-- **The source does not keep sizes below the trapframe**: after 129 lazy requests
the size of a process exceeds every virtual address, and its next page fault stops
the machine. -/
theorem sz_exceeds_trapframe : ∃ s i,
    (machine smallLayout (fun _ => False) fun _ _ _ => True).Reachable s ∧
      (s.proc i).state = .RUNNABLE ∧ TRAPFRAME < (s.proc i).sz ∧
      (Syscall.run smallLayout i (.fault MAXVA)).run () s = .panic "walk" := by
  obtain ⟨s, i, hs, hrun, hsz⟩ := exists_lazy 129 le_rfl
  refine ⟨s, i, hs, hrun, ?_, pagefault_beyond ?_⟩
  · rw [hsz]
    decide
  · rw [hsz]
    decide

end Xv6.Process
