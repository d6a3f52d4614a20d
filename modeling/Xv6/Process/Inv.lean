import Xv6.Process.Exec

/-!
# Who owns a page, for the whole kernel

The pages that `Owned` calls held are the trapframes of processes, the pages of
pipes, and what the kernel took while booting; the tables are those of processes.
`Wf` says that these pointers are all different, and `Agrees` that memory is as
they say.  Between two statements of a function a table may be in hand: it is
`loose`, and then nothing is said about what it maps.

## Main definitions

* `Wf`, `Agrees`, `Inv` — the invariant of the kernel between system calls.

## Main results

* `Agrees.frame` — an operation on one table leaves the rest of the kernel alone.
* `Agrees.remem`, `Agrees.retag` — a page is written to, taken, or given back.
-/

namespace Xv6.Process

open Conc Vm Function

variable {K : Layout} {allow : String → Prop} {boot L : ℕ → Prop} {s s' : Kernel} {m' : Kmem}
  {own own' : ℕ → Place} {p q r v sz n : ℕ} {i j : Fin NPROC}

theorem ends_vm {α : Type} {f : VmM α} {Q : α → Kernel → Prop}
    (h : Ends allow () f s.kmem fun a m => Q a { s with kmem := m }) :
    Ends allow () (vm f) s Q := by
  rw [vm]
  refine ends_zoom ?_ ?_ ?_ h
  · exact fun _ _ => rfl
  · exact fun _ _ _ => rfl
  · exact fun _ => rfl

/-! ### The invariant -/

/-- The kernel's pointers to pages are all different. -/
structure Wf (boot : ℕ → Prop) (s : Kernel) : Prop where
  boot_trapframe : ∀ i, (s.proc i).trapframe ≠ 0 → ¬ boot (s.proc i).trapframe
  boot_pipe : ∀ p w, (p, w) ∈ s.files → ¬ boot p
  trapframe_pipe : ∀ i w, (s.proc i).trapframe ≠ 0 → ((s.proc i).trapframe, w) ∉ s.files
  trapframe_inj : ∀ i j, (s.proc i).trapframe = (s.proc j).trapframe →
    (s.proc i).trapframe ≠ 0 → i = j
  pagetable_inj : ∀ i j, (s.proc i).pagetable = (s.proc j).pagetable →
    (s.proc i).pagetable ≠ 0 → i = j
  unused : ∀ i, (s.proc i).state = .UNUSED → s.proc i = .unused
  ready : ∀ i, (s.proc i).state ≠ .UNUSED → (s.proc i).state ≠ .USED →
    (s.proc i).trapframe ≠ 0 ∧ (s.proc i).pagetable ≠ 0
  files : s.files.Nodup

theorem Wf.mem (h : Wf boot s) : Wf boot { s with kmem := m' } :=
  { h with }

/-- Memory agrees with the kernel's pointers, but for tables that are loose. -/
structure Agrees (K : Layout) (boot L : ℕ → Prop) (s : Kernel) (own : ℕ → Place) : Prop where
  owned : Owned K ∅ s.kmem own
  held : ∀ p, own p = .held ↔
    boot p ∨ (∃ i, (s.proc i).trapframe = p ∧ p ≠ 0) ∨ ∃ w, (p, w) ∈ s.files
  tables : ∀ q r lv x, own q = .node r lv x → (∃ i, (s.proc i).pagetable = r) ∨ L r
  space : ∀ i, (s.proc i).pagetable ≠ 0 → ¬ L (s.proc i).pagetable →
    Space s.kmem own (s.proc i).pagetable (pages (s.proc i).sz) K.trampoline (s.proc i).trapframe
  pipe : ∀ p w, (p, w) ∈ s.files →
    (Bytes.get 4 (s.kmem.mem p) READOPEN = 0 ↔ (p, false) ∉ s.files) ∧
    (Bytes.get 4 (s.kmem.mem p) WRITEOPEN = 0 ↔ (p, true) ∉ s.files)

/-- **The invariant of the kernel between system calls.** -/
def Inv (K : Layout) (boot : ℕ → Prop) (s : Kernel) : Prop :=
  Wf boot s ∧ ∃ own, Agrees K boot (fun _ => False) s own

theorem Space.congr {m : Kmem} {tr tf : ℕ} (hS : Space m own r n tr tf) (h : Owned K ∅ m own)
    (h' : Owned K ∅ m' own) (hmem : ∀ q x, own q = .node r 1 x → m'.mem q = m.mem q) :
    Space m' own r n tr tf :=
  hS.of_lookup hS.root fun _ hv => h.lookup_retag h' hS.root (fun _ _ _ => Iff.rfl) hmem hv

theorem Space.frame {m : Kmem} {r' tr tf : ℕ} (hS : Space m own r' n tr tf) (h : Owned K ∅ m own)
    (h' : Owned K ∅ m' own') (hfr : Frame r ∅ m own m' own') (hne : r' ≠ r) :
    Space m' own' r' n tr tf :=
  hS.of_lookup ((hfr.node_iff hne).mpr hS.root) fun _ hv => hfr.lookup_eq h h' hne hS.root hv

theorem root_ne_zero {m : Kmem} {lv x : ℕ} (h : Owned K ∅ m own) (hq : own q = .node r lv x) :
    r ≠ 0 := by
  rintro rfl
  refine h.not_node (fun hc => ?_) hq
  have h1 := ((h.range 0).mp (by rw [hc]; exact Place.noConfusion)).1
  have h2 := K.trampoline_lt
  omega

namespace Agrees

section

variable (h : Agrees K boot L s own)

include h

theorem pos (hp : own p ≠ .outside) : p ≠ 0 := by
  have h1 := ((h.owned.range p).mp hp).1
  have h2 := K.trampoline_lt
  omega

theorem remem (h' : Owned K ∅ m' own)
    (hnode : ∀ q r x, own q = .node r 1 x → m'.mem q = s.kmem.mem q)
    (hpipe : ∀ q w, (q, w) ∈ s.files → m'.mem q = s.kmem.mem q) :
    Agrees K boot L { s with kmem := m' } own := by
  refine ⟨h', h.held, h.tables, fun i hi hL => ?_, fun p w hp => ?_⟩
  · exact Space.congr (h.space i hi hL) h.owned h' fun q x => hnode q _ x
  · rw [show ({ s with kmem := m' } : Kernel).kmem.mem p = s.kmem.mem p from hpipe p w hp]
    exact h.pipe p w hp

theorem restored (hR : Restored K s.kmem own m') : Agrees K boot L { s with kmem := m' } own := by
  refine h.remem hR.owned (fun q r x hq => hR.mem q ?_) fun q w hq => hR.mem q ?_
  · rw [hq]
    exact Place.noConfusion
  · rw [(h.held q).mpr (Or.inr (Or.inr ⟨w, hq⟩))]
    exact Place.noConfusion

theorem setPage (hp : own p = .held) (hnp : ∀ w, (p, w) ∉ s.files)
    (b : Bytes.Mem) : Agrees K boot L { s with kmem := s.kmem.setPage p b } own := by
  refine h.remem (h.owned.setPage hp b) (fun q r x hq => ?_) fun q w hq => ?_
  · exact Kmem.setPage_mem_of_ne _ _ (Place.ne hq hp nofun)
  · apply Kmem.setPage_mem_of_ne
    rintro rfl
    exact hnp w hq

/-- **An operation on one table leaves the rest of the kernel alone.** -/
theorem frame {L' : ℕ → Prop} (h' : Owned K ∅ s'.kmem own')
    (hfr : Frame r ∅ s.kmem own s'.kmem own') (hfiles : s'.files = s.files)
    (htf : ∀ i, (s'.proc i).trapframe = (s.proc i).trapframe)
    (hr : ∀ q lv x, own' q = .node r lv x → (∃ i, (s'.proc i).pagetable = r) ∨ L' r)
    (hL : ∀ r', r' ≠ r → r' ≠ 0 → (∃ i, (s.proc i).pagetable = r') ∨ L r' →
      (∃ i, (s'.proc i).pagetable = r') ∨ L' r')
    (hother : ∀ i, (s'.proc i).pagetable ≠ r → (s'.proc i).pagetable ≠ 0 →
      ¬ L' (s'.proc i).pagetable → ¬ L (s'.proc i).pagetable ∧
        (s.proc i).pagetable = (s'.proc i).pagetable ∧ (s.proc i).sz = (s'.proc i).sz)
    (hS : ∀ i, (s'.proc i).pagetable = r → r ≠ 0 → ¬ L' r →
      Space s'.kmem own' r (pages (s'.proc i).sz) K.trampoline (s'.proc i).trapframe) :
    Agrees K boot L' s' own' := by
  refine ⟨h', fun p => ?_, fun q r' lv x hq => ?_, fun i hi hLi => ?_, fun p w hp => ?_⟩
  · rw [hfr.held_iff, h.held, hfiles]
    simp only [htf]
  · by_cases hrr : r' = r
    · rw [hrr] at hq ⊢
      exact hr q lv x hq
    · exact hL r' hrr (root_ne_zero h' hq) (h.tables q r' lv x ((hfr.node_iff hrr).mp hq))
  · by_cases hrr : (s'.proc i).pagetable = r
    · rw [hrr] at hi hLi ⊢
      exact hS i hrr hi hLi
    · obtain ⟨hLi', hpt, hsz⟩ := hother i hrr hi hLi
      have hSi := h.space i (by rwa [hpt]) (by rwa [hpt])
      rw [hpt, hsz] at hSi
      rw [htf]
      exact Space.frame hSi h.owned h' hfr hrr
  · rw [hfiles] at hp ⊢
    have hheld : own p = .held := (h.held p).mpr (Or.inr (Or.inr ⟨w, hp⟩))
    rw [(hfr.keep p (by simp) (by rw [hheld]; exact id)).2]
    exact h.pipe p w hp

theorem procs (hmem : s'.kmem = s.kmem) (hfiles : s'.files = s.files)
    (htf : ∀ i, (s'.proc i).trapframe = (s.proc i).trapframe)
    (hpt : ∀ i, (s'.proc i).pagetable = (s.proc i).pagetable)
    (hsz : ∀ i, (s'.proc i).pagetable ≠ 0 → pages (s.proc i).sz ≤ pages (s'.proc i).sz) :
    Agrees K boot L s' own := by
  refine ⟨hmem ▸ h.owned, fun p => ?_, fun q r lv x hq => ?_, fun i hi hLi => ?_, ?_⟩
  · simp only [h.held, hfiles, htf]
  · simp only [hpt]
    exact h.tables q r lv x hq
  · rw [hmem, htf, hpt]
    rw [hpt] at hi hLi
    exact (h.space i hi hLi).mono (hsz i (by rwa [hpt]))
  · rw [hmem, hfiles]
    exact h.pipe

/-- A page that is in no table is taken or given back, and the kernel's pointers
change with it. -/
theorem retag {pl : Place} (hp : ∀ r lv x, own p ≠ .node r lv x)
    (hpl : ∀ r lv x, pl ≠ .node r lv x) (h' : Owned K ∅ s'.kmem (update own p pl))
    (hmem : ∀ q, q ≠ p → s'.kmem.mem q = s.kmem.mem q)
    (hheld : ∀ q, update own p pl q = .held ↔
      boot q ∨ (∃ i, (s'.proc i).trapframe = q ∧ q ≠ 0) ∨ ∃ w, (q, w) ∈ s'.files)
    (hpt : ∀ i, (s'.proc i).pagetable = (s.proc i).pagetable)
    (hsame : ∀ i, (s.proc i).pagetable ≠ 0 → ¬ L (s.proc i).pagetable →
      (s'.proc i).trapframe = (s.proc i).trapframe ∧ (s'.proc i).sz = (s.proc i).sz)
    (hpipe : ∀ q w, (q, w) ∈ s'.files →
      (Bytes.get 4 (s'.kmem.mem q) READOPEN = 0 ↔ (q, false) ∉ s'.files) ∧
      (Bytes.get 4 (s'.kmem.mem q) WRITEOPEN = 0 ↔ (q, true) ∉ s'.files)) :
    Agrees K boot L s' (update own p pl) := by
  have hnode : ∀ q r lv x, update own p pl q = .node r lv x ↔ own q = .node r lv x :=
    fun _ _ _ _ => update_node_iff hp hpl
  refine ⟨h', hheld, fun q r lv x hq => ?_, fun i hi hLi => ?_, hpipe⟩
  · simp only [hpt]
    exact h.tables q r lv x ((hnode q r lv x).mp hq)
  · rw [hpt] at hi hLi ⊢
    obtain ⟨htfi, hszi⟩ := hsame i hi hLi
    rw [htfi, hszi]
    have hS := h.space i hi hLi
    refine hS.of_lookup ((hnode _ _ _ _).mpr hS.root) fun v hv =>
      h.owned.lookup_retag h' hS.root (fun _ _ _ => hnode _ _ _ _) (fun q x hq => hmem q ?_) hv
    rintro rfl
    exact hp _ _ _ hq

theorem loosen {L' : ℕ → Prop} (hL : ∀ r, L r → L' r) : Agrees K boot L' s own :=
  ⟨h.owned, h.held, fun q r lv x hq => (h.tables q r lv x hq).imp_right (hL r),
    fun i hi hLi => h.space i hi fun hc => hLi (hL _ hc), h.pipe⟩

end

end Agrees

end Xv6.Process
