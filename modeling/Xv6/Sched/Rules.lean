import Xv6.Sched.Inv

/-!
# Rules for locks and switching

The steps of the kernel threads that the families of processes do not notice:
locking and unlocking a process, choosing one, switching to it and back, and
waking it.

## Main results

* `CpuInv.not_current` — a process whose lock is free, or held by a scheduler that has not
  chosen it, is not executed by any processor unless it is running.
* `safe_schedule`, `safe_sched`, `safe_yield`, `safe_preempt` — switching.
-/


namespace Xv6.Sched

open Conc
open Function (update update_of_ne update_self update_eq_self update_idem)

variable {C : Type} [DecidableEq C] {N : ℕ} {s s' : State C N} {t u : Thread C N} {c : C}
  {p q : Fin N} {initproc : Fin N} {gs : Thread C N → Know N} {g : Know N} {ρ : Type} {l : Lk N}
  {st : ProcState}

/-! ### Single steps -/

omit [DecidableEq C] in
@[simp] theorem State.setProc_self (s : State C N) (p : Fin N) (pr : Proc N) :
    (s.setProc p pr).proc p = pr := update_self ..

omit [DecidableEq C] in
theorem State.setProc_of_ne (s : State C N) (pr : Proc N) (h : q ≠ p) :
    (s.setProc p pr).proc q = s.proc q := update_of_ne h ..

variable {pr : Proc N}

omit [DecidableEq C] in
theorem State.setProc_proj {β : Type} (s : State C N) (f : Proc N → β) (h : f pr = f (s.proc p))
    (q : Fin N) : f ((s.setProc p pr).proc q) = f (s.proc q) := update_proj f h q

variable {f : C → State C N → Option (Outcome (State C N) ρ)}

/-- A thread that is not executed takes no step. -/
theorem safe_onCpu {Q : ρ → Know N → Prop}
    (h : ∀ s gs c, Inv initproc s gs → gs t = g → s.mycpu t = some c →
      match f c s with
      | none => True
      | some (.done r s') =>
          ∃ g', (Inv initproc s' (update gs t g') ∧ Guar s s') ∧ Q r g'
      | some (.again s') => Inv initproc s' gs ∧ Guar s s'
      | some (.panic msg) => msg = "init exiting") :
    Obeys C initproc t (onCpu f) g Q := by
  refine safe_atomic fun s gs hI hg => ?_
  cases hc : s.mycpu t with
  | none => trivial
  | some c =>
    have := h s gs c hI hg hc
    simp only [Option.bind_some]
    cases hf : f c s with
    | none => trivial
    | some o =>
      rw [hf] at this
      cases o with
      | done r s' => exact this
      | again s' => exact this
      | panic msg => exact this

theorem Inv.stay (h : Inv initproc s gs) (hg : gs t = g) :
    Inv initproc s (update gs t g) ∧ Guar s s := by
  rw [← hg, update_eq_self]
  exact ⟨h, .refl s⟩

theorem safe_look {f : State C N → ρ} {Q : ρ → Know N → Prop}
    (h : ∀ s gs c, Inv initproc s gs → gs t = g → s.mycpu t = some c → Q (f s) g) :
    Obeys C initproc t (look f) g Q := by
  exact safe_onCpu fun s gs c hI hg hc => ⟨g, hI.stay hg, h s gs c hI hg hc⟩

omit [DecidableEq C] in
theorem Guar.of_same (hs : ∀ q, (s'.proc q).state = (s.proc q).state ∨ (s'.proc q).state ≠ .RUNNING)
    (hstack : s'.stack = s.stack) (hf : ∀ q, (s'.proc q).freed = (s.proc q).freed)
    (hsl : s'.slept = s.slept) : Guar s s' where
  chosen q h h' := by
    rcases hs q with hq | hq
    · exact absurd (hq ▸ h') h
    · exact absurd h' hq
  switched q c h h' := absurd (hstack ▸ h') h
  freed q h := absurd (hf q) h
  slept w h := Or.inl (hsl ▸ h)

omit [DecidableEq C] in
theorem Similar.setProc {pr : Proc N} (h : Similar (s.proc p) pr) (q : Fin N) :
    Similar (s.proc q) ((s.setProc p pr).proc q) := by
  obtain rfl | hq := eq_or_ne q p
  · rwa [s.setProc_self]
  · rw [s.setProc_of_ne _ hq]
    exact .refl _

omit [DecidableEq C] in
theorem Guar.setProc {pr : Proc N} (hs : pr.state = (s.proc p).state ∨ pr.state ≠ .RUNNING)
    (hf : pr.freed = (s.proc p).freed) : Guar s (s.setProc p pr) := by
  refine .of_same (fun q => ?_) rfl (s.setProc_proj Proc.freed hf) rfl
  obtain rfl | hq := eq_or_ne q p
  · rwa [s.setProc_self]
  · rw [s.setProc_of_ne _ hq]
    exact Or.inl rfl

theorem safe_thisproc {Q : Fin N → Know N → Prop} (hQ : Q p g) :
    Obeys C initproc (.proc p) thisproc g Q := by
  refine safe_onCpu fun s gs c hI hg hc => ?_
  rw [(hI.cpus.cur_of_tp hc).1]
  exact ⟨g, hI.stay hg, hQ⟩

/-! ### Locks -/

/-- A lock is acquired or released. -/
theorem CpuInv.relock {o : Option C} {n : ℕ} (h : CpuInv s gs) {g0 : Know N} (hg : gs t = g0)
    (ht : s.mycpu t = some c) (hl : s.lock l = none ∧ o = some c ∨ s.lock l = some c ∧ o = none)
    (hat : At s t g.stage) (hself : g.Has l ↔ o = some c)
    (hhas : ∀ l', l' ≠ l → (g.Has l' ↔ g0.Has l')) (hcount : s.noff c = g0.count → n = g.count)
    (hspin : ∀ p, g.lk ≠ some (.proc p))
    (hrun : g.lk ≠ none → g.stage = .run ∨ ∃ p st, g.stage = .owns p st) :
    CpuInv ((s.setLock l o).setNoff c n) (update gs t g) := by
  subst hg
  refine h.step ht rfl rfl hat (fun u _ hu => hu) (fun l' d hd => ?_) (fun l' => ?_)
    (fun d hd => update_of_ne hd ..) ?_ hspin hrun
  · obtain rfl | hne := eq_or_ne l' l
    · rcases hl with ⟨h1, rfl⟩ | ⟨h1, rfl⟩ <;> simp [State.setLock, State.setNoff, h1, hd.symm]
    · simp only [State.setLock, State.setNoff, update_of_ne hne]
  · obtain rfl | hne := eq_or_ne l' l
    · simp only [State.setLock, State.setNoff, update_self, hself]
    · simp only [State.setLock, State.setNoff, update_of_ne hne, hhas l' hne]
      exact h.locks t c ht l'
  · simp only [State.setNoff, update_self]
    exact hcount (h.noff t c ht)

theorem guar_lock (s : State C N) (l : Lk N) (o : Option C) (c : C) (n : ℕ) :
    Guar s ((s.setLock l o).setNoff c n) :=
  .of_same (fun _ => Or.inl rfl) rfl (fun _ => rfl) rfl

variable {Q : Unit → Know N → Prop}

theorem CpuInv.restage (h : CpuInv s gs) {g0 : Know N} (hg : gs t = g0) (ht : s.mycpu t = some c)
    (hl : g.lk = g0.lk) (hp : g.stage.plock = g0.stage.plock)
    (hrun : g.lk ≠ none → g.stage = .run ∨ ∃ p st, g.stage = .owns p st) (htp : s'.tp = s.tp)
    (hstack : s'.stack = s.stack) (hlock : s'.lock = s.lock) (hnoff : s'.noff = s.noff)
    (hat : At s' t g.stage) (hother : ∀ u, u ≠ t → At s u (gs u).stage → At s' u (gs u).stage) :
    CpuInv s' (update gs t g) := by
  subst hg
  refine h.step ht htp hstack hat hother (fun _ _ _ => by rw [hlock]) (fun l => ?_)
    (fun _ _ => by rw [hnoff]) ?_ (by rw [hl]; exact h.spin t) hrun
  · rw [hlock, h.locks t c ht l, Know.Has, Know.Has, hl, hp]
  · rw [hnoff, h.noff t c ht, Know.count, Know.count, hl, hp]

theorem safe_acquire (hnot : ¬ g.Has l)
    (h : ∀ s gs c, Inv initproc s gs → gs t = g → s.mycpu t = some c → s.lock l = none →
      ∃ g', Inv initproc ((s.setLock l (some c)).setNoff c (s.noff c + 1))
        (update gs t g') ∧ Q () g') :
    Obeys C initproc t (acquire l) g Q := by
  refine safe_onCpu fun s gs c hI hg hc => ?_
  have hmine : s.lock l ≠ some c := fun hl => hnot (hg ▸ (hI.cpus.locks t c hc l).mp hl)
  rw [if_neg hmine]
  split_ifs with hfree
  · obtain ⟨g', hI', hQ⟩ := h s gs c hI hg hc hfree
    exact ⟨g', ⟨hI', guar_lock ..⟩, hQ⟩
  · trivial

theorem safe_release (hhas : g.Has l)
    (h : ∀ s gs c, Inv initproc s gs → gs t = g → s.mycpu t = some c → s.lock l = some c →
      ∃ g', Inv initproc ((s.setLock l none).setNoff c (s.noff c - 1))
        (update gs t g') ∧ Q () g') :
    Obeys C initproc t (release l) g Q := by
  refine safe_onCpu fun s gs c hI hg hc => ?_
  have hmine : s.lock l = some c := (hI.cpus.locks t c hc l).mpr (hg ▸ hhas)
  rw [if_pos hmine]
  obtain ⟨g', hI', hQ⟩ := h s gs c hI hg hc hmine
  exact ⟨g', ⟨hI', guar_lock ..⟩, hQ⟩

theorem safe_locked {f : State C N → ρ × State C N} {Q : ρ → Know N → Prop} (hnot : ¬ g.Has l)
    (h : ∀ s gs c, Inv initproc s gs → gs t = g → s.mycpu t = some c → s.lock l = none →
      ∃ g', (Inv initproc (f s).2 (update gs t g') ∧ Guar s (f s).2) ∧ Q (f s).1 g') :
    Obeys C initproc t (locked l f) g Q := by
  refine safe_onCpu fun s gs c hI hg hc => ?_
  have hmine : s.lock l ≠ some c := fun hl => hnot (hg ▸ (hI.cpus.locks t c hc l).mp hl)
  rw [if_neg hmine]
  split_ifs with hfree
  · exact h s gs c hI hg hc hfree
  · trivial

theorem sameHist_lock (s : State C N) (l : Lk N) (o : Option C) (c : C) (n : ℕ) :
    SameHist s ((s.setLock l o).setNoff c n) := ⟨⟨rfl, rfl, rfl, rfl⟩, rfl, rfl⟩

variable {lk : Option (Lk N)} {m : Mind N}

theorem Know.has_run : (⟨.run, lk, m⟩ : Know N).Has l ↔ lk = some l := by
  simp [Know.Has, Stage.plock]

theorem Know.has_owns : (⟨.owns p st, lk, m⟩ : Know N).Has l ↔ lk = some l ∨ l = .proc p := by
  simp [Know.Has, Stage.plock, eq_comm]

/-- A process acquires its own lock. -/
theorem safe_acquireOwn (hlk : lk ≠ some (.proc p)) (hQ : Q () ⟨.owns p .RUNNING, lk, m⟩) :
    Obeys C initproc (.proc p) (acquire (.proc p)) ⟨.run, lk, m⟩ Q := by
  refine safe_acquire (by rwa [Know.has_run]) fun s gs c hI hg hc hfree => ⟨_, ?_, hQ⟩
  have hat : ProcAt (s.proc p) (s.tp p ≠ none) p (gs (.proc p)).stage := hI.cpus.stage (.proc p)
  rw [hg] at hat
  refine hI.similar hg (hI.cpus.relock hg hc (Or.inl ⟨hfree, rfl⟩) ?_
    (iff_of_true (Or.inr rfl) rfl) (fun l' hl => ?_) (congrArg (· + 1)) (fun r => ?_) fun _ =>
    Or.inr ⟨p, _, rfl⟩) rfl rfl (fun _ => .refl _) (sameHist_lock ..)
    fun r _ _ hr _ => ⟨.RUNNING, by cases hr; rfl⟩
  · exact ⟨rfl, hat.1, hat.2.1, hat.2.2, nofun, nofun⟩
  · simp [Know.has_owns, Know.has_run, hl]
  · have := hI.cpus.spin (.proc p) r
    rwa [hg] at this

/-- A process that runs releases its own lock. -/
theorem safe_releaseOwn
    (hlk : lk ≠ some (.proc p)) (hm : ∀ chan lk, m.fall ≠ some (chan, lk, false))
    (hQ : Q () ⟨.run, lk, m⟩) :
    Obeys C initproc (.proc p) (release (.proc p)) ⟨.owns p .RUNNING, lk, m⟩ Q := by
  refine safe_release (Know.has_owns.mpr (Or.inr rfl)) fun s gs c hI hg hc hheld => ⟨_, ?_, hQ⟩
  have hat : ProcAt (s.proc p) (s.tp p ≠ none) p (gs (.proc p)).stage := hI.cpus.stage (.proc p)
  rw [hg] at hat
  refine hI.similar hg (hI.cpus.relock hg hc (Or.inr ⟨hheld, rfl⟩) ?_
    (iff_of_false (by rwa [Know.has_run]) nofun) (fun l' hl => ?_) (congrArg (· - 1)) (fun r => ?_)
    fun _ => Or.inl rfl) rfl rfl (fun _ => .refl _) (sameHist_lock ..)
    fun _ chan lk _ hf => absurd hf (hm chan lk)
  · exact ⟨hat.2.1, hat.2.2.1, hat.2.2.2.1⟩
  · simp [Know.has_owns, Know.has_run, hl]
  · have := hI.cpus.spin (.proc p) r
    rwa [hg] at this

/-! ### Who is executed -/

omit [DecidableEq C] in
/-- A process that is not running, and whose lock is free or held by a scheduler that has not
chosen it, is not executed. -/
theorem CpuInv.not_current (h : CpuInv s gs) (hst : (s.proc p).state ≠ .RUNNING)
    (hno : ∀ u d, s.mycpu u = some d → (gs u).Has (.proc p) →
      ∃ e st, u = .cpu e ∧ (gs u).stage = .picked p st) (c : C) :
    s.stack c ≠ some p ∧ s.cur c ≠ some p := by
  -- a process on a CPU is RUNNING, or it has its own lock
  have hstack : ∀ d, s.stack d ≠ some p := by
    intro d hd
    have htp := (h.link p d).mpr hd
    have hon : s.tp p ≠ none := by rw [htp]; exact nofun
    have hat : ProcAt (s.proc p) (s.tp p ≠ none) p (gs (.proc p)).stage := h.stage (.proc p)
    cases hg : (gs (.proc p)).stage <;> rw [hg] at hat
    case run => exact hst hat.2.1
    case owns q st =>
      obtain ⟨e, st', hu, -⟩ := hno (.proc p) d htp (Or.inr (by rw [hg, ← hat.1]; rfl))
      cases hu
    case off | fresh => exact hst (hat.2.1 hon)
    all_goals exact hat
  refine ⟨hstack c, fun hcur => ?_⟩
  have hat : CpuAt s c (gs (.cpu c)).stage := h.stage (.cpu c)
  cases hg : (gs (.cpu c)).stage <;> rw [hg] at hat
  case idle =>
    rw [hat.2] at hcur
    cases hcur
  case picked =>
    rw [hat.2.1] at hcur
    cases hcur
  case chosen =>
    rw [hat.2.1] at hcur
    cases hcur
    exact hst hat.2.2.1
  case switched =>
    rw [hat.1] at hcur
    cases hcur
    rcases hat.2 with hs | ⟨hs, -⟩
    · exact hstack c hs
    · obtain ⟨e, st', -, hu⟩ :=
        hno (.cpu c) c (by simp [State.mycpu, hs]) (Or.inr (by rw [hg]; rfl))
      rw [hg] at hu
      cases hu
  all_goals exact hat

omit [DecidableEq C] in
theorem CpuInv.off_of_tp (h : CpuInv s gs) (htp : s.tp p = none) :
    (gs (.proc p)).lk = none ∧
      ((gs (.proc p)).stage = .off p ∨ (gs (.proc p)).stage = .fresh p) := by
  constructor
  · by_contra hne
    have := (h.executed _ hne).1
    rw [State.mycpu, htp] at this
    cases this
  · have hat : ProcAt (s.proc p) (s.tp p ≠ none) p (gs (.proc p)).stage := h.stage (.proc p)
    cases hg : (gs (.proc p)).stage <;> rw [hg] at hat
    case run => exact absurd htp hat.1
    case owns => exact absurd htp hat.2.1
    case off => exact Or.inl (by rw [hat.1])
    case fresh => exact Or.inr (by rw [hat.1])
    all_goals exact hat.elim

/-! ### The scheduler -/

omit [DecidableEq C] in
theorem mycpu_cpu {d : C} (h : s.mycpu (.cpu d) = some c) : d = c ∧ s.stack c = none := by
  simp only [State.mycpu, Option.ite_none_right_eq_some, Option.some.injEq] at h
  exact ⟨h.2, h.2 ▸ h.1⟩

theorem safe_pick (hQ : ∀ st, Q () (.base (.picked p st))) :
    Obeys C initproc (.cpu c) (acquire (.proc p)) (.base .idle) Q := by
  refine safe_acquire (by simp [Know.Has, Know.base, Stage.plock]) fun s gs d hI hg hd hfree =>
    ⟨_, ?_, hQ (s.proc p).state⟩
  obtain ⟨rfl, hstack⟩ := mycpu_cpu hd
  have hat : CpuAt s c (gs (.cpu c)).stage := hI.cpus.stage (.cpu c)
  rw [hg] at hat
  refine hI.similar hg (hI.cpus.relock hg hd (Or.inl ⟨hfree, rfl⟩) ⟨hat.1, hat.2, rfl⟩
    (iff_of_true (Or.inr rfl) rfl) (fun l' hl => ?_) (congrArg (· + 1)) nofun nofun) rfl rfl
    (fun _ => .refl _) (sameHist_lock ..) nofun
  simp [Know.Has, Know.base, Stage.plock, hl.symm]

theorem safe_unpick (hQ : Q () (.base .idle)) :
    Obeys C initproc (.cpu c) (release (.proc p)) (.base (.picked p st)) Q := by
  refine safe_release (Or.inr rfl) fun s gs d hI hg hd hheld => ⟨_, ?_, hQ⟩
  obtain ⟨rfl, hstack⟩ := mycpu_cpu hd
  have hat : CpuAt s c (gs (.cpu c)).stage := hI.cpus.stage (.cpu c)
  rw [hg] at hat
  refine hI.similar hg (hI.cpus.relock hg hd (Or.inr ⟨hheld, rfl⟩) ⟨hat.1, hat.2.1⟩
    (iff_of_false (by simp [Know.Has, Know.base, Stage.plock]) nofun) (fun l' hl => ?_)
    (congrArg (· - 1)) nofun nofun) rfl rfl (fun _ => .refl _) (sameHist_lock ..) nofun
  simp [Know.Has, Know.base, Stage.plock, hl.symm]

theorem safe_lookState {Q : ProcState → Know N → Prop} (hQ : Q st (.base (.picked p st))) :
    Obeys C initproc (.cpu c) (look fun s => (s.proc p).state) (.base (.picked p st)) Q := by
  refine safe_look fun s gs d hI hg hd => ?_
  have hat : CpuAt s c (gs (.cpu c)).stage := hI.cpus.stage (.cpu c)
  rw [hg] at hat
  rwa [hat.2.2]

omit [DecidableEq C] in
theorem CpuInv.alone (h : CpuInv s gs) (ht : s.mycpu t = some c) (hl : (gs t).Has l) :
    ∀ u d, u ≠ t → s.mycpu u = some d → ¬ (gs u).Has l := fun _ _ hne hu hul =>
  hne (h.holder_unique ht hu hl hul)

omit [DecidableEq C] in
theorem CpuInv.nobody (h : CpuInv s gs) (hl : s.lock l = none) :
    ∀ u d, s.mycpu u = some d → ¬ (gs u).Has l := fun _ _ hu hul =>
  h.lock_of_has hu hul hl

/-- A scheduler chooses a process that is ready. -/
theorem safe_choose (hQ : Q () (.base (.chosen p))) :
    Obeys C initproc (.cpu c)
      (onCpu fun c s => some (.done ()
        ((s.setProc p { s.proc p with state := .RUNNING }).setCur c (some p))))
      (.base (.picked p .RUNNABLE)) Q := by
  refine safe_onCpu fun s gs d hI hg hd => ?_
  obtain ⟨rfl, hstack⟩ := mycpu_cpu hd
  have hcpus := hI.cpus
  have hat : CpuAt s c (gs (.cpu c)).stage := hcpus.stage (.cpu c)
  rw [hg] at hat
  have hhas : (gs (.cpu c)).Has (.proc p) := by rw [hg]; exact Or.inr rfl
  have hne : (s.proc p).state ≠ .RUNNING := by rw [hat.2.2]; exact nofun
  have halone := hcpus.alone hd hhas
  have hnot := hcpus.not_current hne fun u d hu hul => by
    have : u = .cpu c := not_not.mp fun hne => halone u d hne hu hul
    exact ⟨c, _, this, by rw [this, hg]; rfl⟩
  have htp : s.tp p = none := by
    by_contra htp
    obtain ⟨e, he⟩ := Option.ne_none_iff_exists'.mp htp
    exact (hnot e).1 ((hcpus.link p e).mp he)
  refine ⟨.base (.chosen p), ⟨hI.similar hg ?_ rfl rfl (fun q => ?_)
    ⟨⟨rfl, rfl, rfl, rfl⟩, rfl, rfl⟩ nofun, ?_⟩, hQ⟩
  · refine hcpus.restage hg hd rfl rfl nofun rfl rfl rfl rfl ?_ (at_frame (q := p) (fun r hr => ?_)
      rfl rfl (fun e he => ?_) (Or.inr halone) fun _ hq => ?_)
    · refine ⟨hstack, update_self .., ?_, htp⟩
      simp only [State.setCur, State.setProc_self]
    · exact s.setProc_of_ne _ hr
    · exact update_of_ne (fun h => he (by rw [h])) ..
    · -- it is not executed, so it is switched off or has never run
      simp only [State.setCur, State.setProc_self]
      rcases (hcpus.off_of_tp htp).2 with hs | hs
      · rw [hs] at hq ⊢
        exact ⟨rfl, fun _ => rfl, hq.2.2.1, Or.inr (Or.inl rfl)⟩
      · rw [hs] at hq ⊢
        refine ⟨rfl, fun _ => rfl, hq.2.2.1, nofun, fun hz => ?_⟩
        rcases hq.2.2.2.2 hz with h | h <;> rw [hat.2.2] at h <;> cases h
  · have hsim : Similar (s.proc p) { s.proc p with state := .RUNNING } :=
      ⟨rfl, rfl, by rw [hat.2.2]; rfl, nofun⟩
    exact hsim.setProc q
  · refine ⟨fun q hq hq' => ?_, fun _ _ h h' => absurd h' h, fun q hq => ?_, fun _ h => Or.inl h⟩
    · obtain rfl | hqp := eq_or_ne q p
      · exact hnot
      · simp only [State.setCur, s.setProc_of_ne _ hqp] at hq'
        exact absurd hq' hq
    · exact absurd (s.setProc_proj Proc.freed (by rfl) q) hq

omit [DecidableEq C] in
/-- Schedulers that hold the lock of another process do not mind what happens to `p`. -/
theorem frame_switch {d : C} (hproc : ∀ r, r ≠ p → s'.proc r = s.proc r)
    (htp : ∀ r, r ≠ p → s'.tp r = s.tp r)
    (hstack : s'.stack d = s.stack d) (hcur : s'.cur d = s.cur d)
    (hno : s.stack d = none → ¬ (gs (.cpu d)).Has (.proc p))
    (hat : CpuAt s d (gs (.cpu d)).stage) : CpuAt s' d (gs (.cpu d)).stage := by
  have hne : ∀ r, s.stack d = none → (gs (.cpu d)).stage.plock = some r → r ≠ p := by
    rintro r hs hr rfl
    exact hno hs (Or.inr (by rw [hr]; rfl))
  cases hg : (gs (.cpu d)).stage <;> rw [hg] at hat
  case idle =>
    simp only [CpuAt, hstack, hcur]
    exact hat
  case picked r st =>
    have hr := hne r hat.1 (by rw [hg]; rfl)
    simp only [CpuAt, hstack, hcur, hproc r hr]
    exact hat
  case chosen r =>
    have hr := hne r hat.1 (by rw [hg]; rfl)
    simp only [CpuAt, hstack, hcur, hproc r hr, htp r hr]
    exact hat
  case switched r =>
    simp only [CpuAt, hstack, hcur]
    refine ⟨hat.1, hat.2.imp_right fun h' => ?_⟩
    have hr := hne r h'.1 (by rw [hg]; rfl)
    rwa [hproc r hr, htp r hr]
  all_goals exact hat

/-- Processor `c` passes from thread `t` to thread `v`, with the locks it holds. -/
theorem CpuInv.switch (h : CpuInv s gs) {v : Thread C N} (ht : s.mycpu t = some c) (hv : v ≠ t)
    (hlink : ∀ p c, s'.tp p = some c ↔ s'.stack c = some p)
    (hstage : ∀ u, At s' u (update gs t g u).stage)
    (hexec : ∀ u e, s'.mycpu u = some e → u = v ∧ e = c ∨ u ≠ t ∧ s.mycpu u = some e)
    (hkeep : ∀ u, u ≠ t → (s.mycpu u).isSome = true → (s'.mycpu u).isSome = true)
    (hlock : s'.lock = s.lock) (hnoff : s'.noff = s.noff) (hlk : g.lk = none)
    (htl : (gs t).lk = none) (hvl : (gs v).lk = none)
    (hp : (gs t).stage.plock = (gs v).stage.plock) : CpuInv s' (update gs t g) := by
  refine ⟨hlink, hstage, fun u e hu l' => ?_, fun u e hu => ?_, fun u q => ?_, fun u hu => ?_⟩
  · rw [hlock]
    rcases hexec u e hu with ⟨rfl, rfl⟩ | ⟨hut, hu'⟩
    · rw [update_of_ne hv, Know.Has, hvl, ← hp, ← htl]
      exact h.locks t _ ht l'
    · rw [update_of_ne hut]
      exact h.locks u e hu' l'
  · rw [hnoff]
    rcases hexec u e hu with ⟨rfl, rfl⟩ | ⟨hut, hu'⟩
    · rw [update_of_ne hv, Know.count, hvl, ← hp, ← htl]
      exact h.noff t _ ht
    · rw [update_of_ne hut]
      exact h.noff u e hu'
  · obtain rfl | hut := eq_or_ne u t
    · rw [update_self, hlk]
      exact nofun
    · rw [update_of_ne hut]
      exact h.spin u q
  · obtain rfl | hut := eq_or_ne u t
    · rw [update_self] at hu
      exact absurd hlk hu
    · rw [update_of_ne hut] at hu ⊢
      obtain ⟨hx, hs⟩ := h.executed u hu
      exact ⟨hkeep u hut hx, hs⟩

omit [DecidableEq C] in
theorem proc_ne_cpu : Thread.proc p ≠ Thread.cpu c := nofun

omit [DecidableEq C] in
theorem cpu_ne {d : C} (h : d ≠ c) : (Thread.cpu d : Thread C N) ≠ .cpu c :=
  fun h' => h (by cases h'; rfl)

omit [DecidableEq C] in
theorem proc_ne (h : q ≠ p) : (Thread.proc q : Thread C N) ≠ .proc p :=
  fun h' => h (by cases h'; rfl)

/-- The scheduler switches to the process it has chosen. -/
theorem safe_swtch (hQ : Q () (.base (.switched p))) :
    Obeys C initproc (.cpu c) (swtch p) (.base (.chosen p)) Q := by
  refine safe_onCpu fun s gs d hI hg hd => ?_
  obtain ⟨rfl, hstack⟩ := mycpu_cpu hd
  have hcpus := hI.cpus
  have hat : CpuAt s c (gs (.cpu c)).stage := hcpus.stage (.cpu c)
  rw [hg] at hat
  obtain ⟨-, hcur, hrun, htp⟩ := hat
  have hhas : (gs (.cpu c)).Has (.proc p) := by rw [hg]; exact Or.inr rfl
  have hno : ∀ e, s.stack e ≠ some p := fun e he => by
    rw [(hcpus.link p e).mpr he] at htp
    cases htp
  obtain ⟨hlk, hstage⟩ := hcpus.off_of_tp htp
  refine ⟨.base (.switched p), ⟨hI.similar hg ?_ rfl rfl
    (fun q => .refl _) ⟨⟨rfl, rfl, rfl, rfl⟩, rfl, rfl⟩ nofun, ⟨fun _ h h' => absurd h' h,
      fun q e hq hq' => ?_, fun _ h => absurd rfl h, fun _ h => Or.inl h⟩⟩, hQ⟩
  · -- the CPU goes from the scheduler to `p`, with the lock of `p`
    refine hcpus.switch (v := .proc p) hd proc_ne_cpu (fun q e => ?_) (fun u => ?_)
      (fun u e hu => ?_)
      (fun u hut hu => ?_) rfl rfl rfl (by rw [hg]; rfl) hlk ?_
    · obtain rfl | hq := eq_or_ne q p
      · obtain rfl | he := eq_or_ne e c
        · simp
        · simp only [update_self, update_of_ne he]
          exact iff_of_false (fun h => he (Option.some.inj h).symm) (hno e)
      · obtain rfl | he := eq_or_ne e c
        · simp only [update_self, update_of_ne hq]
          refine iff_of_false (fun h => ?_) (fun h => hq (Option.some.inj h).symm)
          rw [(hcpus.link q _).mp h] at hstack
          cases hstack
        · simp only [update_of_ne he, update_of_ne hq]
          exact hcpus.link q e
    · cases u with
      | cpu d =>
        obtain rfl | hdc := eq_or_ne d c
        · rw [update_self]
          exact ⟨hcur, Or.inl (update_self ..)⟩
        · rw [update_of_ne (cpu_ne hdc)]
          refine frame_switch (s := s) (fun _ _ => rfl) (fun r hr => update_of_ne hr ..)
            (update_of_ne hdc ..) rfl (fun hs => ?_) (hcpus.stage (.cpu d))
          exact hcpus.alone hd hhas (.cpu d) d (cpu_ne hdc) (by simp [State.mycpu, hs])
      | proc q =>
        rw [update_of_ne proc_ne_cpu]
        have hp := hcpus.stage (.proc q)
        obtain rfl | hq := eq_or_ne q p
        · simp only [At, update_self] at hp ⊢
          rcases hstage with h | h <;> rw [h] at hp ⊢
          · exact ⟨rfl, fun _ => hrun, hp.2.2⟩
          · exact ⟨rfl, fun _ => hrun, hp.2.2⟩
        · simp only [At, update_of_ne hq] at hp ⊢
          exact hp
    · cases u with
      | cpu d =>
        obtain rfl | hdc := eq_or_ne d c
        · simp [State.mycpu] at hu
        · simp only [State.mycpu, update_of_ne hdc] at hu
          exact Or.inr ⟨cpu_ne hdc, hu⟩
      | proc q =>
        obtain rfl | hqp := eq_or_ne q p
        · simp only [State.mycpu, update_self, Option.some.injEq] at hu
          exact Or.inl ⟨rfl, hu.symm⟩
        · simp only [State.mycpu, update_of_ne hqp] at hu
          exact Or.inr ⟨proc_ne_cpu, hu⟩
    · cases u with
      | cpu d =>
        have hdc : d ≠ c := fun h => hut (by rw [h])
        simpa only [State.mycpu, update_of_ne hdc] using hu
      | proc q =>
        obtain rfl | hq := eq_or_ne q p
        · simp [State.mycpu]
        · simpa only [State.mycpu, update_of_ne hq] using hu
    · rw [hg]
      rcases hstage with h | h <;> rw [h] <;> rfl
  · obtain rfl | hqp := eq_or_ne q p
    · exact hno
    · obtain rfl | hec := eq_or_ne e c
      · simp only [update_self, Option.some.injEq] at hq'
        exact absurd hq'.symm hqp
      · simp only [update_of_ne hec] at hq'
        exact absurd hq' hq

theorem safe_back (hQ : ∀ st, Q () (.base (.picked p st))) :
    Obeys C initproc (.cpu c)
      (onCpu fun c s => some (.done () (s.setCur c none))) (.base (.switched p)) Q := by
  refine safe_onCpu fun s gs d hI hg hd => ?_
  obtain ⟨rfl, hstack⟩ := mycpu_cpu hd
  have hcpus := hI.cpus
  refine ⟨.base (.picked p (s.proc p).state), ⟨hI.similar hg ?_ rfl rfl
    (fun q => .refl _) ⟨⟨rfl, rfl, rfl, rfl⟩, rfl, rfl⟩ nofun,
    .of_same (fun _ => Or.inl rfl) rfl (fun _ => rfl) rfl⟩, hQ _⟩
  refine hcpus.restage hg hd rfl rfl nofun rfl rfl rfl rfl ⟨hstack, update_self .., rfl⟩
    (at_frame (q := p) (fun _ _ => rfl) rfl rfl (fun e he => ?_) (Or.inl rfl) fun _ h => h)
  exact update_of_ne (fun h => he (by rw [h])) ..

theorem safe_schedule :
    Obeys C initproc (.cpu c) (schedule p) (.base .idle) fun _ g => .base .idle = g := by
  refine Safe.seq (safe_pick fun st => ?_)
  refine Safe.seq (safe_lookState ?_)
  split_ifs with hr
  · subst hr
    refine Safe.seq (safe_choose ?_)
    refine Safe.seq (safe_swtch ?_)
    refine Safe.seq (safe_back fun st => ?_)
    exact safe_unpick rfl
  · exact safe_unpick rfl

theorem safe_scheduler {ps : List (Fin N)} :
    Obeys C initproc (.cpu c) (scheduler ps) (.base .idle) fun _ g => .base .idle = g := by
  induction ps with
  | nil => rfl
  | cons p ps ih =>
    refine Safe.bind safe_schedule ?_
    rintro _ _ rfl
    exact ih

/-! ### A process gives up its processor -/

/-- A process that has its own lock changes its own record. -/
theorem CpuInv.own (h : CpuInv s gs) {m m' : Mind N}
    {st' : ProcState} (hg : gs (.proc p) = ⟨.owns p st, lk, m⟩) (hst : pr.state = st')
    (hctx : pr.context = .kernel) (hne : st' ≠ .UNUSED ∧ st' ≠ .USED)
    (hc : s.mycpu (.proc p) = some c) :
    CpuInv (s.setProc p pr) (update gs (.proc p) ⟨.owns p st', lk, m'⟩) := by
  have hat := h.stage (.proc p)
  simp only [At, hg, ProcAt] at hat
  have hhas : (gs (.proc p)).Has (.proc p) := by rw [hg]; exact Know.has_owns.mpr (Or.inr rfl)
  refine h.restage hg hc rfl rfl (fun _ => Or.inr ⟨p, _, rfl⟩) rfl rfl rfl rfl ?_ (at_frame (q := p)
    (fun r hr => s.setProc_of_ne _ hr) rfl rfl (fun _ _ => rfl) (Or.inr (h.alone hc hhas))
    fun hp => absurd rfl hp)
  simp only [At, State.setProc_self]
  exact ⟨rfl, hat.2.1, hst, hctx, hne⟩

/-- A process that has its own lock changes its own record, in a way nobody notices. -/
theorem safe_own {f : Proc N → Proc N} {st' : ProcState}
    (hst : ∀ pr : Proc N, pr.state = st → (f pr).state = st' ∧ (f pr).context = pr.context ∧
      (f pr).freed = pr.freed ∧ Similar pr (f pr))
    (hne : st' ≠ .UNUSED ∧ st' ≠ .USED) (hrun : st' = .RUNNING → st = .RUNNING)
    (hQ : Q () ⟨.owns p st', lk, m⟩) :
    Obeys C initproc (.proc p) (modify fun s => s.setProc p (f (s.proc p)))
      ⟨.owns p st, lk, m⟩ Q := by
  refine safe_onCpu fun s gs c hI hg hc => ?_
  have hat := hI.cpus.stage (.proc p)
  simp only [At, hg, ProcAt] at hat
  obtain ⟨hf, hctx, hfreed, hsim⟩ := hst (s.proc p) hat.2.2.1
  refine ⟨⟨.owns p st', lk, m⟩, ⟨hI.similar hg (hI.cpus.own hg hf (hctx.trans hat.2.2.2.1) hne hc)
    rfl rfl hsim.setProc ⟨⟨rfl, rfl, rfl, rfl⟩, rfl, rfl⟩
      fun r _ _ hr _ => ⟨st', by cases hr; rfl⟩, .setProc ?_ hfreed⟩, hQ⟩
  rw [hf]
  by_cases hr : st' = .RUNNING
  · exact Or.inl (by rw [hr, hat.2.2.1, hrun hr])
  · exact Or.inr hr

/-- Where a thread is after `sched`. -/
def Stage.after (p : Fin N) : Context → Stage N
  | .kernel => .off p
  | .forkret => .fresh p
  | .zombie => .fresh p

/-- A process switches to the scheduler. -/
theorem safe_sched {next : Context}
    (hst : next = .kernel ∧ (st = .RUNNABLE ∨ st = .SLEEPING) ∨ next = .zombie ∧ st = .ZOMBIE)
    (hm : ∀ chan lk, m.fall ≠ some (chan, lk, false)) (hQ : Q () ⟨Stage.after p next, none, m⟩) :
    Obeys C initproc (.proc p) (sched p next) ⟨.owns p st, none, m⟩ Q := by
  refine safe_onCpu fun s gs c hI hg hc => ?_
  have hcpus := hI.cpus
  have hat := hcpus.stage (.proc p)
  simp only [At, hg, ProcAt] at hat
  obtain ⟨-, -, hstate, hctx, -⟩ := hat
  have hhas : (gs (.proc p)).Has (.proc p) := by rw [hg]; exact Know.has_owns.mpr (Or.inr rfl)
  have htp : s.tp p = some c := hc
  have hstack := (hcpus.link p c).mp htp
  obtain ⟨hcur, hsw⟩ := hcpus.cur_of_tp htp
  have hne : st ≠ .RUNNING := by
    rcases hst with ⟨-, rfl | rfl⟩ | ⟨-, rfl⟩ <;> simp
  have hnoff : s.noff c = 1 := by
    rw [hcpus.noff _ c hc, hg]
    rfl
  -- none of the panics: the lock is held, it is the only one, and `p` is not RUNNING
  rw [if_neg (not_not.mpr ((hcpus.locks _ c hc _).mpr hhas)), if_neg (not_not.mpr hnoff),
    if_neg (by rwa [hstate])]
  have hcl : (gs (.cpu c)).lk = none := by
    by_contra hlk
    have hx := (hcpus.executed _ hlk).1
    simp only [State.mycpu, hstack] at hx
    cases hx
  refine ⟨⟨Stage.after p next, none, m⟩, ⟨hI.similar hg ?_ rfl rfl (fun q => ?_)
    ⟨⟨rfl, rfl, rfl, rfl⟩, rfl, rfl⟩ fun _ chan lk _ hf => absurd hf (hm chan lk),
    ⟨fun q hq hq' => ?_, fun q e hq hq' => ?_, fun q hq => ?_, fun _ h => Or.inl h⟩⟩, hQ⟩
  · -- the CPU goes back to its scheduler, with the lock of `p`
    refine hcpus.switch (v := .cpu c) hc (Ne.symm proc_ne_cpu) (fun q e => ?_) (fun u => ?_)
      (fun u e hu => ?_) (fun u hut hu => ?_) rfl rfl rfl (by rw [hg]) hcl (by rw [hg, hsw]; rfl)
    · obtain rfl | hq := eq_or_ne q p
      · simp only [update_self]
        refine iff_of_false (by simp) fun h => ?_
        obtain rfl | he := eq_or_ne e c
        · rw [update_self] at h
          cases h
        · rw [update_of_ne he] at h
          have := (hcpus.link q e).mpr h
          rw [htp] at this
          exact he (Option.some.inj this).symm
      · simp only [update_of_ne hq]
        obtain rfl | he := eq_or_ne e c
        · simp only [update_self]
          refine iff_of_false (fun h => ?_) (by simp)
          rw [(hcpus.link q e).mp h] at hstack
          exact hq (Option.some.inj hstack)
        · simp only [update_of_ne he]
          exact hcpus.link q e
    · cases u with
      | cpu d =>
        rw [update_of_ne (Ne.symm proc_ne_cpu)]
        obtain rfl | hdc := eq_or_ne d c
        · rw [hsw]
          refine ⟨hcur, Or.inr ⟨update_self .., ?_, update_self ..⟩⟩
          simp only [State.setProc_self, hstate]
          exact hne
        · refine frame_switch (p := p) (fun r hr => s.setProc_of_ne _ hr)
            (fun r hr => update_of_ne hr ..) (update_of_ne hdc ..) rfl (fun hs => ?_)
            (hcpus.stage (.cpu d))
          exact hcpus.alone hc hhas (.cpu d) d (Ne.symm proc_ne_cpu) (by simp [State.mycpu, hs])
      | proc q =>
        obtain rfl | hq := eq_or_ne q p
        · simp only [At, update_self, State.setProc_self]
          rcases hst with ⟨rfl, h⟩ | ⟨rfl, rfl⟩
          · refine ⟨rfl, fun h => absurd rfl h, rfl, ?_⟩
            rcases h with rfl | rfl
            · exact Or.inl hstate
            · exact Or.inr (Or.inr hstate)
          · refine ⟨rfl, fun h => absurd rfl h, by simp, ?_, fun _ => Or.inl hstate⟩
            rw [hstate]
            simp
        · rw [update_of_ne (proc_ne hq)]
          have hp := hcpus.stage (.proc q)
          simp only [At, update_of_ne hq] at hp ⊢
          rwa [s.setProc_of_ne _ hq]
    · cases u with
      | cpu d =>
        obtain rfl | hdc := eq_or_ne d c
        · simp only [State.mycpu, update_self, if_true, Option.some.injEq] at hu
          exact Or.inl ⟨rfl, hu.symm⟩
        · simp only [State.mycpu, update_of_ne hdc] at hu
          exact Or.inr ⟨Ne.symm proc_ne_cpu, hu⟩
      | proc q =>
        obtain rfl | hqp := eq_or_ne q p
        · simp only [State.mycpu, update_self] at hu
          cases hu
        · simp only [State.mycpu, update_of_ne hqp] at hu
          exact Or.inr ⟨proc_ne hqp, hu⟩
    · cases u with
      | cpu d =>
        obtain rfl | hdc := eq_or_ne d c
        · simp [State.mycpu]
        · simpa only [State.mycpu, update_of_ne hdc] using hu
      | proc q =>
        have hqp : q ≠ p := fun h => hut (by rw [h])
        simpa only [State.mycpu, update_of_ne hqp] using hu
  · have hsim : Similar (s.proc p) { s.proc p with context := next } :=
      ⟨rfl, rfl, rfl, fun h => ⟨h, rfl⟩⟩
    exact hsim.setProc q
  · exact absurd ((s.setProc_proj Proc.state (by rfl) q).symm.trans hq') hq
  · obtain rfl | hec := eq_or_ne e c
    · simp only [update_self] at hq'
      cases hq'
    · simp only [update_of_ne hec] at hq'
      exact absurd hq' hq
  · exact absurd (s.setProc_proj Proc.freed (by rfl) q) hq

/-- A process that is executed again owns its lock, and is running. -/
theorem safe_resume {Q : ρ → Know N → Prop} (hf : ∀ c s s', f c s ≠ some (.again s'))
    (h : Obeys C initproc (.proc p) (onCpu f) ⟨.owns p .RUNNING, none, m⟩ Q) :
    Obeys C initproc (.proc p) (onCpu f) ⟨.off p, none, m⟩ Q := by
  refine safe_onCpu fun s gs c hI hg hc => ?_
  have hcpus := hI.cpus
  have hat := hcpus.stage (.proc p)
  simp only [At, hg, ProcAt] at hat
  have hon : s.tp p ≠ none := by
    rw [show s.tp p = some c from hc]
    simp
  have hI' : Inv initproc s (update gs (.proc p) ⟨.owns p .RUNNING, none, m⟩) := by
    refine hI.similar hg (hcpus.restage hg hc rfl rfl (by simp) rfl rfl rfl rfl ?_ fun _ _ h => h)
      rfl rfl (fun _ => .refl _) ⟨⟨rfl, rfl, rfl, rfl⟩, rfl, rfl⟩
      fun r _ _ hr _ => ⟨.RUNNING, by cases hr; rfl⟩
    exact ⟨rfl, hon, hat.2.1 hon, hat.2.2.1, by simp, by simp⟩
  have hstep := h s _ hI' (update_self ..)
  simp only [hc, Option.bind_some] at hstep
  cases hfs : f c s with
  | none => trivial
  | some o =>
    rw [hfs] at hstep
    cases o with
    | done r s' =>
      obtain ⟨g', ⟨h1, h2⟩, h3⟩ := hstep
      rw [update_idem] at h1
      exact ⟨g', ⟨h1, h2⟩, h3⟩
    | again s' => exact absurd hfs (hf c s s')
    | panic msg => exact hstep

theorem safe_yield (hm : m.fall = none) (hQ : Q () ⟨.run, none, m⟩) :
    Obeys C initproc (.proc p) yield ⟨.run, none, m⟩ Q := by
  refine Safe.seq (safe_thisproc ?_)
  have hm' : ∀ chan lk, m.fall ≠ some (chan, lk, false) := by
    rw [hm]
    exact nofun
  refine Safe.seq (safe_acquireOwn nofun ?_)
  refine Safe.seq (safe_own (f := fun pr => { pr with state := .RUNNABLE })
    (fun pr hpr => ⟨rfl, rfl, rfl, rfl, rfl, by rw [hpr]; rfl, nofun⟩) ⟨nofun, nofun⟩ nofun ?_)
  refine Safe.seq (safe_sched (Or.inl ⟨rfl, Or.inl rfl⟩) hm' ?_)
  refine safe_resume (fun c s s' => ?_) (safe_releaseOwn nofun hm' hQ)
  split_ifs <;> simp

theorem safe_preempt (hm : m.fall = none) (hQ : Q () ⟨.run, none, m⟩) :
    Obeys C initproc (.proc p) preempt ⟨.run, none, m⟩ Q := by
  refine Safe.seq (safe_look fun _ _ _ _ _ _ => ?_)
  split_ifs
  · exact safe_yield hm hQ
  · exact hQ

/-- A process runs for the first time. -/
theorem safe_forkret (hQ : Q () (.base .run)) :
    Obeys C initproc (.proc p) (forkret p) (.base (.fresh p)) Q := by
  refine Safe.seq (safe_onCpu fun s gs c hI hg hc => ?_)
  have hcpus := hI.cpus
  have hat := hcpus.stage (.proc p)
  simp only [At, hg, Know.base, ProcAt] at hat
  have hon : s.tp p ≠ none := by
    rw [show s.tp p = some c from hc]
    simp
  have hhas : (gs (.proc p)).Has (.proc p) := by
    rw [hg]
    exact Or.inr rfl
  refine ⟨⟨.owns p .RUNNING, none, .blank⟩,
    ⟨hI.similar hg (hcpus.restage hg hc rfl rfl (by simp) rfl rfl
    rfl rfl ?_ (at_frame (q := p) (fun r hr => s.setProc_of_ne _ hr) rfl rfl (fun _ _ => rfl)
    (Or.inr (hcpus.alone hc hhas)) fun h => absurd rfl h)) rfl rfl
    (Similar.setProc ⟨rfl, rfl, rfl, fun h => ⟨h, rfl⟩⟩) ⟨⟨rfl, rfl, rfl, rfl⟩, rfl, rfl⟩
    (by rintro _ _ _ _ ⟨⟩),
    .setProc (Or.inl rfl) rfl⟩, safe_releaseOwn (by simp) (by rintro _ _ ⟨⟩) hQ⟩
  simp only [At, State.setProc_self]
  exact ⟨rfl, hon, hat.2.1 hon, rfl, by simp, by simp⟩

/-! ### Changing another process -/

theorem ProcAt.congr {pr pr' : Proc N} {on : Prop} {x : Stage N} (h : ProcAt pr on p x)
    (hs : pr'.state = pr.state) (hc : pr'.context = pr.context) : ProcAt pr' on p x := by
  cases x <;> simp only [ProcAt, hs, hc] at h ⊢ <;> exact h

/-- A step that changes another process: its state changes only while its lock is free. -/
theorem CpuInv.setOther (h : CpuInv s gs) {g0 : Know N} (hg : gs t = g0) (ht : s.mycpu t = some c)
    (hproc : ∀ r, r ≠ q → s'.proc r = s.proc r) (htp : s'.tp = s.tp) (hstack : s'.stack = s.stack)
    (hcur : s'.cur = s.cur) (hlock : s'.lock = s.lock) (hnoff : s'.noff = s.noff)
    (hs : g.stage = g0.stage) (hl : g.lk = g0.lk)
    (hfree : (s'.proc q).state = (s.proc q).state ∨ s.lock (.proc q) = none)
    (hq : ProcAt (s.proc q) (s.tp q ≠ none) q (gs (.proc q)).stage →
      ProcAt (s'.proc q) (s.tp q ≠ none) q (gs (.proc q)).stage) :
    CpuInv s' (update gs t g) := by
  subst hg
  have hat : ∀ u, At s' u (gs u).stage := by
    intro u
    have hfr : ∀ v, v ≠ .proc q → At s v (gs v).stage → At s' v (gs v).stage :=
      at_frame (q := q) hproc htp hstack (fun d _ => by rw [hcur])
        (hfree.imp_right fun hf v d _ hv => h.nobody hf v d hv) fun h' => absurd rfl h'
    by_cases hu : u = .proc q
    · subst hu
      have := hq (h.stage (.proc q))
      rwa [← htp] at this
    · exact hfr u hu (h.stage u)
  refine h.restage rfl ht hl (by rw [hs]) ?_ htp hstack hlock hnoff (by rw [hs]; exact hat t)
    fun u _ _ => hat u
  rw [hl, hs]
  exact fun hlk => (h.executed t hlk).2

omit [DecidableEq C] in
/-- Where a process is that is not alive. -/
theorem CpuInv.fresh_of_kind (h : CpuInv s gs) (hfree : s.lock (.proc q) = none)
    (hk : (s.proc q).state.kind ≠ .live) : (gs (.proc q)).stage = .fresh q ∧ s.tp q = none := by
  have hat : ProcAt (s.proc q) (s.tp q ≠ none) q (gs (.proc q)).stage := h.stage (.proc q)
  have hrun : (s.proc q).state ≠ .RUNNING := fun h' => hk (by rw [h']; rfl)
  cases hg : (gs (.proc q)).stage <;> rw [hg] at hat
  case run => exact absurd hat.2.1 hrun
  case owns =>
    obtain ⟨d, hd⟩ := Option.ne_none_iff_exists'.mp hat.2.1
    exact absurd (Or.inr (by rw [hg, ← hat.1]; rfl)) (h.nobody hfree (.proc q) d hd)
  case off => rcases hat.2.2.2 with h' | h' | h' <;> exact absurd (by rw [h']; rfl) hk
  case fresh => exact ⟨by rw [hat.1], not_not.mp fun hon => hrun (hat.2.1 hon)⟩
  all_goals exact hat.elim

/-- A section under the lock of `q` that changes it in a way nobody notices. -/
theorem Inv.touch (h : Inv initproc s gs) (ht : s.mycpu t = some c)
    (hfree : s.lock (.proc q) = none) (hsim : Similar (s.proc q) pr)
    (hstate : pr.state = (s.proc q).state ∨ (s.proc q).state = .SLEEPING ∧ pr.state = .RUNNABLE)
    (hctx : pr.context = (s.proc q).context) (hfreed : pr.freed = (s.proc q).freed) :
    Inv initproc (s.setProc q pr) (update gs t (gs t)) ∧ Guar s (s.setProc q pr) := by
  have hcpus := h.cpus
  refine ⟨h.similar rfl (hcpus.setOther rfl ht (fun r hr => s.setProc_of_ne _ hr) rfl rfl rfl
    rfl rfl rfl rfl
    (Or.inr hfree) fun hat => ?_) rfl rfl hsim.setProc ⟨⟨rfl, rfl, rfl, rfl⟩, rfl, rfl⟩
    fun r chan lk hr hf => ?_, .setProc ?_ hfreed⟩
  · rw [s.setProc_self]
    rcases hstate with hs | ⟨hs, hs'⟩
    · exact hat.congr hs hctx
    · -- a process that sleeps is switched off
      have hrun : (s.proc q).state ≠ .RUNNING := by rw [hs]; exact nofun
      cases hg : (gs (.proc q)).stage <;> rw [hg] at hat
      case off =>
        exact ⟨hat.1, fun hon => absurd (hat.2.1 hon) hrun, hctx.trans hat.2.2.1, Or.inl hs'⟩
      case run => exact absurd hat.2.1 hrun
      case owns =>
        obtain ⟨d, hd⟩ := Option.ne_none_iff_exists'.mp hat.2.1
        exact absurd (Or.inr (by rw [hg, ← hat.1]; rfl)) (hcpus.nobody hfree (.proc q) d hd)
      case fresh => exact absurd hs hat.2.2.2.1
      all_goals exact hat
  · subst hr
    exact h.sleeps.dropping r chan lk hf
  · rcases hstate with hs | ⟨-, hs⟩
    · exact Or.inl hs
    · exact Or.inr (by rw [hs]; exact nofun)

end Xv6.Sched
