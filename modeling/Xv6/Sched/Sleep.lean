import Xv6.Sched.Rules

/-!
# Rules for sleeping and waking

A process that goes to sleep releases the lock of its condition only after it has
taken its own, and a process that wakes others looks at each of them under that
one's lock.  So whoever holds the lock of the condition and has looked at a
process knows that it does not sleep (`Mind.calm`), for as long as the lock is
held: to fall asleep the process would have to take the lock first.

## Main results

* `Inv.own_step` — a step of a process that changes its own record and what it has in mind.
* `safe_acquireSpin`, `safe_releaseSpin`, `safe_sleep`, `safe_wakeup`, `safe_kkillFrom`.
-/


namespace Xv6.Sched

open Conc Function

variable {C : Type} [DecidableEq C] {N : ℕ} {s s' : State C N} {t u : Thread C N} {c : C}
  {p q : Fin N} {initproc : Fin N} {gs : Thread C N → Know N} {g : Know N} {ρ : Type} {l lk : Lk N}
  {st : ProcState} {m : Mind N} {chan : Chan N}

/-! ### A process changes its mind -/

/-- What a process may know about its family. -/
structure Facts.Hold (f : Facts N) (s : State C N) (p : Fin N) : Prop where
  clear : ∀ q, f.clear q → ¬ ((s.proc q).parent = some p ∧ (s.proc q).state.kind = .zombie)
  childless : ∀ q, f.childless q → (s.proc q).parent ≠ some p
  known : ∀ o, f.parent = some o → (s.proc p).parent = o

omit [DecidableEq C] in
theorem Facts.none_hold (s : State C N) (p : Fin N) : (Facts.none : Facts N).Hold s p :=
  ⟨fun _ h => h.elim, fun _ h => h.elim, nofun⟩

omit [DecidableEq C] in
theorem FamilyInv.hold (h : FamilyInv initproc s gs) (p : Fin N) :
    (gs (.proc p)).mind.facts.Hold s p := ⟨h.clear p, h.childless p, h.known p⟩

/-- A step of process `p` that changes its own record, its locks and what it has in mind, and no
other process. -/
theorem Inv.own_step (h : Inv initproc s gs) {g0 : Know N} (hg : gs (.proc p) = g0)
    (hc : CpuInv s' (update gs (.proc p) g))
    (hp : ∀ q, q ≠ p → s'.proc q = s.proc q) (hpar : (s'.proc p).parent = (s.proc p).parent)
    (hexit : (s'.proc p).exit = (s.proc p).exit)
    (hkind : (s'.proc p).state.kind = (s.proc p).state.kind) (hh : SameHist s s')
    (hsleep : (s'.proc p).state = .SLEEPING → ∃ chan lk,
      g.mind.fall = some (chan, lk, true) ∧ (s'.proc p).chan = some chan)
    (hfall : g.mind.fall ≠ none → g.lk = none)
    (hdrop : ∀ chan lk, g.mind.fall = some (chan, lk, false) → ∃ st, g.stage = .owns p st)
    (hcalm : ∀ lk chan q, g.lk = some lk → g.mind.calm chan q → ¬ Waits s gs q chan lk)
    (hwait : ∀ chan lk, Waiting (s'.proc p).state g.mind.fall chan lk →
      Waits s gs p chan lk ∨ g0.lk = some lk ∧
        (∀ k l n, g.mind.test = some (k, l, n) →
          chan = .other k ∧ lk = .other l ∧ n = s.woken k l) ∧
        (chan = .proc p → lk = .wait_lock ∧ ∀ q, g0.mind.facts.clear q))
    (htest : g.mind.test = g0.mind.test)
    (harmed : g.mind.armed = true → ∃ k l,
      g.mind.test = some (k, l, s.woken k l) ∧ g.lk = some (.other l))
    (hkid : g.mind.kid = g0.mind.kid) (hgot : g.mind.got = g0.mind.got)
    (hholder : g.mind.facts ≠ .none → g.lk = some .wait_lock) (hfacts : g.mind.facts.Hold s p)
    (howes : ∀ q, g0.mind.facts.owes q → g.mind.facts.owes q ∨
      ¬ Waits s gs q (.proc q) .wait_lock) : Inv initproc s' (update gs (.proc p) g) := by
  subst hg
  have hall : ∀ {β : Type} (f : Proc N → β), f (s'.proc p) = f (s.proc p) →
      ∀ q, f (s'.proc q) = f (s.proc q) := by
    intro β f hf q
    by_cases hq : q = p
    · rw [hq, hf]
    · rw [hp q hq]
  have hk := hall (fun pr => pr.state.kind) hkind
  have hpr := hall Proc.parent hpar
  have hkids : ∀ u, (update gs (.proc p) g u).mind.kid = (gs u).mind.kid :=
    update_proj (fun g : Know N => g.mind.kid) hkid
  have hgots : ∀ u, (update gs (.proc p) g u).mind.got = (gs u).mind.got :=
    update_proj (fun g : Know N => g.mind.got) hgot
  have htests : ∀ u, (update gs (.proc p) g u).mind.test = (gs u).mind.test :=
    update_proj (fun g : Know N => g.mind.test) htest
  -- nobody else starts to wait
  have hw : ∀ q chan lk, q ≠ p → (Waits s' (update gs (.proc p) g) q chan lk ↔
      Waits s gs q chan lk) := by
    intro q chan lk hq
    unfold Waits
    rw [update_of_ne (proc_ne hq), hp q hq]
  refine ⟨hc, ⟨fun q hs => ?_, fun u hu => ?_, fun q chan lk hf => ?_,
    fun u lk chan q hlk hcm hwt => ?_, fun q => ?_,
    fun u hu => ?_, fun q chan lk hwt => ?_, fun q lk hwt => ?_⟩, ⟨?_, ?_, ?_, ?_, fun u hu => ?_,
    fun q z hz => ?_,
    fun q z hz => ?_, fun q o ho => ?_, fun q z hz hzk hwt => ?_⟩,
    h.hist.congr hgots hk (hall Proc.exit hexit) hh.toSameLog⟩
  · obtain rfl | hq := eq_or_ne q p
    · rw [update_self]
      exact hsleep hs
    · rw [update_of_ne (proc_ne hq)]
      rw [hp q hq] at hs ⊢
      exact h.sleeps.sleeping q hs
  · obtain rfl | hup := eq_or_ne u (.proc p)
    · rw [update_self] at hu ⊢
      exact hfall hu
    · rw [update_of_ne hup] at hu ⊢
      exact h.sleeps.falling u hu
  · obtain rfl | hq := eq_or_ne q p
    · rw [update_self] at hf ⊢
      exact hdrop chan lk hf
    · rw [update_of_ne (proc_ne hq)] at hf ⊢
      exact h.sleeps.dropping q chan lk hf
  · obtain rfl | hup := eq_or_ne u (.proc p)
    · rw [update_self] at hlk hcm
      by_cases hq : q = p
      · -- a process that holds a lock does not wait
        subst hq
        unfold Waits at hwt
        rw [update_self] at hwt
        have hne : g.mind.fall ≠ none := by
          rcases hwt with h' | ⟨h', -⟩ <;> rw [h'] <;> exact nofun
        rw [hfall hne] at hlk
        cases hlk
      · exact hcalm lk chan q hlk hcm ((hw q chan lk hq).mp hwt)
    · rw [update_of_ne hup] at hlk hcm
      refine h.sleeps.calm u lk chan q hlk hcm ?_
      obtain rfl | hq := eq_or_ne q p
      · unfold Waits at hwt
        rw [update_self] at hwt
        rcases hwait chan lk hwt with hold | ⟨hmine, -⟩
        · exact hold
        · exact absurd (h.cpus.lk_unique hmine hlk) hup
      · exact (hw q chan lk hq).mp hwt
  · rw [htests, hh.test]
    exact h.sleeps.test q
  · rw [hh.woken]
    obtain rfl | hup := eq_or_ne u (.proc p)
    · rw [update_self] at hu ⊢
      exact harmed hu
    · rw [update_of_ne hup] at hu ⊢
      exact h.sleeps.armed u hu
  · intro k l n htq
    rw [htests] at htq
    rw [hh.woken]
    obtain rfl | hq := eq_or_ne q p
    · unfold Waits at hwt
      rw [update_self] at hwt
      rcases hwait chan lk hwt with hold | ⟨-, hcond, -⟩
      · exact h.sleeps.waits _ chan lk hold k l n htq
      · exact hcond k l n (htest.trans htq)
    · exact h.sleeps.waits q chan lk ((hw q chan lk hq).mp hwt) k l n htq
  · obtain rfl | hq := eq_or_ne q p
    · unfold Waits at hwt
      rw [update_self] at hwt
      rcases hwait _ lk hwt with hold | ⟨-, -, hclear⟩
      · exact h.sleeps.waitlock _ lk hold
      · exact (hclear rfl).1
    · exact h.sleeps.waitlock q lk ((hw q _ lk hq).mp hwt)
  · rw [hk]
    exact h.family.init
  · simpa only [hk, hpr] using h.family.parent
  · simpa only [hk, hpr, hkids] using h.family.kid
  · simpa only [hkids] using h.family.kid_inj
  · obtain rfl | hup := eq_or_ne u (.proc p)
    · rw [update_self] at hu ⊢
      exact hholder hu
    · rw [update_of_ne hup] at hu ⊢
      exact h.family.holder u hu
  · rw [hk, hpr]
    obtain rfl | hq := eq_or_ne q p
    · rw [update_self] at hz
      exact hfacts.clear z hz
    · rw [update_of_ne (proc_ne hq)] at hz
      exact h.family.clear q z hz
  · rw [hpr]
    obtain rfl | hqp := eq_or_ne q p
    · rw [update_self] at hz
      exact hfacts.childless z hz
    · rw [update_of_ne (proc_ne hqp)] at hz
      exact h.family.childless q z hz
  · rw [hpr]
    obtain rfl | hqp := eq_or_ne q p
    · rw [update_self] at ho
      exact hfacts.known o ho
    · rw [update_of_ne (proc_ne hqp)] at ho
      exact h.family.known q o ho
  · rw [hpr] at hz
    rw [hk] at hzk
    -- the process that starts to wait has no zombie
    have hold : Waits s gs q (.proc q) .wait_lock := by
      obtain rfl | hq := eq_or_ne q p
      · unfold Waits at hwt
        rw [update_self] at hwt
        rcases hwait _ _ hwt with hold | ⟨-, -, hclear⟩
        · exact hold
        · exact absurd ⟨hz, hzk⟩ (h.family.clear _ z ((hclear rfl).2 z))
      · exact (hw q _ _ hq).mp hwt
    obtain ⟨u, hu⟩ := h.family.zombies q z hz hzk hold
    obtain rfl | hup := eq_or_ne u (.proc p)
    · exact ⟨.proc p, by rw [update_self]; exact (howes q hu).resolve_right (not_not.mpr hold)⟩
    · exact ⟨u, by rw [update_of_ne hup]; exact hu⟩

/-! ### Spinlocks -/

/-- What a process has in mind when it does not hold a lock. -/
def Mind.rest (m : Mind N) : Mind N :=
  { m with calm := fun _ _ => False, facts := .none, armed := false }

omit [DecidableEq C] in
theorem Inv.owes_nothing (h : Inv initproc s gs) (hg : gs t = g) (hl : g.lk = none) (q : Fin N) :
    ¬ g.mind.facts.owes q := by
  subst hg
  intro ho
  have hne : (gs t).mind.facts ≠ .none := by
    intro hf
    rwa [hf] at ho
  have := h.family.holder t hne
  rw [hl] at this
  cases this

variable {Q : Unit → Know N → Prop}

theorem safe_acquireSpin (hlk : ∀ q, lk ≠ .proc q)
    (hfall : m.fall = none) (hQ : Q () ⟨.run, some lk, m.rest⟩) :
    Obeys C initproc (.proc p) (acquire lk) ⟨.run, none, m⟩ Q := by
  refine safe_acquire (by rw [Know.has_run]; exact nofun) fun s gs c hI hg hc hfree => ⟨_, ?_, hQ⟩
  have hat := hI.cpus.stage (.proc p)
  rw [hg] at hat
  have hcpu := hI.cpus.relock (g := ⟨.run, some lk, m.rest⟩) hg hc (Or.inl ⟨hfree, rfl⟩) hat
    (iff_of_true (Or.inl rfl) rfl) (fun l' hl => ?_) (congrArg (· + 1))
    (fun q hq => hlk q (Option.some.inj hq)) fun _ => Or.inl rfl
  · have hrun : (s.proc p).state = .RUNNING := hat.2.1
    refine hI.own_step hg hcpu (fun _ _ => rfl) rfl rfl rfl (sameHist_lock ..) (fun hs => ?_)
      (fun hf => absurd hfall hf) (fun _ _ hf => ?_) (fun _ _ _ _ hcm => hcm.elim)
      (fun ch l hw => ?_) rfl nofun rfl rfl (fun hf => absurd rfl hf) (Facts.none_hold s p)
      fun q hq => absurd hq (hI.owes_nothing hg rfl q)
    · rw [show ((s.setLock lk (some c)).setNoff c (s.noff c + 1)).proc p = s.proc p from rfl,
        hrun] at hs
      cases hs
    · rw [show (Mind.rest m).fall = none from hfall] at hf
      cases hf
    · have hf : (Mind.rest m).fall = none := hfall
      rcases hw with hw | ⟨hw, -⟩ <;> rw [hf] at hw <;> cases hw
  · simp [Know.has_run, hl.symm]

variable {fall : Option (Chan N × Lk N × Bool)}

/-- A process releases the lock of a condition; it may be about to sleep. -/
theorem safe_releaseFall {x : Stage N} (hlk : ∀ q, lk ≠ .proc q)
    (hx : x = .run ∧ fall = none ∨ ∃ st, st ≠ .SLEEPING ∧ x = .owns p st)
    (howes : ∀ q, ¬ m.facts.owes q)
    (hfall : fall = none ∨ ∃ chan, fall = some (chan, lk, false) ∧
      (∀ k l n, m.test = some (k, l, n) → chan = .other k ∧ lk = .other l ∧ m.armed = true) ∧
      (chan = .proc p → lk = .wait_lock ∧ ∀ q, m.facts.clear q))
    (hQ : Q () ⟨x, none, { m.rest with fall := fall }⟩) :
    Obeys C initproc (.proc p) (release lk) ⟨x, some lk, m⟩ Q := by
  refine safe_release (Or.inl rfl) fun s gs c hI hg hc hheld => ⟨_, ?_, hQ⟩
  have hat := hI.cpus.stage (.proc p)
  rw [hg] at hat
  have hns : (s.proc p).state ≠ .SLEEPING := by
    rcases hx with ⟨rfl, -⟩ | ⟨st, hst, rfl⟩
    · rw [show (s.proc p).state = .RUNNING from hat.2.1]
      exact nofun
    · rwa [show (s.proc p).state = st from hat.2.2.1]
  have hcpu := hI.cpus.relock (g := ⟨x, none, { m.rest with fall := fall }⟩) (n := s.noff c - 1)
    hg hc (Or.inr ⟨hheld, rfl⟩) hat (iff_of_false ?_ nofun) (fun l' hl => ?_) ?_ nofun nofun
  · refine hI.own_step hg hcpu (fun _ _ => rfl) rfl rfl rfl (sameHist_lock ..)
      (fun hs => absurd hs hns) (fun _ => rfl) (fun _ _ hf => ?_) nofun (fun ch l hw => ?_)
      rfl nofun rfl rfl (fun hf => absurd rfl hf) (Facts.none_hold s p)
      fun q hq => absurd hq (howes q)
    · rcases hx with ⟨-, rfl⟩ | ⟨st, -, rfl⟩
      · cases hf
      · exact ⟨st, rfl⟩
    -- who falls asleep has tested its condition under this lock
    rcases hfall with rfl | ⟨chan, rfl, htest, hclear⟩
    · rcases hw with hw | ⟨hw, -⟩ <;> cases hw
    · rcases hw with hw | ⟨hw, -⟩
      · cases hw
        refine Or.inr ⟨rfl, fun k l n hkl => ?_, hclear⟩
        obtain ⟨rfl, rfl, ha⟩ := htest k l n hkl
        refine ⟨rfl, rfl, ?_⟩
        obtain ⟨k', l', ht', -⟩ := hI.sleeps.armed (.proc p) (by rw [hg]; exact ha)
        rw [hg] at ht'
        have : some (k, l, n) = some (k', l', s.woken k' l') := hkl.symm.trans ht'
        cases this
        rfl
      · cases hw
  · simp [Know.Has, fun q => (hlk q).symm]
  · simp [Know.Has, hl.symm]
  · simp only [Know.count, Option.toList_some, Option.toList_none, List.length_singleton,
      List.length_nil]
    omega

theorem safe_releaseSpin (hlk : ∀ q, lk ≠ .proc q)
    (howes : ∀ q, ¬ m.facts.owes q) (hfall : m.fall = none) (hQ : Q () ⟨.run, none, m.rest⟩) :
    Obeys C initproc (.proc p) (release lk) ⟨.run, some lk, m⟩ Q := by
  refine safe_releaseFall hlk (Or.inl ⟨rfl, hfall⟩) howes (Or.inl hfall) ?_
  exact hQ

/-! ### Sleeping -/

/-- The process marks itself as sleeping. -/
theorem safe_mark
    (hQ : Q () ⟨.owns p .SLEEPING, none, { m.rest with fall := some (chan, lk, true) }⟩) :
    Obeys C initproc (.proc p)
      (modify fun s => s.setProc p { s.proc p with chan := some chan, state := .SLEEPING })
      ⟨.owns p .RUNNING, none, { m.rest with fall := some (chan, lk, false) }⟩ Q := by
  refine safe_onCpu fun s gs c hI hg hc => ?_
  have hat := hI.cpus.stage (.proc p)
  simp only [At, hg, ProcAt] at hat
  have hcpu : CpuInv (s.setProc p { s.proc p with chan := some chan, state := .SLEEPING })
      (update gs (.proc p) ⟨.owns p .SLEEPING, none,
        { m.rest with fall := some (chan, lk, true) }⟩) :=
    hI.cpus.own hg rfl hat.2.2.2.1 ⟨by simp, by simp⟩ hc
  refine ⟨_, ⟨hI.own_step hg hcpu (fun q hq => s.setProc_of_ne _ hq) (by rw [s.setProc_self])
    (by rw [s.setProc_self]; rfl) ?_ ⟨⟨rfl, rfl, rfl, rfl⟩, rfl, rfl⟩
    (fun _ => ⟨chan, lk, rfl, by rw [s.setProc_self]⟩) (fun _ => rfl) (by simp) (by simp)
    (fun ch l hw => ?_)
    rfl (by rintro ⟨⟩) rfl rfl (fun hf => absurd rfl hf) (Facts.none_hold s p)
    fun q hq => absurd hq (hI.owes_nothing hg rfl q), .setProc (Or.inr (by simp)) rfl⟩, hQ⟩
  · rw [s.setProc_self, hat.2.2.1]
    rfl
  · refine Or.inl ?_
    unfold Waits
    rw [hg]
    rcases hw with hw | ⟨hw, -⟩
    · cases hw
    · cases hw
      exact Or.inl rfl

/-- The process has been woken, and tidies up. -/
theorem safe_unmark (hQ : Q () ⟨.owns p .RUNNING, none, { m.rest with fall := none }⟩) :
    Obeys C initproc (.proc p)
      (modify fun s => s.setProc p { s.proc p with chan := none })
      ⟨.owns p .RUNNING, none, { m.rest with fall := fall }⟩ Q := by
  refine safe_onCpu fun s gs c hI hg hc => ?_
  have hat := hI.cpus.stage (.proc p)
  simp only [At, hg, ProcAt] at hat
  have hcpu : CpuInv (s.setProc p { s.proc p with chan := none })
      (update gs (.proc p) ⟨.owns p .RUNNING, none, { m.rest with fall := none }⟩) :=
    hI.cpus.own hg hat.2.2.1 hat.2.2.2.1 ⟨by simp, by simp⟩ hc
  refine ⟨_, ⟨hI.own_step hg hcpu (fun q hq => s.setProc_of_ne _ hq) (by rw [s.setProc_self])
    (by rw [s.setProc_self]; rfl) (by rw [s.setProc_self])
    ⟨⟨rfl, rfl, rfl, rfl⟩, rfl, rfl⟩ (fun hs => ?_) (fun _ => rfl) (by simp) (by simp)
      (fun ch l hw => ?_)
    rfl (by rintro ⟨⟩) rfl rfl (fun hf => absurd rfl hf) (Facts.none_hold s p)
    fun q hq => absurd hq (hI.owes_nothing hg rfl q), .setProc (Or.inl rfl) rfl⟩, hQ⟩
  · rw [s.setProc_self, hat.2.2.1] at hs
    cases hs
  · rcases hw with hw | ⟨hw, -⟩ <;> cases hw

/-- **Sleeping.**  The process holds the lock again when `sleep` returns, and its own is free. -/
theorem safe_sleep (hlk : ∀ q, lk ≠ .proc q) (howes : ∀ q, ¬ m.facts.owes q)
    (htest : ∀ k l n, m.test = some (k, l, n) → chan = .other k ∧ lk = .other l ∧ m.armed = true)
    (hclear : chan = .proc p → lk = .wait_lock ∧ ∀ q, m.facts.clear q)
    (hQ : Q () ⟨.run, some lk, { m.rest with fall := none }⟩) :
    Obeys C initproc (.proc p) (sleep chan lk) ⟨.run, some lk, m⟩ Q := by
  refine Safe.seq (safe_thisproc ?_)
  refine Safe.seq (safe_acquireOwn (fun h => hlk p (Option.some.inj h)) ?_)
  refine Safe.seq (safe_releaseFall hlk (Or.inr ⟨.RUNNING, nofun, rfl⟩) howes
    (Or.inr ⟨chan, rfl, htest, hclear⟩) ?_)
  refine Safe.seq (safe_mark ?_)
  refine Safe.seq (safe_sched (Or.inl ⟨rfl, Or.inr rfl⟩) nofun ?_)
  refine Safe.seq (safe_resume nofun (safe_unmark ?_))
  refine Safe.seq (safe_releaseOwn nofun nofun ?_)
  refine Safe.seq (safe_preempt rfl ?_)
  refine Safe.seq (safe_acquireSpin hlk rfl ?_)
  refine safe_onCpu fun s gs c hI hg hc => ⟨_, ⟨hI.similar (g := gs (.proc p)) rfl ?_ rfl rfl
    (fun _ => .refl _) ⟨⟨rfl, rfl, rfl, rfl⟩, rfl, rfl⟩ fun q ch l hq =>
      ?_, ?_⟩, by rw [hg]; exact hQ⟩
  · rw [update_eq_self]
    exact { hI.cpus with }
  · cases hq
    exact hI.sleeps.dropping p ch l
  · refine ⟨fun _ h h' => absurd h' h, fun _ _ h h' => absurd h' h, fun _ h => absurd rfl h,
      fun w hw => ?_⟩
    rcases List.mem_append.mp hw with hw | hw
    · exact Or.inl hw
    · rw [List.mem_singleton.mp hw]
      refine Or.inr fun l => (hI.cpus.locks _ c hc l).trans ?_
      rw [hg, Know.has_run, Option.some.injEq, eq_comm]

/-! ### Waking -/

theorem CpuInv.remind (h : CpuInv s gs) {g0 : Know N} (hg : gs t = g0) (hs : g.stage = g0.stage)
    (hl : g.lk = g0.lk) : CpuInv s (update gs t g) := by
  have hstage : ∀ u, (update gs t g u).stage = (gs u).stage := update_proj_of_eq hg _ hs
  have hlk : ∀ u, (update gs t g u).lk = (gs u).lk := update_proj_of_eq hg _ hl
  have hhas : ∀ u l, (update gs t g u).Has l ↔ (gs u).Has l := by
    intro u l
    simp only [Know.Has, hstage, hlk]
  have hcount : ∀ u, (update gs t g u).count = (gs u).count := by
    intro u
    simp only [Know.count, hstage, hlk]
  refine ⟨h.link, ?_, ?_, ?_, ?_, ?_⟩
  · simpa only [hstage] using h.stage
  · simpa only [hhas] using h.locks
  · simpa only [hcount] using h.noff
  · simpa only [hlk] using h.spin
  · simpa only [hlk, hstage] using h.executed

/-- A process changes what it has in mind, and nothing else. -/
theorem Inv.remind (h : Inv initproc s gs) {lk : Option (Lk N)} {m' : Mind N} {x : Stage N}
    (hg : gs (.proc p) = ⟨x, lk, m⟩)
    (hcalm : ∀ l chan q, lk = some l → m'.calm chan q → ¬ Waits s gs q chan l)
    (hsame : m'.fall = m.fall ∧ m'.test = m.test ∧ m'.armed = m.armed ∧ m'.kid = m.kid ∧
      m'.got = m.got)
    (hholder : m'.facts ≠ .none → lk = some .wait_lock) (hfacts : m'.facts.Hold s p)
    (howes : ∀ q, m.facts.owes q → m'.facts.owes q ∨ ¬ Waits s gs q (.proc q) .wait_lock) :
    Inv initproc s (update gs (.proc p) ⟨x, lk, m'⟩) := by
  obtain ⟨hfall, htest, harmed, hkid, hgot⟩ := hsame
  refine h.own_step hg (h.cpus.remind hg rfl rfl) (fun _ _ => rfl) rfl rfl rfl
    ⟨⟨rfl, rfl, rfl, rfl⟩, rfl, rfl⟩ (fun hs => ?_) (fun hf => ?_) (fun chan l hf => ?_) hcalm
    (fun chan l hw => ?_) htest (fun ha => ?_) hkid hgot hholder hfacts howes
  · have := h.sleeps.sleeping p hs
    rw [hg] at this
    rwa [hfall]
  · have := h.sleeps.falling (.proc p)
    rw [hg] at this
    exact this (hfall ▸ hf)
  · have := h.sleeps.dropping p chan l
    rw [hg] at this
    exact this (hfall ▸ hf)
  · refine Or.inl ?_
    unfold Waits
    rw [hg]
    rwa [hfall] at hw
  · have := h.sleeps.armed (.proc p)
    rw [hg] at this
    rw [htest]
    exact this (harmed ▸ ha)

/-- What a wakeup of one process teaches. -/
def Mind.look (m : Mind N) (chan : Option (Chan N)) (q : Fin N) : Mind N :=
  { m with calm := fun ch r => m.calm ch r ∨ chan = some ch ∧ r = q }

theorem Inv.wake (h : Inv initproc s gs) (ht : s.mycpu t = some c)
    (hfree : s.lock (.proc q) = none) (chan : Option (Chan N)) :
    Inv initproc (s.setProc q ((s.proc q).wake chan)) (update gs t (gs t)) ∧
      Guar s (s.setProc q ((s.proc q).wake chan)) := by
  unfold Proc.wake
  split_ifs with hw
  · exact h.touch ht hfree ⟨rfl, rfl, by rw [hw.1]; rfl, nofun⟩ (Or.inr ⟨hw.1, rfl⟩) rfl rfl
  · exact h.touch ht hfree (.refl _) (Or.inl rfl) rfl rfl

omit [DecidableEq C] in
theorem Inv.not_waits_wake (h : Inv initproc s gs) (hfree : s.lock (.proc q) = none)
    (hw : Waits (s.setProc q ((s.proc q).wake (some chan))) gs q chan lk) : False := by
  unfold Waits at hw
  rw [s.setProc_self] at hw
  rcases hw with hf | ⟨hf, hst⟩
  · -- it holds its lock
    obtain ⟨st, hs⟩ := h.sleeps.dropping q chan lk hf
    have hat := h.cpus.stage (.proc q)
    simp only [At, hs, ProcAt] at hat
    obtain ⟨d, hd⟩ := Option.ne_none_iff_exists'.mp hat.2.1
    exact h.cpus.nobody hfree (.proc q) d hd (Or.inr (by rw [hs]; rfl))
  · unfold Proc.wake at hst
    split_ifs at hst with hw
    obtain ⟨ch, l, hf', hc⟩ := h.sleeps.sleeping q hst
    rw [hf] at hf'
    cases hf'
    exact hw ⟨hst, hc⟩

variable {chan : Option (Chan N)} {olk : Option (Lk N)}

theorem safe_wakeOne (hlk : olk ≠ some (.proc q)) (hQ : Q () ⟨.run, olk, m.look chan q⟩) :
    Obeys C initproc (.proc p)
      (locked (.proc q) fun s => ((), s.setProc q ((s.proc q).wake chan))) ⟨.run, olk, m⟩ Q := by
  refine safe_locked (by rwa [Know.has_run]) fun s gs c hI hg hc hfree => ?_
  obtain ⟨hI', hG⟩ := hI.wake hc hfree chan
  rw [update_eq_self] at hI'
  refine ⟨⟨.run, olk, m.look chan q⟩, ⟨hI'.remind hg (fun l ch r hl hcm hw => ?_)
    ⟨rfl, rfl, rfl, rfl, rfl⟩ (fun hf => ?_) ?_ fun _ h => Or.inl h, hG⟩, hQ⟩
  · rcases hcm with hcm | ⟨rfl, rfl⟩
    · have := hI'.sleeps.calm (.proc p) l ch r
      rw [hg] at this
      exact this hl hcm hw
    · exact hI.not_waits_wake hfree hw
  · have := hI'.family.holder (.proc p)
    rw [hg] at this
    exact this hf
  · have := hI'.family.hold p
    rwa [hg] at this

theorem safe_wakeupFrom {ps : List (Fin N)} (hlk : ∀ q, olk ≠ some (.proc q))
    (hQ : ∀ calm, (∀ ch r, m.calm ch r → calm ch r) →
      (∀ ch, chan = some ch → ∀ q ∈ ps, q ≠ p → calm ch q) →
      Q () ⟨.run, olk, { m with calm := calm }⟩) :
    Obeys C initproc (.proc p) (wakeupFrom chan (some p) ps) ⟨.run, olk, m⟩ Q := by
  induction ps generalizing m with
  | nil => exact hQ m.calm (fun _ _ h => h) fun _ _ _ h => absurd h List.not_mem_nil
  | cons q ps ih =>
    rw [wakeupFrom]
    by_cases hq : some q ≠ some p
    · rw [if_pos hq]
      refine Safe.seq (safe_wakeOne (hlk q) ?_)
      refine ih fun calm hsub hnew => ?_
      refine hQ calm (fun ch r h => hsub ch r (Or.inl h)) fun ch hch r hr hrp => ?_
      rcases List.mem_cons.mp hr with rfl | hr
      · exact hsub ch r (Or.inr ⟨hch, rfl⟩)
      · exact hnew ch hch r hr hrp
    · rw [if_neg hq]
      refine ih fun calm hsub hnew => hQ calm hsub fun ch hch r hr hrp => ?_
      rcases List.mem_cons.mp hr with rfl | hr
      · exact absurd (not_not.mp hq) fun h => hrp (Option.some.inj h)
      · exact hnew ch hch r hr hrp

theorem safe_myproc {Q : Option (Fin N) → Know N → Prop} (hQ : Q (some p) g) :
    Obeys C initproc (.proc p) myproc g Q := by
  refine safe_onCpu fun s gs c hI hg hc => ?_
  rw [(hI.cpus.cur_of_tp hc).1]
  exact ⟨g, hI.stay hg, hQ⟩

/-- **Waking.**  Afterwards nobody sleeps on the channel with the lock that is held. -/
theorem safe_wakeup (hlk : ∀ q, olk ≠ some (.proc q))
    (hQ : ∀ calm, (∀ ch r, m.calm ch r → calm ch r) →
      (∀ ch, chan = some ch → ∀ q, q ≠ p → calm ch q) →
      Q () ⟨.run, olk, { m with calm := calm }⟩) :
    Obeys C initproc (.proc p) (wakeup chan) ⟨.run, olk, m⟩ Q := by
  refine Safe.seq (safe_myproc ?_)
  exact safe_wakeupFrom hlk fun calm hsub hnew => hQ calm hsub fun ch hch q hq =>
    hnew ch hch q (List.mem_finRange q) hq

theorem safe_devintr :
    Obeys C initproc (.cpu c) (wakeup chan) (.base .idle) fun _ g => .base .idle = g := by
  refine Safe.seq (safe_onCpu fun s gs d hI hg _ => ⟨.base .idle, hI.stay hg, ?_⟩)
  generalize List.finRange N = ps
  induction ps with
  | nil => rfl
  | cons q ps ih =>
    rw [wakeupFrom]
    split_ifs
    · refine Safe.seq (safe_locked ?_ fun s gs d hI hg hd hfree => ⟨.base .idle, ?_, ih⟩)
      · simp [Know.Has, Know.base, Stage.plock]
      · have := hI.wake hd hfree chan
        rwa [hg] at this
    · exact ih

/-! ### Killing -/

theorem safe_killed {Q : Bool → Know N → Prop} (hlk : olk ≠ some (.proc q))
    (hQ : ∀ b, Q b ⟨.run, olk, m⟩) : Obeys C initproc (.proc p) (killed q) ⟨.run, olk, m⟩ Q := by
  exact safe_locked (by rwa [Know.has_run]) fun s gs c hI hg hc _ =>
    ⟨⟨.run, olk, m⟩, hI.stay hg, hQ _⟩

theorem safe_kkillFrom {pid : BitVec 32} {ps : List (Fin N)} (hm : m.fall = none) :
    Obeys C initproc (.proc p) (kkillFrom pid ps) ⟨.run, none, m⟩
      fun _ g => ⟨.run, none, m⟩ = g := by
  induction ps with
  | nil => rfl
  | cons q ps ih =>
    rw [kkillFrom]
    refine Safe.seq (safe_preempt hm ?_)
    refine Safe.bind (R := fun _ g => (⟨.run, none, m⟩ : Know N) = g) (safe_locked ?_
      fun s gs c hI hg hc hfree => ⟨⟨.run, none, m⟩, ?_, rfl⟩) ?_
    · rw [Know.has_run]
      exact nofun
    · rw [← hg]
      -- a sleeping victim becomes RUNNABLE; nothing else of it changes but `killed`
      split_ifs
      · refine hI.touch hc hfree ?_ ?_ rfl rfl
        · refine ⟨rfl, rfl, ?_, fun hs => ?_⟩
          · unfold Proc.kill
            split_ifs with h
            · rw [h]
              rfl
            · rfl
          · unfold Proc.kill at hs
            split_ifs at hs with h
            exact absurd hs h
        · unfold Proc.kill
          split_ifs with h
          · exact Or.inr ⟨h, rfl⟩
          · exact Or.inl rfl
      · exact hI.stay rfl
    · rintro found _ rfl
      split_ifs
      · rfl
      · exact ih

/-! ### Conditions -/

/-- The history of tests changes, and what the process has in mind about its own. -/
theorem Inv.setTest (h : Inv initproc s gs) (hg : gs (.proc p) = ⟨.run, some lk, m⟩)
    (o : Option (ℕ × ℕ × ℕ)) (b : Bool) (flag : ℕ → Bool)
    (hb : b = true → ∃ k l, o = some (k, l, s.woken k l) ∧ lk = .other l) :
    Inv initproc { s with flag := flag, test := update s.test p o }
      (update gs (.proc p) ⟨.run, some lk, { m with test := o, armed := b }⟩) := by
  set g : Know N := ⟨.run, some lk, { m with test := o, armed := b }⟩
  have hfall : ∀ u, (update gs (.proc p) g u).mind.fall = (gs u).mind.fall :=
    update_proj_of_eq hg (·.mind.fall) rfl
  have hlk : ∀ u, (update gs (.proc p) g u).lk = (gs u).lk := update_proj_of_eq hg _ rfl
  have hcpu := h.cpus.remind (g := g) hg rfl rfl
  -- nobody begins to wait
  have hw : ∀ q ch l, Waits { s with flag := flag, test := update s.test p o }
      (update gs (.proc p) g) q ch l → Waits s gs q ch l := by
    intro q ch l hq
    unfold Waits at hq ⊢
    rwa [hfall] at hq
  refine ⟨{ hcpu with }, ⟨fun q hs => ?_, fun u hu => ?_, fun q ch l hf => ?_,
    fun u l ch q hl hcm hwt => ?_, fun q => ?_,
      fun u hu => ?_, fun q ch l hwt k l' n hq => ?_, fun q l hwt =>
        h.sleeps.waitlock q l (hw q _ l hwt)⟩,
    h.family.congr hlk (update_proj_of_eq hg (·.mind.kid) rfl)
      (update_proj_of_eq hg (·.mind.facts) rfl) (fun _ => rfl) (fun _ => rfl) fun q => hw q _ _,
    h.hist.congr (update_proj_of_eq hg (·.mind.got) rfl) (fun _ => rfl) (fun _ => rfl)
      ⟨rfl, rfl, rfl, rfl⟩⟩
  · rw [hfall]
    exact h.sleeps.sleeping q hs
  · rw [hfall] at hu
    rw [hlk]
    exact h.sleeps.falling u hu
  · rw [hfall] at hf
    rw [update_proj_of_eq (g := g) hg Know.stage rfl]
    exact h.sleeps.dropping q ch l hf
  · rw [hlk] at hl
    rw [update_proj_of_eq (g := g) hg (·.mind.calm) rfl] at hcm
    exact h.sleeps.calm u l ch q hl hcm (hw q ch l hwt)
  · obtain rfl | hq := eq_or_ne q p
    · rw [update_self]
      exact update_self ..
    · rw [update_of_ne (proc_ne hq)]
      exact (update_of_ne hq ..).trans (h.sleeps.test q)
  · obtain rfl | hu' := eq_or_ne u (.proc p)
    · rw [update_self] at hu ⊢
      obtain ⟨k, l, hk, rfl⟩ := hb hu
      exact ⟨k, l, hk, rfl⟩
    · rw [update_of_ne hu'] at hu ⊢
      exact h.sleeps.armed u hu
  · have hwt' := hw q ch l hwt
    by_cases hqp : q = p
    · -- a process that holds a lock does not wait
      subst hqp
      have hne : (gs (.proc q)).mind.fall ≠ none := by
        rcases hwt' with h' | ⟨h', -⟩ <;> rw [h'] <;> exact nofun
      have := h.sleeps.falling _ hne
      rw [hg] at this
      cases this
    · rw [update_of_ne (proc_ne hqp)] at hq
      exact h.sleeps.waits q ch l hwt' k l' n hq

theorem safe_test {Q : Bool → Know N → Prop} {k l : ℕ}
    (hQ : ∀ b n, Q b ⟨.run, some (.other l), { m with test := some (k, l, n), armed := true }⟩) :
    Obeys C initproc (.proc p) (test k l) ⟨.run, some (.other l), m⟩ Q := by
  refine Safe.seq (safe_thisproc ?_)
  refine Safe.seq (safe_onCpu fun s gs c hI hg hc => ⟨_, ⟨hI.setTest hg _ true s.flag
    fun _ => ⟨k, l, rfl, rfl⟩, .of_same (fun _ => Or.inl rfl) rfl (fun _ => rfl) rfl⟩, ?_⟩)
  exact safe_look fun _ _ _ _ _ _ => hQ _ _

theorem safe_awaitLoop {k l rounds : ℕ} {o : Option (ℕ × ℕ × ℕ)} {b : Bool} :
    Obeys C initproc (.proc p) (awaitLoop k l rounds)
      ⟨.run, some (.other l), { Mind.blank with test := o, armed := b }⟩
      fun _ g => (.base .run : Know N) = g := by
  induction rounds generalizing o b with
  | zero => exact safe_atomic fun _ _ _ _ => trivial
  | succ rounds ih =>
    rw [awaitLoop]
    refine Safe.seq (safe_test fun ok n => ?_)
    cases ok with
    | true =>
      refine Safe.seq (safe_thisproc ?_)
      refine Safe.seq (safe_onCpu fun s gs c hI hg hc => ⟨_, ⟨hI.setTest hg none false _ nofun,
        .of_same (fun _ => Or.inl rfl) rfl (fun _ => rfl) rfl⟩, ?_⟩)
      exact safe_releaseSpin nofun (fun _ h => h) rfl rfl
    | false =>
      refine Safe.seq (safe_sleep nofun (fun _ h => h) (fun k' l' n' h => ?_) nofun
        (ih (o := some (k, l, n)) (b := false)))
      cases h
      exact ⟨rfl, rfl, rfl⟩

theorem safe_await {k l rounds : ℕ} :
    Obeys C initproc (.proc p) (await k l rounds) (.base .run) fun _ g => .base .run = g := by
  refine Safe.seq (safe_acquireSpin nofun rfl ?_)
  exact safe_awaitLoop (o := none) (b := false)

omit [DecidableEq C] in
theorem Inv.setFlag (h : Inv initproc s gs) (flag : ℕ → Bool) :
    Inv initproc { s with flag := flag } gs :=
  h.of_procs { h.cpus with } { h.sleeps with } rfl ⟨rfl, rfl, rfl, rfl⟩

omit [DecidableEq C] in
/-- A wakeup is over: nobody who has made the test before it sleeps. -/
theorem Inv.woken (h : Inv initproc s gs) {k l : ℕ}
    (hg : gs (.proc p) = ⟨.run, some (.other l), m⟩) (ha : m.armed = false)
    (hcalm : ∀ q, q ≠ p → m.calm (.other k) q) (n : ℕ) :
    Inv initproc { s with woken := update s.woken k (update (s.woken k) l n) }
      gs := by
  -- the count changes for this condition and this lock only
  have hsame : ∀ k' l', (k', l') ≠ (k, l) →
      update s.woken k (update (s.woken k) l n) k' l' = s.woken k' l' := by
    intro k' l' hne
    obtain rfl | hk := eq_or_ne k' k
    · rw [update_self]
      exact update_of_ne (fun hl => hne (by rw [hl])) ..
    · rw [update_of_ne hk]
  refine h.of_procs { h.cpus with } { h.sleeps with
    armed := fun u hu => ?_
    waits := fun q ch lk hw k' l' n' hq => ?_ } rfl ⟨rfl, rfl, rfl, rfl⟩
  · obtain ⟨k', l', ht, hl⟩ := h.sleeps.armed u hu
    refine ⟨k', l', ?_, hl⟩
    dsimp only
    rw [hsame k' l']
    · exact ht
    · intro heq
      cases heq
      have hup := h.cpus.lk_unique (t := .proc p) (by rw [hg]) hl
      subst hup
      rw [hg, ha] at hu
      cases hu
  · obtain ⟨h1, h2, h3⟩ := h.sleeps.waits q ch lk hw k' l' n' hq
    refine ⟨h1, h2, ?_⟩
    dsimp only
    rw [hsame k' l']
    · exact h3
    · intro heq
      cases heq
      subst h1 h2
      obtain rfl | hqp := eq_or_ne q p
      · have hne : (gs (.proc q)).mind.fall ≠ none := by
          rcases hw with h' | ⟨h', -⟩ <;> rw [h'] <;> exact nofun
        have := h.sleeps.falling _ hne
        rw [hg] at this
        cases this
      · exact h.sleeps.calm (.proc p) _ _ q (by rw [hg]) (by rw [hg]; exact hcalm q hqp) hw

theorem safe_signal {k l : ℕ} :
    Obeys C initproc (.proc p) (signal k l) (.base .run) fun _ g => .base .run = g := by
  refine Safe.seq (safe_acquireSpin nofun rfl ?_)
  refine Safe.seq (safe_onCpu fun s gs c hI hg hc => ⟨gs (.proc p), ⟨?_,
    .of_same (fun _ => Or.inl rfl) rfl (fun _ => rfl) rfl⟩, ?_⟩)
  · rw [update_eq_self]
    exact hI.setFlag _
  rw [hg]
  refine Safe.seq (safe_wakeup nofun fun calm _ hnew => ?_)
  refine Safe.seq (safe_onCpu fun s gs c hI hg hc => ⟨gs (.proc p), ⟨?_,
    .of_same (fun _ => Or.inl rfl) rfl (fun _ => rfl) rfl⟩, ?_⟩)
  · rw [update_eq_self]
    exact hI.woken hg rfl (hnew _ rfl) _
  rw [hg]
  exact safe_releaseSpin nofun (fun _ h => h) rfl rfl

end Xv6.Sched
