import Xv6.Sched.Family

/-!
# Every interleaving of the processes

The kernel threads of `Xv6.Sched.Model` keep the invariant of `Xv6.Sched.Inv`
whatever they call and however their steps interleave, on any number of
processors.

## Main results

* `good_of_reachable` — the invariant, in every pool the machine reaches.
* `families` — **parents are there, and children are waited for once**.
* `one_processor` — **a process is on one processor at a time**, and nobody chooses or frees it
  before that processor has left it.
* `no_lost_wakeup` — **a wakeup that comes after a test is seen by whoever made it**.
-/


namespace Xv6.Sched

open Conc

variable {C : Type} [DecidableEq C] {N : ℕ} {initproc : Fin N} {s : State C N}
  {gs : Thread C N → Know N} {t : Thread C N} {d : C} {p : Fin N}

/-! ### Calls -/

omit [DecidableEq C] in
theorem CpuInv.resting_cpu (h : CpuInv s gs) (hr : (gs (.cpu d)).Resting) :
    gs (.cpu d) = .base .idle := by
  have hat : CpuAt s d (gs (.cpu d)).stage := h.stage (.cpu d)
  rcases hr with hr | hr | ⟨p, hr⟩
  · exact hr
  · rw [hr] at hat
    exact hat.elim
  · rw [hr] at hat
    exact hat.elim

omit [DecidableEq C] in
theorem CpuInv.resting_proc (h : CpuInv s gs) (hr : (gs (.proc p)).Resting) :
    gs (.proc p) = .base .run ∧ (s.proc p).context = .kernel ∨
      gs (.proc p) = .base (.fresh p) ∧ (s.proc p).context ≠ .kernel := by
  have hat : ProcAt (s.proc p) (s.tp p ≠ none) p (gs (.proc p)).stage := h.stage (.proc p)
  rcases hr with hr | hr | ⟨q, hr⟩
  · rw [hr] at hat
    exact hat.elim
  · rw [hr] at hat
    exact Or.inl ⟨hr, hat.2.2⟩
  · rw [hr] at hat
    obtain ⟨rfl, -, hctx, -⟩ := hat
    exact Or.inr ⟨hr, hctx⟩

omit [DecidableEq C] in
theorem CpuInv.resting_run (h : CpuInv s gs) (hr : (gs (.proc p)).Resting)
    (hk : (s.proc p).context = .kernel) : gs (.proc p) = .base .run := by
  rcases h.resting_proc hr with ⟨hg, -⟩ | ⟨-, hctx⟩
  · exact hg
  · exact absurd hk hctx

theorem Know.resting_run {g : Know N} (h : .base .run = g) : g.Resting := Or.inr (Or.inl h.symm)

/-- Every call keeps to the discipline. -/
theorem safe_call {prog : SchedM C N Unit} (hI : Inv initproc s gs) (hr : (gs t).Resting)
    (hon : (s.mycpu t).isSome = true) (h : Call initproc s t prog) :
    Obeys C initproc t prog (gs t) fun _ => (discipline C initproc).idle := by
  have hend : ∀ {q : Fin N} {α : Type} {x : SchedM C N α},
      Obeys C initproc (.proc q) x (.base .run) (fun _ g => .base .run = g) →
      Obeys C initproc (.proc q) (do let _ ← x) (.base .run)
        fun _ => (discipline C initproc).idle := fun hx =>
    hx.bind fun _ _ hg => Know.resting_run hg
  -- the context says where the thread is to go on, and so what it knows
  cases h with
  | scheduler c =>
    rw [hI.cpus.resting_cpu hr]
    exact safe_scheduler.mono fun _ _ hg => Or.inl hg.symm
  | devintr c chan =>
    rw [hI.cpus.resting_cpu hr]
    exact safe_devintr.mono fun _ _ hg => Or.inl hg.symm
  | forkret p hctx =>
    rcases hI.cpus.resting_proc hr with ⟨-, hk⟩ | ⟨hg, -⟩
    · rw [hctx] at hk
      cases hk
    · rw [hg]
      exact safe_forkret (Or.inr (Or.inl rfl))
  | zombie p hctx =>
    -- a process that has exited is never executed again
    rcases hI.cpus.resting_proc hr with ⟨-, hk⟩ | ⟨hg, -⟩
    · rw [hctx] at hk
      cases hk
    · have hat := hI.cpus.stage (.proc p)
      rw [hg] at hat
      obtain ⟨-, hrun, -, -, hz⟩ := hat
      have hst := hrun fun htp => by
        rw [State.mycpu, htp] at hon
        cases hon
      rcases hz hctx with hz | hz <;> rw [hst] at hz <;> cases hz
  | yield p hctx =>
    rw [hI.cpus.resting_run hr hctx]
    exact safe_yield rfl (Or.inr (Or.inl rfl))
  | kfork p mem hctx =>
    rw [hI.cpus.resting_run hr hctx]
    exact hend safe_kfork
  | kexit p status hctx =>
    rw [hI.cpus.resting_run hr hctx]
    exact safe_kexit.mono fun _ _ hg => Or.inr (Or.inr ⟨p, hg.symm⟩)
  | sys_wait p addr rounds hctx =>
    rw [hI.cpus.resting_run hr hctx]
    exact safe_sys_wait.mono fun _ _ hg => Know.resting_run hg
  | kkill p pid hctx =>
    rw [hI.cpus.resting_run hr hctx]
    exact hend (safe_kkillFrom rfl)
  | await p k l rounds hctx =>
    rw [hI.cpus.resting_run hr hctx]
    exact safe_await.mono fun _ _ hg => Know.resting_run hg
  | signal p k l hctx =>
    rw [hI.cpus.resting_run hr hctx]
    exact safe_signal.mono fun _ _ hg => Know.resting_run hg

/-! ### Runs -/

/-- What the threads know at boot. -/
def bootKnow : Thread C N → Know N
  | .cpu _ => .base .idle
  | .proc p => .base (.fresh p)

omit [DecidableEq C] in
theorem bootKnow_lk (t : Thread C N) : (bootKnow t).lk = none ∧ (bootKnow t).mind = .blank := by
  cases t with
  | cpu c => exact ⟨rfl, rfl⟩
  | proc p => exact ⟨rfl, rfl⟩

omit [DecidableEq C] in
theorem cpuInv_of_booted (h : Booted initproc s) : CpuInv s bootKnow := by
  have hstate : ∀ p, (s.proc p).state ≠ .SLEEPING ∧ (s.proc p).state ≠ .RUNNING := by
    intro p
    by_cases hp : p = initproc
    · rw [hp, h.init]
      exact ⟨by simp, by simp⟩
    · rw [h.unused p hp]
      exact ⟨by simp, by simp⟩
  -- no process is on a CPU yet
  have hidle : ∀ t c, s.mycpu t = some c → t = .cpu c := by
    intro t c ht
    cases t with
    | cpu d => rw [(mycpu_cpu ht).1]
    | proc p =>
      rw [State.mycpu, h.tp] at ht
      cases ht
  refine ⟨fun p c => ?_, fun t => ?_, fun t c ht l => ?_, fun t c ht => ?_, fun t p => ?_,
    fun t ht => ?_⟩
  · rw [h.tp, h.stack]
    exact ⟨by simp, by simp⟩
  · cases t with
    | cpu c => exact ⟨h.stack c, h.cur c⟩
    | proc p =>
      refine ⟨rfl, fun hon => absurd (h.tp p) hon, ?_, (hstate p).1, ?_⟩ <;> rw [h.context p] <;>
        simp
  · rw [hidle t c ht, h.lock]
    refine ⟨by simp, ?_⟩
    rintro (hl | hl) <;> cases hl
  · rw [hidle t c ht, h.noff]
    rfl
  · rw [(bootKnow_lk t).1]
    simp
  · exact absurd (bootKnow_lk t).1 ht

omit [DecidableEq C] in
theorem inv_of_booted (h : Booted initproc s) : Inv initproc s bootKnow := by
  have hmind : ∀ t : Thread C N, (bootKnow t).mind = .blank := fun t => (bootKnow_lk t).2
  have hstate : ∀ p, (s.proc p).state ≠ .SLEEPING := by
    intro p
    by_cases hp : p = initproc
    · rw [hp, h.init]
      exact nofun
    · rw [h.unused p hp]
      exact nofun
  have hkind : ∀ p, (s.proc p).state.kind ≠ .unused → p = initproc := by
    intro p hk
    by_contra hp
    exact hk (by rw [h.unused p hp]; rfl)
  have hnz : ∀ p, (s.proc p).state.kind ≠ .zombie := by
    intro p hz
    by_cases hp : p = initproc
    · rw [hp, h.init] at hz
      cases hz
    · rw [h.unused p hp] at hz
      cases hz
  -- nobody has done anything yet, so nobody knows or waits for anything
  have hwaits : ∀ q chan lk, ¬ Waits s bootKnow q chan lk := by
    intro q chan lk hw
    unfold Waits at hw
    rw [hmind] at hw
    rcases hw with hw | ⟨hw, -⟩ <;> cases hw
  refine ⟨cpuInv_of_booted h, ⟨fun p hs => absurd hs (hstate p), fun t ht => ?_,
    fun p ch lk hf => ?_,
    fun t lk ch q _ _ => hwaits q ch lk, fun p => ?_, fun t ht => ?_, fun p ch lk hw =>
      absurd hw (hwaits p ch lk),
    fun p lk hw => absurd hw (hwaits p _ lk)⟩, ⟨?_, fun p hp hk => ?_, fun p np b hb => ?_,
    fun p q np b b' hb => ?_, fun t ht => ?_, fun p q hc => ?_, fun p q hc => ?_, fun p o ho => ?_,
    fun q z _ hz => absurd hz (hnz z)⟩, ⟨fun p hk => ?_, fun p q hk hk' _ => ?_,
    fun p hz => absurd hz (hnz p), ?_, ?_, ?_, ?_, ?_, ?_, ?_, fun t r hr => ?_, ?_, ?_⟩⟩
  · rw [hmind] at ht
    exact absurd rfl ht
  · rw [hmind] at hf
    cases hf
  · rw [h.test, hmind]
    rfl
  · rw [hmind] at ht
    cases ht
  · rw [h.init]
    rfl
  · rcases hk with hk | hk
    · exact absurd (hkind p (by rw [hk]; exact nofun)) hp
    · exact absurd hk (hnz p)
  · rw [hmind] at hb
    cases hb
  · rw [hmind] at hb
    cases hb
  · rw [hmind] at ht
    exact absurd rfl ht
  · rw [hmind] at hc
    exact hc.elim
  · rw [hmind] at hc
    exact hc.elim
  · rw [hmind] at ho
    cases ho
  · rw [hkind p hk]
    exact h.nextgen
  · rw [hkind p hk, hkind q hk']
  · rw [h.exits]
    exact nofun
  · rw [h.exits]
    exact List.nodup_nil
  · rw [h.exits]
    exact nofun
  · rw [h.reaped]
    exact nofun
  · rw [h.reaped]
    exact List.nodup_nil
  · rw [h.reaped]
    exact nofun
  · rw [h.reaped]
    exact nofun
  · rw [hmind] at hr
    cases hr
  · rw [h.returned]
    exact nofun
  · rw [h.returned]
    exact List.nodup_nil

omit [DecidableEq C] in
theorem Inv.setTick (h : Inv initproc s gs) (b : Bool) : Inv initproc { s with tick := b } gs :=
  h.of_procs { h.cpus with } { h.sleeps with } rfl ⟨rfl, rfl, rfl, rfl⟩

/-- **The invariant holds in every pool the machine reaches.** -/
theorem good_of_reachable {c : Pool (Thread C N) (State C N)}
    (h : (machine C initproc).Reachable c) : (discipline C initproc).Good c := by
  refine Discipline.invariant ?_ ?_ ?_ h
  · rintro c ⟨hb, hidle, hh⟩
    refine ⟨⟨bootKnow, inv_of_booted hb, fun t => ?_⟩, fun msg hm => ?_⟩
    · rw [hidle]
      cases t with
      | cpu c => exact Or.inl rfl
      | proc p => exact Or.inr (Or.inr ⟨p, rfl⟩)
    · rw [hh] at hm
      cases hm
  · rintro t s gs p hI hidle ⟨hon, hcall⟩
    exact ⟨gs t, by rwa [Function.update_eq_self], safe_call hI hidle hon hcall⟩
  · rintro c _ hg ⟨b, rfl⟩
    obtain ⟨gs, hI, hsafe⟩ := hg.safe
    exact ⟨⟨gs, Inv.setTick hI b, hsafe⟩, hg.allowed⟩

/-! ### Families -/

/-- **Parents are there, and children are waited for once.**  A process has a parent that is
neither free nor a zombie; what `kwait` frees has exited, is freed once, and is reported with its
pid and the status it exited with; what `kwait` returns to a process it has freed in that process,
and it returns no child twice; and while `wait_lock` is free, nobody who waits for children sleeps
next to a zombie. -/
theorem families {c : Pool (Thread C N) (State C N)} (h : (machine C initproc).Reachable c) :
    (∀ p, p ≠ initproc → (c.st.proc p).state = .RUNNABLE ∨ (c.st.proc p).state = .RUNNING ∨
      (c.st.proc p).state = .SLEEPING ∨ (c.st.proc p).state = .ZOMBIE →
      ∃ q, (c.st.proc p).parent = some q ∧ (c.st.proc q).state ≠ .UNUSED ∧
        (c.st.proc q).state ≠ .ZOMBIE) ∧
    (c.st.exits.map Exit.gen).Nodup ∧ (c.st.reaped.map Reap.gen).Nodup ∧
    (∀ r ∈ c.st.reaped, ∃ e ∈ c.st.exits, e.gen = r.gen ∧ e.pid = r.pid ∧
      ∀ status ∈ r.status, status = e.status) ∧
    (∀ x ∈ c.st.returned, x.2 ∈ c.st.reaped ∧ x.2.waiter = x.1) ∧
    (c.st.returned.map Prod.snd).Nodup ∧
    (c.st.lock .wait_lock = none → ∀ p z, (c.st.proc p).state = .SLEEPING →
      (c.st.proc p).chan = some (.proc p) → (c.st.proc z).parent = some p →
        (c.st.proc z).state ≠ .ZOMBIE) := by
  obtain ⟨gs, (hI : Inv initproc c.st gs), -⟩ := (good_of_reachable h).safe
  refine ⟨fun p hp hst => ?_, hI.hist.exit_once, hI.hist.reap_once, hI.hist.reap, hI.hist.returned,
    hI.hist.return_once, fun hfree p z hs hch hpar hz => ?_⟩
  · have hk : (c.st.proc p).state.kind = .live ∨ (c.st.proc p).state.kind = .zombie := by
      rcases hst with hs | hs | hs | hs <;> rw [hs]
      · exact Or.inl rfl
      · exact Or.inl rfl
      · exact Or.inl rfl
      · exact Or.inr rfl
    obtain ⟨q, hq, h1, h2⟩ := hI.family.parent p hp hk
    refine ⟨q, hq, fun hs => h1 ?_, fun hs => h2 ?_⟩ <;> rw [hs] <;> rfl
  · obtain ⟨ch, lk, hf, hc⟩ := hI.sleeps.sleeping p hs
    rw [hch] at hc
    cases hc
    have hw : Waits c.st gs p (.proc p) lk := Or.inr ⟨hf, hs⟩
    have hlk := hI.sleeps.waitlock p lk hw
    subst hlk
    -- whoever owes a wakeup would hold the lock
    obtain ⟨u, hu⟩ := hI.family.zombies p z hpar (by rw [hz]; rfl) hw
    rwa [hI.facts_none_of_free hfree] at hu

/-- Two processors, and two slots for processes of which the first is taken. -/
def booted : Pool (Thread (Fin 2) 2) (State (Fin 2) 2) where
  st :=
    { proc := fun p => ⟨if p = 0 then .RUNNABLE else .UNUSED, none, false, 0,
        if p = 0 then 1 else 0, none, .forkret, 0, 0⟩
      lock := fun _ => none
      noff := fun _ => 0
      cur := fun _ => none
      stack := fun _ => none
      tp := fun _ => none
      nextpid := 2
      tick := false
      flag := fun _ => false
      nextgen := 1
      exits := []
      reaped := []
      returned := []
      test := fun _ => none
      woken := fun _ _ => 0
      slept := [] }
  code _ := .ret ()
  halted := none

theorem booted_reachable : (machine (Fin 2) (0 : Fin 2)).Reachable booted :=
  .init ⟨⟨rfl, by decide, fun _ => rfl, fun _ => rfl, fun _ => rfl, fun _ => rfl, fun _ => rfl,
    fun _ => rfl, fun _ => rfl, by decide, rfl, rfl, rfl, fun _ => rfl, rfl⟩, fun _ => rfl, rfl⟩

/-- Processor 0 chooses the first process. -/
def started : Pool (Thread (Fin 2) 2) (State (Fin 2) 2) :=
  ((booted.start (.cpu 0) (scheduler (List.finRange 2))).play
    (List.replicate 4 (.cpu 0))).getD booted

theorem started_reachable : (machine (Fin 2) (0 : Fin 2)).Reachable started :=
  System.Reachable.play_getD (booted_reachable.start rfl rfl ⟨rfl, .scheduler 0⟩)
    (by decide +kernel)

/-- It returns to user space. -/
def inUser : Pool (Thread (Fin 2) 2) (State (Fin 2) 2) :=
  ((started.start (.proc 0) (forkret 0)).play (List.replicate 2 (.proc 0))).getD booted

theorem inUser_reachable : (machine (Fin 2) (0 : Fin 2)).Reachable inUser :=
  System.Reachable.play_getD (started_reachable.start rfl rfl ⟨rfl, .forkret 0 rfl⟩)
    (by decide +kernel)

/-- It forks. -/
def forked : Pool (Thread (Fin 2) 2) (State (Fin 2) 2) :=
  ((inUser.start (.proc 0) do let _ ← kfork true).play (List.replicate 9 (.proc 0))).getD booted

theorem forked_reachable : (machine (Fin 2) (0 : Fin 2)).Reachable forked :=
  System.Reachable.play_getD (inUser_reachable.start rfl rfl ⟨rfl, .kfork 0 true rfl⟩)
    (by decide +kernel)

/-- It waits for its child, which is switched to. -/
def waiting : Pool (Thread (Fin 2) 2) (State (Fin 2) 2) :=
  ((forked.start (.proc 0) (sys_wait (some true) 2)).play
    (List.replicate 12 (.proc 0) ++ List.replicate 6 (.cpu 0))).getD booted

theorem waiting_reachable : (machine (Fin 2) (0 : Fin 2)).Reachable waiting :=
  System.Reachable.play_getD (forked_reachable.start rfl rfl ⟨rfl, .sys_wait 0 (some true) 2 rfl⟩)
    (by decide +kernel)

/-- The child returns to user space. -/
def child : Pool (Thread (Fin 2) 2) (State (Fin 2) 2) :=
  ((waiting.start (.proc 1) (forkret 1)).play (List.replicate 2 (.proc 1))).getD booted

theorem child_reachable : (machine (Fin 2) (0 : Fin 2)).Reachable child :=
  System.Reachable.play_getD (waiting_reachable.start rfl rfl ⟨rfl, .forkret 1 rfl⟩)
    (by decide +kernel)

/-- The child exits. -/
def exited : Pool (Thread (Fin 2) 2) (State (Fin 2) 2) :=
  ((child.start (.proc 1) (kexit 0 7)).play
    (List.replicate 12 (.proc 1) ++ List.replicate 2 (.cpu 0))).getD booted

theorem exited_reachable : (machine (Fin 2) (0 : Fin 2)).Reachable exited :=
  System.Reachable.play_getD (child_reachable.start rfl rfl ⟨rfl, .kexit 1 7 rfl⟩)
    (by decide +kernel)

/-- The first process is chosen again, and finds the child. -/
def waited : Pool (Thread (Fin 2) 2) (State (Fin 2) 2) :=
  ((exited.start (.cpu 0) (scheduler (List.finRange 2))).play
    (List.replicate 4 (.cpu 0) ++ List.replicate 11 (.proc 0))).getD booted

theorem waited_reachable : (machine (Fin 2) (0 : Fin 2)).Reachable waited :=
  System.Reachable.play_getD (exited_reachable.start rfl rfl ⟨rfl, .scheduler 0⟩)
    (by decide +kernel)

theorem families_waited : waited.st.returned = [(0, ⟨0, 1, 2, some 7⟩)] ∧
    ∃ e ∈ waited.st.exits, e.pid = 2 ∧ e.status = 7 := by
  have hret : waited.st.returned = [(0, ⟨0, 1, 2, some 7⟩)] := by decide +kernel
  obtain ⟨-, -, -, hreap, hsub, -⟩ := families waited_reachable
  obtain ⟨hmem, -⟩ := hsub (0, ⟨0, 1, 2, some 7⟩) (by rw [hret]; exact List.mem_cons_self)
  obtain ⟨e, he, -, hpid, hst⟩ := hreap _ hmem
  exact ⟨hret, e, he, hpid, (hst 7 rfl).symm⟩

/-! ### Processors -/

/-- Processor `d` executes on the kernel stack of `p`, or runs it. -/
def Occupies (s : State C N) (d : C) (p : Fin N) : Prop :=
  s.stack d = some p ∨ s.cur d = some p ∧ (s.proc p).state = .RUNNING

omit [DecidableEq C] in
/-- A processor that runs a process executes on its stack, or its scheduler has just chosen it. -/
theorem CpuInv.occupies (h : CpuInv s gs) (hd : Occupies s d p) :
    s.stack d = some p ∨ s.tp p = none ∧ s.mycpu (.cpu d) = some d ∧
      (gs (.cpu d)).Has (.proc p) := by
  rcases hd with hd | ⟨hcur, hrun⟩
  · exact Or.inl hd
  have hat : CpuAt s d (gs (.cpu d)).stage := h.stage (.cpu d)
  cases hg : (gs (.cpu d)).stage with
  | idle => rw [hg] at hat; rw [hat.2] at hcur; cases hcur
  | picked q st => rw [hg] at hat; rw [hat.2.1] at hcur; cases hcur
  | chosen q =>
    rw [hg] at hat
    obtain ⟨hst, hc, -, htp⟩ := hat
    rw [hc] at hcur
    cases hcur
    exact Or.inr ⟨htp, by simp [State.mycpu, hst], Or.inr (by rw [hg]; rfl)⟩
  | switched q =>
    rw [hg] at hat
    obtain ⟨hc, hs | ⟨-, hne, -⟩⟩ := hat
    · rw [hc] at hcur
      cases hcur
      exact Or.inl hs
    · rw [hc] at hcur
      cases hcur
      exact absurd hrun hne
  | run => rw [hg] at hat; exact hat.elim
  | owns q st => rw [hg] at hat; exact hat.elim
  | off q => rw [hg] at hat; exact hat.elim
  | fresh q => rw [hg] at hat; exact hat.elim

omit [DecidableEq C] in
theorem CpuInv.occupies_unique (h : CpuInv s gs) {e : C} (hd : Occupies s d p)
    (he : Occupies s e p) : d = e := by
  have hstack : ∀ {a b : C}, s.stack a = some p → s.stack b = some p → a = b := by
    intro a b ha hb
    have hab := ((h.link p a).mpr ha).symm.trans ((h.link p b).mpr hb)
    exact Option.some.inj hab
  have hnot : ∀ {a : C}, s.stack a = some p → s.tp p ≠ none := by
    intro a ha
    rw [(h.link p a).mpr ha]
    exact nofun
  rcases h.occupies hd with hd | ⟨htp, hcd, hhd⟩
  · rcases h.occupies he with he | ⟨htp, -⟩
    · exact hstack hd he
    · exact absurd htp (hnot hd)
  · rcases h.occupies he with he | ⟨-, hce, hhe⟩
    · exact absurd htp (hnot he)
    · have := h.holder_unique hce hcd hhe hhd
      cases this
      rfl

theorem guar_of_step {c c' : Pool (Thread C N) (State C N)} (h : (machine C initproc).Reachable c)
    (hs : (machine C initproc).Step c c') : Guar c.st c'.st := by
  rcases (good_of_reachable h).guar hs with ⟨b, rfl⟩ | hg
  · exact ⟨fun _ h h' => absurd h' h, fun _ _ h h' => absurd h' h, fun _ h => absurd rfl h,
      fun _ h => Or.inl h⟩
  · exact hg

/-- **A process is on one processor at a time.**  It is chosen, or switched to, or its slot is
freed, only when no processor executes on its stack or has it as its current process. -/
theorem one_processor {c : Pool (Thread C N) (State C N)} (h : (machine C initproc).Reachable c) :
    (∀ p d e, Occupies c.st d p → Occupies c.st e p → d = e) ∧
    ∀ c', (machine C initproc).Step c c' →
      (∀ p, (c.st.proc p).state ≠ .RUNNING → (c'.st.proc p).state = .RUNNING →
        ∀ d, c.st.stack d ≠ some p ∧ c.st.cur d ≠ some p) ∧
      (∀ p d, c.st.stack d ≠ some p → c'.st.stack d = some p → ∀ e, c.st.stack e ≠ some p) ∧
      (∀ p, (c'.st.proc p).freed ≠ (c.st.proc p).freed →
        ∀ d, c.st.stack d ≠ some p ∧ c.st.cur d ≠ some p) := by
  obtain ⟨gs, (hI : Inv initproc c.st gs), -⟩ := (good_of_reachable h).safe
  refine ⟨fun p d e => hI.cpus.occupies_unique, fun c' hs => ?_⟩
  have hg := guar_of_step h hs
  exact ⟨hg.chosen, hg.switched, hg.freed⟩

theorem one_processor_waiting : Occupies waiting.st 0 1 ∧ ∀ d, Occupies waiting.st d 1 → d = 0 := by
  have h0 : Occupies waiting.st 0 1 := Or.inl (by decide +kernel)
  exact ⟨h0, fun d hd => (one_processor waiting_reachable).1 1 d 0 hd h0⟩

/-! ### Wakeups -/

theorem slept_clean {c : Pool (Thread C N) (State C N)} (h : (machine C initproc).Reachable c) :
    ∀ w ∈ c.st.slept, w.Clean := by
  induction h with
  | init hb =>
    rw [hb.1.slept]
    exact nofun
  | step hc hs ih =>
    intro w hw
    rcases (guar_of_step hc hs).slept w hw with hold | hnew
    · exact ih w hold
    · exact hnew

/-- **A wakeup that comes after a test is seen by whoever made it.**  A process that sleeps
because of a test has missed no wakeup that was made under the lock of the test and is over; and
`sleep` returns with the lock it was called with and no other. -/
theorem no_lost_wakeup {c : Pool (Thread C N) (State C N)} (h : (machine C initproc).Reachable c) :
    (∀ p k l n, c.st.test p = some (k, l, n) → (c.st.proc p).state = .SLEEPING →
      (c.st.proc p).chan = some (.other k) → c.st.woken k l = n) ∧
    ∀ w ∈ c.st.slept, ∀ l, w.lock l = some w.cpu ↔ l = w.lk := by
  obtain ⟨gs, (hI : Inv initproc c.st gs), -⟩ := (good_of_reachable h).safe
  refine ⟨fun p k l n ht hs hc => ?_, slept_clean h⟩
  obtain ⟨ch, lk, hf, hch⟩ := hI.sleeps.sleeping p hs
  rw [hI.sleeps.test p] at ht
  exact (hI.sleeps.waits p ch lk (Or.inr ⟨hf, hs⟩) k l n ht).2.2.symm

/-- The first process waits for condition 0 under lock 0. -/
def awaiting : Pool (Thread (Fin 2) 2) (State (Fin 2) 2) :=
  ((inUser.start (.proc 0) (await 0 0 1)).play
    (List.replicate 9 (.proc 0) ++ List.replicate 5 (.cpu 0))).getD booted

theorem awaiting_reachable : (machine (Fin 2) (0 : Fin 2)).Reachable awaiting :=
  System.Reachable.play_getD (inUser_reachable.start rfl rfl ⟨rfl, .await 0 0 0 1 rfl⟩)
    (by decide +kernel)

theorem no_lost_wakeup_awaiting : (awaiting.st.proc 0).state = .SLEEPING ∧
    awaiting.st.test 0 = some (0, 0, 0) ∧ awaiting.st.woken 0 0 = 0 := by
  have hs : (awaiting.st.proc 0).state = .SLEEPING := by decide +kernel
  have ht : awaiting.st.test 0 = some (0, 0, 0) := by decide +kernel
  exact ⟨hs, ht, (no_lost_wakeup awaiting_reachable).1 0 0 0 0 ht hs (by decide +kernel)⟩

end Xv6.Sched
