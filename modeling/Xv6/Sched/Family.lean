import Xv6.Sched.Sleep

/-!
# Rules for parents and children

The steps of `kfork`, `kexit` and `kwait` that change the families of processes or go
down in history.

A process that exits gives its children away and wakes their new parent, then
wakes its own parent, all under `wait_lock`, and only then becomes a zombie: a
parent that has not been woken cannot have slept, since it would have needed
`wait_lock` for that.  A process that waits has seen every child under
`wait_lock`, and found none that had exited.

## Main results

* `safe_reparentFrom`, `safe_kexit`, `safe_kwaitLoop`, `safe_kfork` — the functions.
-/


namespace Xv6.Sched

open Conc Function

variable {C : Type} [DecidableEq C] {N : ℕ} {s s' : State C N} {t u : Thread C N} {c : C}
  {p q z : Fin N} {initproc : Fin N} {gs : Thread C N → Know N} {g : Know N} {m : Mind N}

/-! ### Who knows what -/

omit [DecidableEq C] in
theorem Inv.facts_none (h : Inv initproc s gs) (ht : (gs t).lk = some .wait_lock) (hu : u ≠ t) :
    (gs u).mind.facts = .none := by
  by_contra hne
  exact hu (h.cpus.lk_unique ht (h.family.holder u hne))

omit [DecidableEq C] in
theorem Inv.facts_none_of_free (h : Inv initproc s gs) (hfree : s.lock .wait_lock = none) :
    (gs u).mind.facts = .none := by
  by_contra hne
  exact h.cpus.lock_of_lk (h.family.holder u hne) hfree

omit [DecidableEq C] in
/-- Families, where only process `p` knows anything about them. -/
theorem FamilyInv.of_holder (p : Fin N) (hinit : (s.proc initproc).state.kind = .live)
    (hparent : ∀ r, r ≠ initproc → (s.proc r).state.kind = .live ∨ (s.proc r).state.kind = .zombie →
      ∃ q, (s.proc r).parent = some q ∧ (s.proc q).state.kind ≠ .unused ∧
        (s.proc q).state.kind ≠ .zombie)
    (hkid : ∀ r np b, (gs (.proc r)).mind.kid = some (np, b) → (s.proc np).state.kind = .used ∧
      (b = true → (s.proc np).parent = some r))
    (hinj : ∀ r q np b b', (gs (.proc r)).mind.kid = some (np, b) →
      (gs (.proc q)).mind.kid = some (np, b') → r = q)
    (hnone : ∀ u, u ≠ .proc p → (gs u).mind.facts = .none)
    (hlk : (gs (.proc p)).mind.facts ≠ .none → (gs (.proc p)).lk = some .wait_lock)
    (hold : (gs (.proc p)).mind.facts.Hold s p)
    (hz : ∀ q z, (s.proc z).parent = some q → (s.proc z).state.kind = .zombie →
      Waits s gs q (.proc q) .wait_lock → ∃ t, (gs t).mind.facts.owes q) :
    FamilyInv initproc s gs := by
  have hproc : ∀ r, r ≠ p → (gs (.proc r)).mind.facts = .none := fun r hr => hnone _ (proc_ne hr)
  refine ⟨hinit, hparent, hkid, hinj, fun u hu => ?_, fun r q hc => ?_, fun r q hc => ?_,
    fun r o ho => ?_, hz⟩
  · obtain rfl | hup := eq_or_ne u (.proc p)
    · exact hlk hu
    · exact absurd (hnone u hup) hu
  · obtain rfl | hr := eq_or_ne r p
    · exact hold.clear q hc
    · rw [hproc r hr] at hc
      exact hc.elim
  · obtain rfl | hr := eq_or_ne r p
    · exact hold.childless q hc
    · rw [hproc r hr] at hc
      exact hc.elim
  · obtain rfl | hr := eq_or_ne r p
    · exact hold.known o ho
    · rw [hproc r hr] at ho
      cases ho

omit [DecidableEq C] in
theorem Inv.live_of_run (h : Inv initproc s gs) (hg : (gs (.proc p)).stage = .run) :
    (s.proc p).state = .RUNNING := by
  have hat := h.cpus.stage (.proc p)
  simp only [At, hg] at hat
  exact hat.2.1

/-! ### History -/

section

variable {gs' : Thread C N → Know N} (h : HistInv s gs)

include h

omit [DecidableEq C]

/-- A process exits. -/
theorem HistInv.exit (hgot : ∀ u, (gs' u).mind.got = (gs u).mind.got)
    (hproc : ∀ q, q ≠ p → s'.proc q = s.proc q) (hlive : (s.proc p).state.kind = .live)
    (hz : (s'.proc p).state.kind = .zombie) (hgen : (s'.proc p).gen = (s.proc p).gen)
    (hexits : s'.exits = s.exits ++ [(s'.proc p).exit]) (hnext : s'.nextgen = s.nextgen)
    (hreaped : s'.reaped = s.reaped) (hret : s'.returned = s.returned) : HistInv s' gs' := by
  have hp : (s.proc p).state.kind ≠ .unused := by rw [hlive]; decide
  -- nobody comes, and nobody changes his generation
  have hused : ∀ q, (s'.proc q).state.kind ≠ .unused →
      (s.proc q).state.kind ≠ .unused ∧ (s'.proc q).gen = (s.proc q).gen := by
    intro q hq
    obtain rfl | hqp := eq_or_ne q p
    · exact ⟨hp, hgen⟩
    · rw [hproc q hqp] at hq ⊢
      exact ⟨hq, rfl⟩
  have hmem : ∀ {e}, e ∈ s'.exits ↔ e ∈ s.exits ∨ e = (s'.proc p).exit := by
    intro e
    rw [hexits, List.mem_append, List.mem_singleton]
  refine ⟨fun q hq => ?_, fun q r hq hr heq => ?_, fun q hq => ?_, fun e he => ?_, ?_,
    fun e he q hq heq => ?_, by rw [hreaped, hnext]; exact h.reap_lt,
    by rw [hreaped]; exact h.reap_once, fun x hx q hq => ?_, fun x hx => ?_, ?_,
    by rw [hret, hreaped]; exact h.returned, by rw [hret]; exact h.return_once⟩
  · rw [(hused q hq).2, hnext]
    exact h.gen_lt q (hused q hq).1
  · rw [(hused q hq).2, (hused r hr).2] at heq
    exact h.gen_inj q r (hused q hq).1 (hused r hr).1 heq
  · obtain rfl | hqp := eq_or_ne q p
    · exact hmem.mpr (Or.inr rfl)
    · rw [hproc q hqp] at hq ⊢
      exact hmem.mpr (Or.inl (h.zombie q hq))
  · rw [hnext]
    rcases hmem.mp he with he | rfl
    · exact h.exit_lt e he
    · exact lt_of_eq_of_lt hgen (h.gen_lt p hp)
  · rw [hexits, List.map_append]
    refine List.Nodup.append h.exit_once (List.nodup_singleton _) fun x hx hx' => ?_
    obtain ⟨e, he, rfl⟩ := List.mem_map.mp hx
    -- who has exited before is a zombie
    have hzom := h.exited e he p hp (hgen.symm.trans (List.mem_singleton.mp hx').symm)
    rw [hlive] at hzom
    cases hzom
  · rw [(hused q hq).2] at heq
    obtain rfl | hqp := eq_or_ne q p
    · exact hz
    · rcases hmem.mp he with he | rfl
      · rw [hproc q hqp]
        exact h.exited e he q (hused q hq).1 heq
      · exact absurd (h.gen_inj q p (hused q hq).1 hp (heq.trans hgen)) hqp
  · rw [(hused q hq).2]
    rw [hreaped] at hx
    exact h.gone x hx q (hused q hq).1
  · rw [hreaped] at hx
    obtain ⟨e, he, hrest⟩ := h.reap x hx
    exact ⟨e, hmem.mpr (Or.inl he), hrest⟩
  · simpa only [hreaped, hret, hgot] using h.got

/-- A process that has been freed goes down as waited for. -/
theorem HistInv.reaped {r : Reap N} (hgot : ∀ u, u ≠ .proc r.waiter → gs' u = gs u)
    (hmine : (gs' (.proc r.waiter)).mind.got = some r) (hlt : r.gen < s.nextgen)
    (hexit : ∃ e ∈ s.exits, e.gen = r.gen ∧ e.pid = r.pid ∧ ∀ st ∈ r.status, st = e.status)
    (hgone : ∀ q, (s.proc q).state.kind ≠ .unused → (s.proc q).gen ≠ r.gen)
    (hnew : ∀ x ∈ s.reaped, x.gen ≠ r.gen) :
    HistInv { s with reaped := s.reaped ++ [r] } gs' := by
  have hmem : ∀ {x}, x ∈ s.reaped ++ [r] ↔ x ∈ s.reaped ∨ x = r := by
    intro x
    rw [List.mem_append, List.mem_singleton]
  refine { h with
    reap_lt := fun x hx => ?_
    reap_once := ?_
    gone := fun x hx q hq => ?_
    reap := fun x hx => ?_
    got := fun u x hx => ?_
    returned := fun x hx => (h.returned x hx).imp_left fun hx => hmem.mpr (Or.inl hx) }
  · rcases hmem.mp hx with hx | rfl
    · exact h.reap_lt x hx
    · exact hlt
  · rw [List.map_append]
    refine List.Nodup.append h.reap_once (List.nodup_singleton _) fun x hx hx' => ?_
    obtain ⟨y, hy, rfl⟩ := List.mem_map.mp hx
    exact hnew y hy (List.mem_singleton.mp hx')
  · rcases hmem.mp hx with hx | rfl
    · exact h.gone x hx q hq
    · exact hgone q hq
  · rcases hmem.mp hx with hx | rfl
    · exact h.reap x hx
    · exact hexit
  · obtain rfl | hup := eq_or_ne u (.proc r.waiter)
    · rw [hmine] at hx
      cases hx
      refine ⟨hmem.mpr (Or.inr rfl), rfl, fun hc => ?_⟩
      -- what was returned had been freed before
      obtain ⟨y, hy, hyr⟩ := List.mem_map.mp hc
      exact hnew y.2 (h.returned y hy).1 (by rw [hyr])
    · rw [hgot u hup] at hx
      exact (h.got u x hx).imp_left fun hx => hmem.mpr (Or.inl hx)

/-- A slot is taken for the next generation. -/
theorem HistInv.next (hgot : ∀ u, (gs' u).mind.got = (gs u).mind.got) {pr : Proc N}
    (hgen : pr.gen = s.nextgen) (hz : pr.state.kind ≠ .zombie) (pid : BitVec 32) :
    HistInv { s.setProc z pr with nextpid := pid, nextgen := s.nextgen + 1 } gs' := by
  have hme : (s.setProc z pr).proc z = pr := s.setProc_self ..
  -- every generation but the new one is older
  have hold : ∀ q, q ≠ z → ((s.setProc z pr).proc q).state.kind ≠ .unused →
      (s.setProc z pr).proc q = s.proc q ∧ (s.proc q).state.kind ≠ .unused ∧
        (s.proc q).gen < s.nextgen := by
    intro q hqz hq
    have hproc := s.setProc_of_ne pr hqz
    rw [hproc] at hq
    exact ⟨hproc, hq, h.gen_lt q hq⟩
  refine { h with
    gen_lt := fun q hq => ?_
    gen_inj := fun q r hq hr heq => ?_
    zombie := fun q hq => ?_
    exit_lt := fun e he => Nat.lt_succ_of_lt (h.exit_lt e he)
    exited := fun e he q hq heq => ?_
    reap_lt := fun x hx => Nat.lt_succ_of_lt (h.reap_lt x hx)
    gone := fun x hx q hq heq => ?_
    got := fun u x hx => h.got u x (hgot u ▸ hx) }
  -- each field for the new process, and for the others
  all_goals obtain rfl | hqz := eq_or_ne q z
  · simp only [hme, hgen]
    exact Nat.lt_succ_self _
  · obtain ⟨hp, -, hlt⟩ := hold q hqz hq
    simp only [hp]
    exact Nat.lt_succ_of_lt hlt
  · by_contra hne
    obtain ⟨hp, -, hlt⟩ := hold r (Ne.symm hne) hr
    simp only [hme, hgen, hp] at heq
    omega
  · obtain ⟨hp, hq', hlt⟩ := hold q hqz hq
    obtain rfl | hrz := eq_or_ne r z
    · simp only [hme, hgen, hp] at heq
      omega
    · obtain ⟨hpr, hr', -⟩ := hold r hrz hr
      simp only [hp, hpr] at heq
      exact h.gen_inj q r hq' hr' heq
  · simp only [hme] at hq
    exact absurd hq hz
  · obtain ⟨hp, -⟩ := hold q hqz (by rw [hq]; decide)
    simp only [hp] at hq ⊢
    exact h.zombie q hq
  · have hlt := h.exit_lt e he
    simp only [hme, hgen] at heq
    omega
  · obtain ⟨hp, hq', -⟩ := hold q hqz hq
    simp only [hp] at heq ⊢
    exact h.exited e he q hq' heq
  · have hlt := h.reap_lt x hx
    simp only [hme, hgen] at heq
    omega
  · obtain ⟨hp, hq', -⟩ := hold q hqz hq
    simp only [hp] at heq
    exact h.gone x hx q hq' heq

end

/-! ### Giving children away -/

/-- Child `z` goes to `initproc`, which has to be told. -/
def Mind.orphan (m : Mind N) (initproc z : Fin N) : Mind N :=
  { m with facts := { m.facts with
    owes := fun q => m.facts.owes q ∨ q = initproc
    childless := fun q => m.facts.childless q ∨ q = z } }

theorem Inv.orphan (h : Inv initproc s gs) (hg : gs (.proc p) = ⟨.run, some .wait_lock, m⟩)
    (hc : s.mycpu (.proc p) = some c) (hp : p ≠ initproc) (hkid : m.kid = none)
    (hpar : m.facts.parent = none) (hz : (s.proc z).parent = some p) :
    Inv initproc (s.setProc z { s.proc z with parent := some initproc })
      (update gs (.proc p) ⟨.run, some .wait_lock, m.orphan initproc z⟩) := by
  set g : Know N := ⟨.run, some .wait_lock, m.orphan initproc z⟩
  set s' := s.setProc z { s.proc z with parent := some initproc }
  have hstate : ∀ r, (s'.proc r).state = (s.proc r).state := s.setProc_proj Proc.state rfl
  have hpar' : ∀ r, r ≠ z → (s'.proc r).parent = (s.proc r).parent :=
    fun r hr => by rw [s.setProc_of_ne _ hr]
  have hsame : ∀ u, SameSleep (gs u) (update gs (.proc p) g u) :=
    .of_eq hg ⟨rfl, rfl, rfl, rfl, rfl⟩
  have hkids : ∀ u, (update gs (.proc p) g u).mind.kid = (gs u).mind.kid :=
    update_proj_of_eq hg (·.mind.kid) rfl
  refine ⟨h.cpus.setOther hg hc (fun r hr => s.setProc_of_ne _ hr) rfl rfl rfl rfl rfl rfl
    rfl (Or.inl (hstate z)) fun hat => ?_, h.sleeps.congr_of_eq hg ⟨rfl, rfl, rfl, rfl, rfl⟩ nofun
    (fun r hs => ?_) rfl rfl, FamilyInv.of_holder p ?_ (fun r hr hk => ?_) (fun r np b hb => ?_) ?_
    (fun u hu => ?_) (fun _ => by rw [update_self]) ?_ fun r y hy hk hw => ?_,
    h.hist.congr (update_proj_of_eq hg (·.mind.got) rfl)
      (fun r => by rw [hstate]) (fun r => ?_) ⟨rfl, rfl, rfl, rfl⟩⟩
  · rw [s.setProc_self]
    exact hat.congr rfl rfl
  · rw [hstate] at hs
    refine ⟨hs, ?_⟩
    exact s.setProc_proj _ (by rfl) r
  · rw [hstate]
    exact h.family.init
  · obtain rfl | hrz := eq_or_ne r z
    · rw [s.setProc_self]
      refine ⟨initproc, rfl, ?_, ?_⟩ <;> rw [hstate, h.family.init] <;> exact nofun
    · rw [hstate] at hk
      rw [hpar' r hrz]
      obtain ⟨y, hy, h1, h2⟩ := h.family.parent r hr hk
      exact ⟨y, hy, by rwa [hstate], by rwa [hstate]⟩
  · rw [hkids] at hb
    obtain ⟨h1, h2⟩ := h.family.kid r np b hb
    refine ⟨by rwa [hstate], fun hb' => ?_⟩
    -- a child that is being made is not handed over: its parent is in `kfork`
    have hnz : np ≠ z := by
      rintro rfl
      have hrp := h2 hb'
      rw [hz] at hrp
      cases hrp
      rw [hg, hkid] at hb
      cases hb
    rw [hpar' np hnz]
    exact h2 hb'
  · simpa only [hkids] using h.family.kid_inj
  · rw [update_of_ne hu]
    exact h.facts_none (t := .proc p) (by rw [hg]) hu
  · have hold := h.family.hold p
    rw [hg] at hold
    rw [update_self]
    refine ⟨fun r hr => ?_, fun r hr => ?_, fun o ho => ?_⟩
    · rw [hstate]
      obtain rfl | hrz := eq_or_ne r z
      · rw [s.setProc_self]
        exact fun hh => hp (Option.some.inj hh.1).symm
      · rw [hpar' r hrz]
        exact hold.clear r hr
    · obtain rfl | hrz := eq_or_ne r z
      · rw [s.setProc_self]
        exact fun hh => hp (Option.some.inj hh).symm
      · rw [hpar' r hrz]
        exact hold.childless r (hr.resolve_right hrz)
    · rw [show (m.orphan initproc z).facts.parent = m.facts.parent from rfl, hpar] at ho
      cases ho
  · -- a zombie that `init` has got now is owed to it by this thread
    obtain rfl | hyz := eq_or_ne y z
    · rw [s.setProc_self] at hy
      cases hy
      exact ⟨.proc p, by rw [update_self]; exact Or.inr rfl⟩
    · rw [hpar' y hyz] at hy
      rw [hstate] at hk
      obtain ⟨u, hu⟩ := h.family.zombies r y hy hk
        (hw.congr hsame fun hs => by rwa [hstate] at hs)
      obtain rfl | hup := eq_or_ne u (.proc p)
      · rw [hg] at hu
        exact ⟨.proc p, by rw [update_self]; exact Or.inl hu⟩
      · exact ⟨u, by rwa [update_of_ne hup]⟩
  · exact s.setProc_proj _ (by rfl) r

/-- Process `z` is seen not to be a child. -/
def Mind.strange (m : Mind N) (z : Fin N) : Mind N :=
  { m with facts := { m.facts with childless := fun q => m.facts.childless q ∨ q = z } }

/-- While children are given away: whoever is owed a wakeup has been looked at. -/
structure Mind.Giving (m : Mind N) (initproc : Fin N) : Prop where
  kid : m.kid = none
  fall : m.fall = none
  parent : m.facts.parent = none
  owes : ∀ q, m.facts.owes q → q = initproc ∧ m.calm (.proc initproc) initproc
  rest : m.test = none ∧ m.armed = false ∧ m.got = none

variable {ps : List (Fin N)}

theorem safe_reparentFrom {Q : Unit → Know N → Prop} (hp : p ≠ initproc) (hm : m.Giving initproc)
    (hQ : ∀ m' : Mind N, m'.Giving initproc → (∀ q, m.facts.childless q → m'.facts.childless q) →
      (∀ q ∈ ps, m'.facts.childless q) → Q () ⟨.run, some .wait_lock, m'⟩) :
    Obeys C initproc (.proc p) (reparentFrom initproc p ps) ⟨.run, some .wait_lock, m⟩ Q := by
  induction ps generalizing m with
  | nil => exact hQ m hm (fun _ h => h) fun _ h => absurd h List.not_mem_nil
  | cons z ps ih =>
    rw [reparentFrom]
    have hend : ∀ m' : Mind N, m'.Giving initproc →
        (∀ q, m.facts.childless q ∨ q = z → m'.facts.childless q) →
        (∀ q ∈ ps, m'.facts.childless q) → Q () ⟨.run, some .wait_lock, m'⟩ := by
      intro m' hm' h1 h2
      refine hQ m' hm' (fun q hq => h1 q (Or.inl hq)) fun q hq => ?_
      rcases List.mem_cons.mp hq with rfl | hq
      · exact h1 q (Or.inr rfl)
      · exact h2 q hq
    -- a child goes to `init`, which is woken up; anybody else is noted as no child
    refine Safe.seq (safe_onCpu fun s gs c hI hg hc => ?_)
    split_ifs with hz
    · refine ⟨_, ⟨hI.orphan hg hc hp hm.kid hm.parent hz, .setProc (Or.inl rfl) rfl⟩, ?_⟩
      rw [if_pos rfl]
      refine Safe.seq (safe_wakeup (fun q => by simp) fun calm _ hnew => ?_)
      refine ih ⟨hm.kid, hm.fall, hm.parent, fun q hq => ⟨?_, hnew _ rfl initproc (Ne.symm hp)⟩,
        hm.rest⟩ hend
      rcases hq with hq | rfl
      · exact (hm.owes q hq).1
      · rfl
    · refine ⟨⟨.run, some .wait_lock, m.strange z⟩, ⟨hI.remind hg (fun l ch q hl hcm => ?_)
        ⟨rfl, rfl, rfl, rfl, rfl⟩ (fun _ => rfl) ?_ fun q hq => Or.inl hq, .refl s⟩, ?_⟩
      · have := hI.sleeps.calm (.proc p) l ch q
        rw [hg] at this
        exact this hl hcm
      · have hold := hI.family.hold p
        rw [hg] at hold
        refine ⟨hold.clear, fun q hq => ?_, hold.known⟩
        rcases hq with hq | rfl
        · exact hold.childless q hq
        · exact hz
      · rw [if_neg Bool.false_ne_true]
        exact ih { hm with } hend

/-! ### Exiting -/

/-- A process becomes a zombie: it has no children, and its parent has been looked at. -/
theorem Inv.zombify (h : Inv initproc s gs)
    (hg : gs (.proc p) = ⟨.owns p .RUNNING, some .wait_lock, m⟩)
    (hc : s.mycpu (.proc p) = some c) (hp : p ≠ initproc) (hchild : ∀ q, m.facts.childless q)
    (hpar : ∃ o, m.facts.parent = some o ∧ ∀ q, o = some q → m.calm (.proc q) q)
    (status : BitVec 32) :
    Inv initproc { s.setProc p { s.proc p with xstate := status, state := .ZOMBIE } with
        exits := s.exits ++ [⟨(s.proc p).gen, (s.proc p).pid, status⟩] }
      (update gs (.proc p) ⟨.owns p .ZOMBIE, some .wait_lock, m⟩) := by
  have hat := h.cpus.stage (.proc p)
  simp only [At, hg, ProcAt] at hat
  obtain ⟨-, -, hrun, hctx, -⟩ := hat
  have hlive : (s.proc p).state.kind = .live := by rw [hrun]; rfl
  set g : Know N := ⟨.owns p .ZOMBIE, some .wait_lock, m⟩
  set s' := s.setProc p { s.proc p with xstate := status, state := .ZOMBIE }
  have hproc : ∀ r, r ≠ p → s'.proc r = s.proc r := fun r hr => s.setProc_of_ne _ hr
  have hme : s'.proc p = { s.proc p with xstate := status, state := .ZOMBIE } := s.setProc_self ..
  have hparent : ∀ r, (s'.proc r).parent = (s.proc r).parent := s.setProc_proj Proc.parent rfl
  have hsame : ∀ u, SameSleep (gs u) (update gs (.proc p) g u) :=
    .of_eq hg ⟨rfl, rfl, rfl, rfl, rfl⟩
  have hmind : ∀ u, (update gs (.proc p) g u).mind = (gs u).mind :=
    update_proj_of_eq hg Know.mind rfl
  have hcpu : CpuInv s' (update gs (.proc p) g) := h.cpus.own hg rfl hctx ⟨by simp, by simp⟩ hc
  have hold := h.family.hold p
  rw [hg] at hold
  refine ⟨{ hcpu with }, h.sleeps.congr_of_eq hg ⟨rfl, rfl, rfl, rfl, rfl⟩
    (fun _ _ ho => by cases ho; exact ⟨_, rfl⟩) (fun r hs => ?_) rfl rfl,
    FamilyInv.of_holder p ?_ (fun r hr hk => ?_) (fun r np b hb => ?_) ?_ (fun u hu => ?_)
      (fun _ => by rw [update_self]) ?_ fun r y hy hk hw => ?_,
    h.hist.exit (fun u => by rw [hmind]) hproc hlive (by simp only [hme]; rfl)
      (by simp only [hme]) (by simp only [hme]; rfl) rfl rfl rfl⟩
  · obtain rfl | hr := eq_or_ne r p
    · simp only [hme] at hs
      cases hs
    · simp only [hproc r hr] at hs ⊢
      exact ⟨hs, trivial⟩
  · simp only [hproc initproc (Ne.symm hp)]
    exact h.family.init
  · have hk' : (s.proc r).state.kind = .live ∨ (s.proc r).state.kind = .zombie := by
      obtain rfl | hrp := eq_or_ne r p
      · exact Or.inl hlive
      · simpa only [hproc r hrp] using hk
    obtain ⟨y, hy, h1, h2⟩ := h.family.parent r hr hk'
    -- the exiting process has no children left
    have hyp : y ≠ p := by
      rintro rfl
      exact hold.childless r (hchild r) hy
    exact ⟨y, by simpa only [hparent] using hy, by simpa only [hproc y hyp] using h1,
      by simpa only [hproc y hyp] using h2⟩
  · rw [hmind] at hb
    obtain ⟨h1, h2⟩ := h.family.kid r np b hb
    have hnp : np ≠ p := by
      rintro rfl
      rw [hlive] at h1
      cases h1
    simp only [hproc np hnp]
    exact ⟨h1, h2⟩
  · simpa only [hmind] using h.family.kid_inj
  · rw [hmind]
    exact h.facts_none (t := .proc p) (by rw [hg]) hu
  · rw [update_self]
    refine ⟨fun r hr => ?_, fun r hr => ?_, fun o ho => ?_⟩
    · simp only [hparent]
      exact fun hh => hold.childless r (hchild r) hh.1
    · simp only [hparent]
      exact hold.childless r hr
    · simp only [hparent]
      exact hold.known o ho
  · simp only [hparent] at hy
    have hw' : Waits s gs r (.proc r) .wait_lock := by
      refine hw.congr hsame fun hs => ?_
      obtain rfl | hr := eq_or_ne r p
      · simp only [hme] at hs
        cases hs
      · simpa only [hproc r hr] using hs
    by_cases hyp : y = p
    · -- its parent has been looked at
      subst hyp
      obtain ⟨o, ho, hcalm⟩ := hpar
      have := hold.known o ho
      rw [hy] at this
      have hcm := h.sleeps.calm (.proc y) .wait_lock (.proc r) r
      rw [hg] at hcm
      exact absurd hw' (hcm rfl (hcalm r this.symm))
    · simp only [hproc y hyp] at hk
      obtain ⟨u, hu⟩ := h.family.zombies r y hy hk hw'
      exact ⟨u, by rwa [hmind]⟩

/-- What is known once the parent has been read. -/
def Mind.settle (m : Mind N) (o : Option (Fin N)) : Mind N :=
  { m with facts := { m.facts with owes := fun _ => False, parent := some o } }

theorem safe_kexit {status : BitVec 32} :
    Obeys C initproc (.proc p) (kexit initproc status) (.base .run)
      fun _ g => .base (.fresh p) = g := by
  refine Safe.seq (safe_thisproc ?_)
  split_ifs with hp
  · exact Safe.bind (R := fun (_ : Unit) _ => False) (safe_stop rfl) fun _ _ h => h.elim
  refine Safe.seq (safe_preempt rfl ?_)
  refine Safe.seq (safe_acquireSpin (by simp) rfl ?_)
  refine Safe.seq (safe_reparentFrom hp ⟨rfl, rfl, rfl, fun _ h => h.elim, rfl, rfl, rfl⟩
    fun m hm _ hall => ?_)
  have hchild : ∀ q, m.facts.childless q := fun q => hall q (List.mem_finRange q)
  -- reading the parent: whoever is owed a wakeup has been looked at
  refine Safe.seq (safe_onCpu fun s gs c hI hg hc => ?_)
  have hcalm : ∀ l ch q, some .wait_lock = some l → m.calm ch q → ¬ Waits s gs q ch l := by
    intro l ch q
    have := hI.sleeps.calm (.proc p) l ch q
    rwa [hg] at this
  have hold := hI.family.hold p
  rw [hg] at hold
  refine ⟨⟨.run, some .wait_lock, m.settle (s.proc p).parent⟩, ⟨hI.remind hg hcalm
    ⟨rfl, rfl, rfl, rfl, rfl⟩ (fun _ => rfl) ⟨hold.clear, hold.childless, fun o ho => ?_⟩
    fun q hq => Or.inr ?_, .refl s⟩, ?_⟩
  · exact Option.some.inj ho
  · obtain ⟨rfl, hc'⟩ := hm.owes q hq
    exact hcalm _ _ _ rfl hc'
  dsimp only
  generalize (s.proc p).parent = o
  refine Safe.seq (safe_wakeup (fun q => by simp) fun calm _ hnew => ?_)
  refine Safe.seq (safe_acquireOwn (by simp) ?_)
  refine Safe.seq (safe_onCpu fun s gs c hI hg hc => ?_)
  have hG : Guar s (s.setProc p { s.proc p with xstate := status, state := .ZOMBIE }) :=
    .setProc (Or.inr (by simp)) rfl
  refine ⟨_, ⟨hI.zombify hg hc hp hchild
    ⟨o, rfl, fun q hq => hnew _ (by rw [hq]; rfl) q ?_⟩ status, { hG with }⟩, ?_⟩
  · -- it is not its own parent
    rintro rfl
    have hold := hI.family.hold q
    rw [hg] at hold
    exact hold.childless q (hchild q) ((hold.known o rfl).trans hq)
  refine Safe.seq (safe_releaseFall (by simp) (Or.inr ⟨.ZOMBIE, by simp, rfl⟩) (fun _ h => h)
    (Or.inl rfl) ?_)
  have hblank : { ({ m.settle o with calm := calm } : Mind N).rest with fall := none } =
      .blank := by
    obtain ⟨h1, h2, h3⟩ := hm.rest
    simp only [Mind.rest, Mind.settle, Mind.blank, hm.kid, h1, h3]
  rw [hblank]
  exact safe_sched (Or.inr ⟨rfl, rfl⟩) (by rintro _ _ ⟨⟩) rfl

/-! ### Waiting -/

/-- Process `z` is seen not to be a zombie of this process. -/
def Mind.tidy (m : Mind N) (z : Fin N) : Mind N :=
  { m with facts := { m.facts with clear := fun q => m.facts.clear q ∨ q = z } }

/-- While `kwait` looks at the children. -/
structure Mind.Looking (m : Mind N) : Prop where
  kid : m.kid = none
  fall : m.fall = none
  test : m.test = none
  armed : m.armed = false
  parent : m.facts.parent = none
  owes : ∀ q, ¬ m.facts.owes q

theorem Mind.Looking.tidy (h : m.Looking) (z : Fin N) : (m.tidy z).Looking := { h with }

theorem Inv.tidy (h : Inv initproc s gs) (hg : gs (.proc p) = ⟨.run, some .wait_lock, m⟩)
    (hz : ¬ ((s.proc z).parent = some p ∧ (s.proc z).state.kind = .zombie)) :
    Inv initproc s (update gs (.proc p) ⟨.run, some .wait_lock, m.tidy z⟩) := by
  have hold := h.family.hold p
  rw [hg] at hold
  refine h.remind hg (fun l ch q => ?_) ⟨rfl, rfl, rfl, rfl, rfl⟩ (fun _ => rfl)
    ⟨fun q hq => ?_, hold.childless, hold.known⟩ fun q hq => Or.inl hq
  · have := h.sleeps.calm (.proc p) l ch q
    rwa [hg] at this
  · rcases hq with hq | rfl
    · exact hold.clear q hq
    · exact hz

/-- A zombie is freed. -/
theorem Inv.reap (h : Inv initproc s gs) (hg : gs (.proc p) = ⟨.run, some .wait_lock, m⟩)
    (hc : s.mycpu (.proc p) = some c) (hfree : s.lock (.proc z) = none)
    (hz : (s.proc z).state = .ZOMBIE) (r : Reap N) (hw : r.waiter = p)
    (hr : r.gen = (s.proc z).gen ∧ r.pid = (s.proc z).pid ∧
      ∀ st ∈ r.status, st = (s.proc z).xstate) (hm : m.Looking) :
    Inv initproc { s.setProc z (s.proc z).free with reaped := s.reaped ++ [r] }
        (update gs (.proc p) ⟨.run, some .wait_lock, { m with got := some r }⟩) ∧
      Guar s { s.setProc z (s.proc z).free with reaped := s.reaped ++ [r] } := by
  have hkind : (s.proc z).state.kind = .zombie := by rw [hz]; rfl
  obtain ⟨hfresh, htp⟩ := h.cpus.fresh_of_kind hfree (by rw [hkind]; exact nofun)
  set g : Know N := ⟨.run, some .wait_lock, { m with got := some r }⟩
  set s' := s.setProc z (s.proc z).free
  have hproc : ∀ y, y ≠ z → s'.proc y = s.proc y := fun y hy => s.setProc_of_ne _ hy
  have hme : s'.proc z = (s.proc z).free := s.setProc_self ..
  have hsame : ∀ u, SameSleep (gs u) (update gs (.proc p) g u) :=
    .of_eq hg ⟨rfl, rfl, rfl, rfl, rfl⟩
  have hkids : ∀ u, (update gs (.proc p) g u).mind.kid = (gs u).mind.kid :=
    update_proj_of_eq hg (·.mind.kid) rfl
  have hsleep : ∀ y, (s'.proc y).state = .SLEEPING → (s.proc y).state = .SLEEPING := by
    intro y hy
    obtain rfl | hyz := eq_or_ne y z
    · rw [hme] at hy
      cases hy
    · rwa [hproc y hyz] at hy
  -- its lock is free, so no CPU has anything to do with the zombie
  have hnot := h.cpus.not_current (p := z) (by rw [hz]; exact nofun)
    fun u d hu hul => absurd hul (h.cpus.nobody hfree u d hu)
  have hold := h.family.hold p
  rw [hg] at hold
  refine ⟨⟨h.cpus.setOther hg hc hproc rfl rfl rfl rfl rfl rfl rfl (Or.inr hfree)
      fun hat => ?_, h.sleeps.congr_of_eq hg ⟨rfl, rfl, rfl, rfl, rfl⟩ nofun
        (fun y hs => ?_) rfl rfl,
    FamilyInv.of_holder p ?_ (fun y hy hk => ?_) (fun y np b hb => ?_) ?_ (fun u hu => ?_)
      (fun _ => by rw [update_self]) ?_ fun y x hx hk hw => ?_, ?_⟩,
    ⟨fun y hy hy' => ?_, fun _ _ hy hy' => absurd hy' hy, fun y hy => ?_,
      fun _ hw => Or.inl hw⟩⟩
  · simp only [hme]
    rw [hfresh] at hat ⊢
    exact ⟨rfl, fun hon => absurd htp hon, hat.2.2.1, nofun, fun _ => Or.inr rfl⟩
  · refine ⟨hsleep y hs, ?_⟩
    obtain rfl | hyz := eq_or_ne y z
    · simp only [hme] at hs
      cases hs
    · simp only [hproc y hyz]
  · have hne : initproc ≠ z := by
      rintro rfl
      rw [h.family.init] at hkind
      cases hkind
    simp only [hproc _ hne]
    exact h.family.init
  · have hyz : y ≠ z := by
      rintro rfl
      simp only [hme] at hk
      rcases hk with hk | hk <;> cases hk
    simp only [hproc y hyz] at hk ⊢
    obtain ⟨x, hx, h1, h2⟩ := h.family.parent y hy hk
    have hxz : x ≠ z := by
      rintro rfl
      exact h2 hkind
    exact ⟨x, hx, by rwa [hproc x hxz], by rwa [hproc x hxz]⟩
  · rw [hkids] at hb
    obtain ⟨h1, h2⟩ := h.family.kid y np b hb
    have hnp : np ≠ z := by
      rintro rfl
      rw [hkind] at h1
      cases h1
    simp only [hproc np hnp]
    exact ⟨h1, h2⟩
  · simpa only [hkids] using h.family.kid_inj
  · rw [update_of_ne hu]
    exact h.facts_none (t := .proc p) (by rw [hg]) hu
  · rw [update_self]
    refine ⟨fun y hy => ?_, fun y hy => ?_, fun o ho => ?_⟩
    · obtain rfl | hyz := eq_or_ne y z
      · simp only [hme]
        exact fun hh => absurd hh.2 nofun
      · simp only [hproc y hyz]
        exact hold.clear y hy
    · obtain rfl | hyz := eq_or_ne y z
      · simp only [hme]
        exact nofun
      · simp only [hproc y hyz]
        exact hold.childless y hy
    · rw [hm.parent] at ho
      cases ho
  · -- one zombie less; who is owed a wakeup for another one is owed it still
    have hxz : x ≠ z := by
      rintro rfl
      simp only [hme] at hk
      cases hk
    simp only [hproc x hxz] at hx hk
    obtain ⟨u, hu⟩ := h.family.zombies y x hx hk (hw.congr hsame (hsleep y))
    obtain rfl | hup := eq_or_ne u (.proc p)
    · rw [hg] at hu
      exact absurd hu (hm.owes y)
    · exact ⟨u, by rwa [update_of_ne hup]⟩
  · have hzused : (s.proc z).state.kind ≠ .unused := by rw [hkind]; decide
    have hused : ∀ y, (s'.proc y).state.kind ≠ .unused → y ≠ z := by
      rintro y hy rfl
      exact hy (by rw [hme]; rfl)
    have hfreed : HistInv s' gs := by
      refine h.hist.of_used (fun _ => rfl) (fun y hy => ?_) ⟨rfl, rfl, rfl, rfl⟩
      have hyz := hused y hy
      rw [hproc y hyz] at hy ⊢
      exact ⟨hy, Iff.rfl, rfl⟩
    refine hfreed.reaped (fun u hu => update_of_ne (by rwa [← hw]) _ _)
      (by rw [hw, update_self]) (by rw [hr.1]; exact h.hist.gen_lt z hzused)
      ⟨_, h.hist.zombie z hkind, hr.1.symm, hr.2.1.symm, hr.2.2⟩ (fun y hy => ?_) fun x hx => ?_
    · -- two generations at a time are different
      have hyz := hused y hy
      rw [hproc y hyz] at hy ⊢
      rw [hr.1]
      exact fun heq => hyz (h.hist.gen_inj y z hy hzused heq)
    · rw [hr.1]
      exact (h.hist.gone x hx z hzused).symm
  · obtain rfl | hyz := eq_or_ne y z
    · simp only [hme] at hy'
      cases hy'
    · simp only [hproc y hyz] at hy'
      exact absurd hy' hy
  · obtain rfl | hyz := eq_or_ne y z
    · exact hnot
    · simp only [hproc y hyz] at hy
      exact absurd rfl hy

variable {addr : Option Bool}

theorem safe_reap {Q : Child N → Know N → Prop} (hm : m.Looking)
    (hfault : Q .fault ⟨.run, some .wait_lock, m⟩)
    (halive : Q .alive ⟨.run, some .wait_lock, m.tidy z⟩)
    (hreap : ∀ r, Q (.reaped r) ⟨.run, some .wait_lock, { m with got := some r }⟩) :
    Obeys C initproc (.proc p) (reap addr p z) ⟨.run, some .wait_lock, m⟩ Q := by
  refine safe_locked (by rw [Know.has_run]; exact nofun) fun s gs c hI hg hc hfree => ?_
  split_ifs with hz ha
  · exact ⟨_, hI.stay hg, hfault⟩
  · exact ⟨_, hI.reap hg hc hfree hz _ rfl ⟨rfl, rfl, by simp⟩ hm, hreap _⟩
  · refine ⟨_, ⟨hI.tidy hg fun hh => hz ?_, .refl s⟩, halive⟩
    have hk := hh.2
    generalize (s.proc z).state = st at hk
    cases st <;> first | rfl | cases hk

/-- What the scan of `kwait` ensures. -/
def Scanned (m : Mind N) (ps : List (Fin N)) : Child N × Bool → Know N → Prop
  | (.alive, _), g => ∃ m' : Mind N, m'.Looking ∧ m'.got = m.got ∧
      (∀ q, m.facts.clear q → m'.facts.clear q) ∧ (∀ q ∈ ps, m'.facts.clear q) ∧
      g = ⟨.run, some .wait_lock, m'⟩
  | (.fault, _), g => ∃ m' : Mind N, m'.Looking ∧ m'.got = m.got ∧ g = ⟨.run, some .wait_lock, m'⟩
  | (.reaped r, _), g => ∃ m' : Mind N, m'.Looking ∧ m'.got = some r ∧
      g = ⟨.run, some .wait_lock, m'⟩

theorem Scanned.cons {r : Child N × Bool} (h : Scanned (m.tidy z) ps r g) :
    Scanned m (z :: ps) r g := by
  obtain ⟨x, b⟩ := r
  cases x with
  | alive =>
    obtain ⟨m', h1, h2, h3, h4, rfl⟩ := h
    refine ⟨m', h1, h2, fun q hq => h3 q (Or.inl hq), fun q hq => ?_, rfl⟩
    rcases List.mem_cons.mp hq with rfl | hq
    · exact h3 q (Or.inr rfl)
    · exact h4 q hq
  | fault => exact h
  | reaped r => exact h

theorem safe_scan {b : Bool} (hm : m.Looking) :
    Obeys C initproc (.proc p) (scan addr p ps b) ⟨.run, some .wait_lock, m⟩ (Scanned m ps) := by
  induction ps generalizing m b with
  | nil => exact ⟨m, hm, rfl, fun _ h => h, fun _ h => absurd h List.not_mem_nil, rfl⟩
  | cons z ps ih =>
    rw [scan]
    refine Safe.seq (safe_onCpu fun s gs c hI hg hc => ?_)
    by_cases hz : (s.proc z).parent = some p
    · refine ⟨_, hI.stay hg, ?_⟩
      rw [if_pos hz]
      refine Safe.seq (safe_reap hm ?_ ?_ fun r => ?_)
      · exact ⟨m, hm, rfl, rfl⟩
      · exact (ih (hm.tidy z)).mono fun _ _ h => h.cons
      · exact ⟨{ m with got := some r }, { hm with }, rfl, rfl⟩
    · refine ⟨_, ⟨hI.tidy hg fun hh => hz hh.1, .refl s⟩, ?_⟩
      rw [if_neg hz]
      exact (ih (hm.tidy z)).mono fun _ _ h => h.cons

/-- What `kwait` has in mind when it returns. -/
def Mind.done (r : Option (Reap N)) : Mind N := { Mind.blank with got := r }

theorem Mind.Looking.rest (h : m.Looking) : m.rest = Mind.done m.got := by
  simp only [Mind.rest, Mind.done, Mind.blank, h.kid, h.fall, h.test]

theorem safe_kwaitLoop {rounds : ℕ} (hm : m.Looking) (hgot : m.got = none) :
    Obeys C initproc (.proc p) (kwaitLoop addr p rounds) ⟨.run, some .wait_lock, m⟩
      fun r g => (⟨.run, none, .done r⟩ : Know N) = g := by
  induction rounds generalizing m with
  | zero => exact safe_atomic fun _ _ _ _ => trivial
  | succ rounds ih =>
    -- every way out of the loop ends like this
    have hrel : ∀ {m' : Mind N} {r : Option (Reap N)}, m'.Looking → m'.got = r →
        Obeys C initproc (.proc p) (do release .wait_lock; return r)
          ⟨.run, some .wait_lock, m'⟩ fun r g => (⟨.run, none, .done r⟩ : Know N) = g := by
      intro m' r h1 h2
      refine Safe.seq (safe_releaseSpin nofun h1.owes h1.fall ?_)
      rw [h1.rest, h2]
      rfl
    rw [kwaitLoop]
    refine Safe.bind (safe_scan hm) ?_
    rintro ⟨x, havekids⟩ g' h
    cases x with
    | reaped r =>
      obtain ⟨m', h1, h2, rfl⟩ := h
      exact hrel h1 h2
    | fault =>
      obtain ⟨m', h1, h2, rfl⟩ := h
      exact hrel h1 (h2.trans hgot)
    | alive =>
      obtain ⟨m', h1, h2, -, h4, rfl⟩ := h
      cases havekids with
      | false => exact hrel h1 (h2.trans hgot)
      | true =>
        refine Safe.seq (safe_killed nofun fun dead => ?_)
        split_ifs
        · exact hrel h1 (h2.trans hgot)
        · refine Safe.seq (safe_sleep nofun h1.owes (fun k l n hk => ?_)
            (fun _ => ⟨rfl, fun q => h4 q (List.mem_finRange q)⟩)
            (ih ⟨h1.kid, rfl, h1.test, rfl, rfl, fun _ h => h⟩ (h2.trans hgot)))
          rw [h1.test] at hk
          cases hk

theorem safe_sys_wait {rounds : ℕ} :
    Obeys C initproc (.proc p) (sys_wait addr rounds) (.base .run) fun _ g => .base .run = g := by
  refine Safe.bind (R := fun r g => (⟨.run, none, .done r⟩ : Know N) = g) ?_ ?_
  · refine Safe.seq (safe_thisproc ?_)
    refine Safe.seq (safe_preempt rfl ?_)
    refine Safe.seq (safe_acquireSpin nofun rfl ?_)
    exact safe_kwaitLoop ⟨rfl, rfl, rfl, rfl, rfl, fun _ h => h⟩ rfl
  · rintro (_ | r) _ rfl
    · rfl
    · refine Safe.seq (safe_thisproc ?_)
      refine safe_onCpu fun s gs c hI hg hc => ⟨.base .run, ⟨?_, .of_same (fun _ => Or.inl rfl) rfl
        (fun _ => rfl) rfl⟩, rfl⟩
      obtain ⟨hmem, hme, hnew⟩ := hI.hist.got (.proc p) r (by rw [hg]; rfl)
      obtain rfl : p = r.waiter := by injection hme
      have hcpu := hI.cpus.remind (g := .base .run) hg rfl rfl
      have hsame : ∀ u, SameSleep (gs u) (update gs (.proc r.waiter) (.base .run) u) :=
        .of_eq hg ⟨rfl, rfl, rfl, rfl, rfl⟩
      refine ⟨{ hcpu with }, hI.sleeps.congr_of_eq hg ⟨rfl, rfl, rfl, rfl, rfl⟩ nofun
        (fun _ h => ⟨h, rfl⟩) rfl rfl,
        hI.family.congr (update_proj_of_eq hg Know.lk rfl) (update_proj_of_eq hg (·.mind.kid) rfl)
          (update_proj_of_eq hg (·.mind.facts) rfl) (fun _ => rfl) (fun _ => rfl)
          fun q hw => hw.congr hsame id, ?_⟩
      · obtain ⟨h1, h2, h3, h4, h5, h6, h7, h8, h9, h10, hgot, hret, honce⟩ := hI.hist
        refine ⟨h1, h2, h3, h4, h5, h6, h7, h8, h9, h10, fun u x hx => ?_, fun x hx => ?_, ?_⟩
        · obtain rfl | hu := eq_or_ne u (.proc r.waiter)
          · rw [update_self] at hx
            cases hx
          · rw [update_of_ne hu] at hx
            obtain ⟨h1, hwho, h3⟩ := hgot u x hx
            refine ⟨h1, hwho, fun hc => ?_⟩
            rw [List.map_append, List.mem_append] at hc
            -- two processes have not found the same child
            exact hu (by rw [hwho, List.mem_singleton.mp (hc.resolve_left h3)])
        · rcases List.mem_append.mp hx with hx | hx
          · exact hret x hx
          · rw [List.mem_singleton.mp hx]
            exact ⟨hmem, rfl⟩
        · rw [List.map_append]
          exact honce.append (List.nodup_singleton _) (List.disjoint_singleton.mpr hnew)

/-! ### Forking -/

/-- A process that is forking changes a slot that is not alive. -/
theorem Inv.slot (h : Inv initproc s gs) (s' : State C N) (hg : gs (.proc p) = ⟨.run, none, m⟩)
    (hc : s.mycpu (.proc p) = some c) (k : Option (Fin N × Bool))
    (hproc : ∀ r, r ≠ z → s'.proc r = s.proc r) (htp : s'.tp = s.tp) (hstack : s'.stack = s.stack)
    (hcur : s'.cur = s.cur) (hlock : s'.lock = s.lock) (hnoff : s'.noff = s.noff)
    (htest : s'.test = s.test) (hwoken : s'.woken = s.woken) (hfree : s.lock (.proc z) = none)
    (hdead : (s.proc z).state.kind ≠ .live) (hsl : (s'.proc z).state ≠ .SLEEPING)
    (hctx : (s'.proc z).context ≠ .kernel)
    (hzom : (s'.proc z).context = .zombie → (s'.proc z).state = .ZOMBIE ∨
      (s'.proc z).state = .UNUSED) :
    CpuInv s' (update gs (.proc p) ⟨.run, none, { m with kid := k }⟩) ∧
      SleepInv s' (update gs (.proc p) ⟨.run, none, { m with kid := k }⟩) := by
  obtain ⟨hfresh, hoff⟩ := h.cpus.fresh_of_kind hfree hdead
  set g : Know N := ⟨.run, none, { m with kid := k }⟩
  refine ⟨h.cpus.setOther hg hc hproc htp hstack hcur hlock hnoff rfl rfl
    (Or.inr hfree) fun hat => ?_, h.sleeps.congr_of_eq hg ⟨rfl, rfl, rfl, rfl, rfl⟩ nofun
    (fun r hs => ?_) htest hwoken⟩
  · rw [hfresh]
    exact ⟨rfl, fun hon => absurd hoff hon, hctx, hsl, hzom⟩
  · have hr : r ≠ z := by
      rintro rfl
      exact hsl hs
    rw [hproc r hr] at hs ⊢
    exact ⟨hs, rfl⟩

/-- The families, when such a slot is allocated, or made ready to run. -/
theorem FamilyInv.slot (h : FamilyInv initproc s gs) (hg : gs (.proc p) = ⟨.run, none, m⟩)
    (k : Option (Fin N × Bool)) (hproc : ∀ r, r ≠ z → s'.proc r = s.proc r)
    (hkind : (s.proc z).state.kind = .unused ∧ (s'.proc z).state.kind ≠ .live ∨
      (s.proc z).state.kind = .used ∧ (s'.proc z).state.kind = .live ∧
        (s'.proc z).parent = some p ∧ (s.proc p).state.kind = .live)
    (hzom : (s'.proc z).state.kind ≠ .zombie)
    (hpar : (s'.proc z).parent = (s.proc z).parent ∨ (s'.proc z).parent = none)
    (hkid : k = none ∨ k = some (z, false) ∧ (s'.proc z).state.kind = .used)
    (hinj : ∀ r b, r ≠ p → (gs (.proc r)).mind.kid ≠ some (z, b))
    (hown : (s.proc z).parent = (s'.proc z).parent ∨ ∀ o, (gs (.proc z)).mind.facts.parent ≠ some o)
    (hsleep : (s'.proc z).state ≠ .SLEEPING) :
    FamilyInv initproc s' (update gs (.proc p) ⟨.run, none, { m with kid := k }⟩) := by
  set g : Know N := ⟨.run, none, { m with kid := k }⟩
  have hfacts : ∀ u, (update gs (.proc p) g u).mind.facts = (gs u).mind.facts :=
    update_proj_of_eq hg (·.mind.facts) rfl
  have hlk : ∀ u, (update gs (.proc p) g u).lk = (gs u).lk := update_proj_of_eq hg _ rfl
  have hsame : ∀ u, SameSleep (gs u) (update gs (.proc p) g u) :=
    .of_eq hg ⟨rfl, rfl, rfl, rfl, rfl⟩
  -- whoever is a parent stays one
  have hup : ∀ y, (s.proc y).state.kind ≠ .unused → (s.proc y).state.kind ≠ .zombie →
      (s'.proc y).state.kind ≠ .unused ∧ (s'.proc y).state.kind ≠ .zombie := by
    intro y h1 h2
    obtain rfl | hy := eq_or_ne y z
    · refine ⟨?_, hzom⟩
      rcases hkind with ⟨hk, -⟩ | ⟨-, hk, -⟩
      · exact absurd hk h1
      · rw [hk]
        exact nofun
    · rw [hproc y hy]
      exact ⟨h1, h2⟩
  have hother : ∀ r np b, r ≠ p → (gs (.proc r)).mind.kid = some (np, b) → np ≠ z := by
    rintro r np b hr hb rfl
    exact hinj r b hr hb
  refine ⟨?_, fun r hr hk => ?_, fun r np b hb => ?_, fun r r' np b b' hb hb' => ?_, ?_,
    fun r y hy => ?_, fun r y hy => ?_, fun r o ho => ?_, fun r y hy hk hw => ?_⟩
  · have hne : initproc ≠ z := by
      rintro rfl
      rcases hkind with ⟨hk, -⟩ | ⟨hk, -⟩ <;> rw [h.init] at hk <;> cases hk
    rw [hproc _ hne]
    exact h.init
  · obtain rfl | hrz := eq_or_ne r z
    · rcases hkind with ⟨-, hk'⟩ | ⟨-, -, hp, hlive⟩
      · rcases hk with hk | hk
        · exact absurd hk hk'
        · exact absurd hk hzom
      · exact ⟨p, hp, hup p (by rw [hlive]; exact nofun) (by rw [hlive]; exact nofun)⟩
    · rw [hproc r hrz] at hk ⊢
      obtain ⟨y, hy, h1, h2⟩ := h.parent r hr hk
      exact ⟨y, hy, hup y h1 h2⟩
  · obtain rfl | hr := eq_or_ne r p
    · rw [update_self] at hb
      rcases hkid with rfl | ⟨rfl, hu⟩
      · cases hb
      · cases hb
        exact ⟨hu, nofun⟩
    · rw [update_of_ne (proc_ne hr)] at hb
      rw [hproc np (hother r np b hr hb)]
      exact h.kid r np b hb
  · -- no two threads make one child
    have hmine : ∀ y b, (update gs (.proc p) g (.proc p)).mind.kid = some (y, b) → y = z := by
      intro y b hy
      rw [update_self] at hy
      rcases hkid with rfl | ⟨rfl, -⟩ <;> cases hy
      rfl
    obtain rfl | hr := eq_or_ne r p
    · by_cases hr' : r' = r
      · exact hr'.symm
      · rw [update_of_ne (proc_ne hr')] at hb'
        exact absurd (hmine np b hb) (hother r' np b' hr' hb')
    · rw [update_of_ne (proc_ne hr)] at hb
      obtain rfl | hr' := eq_or_ne r' p
      · exact absurd (hmine np b' hb') (hother r np b hr hb)
      · rw [update_of_ne (proc_ne hr')] at hb'
        exact h.kid_inj r r' np b b' hb hb'
  · simpa only [hfacts, hlk] using h.holder
  · rw [hfacts] at hy
    obtain rfl | hyz := eq_or_ne y z
    · exact fun hh => hzom hh.2
    · rw [hproc y hyz]
      exact h.clear r y hy
  · rw [hfacts] at hy
    obtain rfl | hyz := eq_or_ne y z
    · rcases hpar with hp | hp
      · rw [hp]
        exact h.childless r y hy
      · rw [hp]
        exact nofun
    · rw [hproc y hyz]
      exact h.childless r y hy
  · rw [hfacts] at ho
    obtain rfl | hrz := eq_or_ne r z
    · rcases hown with hp | hp
      · rw [← hp]
        exact h.known r o ho
      · exact absurd ho (hp o)
    · rw [hproc r hrz]
      exact h.known r o ho
  · have hyz : y ≠ z := by
      rintro rfl
      exact hzom hk
    rw [hproc y hyz] at hy hk
    simp only [hfacts]
    refine h.zombies r y hy hk (hw.congr hsame fun hs => ?_)
    obtain rfl | hrz := eq_or_ne r z
    · exact absurd hs hsleep
    · rwa [hproc r hrz] at hs

/-- A slot is allocated, and freed again if there is no memory for it. -/
theorem Inv.alloc (h : Inv initproc s gs) (hg : gs (.proc p) = ⟨.run, none, m⟩)
    (hc : s.mycpu (.proc p) = some c) (hfree : s.lock (.proc z) = none)
    (hz : (s.proc z).state = .UNUSED) {pr : Proc N} (k : Option (Fin N × Bool))
    (hpr : pr = (s.proc z).alloc s.nextpid s.nextgen ∧ k = some (z, false) ∨
      pr = ((s.proc z).alloc s.nextpid s.nextgen).free ∧ k = none) :
    Inv initproc { s.setProc z pr with nextpid := s.nextpid + 1, nextgen := s.nextgen + 1 }
        (update gs (.proc p) ⟨.run, none, { m with kid := k }⟩) ∧
      Guar s { s.setProc z pr with nextpid := s.nextpid + 1, nextgen := s.nextgen + 1 } := by
  have hkind : (s.proc z).state.kind = .unused := by rw [hz]; rfl
  have hproc : ∀ y, y ≠ z → (s.setProc z pr).proc y = s.proc y := fun y hy => s.setProc_of_ne _ hy
  have hme : (s.setProc z pr).proc z = pr := s.setProc_self ..
  have hgen : pr.gen = s.nextgen := by rcases hpr with ⟨rfl, -⟩ | ⟨rfl, -⟩ <;> rfl
  have hctx : pr.context = .forkret := by rcases hpr with ⟨rfl, -⟩ | ⟨rfl, -⟩ <;> rfl
  have hstate : pr.state = .USED ∧ k = some (z, false) ∨ pr.state = .UNUSED ∧ k = none := by
    rcases hpr with ⟨rfl, rfl⟩ | ⟨rfl, rfl⟩
    · exact Or.inl ⟨rfl, rfl⟩
    · exact Or.inr ⟨rfl, rfl⟩
  have hnz : pr.state.kind ≠ .zombie := by
    rcases hstate with ⟨hs, -⟩ | ⟨hs, -⟩ <;> rw [hs] <;> exact nofun
  have hns : pr.state ≠ .SLEEPING := by
    rcases hstate with ⟨hs, -⟩ | ⟨hs, -⟩ <;> rw [hs] <;> exact nofun
  -- an entry that is not in use has no thread
  obtain ⟨hfresh, htp⟩ := h.cpus.fresh_of_kind hfree (by rw [hkind]; exact nofun)
  have hlk : (gs (.proc z)).lk = none := (h.cpus.off_of_tp htp).1
  obtain ⟨hcpu, hsl⟩ := h.slot (z := z)
    { s.setProc z pr with nextpid := s.nextpid + 1, nextgen := s.nextgen + 1 } hg hc k hproc
    rfl rfl rfl rfl rfl rfl rfl hfree (by rw [hkind]; exact nofun) (by simp only [hme]; exact hns)
    (by simp only [hme, hctx]; exact nofun) (by simp only [hme, hctx]; exact nofun)
  have hnot := h.cpus.not_current (p := z) (by rw [hz]; exact nofun)
    fun u d hu hul => absurd hul (h.cpus.nobody hfree u d hu)
  refine ⟨⟨hcpu, hsl, h.family.slot hg k hproc (Or.inl ⟨hkind, ?_⟩) ?_ ?_ ?_ (fun r b _ hb => ?_)
    (Or.inr fun o ho => ?_) ?_, ?_⟩, ⟨fun y hy hy' => ?_, fun _ _ hy hy' => absurd hy' hy,
      fun y hy => ?_, fun _ hw => Or.inl hw⟩⟩
  · simp only [hme]
    rcases hstate with ⟨hs, -⟩ | ⟨hs, -⟩ <;> rw [hs] <;> exact nofun
  · simp only [hme]
    exact hnz
  · simp only [hme]
    rcases hpr with ⟨rfl, -⟩ | ⟨rfl, -⟩
    · exact Or.inl rfl
    · exact Or.inr rfl
  · simp only [hme]
    rcases hstate with ⟨hs, rfl⟩ | ⟨hs, rfl⟩
    · exact Or.inr ⟨rfl, by rw [hs]; rfl⟩
    · exact Or.inl rfl
  · have := (h.family.kid r z b hb).1
    rw [hkind] at this
    cases this
  · have hne : (gs (.proc z)).mind.facts ≠ .none := by
      intro hf
      rw [hf] at ho
      cases ho
    have := h.family.holder _ hne
    rw [hlk] at this
    cases this
  · simp only [hme]
    exact hns
  · refine h.hist.next (fun u => ?_) hgen hnz _
    exact update_proj (fun g : Know N => g.mind.got) (by rw [hg]) u
  · obtain rfl | hyz := eq_or_ne y z
    · exact hnot
    · simp only [hproc y hyz] at hy'
      exact absurd hy' hy
  · obtain rfl | hyz := eq_or_ne y z
    · exact hnot
    · simp only [hproc y hyz] at hy
      exact absurd rfl hy

theorem safe_allocproc {mem : Bool} (hm : m.fall = none) (hkid : m.kid = none) :
    Obeys C initproc (.proc p) (allocproc mem ps) ⟨.run, none, m⟩
      fun r g => (⟨.run, none, { m with kid := r.map fun x => (x.1, false) }⟩ : Know N) = g := by
  have hm' : { m with kid := none } = m := by rw [← hkid]
  induction ps with
  | nil =>
    show (⟨.run, none, { m with kid := none }⟩ : Know N) = ⟨.run, none, m⟩
    rw [hm']
  | cons z ps ih =>
    rw [allocproc]
    refine Safe.seq (safe_preempt hm ?_)
    refine Safe.bind (R := fun r g =>
      (⟨.run, none, { m with kid := (r.bind id).map fun x => (x.1, false) }⟩ : Know N) = g)
      (safe_locked ?_ fun s gs c hI hg hc hfree => ?_) ?_
    · rw [Know.has_run]
      exact nofun
    · by_cases hz : (s.proc z).state = .UNUSED
      · rw [if_pos hz]
        cases mem with
        | true => exact ⟨_, hI.alloc hg hc hfree hz _ (Or.inl ⟨rfl, rfl⟩), rfl⟩
        | false => exact ⟨_, hI.alloc hg hc hfree hz _ (Or.inr ⟨rfl, rfl⟩), rfl⟩
      · rw [if_neg hz]
        refine ⟨⟨.run, none, m⟩, hI.stay hg, ?_⟩
        show (⟨.run, none, { m with kid := none }⟩ : Know N) = ⟨.run, none, m⟩
        rw [hm']
    · rintro (_ | r) _ rfl
      · have ih' := ih
        rwa [← hm'] at ih'
      · rfl

/-- The new process gets its parent. -/
theorem Inv.adopt (h : Inv initproc s gs) (hg : gs (.proc p) = ⟨.run, none, m⟩)
    (hc : s.mycpu (.proc p) = some c) (hfree : s.lock .wait_lock = none)
    (hkid : m.kid = some (z, false)) :
    Inv initproc (s.setProc z { s.proc z with parent := some p })
      (update gs (.proc p) ⟨.run, none, { m with kid := some (z, true) }⟩) := by
  have hused : (s.proc z).state.kind = .used := (h.family.kid p z false (by rw [hg]; exact hkid)).1
  set g : Know N := ⟨.run, none, { m with kid := some (z, true) }⟩
  set s' := s.setProc z { s.proc z with parent := some p }
  have hproc : ∀ r, r ≠ z → s'.proc r = s.proc r := fun r hr => s.setProc_of_ne _ hr
  have hstate : ∀ r, (s'.proc r).state = (s.proc r).state := s.setProc_proj Proc.state rfl
  have hsame : ∀ u, SameSleep (gs u) (update gs (.proc p) g u) :=
    .of_eq hg ⟨rfl, rfl, rfl, rfl, rfl⟩
  -- `wait_lock` is free, so nobody relies on who is whose parent
  have hfacts : ∀ u, (update gs (.proc p) g u).mind.facts = .none := by
    intro u
    rw [update_proj_of_eq (g := g) hg (·.mind.facts) rfl]
    exact h.facts_none_of_free hfree
  have hkind : ∀ r, (s.proc r).state.kind = .live ∨ (s.proc r).state.kind = .zombie → r ≠ z := by
    rintro r hr rfl
    rw [hused] at hr
    rcases hr with hr | hr <;> cases hr
  refine ⟨h.cpus.setOther hg hc hproc rfl rfl rfl rfl rfl rfl rfl (Or.inl (hstate z))
    fun hat => ?_, h.sleeps.congr_of_eq hg ⟨rfl, rfl, rfl, rfl, rfl⟩ nofun (fun r hs => ?_) rfl rfl,
    FamilyInv.of_holder p ?_ (fun r hr hk => ?_) (fun r np b hb => ?_)
      (fun r r' np b b' hb hb' => ?_)
    (fun u _ => hfacts u) (fun hf => absurd (hfacts _) hf) ?_ fun r y hy hk hw => ?_,
    h.hist.congr (update_proj_of_eq hg (·.mind.got) rfl) (fun r => by rw [hstate])
      (fun r => ?_) ⟨rfl, rfl, rfl, rfl⟩⟩
  · rw [s.setProc_self]
    exact hat.congr rfl rfl
  · rw [hstate] at hs
    have hr : r ≠ z := hkind r (Or.inl (by rw [hs]; rfl))
    exact ⟨hs, by rw [hproc r hr]⟩
  · rw [hstate]
    exact h.family.init
  · rw [hstate] at hk
    rw [hproc r (hkind r hk)]
    obtain ⟨y, hy, h1, h2⟩ := h.family.parent r hr hk
    exact ⟨y, hy, by rwa [hstate], by rwa [hstate]⟩
  · rw [hstate]
    obtain rfl | hr := eq_or_ne r p
    · rw [update_self] at hb
      cases hb
      exact ⟨hused, fun _ => by rw [s.setProc_self]⟩
    · rw [update_of_ne (proc_ne hr)] at hb
      obtain ⟨h1, h2⟩ := h.family.kid r np b hb
      refine ⟨h1, fun hb' => ?_⟩
      rw [hproc np]
      · exact h2 hb'
      · rintro rfl
        exact hr (h.family.kid_inj r p np b false hb (by rw [hg]; exact hkid))
  · have hall : ∀ r b, (update gs (.proc p) g (.proc r)).mind.kid = some (np, b) →
        ∃ b, (gs (.proc r)).mind.kid = some (np, b) := by
      intro r b hb
      obtain rfl | hr := eq_or_ne r p
      · rw [update_self] at hb
        cases hb
        exact ⟨false, by rw [hg]; exact hkid⟩
      · rw [update_of_ne (proc_ne hr)] at hb
        exact ⟨b, hb⟩
    obtain ⟨b1, h1⟩ := hall r b hb
    obtain ⟨b2, h2⟩ := hall r' b' hb'
    exact h.family.kid_inj r r' np b1 b2 h1 h2
  · rw [hfacts]
    exact Facts.none_hold _ _
  · rw [hstate] at hk
    rw [hproc y (hkind y (Or.inr hk))] at hy
    obtain ⟨u, hu⟩ := h.family.zombies r y hy hk (hw.congr hsame fun hs => by rwa [hstate] at hs)
    rw [h.facts_none_of_free hfree] at hu
    exact hu.elim
  · exact s.setProc_proj _ (by rfl) r

/-- The new process is ready to run. -/
theorem Inv.ready (h : Inv initproc s gs) (hg : gs (.proc p) = ⟨.run, none, m⟩)
    (hc : s.mycpu (.proc p) = some c) (hfree : s.lock (.proc z) = none)
    (hkid : m.kid = some (z, true)) :
    Inv initproc (s.setProc z { s.proc z with state := .RUNNABLE })
        (update gs (.proc p) ⟨.run, none, { m with kid := none }⟩) ∧
      Guar s (s.setProc z { s.proc z with state := .RUNNABLE }) := by
  obtain ⟨hused, hpar⟩ := h.family.kid p z true (by rw [hg]; exact hkid)
  set s' := s.setProc z { s.proc z with state := .RUNNABLE }
  have hproc : ∀ r, r ≠ z → s'.proc r = s.proc r := fun r hr => s.setProc_of_ne _ hr
  have hme : s'.proc z = { s.proc z with state := .RUNNABLE } := s.setProc_self ..
  have hlive : (s.proc p).state.kind = .live := by
    rw [h.live_of_run (by rw [hg])]
    rfl
  have hnl : (s.proc z).state.kind ≠ .live := by rw [hused]; simp
  obtain ⟨hfresh, -⟩ := h.cpus.fresh_of_kind hfree hnl
  have hat := h.cpus.stage (.proc z)
  simp only [At, hfresh, ProcAt] at hat
  -- the child has not run yet, let alone exited
  have hctx : (s.proc z).context ≠ .zombie := by
    intro hz
    rcases hat.2.2.2.2 hz with hs | hs <;> rw [hs] at hused <;> cases hused
  obtain ⟨hcpu, hsl⟩ := h.slot (z := z) s' hg hc none hproc rfl rfl rfl rfl rfl rfl rfl hfree hnl
    (by rw [hme]; simp)
    (by rw [hme]; exact hat.2.2.1) (by rw [hme]; exact fun hz => absurd hz hctx)
  refine ⟨⟨hcpu, hsl, h.family.slot hg none hproc (Or.inr ⟨hused, ?_, ?_, hlive⟩) ?_ (Or.inl ?_)
    (Or.inl rfl) (fun r b hr hb => ?_) (Or.inl ?_) ?_, h.hist.of_used
      (update_proj_of_eq hg (·.mind.got) rfl) (fun r hr => ?_) ⟨rfl, rfl, rfl, rfl⟩⟩,
    .setProc (Or.inr (by simp)) rfl⟩
  · rw [hme]
    rfl
  · rw [hme]
    exact hpar rfl
  · rw [hme]
    rintro ⟨⟩
  · rw [hme]
  · exact hr (h.family.kid_inj r p z b true hb (by rw [hg]; exact hkid))
  · rw [hme]
  · rw [hme]
    simp
  · obtain rfl | hrz := eq_or_ne r z
    · rw [hme, hused]
      exact ⟨by decide, iff_of_false (by rintro ⟨⟩) (by decide), rfl⟩
    · rw [hproc r hrz] at hr ⊢
      exact ⟨hr, Iff.rfl, rfl⟩

theorem safe_kfork {mem : Bool} :
    Obeys C initproc (.proc p) (kfork mem) (.base .run) fun _ g => .base .run = g := by
  refine Safe.seq (safe_thisproc ?_)
  refine Safe.bind (safe_allocproc (m := .blank) rfl rfl) ?_
  rintro (_ | ⟨np, pid⟩) _ rfl
  · rfl
  refine Safe.seq (safe_preempt rfl ?_)
  refine Safe.seq (safe_locked ?_ fun s gs c hI hg hc hfree => ⟨_, ⟨hI.adopt hg hc hfree rfl,
    .setProc (Or.inl rfl) rfl⟩, ?_⟩)
  · rw [Know.has_run]
    exact nofun
  refine Safe.seq (safe_preempt rfl ?_)
  refine Safe.seq (safe_locked ?_ fun s gs c hI hg hc hfree => ⟨_, hI.ready hg hc hfree rfl, rfl⟩)
  rw [Know.has_run]
  exact nofun

end Xv6.Sched
