import Xv6.Pipes.Model

/-!
# What holds of a pipe whatever its users do

The invariant of the pipe, and the rules for the steps its functions are made of.

A process that holds `pi->lock` knows what is in the pipe, since nobody else may
change it.  When it changes the pipe so that others have no more reason to
sleep, it **owes** them a wakeup: it may not release the lock before it has
looked at every one of them (`Know.debt`).

## Main definitions

* `Pipe.MustWait` — the condition on which processes sleep on a channel.
* `Know` — what a process knows and owes.
* `Inv`, `discipline` — the invariant.

## Main results

* `safe_acquire`, `safe_release`, `safe_sleep`, `safe_wakeup`, `safe_killed`, `safe_look`,
  `safe_push`, `safe_pop`, `safe_modify` — the rules.
-/

namespace Xv6.Pipes

open Conc Function

variable {N : ℕ} {copies spare : Prop} {t p : Fin N} {s s' : State N} {d d' : Pipe} {a : Bool}
  {chan : Chan}

/-! ### The invariant -/

/-- The condition on which processes sleep on a channel. -/
def Pipe.MustWait (pi : Pipe) : Chan → Prop
  | .nread => pi.empty = true ∧ pi.writeopen = true
  | .nwrite => pi.full = true ∧ pi.readopen = true

/-- Where a process is in `sleep`. -/
inductive Phase where
  | awake
  /-- It has released `pi->lock`, and holds its own. -/
  | falling (chan : Chan)
  | asleep

/-- What a process knows and owes. -/
structure Know (N : ℕ) where
  /-- The contents of the pipe, if the process holds `pi->lock`. -/
  pipe : Option Pipe
  /-- It has found itself not killed since it took the lock. -/
  alive : Bool
  /-- `debt chan p`: it still has to look whether `p` sleeps on `chan`. -/
  debt : Chan → Fin N → Bool
  phase : Phase

/-- Without `pi->lock`. -/
def Know.outside (ph : Phase) : Know N := ⟨none, false, fun _ _ => false, ph⟩

/-- With `pi->lock`. -/
def Know.within (d : Pipe) (a : Bool) (debt : Chan → Fin N → Bool) : Know N :=
  ⟨some d, a, debt, .awake⟩

/-- Nothing is owed. -/
def noDebt : Chan → Fin N → Bool := fun _ _ => false

/-- What a process knows is true. -/
structure At (spare : Prop) (s : State N) (t : Fin N) (g : Know N) : Prop where
  lock : s.lock = some t ↔ g.pipe ≠ none
  pipe : ∀ d, g.pipe = some d → s.pipe = d
  plock : (s.proc t).lock = true ↔ ∃ chan, g.phase = .falling chan
  sleeping : (s.proc t).state = .SLEEPING → g.phase = .asleep
  debtor : ∀ chan p, g.debt chan p = true → g.pipe ≠ none
  alive : spare → g.alive = true → g.pipe ≠ none ∧ (s.proc t).killed = false

/-- The process sleeps on `chan`, or is about to. -/
def Waits (pr : Proc) (g : Know N) (chan : Chan) : Prop :=
  pr.state = .SLEEPING ∧ pr.chan = some chan ∨ g.phase = .falling chan

/-- The invariant. -/
structure Inv (copies spare : Prop) (s : State N) (gs : Fin N → Know N) : Prop where
  know : ∀ t, At spare s t (gs t)
  waits : spare → ∀ p chan, Waits (s.proc p) (gs p) chan →
    s.pipe.MustWait chan ∨ ∃ t, (gs t).debt chan p = true
  ring : Ring.Holds s.pipe.data s.pipe.nread s.pipe.nwrite s.taken s.accepted
  delivered : copies → s.delivered = s.taken

/-- The discipline of a pipe: no step panics. -/
def discipline (N : ℕ) (copies spare : Prop) : Discipline (Fin N) (State N) (Know N) where
  Inv := Inv copies spare
  Guar _ _ := True
  refl _ := trivial
  idle g := g = Know.outside .awake
  allow _ := False

variable {gs : Fin N → Know N} {g : Know N} {debt : Chan → Fin N → Bool}

/-! ### One step of one process -/

@[simp] theorem State.setProc_self (s : State N) (p : Fin N) (pr : Proc) :
    (s.setProc p pr).proc p = pr := update_self ..

variable {u : Fin N}

theorem State.setProc_of_ne (s : State N) (pr : Proc) (h : u ≠ p) :
    (s.setProc p pr).proc u = s.proc u := update_of_ne h ..

theorem at_outside {ph : Phase} (hl : s.lock ≠ some t)
    (hp : (s.proc t).lock = true ↔ ∃ chan, ph = .falling chan)
    (hs : (s.proc t).state = .SLEEPING → ph = .asleep) : At spare s t (.outside ph) where
  lock := by simp [hl, Know.outside]
  pipe _ hd := by cases hd
  plock := hp
  sleeping := hs
  debtor _ _ hd := by cases hd
  alive _ ha := by cases ha

theorem at_within : At spare s t (.within d a debt) ↔
    s.lock = some t ∧ s.pipe = d ∧ (s.proc t).lock = false ∧ (s.proc t).state ≠ .SLEEPING ∧
      (spare → a = true → (s.proc t).killed = false) := by
  constructor
  · intro h
    refine ⟨h.lock.mpr nofun, h.pipe d rfl, ?_, nofun ∘ h.sleeping, fun hs ha => (h.alive hs ha).2⟩
    by_contra hne
    obtain ⟨c, hc⟩ := h.plock.mp (Bool.eq_true_of_not_eq_false hne)
    cases hc
  · rintro ⟨hl, hp, hpl, hs, ha⟩
    refine ⟨iff_of_true hl nofun, fun d' hd => hp.trans (Option.some.inj hd), ?_,
      fun h => absurd h hs, fun _ _ _ => nofun, fun hsp h => ⟨nofun, ha hsp h⟩⟩
    rw [hpl]
    exact iff_of_false Bool.false_ne_true nofun

theorem not_waits (hs : (s.proc t).state ≠ .SLEEPING) (hph : ∀ c, g.phase ≠ .falling c) :
    ¬ Waits (s.proc t) g chan := by
  rintro (⟨h, -⟩ | h)
  · exact hs h
  · exact hph _ h

theorem At.other (h : At spare s u g) (hl : s.lock ≠ some u) (hl' : s'.lock ≠ some u)
    (hp : s'.proc u = s.proc u) : At spare s' u g := by
  have hnone : g.pipe = none := not_not.mp fun hne => hl (h.lock.mpr hne)
  refine ⟨?_, fun d hd => ?_, ?_, ?_, h.debtor, ?_⟩
  · simp [hl', hnone]
  · rw [hnone] at hd
    cases hd
  · rw [hp]
    exact h.plock
  · rw [hp]
    exact h.sleeping
  · rw [hp]
    exact h.alive

theorem Inv.debtor_eq (h : Inv copies spare s gs) (hd : (gs u).debt chan p = true) :
    s.lock = some u :=
  (h.know u).lock.mpr ((h.know u).debtor chan p hd)

/-- The steps of a process that change no other process: they may change the pipe only under
its lock. -/
theorem Inv.step (h : Inv copies spare s gs) (hme : At spare s' t g)
    (hl : s.lock = none ∨ s.lock = some t) (hl' : s'.lock = none ∨ s'.lock = some t)
    (hproc : ∀ u, u ≠ t → s'.proc u = s.proc u)
    (hown : spare → ∀ c, Waits (s'.proc t) g c → s'.pipe.MustWait c)
    (hpay : spare → ∀ q c, q ≠ t → Waits (s.proc q) (gs q) c →
      (s.pipe.MustWait c ∨ (gs t).debt c q = true) → s'.pipe.MustWait c ∨ g.debt c q = true)
    (hring : Ring.Holds s'.pipe.data s'.pipe.nread s'.pipe.nwrite s'.taken s'.accepted)
    (hdel : copies → s'.delivered = s'.taken) : Inv copies spare s' (update gs t g) := by
  have hnot : ∀ u, u ≠ t → s.lock ≠ some u ∧ s'.lock ≠ some u := by
    intro u hu
    constructor
    · rcases hl with hl | hl <;> simp [hl, Ne.symm hu]
    · rcases hl' with hl' | hl' <;> simp [hl', Ne.symm hu]
  refine ⟨fun u => ?_, fun hs q c hw => ?_, hring, hdel⟩
  · obtain rfl | hu := eq_or_ne u t
    · rwa [update_self]
    · rw [update_of_ne hu]
      exact (h.know u).other (hnot u hu).1 (hnot u hu).2 (hproc u hu)
  · obtain rfl | hq := eq_or_ne q t
    · rw [update_self] at hw
      exact Or.inl (hown hs c hw)
    · rw [update_of_ne hq, hproc q hq] at hw
      have hold : s.pipe.MustWait c ∨ (gs t).debt c q = true := by
        rcases h.waits hs q c hw with hm | ⟨u, hu⟩
        · exact Or.inl hm
        · have hut : u = t := by
            by_contra hne
            exact (hnot u hne).1 (h.debtor_eq hu)
          subst hut
          exact Or.inr hu
      rcases hpay hs q c hq hw hold with hm | hd
      · exact Or.inl hm
      · exact Or.inr ⟨t, by rwa [update_self]⟩

/-- The steps that change one process and no pipe, whoever takes them. -/
theorem Inv.touch (h : Inv copies spare s gs) {pr : Proc} (hlock : pr.lock = (s.proc p).lock)
    (hstate : pr.state = .SLEEPING → (s.proc p).state = .SLEEPING)
    (hchan : pr.chan = (s.proc p).chan)
    (hkill : spare → pr.killed = true → (s.proc p).killed = true ∨ s.lock ≠ some p) :
    Inv copies spare (s.setProc p pr) gs := by
  have hproc : ∀ u, u ≠ p → (s.setProc p pr).proc u = s.proc u := fun u hu =>
    s.setProc_of_ne pr hu
  have hself : (s.setProc p pr).proc p = pr := s.setProc_self p pr
  refine ⟨fun u => ?_, fun hs q c hw => ?_, h.ring, h.delivered⟩
  · have hu := h.know u
    obtain rfl | hup := eq_or_ne u p
    · refine ⟨hu.lock, hu.pipe, ?_, fun hst => ?_, hu.debtor, fun hs ha => ?_⟩
      · rw [hself, hlock]
        exact hu.plock
      · rw [hself] at hst
        exact hu.sleeping (hstate hst)
      · obtain ⟨hpipe, hk⟩ := hu.alive hs ha
        refine ⟨hpipe, ?_⟩
        rw [hself]
        -- who has the pipe's lock is not killed by this change
        by_contra hne
        rcases hkill hs (Bool.eq_true_of_not_eq_false hne) with hk' | hl
        · rw [hk] at hk'
          cases hk'
        · exact hl (hu.lock.mpr hpipe)
    · have heq := hproc u hup
      exact ⟨hu.lock, hu.pipe, by rw [heq]; exact hu.plock, by rw [heq]; exact hu.sleeping,
        hu.debtor, by rw [heq]; exact hu.alive⟩
  · refine h.waits hs q c ?_
    obtain rfl | hqp := eq_or_ne q p
    · rw [hself] at hw
      rcases hw with ⟨hst, hc⟩ | hf
      · exact Or.inl ⟨hstate hst, hchan ▸ hc⟩
      · exact Or.inr hf
    · rwa [hproc q hqp] at hw

/-! ### Locking and looking -/

variable {Q : Unit → Know N → Prop}

theorem safe_acquire (hQ : ∀ d, Q () (.within d false noDebt)) :
    Safe (discipline N copies spare) t acquire (.outside .awake) Q := by
  refine safe_atomic fun s gs (hI : Inv copies spare s gs) hg => ?_
  have hk := hI.know t
  rw [hg] at hk
  have hmine : s.lock ≠ some t := fun h => hk.lock.mp h rfl
  have hrun : (s.proc t).state ≠ .SLEEPING := nofun ∘ hk.sleeping
  have hpl : (s.proc t).lock = false := by
    rw [← Bool.not_eq_true, hk.plock]
    exact nofun
  rw [if_neg hmine]
  split_ifs with hfree
  · refine ⟨.within s.pipe false noDebt, ⟨hI.step (at_within.mpr ⟨rfl, rfl, hpl, hrun, nofun⟩)
      (Or.inl hfree) (Or.inr rfl) (fun _ _ => rfl) (fun _ c hw => absurd hw (not_waits hrun nofun))
      (fun _ q c _ _ ho => ?_) hI.ring hI.delivered, trivial⟩, hQ _⟩
    rwa [hg] at ho
  · trivial

theorem safe_release (hd : spare → debt = noDebt) (hQ : Q () (.outside .awake)) :
    Safe (discipline N copies spare) t release (.within d a debt) Q := by
  refine safe_atomic fun s gs (hI : Inv copies spare s gs) hg => ?_
  obtain ⟨hl, -, hpl, hrun, -⟩ := at_within.mp (hg ▸ hI.know t)
  rw [if_pos hl]
  refine ⟨.outside .awake, ⟨hI.step (at_outside nofun ?_ (fun h => absurd h hrun)) (Or.inr hl)
    (Or.inl rfl) (fun _ _ => rfl) (fun _ c hw => absurd hw (not_waits hrun nofun))
    (fun hs q c _ _ ho => ?_) hI.ring hI.delivered, trivial⟩, hQ⟩
  · rw [hpl]
    exact iff_of_false Bool.false_ne_true nofun
  · rw [hg, hd hs] at ho
    exact ho.imp_right nofun

theorem safe_look {ρ : Type} {f : Pipe → ρ} {Q : ρ → Know N → Prop}
    (hQ : Q (f d) (.within d a debt)) :
    Safe (discipline N copies spare) t (look f) (.within d a debt) Q := by
  refine Conc.safe_look fun s gs hI hg => ?_
  have hk := (show Inv copies spare s gs from hI).know t
  rw [hg] at hk
  rwa [hk.pipe d rfl]

theorem safe_myproc {Q : Fin N → Know N → Prop} (hQ : Q t g) :
    Safe (discipline N copies spare) t myproc g Q := by
  refine safe_atomic fun s gs hI hg => ⟨g, ⟨?_, trivial⟩, hQ⟩
  rwa [← hg, update_eq_self]

theorem safe_killed {Q : Bool → Know N → Prop}
    (hQ : ∀ b, (spare → a = true → b = false) → Q b (.within d (!b) debt)) :
    Safe (discipline N copies spare) t killed (.within d a debt) Q := by
  refine Safe.seq (safe_myproc ?_)
  refine safe_atomic fun s gs (hI : Inv copies spare s gs) hg => ?_
  obtain ⟨hl, hp, hpl, hrun, ha⟩ := at_within.mp (hg ▸ hI.know t)
  rw [if_neg (by rw [hpl]; exact Bool.false_ne_true)]
  refine ⟨.within d (!(s.proc t).killed) debt, ⟨hI.step (at_within.mpr ⟨hl, hp, hpl, hrun, ?_⟩)
    (Or.inr hl) (Or.inr hl) (fun _ _ => rfl) (fun _ c hw => absurd hw (not_waits hrun nofun))
    (fun _ q c _ _ ho => ?_) hI.ring hI.delivered, trivial⟩, hQ _ fun hs h => ha hs h⟩
  · intro _ h
    simpa using h
  · rwa [hg] at ho

/-! ### Sleeping and waking -/

/-- A process changes its own record, without the lock of the pipe. -/
theorem Inv.self (h : Inv copies spare s gs) {pr : Proc} {ph ph' : Phase}
    (hg : gs t = .outside ph) (hlock : pr.lock = true ↔ ∃ chan, ph' = .falling chan)
    (hstate : pr.state = .SLEEPING → ph' = .asleep)
    (hown : ∀ c, Waits pr (.outside ph' : Know N) c → Waits (s.proc t) (gs t) c) :
    Inv copies spare (s.setProc t pr) (update gs t (.outside ph')) := by
  have hself : (s.setProc t pr).proc t = pr := s.setProc_self t pr
  have hk := h.know t
  rw [hg] at hk
  refine ⟨fun u => ?_, fun hs q c hw => ?_, h.ring, h.delivered⟩
  · obtain rfl | hu := eq_or_ne u t
    · rw [update_self]
      exact at_outside (fun hl => hk.lock.mp hl rfl) (by rwa [hself]) (by rwa [hself])
    · rw [update_of_ne hu]
      have heq : (s.setProc t pr).proc u = s.proc u := s.setProc_of_ne pr hu
      have hu' := h.know u
      exact ⟨hu'.lock, hu'.pipe, by rw [heq]; exact hu'.plock, by rw [heq]; exact hu'.sleeping,
        hu'.debtor, by rw [heq]; exact hu'.alive⟩
  · have hold : Waits (s.proc q) (gs q) c := by
      obtain rfl | hq := eq_or_ne q t
      · rw [hself, update_self] at hw
        exact hown c hw
      · rwa [update_of_ne hq, s.setProc_of_ne pr hq] at hw
    refine (h.waits hs q c hold).imp_right ?_
    rintro ⟨u, hu⟩
    refine ⟨u, ?_⟩
    have hne : u ≠ t := by
      rintro rfl
      rw [hg] at hu
      cases hu
    rwa [update_of_ne hne]

/-- A process that sleeps has paid its debts and has reason to wait. -/
theorem safe_sleep (hd : spare → debt = noDebt) (hm : d.MustWait chan)
    (hQ : ∀ d, Q () (.within d false noDebt)) :
    Safe (discipline N copies spare) t (sleep chan) (.within d a debt) Q := by
  -- `pi->lock` is given up, `p->lock` is held
  refine Safe.seq (safe_act fun s gs (hI : Inv copies spare s gs) hg => ?_)
  obtain ⟨hl, hp, -, hrun, -⟩ := at_within.mp (hg ▸ hI.know t)
  have hself : ∀ pr, (s.setProc t pr).proc t = pr := s.setProc_self t
  refine ⟨.outside (.falling chan), ⟨hI.step (at_outside (by simp) ?_ fun h => ?_) (Or.inr hl)
    (Or.inl rfl) (fun u hu => update_of_ne hu ..) (fun _ c hw => ?_) (fun hs q c _ _ ho => ?_)
    hI.ring hI.delivered, trivial⟩, ?_⟩
  · simp only [hself, true_iff]
    exact ⟨chan, rfl⟩
  · exact absurd (by simpa only [hself] using h) hrun
  · rcases hw with ⟨hst, -⟩ | hf
    · exact absurd (by simpa only [hself] using hst) hrun
    · cases hf
      exact hp.symm ▸ hm
  · rw [hg, hd hs] at ho
    exact ho.imp_right (by rintro ⟨⟩)
  -- it is marked as sleeping, and `p->lock` is free again
  refine Safe.seq (safe_act fun s gs (hI : Inv copies spare s gs) hg => ⟨.outside .asleep,
    ⟨hI.self hg (iff_of_false Bool.false_ne_true (by simp)) (fun _ => rfl) fun c hw => ?_, trivial⟩,
      ?_⟩)
  · rcases hw with ⟨-, hc⟩ | hf
    · rw [hg]
      exact Or.inr (by rw [← Option.some.inj hc]; rfl)
    · cases hf
  refine Safe.seq (safe_atomic fun s gs (hI : Inv copies spare s gs) hg => ?_)
  split_ifs with hw
  · refine ⟨.outside .awake, ⟨hI.self hg ?_ (fun h => absurd h hw.2) fun c hc => ?_, trivial⟩,
      safe_acquire hQ⟩
    · exact iff_of_false (by rw [hw.1]; exact Bool.false_ne_true) (by simp)
    · rcases hc with ⟨hst, -⟩ | hf
      · exact absurd hst hw.2
      · cases hf
  · trivial

/-- Looking at one process pays what was owed to it. -/
theorem safe_wake (hne : p ≠ t)
    (hQ : Q () (.within d a (update debt chan (update (debt chan) p false)))) :
    Safe (discipline N copies spare) t
      (withProc p fun s => ((), s.setProc p ((s.proc p).wake chan))) (.within d a debt) Q := by
  refine safe_atomic fun s gs (hI : Inv copies spare s gs) hg => ?_
  obtain ⟨hl, hp, hpl, hrun, ha⟩ := at_within.mp (hg ▸ hI.know t)
  split_ifs with hplock
  · trivial
  · have hwake : (s.proc p).wake chan = s.proc p ∨
        (s.proc p).wake chan = { s.proc p with state := .RUNNABLE } := by
      unfold Proc.wake
      split_ifs
      · exact Or.inr rfl
      · exact Or.inl rfl
    have hI' : Inv copies spare (s.setProc p ((s.proc p).wake chan)) gs := by
      apply hI.touch
      · rcases hwake with h | h <;> rw [h]
      · rcases hwake with h | h <;> rw [h]
        · exact id
        · exact nofun
      · rcases hwake with h | h <;> rw [h]
      · rcases hwake with h | h <;> rw [h] <;> exact fun _ => Or.inl
    have hself : (s.setProc p ((s.proc p).wake chan)).proc t = s.proc t :=
      s.setProc_of_ne _ hne.symm
    -- `p` does not wait on the channel any more
    have hawake : ¬ Waits ((s.proc p).wake chan) (gs p) chan := by
      rintro (⟨hst, hc⟩ | hf)
      · unfold Proc.wake at hst hc
        split_ifs at hst hc with h
        exact h ⟨hst, hc⟩
      · exact hplock ((hI.know p).plock.mpr ⟨chan, hf⟩)
    refine ⟨_,
      ⟨hI'.step (at_within.mpr ⟨hl, hp, by rw [hself]; exact hpl, by rw [hself]; exact hrun,
      by rw [hself]; exact ha⟩) (Or.inr hl) (Or.inr hl) (fun _ _ => rfl) (fun _ c hw => ?_)
      (fun _ q c _ hw ho => ?_) hI.ring hI.delivered, trivial⟩, hQ⟩
    · exact absurd hw (not_waits (by rw [hself]; exact hrun) nofun)
    · rw [hg] at ho
      refine ho.imp_right fun hd => ?_
      obtain rfl | hc := eq_or_ne c chan
      · have hq : q ≠ p := by
          rintro rfl
          rw [s.setProc_self] at hw
          exact hawake hw
        simpa [Know.within, hq] using hd
      · simpa [Know.within, hc] using hd

theorem safe_wakeupFrom {ps : List (Fin N)}
    (hmem : ∀ p, debt chan p = true → p ∈ ps) (hself : debt chan t = false)
    (hQ : Q () (.within d a (update debt chan fun _ => false))) :
    Safe (discipline N copies spare) t (wakeupFrom chan t ps) (.within d a debt) Q := by
  -- the processes that have been looked at are owed nothing any more
  induction ps generalizing debt with
  | nil =>
    have hzero : debt chan = fun _ => false := by
      funext p
      by_contra hne
      exact absurd (hmem p (Bool.eq_true_of_not_eq_false hne)) List.not_mem_nil
    rwa [← hzero, update_eq_self] at hQ
  | cons p ps ih =>
    rw [wakeupFrom]
    by_cases hp : p ≠ t
    · rw [if_pos hp]
      refine Safe.seq (safe_wake hp ?_)
      apply ih
      · intro q hq
        rw [update_self] at hq
        have hqp : q ≠ p := by
          rintro rfl
          rw [update_self] at hq
          cases hq
        rw [update_of_ne hqp] at hq
        exact (List.mem_cons.mp (hmem q hq)).resolve_left hqp
      · rwa [update_self, update_of_ne hp.symm]
      · rwa [update_idem]
    · rw [if_neg hp]
      refine ih (fun q hq => (List.mem_cons.mp (hmem q hq)).resolve_left ?_) hself hQ
      rintro rfl
      rw [not_not.mp hp, hself] at hq
      cases hq

theorem safe_wakeup (hself : debt chan t = false)
    (hQ : Q () (.within d a (update debt chan fun _ => false))) :
    Safe (discipline N copies spare) t (wakeup chan) (.within d a debt) Q := by
  refine Safe.seq (safe_myproc ?_)
  exact safe_wakeupFrom (fun p _ => List.mem_finRange p) hself hQ

/-! ### Changing the pipe -/

/-- Everybody else may have to be woken. -/
def owing (t : Fin N) : Fin N → Bool := fun p => decide (p ≠ t)

/-- The process that holds the lock changes the pipe; those that sleep on `chan` may have no
more reason to. -/
theorem Inv.setPipe (h : Inv copies spare s gs) (hg : gs t = .within d a debt)
    (hlock : s'.lock = s.lock) (hproc : s'.proc = s.proc) (hp : s'.pipe = d') (chan : Chan)
    (hpay : ∀ c, c ≠ chan → d.MustWait c → d'.MustWait c)
    (hring : Ring.Holds d'.data d'.nread d'.nwrite s'.taken s'.accepted)
    (hdel : copies → s'.delivered = s'.taken) :
    Inv copies spare s' (update gs t (.within d' a (update debt chan (owing t)))) := by
  obtain ⟨hl, hpipe, hpl, hrun, ha⟩ := at_within.mp (hg ▸ h.know t)
  refine h.step (at_within.mpr ⟨hlock.trans hl, hp, ?_, ?_, ?_⟩) (Or.inr hl)
    (Or.inr (hlock.trans hl)) (fun u _ => by rw [hproc]) (fun _ c hw => ?_)
    (fun _ q c hq _ ho => ?_) (by rwa [hp]) hdel
  · rwa [hproc]
  · rwa [hproc]
  · rwa [hproc]
  · rw [hproc] at hw
    exact absurd hw (not_waits hrun nofun)
  · rw [hpipe, hg] at ho
    rw [hp]
    obtain rfl | hc := eq_or_ne c chan
    · exact Or.inr (by simpa [Know.within, owing] using hq)
    · refine ho.imp (hpay c hc) fun hd => ?_
      simpa [Know.within, hc] using hd

theorem dvd_counters : PIPESIZE ∣ 2 ^ 32 := by decide

theorem safe_push {ch : UInt8} (hf : d.full = false)
    (hQ : Q () (.within (d.push ch) a (update debt .nread (owing t)))) :
    Safe (discipline N copies spare) t (push ch) (.within d a debt) Q := by
  refine safe_act fun s gs (hI : Inv copies spare s gs) hg => ?_
  obtain ⟨-, hp, -⟩ := at_within.mp (hg ▸ hI.know t)
  subst hp
  refine ⟨_, ⟨?_, trivial⟩, hQ⟩
  refine hI.setPipe hg (by rfl) (by rfl) (by rfl) .nread (fun c hc hm => ?_) ?_ hI.delivered
  · cases c with
    | nread => exact absurd rfl hc
    | nwrite =>
      rw [Pipe.MustWait, hf] at hm
      exact absurd hm.1 Bool.false_ne_true
  · refine hI.ring.push dvd_counters (fun heq => ?_) ch
    rw [Pipe.full, heq] at hf
    simp at hf

theorem safe_pop {ok : Bool} (he : d.empty = false)
    (hok : copies → ok = true) (hQ : Q () (.within { d with nread := d.nread + 1 } a
      (update debt .nwrite (owing t)))) :
    Safe (discipline N copies spare) t (pop ok) (.within d a debt) Q := by
  refine safe_act fun s gs (hI : Inv copies spare s gs) hg => ?_
  obtain ⟨-, hp, -⟩ := at_within.mp (hg ▸ hI.know t)
  subst hp
  refine ⟨_, ⟨?_, trivial⟩, hQ⟩
  refine hI.setPipe hg (by rfl) (by rfl) (by rfl) .nwrite (fun c hc hm => ?_) ?_ fun hcp => ?_
  · cases c with
    | nread =>
      rw [Pipe.MustWait, he] at hm
      exact absurd hm.1 Bool.false_ne_true
    | nwrite => exact absurd rfl hc
  · refine hI.ring.pop fun heq => ?_
    rw [Pipe.empty, heq] at he
    simp at he
  · simp only [hok hcp, if_true, hI.delivered hcp]

theorem safe_modify {f : Pipe → Pipe} (chan : Chan)
    (hf : (f d).data = d.data ∧ (f d).nread = d.nread ∧ (f d).nwrite = d.nwrite)
    (hpay : ∀ c, c ≠ chan → d.MustWait c → (f d).MustWait c)
    (hQ : Q () (.within (f d) a (update debt chan (owing t)))) :
    Safe (discipline N copies spare) t (modify f) (.within d a debt) Q := by
  refine safe_act fun s gs (hI : Inv copies spare s gs) hg => ?_
  obtain ⟨-, hp, -⟩ := at_within.mp (hg ▸ hI.know t)
  subst hp
  refine ⟨_, ⟨?_, trivial⟩, hQ⟩
  refine hI.setPipe hg (by rfl) (by rfl) (by rfl) chan hpay ?_ hI.delivered
  rw [hf.1, hf.2.1, hf.2.2]
  exact hI.ring

end Xv6.Pipes
