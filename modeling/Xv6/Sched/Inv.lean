import Xv6.Sched.Model
import Xv6.Lib.Sum

/-!
# What holds of the processes whatever they do

The invariant of `Xv6.Sched.Model` in four parts: which thread a processor
executes and which locks it holds (`CpuInv`), who sleeps and who has looked for
sleepers (`SleepInv`), parents and children (`FamilyInv`), and the history of exits
and waits (`HistInv`).

The lock of a process travels with the processor: it is acquired by a scheduler
and released by the process it switches to, or the other way round.  A thread
that is not executed owns the lock of its process on return, whoever holds it
now; this is what the stages `Stage.off` and `Stage.switched` say.

## Main definitions

* `Stage` — where a thread is with respect to switching.
* `Facts`, `Mind` — what a thread has found out, and may rely on while it holds a lock.
* `Know` — what a thread knows.
* `Inv`, `discipline`.

## Main results

* `CpuInv.holder_unique` — a lock has one holder.
* `CpuInv.step` — a step that does not switch.
-/

namespace Xv6.Sched

open Conc
open Function (update update_of_ne update_self)

variable {C : Type} {N : ℕ} {s s' : State C N} {t u : Thread C N} {c : C}
  {p q : Fin N} {initproc : Fin N}

/-! ### What threads know -/

/-- Where a thread is with respect to switching. -/
inductive Stage (N : ℕ) where
  /-- A scheduler that has no process. -/
  | idle
  /-- It has acquired the lock of a process, which is in state `st`. -/
  | picked (p : Fin N) (st : ProcState)
  /-- It has chosen the process and is about to switch to it. -/
  | chosen (p : Fin N)
  /-- It has switched to the process. -/
  | switched (p : Fin N)
  /-- A process that runs. -/
  | run
  /-- It has acquired its own lock. -/
  | owns (p : Fin N) (st : ProcState)
  /-- It has switched to the scheduler. -/
  | off (p : Fin N)
  /-- It has not run yet, or has exited. -/
  | fresh (p : Fin N)

/-- The process whose lock the thread holds while it is executed. -/
def Stage.plock : Stage N → Option (Fin N)
  | idle => none
  | picked p _ => some p
  | chosen p => some p
  | switched p => some p
  | run => none
  | owns p _ => some p
  | off p => some p
  | fresh p => some p

/-- What the holder of `wait_lock` has found out and may rely on while it holds it. -/
structure Facts (N : ℕ) where
  /-- `owes q`: process `q` may have to be told of a zombie. -/
  owes : Fin N → Prop
  /-- `clear q`: `q` is not a zombie of mine. -/
  clear : Fin N → Prop
  /-- `childless q`: `q` is not a child of mine. -/
  childless : Fin N → Prop
  /-- My parent. -/
  parent : Option (Option (Fin N))

/-- Nothing is known. -/
def Facts.none : Facts N := ⟨fun _ => False, fun _ => False, fun _ => False, Option.none⟩

/-- What a thread has in mind, besides its place and its locks. -/
structure Mind (N : ℕ) where
  /-- `calm chan q`: process `q` does not sleep on `chan` with the lock that is held. -/
  calm : Chan N → Fin N → Prop
  facts : Facts N
  /-- In `sleep`, once the lock is released: the channel, the lock, and whether the process is
  marked as sleeping yet. -/
  fall : Option (Chan N × Lk N × Bool)
  /-- In `kfork`: the new process, and whether it has its parent yet. -/
  kid : Option (Fin N × Bool)
  /-- The last test it has made. -/
  test : Option (ℕ × ℕ × ℕ)
  /-- It has held the lock since that test. -/
  armed : Bool
  /-- In `kwait`: the child it has freed. -/
  got : Option (Reap N)

/-- Nothing. -/
def Mind.blank : Mind N := ⟨fun _ _ => False, .none, none, none, none, false, none⟩

/-- What a thread knows. -/
structure Know (N : ℕ) where
  stage : Stage N
  /-- The lock it holds, other than that of a process. -/
  lk : Option (Lk N)
  mind : Mind N

/-- Between two calls. -/
def Know.base (st : Stage N) : Know N := ⟨st, none, .blank⟩

/-- The thread holds a lock while it is executed. -/
def Know.Has (g : Know N) (l : Lk N) : Prop := g.lk = some l ∨ g.stage.plock.map Lk.proc = some l

/-- How many locks that are. -/
def Know.count (g : Know N) : ℕ := g.lk.toList.length + g.stage.plock.toList.length

/-! ### Processors and locks -/

/-- A stage of a process, against its record and whether it is executed. -/
def ProcAt (pr : Proc N) (on : Prop) (p : Fin N) : Stage N → Prop
  | .run => on ∧ pr.state = .RUNNING ∧ pr.context = .kernel
  | .owns q st => q = p ∧ on ∧ pr.state = st ∧ pr.context = .kernel ∧ st ≠ .UNUSED ∧ st ≠ .USED
  | .off q => q = p ∧ (on → pr.state = .RUNNING) ∧ pr.context = .kernel ∧
      (pr.state = .RUNNABLE ∨ pr.state = .RUNNING ∨ pr.state = .SLEEPING)
  | .fresh q => q = p ∧ (on → pr.state = .RUNNING) ∧ pr.context ≠ .kernel ∧ pr.state ≠ .SLEEPING ∧
      (pr.context = .zombie → pr.state = .ZOMBIE ∨ pr.state = .UNUSED)
  | .idle => False
  | .picked _ _ => False
  | .chosen _ => False
  | .switched _ => False

/-- A stage of a scheduler. -/
def CpuAt (s : State C N) (c : C) : Stage N → Prop
  | .idle => s.stack c = none ∧ s.cur c = none
  | .picked p st => s.stack c = none ∧ s.cur c = none ∧ (s.proc p).state = st
  | .chosen p => s.stack c = none ∧ s.cur c = some p ∧ (s.proc p).state = .RUNNING ∧ s.tp p = none
  | .switched p => s.cur c = some p ∧
      (s.stack c = some p ∨ s.stack c = none ∧ (s.proc p).state ≠ .RUNNING ∧ s.tp p = none)
  | .run => False
  | .owns _ _ => False
  | .off _ => False
  | .fresh _ => False

/-- A stage of any thread. -/
def At (s : State C N) : Thread C N → Stage N → Prop
  | .cpu c, st => CpuAt s c st
  | .proc p, st => ProcAt (s.proc p) (s.tp p ≠ none) p st

/-- Which threads are executed, and which locks they hold. -/
structure CpuInv (s : State C N) (gs : Thread C N → Know N) : Prop where
  link : ∀ p c, s.tp p = some c ↔ s.stack c = some p
  stage : ∀ t, At s t (gs t).stage
  locks : ∀ t c, s.mycpu t = some c → ∀ l, s.lock l = some c ↔ (gs t).Has l
  noff : ∀ t c, s.mycpu t = some c → s.noff c = (gs t).count
  spin : ∀ t p, (gs t).lk ≠ some (.proc p)
  /-- Only a thread that is executed holds other locks. -/
  executed : ∀ t, (gs t).lk ≠ none → (s.mycpu t).isSome = true ∧
    ((gs t).stage = .run ∨ ∃ p st, (gs t).stage = .owns p st)

variable {gs : Thread C N → Know N} {g : Know N}

section

variable (h : CpuInv s gs)

include h

theorem CpuInv.exec_unique (ht : s.mycpu t = some c) (hu : s.mycpu u = some c) : u = t := by
  cases t with
  | cpu a =>
    simp only [State.mycpu, Option.ite_none_right_eq_some, Option.some.injEq] at ht
    obtain ⟨hst, rfl⟩ := ht
    cases u with
    | cpu b =>
      simp only [State.mycpu, Option.ite_none_right_eq_some, Option.some.injEq] at hu
      rw [hu.2]
    | proc q =>
      rw [(h.link q a).mp hu] at hst
      cases hst
  | proc p =>
    have hp := (h.link p c).mp ht
    cases u with
    | cpu b =>
      simp only [State.mycpu, Option.ite_none_right_eq_some, Option.some.injEq] at hu
      obtain ⟨hst, rfl⟩ := hu
      rw [hp] at hst
      cases hst
    | proc q =>
      have hq := (h.link q c).mp hu
      rw [hp] at hq
      cases hq
      rfl

theorem CpuInv.holder_unique {l : Lk N} {d : C} (ht : s.mycpu t = some c)
    (hu : s.mycpu u = some d) (htl : (gs t).Has l) (hul : (gs u).Has l) : u = t := by
  have h1 := (h.locks t c ht l).mpr htl
  have h2 := (h.locks u d hu l).mpr hul
  rw [h1] at h2
  cases h2
  exact h.exec_unique ht hu

theorem CpuInv.lk_unique {l : Lk N} (ht : (gs t).lk = some l)
    (hu : (gs u).lk = some l) : u = t := by
  obtain ⟨c, hc⟩ := Option.isSome_iff_exists.mp (h.executed t (by rw [ht]; exact nofun)).1
  obtain ⟨d, hd⟩ := Option.isSome_iff_exists.mp (h.executed u (by rw [hu]; exact nofun)).1
  exact h.holder_unique hc hd (Or.inl ht) (Or.inl hu)

theorem CpuInv.lock_of_has {l : Lk N} (ht : s.mycpu t = some c)
    (hl : (gs t).Has l) : s.lock l ≠ none := by
  rw [(h.locks t c ht l).mpr hl]
  exact nofun

theorem CpuInv.lock_of_lk {l : Lk N} (hl : (gs t).lk = some l) : s.lock l ≠ none := by
  obtain ⟨c, hc⟩ := Option.isSome_iff_exists.mp (h.executed t (by rw [hl]; exact nofun)).1
  exact h.lock_of_has hc (Or.inl hl)

theorem CpuInv.cur_of_tp (hp : s.tp p = some c) :
    s.cur c = some p ∧ (gs (.cpu c)).stage = .switched p := by
  have hst := (h.link p c).mp hp
  have hat : CpuAt s c (gs (.cpu c)).stage := h.stage (.cpu c)
  cases hg : (gs (.cpu c)).stage <;> rw [hg] at hat
  case idle | picked | chosen =>
    rw [hat.1] at hst
    cases hst
  case switched q =>
    obtain ⟨hcur, hs | ⟨hs, -⟩⟩ := hat <;> rw [hs] at hst <;> cases hst
    exact ⟨hcur, rfl⟩
  all_goals exact hat.elim

/-- A step of a thread that does not switch. -/
theorem CpuInv.step [DecidableEq C] (ht : s.mycpu t = some c) (htp : s'.tp = s.tp)
    (hstack : s'.stack = s.stack) (hat : At s' t g.stage)
    (hother : ∀ u, u ≠ t → At s u (gs u).stage → At s' u (gs u).stage)
    (hlock : ∀ l d, d ≠ c → (s'.lock l = some d ↔ s.lock l = some d))
    (hmine : ∀ l, s'.lock l = some c ↔ g.Has l)
    (hnoff : ∀ d, d ≠ c → s'.noff d = s.noff d) (hcount : s'.noff c = g.count)
    (hspin : ∀ p, g.lk ≠ some (.proc p))
    (hrun : g.lk ≠ none → g.stage = .run ∨ ∃ p st, g.stage = .owns p st) :
    CpuInv s' (update gs t g) := by
  have hcpu : ∀ u, s'.mycpu u = s.mycpu u := by
    intro u
    cases u with
    | cpu d => simp only [State.mycpu, hstack]
    | proc q => simp only [State.mycpu, htp]
  -- the other threads are on other CPUs
  have hne : ∀ u d, u ≠ t → s.mycpu u = some d → d ≠ c := by
    rintro u d hut hu rfl
    exact hut (h.exec_unique ht hu)
  refine ⟨?_, fun u => ?_, fun u d hu l => ?_, fun u d hu => ?_, fun u q => ?_, fun u hu => ?_⟩
  · rw [htp, hstack]
    exact h.link
  · obtain rfl | hut := eq_or_ne u t
    · rwa [update_self]
    · rw [update_of_ne hut]
      exact hother u hut (h.stage u)
  · rw [hcpu] at hu
    obtain rfl | hut := eq_or_ne u t
    · rw [ht] at hu
      cases hu
      rw [update_self]
      exact hmine l
    · rw [update_of_ne hut, hlock l d (hne u d hut hu)]
      exact h.locks u d hu l
  · rw [hcpu] at hu
    obtain rfl | hut := eq_or_ne u t
    · rw [ht] at hu
      cases hu
      rwa [update_self]
    · rw [update_of_ne hut, hnoff d (hne u d hut hu)]
      exact h.noff u d hu
  · obtain rfl | hut := eq_or_ne u t
    · rw [update_self]
      exact hspin q
    · rw [update_of_ne hut]
      exact h.spin u q
  · rw [hcpu]
    obtain rfl | hut := eq_or_ne u t
    · rw [update_self] at hu ⊢
      exact ⟨by rw [ht]; rfl, hrun hu⟩
    · rw [update_of_ne hut] at hu ⊢
      exact h.executed u hu

end

/-- The other threads stay where they are when process `q` changes: if its state does, nobody
else holds its lock. -/
theorem at_frame (hproc : ∀ r, r ≠ q → s'.proc r = s.proc r)
    (htp : s'.tp = s.tp) (hstack : s'.stack = s.stack)
    (hcur : ∀ d, Thread.cpu d ≠ t → s'.cur d = s.cur d)
    (hfree : (s'.proc q).state = (s.proc q).state ∨
      ∀ u d, u ≠ t → s.mycpu u = some d → ¬ (gs u).Has (.proc q))
    (hq : Thread.proc q ≠ t → ProcAt (s.proc q) (s.tp q ≠ none) q (gs (.proc q)).stage →
      ProcAt (s'.proc q) (s.tp q ≠ none) q (gs (.proc q)).stage) :
    ∀ u, u ≠ t → At s u (gs u).stage → At s' u (gs u).stage := by
  intro u hut hat
  cases u with
  | proc r =>
    obtain rfl | hr := eq_or_ne r q
    · have := hq hut hat
      rwa [← htp] at this
    · simp only [At, hproc r hr, htp]
      exact hat
  | cpu d =>
    -- a scheduler knows the state only of a process whose lock it has
    have hstate : ∀ r, s.stack d = none → (gs (.cpu d)).Has (.proc r) →
        (s'.proc r).state = (s.proc r).state := by
      intro r hs hhas
      obtain rfl | hr := eq_or_ne r q
      · refine hfree.resolve_right fun hno => ?_
        exact hno _ d hut (by simp [State.mycpu, hs]) hhas
      · rw [hproc r hr]
    have hhas : ∀ r, (gs (.cpu d)).stage.plock = some r → (gs (.cpu d)).Has (.proc r) :=
      fun r hr => Or.inr (by rw [hr]; rfl)
    simp only [At] at hat ⊢
    cases hg : (gs (.cpu d)).stage <;> rw [hg] at hat
    case idle =>
      simp only [CpuAt, hstack, hcur d hut]
      exact hat
    case picked r st =>
      simp only [CpuAt, hstack, hcur d hut, hstate r hat.1 (hhas r (by rw [hg]; rfl))]
      exact hat
    case chosen r =>
      simp only [CpuAt, hstack, hcur d hut, htp, hstate r hat.1 (hhas r (by rw [hg]; rfl))]
      exact hat
    case switched r =>
      simp only [CpuAt, hstack, hcur d hut, htp]
      refine ⟨hat.1, hat.2.imp_right fun h' => ?_⟩
      rwa [hstate r h'.1 (hhas r (by rw [hg]; rfl))]
    all_goals exact hat

/-! ### Sleepers -/

/-- A process in state `st` that is at `fall` in `sleep` waits on `chan` with lock `lk`. -/
def Waiting (st : ProcState) (fall : Option (Chan N × Lk N × Bool)) (chan : Chan N) (lk : Lk N) :
    Prop :=
  fall = some (chan, lk, false) ∨ fall = some (chan, lk, true) ∧ st = .SLEEPING

/-- Process `q` sleeps on `chan` with lock `lk`, or is about to. -/
def Waits (s : State C N) (gs : Thread C N → Know N) (q : Fin N) (chan : Chan N) (lk : Lk N) :
    Prop :=
  Waiting (s.proc q).state (gs (.proc q)).mind.fall chan lk

/-- Who sleeps, and who has looked for sleepers. -/
structure SleepInv (s : State C N) (gs : Thread C N → Know N) : Prop where
  sleeping : ∀ p, (s.proc p).state = .SLEEPING → ∃ chan lk,
    (gs (.proc p)).mind.fall = some (chan, lk, true) ∧ (s.proc p).chan = some chan
  falling : ∀ t, (gs t).mind.fall ≠ none → (gs t).lk = none
  /-- A process that is not marked as sleeping yet has its own lock. -/
  dropping : ∀ p chan lk, (gs (.proc p)).mind.fall = some (chan, lk, false) →
    ∃ st, (gs (.proc p)).stage = .owns p st
  calm : ∀ t lk chan q, (gs t).lk = some lk → (gs t).mind.calm chan q → ¬ Waits s gs q chan lk
  test : ∀ p, s.test p = (gs (.proc p)).mind.test
  armed : ∀ t, (gs t).mind.armed = true → ∃ k l,
    (gs t).mind.test = some (k, l, s.woken k l) ∧ (gs t).lk = some (.other l)
  waits : ∀ p chan lk, Waits s gs p chan lk → ∀ k l n, (gs (.proc p)).mind.test = some (k, l, n) →
    chan = .other k ∧ lk = .other l ∧ n = s.woken k l
  /-- The lock of a process that waits for its children. -/
  waitlock : ∀ p lk, Waits s gs p (.proc p) lk → lk = .wait_lock

/-! ### Parents and children -/

/-- What matters of a state to the family of a process. -/
inductive Kind where
  | unused
  | used
  | live
  | zombie
  deriving DecidableEq

def ProcState.kind : ProcState → Kind
  | UNUSED => .unused
  | USED => .used
  | SLEEPING => .live
  | RUNNABLE => .live
  | RUNNING => .live
  | ZOMBIE => .zombie

/-- Parents and children. -/
structure FamilyInv (initproc : Fin N) (s : State C N) (gs : Thread C N → Know N) : Prop where
  init : (s.proc initproc).state.kind = .live
  parent : ∀ p, p ≠ initproc → (s.proc p).state.kind = .live ∨ (s.proc p).state.kind = .zombie →
    ∃ q, (s.proc p).parent = some q ∧ (s.proc q).state.kind ≠ .unused ∧
      (s.proc q).state.kind ≠ .zombie
  kid : ∀ p np b, (gs (.proc p)).mind.kid = some (np, b) → (s.proc np).state.kind = .used ∧
    (b = true → (s.proc np).parent = some p)
  kid_inj : ∀ p q np b b', (gs (.proc p)).mind.kid = some (np, b) →
    (gs (.proc q)).mind.kid = some (np, b') → p = q
  /-- Only the holder of `wait_lock` knows such things. -/
  holder : ∀ t, (gs t).mind.facts ≠ .none → (gs t).lk = some .wait_lock
  clear : ∀ p q, (gs (.proc p)).mind.facts.clear q →
    ¬ ((s.proc q).parent = some p ∧ (s.proc q).state.kind = .zombie)
  childless : ∀ p q, (gs (.proc p)).mind.facts.childless q → (s.proc q).parent ≠ some p
  known : ∀ p o, (gs (.proc p)).mind.facts.parent = some o → (s.proc p).parent = o
  zombies : ∀ q z, (s.proc z).parent = some q → (s.proc z).state.kind = .zombie →
    Waits s gs q (.proc q) .wait_lock → ∃ t, (gs t).mind.facts.owes q

/-! ### History -/

/-- The record of what a process leaves behind when it exits. -/
def Proc.exit (pr : Proc N) : Exit := ⟨pr.gen, pr.pid, pr.xstate⟩

/-- What went down in history. -/
structure HistInv (s : State C N) (gs : Thread C N → Know N) : Prop where
  gen_lt : ∀ p, (s.proc p).state.kind ≠ .unused → (s.proc p).gen < s.nextgen
  gen_inj : ∀ p q, (s.proc p).state.kind ≠ .unused → (s.proc q).state.kind ≠ .unused →
    (s.proc p).gen = (s.proc q).gen → p = q
  zombie : ∀ p, (s.proc p).state.kind = .zombie → (s.proc p).exit ∈ s.exits
  exit_lt : ∀ e ∈ s.exits, e.gen < s.nextgen
  exit_once : (s.exits.map Exit.gen).Nodup
  /-- A process that has exited is a zombie for as long as it is there. -/
  exited : ∀ e ∈ s.exits, ∀ p, (s.proc p).state.kind ≠ .unused → (s.proc p).gen = e.gen →
    (s.proc p).state.kind = .zombie
  reap_lt : ∀ r ∈ s.reaped, r.gen < s.nextgen
  reap_once : (s.reaped.map Reap.gen).Nodup
  gone : ∀ r ∈ s.reaped, ∀ p, (s.proc p).state.kind ≠ .unused → (s.proc p).gen ≠ r.gen
  reap : ∀ r ∈ s.reaped, ∃ e ∈ s.exits, e.gen = r.gen ∧ e.pid = r.pid ∧
    ∀ st ∈ r.status, st = e.status
  /-- What a process has found and not returned yet, it has freed itself. -/
  got : ∀ t r, (gs t).mind.got = some r →
    r ∈ s.reaped ∧ t = .proc r.waiter ∧ r ∉ s.returned.map Prod.snd
  returned : ∀ x ∈ s.returned, x.2 ∈ s.reaped ∧ x.2.waiter = x.1
  return_once : (s.returned.map Prod.snd).Nodup

/-! ### The invariant -/

structure Inv (initproc : Fin N) (s : State C N) (gs : Thread C N → Know N) : Prop where
  cpus : CpuInv s gs
  sleeps : SleepInv s gs
  family : FamilyInv initproc s gs
  hist : HistInv s gs

/-- When `sleep` returns the processor holds the lock it was called with and no other. -/
def Slept.Clean (w : Slept C N) : Prop := ∀ l, w.lock l = some w.cpu ↔ l = w.lk

/-- What every step guarantees: no process is chosen, switched to or freed while a processor
still executes it, and `sleep` returns with its lock. -/
structure Guar (s s' : State C N) : Prop where
  chosen : ∀ p, (s.proc p).state ≠ .RUNNING → (s'.proc p).state = .RUNNING →
    ∀ c, s.stack c ≠ some p ∧ s.cur c ≠ some p
  switched : ∀ p c, s.stack c ≠ some p → s'.stack c = some p → ∀ d, s.stack d ≠ some p
  freed : ∀ p, (s'.proc p).freed ≠ (s.proc p).freed → ∀ c, s.stack c ≠ some p ∧ s.cur c ≠ some p
  slept : ∀ w ∈ s'.slept, w ∈ s.slept ∨ w.Clean

theorem Guar.refl (s : State C N) : Guar s s :=
  ⟨fun _ h h' => absurd h' h, fun _ _ h h' => absurd h' h, fun _ h => absurd rfl h,
    fun _ h => Or.inl h⟩

/-- What a thread knows between two calls. -/
def Know.Resting (g : Know N) : Prop :=
  g = .base .idle ∨ g = .base .run ∨ ∃ p, g = .base (.fresh p)

/-- The discipline of the kernel threads.  The only panic is that of the first process when it
exits. -/
def discipline (C : Type) [DecidableEq C] (initproc : Fin N) :
    Discipline (Thread C N) (State C N) (Know N) where
  Inv := Inv initproc
  Guar := Guar
  refl _ := ⟨fun _ h h' => absurd h' h, fun _ _ h h' => absurd h' h, fun _ h => absurd rfl h,
    fun _ h => Or.inl h⟩
  idle := Know.Resting
  allow msg := msg = "init exiting"

/-- A program of a thread that knows `g` keeps to the discipline. -/
abbrev Obeys {α : Type} (C : Type) [DecidableEq C] (initproc : Fin N) :
    Thread C N → Prog (Thread C N) (State C N) α → Know N → (α → Know N → Prop) → Prop :=
  Safe (discipline C initproc)

/-! ### Steps that leave the families alone -/

/-- Two records that differ in ways the rest of the system does not notice. -/
structure Similar (pr pr' : Proc N) : Prop where
  parent : pr'.parent = pr.parent
  exit : pr'.exit = pr.exit
  kind : pr'.state.kind = pr.state.kind
  asleep : pr'.state = .SLEEPING → pr.state = .SLEEPING ∧ pr'.chan = pr.chan

theorem Similar.refl (pr : Proc N) : Similar pr pr := ⟨rfl, rfl, rfl, fun h => ⟨h, rfl⟩⟩

/-- Who has exited and who was waited for is the same. -/
structure SameLog (s s' : State C N) : Prop where
  nextgen : s'.nextgen = s.nextgen
  exits : s'.exits = s.exits
  reaped : s'.reaped = s.reaped
  returned : s'.returned = s.returned

/-- The history is the same. -/
structure SameHist (s s' : State C N) : Prop extends SameLog s s' where
  test : s'.test = s.test
  woken : s'.woken = s.woken

variable {gs' : Thread C N → Know N}

/-- What a thread has in mind about sleepers is the same. -/
structure SameSleep (g g' : Know N) : Prop where
  lk : g'.lk = g.lk
  calm : g'.mind.calm = g.mind.calm
  fall : g'.mind.fall = g.mind.fall
  test : g'.mind.test = g.mind.test
  armed : g'.mind.armed = g.mind.armed

theorem SameSleep.refl (g : Know N) : SameSleep g g := ⟨rfl, rfl, rfl, rfl, rfl⟩

theorem SameSleep.update [DecidableEq C] (h : SameSleep (gs t) g) (u : Thread C N) :
    SameSleep (gs u) (update gs t g u) := by
  obtain rfl | hu := eq_or_ne u t
  · rwa [update_self]
  · rw [update_of_ne hu]
    exact .refl _

theorem SameSleep.of_eq [DecidableEq C] {g0 : Know N} (hg : gs t = g0) (h : SameSleep g0 g)
    (u : Thread C N) :
    SameSleep (gs u) (Function.update gs t g u) := .update (by rwa [hg]) u

theorem Waits.congr (hg : ∀ u, SameSleep (gs u) (gs' u))
    (hp : (s'.proc q).state = .SLEEPING → (s.proc q).state = .SLEEPING) {chan : Chan N} {lk : Lk N}
    (h : Waits s' gs' q chan lk) : Waits s gs q chan lk := by
  unfold Waits Waiting at h ⊢
  rw [(hg _).fall] at h
  exact h.imp_right fun h' => ⟨h'.1, hp h'.2⟩

theorem SleepInv.congr (h : SleepInv s gs) (hg : ∀ u, SameSleep (gs u) (gs' u))
    (hp : ∀ q, (s'.proc q).state = .SLEEPING →
      (s.proc q).state = .SLEEPING ∧ (s'.proc q).chan = (s.proc q).chan)
    (ht : s'.test = s.test) (hw : s'.woken = s.woken)
    (hd : ∀ p chan lk, (gs' (.proc p)).mind.fall = some (chan, lk, false) →
      ∃ st, (gs' (.proc p)).stage = .owns p st) : SleepInv s' gs' := by
  have hlk : ∀ u, (gs' u).lk = (gs u).lk := fun u => (hg u).lk
  have hcalm : ∀ u, (gs' u).mind.calm = (gs u).mind.calm := fun u => (hg u).calm
  have hfall : ∀ u, (gs' u).mind.fall = (gs u).mind.fall := fun u => (hg u).fall
  have htest : ∀ u, (gs' u).mind.test = (gs u).mind.test := fun u => (hg u).test
  have harmed : ∀ u, (gs' u).mind.armed = (gs u).mind.armed := fun u => (hg u).armed
  refine ⟨fun p hs => ?_, ?_, hd, fun t lk chan q hl hc hwt => ?_, ?_, ?_, fun p chan lk hwt => ?_,
    fun p lk hwt => h.waitlock p lk (hwt.congr hg fun hs => (hp p hs).1)⟩
  · obtain ⟨hs', hc⟩ := hp p hs
    rw [hfall, hc]
    exact h.sleeping p hs'
  · simpa only [hfall, hlk] using h.falling
  · rw [hlk] at hl
    rw [hcalm] at hc
    exact h.calm t lk chan q hl hc (hwt.congr hg fun hs => (hp q hs).1)
  · simpa only [htest, ht] using h.test
  · simpa only [harmed, htest, hlk, hw] using h.armed
  · simpa only [htest, hw] using h.waits p chan lk (hwt.congr hg fun hs => (hp p hs).1)

theorem SleepInv.congr_of_eq [DecidableEq C] {g0 : Know N} (h : SleepInv s gs) (hg : gs t = g0)
    (hs : SameSleep g0 g) (hst : ∀ p st, g0.stage = .owns p st → ∃ st, g.stage = .owns p st)
    (hp : ∀ q, (s'.proc q).state = .SLEEPING →
      (s.proc q).state = .SLEEPING ∧ (s'.proc q).chan = (s.proc q).chan)
    (ht : s'.test = s.test) (hw : s'.woken = s.woken) : SleepInv s' (update gs t g) := by
  have hsame : ∀ u, SameSleep (gs u) (update gs t g u) := .of_eq hg hs
  refine h.congr hsame hp ht hw fun p chan lk hf => ?_
  rw [(hsame _).fall] at hf
  obtain ⟨st, hp⟩ := h.dropping p chan lk hf
  obtain rfl | hu := eq_or_ne (Thread.proc p) t
  · rw [hg] at hp
    rw [update_self]
    exact hst p st hp
  · rw [update_of_ne hu]
    exact ⟨st, hp⟩

/-- Every process that is there was there before, as far as history goes. -/
theorem HistInv.of_used (h : HistInv s gs) (hm : ∀ u, (gs' u).mind.got = (gs u).mind.got)
    (hu : ∀ q, (s'.proc q).state.kind ≠ .unused → (s.proc q).state.kind ≠ .unused ∧
      ((s'.proc q).state.kind = .zombie ↔ (s.proc q).state.kind = .zombie) ∧
      (s'.proc q).exit = (s.proc q).exit) (hh : SameLog s s') : HistInv s' gs' := by
  have hgen : ∀ q, (s'.proc q).state.kind ≠ .unused → (s'.proc q).gen = (s.proc q).gen :=
    fun q hq => congrArg Exit.gen (hu q hq).2.2
  refine ⟨fun q hq => ?_, fun q r hq hr heq => ?_, fun q hq => ?_, ?_, ?_, fun e he q hq heq => ?_,
    ?_, ?_, fun r hr q hq => ?_, ?_, ?_, ?_, ?_⟩
  · rw [hgen q hq, hh.nextgen]
    exact h.gen_lt q (hu q hq).1
  · rw [hgen q hq, hgen r hr] at heq
    exact h.gen_inj q r (hu q hq).1 (hu r hr).1 heq
  · obtain ⟨-, hz, he⟩ := hu q (by rw [hq]; decide)
    rw [he, hh.exits]
    exact h.zombie q (hz.mp hq)
  · simpa only [hh.exits, hh.nextgen] using h.exit_lt
  · simpa only [hh.exits] using h.exit_once
  · rw [hgen q hq] at heq
    rw [hh.exits] at he
    exact (hu q hq).2.1.mpr (h.exited e he q (hu q hq).1 heq)
  · simpa only [hh.reaped, hh.nextgen] using h.reap_lt
  · simpa only [hh.reaped] using h.reap_once
  · rw [hgen q hq]
    rw [hh.reaped] at hr
    exact h.gone r hr q (hu q hq).1
  · simpa only [hh.reaped, hh.exits] using h.reap
  · simpa only [hh.reaped, hh.returned, hm] using h.got
  · simpa only [hh.reaped, hh.returned] using h.returned
  · simpa only [hh.returned] using h.return_once

theorem HistInv.congr (h : HistInv s gs) (hm : ∀ u, (gs' u).mind.got = (gs u).mind.got)
    (hk : ∀ q, (s'.proc q).state.kind = (s.proc q).state.kind)
    (he : ∀ q, (s'.proc q).exit = (s.proc q).exit) (hh : SameLog s s') : HistInv s' gs' :=
  h.of_used hm (fun q hq => ⟨by rwa [← hk], by rw [hk], he q⟩) hh

theorem FamilyInv.congr (h : FamilyInv initproc s gs) (hl : ∀ u, (gs' u).lk = (gs u).lk)
    (hkid : ∀ u, (gs' u).mind.kid = (gs u).mind.kid)
    (hfacts : ∀ u, (gs' u).mind.facts = (gs u).mind.facts)
    (hpar : ∀ q, (s'.proc q).parent = (s.proc q).parent)
    (hk : ∀ q, (s'.proc q).state.kind = (s.proc q).state.kind)
    (hw : ∀ q, Waits s' gs' q (.proc q) .wait_lock → Waits s gs q (.proc q) .wait_lock) :
    FamilyInv initproc s' gs' := by
  refine ⟨?_, ?_, ?_, ?_, ?_, ?_, ?_, ?_, fun q z hz hk' hwt => ?_⟩
  · rw [hk]
    exact h.init
  · simpa only [hk, hpar] using h.parent
  · simpa only [hk, hpar, hkid] using h.kid
  · simpa only [hkid] using h.kid_inj
  · simpa only [hfacts, hl] using h.holder
  · simpa only [hk, hpar, hfacts] using h.clear
  · simpa only [hpar, hfacts] using h.childless
  · simpa only [hpar, hfacts] using h.known
  · rw [hpar] at hz
    rw [hk] at hk'
    simpa only [hfacts] using h.zombies q z hz hk' (hw q hwt)

theorem Inv.of_procs (h : Inv initproc s gs) (hc : CpuInv s' gs) (hs : SleepInv s' gs)
    (hp : s'.proc = s.proc) (hh : SameLog s s') : Inv initproc s' gs := by
  refine ⟨hc, hs, h.family.congr (fun _ => rfl) (fun _ => rfl) (fun _ => rfl)
    (fun q => by rw [hp]) (fun q => by rw [hp]) fun q hw => ?_,
    h.hist.congr (fun _ => rfl) (fun q => by rw [hp]) (fun q => by rw [hp]) hh⟩
  unfold Waits at hw ⊢
  rwa [hp] at hw

variable [DecidableEq C]

/-- A step that the families do not notice. -/
theorem Inv.similar (h : Inv initproc s gs) {g0 : Know N} (hg : gs t = g0)
    (hc : CpuInv s' (update gs t g)) (hl : g.lk = g0.lk) (hm : g.mind = g0.mind)
    (hp : ∀ q, Similar (s.proc q) (s'.proc q)) (hh : SameHist s s')
    (hd : ∀ p chan lk, t = .proc p → g.mind.fall = some (chan, lk, false) →
      ∃ st, g.stage = .owns p st) :
    Inv initproc s' (update gs t g) := by
  subst hg
  have hl' : ∀ u, (update gs t g u).lk = (gs u).lk := update_proj Know.lk hl
  have hm' : ∀ u, (update gs t g u).mind = (gs u).mind := update_proj Know.mind hm
  have hs : ∀ u, SameSleep (gs u) (update gs t g u) :=
    SameSleep.update ⟨hl, by rw [hm], by rw [hm], by rw [hm], by rw [hm]⟩
  refine ⟨hc, h.sleeps.congr hs (fun q => (hp q).asleep) hh.test hh.woken fun p chan lk hf => ?_,
    h.family.congr hl' (fun u => by rw [hm']) (fun u => by rw [hm']) (fun q => (hp q).parent)
      (fun q => (hp q).kind) fun q hw => hw.congr hs fun h => ((hp q).asleep h).1,
    h.hist.congr (fun u => by rw [hm']) (fun q => (hp q).kind) (fun q => (hp q).exit)
      hh.toSameLog⟩
  by_cases hpt : .proc p = t
  · subst hpt
    rw [update_self] at hf ⊢
    exact hd p chan lk rfl hf
  · rw [update_of_ne hpt] at hf ⊢
    exact h.sleeps.dropping p chan lk hf

end Xv6.Sched
