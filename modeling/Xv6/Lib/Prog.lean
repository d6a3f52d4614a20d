import Mathlib.Algebra.Order.Ring.Nat
import Mathlib.Logic.Function.Basic
import Mathlib.Logic.Relation

/-!
# Programs of atomic steps, and what holds across their interleavings

A thread's program is a tree of atomic steps over a shared state: each step
either finishes with a result the rest of the program depends on, goes round a
waiting loop, or stops the machine.  A step that cannot be taken now (a lock it
needs is held by somebody else) is simply not enabled.

The same tree is run in two ways: alone, to completion (`Prog.run`), and in a
pool, where the steps of all threads interleave freely (`Pool.Step`).

Facts about pools are proved by a **discipline**: an invariant that ties the
shared state to what every thread knows about it, where a thread's knowledge is
changed by its own steps only, and a guarantee that relates the states before
and after every step.  `Safe` says that a program keeps to a discipline, and
`Discipline.invariant` and `Discipline.Good.guar` that programs which do keep
the invariant and the guarantee, whatever the interleaving.

## Main definitions

* `Outcome`, `Prog` — the result of one step, and programs.
* `Prog.run` — a thread running alone.
* `Pool`, `System`, `System.Reachable` — interleavings of any number of threads.
* `Pool.play` — the interleaving with a given order of steps.
* `Discipline`, `StepOk`, `Safe` — the proof rules.
* `Prog.Always` — every step of a program does the same to the state.

## Main results

* `System.Reachable.run`, `System.Reachable.play` — running alone, and running in a given
  order, are among the interleavings.
* `Safe.bind`, `Safe.mono` — sequencing and weakening.
* `Discipline.invariant` — **safe threads keep the invariant in every reachable pool.**
* `Discipline.Good.guar` — and the guarantee in every step from one.
-/

namespace Conc

open Function

variable {T S L α β ρ : Type}

/-! ### Steps and programs -/

/-- What one atomic step of a thread does. -/
inductive Outcome (S ρ : Type) where
  /-- The step is over, with a result and the new shared state. -/
  | done (r : ρ) (s : S)
  /-- The thread changed the state and has to try the same step again. -/
  | again (s : S)
  /-- The machine stops. -/
  | panic (msg : String)

/-- A program: a tree of atomic steps.  `none` is a step that is not enabled. -/
inductive Prog (T S : Type) (α : Type) : Type 1 where
  /-- The program is over. -/
  | ret (a : α) : Prog T S α
  /-- One atomic step, then the rest of the program. -/
  | step {ρ : Type} (f : T → S → Option (Outcome S ρ)) (k : ρ → Prog T S α) : Prog T S α

namespace Prog

/-- Sequencing. -/
def bind : Prog T S α → (α → Prog T S β) → Prog T S β
  | ret a, f => f a
  | step g k, f => step g fun r => (k r).bind f

instance : Monad (Prog T S) where
  pure := ret
  bind := bind

@[simp] theorem pure_bind (a : α) (f : α → Prog T S β) : (pure a >>= f) = f a := rfl

@[simp] theorem ret_bind (a : α) (f : α → Prog T S β) : (ret a >>= f) = f a := rfl

@[simp] theorem step_bind (g : T → S → Option (Outcome S ρ)) (k : ρ → Prog T S α)
    (f : α → Prog T S β) : (step g k >>= f) = step g fun r => k r >>= f := rfl

theorem pure_eq_ret (a : α) : (pure a : Prog T S α) = ret a := rfl

/-- A single atomic step. -/
def atomic (f : T → S → Option (Outcome S ρ)) : Prog T S ρ := step f ret

/-- A step that is always enabled and only looks at the state. -/
def look (f : S → ρ) : Prog T S ρ := atomic fun _ s => some (.done (f s) s)

/-- A step that is always enabled and changes the state. -/
def act (f : T → S → S) : Prog T S Unit := atomic fun t s => some (.done () (f t s))

/-- Stop the machine. -/
def stop (msg : String) : Prog T S α :=
  @step T S α Empty (fun _ _ => some (.panic msg)) Empty.elim

end Prog

/-! ### Running alone -/

/-- How a program that runs alone ends. -/
inductive Result (S α : Type) where
  /-- It returned. -/
  | ok (a : α) (s : S)
  /-- It waits for somebody who is not there. -/
  | stuck
  /-- It stopped the machine. -/
  | panic (msg : String)

/-- The state a program that returned has left behind. -/
def Result.state? : Result S α → Option S
  | .ok _ s => some s
  | .stuck => none
  | .panic _ => none

/-- The result of a program that returned. -/
def Result.value? : Result S α → Option α
  | .ok a _ => some a
  | .stuck => none
  | .panic _ => none

theorem Result.exists_of_value? {r : Result S α} {a : α} (h : r.value? = some a) :
    ∃ s, r = .ok a s := by
  cases r with
  | ok a' s => cases h; exact ⟨s, rfl⟩
  | stuck => cases h
  | panic msg => cases h

/-- Why a program has stopped the machine. -/
def Result.message? : Result S α → Option String
  | .ok _ _ => none
  | .stuck => none
  | .panic msg => some msg

theorem Result.eq_panic_of_message? {r : Result S α} {msg : String} (h : r.message? = some msg) :
    r = .panic msg := by
  cases r with
  | ok a s => cases h
  | stuck => cases h
  | panic msg' => cases h; rfl

/-- Go on from the end of a run. -/
def Result.bind (r : Result S α) (k : α → S → Result S β) : Result S β :=
  match r with
  | .ok a s => k a s
  | .stuck => .stuck
  | .panic msg => .panic msg

theorem Result.eq_ok_of_state? {r : Result S Unit} {s : S} (h : r.state? = some s) :
    r = .ok () s := by
  cases r with
  | ok a s' => cases h; rfl
  | stuck => cases h
  | panic msg => cases h

namespace Prog

/-- Thread `t` runs alone until its program is over. -/
def run (t : T) : Prog T S α → S → Result S α
  | ret a, s => .ok a s
  | step f k, s =>
      match f t s with
      | some (.done r s') => (k r).run t s'
      | some (.again _) => .stuck
      | some (.panic msg) => .panic msg
      | none => .stuck

/-- Running a sequence is running its parts. -/
theorem run_bind {t : T} {p : Prog T S α} {f : α → Prog T S β} {s : S} :
    (p >>= f).run t s = (p.run t s).bind fun a s' => (f a).run t s' := by
  induction p generalizing s with
  | ret a => rfl
  | step g k ih =>
    rw [step_bind]
    simp only [run]
    cases g t s with
    | none => rfl
    | some o =>
      cases o with
      | done r s1 => exact ih r
      | again s1 => rfl
      | panic msg => rfl

/-- A sequence that returns went through a state in between. -/
theorem run_bind_ok {t : T} {p : Prog T S α} {f : α → Prog T S β} {s s' : S} {b : β} :
    (p >>= f).run t s = .ok b s' ↔ ∃ a s1, p.run t s = .ok a s1 ∧ (f a).run t s1 = .ok b s' := by
  rw [run_bind]
  cases p.run t s with
  | ok a s1 =>
    constructor
    · intro h
      exact ⟨a, s1, rfl, h⟩
    · rintro ⟨_, _, h, h'⟩
      cases h
      exact h'
  | stuck => simp [Result.bind]
  | panic msg => simp [Result.bind]

end Prog

/-! ### Interleavings -/

/-- A machine with its threads: the shared state, what every thread still has
to run, and the message of the panic that stopped it, if any. -/
structure Pool (T S : Type) where
  /-- The shared state. -/
  st : S
  /-- What every thread still has to run. -/
  code : T → Prog T S Unit
  /-- Set once a thread has stopped the machine. -/
  halted : Option String

/-- Machines of a few threads have them in `Fin 2` or `Fin 3`. -/
instance neZero_two : NeZero 2 := ⟨by decide⟩

instance neZero_three : NeZero 3 := ⟨by decide⟩

/-- What threads may be asked to run, and how a machine starts and restarts. -/
structure System (T S : Type) where
  /-- The machines a run can start from. -/
  init : Pool T S → Prop
  /-- `call t s p`: in state `s` the idle thread `t` may start running `p`. -/
  call : T → S → Prog T S Unit → Prop
  /-- What the environment may do between two steps, a power failure for one. -/
  env : Pool T S → Pool T S → Prop

section Interleavings

variable [DecidableEq T]

/-- One step of one thread, the start of a new call, or a step of the environment. -/
inductive System.Step (M : System T S) : Pool T S → Pool T S → Prop where
  | done {c : Pool T S} {t : T} {ρ : Type} {f : T → S → Option (Outcome S ρ)}
      {k : ρ → Prog T S Unit} {r : ρ} {s' : S} (hc : c.halted = none)
      (hp : c.code t = .step f k) (hf : f t c.st = some (.done r s')) :
      Step M c ⟨s', Function.update c.code t (k r), none⟩
  | again {c : Pool T S} {t : T} {ρ : Type} {f : T → S → Option (Outcome S ρ)}
      {k : ρ → Prog T S Unit} {s' : S} (hc : c.halted = none)
      (hp : c.code t = .step f k) (hf : f t c.st = some (.again s')) :
      Step M c ⟨s', c.code, none⟩
  | panic {c : Pool T S} {t : T} {ρ : Type} {f : T → S → Option (Outcome S ρ)}
      {k : ρ → Prog T S Unit} {msg : String} (hc : c.halted = none)
      (hp : c.code t = .step f k) (hf : f t c.st = some (.panic msg)) :
      Step M c ⟨c.st, c.code, some msg⟩
  | call {c : Pool T S} {t : T} {p : Prog T S Unit} (hc : c.halted = none)
      (hp : c.code t = .ret ()) (hcall : M.call t c.st p) :
      Step M c ⟨c.st, Function.update c.code t p, none⟩
  | env {c c' : Pool T S} (henv : M.env c c') : Step M c c'

/-- The pools a run of the system goes through. -/
inductive System.Reachable (M : System T S) : Pool T S → Prop where
  | init {c : Pool T S} (h : M.init c) : Reachable M c
  | step {c c' : Pool T S} (h : Reachable M c) (hs : M.Step c c') : Reachable M c'

variable {M : System T S} {c : Pool T S} {p : Prog T S Unit} {t : T}

/-- A thread may run to the end of its program while the others wait. -/
theorem System.Reachable.run {s' : S}
    (h : M.Reachable c) (hh : c.halted = none) (hp : c.code t = p) (hr : p.run t c.st = .ok () s') :
    M.Reachable ⟨s', update c.code t (.ret ()), none⟩ := by
  induction p generalizing c with
  | ret a =>
    obtain ⟨st, code, halted⟩ := c
    cases hr
    cases hh
    rwa [← hp, update_eq_self]
  | step f k ih =>
    rw [Prog.run] at hr
    cases hf : f t c.st with
    | none => simp [hf] at hr
    | some o =>
      cases o with
      | done r s1 =>
        rw [hf] at hr
        have := ih r (h.step (.done hh hp hf)) rfl (by simp) hr
        simpa using this
      | again s1 => simp [hf] at hr
      | panic msg => simp [hf] at hr

/-- A call that returns when the other threads wait. -/
theorem System.Reachable.call_run
    {s' : S} (h : M.Reachable c) (hh : c.halted = none) (hp : c.code t = .ret ())
    (hcall : M.call t c.st p) (hr : p.run t c.st = .ok () s') : M.Reachable ⟨s', c.code, none⟩ := by
  have := (h.step (.call hh hp hcall)).run (t := t) rfl (by simp) hr
  rwa [update_idem, ← hp, update_eq_self] at this

/-- A call that stops the machine when the other threads wait. -/
theorem System.Reachable.call_panic
    {msg : String} (h : M.Reachable c) (hh : c.halted = none) (hp : c.code t = .ret ())
    (hcall : M.call t c.st p) (hr : p.run t c.st = .panic msg) :
    ∃ c', M.Reachable c' ∧ c'.halted = some msg := by
  have key : ∀ (p : Prog T S Unit) (c : Pool T S), M.Reachable c → c.halted = none →
      c.code t = p → p.run t c.st = .panic msg → ∃ c', M.Reachable c' ∧ c'.halted = some msg := by
    intro p
    induction p with
    | ret a =>
      intro c _ _ _ hr
      cases hr
    | step f k ih =>
      intro c h hh hp hr
      rw [Prog.run] at hr
      cases hf : f t c.st with
      | none => simp [hf] at hr
      | some o =>
        cases o with
        | done r s1 =>
          rw [hf] at hr
          exact ih r _ (h.step (.done hh hp hf)) rfl (update_self ..) hr
        | again s1 => simp [hf] at hr
        | panic m =>
          rw [hf] at hr
          cases hr
          exact ⟨_, h.step (.panic hh hp hf), rfl⟩
  exact key p _ (h.step (.call hh hp hcall)) rfl (update_self ..) hr

/-- The next step of one thread, if there is one. -/
def Pool.next (c : Pool T S) (t : T) : Option (Pool T S) :=
  match c.halted, c.code t with
  | none, .step f k =>
      match f t c.st with
      | some (.done r s') => some ⟨s', Function.update c.code t (k r), none⟩
      | some (.again s') => some ⟨s', c.code, none⟩
      | some (.panic msg) => some ⟨c.st, c.code, some msg⟩
      | none => none
  | _, _ => none

/-- The threads take their steps in a given order. -/
def Pool.play (c : Pool T S) : List T → Option (Pool T S)
  | [] => some c
  | t :: ts => (c.next t).bind fun c' => c'.play ts

theorem System.step_of_next {c c' : Pool T S} (h : c.next t = some c') : M.Step c c' := by
  unfold Pool.next at h
  split at h
  · rename_i ρ f k hh hp
    split at h
    · rename_i r s' hf
      cases h
      exact .done hh hp hf
    · rename_i s' hf
      cases h
      exact .again hh hp hf
    · rename_i msg hf
      cases h
      exact .panic hh hp hf
    · cases h
  · cases h

/-- An idle thread is given a program. -/
def Pool.start (c : Pool T S) (t : T) (p : Prog T S Unit) : Pool T S :=
  ⟨c.st, Function.update c.code t p, none⟩

/-- Any order of steps is one of the interleavings. -/
theorem System.Reachable.play {c c' : Pool T S} {ts : List T}
    (h : M.Reachable c) (hp : c.play ts = some c') : M.Reachable c' := by
  induction ts generalizing c with
  | nil =>
    cases hp
    exact h
  | cons t ts ih =>
    obtain ⟨c1, hn, hp'⟩ := Option.bind_eq_some_iff.mp hp
    exact ih (h.step (System.step_of_next hn)) hp'

theorem System.Reachable.start
    (h : M.Reachable c) (hh : c.halted = none) (hp : c.code t = .ret ()) (hcall : M.call t c.st p) :
    M.Reachable (c.start t p) :=
  h.step (.call hh hp hcall)

/-- Where an order of steps leads, if all of them can be taken. -/
theorem System.Reachable.play_getD {c d : Pool T S} {ts : List T}
    (h : M.Reachable c) (hs : (c.play ts).isSome = true) : M.Reachable ((c.play ts).getD d) := by
  obtain ⟨c', hc⟩ := Option.isSome_iff_exists.mp hs
  rw [hc]
  exact h.play hc

end Interleavings

/-! ### Disciplines -/

/-- An invariant of the shared state and of what the threads know about it, with
what every step guarantees and the panics that are tolerated.  What a thread
knows is changed by its own steps only. -/
structure Discipline (T S L : Type) where
  /-- The invariant. -/
  Inv : S → (T → L) → Prop
  /-- What holds between the states before and after a step. -/
  Guar : S → S → Prop
  /-- A step may leave the state alone. -/
  refl : ∀ s, Guar s s
  /-- What a thread knows between two calls. -/
  idle : L → Prop
  /-- The panics that may happen. -/
  allow : String → Prop

section Rules

variable [DecidableEq T]

/-- The step `f` of thread `t`, taken where `t` knows `g`, keeps the invariant for
some new knowledge of `t`; `Q` holds of its result and of that knowledge. -/
def StepOk (D : Discipline T S L) (t : T) (f : T → S → Option (Outcome S ρ)) (g : L)
    (Q : ρ → L → Prop) : Prop :=
  ∀ s gs, D.Inv s gs → gs t = g →
    match f t s with
    | none => True
    | some (.done r s') => ∃ g', (D.Inv s' (Function.update gs t g') ∧ D.Guar s s') ∧ Q r g'
    | some (.again s') => D.Inv s' gs ∧ D.Guar s s'
    | some (.panic msg) => D.allow msg

/-- Thread `t`, knowing `g`, keeps to the discipline while it runs a program, and
`Q` holds of the program's result and of what `t` knows at the end. -/
def Safe (D : Discipline T S L) (t : T) : Prog T S α → L → (α → L → Prop) → Prop
  | .ret a, g, Q => Q a g
  | .step f k, g, Q => StepOk D t f g fun r g' => Safe D t (k r) g' Q

variable {D : Discipline T S L} {t : T} {g : L}

variable {f : T → S → Option (Outcome S ρ)}

theorem StepOk.mono {Q Q' : ρ → L → Prop}
    (h : StepOk D t f g Q) (hQ : ∀ r g', Q r g' → Q' r g') : StepOk D t f g Q' := by
  intro s gs hI hg
  have := h s gs hI hg
  cases hf : f t s with
  | none => trivial
  | some o =>
    rw [hf] at this
    cases o with
    | done r s' =>
      obtain ⟨g', hI', hr⟩ := this
      exact ⟨g', hI', hQ _ _ hr⟩
    | again s' => exact this
    | panic msg => exact this

@[simp] theorem safe_pure {a : α} {Q : α → L → Prop} :
    Safe D t (pure a : Prog T S α) g Q ↔ Q a g := Iff.rfl

variable {p : Prog T S α}

theorem Safe.mono {Q Q' : α → L → Prop} (h : Safe D t p g Q)
    (hQ : ∀ a g', Q a g' → Q' a g') : Safe D t p g Q' := by
  induction p generalizing g with
  | ret a => exact hQ a g h
  | step f k ih => exact StepOk.mono h fun r g' hr => ih r hr

/-- Sequencing: what the first program ensures is what the second starts from. -/
theorem Safe.bind {f : α → Prog T S β} {R : α → L → Prop} {Q : β → L → Prop}
    (h : Safe D t p g R) (hf : ∀ a g', R a g' → Safe D t (f a) g' Q) : Safe D t (p >>= f) g Q := by
  induction p generalizing g with
  | ret a => exact hf a g h
  | step f' k ih => exact StepOk.mono h fun r g' hr => ih r hr

/-- Sequencing, where the first program ensures just what the second needs. -/
theorem Safe.seq {f : α → Prog T S β} {Q : β → L → Prop}
    (h : Safe D t p g fun a g' => Safe D t (f a) g' Q) : Safe D t (p >>= f) g Q :=
  h.bind fun _ _ hf => hf

variable {Q : ρ → L → Prop}

theorem safe_atomic (h : StepOk D t f g Q) : Safe D t (Prog.atomic f) g Q := h

/-- Looking at the state tells what the invariant says of it. -/
theorem safe_look {f : S → ρ}
    (h : ∀ s gs, D.Inv s gs → gs t = g → Q (f s) g) : Safe D t (Prog.look f) g Q := by
  intro s gs hI hg
  refine ⟨g, ⟨?_, D.refl s⟩, h s gs hI hg⟩
  rwa [← hg, update_eq_self]

/-- Looking at the state may add to what the thread knows. -/
theorem safe_look_learn {f : S → ρ}
    (h : ∀ s gs, D.Inv s gs → gs t = g →
      ∃ g', D.Inv s (update gs t g') ∧ Q (f s) g') : Safe D t (Prog.look f) g Q := by
  intro s gs hI hg
  obtain ⟨g', hI', hQ⟩ := h s gs hI hg
  exact ⟨g', ⟨hI', D.refl s⟩, hQ⟩

/-- A step that is always taken. -/
theorem safe_act {f : T → S → S} {Q : Unit → L → Prop}
    (h : ∀ s gs, D.Inv s gs → gs t = g →
      ∃ g', (D.Inv (f t s) (update gs t g') ∧ D.Guar s (f t s)) ∧ Q () g') :
    Safe D t (Prog.act f) g Q := h

theorem safe_stop {msg : String} {Q : α → L → Prop} (h : D.allow msg) :
    Safe D t (Prog.stop msg) g Q := fun _ _ _ _ => h

end Rules

/-! ### Programs whose steps all do the same -/

/-- What a step does to the state, if it is taken and does not stop the machine. -/
def StepRel (R : S → S → Prop) (f : T → S → Option (Outcome S ρ)) : Prop :=
  ∀ t s, match f t s with
    | some (.done _ s') => R s s'
    | some (.again s') => R s s'
    | some (.panic _) => True
    | none => True

/-- `R` holds between the states before and after every step of a program. -/
def Prog.Always (R : S → S → Prop) : Prog T S α → Prop
  | .ret _ => True
  | .step f k => StepRel R f ∧ ∀ r, (k r).Always R

section Always

variable {R : S → S → Prop}

@[simp] theorem Prog.always_pure (a : α) : (pure a : Prog T S α).Always R := trivial

theorem Prog.Always.bind {p : Prog T S α} {f : α → Prog T S β} (h : p.Always R)
    (hf : ∀ a, (f a).Always R) : (p >>= f).Always R := by
  induction p with
  | ret a => exact hf a
  | step g k ih => exact ⟨h.1, fun r => ih r (h.2 r)⟩

theorem Prog.always_atomic {f : T → S → Option (Outcome S ρ)} (h : StepRel R f) :
    (Prog.atomic f).Always R := ⟨h, fun _ => trivial⟩

theorem Prog.always_act {f : T → S → S} (h : ∀ t s, R s (f t s)) : (Prog.act f).Always R :=
  Prog.always_atomic h

theorem Prog.always_look (h : ∀ s, R s s) (f : S → ρ) : (Prog.look f : Prog T S ρ).Always R :=
  Prog.always_atomic fun _ s => h s

/-- A program whose steps keep the invariant, whatever the threads know, is safe. -/
theorem Prog.Always.safe [DecidableEq T] {D : Discipline T S L} {t : T} {g : L} {p : Prog T S α}
    (h : p.Always R) (hInv : ∀ s s' gs, D.Inv s gs → R s s' → D.Inv s' gs ∧ D.Guar s s')
    (hall : ∀ msg, D.allow msg) : Safe D t p g fun _ g' => g' = g := by
  induction p with
  | ret a => exact rfl
  | step f k ih =>
    intro s gs hI hg
    have hs := h.1 t s
    cases hf : f t s with
    | none => trivial
    | some o =>
      rw [hf] at hs
      cases o with
      | done r s' =>
        refine ⟨g, ?_, ih r (h.2 r)⟩
        rw [← hg, update_eq_self]
        exact hInv s s' gs hI hs
      | again s' => exact hInv s s' gs hI hs
      | panic msg => exact hall msg

end Always

/-! ### Soundness -/

section Soundness

variable [DecidableEq T]

/-- A pool whose state satisfies the invariant and whose threads are all safe. -/
structure Discipline.Good (D : Discipline T S L) (c : Pool T S) : Prop where
  safe : ∃ gs, D.Inv c.st gs ∧ ∀ t, Safe D t (c.code t) (gs t) fun _ => D.idle
  allowed : ∀ msg, c.halted = some msg → D.allow msg

variable {D : Discipline T S L} {M : System T S}

/-- One step of a good pool leads to a good pool. -/
theorem Discipline.Good.step {c c' : Pool T S} (h : D.Good c) (hs : M.Step c c')
    (hcall : ∀ t s gs p, D.Inv s gs → D.idle (gs t) → M.call t s p →
      ∃ g, D.Inv s (update gs t g) ∧ Safe D t p g fun _ => D.idle)
    (henv : ∀ c c', D.Good c → M.env c c' → D.Good c') : D.Good c' := by
  -- a step of a thread is the next step of code that is safe
  obtain ⟨gs, hI, hsafe⟩ := h.safe
  cases hs with
  | @done t ρ f k r s' hc hp hf =>
    have ht := hsafe t
    rw [hp] at ht
    have := ht c.st gs hI rfl
    rw [hf] at this
    obtain ⟨g', ⟨hI', -⟩, hk⟩ := this
    refine ⟨⟨update gs t g', hI', fun u => ?_⟩, by simp⟩
    by_cases hu : u = t
    · subst hu; simpa using hk
    · simpa [hu] using hsafe u
  | @again t ρ f k s' hc hp hf =>
    have ht := hsafe t
    rw [hp] at ht
    have := ht c.st gs hI rfl
    rw [hf] at this
    exact ⟨⟨gs, this.1, hsafe⟩, by simp⟩
  | @panic t ρ f k msg hc hp hf =>
    have ht := hsafe t
    rw [hp] at ht
    have := ht c.st gs hI rfl
    rw [hf] at this
    exact ⟨⟨gs, hI, hsafe⟩, by rintro m ⟨⟩; exact this⟩
  | @call t p hc hp hcl =>
    have hidle := hsafe t
    rw [hp] at hidle
    obtain ⟨g, hI', hp'⟩ := hcall t c.st gs p hI hidle hcl
    refine ⟨⟨update gs t g, hI', fun u => ?_⟩, by simp⟩
    by_cases hu : u = t
    · subst hu; simpa using hp'
    · simpa [hu] using hsafe u
  | env he => exact henv _ _ h he

/-- **Safe threads keep the invariant in every reachable pool**, whatever the
interleaving, the calls that are started and the steps of the environment. -/
theorem Discipline.invariant (hinit : ∀ c, M.init c → D.Good c)
    (hcall : ∀ t s gs p, D.Inv s gs → D.idle (gs t) → M.call t s p →
      ∃ g, D.Inv s (update gs t g) ∧ Safe D t p g fun _ => D.idle)
    (henv : ∀ c c', D.Good c → M.env c c' → D.Good c') {c : Pool T S}
    (h : M.Reachable c) : D.Good c := by
  induction h with
  | init h => exact hinit _ h
  | step _ hs ih => exact ih.step hs hcall henv

/-- Every step of a good pool that is not one of the environment gives the guarantee. -/
theorem Discipline.Good.guar {c c' : Pool T S} (h : D.Good c) (hs : M.Step c c') :
    M.env c c' ∨ D.Guar c.st c'.st := by
  obtain ⟨gs, hI, hsafe⟩ := h.safe
  cases hs with
  | @done t ρ f k r s' hc hp hf =>
    have ht := hsafe t
    rw [hp] at ht
    have := ht c.st gs hI rfl
    rw [hf] at this
    obtain ⟨g', ⟨-, hG⟩, -⟩ := this
    exact Or.inr hG
  | @again t ρ f k s' hc hp hf =>
    have ht := hsafe t
    rw [hp] at ht
    have := ht c.st gs hI rfl
    rw [hf] at this
    exact Or.inr this.2
  | panic => exact Or.inr (D.refl _)
  | call => exact Or.inr (D.refl _)
  | env he => exact Or.inl he

end Soundness

end Conc
