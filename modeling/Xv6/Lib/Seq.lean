import Xv6.Lib.Prog

/-!
# Programs that run alone

Rules of total correctness for a program that runs while nothing else does: it
returns, it never waits, and it stops the machine only with a panic that is
tolerated.  A system whose calls are made one after the other keeps every
invariant that its calls keep (`Calls.invariant`).

## Main definitions

* `Ends` — the program returns, and a relation holds of its result.
* `Prog.zoom` — a program on a part of the state, run on the whole.
* `Erases` — a program that does the same as another to a part of the state.
* `Calls`, `Calls.Reachable` — calls made one after the other.

## Main results

* `Ends.bind`, `Ends.mono`, `ends_zoom` — sequencing, weakening, framing.
* `Erases.ends` — what holds of the smaller program holds of the larger one.
* `Calls.invariant` — **what every call keeps holds after every sequence of calls.**
-/

namespace Conc

variable {T S S' α β ρ : Type}

/-- Thread `t` runs `p` alone from `s`: it returns, with a result and a state of
which `Q` holds, or it stops the machine with a panic that is allowed. -/
def Ends (allow : String → Prop) (t : T) (p : Prog T S α) (s : S) (Q : α → S → Prop) : Prop :=
  match p.run t s with
  | .ok a s' => Q a s'
  | .stuck => False
  | .panic msg => allow msg

variable {allow : String → Prop} {t : T} {s : S}

variable {Q : α → S → Prop}

@[simp] theorem ends_pure {a : α} :
    Ends allow t (pure a : Prog T S α) s Q ↔ Q a s := Iff.rfl

/-- A program that ends went through the rules of its first step. -/
theorem ends_step {f : T → S → Option (Outcome S ρ)} {k : ρ → Prog T S α} :
    Ends allow t (.step f k) s Q ↔ match f t s with
      | some (.done r s') => Ends allow t (k r) s' Q
      | some (.again _) => False
      | some (.panic msg) => allow msg
      | none => False := by
  unfold Ends
  rw [Prog.run]
  cases f t s with
  | none => rfl
  | some o => cases o <;> rfl

variable {p : Prog T S α}

theorem Ends.mono {Q Q' : α → S → Prop} (h : Ends allow t p s Q)
    (hQ : ∀ a s', Q a s' → Q' a s') : Ends allow t p s Q' := by
  unfold Ends at h ⊢
  cases hr : p.run t s with
  | ok a s' =>
    rw [hr] at h
    exact hQ a s' h
  | stuck => rwa [hr] at h
  | panic msg => rwa [hr] at h

/-- Two statements about one run. -/
theorem Ends.and {allow' : String → Prop} {Q Q' : α → S → Prop}
    (h : Ends allow t p s Q) (h' : Ends allow' t p s Q') :
    Ends allow t p s fun a s' => Q a s' ∧ Q' a s' := by
  unfold Ends at h h' ⊢
  cases hr : p.run t s with
  | ok a s' =>
    rw [hr] at h h'
    exact ⟨h, h'⟩
  | stuck => rwa [hr] at h
  | panic msg => rwa [hr] at h

/-- Two statements about one run, the second of them on a condition. -/
theorem Ends.and_of {allow' : String → Prop} {ok : Prop} {Q R : α → S → Prop}
    (h : Ends allow t p s Q) (h' : ok → Ends allow' t p s R) :
    Ends allow t p s fun a s' => (ok → R a s') ∧ Q a s' := by
  by_cases hok : ok
  · exact (h.and (h' hok)).mono fun _ _ hh => ⟨fun _ => hh.2, hh.1⟩
  · exact h.mono fun _ _ hh => ⟨fun hc => absurd hc hok, hh⟩

section

variable {f : α → Prog T S β} {Q : β → S → Prop}

/-- A sequence ends if its first program ensures just what the second needs. -/
theorem ends_bind : Ends allow t (p >>= f) s Q ↔
    Ends allow t p s fun a s' => Ends allow t (f a) s' Q := by
  induction p generalizing s with
  | ret a => exact Iff.rfl
  | step g k ih =>
    rw [Prog.step_bind, ends_step, ends_step]
    cases g t s with
    | none => exact Iff.rfl
    | some o =>
      cases o with
      | done r s' => exact ih r
      | again s' => exact Iff.rfl
      | panic msg => exact Iff.rfl

theorem Ends.seq (h : Ends allow t p s fun a s' => Ends allow t (f a) s' Q) :
    Ends allow t (p >>= f) s Q :=
  ends_bind.mpr h

/-- Sequencing. -/
theorem Ends.bind {R : α → S → Prop} (h : Ends allow t p s R)
    (hf : ∀ a s', R a s' → Ends allow t (f a) s' Q) : Ends allow t (p >>= f) s Q :=
  .seq (h.mono hf)

/-- Sequencing, where another program begins in the same way. -/
theorem Ends.along {γ : Type} {f' : α → Prog T S γ} {allow' : String → Prop} {ok : Prop}
    {Q' : γ → S → Prop} (H : ok → Ends allow' t (p >>= f') s Q')
    (h : Ends allow t p s fun a s' => (ok → Ends allow' t (f' a) s' Q') → Ends allow t (f a) s' Q) :
    Ends allow t (p >>= f) s Q :=
  (h.and_of fun hok => ends_bind.mp (H hok)).bind fun _ _ hh => hh.2 hh.1

end

@[simp] theorem ends_act {f : T → S → S} {Q : Unit → S → Prop} :
    Ends allow t (Prog.act f) s Q ↔ Q () (f t s) := Iff.rfl

/-- Reading, then going on with what was read. -/
theorem ends_look_bind {f : S → ρ} {k : ρ → Prog T S α} :
    Ends allow t (Prog.look f >>= k) s Q ↔ Ends allow t (k (f s)) s Q := Iff.rfl

/-- Writing, then going on. -/
theorem ends_act_bind {f : T → S → S} {k : Unit → Prog T S α} :
    Ends allow t (Prog.act f >>= k) s Q ↔ Ends allow t (k ()) (f t s) Q := Iff.rfl

@[simp] theorem ends_stop {msg : String} :
    Ends allow t (Prog.stop msg) s Q ↔ allow msg := Iff.rfl

/-- A program that ends from `s` returned, or panicked. -/
theorem Ends.of_run (h : Ends allow t p s Q) {a : α} {s' : S}
    (hr : p.run t s = .ok a s') : Q a s' := by
  unfold Ends at h
  rwa [hr] at h

/-- A program that may not panic returns. -/
theorem Ends.exists_run (h : Ends (fun _ => False) t p s Q) :
    ∃ a s', p.run t s = .ok a s' ∧ Q a s' := by
  unfold Ends at h
  cases hr : p.run t s with
  | ok a s' =>
    rw [hr] at h
    exact ⟨a, s', rfl, h⟩
  | stuck =>
    rw [hr] at h
    exact h.elim
  | panic msg =>
    rw [hr] at h
    exact h.elim

/-! ### A part of the state -/

/-- The outcome of a step on a part of the state, on the whole. -/
def Outcome.zoom (put : S → S' → S') (s' : S') : Outcome S ρ → Outcome S' ρ
  | .done r s => .done r (put s s')
  | .again s => .again (put s s')
  | .panic msg => .panic msg

/-- A program on a part of the state. -/
def Prog.zoom (get : S' → S) (put : S → S' → S') : Prog T S α → Prog T S' α
  | .ret a => .ret a
  | .step f k => .step (fun t s' => (f t (get s')).map (Outcome.zoom put s')) fun r =>
    (k r).zoom get put

/-- What a program does to its part of the state is all it does. -/
theorem ends_zoom {get : S' → S} {put : S → S' → S'} (hget : ∀ s s', get (put s s') = s)
    (hput : ∀ s1 s2 s', put s1 (put s2 s') = put s1 s') (hself : ∀ s', put (get s') s' = s')
    {s' : S'} {Q : α → S' → Prop} (h : Ends allow t p (get s') fun a s => Q a (put s s')) :
    Ends allow t (p.zoom get put) s' Q := by
  have key : ∀ (p : Prog T S α) (s : S), Ends allow t p s (fun a s1 => Q a (put s1 s')) →
      Ends allow t (p.zoom get put) (put s s') Q := by
    intro p
    induction p with
    | ret a => exact fun s h => h
    | step f k ih =>
      intro s h
      rw [Prog.zoom, ends_step]
      rw [ends_step] at h
      simp only [hget]
      cases hf : f t s with
      | none => rw [hf] at h; exact h
      | some o =>
        rw [hf] at h
        cases o with
        | done r s1 =>
          simp only [Option.map_some, Outcome.zoom, hput]
          exact ih r s1 h
        | again s1 => exact h
        | panic msg => exact h
  have := key p (get s') h
  rwa [hself] at this

/-! ### More in the state -/

/-- The end of a run, seen through a view of the state. -/
def Result.map (view : S' → S) : Result S' α → Result S α
  | .ok a s => .ok a (view s)
  | .stuck => .stuck
  | .panic msg => .panic msg

/-- `p'` does to the view of its state what `p` does. -/
def Erases (view : S' → S) (p' : Prog T S' α) (p : Prog T S α) : Prop :=
  ∀ t x, (p'.run t x).map view = p.run t (view x)

variable {view : S' → S}

theorem Erases.pure {a : α} : Erases view (Pure.pure a : Prog T S' α) (Pure.pure a) :=
  fun _ _ => rfl

theorem Erases.stop {msg : String} : Erases view (Prog.stop msg : Prog T S' α) (Prog.stop msg) :=
  fun _ _ => rfl

/-- Sequencing. -/
theorem Erases.bind {p' : Prog T S' α} {f' : α → Prog T S' β} {f : α → Prog T S β}
    (h : Erases view p' p) (hf : ∀ a, Erases view (f' a) (f a)) :
    Erases view (p' >>= f') (p >>= f) := by
  intro t x
  rw [Prog.run_bind, Prog.run_bind, ← h t x]
  cases p'.run t x with
  | ok a x' => exact hf a t x'
  | stuck => rfl
  | panic msg => rfl

/-- A step that the view does not show. -/
theorem Erases.silent {p' : Prog T S' Unit} {q' : Unit → Prog T S' α} {q : Prog T S α}
    (h : Erases view p' (Pure.pure ())) (hq : Erases view (q' ()) q) : Erases view (p' >>= q') q :=
  Erases.bind (f := fun _ => q) h fun _ => hq

theorem erases_zoom {put : S → S' → S'} (hget : ∀ s x, view (put s x) = s) (p : Prog T S α) :
    Erases view (p.zoom view put) p := by
  intro t x
  induction p generalizing x with
  | ret a => rfl
  | step f k ih =>
    rw [Prog.zoom]
    simp only [Prog.run]
    cases f t (view x) with
    | none => rfl
    | some o =>
      cases o with
      | done r s =>
        have := ih r (put s x)
        rwa [hget] at this
      | again s => rfl
      | panic msg => rfl

/-- What holds of the smaller program holds of the view. -/
theorem Erases.ends {p' : Prog T S' α} (h : Erases view p' p) {x : S'}
    (hp : Ends allow t p (view x) Q) : Ends allow t p' x fun a x' => Q a (view x') := by
  unfold Ends at hp ⊢
  rw [← h t x] at hp
  cases hr : p'.run t x with
  | ok a x' => rwa [hr] at hp
  | stuck => rwa [hr] at hp
  | panic msg => rwa [hr] at hp

/-! ### One call after the other -/

/-- What may be called, and by whom. -/
structure Calls (T S : Type) where
  /-- The states a run can start from. -/
  init : S → Prop
  /-- `call s t p`: in state `s`, thread `t` may call `p`. -/
  call : S → T → Prog T S Unit → Prop

/-- The states after the completed calls of a run. -/
inductive Calls.Reachable (M : Calls T S) : S → Prop where
  | init {s : S} (h : M.init s) : Reachable M s
  | call {s s' : S} {t : T} {p : Prog T S Unit} (h : Reachable M s) (hc : M.call s t p)
      (hr : p.run t s = .ok () s') : Reachable M s'

/-- **What every call keeps holds after every sequence of calls.** -/
theorem Calls.invariant {M : Calls T S} {Inv : S → Prop} (hinit : ∀ s, M.init s → Inv s)
    (hcall : ∀ s t p, Inv s → M.call s t p → Ends (fun _ => True) t p s fun _ => Inv) {s : S}
    (h : M.Reachable s) : Inv s := by
  induction h with
  | init h => exact hinit _ h
  | call _ hc hr ih => exact (hcall _ _ _ ih hc).of_run hr

end Conc
