import Xv6.Lib.Prog

/-!
# A thread amid others, and histories beside the state

A thread that holds a lock does not have to go back to the invariant of the whole
system at each of its steps.  It is enough to say what the others can do to the
state in between, and to show of each step what the others may count on (`Amid`);
`Amid.safe` makes a proof of that form one in a discipline.

What a run has done is recorded in a history that no step reads: `Prog.watch` runs
a program on the state with its history, and adds to the history what a step is
seen to do.

## Main definitions

* `Amid` — a program that runs while the others take their steps.
* `Prog.watch` — a program with a history beside its state.

## Main results

* `Amid.bind`, `Amid.mono` — sequencing and weakening.
* `Amid.safe` — **what is shown amid the others is safe.**
-/

namespace Conc

variable {T S H L α β ρ : Type}

/-- Thread `t` runs `p` from `s` while the others change the state as `R` allows;
every step of its own is as `G` says, and `Q` holds at the end. -/
def Amid (allow : String → Prop) (R G : S → S → Prop) (t : T) :
    Prog T S α → S → (α → S → Prop) → Prop
  | .ret a, s, Q => Q a s
  | .step f k, s, Q => ∀ s1, R s s1 →
      match f t s1 with
      | none => True
      | some (.done r s') => G s1 s' ∧ Amid allow R G t (k r) s' Q
      | some (.again _) => False
      | some (.panic msg) => allow msg

section Rules

variable {allow : String → Prop} {R G : S → S → Prop} {t : T} {s : S}

theorem Amid.mono {p : Prog T S α} {Q Q' : α → S → Prop} (h : Amid allow R G t p s Q)
    (hQ : ∀ a s', Q a s' → Q' a s') : Amid allow R G t p s Q' := by
  induction p generalizing s with
  | ret a => exact hQ a s h
  | step f k ih =>
    intro s1 hs
    have h1 := h s1 hs
    cases hf : f t s1 with
    | none => trivial
    | some o =>
      rw [hf] at h1
      cases o with
      | done r s' => exact ⟨h1.1, ih r h1.2⟩
      | again s' => exact h1
      | panic msg => exact h1

/-- Sequencing. -/
theorem Amid.bind {p : Prog T S α} {f : α → Prog T S β} {P : α → S → Prop} {Q : β → S → Prop}
    (h : Amid allow R G t p s P) (hf : ∀ a s', P a s' → Amid allow R G t (f a) s' Q) :
    Amid allow R G t (p >>= f) s Q := by
  induction p generalizing s with
  | ret a => exact hf a s h
  | step g k ih =>
    intro s1 hs
    have h1 := h s1 hs
    cases hg : g t s1 with
    | none => trivial
    | some o =>
      rw [hg] at h1
      cases o with
      | done r s' => exact ⟨h1.1, ih r h1.2⟩
      | again s' => exact h1
      | panic msg => exact h1

/-- **What is shown amid the others is safe**, for a thread whose knowledge is the state
it left behind. -/
theorem Amid.safe [DecidableEq T] {D : Discipline T S L} {hold : S → L} {p : Prog T S α}
    {Q : α → S → Prop} (hR : ∀ s0 s gs, D.Inv s gs → gs t = hold s0 → R s0 s)
    (hG : ∀ s0 s s' gs, D.Inv s gs → gs t = hold s0 → G s s' →
      D.Inv s' (Function.update gs t (hold s')) ∧ D.Guar s s')
    (h : Amid D.allow R G t p s Q) : Safe D t p (hold s) fun a g => ∃ s', g = hold s' ∧ Q a s' := by
  induction p generalizing s with
  | ret a => exact ⟨s, rfl, h⟩
  | step f k ih =>
    intro s1 gs hI hg
    have h1 := h s1 (hR s s1 gs hI hg)
    cases hf : f t s1 with
    | none => trivial
    | some o =>
      rw [hf] at h1
      cases o with
      | done r s' => exact ⟨hold s', hG s s1 s' gs hI hg h1.1, ih r h1.2⟩
      | again s' => exact h1.elim
      | panic msg => exact h1

end Rules

/-! ### Histories -/

/-- The outcome of a step, with the history after it. -/
def Outcome.watch (h : S → H) : Outcome S ρ → Outcome (S × H) ρ
  | .done r s => .done r (s, h s)
  | .again s => .again (s, h s)
  | .panic msg => .panic msg

/-- A program with a history beside its state; `note t s s' h` is the history after a
step of thread `t` from `s` to `s'`. -/
def Prog.watch (note : T → S → S → H → H) : Prog T S α → Prog T (S × H) α
  | .ret a => .ret a
  | .step f k => .step (fun t x => (f t x.1).map (Outcome.watch fun s' => note t x.1 s' x.2))
      fun r =>
      (k r).watch note

variable {note : T → S → S → H → H}

@[simp] theorem Prog.watch_pure (a : α) : (pure a : Prog T S α).watch note = pure a := rfl

theorem Prog.watch_bind (p : Prog T S α) (f : α → Prog T S β) :
    (p >>= f).watch note = p.watch note >>= fun a => (f a).watch note := by
  induction p with
  | ret a => rfl
  | step g k ih =>
    rw [Prog.step_bind, Prog.watch, Prog.watch, Prog.step_bind]
    congr 1
    funext r
    exact ih r

section Watched

variable {allow : String → Prop} {R G : S × H → S × H → Prop} {t : T} {x : S × H}

/-- One step, watched. -/
theorem amid_watch_atomic {f : T → S → Option (Outcome S ρ)} {Q : ρ → S × H → Prop}
    (h : ∀ x1, R x x1 →
      match f t x1.1 with
      | none => True
      | some (.done r s') => G x1 (s', note t x1.1 s' x1.2) ∧ Q r (s', note t x1.1 s' x1.2)
      | some (.again _) => False
      | some (.panic msg) => allow msg) :
    Amid allow R G t ((Prog.atomic f).watch note) x Q := by
  intro x1 hx
  have h1 := h x1 hx
  dsimp only
  cases hf : f t x1.1 with
  | none => trivial
  | some o =>
    rw [hf] at h1
    cases o with
    | done r s' => exact h1
    | again s' => exact h1
    | panic msg => exact h1

variable [DecidableEq T] {D : Discipline T (S × H) L} {g : L}

/-- One step of a thread that keeps to a discipline, watched. -/
theorem safe_watch_atomic {f : T → S → Option (Outcome S ρ)} {Q : ρ → L → Prop}
    (h : ∀ x gs, D.Inv x gs → gs t = g →
      match f t x.1 with
      | none => True
      | some (.done r s') => ∃ g', (D.Inv (s', note t x.1 s' x.2) (Function.update gs t g') ∧
          D.Guar x (s', note t x.1 s' x.2)) ∧ Q r g'
      | some (.again _) => False
      | some (.panic msg) => D.allow msg) :
    Safe D t ((Prog.atomic f).watch note) g Q := by
  intro x gs hI hg
  have h1 := h x gs hI hg
  dsimp only
  cases hf : f t x.1 with
  | none => trivial
  | some o =>
    rw [hf] at h1
    cases o with
    | done r s' => exact h1
    | again s' => exact h1.elim
    | panic msg => exact h1

end Watched

end Conc
