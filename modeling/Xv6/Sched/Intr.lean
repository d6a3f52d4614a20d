import Xv6.Sched.Machine

/-!
# Interrupts and context switches

`push_off` and `pop_off` of `kernel/spinlock.c` count in the processor how often
interrupts were turned off, and keep there whether they were on before.  A
process in `sched` takes the latter along in a local variable: by the time it
goes on others have used the fields of the processor, and it may be on another.

Here a processor executes its scheduler or a process, and does what the thread
wants: anything that keeps `push_off` and `pop_off` nested (`Allowed`), so locks
may be released in any order, with `sched` called at depth 1.  A trap is an
`intr_off` and an `intr_on`; a slot of the process table that is used again is
another process.  That `sched` is called with the right lock and state, and that
no process is on two processors, is shown for its callers in `Sched.Machine`.

## Main results

* `Inv.step` — no step panics, and each keeps the invariant.
* `nested_intr` — **interrupts are off inside, and afterwards what they were before.**
-/

namespace Xv6.Intr

open Conc (Pool)
open Function (update update_self update_of_ne Injective)

/-- `noff` and `intena` of `struct cpu`, and `intr_get()`. -/
structure Cpu where
  noff : ℕ
  intena : Bool
  intr : Bool

def push_off (c : Cpu) : Cpu :=
  ⟨c.noff + 1, if c.noff = 0 then c.intr else c.intena, false⟩

def pop_off (c : Cpu) : Except String Cpu :=
  if c.intr then .error "pop_off - interruptible"
  else if c.noff < 1 then .error "pop_off"
  else .ok ⟨c.noff - 1, c.intena, decide (c.noff - 1 = 0) && c.intena⟩

/-- `sched` before its `swtch`; the result is its local `intena`. -/
def sched (holding running : Bool) (c : Cpu) : Except String Bool :=
  if !holding then .error "sched p->lock"
  else if c.noff ≠ 1 then .error "sched locks"
  else if running then .error "sched RUNNING"
  else if c.intr then .error "sched interruptible"
  else .ok c.intena

/-- A kernel thread.  The first two fields are history: how often it has turned interrupts off,
and whether they were on before the outermost `push_off`. -/
structure Kthread where
  depth : ℕ
  before : Bool
  /-- The local variable of `sched`; a process that never ran has none. -/
  intena : Option Bool

variable {C T : Type} [DecidableEq C] [DecidableEq T]

/-- Processors `C` and processes `T`.  A thread is the scheduler of a processor, or a process. -/
structure State (C T : Type) where
  cpu : C → Cpu
  cur : C → C ⊕ T
  thread : C ⊕ T → Kthread

/-- What a thread does next. -/
inductive Act (T : Type) where
  | push_off
  | pop_off
  | intr (on : Bool)
  | sched
  /-- `scheduler` switches to a process. -/
  | swtch (t : T)

/-- The thread on a processor. -/
def State.now (s : State C T) (c : C) : Kthread := s.thread (s.cur c)

/-- Processor `c` leaves its thread as `th`, and goes on with thread `k`. -/
def State.switch (s : State C T) (c : C) (cp : Cpu) (th : Kthread) (k : C ⊕ T) (th' : Kthread) :
    State C T :=
  ⟨update s.cpu c cp, update s.cur c k, update (update s.thread (s.cur c) th) k th'⟩

/-- It goes on with the same thread. -/
def State.put (s : State C T) (c : C) (cp : Cpu) (th : Kthread) : State C T :=
  s.switch c cp th (s.cur c) th

def State.step (s : State C T) (c : C) : Act T → Except String (State C T)
  | .push_off => .ok (s.put c (push_off (s.cpu c)) { s.now c with
      depth := (s.now c).depth + 1
      before := if (s.now c).depth = 0 then (s.cpu c).intr else (s.now c).before })
  | .pop_off => (pop_off (s.cpu c)).map fun cp =>
      s.put c cp { s.now c with depth := (s.now c).depth - 1 }
  | .intr b => .ok (s.put c { s.cpu c with intr := b } (s.now c))
  | .sched => (sched true false (s.cpu c)).map fun b =>
      s.switch c (s.cpu c) { s.now c with intena := some b } (.inl c) (s.thread (.inl c))
  | .swtch t =>
      let th := s.thread (.inr t)
      -- a process in `sched` goes on with `mycpu()->intena = intena`
      .ok (s.switch c { s.cpu c with intena := th.intena.getD (s.cpu c).intena } (s.now c) (.inr t)
        { th with before := if th.intena = none then (s.cpu c).intena else th.before })

/-- What keeps calls nested. -/
def Allowed (s : State C T) (c : C) : Act T → Prop
  | .push_off => True
  | .pop_off => 0 < (s.now c).depth
  | .intr _ => (s.now c).depth = 0
  | .sched => (s.now c).depth = 1 ∧ s.cur c ≠ .inl c
  | .swtch t => (s.now c).depth = 1 ∧ s.cur c = .inl c ∧ ∀ d, s.cur d ≠ .inr t

/-- Every processor enters `scheduler`; a process starts with its lock held by a scheduler. -/
def init : State C T :=
  ⟨fun _ => ⟨0, false, false⟩, .inl, Sum.elim (fun _ => ⟨0, false, none⟩) fun _ => ⟨1, false, none⟩⟩

/-- The states any interleaving of the processors goes through. -/
inductive Reachable : State C T → Prop
  | init : Reachable init
  | step {s s' : State C T} {c : C} {a : Act T} (h : Reachable s) (ha : Allowed s c a)
      (hs : s.step c a = .ok s') : Reachable s'

variable {s s' : State C T} {c : C} {a : Act T}

/-! ### The invariant -/

/-- A processor agrees with the thread `k` it executes. -/
structure On (k : C ⊕ T) (cp : Cpu) (th : Kthread) : Prop where
  noff : cp.noff = th.depth
  intr : 0 < th.depth → cp.intr = false
  intena : ∀ t, k = .inr t → 0 < th.depth → cp.intena = th.before

/-- Thread `k` has switched. -/
structure Off (k : C ⊕ T) (th : Kthread) : Prop where
  depth : th.depth = 1
  intena : ∀ t b, k = .inr t → th.intena = some b → b = th.before

structure Inv (s : State C T) : Prop where
  inj : Injective s.cur
  own : ∀ c d, s.cur c = .inl d → d = c
  on : ∀ c, On (s.cur c) (s.cpu c) (s.now c)
  off : ∀ k, (∀ c, s.cur c ≠ k) → Off k (s.thread k)

omit [DecidableEq C] [DecidableEq T] in
theorem inv_init : Inv (init : State C T) where
  inj _ _ h := Sum.inl.inj h
  own _ _ h := (Sum.inl.inj h).symm
  on _ := ⟨rfl, nofun, nofun⟩
  off k hk := by
    cases k with
    | inl c => exact absurd rfl (hk c)
    | inr t => exact ⟨rfl, nofun⟩

theorem Inv.switch (h : Inv s) {cp : Cpu} {th th' : Kthread} {k : C ⊕ T}
    (hk : ∀ d, d ≠ c → s.cur d ≠ k) (hown : ∀ d, k = .inl d → d = c) (hon : On k cp th')
    (hoff : s.cur c ≠ k → Off (s.cur c) th) : Inv (s.switch c cp th k th') := by
  have hcur : ∀ d, d ≠ c → (s.switch c cp th k th').cur d = s.cur d := fun d hd =>
    update_of_ne hd ..
  have hme : (s.switch c cp th k th').cur c = k := update_self ..
  refine ⟨fun d e he => ?_, fun d e he => ?_, fun d => ?_, fun k' hk' => ?_⟩
  · by_cases hd : d = c <;> by_cases he' : e = c
    · rw [hd, he']
    · rw [hd, hme, hcur e he'] at he
      exact absurd he.symm (hk e he')
    · rw [he', hme, hcur d hd] at he
      exact absurd he (hk d hd)
    · rw [hcur d hd, hcur e he'] at he
      exact h.inj he
  · obtain rfl | hd := eq_or_ne d c
    · exact hown e (hme.symm.trans he)
    · exact h.own d e ((hcur d hd).symm.trans he)
  · obtain rfl | hd := eq_or_ne d c
    · simpa [State.switch, State.now] using hon
    · simpa [State.switch, State.now, hd, hk d hd, h.inj.ne hd] using h.on d
  · have hne : k' ≠ k := fun e => hk' c (hme.trans e.symm)
    obtain rfl | hk0 := eq_or_ne k' (s.cur c)
    · simpa [State.switch, hne] using hoff hne
    · simp only [State.switch, update_of_ne hne, update_of_ne hk0]
      refine h.off k' fun d => ?_
      obtain rfl | hd := eq_or_ne d c
      · exact hk0.symm
      · exact hcur d hd ▸ hk' d

theorem Inv.put (h : Inv s) {cp : Cpu} {th : Kthread} (hon : On (s.cur c) cp th) :
    Inv (s.put c cp th) :=
  h.switch (fun _ hd => h.inj.ne hd) (h.own c) hon fun hne => absurd rfl hne

/-- **No step panics**, and each keeps the invariant. -/
theorem Inv.step (h : Inv s) (ha : Allowed s c a) : ∃ s', s.step c a = .ok s' ∧ Inv s' ∧
    (a = .pop_off → ∀ t, s.cur c = .inr t → (s.now c).depth = 1 →
      (s'.cpu c).intr = (s.now c).before) := by
  obtain ⟨hnoff, hintr, hena⟩ := h.on c
  cases a with
  | push_off =>
    refine ⟨_, rfl, h.put ⟨congrArg (· + 1) hnoff, fun _ => rfl, fun t ht _ => ?_⟩, nofun⟩
    simp only [push_off, hnoff]
    split_ifs with h0
    · rfl
    · exact hena t ht (Nat.pos_of_ne_zero h0)
  | pop_off =>
    have hpos : 0 < (s.now c).depth := ha
    rw [State.step, pop_off, hintr hpos, if_neg Bool.false_ne_true, if_neg (by omega)]
    refine ⟨_, rfl, h.put ⟨congrArg (· - 1) hnoff, fun h0 => ?_, fun t ht _ => hena t ht hpos⟩,
      fun _ t ht h1 => ?_⟩
    · simp [hnoff, Nat.ne_of_gt h0]
    · simp [State.put, State.switch, hnoff, h1, hena t ht hpos]
  | intr b => exact ⟨_, rfl, h.put ⟨hnoff, fun hd => absurd ha hd.ne', hena⟩, nofun⟩
  | sched =>
    obtain ⟨h1, hne⟩ := ha
    -- the scheduler's thread of this CPU is off, for a process is on
    have hnot : ∀ d, s.cur d ≠ .inl c := by
      intro d hd
      obtain rfl := h.own d c hd
      exact hne hd
    rw [State.step, show sched true false (s.cpu c) = .ok (s.cpu c).intena by
      simp [sched, hnoff, h1, hintr]]
    refine ⟨_, rfl, h.switch (fun d _ => hnot d) (fun d hd => (Sum.inl.inj hd).symm)
      ⟨?_, fun _ => hintr (by omega), nofun⟩ fun _ => ⟨h1, ?_⟩, nofun⟩
    · rw [hnoff, h1, (h.off (.inl c) hnot).depth]
    · rintro t b ht ⟨⟩
      exact hena t ht (by omega)
  | swtch t =>
    obtain ⟨h1, hcur, hnot⟩ := ha
    have hoff := h.off (.inr t) hnot
    refine ⟨_, rfl, h.switch (fun d _ => hnot d) nofun
      ⟨hnoff.trans (h1.trans hoff.depth.symm), fun _ => hintr (by omega), fun _ _ _ => ?_⟩
      fun _ => ⟨h1, fun t' _ ht' => ?_⟩, nofun⟩
    · cases hi : (s.thread (.inr t)).intena with
      | none => rfl
      | some b => exact hoff.intena t b rfl hi
    · cases hcur.symm.trans ht'

theorem Reachable.inv (h : Reachable s) : Inv s := by
  induction h with
  | init => exact inv_init
  | step _ ha hs ih =>
    obtain ⟨s', hs', hI, -⟩ := ih.step ha
    cases hs'.symm.trans hs
    exact hI

/-- **Interrupts are off while a process has turned them off**, and after its outermost `pop_off`
what they were before the outermost `push_off`, on whichever processor; neither `pop_off` nor
`sched` panics, and the callers of `sched` give it the right lock and state. -/
theorem nested_intr (h : Reachable s) (c : C) :
    (∀ t, s.cur c = .inr t → 0 < (s.now c).depth → (s.cpu c).intr = false) ∧
    (∀ a, Allowed s c a → ∃ s', s.step c a = .ok s' ∧ (a = .pop_off → ∀ t, s.cur c = .inr t →
      (s.now c).depth = 1 → (s'.cpu c).intr = (s.now c).before)) ∧
    ∀ {N : ℕ} {initproc : Fin N} {p : Pool (Sched.Thread C N) (Sched.State C N)},
      (Sched.machine C initproc).Reachable p → ∀ msg, p.halted = some msg →
        msg = "init exiting" := by
  refine ⟨fun t _ => (h.inv.on c).intr, fun a ha => ?_,
    fun hp => (Sched.good_of_reachable hp).allowed⟩
  obtain ⟨s', hs, -, hpop⟩ := h.inv.step ha
  exact ⟨s', hs, hpop⟩

/-- A process turns interrupts off on the first of two processors and goes on on the second, where
its `pop_off` turns them on. -/
theorem nested_intr_moved : ∃ s : State (Fin 2) Unit, Reachable s ∧ (s.now 1).depth = 1 ∧
    (s.cpu 1).intr = false ∧ ∃ s', s.step 1 .pop_off = .ok s' ∧ (s'.cpu 1).intr = true := by
  have hrun := Reachable.step (c := 0) (a := .push_off) (.init (C := Fin 2) (T := Unit)) trivial rfl
  have hrun := hrun.step (c := 0) (a := .swtch ()) ⟨rfl, rfl, by decide⟩ rfl
  have hrun := hrun.step (c := 0) (a := .pop_off) Nat.one_pos rfl
  have hrun := hrun.step (c := 0) (a := .intr true) rfl rfl
  have hrun := hrun.step (c := 0) (a := .push_off) trivial rfl
  have hrun := hrun.step (c := 0) (a := .sched) ⟨rfl, nofun⟩ rfl
  have hrun := hrun.step (c := 1) (a := .push_off) trivial rfl
  have hrun := hrun.step (c := 1) (a := .swtch ()) ⟨rfl, rfl, by decide⟩ rfl
  obtain ⟨hoff, hstep, -⟩ := nested_intr hrun 1
  obtain ⟨s', hs, hpop⟩ := hstep .pop_off Nat.one_pos
  exact ⟨_, hrun, rfl, hoff () rfl Nat.one_pos, s', hs, hpop rfl () rfl rfl⟩

end Xv6.Intr
