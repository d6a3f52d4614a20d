import Xv6.Sched.Model

/-!
# Killing

`kkill` looks for a pid in all slots of the process table, also in those that are
not used; `freeproc` clears the pid and the mark of a slot, and `allocproc` sets
only the pid.  What that means is about sequences of calls: the calls of
`kernel/proc.c` are run here one after the other, each to its end, on the table
alone.  What they do to a process is what `Xv6.Sched.Model` says.

## Main definitions

* `Table`, and `allocproc`, `kfork`, `kexit`, `kwait`, `kkill`, `setkilled` on it.
* `Op`, `Run` — sequences of calls.

## Main results

* `Run.clean` — a slot that is not used has pid 0 and no mark, if pid 0 was never killed.
* `kill_law` — **marks are on the processes they were meant for, if pid 0 is never killed.**
* `kill_zero` — a new process that is marked, after pid 0 was killed.
-/

namespace Xv6.Sched

open Function

/-- What `reparent` does to a process. -/
def Proc.pass {N : ℕ} (pr : Proc N) (p initproc : Fin N) : Proc N :=
  if pr.parent = some p then { pr with parent := some initproc } else pr

/-- The process table. -/
structure Table (N : ℕ) where
  proc : Fin N → Proc N
  nextpid : BitVec 32
  nextgen : ℕ

namespace Table

variable {N : ℕ} (T : Table N)

/-! ### Calls -/

def set (p : Fin N) (pr : Proc N) : Table N := { T with proc := Function.update T.proc p pr }

/-- `mem` says whether there is memory for the trapframe and the page table. -/
def allocproc (mem : Bool) : Option (Fin N) × Table N :=
  match (List.finRange N).find? fun p => (T.proc p).state = .UNUSED with
  | none => (none, T)
  | some p =>
      let pr := (T.proc p).alloc T.nextpid T.nextgen
      let T := { T with nextpid := T.nextpid + 1, nextgen := T.nextgen + 1 }
      if mem then (some p, T.set p pr) else (none, T.set p pr.free)

/-- Process `p` forks; `copy` says whether its memory can be copied.  The result is the pid of
the child. -/
def kfork (p : Fin N) (mem copy : Bool) : Option (BitVec 32) × Table N :=
  match T.allocproc mem with
  | (none, T) => (none, T)
  | (some np, T) =>
      if copy then
        (some (T.proc np).pid, T.set np { T.proc np with parent := some p, state := .RUNNABLE })
      else (none, T.set np (T.proc np).free)

/-- `me` is the process that calls it. -/
def wakeup (chan : Option (Chan N)) (me : Option (Fin N)) : Table N :=
  { T with proc := fun p => if some p = me then T.proc p else (T.proc p).wake chan }

/-- Pass the children of `p` to `initproc`. -/
def reparent (initproc p : Fin N) : Table N :=
  let T' := { T with proc := fun pp => (T.proc pp).pass p initproc }
  if ∃ pp, (T.proc pp).parent = some p then T'.wakeup (some (.proc initproc)) (some p) else T'

def kexit (initproc p : Fin N) (status : BitVec 32) : Table N :=
  let T := T.reparent initproc p
  let T := T.wakeup ((T.proc p).parent.map .proc) (some p)
  T.set p { T.proc p with xstate := status, state := .ZOMBIE, context := .zombie }

/-- One round of the loop of `kwait`, called by `p`: the pid of a child that has exited, or -1,
or nothing if `p` goes to sleep. -/
def kwait (p : Fin N) (addr : Option Bool) : Option ℤ × Table N :=
  match (List.finRange N).find? fun pp =>
      decide ((T.proc pp).parent = some p ∧ (T.proc pp).state = .ZOMBIE) with
  | some pp =>
      if addr = some false then (some (-1), T)
      else (some (T.proc pp).pid.toInt, T.set pp (T.proc pp).free)
  | none =>
      if (∀ pp, (T.proc pp).parent ≠ some p) ∨ (T.proc p).killed = true then (some (-1), T)
      else (none, T.set p { T.proc p with chan := some (.proc p), state := .SLEEPING })

def kkill (pid : BitVec 32) : ℤ × Table N :=
  match (List.finRange N).find? fun p => (T.proc p).pid = pid with
  | none => (-1, T)
  | some p => (0, T.set p (T.proc p).kill)

def setkilled (p : Fin N) : Table N := T.set p { T.proc p with killed := true }

/-- Change the state of a process. -/
def setState (p : Fin N) (state : ProcState) (chan : Option (Chan N)) : Table N :=
  T.set p { T.proc p with state := state, chan := chan }

end Table

variable {N : ℕ} {initproc p : Fin N} {T T' : Table N}

/-- The table after `procinit`. -/
def Table.boot (N : ℕ) : Table N where
  proc _ := ⟨.UNUSED, none, false, 0, 0, none, .forkret, 0, 0⟩
  nextpid := 1
  nextgen := 0

/-- What can happen to the table. -/
inductive Op (N : ℕ) where
  | allocproc (mem : Bool)
  | kfork (p : Fin N) (mem copy : Bool)
  | kexit (p : Fin N) (status : BitVec 32)
  | kwait (p : Fin N) (addr : Option Bool)
  | kkill (pid : BitVec 32)
  | setkilled (p : Fin N)
  /-- The first process is ready to run. -/
  | ready (p : Fin N)
  /-- The scheduler runs a process, or the process gives up its processor. -/
  | run (p : Fin N)
  | yield (p : Fin N)
  | sleep (p : Fin N) (chan : Chan N)
  | wakeup (chan : Option (Chan N)) (me : Option (Fin N))

/-- A process makes a call only while it is running. -/
def Op.Legal (initproc : Fin N) (T : Table N) : Op N → Prop
  | .allocproc _ => True
  | .kfork p _ _ => (T.proc p).state = .RUNNING
  | .kexit p _ => (T.proc p).state = .RUNNING ∧ p ≠ initproc
  | .kwait p _ => (T.proc p).state = .RUNNING
  | .kkill _ => True
  | .setkilled p => (T.proc p).state = .RUNNING
  | .ready p => (T.proc p).state = .USED
  | .run p => (T.proc p).state = .RUNNABLE
  | .yield p => (T.proc p).state = .RUNNING
  | .sleep p _ => (T.proc p).state = .RUNNING
  | .wakeup _ _ => True

def Op.apply (initproc : Fin N) (T : Table N) : Op N → Table N
  | .allocproc mem => (T.allocproc mem).2
  | .kfork p mem copy => (T.kfork p mem copy).2
  | .kexit p status => T.kexit initproc p status
  | .kwait p addr => (T.kwait p addr).2
  | .kkill pid => (T.kkill pid).2
  | .setkilled p => T.setkilled p
  | .ready p => T.setState p .RUNNABLE (T.proc p).chan
  | .run p => T.setState p .RUNNING (T.proc p).chan
  | .yield p => T.setState p .RUNNABLE (T.proc p).chan
  | .sleep p chan => T.setState p .SLEEPING (some chan)
  | .wakeup chan me => T.wakeup chan me

/-- The sequences of calls, with the table they lead to. -/
inductive Run (initproc : Fin N) : List (Op N) → Table N → Prop where
  | boot : Run initproc [] (.boot N)
  | op {ops : List (Op N)} {T : Table N} {op : Op N} (h : Run initproc ops T)
      (hop : op.Legal initproc T) : Run initproc (ops ++ [op]) (op.apply initproc T)

/-! ### What a call does to a slot -/

/-- A slot before and after a call. -/
structure Keeps (pr pr' : Proc N) : Prop where
  pid : pr'.pid = pr.pid
  killed : pr'.killed = pr.killed
  gen : pr'.gen = pr.gen
  unused : pr'.state = .UNUSED ↔ pr.state = .UNUSED

theorem Keeps.refl (pr : Proc N) : Keeps pr pr := ⟨rfl, rfl, rfl, Iff.rfl⟩

theorem Keeps.trans {pr pr' pr'' : Proc N} (h : Keeps pr pr') (h' : Keeps pr' pr'') :
    Keeps pr pr'' :=
  ⟨h'.pid.trans h.pid, h'.killed.trans h.killed, h'.gen.trans h.gen, h'.unused.trans h.unused⟩

theorem keeps_wake (pr : Proc N) (chan : Option (Chan N)) : Keeps pr (pr.wake chan) := by
  unfold Proc.wake
  split_ifs with h
  · refine ⟨rfl, rfl, rfl, ?_⟩
    rw [h.1]
    exact ⟨nofun, nofun⟩
  · exact .refl pr

theorem keeps_state {pr pr' : Proc N} (hpid : pr'.pid = pr.pid) (hkilled : pr'.killed = pr.killed)
    (hgen : pr'.gen = pr.gen) (h : pr.state ≠ .UNUSED) (h' : pr'.state ≠ .UNUSED) : Keeps pr pr' :=
  ⟨hpid, hkilled, hgen, fun hc => absurd hc h', fun hc => absurd hc h⟩

theorem Table.set_self (T : Table N) (p : Fin N) (pr : Proc N) : (T.set p pr).proc p = pr :=
  update_self ..

theorem Table.set_of_ne (T : Table N) {p q : Fin N} (pr : Proc N) (h : q ≠ p) :
    (T.set p pr).proc q = T.proc q := update_of_ne h _ _

theorem Table.keeps_wakeup (T : Table N) (chan : Option (Chan N)) (me : Option (Fin N))
    (p : Fin N) :
    Keeps (T.proc p) ((T.wakeup chan me).proc p) := by
  unfold Table.wakeup
  dsimp only
  split_ifs
  · exact .refl _
  · exact keeps_wake _ _

theorem Table.keeps_reparent (T : Table N) (initproc q p : Fin N) :
    Keeps (T.proc p) ((T.reparent initproc q).proc p) := by
  have hpass : Keeps (T.proc p) ((T.proc p).pass q initproc) := by
    unfold Proc.pass
    split_ifs
    · exact ⟨rfl, rfl, rfl, Iff.rfl⟩
    · exact .refl _
  unfold Table.reparent
  dsimp only
  split_ifs
  · exact hpass.trans (Table.keeps_wakeup { T with proc := fun pp => (T.proc pp).pass q initproc } _
      _ p)
  · exact hpass

/-- What a call can do to a slot. -/
inductive Change (op : Op N) (p : Fin N) (pr pr' : Proc N) : Prop where
  | keep (h : Keeps pr pr')
  /-- It was not used, and is given to a new process. -/
  | alloc (h : pr.state = .UNUSED) (h' : pr'.state ≠ .UNUSED) (hk : pr'.killed = pr.killed)
  | free (h : pr'.state = .UNUSED) (hpid : pr'.pid = 0) (hk : pr'.killed = false)
  /-- It is marked. -/
  | mark (h : op = .kkill pr.pid ∨ op = .setkilled p ∧ pr.state ≠ .UNUSED) (hpid : pr'.pid = pr.pid)
      (hgen : pr'.gen = pr.gen) (hu : pr'.state = .UNUSED ↔ pr.state = .UNUSED)

theorem change_set {op : Op N} {p q : Fin N} {pr : Proc N} (h : Change op q (T.proc q) pr) :
    Change op p (T.proc p) ((T.set q pr).proc p) := by
  by_cases hpq : p = q
  · rwa [hpq, Table.set_self]
  · rw [Table.set_of_ne T pr hpq]
    exact .keep (.refl _)

theorem Table.allocproc_cases (T : Table N) (mem : Bool) :
    T.allocproc mem = (none, T) ∨
    ∃ p, (T.proc p).state = .UNUSED ∧ ∃ T' : Table N, T'.proc = T.proc ∧
      (T.allocproc mem = (some p, T'.set p ((T.proc p).alloc T.nextpid T.nextgen)) ∨
        T.allocproc mem = (none, T'.set p ((T.proc p).alloc T.nextpid T.nextgen).free)) := by
  unfold Table.allocproc
  cases hf : (List.finRange N).find? fun p => decide ((T.proc p).state = .UNUSED) with
  | none => exact Or.inl rfl
  | some p =>
    refine Or.inr ⟨p, by simpa using List.find?_some hf,
      { T with nextpid := T.nextpid + 1, nextgen := T.nextgen + 1 }, rfl, ?_⟩
    cases mem with
    | true => exact Or.inl rfl
    | false => exact Or.inr rfl

theorem Op.change_allocproc (mem : Bool) (op : Op N) (p : Fin N) :
    Change op p (T.proc p) ((T.allocproc mem).2.proc p) := by
  rcases T.allocproc_cases mem with h | ⟨q, hq, T', hT', h | h⟩
  · rw [h]
    exact .keep (.refl _)
  · rw [h, ← hT']
    refine change_set (.alloc (by rw [hT']; exact hq) nofun rfl)
  · rw [h, ← hT']
    exact change_set (.free rfl rfl rfl)

theorem Op.change_kfork (q : Fin N) (mem copy : Bool) (op : Op N) (p : Fin N) :
    Change op p (T.proc p) ((T.kfork q mem copy).2.proc p) := by
  unfold Table.kfork
  rcases T.allocproc_cases mem with h | ⟨np, hnp, T', hT', h | h⟩
  · rw [h]
    exact .keep (.refl _)
  · rw [h]
    dsimp only
    rw [Table.set_self, ← hT']
    -- the child's slot is set twice
    have htwice : ∀ pr pr', (T'.set np pr).set np pr' = T'.set np pr' := by
      intro pr pr'
      unfold Table.set
      dsimp only
      rw [update_idem]
    split_ifs
    · rw [htwice]
      exact change_set (.alloc (by rw [hT']; exact hnp) nofun rfl)
    · rw [htwice]
      exact change_set (.free rfl rfl rfl)
  · rw [h, ← hT']
    exact change_set (.free rfl rfl rfl)

/-- **What a call does to a slot.** -/
theorem Op.change {op : Op N} (hop : op.Legal initproc T) (p : Fin N) :
    Change op p (T.proc p) ((op.apply initproc T).proc p) := by
  have hrunning : ∀ q, (T.proc q).state = .RUNNING → (T.proc q).state ≠ .UNUSED := by
    intro q hq
    rw [hq]
    exact nofun
  cases op with
  | allocproc mem => exact Op.change_allocproc mem _ p
  | kfork q mem copy => exact Op.change_kfork q mem copy _ p
  | kexit q status =>
    have h1 := T.keeps_reparent initproc q
    have h2 := fun p => (T.reparent initproc q).keeps_wakeup
      (((T.reparent initproc q).proc q).parent.map .proc) (some q) p
    -- `reparent` and `wakeup` keep what matters; then the caller becomes a zombie
    show Change _ p (T.proc p) ((Table.set _ q _).proc p)
    by_cases hpq : p = q
    · rw [hpq, Table.set_self]
      have h := (h1 q).trans (h2 q)
      exact .keep (keeps_state h.pid h.killed h.gen (hrunning q hop.1) nofun)
    · rw [Table.set_of_ne _ _ hpq]
      exact .keep ((h1 p).trans (h2 p))
  | kwait q addr =>
    show Change _ p (T.proc p) ((T.kwait q addr).2.proc p)
    unfold Table.kwait
    cases (List.finRange N).find? fun pp =>
        decide ((T.proc pp).parent = some q ∧ (T.proc pp).state = .ZOMBIE) with
    | some pp =>
      dsimp only
      split_ifs
      · exact .keep (.refl _)
      · exact change_set (.free rfl rfl rfl)
    | none =>
      dsimp only
      split_ifs
      · exact .keep (.refl _)
      · exact change_set (.keep (keeps_state rfl rfl rfl (hrunning q hop) nofun))
  | kkill pid =>
    show Change _ p (T.proc p) ((T.kkill pid).2.proc p)
    unfold Table.kkill
    cases hf : (List.finRange N).find? fun p => decide ((T.proc p).pid = pid) with
    | none => exact .keep (.refl _)
    | some q =>
      have hq : (T.proc q).pid = pid := by simpa using List.find?_some hf
      refine change_set (.mark (Or.inl (by rw [hq])) rfl rfl ?_)
      unfold Proc.kill
      dsimp only
      split_ifs with hs
      · rw [hs]
        exact ⟨nofun, nofun⟩
      · exact Iff.rfl
  | setkilled q => exact change_set (.mark (Or.inr ⟨rfl, hrunning q hop⟩) rfl rfl Iff.rfl)
  | ready q =>
    refine change_set (.keep (keeps_state rfl rfl rfl ?_ nofun))
    rw [show (T.proc q).state = .USED from hop]
    exact nofun
  | run q =>
    refine change_set (.keep (keeps_state rfl rfl rfl ?_ nofun))
    rw [show (T.proc q).state = .RUNNABLE from hop]
    exact nofun
  | yield q => exact change_set (.keep (keeps_state rfl rfl rfl (hrunning q hop) nofun))
  | sleep q chan => exact change_set (.keep (keeps_state rfl rfl rfl (hrunning q hop) nofun))
  | wakeup chan me => exact .keep (T.keeps_wakeup chan me p)

/-! ### Sequences of calls -/

variable {ops : List (Op N)}

/-- **A slot that is not used has pid 0 and no mark**, if pid 0 was never killed. -/
theorem Run.clean (h : Run initproc ops T) (h0 : .kkill 0 ∉ ops) : ∀ p,
    (T.proc p).state = .UNUSED → (T.proc p).pid = 0 ∧ (T.proc p).killed = false := by
  induction h with
  | boot => exact fun _ _ => ⟨rfl, rfl⟩
  | @op ops T op h hop ih =>
    rw [List.mem_append, List.mem_singleton, not_or] at h0
    have ih := ih h0.1
    intro p hp
    cases Op.change hop p with
    | keep hk =>
      obtain ⟨hpid, hkilled⟩ := ih p (hk.unused.mp hp)
      exact ⟨hk.pid.trans hpid, hk.killed.trans hkilled⟩
    | alloc _ h' _ => exact absurd hp h'
    | free _ hpid hk => exact ⟨hpid, hk⟩
    | mark hm hpid _ hu =>
      -- a slot that is not used cannot be found by its pid
      have hunused := hu.mp hp
      rcases hm with hm | hm
      · rw [(ih p hunused).1] at hm
        exact absurd hm.symm h0.2
      · exact absurd hunused hm.2

/-- The process in slot `p` was marked on purpose: since it is there, somebody has called `kkill`
with its pid, or `setkilled` on it. -/
def Marked (initproc : Fin N) (ops : List (Op N)) (T : Table N) (p : Fin N) : Prop :=
  ∃ pre op post T0, ops = pre ++ op :: post ∧ Run initproc pre T0 ∧ (T0.proc p).state ≠ .UNUSED ∧
    (T0.proc p).gen = (T.proc p).gen ∧ (op = .kkill (T.proc p).pid ∨ op = .setkilled p)

theorem Marked.keep {op : Op N} (h : Marked initproc ops T p) (hk : Keeps (T.proc p) (T'.proc p)) :
    Marked initproc (ops ++ [op]) T' p := by
  obtain ⟨pre, o, post, T0, rfl, hrun, hused, hgen, ho⟩ := h
  refine ⟨pre, o, post ++ [op], T0, ?_, hrun, hused, hgen.trans hk.gen.symm, ?_⟩
  · rw [List.append_assoc, List.cons_append]
  · rwa [hk.pid]

/-- **A process is marked only on purpose**, if pid 0 was never killed. -/
theorem Run.marked (h : Run initproc ops T) (h0 : .kkill 0 ∉ ops) : ∀ p,
    (T.proc p).killed = true → Marked initproc ops T p := by
  induction h with
  | boot => exact fun _ h => nomatch h
  | @op ops T op h hop ih =>
    rw [List.mem_append, List.mem_singleton, not_or] at h0
    intro p hp
    cases Op.change hop p with
    | keep hk => exact (ih h0.1 p (hk.killed.symm.trans hp)).keep hk
    | alloc hu _ hk =>
      rw [hk, (h.clean h0.1 p hu).2] at hp
      cases hp
    | free _ _ hk =>
      rw [hk] at hp
      cases hp
    | mark hm hpid hgen hu =>
      refine ⟨ops, op, [], T, rfl, h, ?_, hgen.symm, ?_⟩
      · intro hunused
        rcases hm with hm | hm
        · rw [(h.clean h0.1 p hunused).1] at hm
          exact h0.2 hm.symm
        · exact hm.2 hunused
      · rw [hpid]
        exact hm.imp_right And.left

/-- **Marks are on the processes they were meant for**, if pid 0 is never killed: `kkill` returns 0
only if it marks a process with that pid, a process is marked only on purpose, and no new
one. -/
theorem kill_law (h : Run initproc ops T) (h0 : .kkill 0 ∉ ops) :
    (∀ pid, pid ≠ 0 → (T.kkill pid).1 = 0 → ∃ p, (T.proc p).state ≠ .UNUSED ∧ (T.proc p).pid = pid ∧
      ((T.kkill pid).2.proc p).killed = true) ∧
    (∀ p, (T.proc p).killed = true → Marked initproc ops T p) ∧
    ∀ p mem copy pid, (T.kfork p mem copy).1 = some pid →
      ∃ np, (T.proc np).state = .UNUSED ∧ ((T.kfork p mem copy).2.proc np).state = .RUNNABLE ∧
        ((T.kfork p mem copy).2.proc np).pid = pid ∧
        ((T.kfork p mem copy).2.proc np).killed = false := by
  have hclean := h.clean h0
  refine ⟨fun pid hpid hret => ?_, h.marked h0, fun p mem copy pid hret => ?_⟩
  · unfold Table.kkill at hret ⊢
    cases hf : (List.finRange N).find? fun p => decide ((T.proc p).pid = pid) with
    | none =>
      rw [hf] at hret
      cases hret
    | some p =>
      have hp : (T.proc p).pid = pid := by simpa using List.find?_some hf
      refine ⟨p, fun hunused => ?_, hp, ?_⟩
      · -- an entry that is not in use has pid 0
        rw [(hclean p hunused).1] at hp
        exact hpid hp.symm
      · dsimp only
        rw [Table.set_self]
        rfl
  · unfold Table.kfork at hret ⊢
    rcases T.allocproc_cases mem with hA | ⟨np, hnp, T', hT', hA | hA⟩
    · rw [hA] at hret
      cases hret
    · rw [hA] at hret ⊢
      dsimp only at hret ⊢
      rw [Table.set_self] at hret ⊢
      cases copy with
      | false =>
        rw [if_neg (by decide)] at hret
        cases hret
      | true =>
        rw [if_pos rfl, Option.some.injEq] at hret
        rw [if_pos rfl]
        refine ⟨np, hnp, ?_⟩
        dsimp only
        rw [Table.set_self]
        exact ⟨rfl, hret, (hclean np hnp).2⟩
    · rw [hA] at hret
      cases hret

/-- The calls that make a first process with a child, and kill the child. -/
def killChild : List (Op NPROC) :=
  [.allocproc true, .ready 0, .run 0, .kfork 0 true true, .kkill 2]

/-- The calls that make a first process, which kills pid 0 and forks. -/
def killZero : List (Op NPROC) :=
  [.allocproc true, .ready 0, .run 0, .kkill 0, .kfork 0 true true]

instance : (op : Op N) → (T : Table N) → Decidable (op.Legal initproc T)
  | .allocproc _, _ => inferInstanceAs (Decidable True)
  | .kfork _ _ _, _ => inferInstanceAs (Decidable (_ = _))
  | .kexit _ _, _ => inferInstanceAs (Decidable (_ = _ ∧ _ ≠ _))
  | .kwait _ _, _ => inferInstanceAs (Decidable (_ = _))
  | .kkill _, _ => inferInstanceAs (Decidable True)
  | .setkilled _, _ => inferInstanceAs (Decidable (_ = _))
  | .ready _, _ => inferInstanceAs (Decidable (_ = _))
  | .run _, _ => inferInstanceAs (Decidable (_ = _))
  | .yield _, _ => inferInstanceAs (Decidable (_ = _))
  | .sleep _ _, _ => inferInstanceAs (Decidable (_ = _))
  | .wakeup _ _, _ => inferInstanceAs (Decidable True)

/-- The table after calls that are made in order, if they can be made. -/
def Table.runOps (initproc : Fin N) (T : Table N) : List (Op N) → Option (Table N)
  | [] => some T
  | op :: ops => if op.Legal initproc T then (op.apply initproc T).runOps initproc ops else none

theorem Run.of_runOps {pre : List (Op N)} (h : Run initproc pre T) :
    ∀ {ops : List (Op N)}, T.runOps initproc ops = some T' → Run initproc (pre ++ ops) T' := by
  intro ops
  induction ops generalizing pre T with
  | nil =>
    intro hr
    cases hr
    rwa [List.append_nil]
  | cons op ops ih =>
    intro hr
    rw [Table.runOps] at hr
    by_cases hop : op.Legal initproc T
    · rw [if_pos hop] at hr
      have := ih (h.op hop) hr
      rwa [List.append_assoc] at this
    · rw [if_neg hop] at hr
      cases hr

theorem kill_law_child : ∃ T, Run 0 killChild T ∧ .kkill 0 ∉ killChild ∧
    (T.proc 1).killed = true ∧ Marked 0 killChild T 1 := by
  have hsome : ((Table.boot NPROC).runOps 0 killChild).map (fun T => (T.proc 1).killed) =
      some true := by
    decide +kernel
  obtain ⟨T, hT, hk⟩ := Option.map_eq_some_iff.mp hsome
  have h0 : .kkill 0 ∉ killChild := by simp [killChild]
  have hrun := Run.boot.of_runOps hT
  exact ⟨T, hrun, h0, hk, (kill_law hrun h0).2.1 1 hk⟩

/-- **A new process that is marked**: `kkill(0)` returns 0 for a slot that is not used, and the
process that gets the slot, whose pid nobody has killed, is marked. -/
theorem kill_zero : ∃ T, Run 0 killZero T ∧ (T.proc 1).state = .RUNNABLE ∧ (T.proc 1).pid = 2 ∧
    (T.proc 1).killed = true ∧ .kkill 2 ∉ killZero ∧ (∀ p, .setkilled p ∉ killZero) := by
  have hsome : ((Table.boot NPROC).runOps 0 killZero).map
      (fun T => ((T.proc 1).state, (T.proc 1).pid, (T.proc 1).killed)) =
      some (.RUNNABLE, 2, true) := by
    decide +kernel
  obtain ⟨T, hT, hp⟩ := Option.map_eq_some_iff.mp hsome
  simp only [Prod.mk.injEq] at hp
  exact ⟨T, Run.boot.of_runOps hT, hp.1, hp.2.1, hp.2.2, by simp [killZero], by simp [killZero]⟩

end Xv6.Sched
