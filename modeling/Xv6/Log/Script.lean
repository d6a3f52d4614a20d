import Xv6.Log.Model

/-!
# Runs of three processes

Runs in which one process after the other makes a call, written down as the list of
the calls.  A machine with three processes boots from a disk of zeros; a crash comes
in the middle of an `end_op`, after a given number of its steps, and the machine boots
again.  Such a list can be evaluated, and what it leads to is reached by the machine.

## Main definitions

* `Cmd`, `script` — a call or a crash, and the state a list of them leads to.

## Main results

* `quiet_script` — what a script leads to is reached.
-/

namespace Xv6.Log

open Conc Function

/-- A disk of zeros, with its log at block 2. -/
def zeroDisk : ℕ → Block := fun _ _ => 0

/-- The machine, on that disk. -/
abbrev three (small : Prop) : System (Fin 3) (State (Fin 3)) := machine (Fin 3) 2 zeroDisk small

/-- Nobody is in the middle of a call. -/
def quiet (s : State (Fin 3)) : Pool (Fin 3) (State (Fin 3)) := ⟨s, fun _ => .ret (), none⟩

/-! ### Commands -/

/-- What a process does. -/
inductive Cmd where
  | begin_op (t : Fin 3)
  /-- Read a block, and keep its buffer. -/
  | read (t : Fin 3) (b : ℕ)
  /-- Read a block, and release its buffer. -/
  | look (t : Fin 3) (b : ℕ)
  /-- Read a block, fill it with a byte, pass it to `log_write`, and release its buffer. -/
  | log (t : Fin 3) (b : ℕ) (v : UInt8)
  | end_op (t : Fin 3)
  /-- Call `end_op`; power fails after some of its steps, and the machine boots again. -/
  | crash (t : Fin 3) (steps : ℕ)

section

variable (t : Fin 3) (s : State (Fin 3))

def readBlock (b : ℕ) : Option (State (Fin 3)) :=
  if s.up = true ∧ b < 2 ^ 32 then
    ((do let _ ← bread ROOTDEV b; pure () : Prog (Fin 3) (State (Fin 3)) Unit).run t s).state?
  else none

def release (i : Fin NBUF) : Option (State (Fin 3)) :=
  if (s.buf i).lock = some t ∧ s.dirty i = false then ((brelse i).run t s).state? else none

/-- A process that holds a buffer may pass it to `log_write`. -/
def MayLog (i : Fin NBUF) (o : Op) : Prop :=
  (s.buf i).lock = some t ∧ (s.buf i).dev = ROOTDEV ∧ ¬ InLog 2 (s.buf i).blockno ∧
    ((s.buf i).blockno ∈ o.logged ∨ o.logged.card < MAXOPBLOCKS)

instance (i : Fin NBUF) (o : Op) : Decidable (MayLog t s i o) :=
  inferInstanceAs (Decidable (_ ∧ _))

/-- A process fills a block with a byte and logs it. -/
def logBlock (b : ℕ) (v : UInt8) : Option (State (Fin 3)) :=
  (readBlock t s b).bind fun s1 => (s1.cached ROOTDEV b).bind fun i => (s1.op t).bind fun o =>
    if MayLog t s1 i o then
      ((log_write i).run t (s1.setData i fun _ => v)).state?.bind fun s2 => release t s2 i
    else none

/-- The machine boots. -/
def boot : Option (State (Fin 3)) :=
  ((bootCode 2 0 0 : Prog (Fin 3) (State (Fin 3)) Unit).run 0 s).state?

/-- A process is about to end its operation. -/
def ending : Option (Pool (Fin 3) (State (Fin 3))) :=
  if (s.op t).isSome = true then some ((quiet s).start t (end_op 2)) else none

end

def Cmd.exec (s : State (Fin 3)) : Cmd → Option (State (Fin 3))
  | .begin_op t => if s.up = true ∧ (s.op t).isNone = true then (Log.begin_op.run t s).state?
    else none
  | .read t b => readBlock t s b
  | .look t b => (readBlock t s b).bind fun s1 => (s1.cached ROOTDEV b).bind (release t s1)
  | .log t b v => logBlock t s b v
  | .end_op t => if (s.op t).isSome = true then ((Log.end_op 2).run t s).state? else none
  | .crash t steps =>
      (ending t s).bind fun c => (c.play (List.replicate steps t)).bind fun c => boot c.st.crash

/-- The machine boots, and the commands are executed one after the other. -/
def script (cmds : List Cmd) : Option (State (Fin 3)) :=
  (boot (State.cold zeroDisk)).bind fun s => cmds.foldlM Cmd.exec s

/-! ### What they lead to is reached -/

variable {t : Fin 3} {s s' : State (Fin 3)} {small : Prop} {i : Fin NBUF} {b : ℕ}

theorem quiet_call {p : Prog (Fin 3) (State (Fin 3)) Unit} (h : (three small).Reachable (quiet s))
    (hp : Client 2 small t s p) (hr : (p.run t s).state? = some s') :
    (three small).Reachable (quiet s') :=
  h.call_run rfl rfl hp (Result.eq_ok_of_state? hr)

theorem quiet_readBlock (h : (three small).Reachable (quiet s)) (hr : readBlock t s b = some s') :
    (three small).Reachable (quiet s') := by
  unfold readBlock at hr
  split_ifs at hr with hup
  exact quiet_call h (.bread hup.1 ROOTDEV b hup.2) hr

theorem quiet_release (h : (three small).Reachable (quiet s)) (hr : release t s i = some s') :
    (three small).Reachable (quiet s') := by
  unfold release at hr
  split_ifs at hr with hl
  exact quiet_call h (.brelse i hl.1 hl.2) hr

theorem MayLog.client {o : Op} (h : MayLog t s i o) (ho : s.op t = some o) :
    Client 2 small t s (log_write i) :=
  .log_write i o ho h.1 h.2.1 h.2.2.1 fun _ => h.2.2.2

theorem MayLog.setData {o : Op} (h : MayLog t s i o) (d : Block) :
    MayLog t (s.setData i d) i o := by
  simpa [MayLog, State.setData, State.setBuf] using h

theorem quiet_logBlock {v : UInt8} (h : (three small).Reachable (quiet s))
    (hr : logBlock t s b v = some s') : (three small).Reachable (quiet s') := by
  obtain ⟨s1, h1, hr⟩ := Option.bind_eq_some_iff.mp hr
  obtain ⟨i, -, hr⟩ := Option.bind_eq_some_iff.mp hr
  obtain ⟨o, ho, hr⟩ := Option.bind_eq_some_iff.mp hr
  split_ifs at hr with hl
  obtain ⟨s2, h2, hr⟩ := Option.bind_eq_some_iff.mp hr
  have hop : s1.op t ≠ none := by rw [ho]; exact Option.some_ne_none o
  have hset :=
    quiet_call (quiet_readBlock h h1) (.modify i (fun _ => v) hop hl.1 hl.2.1 hl.2.2.1) rfl
  exact quiet_release (quiet_call hset ((hl.setData _).client ho) h2) hr

theorem quiet_boot {s0 : State (Fin 3)} (h : (three small).Reachable ⟨s0, bootCode 2 0, none⟩)
    (hr : boot s0 = some s) : (three small).Reachable (quiet s) := by
  have hup := h.run (t := 0) rfl rfl (Result.eq_ok_of_state? hr)
  have hcode : update (bootCode 2 0) 0 (.ret ()) =
      (fun _ => .ret () : Fin 3 → Prog (Fin 3) (State (Fin 3)) Unit) := by
    unfold bootCode
    rw [update_idem]
    exact update_eq_self (f := fun _ => Prog.ret ()) 0
  rwa [hcode] at hup

theorem ending_reachable {c : Pool (Fin 3) (State (Fin 3))} (h : (three small).Reachable (quiet s))
    (hr : ending t s = some c) : (three small).Reachable c := by
  unfold ending at hr
  split_ifs at hr with hop
  cases hr
  exact h.start rfl rfl (.end_op (Option.isSome_iff_ne_none.mp hop))

theorem quiet_exec {cmd : Cmd} (h : (three small).Reachable (quiet s))
    (hr : cmd.exec s = some s') : (three small).Reachable (quiet s') := by
  cases cmd with
  | begin_op t =>
    rw [Cmd.exec] at hr
    split_ifs at hr with hc
    exact quiet_call h (.begin_op hc.1 (Option.isNone_iff_eq_none.mp hc.2)) hr
  | read t b => exact quiet_readBlock h hr
  | look t b =>
    obtain ⟨s1, h1, hr⟩ := Option.bind_eq_some_iff.mp hr
    obtain ⟨i, -, hr⟩ := Option.bind_eq_some_iff.mp hr
    exact quiet_release (quiet_readBlock h h1) hr
  | log t b v => exact quiet_logBlock h hr
  | end_op t =>
    rw [Cmd.exec] at hr
    split_ifs at hr with hc
    exact quiet_call h (.end_op (Option.isSome_iff_ne_none.mp hc)) hr
  | crash t steps =>
    obtain ⟨c, h1, hr⟩ := Option.bind_eq_some_iff.mp hr
    obtain ⟨c', h2, hr⟩ := Option.bind_eq_some_iff.mp hr
    exact quiet_boot (((ending_reachable h h1).play h2).step (.env ⟨0, rfl⟩)) hr

theorem quiet_cmds (cmds : List Cmd) : ∀ {s : State (Fin 3)},
    (three small).Reachable (quiet s) → cmds.foldlM Cmd.exec s = some s' →
    (three small).Reachable (quiet s') := by
  induction cmds with
  | nil =>
    intro s h hr
    cases hr
    exact h
  | cons cmd cmds ih =>
    intro s h hr
    rw [List.foldlM_cons] at hr
    obtain ⟨s1, h1, hr⟩ := Option.bind_eq_some_iff.mp hr
    exact ih (quiet_exec h h1) hr

theorem quiet_script {cmds : List Cmd} (hr : script cmds = some s) :
    (three small).Reachable (quiet s) := by
  obtain ⟨s0, hboot, hr⟩ := Option.bind_eq_some_iff.mp hr
  exact quiet_cmds cmds (quiet_boot (.init ⟨0, rfl⟩) hboot) hr

theorem exists_of_script (small : Prop) {P : State (Fin 3) → Prop} [DecidablePred P]
    (cmds : List Cmd)
    (h : (script cmds).any (fun s => decide (P s)) = true) :
    ∃ s, (three small).Reachable (quiet s) ∧ P s := by
  obtain ⟨s, hs, hP⟩ := (Option.any_eq_true _ _).mp h
  exact ⟨s, quiet_script hs, of_decide_eq_true hP⟩

end Xv6.Log
