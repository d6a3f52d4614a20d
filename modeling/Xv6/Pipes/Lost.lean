import Xv6.Lib.Seq
import Xv6.Pipes.Machine

/-!
# Reading into a buffer that cannot be written

`piperead` advances `pi->nread` before it calls `copyout`, where `pipewrite` calls
`copyin` before it advances `pi->nwrite`.  A read whose buffer can be written as
far as there are bytes for it removes what it delivers; at the first place that
cannot be written, the byte meant for it is gone.

## Main definitions

* `Copied` — what the copying loop has done, and how many bytes it lost.

## Main results

* `ends_readCopy`, `ends_readDone` — the copying loop, from any state of the pipe.
* `piperead_lossless_iff` — **a read removes exactly what it delivers and reports if and only
  if every byte it can take has a place that can be written.**
* `byte_lost` — a read that returns 0 and removes a byte.
-/

namespace Xv6.Pipes

open Conc Function

variable {N : ℕ} {allow : String → Prop} {t : Fin N} {s s' : State N} {dst : ℕ → Bool}

theorem Pipe.pending_of_not_empty {pi : Pipe} (h : pi.empty = false) :
    pi.pending = pi.data (slot pi.nread) :: ({ pi with nread := pi.nread + 1 } : Pipe).pending :=
  Ring.pending_pop (by simpa [Pipe.empty] using h)

theorem Pipe.pending_of_empty {pi : Pipe} (h : pi.empty = true) : pi.pending = [] := by
  have h : pi.nread = pi.nwrite := by simpa [Pipe.empty] using h
  simp [Pipe.pending, Ring.pending, h]

/-- What the copying loop of `piperead` has done, with `left` bytes to go: it has delivered `k`
bytes, for which there was a place, and removed those and `lost` more. -/
structure Copied (dst : ℕ → Bool) (s : State N) (left i k lost : ℕ) (s' : State N) : Prop where
  lock : s'.lock = s.lock
  proc : s'.proc = s.proc
  delivered : s'.delivered = s.delivered ++ s.pipe.pending.take k
  pending : s'.pipe.pending = s.pipe.pending.drop (k + lost)
  written : ∀ j < k, dst (i + j) = true
  /-- It stopped because all was done, or because a byte had no place. -/
  ended : lost = 0 ∧ k = min left s.pipe.pending.length ∨
    lost = 1 ∧ k < min left s.pipe.pending.length ∧ dst (i + k) = false

theorem copied_nothing {left i : ℕ} (h : min left s.pipe.pending.length = 0) :
    Copied dst s left i 0 0 s where
  lock := rfl
  proc := rfl
  delivered := by simp
  pending := by simp
  written := by simp
  ended := Or.inl ⟨rfl, h.symm⟩

/-- **The copying loop of `piperead`.** -/
theorem ends_readCopy (left i : ℕ) : Ends allow t (readCopy dst left i) s fun r s' =>
    ∃ k lost, r = i + k ∧ Copied dst s left i k lost s' := by
  induction left generalizing i s with
  | zero => exact ⟨0, 0, rfl, copied_nothing (by simp)⟩
  | succ left ih =>
    rw [readCopy]
    show Ends allow t (Prog.look (fun s : State N => s.pipe.empty) >>= _) s _
    rw [ends_look_bind]
    cases he : s.pipe.empty with
    | true => exact ⟨0, 0, rfl, copied_nothing (by simp [Pipe.pending_of_empty he])⟩
    | false =>
      rw [if_neg Bool.false_ne_true]
      have hpend := Pipe.pending_of_not_empty he
      unfold pop
      rw [ends_act_bind]
      dsimp only
      cases hdst : dst i with
      | false =>
        -- the byte is removed already
        refine ⟨0, 1, rfl, rfl, rfl, ?_, ?_, by simp, Or.inr ⟨rfl, ?_, hdst⟩⟩
        · simp
        · rw [hpend]
          rfl
        · simp [hpend]
      | true =>
        rw [if_pos rfl]
        refine (ih (i + 1)).mono ?_
        rintro r s' ⟨k, lost, rfl, h⟩
        refine ⟨k + 1, lost, by omega, h.lock, h.proc, ?_, ?_, ?_, ?_⟩
        · rw [h.delivered, hpend]
          simp
        · rw [h.pending, hpend, show k + 1 + lost = k + lost + 1 by omega, List.drop_succ_cons]
        · intro j hj
          cases j with
          | zero => exact hdst
          | succ j =>
            have := h.written j (by omega)
            rwa [Nat.add_assoc, Nat.add_comm 1 j] at this
        · rw [hpend, List.length_cons, Nat.add_min_add_right]
          rcases h.ended with ⟨hlost, hk⟩ | ⟨hlost, hk, hbad⟩
          · exact Or.inl ⟨hlost, congrArg (· + 1) hk⟩
          · refine Or.inr ⟨hlost, Nat.succ_lt_succ hk, ?_⟩
            rwa [Nat.add_assoc, Nat.add_comm 1 k] at hbad

/-! ### A whole call -/

/-- The processes are woken, and no more than that happens. -/
theorem ends_wakeupFrom {chan : Chan} {me : Fin N} (ps : List (Fin N))
    (hproc : ∀ p, (s.proc p).lock = false) :
    Ends allow t (wakeupFrom chan me ps) s fun _ s' =>
      s'.lock = s.lock ∧ s'.pipe = s.pipe ∧ s'.delivered = s.delivered := by
  induction ps generalizing s with
  | nil => exact ⟨rfl, rfl, rfl⟩
  | cons p ps ih =>
    rw [wakeupFrom]
    by_cases hp : p = me
    · rw [if_neg (not_not.mpr hp)]
      exact ih hproc
    · rw [if_pos hp]
      refine Ends.bind (R := fun _ s' => s' = s.setProc p ((s.proc p).wake chan)) ?_ ?_
      · unfold withProc Prog.atomic
        rw [ends_step, hproc p]
        rfl
      · intro _ s' hs'
        subst hs'
        refine ih ?_
        intro q
        obtain rfl | hq := eq_or_ne q p
        · show (update s.proc q _ q).lock = false
          rw [update_self]
          unfold Proc.wake
          split_ifs
          · exact hproc q
          · exact hproc q
        · show (update s.proc p _ q).lock = false
          rw [update_of_ne hq]
          exact hproc q

theorem ends_wakeup {chan : Chan} (hproc : ∀ p, (s.proc p).lock = false) :
    Ends allow t (wakeup chan) s fun _ s' =>
      s'.lock = s.lock ∧ s'.pipe = s.pipe ∧ s'.delivered = s.delivered := by
  unfold wakeup myproc Prog.atomic
  rw [Prog.step_bind, ends_step]
  exact ends_wakeupFrom (List.finRange N) hproc

theorem ends_release (hlock : s.lock = some t) :
    Ends allow t release s fun _ s' => s' = { s with lock := none } := by
  unfold release Prog.atomic
  rw [ends_step, if_pos hlock]
  rfl

theorem ends_readDone {n : ℤ} (hlock : s.lock = some t) (hproc : ∀ p, (s.proc p).lock = false) :
    Ends allow t (readDone dst n) s fun r s' => ∃ (k lost : ℕ) (s1 : State N), r = k ∧
      Copied dst s n.toNat 0 k lost s1 ∧ s'.pipe = s1.pipe ∧ s'.delivered = s1.delivered := by
  unfold readDone
  refine (ends_readCopy n.toNat 0).bind ?_
  rintro r s1 ⟨k, lost, rfl, h⟩
  refine (ends_wakeup (by rw [h.proc]; exact hproc)).bind ?_
  rintro _ s2 ⟨hl, hpipe, hdel⟩
  refine (ends_release (by rw [hl, h.lock, hlock])).bind ?_
  intro _ s3 hs3
  subst hs3
  exact ⟨k, lost, s1, by simp, h, hpipe, hdel⟩

/-- A call that does not have to wait. -/
theorem ends_piperead {n : ℤ} {rounds : ℕ} (hlock : s.lock = none)
    (hproc : ∀ p, (s.proc p).lock = false) (hready : (s.pipe.empty && s.pipe.writeopen) = false) :
    Ends allow t (piperead dst n (rounds + 1)) s fun r s' => ∃ (k lost : ℕ) (s1 : State N), r = k ∧
      Copied dst { s with lock := some t } n.toNat 0 k lost s1 ∧ s'.pipe = s1.pipe ∧
      s'.delivered = s1.delivered := by
  unfold piperead
  refine Ends.bind (R := fun _ s' => s' = { s with lock := some t }) ?_ ?_
  · unfold acquire Prog.atomic
    rw [ends_step, hlock, if_neg nofun, if_pos rfl]
    rfl
  · intro _ s0 hs0
    subst hs0
    rw [readLoop]
    show Ends allow t (Prog.look (fun s : State N => s.pipe.empty && s.pipe.writeopen) >>= _) _ _
    rw [ends_look_bind]
    dsimp only
    rw [hready, if_neg Bool.false_ne_true]
    exact ends_readDone rfl hproc

/-- A call that has to wait, and is alone: it returns only if it is killed, and has removed
nothing. -/
theorem piperead_waits {n : ℤ} {rounds : ℕ} {r : ℤ} (hlock : s.lock = none)
    (hproc : ∀ p, (s.proc p).lock = false) (hwait : (s.pipe.empty && s.pipe.writeopen) = true)
    (hr : (piperead dst n (rounds + 1)).run t s = .ok r s') :
    r = -1 ∧ s'.pipe = s.pipe ∧ s'.delivered = s.delivered := by
  unfold piperead at hr
  obtain ⟨_, s0, hacq, hr⟩ := Prog.run_bind_ok.mp hr
  have hs0 : s0 = { s with lock := some t } := by
    simpa [acquire, Prog.atomic, Prog.run, hlock] using hacq.symm
  subst hs0
  rw [readLoop] at hr
  obtain ⟨_, _, hlook, hr⟩ := Prog.run_bind_ok.mp hr
  cases hlook
  rw [if_pos hwait] at hr
  obtain ⟨dead, _, hkilled, hr⟩ := Prog.run_bind_ok.mp hr
  simp only [killed, myproc, withProc, Prog.atomic, Prog.run, Prog.step_bind, Prog.ret_bind, hproc,
    Bool.false_eq_true, if_false, Result.ok.injEq] at hkilled
  obtain ⟨-, rfl⟩ := hkilled
  cases dead with
  | true =>
    rw [if_pos rfl] at hr
    simp only [release, Prog.atomic, Prog.run, Prog.step_bind, Prog.ret_bind, if_true,
      Prog.pure_eq_ret, Result.ok.injEq] at hr
    obtain ⟨rfl, rfl⟩ := hr
    exact ⟨rfl, rfl, rfl⟩
  | false =>
    -- asleep, and nobody is there to wake it
    rw [if_neg Bool.false_ne_true] at hr
    simp [sleep, resume, acquire, Prog.act, Prog.atomic, Prog.run, State.setProc] at hr

/-- **A read removes exactly the bytes it delivers and reports, and the next one goes on behind
them, if and only if every byte it can take has a place that can be written.**  A read that has
to wait removes nothing before it goes on. -/
theorem piperead_lossless_iff {n : ℤ} {rounds : ℕ} (hlock : s.lock = none)
    (hproc : ∀ p, (s.proc p).lock = false) :
    ((s.pipe.empty && s.pipe.writeopen) = false →
      ∃ (k : ℕ) (s' : State N), (piperead dst n (rounds + 1)).run t s = .ok (k : ℤ) s' ∧
        s'.delivered = s.delivered ++ s.pipe.pending.take k ∧ k ≤ s.pipe.pending.length ∧
        (s'.pipe.pending = s.pipe.pending.drop k ↔
          ∀ i < min n.toNat s.pipe.pending.length, dst i = true)) ∧
    ((s.pipe.empty && s.pipe.writeopen) = true → ∀ r s',
      (piperead dst n (rounds + 1)).run t s = .ok r s' →
        r = -1 ∧ s'.pipe = s.pipe ∧ s'.delivered = s.delivered) := by
  refine ⟨?_, fun hwait r s' => piperead_waits hlock hproc hwait⟩
  intro hready
  obtain ⟨r, s', hrun, k, lost, s1, rfl, h, hpipe, hdel⟩ := Ends.exists_run
    (ends_piperead (t := t) hlock hproc hready : Ends _ t (piperead dst n (rounds + 1)) s _)
  have hpend := h.pending
  have hover := h.ended
  dsimp only at hpend hover
  refine ⟨k, s', hrun, hdel.trans h.delivered, ?_, ?_⟩
  · rcases hover with ⟨-, hk⟩ | ⟨-, hk, -⟩
    · omega
    · omega
  rw [hpipe, hpend]
  rcases hover with ⟨hlost, hk⟩ | ⟨hlost, hk, hbad⟩
  · -- all bytes had a place
    subst hlost
    refine iff_of_true rfl ?_
    intro i hi
    have := h.written i (by omega)
    rwa [Nat.zero_add] at this
  · -- the byte behind those delivered is gone
    subst hlost
    refine iff_of_false ?_ ?_
    · intro hc
      have hlen := congrArg List.length hc
      rw [List.length_drop, List.length_drop] at hlen
      omega
    · intro hall
      have := hall k hk
      rw [Nat.zero_add] at hbad
      rw [hbad] at this
      cases this

/-- A pipe with one byte in it. -/
def oneByte : State 1 where
  lock := none
  pipe := ⟨fun _ => 7, 0, 1, true, true⟩
  live := true
  proc _ := ⟨false, .RUNNABLE, none, false⟩
  accepted := [7]
  taken := []
  delivered := []

theorem piperead_lossless_one : oneByte.lock = none ∧ (∀ p, (oneByte.proc p).lock = false) ∧
    ∃ (k : ℕ) (s' : State 1), (piperead (fun _ => true) 1 1).run 0 oneByte = .ok (k : ℤ) s' ∧
      s'.pipe.pending = oneByte.pipe.pending.drop k := by
  refine ⟨rfl, fun _ => rfl, ?_⟩
  have hread : ∃ (k : ℕ) (s' : State 1), (piperead (fun _ => true) 1 1).run 0 oneByte = .ok
    (k : ℤ) s' ∧
      _ ∧ _ ∧ (s'.pipe.pending = oneByte.pipe.pending.drop k ↔ _) :=
    (piperead_lossless_iff rfl fun _ => rfl).1 (by decide)
  obtain ⟨k, s', hrun, -, -, h⟩ := hread
  exact ⟨k, s', hrun, h.mpr fun _ _ => rfl⟩

/-- **A byte is lost**: the buffer cannot be written, the read reports no byte and delivers none,
and the pipe is empty. -/
theorem byte_lost : oneByte.pipe.pending = [7] ∧
    ∃ s', (piperead (fun _ => false) 1 1).run 0 oneByte = .ok 0 s' ∧ s'.delivered = [] ∧
      s'.pipe.pending = [] :=
  ⟨by decide, _, rfl, rfl, by decide⟩

end Xv6.Pipes
