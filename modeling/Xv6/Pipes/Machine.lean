import Xv6.Pipes.Inv

/-!
# Readers and writers of a pipe

The functions of `kernel/pipe.c` keep the invariant of `Xv6.Pipes.Inv`, hence it
holds whatever the interleaving of any number of readers and writers.

The source wakes the readers in `pipewrite` when the pipe is full and at the end
of the loop, but not where it gives up because the process was killed.  A kill
that arrives after bytes have been stored leaves the readers asleep next to them
(`reader_sleeps_on`).  A process that is not killed while it holds `pi->lock`
takes that exit only with nothing stored since the last wakeup.

## Main results

* `safe_call` — every call on the pipe keeps to the discipline.
* `bytes_in_order` — **the bytes delivered are the bytes accepted, in order**, across any
  number of wraparounds of the counters.
* `sleepers_must_wait` — nobody sleeps without a reason, if processes are not killed while
  they hold the lock; `reader_sleeps_on` — somebody may otherwise.
-/

namespace Xv6.Pipes

open Conc Function

variable {N : ℕ} {copies spare : Prop} {t : Fin N} {d : Pipe} {a : Bool}

/-! ### Writing -/

/-- What a writer owes: it has stored something since its last wakeup, or not. -/
def writeDebt (t : Fin N) (stored : Bool) : Chan → Fin N → Bool :=
  if stored then Function.update noDebt .nread (owing t) else noDebt

theorem owing_self (t : Fin N) : owing t t = false := by simp [owing]

theorem writeDebt_self (t : Fin N) (b : Bool) : writeDebt t b .nread t = false := by
  cases b
  · rfl
  · simp [writeDebt, owing_self]

theorem writeDebt_paid (t : Fin N) (b : Bool) :
    update (writeDebt t b) .nread (fun _ => false) = noDebt := by
  cases b
  · exact update_eq_self Chan.nread noDebt
  · simp only [writeDebt, if_true, update_idem]
    exact update_eq_self Chan.nread noDebt

theorem writeDebt_store (t : Fin N) (b : Bool) :
    update (writeDebt t b) .nread (owing t) = writeDebt t true := by
  cases b
  · rfl
  · simp [writeDebt]

theorem safe_writeDone {i : ℕ} {b : Bool} :
    Safe (discipline N copies spare) t (writeDone i) (.within d a (writeDebt t b))
      fun _ g => g = .outside .awake := by
  refine Safe.seq (safe_wakeup (writeDebt_self t b) ?_)
  rw [writeDebt_paid]
  refine Safe.seq (safe_release (fun _ => rfl) ?_)
  rfl

theorem safe_gone {b : Bool} (hb : b = true → a = true ∧ d.readopen = true) :
    Safe (discipline N copies spare) t gone (.within d a (writeDebt t b)) fun r g =>
      ∃ a', Know.within d a' (writeDebt t b) = g ∧ (r = true → spare → b = false) ∧
        (r = false → a' = true ∧ d.readopen = true) := by
  refine Safe.seq (safe_look ?_)
  cases hro : d.readopen with
  | true =>
    rw [if_pos rfl]
    refine safe_killed fun r hr => ⟨!r, rfl, fun h hs => ?_, fun h => ⟨by simp [h], rfl⟩⟩
    by_contra hne
    rw [hr hs (hb (Bool.eq_true_of_not_eq_false hne)).1] at h
    cases h
  | false =>
    rw [if_neg Bool.false_ne_true]
    refine safe_pure.mpr ⟨a, rfl, fun _ _ => ?_, nofun⟩
    by_contra hne
    rw [(hb (Bool.eq_true_of_not_eq_false hne)).2] at hro
    cases hro

theorem safe_writeLoop {src : ℕ → Option UInt8} {n : ℤ} {rounds i : ℕ} {b : Bool}
    (hb : b = true → a = true ∧ d.readopen = true) :
    Safe (discipline N copies spare) t (writeLoop src n rounds i) (.within d a (writeDebt t b))
      fun _ g => g = .outside .awake := by
  induction rounds generalizing i d a b with
  | zero => exact safe_atomic fun _ _ _ _ => trivial
  | succ rounds ih =>
    rw [writeLoop]
    split_ifs with hin
    · refine Safe.bind (safe_gone hb) ?_
      rintro dead _ ⟨a', rfl, hdead, hlive⟩
      split_ifs with hd
      · refine Safe.seq (safe_release (fun hs => by rw [hdead hd hs]; rfl) ?_)
        rfl
      obtain ⟨ha', hro⟩ := hlive (Bool.eq_false_of_not_eq_true hd)
      refine Safe.seq (safe_look ?_)
      split_ifs with hf
      · refine Safe.seq (safe_wakeup (writeDebt_self t b) ?_)
        rw [writeDebt_paid]
        refine Safe.seq (safe_sleep (fun _ => rfl) ⟨hf, hro⟩ fun d' => ?_)
        exact ih (b := false) (by simp)
      · cases src i with
        | none => exact safe_writeDone
        | some ch =>
          refine Safe.seq (safe_push (Bool.eq_false_of_not_eq_true hf) ?_)
          rw [writeDebt_store]
          exact ih fun _ => ⟨ha', hro⟩
    · exact safe_writeDone

/-! ### Reading -/

theorem safe_readCopy {dst : ℕ → Bool} {left i : ℕ}
    (hdst : copies → ∀ j, i ≤ j → j < i + left → dst j = true)
    {debt : Chan → Fin N → Bool} (hdebt : debt = update noDebt .nwrite (debt .nwrite))
    (hself : debt .nwrite t = false) :
    Safe (discipline N copies spare) t (readCopy dst left i) (.within d a debt)
      fun _ g => ∃ d debt, g = .within d a debt ∧
        debt = update noDebt .nwrite (debt .nwrite) ∧ debt .nwrite t = false := by
  induction left generalizing i d debt with
  | zero => exact ⟨d, debt, rfl, hdebt, hself⟩
  | succ left ih =>
    rw [readCopy]
    refine Safe.seq (safe_look ?_)
    cases he : d.empty with
    | true => exact ⟨d, debt, rfl, hdebt, hself⟩
    | false =>
      rw [if_neg Bool.false_ne_true]
      have hnew : update debt .nwrite (owing t) =
          update noDebt .nwrite (owing t) := by
        rw [hdebt, update_idem]
      refine Safe.seq (safe_pop he (fun hc => hdst hc i le_rfl (by omega)) ?_)
      rw [hnew]
      have hpaid : update noDebt Chan.nwrite (owing t) = update noDebt Chan.nwrite
          (update noDebt Chan.nwrite (owing t) Chan.nwrite) := by simp
      have hme : update noDebt Chan.nwrite (owing t) Chan.nwrite t = false := by
        simp [owing_self]
      split_ifs
      · exact ih (fun hc j hj hj' => hdst hc j (by omega) (by omega)) hpaid hme
      · exact ⟨_, _, rfl, hpaid, hme⟩

theorem safe_readDone {dst : ℕ → Bool} {n : ℤ}
    (hdst : copies → ∀ i : ℕ, (i : ℤ) < n → dst i = true) :
    Safe (discipline N copies spare) t (readDone dst n) (.within d a noDebt)
      fun _ g => g = .outside .awake := by
  refine Safe.bind (safe_readCopy (fun hc j _ hj => hdst hc j (by omega)) ?_ rfl) ?_
  · exact (update_eq_self Chan.nwrite noDebt).symm
  rintro i _ ⟨d', debt, rfl, hdebt, hself⟩
  refine Safe.seq (safe_wakeup hself ?_)
  have hpaid : update debt .nwrite (fun _ => false) = noDebt := by
    rw [hdebt, update_idem]
    exact update_eq_self ..
  rw [hpaid]
  refine Safe.seq (safe_release (fun _ => rfl) ?_)
  rfl

theorem safe_readLoop {dst : ℕ → Bool} {n : ℤ} {rounds : ℕ}
    (hdst : copies → ∀ i : ℕ, (i : ℤ) < n → dst i = true) :
    Safe (discipline N copies spare) t (readLoop dst n rounds) (.within d a noDebt)
      fun _ g => g = .outside .awake := by
  induction rounds generalizing d a with
  | zero => exact safe_atomic fun _ _ _ _ => trivial
  | succ rounds ih =>
    rw [readLoop]
    refine Safe.seq (safe_look ?_)
    split_ifs with hw
    · refine Safe.seq (safe_killed fun dead _ => ?_)
      split_ifs
      · refine Safe.seq (safe_release (fun _ => rfl) ?_)
        rfl
      · refine Safe.seq (safe_sleep (fun _ => rfl) ?_ fun d' => ih)
        exact Bool.and_eq_true_iff.mp hw
    · exact safe_readDone hdst

/-! ### Closing -/

theorem safe_closeEnd {f : Pipe → Pipe} (chan : Chan)
    (hf : ∀ d, (f d).data = d.data ∧ (f d).nread = d.nread ∧ (f d).nwrite = d.nwrite)
    (hpay : ∀ d c, c ≠ chan → d.MustWait c → (f d).MustWait c) :
    Safe (discipline N copies spare) t (closeEnd f chan) (.within d a noDebt)
      fun _ g => Know.within (f d) a noDebt = g := by
  refine Safe.seq (safe_modify chan (hf d) (hpay d) ?_)
  refine safe_wakeup ?_ ?_
  · rw [update_self]
    exact owing_self t
  · rw [update_idem]
    exact congrArg _ (update_eq_self chan noDebt).symm

theorem safe_closeDone :
    Safe (discipline N copies spare) t closeDone (.within d a noDebt)
      fun _ g => g = .outside .awake := by
  refine Safe.seq (safe_look ?_)
  split_ifs
  · refine Safe.seq (safe_release (fun _ => rfl) ?_)
    refine safe_act fun s gs (hI : Inv copies spare s gs) hg =>
      ⟨.outside .awake, ⟨?_, trivial⟩, rfl⟩
    rw [← hg, update_eq_self]
    exact ⟨fun u => ⟨(hI.know u).lock, (hI.know u).pipe, (hI.know u).plock, (hI.know u).sleeping,
      (hI.know u).debtor, (hI.know u).alive⟩, hI.waits, hI.ring, hI.delivered⟩
  · exact safe_release (fun _ => rfl) rfl

theorem safe_pipeclose {writable : Bool} :
    Safe (discipline N copies spare) t (pipeclose writable) (.outside .awake)
      fun _ g => g = .outside .awake := by
  refine Safe.seq (safe_acquire fun d => ?_)
  cases writable with
  | true =>
    refine Safe.bind (safe_closeEnd .nread (fun _ => ⟨rfl, rfl, rfl⟩) fun d c hc hm => ?_) ?_
    · cases c with
      | nread => exact absurd rfl hc
      | nwrite => exact hm
    · rintro _ _ rfl
      exact safe_closeDone
  | false =>
    refine Safe.bind (safe_closeEnd .nwrite (fun _ => ⟨rfl, rfl, rfl⟩) fun d c hc hm => ?_) ?_
    · cases c with
      | nread => exact hm
      | nwrite => exact absurd rfl hc
    · rintro _ _ rfl
      exact safe_closeDone

/-! ### Runs -/

theorem safe_call {p : PipeM N Unit} (h : Call copies p) :
    Safe (discipline N copies spare) t p (.outside .awake) fun _ g => g = .outside .awake := by
  cases h with
  | pipewrite src n rounds h =>
    refine Safe.bind (Safe.seq (safe_acquire fun d => ?_)) fun _ _ h => safe_pure.mpr h
    exact safe_writeLoop (b := false) nofun
  | piperead dst n rounds h =>
    refine Safe.bind (Safe.seq (safe_acquire fun d => ?_)) fun _ _ h => safe_pure.mpr h
    exact safe_readLoop h
  | pipeclose writable => exact safe_pipeclose

theorem inv_of_fresh {s : State N} (h : Fresh s) : Inv copies spare s fun _ => .outside .awake := by
  refine ⟨fun u => at_outside ?_ ?_ ?_, fun _ p c hw => ?_, ?_, fun _ => ?_⟩
  · rw [h.lock]
    exact nofun
  · rw [(h.proc u).1]
    exact iff_of_false Bool.false_ne_true nofun
  · rw [(h.proc u).2]
    exact nofun
  · refine absurd hw (not_waits ?_ nofun)
    rw [(h.proc p).2]
    exact nofun
  · rw [h.nread, h.nwrite, h.taken, h.accepted]
    exact .start _
  · rw [h.delivered, h.taken]

theorem inv_of_kill {s : State N} {gs : Fin N → Know N} {q : Fin N} (h : Inv copies spare s gs)
    (hq : spare → s.lock ≠ some q) : Inv copies spare (s.setProc q (s.proc q).kill) gs := by
  refine h.touch rfl (fun hs => ?_) rfl fun hsp _ => Or.inr (hq hsp)
  by_contra hne
  rw [Proc.kill, if_neg hne] at hs
  exact hne hs

/-- **The invariant holds in every pool the machine reaches.** -/
theorem good_of_reachable {c : Pool (Fin N) (State N)} (h : (machine N copies spare).Reachable c) :
    (discipline N copies spare).Good c := by
  refine Discipline.invariant ?_ ?_ ?_ h
  · rintro c ⟨hf, hidle, hh⟩
    refine ⟨⟨fun _ => .outside .awake, inv_of_fresh hf, fun t => ?_⟩, fun msg hm => ?_⟩
    · rw [hidle]
      rfl
    · rw [hh] at hm
      cases hm
  · rintro t s gs p hI hidle ⟨-, hcall⟩
    refine ⟨gs t, by rwa [update_eq_self], ?_⟩
    rw [show gs t = .outside .awake from hidle]
    exact safe_call hcall
  · rintro c _ hg ⟨q, -, hq, rfl⟩
    obtain ⟨gs, hI, hsafe⟩ := hg.safe
    exact ⟨⟨gs, inv_of_kill hI hq, hsafe⟩, hg.allowed⟩

/-- The bytes in the pipe, in the order in which they will be read. -/
def Pipe.pending (pi : Pipe) : List UInt8 := Ring.pending pi.data pi.nread pi.nwrite

/-- **The bytes that `piperead` delivers are the bytes that `pipewrite` accepted, in order**:
what was delivered is an initial part of what was accepted, the rest is in the pipe, and it is
never more than the pipe holds. -/
theorem bytes_in_order {c : Pool (Fin N) (State N)} (h : (machine N True False).Reachable c) :
    c.st.delivered <+: c.st.accepted ∧
      c.st.pipe.pending = c.st.accepted.drop c.st.delivered.length ∧
      (c.st.pipe.nwrite - c.st.pipe.nread).toNat = c.st.pipe.pending.length ∧
      (c.st.pipe.nwrite - c.st.pipe.nread).toNat ≤ PIPESIZE := by
  obtain ⟨gs, (hI : Inv True False c.st gs), -⟩ := (good_of_reachable h).safe
  rw [hI.delivered trivial]
  refine ⟨hI.ring.taken, hI.ring.pending_eq (by decide), ?_, hI.ring.used_le (by decide)⟩
  rw [Pipe.pending, Ring.pending, List.length_map, List.length_range]

/-- While nobody holds the lock, those that sleep have reason to, if no process is killed
while it holds the lock. -/
theorem sleepers_must_wait {c : Pool (Fin N) (State N)} (h : (machine N False True).Reachable c)
    (hfree : c.st.lock = none) (p : Fin N) (hs : (c.st.proc p).state = .SLEEPING) :
    ((c.st.proc p).chan = some .nread →
      c.st.pipe.nread = c.st.pipe.nwrite ∧ c.st.pipe.writeopen = true) ∧
    ((c.st.proc p).chan = some .nwrite →
      c.st.pipe.nwrite = c.st.pipe.nread + BitVec.ofNat 32 PIPESIZE ∧
        c.st.pipe.readopen = true) := by
  obtain ⟨gs, (hI : Inv False True c.st gs), -⟩ := (good_of_reachable h).safe
  have hwait : ∀ chan, (c.st.proc p).chan = some chan → c.st.pipe.MustWait chan := by
    intro chan hc
    refine (hI.waits trivial p chan (Or.inl ⟨hs, hc⟩)).resolve_right ?_
    rintro ⟨u, hu⟩
    have := hI.debtor_eq hu
    rw [hfree] at this
    cases this
  constructor
  · intro hc
    obtain ⟨he, hw⟩ := hwait _ hc
    exact ⟨by simpa [Pipe.empty] using he, hw⟩
  · intro hc
    obtain ⟨hf, hr⟩ := hwait _ hc
    exact ⟨by simpa [Pipe.full] using hf, hr⟩

/-! ### A kill at the wrong moment -/

/-- A pipe that two processes share. -/
def shared : Pool (Fin 2) (State 2) where
  st :=
    { lock := none
      pipe := ⟨fun _ => 0, 0, 0, true, true⟩
      live := true
      proc := fun _ => ⟨false, .RUNNABLE, none, false⟩
      accepted := []
      taken := []
      delivered := [] }
  code _ := .ret ()
  halted := none

theorem shared_reachable : (machine 2 copies spare).Reachable shared :=
  .init ⟨⟨rfl, rfl, rfl, rfl, rfl, rfl, fun _ => ⟨rfl, rfl⟩, rfl, rfl, rfl⟩, fun _ => rfl, rfl⟩

/-- Process 0 reads from the empty pipe and falls asleep. -/
def asleep : Pool (Fin 2) (State 2) :=
  ((shared.start 0 do let _ ← piperead (fun _ => true) 1 2).play [0, 0, 0, 0, 0, 0]).getD shared

theorem asleep_reachable : (machine 2 copies spare).Reachable asleep :=
  System.Reachable.play_getD (shared_reachable.start rfl rfl ⟨rfl, .piperead _ 1 2
    fun _ _ _ => rfl⟩)
    (by decide +kernel)

/-- Process 1 stores one of its two bytes. -/
def stored : Pool (Fin 2) (State 2) :=
  ((asleep.start 1 do let _ ← pipewrite (fun i => some (7 + UInt8.ofNat i)) 2 3).play
    [1, 1, 1, 1, 1, 1]).getD shared

theorem stored_reachable : (machine 2 copies spare).Reachable stored :=
  System.Reachable.play_getD (asleep_reachable.start rfl rfl
    ⟨rfl, .pipewrite _ 2 3 fun _ _ _ => nofun⟩) (by decide +kernel)

/-- It stores the other one and wakes process 0, which reads the first. -/
def delivered : Pool (Fin 2) (State 2) :=
  (stored.play (List.replicate 8 1 ++ List.replicate 8 0)).getD shared

theorem delivered_reachable : (machine 2 copies spare).Reachable delivered :=
  System.Reachable.play_getD stored_reachable (by decide +kernel)

theorem bytes_in_order_delivered : delivered.st.accepted = [7, 8] ∧
    delivered.st.delivered = [7] ∧ delivered.st.pipe.pending = [8] :=
  ⟨by decide +kernel, by decide +kernel,
    (bytes_in_order delivered_reachable).2.1.trans (by decide +kernel)⟩

theorem sleepers_must_wait_asleep : asleep.st.lock = none ∧
    (asleep.st.proc 0).state = .SLEEPING ∧ asleep.st.pipe.nread = asleep.st.pipe.nwrite :=
  ⟨by decide +kernel, by decide +kernel,
    ((sleepers_must_wait asleep_reachable (by decide +kernel) 0 (by decide +kernel)).1
      (by decide +kernel)).1⟩

/-- Process 1 is killed, and returns. -/
def killedPool : Pool (Fin 2) (State 2) :=
  (({ stored with st := stored.st.setProc 1 (stored.st.proc 1).kill } : Pool _ _).play
    [1, 1, 1, 1]).getD shared

theorem killedPool_reachable : (machine 2 copies False).Reachable killedPool :=
  System.Reachable.play_getD (stored_reachable.step (.env ⟨1, rfl, nofun, rfl⟩)) (by decide +kernel)

/-- **A writer that is killed after it has stored a byte returns without waking the reader.** -/
theorem reader_sleeps_on : ∃ c, (machine 2 False False).Reachable c ∧ c.st.lock = none ∧
    (c.st.proc 0).state = .SLEEPING ∧ (c.st.proc 0).chan = some .nread ∧
      c.st.pipe.nread ≠ c.st.pipe.nwrite :=
  ⟨killedPool, killedPool_reachable, by decide +kernel⟩

end Xv6.Pipes
