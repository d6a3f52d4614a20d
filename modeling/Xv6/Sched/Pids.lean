import Xv6.Sched.Kill

/-!
# Pids

`allocpid` counts up in an `int` and never looks at the pids that are in use.  As
long as the counter has not left the positive numbers, a pid is the number of the
process among all that were ever created, hence no two processes share one
(`pids_identify`).  With the creation number `2 ^ 31` the counter turns negative,
and `2 ^ 32 - 1` creations after `initproc` was made, a child is given the pid of
`initproc`, which is still there (`pids_wrap`).

## Main definitions

* `Op.creates` — the calls that take a pid.
* `Numbers` — what a call does to the numbers of the processes.
* `Numbered` — pids are the numbers of the processes, and these are distinct.

## Main results

* `Op.numbers`, `Run.numbered` — pids keep up with the number of creations.
* `pids_identify` — **pids are positive and distinct while fewer than `2 ^ 31` were taken.**
* `pids_wrap` — a negative pid, and two processes with one pid.
-/

namespace Xv6.Sched

variable {N : ℕ} {initproc p q : Fin N} {T T' : Table N} {ops : List (Op N)} {op : Op N}

/-- The calls that take a pid, if there is a slot. -/
def Op.creates : Op N → Bool
  | .allocproc _ => true
  | .kfork _ _ _ => true
  | _ => false

/-! ### What a call does to the numbers -/

/-- What a call does to the processes and their numbers: at most one process is new, it has the
next number, and `taken` says whether the counters went on. -/
structure Numbers (T T' : Table N) (new : Option (Fin N)) (taken : Bool) : Prop where
  kept : ∀ p, (T'.proc p).state ≠ .UNUSED → new ≠ some p →
    (T.proc p).state ≠ .UNUSED ∧ (T'.proc p).pid = (T.proc p).pid ∧ (T'.proc p).gen = (T.proc p).gen
  fresh : ∀ p, new = some p → (T'.proc p).pid = T.nextpid ∧ (T'.proc p).gen = T.nextgen ∧
    taken = true
  nextpid : T'.nextpid = T.nextpid + BitVec.ofNat 32 taken.toNat
  nextgen : T'.nextgen = T.nextgen + taken.toNat

theorem numbers_of_keeps (hpid : T'.nextpid = T.nextpid) (hgen : T'.nextgen = T.nextgen)
    (h : ∀ p, Keeps (T.proc p) (T'.proc p)) : Numbers T T' none false := by
  refine ⟨?_, nofun, by simp [hpid], hgen⟩
  intro p hp _
  exact ⟨mt (h p).unused.mpr hp, (h p).pid, (h p).gen⟩

theorem Numbers.refl (T : Table N) : Numbers T T none false :=
  numbers_of_keeps rfl rfl fun p => .refl (T.proc p)

theorem numbers_set {pr : Proc N} (h : pr.state ≠ .UNUSED →
    (T.proc q).state ≠ .UNUSED ∧ pr.pid = (T.proc q).pid ∧ pr.gen = (T.proc q).gen) :
    Numbers T (T.set q pr) none false := by
  refine ⟨?_, nofun, by simp [Table.set], rfl⟩
  intro p hp _
  obtain rfl | hpq := eq_or_ne p q
  · rw [Table.set_self] at hp ⊢
    exact h hp
  · rw [Table.set_of_ne T pr hpq] at hp ⊢
    exact ⟨hp, rfl, rfl⟩

theorem numbers_set_keeps {pr : Proc N} (h : Keeps (T.proc q) pr) :
    Numbers T (T.set q pr) none false :=
  numbers_set fun hp => ⟨mt h.unused.mpr hp, h.pid, h.gen⟩

/-- A call that takes a pid and changes one slot: that is given to a new process, or is free
after the call. -/
theorem numbers_take {pr : Proc N} {new : Option (Fin N)}
    (h : new = some q ∧ pr.pid = T.nextpid ∧ pr.gen = T.nextgen ∨ new = none ∧ pr.state = .UNUSED) :
    Numbers T (Table.set { T with nextpid := T.nextpid + 1, nextgen := T.nextgen + 1 } q pr)
      new true := by
  refine ⟨?_, ?_, rfl, rfl⟩
  · intro p hp hnew
    obtain rfl | hpq := eq_or_ne p q
    · rw [Table.set_self] at hp
      rcases h with h | h
      · exact absurd h.1 hnew
      · exact absurd h.2 hp
    · rw [Table.set_of_ne _ pr hpq] at hp ⊢
      exact ⟨hp, rfl, rfl⟩
  · intro p hp
    rcases h with h | h
    · obtain rfl : q = p := Option.some_injective _ (h.1.symm.trans hp)
      rw [Table.set_self]
      exact ⟨h.2.1, h.2.2, rfl⟩
    · rw [h.1] at hp
      cases hp

theorem Table.allocproc_take (T : Table N) (mem : Bool) :
    T.allocproc mem = (none, T) ∨
    ∃ q, T.allocproc mem = (if mem then some q else none,
      Table.set { T with nextpid := T.nextpid + 1, nextgen := T.nextgen + 1 } q
        (if mem then (T.proc q).alloc T.nextpid T.nextgen
          else ((T.proc q).alloc T.nextpid T.nextgen).free)) := by
  unfold Table.allocproc
  cases (List.finRange N).find? fun p => decide ((T.proc p).state = .UNUSED) with
  | none => exact Or.inl rfl
  | some q =>
    refine Or.inr ⟨q, ?_⟩
    cases mem <;> rfl

theorem numbers_allocproc (mem : Bool) : ∃ new taken, Numbers T (T.allocproc mem).2 new taken := by
  rcases T.allocproc_take mem with h | ⟨q, h⟩
  · rw [h]
    exact ⟨none, false, .refl T⟩
  · rw [h]
    cases mem with
    | true => exact ⟨some q, true, numbers_take (Or.inl ⟨rfl, rfl, rfl⟩)⟩
    | false => exact ⟨none, true, numbers_take (Or.inr ⟨rfl, rfl⟩)⟩

@[simp] theorem Table.set_set (T : Table N) (q : Fin N) (pr pr' : Proc N) :
    (T.set q pr).set q pr' = T.set q pr' := by
  simp [Table.set]

theorem numbers_kfork (p : Fin N) (mem copy : Bool) :
    ∃ new taken, Numbers T (T.kfork p mem copy).2 new taken := by
  unfold Table.kfork
  rcases T.allocproc_take mem with h | ⟨q, h⟩
  · rw [h]
    exact ⟨none, false, .refl T⟩
  · cases mem with
    | false =>
      rw [h]
      exact ⟨none, true, numbers_take (Or.inr ⟨rfl, rfl⟩)⟩
    | true =>
      rw [if_pos rfl, if_pos rfl] at h
      rw [h]
      dsimp only
      -- the slot of the child is set twice
      rw [Table.set_self, Table.set_set, Table.set_set]
      cases copy with
      | true => exact ⟨some q, true, numbers_take (Or.inl ⟨rfl, rfl, rfl⟩)⟩
      | false => exact ⟨none, true, numbers_take (Or.inr ⟨rfl, rfl⟩)⟩

theorem numbers_kexit (hq : (T.proc q).state ≠ .UNUSED) (status : BitVec 32) :
    Numbers T (T.kexit initproc q status) none false := by
  have h1 := T.keeps_reparent initproc q
  have h2 := (T.reparent initproc q).keeps_wakeup
    (((T.reparent initproc q).proc q).parent.map .proc) (some q)
  have hnext : (T.reparent initproc q).nextpid = T.nextpid ∧
      (T.reparent initproc q).nextgen = T.nextgen := by
    unfold Table.reparent
    dsimp only
    split_ifs <;> exact ⟨rfl, rfl⟩
  refine numbers_of_keeps hnext.1 hnext.2 ?_
  intro p
  show Keeps (T.proc p) ((Table.set _ q _).proc p)
  obtain rfl | hpq := eq_or_ne p q
  · rw [Table.set_self]
    have h := (h1 p).trans (h2 p)
    exact keeps_state h.pid h.killed h.gen hq nofun
  · rw [Table.set_of_ne _ _ hpq]
    exact (h1 p).trans (h2 p)

theorem numbers_kwait (hq : (T.proc q).state ≠ .UNUSED) (addr : Option Bool) :
    Numbers T (T.kwait q addr).2 none false := by
  unfold Table.kwait
  cases (List.finRange N).find? fun pp =>
      decide ((T.proc pp).parent = some q ∧ (T.proc pp).state = .ZOMBIE) with
  | some pp =>
    dsimp only
    split_ifs
    · exact .refl T
    · exact numbers_set fun h => absurd rfl h
  | none =>
    dsimp only
    split_ifs
    · exact .refl T
    · exact numbers_set_keeps (keeps_state rfl rfl rfl hq nofun)

theorem numbers_kkill (pid : BitVec 32) : Numbers T (T.kkill pid).2 none false := by
  unfold Table.kkill
  cases (List.finRange N).find? fun p => decide ((T.proc p).pid = pid) with
  | none => exact .refl T
  | some q =>
    refine numbers_set fun h => ⟨?_, rfl, rfl⟩
    intro hu
    simp [Proc.kill, hu] at h

/-- **What a call does to the numbers.** -/
theorem Op.numbers (hop : op.Legal initproc T) :
    ∃ new taken, Numbers T (op.apply initproc T) new taken ∧
      (taken = true → op.creates = true) := by
  have hlive : ∀ {q : Fin N} {state : ProcState}, (T.proc q).state = state → state ≠ .UNUSED →
      (T.proc q).state ≠ .UNUSED := by
    intro q state hq hs
    rwa [hq]
  have hstate : ∀ {q : Fin N} {state state' : ProcState} {chan : Option (Chan N)},
      (T.proc q).state = state → state ≠ .UNUSED → state' ≠ .UNUSED →
      Numbers T (T.setState q state' chan) none false := by
    intro q state state' chan hq hs hs'
    exact numbers_set_keeps (keeps_state rfl rfl rfl (hlive hq hs) hs')
  cases op with
  | allocproc mem =>
    obtain ⟨new, taken, h⟩ := numbers_allocproc mem (T := T)
    exact ⟨new, taken, h, fun _ => rfl⟩
  | kfork q mem copy =>
    obtain ⟨new, taken, h⟩ := numbers_kfork q mem copy (T := T)
    exact ⟨new, taken, h, fun _ => rfl⟩
  | kexit q status => exact ⟨none, false, numbers_kexit (hlive hop.1 nofun) status, nofun⟩
  | kwait q addr => exact ⟨none, false, numbers_kwait (hlive hop nofun) addr, nofun⟩
  | kkill pid => exact ⟨none, false, numbers_kkill pid, nofun⟩
  | setkilled q => exact ⟨none, false, numbers_set fun h => ⟨h, rfl, rfl⟩, nofun⟩
  | ready q => exact ⟨none, false, hstate hop nofun nofun, nofun⟩
  | run q => exact ⟨none, false, hstate hop nofun nofun, nofun⟩
  | yield q => exact ⟨none, false, hstate hop nofun nofun, nofun⟩
  | sleep q chan => exact ⟨none, false, hstate hop nofun nofun, nofun⟩
  | wakeup chan me =>
    exact ⟨none, false, numbers_of_keeps rfl rfl (T.keeps_wakeup chan me), nofun⟩

/-! ### Runs -/

/-- A pid is the number of the process among all that were created, and no two processes have
the same number. -/
structure Numbered (T : Table N) : Prop where
  next : T.nextpid = BitVec.ofNat 32 (T.nextgen + 1)
  pid : ∀ p, (T.proc p).state ≠ .UNUSED → (T.proc p).pid = BitVec.ofNat 32 ((T.proc p).gen + 1)
  lt : ∀ p, (T.proc p).state ≠ .UNUSED → (T.proc p).gen < T.nextgen
  inj : ∀ p q, (T.proc p).state ≠ .UNUSED → (T.proc q).state ≠ .UNUSED →
    (T.proc p).gen = (T.proc q).gen → p = q

/-- The step: a call keeps the numbers in order. -/
theorem Numbers.numbered {new : Option (Fin N)} {taken : Bool} (h : Numbers T T' new taken)
    (hT : Numbered T) : Numbered T' := by
  -- a new process comes after all others
  have hnew : ∀ p q, new = some p → new ≠ some q → (T'.proc q).state ≠ .UNUSED →
      (T'.proc q).gen < (T'.proc p).gen := by
    intro p q hp hq hlive
    obtain ⟨hq', -, hgen⟩ := h.kept q hlive hq
    rw [hgen, (h.fresh p hp).2.1]
    exact hT.lt q hq'
  constructor
  · rw [h.nextpid, h.nextgen, hT.next, ← BitVec.ofNat_add]
    congr 1
    omega
  · intro p hp
    by_cases hpn : new = some p
    · obtain ⟨hpid, hgen, -⟩ := h.fresh p hpn
      rw [hpid, hgen, hT.next]
    · obtain ⟨hlive, hpid, hgen⟩ := h.kept p hp hpn
      rw [hpid, hgen, hT.pid p hlive]
  · intro p hp
    rw [h.nextgen]
    by_cases hpn : new = some p
    · obtain ⟨-, hgen, htaken⟩ := h.fresh p hpn
      simp [hgen, htaken]
    · obtain ⟨hlive, -, hgen⟩ := h.kept p hp hpn
      rw [hgen]
      exact Nat.lt_add_right _ (hT.lt p hlive)
  · intro p q hp hq hgen
    by_cases hpn : new = some p
    · by_cases hqn : new = some q
      · exact Option.some_injective _ (hpn.symm.trans hqn)
      · exact absurd hgen (Nat.ne_of_gt (hnew p q hpn hqn hq))
    · by_cases hqn : new = some q
      · exact absurd hgen (Nat.ne_of_lt (hnew q p hqn hpn hp))
      · obtain ⟨hp', -, hpg⟩ := h.kept p hp hpn
        obtain ⟨hq', -, hqg⟩ := h.kept q hq hqn
        rw [hpg, hqg] at hgen
        exact hT.inj p q hp' hq' hgen

/-- **In every run the pids keep up with the number of creations.** -/
theorem Run.numbered (h : Run initproc ops T) : Numbered T ∧ T.nextgen ≤ ops.countP Op.creates := by
  induction h with
  | boot =>
    exact ⟨⟨rfl, fun _ h => absurd rfl h, fun _ h => absurd rfl h, fun _ _ h => absurd rfl h⟩,
      le_rfl⟩
  | @op ops T op h hop ih =>
    obtain ⟨hT, hle⟩ := ih
    obtain ⟨new, taken, hnum, hcreates⟩ := Op.numbers hop
    refine ⟨hnum.numbered hT, ?_⟩
    rw [hnum.nextgen, List.countP_append, List.countP_singleton]
    cases taken with
    | false => exact le_trans hle (Nat.le_add_right _ _)
    | true =>
      rw [hcreates rfl]
      exact Nat.succ_le_succ hle

/-! ### Children that come and go -/

section Wrap

variable {n : ℕ} {W : Table (n + 2)} {pid : BitVec 32} {runs : List (Op (n + 2))}

/-- `initproc` runs, it is the only process, and `pid` is the next pid. -/
structure Alone (W : Table (n + 2)) (pid : BitVec 32) : Prop where
  init : (W.proc 0).state = .RUNNING
  first : (W.proc 0).pid = 1
  free : ∀ p, p ≠ 0 → (W.proc p).state = .UNUSED
  parent : ∀ p, (W.proc p).parent = none
  next : W.nextpid = pid

theorem Table.reparent_eq_self (T : Table N) (h : ∀ pp, (T.proc pp).parent ≠ some p) :
    T.reparent initproc p = T := by
  have hpass : (fun pp => (T.proc pp).pass p initproc) = T.proc := by
    funext pp
    exact if_neg (h pp)
  unfold Table.reparent
  dsimp only
  rw [if_neg (by simpa using h), hpass]

theorem Table.wakeup_eq_self (T : Table N) {chan : Option (Chan N)} {me : Option (Fin N)}
    (h : ∀ p, some p ≠ me → (T.proc p).state ≠ .SLEEPING) : T.wakeup chan me = T := by
  have hwake : (fun p => if some p = me then T.proc p else (T.proc p).wake chan) = T.proc := by
    funext p
    split_ifs with hp
    · rfl
    · simp [Proc.wake, h p hp]
  unfold Table.wakeup
  rw [hwake]

theorem Run.call (op : Op N) (h : Run initproc ops T) (hop : op.Legal initproc T) :
    Run initproc (ops ++ [op]) (op.apply initproc T) := .op h hop

theorem Alone.kfork (h : Alone W pid) : W.kfork 0 true true = (some pid,
    Table.set { W with nextpid := pid + 1, nextgen := W.nextgen + 1 } 1
      { (W.proc 1).alloc pid W.nextgen with parent := some 0, state := .RUNNABLE }) := by
  have hslot : (List.finRange (n + 2)).find? (fun p => (W.proc p).state = .UNUSED) = some 1 := by
    simp [List.finRange_succ, h.init, h.free 1 (by simp)]
  have hnext := h.next
  subst hnext
  unfold Table.kfork Table.allocproc
  rw [hslot]
  simp [Table.set_self, Proc.alloc]

/-- The child exits. -/
theorem Alone.kexit {c : Proc (n + 2)} {V : Table (n + 2)} (h : Alone W pid) (hV : V.proc = W.proc)
    (hparent : c.parent = some 0) :
    (V.set 1 c).kexit 0 1 0 = V.set 1
    { c with xstate := 0, state := .ZOMBIE, context := .zombie } := by
  have h10 : (1 : Fin (n + 2)) ≠ 0 := by simp
  have hother : ∀ p, p ≠ 1 → (V.set 1 c).proc p = W.proc p := by
    intro p hp
    rw [Table.set_of_ne V c hp, hV]
  have hpass : (V.set 1 c).reparent 0 1 = V.set 1 c := by
    refine Table.reparent_eq_self _ ?_
    intro p
    by_cases hp : p = 1
    · rw [hp, Table.set_self, hparent]
      simp
    · rw [hother p hp, h.parent p]
      exact nofun
  have hwake : ∀ chan, (V.set 1 c).wakeup chan (some 1) = V.set 1 c := by
    intro chan
    refine Table.wakeup_eq_self _ ?_
    intro p hp
    have hp : p ≠ 1 := fun hc => hp (congrArg some hc)
    rw [hother p hp]
    by_cases hp0 : p = 0
    · rw [hp0, h.init]
      exact nofun
    · rw [h.free p hp0]
      exact nofun
  unfold Table.kexit
  dsimp only
  rw [hpass, hwake, Table.set_set, Table.set_self]

theorem Alone.kwait {c : Proc (n + 2)} {V : Table (n + 2)} (h : Alone W pid) (hV : V.proc = W.proc)
    (hparent : c.parent = some 0) (hzombie : c.state = .ZOMBIE) :
    (V.set 1 c).kwait 0 none = (some c.pid.toInt, V.set 1 c.free) := by
  have h0 : (V.set 1 c).proc 0 = W.proc 0 := by rw [Table.set_of_ne V c (by simp), hV]
  have hslot : (List.finRange (n + 2)).find? (fun pp =>
      decide (((V.set 1 c).proc pp).parent = some 0 ∧ ((V.set 1 c).proc pp).state = .ZOMBIE)) =
      some 1 := by
    simp [List.finRange_succ, h0, h.init, Table.set_self, hparent, hzombie]
  unfold Table.kwait
  rw [hslot]
  simp [Table.set_self]

/-- `initproc` makes a child, the child runs and exits, and `initproc` waits for it. -/
def cycle (n : ℕ) : List (Op (n + 2)) := [.kfork 0 true true, .run 1, .kexit 1 0, .kwait 0 none]

/-- After that it is alone again, and a pid is gone. -/
theorem Alone.cycle (hrun : Run 0 runs W) (h : Alone W pid) :
    ∃ W', Run 0 (runs ++ cycle n) W' ∧ Alone W' (pid + 1) := by
  obtain ⟨V, hV⟩ : ∃ V : Table (n + 2),
      V = { W with nextpid := pid + 1, nextgen := W.nextgen + 1 } := ⟨_, rfl⟩
  obtain ⟨c, hc⟩ : ∃ c : Proc (n + 2), c =
      { (W.proc 1).alloc pid W.nextgen with parent := some 0, state := .RUNNABLE } := ⟨_, rfl⟩
  have hproc : V.proc = W.proc := by rw [hV]
  have hparent : c.parent = some 0 := by rw [hc]
  have hfork : (W.kfork 0 true true).2 = V.set 1 c := by rw [h.kfork, hV, hc]
  have hstart : (V.set 1 c).setState 1 .RUNNING ((V.set 1 c).proc 1).chan =
      V.set 1 { c with state := .RUNNING } := by
    simp [Table.setState, Table.set_self]
  have hexit := h.kexit (c := { c with state := .RUNNING }) hproc hparent
  have hwait := h.kwait (c := { c with xstate := 0, state := .ZOMBIE, context := .zombie }) hproc
    hparent rfl
  -- the four calls
  have r1 := hrun.call (.kfork 0 true true) h.init
  rw [show Op.apply 0 W (.kfork 0 true true) = V.set 1 c from hfork] at r1
  have r2 := r1.call (.run 1) (show ((V.set 1 c).proc 1).state = _ by rw [Table.set_self, hc])
  rw [show Op.apply 0 (V.set 1 c) (.run 1) = _ from hstart] at r2
  have r3 := r2.call (.kexit 1 0) ⟨by rw [Table.set_self], by simp⟩
  rw [show Op.apply 0 (V.set 1 { c with state := .RUNNING }) (.kexit 1 0) = _ from hexit] at r3
  have r4 := r3.call (.kwait 0 none) (by
    show ((V.set 1 _).proc 0).state = .RUNNING
    rw [Table.set_of_ne V _ (by simp), hproc, h.init])
  rw [show Op.apply 0 (V.set 1 _) (.kwait 0 none) = _ from congrArg Prod.snd hwait] at r4
  refine ⟨_, by simpa [Sched.cycle] using r4, ?_⟩
  have hother : ∀ p, p ≠ 1 → ∀ pr, (V.set 1 pr).proc p = W.proc p := by
    intro p hp pr
    rw [Table.set_of_ne V pr hp, hproc]
  refine ⟨?_, ?_, ?_, ?_, by rw [hV]; rfl⟩
  · rw [hother 0 (by simp), h.init]
  · rw [hother 0 (by simp), h.first]
  · intro p hp
    by_cases hp1 : p = 1
    · rw [hp1, Table.set_self]
      rfl
    · rw [hother p hp1, h.free p hp]
  · intro p
    by_cases hp1 : p = 1
    · rw [hp1, Table.set_self]
      rfl
    · rw [hother p hp1, h.parent p]

/-- The first process is made, and runs. -/
theorem alone_init (n : ℕ) : ∃ W : Table (n + 2),
    Run 0 [.allocproc true, .ready 0, .run 0] W ∧ Alone W 2 := by
  obtain ⟨W, hW⟩ : ∃ W : Table (n + 2), W = ((Table.boot (n + 2)).allocproc true).2 := ⟨_, rfl⟩
  have halloc : W = Table.set { Table.boot (n + 2) with nextpid := 2, nextgen := 1 } 0
      (((Table.boot (n + 2)).proc 0).alloc 1 0) := by
    rw [hW]
    unfold Table.allocproc
    have hslot : (List.finRange (n + 2)).find?
        (fun p => ((Table.boot (n + 2)).proc p).state = .UNUSED) = some 0 := by
      simp [List.finRange_succ, Table.boot]
    rw [hslot]
    rfl
  -- the three calls, one after the other
  have r1 := (Run.boot : Run (0 : Fin (n + 2)) [] _).call (.allocproc true) trivial
  rw [show Op.apply 0 _ (.allocproc true) = W from hW.symm] at r1
  have r2 := r1.call (.ready 0) (by
    show (W.proc 0).state = .USED
    rw [halloc, Table.set_self]
    rfl)
  have r3 := r2.call (.run 0) (by
    show ((W.setState 0 .RUNNABLE _).proc 0).state = .RUNNABLE
    unfold Table.setState
    rw [Table.set_self])
  refine ⟨_, r3, ?_⟩
  show Alone ((W.setState 0 .RUNNABLE _).setState 0 .RUNNING _) 2
  unfold Table.setState
  rw [Table.set_set, halloc, Table.set_set]
  have hother : ∀ p : Fin (n + 2), p ≠ 0 → ∀ pr, (Table.set { Table.boot (n + 2) with
      nextpid := 2, nextgen := 1 } 0 pr).proc p = (Table.boot (n + 2)).proc p :=
    fun p hp pr => Table.set_of_ne _ pr hp
  refine ⟨?_, ?_, ?_, ?_, rfl⟩
  · simp [Table.set_self]
  · simp [Table.set_self, Proc.alloc]
  · intro p hp
    rw [hother p hp]
    rfl
  · intro p
    by_cases hp : p = 0
    · simp [hp, Table.set_self, Proc.alloc, Table.boot]
    · rw [hother p hp]
      rfl

theorem alone_cycles (n k : ℕ) : ∃ (runs : List (Op (n + 2))) (W : Table (n + 2)),
    Run 0 runs W ∧ Alone W (BitVec.ofNat 32 (k + 2)) ∧ runs.countP Op.creates = k + 1 := by
  induction k with
  | zero =>
    obtain ⟨W, hrun, h⟩ := alone_init n
    exact ⟨_, W, hrun, h, rfl⟩
  | succ k ih =>
    obtain ⟨runs, W, hrun, h, hcount⟩ := ih
    obtain ⟨W', hrun', h'⟩ := h.cycle hrun
    refine ⟨runs ++ cycle n, W', hrun', ?_, ?_⟩
    · rwa [show (1 : BitVec 32) = BitVec.ofNat 32 1 from rfl, ← BitVec.ofNat_add,
        show k + 2 + 1 = k + 1 + 2 by omega] at h'
    · rw [List.countP_append, hcount]
      rfl

/-- After `k` children `initproc` makes one more. -/
theorem child_after (n k : ℕ) : ∃ (runs : List (Op (n + 2))) (W : Table (n + 2)),
    Run 0 runs W ∧ runs.countP Op.creates = k + 2 ∧
    (W.proc 0).state ≠ .UNUSED ∧ (W.proc 0).pid = 1 ∧
    (W.proc 1).state ≠ .UNUSED ∧ (W.proc 1).pid = BitVec.ofNat 32 (k + 2) := by
  obtain ⟨runs, W, hrun, h, hcount⟩ := alone_cycles n k
  have hnext := hrun.call (.kfork 0 true true) h.init
  rw [show Op.apply 0 W (.kfork 0 true true) = _ from congrArg Prod.snd h.kfork] at hnext
  have h0 : ∀ (V : Table (n + 2)) pr, (V.set 1 pr).proc 0 = V.proc 0 :=
    fun V pr => Table.set_of_ne V pr (by simp)
  refine ⟨_, _, hnext, ?_, ?_, ?_, ?_, ?_⟩
  · rw [List.countP_append, hcount]
    rfl
  · rw [h0, h.init]
    exact nofun
  · rw [h0, h.first]
  · rw [Table.set_self]
    exact nofun
  · rw [Table.set_self]
    rfl

end Wrap

/-! ### Pids as names -/

/-- **Pids are positive and identify the processes**, in every run with fewer than `2 ^ 31`
creations. -/
theorem pids_identify (h : Run initproc ops T) (hcount : ops.countP Op.creates < 2 ^ 31) :
    (∀ p, (T.proc p).state ≠ .UNUSED → 0 < (T.proc p).pid.toInt) ∧
    ∀ p q, (T.proc p).state ≠ .UNUSED → (T.proc q).state ≠ .UNUSED →
      (T.proc p).pid = (T.proc q).pid → p = q := by
  obtain ⟨hT, hle⟩ := h.numbered
  have hnat : ∀ p, (T.proc p).state ≠ .UNUSED →
      (T.proc p).pid.toNat = (T.proc p).gen + 1 ∧ (T.proc p).gen + 1 < 2 ^ 31 := by
    intro p hp
    have hlt : (T.proc p).gen + 1 < 2 ^ 31 :=
      lt_of_le_of_lt (Nat.succ_le_of_lt (hT.lt p hp)) (lt_of_le_of_lt hle hcount)
    rw [hT.pid p hp, BitVec.toNat_ofNat]
    exact ⟨Nat.mod_eq_of_lt (by omega), hlt⟩
  constructor
  · intro p hp
    obtain ⟨hpid, hlt⟩ := hnat p hp
    rw [BitVec.toInt_eq_toNat_of_lt (by omega), hpid]
    omega
  · intro p q hp hq hpq
    refine hT.inj p q hp hq ?_
    have hp' := (hnat p hp).1
    have hq' := (hnat q hq).1
    rw [hpq] at hp'
    omega

theorem pids_identify_init : ∃ (ops : List (Op NPROC)) (T : Table NPROC), Run 0 ops T ∧
    ops.countP Op.creates < 2 ^ 31 ∧ (T.proc 0).state ≠ .UNUSED ∧ 0 < (T.proc 0).pid.toInt := by
  obtain ⟨ops, T, hrun, hcount, hinit, -⟩ := child_after 62 0
  have hlt : ops.countP Op.creates < 2 ^ 31 := by
    rw [hcount]
    decide
  exact ⟨ops, T, hrun, hlt, hinit, (pids_identify hrun hlt).1 0 hinit⟩

/-- **The counter wraps around**: with `2 ^ 31` creations there is a process whose pid is
negative, and a longer run has a child with the pid of `initproc`. -/
theorem pids_wrap :
    (∃ (ops : List (Op NPROC)) (T : Table NPROC) (p : Fin NPROC), Run 0 ops T ∧
      ops.countP Op.creates = 2 ^ 31 ∧ (T.proc p).state ≠ .UNUSED ∧ (T.proc p).pid.toInt < 0) ∧
    ∃ (ops : List (Op NPROC)) (T : Table NPROC) (p q : Fin NPROC), Run 0 ops T ∧ p ≠ q ∧
      (T.proc p).state ≠ .UNUSED ∧ (T.proc q).state ≠ .UNUSED ∧
      (T.proc p).pid = (T.proc q).pid := by
  constructor
  · obtain ⟨ops, T, hrun, hcount, -, -, hused, hpid⟩ := child_after 62 (2 ^ 31 - 2)
    refine ⟨ops, T, 1, hrun, hcount, hused, ?_⟩
    rw [hpid]
    decide
  · obtain ⟨ops, T, hrun, -, hinit, hfirst, hused, hpid⟩ := child_after 62 (2 ^ 32 - 1)
    refine ⟨ops, T, 0, 1, hrun, by decide, hinit, hused, ?_⟩
    rw [hfirst, hpid]
    decide

end Xv6.Sched
