import Xv6.Log.Machine

/-!
# Sleeping in `begin_op`

A process sleeps in `begin_op` while a commit is going on or the log might run out
of room.  Whoever changes that wakes it up: the commit is over, or an operation has
ended that was not the last one.  A commit clears the log without the lock, and
that is all right because `log.committing` is set all the while.

## Main definitions

* `Role`, `SleepInv` — what a process is doing, and the invariant.

## Main results

* `Client.sleep_safe` — every call keeps the invariant.
* `no_idle_sleeper` — **nobody is left asleep when the log could admit the operation.**
-/

namespace Xv6.Log

open Conc Function

/-! ### The invariant -/

/-- What a process is doing. -/
inductive Role where
  | client
  /-- It is in `begin_op`. -/
  | beginning
  /-- It is recovering the log. -/
  | booting
  /-- It has set `log.committing`. -/
  | committing
  deriving DecidableEq

variable {T : Type} [DecidableEq T] {start : ℕ} {img : ℕ → Block} {small : Prop} {t : T}
  {s s' : State T} {gs : T → Role} {g : Role}

/-- The condition under which `begin_op` sleeps. -/
def LogDisk.mustWait (l : LogDisk T) : Prop :=
  l.committing = true ∨ LOGBLOCKS < l.lh.length + (l.outstanding + 1) * MAXOPBLOCKS

/-- Processes sleep for a reason, and not before recovery is over. -/
structure SleepInv (s : State T) (gs : T → Role) : Prop where
  asleep : ∀ t, s.asleep t = true → s.mustWait
  down : s.up = false → ∀ t, s.asleep t = false
  beginning : ∀ t, gs t = .beginning → s.up = true
  booting : ∀ t, gs t = .booting → s.up = false
  committing : ∀ t, gs t = .committing → s.committing = true
  bootAlone : ∀ t u, gs t = .booting → gs u = .booting → t = u
  commitAlone : ∀ t u, gs t = .committing → gs u = .committing → t = u

/-- What the functions of the log keep to. -/
def sleepDiscipline (T : Type) [DecidableEq T] : Discipline T (State T) Role where
  Inv := SleepInv
  Guar _ _ := True
  refl _ := trivial
  idle g := g = .client
  allow _ := True

/-! ### Steps that have nothing to do with sleeping -/

/-- What the invariant is about stays. -/
structure Same (s s' : State T) : Prop where
  asleep : s'.asleep = s.asleep
  committing : s'.committing = s.committing
  lh : s'.lh = s.lh
  outstanding : s'.outstanding = s.outstanding
  up : s'.up = s.up

omit [DecidableEq T] in
theorem Same.refl (s : State T) : Same s s := ⟨rfl, rfl, rfl, rfl, rfl⟩

omit [DecidableEq T] in
theorem SleepInv.same (h : SleepInv s gs) (hs : Same s s') : SleepInv s' gs where
  asleep t ht := by
    have hw := h.asleep t (by rw [← hs.asleep]; exact ht)
    unfold LogDisk.mustWait at hw ⊢
    rwa [hs.committing, hs.lh, hs.outstanding]
  down hup t := by
    rw [hs.asleep]
    exact h.down (by rw [← hs.up]; exact hup) t
  beginning t ht := hs.up.trans (h.beginning t ht)
  booting t ht := hs.up.trans (h.booting t ht)
  committing t ht := hs.committing.trans (h.committing t ht)
  bootAlone := h.bootAlone
  commitAlone := h.commitAlone

theorem always_bread (dev blockno : ℕ) :
    (bread dev blockno : Prog T (State T) (Fin NBUF)).Always Same := by
  unfold bread
  refine Prog.Always.bind (Prog.always_atomic fun t s => ?_) fun i =>
    Prog.Always.bind (Prog.always_atomic fun t s => ?_) fun _ =>
      Prog.Always.bind (Prog.always_act fun t s => ?_) fun _ => Prog.always_pure i
  · cases s.cached dev blockno with
    | some i => exact ⟨rfl, rfl, rfl, rfl, rfl⟩
    | none =>
      cases s.unused with
      | some i => exact ⟨rfl, rfl, rfl, rfl, rfl⟩
      | none => trivial
  · cases (s.buf i).lock with
    | none => exact ⟨rfl, rfl, rfl, rfl, rfl⟩
    | some u => trivial
  · unfold State.noteRead
    split_ifs
    · exact ⟨rfl, rfl, rfl, rfl, rfl⟩
    · exact ⟨rfl, rfl, rfl, rfl, rfl⟩

theorem always_bwrite (i : Fin NBUF) : (bwrite start i : Prog T (State T) Unit).Always Same := by
  refine Prog.always_atomic fun t s => ?_
  split_ifs
  · exact ⟨rfl, rfl, rfl, rfl, rfl⟩
  · trivial

theorem always_brelse (i : Fin NBUF) : (brelse i : Prog T (State T) Unit).Always Same := by
  refine Prog.Always.bind (Prog.always_atomic fun t s => ?_) fun _ => Prog.always_act fun t s => ?_
  · split_ifs
    · exact ⟨rfl, rfl, rfl, rfl, rfl⟩
    · trivial
  · unfold State.unref
    dsimp only
    split_ifs
    · exact ⟨rfl, rfl, rfl, rfl, rfl⟩
    · exact ⟨rfl, rfl, rfl, rfl, rfl⟩

omit [DecidableEq T] in
theorem always_setData (i : Fin NBUF) (d : State T → Block) :
    (.act fun _ s => s.setData i (d s) : Prog T (State T) Unit).Always Same :=
  Prog.always_act fun _ _ => ⟨rfl, rfl, rfl, rfl, rfl⟩

omit [DecidableEq T] in
theorem always_unpin (recovering : Bool) (i : Fin NBUF) :
    (unpin recovering i : Prog T (State T) Unit).Always Same := by
  unfold unpin
  split_ifs
  · trivial
  · exact Prog.always_act fun _ _ => ⟨rfl, rfl, rfl, rfl, rfl⟩

theorem always_installFrom (recovering : Bool) (bs : List ℕ) : ∀ tail,
    (installFrom start recovering tail bs : Prog T (State T) Unit).Always Same := by
  induction bs with
  | nil => exact fun _ => trivial
  | cons b bs ih =>
    intro tail
    rw [installFrom]
    exact (always_bread _ _).bind fun lbuf => (always_bread _ _).bind fun dbuf =>
      (always_setData dbuf _).bind fun _ => (always_bwrite dbuf).bind fun _ =>
        (always_unpin recovering dbuf).bind fun _ => (always_brelse lbuf).bind fun _ =>
          (always_brelse dbuf).bind fun _ => ih (tail + 1)

theorem always_install_trans (recovering : Bool) :
    (install_trans start recovering : Prog T (State T) Unit).Always Same :=
  (Prog.always_look Same.refl _).bind fun lh => always_installFrom recovering lh 0

theorem always_write_head : (write_head start : Prog T (State T) Unit).Always Same :=
  (always_bread _ _).bind fun buf => (always_setData buf _).bind fun _ =>
    (always_bwrite buf).bind fun _ => always_brelse buf

theorem always_writeFrom (bs : List ℕ) : ∀ tail,
    (writeFrom start tail bs : Prog T (State T) Unit).Always Same := by
  induction bs with
  | nil => exact fun _ => trivial
  | cons b bs ih =>
    intro tail
    rw [writeFrom]
    exact (always_bread _ _).bind fun dst => (always_bread _ _).bind fun src =>
      (always_setData dst _).bind fun _ => (always_bwrite dst).bind fun _ =>
        (always_brelse src).bind fun _ => (always_brelse dst).bind fun _ => ih (tail + 1)

theorem always_write_log : (write_log start : Prog T (State T) Unit).Always Same :=
  (Prog.always_look Same.refl _).bind fun lh => always_writeFrom lh 0

theorem safe_same {α : Type} {p : Prog T (State T) α} {Q : α → Role → Prop} (h : p.Always Same)
    (hQ : ∀ a, Q a g) : Safe (sleepDiscipline T) t p g Q :=
  (h.safe (fun _ _ _ hI hs => ⟨SleepInv.same hI hs, trivial⟩) fun _ => trivial).mono
    fun a _ hg => hg ▸ hQ a

/-! ### Steps of the log -/

/-- The role of one process changes, and it is one that many may have. -/
theorem SleepInv.client (h : SleepInv s gs) (hg : g = .client ∨ g = .beginning ∧ s.up = true) :
    SleepInv s (update gs t g) := by
  have hold : ∀ u r, r ≠ .client → r ≠ .beginning → update gs t g u = r → gs u = r := by
    intro u r h1 h2 hu
    by_cases hut : u = t
    · rw [hut, update_self] at hu
      rcases hg with hg | hg
      · exact absurd (hu.symm.trans hg) h1
      · exact absurd (hu.symm.trans hg.1) h2
    · rwa [update_of_ne hut] at hu
  refine ⟨h.asleep, h.down, fun u hu => ?_, fun u hu => ?_, fun u hu => ?_, fun u v hu hv => ?_,
    fun u v hu hv => ?_⟩
  · by_cases hut : u = t
    · rw [hut, update_self] at hu
      rcases hg with hg | hg
      · rw [hg] at hu
        cases hu
      · exact hg.2
    · rw [update_of_ne hut] at hu
      exact h.beginning u hu
  · exact h.booting u (hold u _ nofun nofun hu)
  · exact h.committing u (hold u _ nofun nofun hu)
  · exact h.bootAlone u v (hold u _ nofun nofun hu) (hold v _ nofun nofun hv)
  · exact h.commitAlone u v (hold u _ nofun nofun hu) (hold v _ nofun nofun hv)

theorem sleep_begin_op : Safe (sleepDiscipline T) t begin_op .beginning fun _ g => g = .client := by
  intro s gs (hI : SleepInv s gs) hg
  have hup := hI.beginning t hg
  -- a process that finds a reason to wait goes to sleep
  have hwait : s.mustWait → SleepInv { s with asleep := update s.asleep t true } gs :=
    fun hw =>
      ⟨fun _ _ => hw, fun hdown => absurd hup (by rw [show s.up = false from hdown]; exact nofun),
      hI.beginning, hI.booting, hI.committing, hI.bootAlone, hI.commitAlone⟩
  dsimp only
  by_cases hsleep : s.asleep t = true
  · rw [if_pos hsleep]
    trivial
  rw [if_neg hsleep]
  by_cases hcom : s.committing = true
  · rw [if_pos hcom]
    exact ⟨hwait (Or.inl hcom), trivial⟩
  rw [if_neg hcom]
  by_cases hroom : s.lh.length + (s.outstanding + 1) * MAXOPBLOCKS > LOGBLOCKS
  · rw [if_pos hroom]
    exact ⟨hwait (Or.inr hroom), trivial⟩
  rw [if_neg hroom]
  refine ⟨.client, ⟨?_, trivial⟩, rfl⟩
  have hc := hI.client (t := t) (Or.inl rfl)
  refine ⟨fun u hu => ?_, hc.down, hc.beginning, hc.booting, hc.committing, hc.bootAlone,
    hc.commitAlone⟩
  -- nobody has reason to wait, so nobody sleeps
  rcases hI.asleep u hu with h | h
  · exact absurd h hcom
  · exact absurd h (not_lt.mpr (not_lt.mp hroom))

theorem sleep_log_write (i : Fin NBUF) :
    Safe (sleepDiscipline T) t (log_write i) g fun _ g' => g' = g := by
  intro s gs (hI : SleepInv s gs) hg
  have hrec : Same s (s.logRec t i) := by
    unfold State.logRec
    cases s.op t with
    | none => exact Same.refl s
    | some o => exact ⟨rfl, rfl, rfl, rfl, rfl⟩
  dsimp only
  by_cases hbig : s.lh.length ≥ LOGBLOCKS
  · rw [if_pos hbig]
    trivial
  rw [if_neg hbig]
  by_cases hout : s.outstanding < 1
  · rw [if_pos hout]
    trivial
  rw [if_neg hout]
  have hself : update gs t g = gs := by rw [← hg, update_eq_self]
  by_cases hmem : (s.buf i).blockno ∈ s.lh
  · rw [if_pos hmem]
    refine ⟨g, ⟨?_, trivial⟩, rfl⟩
    rw [hself]
    exact hI.same hrec
  · rw [if_neg hmem]
    refine ⟨g, ⟨?_, trivial⟩, rfl⟩
    rw [hself]
    have h := hI.same hrec
    refine ⟨fun u hu => ?_, h.down, h.beginning, h.booting, h.committing, h.bootAlone,
      h.commitAlone⟩
    -- the log gets longer
    rcases hI.asleep u (by rw [← hrec.asleep]; exact hu) with hw | hw
    · exact Or.inl (hrec.committing.trans hw)
    · refine Or.inr ?_
      show LOGBLOCKS < (s.lh ++ [(s.buf i).blockno]).length + ((s.logRec t i).outstanding + 1) *
        MAXOPBLOCKS
      rw [hrec.outstanding, List.length_append]
      omega

/-- One process takes a role that nobody has. -/
theorem SleepInv.takeCommit (h : SleepInv s gs) (hno : ∀ u, gs u ≠ .committing)
    (hcom : s'.committing = true) (hasleep : s'.asleep = s.asleep) (hup : s'.up = s.up) :
    SleepInv s' (update gs t .committing) := by
  have hold : ∀ u r, r ≠ .committing → update gs t .committing u = r → gs u = r := by
    intro u r hr hu
    by_cases hut : u = t
    · rw [hut, update_self] at hu
      exact absurd hu.symm hr
    · rwa [update_of_ne hut] at hu
  have hme : ∀ u, update gs t .committing u = .committing → u = t := by
    intro u hu
    by_contra hut
    rw [update_of_ne hut] at hu
    exact hno u hu
  refine ⟨fun _ _ => Or.inl hcom, fun hdown u => ?_, fun u hu => ?_, fun u hu => ?_,
    fun _ _ => hcom, fun u v hu hv => ?_, fun u v hu hv => (hme u hu).trans (hme v hv).symm⟩
  · rw [hasleep]
    exact h.down (hup.symm.trans hdown) u
  · exact hup.trans (h.beginning u (hold u _ nofun hu))
  · exact hup.trans (h.booting u (hold u _ nofun hu))
  · exact h.bootAlone u v (hold u _ nofun hu) (hold v _ nofun hv)

theorem sleep_endSection : Safe (sleepDiscipline T) t endSection .client fun b g =>
    g = if b then .committing else .client := by
  intro s gs (hI : SleepInv s gs) hg
  dsimp only
  by_cases hcom : s.committing = true
  · rw [if_pos hcom]
    trivial
  rw [if_neg hcom]
  have hno : ∀ u, gs u ≠ .committing := fun u hu => hcom (hI.committing u hu)
  by_cases hlast : s.outstanding - 1 = 0
  · rw [if_pos hlast]
    exact ⟨.committing, ⟨hI.takeCommit hno rfl rfl rfl, trivial⟩, rfl⟩
  · rw [if_neg hlast]
    refine ⟨.client, ⟨?_, trivial⟩, rfl⟩
    have hc := hI.client (t := t) (Or.inl rfl)
    exact ⟨(fun u hu => nomatch hu), fun _ _ => rfl, hc.beginning, hc.booting, hc.committing,
      hc.bootAlone, hc.commitAlone⟩

/-- Whoever commits or recovers may change `log.lh`. -/
theorem sleep_setHead {f : State T → State T} {Q : Unit → Role → Prop}
    (hg : g = .committing ∨ g = .booting)
    (hf : ∀ s, (f s).asleep = s.asleep ∧ (f s).committing = s.committing ∧ (f s).up = s.up)
    (hQ : Q () g) : Safe (sleepDiscipline T) t (.act fun _ s => f s) g Q := by
  refine safe_act fun s gs (hI : SleepInv s gs) hgs => ⟨g, ⟨?_, trivial⟩, hQ⟩
  obtain ⟨hasleep, hcom, hup⟩ := hf s
  rw [← hgs, update_eq_self]
  refine ⟨fun u hu => ?_, fun hdown u => ?_, fun u hu => hup.trans (hI.beginning u hu),
    fun u hu => hup.trans (hI.booting u hu), fun u hu => hcom.trans (hI.committing u hu),
      hI.bootAlone,
    hI.commitAlone⟩
  · rw [hasleep] at hu
    rcases hg with hg | hg
    · exact Or.inl (hcom.trans (hI.committing t (hgs.trans hg)))
    · -- nobody sleeps during recovery
      rw [hI.down (hI.booting t (hgs.trans hg)) u] at hu
      cases hu
  · rw [hasleep]
    exact hI.down (hup.symm.trans hdown) u

/-! ### Calls -/

theorem sleep_commit : Safe (sleepDiscipline T) t (commit start) .committing fun _ g =>
    g = .committing := by
  unfold commit
  refine Safe.seq (safe_same (Prog.always_look Same.refl _) fun lh => ?_)
  split_ifs
  · refine Safe.seq (safe_same always_write_log fun _ => ?_)
    refine Safe.seq (safe_same always_write_head fun _ => ?_)
    refine Safe.seq (safe_same (always_install_trans false) fun _ => ?_)
    refine Safe.seq (sleep_setHead (Or.inl rfl) (fun _ => ⟨rfl, rfl, rfl⟩) ?_)
    exact safe_same always_write_head fun _ => rfl
  · exact rfl

theorem sleep_end_op : Safe (sleepDiscipline T) t (end_op start) .client fun _ g =>
    g = .client := by
  unfold end_op
  refine sleep_endSection.bind fun b g hg => ?_
  cases b with
  | false => exact hg
  | true =>
    rw [if_pos rfl] at hg
    subst hg
    refine sleep_commit.bind fun _ g hg => ?_
    subst hg
    refine safe_act fun s gs (hI : SleepInv s gs) hgs => ⟨.client, ⟨?_, trivial⟩, rfl⟩
    have hc := hI.client (t := t) (Or.inl rfl)
    refine ⟨(fun u hu => nomatch hu), fun _ _ => rfl, hc.beginning, hc.booting, fun u hu => ?_,
      hc.bootAlone, hc.commitAlone⟩
    -- nobody else is committing
    by_cases hut : u = t
    · rw [hut, update_self] at hu
      cases hu
    · rw [update_of_ne hut] at hu
      exact absurd (hI.commitAlone u t hu hgs) hut

theorem sleep_boot : Safe (sleepDiscipline T) t (do
      recover_from_log start
      .act fun _ (s : State T) => { s with up := true }) .booting fun _ g => g = .client := by
  refine Safe.seq (Safe.seq (Safe.seq (safe_same (always_bread ROOTDEV start) fun buf => ?_)))
  refine Safe.seq (sleep_setHead (Or.inr rfl) (fun _ => ⟨rfl, rfl, rfl⟩) ?_)
  refine safe_same (always_brelse buf) fun _ => ?_
  refine Safe.seq (safe_same (always_install_trans true) fun _ => ?_)
  refine Safe.seq (sleep_setHead (Or.inr rfl) (fun _ => ⟨rfl, rfl, rfl⟩) ?_)
  refine safe_same always_write_head fun _ => ?_
  refine safe_act fun s gs (hI : SleepInv s gs) hgs => ⟨.client, ⟨?_, trivial⟩, rfl⟩
  have hc := hI.client (t := t) (Or.inl rfl)
  refine ⟨hc.asleep, (fun h => nomatch h), fun _ _ => rfl, fun u hu => ?_, hc.committing,
    hc.bootAlone, hc.commitAlone⟩
  -- nobody else is recovering
  by_cases hut : u = t
  · rw [hut, update_self] at hu
    cases hu
  · rw [update_of_ne hut] at hu
    exact absurd (hI.bootAlone u t hu hgs) hut

/-- **Every call keeps the invariant.** -/
theorem Client.sleep_safe {p : Prog T (State T) Unit} (hI : SleepInv s gs)
    (hp : Client start small t s p) :
    ∃ g, SleepInv s (update gs t g) ∧ Safe (sleepDiscipline T) t p g fun _ g => g = .client := by
  have hself : SleepInv s (update gs t .client) := hI.client (Or.inl rfl)
  cases hp with
  | begin_op hup _ => exact ⟨.beginning, hI.client (Or.inr ⟨rfl, hup⟩), sleep_begin_op⟩
  | bread _ dev blockno _ =>
    exact ⟨.client, hself, safe_same ((always_bread dev blockno).bind fun _ => trivial)
      fun _ => rfl⟩
  | modify i d => exact ⟨.client, hself, safe_same (always_setData i _) fun _ => rfl⟩
  | log_write i => exact ⟨.client, hself, sleep_log_write i⟩
  | brelse i => exact ⟨.client, hself, safe_same (always_brelse i) fun _ => rfl⟩
  | end_op _ => exact ⟨.client, hself, sleep_end_op⟩

/-- A machine that is switched on. -/
theorem sleep_good_crash (hup : s.up = false) (hasleep : ∀ t, s.asleep t = false) (t0 : T) :
    (sleepDiscipline T).Good ⟨s, bootCode start t0, none⟩ := by
  have hrole : ∀ u r, update (fun _ : T => Role.client) t0 .booting u = r → r ≠ .client →
      u = t0 ∧ r = .booting := by
    intro u r hu hr
    by_cases hut : u = t0
    · rw [hut, update_self] at hu
      exact ⟨hut, hu.symm⟩
    · rw [update_of_ne hut] at hu
      exact absurd hu.symm hr
  refine ⟨⟨update (fun _ => .client) t0 .booting, ⟨fun u hu => ?_, fun _ => hasleep,
    fun u hu => ?_, fun _ _ => hup, fun u hu => ?_, fun u v hu hv => ?_, fun u v hu hv => ?_⟩,
    fun u => ?_⟩, nofun⟩
  · rw [show s.asleep u = false from hasleep u] at hu
    cases hu
  · cases (hrole u _ hu nofun).2
  · cases (hrole u _ hu nofun).2
  · exact (hrole u _ hu nofun).1.trans (hrole v _ hv nofun).1.symm
  · cases (hrole u _ hu nofun).2
  · obtain rfl | hut := eq_or_ne u t0
    · simp only [bootCode, update_self]
      exact sleep_boot
    · simp only [bootCode, update_of_ne hut]
      exact rfl

/-- **Nobody is left asleep when the log could admit the operation.**  In every state between two
steps, when nobody holds `log.lock`, a process that sleeps in `begin_op` has reason to. -/
theorem no_idle_sleeper {c : Pool T (State T)} (hc : (machine T start img small).Reachable c)
    (t : T)
    (ht : c.st.asleep t = true) :
    c.st.committing = true ∨ LOGBLOCKS < c.st.lh.length + (c.st.outstanding + 1) * MAXOPBLOCKS := by
  have hgood : (sleepDiscipline T).Good c := by
    refine Discipline.invariant ?_ ?_ ?_ hc
    · rintro _ ⟨t0, rfl⟩
      exact sleep_good_crash rfl (fun _ => rfl) t0
    · intro t s gs p hI _ hp
      exact Client.sleep_safe hI hp
    · rintro c _ - ⟨t0, rfl⟩
      exact sleep_good_crash rfl (fun _ => rfl) t0
  obtain ⟨gs, (hI : SleepInv c.st gs), -⟩ := hgood.safe
  exact hI.asleep t ht

/-- Two processes on a disk of zeros: while one is committing, the other falls asleep. -/
theorem no_idle_sleeper_two : ∃ c : Pool Bool (State Bool),
    (machine Bool 2 zeroDisk True).Reachable c ∧ c.st.asleep true = true ∧
      (c.st.committing = true ∨
        LOGBLOCKS < c.st.lh.length + (c.st.outstanding + 1) * MAXOPBLOCKS) := by
  have hrun : (((bootCode 2 false false : Prog Bool (State Bool) Unit).run false
      (State.cold zeroDisk)).state?.map fun s => (s.up, s.committing, s.outstanding, s.lh,
        (s.op false).isNone && (s.op true).isNone && !s.asleep false && !s.asleep true)) =
      some (true, false, 0, [], true) := by
    decide +kernel
  obtain ⟨s, hs, hp⟩ := Option.map_eq_some_iff.mp hrun
  simp only [Prod.mk.injEq, Bool.and_eq_true, Bool.not_eq_true', Option.isNone_iff_eq_none] at hp
  obtain ⟨hup, hcom, hout, hlh, ⟨⟨hop, hop'⟩, hsleep⟩, hsleep'⟩ := hp
  have hinit : (machine Bool 2 zeroDisk True).Reachable ⟨.cold zeroDisk, bootCode 2 false, none⟩ :=
    .init ⟨false, rfl⟩
  have hboot := hinit.run rfl rfl (Result.eq_ok_of_state? hs)
  -- `false` begins an operation, and starts to end it
  obtain ⟨s1, hs1⟩ : ∃ s1 : State Bool, s1 = { s with
      outstanding := s.outstanding + 1
      op := update s.op false (some ⟨s.nextOp, ∅⟩)
      nextOp := s.nextOp + 1 } := ⟨_, rfl⟩
  have hbegin := hboot.call_run (t := false) (p := begin_op) rfl (by simp) (.begin_op hup hop)
    (show begin_op.run false s = .ok () s1 by
      simp [begin_op, Prog.atomic, Prog.run, hsleep, hcom, hlh, hout, hs1])
  have hend := hbegin.start (t := false) (p := end_op 2) rfl (by simp) (.end_op (by simp [hs1]))
  obtain ⟨s2, hs2⟩ : ∃ s2 : State Bool, s2 = { s1 with
      outstanding := s1.outstanding - 1
      op := update s1.op false none
      committing := true } := ⟨_, rfl⟩
  have hcommit : (machine Bool 2 zeroDisk True).Reachable ⟨s2, _, none⟩ :=
    hend.step (.done (r := true) rfl (update_self ..) (by
      simp [Pool.start, hs1, hs2, hcom, hout]))
  -- now `true` has to wait
  have htrue := hcommit.start (t := true) (p := begin_op) rfl (by simp [Pool.start, bootCode]; rfl)
    (.begin_op (by simp [hs1, hs2, hup]) (by simp [hs1, hs2, hop']))
  have hlast : (machine Bool 2 zeroDisk True).Reachable
      ⟨{ s2 with asleep := update s2.asleep true true }, _, none⟩ :=
    htrue.step (.again rfl (update_self ..) (by simp [Pool.start, hs1, hs2, hsleep']))
  exact ⟨_, hlast, by simp, no_idle_sleeper hlast true (by simp)⟩

end Xv6.Log
