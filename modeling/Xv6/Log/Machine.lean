import Xv6.Log.Ops
import Xv6.Log.Script

/-!
# Runs of the machine

Every call a client may make, and the boot of the machine, keep to the
discipline; hence the invariant holds in every pool the machine reaches, over
any number of crashes.  The results at the end read it off.

## Main results

* `good_of_reachable` — the invariant of the cache and the log holds throughout.
* `recovered_disk` — what is on the disk once recovery is over.
* `cache_coherent` — the buffer cache is coherent with the log and the disk.
* `log_has_room` — the log never overflows.
-/


namespace Xv6.Log

open Conc Function

variable {T : Type} [Fintype T] [DecidableEq T] {t : T} {i : Fin NBUF}
  {img : ℕ → Block} {start : ℕ} {small : Prop} {s s' : State T} {gs : T → Know} {g : Know}

/-! ### Calls -/

theorem Inv.learn_up (h : Inv img start small s gs) (hup : s.up = true) :
    Inv img start small s (update gs t { gs t with up := true }) := by
  refine h.of_same_phase ?_ h.ops h.disk ?_ rfl (fun _ => hup) h.reads rfl fun _ hp => hp
  · rw [update_eq_self]
    exact h.cache
  · rw [← h.op t, update_eq_self]

omit [DecidableEq T] in
theorem Inv.full_of_lock (h : Inv img start small s gs) (hidle : (gs t).Idle)
    (hl : (s.buf i).lock = some t) :
    ((gs t).tag i).ident = ((s.buf i).dev, (s.buf i).blockno) ∧
      ∃ d, ((gs t).tag i).hold = .full d (s.dirty i) := by
  have hbi := h.cache.buf i
  have hne := (hbi.lock t).mp hl
  refine ⟨hbi.ident t (hbi.held t hne), ?_⟩
  cases hh : ((gs t).tag i).hold with
  | none => exact absurd hh hne
  | locked => exact absurd hh (hidle.2 i)
  | full d e =>
    obtain ⟨-, -, rfl⟩ := hbi.full t d e hh
    exact ⟨d, rfl⟩

/-- **Every call a client may make keeps to the discipline.** -/
theorem Client.safe (hstart : start + LOGBLOCKS < 2 ^ 32) {p : Prog T (State T) Unit}
    (hI : Inv img start small s gs) (hidle : (gs t).Idle) (hp : Client start small t s p) :
    ∃ g, Inv img start small s (update gs t g) ∧
      Safe (discipline T img start small) t p g fun _ => Know.Idle := by
  have hself : Inv img start small s (update gs t (gs t)) := by
    rwa [update_eq_self]
  obtain ⟨hph, hcalm⟩ := id hidle
  -- the client starts from what an idle thread knows, but `begin_op` learns that the log is up
  cases hp with
  | begin_op hup hop =>
    refine ⟨_, hI.learn_up hup, safe_begin_op rfl ?_ fun o => ⟨hph, hcalm⟩⟩
    rw [← hop, hI.op t]
  | bread hup dev b hb =>
    refine ⟨gs t, hself, Safe.seq (safe_bread (K := fun _ => True) hb (fun _ _ _ _ _ => trivial)
      fun j d _ _ => ?_)⟩
    exact ⟨hph, Know.Calm.setTag hcalm (by simp)⟩
  | modify j d hop hl hd hb =>
    obtain ⟨-, b, hfull⟩ := hI.full_of_lock hidle hl
    refine ⟨gs t, hself, safe_setData hfull (fun _ _ _ _ => rfl) ?_⟩
    exact ⟨hph, Know.Calm.setTag hcalm (by simp)⟩
  | log_write j o hop hl hd hb hsmall =>
    obtain ⟨hid, d, hfull⟩ := hI.full_of_lock hidle hl
    rw [hd] at hid
    refine ⟨gs t, hself, safe_log_write (by rw [← hI.op t]; exact hop) hfull hid hb hsmall ?_⟩
    exact ⟨hph, Know.Calm.setTag hcalm (by simp)⟩
  | brelse j hl hd =>
    obtain ⟨-, d, hfull⟩ := hI.full_of_lock hidle hl
    rw [hd] at hfull
    have href := (hI.cache.buf j).held t (by rw [hfull]; simp)
    exact ⟨gs t, hself, safe_brelse hfull href ⟨hph, Know.Calm.setTag hcalm (by simp)⟩⟩
  | end_op hop =>
    obtain ⟨o, ho⟩ := Option.ne_none_iff_exists'.mp hop
    rw [hI.op t] at ho
    exact ⟨gs t, hself, (safe_end_op hstart ho hph hcalm).mono fun _ _ h => ⟨h.1, h.2.2⟩⟩

/-! ### Booting -/

/-- What the processes know when the machine is switched on. -/
def Know.booting (h : List Rec) (t0 : T) (t : T) : Know where
  tag := fun _ => ⟨0, (0, 0), .none⟩
  op := none
  phase := if t = t0 then .boot h else .idle
  up := false

/-- Recovery is over. -/
theorem safe_up {op : Option Op} (hg : g.At op .recovered) :
    Safe (discipline T img start small) t (.act fun _ s => { s with up := true }) g
      fun _ => Know.At op .idle := by
  refine safe_act fun s gs (hI : Inv img start small s gs) hgs => ?_
  subst hgs
  obtain ⟨hph, hop, hcalm⟩ := hg
  obtain ⟨hup, hcom, hunp, hhist, hlh, hhd⟩ := hI.phase_at hph (by simp)
  have hdisk := hI.disk
  refine ⟨(gs t).setPhase .idle, ⟨hI.of_phase (by rw [hph]; simp) ?_ ?_ ?_ rfl rfl (fun _ => rfl)
    (fun _ => rfl) rfl ⟨rfl, hcom, hunp, hhd⟩, fun _ _ => ⟨rfl, rfl⟩⟩, rfl, hop, hcalm⟩
  · rw [Know.setPhase_tag, update_eq_self]
    have hpins : LogDisk.pins { s.toLogDisk with up := true } = s.pins := by
      simp [LogDisk.pins, hup, hlh]
    -- the home blocks on the disk are those of the durable history
    have hview : LogDisk.view img start { s.toLogDisk with up := true } = s.view img start := by
      funext b
      by_cases hb : InLog start b
      · simp [LogDisk.view, hb]
      · simp only [LogDisk.view, hb, hup, hhist]
        simpa using (hdisk.recoverable.other b hb (by simp [hhd])).symm
    show CacheInv s.toCache (LogDisk.pins { s.toLogDisk with up := true })
      (LogDisk.view img start { s.toLogDisk with up := true }) _
    rw [hpins, hview]
    exact hI.cache
  · exact { hI.ops with down := fun h => absurd (show true = false from h) (by decide) }
  · refine { hdisk with
      fresh := fun _ b hb => ?_
      booting := fun h => absurd (show true = false from h) (by decide) }
    simp only [hlh] at hb
    cases hb

/-- What has to hold of a machine for it to be switched off and on again. -/
structure Restartable (img : ℕ → Block) (start : ℕ) (s : State T) : Prop where
  recoverable : Recoverable start s.disk (replay img s.durable)
  homes : ∀ r ∈ s.durable, ¬ InLog start r.blockno
  subset : ∀ r ∈ s.durable, r ∈ s.all
  ids : ∀ r ∈ s.all, r.op < s.nextOp
  whole : ∀ r ∈ s.all, ∀ r' ∈ s.durable, r.op = r'.op → r ∈ s.durable
  reads : ∀ r ∈ s.reads, r.Ok

omit [DecidableEq T] in
theorem Inv.restartable (h : Inv img start small s gs) : Restartable img start s :=
  ⟨h.disk.recoverable, fun r hr => h.disk.homes r (h.disk.prefixed.subset hr),
    fun r hr => h.disk.subset r (h.disk.prefixed.subset hr), h.disk.ids, h.disk.wholeDurable,
    h.reads⟩

theorem coldCache (disk : ℕ → Block) (view : ℕ → Block) (h : List Rec) (t0 : T) :
    CacheInv (State.cold disk : State T).toCache [] view fun t => (Know.booting h t0 t).tag := by
  refine ⟨?_, ?_, ?_, fun _ _ => rfl, by simp⟩
  · intro i
    simp [State.cold]
  · intro i j hi
    exact absurd rfl hi
  · intro i
    refine ⟨by simp [State.cold, coldBuf], by simp [State.cold, coldBuf, Know.booting],
      ?_, ?_, ?_, ?_, ?_, ?_⟩
    · intro t ht
      simp [Know.booting] at ht
    · intro t
      simp [State.cold, coldBuf, Know.booting]
    · intro t ht
      simp [Know.booting] at ht
    · intro t d e ht
      simp [Know.booting] at ht
    · intro hd
      simp [State.cold] at hd
    · intro hv
      simp [State.cold, coldBuf] at hv

/-- **A machine that lost power comes back up good**, whatever it was doing. -/
theorem good_crash (hstart : start + LOGBLOCKS < 2 ^ 32) (h : Restartable img start s) (t0 : T) :
    (discipline T img start small).Good ⟨s.crash, bootCode start t0, none⟩ := by
  refine ⟨⟨Know.booting s.durable t0, ⟨?_, ?_, ?_, fun _ => rfl, ?_, h.reads, some t0, ?_, ?_⟩, ?_⟩,
    by simp⟩
  · exact coldCache s.disk _ _ t0
  · refine ⟨List.nodup_nil, by simp [State.crash, State.cold], by simp [State.crash, State.cold],
      ?_, fun _ => rfl, fun _ => rfl, ?_, ?_, ?_⟩
    · simp [State.crash, State.cold]
    · intro t o ho
      cases ho
    · intro _
      simp [State.crash, State.cold, reserve]
    · intro _ t o ho
      cases ho
  · refine ⟨h.recoverable, fun _ _ _ => rfl, List.prefix_refl _, le_rfl, ?_, h.homes,
      fun _ => le_rfl, h.subset, h.ids, ?_, ?_, ?_, h.whole, h.whole⟩
    · intro hup
      cases hup
    · intro t o ho
      cases ho
    · intro t o ho
      cases ho
    · intro t o ho
      cases ho
  · intro t hup
    cases hup
  · intro t ht
    by_cases htt : t = t0
    · rw [htt]
    · simp [Know.booting, htt] at ht
  · simp only [phaseOf, Know.booting, if_true]
    exact ⟨rfl, rfl, rfl, rfl, rfl, rfl⟩
  · -- only `t0` has code to run, that of the recovery
    intro t
    obtain rfl | htt := eq_or_ne t t0
    · simp only [bootCode, update_self]
      refine Safe.bind (safe_recover (h := s.durable) hstart ⟨?_, rfl, ?_⟩) fun _ g hg => ?_
      · simp [Know.booting]
      · intro i
        simp [Know.booting]
      · exact (safe_up hg).mono fun _ _ h => ⟨h.1, h.2.2⟩
    · simp only [bootCode, update_of_ne htt]
      exact ⟨by simp [Know.booting, htt], by simp [Know.booting]⟩

/-! ### Every run -/

variable {c : Pool T (State T)}

omit [Fintype T] [DecidableEq T] in
theorem restartable_cold (himg : header (img start) = []) :
    Restartable img start (State.cold img : State T) := by
  refine ⟨⟨?_, ?_, ?_, ?_, fun _ _ _ => rfl⟩, by simp [State.cold], by simp [State.cold],
    by simp [State.cold], by simp [State.cold], by simp [State.cold]⟩
  · simp [State.cold, himg]
  · simp [State.cold, himg]
  · simp [State.cold, himg]
  · intro j hj
    simp [State.cold, himg] at hj

/-- **The invariant of the cache and the log holds in every pool the machine
reaches**, whatever the processes do, and however often it crashes. -/
theorem good_of_reachable (hstart : start + LOGBLOCKS < 2 ^ 32) (himg : header (img start) = [])
    (hc : (machine T start img small).Reachable c) : (discipline T img start small).Good c := by
  refine Discipline.invariant ?_ ?_ ?_ hc
  · rintro _ ⟨t0, rfl⟩
    exact good_crash hstart (restartable_cold himg) t0
  · intro t s gs p hI hidle hp
    exact Client.safe hstart hI hidle hp
  · rintro c _ ⟨⟨gs, hI, -⟩, -⟩ ⟨t0, rfl⟩
    exact good_crash hstart (Inv.restartable hI) t0

omit [DecidableEq T] in
theorem Inv.home_eq_durable (h : Inv img start small s gs) (hup : s.up = true)
    (hcom : s.committing = false) {b : ℕ} (hb : ¬ InLog start b) :
    s.disk b = replay img s.durable b := by
  obtain ⟨o, -, hok⟩ := h.phase
  rw [hok.idle_of_up hup hcom] at hok
  exact h.disk.recoverable.other b hb (by simp [hok.2.2.2])

/-- **Crash safety of the log.**  Take any run, with any number of crashes.  Once
recovery is over, and whenever no commit is going on, every home block is as the
last group commit whose header reached the disk left it; of every operation,
either all the blocks it logged are part of that, or none. -/
theorem recovered_disk (hstart : start + LOGBLOCKS < 2 ^ 32) (himg : header (img start) = [])
    (hc : (machine T start img False).Reachable c) (hup : c.st.up = true)
    (hcom : c.st.committing = false) :
    (∀ b, ¬ InLog start b → c.st.disk b = replay img c.st.durable b) ∧
      (∀ r ∈ c.st.all, ∀ r' ∈ c.st.durable, r.op = r'.op → r ∈ c.st.durable) ∧
      (∀ t o, c.st.op t = some o → ∀ r ∈ c.st.durable, r.op ≠ o.id) := by
  obtain ⟨gs, (hI : Inv img start False c.st gs), -⟩ := (good_of_reachable hstart himg hc).safe
  exact ⟨fun b hb => hI.home_eq_durable hup hcom hb, hI.disk.wholeDurable, hI.disk.unfinished⟩

/-- An operation logs block 100, and power fails when the header of its commit is on the disk but
the block is not yet at home; the next one logs block 101, and power fails before it commits. -/
theorem recovered_disk_crashed : ∃ c, (three False).Reachable c ∧ c.st.up = true ∧
    c.st.all.map Rec.blockno = [100, 101] ∧ c.st.durable.map Rec.blockno = [100] ∧
    c.st.disk 100 0 = 7 ∧ c.st.disk 101 0 = 0 ∧
    (∀ b, ¬ InLog 2 b → c.st.disk b = replay zeroDisk c.st.durable b) ∧
    ∀ r ∈ c.st.all, ∀ r' ∈ c.st.durable, r.op = r'.op → r ∈ c.st.durable := by
  obtain ⟨s, hs, hup, hcom, hall, hdur, h100, h101⟩ := exists_of_script False
    (P := fun s => s.up = true ∧ s.committing = false ∧ s.all.map Rec.blockno = [100, 101] ∧
      s.durable.map Rec.blockno = [100] ∧ s.disk 100 0 = 7 ∧ s.disk 101 0 = 0)
    [.begin_op 0, .log 0 100 7, .crash 0 20, .begin_op 1, .log 1 101 8, .crash 1 1]
    (by decide +kernel)
  obtain ⟨hdisk, hwhole, -⟩ := recovered_disk (by decide) (by decide) hs hup hcom
  exact ⟨quiet s, hs, hup, hall, hdur, h100, h101, hdisk, hwhole⟩

/-- **Coherence of the buffer cache.**  At most one buffer caches a block; no
step recycles a buffer that is referred to; the blocks in the log are pinned by
one reference each until `install_trans` has unpinned them; and every `bread`
returned what was last logged since boot, or what was on the disk. -/
theorem cache_coherent (hstart : start + LOGBLOCKS < 2 ^ 32) (himg : header (img start) = [])
    (hc : (machine T start img False).Reachable c) :
    (∀ i j, (c.st.buf i).dev ≠ 0 → (c.st.buf i).dev = (c.st.buf j).dev →
      (c.st.buf i).blockno = (c.st.buf j).blockno → i = j) ∧
    (∀ c', (machine T start img False).Step c c' → (machine T start img False).env c c' ∨
      ∀ i, 0 < (c.st.buf i).refcnt → (c'.st.buf i).dev = (c.st.buf i).dev ∧
        (c'.st.buf i).blockno = (c.st.buf i).blockno) ∧
    (c.st.up = true →
      (∀ i, (c.st.buf i).refcnt = (∑ t, c.st.refs t i) +
        if (c.st.buf i).dev = ROOTDEV ∧ (c.st.buf i).blockno ∈ c.st.lh.drop c.st.unpinned
        then 1 else 0) ∧
      ∀ b ∈ c.st.lh.drop c.st.unpinned, ∃ i, (c.st.buf i).dev = ROOTDEV ∧
        (c.st.buf i).blockno = b) ∧
    (∀ r ∈ c.st.reads, r.dev = ROOTDEV →
      r.data = (lastLogged r.since r.blockno).getD r.onDisk) := by
  have hgood := good_of_reachable hstart himg hc
  obtain ⟨gs, (hI : Inv img start False c.st gs), -⟩ := hgood.safe
  refine ⟨hI.cache.uniq, fun c' hs => hgood.guar hs, fun hup => ?_, hI.reads⟩
  have hpins : c.st.pins = c.st.lh.drop c.st.unpinned := by simp [LogDisk.pins, hup]
  rw [← hpins]
  constructor
  · intro i
    simp only [hI.cache.refs]
    exact (hI.cache.buf i).refcnt
  · intro b hb
    obtain ⟨i, hdev, hno, -⟩ := hI.cache.pinned b hb
    exact ⟨i, hdev, hno⟩

/-- Block 100 is committed and block 101 logged, then 28 other blocks are read. -/
def evicting : List Cmd :=
  [.begin_op 0, .log 0 100 7, .end_op 0, .begin_op 1, .log 1 101 8] ++
    (List.range 28).map fun k => .look 2 (200 + k)

/-- Block 100 has lost its buffer and is read from the disk again; block 101 is pinned, and is not
yet on the disk. -/
theorem cache_coherent_evicted : ∃ c c', (three False).Reachable c ∧
    c.st.cached ROOTDEV 100 = none ∧ (three False).Reachable c' ∧ c'.st.lh = [101] ∧
    ((c'.st.reads.reverse.take 2).map fun r => (r.blockno, r.data 0, r.onDisk 0)) =
      [(101, 8, 0), (100, 7, 7)] ∧
    (∃ i, (c'.st.buf i).dev = ROOTDEV ∧ (c'.st.buf i).blockno = 101 ∧
      (c'.st.buf i).refcnt = (∑ t, c'.st.refs t i) + 1) ∧
    ∀ r ∈ c'.st.reads, r.dev = ROOTDEV →
      r.data = (lastLogged r.since r.blockno).getD r.onDisk := by
  obtain ⟨s, hs, hnone⟩ := exists_of_script False
    (P := fun s => s.cached ROOTDEV 100 = none) evicting (by decide +kernel)
  obtain ⟨s', hs', hup, hlh, hunp, hreads⟩ := exists_of_script False
    (P := fun s => s.up = true ∧ s.lh = [101] ∧ s.unpinned = 0 ∧
      (s.reads.reverse.take 2).map (fun r => (r.blockno, r.data 0, r.onDisk 0)) =
        [(101, 8, 0), (100, 7, 7)]) (evicting ++ [.look 2 100, .look 2 101]) (by decide +kernel)
  obtain ⟨-, -, hpins, hread⟩ := cache_coherent (by decide) (by decide) hs'
  obtain ⟨hrefs, hcached⟩ := hpins hup
  have hmem : 101 ∈ s'.lh.drop s'.unpinned := by
    rw [hlh, hunp]
    exact List.mem_cons_self
  obtain ⟨i, hdev, hno⟩ := hcached 101 hmem
  have href := hrefs i
  rw [if_pos ⟨hdev, hno ▸ hmem⟩] at href
  exact ⟨quiet s, quiet s', hs, hnone, hs', hlh, hreads, ⟨i, hdev, hno, href⟩, hread⟩

/-- **The log never overflows** if no operation logs more than `MAXOPBLOCKS`
blocks: what is in the log and what the outstanding operations may still log
fits, so an operation that may log one more block finds room for it. -/
theorem log_has_room (hstart : start + LOGBLOCKS < 2 ^ 32) (himg : header (img start) = [])
    (hc : (machine T start img True).Reachable c) :
    c.st.lh.Nodup ∧
    c.st.lh.length + ∑ t, reserve (c.st.op t) ≤ LOGBLOCKS ∧
    (c.st.committing = true → c.st.outstanding = 0) ∧
    c.halted ≠ some "log.committing" ∧
    ∀ t o, c.st.op t = some o → o.logged.card < MAXOPBLOCKS → c.st.lh.length < LOGBLOCKS := by
  have hgood := good_of_reachable hstart himg hc
  obtain ⟨gs, hI, -⟩ := hgood.safe
  have hops : OpInv start True c.st.toLogDisk := Inv.ops hI
  have hres := hops.reserved trivial
  refine ⟨hops.nodup, hres, hops.alone, ?_, ?_⟩
  · intro hp
    have hallow : _ ∨ _ := hgood.allowed _ hp
    simp at hallow
  · intro t o ho hlt
    have hle := le_sum c.st.op t reserve
    rw [ho] at hle
    simp only [reserve] at hle hres
    omega

/-- Two operations have logged three blocks, one of them again after a commit. -/
theorem log_has_room_two : ∃ c, (three True).Reachable c ∧ c.st.lh = [102, 103, 100] ∧
    c.st.outstanding = 2 ∧ (∑ t, reserve (c.st.op t)) = 17 ∧
    c.st.lh.length + ∑ t, reserve (c.st.op t) ≤ LOGBLOCKS ∧
    ∀ t o, c.st.op t = some o → o.logged.card < MAXOPBLOCKS → c.st.lh.length < LOGBLOCKS := by
  obtain ⟨s, hs, hlh, hout, hsum⟩ := exists_of_script True
    (P := fun s => s.lh = [102, 103, 100] ∧ s.outstanding = 2 ∧ (∑ t, reserve (s.op t)) = 17)
    [.begin_op 0, .log 0 100 1, .log 0 101 1, .end_op 0,
      .begin_op 1, .begin_op 2, .log 1 102 1, .log 2 103 1, .log 1 100 2] (by decide +kernel)
  obtain ⟨-, hroom, -, -, hfree⟩ := log_has_room (by decide) (by decide) hs
  exact ⟨quiet s, hs, hlh, hout, hsum, hroom, hfree⟩

end Xv6.Log
