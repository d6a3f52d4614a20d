import Xv6.Log.Cache

/-!
# Commit and recovery

The steps that write to the disk, and the programs that are made of them.  Each
write moves the phase of the commit, or of the recovery, one step on; the
lemmas on `Recoverable` say why what recovery would produce does not change,
except at the write of the header that makes a group commit durable.

## Main results

* `safe_commit` — a commit keeps the invariant at every step.
* `safe_recover` — so does recovery, from any disk a crash may leave behind.
-/


namespace Xv6.Log

open Conc Function

variable {T : Type} [Fintype T] [DecidableEq T] {t : T} {i : Fin NBUF}
  {img : ℕ → Block} {start : ℕ} {small : Prop} {s s' : State T} {gs : T → Know} {g : Know}

/-! ### What one write does to a recoverable disk -/

theorem inLog_start (start : ℕ) : InLog start start := ⟨le_rfl, Nat.le_add_right _ _⟩

theorem inLog_add {j : ℕ} (hj : j < LOGBLOCKS) : InLog start (start + j + 1) :=
  ⟨by omega, by omega⟩

namespace Recoverable

variable {disk : ℕ → Block} {want want' : ℕ → Block} {x : ℕ} {d : Block}

theorem write_log (h : Recoverable start disk want) (hh : header (disk start) = [])
    (hx : InLog start x) (hne : x ≠ start) : Recoverable start (update disk x d) want := by
  have hst : update disk x d start = disk start := by simp [Ne.symm hne]
  refine ⟨?_, ?_, ?_, ?_, ?_⟩
  · rw [hst]; exact h.short
  · rw [hst]; exact h.nodup
  · rw [hst]; exact h.home
  · intro j hj
    simp [hst, hh] at hj
  · intro b hb hb'
    rw [hst] at hb'
    have : b ≠ x := fun e => hb (e ▸ hx)
    simpa [this] using h.other b hb hb'

theorem write_home (h : Recoverable start disk want) (hx : x ∈ header (disk start)) :
    Recoverable start (update disk x d) want := by
  have hhome := h.home x hx
  have hst : update disk x d start = disk start := by
    have : start ≠ x := fun e => hhome (e ▸ inLog_start start)
    simp [this]
  refine ⟨?_, ?_, ?_, ?_, ?_⟩
  · rw [hst]; exact h.short
  · rw [hst]; exact h.nodup
  · rw [hst]; exact h.home
  · intro j hj
    simp only [hst] at hj ⊢
    have : start + j + 1 ≠ x := fun e =>
      hhome (e ▸ inLog_add (Nat.lt_of_lt_of_le hj h.short))
    simpa [this] using h.logged j hj
  · intro b hb hb'
    rw [hst] at hb'
    have : b ≠ x := fun e => hb' (e ▸ hx)
    simpa [this] using h.other b hb hb'

theorem write_empty (hd : header d = []) (hall : ∀ b, ¬ InLog start b → disk b = want b) :
    Recoverable start (update disk start d) want := by
  refine ⟨?_, ?_, ?_, ?_, ?_⟩
  · simp [hd]
  · simp [hd]
  · simp [hd]
  · intro j hj
    simp [hd] at hj
  · intro b hb _
    have : b ≠ start := fun e => hb (e ▸ inLog_start start)
    simpa [this] using hall b hb

/-- Writing the header of a commit: from now on the logged blocks are wanted as
the log has them. -/
theorem write_header (h : Recoverable start disk want) (hh : header (disk start) = [])
    {lh : List ℕ} (hd : header d = lh) (hshort : lh.length ≤ LOGBLOCKS) (hnodup : lh.Nodup)
    (hhome : ∀ b ∈ lh, ¬ InLog start b)
    (hlog : ∀ j (hj : j < lh.length), disk (start + j + 1) = want' lh[j])
    (hrest : ∀ b, ¬ InLog start b → b ∉ lh → want' b = want b) :
    Recoverable start (update disk start d) want' := by
  have hst : header (update disk start d start) = lh := by simpa using hd
  refine ⟨?_, ?_, ?_, ?_, ?_⟩
  · rw [hst]; exact hshort
  · rw [hst]; exact hnodup
  · rw [hst]; exact hhome
  · intro j hj
    have : start + j + 1 ≠ start := by omega
    simp only [hst] at hj ⊢
    simpa [this] using hlog j hj
  · intro b hb hb'
    rw [hst] at hb'
    have : b ≠ start := fun e => hb (e ▸ inLog_start start)
    simp only [update_of_ne this]
    rw [hrest b hb hb', h.other b hb (by simp [hh])]

end Recoverable

/-! ### Changing the phase -/

/-- Change the phase a process knows. -/
def Know.setPhase (g : Know) (ph : Phase) : Know := { g with phase := ph }

@[simp] theorem Know.setPhase_tag (g : Know) (ph : Phase) : (g.setPhase ph).tag = g.tag := rfl

@[simp] theorem Know.setPhase_phase (g : Know) (ph : Phase) : (g.setPhase ph).phase = ph := rfl

@[simp] theorem Know.setPhase_op (g : Know) (ph : Phase) : (g.setPhase ph).op = g.op := rfl

section

variable (h : Inv img start small s gs)

include h

omit [DecidableEq T] in
theorem Inv.phase_ok (hph : (gs t).phase ≠ .idle) : PhaseOk img start s.toLogDisk (gs t).phase := by
  obtain ⟨o, ho, hok⟩ := h.phase
  rwa [ho t hph] at hok

omit [DecidableEq T] in
theorem Inv.phase_at {ph : Phase} (hph : (gs t).phase = ph)
    (hne : ph ≠ .idle) : PhaseOk img start s.toLogDisk ph := by
  subst hph
  exact h.phase_ok hne

theorem Inv.of_owner (hown : ∀ u, u ≠ t → (gs u).phase = .idle)
    (hc : CacheInv s'.toCache s'.pins (s'.view img start) (update (fun u => (gs u).tag) t g.tag))
    (hops : OpInv start small s'.toLogDisk) (hdisk : DiskInv img start s'.toLogDisk)
    (hop : s'.op = update s.op t g.op) (hup : s.up = true → s'.up = true)
    (hgup : g.up = true → s'.up = true) (hreads : ∀ r ∈ s'.reads, r.Ok)
    (hok : PhaseOk img start s'.toLogDisk g.phase) : Inv img start small s' (update gs t g) := by
  refine h.of_step hc hops hdisk hop hup hgup hreads ⟨some t, ?_, ?_⟩
  · intro u hu
    by_cases hut : u = t
    · rw [hut]
    · rw [update_of_ne hut, hown u hut] at hu
      exact absurd rfl hu
  · simpa [phaseOf] using hok

theorem Inv.of_phase (hph : (gs t).phase ≠ .idle)
    (hc : CacheInv s'.toCache s'.pins (s'.view img start) (update (fun u => (gs u).tag) t g.tag))
    (hops : OpInv start small s'.toLogDisk) (hdisk : DiskInv img start s'.toLogDisk)
    (hop : s'.op = s.op) (hgop : g.op = (gs t).op) (hup : s.up = true → s'.up = true)
    (hgup : g.up = true → s'.up = true) (hreads : s'.reads = s.reads)
    (hok : PhaseOk img start s'.toLogDisk g.phase) : Inv img start small s' (update gs t g) := by
  refine h.of_owner ?_ hc hops hdisk ?_ hup hgup (by rw [hreads]; exact h.reads) hok
  · obtain ⟨o, ho, -⟩ := h.phase
    intro u hu
    by_contra hne
    exact hu (Option.some.inj ((ho u hne).symm.trans (ho t hph)))
  · rw [hop, hgop, ← h.op t, update_eq_self]

end

/-! ### Writing a block -/

/-- What a disk write does to the log and the disk. -/
def LogDisk.write (start x : ℕ) (d : Block) (l : LogDisk T) : LogDisk T :=
  { l with
    disk := Function.update l.disk x d
    durable := if x = start ∧ l.lh ≠ [] then l.hist else l.durable }

variable {l : LogDisk T}

omit [DecidableEq T] in
theorem OpInv.write (h : OpInv start small l) (x : ℕ) (d : Block) :
    OpInv start small (l.write start x d) := { h with }

variable {d : Block}

omit [Fintype T] [DecidableEq T] in
theorem LogDisk.durable_write {x : ℕ} (hx : x = start → l.lh = []) :
    (l.write start x d).durable = l.durable := by
  show (if x = start ∧ l.lh ≠ [] then l.hist else l.durable) = l.durable
  rw [if_neg (fun hc => hc.2 (hx hc.1))]

omit [Fintype T] [DecidableEq T] in
theorem DiskInv.write (h : DiskInv img start l) {x : ℕ} (hx : x = start → l.lh = [])
    (hrec : Recoverable start (update l.disk x d) (replay img l.durable)) :
    DiskInv img start (l.write start x d) := by
  have hdur : (l.write start x d).durable = l.durable := l.durable_write hx
  refine ⟨?_, ?_, ?_, ?_, h.fresh, h.homes, h.booting, h.subset, h.ids, h.opIds, h.current, ?_,
    h.whole, ?_⟩
  · rw [hdur]; exact hrec
  · rw [hdur]; exact h.since
  · rw [hdur]; exact h.prefixed
  · rw [hdur]; exact h.boot
  · rw [hdur]; exact h.unfinished
  · rw [hdur]; exact h.wholeDurable

variable {Q : Unit → Know → Prop}

/-- **`bwrite` by the process that commits or recovers**: what is left to show
is what the write does to the disk and to the phase. -/
theorem safe_bwrite {x : ℕ} {e : Bool} (ph : Phase) (hph : g.phase ≠ .idle)
    (hh : (g.tag i).hold = .full d e) (hid : (g.tag i).ident = (ROOTDEV, x))
    (hstep : ∀ l : LogDisk T, OpInv start small l → DiskInv img start l →
      PhaseOk img start l g.phase →
      DiskInv img start (l.write start x d) ∧ PhaseOk img start (l.write start x d) ph ∧
        (l.up = true → ¬ InLog start x → replay img l.hist x = d))
    (hQ : Q () ((g.setTag i { g.tag i with hold := .full d false }).setPhase ph)) :
    Safe (discipline T img start small) t (bwrite start i) g Q := by
  refine safe_atomic fun s gs (hI : Inv img start small s gs) hg => ?_
  subst hg
  obtain ⟨hval, hdata, -, hlock, href, -, hfree⟩ := hI.of_full hh
  obtain ⟨hdev, hno⟩ := hI.ident_of_full hh hid
  obtain ⟨hdisk, hok, hhome⟩ := hstep s.toLogDisk hI.ops hI.disk (hI.phase_ok hph)
  have hl : (s.diskWrite start i).toLogDisk = s.toLogDisk.write start x d := by
    simp only [State.diskWrite, LogDisk.write, ← hno, hdata]
  simp only [hlock, if_true]
  refine ⟨_, ?_, hQ⟩
  -- a home block is read from the history, any other from the disk
  have hview : (s.diskWrite start i).view img start x = d := by
    rw [hl]
    unfold LogDisk.view
    split_ifs with hv
    · exact hhome hv.1 hv.2
    · simp [LogDisk.write]
  refine ⟨hI.of_phase hph ?_ ?_ ?_ rfl rfl id (hI.up t) rfl ?_, fun _ _ => ⟨rfl, rfl⟩⟩
  · refine hI.cache.set i hI.cache.mem_lru (fun _ _ => rfl) (fun j hj => ?_) (fun u j => ?_)
      (fun b hb => ⟨Iff.rfl, ?_⟩) (Or.inl ⟨rfl, rfl⟩) hI.cache.pinned ?_
    · simp [State.diskWrite, hj]
    · exact hI.cache.refs_self u j
    · have hbx : b ≠ x := by
        rcases hb with hb | hb
        · rw [hno]; exact hb
        · exact absurd hdev.symm hb
      rw [hl]
      simp [LogDisk.view, LogDisk.write, hbx]
    · refine (hI.cache.buf i).setHold rfl rfl rfl (fun u => ?_) hfree href ?_ (fun h => ?_) ?_
      · show (s.buf i).lock = some u ↔ _
        simp [hlock, eq_comm]
      · intro d' e' h
        obtain ⟨rfl, rfl⟩ := Hold.full.inj h
        exact ⟨hval, hdata, by simp [State.diskWrite]⟩
      · simp [State.diskWrite] at h
      · intro _ _ _
        show (s.buf i).data = (s.diskWrite start i).view img start (s.buf i).blockno
        rw [hdata, ← hno, hview]
  · rw [hl]; exact hI.ops.write x d
  · rw [hl]; exact hdisk
  · rw [hl]; exact hok

/-! ### The writes of a commit -/

omit [DecidableEq T] in
theorem OpInv.no_op (h : OpInv start small l) (h0 : l.outstanding = 0) (t : T) : l.op t = none := by
  have hle := le_sum l.op t fun o => if o.isSome then 1 else 0
  rw [← h.outstanding, h0] at hle
  cases hopt : l.op t with
  | none => rfl
  | some o => simp [hopt] at hle

section Writes

variable {h : List Rec} {lh : List ℕ} {k u : ℕ} {d : Block} {l : LogDisk T}

omit [DecidableEq T] in
/-- `write_log` writes log block `k`. -/
theorem write_logBlock (ho : OpInv start small l) (hd : DiskInv img start l)
    (hp : PhaseOk img start l (.writing h lh k)) (hk : k < lh.length)
    (hdata : d = replay img h lh[k]) :
    DiskInv img start (l.write start (start + k + 1) d) ∧
      PhaseOk img start (l.write start (start + k + 1) d) (.writing h lh (k + 1)) := by
  obtain ⟨hup, hcom, hunp, hh, hhist, hlh, hne, -, hwr⟩ := hp
  have hkl : k < LOGBLOCKS := by have := ho.short; rw [hlh] at this; omega
  have hst : start + k + 1 ≠ start := by omega
  refine ⟨hd.write (fun e => absurd e hst) (hd.recoverable.write_log hh (inLog_add hkl) hst),
    hup, hcom, hunp, ?_, hhist, hlh, hne, hk, ?_⟩
  · show header (update l.disk (start + k + 1) d start) = []
    rw [update_of_ne (Ne.symm hst)]; exact hh
  · intro j hj hjk
    show update l.disk (start + k + 1) d (start + j + 1) = _
    by_cases hjk' : j = k
    · subst hjk'; simp [hdata]
    · rw [update_of_ne (by omega)]
      exact hwr j hj (by omega)

omit [DecidableEq T] in
/-- The first `write_head` of a commit: the group becomes durable. -/
theorem write_commitHead (ho : OpInv start small l) (hd : DiskInv img start l)
    (hp : PhaseOk img start l (.writing h lh lh.length)) (hdata : header d = lh) :
    DiskInv img start (l.write start start d) ∧
      PhaseOk img start (l.write start start d) (.installing h lh 0 0) := by
  obtain ⟨hup, hcom, hunp, hh, hhist, hlh, hne, -, hwr⟩ := hp
  have hdur : (l.write start start d).durable = l.hist := by
    show (if start = start ∧ l.lh ≠ [] then l.hist else l.durable) = l.hist
    rw [if_pos ⟨rfl, by rw [hlh]; exact hne⟩]
  refine ⟨⟨?_, ?_, ?_, ?_, hd.fresh, hd.homes, hd.booting, hd.subset, hd.ids, hd.opIds, hd.current,
    ?_, hd.whole, ?_⟩, hup, hcom, hunp, le_rfl, Nat.zero_le _, ?_, hhist, by rw [hdur, hhist], hlh,
    ?_⟩
  · rw [hdur]
    refine hd.recoverable.write_header hh hdata (hlh ▸ ho.short) (hlh ▸ ho.nodup)
      (fun b hb => (ho.home b (hlh ▸ hb)).1) (fun j hj => ?_) fun b hb hb' => ?_
    · rw [hhist]; exact hwr j hj hj
    · exact hd.since b hb (hlh ▸ hb')
  · intro b _ _; rw [hdur]; rfl
  · rw [hdur]; exact List.prefix_refl _
  · rw [hdur]; exact le_trans hd.boot hd.prefixed.length_le
  · intro t o ho'
    have : l.op t = some o := ho'
    rw [ho.no_op (ho.alone hcom) t] at this
    cases this
  · rw [hdur]; exact hd.whole
  · show header (update l.disk start d start) = lh
    simpa using hdata
  · intro j hj hj0
    omega

section

variable (hd : DiskInv img start l)

include hd

omit [Fintype T] [DecidableEq T] in
/-- The home block of log block `k` is written: the header and what is durable stay, and one
more block is installed. -/
theorem write_home (hh : header (l.disk start) = lh)
    (hins : ∀ j (hj : j < lh.length), j < k → l.disk lh[j] = replay img h lh[j])
    (hk : k < lh.length) (hdata : d = replay img h lh[k]) :
    DiskInv img start (l.write start lh[k] d) ∧ (l.write start lh[k] d).durable = l.durable ∧
      header ((l.write start lh[k] d).disk start) = lh ∧ ∀ j (hj : j < lh.length), j < k + 1 →
        (l.write start lh[k] d).disk lh[j] = replay img h lh[j] := by
  have hmem : lh[k] ∈ header (l.disk start) := by rw [hh]; exact List.getElem_mem hk
  have hst : lh[k] ≠ start := fun e => hd.recoverable.home _ hmem (e ▸ inLog_start start)
  refine ⟨hd.write (fun e => absurd e hst) (hd.recoverable.write_home hmem),
    l.durable_write fun e => absurd e hst, ?_, fun j hj hjk => ?_⟩
  · show header (update l.disk lh[k] d start) = lh
    rwa [update_of_ne (Ne.symm hst)]
  · show update l.disk lh[k] d lh[j] = _
    by_cases hjk' : lh[j] = lh[k]
    · rw [hjk']; simp [hdata]
    · rw [update_of_ne hjk']
      have : j ≠ k := fun e => hjk' (by subst e; rfl)
      exact hins j hj (by omega)

omit [Fintype T] [DecidableEq T] in
theorem write_clearHead (hp : PhaseOk img start l (.clearing h)) (hdata : header d = []) :
    DiskInv img start (l.write start start d) ∧
      PhaseOk img start (l.write start start d) .finishing := by
  obtain ⟨hup, hcom, hunp, hhist, hdur, hlh, hall⟩ := hp
  refine ⟨hd.write (fun _ => hlh) (Recoverable.write_empty hdata fun b hb => ?_),
    hup, hcom, hunp, hlh, ?_⟩
  · rw [hdur]; exact hall b hb
  · show header (update l.disk start d start) = []
    simpa using hdata

omit [Fintype T] [DecidableEq T] in
theorem write_recoverHead (hp : PhaseOk img start l (.recClearing h)) (hdata : header d = []) :
    DiskInv img start (l.write start start d) ∧
      PhaseOk img start (l.write start start d) .recovered := by
  obtain ⟨hup, hcom, hunp, hhist, hdur, hlh, hall⟩ := hp
  have hdur' : (l.write start start d).durable = l.durable := l.durable_write fun _ => hlh
  refine ⟨hd.write (fun _ => hlh) (Recoverable.write_empty hdata fun b hb => ?_),
    hup, hcom, hunp, ?_, hlh, ?_⟩
  · rw [hdur]; exact hall b hb
  · rw [hdur', hdur]; exact hhist
  · show header (update l.disk start d start) = []
    simpa using hdata

end

end Writes

/-! ### Steps that change the in-memory log -/

variable {h : List Rec} {lh : List ℕ}

/-- `install_trans` unpins the buffer of the block it has just written. -/
theorem safe_bunpin {k : ℕ} {e : Bool}
    (hph : g.phase = .installing h lh (k + 1) k) (hk : k < lh.length)
    (hh : (g.tag i).hold = .full d e) (hid : (g.tag i).ident = (ROOTDEV, lh[k]))
    (hQ : Q () (g.setPhase (.installing h lh (k + 1) (k + 1)))) :
    Safe (discipline T img start small) t (bunpin i) g Q := by
  refine safe_act fun s gs (hI : Inv img start small s gs) hg => ⟨_, ?_, hQ⟩
  subst hg
  obtain ⟨hval, hdata, -, hlock, href, -, hfree⟩ := hI.of_full hh
  obtain ⟨hdev, hno⟩ := hI.ident_of_full hh hid
  obtain ⟨hup, hcom, hunp, huk, hkl, hhd, hhist, hdur, hlh, hins⟩ := hI.phase_at hph (by simp)
  subst hlh
  have hpins : s.pins = s.lh[k] :: s.lh.drop (k + 1) := by
    simp only [LogDisk.pins, hup, if_true, hunp]
    exact List.drop_eq_getElem_cons hk
  -- a block is logged once, so this was its only pin
  have hnotin : s.lh[k] ∉ s.lh.drop (k + 1) := by
    have := hI.ops.nodup
    rw [← List.take_append_drop k s.lh, List.nodup_append] at this
    have := this.2.1
    rw [List.drop_eq_getElem_cons hk, List.nodup_cons] at this
    exact this.1
  have hpins' : ∀ s' : State T, s'.toLogDisk = { s.toLogDisk with unpinned := s.unpinned + 1 } →
      s'.pins = s.lh.drop (k + 1) := by
    intro s' hs'
    simp only [hs', LogDisk.pins, hup, if_true, hunp]
  have hops : OpInv start small { s.toLogDisk with unpinned := s.unpinned + 1 } :=
    { hI.ops with }
  have hdisk : DiskInv img start { s.toLogDisk with unpinned := s.unpinned + 1 } :=
    { hI.disk with }
  have hbi := hI.cache.buf i
  rw [hpins] at hbi
  have hself : update (fun u => (gs u).tag i) t ((gs t).tag i) = fun u => (gs u).tag i := by
    rw [update_eq_self_iff]
  refine ⟨hI.of_phase (by rw [hph]; simp) ?_ hops hdisk rfl rfl id (hI.up t) rfl ?_,
    keeps_of_update rfl rfl rfl⟩
  · have hset : CacheInv (s.setBuf i fun b => { b with refcnt := b.refcnt - 1 }).toCache
        (s.lh.drop (k + 1)) (s.view img start)
        (update (fun u => (gs u).tag) t (update (gs t).tag i ((gs t).tag i))) :=
      hI.cache.set i hI.cache.mem_lru (fun j hj => by simp [State.setBuf, hj]) (fun _ _ => rfl)
        (fun u j => ?_)
      (fun b hb => ⟨?_, rfl⟩) (Or.inl (by simp [State.setBuf])) (fun b hb => ?_) ?_
    · rw [hpins' _ rfl]
      rwa [update_eq_self] at hset
    · exact hI.cache.refs_self u j
    · have hbk : b ≠ s.lh[k] := by
        rcases hb with hb | hb
        · rw [hno]; simpa [State.setBuf] using hb
        · exact absurd hdev.symm (by simpa [State.setBuf] using hb)
      rw [hpins, List.mem_cons]
      simp [hbk]
    · obtain ⟨j, h1, h2, h3⟩ := hI.cache.pinned b (by rw [hpins]; exact List.mem_cons_of_mem _ hb)
      obtain rfl | hj := eq_or_ne j i
      · exact ⟨j, by simpa [State.setBuf] using ⟨h1, h2, h3⟩⟩
      · exact ⟨j, by simpa [State.setBuf, hj] using ⟨h1, h2, h3⟩⟩
    · rw [hself]
      have hrc := hbi.refcnt
      rw [if_pos ⟨hdev.symm, by rw [← hno]; exact List.mem_cons_self⟩] at hrc
      refine ⟨?_, ?_, ?_, ?_, hbi.held, ?_, hbi.dirty, ?_⟩
      · simpa [State.setBuf] using hbi.uint
      · have hn : ¬ ((s.buf i).dev = ROOTDEV ∧ (s.buf i).blockno ∈ s.lh.drop (k + 1)) := by
          rw [← hno]; exact fun hc => hnotin hc.2
        simp only [State.setBuf, update_self, if_neg hn]
        omega
      · simpa [State.setBuf] using hbi.ident
      · simpa [State.setBuf] using hbi.lock
      · simpa [State.setBuf] using hbi.full
      · simpa [State.setBuf] using hbi.clean
  · exact ⟨hup, hcom, by simp [hunp], le_rfl, hkl, hhd, hhist, hdur, rfl, hins⟩

omit [Fintype T] [DecidableEq T] in
theorem all_installed (hd : DiskInv img start l)
    (hdur : l.durable = h) (hh : header (l.disk start) = lh)
    (hins : ∀ j (hj : j < lh.length), j < lh.length → l.disk lh[j] = replay img h lh[j])
    {b : ℕ} (hb : ¬ InLog start b) : l.disk b = replay img h b := by
  by_cases hmem : b ∈ lh
  · obtain ⟨j, hj, rfl⟩ := List.mem_iff_getElem.mp hmem
    exact hins j hj hj
  · rw [hd.recoverable.other b hb (by rwa [hh]), hdur]

omit [DecidableEq T] in
theorem OpInv.clear (h : OpInv start small l) (h0 : l.outstanding = 0) :
    OpInv start small { l with lh := [], unpinned := 0 } := by
  refine ⟨List.nodup_nil, by simp, by simp, h.outstanding, h.alone, h.down, ?_, ?_, h.few⟩
  · intro t o ho
    have : l.op t = some o := ho
    rw [h.no_op h0 t] at this
    cases this
  · intro hs
    have := h.reserved hs
    simp only [List.length_nil]
    omega

omit [Fintype T] [DecidableEq T] in
theorem DiskInv.clear (hd : DiskInv img start l) (he : l.hist = l.durable) :
    DiskInv img start { l with lh := [], unpinned := 0 } :=
  { hd with
    since := fun b _ _ => by rw [he]
    fresh := fun _ b hb => by simp at hb }

theorem lt_of_mem_header {b : ℕ} (hb : b ∈ header d) : b < 2 ^ 32 := by
  obtain ⟨j, -, rfl⟩ := List.mem_map.mp hb
  exact lt_of_lt_of_le (Bytes.get_lt _ _ _) (by norm_num)

omit [DecidableEq T] in
theorem OpInv.load (h : OpInv start small l) (hup : l.up = false)
    {want : ℕ → Block} (hrec : Recoverable start l.disk want)
    (hlt : ∀ b ∈ header (l.disk start), ¬ InLog start b ∧ b < 2 ^ 32) :
    OpInv start small { l with lh := header (l.disk start) } := by
  have hnone := h.no_op (h.down hup)
  refine ⟨hrec.nodup, hrec.short, hlt, h.outstanding, h.alone, h.down, ?_, ?_, h.few⟩
  · intro t o ho
    rw [show l.op t = none from hnone t] at ho
    cases ho
  · intro _
    simpa [hnone, reserve] using hrec.short

omit [Fintype T] [DecidableEq T] in
theorem DiskInv.load (hd : DiskInv img start l) (hup : l.up = false)
    (he : l.hist = l.durable) (lh : List ℕ) : DiskInv img start { l with lh := lh } :=
  { hd with
    since := fun b _ _ => by rw [he]
    fresh := fun h => absurd (show l.up = true from h) (by simp [hup]) }

theorem Inv.cache_clear (h : Inv img start small s gs) (hpins : s.pins = []) (ph : Phase) :
    CacheInv s.toCache (LogDisk.pins { s.toLogDisk with lh := [], unpinned := 0 })
      (s.view img start) (update (fun u => (gs u).tag) t ((gs t).setPhase ph).tag) := by
  have hc := h.cache
  rw [hpins] at hc
  rw [Know.setPhase_tag, update_eq_self]
  simpa [LogDisk.pins] using hc

/-- `log.lh.n = 0` at the end of a commit or of recovery. -/
theorem safe_clearHead {ph : Phase}
    (hph : g.phase = .installing h lh lh.length lh.length ∧ ph = .clearing h ∨
      g.phase = .recovering h lh lh.length ∧ ph = .recClearing h)
    (hQ : Q () (g.setPhase ph)) : Safe (discipline T img start small) t clearHead g Q := by
  refine safe_act fun s gs (hI : Inv img start small s gs) hg => ⟨_, ?_, hQ⟩
  subst hg
  obtain ⟨h0, he, hpins, hidle, hok⟩ : s.outstanding = 0 ∧ s.hist = s.durable ∧ s.pins = [] ∧
      (gs t).phase ≠ .idle ∧ PhaseOk img start { s.toLogDisk with lh := [], unpinned := 0 } ph := by
    rcases hph with ⟨hph, rfl⟩ | ⟨hph, rfl⟩
    · obtain ⟨hup, hcom, hunp, -, -, hhd, hhist, hdur, hlh, hins⟩ := hI.phase_at hph (by simp)
      exact ⟨hI.ops.alone
        hcom, by rw [hhist, hdur], by simp [LogDisk.pins, hunp, hlh], by simp [hph], hup, hcom, rfl,
        hhist, hdur, rfl, fun b hb => all_installed hI.disk hdur hhd hins hb⟩
    · obtain ⟨hup, hcom, hunp, hhist, hdur, hlh, hhd, -, hins⟩ := hI.phase_at hph (by simp)
      exact ⟨hI.ops.down hup, by rw [hhist, hdur], by simp [LogDisk.pins, hup], by simp [hph],
        hup, hcom, rfl, hhist, hdur, rfl, fun b hb => all_installed hI.disk hdur hhd hins hb⟩
  exact ⟨hI.of_phase hidle (hI.cache_clear hpins _) (hI.ops.clear h0) (hI.disk.clear he) rfl rfl id
    (hI.up t) rfl hok, fun _ _ => ⟨rfl, rfl⟩⟩

/-! ### The programs of a commit and of recovery -/

/-- A process holds no buffer whose contents it has not looked at. -/
def Know.Calm (g : Know) : Prop := ∀ i, (g.tag i).hold ≠ .locked

theorem Know.Calm.setTag (h : g.Calm) {tag : Tag} (ht : tag.hold ≠ .locked) :
    (g.setTag i tag).Calm := by
  intro j
  by_cases hj : j = i
  · subst hj; simpa using ht
  · rw [Know.setTag_tag_of_ne _ _ hj]; exact h j

theorem Know.Calm.setPhase (h : g.Calm) (ph : Phase) : (g.setPhase ph).Calm := h

theorem safe_look_lh {ph : Phase} {prog : List ℕ → Prog T (State T) Unit} (hg : g.phase = ph)
    (hph : ph ≠ .idle) (hlh : ∀ l : LogDisk T, PhaseOk img start l ph → l.lh = lh)
    (hQ : Safe (discipline T img start small) t (prog lh) g Q) :
    Safe (discipline T img start small) t (.look (fun s => s.lh) >>= prog) g Q := by
  refine Safe.seq (safe_look fun s gs hI hgs => ?_)
  rwa [hlh _ (hI.phase_at (by rw [hgs, hg]) hph)]

/-- What is left of a process's knowledge after a part of a commit or recovery. -/
def Know.At (op : Option Op) (ph : Phase) (g : Know) : Prop :=
  g.phase = ph ∧ g.op = op ∧ g.Calm

section Programs

variable {h : List Rec} {lh : List ℕ} {op : Option Op} (hstart : start + LOGBLOCKS < 2 ^ 32)

include hstart

/-- `write_head`, for the phases in which it is called. -/
theorem safe_write_head {ph ph' : Phase} (hg : g.At op ph) (hph : ph ≠ .idle)
    (hlen : lh.length ≤ LOGBLOCKS) (hlt : ∀ b ∈ lh, b < 2 ^ 32)
    (hlh : ∀ l : LogDisk T, PhaseOk img start l ph → l.lh = lh)
    (hstep : ∀ (d : Block) (l : LogDisk T), header d = lh → OpInv start small l →
      DiskInv img start l → PhaseOk img start l ph →
      DiskInv img start (l.write start start d) ∧ PhaseOk img start (l.write start start d) ph') :
    Safe (discipline T img start small) t (write_head start) g fun _ => Know.At op ph' := by
  obtain ⟨rfl, rfl, hcalm⟩ := hg
  refine Safe.seq (safe_bread (K := fun _ => True) (by omega) (fun _ _ _ _ _ => trivial)
    fun i d hnone _ => ?_)
  refine Safe.seq (safe_setData (b := d) (e := false) (d := setHeader d lh) (by simp)
    (fun s gs hI hg => ?_) ?_)
  · have hgt : (gs t).phase = g.phase := by rw [hg]; rfl
    have hfull := hI.of_full (t := t) (i := i) (d := d) (e := false) (by rw [hg]; simp)
    rw [hfull.2.1, hlh s.toLogDisk (hgt ▸ hI.phase_ok (t := t) (by rw [hgt]; exact hph))]
  · refine Safe.seq (safe_bwrite (x := start) (d := setHeader d lh) (e := true) ph'
      (by simpa using hph) (by simp) (by simp) (fun l ho hd hok => ?_) ?_)
    · obtain ⟨h1, h2⟩ := hstep _ l (header_setHeader hlen hlt d) ho hd hok
      exact ⟨h1, h2, fun _ hn => absurd (inLog_start start) hn⟩
    · refine safe_brelse (d := setHeader d lh) (by simp) (by simp) ?_
      exact ⟨by simp, by simp, (((hcalm.setTag (by simp)).setTag (by simp)).setTag
        (by simp)).setPhase ph' |>.setTag (by simp)⟩

omit hstart in
/-- What both loops do once they have read two buffers: they copy `j` to `i`, write
`i` and release both. -/
theorem safe_copyBlock {i j : Fin NBUF} {e : Block} {x y r q : ℕ}
    {u rest : Prog T (State T) Unit} (mid ph : Phase) (hij : i ≠ j) (hph : g.phase ≠ .idle)
    (hcalm : g.Calm) (hi : g.tag i = ⟨r + 1, (ROOTDEV, x), .full e false⟩)
    (hj : g.tag j = ⟨q + 1, (ROOTDEV, y), .full d false⟩)
    (hstep : ∀ l : LogDisk T, OpInv start small l → DiskInv img start l →
      PhaseOk img start l g.phase →
      DiskInv img start (l.write start x d) ∧ PhaseOk img start (l.write start x d) mid ∧
        (l.up = true → ¬ InLog start x → replay img l.hist x = d))
    (hu : ∀ g' : Know, g'.phase = mid → (g'.tag i).hold = .full d false →
      (g'.tag i).ident = (ROOTDEV, x) →
      Safe (discipline T img start small) t u g' fun _ g'' => g'' = g'.setPhase ph)
    (hrest : ∀ g' : Know, g'.At g.op ph → Safe (discipline T img start small) t rest g' Q) :
    Safe (discipline T img start small) t
      (do memmove i j; bwrite start i; u; brelse j; brelse i; rest) g Q := by
  have hji : j ≠ i := hij.symm
  refine Safe.seq (safe_setData (b := e) (e := false) (d := d) (by rw [hi])
    (fun s gs hI hg => ?_) ?_)
  · exact (hI.of_full (t := t) (i := j) (d := d) (e := false) (by rw [hg, hj])).2.1
  refine Safe.seq (safe_bwrite (x := x) (d := d) (e := true) mid hph (by simp) (by simp [hi])
    hstep ?_)
  refine Safe.bind (hu _ (by simp) (by simp) (by simp [hi])) fun _ g' hg' => ?_
  subst hg'
  refine Safe.seq (safe_brelse (d := d) ?_ ?_ ?_)
  · simp [Know.setTag_tag_of_ne _ _ hji, hj]
  · simp [Know.setTag_tag_of_ne _ _ hji, hj]
  refine Safe.seq (safe_brelse (d := d) ?_ ?_ (hrest _ ⟨by simp, by simp, ?_⟩))
  · simp [Know.setTag_tag_of_ne _ _ hij]
  · simp [Know.setTag_tag_of_ne _ _ hij, hi]
  exact ((((hcalm.setTag (by simp)).setTag (by simp)).setPhase mid).setPhase ph |>.setTag
    (by simp)).setTag (by simp)

/-- The loop of `write_log`. -/
theorem safe_writeFrom : ∀ (bs pre : List ℕ) (g : Know), lh = pre ++ bs →
    (∀ b ∈ lh, ¬ InLog start b ∧ b < 2 ^ 32) → lh.length ≤ LOGBLOCKS →
    g.At op (.writing h lh pre.length) →
    Safe (discipline T img start small) t (writeFrom start pre.length bs) g
      fun _ => Know.At op (.writing h lh lh.length) := by
  intro bs
  induction bs with
  | nil =>
    intro pre g hlh _ _ hg
    rw [List.append_nil] at hlh
    subst hlh
    exact hg
  | cons b bs ih =>
    intro pre g hlh hhome hlen hg
    obtain ⟨hph, hop, hcalm⟩ := hg
    have hk : pre.length < lh.length := by rw [hlh]; simp
    have hkb : lh[pre.length] = b := by subst hlh; simp
    have hbhome := hhome b (by rw [hlh]; simp)
    refine Safe.seq (safe_bread (K := fun _ => True) (by omega) (fun _ _ _ _ _ => trivial)
      fun i d hi _ => ?_)
    refine Safe.seq (safe_bread (K := fun d => d = replay img h b) hbhome.2
      (fun _ s gs hI hgs => ?_) fun j e hj he => ?_)
    -- the buffer of a home block has what the history says
    · have hgs : (gs t).phase = .writing h lh pre.length := by rw [hgs]; simpa using hph
      have hok := hI.phase_at hgs (by simp)
      rw [LogDisk.view, if_pos ⟨hok.1, hbhome.1⟩, hok.2.2.2.2.1]
    have he := he rfl
    have hji : j ≠ i := by
      rintro rfl
      simp at hj
    refine safe_copyBlock (u := pure ()) (.writing h lh (pre.length + 1))
      (.writing h lh (pre.length + 1)) hji.symm (by simp [hph])
      ((hcalm.setTag (by simp)).setTag (by simp))
      (by rw [Know.setTag_tag_of_ne _ _ hji.symm, Know.setTag_tag_self]) (Know.setTag_tag_self ..)
      (fun l ho hd hok => ?_) (fun g' hg' _ _ => ?_) fun g' hg' => ?_
    · simp only [Know.setTag_phase, hph] at hok
      obtain ⟨h1, h2⟩ := write_logBlock (d := e) ho hd hok hk (by rw [hkb]; exact he)
      exact ⟨h1, h2, fun _ hn => absurd (inLog_add (by omega)) hn⟩
    · exact congrArg g'.setPhase hg'
    · rw [show pre.length + 1 = (pre ++ [b]).length by simp] at hg' ⊢
      exact ih (pre ++ [b]) _ (by simp [hlh]) hhome hlen (hop ▸ hg')

/-- The loop of `install_trans`, for a commit and for recovery alike.  `ph k` is
the phase before block `k` is installed, and `mid k` the one after the write. -/
theorem safe_installFrom {recovering : Bool} (ph mid : ℕ → Phase) (hidle : ∀ k, ph k ≠ .idle)
    (hhead : ∀ (l : LogDisk T) k, PhaseOk img start l (ph k) →
      header (l.disk start) = lh ∧ l.durable = h)
    (hwrite : ∀ (l : LogDisk T) k (hk : k < lh.length), DiskInv img start l →
      PhaseOk img start l (ph k) → DiskInv img start (l.write start lh[k] (replay img h lh[k])) ∧
        PhaseOk img start (l.write start lh[k] (replay img h lh[k])) (mid k) ∧
        (l.up = true → replay img l.hist lh[k] = replay img h lh[k]))
    (hunpin : ∀ (g : Know) k (hk : k < lh.length) i d, g.phase = mid k →
      (g.tag i).hold = .full d false → (g.tag i).ident = (ROOTDEV, lh[k]) →
      Safe (discipline T img start small) t (unpin recovering i) g
        fun _ g' => g' = g.setPhase (ph (k + 1)))
    (hhome : ∀ b ∈ lh, ¬ InLog start b ∧ b < 2 ^ 32) (hlen : lh.length ≤ LOGBLOCKS) :
    ∀ (bs pre : List ℕ) (g : Know), lh = pre ++ bs → g.At op (ph pre.length) →
    Safe (discipline T img start small) t (installFrom start recovering pre.length bs) g
      fun _ => Know.At op (ph lh.length) := by
  intro bs
  induction bs with
  | nil =>
    intro pre g hlh hg
    rw [List.append_nil] at hlh
    subst hlh
    exact hg
  | cons b bs ih =>
    intro pre g hlh hg
    obtain ⟨hph, hop, hcalm⟩ := hg
    have hk : pre.length < lh.length := by rw [hlh]; simp
    have hkb : lh[pre.length] = b := by subst hlh; simp
    have hbhome := hhome b (by rw [hlh]; simp)
    refine Safe.seq (safe_bread (K := fun d => d = replay img h b) (by omega)
      (fun _ s gs hI hgs => ?_) fun i d hi hd => ?_)
    -- the log block has what the header promises for its home block
    · have hok := hI.phase_at (t := t) (by rw [hgs, hph]) (hidle _)
      obtain ⟨hh, hdur⟩ := hhead _ _ hok
      have hlog := hI.disk.recoverable.logged pre.length (by rwa [hh])
      rw [LogDisk.view, if_neg (fun hc => hc.2 (inLog_add (by omega))), ← hkb]
      simpa [hh, hdur] using hlog
    have hd := hd rfl
    refine Safe.seq (safe_bread (K := fun _ => True) hbhome.2 (fun _ _ _ _ _ => trivial)
      fun j e hj _ => ?_)
    have hji : j ≠ i := by
      rintro rfl
      simp at hj
    refine safe_copyBlock (mid pre.length) (ph (pre.length + 1)) hji
      (by simpa [hph] using hidle _) ((hcalm.setTag (by simp)).setTag (by simp))
      (Know.setTag_tag_self ..)
      (by rw [Know.setTag_tag_of_ne _ _ hji.symm, Know.setTag_tag_self])
      (fun l ho hdi hok => ?_) (fun g' hg' hh hid => ?_) fun g' hg' => ?_
    · simp only [Know.setTag_phase, hph] at hok
      obtain ⟨h1, h2, h3⟩ := hwrite l _ hk hdi hok
      rw [hkb, ← hd] at h1 h2 h3
      exact ⟨h1, h2, fun hup _ => h3 hup⟩
    · exact hunpin g' pre.length hk j d hg' hh (by rw [hid, hkb])
    · rw [show pre.length + 1 = (pre ++ [b]).length by simp] at hg' ⊢
      exact ih (pre ++ [b]) _ (by simp [hlh]) (hop ▸ hg')

/-- `install_trans` during a commit. -/
theorem safe_install_commit (hg : g.At op (.installing h lh 0 0))
    (hhome : ∀ b ∈ lh, ¬ InLog start b ∧ b < 2 ^ 32) (hlen : lh.length ≤ LOGBLOCKS) :
    Safe (discipline T img start small) t (install_trans start false) g
      fun _ => Know.At op (.installing h lh lh.length lh.length) := by
  refine safe_look_lh hg.1 (by simp) (fun l hok => hok.2.2.2.2.2.2.2.2.1) ?_
  refine safe_installFrom (h := h) hstart (fun k => .installing h lh k k)
    (fun k => .installing h lh (k + 1) k) (by simp) ?_ ?_ ?_ hhome hlen _ [] _ rfl hg
  · intro l k hok
    exact ⟨hok.2.2.2.2.2.1, hok.2.2.2.2.2.2.2.1⟩
  · intro l k hk hd hok
    obtain ⟨hup, hcom, hunp, huk, -, hh, hhist, hdur, hlh, hins⟩ := hok
    obtain ⟨hd', hdur', hh', hins'⟩ := write_home hd hh hins hk rfl
    exact ⟨hd', ⟨hup, hcom, hunp, by omega, hk, hh', hhist, by rw [hdur', hdur], hlh, hins'⟩,
      fun _ => by rw [hhist]⟩
  · intro g k hk i d hph hh hid
    exact safe_bunpin hph hk hh hid rfl

/-- `install_trans` during recovery. -/
theorem safe_install_recover (hg : g.At op (.recovering h lh 0))
    (hhome : ∀ b ∈ lh, ¬ InLog start b ∧ b < 2 ^ 32) (hlen : lh.length ≤ LOGBLOCKS) :
    Safe (discipline T img start small) t (install_trans start true) g
      fun _ => Know.At op (.recovering h lh lh.length) := by
  refine safe_look_lh hg.1 (by simp) (fun l hok => hok.2.2.2.2.2.1) ?_
  refine safe_installFrom (h := h) hstart (fun k => .recovering h lh k)
    (fun k => .recovering h lh (k + 1)) (by simp) ?_ ?_ ?_ hhome hlen _ [] _ rfl hg
  · intro l k hok
    exact ⟨hok.2.2.2.2.2.2.1, hok.2.2.2.2.1⟩
  · intro l k hk hd hok
    obtain ⟨hup, hcom, hunp, hhist, hdur, hlh, hh, -, hins⟩ := hok
    obtain ⟨hd', hdur', hh', hins'⟩ := write_home hd hh hins hk rfl
    exact ⟨hd', ⟨hup, hcom, hunp, hhist, by rw [hdur', hdur], hlh, hh', hk, hins'⟩,
      fun h => by rw [hup] at h; cases h⟩
  · intro g k hk i d hph hh hid
    show g = g.setPhase (.recovering h lh (k + 1))
    rw [← hph]
    rfl

/-- **A commit keeps the invariant at every step**, from the section of `end_op`
that starts it to the one that ends it. -/
theorem safe_commit (hg : g.At op .finishing ∨ ∃ h lh, g.At op (.writing h lh 0)) :
    Safe (discipline T img start small) t (commit start) g fun _ => Know.At op .finishing := by
  rcases hg with hg | ⟨h, lh, hg⟩
  · exact safe_look_lh hg.1 (by simp) (fun l hok => hok.2.2.2.1) hg
  · refine Safe.bind (R := fun r g' => r = lh ∧ g' = g ∧ lh ≠ [] ∧
      (∀ b ∈ lh, ¬ InLog start b ∧ b < 2 ^ 32) ∧ lh.length ≤ LOGBLOCKS)
      (safe_look fun s gs hI hgs => ?_) ?_
    · obtain ⟨-, -, -, -, -, rfl, hne, -⟩ := hI.phase_at (t := t) (by rw [hgs, hg.1]) (by simp)
      exact ⟨rfl, rfl, hne, hI.ops.home, hI.ops.short⟩
    · rintro r g0 ⟨hr, hg0, hne, hhome, hlen⟩
      have hpos : lh.length > 0 := List.length_pos_iff.mpr hne
      rw [hr, hg0, if_pos hpos]
      refine Safe.bind (safe_look_lh hg.1 (by simp) (fun l hok => hok.2.2.2.2.2.1)
        (safe_writeFrom hstart lh [] g rfl hhome hlen hg)) ?_
      intro _ g1 hg1
      refine Safe.bind (safe_write_head hstart hg1 (by simp) hlen (fun b hb => (hhome b hb).2)
        (fun l hok => hok.2.2.2.2.2.1) fun d l hd ho hdi hok => write_commitHead ho hdi hok hd) ?_
      intro _ g2 hg2
      refine Safe.bind (safe_install_commit hstart hg2 hhome hlen) ?_
      intro _ g3 hg3
      refine Safe.seq (safe_clearHead (Or.inl ⟨hg3.1, rfl⟩) ?_)
      exact safe_write_head hstart ⟨rfl, hg3.2⟩ (by simp) (by simp) (by simp)
        (fun l hok => hok.2.2.2.2.2.1) fun d l hd ho hdi hok => write_clearHead hdi hok hd

/-- `read_head` on a booting machine. -/
theorem safe_read_head (hg : g.At op (.boot h)) :
    Safe (discipline T img start small) t (read_head start) g fun _ g' =>
      ∃ lh, g'.At op (.recovering h lh 0) ∧ (∀ b ∈ lh, ¬ InLog start b ∧ b < 2 ^ 32) ∧
        lh.length ≤ LOGBLOCKS := by
  obtain ⟨hph, hop, hcalm⟩ := hg
  refine Safe.seq (safe_bread (K := fun _ => True) (by omega) (fun _ _ _ _ _ => trivial)
    fun i d hnone _ => ?_)
  refine Safe.bind (R := fun _ g' => ∃ lh, g' = (g.setTag i ⟨(g.tag i).refs + 1, (ROOTDEV, start),
    .full d false⟩).setPhase (.recovering h lh 0) ∧ (∀ b ∈ lh, ¬ InLog start b ∧ b < 2 ^ 32) ∧
      lh.length ≤ LOGBLOCKS) (safe_act fun s gs (hI : Inv img start small s gs) hgs => ?_) ?_
  · have hph' : (gs t).phase = .boot h := by rw [hgs]; exact hph
    obtain ⟨hup, hcom, hunp, hhist, hdur, hlh⟩ := hI.phase_at hph' (by simp)
    obtain ⟨hval, hdata, hdirty, -, -, hident, -⟩ :=
      hI.of_full (t := t) (i := i) (d := d) (e := false) (by rw [hgs]; simp)
    rw [hgs, Know.setTag_tag_self] at hident
    obtain ⟨hdev, hno⟩ := Prod.mk.inj hident
    -- the header block is never modified in the cache without being written
    have hdisk : (s.buf i).data = s.disk start := by
      rw [(hI.cache.buf i).clean hval hdev.symm hdirty, ← hno, LogDisk.view,
        if_neg (fun hc => hc.2 (inLog_start start))]
    have hrec := hI.disk.recoverable
    have hlt : ∀ b ∈ header (s.disk start), ¬ InLog start b ∧ b < 2 ^ 32 :=
      fun b hb => ⟨hrec.home b hb, lt_of_mem_header hb⟩
    simp only [hdisk]
    refine ⟨_, ?_, header (s.disk start), rfl, hlt, hrec.short⟩
    rw [← hgs]
    refine ⟨hI.of_phase (by rw [hph']; simp) ?_ (hI.ops.load hup hrec hlt)
      (hI.disk.load hup (by rw [hhist, hdur]) _) rfl rfl id (hI.up t) rfl ?_, fun _ _ => ⟨rfl, rfl⟩⟩
    · rw [Know.setPhase_tag, update_eq_self]
      have hpins : ∀ lh, LogDisk.pins { s.toLogDisk with lh := lh } = s.pins := by
        intro lh; simp [LogDisk.pins, hup]
      show CacheInv s.toCache (LogDisk.pins { s.toLogDisk with lh := _ }) _ _
      rw [hpins]
      exact hI.cache
    · exact ⟨hup, hcom, hunp, hhist, hdur, rfl, rfl, Nat.zero_le _, fun j _ hj => by omega⟩
  · rintro _ _ ⟨lh, rfl, hlt, hlen⟩
    refine safe_brelse (d := d) (by simp) (by simp) ⟨lh, ⟨by simp, by simpa using hop, ?_⟩, hlt,
      hlen⟩
    refine Know.Calm.setTag (Know.Calm.setTag hcalm (by simp)) (by simp)

/-- **Recovery keeps the invariant at every step**, from any disk a crash may
leave behind. -/
theorem safe_recover (hg : g.At op (.boot h)) :
    Safe (discipline T img start small) t (recover_from_log start) g
      fun _ => Know.At op .recovered := by
  refine Safe.bind (safe_read_head hstart hg) ?_
  rintro _ g1 ⟨lh, hg1, hhome, hlen⟩
  refine Safe.bind (safe_install_recover hstart hg1 hhome hlen) ?_
  intro _ g2 hg2
  refine Safe.seq (safe_clearHead (Or.inr ⟨hg2.1, rfl⟩) ?_)
  exact safe_write_head hstart ⟨rfl, hg2.2⟩ (by simp) (by simp) (by simp)
    (fun l hok => hok.2.2.2.2.2.1) fun d l hd ho hdi hok => write_recoverHead hdi hok hd

end Programs

end Xv6.Log
