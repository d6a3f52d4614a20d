import Xv6.Log.Full

/-!
# When the cache and the log are too small

Two panics can stop a machine whose operations keep to `MAXOPBLOCKS`.

`log_write` looks for room in the log before it looks whether the block is
already there.  `begin_op` has reserved room for every block an operation may
log, so the log is full only when all outstanding operations have logged all they
may; but then every further `log_write` of one of their blocks panics, although
it would need no room (`log_too_big_iff`, `relogged_in_full_log`).

There are as many buffers as blocks in the log.  When operations have filled the
log, every buffer is pinned, and the commit finds none for the log block it has
to write (`commit_finds_no_buffer`).  As long as the blocks in the log and the
buffers that other processes refer to are fewer than the buffers, it finds one
(`commit_needs_buffers`).

## Main definitions

* `Tracked` — the invariant, with every process followed as in `Xv6.Log.Full`.
* `Commits` — a process is the one that commits.

## Main results

* `tracked_of_reachable`, `Commits.tracked` — processes are followed throughout every run.
* `log_too_big_iff`, `commit_needs_buffers` — **what has to be the case for each panic.**
-/


namespace Xv6.Log

open Conc Function

variable {T : Type} [Fintype T] [DecidableEq T] {t u : T} {img : ℕ → Block} {start : ℕ}
  {small : Prop}
  {s s' : State T} {gs : T → Know} {g : Know} {c c' : Pool T (State T)} {κ : Option Loc}

/-! ### The process that commits -/

/-- What a process knows if it is the one that commits. -/
def Know.loc (g : Know) : Option Loc :=
  match g.phase with
  | .writing _ lh _ => some ⟨fun i => (g.tag i).refs, lh, 0⟩
  | .installing _ lh _ u => some ⟨fun i => (g.tag i).refs, lh, u⟩
  | .clearing _ => some ⟨fun i => (g.tag i).refs, [], 0⟩
  | .finishing => some ⟨fun i => (g.tag i).refs, [], 0⟩
  | _ => none

theorem Know.phase_of_loc (h : g.loc ≠ none) : g.phase ≠ .idle := by
  intro hc
  simp [Know.loc, hc] at h

section

variable (h : Inv img start small s gs)

include h

omit [DecidableEq T] in
/-- It is the case. -/
theorem Inv.loc_at {loc : Loc} (hloc : (gs t).loc = some loc) : loc.At t s := by
  have hph : (gs t).phase ≠ .idle := Know.phase_of_loc (by rw [hloc]; exact nofun)
  have hok := h.phase_ok hph
  have hrefs : s.refs t = fun i => ((gs t).tag i).refs := funext (h.cache.refs t)
  unfold Know.loc at hloc
  cases hp : (gs t).phase with
  | writing hist lh k | clearing hist =>
    rw [hp] at hok hloc
    obtain ⟨-, hcom, hun, -, -, hlh, -⟩ := hok
    cases hloc
    exact ⟨by simp [State.loc, hrefs, hlh, hun], hcom⟩
  | installing hist lh k u =>
    rw [hp] at hok hloc
    obtain ⟨-, hcom, hun, -, -, -, -, -, hlh, -⟩ := hok
    cases hloc
    exact ⟨by simp [State.loc, hrefs, hlh, hun], hcom⟩
  | finishing =>
    rw [hp] at hok hloc
    obtain ⟨-, hcom, hun, hlh, -⟩ := hok
    cases hloc
    exact ⟨by simp [State.loc, hrefs, hlh, hun], hcom⟩
  | idle | boot hist | recovering hist lh k | recClearing hist | recovered => simp [hp] at hloc

omit [DecidableEq T] in
theorem Inv.up_of_loc (hloc : (gs t).loc ≠ none) : s.up = true := by
  have hok := h.phase_ok (Know.phase_of_loc hloc)
  unfold Know.loc at hloc
  cases hp : (gs t).phase with
  | writing hist lh k | installing hist lh k u | clearing hist | finishing =>
    rw [hp] at hok
    exact hok.1
  | idle | boot hist | recovering hist lh k | recClearing hist | recovered => simp [hp] at hloc

omit [DecidableEq T] in
theorem Inv.exists_loc (hcom : s.committing = true) : ∃ t loc, (gs t).loc = some loc := by
  obtain ⟨o, -, hok⟩ := h.phase
  cases o with
  | none =>
    have hidle : s.committing = false := hok.2.1
    rw [hcom] at hidle
    cases hidle
  | some t =>
    have hok : PhaseOk img start s.toLogDisk (gs t).phase := hok
    refine ⟨t, ?_⟩
    unfold Know.loc
    cases hp : (gs t).phase with
    | writing hist lh k => exact ⟨_, rfl⟩
    | installing hist lh k u => exact ⟨_, rfl⟩
    | clearing hist => exact ⟨_, rfl⟩
    | finishing => exact ⟨_, rfl⟩
    | idle | boot hist | recovering hist lh k | recClearing hist | recovered =>
      rw [hp] at hok
      have hno : s.committing = false := hok.2.1
      rw [hcom] at hno
      cases hno

omit [DecidableEq T] in
theorem Inv.loc_unique (ht : (gs t).loc ≠ none) (hu : (gs u).loc ≠ none) : t = u := by
  obtain ⟨o, ho, -⟩ := h.phase
  have h1 := ho t (Know.phase_of_loc ht)
  have h2 := ho u (Know.phase_of_loc hu)
  exact Option.some_injective _ (h1.symm.trans h2)

omit [DecidableEq T] in
theorem Inv.unpinned_eq_zero (hcom : s.committing = false) : s.unpinned = 0 := by
  obtain ⟨o, -, hok⟩ := h.phase
  cases hp : phaseOf gs o with
  | idle | boot hist | recovering hist lh k | recClearing hist | recovered =>
    rw [hp] at hok
    exact hok.2.2.1
  | writing hist lh k | installing hist lh k u | clearing hist | finishing =>
    rw [hp] at hok
    have hyes : s.committing = true := hok.2.1
    rw [hcom] at hyes
    cases hyes

/-- After a step of `t` somebody commits: that is `t`, if it did before or nobody did. -/
theorem Inv.loc_after (h' : Inv img start small s' (update gs t g)) (hcom : s'.committing = true)
    (hwas : (gs t).loc ≠ none ∨ s.committing = false) : g.loc = some (s'.loc t) := by
  obtain ⟨u, loc, hu⟩ := h'.exists_loc hcom
  have hut : u = t := by
    by_contra hne
    rw [update_of_ne hne] at hu
    rcases hwas with hwas | hwas
    · exact hne (h.loc_unique (by rw [hu]; exact nofun) hwas)
    · have := (h.loc_at hu).2
      rw [hwas] at this
      cases this
  subst hut
  have hat := (h'.loc_at hu).1
  rw [update_self] at hu
  rw [hu, hat]

theorem Inv.after_loc
    (h' : Inv img start small s' (update gs t g)) (hκ : κ = none ∨ κ = (gs t).loc) :
    after κ t s s' = none ∨ after κ t s s' = g.loc := by
  cases κ with
  | none =>
    unfold after
    dsimp only
    split_ifs with hc
    · exact Or.inr (h.loc_after h' hc.2.1 (Or.inr hc.1)).symm
    · exact Or.inl rfl
  | some loc =>
    have hκ := hκ.resolve_left nofun
    unfold after
    dsimp only
    split_ifs with hc
    · exact Or.inr (h.loc_after h' hc (Or.inl (by rw [← hκ]; exact nofun))).symm
    · exact Or.inl rfl

end

/-! ### Runs -/

/-- A pool in which every process is followed: what is known of one is nothing, or what it knows
if it commits.  If `who` is given, that process is known to commit. -/
structure Tracked (img : ℕ → Block) (start : ℕ) (small : Prop) (who : Option T)
    (c : Pool T (State T)) : Prop where
  followed : ∃ gs, Inv img start small c.st gs ∧
    (∀ t, Safe (discipline T img start small) t (c.code t) (gs t) fun _ => Know.Idle) ∧
    ∀ t, ∃ κ, (κ = none ∨ κ = (gs t).loc) ∧ (who = some t → κ ≠ none) ∧
      Careful (c.code t) κ fun _ _ => True
  blamed : ∀ msg, c.halted = some msg → ∃ κ, Blame κ c.st msg

omit [DecidableEq T] in
theorem Inv.known_at (h : Inv img start small s gs) (hκ : κ = none ∨ κ = (gs t).loc) :
    ∀ loc, κ = some loc → loc.At t s := by
  intro loc hloc
  rcases hκ with rfl | rfl
  · cases hloc
  · exact h.loc_at hloc

theorem tracked_boot {t0 : T}
    (hgood : (discipline T img start small).Good ⟨s, bootCode start t0, none⟩) :
    Tracked img start small none ⟨s, bootCode start t0, none⟩ := by
  obtain ⟨gs, hI, hsafe⟩ := hgood.safe
  refine ⟨⟨gs, hI, hsafe, ?_⟩, nofun⟩
  intro t
  exact ⟨none, Or.inl rfl, nofun, careful_boot t0 t⟩

variable {who : Option T}

/-- A step of process `t`. -/
theorem Tracked.done {who' : Option T} {ρ : Type} {f : T → State T → Option (Outcome (State T) ρ)}
    {k : ρ → Prog T (State T) Unit} {r : ρ} (h : Tracked img start small who c)
    (hp : c.code t = .step f k) (hf : f t c.st = some (.done r s'))
    (hother : ∀ u, u ≠ t → who' = some u → who = some u)
    (hself : who' = some t → ∀ κ, (who = some t → κ ≠ none) → after κ t c.st s' ≠ none) :
    Tracked img start small who' ⟨s', update c.code t (k r), none⟩ := by
  obtain ⟨gs, hI, hsafe, hκ⟩ := h.followed
  have ht := hsafe t
  rw [hp] at ht
  have hstep := ht c.st gs hI rfl
  rw [hf] at hstep
  obtain ⟨g, ⟨hI', -⟩, hk⟩ := hstep
  refine ⟨⟨update gs t g, hI', ?_, ?_⟩, nofun⟩
  · intro u
    obtain rfl | hu := eq_or_ne u t
    · simpa using hk
    · simpa [hu] using hsafe u
  · intro u
    dsimp only
    obtain rfl | hu := eq_or_ne u t
    · obtain ⟨κ, hloc, hmine, hcare⟩ := hκ u
      rw [hp] at hcare
      have hnext := hcare u c.st (Inv.known_at hI hloc) (Inv.unpinned_eq_zero hI)
      rw [hf] at hnext
      rw [update_self, update_self]
      exact ⟨_, Inv.after_loc hI hI' hloc, fun hw => hself hw κ hmine, hnext⟩
    · rw [update_of_ne hu, update_of_ne hu]
      obtain ⟨κ, hloc, hmine, hcare⟩ := hκ u
      exact ⟨κ, hloc, fun hw => hmine (hother u hu hw), hcare⟩

/-- **Processes are followed from one step to the next.** -/
theorem Tracked.step (hstart : start + LOGBLOCKS < 2 ^ 32) (h : Tracked img start small who c)
    (hs : (machine T start img small).Step c c') (hwho : who ≠ none → c'.st.committing = true) :
    Tracked img start small who c' := by
  obtain ⟨gs, hI, hsafe, hκ⟩ := h.followed
  cases hs with
  | @done t ρ f k r s' hc hp hf =>
    -- what is known of the committing process is kept as long as it commits
    refine h.done hp hf (fun _ _ hw => hw) ?_
    intro hw κ hκt
    have hcom : s'.committing = true := hwho (by rw [hw]; exact nofun)
    cases κ with
    | none => exact absurd rfl (hκt hw)
    | some loc => simp [after, hcom]
  | @again t ρ f k s' hc hp hf =>
    have ht := hsafe t
    rw [hp] at ht
    have hstep := ht c.st gs hI rfl
    rw [hf] at hstep
    exact ⟨⟨gs, hstep.1, hsafe, hκ⟩, nofun⟩
  | @panic t ρ f k msg hc hp hf =>
    obtain ⟨κ, hloc, -, hcare⟩ := hκ t
    rw [hp] at hcare
    have hblame := hcare t c.st (Inv.known_at hI hloc) (Inv.unpinned_eq_zero hI)
    rw [hf] at hblame
    refine ⟨⟨gs, hI, hsafe, hκ⟩, ?_⟩
    rintro _ ⟨⟩
    exact ⟨κ, hblame⟩
  | @call t p hc hp hcall =>
    have hidle := hsafe t
    rw [hp] at hidle
    obtain ⟨g, hI', hp'⟩ := Client.safe hstart hI hidle hcall
    -- a process between two calls does not commit
    have hmine : who ≠ some t := by
      intro hw
      obtain ⟨κ, hloc, hκt, -⟩ := hκ t
      have hκt := hκt hw
      rw [hloc.resolve_left hκt] at hκt
      exact Know.phase_of_loc hκt hidle.1
    refine ⟨⟨update gs t g, hI', ?_, ?_⟩, nofun⟩
    · intro u
      obtain rfl | hu := eq_or_ne u t
      · simpa using hp'
      · simpa [hu] using hsafe u
    · intro u
      dsimp only
      obtain rfl | hu := eq_or_ne u t
      · rw [update_self, update_self]
        exact ⟨none, Or.inl rfl, fun hw => absurd hw hmine, hcall.careful⟩
      · rw [update_of_ne hu, update_of_ne hu]
        exact hκ u
  | env henv =>
    obtain ⟨t0, rfl⟩ := henv
    cases who with
    | none => exact tracked_boot (good_crash hstart (Inv.restartable hI) t0)
    | some t =>
      have hcom : false = true := hwho nofun
      cases hcom

/-- **Processes are followed throughout every run.** -/
theorem tracked_of_reachable (hstart : start + LOGBLOCKS < 2 ^ 32) (himg : header (img start) = [])
    (hc : (machine T start img small).Reachable c) : Tracked img start small none c := by
  induction hc with
  | init h =>
    obtain ⟨t0, rfl⟩ := h
    exact tracked_boot (good_crash hstart (restartable_cold himg) t0)
  | step _ hs ih => exact ih.step hstart hs nofun

/-- Process `t` commits in pool `c`: it has set `log.committing` when it referred to no buffer,
and nobody has reset it since. -/
inductive Commits (M : System T (State T)) (t : T) : Pool T (State T) → Prop where
  | begins {c c' : Pool T (State T)} (hc : M.Reachable c) (hn : c.next t = some c')
      (h : c.st.committing = false) (h' : c'.st.committing = true) (hrefs : c'.st.refs t = 0) :
      Commits M t c'
  | goesOn {c c' : Pool T (State T)} (hc : Commits M t c) (hs : M.Step c c')
      (h : c'.st.committing = true) : Commits M t c'

theorem Commits.tracked (hstart : start + LOGBLOCKS < 2 ^ 32) (himg : header (img start) = [])
    (h : Commits (machine T start img small) t c) : Tracked img start small (some t) c := by
  induction h with
  | @begins c c' hc hn h h' hrefs =>
    have htr := tracked_of_reachable hstart himg hc
    obtain ⟨gs, hI, hsafe, -⟩ := htr.followed
    unfold Pool.next at hn
    split at hn
    · rename_i ρ f k hh hp
      split at hn
      · rename_i r s' hf
        cases hn
        refine htr.done hp hf ?_ ?_
        · intro u hu hw
          exact absurd (Option.some_injective _ hw).symm hu
        · intro _ κ _
          cases κ with
          | none => simpa [after, h] using ⟨h', hrefs⟩
          | some loc => simpa [after] using h'
      · rename_i s' hf
        cases hn
        -- waiting does not make a process commit
        have ht := hsafe t
        rw [hp] at ht
        have hstep := ht c.st gs hI rfl
        rw [hf] at hstep
        obtain ⟨u, loc, hloc⟩ := Inv.exists_loc hstep.1 h'
        have hcom := (Inv.loc_at hI hloc).2
        rw [h] at hcom
        cases hcom
      · cases hn
        have h' : c.st.committing = true := h'
        rw [h] at h'
        cases h'
      · cases hn
    · cases hn
  | goesOn _ hs h ih => exact ih.step hstart hs fun _ => h

/-! ### The panics -/

/-- The buffers that processes other than `t` refer to. -/
def State.others (s : State T) (t : T) : Finset (Fin NBUF) :=
  Finset.univ.filter fun i => ∃ u, u ≠ t ∧ 0 < s.refs u i

omit [DecidableEq T] in
theorem CacheInv.card_pinned {cache : Cache T} {pins : List ℕ} {view : ℕ → Block}
    {ks : T → Fin NBUF → Tag} (h : CacheInv cache pins view ks) :
    (Finset.univ.filter fun i => (cache.buf i).dev = ROOTDEV ∧ (cache.buf i).blockno ∈ pins).card ≤
      pins.length := by
  refine le_trans (Finset.card_le_card_of_injOn (t := pins.toFinset)
    (fun i => (cache.buf i).blockno)
    ?_ ?_) (List.toFinset_card_le pins)
  · intro i hi
    simpa using (Finset.mem_filter.mp hi).2.2
  · intro i hi j hj hij
    have hi := (Finset.mem_filter.mp hi).2.1
    have hj := (Finset.mem_filter.mp hj).2.1
    exact h.uniq i j (by rw [hi]; decide) (hi.trans hj.symm) hij

omit [DecidableEq T] in
theorem CacheInv.cached_of_pinned {view : ℕ → Block} {ks : T → Fin NBUF → Tag}
    (h : CacheInv s.toCache s.pins view ks) {b : ℕ} (hb : b ∈ s.pins) :
    s.cached ROOTDEV b ≠ none := by
  intro hc
  obtain ⟨i, hdev, hno, -⟩ := h.pinned b hb
  have := List.find?_eq_none.mp hc i (h.mem_lru i)
  simp [hdev, hno] at this

/-- A panic in the next step is to be blamed on the state. -/
theorem Tracked.blame_next (h : Tracked img start small (some t) c) {msg : String}
    (hn : c.next t = some c') (hh : c'.halted = some msg) : ∃ gs loc,
    Inv img start small c.st gs ∧ (gs t).loc = some loc ∧ Blame (some loc) c.st msg := by
  obtain ⟨gs, hI, -, hκ⟩ := h.followed
  obtain ⟨κ, hloc, hmine, hcare⟩ := hκ t
  obtain ⟨loc, rfl⟩ := Option.ne_none_iff_exists'.mp (hmine rfl)
  refine ⟨gs, loc, hI, (hloc.resolve_left nofun).symm, ?_⟩
  unfold Pool.next at hn
  split at hn
  · rename_i ρ f k hc hp
    rw [hp] at hcare
    have hstep := hcare t c.st (Inv.known_at hI hloc) (Inv.unpinned_eq_zero hI)
    split at hn
    · cases hn
      cases hh
    · cases hn
      cases hh
    · rename_i msg' hf
      cases hn
      cases hh
      rwa [hf] at hstep
    · cases hn
  · cases hn

/-- Every buffer is pinned or some other process refers to it. -/
theorem Inv.buffers_taken (h : Inv img start small s gs) (hrefs : s.refs t = 0)
    (hfull : ∀ i ∈ s.lru, (s.buf i).refcnt ≠ 0) : NBUF ≤ s.pins.length + (s.others t).card := by
  have hcover : (Finset.univ : Finset (Fin NBUF)) ⊆
      (Finset.univ.filter fun i => (s.buf i).dev = ROOTDEV ∧ (s.buf i).blockno ∈ s.pins) ∪
        s.others t := by
    intro i _
    have hne := hfull i (h.cache.mem_lru i)
    rw [(h.cache.buf i).refcnt] at hne
    by_cases hpin : (s.buf i).dev = ROOTDEV ∧ (s.buf i).blockno ∈ s.pins
    · exact Finset.mem_union_left _ (by simpa using hpin)
    · rw [if_neg hpin, Nat.add_zero] at hne
      obtain ⟨u, -, hu⟩ := Finset.exists_ne_zero_of_sum_ne_zero hne
      rw [← h.cache.refs u i] at hu
      have hut : u ≠ t := by
        rintro rfl
        rw [hrefs] at hu
        exact hu rfl
      exact Finset.mem_union_right _ (by simpa [State.others] using ⟨u, hut, Nat.pos_of_ne_zero hu⟩)
  calc NBUF = (Finset.univ : Finset (Fin NBUF)).card := (Finset.card_fin NBUF).symm
    _ ≤ _ := Finset.card_le_card hcover
    _ ≤ _ := Finset.card_union_le _ _
    _ ≤ _ := Nat.add_le_add_right h.cache.card_pinned _

/-- **A commit finds a buffer, if the blocks in the log and the buffers that other processes refer
to are fewer than the buffers.** -/
theorem commit_needs_buffers (hstart : start + LOGBLOCKS < 2 ^ 32) (himg : header (img start) = [])
    (h : Commits (machine T start img True) t c)
    (hroom : c.st.lh.length + (c.st.others t).card < NBUF)
    (hn : c.next t = some c') : c'.halted ≠ some "bget: no buffers" := by
  intro hh
  obtain ⟨gs, loc, hI, hloc, hblame⟩ := (h.tracked hstart himg).blame_next hn hh
  have hat := (hI.loc_at hloc).1
  have hup := hI.up_of_loc (by rw [hloc]; exact nofun)
  have hpins : c.st.pins = c.st.lh.drop c.st.unpinned := by simp [LogDisk.pins, hup]
  rw [← hat] at hblame
  rcases hblame.buffers rfl _ rfl with ⟨hzero, hfull⟩ | ⟨b, hb, hmiss⟩
  · have hle := hI.buffers_taken hzero hfull
    have hlen : c.st.pins.length ≤ c.st.lh.length := by
      rw [hpins, List.length_drop]
      exact Nat.sub_le _ _
    omega
  · have hb : b ∈ c.st.pins := by
      rwa [hpins]
    exact hI.cache.cached_of_pinned hb hmiss

omit [DecidableEq T] in
theorem OpInv.used_up (h : OpInv start True s.toLogDisk) (hfull : LOGBLOCKS ≤ s.lh.length) {o : Op}
    (ho : s.op t = some o) : o.logged.card = MAXOPBLOCKS := by
  have hres := h.reserved trivial
  have hle := le_sum s.op t reserve
  have hfew := h.few trivial t o ho
  rw [ho] at hle
  simp only [reserve] at hle hres
  omega

omit [Fintype T] in
theorem log_write_panics_iff (hshort : s.lh.length ≤ LOGBLOCKS) {i : Fin NBUF} :
    (log_write i).run t s = .panic "too big a transaction" ↔ s.lh.length = LOGBLOCKS := by
  constructor
  · intro hrun
    by_contra hne
    have hlt : ¬ s.lh.length ≥ LOGBLOCKS := by omega
    simp only [log_write, Prog.atomic, Prog.run, if_neg hlt] at hrun
    split_ifs at hrun
    simp at hrun
  · intro hlen
    simp [log_write, Prog.atomic, Prog.run, hlen]

/-- **`log_write` panics for want of room only when every outstanding operation has logged all it
may**, and then it does so for every block; as long as one of them may log another block, no
`log_write` does. -/
theorem log_too_big_iff (hstart : start + LOGBLOCKS < 2 ^ 32) (himg : header (img start) = [])
    (hc : (machine T start img True).Reachable c) :
    (c.halted = some "too big a transaction" → c.st.lh.length = LOGBLOCKS ∧
      ∀ t o, c.st.op t = some o → o.logged.card = MAXOPBLOCKS) ∧
    (∀ t i, (log_write i).run t c.st = .panic "too big a transaction" ↔
      c.st.lh.length = LOGBLOCKS) ∧
    ∀ t o, c.st.op t = some o → o.logged.card < MAXOPBLOCKS →
      ∀ u i, (log_write i).run u c.st ≠ .panic "too big a transaction" := by
  have htr := tracked_of_reachable hstart himg hc
  obtain ⟨gs, hI, -⟩ := htr.followed
  have hops : OpInv start True c.st.toLogDisk := hI.ops
  have hshort := hops.short
  refine ⟨fun hh => ?_, fun t i => log_write_panics_iff hshort, fun t o ho hlt u i hrun => ?_⟩
  · obtain ⟨κ, hblame⟩ := htr.blamed _ hh
    have hfull := hblame.full rfl
    exact ⟨le_antisymm hshort hfull, fun t o ho => hops.used_up hfull ho⟩
  · have hfull := (log_write_panics_iff hshort).mp hrun
    exact hlt.ne (hops.used_up hfull.ge ho)

/-! ### Three operations that fill the log -/

/-- Ten blocks from `b` on. -/
def logTen (t : Fin 3) (b : ℕ) : List Cmd := (List.range 10).map fun k => .log t (b + k) 1

/-- Three processes log ten blocks each. -/
def fillLog : List Cmd :=
  [.begin_op 0, .begin_op 1, .begin_op 2] ++ logTen 0 100 ++ logTen 1 110 ++ logTen 2 120

/-- **An operation logs one of its blocks again when the log is full**: each of the three has
logged ten blocks, and the log needs no room for the eleventh `log_write`, which panics. -/
theorem relogged_in_full_log : ∃ c, (three True).Reachable c ∧
    c.halted = some "too big a transaction" := by
  have hrun : ((script (fillLog ++ [.read 0 100])).bind fun s => (s.cached ROOTDEV 100).bind
      fun i =>
      (s.op 0).map fun o => decide (MayLog 0 s i o ∧ s.lh.length = LOGBLOCKS)) = some true := by
    decide +kernel
  obtain ⟨s, hs, hrun⟩ := Option.bind_eq_some_iff.mp hrun
  obtain ⟨i, -, hrun⟩ := Option.bind_eq_some_iff.mp hrun
  obtain ⟨o, ho, hrun⟩ := Option.map_eq_some_iff.mp hrun
  obtain ⟨hmay, hlen⟩ := of_decide_eq_true hrun
  have hc : (three True).Reachable (quiet s) := quiet_script hs
  refine hc.call_panic (t := 0) rfl rfl (hmay.client ho) ?_
  simp [log_write, Prog.atomic, Prog.run, quiet, hlen]

/-- A process is about to end its operation, the other two have ended theirs. -/
def lastEnds (cmds : List Cmd) : Option (Pool (Fin 3) (State (Fin 3))) :=
  (script (cmds ++ [.end_op 0, .end_op 1])).bind (ending 2)

theorem lastEnds_reachable {cmds : List Cmd} {c : Pool (Fin 3) (State (Fin 3))} {small : Prop}
    (h : lastEnds cmds = some c) : (three small).Reachable c := by
  obtain ⟨s, hs, h⟩ := Option.bind_eq_some_iff.mp h
  exact ending_reachable (quiet_script hs) h

/-- The commit of the last `end_op`, before and after it asks for its first buffer: its first three
steps set `log.committing` and look at the list of blocks twice. -/
theorem exists_bget {P : Pool (Fin 3) (State (Fin 3)) → Pool (Fin 3) (State (Fin 3)) → Prop}
    [∀ c c', Decidable (P c c')] (cmds : List Cmd)
    (hrun : ((lastEnds cmds).bind fun c0 => (c0.next 2).bind fun c1 => (c1.next 2).bind fun c2 =>
      (c2.next 2).bind fun c3 => (c3.next 2).map fun c4 =>
        decide (c0.st.committing = false ∧ c1.st.committing = true ∧ (∀ i, c1.st.refs 2 i = 0) ∧
          c2.st.committing = true ∧ c3.st.committing = true ∧ P c3 c4)) = some true) :
    ∃ c c', Commits (three True) 2 c ∧ c.next 2 = some c' ∧ P c c' := by
  obtain ⟨c0, h0, hrun⟩ := Option.bind_eq_some_iff.mp hrun
  obtain ⟨c1, h1, hrun⟩ := Option.bind_eq_some_iff.mp hrun
  obtain ⟨c2, h2, hrun⟩ := Option.bind_eq_some_iff.mp hrun
  obtain ⟨c3, h3, hrun⟩ := Option.bind_eq_some_iff.mp hrun
  obtain ⟨c4, h4, hrun⟩ := Option.map_eq_some_iff.mp hrun
  obtain ⟨hno, hcom1, hrefs, hcom2, hcom3, hP⟩ := of_decide_eq_true hrun
  have hbegins : Commits (three True) 2 c1 :=
    .begins (lastEnds_reachable h0) h1 hno hcom1 (funext hrefs)
  have hlook := hbegins.goesOn (System.step_of_next h2) hcom2
  exact ⟨c3, c4, hlook.goesOn (System.step_of_next h3) hcom3, h4, hP⟩

/-- **A commit finds no buffer**: three operations have logged ten blocks each, nobody refers to a
buffer any more, and the commit panics when it reads the first log block. -/
theorem commit_finds_no_buffer : ∃ c c', Commits (three True) 2 c ∧
    (∀ u i, c.st.refs u i = 0) ∧ c.next 2 = some c' ∧ c'.halted = some "bget: no buffers" := by
  obtain ⟨c, c', hc, hn, hnone, hpanic⟩ := exists_bget
    (P := fun c c' => (∀ u i, c.st.refs u i = 0) ∧ c'.halted = some "bget: no buffers")
    fillLog (by decide +kernel)
  exact ⟨c, c', hc, hnone, hn, hpanic⟩

/-- One block is logged, and the commit takes a buffer for the first log block. -/
theorem commit_needs_buffers_one : ∃ c c', Commits (three True) 2 c ∧
    c.st.lh.length + (c.st.others 2).card < NBUF ∧ (∀ i, c.st.refs 2 i = 0) ∧
    c.next 2 = some c' ∧ (∃ i, c'.st.refs 2 i = 1) ∧ c'.halted ≠ some "bget: no buffers" := by
  obtain ⟨c, c', hc, hn, hnone, hroom, hone⟩ := exists_bget
    (P := fun c c' => (∀ i, c.st.refs 2 i = 0) ∧ c.st.lh.length + (c.st.others 2).card < NBUF ∧
      ∃ i, c'.st.refs 2 i = 1)
    [.begin_op 0, .begin_op 1, .begin_op 2, .log 0 100 1] (by decide +kernel)
  exact ⟨c, c', hc, hroom, hnone, hn, hone,
    commit_needs_buffers (by decide) (by decide) hc hroom hn⟩

/-- The log is not full after one block, and its operation may log nine more. -/
theorem log_too_big_one : ∃ c, (three True).Reachable c ∧ c.st.lh.length = 1 ∧
    ∀ t i, (log_write i).run t c.st ≠ .panic "too big a transaction" := by
  obtain ⟨s, hs, hlen, hop⟩ := exists_of_script True
    (P := fun s => s.lh.length = 1 ∧ (s.op 0).any fun o => decide (o.logged.card < MAXOPBLOCKS))
    [.begin_op 0, .log 0 100 1] (by decide +kernel)
  obtain ⟨o, ho, hfew⟩ := (Option.any_eq_true _ _).mp hop
  exact ⟨quiet s, hs, hlen, (log_too_big_iff (by decide) (by decide) hs).2.2 0 o ho
    (of_decide_eq_true hfew)⟩

end Xv6.Log
