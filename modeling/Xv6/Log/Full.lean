import Xv6.Log.Machine

/-!
# What a process has taken when it finds no buffer

`bget` panics when every buffer is referred to, and `log_write` when the log is
full.  To say what led there, every program of `Xv6.Log.Model` is followed with
what the process that commits knows for sure (`Loc`): the references it has
taken, the blocks in the log and how many of them it has unpinned.  Nobody else
can change any of these while it commits.

A commit reads a log block and then, holding it, the block that goes there.  The
second is pinned, hence in the cache; so the commit looks for a buffer only while
it refers to none itself.

## Main definitions

* `Loc` — what the process that commits knows.
* `Blame` — what is the case when a program panics.
* `Careful` — a program, followed with that knowledge.

## Main results

* `careful_commit` — **a commit looks for a buffer only while it refers to none.**
* `Client.careful`, `careful_boot` — every program of the machine can be followed.
-/


namespace Xv6.Log

open Conc Function

variable {T : Type} {start : ℕ} {α β : Type}

/-! ### Following a process -/

/-- What the process that commits knows. -/
structure Loc where
  /-- The references it has taken. -/
  refs : Fin NBUF → ℕ
  /-- The blocks in the log. -/
  lh : List ℕ
  /-- How many of them it has unpinned. -/
  unpinned : ℕ

/-- What process `t` would know in state `s`, if it commits. -/
def State.loc (s : State T) (t : T) : Loc := ⟨s.refs t, s.lh, s.unpinned⟩

/-- What is known is the case. -/
def Loc.At (loc : Loc) (t : T) (s : State T) : Prop := s.loc t = loc ∧ s.committing = true

/-- What process `t` knows after a step from `s` to `s'`, if it knew `κ` before: it commits from
the step on by which it sets `log.committing`.  A process that does so while it still refers to
a buffer is not followed. -/
def after (κ : Option Loc) (t : T) (s s' : State T) : Option Loc :=
  match κ with
  | some _ => if s'.committing then some (s'.loc t) else none
  | none => if s.committing = false ∧ s'.committing = true ∧
    s'.refs t = 0 then some (s'.loc t) else none

/-- What is the case when process `t`, knowing `κ`, panics: the log is full; all buffers are
referred to, and `t` refers to none if it commits, or it asks for a pinned block that is not in
the cache. -/
structure Blame (κ : Option Loc) (s : State T) (msg : String) : Prop where
  full : msg = "too big a transaction" → LOGBLOCKS ≤ s.lh.length
  buffers : msg = "bget: no buffers" → ∀ loc, κ = some loc →
    loc.refs = 0 ∧ (∀ i ∈ s.lru, (s.buf i).refcnt ≠ 0) ∨
      ∃ b ∈ loc.lh.drop loc.unpinned, s.cached ROOTDEV b = none

/-- A step of a process that knows `κ`.  Only a commit unpins. -/
def StepCareful (f : T → State T → Option (Outcome (State T) α)) (κ : Option Loc)
    (Q : α → Option Loc → Prop) : Prop :=
  ∀ t s, (∀ loc, κ = some loc → loc.At t s) → (s.committing = false → s.unpinned = 0) →
    match f t s with
    | some (.done r s') => Q r (after κ t s s')
    | some (.again _) => True
    | some (.panic msg) => Blame κ s msg
    | none => True

/-- A process that knows `κ` runs a program; `Q` holds of the result and of what it knows then. -/
def Careful : Prog T (State T) α → Option Loc → (α → Option Loc → Prop) → Prop
  | .ret a, κ, Q => Q a κ
  | .step f k, κ, Q => StepCareful f κ fun r κ' => Careful (k r) κ' Q

variable {κ : Option Loc} {Q Q' : α → Option Loc → Prop}

theorem StepCareful.mono {f : T → State T → Option (Outcome (State T) α)} (h : StepCareful f κ Q)
    (hQ : ∀ r κ', Q r κ' → Q' r κ') : StepCareful f κ Q' := by
  intro t s hat hun
  have := h t s hat hun
  cases hf : f t s with
  | none => trivial
  | some o =>
    rw [hf] at this
    cases o with
    | done r s' => exact hQ _ _ this
    | again s' => trivial
    | panic msg => exact this

theorem Careful.bind {p : Prog T (State T) α} {f : α → Prog T (State T) β}
    {R : α → Option Loc → Prop} {Q : β → Option Loc → Prop} (h : Careful p κ R)
    (hf : ∀ a κ', R a κ' → Careful (f a) κ' Q) : Careful (p >>= f) κ Q := by
  induction p generalizing κ with
  | ret a => exact hf a κ h
  | step g k ih => exact StepCareful.mono h fun r κ' hr => ih r hr

theorem Careful.seq {p : Prog T (State T) α} {f : α → Prog T (State T) β}
    {Q : β → Option Loc → Prop} (h : Careful p κ fun a κ' => Careful (f a) κ' Q) :
    Careful (p >>= f) κ Q :=
  h.bind fun _ _ hf => hf

theorem after_map {t : T} {s s' : State T} {g : Loc → Loc} (hat : ∀ loc, κ = some loc → loc.At t s)
    (hcom : s'.committing = s.committing) (hloc : s'.loc t = g (s.loc t)) :
    after κ t s s' = κ.map g := by
  cases κ with
  | none =>
    refine if_neg ?_
    rintro ⟨h, h', -⟩
    rw [hcom, h] at h'
    cases h'
  | some loc =>
    obtain ⟨h, hc⟩ := hat loc rfl
    rw [Option.map_some, ← h, ← hloc]
    refine if_pos ?_
    rw [hcom, hc]

theorem after_eq_self {t : T} {s s' : State T} (hat : ∀ loc, κ = some loc → loc.At t s)
    (hcom : s'.committing = s.committing) (hloc : s'.loc t = s.loc t) : after κ t s s' = κ := by
  rw [after_map (g := id) hat hcom hloc, Option.map_id, id]

variable {Q : Unit → Option Loc → Prop} {f : T → State T → State T}

theorem careful_act {g : Loc → Loc} (hcom : ∀ t s, (f t s).committing = s.committing)
    (hloc : ∀ t s, (f t s).loc t = g (s.loc t)) (hQ : Q () (κ.map g)) :
    Careful (Prog.act f : Prog T (State T) Unit) κ Q := by
  intro t s hat _
  show Q () (after κ t s (f t s))
  rwa [after_map hat (hcom t s) (hloc t s)]

theorem careful_act_self
    (hf : ∀ t s, (f t s).committing = s.committing ∧ (f t s).loc t = s.loc t) (hQ : Q () κ) :
    Careful (Prog.act f : Prog T (State T) Unit) κ Q :=
  careful_act (g := id) (fun t s => (hf t s).1) (fun t s => (hf t s).2) (by rwa [Option.map_id])

theorem careful_act_none (hcom : ∀ t s, (f t s).committing = s.committing) (hQ : Q () none) :
    Careful (Prog.act f : Prog T (State T) Unit) none Q := by
  intro t s hat _
  show Q () (after none t s (f t s))
  rwa [after_map (g := fun _ => (f t s).loc t) hat (hcom t s) rfl]

/-! ### bio.c -/

def Loc.setRef (loc : Loc) (i : Fin NBUF) (n : ℕ) : Loc :=
  { loc with refs := Function.update loc.refs i n }

/-- A reference more. -/
def Loc.take (i : Fin NBUF) (loc : Loc) : Loc := loc.setRef i (loc.refs i + 1)

/-- A reference less. -/
def Loc.give (i : Fin NBUF) (loc : Loc) : Loc := loc.setRef i (loc.refs i - 1)

@[simp] theorem Loc.give_take (loc : Loc) (i : Fin NBUF) : (loc.take i).give i = loc := by
  simp [Loc.take, Loc.give, Loc.setRef]

@[simp] theorem Loc.give_take_take (loc : Loc) (i j : Fin NBUF) :
    ((loc.take i).take j).give i = loc.take j := by
  obtain rfl | h := eq_or_ne i j
  · exact (loc.take i).give_take i
  · simp only [Loc.take, Loc.give, Loc.setRef, update_of_ne h,
      update_of_ne (Ne.symm h), update_self, Nat.add_sub_cancel]
    congr 1
    rw [update_comm h, update_idem, update_comm (Ne.symm h),
      update_eq_self]

variable [DecidableEq T]

/-- `bread` takes a reference.  A process that commits asks for a buffer while it refers to none,
or for a block that is pinned. -/
theorem careful_bread {dev b : ℕ} {Q : Fin NBUF → Option Loc → Prop}
    (hmiss : ∀ loc, κ = some loc → loc.refs = 0 ∨ dev = ROOTDEV ∧ b ∈ loc.lh.drop loc.unpinned)
    (hQ : ∀ i, Q i (κ.map (Loc.take i))) :
    Careful (bread dev b : Prog T (State T) (Fin NBUF)) κ Q := by
  unfold bread
  refine Careful.bind (R := fun i κ' => κ' = κ.map (Loc.take i)) ?_ ?_
  · intro t s hat _
    have htake : ∀ (i : Fin NBUF) (g : Buf T → Buf T), after κ t s
        ((s.setBuf i g).setRefs t i (s.refs t i + 1)) =
        κ.map (Loc.take i) := by
      intro i g
      refine after_map hat rfl ?_
      simp [State.loc, State.setRefs, State.setBuf, Loc.take, Loc.setRef]
    dsimp only
    cases hc : s.cached dev b with
    | some i => exact htake i _
    | none =>
      cases hu : s.unused with
      | some i =>
        show Careful (Prog.ret i) _ _
        exact htake i _
      | none =>
        show Blame κ s _
        refine ⟨by simp, ?_⟩
        intro _ loc hloc
        rcases hmiss loc hloc with h | ⟨rfl, h⟩
        · -- every buffer is in use, and not by the caller
          refine Or.inl ⟨h, ?_⟩
          intro i hi
          have := List.find?_eq_none.mp hu i (List.mem_reverse.mpr hi)
          simpa using this
        · exact Or.inr ⟨b, h, hc⟩
  · intro i κ' hκ
    refine Careful.bind (R := fun _ κ'' => κ'' = κ') ?_ ?_
    · intro t s hat _
      dsimp only
      cases (s.buf i).lock with
      | none => exact after_eq_self hat rfl rfl
      | some u => trivial
    · intro _ κ'' hκ'
      subst hκ'
      refine Careful.bind (R := fun _ κ3 => κ3 = κ'') (careful_act_self ?_ rfl) ?_
      · intro t s
        unfold State.noteRead
        dsimp only
        split_ifs <;> exact ⟨rfl, rfl⟩
      · intro _ κ3 hκ3
        rw [hκ3, hκ]
        exact hQ i

variable {i : Fin NBUF}

theorem careful_bwrite (hQ : Q () κ) : Careful (bwrite start i : Prog T (State T) Unit) κ Q := by
  intro t s hat _
  dsimp only
  split_ifs
  · show Q () (after κ t s (s.diskWrite start i))
    have hsame : after κ t s (s.diskWrite start i) = κ := after_eq_self hat rfl rfl
    rwa [hsame]
  · exact ⟨nofun, nofun⟩

theorem careful_brelse (hQ : Q () (κ.map (Loc.give i))) :
    Careful (brelse i : Prog T (State T) Unit) κ Q := by
  unfold brelse
  refine Careful.bind (R := fun _ κ' => κ' = κ) ?_ ?_
  · intro t s hat _
    dsimp only
    split_ifs
    · exact after_eq_self hat rfl rfl
    · exact ⟨nofun, nofun⟩
  · intro _ κ' hκ
    subst hκ
    refine careful_act (g := Loc.give i) ?_ ?_ hQ
    · intro t s
      unfold State.unref
      dsimp only
      split_ifs <;> rfl
    · intro t s
      unfold State.unref
      dsimp only
      split_ifs <;> simp [State.loc, State.setRefs, State.setBuf, Loc.give, Loc.setRef]

/-! ### log.c -/

omit [DecidableEq T] in
theorem careful_setData {d : State T → Block}
    (hQ : Q () κ) : Careful (.act fun _ s => s.setData i (d s) : Prog T (State T) Unit) κ Q :=
  careful_act_self (fun _ _ => ⟨rfl, rfl⟩) hQ

/-- What is known of a process that commits and refers to no buffer. -/
def Clear (κ : Option Loc) : Prop := ∀ loc, κ = some loc → loc.refs = 0

theorem careful_write_head (hclear : Clear κ) (hQ : Q () κ) :
    Careful (write_head start : Prog T (State T) Unit) κ Q := by
  unfold write_head
  refine Careful.seq (careful_bread (fun loc hloc => Or.inl (hclear loc hloc)) fun i => ?_)
  refine Careful.seq (careful_setData ?_)
  refine Careful.seq (careful_bwrite ?_)
  refine careful_brelse ?_
  simpa [Function.comp_def] using hQ

omit [DecidableEq T] in
theorem careful_look_lh {Q : List ℕ → Option Loc → Prop}
    (hQ : ∀ lh, (∀ loc, κ = some loc → loc.lh = lh) → Q lh κ) :
    Careful (.look fun s => s.lh : Prog T (State T) (List ℕ)) κ Q := by
  intro t s hat _
  show Q s.lh (after κ t s s)
  have hsame : after κ t s s = κ := after_eq_self hat rfl rfl
  rw [hsame]
  refine hQ s.lh ?_
  intro loc hloc
  rw [← (hat loc hloc).1]
  rfl

/-- The blocks that are copied to the log are pinned. -/
theorem careful_writeFrom {bs : List ℕ} {tail : ℕ} (hclear : Clear κ)
    (hpins : ∀ loc, κ = some loc → ∀ b ∈ bs, b ∈ loc.lh.drop loc.unpinned) (hQ : Q () κ) :
    Careful (writeFrom start tail bs : Prog T (State T) Unit) κ Q := by
  induction bs generalizing tail with
  | nil => exact hQ
  | cons b bs ih =>
    rw [writeFrom]
    refine Careful.seq (careful_bread (fun loc hloc => Or.inl (hclear loc hloc)) fun i => ?_)
    refine Careful.seq (careful_bread (fun loc hloc => ?_) fun j => ?_)
    · obtain ⟨loc0, h0, rfl⟩ := Option.map_eq_some_iff.mp hloc
      exact Or.inr ⟨rfl, hpins loc0 h0 b List.mem_cons_self⟩
    refine Careful.seq (careful_setData ?_)
    refine Careful.seq (careful_bwrite ?_)
    refine Careful.seq (careful_brelse ?_)
    refine Careful.seq (careful_brelse ?_)
    simp only [Option.map_map, Function.comp_def, Loc.give_take, Option.map_id']
    exact ih fun loc hloc b hb => hpins loc hloc b (List.mem_cons_of_mem _ hb)

/-- A block is unpinned. -/
def Loc.unpin (loc : Loc) : Loc := { loc with unpinned := loc.unpinned + 1 }

omit [DecidableEq T] in
theorem careful_unpin {recovering : Bool}
    (hrec : recovering = true → κ = none) (hQ : Q () (κ.map Loc.unpin)) :
    Careful (unpin recovering i : Prog T (State T) Unit) κ Q := by
  cases recovering with
  | true =>
    rw [hrec rfl] at hQ ⊢
    exact hQ
  | false => exact careful_act (fun _ _ => rfl) (fun _ _ => rfl) hQ

@[simp] theorem Loc.unpin_take (loc : Loc) (i : Fin NBUF) : (loc.take i).unpin = loc.unpin.take i :=
  rfl

/-- The blocks that are installed are pinned until they are written. -/
theorem careful_installFrom {recovering : Bool} {bs : List ℕ} {tail : ℕ} (hclear : Clear κ)
    (hrec : recovering = true → κ = none)
    (hpins : ∀ loc, κ = some loc → loc.lh.drop loc.unpinned = bs) :
    Careful (installFrom start recovering tail bs : Prog T (State T) Unit) κ fun _ κ' =>
      Clear κ' := by
  induction bs generalizing tail κ with
  | nil => exact hclear
  | cons b bs ih =>
    rw [installFrom]
    refine Careful.seq (careful_bread (fun loc hloc => Or.inl (hclear loc hloc)) fun i => ?_)
    refine Careful.seq (careful_bread (fun loc hloc => ?_) fun j => ?_)
    · -- the home block is still pinned, so it is in the cache
      obtain ⟨loc0, h0, rfl⟩ := Option.map_eq_some_iff.mp hloc
      refine Or.inr ⟨rfl, ?_⟩
      show b ∈ loc0.lh.drop loc0.unpinned
      rw [hpins loc0 h0]
      exact List.mem_cons_self
    refine Careful.seq (careful_setData ?_)
    refine Careful.seq (careful_bwrite ?_)
    refine Careful.seq (careful_unpin (fun h => by rw [hrec h]; rfl) ?_)
    refine Careful.seq (careful_brelse ?_)
    refine Careful.seq (careful_brelse ?_)
    simp only [Option.map_map, Function.comp_def, Loc.unpin_take, Loc.give_take_take, Loc.give_take]
    refine ih ?_ ?_ ?_
    · intro loc hloc
      obtain ⟨loc0, h0, rfl⟩ := Option.map_eq_some_iff.mp hloc
      exact hclear loc0 h0
    · intro h
      rw [hrec h]
      rfl
    · intro loc hloc
      obtain ⟨loc0, h0, rfl⟩ := Option.map_eq_some_iff.mp hloc
      show loc0.lh.drop (loc0.unpinned + 1) = bs
      rw [← List.drop_drop, hpins loc0 h0]
      rfl

omit [DecidableEq T] in
theorem careful_clearHead (hclear : Clear κ) :
    Careful (clearHead : Prog T (State T) Unit) κ fun _ κ' => Clear κ' := by
  refine careful_act (g := fun loc => { loc with lh := [], unpinned := 0 }) (fun _ _ => rfl)
    (fun _ _ => rfl) ?_
  intro loc hloc
  obtain ⟨loc0, h0, rfl⟩ := Option.map_eq_some_iff.mp hloc
  exact hclear loc0 h0

/-- **A commit looks for a buffer only while it refers to none.** -/
theorem careful_commit (hclear : Clear κ) (hun : ∀ loc, κ = some loc → loc.unpinned = 0) :
    Careful (commit start : Prog T (State T) Unit) κ fun _ _ => True := by
  unfold commit
  refine Careful.seq (careful_look_lh fun lh _ => ?_)
  split_ifs
  · unfold write_log install_trans
    refine Careful.seq (Careful.seq (careful_look_lh fun lh hlh => careful_writeFrom hclear ?_ ?_))
    · intro loc hloc b hb
      rwa [hun loc hloc, hlh loc hloc]
    refine Careful.seq (careful_write_head hclear ?_)
    refine Careful.bind (R := fun _ κ' => Clear κ')
      (Careful.seq (careful_look_lh fun lh hlh => careful_installFrom hclear nofun ?_)) ?_
    · intro loc hloc
      rw [hun loc hloc, hlh loc hloc]
      rfl
    intro _ κ4 h4
    refine Careful.bind (careful_clearHead h4) ?_
    intro _ κ5 h5
    exact careful_write_head h5 trivial
  · trivial

/-- A process that ends its operation commits if it was the last. -/
theorem careful_end_op : Careful (end_op start : Prog T (State T) Unit) none fun _ _ => True := by
  unfold end_op
  refine Careful.bind (R := fun _ κ => Clear κ ∧ ∀ loc, κ = some loc → loc.unpinned = 0) ?_ ?_
  · intro t s _ hun
    -- it is followed if it refers to no buffer
    have hnew : ∀ s' : State T, s'.unpinned = s.unpinned → s.committing = false →
        Clear (after none t s s') ∧ ∀ loc, after none t s s' = some loc → loc.unpinned = 0 := by
      intro s' hs' hcom
      unfold after
      dsimp only
      split_ifs with h
      · refine ⟨?_, ?_⟩
        · rintro loc ⟨⟩
          exact h.2.2
        · rintro loc ⟨⟩
          exact hs'.trans (hun hcom)
      · exact ⟨nofun, nofun⟩
    dsimp only
    split_ifs with hcom
    · exact ⟨nofun, nofun⟩
    · exact hnew _ rfl (Bool.eq_false_of_not_eq_true hcom)
    · exact hnew _ rfl (Bool.eq_false_of_not_eq_true hcom)
  · rintro last κ ⟨hclear, hun⟩
    split_ifs
    · refine Careful.bind (careful_commit hclear hun) ?_
      intro _ κ' _ t s _ _
      trivial
    · trivial

/-! ### The programs of the machine -/

/-- **Every call of a client can be followed.** -/
theorem Client.careful {small : Prop} {t : T} {s : State T} {p : Prog T (State T) Unit}
    (h : Client start small t s p) : Careful p none fun _ _ => True := by
  cases h with
  | begin_op hup hop =>
    intro t s _ _
    dsimp only
    split_ifs <;> trivial
  | bread hup dev b hb =>
    exact Careful.bind (R := fun _ _ => True) (careful_bread nofun fun _ => trivial) fun _ _ _ =>
      trivial
  | modify i d hop hl hd hb => exact careful_setData trivial
  | log_write i o hop hl hd hb hsmall =>
    intro t s _ _
    dsimp only
    split_ifs with hfull
    · exact ⟨fun _ => hfull, nofun⟩
    · exact ⟨nofun, nofun⟩
    · trivial
    · trivial
  | brelse i hl hd => exact careful_brelse trivial
  | end_op hop => exact careful_end_op

theorem careful_recover_from_log :
    Careful (recover_from_log start : Prog T (State T) Unit) none fun _ _ => True := by
  unfold recover_from_log read_head install_trans
  refine Careful.seq (Careful.seq (careful_bread nofun fun i => ?_))
  refine Careful.seq (careful_act_none (fun _ _ => rfl) (careful_brelse ?_))
  refine Careful.bind (R := fun _ κ => Clear κ) (Careful.seq (careful_look_lh fun lh _ => ?_)) ?_
  · exact careful_installFrom nofun (fun _ => rfl) nofun
  intro _ κ hκ
  refine Careful.bind (careful_clearHead hκ) ?_
  intro _ κ' hκ'
  exact careful_write_head hκ' trivial

theorem careful_boot (t0 t : T) :
    Careful (bootCode start t0 t : Prog T (State T) Unit) none fun _ _ => True := by
  obtain rfl | ht := eq_or_ne t t0
  · simp only [bootCode, update_self]
    refine Careful.bind careful_recover_from_log ?_
    intro _ κ _ t s _ _
    trivial
  · simp only [bootCode, update_of_ne ht]
    trivial

end Xv6.Log
