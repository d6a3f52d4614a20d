import Xv6.Log.Commit
import Mathlib.Algebra.BigOperators.Ring.Finset

/-!
# Operations

The sections of `begin_op`, `log_write` and `end_op`.  An operation reserves
room for `MAXOPBLOCKS` blocks when it begins and uses it up one block at a time;
what it logs is part of the history at once, and becomes durable with the next
group commit, which no operation can be in the middle of.

## Main results

* `safe_begin_op`, `safe_log_write`, `safe_end_op` — the three calls keep the invariant.
* `OpInv.sum_reserve_le` — what `begin_op` checks bounds what is still to come.
-/


namespace Xv6.Log

open Conc Function

variable {T : Type} [Fintype T] [DecidableEq T] {t : T} {i : Fin NBUF}
  {img : ℕ → Block} {start : ℕ} {small : Prop} {s s' : State T} {gs : T → Know} {g : Know}
  {l : LogDisk T} {o : Op}

omit [Fintype T] in
theorem update_op_some {op : T → Option Op} {x : Option Op} {u : T} {o : Op}
    (h : update op t x u = some o) : (u = t ∧ x = some o) ∨ (u ≠ t ∧ op u = some o) := by
  obtain rfl | hu := eq_or_ne u t
  · exact Or.inl ⟨rfl, by simpa using h⟩
  · exact Or.inr ⟨hu, by simpa [hu] using h⟩

omit [Fintype T] in
theorem forall_update_op {op : T → Option Op} {o' : Op} {P : T → Op → Prop} (hnew : P t o')
    (h : ∀ u o, op u = some o → P u o) (u : T) (o : Op) (ho : update op t (some o') u = some o) :
    P u o := by
  rcases update_op_some ho with ⟨rfl, ho'⟩ | ⟨-, ho⟩
  · obtain rfl := Option.some.inj ho'
    exact hnew
  · exact h u o ho

/-! ### begin_op -/

omit [DecidableEq T] in
theorem OpInv.sum_reserve_le (h : OpInv start small l) :
    ∑ t, reserve (l.op t) ≤ l.outstanding * MAXOPBLOCKS := by
  rw [h.outstanding, Finset.sum_mul]
  apply Finset.sum_le_sum
  intro t _
  cases l.op t with
  | none => simp [reserve]
  | some o => simp [reserve]

theorem OpInv.begin (h : OpInv start small l) (hcom : l.committing = false) (hup : l.up = true)
    (hop : l.op t = none) (hroom : l.lh.length + (l.outstanding + 1) * MAXOPBLOCKS ≤ LOGBLOCKS) :
    OpInv start small { l with
      outstanding := l.outstanding + 1
      op := update l.op t (some ⟨l.nextOp, ∅⟩)
      nextOp := l.nextOp + 1 } := by
  refine ⟨h.nodup, h.short, h.home, ?_, ?_, ?_, ?_, ?_, ?_⟩
  · have := sum_update l.op t (some ⟨l.nextOp, ∅⟩) fun o => if o.isSome then 1 else 0
    simp only [hop, Option.isSome_none, Option.isSome_some, if_true] at this
    rw [← h.outstanding] at this
    simpa using this.symm
  · intro hc
    rw [show l.committing = true from hc] at hcom
    cases hcom
  · intro hd
    rw [show l.up = false from hd] at hup
    cases hup
  · exact forall_update_op (by simp) h.logged
  · intro _
    have hsum := sum_update l.op t (some ⟨l.nextOp, ∅⟩) reserve
    have hle := h.sum_reserve_le
    have hnew : reserve (some ⟨l.nextOp, ∅⟩) = MAXOPBLOCKS := by simp [reserve]
    rw [hop, hnew, show reserve none = 0 from rfl] at hsum
    rw [Nat.add_mul] at hroom
    simp only
    omega
  · exact fun hs => forall_update_op (by simp) (h.few hs)

omit [Fintype T] in
theorem DiskInv.begin (h : DiskInv img start l) (n : ℕ) :
    DiskInv img start { l with
      outstanding := n
      op := update l.op t (some ⟨l.nextOp, ∅⟩)
      nextOp := l.nextOp + 1 } := by
  refine ⟨h.recoverable, h.since, h.prefixed, h.boot, h.fresh, h.homes, h.booting, h.subset,
    fun r hr => Nat.lt_succ_of_lt (h.ids r hr), ?_, ?_, ?_, h.whole, h.wholeDurable⟩
  · exact forall_update_op (Nat.lt_succ_self _) fun u o ho => Nat.lt_succ_of_lt (h.opIds u o ho)
  · -- the number of a new operation has not been used
    refine forall_update_op (fun r hr hro => ?_) h.current
    exact absurd (h.ids r hr) (by simp only at hro; omega)
  · refine forall_update_op (fun r hr hro => ?_) h.unfinished
    have := h.ids r (h.subset r (h.prefixed.subset hr))
    simp only at hro
    omega

/-- `begin_op` waits until there is room, and begins an operation. -/
theorem safe_begin_op (hup : g.up = true) (hop : g.op = none) {Q : Unit → Know → Prop}
    (hQ : ∀ o, Q () { g with op := some o }) :
    Safe (discipline T img start small) t begin_op g Q := by
  refine safe_atomic fun s gs (hI : Inv img start small s gs) hg => ?_
  subst hg
  have hwait : ∀ a : T → Bool, Inv img start small { s with asleep := a } gs ∧
      Keeps s { s with asleep := a } := fun a =>
    ⟨{ hI with }, fun _ _ => ⟨rfl, rfl⟩⟩
  by_cases hsleep : s.asleep t = true
  · rw [if_pos hsleep]
    trivial
  rw [if_neg hsleep]
  by_cases hcom : s.committing = true
  · rw [if_pos hcom]
    exact hwait _
  rw [if_neg hcom]
  by_cases hroom : s.lh.length + (s.outstanding + 1) * MAXOPBLOCKS > LOGBLOCKS
  · rw [if_pos hroom]
    exact hwait _
  rw [if_neg hroom]
  refine ⟨_, ⟨?_, fun _ _ => ⟨rfl, rfl⟩⟩, hQ ⟨s.nextOp, ∅⟩⟩
  refine hI.of_same_phase ?_ ?_ (hI.disk.begin _) rfl rfl (hI.up t) hI.reads rfl ?_
  · rw [update_eq_self]
    exact hI.cache
  · exact hI.ops.begin (by simpa using hcom) (hI.up t hup) (by rw [hI.op t, hop]) (by omega)
  · intro ph hp
    cases ph <;> exact hp

/-! ### log_write -/

/-- The log and the history after process `t`, in operation `o`, has logged a
block; `lh` is the list of logged blocks afterwards. -/
def LogDisk.record (t : T) (o : Op) (r : Rec) (lh : List ℕ) (l : LogDisk T) : LogDisk T :=
  { l with
    lh := lh
    op := Function.update l.op t (some { o with logged := insert r.blockno o.logged })
    all := l.all ++ [r]
    hist := l.hist ++ [r] }

/-- How `log_write` changes `log.lh`: the block is absorbed, or appended. -/
def Logs (b : ℕ) (lh lh' : List ℕ) : Prop := (b ∈ lh ∧ lh' = lh) ∨ (b ∉ lh ∧ lh' = lh ++ [b])

theorem Logs.mem {b : ℕ} {lh lh' : List ℕ} (h : Logs b lh lh') {x : ℕ} :
    x ∈ lh' ↔ x = b ∨ x ∈ lh := by
  rcases h with ⟨hb, rfl⟩ | ⟨-, rfl⟩
  · constructor
    · exact Or.inr
    · rintro (rfl | hx)
      · exact hb
      · exact hx
  · simp [or_comm]

/-- An operation that logs a block uses up at least the room the block takes. -/
theorem OpInv.record {r : Rec} {lh : List ℕ} (h : OpInv start small l) (hop : l.op t = some o)
    (hlh : Logs r.blockno l.lh lh) (hlen : l.lh.length < LOGBLOCKS)
    (hb : ¬ InLog start r.blockno ∧ r.blockno < 2 ^ 32)
    (hsmall : small → r.blockno ∈ o.logged ∨ o.logged.card < MAXOPBLOCKS) :
    OpInv start small (l.record t o r lh) := by
  have hcard : small → (insert r.blockno o.logged).card ≤ MAXOPBLOCKS := by
    intro hs
    rcases hsmall hs with hmem | hlt
    · rw [Finset.insert_eq_of_mem hmem]
      exact h.few hs t o hop
    · exact le_trans (Finset.card_insert_le _ _) hlt
  refine ⟨?_, ?_, ?_, ?_, h.alone, h.down, ?_, ?_, ?_⟩
  · rcases hlh with ⟨-, rfl⟩ | ⟨hn, rfl⟩
    · exact h.nodup
    · exact List.nodup_append.mpr ⟨h.nodup, List.nodup_singleton _, fun a ha b hb' hab =>
        hn (List.mem_singleton.mp hb' ▸ hab ▸ ha)⟩
  · rcases hlh with ⟨-, rfl⟩ | ⟨-, rfl⟩
    · exact h.short
    · simpa [LogDisk.record] using Nat.succ_le_of_lt hlen
  · intro x hx
    rcases hlh.mem.mp hx with rfl | hx
    · exact hb
    · exact h.home x hx
  · have hsame := sum_update_of_eq l.op t (g := some { o with logged := insert r.blockno o.logged })
      (h := fun o => if o.isSome then 1 else 0) (by rw [hop]; rfl)
    exact h.outstanding.trans hsame.symm
  · refine forall_update_op (fun x hx => ?_) fun u o' ho' x hx =>
      hlh.mem.mpr (Or.inr (h.logged u o' ho' x hx))
    rw [show (l.record t o r lh).lh = lh from rfl, hlh.mem]
    rcases Finset.mem_insert.mp hx with rfl | hx
    · exact Or.inl rfl
    · exact Or.inr (h.logged t o hop x hx)
  · intro hs
    have hsum := sum_update l.op t (some { o with logged := insert r.blockno o.logged }) reserve
    have hres := h.reserved hs
    have hc := hcard hs
    simp only [LogDisk.record]
    rw [hop] at hsum
    simp only [reserve] at hsum hres ⊢
    -- a new block in the log is new to the operation, whose reserve pays for it
    rcases hlh with ⟨-, rfl⟩ | ⟨hn, rfl⟩
    · have := Finset.card_le_card (Finset.subset_insert r.blockno o.logged)
      omega
    · have hnew : r.blockno ∉ o.logged := fun hm => hn (h.logged t o hop _ hm)
      rw [Finset.card_insert_of_notMem hnew] at hsum hc
      rw [List.length_append, List.length_singleton]
      omega
  · exact fun hs => forall_update_op (hcard hs) (h.few hs)

omit [Fintype T] in
theorem DiskInv.record {r : Rec} {lh : List ℕ} (h : DiskInv img start l) (hop : l.op t = some o)
    (hr : r.op = o.id) (hlh : Logs r.blockno l.lh lh) (hb : ¬ InLog start r.blockno)
    (hup : l.up = true) : DiskInv img start (l.record t o r lh) := by
  have hboot : l.boot ≤ l.hist.length := le_trans h.boot h.prefixed.length_le
  refine ⟨h.recoverable, ?_, ?_, h.boot, ?_, ?_, ?_, ?_, ?_, ?_, ?_, ?_, ?_, ?_⟩
  · intro x hx hn
    rw [show (l.record t o r lh).lh = lh from rfl, hlh.mem, not_or] at hn
    simp only [LogDisk.record, replay_concat]
    rw [update_of_ne hn.1, h.since x hx hn.2]
  · exact h.prefixed.trans (List.prefix_append _ _)
  · intro _ x hx
    simp only [LogDisk.record, List.drop_append_of_le_length hboot]
    rcases hlh.mem.mp hx with rfl | hx
    · exact ⟨r, by simp, rfl⟩
    · obtain ⟨r', hr', hrb⟩ := h.fresh hup x hx
      exact ⟨r', by simp [hr'], hrb⟩
  · intro r' hr'
    rcases List.mem_append.mp hr' with hr' | hr'
    · exact h.homes r' hr'
    · rw [List.mem_singleton.mp hr']; exact hb
  · intro hd
    rw [show l.up = false from hd] at hup
    cases hup
  · intro r' hr'
    rcases List.mem_append.mp hr' with hr' | hr'
    · exact List.mem_append_left _ (h.subset r' hr')
    · exact List.mem_append_right _ hr'
  · intro r' hr'
    rcases List.mem_append.mp hr' with hr' | hr'
    · exact h.ids r' hr'
    · rw [List.mem_singleton.mp hr', hr]; exact h.opIds t o hop
  · exact forall_update_op (h.opIds t o hop) h.opIds
  · intro u o' ho' r' hr' hro
    rcases List.mem_append.mp hr' with hr' | hr'
    · exact List.mem_append_left _
        (forall_update_op (h.current t o hop) h.current u o' ho' r' hr' hro)
    · exact List.mem_append_right _ hr'
  · exact forall_update_op (h.unfinished t o hop) h.unfinished
  · intro r1 hr1 r2 hr2 he
    rcases List.mem_append.mp hr1 with hr1 | hr1
    · refine List.mem_append_left _ ?_
      rcases List.mem_append.mp hr2 with hr2 | hr2
      · exact h.whole r1 hr1 r2 hr2 he
      · -- the operation that logs now has lost nothing to a crash
        rw [List.mem_singleton.mp hr2, hr] at he
        exact h.current t o hop r1 hr1 he
    · exact List.mem_append_right _ hr1
  · intro r1 hr1 r2 hr2 he
    rcases List.mem_append.mp hr1 with hr1 | hr1
    · exact h.wholeDurable r1 hr1 r2 hr2 he
    · rw [List.mem_singleton.mp hr1, hr] at he
      exact absurd he.symm (h.unfinished t o hop r2 hr2)

omit [DecidableEq T] in
theorem BufInv.pin {b : Buf T} {dy : Bool} {pins pins' : List ℕ} {view : ℕ → Block} {k : T → Tag}
    (h : BufInv b dy pins view k) (hdev : b.dev = ROOTDEV) (hn : b.blockno ∉ pins)
    (hm : b.blockno ∈ pins') : BufInv { b with refcnt := b.refcnt + 1 } dy pins' view k := by
  refine ⟨h.uint, ?_, h.ident, h.lock, h.held, h.full, h.dirty, h.clean⟩
  have hrc := h.refcnt
  rw [if_neg (fun hc => hn hc.2)] at hrc
  simp only
  rw [if_pos ⟨hdev, hm⟩, hrc]

omit [DecidableEq T] in
theorem Inv.in_op (h : Inv img start small s gs) (hop : (gs t).op = some o) :
    0 < s.outstanding ∧ s.committing = false ∧ s.up = true := by
  have hpos : 0 < s.outstanding := by
    by_contra h0
    have := h.ops.no_op (by omega) t
    rw [h.op t, hop] at this
    cases this
  refine ⟨hpos, ?_, ?_⟩
  · by_contra hc
    have := h.ops.alone (by simpa using hc)
    omega
  · by_contra hu
    have := h.ops.down (by simpa using hu)
    omega

omit [Fintype T] [DecidableEq T] in
theorem PhaseOk.idle_of_up {ph : Phase} (h : PhaseOk img start l ph) (hup : l.up = true)
    (hcom : l.committing = false) : ph = .idle := by
  cases ph with
  | idle => rfl
  | writing => simp [h.2.1] at hcom
  | installing => simp [h.2.1] at hcom
  | clearing => simp [h.2.1] at hcom
  | finishing => simp [h.2.1] at hcom
  | boot => simp [h.1] at hup
  | recovering => simp [h.1] at hup
  | recClearing => simp [h.1] at hup
  | recovered => simp [h.1] at hup

/-- The cache after a `log_write`, which pins the block unless it is already. -/
theorem CacheInv.log {b : ℕ} {d : Block} {e : Bool} {lh : List ℕ} (hI : Inv img start small s gs)
    (hh : ((gs t).tag i).hold = .full d e) (hid : ((gs t).tag i).ident = (ROOTDEV, b))
    (hpins : s.pins = s.lh) {c : Cache T} {view : ℕ → Block}
    (hview : ∀ x, x ≠ b → view x = s.view img start x) (hviewb : view b = d)
    (hlru : c.lru = s.lru) (hrefs : c.refs = s.refs) (hdirty : c.dirty = update s.dirty i false)
    (hlh : (b ∈ s.lh ∧ lh = s.lh ∧ c.buf = s.buf) ∨ (b ∉ s.lh ∧ lh = s.lh ++ [b] ∧
      c.buf = update s.buf i { s.buf i with refcnt := (s.buf i).refcnt + 1 })) :
    CacheInv c lh view (update (fun u => (gs u).tag) t
      (update (gs t).tag i { (gs t).tag i with hold := .full d false })) := by
  obtain ⟨hval, hdata, -, hlock, href, -, hfree⟩ := hI.of_full hh
  obtain ⟨hdev, hno⟩ := hI.ident_of_full hh hid
  have hlogs : Logs b s.lh lh := hlh.imp (fun h => ⟨h.1, h.2.1⟩) fun h => ⟨h.1, h.2.1⟩
  -- only the reference count of the buffer can have changed
  have hbuf : ∀ j, (c.buf j).dev = (s.buf j).dev ∧ (c.buf j).blockno = (s.buf j).blockno ∧
      (c.buf j).valid = (s.buf j).valid := by
    intro j
    rcases hlh with ⟨-, -, hc⟩ | ⟨-, -, hc⟩
    · rw [hc]; exact ⟨rfl, rfl, rfl⟩
    · rw [hc]
      by_cases hj : j = i
      · subst hj; simp
      · simp [hj]
  -- what the buffer has is what readers see now, so it is clean
  have hclean : BufInv (s.buf i) false s.pins view
      (update (fun u => (gs u).tag i) t { (gs t).tag i with hold := .full d false }) := by
    refine (hI.cache.buf i).setHold rfl rfl rfl ?_ hfree href ?_ (fun h => by cases h) ?_
    · intro u
      simp [hlock, eq_comm]
    · intro d' e' h
      obtain ⟨rfl, rfl⟩ := Hold.full.inj h
      exact ⟨hval, hdata, rfl⟩
    · intro _ _ _
      rw [hdata, ← hno, hviewb]
  refine hI.cache.set i (by rw [hlru]; exact hI.cache.mem_lru) ?_ ?_ ?_ ?_
    (Or.inl ⟨(hbuf i).1, (hbuf i).2.1⟩) ?_ ?_
  · intro j hj
    rcases hlh with ⟨-, -, hc⟩ | ⟨-, -, hc⟩
    · rw [hc]
    · simp [hc, hj]
  · intro j hj
    simp [hdirty, hj]
  · intro u j
    rw [hrefs, ← hI.cache.refs_self]
  · intro x hx
    have hxb : x ≠ b := by
      rcases hx with hx | hx
      · rw [(hbuf i).2.1, ← hno] at hx; exact hx
      · rw [(hbuf i).1] at hx; exact absurd hdev.symm hx
    refine ⟨?_, hview x hxb⟩
    rw [hpins, hlogs.mem]
    simp [hxb]
  · intro x hx
    rcases hlogs.mem.mp hx with rfl | hx
    · exact ⟨i, by rw [(hbuf i).1, hdev], by rw [(hbuf i).2.1, hno], by rw [(hbuf i).2.2, hval]⟩
    · obtain ⟨j, h1, h2, h3⟩ := hI.cache.pinned x (by rw [hpins]; exact hx)
      exact ⟨j, by rw [(hbuf j).1, h1], by rw [(hbuf j).2.1, h2], by rw [(hbuf j).2.2, h3]⟩
  · rw [hdirty, update_self]
    rcases hlh with ⟨-, rfl, hc⟩ | ⟨hn, rfl, hc⟩
    · rwa [hc, ← hpins]
    · rw [hc, update_self]
      refine hclean.pin hdev.symm ?_ ?_
      · rw [hpins, ← hno]; exact hn
      · rw [← hno]; simp

/-- **`log_write` adds a block to the log and pins it**, once. -/
theorem safe_log_write {b : ℕ} {d : Block} {e : Bool} (hop : g.op = some o)
    (hh : (g.tag i).hold = .full d e) (hid : (g.tag i).ident = (ROOTDEV, b))
    (hb : ¬ InLog start b) (hsmall : small → b ∈ o.logged ∨ o.logged.card < MAXOPBLOCKS)
    {Q : Unit → Know → Prop}
    (hQ : Q () { g.setTag i { g.tag i with hold := .full d false } with
      op := some { o with logged := insert b o.logged } }) :
    Safe (discipline T img start small) t (log_write i) g Q := by
  refine safe_atomic fun s gs (hI : Inv img start small s gs) hg => ?_
  subst hg
  obtain ⟨hval, hdata, -, hlock, href, -, hfree⟩ := hI.of_full hh
  obtain ⟨hdev, hno⟩ := hI.ident_of_full hh hid
  obtain ⟨hpos, hcom, hup⟩ := hI.in_op hop
  obtain ⟨w, hw, hok⟩ := hI.phase
  rw [hok.idle_of_up hup hcom] at hok
  have hsop : s.op t = some o := by rw [hI.op t, hop]
  have hpins : s.pins = s.lh := by simp [LogDisk.pins, hup, hok.2.2.1]
  have huint : b < 2 ^ 32 := by rw [hno]; exact (hI.cache.buf i).uint
  have hrec : s.logRec t i = { s with
      op := update s.op t (some { o with logged := insert b o.logged })
      dirty := update s.dirty i false
      all := s.all ++ [⟨o.id, b, d⟩]
      hist := s.hist ++ [⟨o.id, b, d⟩] } := by
    simp only [State.logRec, hsop, ← hno, hdata]
  by_cases hlen : s.lh.length ≥ LOGBLOCKS
  · rw [if_pos hlen]
    exact Or.inr rfl
  rw [if_neg hlen, if_neg (by omega)]
  -- what is left is the same whether the block is absorbed or appended
  have hstep : ∀ (s' : State T) lh, Logs b s.lh lh →
      s'.toLogDisk = s.toLogDisk.record t o ⟨o.id, b, d⟩ lh → s'.lru = s.lru → s'.refs = s.refs →
      s'.dirty = update s.dirty i false → s'.reads = s.reads →
      ((b ∈ s.lh ∧ lh = s.lh ∧ s'.buf = s.buf) ∨ (b ∉ s.lh ∧ lh = s.lh ++ [b] ∧
        s'.buf = update s.buf i { s.buf i with refcnt := (s.buf i).refcnt + 1 })) →
      Inv img start small s' (update gs t
        { (gs t).setTag i { (gs t).tag i with hold := .full d false } with
          op := some { o with logged := insert b o.logged } }) ∧ Keeps s s' := by
    intro s' lh hlogs hl hlru hrefs hdirty hreads hlh
    constructor
    · have hpins' : s'.pins = lh := by
        rw [hl]
        simp [LogDisk.pins, LogDisk.record, hup, hok.2.2.1]
      refine hI.of_same_phase ?_ ?_ ?_ (by rw [hl]; rfl) (by rw [hl]; rfl) (hI.up t)
        (by rw [hreads]; exact hI.reads) rfl fun ph hp => ?_
      · rw [hpins']
        refine CacheInv.log hI hh hid hpins ?_ ?_ hlru hrefs hdirty hlh
        · intro x hx
          rw [hl]
          simp [LogDisk.view, LogDisk.record, hx]
        · rw [hl]
          simp [LogDisk.view, LogDisk.record, hup, hb]
      · rw [hl]
        exact hI.ops.record hsop hlogs (by omega) ⟨hb, huint⟩ hsmall
      · rw [hl]
        exact hI.disk.record hsop rfl hlogs hb hup
      · obtain rfl := hp.idle_of_up hup hcom
        rwa [hl]
    · rcases hlh with ⟨-, -, hc⟩ | ⟨-, -, hc⟩
      · intro j _
        rw [hc]
        exact ⟨rfl, rfl⟩
      · exact keeps_of_update hc rfl rfl
  by_cases hmem : (s.buf i).blockno ∈ s.lh
  · rw [if_pos hmem, hrec]
    rw [← hno] at hmem
    exact ⟨_, hstep _ s.lh (Or.inl ⟨hmem, rfl⟩) rfl rfl rfl rfl rfl (Or.inl ⟨hmem, rfl, rfl⟩), hQ⟩
  · rw [if_neg hmem, hrec, ← hno]
    rw [← hno] at hmem
    exact ⟨_, hstep _ (s.lh ++ [b]) (Or.inr ⟨hmem, rfl⟩) rfl rfl rfl rfl rfl
      (Or.inr ⟨hmem, rfl, rfl⟩), hQ⟩

/-! ### end_op -/

/-- An operation ends; if it was the last one, a commit may start. -/
theorem OpInv.finish (h : OpInv start small l) (hop : l.op t = some o) {c : Bool}
    (hc : c = true → l.outstanding - 1 = 0) :
    OpInv start small { l with
      outstanding := l.outstanding - 1
      committing := c
      op := update l.op t none } := by
  refine ⟨h.nodup, h.short, h.home, ?_, hc, ?_, ?_, ?_, ?_⟩
  · have := sum_update l.op t none fun o => if o.isSome then 1 else 0
    rw [hop, ← h.outstanding] at this
    simp only [Option.isSome_some, Option.isSome_none, if_true] at this ⊢
    simp only [Bool.false_eq_true, if_false] at this
    omega
  · intro hd
    have := h.down hd
    simp only
    omega
  · intro u o' ho'
    rcases update_op_some ho' with ⟨-, ho'⟩ | ⟨-, ho'⟩
    · cases ho'
    · exact h.logged u o' ho'
  · intro hs
    have hsum := sum_update l.op t none reserve
    have hres := h.reserved hs
    rw [show reserve none = 0 from rfl] at hsum
    simp only
    omega
  · intro hs u o' ho'
    rcases update_op_some ho' with ⟨-, ho'⟩ | ⟨-, ho'⟩
    · cases ho'
    · exact h.few hs u o' ho'

omit [Fintype T] in
theorem DiskInv.finish (h : DiskInv img start l) (n : ℕ) (c : Bool) :
    DiskInv img start { l with
      outstanding := n
      committing := c
      op := update l.op t none } := by
  have hop : ∀ {u : T} {o' : Op}, update l.op t none u = some o' → l.op u = some o' := by
    intro u o' ho'
    rcases update_op_some ho' with ⟨-, ho'⟩ | ⟨-, ho'⟩
    · cases ho'
    · exact ho'
  exact { h with
    opIds := fun u o' ho' => h.opIds u o' (hop ho')
    current := fun u o' ho' => h.current u o' (hop ho')
    unfinished := fun u o' ho' => h.unfinished u o' (hop ho') }

/-- The first section of `end_op`: the last operation starts a commit. -/
theorem safe_endSection (hop : g.op = some o) (hph : g.phase = .idle) (hcalm : g.Calm) :
    Safe (discipline T img start small) t endSection g fun r g' =>
      if r then g'.At none .finishing ∨ ∃ h lh, g'.At none (.writing h lh 0)
      else g'.At none .idle := by
  refine safe_atomic fun s gs (hI : Inv img start small s gs) hg => ?_
  subst hg
  obtain ⟨hpos, hcom, hup⟩ := hI.in_op hop
  obtain ⟨w, hw, hok⟩ := hI.phase
  have hidle := hok.idle_of_up hup hcom
  rw [hidle] at hok
  obtain ⟨-, -, hunp, hhd⟩ := hok
  have hsop : s.op t = some o := by rw [hI.op t, hop]
  -- no process is committing or recovering
  have hown : ∀ u, (gs u).phase = .idle := by
    intro u
    by_contra hu
    rw [hw u hu] at hidle
    exact hu hidle
  have hc : ∀ g' : Know, g'.tag = (gs t).tag →
      CacheInv s.toCache s.pins (s.view img start)
        (update (fun u => (gs u).tag) t g'.tag) := by
    intro g' hg'
    rw [hg', update_eq_self]
    exact hI.cache
  rw [if_neg (by simp [hcom])]
  by_cases hlast : s.outstanding - 1 = 0
  · rw [if_pos hlast]
    have hops := hI.ops.finish hsop (c := true) fun _ => hlast
    have hdisk := hI.disk.finish (t := t) (s.outstanding - 1) true
    by_cases hlh : s.lh = []
    · refine ⟨{ gs t with op := none, phase := .finishing },
        ⟨hI.of_owner (fun u _ => hown u) (hc _ rfl) hops hdisk rfl id (hI.up t) hI.reads ?_,
          fun _ _ => ⟨rfl, rfl⟩⟩, Or.inl ⟨rfl, rfl, hcalm⟩⟩
      exact ⟨hup, rfl, hunp, hlh, hhd⟩
    · refine ⟨{ gs t with op := none, phase := .writing s.hist s.lh 0 },
        ⟨hI.of_owner (fun u _ => hown u) (hc _ rfl) hops hdisk rfl id (hI.up t) hI.reads ?_,
          fun _ _ => ⟨rfl, rfl⟩⟩, Or.inr ⟨_, _, rfl, rfl, hcalm⟩⟩
      exact ⟨hup, rfl, hunp, hhd, rfl, rfl, hlh, Nat.zero_le _, fun j _ hj => by omega⟩
  · rw [if_neg hlast]
    refine ⟨{ gs t with op := none },
      ⟨hI.of_same_phase (hc _ rfl) ?_ ?_ rfl rfl (hI.up t) hI.reads rfl ?_,
        fun _ _ => ⟨rfl, rfl⟩⟩, hph, rfl, hcalm⟩
    · exact hI.ops.finish hsop (c := s.committing) fun h => by simp [hcom] at h
    · exact hI.disk.finish (t := t) (s.outstanding - 1) s.committing
    · intro ph hp
      cases ph <;> exact hp

theorem safe_endCommit {op : Option Op} (hg : g.At op .finishing) :
    Safe (discipline T img start small) t
      (.act fun _ s => State.wakeup { s with committing := false }) g
      fun _ => Know.At op .idle := by
  refine safe_act fun s gs (hI : Inv img start small s gs) hgs => ?_
  subst hgs
  obtain ⟨hph, hop, hcalm⟩ := hg
  obtain ⟨hup, hcom, hunp, hlh, hhd⟩ := hI.phase_at hph (by simp)
  refine ⟨(gs t).setPhase .idle, ⟨hI.of_phase (by rw [hph]; simp) ?_ ?_ ?_ rfl rfl id (hI.up t) rfl
    ⟨hup, rfl, hunp, hhd⟩, fun _ _ => ⟨rfl, rfl⟩⟩, rfl, hop, hcalm⟩
  · rw [Know.setPhase_tag, update_eq_self]
    exact hI.cache
  · exact { hI.ops with alone := fun h => absurd (show false = true from h) (by decide) }
  · exact { hI.disk with }

/-- **`end_op` ends the operation**, and commits the group if it was the last one. -/
theorem safe_end_op (hstart : start + LOGBLOCKS < 2 ^ 32) (hop : g.op = some o)
    (hph : g.phase = .idle) (hcalm : g.Calm) :
    Safe (discipline T img start small) t (end_op start) g fun _ => Know.At none .idle := by
  refine Safe.bind (safe_endSection hop hph hcalm) ?_
  intro r g' hg'
  cases r with
  | false => exact hg'
  | true =>
    rw [if_pos rfl] at hg'
    refine Safe.bind (safe_commit hstart hg') ?_
    intro _ g'' hg''
    exact safe_endCommit hg''

end Xv6.Log
