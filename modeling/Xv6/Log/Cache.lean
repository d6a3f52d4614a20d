import Xv6.Log.Inv

/-!
# Steps of the buffer cache

Every step of the cache changes one buffer, and what one process knows of it.
`CacheInv.set` reduces a step to that buffer; the lemmas after it are the
steps of `bget`, `acquiresleep`, `fill`, `brelse` and of the processes that
modify the buffers they hold.

## Main results

* `CacheInv.set` — a step that changes one buffer.
* `safe_bread`, `safe_brelse` — what a process that reads a block sees, and letting go of it.
-/


namespace Xv6.Log

open Conc Function

variable {T : Type} [Fintype T] {c : Cache T} {pins : List ℕ} {view : ℕ → Block}
  {ks : T → Fin NBUF → Tag} {t : T} {i : Fin NBUF}

/-! ### One buffer -/

namespace BufInv

variable {b : Buf T} {dy : Bool} {k : T → Tag}

theorem hold_unique (h : BufInv b dy pins view k) (ht : (k t).hold ≠ .none) {u : T}
    (hu : (k u).hold ≠ .none) : u = t := by
  have h1 := (h.lock t).mpr ht
  have h2 := (h.lock u).mpr hu
  rw [h1] at h2
  exact (Option.some.inj h2).symm

/-- A buffer is clean unless somebody holds it and has modified it. -/
theorem clean_of_hold (h : BufInv b dy pins view k) (ht : (k t).hold ≠ .none)
    (hd : ∀ d, (k t).hold ≠ .full d true) : dy = false := by
  rcases Bool.eq_false_or_eq_true dy with hdy | hdy
  · obtain ⟨u, d, hu⟩ := h.dirty hdy
    have : u = t := h.hold_unique ht (by rw [hu]; simp)
    subst this
    exact absurd hu (hd d)
  · exact hdy

theorem congr (h : BufInv b dy pins view k) {pins' : List ℕ} {view' : ℕ → Block}
    (hpins : b.dev = ROOTDEV → (b.blockno ∈ pins' ↔ b.blockno ∈ pins))
    (hview : b.dev = ROOTDEV → view' b.blockno = view b.blockno) : BufInv b dy pins' view' k := by
  refine ⟨h.uint, ?_, h.ident, h.lock, h.held, h.full, h.dirty, ?_⟩
  · rw [h.refcnt]
    congr 1
    by_cases hd : b.dev = ROOTDEV
    · simp only [hd, true_and, hpins hd]
    · simp [hd]
  · intro hv hd hdy
    rw [hview hd]
    exact h.clean hv hd hdy

section Steps

variable [DecidableEq T]

theorem sum_refs (k : T → Tag) (t : T) (tag : Tag) :
    (∑ u, (update k t tag u).refs) + (k t).refs = (∑ u, (k u).refs) + tag.refs :=
  sum_update k t tag Tag.refs

section

variable (h : BufInv b dy pins view k)

include h

/-- One more reference. -/
theorem addRef (t : T) :
    BufInv { b with refcnt := b.refcnt + 1 } dy pins view
      (update k t ⟨(k t).refs + 1, (b.dev, b.blockno), (k t).hold⟩) := by
  have hsum := sum_refs k t ⟨(k t).refs + 1, (b.dev, b.blockno), (k t).hold⟩
  have hold_eq : ∀ u, (update k t ⟨(k t).refs + 1, (b.dev, b.blockno), (k t).hold⟩ u).hold
      = (k u).hold := update_proj Tag.hold rfl
  refine ⟨h.uint, ?_, ?_, ?_, ?_, ?_, ?_, h.clean⟩
  · have := h.refcnt
    simp only at hsum ⊢
    omega
  · intro u hu
    by_cases hut : u = t
    · subst hut; simp
    · simp only [update_of_ne hut] at hu ⊢
      exact h.ident u hu
  · intro u; rw [hold_eq]; exact h.lock u
  · intro u hu
    rw [hold_eq] at hu
    by_cases hut : u = t
    · subst hut; simp
    · simpa [hut] using h.held u hu
  · intro u d dy'; rw [hold_eq]; exact h.full u d dy'
  · intro hdy
    obtain ⟨u, d, hu⟩ := h.dirty hdy
    exact ⟨u, d, by rw [hold_eq]; exact hu⟩

omit [DecidableEq T] in
theorem of_refcnt_zero (h0 : b.refcnt = 0) :
    (∀ u, (k u).refs = 0) ∧ (∀ u, (k u).hold = .none) ∧ dy = false ∧ b.lock = none ∧
      ¬ (b.dev = ROOTDEV ∧ b.blockno ∈ pins) := by
  have hrc := h.refcnt
  have hrefs : ∀ u, (k u).refs = 0 := fun u => by
    have := le_sum k u Tag.refs
    omega
  have hhold : ∀ u, (k u).hold = .none := by
    intro u
    by_contra hu
    have := h.held u hu
    have := hrefs u
    omega
  refine ⟨hrefs, hhold, ?_, ?_, ?_⟩
  · by_contra hdy
    obtain ⟨u, d, hu⟩ := h.dirty (by simpa using hdy)
    rw [hhold u] at hu
    cases hu
  · cases hl : b.lock with
    | none => rfl
    | some u => exact absurd (hhold u) ((h.lock u).mp hl)
  · intro hp
    rw [if_pos hp] at hrc
    omega

/-- A buffer nobody refers to takes another block. -/
theorem recycle (h0 : b.refcnt = 0) {dev bno : ℕ}
    (hb : bno < 2 ^ 32) (hnp : ¬ (dev = ROOTDEV ∧ bno ∈ pins)) (t : T) :
    BufInv { b with dev := dev, blockno := bno, valid := false, refcnt := 1 } dy pins view
      (update k t ⟨(k t).refs + 1, (dev, bno), (k t).hold⟩) := by
  obtain ⟨hrefs, hhold, hdy, hlock, -⟩ := h.of_refcnt_zero h0
  have hsum := sum_refs k t ⟨(k t).refs + 1, (dev, bno), (k t).hold⟩
  have hzero : (∑ u, (k u).refs) = 0 := Finset.sum_eq_zero fun u _ => hrefs u
  have hold_eq : ∀ u, (update k t ⟨(k t).refs + 1, (dev, bno), (k t).hold⟩ u).hold
      = .none := by
    intro u
    by_cases hu : u = t
    · subst hu; simpa using hhold u
    · simpa [hu] using hhold u
  refine ⟨hb, ?_, ?_, ?_, ?_, ?_, ?_, ?_⟩
  · simp only [if_neg hnp] at hsum ⊢
    omega
  · intro u hu
    by_cases hut : u = t
    · subst hut; simp
    · simp only [update_of_ne hut] at hu
      have := hrefs u
      omega
  · intro u; rw [hold_eq]; simp [hlock]
  · intro u hu; exact absurd (hold_eq u) hu
  · intro u d dy' hu; rw [hold_eq] at hu; cases hu
  · intro hd; rw [hdy] at hd; cases hd
  · intro hv; cases hv

/-- What the process that holds, or takes, the sleep-lock of a buffer knows of it
changes together with the buffer itself. -/
theorem setHold {view' : ℕ → Block} {b' : Buf T} {dy' : Bool} {hold : Hold}
    (hdev : b'.dev = b.dev) (hno : b'.blockno = b.blockno) (hcnt : b'.refcnt = b.refcnt)
    (hlock : ∀ u, b'.lock = some u ↔ u = t ∧ hold ≠ .none)
    (hfree : ∀ u, u ≠ t → (k u).hold = .none) (href : 0 < (k t).refs)
    (hfull : ∀ d e, hold = .full d e → b'.valid = true ∧ b'.data = d ∧ dy' = e)
    (hdirty : dy' = true → ∃ d, hold = .full d true)
    (hclean : b'.valid = true → b.dev = ROOTDEV → dy' = false → b'.data = view' b.blockno) :
    BufInv b' dy' pins view' (update k t { k t with hold := hold }) := by
  have hsum := sum_refs k t { k t with hold := hold }
  -- nobody else holds the buffer
  have hk : ∀ u, (update k t { k t with hold := hold } u).hold =
      if u = t then hold else .none := by
    intro u
    by_cases hu : u = t
    · subst hu; simp
    · simp [hu, hfree u hu]
  have hr : ∀ u, (update k t { k t with hold := hold } u).refs = (k u).refs ∧
      (update k t { k t with hold := hold } u).ident = (k u).ident :=
    fun u => ⟨update_proj Tag.refs (by rfl) u, update_proj Tag.ident (by rfl) u⟩
  refine ⟨by rw [hno]; exact h.uint, ?_, ?_, ?_, ?_, ?_, ?_, ?_⟩
  · have := h.refcnt
    rw [hcnt, hdev, hno]
    simp only at hsum ⊢
    omega
  · intro u hu
    rw [(hr u).1] at hu
    rw [(hr u).2, hdev, hno]
    exact h.ident u hu
  · intro u
    rw [hlock, hk]
    by_cases hu : u = t
    · simp [hu]
    · simp [hu]
  · intro u hu
    rw [hk] at hu
    rw [(hr u).1]
    by_cases hut : u = t
    · rw [hut]; exact href
    · simp [hut] at hu
  · intro u d e hu
    rw [hk] at hu
    by_cases hut : u = t
    · rw [if_pos hut] at hu; exact hfull d e hu
    · rw [if_neg hut] at hu; cases hu
  · intro hd
    obtain ⟨d, hd⟩ := hdirty hd
    exact ⟨t, d, by rw [hk, if_pos rfl]; exact hd⟩
  · rw [hdev, hno]; exact hclean

/-- One reference less, of a process that does not hold the buffer. -/
theorem dropRef (hr : 0 < (k t).refs) (hh : (k t).hold = .none) :
    BufInv { b with refcnt := b.refcnt - 1 } dy pins view
      (update k t { k t with refs := (k t).refs - 1 }) := by
  have hsum := sum_refs k t { k t with refs := (k t).refs - 1 }
  have hk : ∀ u, (update k t { k t with refs := (k t).refs - 1 } u).hold = (k u).hold ∧
      (update k t { k t with refs := (k t).refs - 1 } u).ident = (k u).ident :=
    fun u => ⟨update_proj Tag.hold (by rfl) u, update_proj Tag.ident (by rfl) u⟩
  refine ⟨h.uint, ?_, ?_, ?_, ?_, ?_, ?_, h.clean⟩
  · have := h.refcnt
    have hle := le_sum k t Tag.refs
    simp only at hsum ⊢
    omega
  · intro u hu
    rw [(hk u).2]
    refine h.ident u ?_
    by_cases hut : u = t
    · rw [hut]; exact hr
    · simpa [hut] using hu
  · intro u; rw [(hk u).1]; exact h.lock u
  · intro u hu
    rw [(hk u).1] at hu
    by_cases hut : u = t
    · rw [hut] at hu; exact absurd hh hu
    · simpa [hut] using h.held u hu
  · intro u d e; rw [(hk u).1]; exact h.full u d e
  · intro hd
    obtain ⟨u, d, hu⟩ := h.dirty hd
    exact ⟨u, d, by rw [(hk u).1]; exact hu⟩

end

end Steps

end BufInv

/-! ### Changing one buffer -/

theorem CacheInv.refs_self [DecidableEq T] (h : CacheInv c pins view ks) (u : T) (j : Fin NBUF) :
    c.refs u j = if u = t ∧ j = i then (ks t i).refs else c.refs u j := by
  split_ifs with huj
  · rw [huj.1, huj.2, h.refs]
  · rfl

variable [DecidableEq T]

omit [Fintype T] in
theorem refs_update (f : T → Fin NBUF → ℕ) (n : ℕ) (u : T) (j : Fin NBUF) :
    update f t (update (f t) i n) u j = if u = t ∧ j = i then n else f u j := by
  obtain rfl | hu := eq_or_ne u t
  · by_cases hj : j = i
    · subst hj; simp
    · simp [hj]
  · simp [hu]

/-- **A step that changes one buffer.**  The step may also change which blocks
are pinned and what readers see, but only for the block of that buffer; the
buffer keeps its block, or takes one that is not cached. -/
theorem CacheInv.set (h : CacheInv c pins view ks) {c' : Cache T} {pins' : List ℕ}
    {view' : ℕ → Block} {tag : Tag} (i : Fin NBUF)
    (hlru : ∀ j, j ∈ c'.lru) (hbuf : ∀ j, j ≠ i → c'.buf j = c.buf j)
    (hdirty : ∀ j, j ≠ i → c'.dirty j = c.dirty j)
    (hrefs : ∀ u j, c'.refs u j = if u = t ∧ j = i then tag.refs else c.refs u j)
    (hpv : ∀ b, b ≠ (c'.buf i).blockno ∨ (c'.buf i).dev ≠ ROOTDEV →
      (b ∈ pins' ↔ b ∈ pins) ∧ view' b = view b)
    (huniq : ((c'.buf i).dev = (c.buf i).dev ∧ (c'.buf i).blockno = (c.buf i).blockno) ∨
      ∀ j, ¬ ((c.buf j).dev = (c'.buf i).dev ∧ (c.buf j).blockno = (c'.buf i).blockno))
    (hpin : ∀ b ∈ pins', ∃ j, (c'.buf j).dev = ROOTDEV ∧ (c'.buf j).blockno = b ∧
      (c'.buf j).valid = true)
    (hb : BufInv (c'.buf i) (c'.dirty i) pins' view' (update (fun u => ks u i) t tag)) :
    CacheInv c' pins' view' (update ks t (update (ks t) i tag)) := by
  -- no other buffer is of the block of this one
  have huniq' : ∀ j, j ≠ i → (c'.buf i).dev ≠ 0 → (c'.buf i).dev = (c.buf j).dev →
      (c'.buf i).blockno ≠ (c.buf j).blockno := by
    intro j hj hd hdev hno
    rcases huniq with ⟨h1, h2⟩ | hnew
    · exact hj (h.uniq j i (by rw [← hdev]; exact hd) (by rw [← hdev, h1]) (by rw [← hno, h2]))
    · exact hnew j ⟨hdev.symm, hno.symm⟩
  refine ⟨hlru, ?_, ?_, ?_, hpin⟩
  · intro j j' hd hdev hno
    by_cases hj : j = i <;> by_cases hj' : j' = i
    · rw [hj, hj']
    · subst hj
      rw [hbuf j' hj'] at hdev hno
      exact absurd hno (huniq' j' hj' hd hdev)
    · subst hj'
      rw [hbuf j hj] at hd hdev hno
      exact absurd hno.symm (huniq' j hj (by rw [← hdev]; exact hd) hdev.symm)
    · rw [hbuf j hj, hbuf j' hj'] at *
      exact h.uniq j j' hd hdev hno
  · intro j
    obtain rfl | hj := eq_or_ne j i
    · convert hb using 1
      funext u
      by_cases hu : u = t
      · subst hu; simp
      · simp [hu]
    · rw [hbuf j hj, hdirty j hj]
      have hk : (fun u => update ks t (update (ks t) i tag) u j)
          = fun u => ks u j := by
        funext u
        by_cases hu : u = t
        · subst hu; simp [hj]
        · simp [hu]
      rw [hk]
      have hne : (c.buf j).dev = ROOTDEV → (c.buf j).blockno ≠ (c'.buf i).blockno ∨
          (c'.buf i).dev ≠ ROOTDEV := by
        intro hd
        by_cases hdi : (c'.buf i).dev = ROOTDEV
        · exact Or.inl (huniq' j hj (by rw [hdi]; decide) (by rw [hdi, hd])).symm
        · exact Or.inr hdi
      exact (h.buf j).congr (fun hd => (hpv _ (hne hd)).1) fun hd => (hpv _ (hne hd)).2
  · intro u j
    rw [hrefs]
    obtain rfl | hu := eq_or_ne u t
    · by_cases hj : j = i
      · subst hj; simp
      · simp [hj, h.refs]
    · simp [hu, h.refs]

/-! ### What a process knows of a buffer -/

/-- Change what a process knows of one buffer. -/
def Know.setTag (g : Know) (i : Fin NBUF) (tag : Tag) : Know :=
  { g with tag := Function.update g.tag i tag }

@[simp] theorem Know.setTag_phase (g : Know) (i : Fin NBUF) (tag : Tag) :
    (g.setTag i tag).phase = g.phase := rfl

@[simp] theorem Know.setTag_op (g : Know) (i : Fin NBUF) (tag : Tag) :
    (g.setTag i tag).op = g.op := rfl

@[simp] theorem Know.setTag_tag_self (g : Know) (i : Fin NBUF) (tag : Tag) :
    (g.setTag i tag).tag i = tag := by simp [Know.setTag]

theorem Know.setTag_tag_of_ne (g : Know) {i j : Fin NBUF} (tag : Tag) (h : j ≠ i) :
    (g.setTag i tag).tag j = g.tag j := by simp [Know.setTag, h]

@[simp] theorem Know.setTag_setTag (g : Know) (i : Fin NBUF) (tag tag' : Tag) :
    (g.setTag i tag).setTag i tag' = g.setTag i tag' := by simp [Know.setTag]

omit [Fintype T] in
theorem tag_update (gs : T → Know) (t : T) (g : Know) :
    (fun u => (update gs t g u).tag) = update (fun u => (gs u).tag) t g.tag := by
  funext u
  by_cases hu : u = t
  · subst hu; simp
  · simp [hu]

omit [Fintype T] in
theorem phaseOf_update {gs : T → Know} {g : Know} (h : g.phase = (gs t).phase) (o : Option T) :
    phaseOf (update gs t g) o = phaseOf gs o := by
  cases o with
  | none => rfl
  | some u =>
    by_cases hu : u = t
    · subst hu; simpa [phaseOf] using h
    · simp [phaseOf, hu]

variable {img : ℕ → Block} {start : ℕ} {small : Prop} {s s' : State T} {gs : T → Know} {g : Know}

section

variable (h : Inv img start small s gs)
  (hc : CacheInv s'.toCache s'.pins (s'.view img start) (update (fun u => (gs u).tag) t g.tag))
    (hops : OpInv start small s'.toLogDisk) (hdisk : DiskInv img start s'.toLogDisk)
    (hop : s'.op = update s.op t g.op)

include h hc hops hdisk hop

theorem Inv.of_step (hup : s.up = true → s'.up = true)
    (hgup : g.up = true → s'.up = true) (hreads : ∀ r ∈ s'.reads, r.Ok)
    (hphase : ∃ o, (∀ u, (update gs t g u).phase ≠ .idle → o = some u) ∧
      PhaseOk img start s'.toLogDisk (phaseOf (update gs t g) o)) :
    Inv img start small s' (update gs t g) := by
  refine ⟨by rw [tag_update]; exact hc, hops, hdisk, ?_, ?_, hreads, hphase⟩
  · intro u
    rw [hop]
    by_cases hu : u = t
    · subst hu; simp
    · simp [hu, h.op]
  · intro u
    by_cases hu : u = t
    · subst hu; simpa using hgup
    · intro h'
      exact hup (h.up u (by simpa [hu] using h'))

theorem Inv.of_same_phase (hup : s'.up = s.up)
    (hgup : g.up = true → s.up = true) (hreads : ∀ r ∈ s'.reads, r.Ok)
    (hph : g.phase = (gs t).phase)
    (hok : ∀ ph, PhaseOk img start s.toLogDisk ph → PhaseOk img start s'.toLogDisk ph) :
    Inv img start small s' (update gs t g) := by
  obtain ⟨o, ho, hp⟩ := h.phase
  refine h.of_step hc hops hdisk hop (fun h' => by rw [hup, h']) (fun h' => by rw [hup, hgup h'])
    hreads ⟨o, ?_, ?_⟩
  · intro u
    by_cases hu : u = t
    · subst hu; simpa [hph] using ho u
    · simpa [hu] using ho u
  · rw [phaseOf_update hph]; exact hok _ hp

end

omit [Fintype T] [DecidableEq T] in
theorem keeps_of_update {b : Buf T} (h : s'.buf = update s.buf i b)
    (hdev : b.dev = (s.buf i).dev) (hno : b.blockno = (s.buf i).blockno) : Keeps s s' := by
  intro j _
  rw [h]
  obtain rfl | hj := eq_or_ne j i
  · simp [hdev, hno]
  · simp [hj]

/-! ### What readers see -/

omit [Fintype T] [DecidableEq T] in
/-- A home block that is not pinned is on the disk as readers see it. -/
theorem view_eq_disk {l : LogDisk T} {ph : Phase} (hd : DiskInv img start l)
    (hp : PhaseOk img start l ph) {b : ℕ} (hb : b ∉ l.pins) : l.view img start b = l.disk b := by
  unfold LogDisk.view
  split_ifs with hv
  swap
  · rfl
  obtain ⟨hup, hhome⟩ := hv
  have hother : header (l.disk start) = [] → b ∉ l.lh → replay img l.hist b = l.disk b := by
    intro hh hlh
    rw [hd.since b hhome hlh, hd.recoverable.other b hhome (by simp [hh])]
  simp only [LogDisk.pins, hup, if_true] at hb
  cases ph with
  | idle => exact hother hp.2.2.2 (by simpa [hp.2.2.1] using hb)
  | writing h lh k => exact hother hp.2.2.2.1 (by simpa [hp.2.2.1] using hb)
  | installing h lh k u =>
    obtain ⟨-, -, hu, huk, hk, hh, hhist, hdur, hlh, hinst⟩ := hp
    by_cases hmem : b ∈ l.lh
    · -- the block is already unpinned, hence already installed
      rw [← List.take_append_drop l.unpinned l.lh, List.mem_append] at hmem
      obtain ⟨j, hj, rfl⟩ := List.mem_iff_getElem.mp (hmem.resolve_right hb)
      rw [List.length_take] at hj
      simp only [List.getElem_take]
      subst hlh
      rw [hhist, hinst j (by omega) (by omega)]
    · rw [hd.since b hhome hmem, hd.recoverable.other b hhome (by rwa [hh, ← hlh])]
  | clearing h => rw [hp.2.2.2.1, hp.2.2.2.2.2.2 b hhome]
  | finishing => exact hother hp.2.2.2.2 (by simp [hp.2.2.2.1])
  | boot h => simp [hp.1] at hup
  | recovering h lh k => simp [hp.1] at hup
  | recClearing h => simp [hp.1] at hup
  | recovered => simp [hp.1] at hup

omit [Fintype T] [DecidableEq T] in
/-- **What readers see of a block is what was logged last since boot**, or what
is on the disk if nothing was. -/
theorem view_eq_lastLogged {l : LogDisk T} {ph : Phase} (hd : DiskInv img start l)
    (hp : PhaseOk img start l ph) (b : ℕ) :
    l.view img start b = (lastLogged (l.hist.drop l.boot) b).getD (l.disk b) := by
  cases hlast : lastLogged (l.hist.drop l.boot) b with
  | none =>
    refine view_eq_disk hd hp fun hpin => ?_
    unfold LogDisk.pins at hpin
    split_ifs at hpin with hup
    · obtain ⟨r, hr, hrb⟩ := hd.fresh hup b (List.mem_of_mem_drop hpin)
      simp only [lastLogged, Option.map_eq_none_iff, List.find?_eq_none, List.mem_reverse] at hlast
      exact hlast r hr (by simpa using hrb)
    · simp at hpin
  | some d =>
    obtain ⟨r, hr, hrd⟩ := Option.map_eq_some_iff.mp hlast
    have hmem : r ∈ l.hist.drop l.boot := List.mem_reverse.mp (List.mem_of_find?_eq_some hr)
    have hrb : r.blockno = b := by simpa using List.find?_some hr
    have hup : l.up = true := by
      by_contra hup
      rw [List.drop_eq_nil_of_le (hd.booting (by simpa using hup))] at hmem
      simp at hmem
    have hhome : ¬ InLog start b := hrb ▸ hd.homes r (List.mem_of_mem_drop hmem)
    rw [LogDisk.view, if_pos ⟨hup, hhome⟩, ← List.take_append_drop l.boot l.hist, replay_append,
      replay_eq_lastLogged, hlast]
    rfl

/-! ### The steps of the cache -/

/-- A step that changes one buffer, and what process `t` knows of it. -/
theorem Inv.set_buf (h : Inv img start small s gs) {i : Fin NBUF} {tag : Tag}
    (hl : s'.toLogDisk = s.toLogDisk) (hreads : ∀ r ∈ s'.reads, r.Ok) (hlru : ∀ j, j ∈ s'.lru)
    (hbuf : ∀ j, j ≠ i → s'.buf j = s.buf j) (hdirty : ∀ j, j ≠ i → s'.dirty j = s.dirty j)
    (hrefs : ∀ u j, s'.refs u j = if u = t ∧ j = i then tag.refs else s.refs u j)
    (huniq : ((s'.buf i).dev = (s.buf i).dev ∧ (s'.buf i).blockno = (s.buf i).blockno) ∨
      (s.buf i).refcnt = 0 ∧
        ∀ j, ¬ ((s.buf j).dev = (s'.buf i).dev ∧ (s.buf j).blockno = (s'.buf i).blockno))
    (hkeep : (s.buf i).dev = ROOTDEV → (s.buf i).blockno ∈ s.pins → (s.buf i).valid = true →
      (s'.buf i).dev = ROOTDEV ∧ (s'.buf i).blockno = (s.buf i).blockno ∧ (s'.buf i).valid = true)
    (hb : BufInv (s'.buf i) (s'.dirty i) s.pins (s.view img start)
      (update (fun u => (gs u).tag i) t tag)) :
    Inv img start small s' (update gs t ((gs t).setTag i tag)) ∧ Keeps s s' := by
  constructor
  · refine h.of_same_phase ?_ (by rw [hl]; exact h.ops) (by rw [hl]; exact h.disk)
      (by rw [hl, Know.setTag_op, ← h.op t, update_eq_self]) (by rw [hl]) (h.up t) hreads rfl
      fun ph hp => by rw [hl]; exact hp
    rw [hl]
    refine h.cache.set i hlru hbuf hdirty hrefs (fun b _ => ⟨Iff.rfl, rfl⟩)
      (huniq.imp_right And.right) ?_ hb
    intro b hbp
    obtain ⟨j, hdev, hno, hval⟩ := h.cache.pinned b hbp
    obtain rfl | hj := eq_or_ne j i
    · obtain ⟨h1, h2, h3⟩ := hkeep hdev (by rw [hno]; exact hbp) hval
      exact ⟨j, h1, by rw [h2, hno], h3⟩
    · exact ⟨j, by rw [hbuf j hj]; exact ⟨hdev, hno, hval⟩⟩
  · intro j hj
    obtain rfl | hji := eq_or_ne j i
    · rcases huniq with hsame | hzero
      · exact hsame
      · omega
    · rw [hbuf j hji]
      exact ⟨rfl, rfl⟩

/-- `bget` returns a buffer for the block, with one more reference to it. -/
theorem safe_bget {dev b : ℕ} (hb : b < 2 ^ 32) {Q : Fin NBUF → Know → Prop}
    (hQ : ∀ i, Q i (g.setTag i ⟨(g.tag i).refs + 1, (dev, b), (g.tag i).hold⟩)) :
    Safe (discipline T img start small) t (bget dev b) g Q := by
  refine safe_atomic fun s gs (hI : Inv img start small s gs) hg => ?_
  subst hg
  have hrefs : ∀ i u j, (update s.refs t (update (s.refs t) i (s.refs t i + 1))) u j
      = if u = t ∧ j = i then ((gs t).tag i).refs + 1 else s.refs u j := by
    intro i u j
    rw [refs_update, hI.cache.refs t]
  cases hc : s.cached dev b with
  | some i =>
    obtain ⟨rfl, rfl⟩ : (s.buf i).dev = dev ∧ (s.buf i).blockno = b := by
      simpa using List.find?_some hc
    refine ⟨_, ?_, hQ i⟩
    refine hI.set_buf rfl hI.reads hI.cache.mem_lru (fun j hj => ?_) (fun _ _ => rfl) (hrefs i)
      (Or.inl ?_) (fun hd _ hv => ?_) ?_
    · simp [State.setBuf, State.setRefs, hj]
    · simp [State.setBuf, State.setRefs]
    · simpa [State.setBuf, State.setRefs] using ⟨hd, hv⟩
    · simpa [State.setBuf, State.setRefs] using (hI.cache.buf i).addRef t
  | none =>
    -- the block is in no buffer; one that nobody uses is recycled for it
    have hnew : ∀ j, ¬ ((s.buf j).dev = dev ∧ (s.buf j).blockno = b) := by
      intro j
      simpa using List.find?_eq_none.mp hc j (hI.cache.mem_lru j)
    cases hu : s.unused with
    | none => exact Or.inl rfl
    | some i =>
      have h0 : (s.buf i).refcnt = 0 := by simpa using List.find?_some hu
      have hfree := (hI.cache.buf i).of_refcnt_zero h0
      refine ⟨_, ?_, hQ i⟩
      refine hI.set_buf rfl hI.reads hI.cache.mem_lru (fun j hj => ?_) (fun _ _ => rfl) (hrefs i)
        (Or.inr ⟨h0, ?_⟩) (fun hd hp _ => absurd ⟨hd, hp⟩ hfree.2.2.2.2) ?_
      · simp [State.setBuf, State.setRefs, hj]
      · simpa [State.setBuf, State.setRefs] using hnew
      · have hnp : ¬ (dev = ROOTDEV ∧ b ∈ s.pins) := by
          rintro ⟨rfl, hp⟩
          obtain ⟨j, h1, h2, -⟩ := hI.cache.pinned b hp
          exact hnew j ⟨h1, h2⟩
        simpa [State.setBuf, State.setRefs] using (hI.cache.buf i).recycle h0 hb hnp t

/-- The change of one buffer by the process that holds it, or takes it. -/
theorem Inv.set_hold (h : Inv img start small s gs) {i : Fin NBUF} {hold : Hold}
    (hl : s'.toLogDisk = s.toLogDisk) (hreads : ∀ r ∈ s'.reads, r.Ok) (hlru : s'.lru = s.lru)
    (hrefs : s'.refs = s.refs)
    (hbuf : ∀ j, j ≠ i → s'.buf j = s.buf j) (hdirty : ∀ j, j ≠ i → s'.dirty j = s.dirty j)
    (hkeep : (s'.buf i).dev = (s.buf i).dev ∧ (s'.buf i).blockno = (s.buf i).blockno ∧
      (s'.buf i).refcnt = (s.buf i).refcnt ∧ ((s.buf i).valid = true → (s'.buf i).valid = true))
    (hlock : ∀ u, (s'.buf i).lock = some u ↔ u = t ∧ hold ≠ .none)
    (hfree : ∀ u, u ≠ t → ((gs u).tag i).hold = .none) (href : 0 < ((gs t).tag i).refs)
    (hfull : ∀ d e, hold = .full d e →
      (s'.buf i).valid = true ∧ (s'.buf i).data = d ∧ s'.dirty i = e)
    (hdy : s'.dirty i = true → ∃ d, hold = .full d true)
    (hclean : (s'.buf i).valid = true → (s.buf i).dev = ROOTDEV → s'.dirty i = false →
      (s'.buf i).data = s.view img start (s.buf i).blockno) :
    Inv img start small s'
      (update gs t ((gs t).setTag i { (gs t).tag i with hold := hold })) ∧ Keeps s s' := by
  obtain ⟨hdev, hno, hcnt, hval⟩ := hkeep
  refine h.set_buf hl hreads (by rw [hlru]; exact h.cache.mem_lru) hbuf hdirty ?_
    (Or.inl ⟨hdev, hno⟩)
    (fun hd _ hv => ⟨by rw [hdev]; exact hd, hno, hval hv⟩) ?_
  · intro u j
    rw [hrefs, ← h.cache.refs_self]
  · exact (h.cache.buf i).setHold hdev hno hcnt hlock hfree href hfull hdy hclean

variable {Q : Unit → Know → Prop}

theorem safe_acquiresleep (href : 0 < (g.tag i).refs)
    (hQ : (g.tag i).hold = .none → Q () (g.setTag i { g.tag i with hold := .locked })) :
    Safe (discipline T img start small) t (acquiresleep i) g Q := by
  refine safe_atomic fun s gs (hI : Inv img start small s gs) hg => ?_
  subst hg
  cases hl : (s.buf i).lock with
  | some u => trivial
  | none =>
    have hnone : ∀ u, ((gs u).tag i).hold = .none := by
      intro u
      by_contra hu
      have := ((hI.cache.buf i).lock u).mpr hu
      rw [hl] at this
      cases this
    have hdirty : s.dirty i = false := by
      by_contra hdy
      obtain ⟨u, d, hu⟩ := (hI.cache.buf i).dirty (by simpa using hdy)
      rw [hnone u] at hu
      cases hu
    refine ⟨_, ?_, hQ (hnone t)⟩
    refine hI.set_hold rfl hI.reads rfl rfl (fun j hj => ?_) (fun _ _ => rfl) ?_ ?_
      (fun u _ => hnone u) href (fun d e h => by cases h) (fun h => ?_) ?_
    · simp [State.setBuf, hj]
    · simp [State.setBuf]
    · intro u; simp [State.setBuf, eq_comm]
    · simp [State.setBuf, hdirty] at h
    · intro hv hd hdy
      simp only [State.setBuf, update_self] at hv ⊢
      exact (hI.cache.buf i).clean hv hd hdy

/-- What a process that reads a block sees, in terms of what it knows. -/
theorem safe_fill (dev b : ℕ) (hh : (g.tag i).hold = .locked) (hid : (g.tag i).ident = (dev, b))
    {K : Block → Prop} (hK : dev = ROOTDEV → ∀ s gs, Inv (T := T) img start small s gs →
      gs t = g → K (s.view img start b)) {Q : Unit → Know → Prop}
    (hQ : ∀ d, (dev = ROOTDEV → K d) → Q () (g.setTag i { g.tag i with hold := .full d false })) :
    Safe (discipline T img start small) t (fill i) g Q := by
  refine safe_act fun s gs (hI : Inv img start small s gs) hg => ?_
  have hKs : dev = ROOTDEV → K (s.view img start b) := fun hdev => hK hdev s gs hI hg
  subst hg
  have hbi := hI.cache.buf i
  have hne : ((gs t).tag i).hold ≠ .none := by rw [hh]; simp
  have href := hbi.held t hne
  have hident := hbi.ident t href
  rw [hid] at hident
  obtain ⟨rfl, rfl⟩ := Prod.mk.inj hident
  have hdirty : s.dirty i = false := hbi.clean_of_hold hne (by rw [hh]; simp)
  have hlock := (hbi.lock t).mpr hne
  have hfree : ∀ u, u ≠ t → ((gs u).tag i).hold = .none := fun u hu => by
    by_contra hu'
    exact hu (hbi.hold_unique hne hu')
  obtain ⟨o, -, hok⟩ := hI.phase
  -- what is returned is what readers see, whether it was cached or not
  have hreads : ∀ d, ((s.buf i).dev = ROOTDEV → d = s.view img start (s.buf i).blockno) →
      ∀ r ∈ s.reads ++ [(⟨(s.buf i).dev, (s.buf i).blockno, d, s.hist.drop s.boot,
        s.disk (s.buf i).blockno⟩ : Read)], r.Ok := by
    intro d hd r hr
    rcases List.mem_append.mp hr with hr | hr
    · exact hI.reads r hr
    · rw [List.mem_singleton.mp hr]
      intro hdev
      rw [hd hdev]
      exact view_eq_lastLogged hI.disk hok _
  by_cases hv : (s.buf i).valid = true
  · rw [if_pos hv]
    refine ⟨_, ?_, hQ (s.buf i).data fun hdev => ?_⟩
    · exact hI.set_hold rfl (hreads _ fun hdev => hbi.clean hv hdev hdirty) rfl rfl
        (fun _ _ => rfl) (fun _ _ => rfl) ⟨rfl, rfl, rfl, id⟩
        (fun u => by simp [State.noteRead, hlock, eq_comm]) hfree href
        (by simp [State.noteRead, hv, hdirty]) (by simp [State.noteRead, hdirty]) hbi.clean
    · rw [hbi.clean hv hdev hdirty]
      exact hKs hdev
  · rw [if_neg hv]
    -- an invalid buffer caches no pinned block, so the disk has what readers see
    have hview : (s.buf i).dev = ROOTDEV →
        s.disk (s.buf i).blockno = s.view img start (s.buf i).blockno := by
      intro hdev
      refine (view_eq_disk hI.disk hok fun hp => hv ?_).symm
      obtain ⟨j, h1, h2, h3⟩ := hI.cache.pinned _ hp
      have : i = j := hI.cache.uniq i j (by rw [hdev]; decide) (by rw [hdev, h1]) h2.symm
      rwa [this]
    refine ⟨_, ?_, hQ (s.disk (s.buf i).blockno) fun hdev => ?_⟩
    · refine hI.set_hold rfl ?_ rfl rfl (fun j hj => ?_) (fun _ _ => rfl) ?_ ?_ hfree href
        ?_ (fun h => ?_) ?_
      · simpa [State.noteRead, State.setBuf] using hreads _ hview
      · simp [State.noteRead, State.setBuf, hj]
      · simp [State.noteRead, State.setBuf]
      · intro u; simp [State.noteRead, State.setBuf, hlock, eq_comm]
      · intro d e h
        obtain ⟨rfl, rfl⟩ := Hold.full.inj h
        simpa [State.noteRead, State.setBuf] using hdirty
      · simp [State.noteRead, State.setBuf, hdirty] at h
      · intro _ hdev _
        simpa [State.noteRead, State.setBuf] using hview hdev
    · rw [hview hdev]
      exact hKs hdev

variable {d : Block}

omit [DecidableEq T] in
theorem Inv.of_full (h : Inv img start small s gs) {e : Bool}
    (hh : ((gs t).tag i).hold = .full d e) :
    (s.buf i).valid = true ∧ (s.buf i).data = d ∧ s.dirty i = e ∧ (s.buf i).lock = some t ∧
      0 < ((gs t).tag i).refs ∧ ((gs t).tag i).ident = ((s.buf i).dev, (s.buf i).blockno) ∧
      ∀ u, u ≠ t → ((gs u).tag i).hold = .none := by
  have hbi := h.cache.buf i
  have hne : ((gs t).tag i).hold ≠ .none := by rw [hh]; simp
  obtain ⟨h1, h2, h3⟩ := hbi.full t d e hh
  refine ⟨h1, h2, h3, (hbi.lock t).mpr hne, hbi.held t hne, hbi.ident t (hbi.held t hne), ?_⟩
  intro u hu
  by_contra hu'
  exact hu (hbi.hold_unique hne hu')

omit [DecidableEq T] in
theorem Inv.ident_of_full (h : Inv img start small s gs) {e : Bool} {dev b : ℕ}
    (hh : ((gs t).tag i).hold = .full d e) (hid : ((gs t).tag i).ident = (dev, b)) :
    dev = (s.buf i).dev ∧ b = (s.buf i).blockno := by
  obtain ⟨-, -, -, -, -, hident, -⟩ := h.of_full hh
  rw [hid] at hident
  exact Prod.mk.inj hident

/-- A process modifies a buffer it holds. -/
theorem safe_setData {b d : Block} {e : Bool} {F : State T → Block}
    (hh : (g.tag i).hold = .full b e) (hF : ∀ s gs, Inv img start small s gs → gs t = g → F s = d)
    (hQ : Q () (g.setTag i { g.tag i with hold := .full d true })) :
    Safe (discipline T img start small) t (.act fun _ s => s.setData i (F s)) g Q := by
  refine safe_act fun s gs (hI : Inv img start small s gs) hg => ⟨_, ?_, hQ⟩
  rw [hF s gs hI hg]
  subst hg
  obtain ⟨hval, -, -, hlock, href, -, hfree⟩ := hI.of_full hh
  refine hI.set_hold rfl hI.reads rfl rfl (fun j hj => ?_) (fun j hj => ?_) ?_ ?_ hfree href
    ?_ (fun _ => ⟨d, rfl⟩) (fun _ _ h => ?_)
  · simp [State.setData, State.setBuf, hj]
  · simp [State.setData, State.setBuf, hj]
  · simp [State.setData, State.setBuf]
  · intro u; simp [State.setData, State.setBuf, hlock, eq_comm]
  · intro d' e' h
    obtain ⟨rfl, rfl⟩ := Hold.full.inj h
    simpa [State.setData, State.setBuf] using hval
  · simp [State.setData] at h

theorem safe_releasesleep (hh : (g.tag i).hold = .full d false)
    (hQ : Q () (g.setTag i { g.tag i with hold := .none })) :
    Safe (discipline T img start small) t (releasesleep i) g Q := by
  refine safe_atomic fun s gs (hI : Inv img start small s gs) hg => ?_
  subst hg
  obtain ⟨hval, hdata, hdirty, hlock, href, -, hfree⟩ := hI.of_full hh
  simp only [hlock, if_true]
  refine ⟨_, ?_, hQ⟩
  refine hI.set_hold rfl hI.reads rfl rfl (fun j hj => ?_) (fun _ _ => rfl) ?_ ?_ hfree href
    (fun _ _ h => by cases h) (fun h => ?_) ?_
  · simp [State.setBuf, hj]
  · simp [State.setBuf]
  · intro u; simp [State.setBuf]
  · simp [State.setBuf, hdirty] at h
  · intro hv hd _
    simp only [State.setBuf, update_self] at hv ⊢
    exact (hI.cache.buf i).clean hv hd hdirty

theorem safe_unref (hh : (g.tag i).hold = .none) (href : 0 < (g.tag i).refs)
    (hQ : Q () (g.setTag i { g.tag i with refs := (g.tag i).refs - 1 })) :
    Safe (discipline T img start small) t (.act fun t s => s.unref t i) g Q := by
  refine safe_act fun s gs (hI : Inv img start small s gs) hg => ⟨_, ?_, hQ⟩
  subst hg
  -- moving a buffer to the front keeps all of them in the list
  have hmem : ∀ j, j ∈ (s.unref t i).lru := by
    intro j
    unfold State.unref
    simp only
    split_ifs
    · by_cases hj : j = i
      · simp [hj]
      · exact List.mem_cons_of_mem _ ((List.mem_erase_of_ne hj).mpr (hI.cache.mem_lru j))
    · exact hI.cache.mem_lru j
  have hbuf : (s.unref t i).buf = update s.buf i
      { s.buf i with refcnt := (s.buf i).refcnt - 1 } := by
    unfold State.unref
    simp only
    split_ifs <;> rfl
  have hrest : (s.unref t i).toLogDisk = s.toLogDisk ∧ (s.unref t i).dirty = s.dirty ∧
      (s.unref t i).refs = update s.refs t
        (update (s.refs t) i (s.refs t i - 1)) ∧ (s.unref t i).reads = s.reads := by
    unfold State.unref
    simp only
    split_ifs <;> exact ⟨rfl, rfl, rfl, rfl⟩
  obtain ⟨hl, hdirty, hrefs, hr⟩ := hrest
  have hreads : ∀ r ∈ (s.unref t i).reads, r.Ok := by rw [hr]; exact hI.reads
  refine hI.set_buf hl hreads hmem (fun j hj => ?_) (fun _ _ => by rw [hdirty]) (fun u j => ?_)
    (Or.inl ?_) (fun hd _ hv => ?_) ?_
  · simp [hbuf, hj]
  · rw [hrefs, refs_update, hI.cache.refs t]
  · simp [hbuf]
  · simpa [hbuf] using ⟨hd, hv⟩
  · rw [hbuf, hdirty]
    simpa using (hI.cache.buf i).dropRef href hh

/-! ### bread and brelse -/

/-- **`bread` returns a locked, clean buffer with what readers see of the block.** -/
theorem safe_bread {dev b : ℕ} (hb : b < 2 ^ 32) {K : Block → Prop}
    (hK : dev = ROOTDEV → ∀ s gs, Inv (T := T) img start small s gs →
      (gs t).phase = g.phase → K (s.view img start b)) {Q : Fin NBUF → Know → Prop}
    (hQ : ∀ i d, (g.tag i).hold = .none → (dev = ROOTDEV → K d) →
      Q i (g.setTag i ⟨(g.tag i).refs + 1, (dev, b), .full d false⟩)) :
    Safe (discipline T img start small) t (bread dev b) g Q := by
  refine Safe.seq (safe_bget hb fun i => ?_)
  refine Safe.seq (safe_acquiresleep (by simp) fun hh => ?_)
  refine Safe.seq (safe_fill dev b (K := K) (by simp) (by simp) ?_ fun d hd => ?_)
  · intro hdev s gs hI hg
    exact hK hdev s gs hI (by rw [hg]; simp)
  · simpa using hQ i d (by simpa using hh) hd

theorem safe_brelse (hh : (g.tag i).hold = .full d false) (href : 0 < (g.tag i).refs)
    (hQ : Q () (g.setTag i ⟨(g.tag i).refs - 1, (g.tag i).ident, .none⟩)) :
    Safe (discipline T img start small) t (brelse i) g Q := by
  refine Safe.seq (safe_releasesleep hh ?_)
  refine safe_unref (by simp) (by simpa using href) ?_
  simpa using hQ

end Xv6.Log
