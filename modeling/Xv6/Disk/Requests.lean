import Xv6.Disk.Queue
import Xv6.Lib.Seq

/-!
# Requests in flight

The invariant of the disk driver: who holds which lock, whose the descriptors
are, how far each request has come, and where the requests are that the device
has not completed.  Between the allocation of its descriptors and the moment the
device is told of it, and again when it is found completed, a request has
`vdisk_lock`; there is at most one such request, and the others are all with the
device or completed.

## Main definitions

* `Phase`, `Know` — how far a request has come, and what its thread knows.
* `Stage` — what holds of a request at each phase.
* `Inv`, `discipline` — the invariant.
* `Kept` — what a step does to the flags of the buffers and to the available ring.

## Main results

* `Inv.mine` — what the holder of `vdisk_lock` has to show of its steps.
* `requests_in_flight` — **descriptors of different requests are different, free ones and three
  for each request are all there are, an entry of the used ring makes the handler clear the flag of
  the buffer submitted with that head and no other, no entry of the available ring is overwritten
  before the device has taken it, and nothing panics.**
-/

namespace Xv6.Disk

open Conc Function

variable {T B : Type} {s s' : State T B} {t u : T} {r r' : Request B} {h i : Fin NUM} {b : B}

/-! ### The invariant -/

/-- How far a request has come. -/
inductive Phase where
  | allocated
  | formatted
  /-- Its head is in the slot of the available ring that comes next. -/
  | slotted
  | sent
  /-- It was found completed. -/
  | done
  deriving DecidableEq

/-- A request as the device and `virtio_disk_intr` find it. -/
structure Formatted (s : State T B) (r : Request B) : Prop extends Chained s r where
  info : (s.info r.head).b = some r.buf

/-- What holds of a request at each phase. -/
def Stage (s : State T B) (r : Request B) : Phase → Prop
  | .allocated => True
  | .formatted => Formatted s r ∧ s.disk r.buf = true
  | .slotted => Formatted s r ∧ s.disk r.buf = true ∧ s.availRing (slot s.availIdx) = r.head
  | .sent => Formatted s r ∧
      pendingOf r.head s.hist = if s.disk r.buf = true then some r.buf else none
  | .done => Formatted s r ∧ s.disk r.buf = false

/-- What a thread knows. -/
structure Know (B : Type) where
  /-- It holds `vdisk_lock`. -/
  locked : Bool
  /-- The buffer whose lock it holds. -/
  buf : Option B
  req : Option (Request B × Phase)
  /-- It has seen an entry in the used ring. -/
  unseen : Bool

/-- What a thread knows between two calls. -/
def Know.idle : Know B := ⟨false, none, none, false⟩

/-- What a thread knows is true. -/
structure At (s : State T B) (g : Know B) : Prop where
  buf : ∀ r ph, g.req = some (r, ph) → g.buf = some r.buf
  early : ∀ r ph, g.req = some (r, ph) → ph ≠ .sent → g.locked = true
  stage : ∀ r ph, g.req = some (r, ph) → Stage s r ph
  unseen : g.unseen = true → g.locked = true ∧ s.consumed.length < s.produced.length

/-- The invariant. -/
structure Inv (s : State T B) (gs : T → Know B) : Prop where
  lock : ∀ t, (gs t).locked = true ↔ s.lock = some t
  buf : ∀ t b, (gs t).buf = some b → s.buflock b = some t
  inflight : ∀ t, s.inflight t = (gs t).req.map Prod.fst
  know : ∀ t, At s (gs t)
  owned : Owned s.free s.inflight
  pending : ∀ h b, pendingOf h s.hist = some b →
    ∃ t r, (gs t).req = some (r, .sent) ∧ r.head = h ∧ r.buf = b
  disk : ∀ b, s.disk b = true →
    ∃ t r ph, (gs t).req = some (r, ph) ∧ ph ≠ .allocated ∧ r.buf = b
  lawful : Lawful s.hist
  transit : Transit s

/-- What a step does to the flags of the buffers and to the rings: the next entry of the used ring
is taken and the flag of the buffer that was submitted with that head is cleared, or no flag is and
none is taken; and an entry of the available ring that the device has not taken stays. -/
structure Kept [DecidableEq B] (s s' : State T B) : Prop where
  flags : (∀ b, s.disk b = true → s'.disk b = true) ∧ s'.seenIdx = s.seenIdx ∧
      (s'.hist = s.hist ∨ ∃ h b, s'.hist = .submit h b :: s.hist) ∨
    ∃ h b, s.seenIdx ≠ s.usedIdx ∧ h = s.usedRing (slot s.seenIdx) ∧
      s'.seenIdx = s.seenIdx + 1 ∧ s'.hist = .complete h b :: s.hist ∧
      pendingOf h s.hist = some b ∧ s.disk b = true ∧ s'.disk = Function.update s.disk b false
  slots : ∀ i, (i - s.lastAvail).toNat < (s.availIdx - s.lastAvail).toNat →
    s'.availRing (slot i) = s.availRing (slot i)

theorem Kept.same [DecidableEq B] (hd : s'.disk = s.disk) (hh : s'.hist = s.hist)
    (hr : s'.availRing = s.availRing) (hx : s'.seenIdx = s.seenIdx) : Kept s s' where
  flags := Or.inl ⟨fun b hb => by rwa [hd], hx, Or.inl hh⟩
  slots i _ := by rw [hr]

/-- The discipline of the driver: no step panics. -/
def discipline (T B : Type) [DecidableEq B] : Discipline T (State T B) (Know B) where
  Inv := Inv
  Guar := Kept
  refl _ := .same rfl rfl rfl rfl
  idle g := g = .idle
  allow _ := False

variable {gs : T → Know B} {g : Know B} {ph : Phase}

/-! ### What the invariant says -/

theorem Formatted.frame (h : Formatted s r) (hd : ∀ k, s'.desc (r.desc k) = s.desc (r.desc k))
    (hi : (s'.info r.head).b = (s.info r.head).b) : Formatted s' r :=
  ⟨h.toChained.frame hd, hi.trans h.info⟩

theorem Stage.sent_frame (h : Stage s r .sent) (hd : ∀ k, s'.desc (r.desc k) = s.desc (r.desc k))
    (hi : (s'.info r.head).b = (s.info r.head).b) (hdisk : s'.disk r.buf = s.disk r.buf)
    (hp : pendingOf r.head s'.hist = pendingOf r.head s.hist) : Stage s' r .sent := by
  refine ⟨h.1.frame hd hi, ?_⟩
  rw [hp, hdisk]
  exact h.2

theorem Stage.frame (h : Stage s r ph) (hd : s'.desc = s.desc)
    (hi : ∀ i, (s'.info i).b = (s.info i).b) (hdisk : s'.disk = s.disk) (hp : s'.hist = s.hist)
    (hr : s'.availRing = s.availRing) (hx : s'.availIdx = s.availIdx) : Stage s' r ph := by
  have hf : Formatted s r → Formatted s' r := fun h =>
    h.frame (fun _ => by rw [hd]) (hi _)
  cases ph with
  | allocated => trivial
  | formatted => exact ⟨hf h.1, by rw [hdisk]; exact h.2⟩
  | slotted => exact ⟨hf h.1, by rw [hdisk, hr, hx]; exact h.2⟩
  | sent => exact ⟨hf h.1, by rw [hdisk, hp]; exact h.2⟩
  | done => exact ⟨hf h.1, by rw [hdisk]; exact h.2⟩

namespace Inv

section

variable (hI : Inv s gs)

include hI

theorem inflight_of_req (hr : (gs t).req = some (r, ph)) : s.inflight t = some r := by
  rw [hI.inflight, hr]
  rfl

theorem others_sent (hl : s.lock = some t) (hne : u ≠ t)
    (hr : (gs u).req = some (r, ph)) : ph = .sent := by
  by_contra hph
  have hu := (hI.lock u).mp ((hI.know u).early r ph hr hph)
  rw [hl] at hu
  exact hne (Option.some.inj hu).symm

theorem others_unseen (hl : s.lock = some t) (hne : u ≠ t) : (gs u).unseen = false := by
  by_contra hun
  have hu := (hI.lock u).mp ((hI.know u).unseen (Bool.eq_true_of_not_eq_false hun)).1
  rw [hl] at hu
  exact hne (Option.some.inj hu).symm

theorem buf_ne (hne : u ≠ t) (hr : (gs t).buf = some b)
    (hr' : (gs u).req = some (r', ph)) : r'.buf ≠ b := by
  rintro rfl
  have hu := hI.buf u _ ((hI.know u).buf _ _ hr')
  rw [hI.buf t _ hr] at hu
  exact hne (Option.some.inj hu).symm

theorem desc_ne {ph' : Phase} (hne : u ≠ t) (hr : (gs t).req = some (r, ph))
    (hr' : (gs u).req = some (r', ph')) (k k' : Fin 3) : r.desc k ≠ r'.desc k' :=
  hI.owned.desc_ne (hI.inflight_of_req hr) (hI.inflight_of_req hr') hne k k'

theorem not_pending (hr : (gs t).req = some (r, ph)) (hph : ph ≠ .sent) :
    pendingOf r.head s.hist = none := by
  cases hp : pendingOf r.head s.hist with
  | none => rfl
  | some b =>
    obtain ⟨u, r', hu, hhead, -⟩ := hI.pending _ _ hp
    obtain rfl | hne := eq_or_ne u t
    · rw [hr] at hu
      cases hu
      exact absurd rfl hph
    · exact absurd hhead.symm (hI.desc_ne hne hr hu 0 0)

theorem pending_other (hg : gs t = g) (hno : ∀ r, g.req ≠ some (r, .sent))
    (hp : pendingOf h s.hist = some b) :
    ∃ u r, u ≠ t ∧ (gs u).req = some (r, .sent) ∧ r.head = h ∧ r.buf = b := by
  subst hg
  obtain ⟨u, r, hu, hh, hb⟩ := hI.pending h b hp
  refine ⟨u, r, ?_, hu, hh, hb⟩
  rintro rfl
  exact hno r hu

theorem disk_other (hg : gs t = g)
    (hno : ∀ r ph, g.req = some (r, ph) → ph = .allocated ∨ r.buf ≠ b) (hb : s.disk b = true) :
    ∃ u r ph, u ≠ t ∧ (gs u).req = some (r, ph) ∧ ph ≠ .allocated ∧ r.buf = b := by
  subst hg
  obtain ⟨u, r, ph, hu, hph, hbuf⟩ := hI.disk b hb
  refine ⟨u, r, ph, ?_, hu, hph, hbuf⟩
  rintro rfl
  rcases hno r ph hu with h | h
  · exact hph h
  · exact h hbuf

end

/-! ### Steps -/

/-- Steps that only take or give a lock, or put a thread to sleep. -/
theorem quiet [DecidableEq T] (hI : Inv s gs) {l : Option T} {bl : B → Option T}
    {a : T → Option (Chan B)}
    (hlt : g.locked = true ↔ l = some t) (hlu : ∀ u, u ≠ t → (s.lock = some u ↔ l = some u))
    (hbt : ∀ b, g.buf = some b → bl b = some t)
    (hbu : ∀ u b, u ≠ t → s.buflock b = some u → bl b = some u)
    (hreq : g.req = (gs t).req) (hat : At s g) :
    Inv { s with lock := l, buflock := bl, asleep := a } (update gs t g) := by
  have hreq' : ∀ u, (update gs t g u).req = (gs u).req :=
    (forall_update_iff gs fun u g => g.req = (gs u).req).mpr ⟨hreq, fun _ _ => rfl⟩
  have hat' : ∀ u, At s (update gs t g u) :=
    (forall_update_iff gs fun _ g => At s g).mpr ⟨hat, fun u _ => hI.know u⟩
  constructor
  · refine (forall_update_iff gs fun u g => g.locked = true ↔ l = some u).mpr
      ⟨hlt, fun u hu => ?_⟩
    rw [hI.lock, hlu u hu]
  · exact (forall_update_iff gs fun u g => ∀ b, g.buf = some b → bl b = some u).mpr
      ⟨hbt, fun u hu b hb => hbu u b hu (hI.buf u b hb)⟩
  · intro u
    rw [hreq']
    exact hI.inflight u
  · intro u
    refine ⟨(hat' u).buf, (hat' u).early, fun r ph hr => ?_, (hat' u).unseen⟩
    exact ((hat' u).stage r ph hr).frame rfl (fun _ => rfl) rfl rfl rfl rfl
  · exact hI.owned
  · intro h b hp
    obtain ⟨u, r, hu, hh⟩ := hI.pending h b hp
    exact ⟨u, r, by rw [hreq', hu], hh⟩
  · intro b hb
    obtain ⟨u, r, ph, hu, hh⟩ := hI.disk b hb
    exact ⟨u, r, ph, by rw [hreq', hu], hh⟩
  · exact hI.lawful
  · exact { hI.transit with }

/-- What the holder of `vdisk_lock` has to show of its steps. -/
theorem mine [DecidableEq T] (hI : Inv s gs) (hl : s.lock = some t) (hl' : s'.lock = s.lock)
    (hbl : s'.buflock = s.buflock) (hgl : g.locked = true) (hgb : g.buf = (gs t).buf)
    (hin : s'.inflight = update s.inflight t (g.req.map Prod.fst)) (hat : At s' g)
    (hsent : ∀ u r, u ≠ t → (gs u).req = some (r, .sent) → Stage s r .sent → Stage s' r .sent)
    (howned : Owned s'.free s'.inflight)
    (hpend : ∀ h b, pendingOf h s'.hist = some b →
      (∃ r, g.req = some (r, .sent) ∧ r.head = h ∧ r.buf = b) ∨
      ∃ u r, u ≠ t ∧ (gs u).req = some (r, .sent) ∧ r.head = h ∧ r.buf = b)
    (hdisk : ∀ b, s'.disk b = true →
      (∃ r ph, g.req = some (r, ph) ∧ ph ≠ .allocated ∧ r.buf = b) ∨
      ∃ u r ph, u ≠ t ∧ (gs u).req = some (r, ph) ∧ ph ≠ .allocated ∧ r.buf = b)
    (hlaw : Lawful s'.hist) (htr : Transit s') : Inv s' (update gs t g) := by
  constructor
  · refine (forall_update_iff gs fun u g => g.locked = true ↔ s'.lock = some u).mpr
      ⟨iff_of_true hgl (hl'.trans hl), fun u _ => ?_⟩
    rw [hl']
    exact hI.lock u
  · refine (forall_update_iff gs fun u g =>
      ∀ b, g.buf = some b → s'.buflock b = some u).mpr ⟨fun b hb => ?_, fun u _ b hb => ?_⟩
    · rw [hbl]
      exact hI.buf t b (hgb ▸ hb)
    · rw [hbl]
      exact hI.buf u b hb
  · refine (forall_update_iff gs fun u g => s'.inflight u = g.req.map Prod.fst).mpr
      ⟨?_, fun u hu => ?_⟩
    · rw [hin, update_self]
    · rw [hin, update_of_ne hu]
      exact hI.inflight u
  · refine (forall_update_iff gs fun _ g => At s' g).mpr ⟨hat, fun u hu => ?_⟩
    -- the others are with the device, and have not seen anything in the used ring
    have hk := hI.know u
    refine ⟨hk.buf, hk.early, fun r ph hr => ?_, fun hun => ?_⟩
    · obtain rfl := hI.others_sent hl hu hr
      exact hsent u r hu hr (hk.stage r _ hr)
    · rw [hI.others_unseen hl hu] at hun
      cases hun
  · exact howned
  · intro h b hp
    rcases hpend h b hp with ⟨r, hr, hh⟩ | ⟨u, r, hu, hr, hh⟩
    · exact ⟨t, r, by rw [update_self, hr], hh⟩
    · exact ⟨u, r, by rw [update_of_ne hu, hr], hh⟩
  · intro b hb
    rcases hdisk b hb with ⟨r, ph, hr, hh⟩ | ⟨u, r, ph, hu, hr, hh⟩
    · exact ⟨t, r, ph, by rw [update_self, hr], hh⟩
    · exact ⟨u, r, ph, by rw [update_of_ne hu, hr], hh⟩
  · exact hlaw
  · exact htr

/-! ### The steps of a request -/

theorem locked_of (hI : Inv s gs) (hg : gs t = g) (hl : g.locked = true) : s.lock = some t := by
  rw [← hI.lock, hg, hl]

theorem at_busy (h : Stage s r ph) : At s ⟨true, some r.buf, some (r, ph), false⟩ := by
  constructor
  · intro r' ph' hr
    cases hr
    rfl
  · intro _ _ _ _
    rfl
  · intro r' ph' hr
    cases hr
    exact h
  · intro hun
    cases hun

theorem at_free {l : Bool} {o : Option B} : At s ⟨l, o, none, false⟩ := by
  constructor
  · intro _ _ hr
    cases hr
  · intro _ _ hr
    cases hr
  · intro _ _ hr
    cases hr
  · intro hun
    cases hun

variable [DecidableEq T] [DecidableEq B]

section

variable (hI : Inv s gs)

include hI

omit [DecidableEq B] in
theorem inflight_same (hr : (gs t).req = some (r, ph)) :
    s.inflight = update s.inflight t (some r) := by
  rw [← hI.inflight_of_req hr, update_eq_self]

omit [DecidableEq B] in
/-- Three descriptors are allocated. -/
theorem alloc (hg : gs t = ⟨true, some r.buf, none, false⟩)
    (hinj : Function.Injective r.desc) (hfree : ∀ k, s.free (r.desc k) = true) :
    Inv { s with
      free := update (update (update s.free r.head false) r.mid false)
        r.last false
      inflight := update s.inflight t (some r) }
      (update gs t ⟨true, some r.buf, some (r, .allocated), false⟩) := by
  have hnone : s.inflight t = none := by
    rw [hI.inflight, hg]
    rfl
  refine hI.mine (hI.locked_of hg rfl) rfl rfl rfl (by rw [hg]) rfl (at_busy trivial) ?_ ?_ ?_ ?_
    hI.lawful
    { hI.transit with }
  · intro u r' _ _ hst
    exact hst.frame rfl (fun _ => rfl) rfl rfl rfl rfl
  · refine hI.owned.alloc hnone hinj hfree fun i => ?_
    rw [exists_desc]
    simp only [update_apply]
    split_ifs with h2 h1 h0
    · simp [h2]
    · simp [h1]
    · simp [h0]
    · simp [h2, h1, h0]
  · exact fun _ _ hp => Or.inr (hI.pending_other hg nofun hp)
  · exact fun _ hb => Or.inr (hI.disk_other hg nofun hb)

omit [DecidableEq B] in
/-- The allocation of the descriptors is undone. -/
theorem undone (hg : gs t = ⟨true, some b, none, false⟩) (hu : Undone s s') :
    Inv { s' with inflight := update s'.inflight t none } (update gs t (gs t)) := by
  obtain ⟨d, a, rfl, hd⟩ := hu
  have hnone : s.inflight t = none := by
    rw [hI.inflight, hg]
    rfl
  refine hI.mine (hI.locked_of hg rfl) rfl rfl (by rw [hg]) rfl (by rw [hg]; rfl)
    (by rw [hg]; exact at_free) ?_ ?_ ?_ ?_ hI.lawful
    { hI.transit with }
  · intro u r' _ hr hst
    refine hst.sent_frame (fun k => ?_) rfl rfl rfl
    exact hd _ (hI.owned.not_free (hI.inflight_of_req hr) k)
  · show Owned s.free (update s.inflight t none)
    rw [← hnone, update_eq_self]
    exact hI.owned
  · exact fun _ _ hp => Or.inr (hI.pending_other hg nofun hp)
  · exact fun _ hb => Or.inr (hI.disk_other hg nofun hb)

/-- The descriptors are formatted. -/
theorem format {write : Bool} (hg : gs t = ⟨true, some r.buf, some (r, .allocated), false⟩) :
    Inv (s.format r.buf write (r.head, r.mid, r.last))
      (update gs t ⟨true, some r.buf, some (r, .formatted), false⟩) := by
  have hreq : (gs t).req = some (r, .allocated) := by rw [hg]
  have hin := hI.inflight_of_req hreq
  have hinj := hI.owned.injective hin
  -- three different descriptors, so that no store undoes another
  have h01 : r.head ≠ r.mid := fun h => absurd (@hinj 0 1 h) (by decide)
  have h02 : r.head ≠ r.last := fun h => absurd (@hinj 0 2 h) (by decide)
  have h12 : r.mid ≠ r.last := fun h => absurd (@hinj 1 2 h) (by decide)
  have hnp := hI.not_pending hreq nofun
  have hself : Stage (s.format r.buf write (r.head, r.mid, r.last)) r .formatted := by
    refine ⟨⟨⟨?_, ?_, ?_⟩, ?_⟩, ?_⟩
    · simp only [State.format]
      rw [update_of_ne h02, update_of_ne h01, update_self]
    · refine ⟨(if write then 0 else VRING_DESC_F_WRITE) ||| VRING_DESC_F_NEXT, ?_, ?_⟩
      · simp only [State.format]
        rw [update_of_ne h12, update_self]
      · cases write with
        | false => decide
        | true => decide
    · simp only [State.format]
      rw [update_self]
    · simp only [State.format]
      rw [update_self]
    · simp only [State.format]
      rw [update_self]
  refine hI.mine (hI.locked_of hg rfl) rfl rfl rfl (by rw [hg]) (hI.inflight_same hreq)
    (at_busy hself) ?_ hI.owned ?_ ?_
    hI.lawful ⟨hI.transit.avail, hI.transit.used, hI.transit.nodup, hI.transit.mem, ?_⟩
  · intro u r' hu hr hst
    have hne : ∀ k k', r'.desc k ≠ r.desc k' := fun k k' h => hI.desc_ne hu hreq hr k' k h.symm
    refine hst.sent_frame (fun k => ?_) ?_ ?_ rfl
    · simp only [State.format]
      rw [update_of_ne (show r'.desc k ≠ r.last from hne k 2),
        update_of_ne (show r'.desc k ≠ r.mid from hne k 1),
        update_of_ne (show r'.desc k ≠ r.head from hne k 0)]
    · simp only [State.format]
      rw [update_of_ne (show r'.head ≠ r.head from hne 0 0)]
    · exact update_of_ne (hI.buf_ne hu (by rw [hg]) hr) ..
  · exact fun _ _ hp => Or.inr (hI.pending_other hg nofun hp)
  · intro b hb
    by_cases hbr : b = r.buf
    · exact Or.inl ⟨r, .formatted, rfl, nofun, hbr.symm⟩
    · have hb' : s.disk b = true := (update_of_ne hbr ..).symm.trans hb
      refine Or.inr (hI.disk_other hg (fun r' ph' hr => ?_) hb')
      cases hr
      exact Or.inl rfl
  · intro k hk
    -- the device has nothing to do with this head yet
    have hkh : k ≠ r.head := by
      rintro rfl
      have hmem := (hI.transit.mem r.head).mp (mem_transit.mpr (Or.inr (Or.inr hk)))
      rw [hnp] at hmem
      cases hmem
    have hsame : ((s.format r.buf write (r.head, r.mid, r.last)).info k).status =
        (s.info k).status := by
      simp only [State.format]
      rw [update_of_ne hkh]
    rw [hsame]
    exact hI.transit.status k hk

/-- The head is put in the next slot of the available ring. -/
theorem slot_step (hg : gs t = ⟨true, some r.buf, some (r, .formatted), false⟩) :
    Inv { s with availRing := update s.availRing (slot s.availIdx) r.head }
      (update gs t ⟨true, some r.buf, some (r, .slotted), false⟩) := by
  have hreq : (gs t).req = some (r, .formatted) := by rw [hg]
  have hst := (hI.know t).stage _ _ hreq
  have hroom := hI.transit.room (hI.not_pending hreq nofun)
  refine hI.mine (hI.locked_of hg rfl) rfl rfl rfl (by rw [hg]) (hI.inflight_same hreq)
    (at_busy ⟨hst.1.frame (fun _ => rfl) rfl, hst.2, update_self ..⟩) ?_ hI.owned ?_ ?_
    hI.lawful ⟨hI.transit.avail.scribble (by decide) hroom _, hI.transit.used, hI.transit.nodup,
      hI.transit.mem, hI.transit.status⟩
  · intro u r' _ _ hst'
    exact hst'.sent_frame (fun _ => rfl) rfl rfl rfl
  · exact fun _ _ hp => Or.inr (hI.pending_other hg nofun hp)
  · intro b hb
    by_cases hbr : b = r.buf
    · exact Or.inl ⟨r, .slotted, rfl, nofun, hbr.symm⟩
    · refine Or.inr (hI.disk_other hg (fun r' ph' hr => ?_) hb)
      cases hr
      exact Or.inr (Ne.symm hbr)

/-- The device is told of the request. -/
theorem publish (hg : gs t = ⟨true, some r.buf, some (r, .slotted), false⟩) :
    Inv { s with
      availIdx := s.availIdx + 1
      published := s.published ++ [r.head]
      hist := .submit r.head r.buf :: s.hist }
      (update gs t ⟨true, some r.buf, some (r, .sent), false⟩) := by
  have hreq : (gs t).req = some (r, .slotted) := by rw [hg]
  obtain ⟨hf, hdisk, hslot⟩ := (hI.know t).stage _ _ hreq
  have hnp := hI.not_pending hreq nofun
  refine hI.mine (hI.locked_of hg rfl) rfl rfl rfl (by rw [hg]) (hI.inflight_same hreq)
    (at_busy ⟨hf.frame (fun _ => rfl) rfl, ?_⟩) ?_ hI.owned ?_ ?_ ⟨hnp, hI.lawful⟩
    (hI.transit.publish hnp hslot)
  · rw [pendingOf_submit_self, if_pos hdisk]
  · intro u r' hu hr hst
    have hne : r.head ≠ r'.head := hI.desc_ne hu hreq hr 0 0
    exact hst.sent_frame (fun _ => rfl) rfl rfl (pendingOf_submit_of_ne hne)
  · intro h b hp
    obtain rfl | hh := eq_or_ne r.head h
    · rw [pendingOf_submit_self] at hp
      exact Or.inl ⟨r, rfl, rfl, Option.some.inj hp⟩
    · rw [pendingOf_submit_of_ne hh] at hp
      exact Or.inr (hI.pending_other hg nofun hp)
  · intro b hb
    by_cases hbr : b = r.buf
    · exact Or.inl ⟨r, .sent, rfl, nofun, hbr.symm⟩
    · refine Or.inr (hI.disk_other hg (fun r' ph' hr => ?_) hb)
      cases hr
      exact Or.inr (Ne.symm hbr)

omit [DecidableEq B] in
/-- The request is found completed. -/
theorem learn (hg : gs t = ⟨true, some r.buf, some (r, .sent), false⟩) (hd : s.disk r.buf = false) :
    Inv s (update gs t ⟨true, some r.buf, some (r, .done), false⟩) := by
  have hreq : (gs t).req = some (r, .sent) := by rw [hg]
  obtain ⟨hf, hpend⟩ := (hI.know t).stage _ _ hreq
  rw [hd, if_neg Bool.false_ne_true] at hpend
  refine hI.mine (hI.locked_of hg rfl) rfl rfl rfl (by rw [hg]) (hI.inflight_same hreq)
    (at_busy ⟨hf, hd⟩) (fun _ _ _ _ hst => hst) hI.owned ?_ ?_ hI.lawful hI.transit
  · intro h b hp
    obtain ⟨u, r', hu, hh, hb⟩ := hI.pending h b hp
    refine Or.inr ⟨u, r', ?_, hu, hh, hb⟩
    rintro rfl
    rw [hreq] at hu
    cases hu
    rw [hh, hp] at hpend
    cases hpend
  · intro b hb
    refine Or.inr (hI.disk_other hg (fun r' ph' hr => ?_) hb)
    cases hr
    right
    rintro rfl
    rw [hd] at hb
    cases hb

/-- The descriptors are given back. -/
theorem finish (hg : gs t = ⟨true, some r.buf, some (r, .done), false⟩)
    (hs : s' = { s with info := update s.info r.head { s.info r.head with b := none } }) :
    s'.free_chain NUM r.head = .ok (s'.freedAll r) ∧
      Inv { s'.freedAll r with inflight := update (s'.freedAll r).inflight t none }
        (update gs t ⟨true, some r.buf, none, false⟩) := by
  subst hs
  have hreq : (gs t).req = some (r, .done) := by rw [hg]
  have hin := hI.inflight_of_req hreq
  obtain ⟨hf, hdisk⟩ := (hI.know t).stage _ _ hreq
  constructor
  · exact free_chain_ok (hf.toChained.frame fun _ => rfl) (hI.owned.injective hin)
      (hI.owned.not_free hin)
  refine hI.mine (hI.locked_of hg rfl) rfl rfl rfl (by rw [hg]) rfl at_free ?_ ?_ ?_ ?_ hI.lawful
    ⟨hI.transit.avail, hI.transit.used, hI.transit.nodup, hI.transit.mem, ?_⟩
  · -- the other requests have other descriptors
    intro u r' hu hr hst
    have hne : ∀ k k', r.desc k ≠ r'.desc k' := hI.desc_ne hu hreq hr
    refine hst.sent_frame (fun k => freedAll_desc fun k' => hne k' k) ?_ rfl rfl
    exact congrArg Info.b (update_of_ne (show r'.head ≠ r.head from (hne 0 0).symm) ..)
  · -- the three descriptors are free again, and no others
    refine hI.owned.give hin fun i => ?_
    have hnot : (∀ k, r.desc k ≠ i) ↔ ¬ (i = r.head ∨ i = r.mid ∨ i = r.last) := by
      rw [← exists_desc, not_exists]
    rw [hnot]
    simp only [State.freedAll, State.freed, update_apply]
    split_ifs with h2 h1 h0
    · simp [h2]
    · simp [h1]
    · simp [h0]
    · simp [h2, h1, h0]
  · exact fun _ _ hp => Or.inr (hI.pending_other hg nofun hp)
  · intro b hb
    refine Or.inr (hI.disk_other hg (fun r' ph' hr => ?_) hb)
    cases hr
    right
    rintro rfl
    rw [show s.disk r.buf = true from hb] at hdisk
    cases hdisk
  · intro k hk
    have hsame : (update s.info r.head { s.info r.head with b := none } k).status =
        (s.info k).status := by
      obtain rfl | hkr := eq_or_ne k r.head
      · rw [update_self]
      · rw [update_of_ne hkr]
    exact hsame.trans (hI.transit.status k hk)

omit [DecidableEq T] [DecidableEq B] in
/-- The request whose head comes next in the used ring, and what `virtio_disk_intr` finds. -/
theorem next (hne : s.seenIdx ≠ s.usedIdx) :
    ∃ u r, (gs u).req = some (r, .sent) ∧ r.head = s.usedRing (slot s.seenIdx) ∧
      (s.info r.head).status = 0 ∧ (s.info r.head).b = some r.buf ∧ s.disk r.buf = true ∧
      pendingOf r.head s.hist = some r.buf := by
  have hmem := hI.transit.next_mem hne
  have hsome := (hI.transit.mem _).mp (mem_transit.mpr (Or.inr (Or.inr (Or.inr hmem))))
  obtain ⟨b, hb⟩ := Option.isSome_iff_exists.mp hsome
  obtain ⟨u, r, hu, hh, hbuf⟩ := hI.pending _ _ hb
  obtain ⟨hf, hpend⟩ := (hI.know u).stage _ _ hu
  rw [← hh] at hb hmem
  have hdisk : s.disk r.buf = true := by
    by_contra hd
    rw [hb, if_neg hd] at hpend
    cases hpend
  rw [if_pos hdisk] at hpend
  exact ⟨u, r, hu, hh, hI.transit.status _ (Or.inr hmem), hf.info, hdisk, hpend⟩

/-- A completion is seen. -/
theorem complete (hg : gs t = ⟨true, none, none, true⟩)
    (hne : s.seenIdx ≠ s.usedIdx) (hu : (gs u).req = some (r, .sent))
    (hh : r.head = s.usedRing (slot s.seenIdx)) (hp : pendingOf r.head s.hist = some r.buf) :
    Inv { s with
      disk := update s.disk r.buf false
      asleep := woken s.asleep (.buf r.buf)
      seenIdx := s.seenIdx + 1
      consumed := s.consumed ++ [r.head]
      hist := .complete r.head r.buf :: s.hist }
      (update gs t ⟨true, none, none, false⟩) := by
  have hnone : s.inflight t = none := by
    rw [hI.inflight, hg]
    rfl
  have htr := hI.transit.complete hne r.buf (update s.disk r.buf false)
    (woken s.asleep (.buf r.buf))
  rw [← hh] at htr
  refine hI.mine (hI.locked_of hg rfl) rfl rfl rfl (by rw [hg]) ?_ at_free ?_ hI.owned ?_ ?_
    ⟨hp, hI.lawful⟩ htr
  · show s.inflight = update s.inflight t none
    rw [← hnone, update_eq_self]
  · intro v r' _ hr hst
    by_cases hvu : v = u
    · -- this is the request that is completed
      subst hvu
      rw [hu] at hr
      cases hr
      refine ⟨hst.1.frame (fun _ => rfl) rfl, ?_⟩
      rw [pendingOf_complete_self]
      simp
    · have hhead : r.head ≠ r'.head := hI.desc_ne hvu hu hr 0 0
      have hbuf : r'.buf ≠ r.buf := hI.buf_ne hvu ((hI.know u).buf _ _ hu) hr
      exact hst.sent_frame (fun _ => rfl) rfl (update_of_ne hbuf ..)
        (pendingOf_complete_of_ne hhead)
  · intro k b hk
    obtain rfl | hkr := eq_or_ne r.head k
    · rw [pendingOf_complete_self] at hk
      cases hk
    · rw [pendingOf_complete_of_ne hkr] at hk
      exact Or.inr (hI.pending_other hg nofun hk)
  · intro b hb
    have hbr : b ≠ r.buf := by
      rintro rfl
      simp at hb
    have hb' : s.disk b = true := (update_of_ne hbr ..).symm.trans hb
    exact Or.inr (hI.disk_other hg nofun hb')

end

/-! ### The steps of the device -/

omit [DecidableEq T] [DecidableEq B] in
/-- Steps that do not concern the driver. -/
theorem outside (hI : Inv s gs) (hl : s'.lock = s.lock) (hb : s'.buflock = s.buflock)
    (hin : s'.inflight = s.inflight) (hfree : s'.free = s.free) (hdisk : s'.disk = s.disk)
    (hhist : s'.hist = s.hist) (hdesc : s'.desc = s.desc)
    (hinfo : ∀ i, (s'.info i).b = (s.info i).b) (hring : s'.availRing = s.availRing)
    (hidx : s'.availIdx = s.availIdx) (hcons : s'.consumed = s.consumed)
    (hprod : s.produced.length ≤ s'.produced.length) (htr : Transit s') : Inv s' gs := by
  refine ⟨?_, ?_, ?_, fun t => ?_, ?_, ?_, ?_, ?_, htr⟩
  · rw [hl]
    exact hI.lock
  · rw [hb]
    exact hI.buf
  · rw [hin]
    exact hI.inflight
  · have hk := hI.know t
    refine ⟨hk.buf, hk.early, fun r ph hr => ?_, fun hun => ?_⟩
    · exact (hk.stage r ph hr).frame hdesc hinfo hdisk hhist hring hidx
    · rw [hcons]
      exact ⟨(hk.unseen hun).1, (hk.unseen hun).2.trans_le hprod⟩
  · rw [hfree, hin]
    exact hI.owned
  · rw [hhist]
    exact hI.pending
  · rw [hdisk]
    exact hI.disk
  · rw [hhist]
    exact hI.lawful

omit [DecidableEq T] [DecidableEq B] in
theorem chain_of_transit (hI : Inv s gs) (hh : h ∈ s.transit) :
    ∃ b, (s.chain NUM h).map Desc.addr = [.ops h, .data b, .status h] := by
  obtain ⟨b, hb⟩ := Option.isSome_iff_exists.mp ((hI.transit.mem h).mp hh)
  obtain ⟨u, r, hu, rfl, -⟩ := hI.pending h b hb
  exact ⟨r.buf, ((hI.know u).stage _ _ hu).1.chain⟩

theorem device (hI : Inv s gs) (hd : Device s s') : Inv s' gs ∧ Kept s s' := by
  cases hd with
  | take hne =>
    exact ⟨hI.outside rfl rfl rfl rfl rfl rfl rfl (fun _ => rfl) rfl rfl rfl le_rfl
      (hI.transit.take hne), .same rfl rfl rfl rfl⟩
  | @execute h s1 hh he =>
    obtain ⟨b, hchain⟩ := hI.chain_of_transit (mem_transit.mpr (Or.inr (Or.inl hh)))
    have htr := hI.transit.execute hh hchain he
    have hinfo : ∀ i, (update s.info h { s.info h with status := 0 } i).b =
        (s.info i).b := by
      intro i
      obtain rfl | hih := eq_or_ne i h
      · rw [update_self]
      · rw [update_of_ne hih]
    have hs1 := execute_eq hchain he
    unfold State.transfer at hs1
    split at hs1
    · subst hs1
      exact ⟨hI.outside rfl rfl rfl rfl rfl rfl rfl hinfo rfl rfl rfl le_rfl htr,
        .same rfl rfl rfl rfl⟩
    · subst hs1
      exact ⟨hI.outside rfl rfl rfl rfl rfl rfl rfl hinfo rfl rfl rfl le_rfl htr,
        .same rfl rfl rfl rfl⟩
  | report hh =>
    refine ⟨hI.outside rfl rfl rfl rfl rfl rfl rfl (fun _ => rfl) rfl rfl rfl ?_
      (hI.transit.report hh), .same rfl rfl rfl rfl⟩
    simp

theorem killed (hI : Inv s gs) (hk : Killed s s') : Inv s' gs ∧ Kept s s' := by
  obtain ⟨t, rfl⟩ := hk
  exact ⟨hI.outside rfl rfl rfl rfl rfl rfl rfl (fun _ => rfl) rfl rfl rfl le_rfl
    { hI.transit with },
    .same rfl rfl rfl rfl⟩

end Inv

/-! ### The rules -/

variable [DecidableEq T] [DecidableEq B]

variable {Q : Unit → Know B → Prop}

omit [DecidableEq B] in
theorem Inv.take {s : State T B} (hI : Inv s gs) (hg : gs t = g) (hfree : s.lock = none) :
    Inv { s with lock := some t } (update gs t { g with locked := true }) := by
  have hk := hI.know t
  rw [hg] at hk
  refine hI.quiet (iff_of_true rfl rfl) (fun u hu => ?_) (fun b hb => hI.buf t b ?_)
    (fun _ _ _ hb => hb) (by rw [hg]) ?_
  · rw [hfree]
    exact iff_of_false (by simp) fun h => hu (Option.some.inj h).symm
  · rwa [hg]
  · exact ⟨hk.buf, fun _ _ _ _ => rfl, hk.stage, fun hun => ⟨rfl, (hk.unseen hun).2⟩⟩

theorem safe_acquire (hl : g.locked = false)
    (hQ : Q () { g with locked := true }) : Safe (discipline T B) t acquire g Q := by
  refine safe_atomic fun s gs (hI : Inv s gs) hg => ?_
  have hmine : s.lock ≠ some t := by
    intro h
    rw [← hI.lock, hg, hl] at h
    cases h
  rw [if_neg hmine]
  split_ifs with hfree
  · exact ⟨_, ⟨hI.take hg hfree, .same rfl rfl rfl rfl⟩, hQ⟩
  · trivial

omit [DecidableEq B] in
theorem Inv.unlock {s : State T B} (hI : Inv s gs) (hg : gs t = g) (hl : g.locked = true)
    (hreq : ∀ r ph, g.req = some (r, ph) → ph = .sent) (hun : g.unseen = false)
    (a : T → Option (Chan B)) :
    Inv { s with lock := none, asleep := a } (update gs t { g with locked := false }) := by
  have hk := hI.know t
  rw [hg] at hk
  have hlock := hI.locked_of hg hl
  refine hI.quiet (iff_of_false nofun nofun) (fun u hu => ?_) (fun b hb => hI.buf t b ?_)
    (fun _ _ _ hb => hb) (by rw [hg]) ?_
  · rw [hlock]
    exact iff_of_false (fun h => hu (Option.some.inj h).symm) nofun
  · rwa [hg]
  · exact ⟨hk.buf, fun r ph hr hne => absurd (hreq r ph hr) hne, hk.stage, fun h =>
      absurd hun (by rw [show g.unseen = true from h]; nofun)⟩

theorem safe_release (hl : g.locked = true)
    (hreq : ∀ r ph, g.req = some (r, ph) → ph = .sent) (hun : g.unseen = false)
    (hQ : Q () { g with locked := false }) : Safe (discipline T B) t release g Q := by
  refine safe_atomic fun s gs (hI : Inv s gs) hg => ?_
  rw [if_pos (hI.locked_of hg hl)]
  exact ⟨_, ⟨hI.unlock hg hl hreq hun s.asleep, .same rfl rfl rfl rfl⟩, hQ⟩

theorem safe_sleep {chan : Chan B} (hl : g.locked = true)
    (hreq : ∀ r ph, g.req = some (r, ph) → ph = .sent) (hun : g.unseen = false)
    (hQ : Q () g) : Safe (discipline T B) t (sleep chan) g Q := by
  refine Safe.seq (safe_act fun s gs (hI : Inv s gs) hg =>
    ⟨_, ⟨hI.unlock hg hl hreq hun _, .same rfl rfl rfl rfl⟩, ?_⟩)
  refine Safe.seq (safe_atomic fun s gs hI hg => ?_)
  split_ifs with ha
  · refine ⟨{ g with locked := false }, ⟨?_, .same rfl rfl rfl rfl⟩, safe_acquire rfl ?_⟩
    · rwa [← hg, update_eq_self]
    · show Q () ⟨true, g.buf, g.req, g.unseen⟩
      rwa [← hl]
  · trivial

theorem safe_acquiresleep (hQ : Q () ⟨false, some b, none, false⟩) :
    Safe (discipline T B) t (acquiresleep b) .idle Q := by
  refine safe_atomic fun s gs (hI : Inv s gs) hg => ?_
  split_ifs with hfree
  · refine ⟨_, ⟨?_, .same rfl rfl rfl rfl⟩, hQ⟩
    refine hI.quiet ?_ (fun _ _ => Iff.rfl) (fun b' hb => ?_) (fun u b' _ hb => ?_)
      (by rw [hg]; rfl)
      Inv.at_free
    · rw [← hI.lock, hg]
      rfl
    · cases hb
      exact update_self ..
    · have hne : b' ≠ b := by
        rintro rfl
        rw [hfree] at hb
        cases hb
      rwa [update_of_ne hne]
  · trivial

theorem safe_releasesleep (hQ : Q () .idle) :
    Safe (discipline T B) t (releasesleep b) ⟨false, some b, none, false⟩ Q := by
  refine safe_act fun s gs (hI : Inv s gs) hg => ?_
  refine ⟨.idle, ⟨?_, .same rfl rfl rfl rfl⟩, hQ⟩
  refine hI.quiet ?_ (fun _ _ => Iff.rfl) nofun (fun u b' hu hb => ?_) (by rw [hg]; rfl)
    Inv.at_free
  · rw [← hI.lock, hg]
    rfl
  · have hne : b' ≠ b := by
      rintro rfl
      rw [hI.buf t b' (by rw [hg])] at hb
      exact hu (Option.some.inj hb).symm
    rwa [update_of_ne hne]

theorem safe_critical {ρ : Type} {f : T → State T B → Except String (ρ × State T B)}
    {Q : ρ → Know B → Prop} (h : ∀ s gs, Inv s gs → gs t = g → ∃ r s', f t s = .ok (r, s') ∧
      ∃ g', (Inv s' (update gs t g') ∧ Kept s s') ∧ Q r g') :
    Safe (discipline T B) t (critical f) g Q := by
  refine safe_atomic fun s gs hI hg => ?_
  obtain ⟨r, s', hf, hres⟩ := h s gs hI hg
  rwa [hf]

variable {rounds : ℕ}

/-- The loop that waits for descriptors ends with three of them. -/
theorem safe_allocLoop :
    Safe (discipline T B) t (allocLoop b rounds) ⟨true, some b, none, false⟩ fun idx g =>
      g = ⟨true, some b, some (⟨b, idx.1, idx.2.1, idx.2.2⟩, .allocated), false⟩ := by
  induction rounds with
  | zero => exact safe_atomic fun _ _ _ _ => trivial
  | succ rounds ih =>
    refine Safe.seq (safe_critical fun s gs hI hg => ?_)
    rcases alloc3_desc_cases s with ⟨s', heq, hu⟩ | ⟨i, j, k, heq, ⟨hi, hj, hk⟩, hij, hik, hjk⟩
    · rw [heq]
      refine ⟨none, _, rfl, gs t, ⟨hI.undone hg hu, ?_⟩, ?_⟩
      · obtain ⟨d, a, rfl, -⟩ := hu
        exact .same rfl rfl rfl rfl
      · rw [hg]
        exact Safe.seq (safe_sleep rfl nofun rfl ih)
    · rw [heq]
      have hinj : Function.Injective (Request.mk b i j k).desc := by
        intro x y hxy
        fin_cases x <;> fin_cases y <;> simp_all [Request.desc]
      have hfree : ∀ l, s.free ((Request.mk b i j k).desc l) = true := by
        intro l
        fin_cases l
        · exact hi
        · exact hj
        · exact hk
      refine ⟨some (i, j, k), _, rfl, _, ⟨hI.alloc (r := ⟨b, i, j, k⟩) hg hinj hfree, ?_⟩, rfl⟩
      exact .same rfl rfl rfl rfl

theorem safe_waitLoop (hb : r.buf = b) :
    Safe (discipline T B) t (waitLoop b rounds) ⟨true, some b, some (r, .sent), false⟩ fun _ g =>
      g = ⟨true, some b, some (r, .done), false⟩ := by
  subst hb
  induction rounds with
  | zero => exact safe_atomic fun _ _ _ _ => trivial
  | succ rounds ih =>
    refine Safe.seq (safe_look_learn fun s gs (hI : Inv s gs) hg => ?_)
    cases hd : s.disk r.buf with
    | true =>
      refine ⟨gs t, ?_, ?_⟩
      · rwa [update_eq_self]
      · rw [hg]
        exact Safe.seq (safe_sleep rfl (fun r' ph hr => by cases hr; rfl) rfl ih)
    | false => exact ⟨_, hI.learn hg hd, rfl⟩

variable {write : Bool}

/-- The steps of `virtio_disk_rw` between its two loops. -/
theorem safe_submit (hQ : Q () ⟨true, some r.buf, some (r, .sent), false⟩) :
    Safe (discipline T B) t (do
      .act fun _ s => s.format r.buf write (r.head, r.mid, r.last)
      writeSlot r.head
      publish r.buf r.head) ⟨true, some r.buf, some (r, .allocated), false⟩ Q := by
  refine Safe.seq (safe_act fun s gs (hI : Inv s gs) hg => ⟨_, ⟨hI.format hg, ?_⟩, ?_⟩)
  · refine ⟨Or.inl ⟨fun b hb => ?_, rfl, Or.inl rfl⟩, fun _ _ => rfl⟩
    simp only [State.format, update_apply]
    split_ifs
    · rfl
    · exact hb
  refine Safe.seq (safe_act fun s gs (hI : Inv s gs) hg => ⟨_, ⟨hI.slot_step hg, ?_⟩, ?_⟩)
  · -- the slot is not one the device has still to take
    have hreq : (gs t).req = some (r, .formatted) := by rw [hg]
    have hroom := hI.transit.room (hI.not_pending hreq nofun)
    refine ⟨Or.inl ⟨fun _ hb => hb, rfl, Or.inl rfl⟩, fun i hi => ?_⟩
    exact update_of_ne
      (hI.transit.avail.cell_ne_written (by decide) (by decide) hroom hi) ..
  refine safe_act fun s gs (hI : Inv s gs) hg => ⟨_, ⟨hI.publish hg, ?_⟩, hQ⟩
  exact ⟨Or.inl ⟨fun _ hb => hb, rfl, Or.inr ⟨_, _, rfl⟩⟩, fun _ _ => rfl⟩

theorem safe_finish (hb : r.buf = b) :
    Safe (discipline T B) t (finish r.head) ⟨true, some b, some (r, .done), false⟩ fun _ g =>
      g = ⟨true, some b, none, false⟩ := by
  subst hb
  refine safe_critical fun s gs hI hg => ?_
  obtain ⟨heq, hI'⟩ := hI.finish hg rfl
  dsimp only at heq ⊢
  rw [heq]
  exact ⟨(), _, rfl, _, ⟨hI', .same rfl rfl rfl rfl⟩, rfl⟩

theorem safe_virtio_disk_rw :
    Safe (discipline T B) t (virtio_disk_rw b write rounds) ⟨false, some b, none, false⟩ fun _ g =>
      g = ⟨false, some b, none, false⟩ := by
  unfold virtio_disk_rw
  refine Safe.seq (safe_acquire rfl ?_)
  refine Safe.bind safe_allocLoop ?_
  rintro ⟨i, j, k⟩ _ rfl
  have hsubmit := @safe_submit T B t ⟨b, i, j, k⟩ _ _
    (fun _ g => g = ⟨true, some b, some (⟨b, i, j, k⟩, .sent), false⟩) write rfl
  refine Safe.bind (p := do
      .act fun _ s => s.format b write (i, j, k)
      writeSlot i
      publish b i) hsubmit ?_
  rintro _ _ rfl
  refine Safe.bind (safe_waitLoop rfl) ?_
  rintro _ _ rfl
  refine Safe.bind (safe_finish rfl) ?_
  rintro _ _ rfl
  exact safe_release rfl nofun rfl rfl

theorem safe_request :
    Safe (discipline T B) t (request b write rounds) .idle fun _ g => g = .idle := by
  unfold request
  refine Safe.seq (safe_acquiresleep ?_)
  refine Safe.bind safe_virtio_disk_rw ?_
  rintro _ _ rfl
  exact safe_releasesleep rfl

omit [DecidableEq B] in
theorem Inv.seen {s : State T B} (hI : Inv s gs) (hg : gs t = ⟨true, none, none, false⟩) :
    Inv s (update gs t ⟨true, none, none, s.seenIdx != s.usedIdx⟩) := by
  refine hI.quiet ?_ (fun _ _ => Iff.rfl) (by simp) (fun _ _ _ hb => hb) (by rw [hg]) ?_
  · rw [← hI.lock, hg]
  · refine ⟨by simp, by simp, by simp, fun hun => ⟨rfl, ?_⟩⟩
    exact hI.transit.seen_ne_iff.mp (bne_iff_ne.mp hun)

/-- The loop of `virtio_disk_intr` finds a request and its buffer for every entry. -/
theorem safe_intrLoop :
    Safe (discipline T B) t (intrLoop rounds) ⟨true, none, none, false⟩ fun _ g =>
      g = ⟨true, none, none, false⟩ := by
  induction rounds with
  | zero => exact safe_atomic fun _ _ _ _ => trivial
  | succ rounds ih =>
    refine Safe.seq (safe_look_learn fun s gs (hI : Inv s gs) hg =>
      ⟨⟨true, none, none, s.seenIdx != s.usedIdx⟩, hI.seen hg, ?_⟩)
    cases s.seenIdx != s.usedIdx with
    | false => rfl
    | true =>
      refine Safe.seq (safe_critical fun s gs hI hg => ?_)
      have hne := hI.transit.seen_ne_iff.mpr ((hI.know t).unseen (by rw [hg])).2
      obtain ⟨u, r, hu, hh, hst, hinfo, hdisk, hp⟩ := hI.next hne
      refine ⟨(), _, ?_, _, ⟨hI.complete hg hne hu hh hp, ?_⟩, ih⟩
      · dsimp only
        rw [← hh, hst, hinfo]
        rfl
      · exact ⟨Or.inr ⟨r.head, r.buf, hne, hh, rfl, rfl, hp, hdisk, rfl⟩, fun _ _ => rfl⟩

theorem safe_virtio_disk_intr :
    Safe (discipline T B) t (virtio_disk_intr rounds) .idle fun _ g => g = .idle := by
  unfold virtio_disk_intr
  refine Safe.seq (safe_acquire rfl ?_)
  refine Safe.bind safe_intrLoop ?_
  rintro _ _ rfl
  exact safe_release rfl nofun rfl rfl

/-! ### The interrupt handler alone -/

/-- What the handler has done when it ends: all entries of the used ring are taken, and the flags
that are cleared are those of the buffers that were submitted with them. -/
structure Drained (s s' : State T B) : Prop where
  seen : s'.seenIdx = s.usedIdx
  flags : ∀ b, s'.disk b = true ↔ s.disk b = true ∧
    ∀ h ∈ Ring.pending s.usedRing s.seenIdx s.usedIdx, pendingOf h s.hist ≠ some b

/-- The loop; the induction is on the entries of the used ring that are left. -/
theorem ends_intrLoop (n : ℕ) : ∀ (s : State T B) (gs : T → Know B) (rounds : ℕ), Inv s gs →
    gs t = ⟨true, none, none, false⟩ → s.unseen.length = n → n < rounds →
    Ends (fun _ => False) t (intrLoop rounds) s fun _ s' => s'.lock = s.lock ∧
      s'.seenIdx = s.usedIdx ∧ ∀ b, s'.disk b = true ↔ s.disk b = true ∧
        ∀ h ∈ s.unseen, pendingOf h s.hist ≠ some b := by
  induction n with
  | zero =>
    intro s gs rounds hI hg hlen hlt
    obtain ⟨k, rfl⟩ := Nat.exists_eq_add_of_lt hlt
    have hnil : s.unseen = [] := List.length_eq_zero_iff.mp hlen
    have heq : s.seenIdx = s.usedIdx := by
      by_contra hne
      have hmem := hI.transit.next_mem hne
      rw [hnil] at hmem
      cases hmem
    rw [Nat.zero_add, intrLoop, ends_look_bind, heq]
    simp [hnil, heq]
  | succ n ih =>
    intro s gs rounds hI hg hlen hlt
    obtain ⟨k, rfl⟩ : ∃ k, rounds = k + 1 := ⟨rounds - 1, by omega⟩
    have hne : s.seenIdx ≠ s.usedIdx := by
      rw [hI.transit.seen_ne_iff]
      have : s.produced.length - s.consumed.length = n + 1 := by
        rw [← List.length_drop]
        exact hlen
      omega
    have hI := hI.seen hg
    rw [bne_iff_ne.mpr hne] at hI
    obtain ⟨u, r, hu, hh, hst, hinfo, -, hp⟩ := hI.next hne
    -- the state after one round
    have hI' := hI.complete (update_self ..) hne hu hh hp
    obtain ⟨s1, hs1⟩ : ∃ s1 : State T B, s1 = { s with
        disk := update s.disk r.buf false
        asleep := woken s.asleep (.buf r.buf)
        seenIdx := s.seenIdx + 1
        consumed := s.consumed ++ [r.head]
        hist := .complete r.head r.buf :: s.hist } := ⟨_, rfl⟩
    rw [← hs1] at hI'
    have hunseen : s.unseen = r.head :: s1.unseen := by
      rw [hs1, hh]
      exact hI.transit.used.drop_pop hne
    -- a head is at one place only, so that the other entries are not touched
    have hnot : r.head ∉ s1.unseen := by
      have hnodup := (List.nodup_append.mp (List.nodup_append.mp (List.nodup_append.mp
        hI.transit.nodup).2.1).2.1).2.1
      rw [hunseen] at hnodup
      exact (List.nodup_cons.mp hnodup).1
    have hstep : Ends (fun _ => False) t complete s fun _ s' => s' = s1 := by
      unfold complete critical Prog.atomic
      rw [ends_step]
      dsimp only
      rw [← hh, if_neg (by rw [hst]; simp), hinfo, hs1]
      rfl
    rw [intrLoop, ends_look_bind, if_pos (bne_iff_ne.mpr hne)]
    refine hstep.bind fun _ s' hs' => ?_
    subst hs'
    refine (ih s' _ k hI' (update_self ..) ?_ (by omega)).mono fun _ s2 h2 => ?_
    · rw [hunseen, List.length_cons] at hlen
      omega
    obtain ⟨hlock, hseen, hflags⟩ := h2
    refine ⟨hlock.trans (by rw [hs1]), hseen.trans (by rw [hs1]), fun b => ?_⟩
    have hrest : ∀ h ∈ s'.unseen, pendingOf h s'.hist = pendingOf h s.hist := by
      intro h hmem
      rw [hs1]
      refine pendingOf_complete_of_ne ?_
      rintro rfl
      exact hnot hmem
    have hdisk : s'.disk b = true ↔ s.disk b = true ∧ pendingOf r.head s.hist ≠ some b := by
      rw [hs1, hp]
      by_cases hb : b = r.buf
      · simp [hb]
      · simp [hb, Ne.symm hb]
    rw [hflags b, hdisk, hunseen, List.forall_mem_cons, and_assoc]
    refine and_congr_right fun _ => and_congr_right fun _ => forall₂_congr fun h hmem => ?_
    rw [hrest h hmem]

/-- **The handler takes every entry of the used ring**, in a state in which `vdisk_lock` is free. -/
theorem ends_virtio_disk_intr (hI : Inv s gs) (hg : gs t = .idle) (hl : s.lock = none)
    (hlt : (Ring.pending s.usedRing s.seenIdx s.usedIdx).length < rounds) :
    Ends (fun _ => False) t (virtio_disk_intr rounds) s fun _ s' => Drained s s' := by
  have hpend : Ring.pending s.usedRing s.seenIdx s.usedIdx = s.unseen :=
    hI.transit.used.pending_eq (by decide)
  rw [hpend] at hlt
  have hacq : Ends (fun _ => False) t acquire s fun _ s' => s' = { s with lock := some t } := by
    unfold acquire Prog.atomic
    rw [ends_step, if_neg (by rw [hl]; simp), if_pos hl]
    rfl
  unfold virtio_disk_intr
  refine hacq.bind fun _ s1 hs1 => ?_
  subst hs1
  refine (ends_intrLoop _ _ _ _ (hI.take hg hl) (update_self ..) rfl hlt).bind fun _ s2 h2 => ?_
  obtain ⟨hlock, hseen, hflags⟩ := h2
  unfold release Prog.atomic
  rw [ends_step, if_pos hlock]
  refine ⟨hseen, fun b => ?_⟩
  rw [hpend]
  exact hflags b

/-! ### Every reachable pool -/

omit [DecidableEq T] [DecidableEq B] in
theorem inv_of_fresh (h : Fresh s) : Inv s fun _ => Know.idle where
  lock t := by
    rw [h.lock]
    exact iff_of_false nofun nofun
  buf _ _ hb := nomatch hb
  inflight t := h.inflight t
  know _ := Inv.at_free
  owned := by
    constructor
    · intro t u r r' k k' ht
      rw [h.inflight] at ht
      cases ht
    · intro i
      rw [h.free i]
      refine iff_of_false nofun ?_
      rintro ⟨t, r, k, ht, -⟩
      rw [h.inflight] at ht
      cases ht
  pending _ _ hp := by
    rw [h.hist] at hp
    cases hp
  disk b hb := by
    rw [h.disk] at hb
    cases hb
  lawful := by
    rw [h.hist]
    trivial
  transit := by
    -- nothing has been published yet
    have hnil : s.transit = [] := by
      simp [State.transit, State.untaken, State.unseen, h.published, h.running, h.finished,
        h.produced]
    constructor
    · rw [h.lastAvail, h.availIdx, h.taken, h.published]
      exact Ring.Holds.start _
    · rw [h.seenIdx, h.usedIdx, h.consumed, h.produced]
      exact Ring.Holds.start _
    · rw [hnil]
      exact List.nodup_nil
    · intro k
      rw [hnil, h.hist]
      simp [pendingOf]
    · intro k hk
      have hk' := mem_transit.mpr (Or.inr (Or.inr hk))
      rw [hnil] at hk'
      cases hk'

theorem good_of_reachable {c : Pool T (State T B)} (h : (machine T B).Reachable c) :
    (discipline T B).Good c := by
  refine Discipline.invariant ?_ ?_ ?_ h
  · rintro c ⟨hf, hc, hh⟩
    refine ⟨⟨fun _ => Know.idle, inv_of_fresh hf, fun t => ?_⟩, fun msg hmsg => ?_⟩
    · rw [hc t]
      exact rfl
    · rw [hh] at hmsg
      cases hmsg
  · intro t s gs p hI hidle hcall
    refine ⟨.idle, ?_, ?_⟩
    · rwa [← show gs t = Know.idle from hidle, update_eq_self]
    · cases hcall with
      | request b write rounds => exact safe_request
      | virtio_disk_intr rounds => exact safe_virtio_disk_intr
  · rintro c c' hgood ⟨s', hs, rfl⟩
    obtain ⟨gs, hI, hsafe⟩ := hgood.safe
    refine ⟨⟨gs, ?_, hsafe⟩, hgood.allowed⟩
    rcases hs with hs | hs
    · exact ((show Inv c.st gs from hI).device hs).1
    · exact ((show Inv c.st gs from hI).killed hs).1

theorem kept_of_step {c c' : Pool T (State T B)} (h : (machine T B).Reachable c)
    (hs : (machine T B).Step c c') : Kept c.st c'.st := by
  have hgood := good_of_reachable h
  rcases hgood.guar hs with ⟨s', hs', rfl⟩ | hk
  · obtain ⟨gs, hI, -⟩ := hgood.safe
    rcases hs' with hs' | hs'
    · exact ((show Inv c.st gs from hI).device hs').2
    · exact ((show Inv c.st gs from hI).killed hs').2
  · exact hk

/-- The descriptors of the requests in flight, and the free ones. -/
structure Accounted (s : State T B) : Prop where
  disjoint : ∀ t u r r', s.inflight t = some r → s.inflight u = some r' → t ≠ u →
    ∀ k k', r.desc k ≠ r'.desc k'
  finite : {t | (s.inflight t).isSome = true}.Finite
  count : (Finset.univ.filter fun i => s.free i = true).card +
    3 * {t | (s.inflight t).isSome = true}.ncard = NUM

/-- **Requests in flight.**  In every reachable pool the descriptors are accounted for; every
completion was of a request submitted with its head; while `vdisk_lock` is free, the buffers with
their flag set are those submitted and not completed, and an interrupt clears the flags of those
whose heads are in the used ring; the available ring holds what was submitted and not taken; the
device can execute what it has taken; each step takes the next entry of the used ring and clears
its flag or leaves flags and slots; and nothing has panicked. -/
theorem requests_in_flight {c : Pool T (State T B)} (h : (machine T B).Reachable c) :
    Accounted c.st ∧ Lawful c.st.hist ∧
      (c.st.lock = none → (∀ b, c.st.disk b = true ↔ ∃ h, pendingOf h c.st.hist = some b) ∧
        ∀ t rounds, c.code t = .ret () →
          (Ring.pending c.st.usedRing c.st.seenIdx c.st.usedIdx).length < rounds →
          ∃ s', (virtio_disk_intr rounds).run t c.st = .ok () s' ∧ Drained c.st s') ∧
      Ring.pending c.st.availRing c.st.lastAvail c.st.availIdx = c.st.untaken ∧
      (∀ h ∈ c.st.running, (c.st.execute h).isSome = true) ∧
      (∀ c', (machine T B).Step c c' → Kept c.st c'.st) ∧ c.halted = none := by
  have hgood := good_of_reachable h
  obtain ⟨gs, (hI : Inv c.st gs), hsafe⟩ := hgood.safe
  refine ⟨⟨?_, hI.owned.finite, hI.owned.count⟩, hI.lawful, fun hl => ⟨fun b => ?_, ?_⟩,
    hI.transit.avail.pending_eq (by decide), ?_, fun c' => kept_of_step h, ?_⟩
  · intro t u r r' ht hu hne
    exact hI.owned.desc_ne ht hu (Ne.symm hne)
  · constructor
    · intro hb
      obtain ⟨t, r, ph, hr, hph, rfl⟩ := hI.disk b hb
      -- the lock is free, so nobody is in the middle of a request
      have hsent : ph = .sent := by
        by_contra hne
        have ht := (hI.lock t).mp ((hI.know t).early r ph hr hne)
        rw [hl] at ht
        cases ht
      subst hsent
      refine ⟨r.head, ?_⟩
      rw [((hI.know t).stage _ _ hr).2, if_pos hb]
    · rintro ⟨k, hk⟩
      obtain ⟨t, r, hr, rfl, rfl⟩ := hI.pending k b hk
      have hst := ((hI.know t).stage _ _ hr).2
      by_contra hd
      rw [hk, if_neg hd] at hst
      cases hst
  · intro t rounds hcode hlt
    have hidle := hsafe t
    rw [hcode] at hidle
    obtain ⟨⟨⟩, s', hrun, hs'⟩ := (ends_virtio_disk_intr hI hidle hl hlt).exists_run
    exact ⟨s', hrun, hs'⟩
  · intro k hk
    obtain ⟨b, hchain⟩ := hI.chain_of_transit (mem_transit.mpr (Or.inr (Or.inl hk)))
    simp only [State.execute, hchain, Option.isSome_some]
  · cases hh : c.halted with
    | none => rfl
    | some msg => exact (hgood.allowed msg hh).elim

/-! ### One request -/

/-- Two threads, two buffers, and nothing in flight. -/
def started : Pool (Fin 2) (State (Fin 2) (Fin 2)) where
  st :=
    { lock := none
      desc := fun _ => ⟨.null, 0, 0, 0⟩
      availIdx := 0
      availRing := fun _ => 0
      usedIdx := 0
      usedRing := fun _ => 0
      free := fun _ => true
      seenIdx := 0
      info := fun _ => ⟨none, 0⟩
      ops := fun _ => ⟨0, 0, 0⟩
      disk := fun _ => false
      blockno := fun b => b
      data := fun _ _ => 0
      buflock := fun _ => none
      asleep := fun _ => none
      lastAvail := 0
      running := []
      finished := []
      media := fun _ _ => 0
      inflight := fun _ => none
      published := []
      taken := []
      produced := []
      consumed := []
      hist := [] }
  code _ := .ret ()
  halted := none

theorem started_reachable : (machine (Fin 2) (Fin 2)).Reachable started :=
  .init ⟨⟨rfl, rfl, rfl, rfl, rfl, fun _ => rfl, fun _ => rfl, fun _ => rfl, rfl, rfl, fun _ => rfl,
    rfl, rfl, rfl, rfl, rfl⟩, fun _ => rfl, rfl⟩

/-- Thread 0 writes a buffer, and falls asleep. -/
def submitted : Pool (Fin 2) (State (Fin 2) (Fin 2)) :=
  ((started.start 0 (request 1 true 2)).play [0, 0, 0, 0, 0, 0, 0, 0]).getD started

theorem submitted_reachable : (machine (Fin 2) (Fin 2)).Reachable submitted :=
  System.Reachable.play_getD (started_reachable.start rfl rfl (.request 1 true 2))
    (by decide +kernel)

/-- The device has taken the request. -/
def taken : State (Fin 2) (Fin 2) :=
  { submitted.st with running := [0], taken := [0], lastAvail := 1 }

theorem isSome_execute_taken : (taken.execute 0).isSome = true := by
  decide +kernel

theorem exists_reported : ∃ c, (machine (Fin 2) (Fin 2)).Reachable c ∧ c.st.lock = none ∧
    c.code 1 = .ret () ∧ c.st.disk 1 = true ∧ pendingOf 0 c.st.hist = some 1 ∧
    Ring.pending c.st.usedRing c.st.seenIdx c.st.usedIdx = [0] := by
  have htake := submitted_reachable.step
    (.env ⟨taken, Or.inl (.take (by decide +kernel)), rfl⟩)
  have hexec := htake.step (.env ⟨_, Or.inl (.execute (h := 0) (by decide)
    (Option.some_get isSome_execute_taken).symm), rfl⟩)
  have hreport := hexec.step (.env ⟨_, Or.inl (.report (h := 0) (by decide)), rfl⟩)
  exact ⟨_, hreport, by decide +kernel, rfl, by decide +kernel, by decide +kernel,
    by decide +kernel⟩

theorem requests_in_flight_completed : ∃ c, (machine (Fin 2) (Fin 2)).Reachable c ∧
    c.st.disk 1 = true ∧ Accounted c.st ∧
      ∃ s', (virtio_disk_intr 2).run 1 c.st = .ok () s' ∧ s'.disk 1 = false := by
  obtain ⟨c, hc, hlock, hcode, hdisk, hpend, hring⟩ := exists_reported
  obtain ⟨hacc, -, hfree, -⟩ := requests_in_flight hc
  obtain ⟨s', hrun, hdrained⟩ := (hfree hlock).2 1 2 hcode (by rw [hring]; decide)
  refine ⟨c, hc, hdisk, hacc, s', hrun, ?_⟩
  by_contra hne
  have hnot := ((hdrained.flags 1).mp (by simpa using hne)).2 0 (by rw [hring]; simp)
  exact hnot hpend

end Xv6.Disk
