import Xv6.Console.Line

/-!
# What the readers of the console get

Any number of readers and interrupts share the console.  Whatever their order,
the reads together take the committed input from its front, one byte after the
other: none is lost, none is taken twice, and the editing keys do not reach it.

A read that meets a `^D` ends.  If it already has bytes it leaves the `^D`
where it is, and the read that takes it is one that has none, so that it returns
0.  Among reads that do not overlap this is the next one.  Two reads that
overlap may both have bytes when the `^D` comes (`saved_twice`), and then both
end before it and leave it for a third.

## Main definitions

* `lineOf`, `readOf` — the line, and the read of a thread, after a history.
* `Lawful` — every event of a history was in order when it happened.
* `SavedOnce`, `SavedAmong` — what becomes of a `^D` that was left in place.
* `Inv`, `discipline` — the invariant.

## Main results

* `stream_of_reads` — **the bytes taken by the reads are the committed input, in order.**
-/

namespace Xv6.Console

open Conc Function

variable {T : Type} [DecidableEq T]

/-! ### Histories -/

/-- The line after a history. -/
def lineOf : List (Event T) → Line
  | [] => ⟨[], [], []⟩
  | .typed c :: h => (lineOf h).type c
  | .byte _ b :: h => (lineOf h).take b
  | .eof _ :: h => (lineOf h).take ctrlD
  | .call _ _ :: h | .saved _ :: h | .ret _ _ :: h => lineOf h

/-- A read in progress. -/
structure Read where
  /-- How many bytes it may take. -/
  asked : ℤ
  /-- The bytes it has taken. -/
  got : List UInt8
  /-- It has met a `^D`. -/
  ended : Bool

/-- It goes on until it has all it may take, has taken a newline, or has met a `^D`. -/
def Read.wants (rd : Read) : Prop :=
  rd.ended = false ∧ (rd.got.length : ℤ) < rd.asked ∧ newline ∉ rd.got

/-- The read of thread `t` after a history. -/
def readOf (t : T) : List (Event T) → Option Read
  | [] => none
  | .typed _ :: h => readOf t h
  | .call u n :: h => if u = t then some ⟨n, [], false⟩ else readOf t h
  | .byte u b :: h =>
      if u = t then (readOf t h).map fun rd => { rd with got := rd.got ++ [b] } else readOf t h
  | .eof u :: h | .saved u :: h =>
      if u = t then (readOf t h).map fun rd => { rd with ended := true } else readOf t h
  | .ret u _ :: h => if u = t then none else readOf t h

/-- What may happen next.  A read takes the first byte that was committed and not taken; it
takes no `^D` unless it has nothing; and it returns the number of bytes it has. -/
def Allowed (h : List (Event T)) : Event T → Prop
  | .typed _ => True
  | .call t _ => readOf t h = none
  | .byte t b => (lineOf h).unread.head? = some b ∧ b ≠ ctrlD ∧
      ∃ rd, readOf t h = some rd ∧ rd.wants
  | .eof t => (lineOf h).unread.head? = some ctrlD ∧
      ∃ rd, readOf t h = some rd ∧ rd.wants ∧ rd.got = []
  | .saved t => (lineOf h).unread.head? = some ctrlD ∧
      ∃ rd, readOf t h = some rd ∧ rd.wants ∧ rd.got ≠ []
  | .ret t n => ∃ rd, readOf t h = some rd ∧ ¬rd.wants ∧ n = rd.got.length

/-- Every event of the history was allowed when it happened. -/
def Lawful : List (Event T) → Prop
  | [] => True
  | ev :: h => Allowed h ev ∧ Lawful h

/-- A `^D` that has ended a read with bytes ends no other read with bytes before it is taken. -/
def SavedOnce (h : List (Event T)) : Prop :=
  ∀ later between earlier t u, h = later ++ .saved u :: (between ++ .saved t :: earlier) →
    ∃ v, .eof v ∈ between

/-- A `^D` that has ended a read with bytes stays first until it is taken, and until then ends
only reads that were in progress, with bytes, when the first of them met it. -/
def SavedAmong (h : List (Event T)) : Prop :=
  ∀ later earlier t, h = later ++ .saved t :: earlier → (∀ v, .eof v ∉ later) →
    (∀ u b, .byte u b ∉ later) ∧
      ∀ u, .saved u ∈ later → u ≠ t ∧ ∃ rd, readOf u earlier = some rd ∧ rd.wants ∧ rd.got ≠ []

/-- The thread an event is about. -/
def Event.thread : Event T → Option T
  | .typed _ => none
  | .call t _ | .byte t _ | .eof t | .saved t | .ret t _ => some t

/-- The byte a read takes. -/
def Event.takes : Event T → Option UInt8
  | .byte _ b => some b
  | .eof _ => some ctrlD
  | .typed _ | .call _ _ | .saved _ | .ret _ _ => none

theorem readOf_cons_of_ne {t : T} {ev : Event T} (h : List (Event T)) (hne : ev.thread ≠ some t) :
    readOf t (ev :: h) = readOf t h := by
  cases ev with
  | typed c => rfl
  | call u n => exact if_neg fun hu => hne (congrArg some hu)
  | byte u b => exact if_neg fun hu => hne (congrArg some hu)
  | eof u => exact if_neg fun hu => hne (congrArg some hu)
  | saved u => exact if_neg fun hu => hne (congrArg some hu)
  | ret u n => exact if_neg fun hu => hne (congrArg some hu)

theorem Line.unread_prefix_type (l : Line) (hl : l.taken <+: l.committed) (c : ℤ) :
    l.unread <+: (l.type c).unread := by
  obtain ⟨more, hmore⟩ := l.committed_prefix_type c
  unfold Line.unread
  rw [Line.taken_type, ← hmore, List.drop_append_of_le_length hl.length_le]
  exact List.prefix_append _ _

/-- Reads take no more than was committed. -/
theorem Lawful.taken_le {h : List (Event T)} (hl : Lawful h) :
    (lineOf h).taken <+: (lineOf h).committed := by
  induction h with
  | nil => exact List.prefix_rfl
  | cons ev h ih =>
    have ih := ih hl.2
    have htake : ∀ b, (lineOf h).unread.head? = some b →
        ((lineOf h).take b).taken <+: ((lineOf h).take b).committed := by
      intro b hb
      obtain ⟨rest, hrest⟩ := ih
      unfold Line.unread at hb
      rw [← hrest, List.drop_left] at hb
      cases rest with
      | nil => cases hb
      | cons a rest =>
        cases hb
        exact ⟨rest, by simp [Line.take, ← hrest]⟩
    cases ev with
    | typed c =>
      rw [lineOf, Line.taken_type]
      exact ih.trans ((lineOf h).committed_prefix_type c)
    | call u n => exact ih
    | byte u b => exact htake b hl.1.1
    | eof u => exact htake ctrlD hl.1.1
    | saved u => exact ih
    | ret u n => exact ih

theorem head?_mono {l l' : List UInt8} {b : UInt8} (hp : l <+: l') (hb : l.head? = some b) :
    l'.head? = some b := by
  obtain ⟨more, rfl⟩ := hp
  cases l with
  | nil => cases hb
  | cons a l => exact hb

/-- What holds as long as a `^D` that was left in place is not taken. -/
theorem Lawful.after_saved {t : T} {later earlier : List (Event T)}
    (hl : Lawful (later ++ .saved t :: earlier)) (heof : ∀ v, .eof v ∉ later) :
    (lineOf (later ++ .saved t :: earlier)).unread.head? = some ctrlD ∧ (∀ u b, .byte u b ∉ later) ∧
      (∀ u, .saved u ∈ later → u ≠ t ∧ ∃ rd, readOf u earlier = some rd ∧ rd.wants ∧ rd.got ≠ []) ∧
      ∀ u rd, readOf u (later ++ .saved t :: earlier) = some rd → rd.wants → rd.got ≠ [] →
        u ≠ t ∧ readOf u earlier = some rd := by
  induction later with
  | nil =>
    refine ⟨hl.1.1, nofun, nofun, fun u rd hrd hw _ => ?_⟩
    obtain rfl | hu := eq_or_ne t u
    · rw [List.nil_append, readOf, if_pos rfl] at hrd
      obtain ⟨rd', -, rfl⟩ := Option.map_eq_some_iff.mp hrd
      cases hw.1
    · rw [List.nil_append, readOf, if_neg hu] at hrd
      exact ⟨Ne.symm hu, hrd⟩
  | cons ev later ih =>
    obtain ⟨hhead, hbyte, hsaved, hread⟩ :=
      ih hl.2 fun v hv => heof v (List.mem_cons_of_mem _ hv)
    rw [List.cons_append] at hl ⊢
    -- a read that is not touched by the event
    have hother : ∀ u rd, ev.thread ≠ some u →
        readOf u (ev :: (later ++ .saved t :: earlier)) = some rd → rd.wants → rd.got ≠ [] →
        u ≠ t ∧ readOf u earlier = some rd := by
      intro u rd hne hrd
      rw [readOf_cons_of_ne _ hne] at hrd
      exact hread u rd hrd
    have hnot : ∀ {ev' : Event T}, ev' ≠ ev → ev' ∈ ev :: later → ev' ∈ later :=
      fun hne hmem => (List.mem_cons.mp hmem).resolve_left hne
    cases ev with
    | typed c =>
      refine ⟨head?_mono ?_ hhead, fun u b hm => hbyte u b (hnot nofun hm),
        fun u hm => hsaved u (hnot nofun hm), fun u rd => hother u rd nofun⟩
      exact Line.unread_prefix_type _ (Lawful.taken_le hl.2) c
    | call v n | ret v n =>
      refine ⟨hhead, fun u b hm => hbyte u b (hnot nofun hm),
        fun u hm => hsaved u (hnot nofun hm), fun u rd hrd hw hgot => ?_⟩
      by_cases hu : v = u
      · -- a read that starts has nothing yet
        rw [readOf, if_pos hu] at hrd
        cases hrd <;> exact absurd rfl hgot
      · exact hother u rd (fun h => hu (Option.some.inj h)) hrd hw hgot
    | byte v b =>
      -- the `^D` is first, and a read does not take it as a byte
      have hb := hl.1.1
      rw [hhead] at hb
      exact absurd (Option.some.inj hb).symm hl.1.2.1
    | eof v => exact absurd List.mem_cons_self (heof v)
    | saved v =>
      refine ⟨hhead, fun u b hm => hbyte u b (hnot nofun hm), fun u hm => ?_,
        fun u rd hrd hw hgot => ?_⟩
      · rcases List.mem_cons.mp hm with heq | hm
        · cases heq
          obtain ⟨-, rd, hrd, hw, hgot⟩ := hl.1
          obtain ⟨hne, hrd'⟩ := hread v rd hrd hw hgot
          exact ⟨hne, rd, hrd', hw, hgot⟩
        · exact hsaved u hm
      · by_cases hu : v = u
        · rw [readOf, if_pos hu] at hrd
          obtain ⟨rd', -, rfl⟩ := Option.map_eq_some_iff.mp hrd
          cases hw.1
        · exact hother u rd (fun h => hu (Option.some.inj h)) hrd hw hgot

theorem Lawful.savedAmong {h : List (Event T)} (hl : Lawful h) : SavedAmong h := by
  rintro later earlier t rfl heof
  obtain ⟨-, hbyte, hsaved, -⟩ := hl.after_saved heof
  exact ⟨hbyte, hsaved⟩

/-! ### The invariant -/

/-- What a thread knows. -/
structure Know where
  /-- What is in the console, if the thread holds `cons.lock`. -/
  cons : Option Cons
  /-- Its read, if it is in `consoleread`. -/
  read : Option Read

/-- The invariant. -/
structure Inv (s : State T) (gs : T → Know) : Prop where
  lock : ∀ t, s.lock = some t ↔ (gs t).cons ≠ none
  cons : ∀ t d, (gs t).cons = some d → s.cons = d
  read : ∀ t, readOf t s.hist = (gs t).read
  holds : s.cons.Shows (lineOf s.hist)
  lawful : Lawful s.hist

/-- Unread bytes before the write index stay as they are until a read takes the first. -/
def Kept (s s' : State T) : Prop :=
  s.cons.unread <+: s'.cons.unread ∨
    ∃ ev b, s'.hist = ev :: s.hist ∧ ev.takes = some b ∧ s.cons.unread = b :: s'.cons.unread

/-- The discipline of the console: no step panics. -/
def discipline (T : Type) [DecidableEq T] : Discipline T (State T) Know where
  Inv := Inv
  Guar := Kept
  refl _ := Or.inl List.prefix_rfl
  idle g := g = ⟨none, none⟩
  allow _ := False

variable {t : T} {s : State T} {gs : T → Know} {d d' : Cons} {rd : Read} {o o' : Option Read}

theorem Inv.cons_none (h : Inv s gs) (hg : gs t = ⟨some d, o⟩) {u : T} (hu : u ≠ t) :
    (gs u).cons = none := by
  by_contra hne
  have hl := (h.lock u).mpr hne
  have ht := (h.lock t).mpr (by rw [hg]; nofun)
  rw [hl] at ht
  exact hu (Option.some.inj ht)

/-- A step of the thread that holds the lock, with the event it records. -/
theorem Inv.event (h : Inv s gs) (hg : gs t = ⟨some d, o⟩) {ev : Event T}
    (hby : ∀ u, u ≠ t → ev.thread ≠ some u) (hrd : readOf t (ev :: s.hist) = o')
    (hshow : d'.Shows (lineOf (ev :: s.hist))) (hallow : Allowed s.hist ev) :
    Inv { s with cons := d', hist := ev :: s.hist } (update gs t ⟨some d', o'⟩) := by
  have ht : s.lock = some t := (h.lock t).mpr (by rw [hg]; nofun)
  refine ⟨fun u => ?_, fun u d1 hd => ?_, fun u => ?_, hshow, hallow, h.lawful⟩
  · obtain rfl | hu := eq_or_ne u t
    · rw [update_self]
      exact iff_of_true ht nofun
    · rw [update_of_ne hu]
      exact h.lock u
  · obtain rfl | hu := eq_or_ne u t
    · rw [update_self] at hd
      exact Option.some.inj hd
    · rw [update_of_ne hu, h.cons_none hg hu] at hd
      cases hd
  · obtain rfl | hu := eq_or_ne u t
    · rw [update_self]
      exact hrd
    · rw [update_of_ne hu]
      exact (readOf_cons_of_ne _ (hby u hu)).trans (h.read u)

/-- The lock changes hands, and nothing else. -/
theorem Inv.relock (h : Inv s gs) {l : Option T} {a : T → Bool} {kd : Option Cons}
    (hg : (gs t).read = o) (hkd : ∀ d, kd = some d → s.cons = d)
    (hothers : ∀ u, u ≠ t → (l = some u ↔ (gs u).cons ≠ none)) (ht : l = some t ↔ kd ≠ none) :
    Inv { s with lock := l, asleep := a } (update gs t ⟨kd, o⟩) := by
  refine ⟨fun u => ?_, fun u d hd => ?_, fun u => ?_, h.holds, h.lawful⟩
  · obtain rfl | hu := eq_or_ne u t
    · rw [update_self]
      exact ht
    · rw [update_of_ne hu]
      exact hothers u hu
  · obtain rfl | hu := eq_or_ne u t
    · rw [update_self] at hd
      exact hkd d hd
    · rw [update_of_ne hu] at hd
      exact h.cons u d hd
  · obtain rfl | hu := eq_or_ne u t
    · rw [update_self]
      exact (h.read u).trans hg
    · rw [update_of_ne hu]
      exact h.read u

/-! ### The rules -/

theorem safe_acquire {Q : Unit → Know → Prop} (hQ : ∀ d, Q () ⟨some d, o⟩) :
    Safe (discipline T) t acquire ⟨none, o⟩ Q := by
  refine safe_atomic fun s gs (hI : Inv s gs) hg => ?_
  have hne : s.lock ≠ some t := fun hl => (hI.lock t).mp hl (by rw [hg])
  rw [if_neg hne]
  split_ifs with hl
  · refine ⟨⟨some s.cons, o⟩, ⟨hI.relock (by rw [hg]) (fun d hd => Option.some.inj hd) ?_ ?_,
      Or.inl List.prefix_rfl⟩, hQ s.cons⟩
    · intro u hu
      refine iff_of_false (fun h => hu (Option.some.inj h).symm) fun hc => ?_
      have := (hI.lock u).mpr hc
      rw [hl] at this
      cases this
    · exact iff_of_true rfl nofun
  · trivial

theorem Inv.unlock (h : Inv s gs) (hg : gs t = ⟨some d, o⟩) (a : T → Bool) :
    Inv { s with lock := none, asleep := a } (update gs t ⟨none, o⟩) := by
  refine h.relock (by rw [hg]) nofun (fun u hu => ?_) (iff_of_false nofun (fun hc => hc rfl))
  exact iff_of_false nofun fun hc => hc (h.cons_none hg hu)

theorem safe_release {Q : Unit → Know → Prop} (hQ : Q () ⟨none, o⟩) :
    Safe (discipline T) t release ⟨some d, o⟩ Q := by
  refine safe_atomic fun s gs (hI : Inv s gs) hg => ?_
  rw [if_pos ((hI.lock t).mpr (by rw [hg]; nofun))]
  exact ⟨_, ⟨hI.unlock hg s.asleep, Or.inl List.prefix_rfl⟩, hQ⟩

theorem safe_sleep {Q : Unit → Know → Prop} (hQ : ∀ d, Q () ⟨some d, o⟩) :
    Safe (discipline T) t sleep ⟨some d, o⟩ Q := by
  refine Safe.bind (R := fun _ g => g = ⟨none, o⟩) (safe_act fun s gs hI hg => ?_) ?_
  · exact ⟨_, ⟨Inv.unlock hI hg _, Or.inl List.prefix_rfl⟩, rfl⟩
  · rintro _ _ rfl
    refine Safe.bind (R := fun _ g => g = ⟨none, o⟩) (safe_atomic fun s gs hI hg => ?_) ?_
    · cases s.asleep t with
      | true => trivial
      | false =>
        refine ⟨_, ⟨?_, Or.inl List.prefix_rfl⟩, rfl⟩
        rwa [← hg, update_eq_self]
    · rintro _ _ rfl
      exact safe_acquire hQ

theorem safe_wakeup : Safe (discipline T) t wakeup ⟨some d, o⟩ fun _ g => g = ⟨some d, o⟩ := by
  refine safe_act fun s gs (hI : Inv s gs) hg => ⟨⟨some d, o⟩, ⟨?_, Or.inl List.prefix_rfl⟩, rfl⟩
  rw [← hg, update_eq_self]
  exact { hI with }

theorem safe_call {n : ℤ} : Safe (discipline T) t (note (.call · n)) ⟨some d, none⟩
    fun _ g => g = ⟨some d, some ⟨n, [], false⟩⟩ := by
  refine safe_act fun s gs (hI : Inv s gs) hg => ⟨_, ⟨?_, Or.inl List.prefix_rfl⟩, rfl⟩
  obtain rfl := hI.cons t d (by rw [hg])
  refine hI.event hg (fun u hu h => hu (Option.some.inj h).symm) (if_pos rfl) hI.holds ?_
  exact (hI.read t).trans (by rw [hg])

theorem safe_return {n : ℤ} (hw : ¬rd.wants) (hn : n = rd.got.length) :
    Safe (discipline T) t (note (.ret · n)) ⟨some d, some rd⟩ fun _ g => g = ⟨some d, none⟩ := by
  refine safe_act fun s gs (hI : Inv s gs) hg => ⟨_, ⟨?_, Or.inl List.prefix_rfl⟩, rfl⟩
  obtain rfl := hI.cons t d (by rw [hg])
  refine hI.event hg (fun u hu h => hu (Option.some.inj h).symm) (if_pos rfl) hI.holds ?_
  exact ⟨rd, (hI.read t).trans (by rw [hg]), hw, hn⟩

/-- A read meets the next byte. -/
theorem safe_take (hw : rd.wants) (hne : d.r ≠ d.w) {got : Bool} (hgot : got = true ↔ rd.got ≠ []) :
    Safe (discipline T) t (take got) ⟨some d, some rd⟩ fun c g =>
      if c = ctrlD then ∃ d, g = ⟨some d, some { rd with ended := true }⟩
      else ∃ d, g = ⟨some d, some { rd with got := rd.got ++ [c] }⟩ := by
  refine safe_atomic fun s gs (hI : Inv s gs) hg => ?_
  obtain rfl := hI.cons t d (by rw [hg])
  have hrd : readOf t s.hist = some rd := (hI.read t).trans (by rw [hg])
  have hunread := hI.holds.unread_cons hne
  have hhead : (lineOf s.hist).unread.head? = some (s.cons.buf (slot s.cons.r)) := by
    rw [hunread]
    rfl
  have hshow := hI.holds.take hne
  -- what is left of the unread bytes once one has been taken
  have hkept : ∀ ev : Event T, ev.takes = some (s.cons.buf (slot s.cons.r)) → Kept s
      { s with cons := { s.cons with r := s.cons.r + 1 }, hist := ev :: s.hist } := by
    intro ev hev
    refine Or.inr ⟨ev, _, rfl, hev, ?_⟩
    rw [hI.holds.unread_eq, hshow.unread_eq, ← hunread]
  have hby : ∀ ev : Event T, ev.thread = some t → ∀ u, u ≠ t → ev.thread ≠ some u := by
    intro ev hev u hu h
    rw [hev] at h
    exact hu (Option.some.inj h).symm
  dsimp only
  by_cases hc : s.cons.buf (slot s.cons.r) = ctrlD
  · rw [if_pos hc]
    rw [hc] at hhead
    -- a `^D` behind other bytes is left for the next read, which it ends at once
    cases got with
    | true =>
      have hrd' : readOf t (.saved t :: s.hist) = some { rd with ended := true } := by
        rw [readOf, if_pos rfl, hrd]
        rfl
      rw [if_pos rfl]
      refine ⟨_, ⟨hI.event hg (hby _ rfl) hrd' ?_ ⟨hhead, rd, hrd, hw, hgot.mp rfl⟩, ?_⟩, ?_⟩
      · rw [BitVec.add_sub_cancel]
        exact hI.holds
      · left
        rw [BitVec.add_sub_cancel]
      · rw [if_pos hc]
        exact ⟨_, rfl⟩
    | false =>
      have hrd' : readOf t (.eof t :: s.hist) = some { rd with ended := true } := by
        rw [readOf, if_pos rfl, hrd]
        rfl
      have hnil : rd.got = [] := not_not.mp fun h => Bool.false_ne_true (hgot.mpr h)
      rw [if_neg Bool.false_ne_true]
      refine ⟨_, ⟨hI.event hg (hby _ rfl) hrd' ?_ ⟨hhead, rd, hrd, hw, hnil⟩,
        hkept _ (by rw [hc]; rfl)⟩, ?_⟩
      · rwa [hc] at hshow
      · rw [if_pos hc]
        exact ⟨_, rfl⟩
  · have hrd' : readOf t (.byte t (s.cons.buf (slot s.cons.r)) :: s.hist) =
        some { rd with got := rd.got ++ [s.cons.buf (slot s.cons.r)] } := by
      rw [readOf, if_pos rfl, hrd]
      rfl
    rw [if_neg hc]
    refine ⟨_, ⟨hI.event hg (hby _ rfl) hrd' hshow ⟨hhead, hc, rd, hrd, hw⟩, hkept _ rfl⟩, ?_⟩
    rw [if_neg hc]
    exact ⟨_, rfl⟩

/-! ### The functions -/

theorem safe_readDone {target n : ℤ} (hw : ¬rd.wants) (hn : target - n = rd.got.length) :
    Safe (discipline T) t (readDone target n) ⟨some d, some rd⟩ fun _ g => g = ⟨none, none⟩ := by
  refine Safe.bind (safe_return hw hn) ?_
  rintro _ _ rfl
  refine Safe.bind (safe_release (Q := fun _ g => g = ⟨none, none⟩) rfl) ?_
  rintro _ _ rfl
  rfl

theorem safe_readLoop {target n : ℤ} {rounds : ℕ} (htarget : rd.asked = target)
    (hended : rd.ended = false) (hnl : newline ∉ rd.got) (hn : target - n = rd.got.length) :
    Safe (discipline T) t (readLoop target rounds n) ⟨some d, some rd⟩
      fun _ g => g = ⟨none, none⟩ := by
  -- the loop goes on after a `sleep`, or after a byte that does not end the line
  induction rounds generalizing n d rd with
  | zero => exact safe_atomic fun _ _ _ _ => trivial
  | succ rounds ih =>
    rw [readLoop]
    by_cases hpos : 0 < n
    · rw [if_pos hpos]
      have hw : rd.wants := ⟨hended, by omega, hnl⟩
      refine Safe.seq (safe_look fun s gs (hI : Inv s gs) hg => ?_)
      obtain rfl := hI.cons t d (by rw [hg])
      by_cases hrw : s.cons.r = s.cons.w
      · rw [if_pos (beq_iff_eq.mpr hrw)]
        refine Safe.seq (safe_sleep fun d' => ?_)
        exact ih htarget hended hnl hn
      · rw [if_neg (fun h => hrw (beq_iff_eq.mp h))]
        refine Safe.bind (safe_take hw hrw ?_) ?_
        · rw [decide_eq_true_iff, ← List.length_pos_iff]
          omega
        intro c g hg
        by_cases hc : c = ctrlD
        · rw [if_pos hc] at hg ⊢
          obtain ⟨d', rfl⟩ := hg
          exact safe_readDone (fun hw => nomatch hw.1) hn
        rw [if_neg hc] at hg ⊢
        obtain ⟨d', rfl⟩ := hg
        have hn' : target - (n - 1) = (rd.got ++ [c]).length := by
          rw [List.length_append, List.length_singleton]
          omega
        by_cases hcn : c = newline
        · rw [if_pos hcn]
          refine safe_readDone (fun hw => hw.2.2 ?_) hn'
          exact List.mem_append_right _ (List.mem_singleton.mpr hcn.symm)
        · rw [if_neg hcn]
          refine ih htarget hended ?_ hn'
          simp only [List.mem_append, List.mem_singleton, not_or]
          exact ⟨hnl, Ne.symm hcn⟩
    · rw [if_neg hpos]
      refine safe_readDone (fun hw => ?_) hn
      have := hw.2.1
      omega

theorem safe_consoleread {n : ℤ} {rounds : ℕ} :
    Safe (discipline T) t (consoleread n rounds) ⟨none, none⟩ fun _ g => g = ⟨none, none⟩ := by
  refine Safe.seq (safe_acquire fun d => ?_)
  refine Safe.bind safe_call ?_
  rintro _ _ rfl
  exact safe_readLoop rfl rfl List.not_mem_nil (sub_self n)

theorem safe_input {c : ℤ} :
    Safe (discipline T) t (.atomic fun _ s => some (.done (s.cons.input c).2
      { s with cons := (s.cons.input c).1, hist := .typed c :: s.hist })) ⟨some d, none⟩
      fun _ g => g = ⟨some (d.input c).1, none⟩ := by
  refine safe_atomic fun s gs (hI : Inv s gs) hg => ⟨_, ⟨?_, ?_⟩, rfl⟩
  · obtain rfl := hI.cons t d (by rw [hg])
    exact hI.event hg nofun ((hI.read t).trans (by rw [hg])) (hI.holds.input c) trivial
  · left
    rw [hI.holds.unread_eq, (hI.holds.input c).unread_eq]
    exact Line.unread_prefix_type _ hI.holds.taken c

theorem safe_consoleintr {c : ℤ} :
    Safe (discipline T) t (consoleintr c) ⟨none, none⟩ fun _ g => g = ⟨none, none⟩ := by
  refine Safe.seq (safe_acquire fun d => ?_)
  refine Safe.bind safe_input ?_
  rintro wake _ rfl
  cases wake with
  | true =>
    rw [if_pos rfl]
    refine Safe.bind safe_wakeup ?_
    rintro _ _ rfl
    exact safe_release rfl
  | false =>
    rw [if_neg Bool.false_ne_true]
    exact safe_release rfl

/-! ### Runs -/

theorem inv_of_fresh (h : Fresh s) : Inv s fun _ => ⟨none, none⟩ := by
  refine ⟨fun u => ?_, nofun, fun u => ?_, ?_, ?_⟩
  · rw [h.lock]
    exact iff_of_false nofun (fun hc => hc rfl)
  · rw [h.hist]
    rfl
  · rw [h.hist]
    refine ⟨?_, List.prefix_rfl, h.w⟩
    rw [h.r, h.e]
    exact .start _
  · rw [h.hist]
    trivial

/-- **The invariant holds in every pool the machine reaches.** -/
theorem good_of_reachable {c : Pool T (State T)} (h : (machine T).Reachable c) :
    (discipline T).Good c := by
  refine Discipline.invariant ?_ ?_ ?_ h
  · rintro c ⟨hf, hidle, hh⟩
    refine ⟨⟨fun _ => ⟨none, none⟩, inv_of_fresh hf, fun t => ?_⟩, fun msg hm => ?_⟩
    · rw [hidle]
      rfl
    · rw [hh] at hm
      cases hm
  · intro t s gs p hI hidle hcall
    refine ⟨gs t, by rwa [update_eq_self], ?_⟩
    rw [show gs t = ⟨none, none⟩ from hidle]
    cases hcall with
    | consoleread n rounds =>
      exact Safe.bind safe_consoleread fun _ _ h => safe_pure.mpr h
    | consoleintr c => exact safe_consoleintr
  · intro c c' _ henv
    exact henv.elim

/-- **The bytes taken by the reads are the committed input, in order.**  The indices stay in
order across any wraparound; unread bytes before the write index stay as they are until a read
takes the first; what reads have taken, followed by what is unread, is what was committed, and
the rest of the buffer is the line being edited; every read follows the rules, whatever the
others do; and so does every `^D` that ends a read. -/
theorem stream_of_reads {c : Pool T (State T)} (h : (machine T).Reachable c) :
    c.st.cons.Ordered ∧
      (∀ c', (machine T).Step c c' → Kept c.st c'.st) ∧
      (lineOf c.st.hist).taken ++ c.st.cons.unread = (lineOf c.st.hist).committed ∧
      c.st.cons.tail = (lineOf c.st.hist).tail ∧
      Lawful c.st.hist ∧ SavedAmong c.st.hist := by
  have hgood := good_of_reachable h
  obtain ⟨gs, (hI : Inv c.st gs), -⟩ := hgood.safe
  refine ⟨hI.holds.ordered, fun c' hs => ?_, ?_, hI.holds.tail_eq, hI.lawful,
    hI.lawful.savedAmong⟩
  · exact (hgood.guar hs).resolve_left id
  · rw [hI.holds.unread_eq]
    obtain ⟨rest, hrest⟩ := hI.holds.taken
    unfold Line.unread
    rw [← hrest, List.drop_left]

/-! ### Two readers at once -/

/-- Thread `t` handles the keys one after the other while the others wait. -/
def typeKeys (t : T) : List ℤ → Pool T (State T) → Option (Pool T (State T))
  | [], c => some c
  | k :: ks, c =>
      match c.halted, c.code t, (consoleintr k).run t c.st with
      | none, .ret _, .ok _ s => typeKeys t ks ⟨s, c.code, none⟩
      | _, _, _ => none

theorem typeKeys_reachable {ks : List ℤ} {c c' : Pool T (State T)} (h : (machine T).Reachable c)
    (hk : typeKeys t ks c = some c') : (machine T).Reachable c' := by
  induction ks generalizing c with
  | nil =>
    cases hk
    exact h
  | cons k ks ih =>
    rw [typeKeys] at hk
    split at hk
    · rename_i hh hidle hr
      exact ih (h.call_run hh hidle (.consoleintr k) hr) hk
    · cases hk

/-- Nothing has happened. -/
def boot : Pool (Fin 3) (State (Fin 3)) :=
  ⟨⟨none, ⟨fun _ => 0, 0, 0, 0⟩, fun _ => false, []⟩, fun _ => .ret (), none⟩

theorem boot_reachable : (machine (Fin 3)).Reachable boot :=
  .init ⟨⟨rfl, rfl, rfl, rfl, fun _ => rfl, rfl⟩, fun _ => rfl, rfl⟩

/-- Two threads want 200 bytes each. -/
def reading : Pool (Fin 3) (State (Fin 3)) :=
  (boot.start 0 (do let _ ← consoleread 200 200)).start 1 (do let _ ← consoleread 200 200)

theorem reading_reachable : (machine (Fin 3)).Reachable reading :=
  (boot_reachable.start rfl rfl (.consoleread 200 200)).start rfl rfl (.consoleread 200 200)

/-- Each of them gets one buffer without a newline and sleeps in the middle of its read.  Then a
`^D` is typed, and both meet it. -/
def twoReaders : Option (Pool (Fin 3) (State (Fin 3))) :=
  (typeKeys 2 (List.replicate 128 'a'.toNat) reading).bind fun c =>
  (c.play (List.replicate 260 0)).bind fun c =>
  (typeKeys 2 (List.replicate 128 'a'.toNat) c).bind fun c =>
  (c.play (List.replicate 260 1)).bind fun c =>
  (typeKeys 2 [ctrl 'D'] c).bind fun c =>
  c.play [0, 0, 0, 0, 0, 0, 1, 1, 1, 1]

theorem twoReaders_reachable {c : Pool (Fin 3) (State (Fin 3))} (h : twoReaders = some c) :
    (machine (Fin 3)).Reachable c := by
  unfold twoReaders at h
  obtain ⟨c1, h1, h⟩ := Option.bind_eq_some_iff.mp h
  obtain ⟨c2, h2, h⟩ := Option.bind_eq_some_iff.mp h
  obtain ⟨c3, h3, h⟩ := Option.bind_eq_some_iff.mp h
  obtain ⟨c4, h4, h⟩ := Option.bind_eq_some_iff.mp h
  obtain ⟨c5, h5, h⟩ := Option.bind_eq_some_iff.mp h
  have r2 := (typeKeys_reachable reading_reachable h1).play h2
  have r4 := (typeKeys_reachable r2 h3).play h4
  exact (typeKeys_reachable r4 h5).play h

theorem twoReaders_hist : (twoReaders.map fun c => c.st.hist.take 3) =
    some [.saved 1, .ret 0 128, .saved 0] := by decide +kernel

/-- One `^D` ends two reads that have bytes before it is taken. -/
theorem saved_twice :
    ∃ c, (machine (Fin 3)).Reachable c ∧ ¬SavedOnce c.st.hist := by
  obtain ⟨c, hc, htake⟩ := Option.map_eq_some_iff.mp twoReaders_hist
  refine ⟨c, twoReaders_reachable hc, fun honce => ?_⟩
  obtain ⟨v, hv⟩ := honce [] [.ret 0 128] (c.st.hist.drop 3) 0 1 (by
    rw [← List.take_append_drop 3 c.st.hist, htake]
    rfl)
  simp at hv

/-- The same run: both reads were in progress, with bytes, when the `^D` came. -/
theorem stream_of_reads_two : ∃ c, (machine (Fin 3)).Reachable c ∧
    c.st.hist.take 3 = [.saved 1, .ret 0 128, .saved 0] ∧
    (lineOf c.st.hist).taken ++ c.st.cons.unread = (lineOf c.st.hist).committed ∧
    SavedAmong c.st.hist := by
  obtain ⟨c, hc, htake⟩ := Option.map_eq_some_iff.mp twoReaders_hist
  have hr := twoReaders_reachable hc
  obtain ⟨-, -, hstream, -, -, hamong⟩ := stream_of_reads hr
  exact ⟨c, hr, htake, hstream, hamong⟩

end Xv6.Console
