import Xv6.Disk.Model
import Mathlib.Data.Set.Card
import Mathlib.Data.Fintype.Card
import Mathlib.Data.Fintype.Prod
import Mathlib.Data.Fin.VecNotation
import Mathlib.Tactic.FinCases

/-!
# Descriptors, rings and completions

What the functions of the driver do to the descriptors, and the two structures
its invariant is made of.  `Owned` says whose the descriptors are that are not
free.  `Transit` says where the requests are that were handed to the device: in
the available ring, in the device, or in the used ring, each of them in one place.

## Main definitions

* `Request.desc` — the three descriptors of a request.
* `Owned` — every descriptor is free or belongs to one request.
* `pendingOf`, `Lawful` — what a history of submissions and completions says.
* `Transit` — where the requests are that are not completed.

## Main results

* `alloc3_desc_cases`, `free_chain_ok` — what the driver's functions do.
* `Owned.count` — **free descriptors, and three for each request, are all there are.**
* `Transit.take`, `Transit.execute`, `Transit.report` — steps of the device.
* `Transit.publish`, `Transit.complete` — steps of the driver.
-/

namespace Xv6.Disk

open Function

variable {T B : Type} {s s' : State T B} {t u : T} {r r' : Request B} {h i : Fin NUM} {b : B}

/-! ### Allocation -/

/-- The three descriptors of a request. -/
def Request.desc (r : Request B) : Fin 3 → Fin NUM := ![r.head, r.mid, r.last]

theorem exists_desc : (∃ k, r.desc k = i) ↔ i = r.head ∨ i = r.mid ∨ i = r.last := by
  simp only [Request.desc, Fin.exists_fin_succ, Matrix.cons_val_zero, Matrix.cons_val_succ,
    IsEmpty.exists_iff, or_false, eq_comm]

/-- An allocation that was undone: only free descriptors have changed, and are free again. -/
def Undone (s s' : State T B) : Prop :=
  ∃ d a, s' = { s with desc := d, asleep := a } ∧ ∀ i, s.free i = false → d i = s.desc i

/-- The descriptors of a request are a chain: header, data and status. -/
structure Chained (s : State T B) (r : Request B) : Prop where
  head : s.desc r.head = ⟨.ops r.head, 16, VRING_DESC_F_NEXT, r.mid⟩
  mid : ∃ f, s.desc r.mid = ⟨.data r.buf, BSIZE, f, r.last⟩ ∧ f &&& VRING_DESC_F_NEXT ≠ 0
  last : s.desc r.last = ⟨.status r.head, 1, VRING_DESC_F_WRITE, 0⟩

theorem Chained.frame (h : Chained s r) (hd : ∀ k, s'.desc (r.desc k) = s.desc (r.desc k)) :
    Chained s' r := by
  have hd0 : s'.desc r.head = s.desc r.head := hd 0
  have hd1 : s'.desc r.mid = s.desc r.mid := hd 1
  have hd2 : s'.desc r.last = s.desc r.last := hd 2
  constructor
  · rw [hd0]
    exact h.head
  · rw [hd1]
    exact h.mid
  · rw [hd2]
    exact h.last

section Allocation

variable [DecidableEq B]

omit [DecidableEq B] in
theorem alloc_desc_some (h : s.alloc_desc = some (i, s')) :
    s.free i = true ∧ s' = { s with free := update s.free i false } := by
  obtain ⟨j, hj, heq⟩ := Option.map_eq_some_iff.mp h
  cases heq
  exact ⟨List.find?_some hj, rfl⟩

theorem free_desc_ok (h : s.free i = false) : s.free_desc i = .ok { s with
    desc := update s.desc i ⟨.null, 0, 0, 0⟩
    free := update s.free i true
    asleep := woken s.asleep .free } := by
  have hi : (⟨(i : ℕ), i.isLt⟩ : Fin NUM) = i := rfl
  rw [State.free_desc, dif_pos i.isLt]
  simp only [hi, h, Bool.false_eq_true, if_false]

/-- `alloc3_desc` finds three descriptors, or leaves none of them allocated. -/
theorem alloc3_desc_cases (s : State T B) :
    (∃ s', s.alloc3_desc = .ok (none, s') ∧ Undone s s') ∨
    ∃ i j k, s.alloc3_desc = .ok (some (i, j, k), { s with
        free := update (update (update s.free i false) j false) k false }) ∧
      (s.free i = true ∧ s.free j = true ∧ s.free k = true) ∧ i ≠ j ∧ i ≠ k ∧ j ≠ k := by
  unfold State.alloc3_desc
  split
  · exact Or.inl ⟨s, rfl, s.desc, s.asleep, rfl, fun _ _ => rfl⟩
  · rename_i i s1 h1
    obtain ⟨hi, rfl⟩ := alloc_desc_some h1
    split
    · -- one was allocated
      rw [free_desc_ok (update_self ..)]
      refine Or.inl ⟨_, rfl, update s.desc i ⟨.null, 0, 0, 0⟩, woken s.asleep .free, ?_, ?_⟩
      · simp only [update_idem]
        rw [← hi, update_eq_self]
      · intro l hl
        refine update_of_ne ?_ ..
        rintro rfl
        exact absurd hi (by simp [hl])
    · rename_i j s2 h2
      obtain ⟨hj, rfl⟩ := alloc_desc_some h2
      have hij : i ≠ j := by
        rintro rfl
        simp at hj
      replace hj : s.free j = true := (update_of_ne hij.symm ..).symm.trans hj
      split
      · -- two were allocated
        rw [free_desc_ok (by simp [update_of_ne hij])]
        dsimp only [bind, Except.bind]
        rw [free_desc_ok (by simp [update_of_ne hij.symm])]
        refine Or.inl ⟨_, rfl, update (update s.desc i ⟨.null, 0, 0, 0⟩) j
          ⟨.null, 0, 0, 0⟩, woken (woken s.asleep .free) .free, ?_, ?_⟩
        · congr 1
          funext l
          obtain rfl | hlj := eq_or_ne l j
          · simp [hj]
          · obtain rfl | hli := eq_or_ne l i
            · simp [hi, hlj]
            · simp [hlj, hli]
        · intro l hl
          have hlj : l ≠ j := by
            rintro rfl
            exact absurd hj (by simp [hl])
          have hli : l ≠ i := by
            rintro rfl
            exact absurd hi (by simp [hl])
          rw [update_of_ne hlj, update_of_ne hli]
      · rename_i k s3 h3
        obtain ⟨hk, rfl⟩ := alloc_desc_some h3
        have hjk : j ≠ k := by
          rintro rfl
          simp at hk
        have hik : i ≠ k := by
          rintro rfl
          simp [hij] at hk
        replace hk : s.free k = true :=
          ((update_of_ne hjk.symm ..).trans (update_of_ne hik.symm ..)).symm.trans hk
        exact Or.inr ⟨i, j, k, rfl, ⟨hi, hj, hk⟩, hij, hik, hjk⟩

variable {d : Desc B} {n : ℕ}

omit [DecidableEq B] in
theorem chain_next (hd : s.desc i = d) (hf : d.flags &&& VRING_DESC_F_NEXT ≠ 0) :
    s.chain (n + 1) i = d :: s.chain n d.next := by
  subst hd
  rw [State.chain, dif_pos i.isLt]
  exact congrArg _ (if_pos hf)

omit [DecidableEq B] in
theorem chain_last (hd : s.desc i = d) (hf : d.flags &&& VRING_DESC_F_NEXT = 0) :
    s.chain (n + 1) i = [d] := by
  subst hd
  rw [State.chain, dif_pos i.isLt]
  exact congrArg _ (if_neg (not_not.mpr hf))

omit [DecidableEq B] in
theorem Chained.chain (h : Chained s r) :
    (s.chain NUM r.head).map Desc.addr = [.ops r.head, .data r.buf, .status r.head] := by
  obtain ⟨f, hm, hf⟩ := h.mid
  have hchain : s.chain (5 + 1 + 1 + 1) r.head = [s.desc r.head, s.desc r.mid, s.desc r.last] := by
    rw [chain_next h.head (show VRING_DESC_F_NEXT &&& VRING_DESC_F_NEXT ≠ 0 by decide),
      chain_next hm hf,
      chain_last h.last (show VRING_DESC_F_WRITE &&& VRING_DESC_F_NEXT = 0 by decide),
      h.head, hm, h.last]
  rw [show s.chain NUM r.head = _ from hchain, h.head, hm, h.last]
  rfl

theorem execute_eq (hchain : (s.chain NUM h).map Desc.addr = [.ops h, .data b, .status h])
    (he : s.execute h = some s') : s' = { s.transfer h b with
      info := update (s.transfer h b).info h
        { (s.transfer h b).info h with status := 0 } } := by
  simp only [State.execute, hchain, Option.some.injEq] at he
  exact he.symm

/-- The state after one round of `free_chain`. -/
def State.freed (s : State T B) (i : Fin NUM) : State T B :=
  { s with
    desc := Function.update s.desc i ⟨.null, 0, 0, 0⟩
    free := Function.update s.free i true
    asleep := woken s.asleep .free }

theorem free_chain_next (hd : s.desc i = d)
    (hf : d.flags &&& VRING_DESC_F_NEXT ≠ 0) (hi : s.free i = false) :
    s.free_chain (n + 1) i = (s.freed i).free_chain n d.next := by
  subst hd
  rw [State.free_chain, dif_pos i.isLt, free_desc_ok hi]
  exact if_pos hf

theorem free_chain_last (hd : s.desc i = d)
    (hf : d.flags &&& VRING_DESC_F_NEXT = 0) (hi : s.free i = false) :
    s.free_chain (n + 1) i = .ok (s.freed i) := by
  subst hd
  rw [State.free_chain, dif_pos i.isLt, free_desc_ok hi]
  exact if_neg (not_not.mpr hf)

/-- The state after `free_chain`. -/
def State.freedAll (s : State T B) (r : Request B) : State T B :=
  ((s.freed r.head).freed r.mid).freed r.last

/-- `free_chain` gives back the three descriptors of a request, and does not panic. -/
theorem free_chain_ok (h : Chained s r) (hinj : Function.Injective r.desc)
    (hfree : ∀ k, s.free (r.desc k) = false) : s.free_chain NUM r.head = .ok (s.freedAll r) := by
  obtain ⟨f, hm, hf⟩ := h.mid
  have h01 : r.mid ≠ r.head := fun h => absurd (@hinj 1 0 h) (by decide)
  have h02 : r.last ≠ r.head := fun h => absurd (@hinj 2 0 h) (by decide)
  have h12 : r.last ≠ r.mid := fun h => absurd (@hinj 2 1 h) (by decide)
  -- the descriptors of the later rounds are not touched by the earlier ones
  have hm' : (s.freed r.head).desc r.mid = ⟨.data r.buf, BSIZE, f, r.last⟩ := by
    rw [← hm]
    exact update_of_ne h01 ..
  have hl' : ((s.freed r.head).freed r.mid).desc r.last =
      ⟨.status r.head, 1, VRING_DESC_F_WRITE, 0⟩ := by
    rw [← h.last]
    exact (update_of_ne h12 ..).trans (update_of_ne h02 ..)
  have fm : (s.freed r.head).free r.mid = false :=
    (update_of_ne h01 ..).trans (hfree 1)
  have fl : ((s.freed r.head).freed r.mid).free r.last = false :=
    ((update_of_ne h12 ..).trans (update_of_ne h02 ..)).trans (hfree 2)
  have hchain : s.free_chain (5 + 1 + 1 + 1) r.head = .ok (s.freedAll r) := by
    rw [free_chain_next h.head (show VRING_DESC_F_NEXT &&& VRING_DESC_F_NEXT ≠ 0 by decide)
        (hfree 0),
      free_chain_next hm' hf fm,
      free_chain_last hl' (show VRING_DESC_F_WRITE &&& VRING_DESC_F_NEXT = 0 by decide) fl]
    rfl
  exact hchain

theorem freedAll_desc (hi : ∀ k, r.desc k ≠ i) : (s.freedAll r).desc i = s.desc i :=
  ((update_of_ne (hi 2).symm ..).trans (update_of_ne (hi 1).symm ..)).trans
    (update_of_ne (hi 0).symm ..)

end Allocation

/-! ### Whose the descriptors are -/

/-- Every descriptor is free or belongs to one request. -/
structure Owned (free : Fin NUM → Bool) (inflight : T → Option (Request B)) : Prop where
  uniq : ∀ {t u r r' k k'}, inflight t = some r → inflight u = some r' →
    r.desc k = r'.desc k' → t = u ∧ k = k'
  cover : ∀ i, free i = false ↔ ∃ t r k, inflight t = some r ∧ r.desc k = i

section Owned

variable {free free' : Fin NUM → Bool} {inflight : T → Option (Request B)}

theorem Owned.injective (h : Owned free inflight) (ht : inflight t = some r) :
    Function.Injective r.desc := fun _ _ heq => (h.uniq ht ht heq).2

theorem Owned.not_free (h : Owned free inflight) (ht : inflight t = some r) (k : Fin 3) :
    free (r.desc k) = false := (h.cover _).mpr ⟨t, r, k, ht, rfl⟩

theorem Owned.desc_ne (h : Owned free inflight) (ht : inflight t = some r)
    (hu : inflight u = some r') (hne : u ≠ t) (k k' : Fin 3) : r.desc k ≠ r'.desc k' :=
  fun heq => hne (h.uniq ht hu heq).1.symm

/-- A request is given three descriptors that were free. -/
theorem Owned.alloc [DecidableEq T] (h : Owned free inflight) (ht : inflight t = none)
    (hinj : Function.Injective r.desc) (hfree : ∀ k, free (r.desc k) = true)
    (hfree' : ∀ i, free' i = false ↔ free i = false ∨ ∃ k, r.desc k = i) :
    Owned free' (update inflight t (some r)) := by
  -- nobody has had them
  have hnew : ∀ {u r' k k'}, inflight u = some r' → r.desc k ≠ r'.desc k' := by
    intro u r' k k' hu heq
    have := h.not_free hu k'
    rw [← heq, hfree k] at this
    cases this
  constructor
  · intro u v r1 r2 k k' hu hv heq
    obtain rfl | hut := eq_or_ne u t
    · rw [update_self] at hu
      cases hu
      obtain rfl | hvu := eq_or_ne v u
      · rw [update_self] at hv
        cases hv
        exact ⟨rfl, hinj heq⟩
      · rw [update_of_ne hvu] at hv
        exact absurd heq (hnew hv)
    · rw [update_of_ne hut] at hu
      obtain rfl | hvt := eq_or_ne v t
      · rw [update_self] at hv
        cases hv
        exact absurd heq.symm (hnew hu)
      · rw [update_of_ne hvt] at hv
        exact h.uniq hu hv heq
  · intro i
    rw [hfree', h.cover]
    constructor
    · rintro (⟨u, r', k, hu, hk⟩ | ⟨k, hk⟩)
      · have hut : u ≠ t := by
          rintro rfl
          rw [ht] at hu
          cases hu
        exact ⟨u, r', k, by rw [update_of_ne hut, hu], hk⟩
      · exact ⟨t, r, k, update_self .., hk⟩
    · rintro ⟨u, r', k, hu, hk⟩
      obtain rfl | hut := eq_or_ne u t
      · rw [update_self] at hu
        cases hu
        exact Or.inr ⟨k, hk⟩
      · rw [update_of_ne hut] at hu
        exact Or.inl ⟨u, r', k, hu, hk⟩

/-- A request gives its descriptors back. -/
theorem Owned.give [DecidableEq T] (h : Owned free inflight) (ht : inflight t = some r)
    (hfree' : ∀ i, free' i = false ↔ free i = false ∧ ∀ k, r.desc k ≠ i) :
    Owned free' (update inflight t none) := by
  have hold : ∀ {u r'}, update inflight t none u = some r' →
      u ≠ t ∧ inflight u = some r' := by
    intro u r' hu
    obtain rfl | hut := eq_or_ne u t
    · rw [update_self] at hu
      cases hu
    · rw [update_of_ne hut] at hu
      exact ⟨hut, hu⟩
  constructor
  · intro u v r1 r2 k k' hu hv heq
    exact h.uniq (hold hu).2 (hold hv).2 heq
  · intro i
    rw [hfree', h.cover]
    constructor
    · rintro ⟨⟨u, r', k, hu, hk⟩, hi⟩
      have hut : u ≠ t := by
        rintro rfl
        rw [ht] at hu
        cases hu
        exact hi k hk
      exact ⟨u, r', k, by rw [update_of_ne hut, hu], hk⟩
    · rintro ⟨u, r', k, hu, hk⟩
      obtain ⟨hut, hu'⟩ := hold hu
      refine ⟨⟨u, r', k, hu', hk⟩, fun k' hk' => ?_⟩
      exact h.desc_ne ht hu' hut k' k (hk'.trans hk.symm)

/-- The descriptor with a number, of the request of a thread. -/
def Owned.place (h : Owned free inflight) (p : {t // (inflight t).isSome = true} × Fin 3) :
    {i // free i = false} :=
  ⟨((inflight p.1).get p.1.2).desc p.2, h.not_free (Option.some_get _).symm p.2⟩

theorem Owned.place_bijective (h : Owned free inflight) : Function.Bijective h.place := by
  constructor
  · rintro ⟨⟨t, ht⟩, k⟩ ⟨⟨u, hu⟩, k'⟩ heq
    have heq' := congrArg Subtype.val heq
    obtain ⟨rfl, rfl⟩ := h.uniq (Option.some_get ht).symm (Option.some_get hu).symm heq'
    rfl
  · rintro ⟨i, hi⟩
    obtain ⟨t, r, k, ht, hk⟩ := (h.cover i).mp hi
    refine ⟨⟨⟨t, by rw [ht]; rfl⟩, k⟩, Subtype.ext ?_⟩
    simp only [Owned.place, ht, Option.get_some]
    exact hk

theorem Owned.finite (h : Owned free inflight) : {t | (inflight t).isSome = true}.Finite := by
  have hinj : Function.Injective fun t : {t // (inflight t).isSome = true} => h.place (t, 0) := by
    intro t u heq
    exact congrArg Prod.fst (h.place_bijective.1 heq)
  exact Set.finite_coe_iff.mp (Finite.of_injective _ hinj)

/-- **Free descriptors, and three for each request, are all there are.** -/
theorem Owned.count (h : Owned free inflight) :
    (Finset.univ.filter fun i => free i = true).card + 3 * {t | (inflight t).isSome = true}.ncard =
      NUM := by
  have hused : {t | (inflight t).isSome = true}.ncard * 3 =
      (Finset.univ.filter fun i => ¬ free i = true).card := by
    have hcard := Nat.card_congr (Equiv.ofBijective _ h.place_bijective)
    rw [Nat.card_prod, Nat.card_eq_fintype_card (α := Fin 3), Fintype.card_fin,
      Nat.card_eq_fintype_card (α := {i // free i = false}), Fintype.card_subtype] at hcard
    simp only [Bool.not_eq_true]
    exact hcard
  have hsplit := Finset.card_filter_add_card_filter_not (s := Finset.univ) fun i : Fin NUM =>
    free i = true
  rw [← hused, Finset.card_univ, Fintype.card_fin] at hsplit
  omega

end Owned

/-! ### Histories -/

/-- The buffer a head was submitted with, if it was not completed since. -/
def pendingOf (h : Fin NUM) : List (Event B) → Option B
  | [] => none
  | .submit h' b :: es => if h' = h then some b else pendingOf h es
  | .complete h' _ :: es => if h' = h then none else pendingOf h es

/-- A head is submitted when it is not in use, and completed with the buffer it was
submitted with. -/
def Lawful : List (Event B) → Prop
  | [] => True
  | .submit h _ :: es => pendingOf h es = none ∧ Lawful es
  | .complete h b :: es => pendingOf h es = some b ∧ Lawful es

@[simp] theorem pendingOf_submit_self (es : List (Event B)) :
    pendingOf h (.submit h b :: es) = some b := if_pos rfl

variable {es : List (Event B)}

theorem pendingOf_submit_of_ne (hne : i ≠ h) :
    pendingOf h (.submit i b :: es) = pendingOf h es := if_neg hne

@[simp] theorem pendingOf_complete_self (es : List (Event B)) :
    pendingOf h (.complete h b :: es) = none := if_pos rfl

theorem pendingOf_complete_of_ne (hne : i ≠ h) :
    pendingOf h (.complete i b :: es) = pendingOf h es := if_neg hne

/-! ### Where the requests are -/

/-- The entries of the available ring the device has not taken. -/
def State.untaken (s : State T B) : List (Fin NUM) := s.published.drop s.taken.length

/-- The entries of the used ring the driver has not looked at. -/
def State.unseen (s : State T B) : List (Fin NUM) := s.produced.drop s.consumed.length

/-- The heads on their way through the device. -/
def State.transit (s : State T B) : List (Fin NUM) :=
  s.untaken ++ (s.running ++ (s.finished ++ s.unseen))

/-- The heads that were submitted and not completed are each in one place. -/
structure Transit (s : State T B) : Prop where
  avail : Ring.Holds s.availRing s.lastAvail s.availIdx s.taken s.published
  used : Ring.Holds s.usedRing s.seenIdx s.usedIdx s.consumed s.produced
  nodup : s.transit.Nodup
  mem : ∀ h, h ∈ s.transit ↔ (pendingOf h s.hist).isSome = true
  status : ∀ h, h ∈ s.finished ∨ h ∈ s.unseen → (s.info h).status = 0

theorem mem_transit : h ∈ s.transit ↔
    h ∈ s.untaken ∨ h ∈ s.running ∨ h ∈ s.finished ∨ h ∈ s.unseen := by
  simp only [State.transit, List.mem_append]

namespace Transit

section

variable (ht : Transit s)

include ht

theorem of_perm (hp : s'.transit.Perm s.transit) (hh : s'.hist = s.hist)
    (ha : Ring.Holds s'.availRing s'.lastAvail s'.availIdx s'.taken s'.published)
    (hu : Ring.Holds s'.usedRing s'.seenIdx s'.usedIdx s'.consumed s'.produced)
    (hs : ∀ h, h ∈ s'.finished ∨ h ∈ s'.unseen → (s'.info h).status = 0) : Transit s' where
  avail := ha
  used := hu
  nodup := hp.nodup_iff.mpr ht.nodup
  mem h := by rw [hp.mem_iff, hh]; exact ht.mem h
  status := hs

theorem length_le : s.transit.length ≤ NUM := by
  have := ht.nodup.length_le_card
  rwa [Fintype.card_fin] at this

theorem room (hp : pendingOf h s.hist = none) : s.availIdx ≠ s.lastAvail + BitVec.ofNat 16 NUM := by
  have hnot : h ∉ s.transit := by
    rw [ht.mem, hp]
    exact Bool.false_ne_true
  have hlen : (h :: s.transit).length ≤ NUM := by
    have := (List.nodup_cons.mpr ⟨hnot, ht.nodup⟩).length_le_card
    rwa [Fintype.card_fin] at this
  refine ht.avail.not_full (by decide) ?_
  simp only [State.transit, State.untaken, List.length_cons, List.length_append,
    List.length_drop] at hlen
  omega

theorem take (hne : s.lastAvail ≠ s.availIdx) : Transit { s with
    running := s.running ++ [s.availRing (slot s.lastAvail)]
    taken := s.taken ++ [s.availRing (slot s.lastAvail)]
    lastAvail := s.lastAvail + 1 } := by
  refine ht.of_perm ?_ rfl (ht.avail.pop hne) ht.used ht.status
  have hdrop := ht.avail.drop_pop hne
  refine List.perm_iff_count.mpr fun a => ?_
  simp only [State.transit, State.untaken, State.unseen, slot, hdrop, List.count_append,
    List.count_cons, List.count_nil]
  omega

/-- The device executes a chain it has taken. -/
theorem execute [DecidableEq T] [DecidableEq B] (hh : h ∈ s.running)
    (hchain : (s.chain NUM h).map Desc.addr = [.ops h, .data b, .status h])
    (he : s.execute h = some s') :
    Transit { s' with running := s.running.erase h, finished := s.finished ++ [h] } := by
  have hs' := execute_eq hchain he
  have hcount := List.perm_iff_count.mp (List.perm_cons_erase hh)
  subst hs'
  unfold State.transfer
  have hstatus : ∀ k, k ∈ s.finished ++ [h] ∨ k ∈ s.unseen →
      (update s.info h { s.info h with status := 0 } k).status = 0 := by
    intro k hk
    obtain rfl | hkh := eq_or_ne k h
    · rw [update_self]
    · rw [update_of_ne hkh]
      refine ht.status k ?_
      simpa [hkh] using hk
  have hperm : (s.untaken ++ (s.running.erase h ++ (s.finished ++ [h] ++ s.unseen))).Perm
      s.transit := by
    refine List.perm_iff_count.mpr fun a => ?_
    simp only [State.transit, List.count_append, hcount, List.count_cons, List.count_nil]
    omega
  split
  · exact ht.of_perm hperm rfl ht.avail ht.used hstatus
  · exact ht.of_perm hperm rfl ht.avail ht.used hstatus

/-- The device reports a chain it has executed. -/
theorem report (hh : h ∈ s.finished) : Transit { s with
    usedRing := update s.usedRing (slot s.usedIdx) h
    usedIdx := s.usedIdx + 1
    finished := s.finished.erase h
    produced := s.produced ++ [h] } := by
  have hpos : 1 ≤ s.finished.length := List.length_pos_of_mem hh
  have hroom : s.usedIdx ≠ s.seenIdx + BitVec.ofNat 16 NUM := by
    have hlen := ht.length_le
    simp only [State.transit, State.unseen, List.length_append, List.length_drop] at hlen
    refine ht.used.not_full (by decide) ?_
    omega
  have hcount := List.perm_iff_count.mp (List.perm_cons_erase hh)
  have hdrop := ht.used.drop_push h
  refine ht.of_perm ?_ rfl ht.avail (ht.used.push (by decide) hroom h) ?_
  · refine List.perm_iff_count.mpr fun a => ?_
    simp only [State.transit, State.untaken, State.unseen, hdrop, hcount, List.count_append,
      List.count_cons, List.count_nil]
    omega
  · intro k hk
    rcases hk with hk | hk
    · exact ht.status k (Or.inl (List.mem_of_mem_erase hk))
    · simp only [State.unseen, hdrop, List.mem_append, List.mem_singleton] at hk
      rcases hk with hk | rfl
      · exact ht.status k (Or.inr hk)
      · exact ht.status k (Or.inl hh)

/-- The driver hands a head to the device. -/
theorem publish (hp : pendingOf h s.hist = none)
    (hslot : s.availRing (slot s.availIdx) = h) : Transit { s with
      availIdx := s.availIdx + 1
      published := s.published ++ [h]
      hist := .submit h b :: s.hist } := by
  have hnot : h ∉ s.transit := by
    rw [ht.mem, hp]
    exact Bool.false_ne_true
  have hdrop := ht.avail.drop_push h
  have hperm : (State.transit { s with
      availIdx := s.availIdx + 1
      published := s.published ++ [h]
      hist := .submit h b :: s.hist }).Perm (h :: s.transit) := by
    refine List.perm_iff_count.mpr fun a => ?_
    simp only [State.transit, State.untaken, State.unseen, hdrop, List.count_append,
      List.count_cons, List.count_nil]
    omega
  refine ⟨?_, ht.used, hperm.nodup_iff.mpr (List.nodup_cons.mpr ⟨hnot, ht.nodup⟩), fun k => ?_,
    ht.status⟩
  · have hpush := ht.avail.push (by decide) (ht.room hp) h
    rwa [update_eq_self_iff.mpr hslot.symm] at hpush
  · rw [hperm.mem_iff, List.mem_cons]
    obtain rfl | hk := eq_or_ne k h
    · simp
    · rw [pendingOf_submit_of_ne (Ne.symm hk), ← ht.mem]
      simp [hk]

theorem seen_ne_iff : s.seenIdx ≠ s.usedIdx ↔ s.consumed.length < s.produced.length := by
  constructor
  · intro hne
    refine lt_of_le_of_ne ht.used.taken.length_le fun heq => hne ?_
    rw [ht.used.read, ht.used.written, heq]
  · intro hlt heq
    have hused := ht.used.used (by decide)
    rw [heq, BitVec.sub_self, BitVec.toNat_zero] at hused
    omega

theorem next_mem (hne : s.seenIdx ≠ s.usedIdx) : s.usedRing (slot s.seenIdx) ∈ s.unseen := by
  rw [State.unseen, ht.used.drop_pop hne]
  exact List.mem_cons_self

/-- The driver finds a head completed. -/
theorem complete (hne : s.seenIdx ≠ s.usedIdx) (b : B) (disk : B → Bool)
    (asleep : T → Option (Chan B)) : Transit { s with
      disk := disk
      asleep := asleep
      seenIdx := s.seenIdx + 1
      consumed := s.consumed ++ [s.usedRing (slot s.seenIdx)]
      hist := .complete (s.usedRing (slot s.seenIdx)) b :: s.hist } := by
  have hdrop := ht.used.drop_pop hne
  have hperm : s.transit.Perm (s.usedRing (slot s.seenIdx) :: State.transit { s with
      disk := disk
      asleep := asleep
      seenIdx := s.seenIdx + 1
      consumed := s.consumed ++ [s.usedRing (slot s.seenIdx)]
      hist := .complete (s.usedRing (slot s.seenIdx)) b :: s.hist }) := by
    refine List.perm_iff_count.mpr fun a => ?_
    simp only [State.transit, State.untaken, State.unseen, slot, hdrop, List.count_append,
      List.count_cons]
    omega
  have hnodup := hperm.nodup_iff.mp ht.nodup
  refine ⟨ht.avail, ht.used.pop hne, (List.nodup_cons.mp hnodup).2, fun k => ?_, fun k hk => ?_⟩
  · by_cases hk : k = s.usedRing (slot s.seenIdx)
    · subst hk
      rw [pendingOf_complete_self]
      exact iff_of_false (List.nodup_cons.mp hnodup).1 Bool.false_ne_true
    · rw [pendingOf_complete_of_ne (Ne.symm hk), ← ht.mem, hperm.mem_iff, List.mem_cons]
      simp [hk]
  · refine ht.status k (hk.imp_right fun hk => ?_)
    rw [State.unseen, hdrop]
    exact List.mem_cons_of_mem _ hk

end

end Transit

end Xv6.Disk
