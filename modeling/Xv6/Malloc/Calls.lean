import Xv6.Malloc.Heap
import Mathlib.Dynamics.PeriodicPts.Defs

/-!
# Sequences of calls

`malloc` and `free` keep the shape of the heap, and return.

## Main definitions

* `Shape` — a free list that tiles the heap together with the blocks handed out.

## Main results

* `Shape.free_returns`, `Shape.malloc_returns` — each call returns, and keeps the shape.
* `heap_of_calls` — **after any sequence of calls the free list is a ring sorted by address, with
  a gap between any two blocks, free blocks and blocks handed out tile what `sbrk` has returned,
  every block handed out is large enough, and the next call returns.**
* `heap_overflows` — this fails on a machine with more than `2 ^ 36` bytes.
* `malloc_right_iff` — **`malloc` is right iff what it asks `sbrk` for fits in an `int`.**
-/

namespace Xv6.Malloc

open Extent Links Function

variable {base limit p q bp n k fuel nbytes nu d : ℕ} {s s' : State} {fl R : List (ℕ × ℕ)}
  {e : ℕ × ℕ} {sbrk : State → ℤ → Option ℕ}

/-! ### More rounds do not change the result -/

theorem freeLoop_mono (h : s.freeLoop bp fuel q = some p) (m : ℕ) :
    s.freeLoop bp (fuel + m) q = some p := by
  induction fuel generalizing q with
  | zero => cases h
  | succ fuel ih =>
    rw [Nat.add_right_comm]
    rw [State.freeLoop] at h ⊢
    split_ifs at h ⊢ with h1 h2
    · exact h
    · exact h
    · exact ih h

theorem free_mono (h : s.free fuel q = some s') (m : ℕ) : s.free (fuel + m) q = some s' := by
  obtain ⟨p, hp, heq⟩ := Option.map_eq_some_iff.mp h
  exact Option.map_eq_some_iff.mpr ⟨p, freeLoop_mono hp m, heq⟩

theorem morecore_mono {o : ℕ × State} (h : s.morecore sbrk fuel nu = some o) (m : ℕ) :
    s.morecore sbrk (fuel + m) nu = some o := by
  unfold State.morecore at h ⊢
  cases hb : sbrk s (State.toInt ((if nu < 4096 then 4096 else nu) * HEADER)) with
  | none =>
    simp only [hb] at h ⊢
    exact h
  | some a =>
    simp only [hb] at h ⊢
    obtain ⟨s1, hs1, heq⟩ := Option.map_eq_some_iff.mp h
    exact Option.map_eq_some_iff.mpr ⟨s1, free_mono hs1 m, heq⟩

theorem mallocLoop_mono {o : ℕ × State}
    (h : State.mallocLoop sbrk nbytes nu fuel s q p = some o) (m : ℕ) :
    State.mallocLoop sbrk nbytes nu (fuel + m) s q p = some o := by
  induction fuel generalizing s q p with
  | zero => cases h
  | succ fuel ih =>
    rw [Nat.add_right_comm]
    rw [State.mallocLoop] at h ⊢
    split_ifs at h ⊢ with h1 h2
    · exact h
    · obtain ⟨⟨r, s1⟩, hm, hrest⟩ := Option.bind_eq_some_iff.mp h
      refine Option.bind_eq_some_iff.mpr ⟨(r, s1), morecore_mono hm m, ?_⟩
      dsimp only at hrest ⊢
      split_ifs at hrest ⊢ with hr
      · exact hrest
      · exact ih hrest
    · exact ih h

theorem malloc_mono {o : ℕ × State} (h : s.malloc base sbrk fuel nbytes = some o) (m : ℕ) :
    s.malloc base sbrk (fuel + m) nbytes = some o := mallocLoop_mono h m

/-! ### The shape of the heap -/

/-- Blocks handed out, with their headers. -/
def blocks (s : State) (live : List (ℕ × ℕ)) : List (ℕ × ℕ) :=
  live.map fun e => (e.1, s.size e.1 * HEADER)

/-- A free list that tiles the heap together with the blocks handed out. -/
structure Shape (base limit : ℕ) (s : State) (fl : List (ℕ × ℕ)) : Prop
    extends FreeList base s fl where
  tiles : Tiles (fl.map bytes ++ blocks s s.live) s.regions
  usable : ∀ e ∈ s.live, e.2 + HEADER ≤ s.size e.1 * HEADER
  above : ∀ e ∈ s.regions, base + HEADER ≤ e.1
  room : total s.regions ≤ limit

theorem blocks_congr {live : List (ℕ × ℕ)} (h : ∀ e ∈ live, s'.size e.1 = s.size e.1) :
    blocks s' live = blocks s live := by
  refine List.map_congr_left fun e he => ?_
  rw [h e he]

theorem fst_ne_of_apart {f : ℕ × ℕ} (he : 0 < e.2) (hf : 0 < f.2) (h : Apart e f) : e.1 ≠ f.1 := by
  simp only [Apart] at h
  omega

theorem not_start_of_fresh {r l : List (ℕ × ℕ)} (ht : Tiles l r) (he : e ∈ l) {a m : ℕ}
    (hm : 0 < m) (ha : ∀ f ∈ r, Apart (a, m) f) : e.1 ≠ a := by
  rintro rfl
  have hpos := ht.pos e he
  obtain ⟨f, hf, h1, h2⟩ := (ht.cover e.1).mp ⟨e, he, le_rfl, by omega⟩
  have hapart := ha f hf
  simp only [Apart] at hapart
  omega

theorem start_not_mem_ring {r l : List (ℕ × ℕ)} {x : ℕ × ℕ} (ht : Tiles l r)
    (ha : ∀ e ∈ r, base + HEADER ≤ e.1) (hx : x ∈ l)
    (hfl : ∀ f ∈ fl, bytes f ∈ l ∧ Apart (bytes f) x) : x.1 ∉ ((base, 0) :: fl).map Prod.fst := by
  intro hring
  have hpos := ht.pos x hx
  obtain ⟨f, hf, hfx⟩ := List.mem_map.mp hring
  rcases List.mem_cons.mp hf with rfl | hf
  · obtain ⟨g, hg, hle, -⟩ := (ht.cover x.1).mp ⟨x, hx, le_rfl, by omega⟩
    have := ha g hg
    simp only [HEADER] at this
    dsimp only at hfx
    omega
  · obtain ⟨hmem, hapart⟩ := hfl f hf
    exact fst_ne_of_apart (ht.pos _ hmem) hpos hapart hfx

/-- What the loop of `free` finds is the place of the block, and linking it in leaves the blocks
handed out alone. -/
theorem FreeList.freed {live r : List (ℕ × ℕ)} (h : FreeList base s fl)
    (ht : Tiles ((bp, s.size bp * HEADER) :: (fl.map bytes ++ blocks s live)) r)
    (ha : ∀ e ∈ r, base + HEADER ≤ e.1) (htot : total r < 2 ^ 36) :
    ∃ fuel p fl', s.freeLoop bp fuel s.freep = some p ∧ FreeList base (s.link bp p) fl' ∧
      Tiles (fl'.map bytes ++ blocks (s.link bp p) live) r ∧ (∃ e ∈ fl', s.size bp ≤ e.2) ∧
      ∀ e ∈ live, (s.link bp p).size e.1 = s.size e.1 := by
  have hout := FreeList.outside_of_tiles ht ha
  obtain ⟨q, hq, hstop⟩ := h.exists_place hout.above fun e he => hout.ne he
  obtain ⟨d, hd⟩ := ring_reach h.path h.freep hq
  rw [← hd] at hstop
  obtain ⟨fuel, p, hp⟩ := freeLoop_ends hstop
  obtain ⟨hstop', d', hd'⟩ := freeLoop_stop hp
  have hpmem : p ∈ ((base, 0) :: fl).map Prod.fst := by
    rw [← hd']
    exact iterate_mem_ring h.path h.freep d'
  obtain ⟨fl', hfl', htiles, hlarge, hframe⟩ := h.link rfl hpmem hstop' ht ha htot
  -- the headers of the blocks handed out are not touched
  have hlive : ∀ e ∈ live, (s.link bp p).size e.1 = s.size e.1 := by
    intro e he
    have hmem : (e.1, s.size e.1 * HEADER) ∈ blocks s live :=
      List.mem_map.mpr ⟨e, he, rfl⟩
    have hmem' := List.mem_cons_of_mem (bp, s.size bp * HEADER)
      (List.mem_append_right (fl.map bytes) hmem)
    obtain ⟨hbp, hrest⟩ := List.pairwise_cons.mp ht.apart
    refine hframe e.1 ?_ ?_
    · refine start_not_mem_ring (x := (e.1, s.size e.1 * HEADER)) ht ha hmem' fun f hf => ?_
      have hf' : bytes f ∈ fl.map bytes := List.mem_map_of_mem hf
      exact ⟨List.mem_cons_of_mem _ (List.mem_append_left _ hf'),
        (List.pairwise_append.mp hrest).2.2 _ hf' _ hmem⟩
    · exact (fst_ne_of_apart (ht.pos _ List.mem_cons_self) (ht.pos _ hmem')
        (hbp _ (List.mem_append_right _ hmem))).symm
  refine ⟨fuel, p, fl', hp, hfl', ?_, hlarge, hlive⟩
  rwa [blocks_congr hlive]

theorem filter_fst_eq {l : List (ℕ × ℕ)} (h : l.Pairwise fun a b => a.1 ≠ b.1) (he : e ∈ l) :
    l.Perm (e :: l.filter fun f => f.1 ≠ e.1) := by
  induction l with
  | nil => cases he
  | cons a l ih =>
    obtain ⟨ha, hl⟩ := List.pairwise_cons.mp h
    rcases List.mem_cons.mp he with rfl | he
    · have hall : l.filter (fun f => f.1 ≠ e.1) = l := by
        refine List.filter_eq_self.mpr fun f hf => ?_
        simpa using (ha f hf).symm
      simp only [ne_eq, not_true_eq_false, decide_false, Bool.false_eq_true, not_false_eq_true,
        List.filter_cons_of_neg]
      rw [show l.filter (fun f => decide (¬ f.1 = e.1)) = l from hall]
    · rw [List.filter_cons_of_pos (by simpa using ha e he)]
      exact ((ih hl he).cons a).trans (List.Perm.swap ..)

theorem Shape.fst_ne (h : Shape base limit s fl) : s.live.Pairwise fun a b => a.1 ≠ b.1 := by
  have happ := (List.pairwise_append.mp h.tiles.apart).2.1
  have hpos : ∀ e ∈ s.live, 0 < s.size e.1 * HEADER := by
    intro e he
    exact h.tiles.pos (e.1, s.size e.1 * HEADER)
      (List.mem_append_right _ (List.mem_map.mpr ⟨e, he, rfl⟩))
  refine (List.pairwise_map.mp happ).imp_of_mem fun {a b} ha hb hab => ?_
  exact fst_ne_of_apart (e := (a.1, s.size a.1 * HEADER)) (f := (b.1, s.size b.1 * HEADER))
    (hpos a ha) (hpos b hb) hab

/-- `free` returns, and keeps the shape. -/
theorem Shape.free_returns (h : Shape base limit s fl) (hl : limit < 2 ^ 36) (he : e ∈ s.live) :
    ∃ fuel s' fl', s.free fuel (e.1 + HEADER) = some s' ∧ Shape base limit s' fl' := by
  have hperm := filter_fst_eq h.fst_ne he
  have ht : Tiles ((e.1, s.size e.1 * HEADER) ::
      (fl.map bytes ++ blocks s (s.live.filter fun f => f.1 ≠ e.1))) s.regions := by
    refine h.tiles.perm ?_
    refine ((hperm.map _).append_left _).trans ?_
    rw [List.map_cons]
    exact List.perm_middle
  obtain ⟨fuel, p, fl', hp, hfl', htiles, -, hsame⟩ :=
    h.toFreeList.freed ht h.above (h.room.trans_lt hl)
  refine ⟨fuel, { s.link e.1 p with live := s.live.filter fun f => f.1 ≠ e.1 }, fl', ?_,
    ⟨{ hfl' with }, ?_, fun f hf => ?_, ?_, ?_⟩⟩
  · rw [State.free, Nat.add_sub_cancel, hp]
    rfl
  · rwa [link_regions]
  · rw [show (s.link e.1 p).size f.1 = s.size f.1 from hsame f hf]
    exact h.usable f (List.mem_filter.mp hf).1
  · rw [link_regions]
    exact h.above
  · rw [link_regions]
    exact h.room

/-! ### More memory -/

theorem toInt_of_lt (h : n < 2 ^ 31) : State.toInt n = n := by
  have hn : (BitVec.ofNat 32 n).toNat = n := by
    rw [BitVec.toNat_ofNat]
    exact Nat.mod_eq_of_lt (by omega)
  rw [State.toInt, BitVec.toInt_eq_toNat_of_lt (by rw [hn]; omega), hn]

/-- A region that was just obtained is put in the free list. -/
theorem Shape.grow_returns {hp m : ℕ} (h : Shape base limit s fl) (hl : limit < 2 ^ 36)
    (hm : 0 < m) (hfresh : Fresh base limit s hp (m * HEADER)) :
    ∃ fuel s' fl', (s.grow hp m (m * HEADER : ℕ)).free fuel (hp + HEADER) = some s' ∧
      Shape base limit s' fl' ∧ (∃ e ∈ fl', m ≤ e.2) ∧ s'.asked = s.asked := by
  have hpos : 0 < m * HEADER := Nat.mul_pos hm (by decide)
  set s1 := s.grow hp m (m * HEADER : ℕ) with hs1
  have hregions : s1.regions = (hp, m * HEADER) :: s.regions := rfl
  have hsize : ∀ w, w ≠ hp → s1.size w = s.size w := fun w hw => update_of_ne hw ..
  have hsizehp : s1.size hp = m := update_self ..
  -- the new header is none of those in use
  have hne : ∀ e ∈ fl.map bytes ++ blocks s s.live, e.1 ≠ hp := fun e he =>
    not_start_of_fresh h.tiles he hpos hfresh.apart
  have hneLive : ∀ e ∈ s.live, e.1 ≠ hp := fun e he =>
    hne (e.1, s.size e.1 * HEADER) (List.mem_append_right _ (List.mem_map.mpr ⟨e, he, rfl⟩))
  have hlive : ∀ e ∈ s.live, s1.size e.1 = s.size e.1 := fun e he => hsize e.1 (hneLive e he)
  have hfl : FreeList base s1 fl := by
    refine ⟨h.path, fun e he => ?_, h.freep, h.gaps⟩
    rw [hsize e.1 ?_]
    · exact h.size e he
    rcases List.mem_cons.mp he with rfl | he
    · have := hfresh.above
      simp only [HEADER] at this
      dsimp only
      omega
    · exact hne (bytes e) (List.mem_append_left _ (List.mem_map_of_mem he))
  have ht : Tiles ((hp, s1.size hp * HEADER) :: (fl.map bytes ++ blocks s1 s.live))
      s1.regions := by
    rw [hsizehp, blocks_congr hlive, hregions]
    exact h.tiles.grow hpos hfresh.apart
  have habove : ∀ e ∈ s1.regions, base + HEADER ≤ e.1 := by
    intro e he
    rcases List.mem_cons.mp he with rfl | he
    · exact hfresh.above
    · exact h.above e he
  have hroom : total s1.regions ≤ limit := by
    have := hfresh.room
    rw [hregions]
    simp only [total, List.map_cons, List.sum_cons] at this ⊢
    omega
  obtain ⟨fuel, p, fl', hp', hfl', htiles, hlarge, hsame⟩ :=
    hfl.freed ht habove (hroom.trans_lt hl)
  rw [hsizehp] at hlarge
  have hfilter : s1.live.filter (fun e => e.1 ≠ hp) = s.live :=
    List.filter_eq_self.mpr fun e he => by simpa using hneLive e he
  refine ⟨fuel, { s1.link hp p with live := s.live }, fl', ?_,
    ⟨{ hfl' with }, ?_, fun e he => ?_, ?_, ?_⟩, hlarge, link_asked s1 hp p⟩
  · rw [State.free, Nat.add_sub_cancel, hp', Option.map_some, hfilter]
  · rwa [link_regions]
  · rw [show (s1.link hp p).size e.1 = s1.size e.1 from hsame e he, hlive e he]
    exact h.usable e he
  · rwa [link_regions]
  · rwa [link_regions]

/-- `morecore` asks for the bytes that are needed; it fails, or there is now a free block that is
large enough. -/
theorem Shape.morecore_returns (h : Shape base limit s fl) (hl : limit < 2 ^ 36)
    (hs : Sbrk base limit sbrk) (hfit : nu * HEADER < 2 ^ 31) :
    (∀ fuel, s.morecore sbrk fuel nu = some (0, s.ask (max 4096 nu * HEADER : ℕ))) ∨
    ∃ fuel s' fl', s.morecore sbrk fuel nu = some (s'.freep, s') ∧ Shape base limit s' fl' ∧
      (∃ e ∈ fl', nu ≤ e.2) ∧ s'.asked = (s.ask (max 4096 nu * HEADER : ℕ)).asked := by
  have hmax : (if nu < 4096 then 4096 else nu) = max 4096 nu := by
    split_ifs <;> omega
  have hint : State.toInt (max 4096 nu * HEADER) = (max 4096 nu * HEADER : ℕ) := by
    refine toInt_of_lt ?_
    simp only [HEADER] at hfit ⊢
    omega
  unfold State.morecore
  dsimp only
  rw [hmax, hint]
  cases hb : sbrk s (max 4096 nu * HEADER : ℕ) with
  | none => exact Or.inl fun _ => rfl
  | some hp =>
    right
    have hfresh := hs _ _ _ hb
    rw [Int.toNat_natCast] at hfresh
    have hasked : Shape base limit (s.ask (max 4096 nu * HEADER : ℕ)) fl := { h with }
    obtain ⟨fuel, s', fl', hfree, hshape, ⟨e, he, hle⟩, hask⟩ :=
      hasked.grow_returns hl (by omega) { hfresh with }
    refine ⟨fuel, s', fl', ?_, hshape, ⟨e, he, (Nat.le_max_right ..).trans hle⟩, hask⟩
    dsimp only
    rw [hfree, Option.map_some]

/-! ### The loop of `malloc` -/

theorem mallocLoop_walk (d : ℕ) (h : ∀ j < d, s.size (s.ptr^[j + 1] q) < nu ∧
    s.ptr^[j + 1] q ≠ s.freep) :
    State.mallocLoop sbrk nbytes nu (fuel + d) s q (s.ptr q) =
      State.mallocLoop sbrk nbytes nu fuel s (s.ptr^[d] q) (s.ptr^[d + 1] q) := by
  induction d generalizing q with
  | zero => rfl
  | succ d ih =>
    have h1 : s.size (s.ptr q) < nu := (h 0 (Nat.succ_pos d)).1
    have h2 : s.ptr q ≠ s.freep := (h 0 (Nat.succ_pos d)).2
    rw [← Nat.add_assoc, State.mallocLoop, if_neg (not_le.mpr h1), if_neg h2,
      ih fun j hj => h (j + 1) (Nat.succ_lt_succ hj)]
    rfl

/-- What a call of `malloc` leaves behind. -/
structure Returned (base limit nbytes r : ℕ) (s' : State) : Prop where
  shape : ∃ fl, Shape base limit s' fl
  block : r = 0 ∨ ∃ p, r = p + HEADER ∧ (p, nbytes) ∈ s'.live

/-- If a block is large enough, the loop finds one. -/
theorem Shape.finds (h : Shape base limit s fl) (sbrk : State → ℤ → Option ℕ)
    (hnu : nbytes + HEADER ≤ nu * HEADER) (hlarge : ∃ e ∈ fl, nu ≤ e.2) :
    ∃ fuel q s', State.mallocLoop sbrk nbytes nu fuel s s.freep (s.ptr s.freep) =
      some (q + HEADER, s') ∧ Returned base limit nbytes (q + HEADER) s' ∧ s'.asked = s.asked := by
  -- the first block that is large enough comes before the round is over
  have hex : ∃ d, nu ≤ s.size (s.ptr^[d + 1] s.freep) := by
    obtain ⟨e, he, hle⟩ := hlarge
    have hmem : e ∈ (base, 0) :: fl := List.mem_cons_of_mem _ he
    obtain ⟨d, hd⟩ := ring_reach h.path h.freep (List.mem_map_of_mem (f := Prod.fst) hmem)
    refine ⟨d, ?_⟩
    rwa [hd, h.size e hmem]
  obtain ⟨d, hd, hmin⟩ : ∃ d, nu ≤ s.size (s.ptr^[d + 1] s.freep) ∧
      ∀ j < d, ¬ nu ≤ s.size (s.ptr^[j + 1] s.freep) :=
    ⟨Nat.find hex, Nat.find_spec hex, fun j hj => Nat.find_min hex hj⟩
  have hwalk : ∀ j < d, s.size (s.ptr^[j + 1] s.freep) < nu ∧ s.ptr^[j + 1] s.freep ≠ s.freep := by
    intro j hj
    refine ⟨not_le.mp (hmin j hj), fun hback => ?_⟩
    refine hmin (d - (j + 1)) (by omega) ?_
    have hsplit : s.ptr^[d + 1] s.freep = s.ptr^[d - (j + 1) + 1] s.freep := by
      rw [show d + 1 = d - (j + 1) + 1 + (j + 1) by omega, Function.iterate_add_apply, hback]
    rwa [← hsplit]
  have hpos : 0 < nu := by
    simp only [HEADER] at hnu
    omega
  obtain ⟨q, s1, fl', hcarve, hfl', htiles, hsizeq, hframe, hlive, hregions, hasked⟩ :=
    h.toFreeList.carve (iterate_mem_ring h.path h.freep d)
      (Function.iterate_succ_apply' s.ptr d s.freep).symm hpos hd h.tiles
  -- the headers of the blocks handed out are not touched
  have hsame : ∀ e ∈ s.live, s1.size e.1 = s.size e.1 := by
    intro e he
    have hmem : (e.1, s.size e.1 * HEADER) ∈ blocks s s.live := List.mem_map.mpr ⟨e, he, rfl⟩
    refine hframe e.1 ?_ ?_
    · refine start_not_mem_ring (x := (e.1, s.size e.1 * HEADER)) h.tiles h.above
        (List.mem_append_right _ hmem) fun f hf => ?_
      have hf' : bytes f ∈ fl.map bytes := List.mem_map_of_mem hf
      exact ⟨List.mem_append_left _ hf', (List.pairwise_append.mp h.tiles.apart).2.2 _ hf' _ hmem⟩
    · have hmem' : (e.1, s.size e.1 * HEADER) ∈ (q, nu * HEADER) ::
          (fl'.map bytes ++ blocks s s.live) :=
        List.mem_cons_of_mem _ (List.mem_append_right _ hmem)
      exact (fst_ne_of_apart (htiles.pos _ List.mem_cons_self) (htiles.pos _ hmem')
        ((List.pairwise_cons.mp htiles.apart).1 _ (List.mem_append_right _ hmem))).symm
  refine ⟨1 + d, q, { s1 with live := (q, nbytes) :: s1.live }, ?_, ⟨⟨fl', ?_⟩,
    Or.inr ⟨q, rfl, List.mem_cons_self⟩⟩, hasked⟩
  · rw [mallocLoop_walk d hwalk, State.mallocLoop, if_pos hd, hcarve]
  · refine ⟨{ hfl' with }, ?_, fun e he => ?_, ?_, ?_⟩
    · show Tiles (fl'.map bytes ++ (q, s1.size q * HEADER) :: blocks s1 s1.live) s1.regions
      rw [hlive, hregions, hsizeq, blocks_congr hsame]
      exact htiles.perm List.perm_middle.symm
    · rcases List.mem_cons.mp he with rfl | he
      · show nbytes + HEADER ≤ s1.size q * HEADER
        rwa [hsizeq]
      · rw [hlive] at he
        show e.2 + HEADER ≤ s1.size e.1 * HEADER
        rw [hsame e he]
        exact h.usable e he
    · show ∀ e ∈ s1.regions, base + HEADER ≤ e.1
      rw [hregions]
      exact h.above
    · show total s1.regions ≤ limit
      rw [hregions]
      exact h.room

/-- If none is, it asks for more memory. -/
theorem Shape.asks (h : Shape base limit s fl) (sbrk : State → ℤ → Option ℕ) (nbytes : ℕ)
    (hsmall : ∀ e ∈ fl, e.2 < nu) (hnu : 0 < nu) :
    ∃ d, ∀ fuel, State.mallocLoop sbrk nbytes nu (fuel + 1 + d) s s.freep (s.ptr s.freep) =
      (s.morecore sbrk fuel nu).bind fun (q, s) =>
        if q = 0 then some (0, s) else State.mallocLoop sbrk nbytes nu fuel s q (s.ptr q) := by
  obtain ⟨d0, hd0⟩ := ring_reach h.path h.freep h.freep
  have hex : ∃ d, s.ptr^[d + 1] s.freep = s.freep := ⟨d0, hd0⟩
  have hnode : ∀ j, s.size (s.ptr^[j] s.freep) < nu := by
    intro j
    have hmem : s.ptr^[j] s.freep ∈ ((base, 0) :: fl).map Prod.fst :=
      iterate_mem_ring h.path h.freep j
    obtain ⟨e, he, heq⟩ := List.mem_map.mp hmem
    rw [← heq, h.size e he]
    rcases List.mem_cons.mp he with rfl | he
    · exact hnu
    · exact hsmall e he
  refine ⟨Nat.find hex, fun fuel => ?_⟩
  rw [mallocLoop_walk _ fun j hj => ⟨hnode (j + 1), Nat.find_min hex hj⟩, State.mallocLoop,
    if_neg (not_le.mpr (hnode _)), if_pos (Nat.find_spec hex)]
  rfl

theorem Shape.freep_ne (h : Shape base limit s fl) (hb : 0 < base) : s.freep ≠ 0 := by
  obtain ⟨e, he, heq⟩ := List.mem_map.mp h.freep
  rw [← heq]
  rcases List.mem_cons.mp he with rfl | he
  · exact hb.ne'
  · have := (List.pairwise_cons.mp h.gaps).1 e he
    simp only [Gap] at this
    omega

/-- `malloc` returns, and keeps the shape; it asks for memory at most once, and for as much as is
needed. -/
theorem Shape.loop_returns (h : Shape base limit s fl) (hb : 0 < base) (hl : limit < 2 ^ 36)
    (hs : Sbrk base limit sbrk) (hnu : nbytes + HEADER ≤ nu * HEADER)
    (hfit : nu * HEADER < 2 ^ 31 ∨ ∃ e ∈ fl, nu ≤ e.2) :
    ∃ fuel r s', State.mallocLoop sbrk nbytes nu fuel s s.freep (s.ptr s.freep) = some (r, s') ∧
      Returned base limit nbytes r s' ∧
      (s'.asked = s.asked ∨ s'.asked = (s.ask (max 4096 nu * HEADER : ℕ)).asked) := by
  by_cases hlarge : ∃ e ∈ fl, nu ≤ e.2
  · obtain ⟨fuel, q, s', hfind, hret, hasked⟩ := h.finds sbrk hnu hlarge
    exact ⟨fuel, q + HEADER, s', hfind, hret, Or.inl hasked⟩
  have hsmall : ∀ e ∈ fl, e.2 < nu := by
    intro e he
    by_contra hle
    exact hlarge ⟨e, he, not_lt.mp hle⟩
  have hpos : 0 < nu := by
    simp only [HEADER] at hnu
    omega
  obtain ⟨d, hd⟩ := h.asks sbrk nbytes hsmall hpos
  rcases h.morecore_returns hl hs (hfit.resolve_right hlarge) with hnone | hsome
  · refine ⟨0 + 1 + d, 0, s.ask (max 4096 nu * HEADER : ℕ), ?_, ⟨⟨fl, { h with }⟩, Or.inl rfl⟩,
      Or.inr rfl⟩
    rw [hd, hnone]
    rfl
  · -- the second round finds a block
    obtain ⟨fuel1, s1, fl1, hm, h1, hlarge1, hasked⟩ := hsome
    obtain ⟨fuel2, q, s2, hloop, hret, hsame⟩ := h1.finds sbrk hnu hlarge1
    refine ⟨fuel1 + fuel2 + 1 + d, q + HEADER, s2, ?_, hret, Or.inr (hsame.trans hasked)⟩
    rw [hd, morecore_mono hm fuel2]
    show (if s1.freep = 0 then _ else _) = _
    rw [if_neg (h1.freep_ne hb), Nat.add_comm fuel1]
    exact mallocLoop_mono hloop fuel1

/-! ### Every sequence of calls -/

/-- Before the first call, or with a heap. -/
def Inv (base limit : ℕ) (s : State) : Prop :=
  s.freep = 0 ∧ s.regions = [] ∧ s.live = [] ∨ s.freep ≠ 0 ∧ ∃ fl, Shape base limit s fl

/-- The first call makes an empty free list. -/
theorem Inv.start (h : Inv base limit s) (nbytes : ℕ) : ∃ fl, Shape base limit (s.start base) fl ∧
    (Fits s nbytes ↔
      State.nunits nbytes * HEADER < 2 ^ 31 ∨ ∃ e ∈ fl, State.nunits nbytes ≤ e.2) := by
  rcases h with ⟨hf, hr, hl⟩ | ⟨hf, fl, h⟩
  · refine ⟨[], ?_, by simp [Fits, hf]⟩
    rw [State.start, if_pos hf]
    refine ⟨⟨⟨update_self .., trivial⟩, fun e he => ?_, List.mem_cons_self,
      List.pairwise_singleton ..⟩, ?_, fun e he => ?_, fun e he => ?_, ?_⟩
    · rw [List.mem_singleton.mp he]
      exact update_self ..
    · rw [hl, hr]
      exact Tiles.nil
    · rw [hl] at he
      cases he
    · rw [hr] at he
      cases he
    · rw [hr]
      exact Nat.zero_le _
  · refine ⟨fl, by rw [State.start, if_neg hf]; exact h, ?_⟩
    refine or_congr_right ⟨fun ⟨_, d, hd⟩ => ?_, fun ⟨e, he, hle⟩ => ⟨hf, ?_⟩⟩
    · have hmem : s.ptr^[d] s.freep ∈ ((base, 0) :: fl).map Prod.fst :=
        iterate_mem_ring h.path h.freep d
      obtain ⟨e, he, heq⟩ := List.mem_map.mp hmem
      rw [← heq, h.size e he] at hd
      refine ⟨e, List.mem_of_ne_of_mem ?_ he, hd⟩
      rintro rfl
      exact absurd hd (by simp [State.nunits])
    · have hmem : e ∈ (base, 0) :: fl := List.mem_cons_of_mem _ he
      obtain ⟨d, hd⟩ := ring_reach h.path h.freep (List.mem_map_of_mem (f := Prod.fst) hmem)
      exact ⟨d + 1, by rwa [hd, h.size e hmem]⟩

theorem nunits_spec (nbytes : ℕ) : nbytes + HEADER ≤ State.nunits nbytes * HEADER := by
  simp only [State.nunits, HEADER]
  omega

theorem start_asked (s : State) (base : ℕ) : (s.start base).asked = s.asked := by
  unfold State.start
  split_ifs <;> rfl

theorem Inv.malloc_returns (h : Inv base limit s) (hb : 0 < base) (hl : limit < 2 ^ 36)
    (hs : Sbrk base limit sbrk) (hfit : Fits s nbytes) :
    ∃ fuel r s', s.malloc base sbrk fuel nbytes = some (r, s') ∧
      Returned base limit nbytes r s' ∧
      (s'.asked = s.asked ∨
        s'.asked = (s.ask (max 4096 (State.nunits nbytes) * HEADER : ℕ)).asked) := by
  obtain ⟨fl, hshape, hiff⟩ := h.start nbytes
  have hrun := hshape.loop_returns hb hl hs (nunits_spec nbytes) (hiff.mp hfit)
  rwa [State.ask, start_asked] at hrun

theorem eq_of_mono {α : Type} {f : ℕ → Option α}
    (hf : ∀ n a, f n = some a → ∀ m, f (n + m) = some a)
    {a b : α} {m n : ℕ} (ha : f m = some a) (hb : f n = some b) : a = b := by
  have h1 := hf m a ha n
  rw [Nat.add_comm, hf n b hb m] at h1
  exact (Option.some.inj h1).symm

theorem Inv.step (h : Inv base limit s) (hb : 0 < base) (hl : limit < 2 ^ 36)
    (hs : Step base limit s s') : Inv base limit s' := by
  cases hs with
  | @malloc sbrk fuel nbytes r _ hsbrk _ hfit hm =>
    obtain ⟨fuel', r', s'', hm', ⟨⟨fl, hshape⟩, -⟩, -⟩ := h.malloc_returns hb hl hsbrk hfit
    obtain rfl : s'' = s' := congrArg Prod.snd
      (eq_of_mono (f := fun n => s.malloc base sbrk n nbytes) (fun n a => malloc_mono) hm' hm)
    exact Or.inr ⟨hshape.freep_ne hb, fl, hshape⟩
  | @free fuel e _ he hf =>
    rcases h with ⟨-, -, hlive⟩ | ⟨-, fl, h⟩
    · rw [hlive] at he
      cases he
    · obtain ⟨fuel', s'', fl', hf', hshape⟩ := h.free_returns hl he
      obtain rfl : s'' = s' :=
        eq_of_mono (f := fun n => s.free n (e.1 + HEADER)) (fun n a => free_mono) hf' hf
      exact Or.inr ⟨hshape.freep_ne hb, fl', hshape⟩

theorem inv_of_reachable (hb : 0 < base) (hl : limit < 2 ^ 36) (h : Reachable base limit s) :
    Inv base limit s := by
  induction h with
  | init hf hr hlive => exact Or.inl ⟨hf, hr, hlive⟩
  | step _ hs ih => exact ih.step hb hl hs

/-- **Every sequence of calls**, on a machine with less than `2 ^ 36` bytes for the program, leaves
a free list that is a ring sorted by address, with a gap between any two blocks; free blocks and
blocks handed out tile the memory obtained from `sbrk`; the blocks handed out have room for what was
asked for; and the next call of `malloc` or `free` returns. -/
theorem heap_of_calls (hb : 0 < base) (hl : limit < 2 ^ 36) (h : Reachable base limit s) :
    (s.freep ≠ 0 → ∃ fl, FreeList base s fl ∧ Tiles (fl.map bytes ++ blocks s s.live) s.regions) ∧
      (s.freep = 0 → s.regions = [] ∧ s.live = []) ∧
      (∀ e ∈ s.live, e.2 + HEADER ≤ s.size e.1 * HEADER) ∧
      (∀ sbrk nbytes, Sbrk base limit sbrk → Fits s nbytes →
        ∃ fuel r s', s.malloc base sbrk fuel nbytes = some (r, s') ∧
          (r = 0 ∨ ∃ p, r = p + HEADER ∧ (p, nbytes) ∈ s'.live)) ∧
      ∀ e ∈ s.live, ∃ fuel s', s.free fuel (e.1 + HEADER) = some s' := by
  have hI := inv_of_reachable hb hl h
  refine ⟨fun hf => ?_, fun hf => ?_, fun e he => ?_, fun sbrk nbytes hs hfit => ?_, fun e he => ?_⟩
  · obtain ⟨-, fl, hshape⟩ := hI.resolve_left fun h => hf h.1
    exact ⟨fl, hshape.toFreeList, hshape.tiles⟩
  · rcases hI with hI | ⟨hne, -⟩
    · exact hI.2
    · exact absurd hf hne
  · rcases hI with ⟨-, -, hlive⟩ | ⟨-, fl, hshape⟩
    · rw [hlive] at he
      cases he
    · exact hshape.usable e he
  · obtain ⟨fuel, r, s', hm, hret, -⟩ := hI.malloc_returns hb hl hs hfit
    exact ⟨fuel, r, s', hm, hret.block⟩
  · rcases hI with ⟨-, -, hlive⟩ | ⟨-, fl, hshape⟩
    · rw [hlive] at he
      cases he
    · obtain ⟨fuel, s', fl', hf, -⟩ := hshape.free_returns hl he
      exact ⟨fuel, s', hf⟩

/-! ### Sizes are machine words -/

instance (e f : ℕ × ℕ) : Decidable (Apart e f) := inferInstanceAs (Decidable (_ ∨ _))

/-- Regions one after the other, as long as there is memory. -/
def bump (limit : ℕ) (s : State) (n : ℤ) : Option ℕ :=
  let a := 32 + total s.regions
  if (∀ r ∈ s.regions, Apart (a, n.toNat) r) ∧ total s.regions + n.toNat ≤ limit then some a
  else none

theorem sbrk_bump (limit : ℕ) : Sbrk 16 limit (bump limit) := by
  intro s n a h
  unfold bump at h
  dsimp only at h
  split_ifs at h with hc
  cases h
  refine ⟨?_, hc.1, hc.2⟩
  simp only [HEADER]
  omega

/-- Nothing was called yet. -/
def empty : State := ⟨fun _ => 0, fun _ => 0, 0, [], [], []⟩

/-- A program asks for a block. -/
def grab (limit nbytes : ℕ) (s : State) : State :=
  ((s.malloc 16 (bump limit) 20 nbytes).map Prod.snd).getD s

/-- It frees the oldest of its blocks. -/
def give (s : State) : State :=
  match s.live.getLast? with
  | some e => (s.free 40 (e.1 + HEADER)).getD s
  | none => s

theorem Reachable.grab (h : Reachable 16 limit s) (hn : State.nunits nbytes * HEADER < 2 ^ 31) :
    Reachable 16 limit (grab limit nbytes s) := by
  unfold Malloc.grab
  cases hm : s.malloc 16 (bump limit) 20 nbytes with
  | none => exact h
  | some o =>
    have hlt : nbytes < 2 ^ 32 := by
      have := nunits_spec nbytes
      omega
    exact h.step (.malloc (sbrk_bump limit) hlt (Or.inl hn) hm)

theorem Reachable.give (h : Reachable base limit s) : Reachable base limit (give s) := by
  unfold Malloc.give
  cases hlast : s.live.getLast? with
  | none => exact h
  | some e =>
    cases hf : s.free 40 (e.1 + HEADER) with
    | none =>
      simp only [hf]
      exact h
    | some s' =>
      simp only [hf]
      exact h.step (.free (List.mem_of_getLast? hlast) hf)

theorem Reachable.iterate {f : State → State} (h : Reachable base limit s)
    (hf : ∀ s, Reachable base limit s → Reachable base limit (f s)) (n : ℕ) :
    Reachable base limit (f^[n] s) := by
  induction n with
  | zero => exact h
  | succ n ih =>
    rw [Function.iterate_succ_apply']
    exact hf _ ih

/-- Three blocks, of which the oldest is freed. -/
def holed : State := give ((grab (2 ^ 27) 100)^[3] empty)

theorem holed_reachable : Reachable 16 (2 ^ 27) holed :=
  ((Reachable.init rfl rfl rfl).iterate (fun _ h => h.grab (by decide)) 3).give

/-- The freed block is between the rest of the region and the two that are in use. -/
theorem heap_of_calls_holed : holed.live.length = 2 ∧
    ∃ fl, FreeList 16 holed fl ∧ Tiles (fl.map bytes ++ blocks holed holed.live) holed.regions :=
  ⟨by decide +kernel, (heap_of_calls (by decide) (by decide) holed_reachable).1 (by decide +kernel)⟩

/-- Thirty-three blocks of almost `2 ^ 31` bytes, allocated and freed. -/
def flooded : State := give^[33] ((grab (2 ^ 37) (2 ^ 31 - 32))^[33] empty)

theorem flooded_reachable : Reachable 16 (2 ^ 37) flooded :=
  ((Reachable.init rfl rfl rfl).iterate (fun _ h => h.grab (by decide)) 33).iterate
    (fun _ h => h.give) 33

/-- A ring with one block, in front of memory that belongs to nobody. -/
theorem not_tiles {a : ℕ} (hlive : s.live = []) (h1 : s.ptr base = p) (h2 : s.ptr p = base)
    (hne : p ≠ base) (ha : Covers s.regions a) (hp : s.past p ≤ a) (hfl : FreeList base s fl) :
    ¬ Tiles (fl.map bytes ++ blocks s s.live) s.regions := by
  intro ht
  have hone : fl = [(p, s.size p)] := by
    have hpath := hfl.path
    cases fl with
    | nil => exact absurd (h1.symm.trans hpath.1) hne
    | cons e l =>
      obtain ⟨q, k⟩ := e
      obtain rfl : p = q := h1.symm.trans hpath.1
      rw [hfl.size (p, k) (by simp)]
      cases l with
      | nil => rfl
      | cons f l =>
        have hf : base = f.1 := h2.symm.trans hpath.2.1
        have hgap := (List.pairwise_cons.mp hfl.gaps).1 f (by simp)
        simp only [Gap] at hgap
        omega
  obtain ⟨e, he, -, hlt⟩ := (ht.cover a).mpr ha
  rw [hone, hlive, show blocks s [] = [] from rfl, List.append_nil, List.map_singleton,
    List.mem_singleton] at he
  subst he
  exact absurd hlt (not_lt.mpr hp)

/-- **With more than `2 ^ 36` bytes the size of a free block wraps around**, and the free list loses
most of the memory. -/
theorem heap_overflows : Reachable 16 (2 ^ 37) flooded ∧ flooded.live = [] ∧
    ∀ fl, FreeList 16 flooded fl →
      ¬ Tiles (fl.map bytes ++ blocks flooded flooded.live) flooded.regions := by
  have hlive : flooded.live = [] := by decide +kernel
  have h16 : flooded.ptr 16 = 32 := by decide +kernel
  have h32 : flooded.ptr 32 = 16 := by decide +kernel
  have hregion : (32, 2 ^ 31 - 16) ∈ flooded.regions := by decide +kernel
  have hpast : flooded.past 32 ≤ 2 ^ 31 := by decide +kernel
  refine ⟨flooded_reachable, hlive, fun fl hfl => ?_⟩
  exact not_tiles hlive h16 h32 (by decide) ⟨_, hregion, by decide, by decide⟩ hpast hfl

/-! ### What `sbrk` is asked for -/

/-- A block with its header, large enough and inside the memory obtained from `sbrk`. -/
def Usable (s : State) (r nbytes : ℕ) : Prop :=
  ∃ p, r = p + HEADER ∧ nbytes + HEADER ≤ s.size p * HEADER ∧
    ∀ b, p ≤ b → b < p + s.size p * HEADER → Covers s.regions b

theorem Returned.usable {r : ℕ} (h : Returned base limit nbytes r s') :
    r = 0 ∨ Usable s' r nbytes := by
  obtain ⟨⟨fl, hshape⟩, hblock⟩ := h
  refine hblock.imp_right fun ⟨p, hr, hlive⟩ => ⟨p, hr, hshape.usable _ hlive, fun b hlo hhi => ?_⟩
  exact (hshape.tiles.cover b).mp
    ⟨_, List.mem_append_right _ (List.mem_map.mpr ⟨_, hlive, rfl⟩), hlo, hhi⟩

/-- **`malloc` is right if and only if what it asks `sbrk` for fits in an `int`**: it returns `0` or
a block that is large enough and inside the memory obtained, and if it calls `sbrk`, then once and
with the size of the block. -/
theorem malloc_right_iff (hb : 0 < base) (hl : limit < 2 ^ 36) (h : Reachable base limit s) :
    (∀ sbrk, Sbrk base limit sbrk → ∃ fuel r s', s.malloc base sbrk fuel nbytes = some (r, s') ∧
      (r = 0 ∨ Usable s' r nbytes) ∧ (s'.asked = s.asked ∨
        s'.asked = (s.ask (max 4096 (State.nunits nbytes) * HEADER : ℕ)).asked)) ↔
    Fits s nbytes := by
  have hI := inv_of_reachable hb hl h
  obtain ⟨fl, hshape, hiff⟩ := hI.start nbytes
  constructor
  · intro hright
    by_contra hn
    rw [hiff, not_or, not_lt] at hn
    -- no block is large enough, so `sbrk` is asked, here one that fails
    obtain ⟨d, hd⟩ := hshape.asks (fun _ _ => none) nbytes
      (fun e he => not_le.mp fun hle => hn.2 ⟨e, he, hle⟩) (Nat.succ_pos _)
    obtain ⟨fuel, r, s', hm, -, hasked⟩ := hright (fun _ _ => none) fun _ _ _ hc => by cases hc
    have heq := eq_of_mono (f := fun n => s.malloc base (fun _ _ => none) n nbytes)
      (fun n a => malloc_mono) hm (hd 0)
    obtain ⟨-, rfl⟩ := Prod.mk.inj heq
    rw [State.ask, start_asked] at hasked
    rcases hasked with hc | hc
    · exact absurd hc (List.cons_ne_self _ _)
    · have hint := (List.cons.inj hc).1
      have hlt := hint.ge.trans_lt BitVec.toInt_lt
      have hle := Nat.mul_le_mul_right HEADER (Nat.le_max_right 4096 (State.nunits nbytes))
      omega
  · intro hfit sbrk hs
    obtain ⟨fuel, r, s', hm, hret, hasked⟩ := hI.malloc_returns hb hl hs hfit
    exact ⟨fuel, r, s', hm, hret.usable, hasked⟩

/-- A request that the free list cannot answer, after the calls before. -/
theorem malloc_right_holed : Fits holed 70000 ∧
    ∃ s', holed.malloc 16 (bump (2 ^ 27)) 20 70000 = some (65584, s') ∧ Usable s' 65584 70000 ∧
      s'.asked = [70016, 65536] := by
  have hfit : Fits holed 70000 := Or.inl (by decide)
  have hrun : (holed.malloc 16 (bump (2 ^ 27)) 20 70000).map (fun o => (o.1, o.2.asked)) =
      some (65584, [70016, 65536]) := by decide +kernel
  obtain ⟨⟨r, s'⟩, hm, heq⟩ := Option.map_eq_some_iff.mp hrun
  obtain ⟨rfl, hasked⟩ := Prod.mk.inj heq
  obtain ⟨fuel, r, s'', hm', huse, -⟩ :=
    (malloc_right_iff (by decide) (by decide) holed_reachable).mpr hfit _ (sbrk_bump _)
  obtain ⟨rfl, rfl⟩ := Prod.mk.inj (eq_of_mono
    (f := fun n => holed.malloc 16 (bump (2 ^ 27)) n 70000) (fun n a => malloc_mono) hm' hm)
  exact ⟨hfit, s'', hm, huse.resolve_left (by decide), hasked⟩

/-- **The largest request is answered with a block of four gigabytes in sixteen bytes.** -/
theorem malloc_huge : Reachable 16 (2 ^ 27) empty ∧ Sbrk 16 (2 ^ 27) (bump (2 ^ 27)) ∧
    ∃ s', empty.malloc 16 (bump (2 ^ 27)) 20 (2 ^ 32 - 1) = some (48, s') ∧
      s'.regions = [(32, 16)] ∧ ¬ Usable s' 48 (2 ^ 32 - 1) := by
  refine ⟨.init rfl rfl rfl, sbrk_bump _, ?_⟩
  have hrun : (empty.malloc 16 (bump (2 ^ 27)) 20 (2 ^ 32 - 1)).map
      (fun o => (o.1, o.2.regions)) = some (48, [(32, 16)]) := by decide +kernel
  obtain ⟨⟨r, s'⟩, hm, heq⟩ := Option.map_eq_some_iff.mp hrun
  obtain ⟨rfl, hregions⟩ := Prod.mk.inj heq
  refine ⟨s', hm, hregions, ?_⟩
  rintro ⟨p, hp, hsize, hcover⟩
  simp only [HEADER] at hp hsize hcover
  have hcov := hcover 48 (by omega) (by omega)
  rw [hregions] at hcov
  simp [Covers] at hcov

end Xv6.Malloc
