import Xv6.Malloc.Model
import Mathlib.Tactic.Ring

/-!
# The heap of a user program

The free blocks are kept in a list that is sorted by address, with a gap between
any two of them, and the ring of pointers goes through that list from `base`,
which lies below all of them.  With the blocks handed out, the free blocks tile
what was obtained from `sbrk`.

## Main definitions

* `coalesce` — putting a block in front of a list, joined with its first block if they touch.
* `FreeList` — the ring of pointers goes through a sorted list of blocks with gaps.

## Main results

* `join_spec` — `coalesce` on the ring of pointers.
* `FreeList.link` — what `free` does once it has found the place of a block.
* `freeLoop_stop`, `freeLoop_ends` — the loop of `free` ends, at that place.
* `FreeList.carve` — what `malloc` does once it has found a block.
-/

namespace Xv6.Malloc

open Extent Links Function

variable {base limit p bp n k w z : ℕ} {s s' : State} {fl A C R : List (ℕ × ℕ)} {x e : ℕ × ℕ}

/-! ### Lists of blocks -/

/-- A block, counted in bytes. -/
def bytes (e : ℕ × ℕ) : ℕ × ℕ := (e.1, e.2 * HEADER)

/-- The first block ends before the second one starts. -/
def Gap (e f : ℕ × ℕ) : Prop := e.1 + e.2 * HEADER < f.1

/-- Put a block in front of a list, joined with its first block if they touch. -/
def coalesce (x : ℕ × ℕ) : List (ℕ × ℕ) → List (ℕ × ℕ)
  | [] => [x]
  | y :: l => if x.1 + x.2 * HEADER = y.1 then (x.1, x.2 + y.2) :: l else x :: y :: l

theorem coalesce_of_ne {y : ℕ × ℕ} (h : x.1 + x.2 * HEADER ≠ y.1) :
    coalesce x (y :: C) = x :: y :: C := if_neg h

theorem coalesce_of_eq {y : ℕ × ℕ} (h : x.1 + x.2 * HEADER = y.1) :
    coalesce x (y :: C) = (x.1, x.2 + y.2) :: C := if_pos h

theorem coalesce_eq_cons (x : ℕ × ℕ) (C : List (ℕ × ℕ)) : ∃ n l, coalesce x C = (x.1, n) :: l := by
  cases C with
  | nil => exact ⟨x.2, [], rfl⟩
  | cons y l =>
    by_cases h : x.1 + x.2 * HEADER = y.1
    · exact ⟨x.2 + y.2, l, coalesce_of_eq h⟩
    · exact ⟨x.2, y :: l, coalesce_of_ne h⟩

theorem fst_of_mem_coalesce (h : e ∈ coalesce x C) : e.1 = x.1 ∨ ∃ c ∈ C, e.1 = c.1 := by
  cases C with
  | nil =>
    rw [List.mem_singleton.mp h]
    exact Or.inl rfl
  | cons y l =>
    by_cases heq : x.1 + x.2 * HEADER = y.1
    · rw [coalesce_of_eq heq] at h
      rcases List.mem_cons.mp h with rfl | h
      · exact Or.inl rfl
      · exact Or.inr ⟨e, List.mem_cons_of_mem _ h, rfl⟩
    · rw [coalesce_of_ne heq] at h
      rcases List.mem_cons.mp h with rfl | h
      · exact Or.inl rfl
      · exact Or.inr ⟨e, h, rfl⟩

theorem exists_ge_head (x : ℕ × ℕ) (C : List (ℕ × ℕ)) : ∃ e ∈ coalesce x C, x.2 ≤ e.2 := by
  cases C with
  | nil => exact ⟨x, List.mem_cons_self, le_rfl⟩
  | cons y l =>
    by_cases heq : x.1 + x.2 * HEADER = y.1
    · rw [coalesce_of_eq heq]
      exact ⟨_, List.mem_cons_self, Nat.le_add_right ..⟩
    · rw [coalesce_of_ne heq]
      exact ⟨x, List.mem_cons_self, le_rfl⟩

theorem exists_ge_tail (x : ℕ × ℕ) (he : e ∈ C) : ∃ f ∈ coalesce x C, e.2 ≤ f.2 := by
  cases C with
  | nil => cases he
  | cons y l =>
    by_cases heq : x.1 + x.2 * HEADER = y.1
    · rw [coalesce_of_eq heq]
      rcases List.mem_cons.mp he with rfl | he
      · exact ⟨_, List.mem_cons_self, Nat.le_add_left ..⟩
      · exact ⟨e, List.mem_cons_of_mem _ he, le_rfl⟩
    · rw [coalesce_of_ne heq]
      exact ⟨e, List.mem_cons_of_mem _ he, le_rfl⟩

/-- A list with gaps keeps them. -/
theorem gaps_coalesce (hC : C.Pairwise Gap) (hx : ∀ c ∈ C, x.1 + x.2 * HEADER ≤ c.1) :
    (coalesce x C).Pairwise Gap := by
  cases C with
  | nil => exact List.pairwise_singleton ..
  | cons y l =>
    obtain ⟨hy, hl⟩ := List.pairwise_cons.mp hC
    by_cases heq : x.1 + x.2 * HEADER = y.1
    · rw [coalesce_of_eq heq]
      refine List.pairwise_cons.mpr ⟨fun c hc => ?_, hl⟩
      have := hy c hc
      simp only [Gap, Nat.add_mul] at this ⊢
      omega
    · rw [coalesce_of_ne heq]
      refine List.pairwise_cons.mpr ⟨fun c hc => ?_, hC⟩
      have hxy := hx y List.mem_cons_self
      have hlt : x.1 + x.2 * HEADER < y.1 := lt_of_le_of_ne hxy heq
      rcases List.mem_cons.mp hc with rfl | hc
      · exact hlt
      · have := hy c hc
        simp only [Gap] at this ⊢
        omega

theorem tiles_coalesce {r : List (ℕ × ℕ)} (h : Tiles (bytes x :: (C.map bytes ++ R)) r) :
    Tiles ((coalesce x C).map bytes ++ R) r := by
  cases C with
  | nil => exact h
  | cons y l =>
    by_cases heq : x.1 + x.2 * HEADER = y.1
    · rw [coalesce_of_eq heq]
      have hy : bytes y = (x.1 + x.2 * HEADER, y.2 * HEADER) := by rw [heq]; rfl
      rw [List.map_cons, hy] at h
      have hm := h.merge
      rwa [← Nat.add_mul] at hm
    · rwa [coalesce_of_ne heq]

/-! ### The ring of pointers -/

/-- The ring of pointers goes from `base` through a list of blocks that is sorted by address, with
a gap between any two of them. -/
structure FreeList (base : ℕ) (s : State) (fl : List (ℕ × ℕ)) : Prop where
  path : Path s.ptr (((base, 0) :: fl).map Prod.fst) base
  size : ∀ e ∈ (base, 0) :: fl, s.size e.1 = e.2
  freep : s.freep ∈ ((base, 0) :: fl).map Prod.fst
  gaps : ((base, 0) :: fl).Pairwise Gap

theorem join_regions (s : State) (x y : ℕ) : (s.join x y).regions = s.regions := by
  unfold State.join
  split_ifs <;> rfl

theorem link_asked (s : State) (x y : ℕ) : (s.link x y).asked = s.asked := by
  unfold State.link State.join
  dsimp only
  split_ifs <;> rfl

theorem link_regions (s : State) (x y : ℕ) : (s.link x y).regions = s.regions :=
  (join_regions _ _ _).trans (join_regions _ _ _)

/-- Putting a block in front of a path of blocks. -/
theorem join_spec (hp : Path s.ptr (C.map Prod.fst) z) (hs : ∀ e ∈ C, s.size e.1 = e.2)
    (hx : s.size x.1 = x.2) (hxC : x.1 ∉ C.map Prod.fst)
    (hz : C = [] → x.1 + x.2 * HEADER ≠ z) (hno : ∀ e ∈ coalesce x C, e.2 < 2 ^ 32) :
    let s' := s.join x.1 ((C.map Prod.fst).headD z)
    Path s'.ptr ((coalesce x C).map Prod.fst) z ∧ (∀ e ∈ coalesce x C, s'.size e.1 = e.2) ∧
      ∀ w, w ≠ x.1 → s'.ptr w = s.ptr w ∧ s'.size w = s.size w := by
  have hpast : s.past x.1 = x.1 + x.2 * HEADER := by rw [State.past, hx]
  -- the case in which nothing is joined
  have hapart : ∀ y, s.past x.1 ≠ y → coalesce x C = x :: C → y = (C.map Prod.fst).headD z →
      Path (s.join x.1 y).ptr ((coalesce x C).map Prod.fst) z ∧
      (∀ e ∈ coalesce x C, (s.join x.1 y).size e.1 = e.2) ∧
      ∀ w, w ≠ x.1 → (s.join x.1 y).ptr w = s.ptr w ∧ (s.join x.1 y).size w = s.size w := by
    intro y hne hco hy
    rw [State.join, if_neg hne, hco]
    refine ⟨⟨?_, hp.frame fun w hw => ?_⟩, fun e he => ?_, fun w hw => ?_⟩
    · exact (update_self ..).trans hy
    · refine update_of_ne ?_ ..
      rintro rfl
      exact hxC hw
    · rcases List.mem_cons.mp he with rfl | he
      · exact hx
      · exact hs e he
    · exact ⟨update_of_ne hw .., rfl⟩
  cases C with
  | nil => exact hapart z (by rw [hpast]; exact hz rfl) rfl rfl
  | cons y l =>
    by_cases heq : x.1 + x.2 * HEADER = y.1
    · rw [coalesce_of_eq heq] at hno ⊢
      have hlt := hno _ List.mem_cons_self
      have hy : s.size y.1 = y.2 := hs y List.mem_cons_self
      have hsum : (s.size x.1 + s.size y.1) % 2 ^ 32 = x.2 + y.2 := by
        rw [hx, hy]
        exact Nat.mod_eq_of_lt hlt
      have hl : ∀ c ∈ l, c.1 ≠ x.1 := by
        intro c hc hcx
        refine hxC (List.mem_map.mpr ⟨c, List.mem_cons_of_mem _ hc, hcx⟩)
      simp only [List.map_cons, List.headD_cons]
      rw [State.join, if_pos (hpast.trans heq)]
      refine ⟨⟨?_, hp.2.frame fun w hw => ?_⟩, fun e he => ?_, fun w hw => ?_⟩
      · exact (update_self ..).trans hp.1
      · obtain ⟨c, hc, rfl⟩ := List.mem_map.mp hw
        exact update_of_ne (hl c hc) ..
      · rcases List.mem_cons.mp he with rfl | he
        · exact (update_self ..).trans hsum
        · exact (update_of_ne (hl e he) ..).trans
            (hs e (List.mem_cons_of_mem _ he))
      · exact ⟨update_of_ne hw .., update_of_ne hw ..⟩
    · exact hapart y.1 (by rw [hpast]; exact heq) (coalesce_of_ne heq) rfl

/-! ### The place of a block -/

/-- The condition on which the loop of `free` ends. -/
def Stop (s : State) (bp p : ℕ) : Prop :=
  bp > p ∧ bp < s.ptr p ∨ p ≥ s.ptr p ∧ (bp > p ∨ bp < s.ptr p)

theorem freeLoop_succ {fuel : ℕ} (hn : ¬ Stop s bp p) :
    s.freeLoop bp (fuel + 1) p = s.freeLoop bp fuel (s.ptr p) := by
  simp only [Stop, not_or] at hn
  rw [State.freeLoop, if_neg hn.1, if_neg]
  simpa using hn.2

theorem freeLoop_now (hs : Stop s bp p) : s.freeLoop bp 1 p = some p := by
  by_cases h : bp > p ∧ bp < s.ptr p
  · rw [State.freeLoop, if_pos h]
  · rw [State.freeLoop, if_neg h, if_pos (hs.resolve_left h)]

theorem freeLoop_stop {fuel q : ℕ} (h : s.freeLoop bp fuel q = some p) :
    Stop s bp p ∧ ∃ d, s.ptr^[d] q = p := by
  induction fuel generalizing q with
  | zero => cases h
  | succ fuel ih =>
    rw [State.freeLoop] at h
    split_ifs at h with h1 h2
    · cases h
      exact ⟨Or.inl h1, 0, rfl⟩
    · cases h
      exact ⟨Or.inr h2, 0, rfl⟩
    · obtain ⟨hs, d, hd⟩ := ih h
      exact ⟨hs, d + 1, hd⟩

theorem freeLoop_ends {d q : ℕ} (h : Stop s bp (s.ptr^[d] q)) :
    ∃ fuel p, s.freeLoop bp fuel q = some p := by
  induction d generalizing q with
  | zero => exact ⟨1, q, freeLoop_now h⟩
  | succ d ih =>
    by_cases hq : Stop s bp q
    · exact ⟨1, q, freeLoop_now hq⟩
    · obtain ⟨fuel, p, hp⟩ := ih h
      exact ⟨fuel + 1, p, (freeLoop_succ hq).trans hp⟩

namespace FreeList

theorem split_at (h : FreeList base s fl) (hp : p ∈ ((base, 0) :: fl).map Prod.fst) :
    ∃ A k C, (base, 0) :: fl = A ++ (p, k) :: C ∧ s.ptr p = (C.map Prod.fst).headD base := by
  obtain ⟨⟨q, k⟩, hq, rfl⟩ := List.mem_map.mp hp
  obtain ⟨A, C, hAC⟩ := List.append_of_mem hq
  refine ⟨A, k, C, hAC, ?_⟩
  have hpath := h.path
  rw [hAC, List.map_append, List.map_cons] at hpath
  exact (path_append.mp hpath).2.1

/-- The loop of `free` ends at the last node below the block. -/
theorem place (h : FreeList base s fl) (hAC : (base, 0) :: fl = A ++ (p, k) :: C)
    (hptr : s.ptr p = (C.map Prod.fst).headD base) (hb : base < bp) :
    Stop s bp p ↔ p < bp ∧ ∀ c ∈ C, bp < c.1 := by
  have hgaps := h.gaps
  rw [hAC] at hgaps
  have hC := List.pairwise_cons.mp (List.pairwise_append.mp hgaps).2.1
  -- `base` is below every block, so the list wraps only behind its last one
  have hbase : base ≤ p := by
    have hmem : (p, k) ∈ (base, 0) :: fl := by
      rw [hAC]
      simp
    rcases List.mem_cons.mp hmem with heq | hmem
    · cases heq
      exact le_rfl
    · have := (List.pairwise_cons.mp h.gaps).1 _ hmem
      simp only [Gap] at this
      omega
  cases C with
  | nil =>
    rw [List.map_nil, List.headD_nil] at hptr
    simp only [Stop, hptr, List.not_mem_nil, false_implies, implies_true, and_true]
    omega
  | cons c C =>
    rw [List.map_cons, List.headD_cons] at hptr
    have hpc := hC.1 c List.mem_cons_self
    simp only [Gap] at hpc
    constructor
    · intro hs
      simp only [Stop, hptr] at hs
      have hlt : bp > p ∧ bp < c.1 := by omega
      refine ⟨hlt.1, fun d hd => ?_⟩
      rcases List.mem_cons.mp hd with rfl | hd
      · exact hlt.2
      · have := (List.pairwise_cons.mp hC.2).1 d hd
        simp only [Gap] at this
        omega
    · rintro ⟨hlt, hall⟩
      exact Or.inl ⟨hlt, by rw [hptr]; exact hall c List.mem_cons_self⟩

theorem exists_last {L : List (ℕ × ℕ)} (hg : (e :: L).Pairwise Gap) (he : e.1 < bp) :
    ∃ A f C, e :: L = A ++ f :: C ∧ f.1 < bp ∧ ∀ c ∈ C, bp ≤ c.1 := by
  induction L generalizing e with
  | nil => exact ⟨[], e, [], rfl, he, nofun⟩
  | cons f L ih =>
    have hL := (List.pairwise_cons.mp hg).2
    by_cases hf : f.1 < bp
    · obtain ⟨A, f', C, heq, hf', hC⟩ := ih hL hf
      exact ⟨e :: A, f', C, by rw [heq]; rfl, hf', hC⟩
    · refine ⟨[], e, f :: L, rfl, he, fun c hc => ?_⟩
      rcases List.mem_cons.mp hc with rfl | hc
      · exact not_lt.mp hf
      · have := (List.pairwise_cons.mp hL).1 c hc
        simp only [Gap] at this
        omega

theorem exists_place (h : FreeList base s fl) (hb : base < bp)
    (hne : ∀ e ∈ fl, e.1 ≠ bp) : ∃ p ∈ ((base, 0) :: fl).map Prod.fst, Stop s bp p := by
  obtain ⟨A, ⟨p, k⟩, C, hAC, hp, hC⟩ := exists_last h.gaps hb
  have hpath := h.path
  rw [hAC, List.map_append, List.map_cons] at hpath
  have hptr : s.ptr p = (C.map Prod.fst).headD base := (path_append.mp hpath).2.1
  refine ⟨p, ?_, (h.place hAC hptr hb).mpr ⟨hp, fun c hc => ?_⟩⟩
  · rw [hAC]
    simp
  · have hmem : c ∈ (base, 0) :: fl := by
      rw [hAC]
      simp [hc]
    refine lt_of_le_of_ne (hC c hc) ?_
    rcases List.mem_cons.mp hmem with rfl | hmem
    · exact (ne_of_lt hb).symm
    · exact (hne c hmem).symm

/-! ### Freeing a block -/

/-- What a block that is to be freed has to do with the free list. -/
structure Outside (base : ℕ) (bp n : ℕ) (fl : List (ℕ × ℕ)) : Prop where
  pos : 0 < n
  above : base < bp
  apart : ∀ e ∈ fl, 0 < e.2 ∧ Apart (bp, n * HEADER) (bytes e)

variable {r : List (ℕ × ℕ)}

theorem outside_of_tiles (ht : Tiles ((bp, n * HEADER) :: (fl.map bytes ++ R)) r)
    (ha : ∀ e ∈ r, base + HEADER ≤ e.1) : Outside base bp n fl := by
  have hpos : 0 < n * HEADER := ht.pos _ List.mem_cons_self
  refine ⟨Nat.pos_of_mul_pos_right hpos, ?_, fun e he => ⟨?_, ?_⟩⟩
  · obtain ⟨f, hf, hle, -⟩ := (ht.cover bp).mp ⟨_, List.mem_cons_self, le_rfl, by
      dsimp only
      omega⟩
    have := ha f hf
    simp only [HEADER] at this
    omega
  · have hmem : bytes e ∈ fl.map bytes := List.mem_map_of_mem he
    exact Nat.pos_of_mul_pos_right
      (ht.pos (bytes e) (List.mem_cons_of_mem _ (List.mem_append_left _ hmem)))
  · exact (List.pairwise_cons.mp ht.apart).1 _
      (List.mem_append_left _ (List.mem_map_of_mem he))

theorem Outside.ne (h : Outside base bp n fl) (he : e ∈ fl) : e.1 ≠ bp := by
  rintro rfl
  obtain ⟨hpos, hapart⟩ := h.apart e he
  have hn := h.pos
  simp only [Apart, bytes, HEADER] at hapart
  omega

/-- The block is put after `p`, and joined with its neighbours. -/
theorem gaps_insert {q : ℕ × ℕ} (hg : (A ++ q :: C).Pairwise Gap) (hq : q.1 + q.2 * HEADER ≤ x.1)
    (hC : ∀ c ∈ C, x.1 + x.2 * HEADER ≤ c.1) : (A ++ coalesce q (coalesce x C)).Pairwise Gap := by
  obtain ⟨hA, hqC, hAq⟩ := List.pairwise_append.mp hg
  obtain ⟨hq', hC'⟩ := List.pairwise_cons.mp hqC
  refine List.pairwise_append.mpr ⟨hA, gaps_coalesce (gaps_coalesce hC' hC) fun e he => ?_, ?_⟩
  · rcases fst_of_mem_coalesce he with heq | ⟨c, hc, heq⟩
    · rwa [heq]
    · rw [heq]
      exact (hq' c hc).le
  · intro a ha e he
    have haq : a.1 + a.2 * HEADER < q.1 := hAq a ha q List.mem_cons_self
    rw [Gap]
    rcases fst_of_mem_coalesce he with heq | ⟨c, hc, heq⟩
    · rwa [heq]
    rcases fst_of_mem_coalesce hc with heq' | ⟨d, hd, heq'⟩
    · rw [heq, heq']
      omega
    · rw [heq, heq']
      exact hAq a ha d (List.mem_cons_of_mem _ hd)

/-- The list still starts at `base`, and tiles the same memory with the block in it. -/
theorem insert_eq_cons (hAC : (base, 0) :: fl = A ++ (p, k) :: C)
    (hb : base < x.1) (ht : Tiles (bytes x :: (fl.map bytes ++ R)) r) :
    ∃ fl', A ++ coalesce (p, k) (coalesce x C) = (base, 0) :: fl' ∧
      Tiles (fl'.map bytes ++ R) r ∧ ∃ R', Tiles ((coalesce x C).map bytes ++ R') r := by
  cases A with
  | nil =>
    obtain ⟨hhead, rfl⟩ := List.cons.inj hAC
    cases hhead
    refine ⟨coalesce x fl, ?_, tiles_coalesce ht, R, tiles_coalesce ht⟩
    obtain ⟨m, l, hl⟩ := coalesce_eq_cons x fl
    rw [List.nil_append, hl, coalesce_of_ne]
    dsimp only
    omega
  | cons a A =>
    obtain ⟨rfl, hfl⟩ := List.cons.inj hAC
    replace hfl : fl = A ++ (p, k) :: C := hfl
    subst hfl
    -- the block first with what comes after it, then with what comes before it
    have h1 : Tiles (bytes x :: (C.map bytes ++ (bytes (p, k) :: (A.map bytes ++ R)))) r := by
      refine ht.perm (List.Perm.cons _ ?_)
      refine List.perm_iff_count.mpr fun a => ?_
      simp only [List.map_append, List.map_cons, List.count_append, List.count_cons]
      omega
    have h2 : Tiles (bytes (p, k) :: ((coalesce x C).map bytes ++ (A.map bytes ++ R))) r := by
      refine (tiles_coalesce h1).perm ?_
      exact List.perm_middle
    refine ⟨A ++ coalesce (p, k) (coalesce x C), rfl, (tiles_coalesce h2).perm ?_, _,
      tiles_coalesce h1⟩
    rw [List.map_append, List.append_assoc]
    exact List.perm_append_comm_assoc ..

theorem units_lt {l : List (ℕ × ℕ)} (ht : Tiles (l.map bytes ++ R) r)
    (htot : total r < 2 ^ 36) (he : e ∈ l) : e.2 < 2 ^ 32 := by
  have hle := ht.length_le (List.mem_append_left _ (List.mem_map_of_mem (f := bytes) he))
  simp only [bytes, HEADER] at hle
  omega

/-- The blocks around a new one end before it starts, and start after it ends. -/
theorem around (hAC : (base, 0) :: fl = A ++ (p, k) :: C) (hout : Outside base bp n fl)
    (hlt : p < bp) (hC : ∀ c ∈ C, bp < c.1) :
    p + k * HEADER ≤ bp ∧ ∀ c ∈ C, bp + n * HEADER ≤ c.1 := by
  have hmem : ∀ e ∈ A ++ (p, k) :: C, e = (base, 0) ∨ e ∈ fl := by
    rw [← hAC]
    exact fun e he => List.mem_cons.mp he
  refine ⟨?_, fun c hc => ?_⟩
  · rcases hmem (p, k) (by simp) with heq | hpfl
    · cases heq
      omega
    · have hapart := (hout.apart _ hpfl).2
      have hpos := hout.pos
      simp only [Apart, bytes, HEADER] at hapart ⊢
      omega
  · have hbc := hC c hc
    rcases hmem c (by simp [hc]) with rfl | hcfl
    · exact absurd hout.above (not_lt.mpr hbc.le)
    · obtain ⟨hpos, hapart⟩ := hout.apart _ hcfl
      simp only [Apart, bytes, HEADER] at hapart ⊢
      omega

/-- What `free` does once it has found the place of a block. -/
theorem link (h : FreeList base s fl) (hn : s.size bp = n)
    (hp : p ∈ ((base, 0) :: fl).map Prod.fst) (hs : Stop s bp p)
    (ht : Tiles ((bp, n * HEADER) :: (fl.map bytes ++ R)) r)
    (ha : ∀ e ∈ r, base + HEADER ≤ e.1) (htot : total r < 2 ^ 36) :
    ∃ fl', FreeList base (s.link bp p) fl' ∧ Tiles (fl'.map bytes ++ R) r ∧ (∃ e ∈ fl', n ≤ e.2) ∧
      ∀ w, w ∉ ((base, 0) :: fl).map Prod.fst → w ≠ bp → (s.link bp p).size w = s.size w := by
  have hout := outside_of_tiles ht ha
  obtain ⟨A, k, C, hAC, hptr⟩ := h.split_at hp
  obtain ⟨hlt, hC⟩ := (h.place hAC hptr hout.above).mp hs
  obtain ⟨hpk, hCx⟩ := around hAC hout hlt hC
  have hgaps := h.gaps
  have hpath := h.path
  have hsize := h.size
  rw [hAC] at hgaps hpath hsize
  rw [List.map_append, List.map_cons] at hpath
  obtain ⟨hpA, hpC⟩ := path_append.mp hpath
  obtain ⟨fl', hfl', htiles, R', htiles'⟩ := insert_eq_cons (x := (bp, n)) hAC hout.above ht
  -- the block and what comes after it
  have hbpC : bp ∉ C.map Prod.fst := by
    intro hmem
    obtain ⟨c, hc, rfl⟩ := List.mem_map.mp hmem
    exact lt_irrefl _ (hC c hc)
  obtain ⟨path1, size1, frame1⟩ := join_spec (x := (bp, n)) hpC.2
    (fun e he => hsize e (by simp [he])) hn hbpC
    (fun _ => (lt_of_lt_of_le hout.above (Nat.le_add_right ..)).ne')
    (fun e he => units_lt htiles' htot he)
  rw [← hptr] at path1 size1 frame1
  -- what comes before it
  obtain ⟨m, l, hl⟩ := coalesce_eq_cons (bp, n) C
  have hpC1 : p ∉ (coalesce (bp, n) C).map Prod.fst := by
    intro hmem
    obtain ⟨e, he, hep⟩ := List.mem_map.mp hmem
    rcases fst_of_mem_coalesce he with heq | ⟨c, hc, heq⟩
    · rw [hep] at heq
      exact hlt.ne heq
    · rw [hep] at heq
      exact (hlt.trans (hC c hc)).ne heq
  have hsizep : (s.join bp (s.ptr p)).size p = k := by
    rw [(frame1 p hlt.ne).2]
    exact hsize (p, k) (by simp)
  obtain ⟨path2, size2, frame2⟩ := join_spec (x := (p, k)) path1 size1 hsizep hpC1
    (by rw [hl]; simp) (fun e he => by
      have hmem' : e ∈ (base, 0) :: fl' := by
        rw [← hfl']
        exact List.mem_append_right _ he
      rcases List.mem_cons.mp hmem' with rfl | hmem'
      · exact Nat.two_pow_pos 32
      · exact units_lt htiles htot hmem')
  have hhead : ((coalesce (bp, n) C).map Prod.fst).headD base = bp := by
    rw [hl]
    rfl
  rw [hhead] at path2 size2 frame2
  have hAne : ∀ a ∈ A, a.1 ≠ p ∧ a.1 ≠ bp := by
    intro a haA
    have := (List.pairwise_append.mp hgaps).2.2 a haA (p, k) List.mem_cons_self
    simp only [Gap] at this
    omega
  have hframe : ∀ w, w ≠ p → w ≠ bp → (s.link bp p).ptr w = s.ptr w ∧
      (s.link bp p).size w = s.size w := by
    intro w hwp hwb
    obtain ⟨hptr2, hsize2⟩ := frame2 w hwp
    obtain ⟨hptr1, hsize1⟩ := frame1 w hwb
    exact ⟨hptr2.trans hptr1, hsize2.trans hsize1⟩
  obtain ⟨m', l', hl'⟩ := coalesce_eq_cons (p, k) (coalesce (bp, n) C)
  -- what the block was joined to is at least as large
  have hlarge : ∃ e ∈ fl', n ≤ e.2 := by
    obtain ⟨e, he, hne⟩ := exists_ge_head (bp, n) C
    obtain ⟨f, hf, hef⟩ := exists_ge_tail (p, k) he
    have hmem' : f ∈ (base, 0) :: fl' := by
      rw [← hfl']
      exact List.mem_append_right _ hf
    refine ⟨f, List.mem_of_ne_of_mem ?_ hmem', hne.trans hef⟩
    rintro rfl
    exact absurd (hne.trans hef) (not_le.mpr hout.pos)
  refine ⟨fl', ⟨?_, ?_, ?_, ?_⟩, htiles, hlarge, fun w hw hwb => ?_⟩
  · rw [← hfl', List.map_append]
    refine path_append.mpr ⟨?_, path2⟩
    rw [hl']
    refine hpA.frame fun w hw => ?_
    obtain ⟨a, haA, rfl⟩ := List.mem_map.mp hw
    exact (hframe a.1 (hAne a haA).1 (hAne a haA).2).1
  · intro e he
    rw [← hfl'] at he
    rcases List.mem_append.mp he with heA | he
    · rw [(hframe e.1 (hAne e heA).1 (hAne e heA).2).2]
      exact hsize e (List.mem_append_left _ heA)
    · exact size2 e he
  · show p ∈ ((base, 0) :: fl').map Prod.fst
    rw [← hfl', hl']
    simp
  · rw [← hfl']
    exact gaps_insert hgaps hpk hCx
  · refine (hframe w ?_ hwb).2
    rintro rfl
    exact hw (by rw [hAC]; simp)

/-! ### Taking a block -/

/-- A node of the ring that has another one after it, which is not `base`. -/
theorem split_pair (h : FreeList base s fl) {prevp : ℕ}
    (hprev : prevp ∈ ((base, 0) :: fl).map Prod.fst) (hp : s.ptr prevp = p) (hne : p ≠ base) :
    ∃ X A j C, (base, 0) :: X = A ++ [(prevp, j)] ∧ fl = X ++ (p, s.size p) :: C := by
  obtain ⟨A, j, C, hAC, hptr⟩ := h.split_at hprev
  cases C with
  | nil => exact absurd (hp.symm.trans hptr) hne
  | cons c C =>
    obtain ⟨q, k⟩ := c
    obtain rfl : p = q := hp.symm.trans hptr
    have hk : s.size p = k := h.size (p, k) (by rw [hAC]; simp)
    rw [hk]
    cases A with
    | nil =>
      obtain ⟨hhead, rfl⟩ := List.cons.inj hAC
      exact ⟨[], [], j, C, by rw [hhead]; rfl, rfl⟩
    | cons a A =>
      obtain ⟨rfl, hfl⟩ := List.cons.inj hAC
      refine ⟨A ++ [(prevp, j)], (base, 0) :: A, j, C, rfl, ?_⟩
      rw [hfl]
      simp

/-- The whole block is taken. -/
theorem take_all {prevp j : ℕ} {X : List (ℕ × ℕ)}
    (h : FreeList base s (X ++ (p, n) :: C)) (hX : (base, 0) :: X = A ++ [(prevp, j)])
    (ht : Tiles ((X ++ (p, n) :: C).map bytes ++ R) r) :
    FreeList base { s with ptr := update s.ptr prevp (s.ptr p), freep := prevp } (X ++ C) ∧
      Tiles ((p, n * HEADER) :: ((X ++ C).map bytes ++ R)) r := by
  have hgaps := h.gaps
  have hpath := h.path
  rw [← List.cons_append, hX] at hgaps hpath
  obtain ⟨hB, -, hcross⟩ := List.pairwise_append.mp hgaps
  -- only the pointer of `prevp` changes
  have hneC : ∀ e ∈ C, e.1 ≠ prevp := by
    intro e he
    have h1 := hcross (prevp, j) (by simp) e (List.mem_cons_of_mem _ he)
    simp only [Gap] at h1
    omega
  have hneA : ∀ e ∈ A, e.1 ≠ prevp := by
    intro e he
    have h1 := (List.pairwise_append.mp hB).2.2 e he (prevp, j) (by simp)
    simp only [Gap] at h1
    omega
  refine ⟨⟨?_, ?_, ?_, ?_⟩, ht.perm ?_⟩
  · rw [← List.cons_append, hX, List.map_append, List.map_append]
    rw [List.map_append, List.map_append] at hpath
    obtain ⟨hpB, hpC⟩ := path_append.mp hpath
    obtain ⟨hpA, -⟩ := path_append.mp hpB
    refine path_append.mpr ⟨path_append.mpr ⟨?_, ?_, trivial⟩, ?_⟩
    · refine hpA.frame fun w hw => ?_
      obtain ⟨e, he, rfl⟩ := List.mem_map.mp hw
      exact update_of_ne (hneA e he) ..
    · exact (update_self ..).trans hpC.1
    · refine hpC.2.frame fun w hw => ?_
      obtain ⟨e, he, rfl⟩ := List.mem_map.mp hw
      exact update_of_ne (hneC e he) ..
  · intro e he
    refine h.size e ?_
    rcases List.mem_cons.mp he with rfl | he
    · exact List.mem_cons_self
    rcases List.mem_append.mp he with he | he
    · exact List.mem_cons_of_mem _ (List.mem_append_left _ he)
    · exact List.mem_cons_of_mem _ (List.mem_append_right _ (List.mem_cons_of_mem _ he))
  · show prevp ∈ ((base, 0) :: (X ++ C)).map Prod.fst
    rw [← List.cons_append, hX]
    simp
  · rw [← List.cons_append, hX]
    exact hgaps.sublist (List.Sublist.append_left (List.sublist_cons_self ..) _)
  · rw [List.map_append, List.map_cons, List.map_append, bytes, List.append_assoc,
      List.append_assoc]
    exact List.perm_middle

/-- The end of the block is taken. -/
theorem take_end {prevp nu m : ℕ} {X : List (ℕ × ℕ)} (h : FreeList base s (X ++ (p, m + nu) :: C))
    (hprev : prevp ∈ ((base, 0) :: (X ++ (p, m + nu) :: C)).map Prod.fst)
    (hm : 0 < m) (hnu : 0 < nu) (ht : Tiles ((X ++ (p, m + nu) :: C).map bytes ++ R) r) :
    FreeList base { s with
        size := update (update s.size p m) (p + m * HEADER) nu
        freep := prevp } (X ++ (p, m) :: C) ∧
      Tiles ((p + m * HEADER, nu * HEADER) :: ((X ++ (p, m) :: C).map bytes ++ R)) r := by
  have hgaps := h.gaps
  rw [← List.cons_append] at hgaps
  obtain ⟨hX, hpC, hcross⟩ := List.pairwise_append.mp hgaps
  obtain ⟨hpC, hC⟩ := List.pairwise_cons.mp hpC
  -- the new header is no node of the ring
  have hbefore : ∀ e ∈ (base, 0) :: X, e.1 < p := by
    intro e he
    have h1 := hcross e he _ List.mem_cons_self
    simp only [Gap] at h1
    omega
  have hafter : ∀ e ∈ C, p + m * HEADER < e.1 := by
    intro e he
    have h1 := hpC e he
    simp only [Gap, Nat.add_mul] at h1
    omega
  have hsame : ∀ e : ℕ × ℕ, e.1 ≠ p + m * HEADER → e.1 ≠ p → s.size e.1 = e.2 →
      update (update s.size p m) (p + m * HEADER) nu e.1 = e.2 := by
    intro e h1 h2 h3
    rw [update_of_ne h1, update_of_ne h2, h3]
  refine ⟨⟨?_, ?_, ?_, ?_⟩, ?_⟩
  · have hpath := h.path
    simp only [List.map_cons, List.map_append] at hpath ⊢
    exact hpath
  · intro e he
    rw [← List.cons_append] at he
    rcases List.mem_append.mp he with he | he
    · have hlt := hbefore e he
      refine hsame e ?_ hlt.ne (h.size e ?_)
      · exact (lt_of_lt_of_le hlt (Nat.le_add_right ..)).ne
      · rw [← List.cons_append]
        exact List.mem_append_left _ he
    rcases List.mem_cons.mp he with rfl | he
    · have hne : p ≠ p + m * HEADER := by
        simp only [HEADER]
        omega
      exact (update_of_ne hne ..).trans (update_self ..)
    · have hlt := hafter e he
      refine hsame e hlt.ne' ?_ (h.size e (by simp [he]))
      exact (lt_of_le_of_lt (Nat.le_add_right ..) hlt).ne'
  · simp only [List.map_cons, List.map_append] at hprev ⊢
    exact hprev
  · rw [← List.cons_append]
    refine List.pairwise_append.mpr ⟨hX, List.pairwise_cons.mpr ⟨fun e he => hafter e he, hC⟩, ?_⟩
    intro e he f hf
    rcases List.mem_cons.mp hf with rfl | hf
    · exact hcross e he (p, m + nu) List.mem_cons_self
    · exact hcross e he f (List.mem_cons_of_mem _ hf)
  · -- the block is split into what stays and what is handed out
    have h1 : Tiles ((p, m * HEADER + nu * HEADER) :: (X.map bytes ++ (C.map bytes ++ R))) r := by
      refine ht.perm ?_
      rw [List.map_append, List.map_cons, bytes, Nat.add_mul, List.append_assoc]
      exact List.perm_middle
    refine (h1.split (Nat.mul_pos hm (by decide)) (Nat.mul_pos hnu (by decide))).perm ?_
    refine (List.Perm.swap ..).trans (List.Perm.cons _ ?_)
    rw [List.map_append, List.map_cons, List.append_assoc]
    exact List.perm_middle.symm

/-- What `malloc` does once it has found a block. -/
theorem carve {prevp nu : ℕ} (h : FreeList base s fl)
    (hprev : prevp ∈ ((base, 0) :: fl).map Prod.fst) (hp : s.ptr prevp = p)
    (hnu : 0 < nu) (hsize : nu ≤ s.size p) (ht : Tiles (fl.map bytes ++ R) r) :
    ∃ q s' fl', s.carve nu prevp p = (q, s') ∧ FreeList base s' fl' ∧
      Tiles ((q, nu * HEADER) :: (fl'.map bytes ++ R)) r ∧ s'.size q = nu ∧
      (∀ w, w ∉ ((base, 0) :: fl).map Prod.fst → w ≠ q → s'.size w = s.size w) ∧
      s'.live = s.live ∧ s'.regions = s.regions ∧ s'.asked = s.asked := by
  have hne : p ≠ base := by
    rintro rfl
    rw [h.size (p, 0) List.mem_cons_self] at hsize
    exact absurd hsize (not_le.mpr hnu)
  obtain ⟨X, A, j, C, hX, rfl⟩ := h.split_pair hprev hp hne
  by_cases heq : s.size p = nu
  · obtain ⟨hfl, htiles⟩ := h.take_all hX ht
    rw [heq] at htiles
    exact ⟨p, _, X ++ C, if_pos heq, hfl, htiles, heq, fun _ _ _ => rfl, rfl, rfl, rfl⟩
  · obtain ⟨m, hm⟩ : ∃ m, s.size p = m + nu := ⟨s.size p - nu, by omega⟩
    have hpmem : p ∈ ((base, 0) :: (X ++ (p, s.size p) :: C)).map Prod.fst := by simp
    have hcarve : s.carve nu prevp p = (p + m * HEADER, { s with
        size := update (update s.size p m) (p + m * HEADER) nu
        freep := prevp }) := by
      rw [State.carve, if_neg heq]
      simp only [State.past, update_self, hm, Nat.add_sub_cancel]
    rw [hm] at h hprev ht
    obtain ⟨hfl, htiles⟩ := h.take_end hprev (by omega) hnu ht
    refine ⟨_, _, _, hcarve, hfl, htiles, update_self .., fun w hw hwq => ?_, rfl, rfl, rfl⟩
    have hwp : w ≠ p := by
      rintro rfl
      exact hw hpmem
    exact (update_of_ne hwq ..).trans (update_of_ne hwp ..)

end FreeList

end Xv6.Malloc
