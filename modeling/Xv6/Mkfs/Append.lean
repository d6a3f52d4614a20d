import Xv6.Mkfs.Blocks

/-!
# Appending to a file

A round of `iappend` finds or takes a block and puts the next bytes into it, where
the kernel's map of the inode (`Dinode.map`) has them.

## Main definitions

* `Stored` — the contents of the inodes.
* `blocksFor`, `total` — how many blocks contents take.

## Main results

* `Stored.round` — a round of the loop.
* `Stored.appendFrom` — **the bytes are appended.**
-/

namespace Xv6.Mkfs

open Fs Function

variable {disk : ℕ → Block} {fb i k x : ℕ} {dn : ℕ → Dinode} {nb : ℕ → ℕ} {hi : ℕ → Bool}
  {din : Dinode} {img img' img1 : Image} {c : ℕ → List UInt8}

/-! ### Contents -/

/-- The inodes `dn` have the contents `c`, and the blocks below `fb`. -/
structure Stored (disk : ℕ → Block) (fb : ℕ) (dn : ℕ → Dinode) (c : ℕ → List UInt8) : Prop where
  full : Full disk fb dn fun j => Fs.nblocks (c j).length
  size : ∀ j, (c j).length ≤ MAXFILE * BSIZE
  bytes : ∀ j o, o < (c j).length →
    disk ((dn j).map disk (.data (o / BSIZE))) (o % BSIZE) = (c j).getD o 0

/-- How many blocks the contents take. -/
def blocksFor (len : ℕ) : ℕ := Fs.nblocks len + if NDIRECT < Fs.nblocks len then 1 else 0

theorem Core.map_write (h : Core disk fb dn nb hi) {b : Block} (hx : (dn i).map disk (.data k) ≠ 0)
    (j : ℕ) : (dn j).map (update disk ((dn i).map disk (.data k)) b) = (dn j).map disk := by
  refine Dinode.map_setBlock (or_iff_not_imp_left.mpr fun _ hc => ?_)
  have hu : j = i ∧ Slot.ind = Slot.data k := h.slot_unique hx hc
  cases hu.2

theorem Core.write (h : Core disk fb dn nb hi) {b : Block} (hx : (dn i).map disk (.data k) ≠ 0) :
    Core (update disk ((dn i).map disk (.data k)) b) fb dn nb hi := by
  have hmap := h.map_write (b := b) hx
  refine ⟨?_, fun b' hb' => ?_, h.lo, h.le, fun j bn hbn => ?_, h.ind, h.tail, h.count⟩
  · simp only [hmap]
    exact h.own
  · have hlt := (h.slot hx).2
    rw [update_of_ne (by omega), h.zero b' hb']
  · rw [hmap, h.data j bn hbn]

/-- The next bytes are put into the block that has room for them. -/
theorem Stored.write {q : List UInt8} (h : Full disk fb dn fun j => Fs.nblocks
      (update c i (c i ++ q) j).length)
    (hsize : ∀ j, (c j).length ≤ MAXFILE * BSIZE)
    (hbytes : ∀ j o, o < (c j).length →
      disk ((dn j).map disk (.data (o / BSIZE))) (o % BSIZE) = (c j).getD o 0)
    (hq : q ≠ []) (hfit : (c i).length % BSIZE + q.length ≤ BSIZE)
    (hmax : (c i).length / BSIZE < MAXFILE) :
    Stored (update disk ((dn i).map disk (.data ((c i).length / BSIZE)))
        (Bytes.write (disk ((dn i).map disk (.data ((c i).length / BSIZE))))
          ((c i).length % BSIZE) q))
      fb dn (update c i (c i ++ q)) := by
  have hqlen : 0 < q.length := List.length_pos_of_ne_nil hq
  have hx : (dn i).map disk (.data ((c i).length / BSIZE)) ≠ 0 := by
    rw [h.data i _ hmax, update_self, List.length_append]
    exact lt_nblocks (by omega)
  -- another block of the contents is another block of the disk
  have hother : ∀ j bn, (j ≠ i ∨ bn ≠ (c i).length / BSIZE) →
      (dn j).map disk (.data bn) ≠ (dn i).map disk (.data ((c i).length / BSIZE)) := by
    intro j bn hne hc
    obtain ⟨hji, hbn⟩ := h.slot_unique hx hc
    rw [Slot.data.injEq] at hbn
    exact hne.elim (fun hn => hn hji) fun hn => hn hbn
  refine ⟨h.write hx, fun j => ?_, fun j o ho => ?_⟩
  · obtain rfl | hji := eq_or_ne j i
    · rw [update_self, List.length_append]
      have hmax : (c j).length / 1024 < 268 := hmax
      have hfit : (c j).length % 1024 + q.length ≤ 1024 := hfit
      show _ ≤ 268 * 1024
      omega
    · rw [update_of_ne hji]
      exact hsize j
  rw [h.map_write hx]
  obtain rfl | hji := eq_or_ne j i
  · rw [update_self] at ho ⊢
    rw [List.length_append] at ho
    have hfit : (c j).length % 1024 + q.length ≤ 1024 := hfit
    by_cases hbn : o / BSIZE = (c j).length / BSIZE
    · rw [hbn, update_self, Bytes.write]
      have hbn' : o / 1024 = (c j).length / 1024 := hbn
      by_cases hold : o < (c j).length
      · rw [if_neg (show ¬ ((c j).length % 1024 ≤ o % 1024 ∧ _) by omega), ← hbn, hbytes j o hold,
          List.getD_append _ _ _ _ hold]
      · rw [if_pos (show (c j).length % 1024 ≤ o % 1024 ∧
          o % 1024 < (c j).length % 1024 + _ by omega),
          List.getD_append_right _ _ _ _ (not_lt.mp hold)]
        congr 1
        show o % 1024 - (c j).length % 1024 = _
        omega
    · have hbn' : ¬ o / 1024 = (c j).length / 1024 := hbn
      have hold : o < (c j).length := by omega
      rw [update_of_ne (hother j _ (Or.inr hbn)), hbytes j o hold,
        List.getD_append _ _ _ _ hold]
  · rw [update_of_ne hji] at ho ⊢
    rw [update_of_ne (hother j _ (Or.inl hji)), hbytes j o ho]

/-- How many blocks all contents take. -/
def total (c : ℕ → List UInt8) : ℕ := ∑ j ∈ Finset.range SLOTS, blocksFor (c j).length

theorem Stored.count (h : Stored disk fb dn c) : fb = nmeta + total c := by
  rw [h.full.count]
  simp only [total, blocksFor, decide_eq_true_eq]

theorem Stored.room (h : Stored disk fb dn c) : nmeta + total c ≤ FSSIZE := h.count ▸ h.full.le

theorem nblocks_mono {m n : ℕ} (h : m ≤ n) : Fs.nblocks m ≤ Fs.nblocks n := by
  show (m + 1024 - 1) / 1024 ≤ (n + 1024 - 1) / 1024
  omega

theorem blocksFor_mono {m n : ℕ} (h : m ≤ n) : blocksFor m ≤ blocksFor n := by
  have hle := nblocks_mono h
  unfold blocksFor
  split_ifs <;> omega

theorem total_mono {c' : ℕ → List UInt8} (h : ∀ j, (c j).length ≤ (c' j).length) :
    total c ≤ total c' :=
  Finset.sum_le_sum fun j _ => blocksFor_mono (h j)

theorem nblocks_of_mod {len : ℕ} (h : len % BSIZE = 0) : len / BSIZE = Fs.nblocks len := by
  have h : len % 1024 = 0 := h
  show len / 1024 = (len + 1024 - 1) / 1024
  omega

theorem nblocks_of_mod_ne {len : ℕ} (h : len % BSIZE ≠ 0) : Fs.nblocks len = len / BSIZE + 1 := by
  have h : len % 1024 ≠ 0 := h
  show (len + 1024 - 1) / 1024 = len / 1024 + 1
  omega

theorem nblocks_append {len q : ℕ} (hq : 0 < q) (hfit : len % BSIZE + q ≤ BSIZE) :
    Fs.nblocks (len + q) = len / BSIZE + 1 := by
  have hfit : len % 1024 + q ≤ 1024 := hfit
  show (len + q + 1024 - 1) / 1024 = len / 1024 + 1
  omega

theorem total_update {x : List UInt8} (hlt : i < SLOTS) :
    total (update c i x) + blocksFor (c i).length = total c + blocksFor x.length := by
  have hsum := Conc.sum_change (h := fun j => blocksFor (c j).length)
    (k := fun j => blocksFor (update c i x j).length) (Finset.mem_range.mpr hlt)
    fun j hj => by rw [update_of_ne hj]
  rwa [update_self] at hsum

theorem total_append {q : List UInt8} (hlt : i < SLOTS) (hq : q ≠ [])
    (hfit : (c i).length % BSIZE + q.length ≤ BSIZE) (h0 : (c i).length % BSIZE = 0) :
    total (update c i (c i ++ q)) = total c + cost (Fs.nblocks (c i).length) := by
  have hi : blocksFor (c i ++ q).length =
      blocksFor (c i).length + cost (Fs.nblocks (c i).length) := by
    unfold blocksFor cost
    rw [List.length_append, nblocks_append (List.length_pos_of_ne_nil hq) hfit, nblocks_of_mod h0]
    split_ifs <;> omega
  have hup := total_update (c := c) (x := c i ++ q) hlt
  omega

/-- What a round leaves alone. -/
structure Kept (img : Image) (d : Dinode) (img' : Image) (d' : Dinode) : Prop where
  sys : ∀ b < nmeta, img'.disk b = img.disk b
  fields : d' = { d with addrs := d'.addrs }
  inode : img'.freeinode = img.freeinode

/-- **A round of the loop of `iappend`.** -/
theorem Stored.round {q : List UInt8} (h : Stored img.disk img.freeblock dn c) (hlt : i < SLOTS)
    (hq : q ≠ []) (hfit : (c i).length % BSIZE + q.length ≤ BSIZE)
    (hmax : (c i).length / BSIZE < MAXFILE)
    (hroom : nmeta + total (update c i (c i ++ q)) ≤ FSSIZE) :
    ∃ img1 din x, takeBlock img (dn i) ((c i).length / BSIZE) = some (img1, din, x) ∧
      nmeta ≤ x ∧ x < FSSIZE ∧ Kept img (dn i) img1 din ∧
      Stored (update img1.disk x (Bytes.write (img1.disk x) ((c i).length % BSIZE) q))
        img1.freeblock (update dn i din) (update c i (c i ++ q)) := by
  have hqlen : 0 < q.length := List.length_pos_of_ne_nil hq
  have hnew := nblocks_append hqlen hfit
  have hnb : (fun j => Fs.nblocks (update c i (c i ++ q) j).length) =
      update (fun j => Fs.nblocks (c j).length) i ((c i).length / BSIZE + 1) := by
    funext j
    by_cases hj : j = i
    · rw [hj, update_self, update_self, List.length_append, hnew]
    · rw [update_of_ne hj, update_of_ne hj]
  by_cases h0 : (c i).length % BSIZE = 0
  · have hk := nblocks_of_mod h0
    rw [total_append hlt hq hfit h0, ← Nat.add_assoc, ← h.count] at hroom
    obtain ⟨img1, din, htake, htook⟩ := takeBlock_new h.full hlt (hk ▸ hmax) hroom
    have hfull := htook.full
    rw [← hk] at hfull htake
    rw [← hnb] at hfull
    have hself : update dn i din i = din := update_self ..
    have hx : (update dn i din i).map img1.disk (.data ((c i).length / BSIZE)) ≠ 0 := by
      rw [hfull.data i _ hmax, update_self, List.length_append, hnew]
      exact Nat.lt_succ_self _
    have hslot := hfull.slot hx
    have hle := hfull.le
    rw [hself] at hslot
    refine ⟨img1, din, _, htake, hslot.1, by omega, ⟨htook.sys, htook.fields, htook.inode⟩, ?_⟩
    have hwrite := Stored.write hfull h.size (fun j o ho => ?_) hq hfit hmax
    · rwa [hself] at hwrite
    · have hsize := h.size j
      have hbn : o / BSIZE < MAXFILE := Nat.div_lt_of_lt_mul (by rw [Nat.mul_comm]; omega)
      have hmap := (h.full.data j _ hbn).mpr (lt_nblocks ho)
      obtain ⟨hsame, hdisk⟩ := htook.keep j _ hmap
      rw [hsame, hdisk, h.bytes j o ho]
  · -- the last block has room
    have hlast := nblocks_of_mod_ne h0
    have hk : (c i).length / BSIZE < Fs.nblocks (c i).length := by omega
    have hslot := h.full.slot ((h.full.data i _ hmax).mpr hk)
    have hle := h.full.le
    refine ⟨img, dn i, _, takeBlock_old h.full hk hmax, hslot.1, by omega,
      ⟨fun _ _ => rfl, rfl, rfl⟩, ?_⟩
    rw [update_eq_self]
    refine Stored.write ?_ h.size h.bytes hq hfit hmax
    have hsame : update (fun j => Fs.nblocks (c j).length) i ((c i).length / BSIZE + 1) =
        fun j => Fs.nblocks (c j).length := by
      rw [← hlast]
      exact update_eq_self i _
    have hfull := h.full
    rwa [← hsame, ← hnb] at hfull

/-- A block that can be read was taken from the disk. -/
theorem takeBlock_room (h : Full img.disk img.freeblock dn nb) (hmax : nb i < MAXFILE)
    (htake : takeBlock img (dn i) (nb i) = some (img1, din, x)) (hx : x < FSSIZE) :
    img.freeblock + cost (nb i) ≤ FSSIZE := by
  have hle := h.le
  have hlt32 : FSSIZE + 1 < 2 ^ 32 := by decide
  have hmap := h.no_data hmax
  unfold takeBlock at htake
  unfold cost
  rcases Nat.lt_trichotomy (nb i) NDIRECT with hd | hd | hd
  · rw [Dinode.map_direct hd] at hmap
    rw [if_pos hd, takeAddr_new hmap] at htake
    simp only [update_self, Option.some.injEq, Prod.mk.injEq] at htake
    rw [if_neg hd.ne]
    omega
  · -- the first entry of the indirect block: both blocks are new
    have hind := h.no_ind (i := i) (decide_eq_false (by omega))
    have hzero : ∀ k, entry (fun _ => 0) k = 0 := fun k => rfl
    rw [if_neg (by omega), takeAddr_new hind] at htake
    dsimp only at htake
    rw [update_self] at htake
    rw [if_pos hd]
    by_cases hfb : img.freeblock < FSSIZE
    · rw [takeEntry_new hfb (by rw [h.zero _ le_rfl, hzero])
        (by show img.freeblock + 1 < _; omega)] at htake
      simp only [Option.bind_eq_bind, Option.bind_some, Option.some.injEq, Prod.mk.injEq] at htake
      omega
    · unfold takeEntry Image.rsect at htake
      rw [if_neg hfb] at htake
      cases htake
  · have hind := (h.ind i).mpr (decide_eq_true hd)
    have hslot : _ ∧ (dn i).addrs NDIRECT < _ := h.slot (σ := .ind) hind
    rw [Dinode.map_indirect hd.le hmax hind] at hmap
    rw [if_neg (by omega), takeAddr_old hind] at htake
    dsimp only at htake
    rw [takeEntry_new (by omega) hmap (by omega)] at htake
    simp only [Option.bind_eq_bind, Option.bind_some, Option.some.injEq, Prod.mk.injEq] at htake
    rw [if_neg hd.ne']
    omega

/-- The contents after a round of `iappend` fit if the round succeeds. -/
theorem Stored.round_room {q : List UInt8} (h : Stored img.disk img.freeblock dn c)
    (hlt : i < SLOTS)
    (hq : q ≠ []) (hfit : (c i).length % BSIZE + q.length ≤ BSIZE)
    (hmax : (c i).length / BSIZE < MAXFILE)
    (htake : takeBlock img (dn i) ((c i).length / BSIZE) = some (img1, din, x)) (hx : x < FSSIZE) :
    nmeta + total (update c i (c i ++ q)) ≤ FSSIZE := by
  by_cases h0 : (c i).length % BSIZE = 0
  · have hcount := h.count
    have hk := nblocks_of_mod h0
    rw [hk] at htake hmax
    have hroom := takeBlock_room h.full hmax htake hx
    have htotal := total_append hlt hq hfit h0
    omega
  · -- the last block has room
    have hsame : blocksFor (c i ++ q).length = blocksFor (c i).length := by
      unfold blocksFor
      rw [List.length_append, nblocks_append (List.length_pos_of_ne_nil hq) hfit,
        nblocks_of_mod_ne h0]
    have htotal := total_update (c := c) (x := c i ++ q) hlt
    have hroom := h.room
    omega

theorem Kept.trans {d d1 d2 : Dinode} (h : Kept img d img1 d1)
    (h1 : Kept img1 d1 img' d2) : Kept img d img' d2 := by
  refine ⟨fun b hb => (h1.sys b hb).trans (h.sys b hb), ?_, h1.inode.trans h.inode⟩
  rw [h1.fields, h.fields]

/-- What a round puts into a block: as much as fits. -/
theorem round_take {p : List UInt8} {len n1 : ℕ} (hp : p ≠ [])
    (hn1 : n1 = min p.length ((len / BSIZE + 1) * BSIZE - len)) :
    0 < n1 ∧ (p.take n1).length = n1 ∧ p.take n1 ≠ [] ∧ len % BSIZE + (p.take n1).length ≤ BSIZE ∧
      len - len / BSIZE * BSIZE = len % BSIZE := by
  have hpos : 0 < p.length := List.length_pos_of_ne_nil hp
  have hn1 : n1 = min p.length ((len / 1024 + 1) * 1024 - len) := hn1
  have hlen : (p.take n1).length = n1 := by
    rw [List.length_take]
    omega
  refine ⟨by omega, hlen, List.ne_nil_of_length_pos (by omega), ?_, ?_⟩
  · rw [hlen]
    show len % 1024 + n1 ≤ 1024
    omega
  · have := Nat.div_add_mod' len BSIZE
    omega

/-- **The loop of `iappend` appends the bytes, or fails for lack of room.** -/
theorem Stored.appendFrom (hlt : i < SLOTS) (fuel : ℕ) : ∀ (img : Image) (dn : ℕ → Dinode)
    (c : ℕ → List UInt8) (p : List UInt8), p.length ≤ fuel → Stored img.disk img.freeblock dn c →
    (∃ img' din, Mkfs.appendFrom fuel img (dn i) (c i).length p =
        some (img', din, (c i).length + p.length) ∧ Kept img (dn i) img' din ∧
      Stored img'.disk img'.freeblock (update dn i din) (update c i (c i ++ p))) ∨
    (Mkfs.appendFrom fuel img (dn i) (c i).length p = none ∧
      ¬ ((c i).length + p.length ≤ MAXFILE * BSIZE ∧
      nmeta + total (update c i (c i ++ p)) ≤ FSSIZE)) := by
  have hnone : ∀ (img : Image) (dn : ℕ → Dinode) (c : ℕ → List UInt8), Stored img.disk
    img.freeblock dn c →
      Kept img (dn i) img (dn i) ∧
        Stored img.disk img.freeblock (update dn i (dn i)) (update c i (c i ++ [])) := by
    intro img dn c h
    rw [List.append_nil, update_eq_self, update_eq_self]
    exact ⟨⟨fun _ _ => rfl, rfl, rfl⟩, h⟩
  induction fuel with
  | zero =>
    intro img dn c p hp h
    obtain rfl := List.length_eq_zero_iff.mp (Nat.le_zero.mp hp)
    exact Or.inl ⟨img, dn i, rfl, hnone img dn c h⟩
  | succ fuel ih =>
    intro img dn c p hp h
    rw [Mkfs.appendFrom]
    by_cases hnil : p = []
    · subst hnil
      rw [if_pos rfl]
      exact Or.inl ⟨img, dn i, rfl, hnone img dn c h⟩
    rw [if_neg hnil]
    dsimp only
    have hpos : 0 < p.length := List.length_pos_of_ne_nil hnil
    by_cases hmax : (c i).length / BSIZE < MAXFILE
    swap
    · rw [if_neg hmax]
      exact Or.inr ⟨rfl, fun hc => hmax (Nat.div_lt_of_lt_mul (by rw [Nat.mul_comm]; omega))⟩
    -- what fits into the block
    obtain ⟨n1, hn1⟩ : ∃ n1, n1 = min p.length
        (((c i).length / BSIZE + 1) * BSIZE - (c i).length) :=
      ⟨_, rfl⟩
    obtain ⟨hn0, hlen, hq, hfit, hoff⟩ := round_take hnil hn1
    rw [if_pos hmax, ← hn1, hoff]
    by_cases hroom : nmeta + total (update c i (c i ++ p.take n1)) ≤ FSSIZE
    swap
    · have hmono : total (update c i (c i ++ p.take n1)) ≤ total (update c i (c i ++ p)) := by
        refine total_mono fun j => ?_
        by_cases hj : j = i
        · rw [hj, update_self, update_self, List.length_append, List.length_append, hlen]
          omega
        · rw [update_of_ne hj, update_of_ne hj]
      refine Or.inr ⟨?_, fun hc => hroom (by omega)⟩
      cases htake : takeBlock img (dn i) ((c i).length / BSIZE) with
      | none => rfl
      | some r =>
        have hx : ¬ r.2.2 < FSSIZE := fun hx => hroom (h.round_room hlt hq hfit hmax htake hx)
        simp [Image.rsect, hx]
    -- one round, and the rest of the bytes
    obtain ⟨img1, din, x, htake, hlo, hx, hkept, hst⟩ := h.round hlt hq hfit hmax hroom
    have hrest := ih
      (img1.wsect x (Bytes.write (img1.disk x) ((c i).length % BSIZE) (p.take n1)))
      (update dn i din) (update c i (c i ++ p.take n1)) (p.drop n1)
      (by rw [List.length_drop]; omega) hst
    have hsum : (c i).length + n1 + (p.length - n1) = (c i).length + p.length := by omega
    simp only [update_self, update_idem, List.append_assoc, List.take_append_drop,
      List.length_append, hlen, List.length_drop, hsum] at hrest
    rw [htake]
    unfold Image.rsect
    dsimp only [Option.bind_eq_bind, Option.bind_some]
    rw [if_pos hx]
    dsimp only [Option.bind_some]
    refine hrest.imp_left fun hr => ?_
    obtain ⟨img', din', hrun, hkept', hst'⟩ := hr
    have hkept1 : Kept img (dn i)
        (img1.wsect x (Bytes.write (img1.disk x) ((c i).length % BSIZE) (p.take n1))) din :=
      ⟨fun b hb => (update_of_ne (by omega) _ _).trans (hkept.sys b hb), hkept.fields,
        hkept.inode⟩
    exact ⟨img', din', hrun, hkept1.trans hkept', hst'⟩

end Xv6.Mkfs
