import Xv6.Mkfs.Layout
import Xv6.Fs.Blocks
import Xv6.Lib.Sum

/-!
# Blocks that `mkfs` gives out

While `mkfs` runs the blocks below `freeblock` are in use: each is part of the area
before the data blocks, or named by one slot of one inode.  An inode that needs
another block gets the next one, and before it one for its indirect block if it has
none yet.

## Main definitions

* `Core`, `Full` — which slots of the inodes have blocks.
* `Took` — what has changed when an inode has got a block.

## Main results

* `takeBlock_old`, `takeBlock_new` — **an inode has the block, or gets the next one.**
-/

namespace Xv6.Mkfs

open Fs Function

variable {disk : ℕ → Block} {fb i k x : ℕ} {dn : ℕ → Dinode} {nb : ℕ → ℕ} {hi : ℕ → Bool}
  {din : Dinode} {img img' : Image}

/-- What the superblock says. -/
abbrev SB : Superblock := ⟨FSSIZE, nblocks, NINODES⟩

theorem SB_nmeta : SB.nmeta = nmeta := rfl

/-! ### Blocks -/

/-- The inodes `dn` have the blocks below `fb`: inode `i` has the first `nb i` blocks of
its contents, and an indirect block if `hi i`. -/
structure Core (disk : ℕ → Block) (fb : ℕ) (dn : ℕ → Dinode) (nb : ℕ → ℕ) (hi : ℕ → Bool) :
    Prop where
  own : ∃ own, Owned SB (fun b => decide (b < fb)) (fun i => (dn i).map disk)
    (fun _ : Unit => none) own
  zero : ∀ b, fb ≤ b → disk b = fun _ => 0
  lo : nmeta ≤ fb
  le : fb ≤ FSSIZE
  data : ∀ i bn, bn < MAXFILE → ((dn i).map disk (.data bn) ≠ 0 ↔ bn < nb i)
  ind : ∀ i, (dn i).addrs NDIRECT ≠ 0 ↔ hi i = true
  tail : ∀ i k, NDIRECT < k → (dn i).addrs k = 0
  count : fb = nmeta + ∑ i ∈ Finset.range SLOTS, (nb i + if hi i then 1 else 0)

namespace Core

theorem slot (h : Core disk fb dn nb hi) {σ : Slot} (hσ : (dn i).map disk σ ≠ 0) :
    nmeta ≤ (dn i).map disk σ ∧ (dn i).map disk σ < fb := by
  obtain ⟨own, ho⟩ := h.own
  have hs := (ho.slot _ i σ).mpr ⟨hσ, rfl⟩
  have hlt := ho.range _ (by rw [hs]; exact nofun)
  refine ⟨?_, ?_⟩
  · by_contra hc
    have hsys := (ho.system _).mpr (not_le.mp hc)
    rw [hs] at hsys
    cases hsys
  · have hbit := (ho.used _ hlt).mpr (by rw [hs]; exact nofun)
    exact of_decide_eq_true hbit

theorem slot_unique (h : Core disk fb dn nb hi) {i' : ℕ} {σ σ' : Slot} (hσ : (dn i).map disk σ ≠ 0)
    (he : (dn i').map disk σ' = (dn i).map disk σ) : i' = i ∧ σ' = σ := by
  obtain ⟨own, ho⟩ := h.own
  exact ho.slot_unique hσ he

theorem no_data (h : Core disk fb dn nb hi) (hmax : nb i < MAXFILE) :
    (dn i).map disk (.data (nb i)) = 0 := by
  by_contra hc
  exact absurd ((h.data i _ hmax).mp hc) (lt_irrefl _)

theorem no_ind (h : Core disk fb dn nb hi) (hno : hi i = false) : (dn i).addrs NDIRECT = 0 := by
  by_contra hc
  rw [(h.ind i).mp hc] at hno
  cases hno

theorem pos (h : Core disk fb dn nb hi) : fb ≠ 0 := by
  have hlo := h.lo
  have h47 : nmeta = 47 := by decide
  omega

section Give

variable {disk' : ℕ → Block} {dn' : ℕ → Dinode} {σ : Slot}

/-- The next block is given to an empty slot of an inode. -/
theorem give {nb' : ℕ → ℕ} {hi' : ℕ → Bool} (h : Core disk fb dn nb hi) (hfb : fb < FSSIZE)
    (hlt : i < SLOTS) (hσ : (dn i).map disk σ = 0)
    (hmaps : (fun j => (dn' j).map disk') = update (fun j => (dn j).map disk) i
      (update ((dn i).map disk) σ fb))
    (hzero : ∀ b, fb + 1 ≤ b → disk' b = fun _ => 0)
    (htail : ∀ j k, NDIRECT < k → (dn' j).addrs k = 0)
    (hdata : ∀ bn < MAXFILE, update ((dn i).map disk) σ fb (.data bn) ≠ 0 ↔ bn < nb' i)
    (hind : update ((dn i).map disk) σ fb .ind ≠ 0 ↔ hi' i = true)
    (hone : (nb' i + if hi' i then 1 else 0) = (nb i + if hi i then 1 else 0) + 1)
    (hother : ∀ j, j ≠ i → nb' j = nb j ∧ hi' j = hi j) : Core disk' (fb + 1) dn' nb' hi' := by
  have hlo := h.lo
  have hmap : ∀ j, (dn' j).map disk' = update (fun j => (dn j).map disk) i
    (update ((dn i).map disk) σ fb) j := fun j => congrFun hmaps j
  refine ⟨?_, hzero, by omega, hfb, fun j bn hbn => ?_, fun j => ?_, htail, ?_⟩
  · obtain ⟨own, ho⟩ := h.own
    have hgot := ho.attach (x := fb) (by simp) hfb h.pos hσ
    -- the next block is the one that the map of the used ones grows by
    have hbit : update (fun b => decide (b < fb)) fb true = fun b => decide (b < fb + 1) := by
      funext b
      by_cases hb : b = fb
      · simp [hb]
      · rw [update_of_ne hb]
        simp only [decide_eq_decide]
        omega
    rwa [hbit, ← hmaps] at hgot
  · rw [hmap]
    obtain rfl | hji := eq_or_ne j i
    · rw [update_self]
      exact hdata bn hbn
    · rw [update_of_ne hji, (hother j hji).1, h.data j bn hbn]
  · show (dn' j).map disk' .ind ≠ 0 ↔ _
    rw [hmap]
    obtain rfl | hji := eq_or_ne j i
    · rwa [update_self]
    · rw [update_of_ne hji, (hother j hji).2, Dinode.map_ind, h.ind]
  · have hsum := Conc.sum_change (h := fun j => nb j + if hi j then 1 else 0)
      (k := fun j => nb' j + if hi' j then 1 else 0) (Finset.mem_range.mpr hlt)
      fun j hj => by rw [(hother j hj).1, (hother j hj).2]
    rw [hone] at hsum
    rw [h.count]
    omega

/-- It becomes the next block of the contents. -/
theorem giveData (h : Core disk fb dn nb hi) (hfb : fb < FSSIZE) (hlt : i < SLOTS)
    (hmax : nb i < MAXFILE) (hmaps : (fun j => (dn' j).map disk') = update
      (fun j => (dn j).map disk) i (update ((dn i).map disk) (.data (nb i)) fb))
    (hzero : ∀ b, fb + 1 ≤ b → disk' b = fun _ => 0)
    (htail : ∀ j k, NDIRECT < k → (dn' j).addrs k = 0) :
    Core disk' (fb + 1) dn' (update nb i (nb i + 1)) hi := by
  refine h.give hfb hlt (h.no_data hmax) hmaps hzero htail (fun bn hbn => ?_) ?_ ?_
    fun j hj => ⟨update_of_ne hj .., rfl⟩
  · rw [update_self]
    by_cases hb : bn = nb i
    · rw [hb, update_self]
      exact iff_of_true h.pos (Nat.lt_succ_self _)
    · rw [update_of_ne (by simpa using hb), h.data i bn hbn]
      omega
  · rw [update_of_ne Slot.noConfusion]
    exact h.ind i
  · rw [update_self]
    omega

end Give

theorem update_maps {disk' : ℕ → Block} {m : Slot → ℕ} (hi : din.map disk' = m)
    (hother : ∀ j, j ≠ i → (dn j).map disk' = (dn j).map disk) :
    (fun j => (update dn i din j).map disk') = update (fun j => (dn j).map disk) i m := by
  funext j
  by_cases hj : j = i
  · rw [hj, update_self, update_self, hi]
  · rw [update_of_ne hj, update_of_ne hj, hother j hj]

theorem update_tail (h : Core disk fb dn nb hi) (hk : k ≤ NDIRECT)
    (hdin : din.addrs = update (dn i).addrs k x) (j l : ℕ) (hl : NDIRECT < l) :
    (update dn i din j).addrs l = 0 := by
  by_cases hj : j = i
  · rw [hj, update_self, hdin, update_of_ne (by omega), h.tail i l hl]
  · rw [update_of_ne hj, h.tail j l hl]

theorem maps_direct (hk : k < NDIRECT) (hdin : din.addrs = update (dn i).addrs k x) :
    (fun j => (update dn i din j).map disk) = update (fun j => (dn j).map disk) i
      (update ((dn i).map disk) (.data k) x) :=
  update_maps (Dinode.map_setDirect hdin hk) fun _ _ => rfl

theorem maps_indirect (h : Core disk fb dn nb hi) (hno : hi i = false)
    (hdin : din.addrs = update (dn i).addrs NDIRECT fb) :
    (fun j => (update dn i din j).map disk) = update (fun j => (dn j).map disk) i
      (update ((dn i).map disk) .ind fb) :=
  update_maps (Dinode.map_setInd hdin (h.no_ind hno) (h.zero fb le_rfl)) fun _ _ => rfl

theorem indirect (h : Core disk fb dn nb hi) (hfb : fb < FSSIZE) (hlt : i < SLOTS)
    (hno : hi i = false) (hdin : din.addrs = update (dn i).addrs NDIRECT fb) :
    Core disk (fb + 1) (update dn i din) nb (update hi i true) := by
  refine h.give (σ := .ind) hfb hlt (h.no_ind hno) (h.maps_indirect hno hdin)
    (fun b hb => h.zero b (by omega)) (h.update_tail le_rfl hdin) (fun bn hbn => ?_) ?_ ?_
    fun j hj => ⟨rfl, update_of_ne hj ..⟩
  · rw [update_of_ne Slot.noConfusion]
    exact h.data i bn hbn
  · rw [update_self, update_self]
    exact iff_of_true h.pos rfl
  · rw [update_self, hno]
    rfl

/-- The indirect block of an inode, with the next entry. -/
def putEntry (disk : ℕ → Block) (d : Dinode) (n x : ℕ) : ℕ → Block :=
  Function.update disk (d.addrs NDIRECT)
    (Bytes.set 4 (disk (d.addrs NDIRECT)) (4 * (n - NDIRECT)) x)

theorem maps_entry (h : Core disk fb dn nb hi) (hge : NDIRECT ≤ k) (hmax : k < MAXFILE)
    (hyes : hi i = true) (hx : x < 2 ^ 32) :
    (fun j => (dn j).map (putEntry disk (dn i) k x)) = update (fun j => (dn j).map disk) i
      (update ((dn i).map disk) (.data k) x) := by
  have h0 := (h.ind i).mpr hyes
  have hj : k - NDIRECT < NINDIRECT := by
    have : MAXFILE = NDIRECT + NINDIRECT := rfl
    omega
  have hmap : (dn i).map (putEntry disk (dn i) k x) = _ := Dinode.map_setEntry h0 hj hx
  rw [Nat.add_sub_of_le hge] at hmap
  have hother : ∀ j, j ≠ i → (dn j).map (putEntry disk (dn i) k x) = (dn j).map disk := by
    intro j hj
    refine Dinode.map_setBlock (or_iff_not_imp_left.mpr fun hj0 hc => hj ?_)
    have hu : j = i ∧ Slot.ind = Slot.ind := h.slot_unique h0 hc
    exact hu.1
  have hself := update_maps hmap hother
  rwa [update_eq_self] at hself

theorem entry (h : Core disk fb dn nb hi) (hfb : fb < FSSIZE) (hlt : i < SLOTS)
    (hge : NDIRECT ≤ nb i) (hmax : nb i < MAXFILE) (hyes : hi i = true) :
    Core (putEntry disk (dn i) (nb i) fb) (fb + 1) dn (update nb i (nb i + 1)) hi := by
  have hslot : _ ∧ (dn i).addrs NDIRECT < fb := h.slot (σ := .ind) ((h.ind i).mpr hyes)
  refine h.giveData hfb hlt hmax (h.maps_entry hge hmax hyes (lt_trans hfb (by decide)))
    (fun b hb => ?_) h.tail
  rw [putEntry, update_of_ne (by omega), h.zero b (by omega)]

theorem keep {disk' : ℕ → Block} {dn' : ℕ → Dinode} {σ : Slot}
    (hmaps : (fun j => (dn' j).map disk') = update (fun j => (dn j).map disk) i
      (update ((dn i).map disk) σ x)) (hσ : (dn i).map disk σ = 0) {j : ℕ} {τ : Slot}
    (hτ : (dn j).map disk τ ≠ 0) : (dn' j).map disk' τ = (dn j).map disk τ := by
  have hj : (dn' j).map disk' = _ := congrFun hmaps j
  rw [hj]
  obtain rfl | hji := eq_or_ne j i
  · rw [update_self, update_of_ne]
    rintro rfl
    exact hτ hσ
  · rw [update_of_ne hji]

theorem putEntry_data (h : Core disk fb dn nb hi) (hyes : hi i = true) (j bn : ℕ) :
    putEntry disk (dn i) k x ((dn j).map disk (.data bn)) = disk ((dn j).map disk (.data bn)) := by
  rw [putEntry, update_of_ne]
  intro hc
  have hu : j = i ∧ Slot.data bn = Slot.ind := h.slot_unique ((h.ind i).mpr hyes) hc
  cases hu.2

end Core

/-! ### A block for the next bytes -/

/-- The indirect blocks are those of the inodes with more than `NDIRECT` blocks. -/
abbrev Full (disk : ℕ → Block) (fb : ℕ) (dn : ℕ → Dinode) (nb : ℕ → ℕ) : Prop :=
  Core disk fb dn nb fun j => decide (NDIRECT < nb j)

theorem takeAddr_old (h : din.addrs k ≠ 0) : takeAddr img din k = (img, din) := if_neg h

theorem takeAddr_new (h : din.addrs k = 0) : takeAddr img din k =
    ({ img with freeblock := img.freeblock + 1 },
      { din with addrs := update din.addrs k img.freeblock }) := if_pos h

theorem takeEntry_old {ind : ℕ} (hi : ind < FSSIZE) (h : entry (img.disk ind) k ≠ 0) :
    takeEntry img ind k = some (img, entry (img.disk ind) k) := by
  unfold takeEntry Image.rsect
  rw [if_pos hi]
  exact if_neg h

theorem takeEntry_new {ind : ℕ} (hi : ind < FSSIZE) (h : entry (img.disk ind) k = 0)
    (hfb : img.freeblock < 2 ^ 32) : takeEntry img ind k =
      some ({ img.wsect ind (Bytes.set 4 (img.disk ind) (4 * k) img.freeblock) with
        freeblock := img.freeblock + 1 }, img.freeblock) := by
  have hself : entry (Bytes.set 4 (img.disk ind) (4 * k) img.freeblock) k = img.freeblock :=
    Bytes.get_set_self hfb
  unfold takeEntry Image.rsect
  rw [if_pos hi]
  dsimp only [Option.bind_eq_bind, Option.bind_some]
  rw [if_pos h, hself]

theorem takeBlock_old (h : Full img.disk img.freeblock dn nb) (hk : k < nb i) (hmax : k < MAXFILE) :
    takeBlock img (dn i) k = some (img, dn i, (dn i).map img.disk (.data k)) := by
  have h0 := (h.data i k hmax).mpr hk
  unfold takeBlock
  by_cases hd : k < NDIRECT
  · rw [Dinode.map_direct hd] at h0 ⊢
    rw [if_pos hd, takeAddr_old h0]
  · have hi := (h.ind i).mpr (decide_eq_true (by omega))
    have hlt : _ ∧ (dn i).addrs NDIRECT < _ := h.slot (σ := .ind) hi
    have hle := h.le
    rw [Dinode.map_indirect (not_lt.mp hd) hmax hi] at h0 ⊢
    rw [if_neg hd, takeAddr_old hi]
    dsimp only
    rw [takeEntry_old (by omega) h0]
    rfl

/-- What has changed when an inode has got a block: its map in one place, and nothing else that
is mapped. -/
structure Took (img : Image) (dn : ℕ → Dinode) (nb : ℕ → ℕ) (i : ℕ) (img' : Image) (din : Dinode) :
    Prop where
  full : Full img'.disk img'.freeblock (Function.update dn i din) (Function.update nb i (nb i + 1))
  keep : ∀ j bn, (dn j).map img.disk (.data bn) ≠ 0 →
    (Function.update dn i din j).map img'.disk (.data bn) = (dn j).map img.disk (.data bn) ∧
    img'.disk ((dn j).map img.disk (.data bn)) = img.disk ((dn j).map img.disk (.data bn))
  sys : ∀ b < nmeta, img'.disk b = img.disk b
  fields : din = { dn i with addrs := din.addrs }
  inode : img'.freeinode = img.freeinode

/-- A block that is reached through the indirect block, which is there. -/
theorem takeEntry_took {hi : ℕ → Bool} (img : Image) (h : Core img.disk img.freeblock dn nb hi)
    (hge : NDIRECT ≤ nb i) (hmax : nb i < MAXFILE) (hyes : hi i = true)
    (hfb : img.freeblock < FSSIZE) :
    takeEntry img ((dn i).addrs NDIRECT) (nb i - NDIRECT) =
      some ({ img with
        disk := Core.putEntry img.disk (dn i) (nb i) img.freeblock,
        freeblock := img.freeblock + 1 },
        (dn i).map (Core.putEntry img.disk (dn i) (nb i) img.freeblock) (.data (nb i))) := by
  have hind := (h.ind i).mpr hyes
  have hslot : _ ∧ (dn i).addrs NDIRECT < _ := h.slot (σ := .ind) hind
  have hx : img.freeblock < 2 ^ 32 := lt_trans hfb (by decide)
  have h0 := h.no_data hmax
  rw [Dinode.map_indirect hge hmax hind] at h0
  have hmap := congrFun (congrFun (h.maps_entry hge hmax hyes hx) i) (.data (nb i))
  rw [update_self, update_self] at hmap
  rw [takeEntry_new (by omega) h0 hx, hmap]
  rfl

theorem full_succ {b : Bool} (hb : decide (NDIRECT < nb i + 1) = b) :
    update (fun j => decide (NDIRECT < nb j)) i b =
      fun j => decide (NDIRECT < update nb i (nb i + 1) j) := by
  funext j
  by_cases hj : j = i
  · rw [hj, update_self, update_self, hb]
  · rw [update_of_ne hj, update_of_ne hj]

section

variable (h : Full img.disk img.freeblock dn nb) (hlt : i < SLOTS)

include h hlt

/-- The first blocks, which the inode itself has the addresses of. -/
theorem takeBlock_direct (hd : nb i < NDIRECT) (hfb : img.freeblock < FSSIZE) :
    ∃ img' din, takeBlock img (dn i) (nb i) = some (img', din, din.map img'.disk (.data (nb i))) ∧
      Took img dn nb i img' din := by
  have h0 := h.no_data (lt_of_lt_of_le hd (by decide))
  have hhi := full_succ (i := i) (decide_eq_false (show ¬ NDIRECT < nb i + 1 by omega))
  have hsame : update (fun j => decide (NDIRECT < nb j)) i false =
      fun j => decide (NDIRECT < nb j) := by
    rw [← decide_eq_false (show ¬ NDIRECT < nb i by omega)]
    exact update_eq_self i _
  refine ⟨{ img with freeblock := img.freeblock + 1 },
    { dn i with addrs := update (dn i).addrs (nb i) img.freeblock }, ?_, ?_, ?_, ?_, rfl, rfl⟩
  · rw [Dinode.map_direct hd] at h0
    unfold takeBlock
    rw [if_pos hd, takeAddr_new h0, Dinode.map_direct hd]
  · have hc : Core _ _ (update dn i
        { dn i with addrs := update (dn i).addrs (nb i) img.freeblock }) _ _ :=
      h.giveData hfb hlt (lt_of_lt_of_le hd (by decide)) (Core.maps_direct hd rfl)
        (fun b hb => h.zero b (by omega)) (h.update_tail hd.le rfl)
    rwa [← hsame, hhi] at hc
  · exact fun j bn hbn => ⟨Core.keep (Core.maps_direct hd rfl) h0 hbn, rfl⟩
  · exact fun _ _ => rfl

/-- The block that is the first to need the indirect block. -/
theorem takeBlock_first (hd : nb i = NDIRECT) (hfb : img.freeblock + 1 < FSSIZE) :
    ∃ img' din, takeBlock img (dn i) (nb i) = some (img', din, din.map img'.disk (.data (nb i))) ∧
      Took img dn nb i img' din := by
  have hno : decide (NDIRECT < nb i) = false := decide_eq_false (by omega)
  have hmax : nb i < MAXFILE := by
    rw [hd]
    decide
  have hhi := full_succ (i := i) (decide_eq_true (show NDIRECT < nb i + 1 by omega))
  have hind := h.no_ind hno
  have hlo := h.lo
  -- first the indirect block, then the block
  obtain ⟨d, hd1⟩ : ∃ d : Dinode,
      d = { dn i with addrs := update (dn i).addrs NDIRECT img.freeblock } := ⟨_, rfl⟩
  have haddrs : d.addrs = update (dn i).addrs NDIRECT img.freeblock := by rw [hd1]
  have hself : update dn i d i = d := update_self ..
  have h1 := h.indirect (by omega) hlt hno haddrs
  have hyes := update_self i true fun j => decide (NDIRECT < nb j)
  have htook := takeEntry_took { img with freeblock := img.freeblock + 1 } h1 hd.ge hmax hyes hfb
  have hfull := h1.entry hfb hlt hd.ge hmax hyes
  have hmaps := h1.maps_entry hd.ge hmax hyes (lt_trans hfb (by decide))
  have hdata := h1.no_data hmax
  rw [hself] at htook hfull
  refine ⟨{ img with
      disk := Core.putEntry img.disk d (nb i) (img.freeblock + 1),
      freeblock := img.freeblock + 1 + 1 }, d, ?_, ?_, ?_, ?_, ?_, rfl⟩
  · unfold takeBlock
    rw [if_neg (by omega), takeAddr_new hind, ← hd1]
    dsimp only
    rw [htook]
    rfl
  · rwa [hhi] at hfull
  · intro j bn hbn
    have hkeep := Core.keep (h.maps_indirect hno haddrs) hind hbn
    have hbn1 : (update dn i d j).map img.disk (.data bn) ≠ 0 := by
      rwa [hkeep]
    have hdisk := h1.putEntry_data (k := nb i) (x := img.freeblock + 1) hyes j bn
    rw [hself, hkeep] at hdisk
    have hkeep1 := Core.keep hmaps hdata hbn1
    rw [hself, hkeep] at hkeep1
    exact ⟨hkeep1, hdisk⟩
  · intro b hb
    have hfb : d.addrs NDIRECT = img.freeblock := by rw [haddrs, update_self]
    exact update_of_ne (by omega) _ _
  · rw [hd1]

/-- The blocks after it. -/
theorem takeBlock_indirect
    (hd : NDIRECT < nb i) (hmax : nb i < MAXFILE) (hfb : img.freeblock < FSSIZE) :
    ∃ img' din, takeBlock img (dn i) (nb i) = some (img', din, din.map img'.disk (.data (nb i))) ∧
      Took img dn nb i img' din := by
  have hyes : decide (NDIRECT < nb i) = true := decide_eq_true hd
  have hind := (h.ind i).mpr hyes
  have hslot := h.slot (σ := .ind) hind
  have hx : img.freeblock < 2 ^ 32 := lt_trans hfb (by decide)
  have hhi := full_succ (i := i) (decide_eq_true (show NDIRECT < nb i + 1 by omega))
  have hsame : update (fun j => decide (NDIRECT < nb j)) i true =
      fun j => decide (NDIRECT < nb j) := by
    rw [← hyes]
    exact update_eq_self i _
  refine ⟨{ img with
      disk := Core.putEntry img.disk (dn i) (nb i) img.freeblock,
      freeblock := img.freeblock + 1 }, dn i, ?_, ?_, ?_, ?_, rfl, rfl⟩
  · unfold takeBlock
    rw [if_neg (not_lt.mpr hd.le), takeAddr_old hind]
    dsimp only
    rw [takeEntry_took img h hd.le hmax hyes hfb]
    rfl
  · have hc := h.entry hfb hlt hd.le hmax hyes
    rw [← hsame, hhi] at hc
    rwa [update_eq_self]
  · intro j bn hbn
    rw [update_eq_self]
    exact ⟨Core.keep (h.maps_entry hd.le hmax hyes hx) (h.no_data hmax) hbn,
      h.putEntry_data hyes _ _⟩
  · intro b hb
    have hslot : nmeta ≤ (dn i).addrs NDIRECT ∧ _ := hslot
    exact update_of_ne (by omega) _ _

end

/-- How many blocks the next block of an inode takes. -/
def cost (n : ℕ) : ℕ := if n = NDIRECT then 2 else 1

/-- **An inode gets its next block.** -/
theorem takeBlock_new (h : Full img.disk img.freeblock dn nb) (hlt : i < SLOTS)
    (hmax : nb i < MAXFILE) (hroom : img.freeblock + cost (nb i) ≤ FSSIZE) :
    ∃ img' din, takeBlock img (dn i) (nb i) = some (img', din, din.map img'.disk (.data (nb i))) ∧
      Took img dn nb i img' din := by
  unfold cost at hroom
  rcases Nat.lt_trichotomy (nb i) NDIRECT with hd | hd | hd
  · rw [if_neg hd.ne] at hroom
    exact takeBlock_direct h hlt hd hroom
  · rw [if_pos hd] at hroom
    exact takeBlock_first h hlt hd hroom
  · rw [if_neg hd.ne'] at hroom
    exact takeBlock_indirect h hlt hd hmax hroom

end Xv6.Mkfs
