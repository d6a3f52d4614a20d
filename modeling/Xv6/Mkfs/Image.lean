import Xv6.Mkfs.Append

/-!
# The image

Inodes on disk, and the image while `mkfs` runs: new inodes, and bytes that are
appended to them.

## Main definitions

* `Built` — the image while `mkfs` runs.

## Main results

* `Built.ialloc`, `Built.iappend`, `Built.appendAll` — a new inode, and bytes appended
  to one.
-/

namespace Xv6.Mkfs

open Fs Function

variable {disk disk' : ℕ → Block} {fb i j : ℕ} {dn dn' : ℕ → Dinode} {din d : Dinode}
  {img img' : Image} {c : ℕ → List UInt8}

/-! ### Inodes on disk -/

theorem IBLOCK_lt (hi : i < SLOTS) : IBLOCK i sb < 46 ∧ 33 ≤ IBLOCK i sb := by
  have hi : i < 208 := hi
  show i / 16 + 33 < 46 ∧ 33 ≤ i / 16 + 33
  omega

theorem winode_eq (hi : i < SLOTS) : winode img i d =
    some (img.wsect (IBLOCK i sb) (putDinode (img.disk (IBLOCK i sb)) (i % IPB * DINODE) d)) := by
  have hlt : IBLOCK i sb < 2000 := lt_trans (IBLOCK_lt hi).1 (by decide)
  unfold winode Image.rsect
  dsimp only
  rw [if_pos hlt]
  rfl

theorem rinode_eq (hi : i < SLOTS) : rinode img i = some (dinodeAt img.disk sb i) := by
  have hlt : IBLOCK i sb < 2000 := lt_trans (IBLOCK_lt hi).1 (by decide)
  unfold rinode Image.rsect
  dsimp only
  rw [if_pos hlt]
  rfl

theorem dinodeAt_winode (hd : Fits d) : dinodeAt (update disk (IBLOCK i sb)
      (putDinode (disk (IBLOCK i sb)) (i % IPB * DINODE) d)) sb j =
    if j = i then d else dinodeAt disk sb j := by
  unfold dinodeAt
  by_cases hji : j = i
  · rw [if_pos hji, hji, update_self, getDinode_putDinode hd]
  rw [if_neg hji]
  by_cases hb : IBLOCK j sb = IBLOCK i sb
  · rw [hb, update_self, getDinode_putDinode_of_disjoint]
    have hb : j / 16 + 33 = i / 16 + 33 := hb
    show j % 16 * 64 + 64 ≤ i % 16 * 64 ∨ i % 16 * 64 + 64 ≤ j % 16 * 64
    omega
  · rw [update_of_ne hb]

/-- The area before the data blocks makes no difference to contents. -/
theorem Stored.sys (h : Stored disk fb dn c) (hd : ∀ b, nmeta ≤ b → disk' b = disk b) :
    Stored disk' fb dn c := by
  -- an indirect block is a data block, so the maps are the same
  have hmap : ∀ j, (dn j).map disk' = (dn j).map disk := by
    intro j
    by_cases h0 : (dn j).addrs NDIRECT = 0
    · funext σ
      cases σ with
      | ind => rfl
      | data bn =>
        by_cases hbn : bn < NDIRECT
        · rw [Dinode.map_direct hbn, Dinode.map_direct hbn]
        · rw [Dinode.map_of_no_ind (not_lt.mp hbn) h0, Dinode.map_of_no_ind (not_lt.mp hbn) h0]
    · have hlo : nmeta ≤ (dn j).addrs NDIRECT ∧ _ := h.full.slot (σ := .ind) h0
      funext σ
      cases σ with
      | ind => rfl
      | data bn =>
        unfold Dinode.map
        rw [hd _ hlo.1]
  have hf := h.full
  refine ⟨⟨?_, fun b hb => ?_, hf.lo, hf.le, fun j bn hbn => ?_, hf.ind, hf.tail, hf.count⟩, h.size,
    fun j o ho => ?_⟩
  · simp only [hmap]
    exact hf.own
  · rw [hd b (hf.lo.trans hb), hf.zero b hb]
  · rw [hmap, hf.data j bn hbn]
  · have hsize := h.size j
    have hbn : o / BSIZE < MAXFILE := Nat.div_lt_of_lt_mul (by rw [Nat.mul_comm]; omega)
    have hslot := hf.slot ((hf.data j _ hbn).mpr (lt_nblocks ho))
    rw [hmap, hd _ hslot.1, h.bytes j o ho]

theorem Stored.fields (h : Stored disk fb dn c) (ha : ∀ j, (dn' j).addrs = (dn j).addrs) :
    Stored disk fb dn' c := by
  have hmap : ∀ j, (dn' j).map disk = (dn j).map disk := fun j => Dinode.map_congr fun k _ => by
    rw [ha]
  have hf := h.full
  refine ⟨⟨?_, hf.zero, hf.lo, hf.le, fun j bn hbn => ?_, fun j => ?_, fun j k hk => ?_, hf.count⟩,
    h.size, fun j o ho => ?_⟩
  · simp only [hmap]
    exact hf.own
  · rw [hmap, hf.data j bn hbn]
  · rw [ha, hf.ind]
  · rw [ha, hf.tail j k hk]
  · rw [hmap, h.bytes j o ho]

/-! ### The image while it is built -/

/-- The image has the inodes `dn` with the contents `c`. -/
structure Built (img : Image) (dn : ℕ → Dinode) (c : ℕ → List UInt8) : Prop where
  stored : Stored img.disk img.freeblock dn c
  disk : ∀ j < SLOTS, dinodeAt img.disk sb j = dn j
  fits : ∀ j, Fits (dn j)
  size : ∀ j, (dn j).size = (c j).length
  /-- The superblock, and an empty log. -/
  start : ∀ b < sb.inodestart, img.disk b = blank.disk b
  free : ∀ j, img.freeinode ≤ j → dn j = Dinode.zero ∧ c j = []

theorem fits_zero {type : FileType} {nlink : ℤ} (h : short nlink = nlink) :
    Fits { Dinode.zero with type := type, nlink := nlink } where
  major := show short 0 = 0 by decide
  minor := show short 0 = 0 by decide
  nlink := h
  size := show 0 < 2 ^ 32 by decide
  addrs _ := show 0 < 2 ^ 32 by decide
  tail _ _ := rfl

theorem Stored.addrs_lt (h : Stored disk fb dn c) (k : ℕ) : (dn i).addrs k < 2 ^ 32 := by
  have hle : fb ≤ 2000 := h.full.le
  by_cases h0 : (dn i).addrs k = 0
  · rw [h0]
    decide
  rcases Nat.lt_trichotomy k NDIRECT with hk | hk | hk
  · have hmap : (dn i).map disk (.data k) = (dn i).addrs k := Dinode.map_direct hk
    have hslot := (h.full.slot (σ := .data k) (by rw [hmap]; exact h0)).2
    omega
  · rw [hk] at h0 ⊢
    have hslot : _ ∧ (dn i).addrs NDIRECT < fb := h.full.slot (σ := .ind) h0
    omega
  · exact absurd (h.full.tail i k hk) h0

/-- An inode is written to disk. -/
theorem built_winode (img : Image) (d : Dinode)
    (hst : Stored img.disk img.freeblock (update dn i din) c) (hi : i < SLOTS) (hd : Fits d)
    (ha : d.addrs = din.addrs) (hsize : d.size = (c i).length)
    (hdisk : ∀ j < SLOTS, j ≠ i → dinodeAt img.disk sb j = dn j) (hfits : ∀ j, Fits (dn j))
    (hsizes : ∀ j, j ≠ i → (dn j).size = (c j).length)
    (hstart : ∀ b < sb.inodestart, img.disk b = blank.disk b)
    (hfree : ∀ j, img.freeinode ≤ j → j ≠ i ∧ dn j = Dinode.zero ∧ c j = []) :
    ∃ img', winode img i d = some img' ∧ img'.freeinode = img.freeinode ∧
      Built img' (update dn i d) c := by
  have hblock := IBLOCK_lt hi
  have h47 : nmeta = 47 := by decide
  refine ⟨_, winode_eq hi, rfl, ?_, fun j hj => ?_, fun j => ?_, fun j => ?_, fun b hb => ?_,
    fun j hj => ?_⟩
  -- the blocks of the inodes are not data blocks
  · have hfields : Stored img.disk img.freeblock (update dn i d) c := by
      refine hst.fields fun j => ?_
      by_cases hji : j = i
      · rw [hji, update_self, update_self, ha]
      · rw [update_of_ne hji, update_of_ne hji]
    exact hfields.sys fun b hb => update_of_ne (by omega) _ _
  · refine (dinodeAt_winode hd).trans ?_
    by_cases hji : j = i
    · rw [if_pos hji, hji, update_self]
    · rw [if_neg hji, update_of_ne hji, hdisk j hj hji]
  · by_cases hji : j = i
    · rwa [hji, update_self]
    · rw [update_of_ne hji]
      exact hfits j
  · by_cases hji : j = i
    · rw [hji, update_self, hsize]
    · rw [update_of_ne hji, hsizes j hji]
  · have hb33 : b < 33 := hb
    unfold Image.wsect
    dsimp only
    rw [update_of_ne (by omega), hstart b hb]
  · obtain ⟨hji, h0, hc⟩ := hfree j hj
    rw [update_of_ne hji]
    exact ⟨h0, hc⟩

/-- **A new inode.** -/
theorem Built.ialloc (type : FileType) (h : Built img dn c) (hlt : img.freeinode < SLOTS) :
    ∃ img', Mkfs.ialloc img type = some (img.freeinode, img') ∧ img'.freeinode = img.freeinode + 1 ∧
      Built img' (update dn img.freeinode { Dinode.zero with type := type, nlink := 1 }) c := by
  obtain ⟨h0, hc⟩ := h.free _ le_rfl
  have hst : Stored img.disk img.freeblock
      (update dn img.freeinode (dn img.freeinode)) c := by
    rw [update_eq_self]
    exact h.stored
  obtain ⟨img', hw, hf, hb⟩ := built_winode { img with freeinode := img.freeinode + 1 }
    { Dinode.zero with type := type, nlink := 1 } hst hlt (fits_zero (by decide)) (by rw [h0])
    (by rw [hc]; rfl) (fun j hj _ => h.disk j hj) h.fits (fun j _ => h.size j) h.start
    fun j hj => ⟨Nat.ne_of_gt hj, h.free j (Nat.le_of_succ_le hj)⟩
  refine ⟨img', ?_, hf, hb⟩
  unfold Mkfs.ialloc
  dsimp only
  rw [hw]
  rfl

/-- **Bytes are appended to an inode**, or there is no room for them. -/
theorem Built.iappend {p : List UInt8} (h : Built img dn c) (hi : i < img.freeinode)
    (hlt : i < SLOTS) :
    (∃ img' d, Mkfs.iappend img i p = some img' ∧ img'.freeinode = img.freeinode ∧
      d.type = (dn i).type ∧ d.nlink = (dn i).nlink ∧
      Built img' (update dn i d) (update c i (c i ++ p))) ∨
    (Mkfs.iappend img i p = none ∧ ¬ ((c i).length + p.length ≤ MAXFILE * BSIZE ∧
      nmeta + total (update c i (c i ++ p)) ≤ FSSIZE)) := by
  unfold Mkfs.iappend
  rw [rinode_eq hlt, h.disk i hlt]
  dsimp only [Option.bind_eq_bind, Option.bind_some]
  rw [h.size]
  rcases Stored.appendFrom hlt p.length img dn c p le_rfl h.stored with ⟨img1, din, happ, hkept,
    hst⟩ | ⟨happ, hno⟩
  swap
  · rw [happ]
    exact Or.inr ⟨rfl, hno⟩
  left
  rw [happ]
  have hself : update c i (c i ++ p) i = c i ++ p := update_self ..
  -- the inode that is written fits, and the others are where they were
  have hfit := h.fits i
  have hfields := hkept.fields
  have haddrs : ∀ k, din.addrs k < 2 ^ 32 := fun k => by
    have := hst.addrs_lt (i := i) k
    rwa [update_self] at this
  have htail : ∀ k, NDIRECT < k → din.addrs k = 0 := fun k hk => by
    have := hst.full.tail i k hk
    rwa [update_self] at this
  have hsize := hst.size i
  rw [hself, List.length_append] at hsize
  have hmaxsize : (c i).length + p.length < 2 ^ 32 := lt_of_le_of_lt hsize (by decide)
  have hd : Fits { din with size := (c i).length + p.length } := by
    rw [hfields]
    exact ⟨hfit.major, hfit.minor, hfit.nlink, hmaxsize, haddrs, htail⟩
  have hdinode : ∀ j < SLOTS, dinodeAt img1.disk sb j = dn j := fun j hj => by
    have hb := (IBLOCK_lt hj).1
    unfold dinodeAt
    rw [hkept.sys _ (lt_trans hb (by decide))]
    exact h.disk j hj
  obtain ⟨img', hw, hf, hb⟩ := built_winode img1 _ hst hlt hd rfl
    (by rw [hself, List.length_append]) (fun j hj _ => hdinode j hj) h.fits
    (fun j hj => by rw [update_of_ne hj, h.size])
    (fun b hb => by rw [hkept.sys b (lt_trans hb (by decide)), h.start b hb])
    (fun j hj => by
      rw [hkept.inode] at hj
      have hji : j ≠ i := by omega
      rw [update_of_ne hji]
      exact ⟨hji, h.free j hj⟩)
  refine ⟨img', _, hw, hf.trans hkept.inode, ?_, ?_, hb⟩
  · rw [hfields]
  · rw [hfields]

/-- **The pieces of a file are appended one after the other**, or there is no room for them. -/
theorem Built.appendAll (hlt : i < SLOTS) (bufs : List (List UInt8)) : ∀ (img : Image)
    (dn : ℕ → Dinode) (c : ℕ → List UInt8), Built img dn c → i < img.freeinode →
    (∃ img' d, Mkfs.appendAll img i bufs = some img' ∧ img'.freeinode = img.freeinode ∧
      d.type = (dn i).type ∧ d.nlink = (dn i).nlink ∧
      Built img' (update dn i d) (update c i (c i ++ bufs.flatten))) ∨
    (Mkfs.appendAll img i bufs = none ∧ ¬ ((c i).length + bufs.flatten.length ≤ MAXFILE * BSIZE ∧
      nmeta + total (update c i (c i ++ bufs.flatten)) ≤ FSSIZE)) := by
  induction bufs with
  | nil =>
    intro img dn c h _
    refine Or.inl ⟨img, dn i, rfl, rfl, rfl, rfl, ?_⟩
    rwa [List.flatten_nil, List.append_nil, update_eq_self, update_eq_self]
  | cons buf bufs ih =>
    intro img dn c h hi
    rw [Mkfs.appendAll, List.flatten_cons, List.length_append]
    rcases h.iappend (p := buf) hi hlt with ⟨img1, d1, happ, hf1, ht1, hn1, hb1⟩ | ⟨happ, hno⟩
    swap
    · have hmono : total (update c i (c i ++ buf)) ≤ total
          (update c i (c i ++ (buf ++ bufs.flatten))) := by
        refine total_mono fun j => ?_
        by_cases hj : j = i
        · simp [hj]
        · rw [update_of_ne hj, update_of_ne hj]
      rw [happ]
      exact Or.inr ⟨rfl, fun hc => hno ⟨by omega, by omega⟩⟩
    have hrest := ih img1 _ _ hb1 (by omega)
    simp only [update_idem, update_self, List.append_assoc, List.length_append,
      Nat.add_assoc (c i).length] at hrest
    rw [happ]
    refine hrest.imp_left fun hr => ?_
    obtain ⟨img', d, happ', hf, ht, hn, hb⟩ := hr
    exact ⟨img', d, happ', hf.trans hf1, ht.trans ht1, hn.trans hn1, hb⟩

end Xv6.Mkfs
