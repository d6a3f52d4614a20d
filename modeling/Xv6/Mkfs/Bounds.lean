import Xv6.Mkfs.Kernel

/-!
# What `mkfs` checks of its bounds

`ialloc` and `iappend` count inodes and blocks up without a look at `NINODES` and
`FSSIZE`.  A block behind the end cannot be read, and as `iappend` reads every
block before it writes it, `mkfs` dies on the first one; so it does for any number
of inodes.  There is no such thing for the inodes: the blocks of the inodes have
room for a few more than `NINODES`, and the ones behind these are written into the
block of the free map, which `balloc` then overwrites.

## Main definitions

* `InBounds` — inode numbers and block addresses are in the bounds that the superblock
  gives, and no area of the disk has been written over.

## Main results

* `mkfs_freeinode` — how many inodes an image has.
* `image_in_bounds_iff` — **the image is in order if and only if there are at most
  `NINODES - 2` files.**
* `inode_overwritten` — an image with an inode in the free map.
-/

namespace Xv6.Mkfs

open Fs

variable {files : List HostFile} {img img' : Image} {i : ℕ}

/-! ### The number of inodes -/

theorem winode_freeinode {d : Dinode} (h : winode img i d = some img') :
    img'.freeinode = img.freeinode := by
  obtain ⟨buf, -, h⟩ := Option.bind_eq_some_iff.mp h
  cases h
  rfl

theorem ialloc_freeinode {type : FileType} (h : ialloc img type = some (i, img')) :
    i = img.freeinode ∧ img'.freeinode = img.freeinode + 1 := by
  obtain ⟨img1, hw, h⟩ := Option.bind_eq_some_iff.mp h
  cases h
  exact ⟨rfl, winode_freeinode hw⟩

theorem takeAddr_freeinode (img : Image) (din : Dinode) (k : ℕ) :
    (takeAddr img din k).1.freeinode = img.freeinode := by
  unfold takeAddr
  split_ifs <;> rfl

theorem takeEntry_freeinode {ind j x : ℕ} (h : takeEntry img ind j = some (img', x)) :
    img'.freeinode = img.freeinode := by
  obtain ⟨indirect, -, h⟩ := Option.bind_eq_some_iff.mp h
  split_ifs at h
  · cases h
    rfl
  · cases h
    rfl

theorem takeBlock_freeinode {din din' : Dinode} {fbn x : ℕ}
    (h : takeBlock img din fbn = some (img', din', x)) : img'.freeinode = img.freeinode := by
  unfold takeBlock at h
  split_ifs at h
  · cases h
    exact takeAddr_freeinode img din fbn
  · obtain ⟨⟨img1, y⟩, he, h⟩ := Option.bind_eq_some_iff.mp h
    cases h
    exact (takeEntry_freeinode he).trans (takeAddr_freeinode img din NDIRECT)

theorem appendFrom_freeinode (fuel : ℕ) : ∀ {img : Image} {din din' : Dinode} {off off' : ℕ}
    {p : List UInt8}, appendFrom fuel img din off p = some (img', din', off') →
    img'.freeinode = img.freeinode := by
  induction fuel with
  | zero =>
    intro img din din' off off' p h
    cases h
    rfl
  | succ fuel ih =>
    intro img din din' off off' p h
    rw [appendFrom] at h
    split_ifs at h with hp
    · cases h
      rfl
    · dsimp only at h
      split_ifs at h
      obtain ⟨⟨img1, din1, x⟩, htake, h⟩ := Option.bind_eq_some_iff.mp h
      obtain ⟨buf, -, h⟩ := Option.bind_eq_some_iff.mp h
      have hrest := ih h
      have htake := takeBlock_freeinode htake
      exact hrest.trans htake

theorem iappend_freeinode {p : List UInt8} (h : iappend img i p = some img') :
    img'.freeinode = img.freeinode := by
  obtain ⟨din, -, h⟩ := Option.bind_eq_some_iff.mp h
  obtain ⟨⟨img1, din1, off⟩, happ, h⟩ := Option.bind_eq_some_iff.mp h
  exact (winode_freeinode h).trans (appendFrom_freeinode _ happ)

theorem appendAll_freeinode (bufs : List (List UInt8)) : ∀ {img : Image},
    appendAll img i bufs = some img' → img'.freeinode = img.freeinode := by
  induction bufs with
  | nil =>
    intro img h
    cases h
    rfl
  | cons buf bufs ih =>
    intro img h
    obtain ⟨img1, happ, h⟩ := Option.bind_eq_some_iff.mp h
    exact (ih h).trans (iappend_freeinode happ)

theorem addFile_freeinode {rootino : ℕ} {f : HostFile} (h : addFile img rootino f = some img') :
    img'.freeinode = img.freeinode + 1 := by
  unfold addFile at h
  split_ifs at h
  obtain ⟨⟨inum, img1⟩, hial, h⟩ := Option.bind_eq_some_iff.mp h
  obtain ⟨img2, happ, h⟩ := Option.bind_eq_some_iff.mp h
  rw [appendAll_freeinode _ h, iappend_freeinode happ, (ialloc_freeinode hial).2]

theorem addFiles_freeinode {rootino : ℕ} (files : List HostFile) : ∀ {img : Image},
    addFiles img rootino files = some img' → img'.freeinode = img.freeinode + files.length := by
  induction files with
  | nil =>
    intro img h
    cases h
    rfl
  | cons f fs ih =>
    intro img h
    obtain ⟨img1, hadd, h⟩ := Option.bind_eq_some_iff.mp h
    rw [ih h, addFile_freeinode hadd, List.length_cons]
    omega

/-- **An image has inode 0, the root directory, and one inode for each file.** -/
theorem mkfs_freeinode (h : mkfs files = some img) : img.freeinode = files.length + 2 := by
  unfold mkfs at h
  obtain ⟨⟨rootino, img1⟩, hial, h⟩ := Option.bind_eq_some_iff.mp h
  dsimp only at h
  split_ifs at h
  obtain ⟨img2, happ2, h⟩ := Option.bind_eq_some_iff.mp h
  obtain ⟨img3, happ3, h⟩ := Option.bind_eq_some_iff.mp h
  obtain ⟨img4, hadd, h⟩ := Option.bind_eq_some_iff.mp h
  obtain ⟨din, -, h⟩ := Option.bind_eq_some_iff.mp h
  obtain ⟨img5, hw, h⟩ := Option.bind_eq_some_iff.mp h
  unfold balloc at h
  split_ifs at h
  cases h
  have hblank : blank.freeinode = 1 := rfl
  show img5.freeinode = _
  rw [winode_freeinode hw, addFiles_freeinode files hadd, iappend_freeinode happ3,
    iappend_freeinode happ2, (ialloc_freeinode hial).2, hblank]
  omega

/-! ### Bounds -/

/-- Inode numbers and block addresses are in the bounds that the superblock gives; inodes, the
free map and data have blocks of their own, and are there as they were written. -/
structure InBounds (img : Image) (files : List HostFile) : Prop where
  inum : ∀ i < img.freeinode, i < sb.ninodes
  inode : ∀ i < img.freeinode, sb.inodestart ≤ IBLOCK i sb ∧ IBLOCK i sb < sb.bmapstart
  addr : ∀ i < img.freeinode, ∀ σ, (dinodeAt img.disk sb i).map img.disk σ ≠ 0 →
    sb.bmapstart < (dinodeAt img.disk sb i).map img.disk σ ∧
      (dinodeAt img.disk sb i).map img.disk σ < sb.size
  apart : ∀ i < img.freeinode, ∀ j < img.freeinode, ∀ σ τ,
    (dinodeAt img.disk sb i).map img.disk σ ≠ 0 →
    (dinodeAt img.disk sb j).map img.disk τ = (dinodeAt img.disk sb i).map img.disk σ →
      j = i ∧ τ = σ
  bits : ∀ b < sb.size, bitAt img.disk sb b = decide (b < img.freeblock)
  root : (dinodeAt img.disk sb ROOTINO).type = .T_DIR
  file : ∀ k f, files[k]? = some f → (dinodeAt img.disk sb (2 + k)).type = .T_FILE ∧
    (dinodeAt img.disk sb (2 + k)).size = f.content.length ∧
    ∀ o < f.content.length, img.disk ((dinodeAt img.disk sb (2 + k)).map img.disk
      (.data (o / BSIZE)))
      (o % BSIZE) = f.content.getD o 0

/-- With enough inodes, the image is in order. -/
theorem inBounds_of_count (hmk : mkfs files = some img) (hcount : files.length ≤ NINODES - 2) :
    InBounds img files := by
  obtain ⟨dn, h⟩ := exists_made hmk (hcount.trans (by decide))
  have hfree := mkfs_freeinode hmk
  have hcount : files.length ≤ 198 := hcount
  -- `files.length + 2` inodes have been made, with number 0
  have hnum : ∀ i < img.freeinode, i < NINODES := by
    intro i hi
    show i < 200
    omega
  have hlt : ∀ i < img.freeinode, i < SLOTS := fun i hi => (hnum i hi).trans (by decide)
  have hle : img.freeblock ≤ FSSIZE := h.stored.full.le
  refine ⟨hnum, ?_, ?_, ?_, ?_, ?_, ?_⟩
  · intro i hi
    have := IBLOCK_lt (hlt i hi)
    exact ⟨this.2, this.1⟩
  · intro i hi σ hσ
    rw [h.dinode i (hlt i hi)] at hσ ⊢
    obtain ⟨hlo, hhi⟩ := h.stored.full.slot hσ
    exact ⟨lt_of_lt_of_le (by decide) hlo, lt_of_lt_of_le hhi hle⟩
  · intro i hi j hj σ τ hσ he
    rw [h.dinode i (hlt i hi)] at hσ he
    rw [h.dinode j (hlt j hj)] at he
    exact h.stored.full.slot_unique hσ he
  · intro b hb
    exact h.bit b (lt_trans hb (by decide))
  · rw [h.dinode ROOTINO (by decide)]
    exact h.root.1
  · intro k f hf
    have hk : k < files.length := (List.getElem?_eq_some_iff.mp hf).1
    have hcontents : contents files (2 + k) = f.content := withFiles_file files (by decide) hf
    rw [h.dinode (2 + k) (hlt _ (by omega))]
    obtain ⟨htype, -, hsize⟩ := h.file k hk
    rw [hcontents] at hsize
    refine ⟨htype, hsize, ?_⟩
    intro o ho
    have := h.stored.bytes (2 + k) o
    rw [hcontents] at this
    exact this ho

/-- **The image that `mkfs` writes is in order if and only if there are inodes for all files.** -/
theorem image_in_bounds_iff (hmk : mkfs files = some img) :
    InBounds img files ↔ files.length ≤ NINODES - 2 := by
  refine ⟨?_, inBounds_of_count hmk⟩
  intro h
  have hfree := mkfs_freeinode hmk
  have hlast : files.length + 1 < 200 := h.inum _ (by omega)
  show files.length ≤ 198
  omega

/-- Empty files with names of two letters. -/
def emptyFiles (n : ℕ) : List HostFile :=
  (List.range n).map fun i => ⟨[UInt8.ofNat (97 + i / 16), UInt8.ofNat (97 + i % 16)], []⟩

theorem image_in_bounds_two : ∃ img, mkfs (emptyFiles 2) = some img ∧ InBounds img
    (emptyFiles 2) := by
  have hfit : Fit (emptyFiles 2) := ⟨⟨by decide, by decide, by decide⟩, by decide, by decide⟩
  obtain ⟨img, dn, hmk, -⟩ := hfit.made
  exact ⟨img, hmk, (image_in_bounds_iff hmk).mpr (by decide)⟩

/-- **An inode in the free map**: `mkfs` makes an image of 207 empty files; the last of them has
an inode number that the superblock does not allow, its inode was put into the block of the free
map, and is no longer there. -/
theorem inode_overwritten : ∃ img, mkfs (emptyFiles 207) = some img ∧ img.freeinode = 209 ∧
    sb.ninodes ≤ 208 ∧ IBLOCK 208 sb = sb.bmapstart ∧
    (dinodeAt img.disk sb 208).type ≠ .T_FILE := by
  have hrun : (mkfs (emptyFiles 207)).isSome = true ∧ ∀ img ∈ mkfs (emptyFiles 207),
      (dinodeAt img.disk sb 208).type ≠ .T_FILE := by
    decide +kernel
  obtain ⟨img, hmk⟩ := Option.isSome_iff_exists.mp hrun.1
  exact ⟨img, hmk, mkfs_freeinode hmk, by decide, by decide, hrun.2 img hmk⟩

end Xv6.Mkfs
