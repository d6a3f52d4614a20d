import Xv6.Mkfs.Image
import Xv6.Fs.Read

/-!
# The files

What `mkfs` makes of a list of files: a root directory with an entry for each, and
an inode with the contents of each.

## Main definitions

* `contents` — the contents of the inodes.
* `Fit` — the lists of files for which there is room.
* `Made` — the image at the end.

## Main results

* `Built.addFiles` — files are put into the root directory.
* `mkfs_made` — **`mkfs` makes an image that has the files, or they do not fit.**
-/

namespace Xv6.Mkfs

open Fs Function

variable {disk : ℕ → Block} {i j : ℕ} {dn : ℕ → Dinode} {img : Image} {c : ℕ → List UInt8}

/-! ### One file after the other -/

/-- What the host has in a file. -/
def HostFile.content (f : HostFile) : List UInt8 := f.chunks.flatten

/-- The contents after a file has been put into the root directory. -/
def withFile (c : ℕ → List UInt8) (n : ℕ) (f : HostFile) : ℕ → List UInt8 :=
  Function.update (Function.update c ROOTINO (c ROOTINO ++ mkDirent n (stripped f.arg))) n f.content

/-- The contents after files have been put there; their inodes are numbered from `n` on. -/
def withFiles (c : ℕ → List UInt8) : List HostFile → ℕ → ℕ → List UInt8
  | [], _ => c
  | f :: fs, n => withFiles (withFile c n f) fs (n + 1)

theorem mkDirent_eq (n : ℕ) (name : Name) : mkDirent n name = dirent n name := rfl

variable {n : ℕ}

theorem length_mkDirent {name : Name} : (mkDirent n name).length = DIRENT := length_dirent

variable {f : HostFile}

theorem withFile_self : withFile c n f n = f.content := update_self ..

theorem withFile_root (hn : ROOTINO < n) :
    withFile c n f ROOTINO = c ROOTINO ++ mkDirent n (stripped f.arg) := by
  unfold withFile
  rw [update_of_ne (Nat.ne_of_lt hn), update_self]

theorem withFile_of_ne (hr : j ≠ ROOTINO) (hn : j ≠ n) : withFile c n f j = c j := by
  unfold withFile
  rw [update_of_ne hn, update_of_ne hr]

theorem withFile_le (hc : c n = []) (hn : ROOTINO < n) (j : ℕ) :
    (c j).length ≤ (withFile c n f j).length := by
  by_cases hjn : j = n
  · rw [hjn, hc]
    exact Nat.zero_le _
  by_cases hjr : j = ROOTINO
  · rw [hjr, withFile_root hn, List.length_append]
    exact Nat.le_add_right ..
  · rw [withFile_of_ne hjr hjn]

theorem withFile_free (hn : ROOTINO < n) (hc : ∀ j, n ≤ j → c j = [])
    (hj : n + 1 ≤ j) : withFile c n f j = [] := by
  rw [withFile_of_ne (by omega) (by omega), hc j (by omega)]

theorem withFiles_le (fs : List HostFile) : ∀ {c : ℕ → List UInt8} {n : ℕ}, ROOTINO < n →
    (∀ j, n ≤ j → c j = []) → ∀ j, (c j).length ≤ (withFiles c fs n j).length := by
  induction fs with
  | nil => exact fun _ _ _ => le_rfl
  | cons f fs ih =>
    intro c n hn hc j
    exact (withFile_le (hc n le_rfl) hn j).trans
      (ih (Nat.lt_succ_of_lt hn) (fun j hj => withFile_free hn hc hj) j)

/-- **A file is put into the root directory**, or is refused. -/
theorem Built.addFile (h : Built img dn c) (hn : img.freeinode = n) (hroot : ROOTINO < n)
    (hlt : n < SLOTS) :
    (∃ img' dn', Mkfs.addFile img ROOTINO f = some img' ∧ img'.freeinode = n + 1 ∧
      (dn' n).type = .T_FILE ∧ (dn' n).nlink = 1 ∧
      (∀ j, j ≠ n → (dn' j).type = (dn j).type ∧ (dn' j).nlink = (dn j).nlink) ∧
      Built img' dn' (withFile c n f)) ∨
    (Mkfs.addFile img ROOTINO f = none ∧
      ¬ (SLASH ∉ shortname f.arg ∧ (stripped f.arg).length ≤ DIRSIZ ∧
      f.content.length ≤ MAXFILE * BSIZE ∧ (c ROOTINO).length + DIRENT ≤ MAXFILE * BSIZE ∧
      nmeta + total (withFile c n f) ≤ FSSIZE)) := by
  obtain ⟨-, hc⟩ := h.free n hn.le
  have hne : ROOTINO ≠ n := Nat.ne_of_lt hroot
  unfold Mkfs.addFile
  by_cases hslash : SLASH ∈ shortname f.arg
  · rw [if_pos hslash]
    exact Or.inr ⟨rfl, fun hc => hc.1 hslash⟩
  by_cases hname : (stripped f.arg).length > DIRSIZ
  · rw [if_neg hslash, if_pos hname]
    exact Or.inr ⟨rfl, fun hc => absurd hc.2.1 (not_le.mpr hname)⟩
  -- the entry, then the contents
  obtain ⟨img1, hial, hf1, hb1⟩ := h.ialloc .T_FILE (by omega)
  rw [hn] at hial hf1 hb1
  rw [if_neg hslash, if_neg hname, hial]
  dsimp only [Option.bind_eq_bind, Option.bind_some]
  rcases hb1.iappend (i := ROOTINO) (p := mkDirent n (stripped f.arg)) (by omega) (by decide) with
    ⟨img2, d2, happ2, hf2, ht2, hn2, hb2⟩ | ⟨happ2, hno⟩
  swap
  · have hmono : total (update c ROOTINO (c ROOTINO ++ mkDirent n (stripped f.arg))) ≤
        total (withFile c n f) := by
      refine total_mono fun j => ?_
      by_cases hj : j = n
      · rw [hj, update_of_ne hne.symm, hc]
        exact Nat.zero_le _
      · unfold withFile
        rw [update_of_ne hj]
    rw [length_mkDirent] at hno
    rw [happ2]
    exact Or.inr ⟨rfl, fun hc => hno ⟨hc.2.2.2.1, by omega⟩⟩
  have hempty : update c ROOTINO (c ROOTINO ++ mkDirent n (stripped f.arg)) n = [] := by
    rw [update_of_ne hne.symm, hc]
  have hwith : update (update c ROOTINO (c ROOTINO ++ mkDirent n (stripped f.arg)))
      n ([] ++ f.chunks.flatten) = withFile c n f := rfl
  have hall := Built.appendAll hlt f.chunks img2 _ _ hb2 (by omega)
  rw [hempty, hwith, List.length_nil, Nat.zero_add] at hall
  rw [happ2]
  rcases hall with ⟨img', d, happ, hf, ht, hnl, hb⟩ | ⟨happ, hno⟩
  swap
  · exact Or.inr ⟨happ, fun hc => hno ⟨hc.2.2.1, hc.2.2.2.2⟩⟩
  rw [update_of_ne hne.symm, update_self] at ht hnl
  rw [update_of_ne hne] at ht2 hn2
  refine Or.inl ⟨img', _, happ, by omega, ?_, ?_, fun j hj => ?_, hb⟩
  · rwa [update_self]
  · rwa [update_self]
  · rw [update_of_ne hj]
    by_cases hjr : j = ROOTINO
    · rw [hjr, update_self]
      exact ⟨ht2, hn2⟩
    · rw [update_of_ne hjr, update_of_ne hj]
      exact ⟨rfl, rfl⟩

/-- Files that `mkfs` accepts. -/
structure Names (fs : List HostFile) : Prop where
  slash : ∀ f ∈ fs, SLASH ∉ shortname f.arg
  len : ∀ f ∈ fs, (stripped f.arg).length ≤ DIRSIZ
  size : ∀ f ∈ fs, f.content.length ≤ MAXFILE * BSIZE

theorem Names.tail {fs : List HostFile} (h : Names (f :: fs)) : Names fs :=
  ⟨fun g hg => h.slash g (List.mem_cons_of_mem f hg),
    fun g hg => h.len g (List.mem_cons_of_mem f hg),
    fun g hg => h.size g (List.mem_cons_of_mem f hg)⟩

/-- **The files are put into the root directory**, or one is refused. -/
theorem Built.addFiles (fs : List HostFile) : ∀ (img : Image) (dn : ℕ → Dinode)
    (c : ℕ → List UInt8) (n : ℕ), Built img dn c → img.freeinode = n → ROOTINO < n →
    n + fs.length ≤ SLOTS → (c ROOTINO).length = DIRENT * n →
    (∃ img' dn', Mkfs.addFiles img ROOTINO fs = some img' ∧
      (∀ j, n ≤ j → j < n + fs.length → (dn' j).type = .T_FILE ∧ (dn' j).nlink = 1) ∧
      (∀ j, j < n → (dn' j).type = (dn j).type ∧ (dn' j).nlink = (dn j).nlink) ∧
      Built img' dn' (withFiles c fs n)) ∨ (Mkfs.addFiles img ROOTINO fs = none ∧
      ¬ (Names fs ∧ nmeta + total (withFiles c fs n) ≤ FSSIZE)) := by
  induction fs with
  | nil =>
    intro img dn c n h _ _ _ _
    exact Or.inl
      ⟨img, dn, rfl, fun j hj hj' => absurd hj' (not_lt.mpr hj), fun j _ => ⟨rfl, rfl⟩, h⟩
  | cons f fs ih =>
    intro img dn c n h hn hroot hlen hdir
    rw [List.length_cons] at hlen
    rw [Mkfs.addFiles]
    have h208 : SLOTS = 208 := rfl
    rcases h.addFile (f := f) hn hroot (by omega) with
      ⟨img1, dn1, hadd, hf1, ht1, hn1, hother, hb1⟩ | ⟨hadd, hno⟩
    swap
    · -- what does not fit with this file does not fit with the rest either
      have hfree : ∀ j, n ≤ j → c j = [] := fun j hj => (h.free j (hn ▸ hj)).2
      have hmono : total (withFile c n f) ≤ total (withFiles c (f :: fs) n) :=
        total_mono (withFiles_le fs (Nat.lt_succ_of_lt hroot)
          fun j hj => withFile_free hroot hfree hj)
      have hdir' : (c ROOTINO).length + DIRENT ≤ MAXFILE * BSIZE := by
        rw [hdir]
        show 16 * n + 16 ≤ 268 * 1024
        omega
      rw [hadd]
      refine Or.inr ⟨rfl, fun hc => hno ⟨hc.1.slash f List.mem_cons_self,
        hc.1.len f List.mem_cons_self, hc.1.size f List.mem_cons_self, hdir', by omega⟩⟩
    rw [hadd]
    rcases ih img1 dn1 _ (n + 1) hb1 hf1 (by omega) (by omega)
        (by rw [withFile_root hroot, List.length_append, hdir, length_mkDirent]; rfl) with
      ⟨img', dn', hadds, hnew, hold, hb⟩ | ⟨hadds, hno⟩
    swap
    · exact Or.inr ⟨hadds, fun hc => hno ⟨hc.1.tail, hc.2⟩⟩
    refine Or.inl ⟨img', dn', hadds, fun j hj hj' => ?_, fun j hj => ?_, hb⟩
    · rw [List.length_cons] at hj'
      by_cases hjn : j = n
      · have := hold n (Nat.lt_succ_self n)
        rw [hjn, this.1, this.2]
        exact ⟨ht1, hn1⟩
      · exact hnew j (by omega) (by omega)
    · have hs := hold j (by omega)
      have hs1 := hother j (by omega)
      exact ⟨hs.1.trans hs1.1, hs.2.trans hs1.2⟩

/-! ### Room -/

/-- The entries of files whose inodes are numbered from `n` on. -/
def entriesFrom : List HostFile → ℕ → List (ℕ × Name)
  | [], _ => []
  | f :: fs, n => (n, stripped f.arg) :: entriesFrom fs (n + 1)

/-- The entries of the root directory. -/
def rootEntries (files : List HostFile) : List (ℕ × Name) :=
  (ROOTINO, DOT) :: (ROOTINO, DOTDOT) :: entriesFrom files 2

/-- The contents of all inodes. -/
def contents (files : List HostFile) : ℕ → List UInt8 :=
  withFiles (Function.update (fun _ => []) ROOTINO
    (mkDirent ROOTINO DOT ++ mkDirent ROOTINO DOTDOT))
    files 2

theorem length_entriesFrom (fs : List HostFile) : ∀ n, (entriesFrom fs n).length = fs.length := by
  induction fs with
  | nil => exact fun _ => rfl
  | cons f fs ih => exact fun n => congrArg Nat.succ (ih (n + 1))

theorem withFiles_root (fs : List HostFile) : ∀ {c : ℕ → List UInt8} {n : ℕ}, ROOTINO < n →
    withFiles c fs n ROOTINO = c ROOTINO ++ dirBytes (entriesFrom fs n) := by
  induction fs with
  | nil => exact fun _ => (List.append_nil _).symm
  | cons f fs ih =>
    intro c n hn
    rw [withFiles, ih (Nat.lt_succ_of_lt hn), withFile_root hn, List.append_assoc, mkDirent_eq]
    rfl

theorem withFiles_of_lt (fs : List HostFile) : ∀ {c : ℕ → List UInt8} {n : ℕ}, j < n → j ≠ ROOTINO →
    withFiles c fs n j = c j := by
  induction fs with
  | nil => exact fun _ _ => rfl
  | cons f fs ih =>
    intro c n hn hj
    rw [withFiles, ih (Nat.lt_succ_of_lt hn) hj, withFile_of_ne hj (Nat.ne_of_lt hn)]

theorem withFiles_file (fs : List HostFile) : ∀ {c : ℕ → List UInt8} {n k : ℕ} {f : HostFile},
    ROOTINO < n → fs[k]? = some f → withFiles c fs n (n + k) = f.content := by
  induction fs with
  | nil => exact fun _ h => nomatch h
  | cons g fs ih =>
    intro c n k f hn hk
    cases k with
    | zero =>
      cases hk
      rw [Nat.add_zero, withFiles, withFiles_of_lt fs (Nat.lt_succ_self n) (Nat.ne_of_gt hn),
        withFile_self]
    | succ k =>
      rw [← Nat.add_assoc, Nat.add_right_comm, withFiles]
      exact ih (Nat.lt_succ_of_lt hn) hk

/-- How many blocks the files take. -/
theorem total_withFiles (fs : List HostFile) : ∀ {c : ℕ → List UInt8} {n : ℕ}, ROOTINO < n →
    n + fs.length ≤ SLOTS → (∀ j, n ≤ j → c j = []) →
    total (withFiles c fs n) + blocksFor (c ROOTINO).length =
      total c + blocksFor (withFiles c fs n ROOTINO).length +
        (fs.map fun f => blocksFor f.content.length).sum := by
  induction fs with
  | nil =>
    intro c n _ _ _
    rw [withFiles, List.map_nil, List.sum_nil, Nat.add_zero]
  | cons f fs ih =>
    intro c n hn hlen hc
    rw [List.length_cons] at hlen
    have hrest := ih (c := withFile c n f) (n := n + 1) (Nat.lt_succ_of_lt hn) (by omega)
      fun j hj => withFile_free hn hc hj
    have hne : n ≠ ROOTINO := Nat.ne_of_gt hn
    have hentry := total_update (c := c) (x := c ROOTINO ++ mkDirent n (stripped f.arg))
      (show ROOTINO < SLOTS by decide)
    have hfile : Mkfs.total (withFile c n f) + _ = _ := total_update (i := n) (by omega)
    rw [update_of_ne hne, hc n le_rfl] at hfile
    rw [withFile_root hn] at hrest
    have h0 : blocksFor ([] : List UInt8).length = 0 := by decide
    rw [List.map_cons, List.sum_cons, withFiles]
    omega

/-- The files fit: into the root directory, into inodes, and on the disk. -/
structure Fit (files : List HostFile) : Prop where
  names : Names files
  count : files.length ≤ SLOTS - 2
  room : nmeta + blocksFor (DIRENT * (files.length + 2)) +
    (files.map fun f => blocksFor f.content.length).sum ≤ FSSIZE

theorem contents_root (files : List HostFile) : contents files ROOTINO = dirBytes
    (rootEntries files) := by
  unfold contents
  rw [withFiles_root files (by decide), update_self, List.append_assoc]
  rfl

theorem length_contents_root (files : List HostFile) :
    (contents files ROOTINO).length = DIRENT * (files.length + 2) := by
  rw [contents_root, length_dirBytes]
  simp [rootEntries, length_entriesFrom]

variable {files : List HostFile}

theorem total_root (x : List UInt8) :
    total (update (fun _ => []) ROOTINO x) = blocksFor x.length := by
  have hsum := total_update (c := fun _ => []) (x := x) (show ROOTINO < SLOTS by decide)
  have hzero : total (fun _ => []) = 0 :=
    Finset.sum_eq_zero fun _ _ => (by decide : blocksFor 0 = 0)
  have h0 : blocksFor ([] : List UInt8).length = 0 := by decide
  omega

theorem total_contents (hcount : files.length ≤ SLOTS - 2) :
    total (contents files) = blocksFor (DIRENT * (files.length + 2)) +
      (files.map fun f => blocksFor f.content.length).sum := by
  have h208 : SLOTS = 208 := rfl
  have hsum := total_withFiles files (n := 2) (c := update (fun _ => []) ROOTINO
      (mkDirent ROOTINO DOT ++ mkDirent ROOTINO DOTDOT)) (by decide) (by omega)
    fun j hj => update_of_ne (show j ≠ 1 by omega) _ _
  rw [update_self, total_root] at hsum
  have hlen := length_contents_root files
  unfold contents at hlen ⊢
  rw [hlen] at hsum
  omega

/-! ### The whole image -/

/-- The image before the first inode. -/
theorem built_blank : Built blank (fun _ => Dinode.zero) fun _ => [] := by
  have hmap : ∀ blk σ, Dinode.zero.map blk σ = 0 := fun blk σ =>
    congrFun (Dinode.map_eq_zero fun _ _ => rfl) σ
  have hother : ∀ b, b ≠ 1 → blank.disk b = fun _ => 0 := fun b hb => update_of_ne hb _ _
  have h47 : nmeta = 47 := by decide
  have h0 : Fs.nblocks 0 = 0 := by decide
  -- the blocks before the data are the system's, and no inode has any
  refine ⟨⟨⟨⟨fun b => if b < nmeta then .system else .free, fun b => ?_, fun b _ => ?_,
    fun b hb => ?_,
    fun b t => ?_, fun b i σ => ?_⟩, fun b hb => ?_, le_rfl, by decide, fun i bn _ =>
      ?_, fun i => ?_,
    fun i k _ => rfl, ?_⟩, fun j => Nat.zero_le _, fun j o ho => ?_⟩, fun j hj => ?_, fun j => ?_,
    fun j => rfl, fun b _ => rfl, fun j _ => ⟨rfl, rfl⟩⟩
  · rw [SB_nmeta]
    by_cases hb : b < nmeta <;> simp [hb]
  · show decide (b < nmeta) = true ↔ _
    by_cases hb : b < nmeta <;> simp [hb]
  · by_cases hlt : b < nmeta
    · exact lt_trans hlt (by decide)
    · simp [hlt] at hb
  · by_cases hb : b < nmeta <;> simp [hb]
  · simp only [hmap]
    by_cases hb : b < nmeta <;> simp [hb]
    · exact fun h => Ne.symm h
    · exact fun h => Ne.symm h
  · have hb : nmeta ≤ b := hb
    exact hother b (by omega)
  · rw [hmap]
    simp [h0]
  · simp [Dinode.zero, h0]
  · simp [blank, Image.wsect, h0]
  · cases ho
  · have hblock := IBLOCK_lt hj
    unfold dinodeAt
    rw [hother _ (by omega), getDinode_zero]
  · exact fits_zero (show short 0 = 0 by decide)

/-- The size that `mkfs` gives the root directory. -/
def rounded (len : ℕ) : ℕ := (len / BSIZE + 1) * BSIZE

/-- What `mkfs` has written: the superblock and an empty log, inodes with their contents, and
the free map. -/
structure Made (img : Image) (files : List HostFile) (dn : ℕ → Dinode) : Prop where
  start : ∀ b < sb.inodestart, img.disk b = blank.disk b
  dinode : ∀ j < SLOTS, dinodeAt img.disk sb j = dn j
  bit : ∀ b < BPB, bitAt img.disk sb b = decide (b < img.freeblock)
  stored : Stored img.disk img.freeblock dn (contents files)
  root : (dn ROOTINO).type = .T_DIR ∧ (dn ROOTINO).nlink = 1 ∧
    (contents files ROOTINO).length ≤ (dn ROOTINO).size ∧ (dn ROOTINO).size < 2 ^ 32
  rootSize : (dn ROOTINO).size = rounded (contents files ROOTINO).length
  size : ∀ j, j ≠ ROOTINO → (dn j).size = (contents files j).length
  file : ∀ k < files.length, (dn (2 + k)).type = .T_FILE ∧ (dn (2 + k)).nlink = 1 ∧
    (dn (2 + k)).size = (contents files (2 + k)).length

theorem bitAt_usedBits {b n : ℕ} (hb : b < BPB) :
    bitAt (update disk sb.bmapstart (usedBits n)) sb b = decide (b < n) := by
  have hb : b < 8192 := hb
  have hblock : BBLOCK b sb = sb.bmapstart := by
    show b / 8192 + 46 = 46
    omega
  have hmod : b % BPB = b := Nat.mod_eq_of_lt hb
  unfold bitAt
  rw [hblock, update_self, hmod, and_shift_ne_zero, testBit_usedBits]

theorem le_rounded (len : ℕ) : len ≤ rounded len := by
  show len ≤ (len / 1024 + 1) * 1024
  omega

theorem rounded_lt {len : ℕ} (h : len ≤ MAXFILE * BSIZE) : rounded len < 2 ^ 32 := by
  have h : len ≤ 268 * 1024 := h
  show (len / 1024 + 1) * 1024 < 2 ^ 32
  omega

/-- The size of the root directory is rounded up, and the free map is written. -/
theorem Built.finish (h : Built img dn c) (hlen : (c ROOTINO).length ≤ MAXFILE * BSIZE) :
    ∃ img', (do
        let din ← rinode img ROOTINO
        let img ← winode img ROOTINO { din with size := rounded din.size }
        balloc img img.freeblock) = some img' ∧
      img'.freeblock = img.freeblock ∧
      (∀ b < sb.inodestart, img'.disk b = blank.disk b) ∧
      (∀ j < SLOTS, dinodeAt img'.disk sb j = update dn ROOTINO
        { dn ROOTINO with size := rounded (c ROOTINO).length } j) ∧
      (∀ b < BPB, bitAt img'.disk sb b = decide (b < img.freeblock)) ∧
      Stored img'.disk img.freeblock (update dn ROOTINO
        { dn ROOTINO with size := rounded (c ROOTINO).length }) c := by
  have hroot : ROOTINO < SLOTS := by decide
  have hfit := h.fits ROOTINO
  have h47 : nmeta = 47 := by decide
  have hle : img.freeblock ≤ 2000 := h.stored.full.le
  have hused : img.freeblock < BPB := lt_of_le_of_lt hle (by decide)
  obtain ⟨d, hd⟩ : ∃ d : Dinode,
      d = { dn ROOTINO with size := rounded (c ROOTINO).length } := ⟨_, rfl⟩
  have hdfit : Fits d := by
    rw [hd]
    exact ⟨hfit.major, hfit.minor, hfit.nlink, rounded_lt hlen, hfit.addrs, hfit.tail⟩
  have haddrs : ∀ j, (update dn ROOTINO d j).addrs = (dn j).addrs := by
    intro j
    by_cases hj : j = ROOTINO
    · rw [hj, update_self, hd]
    · rw [update_of_ne hj]
  -- only the block of the root's inode and the free map are written
  have hkeep : ∀ b, b < sb.inodestart ∨ nmeta ≤ b → (Image.wsect (img.wsect (IBLOCK ROOTINO sb)
      (putDinode (img.disk (IBLOCK ROOTINO sb)) (ROOTINO % IPB * DINODE) d)) sb.bmapstart
      (usedBits img.freeblock)).disk b = img.disk b := by
    intro b hb
    have hb : b < 33 ∨ nmeta ≤ b := hb
    have h1 : b ≠ sb.bmapstart := show b ≠ 46 by omega
    have h2 : b ≠ IBLOCK ROOTINO sb := show b ≠ 33 by omega
    exact (update_of_ne h1 _ _).trans (update_of_ne h2 _ _)
  refine ⟨Image.wsect (img.wsect (IBLOCK ROOTINO sb)
    (putDinode (img.disk (IBLOCK ROOTINO sb)) (ROOTINO % IPB * DINODE) d)) sb.bmapstart
    (usedBits img.freeblock), ?_, rfl, fun b hb => ?_, fun j hj => ?_, fun b hb => ?_, ?_⟩
  · rw [rinode_eq hroot, h.disk _ hroot]
    dsimp only [Option.bind_eq_bind, Option.bind_some]
    rw [h.size, ← hd, winode_eq hroot]
    exact if_pos hused
  · rw [hkeep b (Or.inl hb), h.start b hb]
  · have hblock : IBLOCK j sb ≠ sb.bmapstart := Nat.ne_of_lt (IBLOCK_lt hj).1
    rw [← hd]
    unfold dinodeAt Image.wsect
    dsimp only
    rw [update_of_ne hblock]
    refine (dinodeAt_winode hdfit).trans ?_
    by_cases hjr : j = ROOTINO
    · rw [if_pos hjr, hjr, update_self]
    · rw [if_neg hjr, update_of_ne hjr, h.disk j hj]
  · exact bitAt_usedBits hb
  · rw [← hd]
    exact (h.stored.fields haddrs).sys fun b hb => hkeep b (Or.inr hb)

/-- **`mkfs` makes an image that has the files**, or they do not fit. -/
theorem mkfs_made (hcount : files.length ≤ SLOTS - 2) :
    (∃ img dn, mkfs files = some img ∧ Made img files dn) ∨ (mkfs files = none ∧ ¬ Fit files) := by
  have h208 : SLOTS = 208 := rfl
  unfold mkfs
  -- the root directory with its first two entries
  obtain ⟨img1, hial, hf1, hb1⟩ := built_blank.ialloc .T_DIR (by decide)
  have hone : blank.freeinode = ROOTINO := rfl
  rw [hone] at hial hf1 hb1
  rw [hial]
  dsimp only [Option.bind_eq_bind, Option.bind_some]
  obtain ⟨img2, d2, happ2, hf2, ht2, hn2, hb2⟩ := (hb1.iappend (i := ROOTINO)
    (p := mkDirent ROOTINO DOT) (by omega) (by decide)).resolve_right
    fun hr => hr.2 ⟨by decide, by rw [total_root]; decide⟩
  rw [update_idem, List.nil_append] at hb2
  have htwo : update (update (fun _ => []) ROOTINO (mkDirent ROOTINO DOT)) ROOTINO
      (update (fun _ => []) ROOTINO (mkDirent ROOTINO DOT) ROOTINO ++
        mkDirent ROOTINO DOTDOT) =
      update (fun _ => []) ROOTINO (mkDirent ROOTINO DOT ++ mkDirent ROOTINO DOTDOT) := by
    rw [update_idem, update_self]
  obtain ⟨img3, d3, happ3, hf3, ht3, hn3, hb3⟩ := (hb2.iappend (i := ROOTINO)
    (p := mkDirent ROOTINO DOTDOT) (by omega) (by decide)).resolve_right
    fun hr => hr.2 ⟨by rw [update_self]; decide, by rw [htwo, total_root]; decide⟩
  rw [htwo, update_idem] at hb3
  rw [update_self] at ht2 hn2 ht3 hn3
  have hfree : img3.freeinode = 2 := hf3.trans (hf2.trans hf1)
  rw [if_pos rfl, happ2]
  dsimp only [Option.bind_some]
  rw [happ3]
  dsimp only [Option.bind_some]
  rcases Built.addFiles files img3 _ _ 2 hb3 hfree (by decide) (by omega)
      (by rw [update_self]; rfl) with
    ⟨img4, dn, hadd, hnew, hold, hb4⟩ | ⟨hadd, hno⟩
  swap
  · rw [hadd]
    refine Or.inr ⟨rfl, fun h => hno ⟨h.names, ?_⟩⟩
    show nmeta + total (contents files) ≤ FSSIZE
    have hroom := h.room
    rw [total_contents hcount]
    omega
  -- the files are in; the size of the root is rounded up
  obtain ⟨htype, hnlink⟩ := hold ROOTINO (by decide)
  rw [update_self] at htype hnlink
  have hb4 : Built img4 dn (contents files) := hb4
  have hmax := hb4.stored.size ROOTINO
  obtain ⟨img, hfin, hfb, hst, hdin, hbit, hstored⟩ := hb4.finish hmax
  rw [hadd]
  refine Or.inl ⟨img, _, hfin, hst, hdin, ?_, ?_, ?_, ?_, fun j hj => ?_, fun k hk => ?_⟩
  · rwa [hfb]
  · rwa [hfb]
  · rw [update_self]
    exact ⟨htype.trans (ht3.trans ht2), hnlink.trans (hn3.trans hn2), le_rounded _,
      rounded_lt hmax⟩
  · rw [update_self]
  · rw [update_of_ne hj]
    exact hb4.size j
  · have hne : 2 + k ≠ ROOTINO := by
      show 2 + k ≠ 1
      omega
    rw [update_of_ne hne]
    exact ⟨(hnew _ (by omega) (by omega)).1, (hnew _ (by omega) (by omega)).2, hb4.size _⟩

/-- **`mkfs` succeeds if the files fit.** -/
theorem Fit.made (h : Fit files) : ∃ img dn, mkfs files = some img ∧ Made img files dn :=
  (mkfs_made h.count).resolve_right fun hr => hr.2 h

theorem exists_made (hmk : mkfs files = some img) (hcount : files.length ≤ SLOTS - 2) :
    ∃ dn, Made img files dn := by
  rcases mkfs_made hcount with ⟨img1, dn, hmk1, h⟩ | ⟨hmk1, -⟩
  · rw [hmk, Option.some.injEq] at hmk1
    exact ⟨dn, hmk1 ▸ h⟩
  · rw [hmk] at hmk1
    cases hmk1

end Xv6.Mkfs
