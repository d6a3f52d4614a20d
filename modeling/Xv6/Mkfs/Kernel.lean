import Xv6.Mkfs.Files
import Xv6.Fs.Resolve

/-!
# The kernel reads what `mkfs` wrote

The image is mounted, paths to its files lead to inodes with the contents of the
host's files, and the blocks that `balloc` finds free are free.

## Main definitions

* `Files` — files with proper names for which there is room.
* `Opens`, `Spares` — what the kernel makes of a file, and of the free map.

## Main results

* `Made.fsinit` — the image is mounted as it is.
* `kernel_agrees` — **`mkfs` and the kernel agree on the format.**
-/

namespace Xv6.Mkfs

open Fs Conc

variable {allow : String → Prop} {t : Fin NPROC} {s : State} {img : Image} {dn : ℕ → Dinode}
  {files : List HostFile} {f : HostFile} {k n : ℕ}

/-! ### Mounting -/

section

variable (h : Made img files dn)

include h

theorem Made.readsb : Fs.readsb img.disk = sb :=
  readsb_sbBlock (h.start 1 (by decide))

theorem Made.recover : recover_from_log img.disk sb = img.disk := by
  have hlog : img.disk sb.logstart = fun _ => 0 := h.start 2 (by decide)
  have hn : Bytes.get 4 (fun _ => 0) 0 = 0 := rfl
  have hset : Bytes.set 4 (fun _ => 0) 0 0 = fun _ => 0 := by
    funext i
    unfold Bytes.set
    rw [Nat.zero_div]
    exact ite_self _
  unfold recover_from_log
  dsimp only
  rw [hlog, hn, install_trans, hlog, hset, ← hlog, Function.update_eq_self]

/-- **The image is mounted as it is.** -/
theorem Made.fsinit : Fs.fsinit img.disk = some (Disk.ofRaw img.disk) := by
  unfold Fs.fsinit
  rw [h.readsb, if_pos (show sb.magic = FSMAGIC from rfl), h.recover]

theorem Made.dinode_ofRaw {j : ℕ} (hj : j < SLOTS) : (Disk.ofRaw img.disk).dinode j = dn j := by
  show dinodeAt img.disk (Fs.readsb img.disk) j = dn j
  rw [h.readsb, h.dinode j hj]

theorem Made.bit_ofRaw {b : ℕ} (hb : b < BPB) :
    (Disk.ofRaw img.disk).bit b = decide (b < img.freeblock) := by
  show bitAt img.disk (Fs.readsb img.disk) b = _
  rw [h.readsb, h.bit b hb]

theorem Made.sb_ofRaw : (Disk.ofRaw img.disk).sb = SB := by
  show (⟨_, _, _⟩ : Superblock) = _
  rw [h.readsb]
  rfl

end

theorem Stored.holds {disk : ℕ → Block} {fb : ℕ} {c : ℕ → List UInt8} (h : Stored disk fb dn c)
    (j : ℕ) : Holds disk (dn j) (c j) := by
  refine ⟨fun o ho => ?_, h.bytes j⟩
  have hsize := h.size j
  have hbn : o / BSIZE < MAXFILE := Nat.div_lt_of_lt_mul (by rw [Nat.mul_comm]; omega)
  exact (h.full.data j _ hbn).mpr (lt_nblocks ho)

/-! ### Files -/

/-- Files with names that are distinct and proper, and for which there is room. -/
structure Files (files : List HostFile) : Prop where
  distinct : (files.map fun f => stripped f.arg).Nodup
  len : ∀ f ∈ files, 1 ≤ (stripped f.arg).length ∧ (stripped f.arg).length ≤ DIRSIZ
  dot : ∀ f ∈ files, stripped f.arg ≠ DOT ∧ stripped f.arg ≠ DOTDOT
  /-- The arguments are strings, and name files in the directory. -/
  string : ∀ f ∈ files, 0 ∉ f.arg ∧ SLASH ∉ shortname f.arg
  count : files.length ≤ NINODES - 2
  size : ∀ f ∈ files, f.content.length ≤ MAXFILE * BSIZE
  room : nmeta + blocksFor (DIRENT * (files.length + 2)) +
    (files.map fun f => blocksFor f.content.length).sum ≤ FSSIZE

theorem Files.fit (h : Files files) : Fit files where
  names := ⟨fun f hf => (h.string f hf).2, fun f hf => (h.len f hf).2, h.size⟩
  count := h.count.trans (by decide)
  room := h.room

theorem shortname_subset (arg : Name) : shortname arg ⊆ arg := by
  unfold shortname
  split_ifs
  · exact List.drop_subset _ _
  · exact List.Subset.refl _

theorem stripped_subset (arg : Name) : stripped arg ⊆ shortname arg := by
  unfold stripped
  split_ifs
  · exact List.drop_subset _ _
  · exact List.Subset.refl _

theorem Files.named (h : Files files) (hf : f ∈ files) : Named (stripped f.arg) where
  ne_nil := fun hc => by
    have hlen := (h.len f hf).1
    rw [hc, List.length_nil] at hlen
    omega
  len := (h.len f hf).2
  zero := fun hc => (h.string f hf).1 (shortname_subset _ (stripped_subset _ hc))

theorem Files.no_slash (h : Files files) (hf : f ∈ files) : SLASH ∉ stripped f.arg :=
  fun hc => (h.string f hf).2 (stripped_subset _ hc)

theorem entriesFrom_entry (fs : List HostFile) : ∀ {n : ℕ}, n ≠ 0 → n + fs.length ≤ 2 ^ 16 →
    (∀ f ∈ fs, Named (stripped f.arg)) → ∀ x ∈ entriesFrom fs n, Entry x := by
  induction fs with
  | nil => exact fun _ _ _ x hx => nomatch hx
  | cons f fs ih =>
    intro n hn hlen hnamed x hx
    rw [List.length_cons] at hlen
    rw [entriesFrom, List.mem_cons] at hx
    rcases hx with rfl | hx
    · exact ⟨hn, show n < 2 ^ 16 by omega, hnamed f List.mem_cons_self⟩
    · exact ih (Nat.succ_ne_zero n) (by omega) (fun g hg => hnamed g (List.mem_cons_of_mem f hg)) x
        hx

/-- The first entry with the name of a file is its own. -/
theorem entriesFrom_find (fs : List HostFile) : ∀ {n k : ℕ} {f : HostFile},
    (fs.map fun f => stripped f.arg).Nodup → fs[k]? = some f →
    (entriesFrom fs n).find? (fun x => x.2 = stripped f.arg) = some (n + k, stripped f.arg) := by
  induction fs with
  | nil => exact fun _ h => nomatch h
  | cons g fs ih =>
    intro n k f hnodup hk
    rw [List.map_cons, List.nodup_cons] at hnodup
    cases k with
    | zero =>
      cases hk
      exact List.find?_cons_of_pos (by simp)
    | succ k =>
      have hne : stripped g.arg ≠ stripped f.arg := by
        intro hc
        rw [hc] at hnodup
        exact hnodup.1 (List.mem_map_of_mem (List.mem_of_getElem? hk))
      rw [entriesFrom, List.find?_cons_of_neg (by simpa using hne), ih hnodup.2 hk]
      congr 2
      omega

theorem Files.find (h : Files files) (hk : files[k]? = some f) :
    (rootEntries files).find? (fun x => x.2 = stripped f.arg) = some (2 + k, stripped f.arg) := by
  have hf := List.mem_of_getElem? hk
  obtain ⟨hdot, hdotdot⟩ := h.dot f hf
  unfold rootEntries
  rw [List.find?_cons_of_neg (by simpa using hdot.symm),
    List.find?_cons_of_neg (by simpa using hdotdot.symm), entriesFrom_find files h.distinct hk]

theorem Files.entries (h : Files files) : ∀ x ∈ rootEntries files, Entry x := by
  have hcount := h.count
  have h200 : NINODES = 200 := rfl
  intro x hx
  unfold rootEntries at hx
  rw [List.mem_cons, List.mem_cons] at hx
  rcases hx with rfl | rfl | hx
  · exact ⟨by decide, by decide, ⟨by decide, by decide, by decide⟩⟩
  · exact ⟨by decide, by decide, ⟨by decide, by decide, by decide⟩⟩
  · exact entriesFrom_entry files (by decide) (by omega) (fun f hf => h.named hf) x hx

theorem drop_dirBytes (l : List (ℕ × Name)) : ∀ (j : ℕ) (hj : j < l.length),
    ((dirBytes l).drop (DIRENT * j)).take DIRENT = dirent l[j].1 l[j].2 := by
  induction l with
  | nil => exact fun j hj => absurd hj (Nat.not_lt_zero j)
  | cons x l ih =>
    intro j hj
    rw [dirBytes_cons]
    cases j with
    | zero => exact List.take_left' length_dirent
    | succ j =>
      rw [Nat.mul_succ, Nat.add_comm, ← List.drop_drop, List.drop_left' length_dirent]
      exact ih j (Nat.lt_of_succ_lt_succ hj)

/-- What `dirlookup` finds in a directory that starts with proper entries. -/
theorem lookup_dirBytes {l : List (ℕ × Name)} {e : Fin NINODE} {name : Name} {inum : ℕ}
    (h : StartsWith e s (dirBytes l)) (hl : ∀ x ∈ l, Entry x) (hname : Named name)
    (hfind : l.find? (fun x => x.2 = name) = some (inum, name)) :
    ∃ off, s.lookup e name = some (inum, off) ∧ off + DIRENT ≤ (dirBytes l).length := by
  obtain ⟨-, j, hj, hx, hbefore⟩ := List.find?_eq_some_iff_getElem.mp hfind
  have hlen : ∀ i < l.length, DIRENT * i + DIRENT ≤ (dirBytes l).length := fun i hi => by
    rw [length_dirBytes, ← Nat.mul_succ]
    exact Nat.mul_le_mul_left _ hi
  have hent (i) (hi : i < l.length) : s.dirent e i = dirent l[i].1 l[i].2 :=
    (h.dirent (hlen i hi)).symm.trans (drop_dirBytes l i hi)
  have hhit (i) (hi : i < l.length) : hit name (s.dirent e i) = decide (name = l[i].2) := by
    have hi' := hl _ (List.getElem_mem hi)
    rw [hent i hi, hit_dirent (Nat.pos_of_ne_zero hi'.inum) hi'.lt, namecmp_named hname hi'.named]
  refine ⟨DIRENT * j, find_eq_some.mpr ⟨j, ?_, ?_, fun i hi => ?_, ?_⟩, hlen j hj⟩
  · have hle := (hlen j hj).trans h.le
    have hle : 16 * j + 16 ≤ (s.inode e).size := hle
    show j < (s.inode e).size / 16
    omega
  · rw [hhit j hj, hx]
    exact decide_eq_true rfl
  · rw [hhit i (hi.trans hj)]
    have hne : l[i].2 ≠ name := by simpa using hbefore i hi
    exact decide_eq_false hne.symm
  · rw [hent j hj, deInum_dirent (hl _ (List.getElem_mem hj)).lt, hx]

theorem Made.root_starts {e : Fin NINODE} (h : Made img files dn)
    (hs : s.toDisk = Disk.ofRaw img.disk)
    (hin : (s.inode e).toDinode = dn ROOTINO) : StartsWith e s (dirBytes (rootEntries files)) := by
  have hblk : s.block = img.disk := congrArg Disk.block hs
  obtain ⟨htype, -, hle, hlt⟩ := h.root
  have hholds := h.stored.holds ROOTINO
  have hsize : (dn ROOTINO).size = ((contents files ROOTINO).length / 1024 + 1) * 1024 := h.rootSize
  rw [contents_root] at hholds hle
  refine ⟨by rw [hin]; exact htype,
    ?_, by rw [hin, hblk]; exact hholds, by rw [hin]; exact hle, by omega⟩
  rw [hin, hsize]
  show _ % 16 = 0
  omega

/-! ### The kernel -/

/-- The kernel finds a file: in every state in which nothing is locked and two entries of the
table of inodes are empty, its path leads to an inode of type `T_FILE` with one link, and
`readi` returns its bytes. -/
def Opens (D : Disk) (f : HostFile) : Prop :=
  ∀ (s : State) (t : Fin NPROC), s.toDisk = D → Quiet s →
    (∃ e1 e2, e1 ≠ e2 ∧ (s.inode e1).ref = 0 ∧ (s.inode e2).ref = 0) →
    ∃ e s1 s2, (namei (SLASH :: stripped f.arg)).run t s = .ok (some e) s1 ∧
      (ilock e).run t s1 = .ok () s2 ∧ (s2.inode e).type = .T_FILE ∧ (s2.inode e).nlink = 1 ∧
      (s2.inode e).size = f.content.length ∧
      ∀ (dst : ℕ → Bool) (off n : ℕ), off + n < 2 ^ 32 → (∀ i < n, dst i = true) →
        (readi e dst off n).run t s2 = .ok (some ((f.content.drop off).take n)) s2

/-- In every state whose free map has the blocks of the disk in use, `balloc` returns a data block
that no inode of the disk has, or 0 if all blocks are in use; and the map still has them. -/
def Spares (D : Disk) : Prop :=
  ∀ (s : State) (t : Fin NPROC), s.sb = D.sb → (∀ b, D.bit b = true → s.bit b = true) →
    ∃ b s', Fs.balloc.run t s = .ok b s' ∧
      (b = 0 → ∀ x < D.sb.size, s.bit x = true) ∧
      (b ≠ 0 → D.sb.nmeta ≤ b ∧ b < D.sb.size ∧
        ∀ inum < D.sb.ninodes, ∀ σ, (D.dinode inum).map D.block σ ≠ b) ∧
      s'.sb = D.sb ∧ ∀ b, D.bit b = true → s'.bit b = true

theorem Made.opens (h : Made img files dn) (hfiles : Files files) (hk : files[k]? = some f) :
    Opens (Disk.ofRaw img.disk) f := by
  intro s t hs hq hempty
  have hf := List.mem_of_getElem? hk
  have hlt : k < files.length := (List.getElem?_eq_some_iff.mp hk).1
  have hcount := hfiles.count
  have h200 : NINODES = 200 := rfl
  obtain ⟨htype, hnlink, hsize⟩ := h.file k hlt
  have hcontent : contents files (2 + k) = f.content := withFiles_file files (by decide) hk
  have hholds := h.stored.holds (2 + k)
  rw [hcontent] at hsize hholds
  have hdin : (Disk.ofRaw img.disk).dinode (2 + k) = dn (2 + k) :=
    h.dinode_ofRaw (show 2 + k < 208 by omega)
  have hroot : s.dinode ROOTINO = dn ROOTINO :=
    (congrArg (fun D : Disk => D.dinode ROOTINO) hs).trans (h.dinode_ofRaw (by decide))
  have hallow : ¬ s.Roomy → False := fun hn => hn hempty
  -- the path has one element, looked up in the root directory
  have hnamei : Ends (fun _ => False) t (namei (SLASH :: stripped f.arg)) s fun r s' =>
      ∃ e, r = some e ∧ Walk t s none {e} s' ∧ (s'.inode e).inum = 2 + k := by
    unfold namei namex namexStart
    rw [elems_absolute (hfiles.named hf) (hfiles.no_slash hf), if_pos (by rfl)]
    refine Ends.seq ((hq.walk.iget (Nat.zero_le 1) hallow).bind fun e s1 h1 => ?_)
    obtain ⟨h1, hnum1, -⟩ := h1
    rw [namexFrom]
    refine (h1.ilock (Multiset.mem_singleton_self e) ?_).bind fun _ s2 h2 => ?_
    · rw [hnum1, hroot, h.root.1]
      decide
    obtain ⟨h2, hin, hsame⟩ := h2
    rw [hnum1, hroot] at hin
    have hstarts := h.root_starts (h2.disk.trans hs) hin
    obtain ⟨off, hfound, hoff⟩ := lookup_dirBytes hstarts hfiles.entries (hfiles.named hf)
      (hfiles.find hk)
    unfold getInode
    rw [ends_look_bind, if_neg fun hc => hc hstarts.type, if_neg (by simp)]
    refine (ends_dirlookup_found hstarts hfound hoff (h2.found hallow)).bind ?_
    rintro _ s3 ⟨e', rfl, hnum3, hsame3, h3⟩
    rw [Multiset.pair_comm] at h3
    refine (h3.iunlockput (Or.inl ?_)).bind fun _ s4 h4 => ?_
    · rw [hsame3, hsame, hnum1, hroot, h.root.2.1]
      decide
    · rw [namexFrom]
      exact ⟨e', rfl, h4.1, (h4.2 e').trans hnum3⟩
  -- `ilock` reads the inode that `mkfs` has written
  obtain ⟨r, s1, hrun, e, rfl, hwalk, hnum⟩ := hnamei.exists_run
  have href := hwalk.ref_pos (Multiset.mem_singleton_self e)
  have hdisk := hwalk.disk
  have hdin1 : s1.dinode (s1.inode e).inum = dn (2 + k) := by
    rw [hnum, congrArg Disk.dinode (hdisk.trans hs), hdin]
  have hty : (s1.dinode (s1.inode e).inum).type ≠ .zero := by
    rw [hdin1, htype]
    decide
  obtain ⟨_, s2, hrun2, hs2⟩ :=
    (ends_ilock (t := t) (hwalk.synced e href) (hwalk.lock e) href hty).exists_run
  rw [hdin1] at hs2
  have hself : (s2.inode e).toDinode = dn (2 + k) := by
    rw [hs2, State.setInode_self]
    rfl
  have hblk : s2.block = img.disk := by
    rw [hs2]
    exact congrArg Disk.block (hdisk.trans hs)
  refine ⟨e, s1, s2, hrun, hrun2, by rw [hself]; exact htype, by rw [hself]; exact hnlink,
    by rw [hself]; exact hsize, fun dst off n hmax hdst => ?_⟩
  obtain ⟨r, s3, hrun3, rfl, rfl⟩ := (ends_readi_file (t := t) (s := s2) (e := e) (c := f.content)
    (by rw [hself, hblk]; exact hholds) (by rw [hself]; exact hsize) hmax hdst).exists_run
  exact hrun3

theorem Made.spares (h : Made img files dn) : Spares (Disk.ofRaw img.disk) := by
  intro s t hsb hbits
  have hlo := h.stored.full.lo
  have h47 : nmeta = 47 := by decide
  have h0 : s.bit 0 = true := by
    refine hbits 0 ?_
    rw [h.bit_ofRaw (by decide)]
    exact decide_eq_true (by omega)
  obtain ⟨b, s', hrun, ⟨rfl, rfl, hfull⟩ | ⟨hb, hfree, hlt, -, rfl⟩⟩ :=
    (ends_balloc (t := t) h0).exists_run
  · exact ⟨0, s', hrun, fun _ x hx => hfull x (by rwa [hsb]), fun hc => absurd rfl hc, hsb, hbits⟩
  have hkept (x) (hx : (Disk.ofRaw img.disk).bit x = true) : Function.update s.bit b true x =
      true := by
    rw [Function.update_apply, hbits x hx, ite_self]
  refine ⟨b, _, hrun, fun hc => absurd hc hb, fun _ => ?_, hsb, hkept⟩
  rw [hsb, h.sb_ofRaw] at hlt
  rw [h.sb_ofRaw]
  have hlt' : b < 2000 := hlt
  -- a block that is not in use is past those that `mkfs` gave out
  have hge : img.freeblock ≤ b := by
    by_contra hc
    have hused : (Disk.ofRaw img.disk).bit b = true := by
      rw [h.bit_ofRaw (lt_trans hlt' (by decide))]
      exact decide_eq_true (not_le.mp hc)
    rw [hbits b hused] at hfree
    cases hfree
  refine ⟨hlo.trans hge, hlt, fun inum hinum σ hc => ?_⟩
  rw [h.dinode_ofRaw (lt_trans hinum (by decide))] at hc
  have hc : (dn inum).map img.disk σ = b := hc
  have hslot := h.stored.full.slot (i := inum) (σ := σ) (by rw [hc]; exact hb)
  rw [hc] at hslot
  omega

/-- **`mkfs` and the kernel agree on the format**: the image is made and mounted, the kernel finds
every file with its contents, and `balloc` leaves alone what is in use. -/
theorem kernel_agrees (h : Files files) :
    ∃ img D, mkfs files = some img ∧ fsinit img.disk = some D ∧ (∀ f ∈ files, Opens D f) ∧
      Spares D := by
  obtain ⟨img, dn, hmk, hmade⟩ := h.fit.made
  refine ⟨img, _, hmk, hmade.fsinit, fun f hf => ?_, hmade.spares⟩
  obtain ⟨k, hk⟩ := List.mem_iff_getElem?.mp hf
  exact hmade.opens h hk

/-- A file `_a` of three bytes and an empty file `user/_b`. -/
def twoFiles : List HostFile :=
  [⟨[95, 97], [[1, 2], [3]]⟩, ⟨[117, 115, 101, 114, 47, 95, 98], []⟩]

theorem kernel_agrees_two : Files twoFiles ∧ ∃ img D, mkfs twoFiles = some img ∧
    fsinit img.disk = some D ∧ (∀ f ∈ twoFiles, Opens D f) ∧ Spares D := by
  have h : Files twoFiles :=
    ⟨by decide, by decide, by decide, by decide, by decide, by decide, by decide⟩
  exact ⟨h, kernel_agrees h⟩

end Xv6.Mkfs
