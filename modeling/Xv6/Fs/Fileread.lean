import Xv6.Fs.File
import Xv6.Fs.Write

/-!
# The count that `read` is given

`read` takes an `int`, and `readi` a `uint`.  A negative count becomes a large one on the way.
`readi` returns nothing if its end wraps around, which it does if the file has been read far enough;
otherwise the count is cut to what is left of the file, and all of that is copied.

## Main definitions

* `OpenRead` — an open file, as the kernel has it.

## Main results

* `fileread_bounded_iff` — **when `read` copies no more than it was asked for.**
* `fileread_negative` — a count of `-1` reads a whole file.
-/

namespace Xv6.Fs

open Conc

variable {allow : String → Prop} {t : Fin NPROC} {s : State} {f : Fin NFILE} {off size : ℕ} {n : ℤ}

/-- The inode on disk of an open file. -/
def State.dinodeOf (s : State) (f : Fin NFILE) : Dinode := s.dinode (s.inode (s.file f).ip).inum

/-- A file that is open for reading: its inode is referenced, is not locked, is as on disk if it was
read, and has its blocks. -/
structure OpenRead (s : State) (f : Fin NFILE) : Prop where
  type : (s.file f).type = .FD_INODE
  readable : (s.file f).readable = true
  off : (s.file f).off < 2 ^ 32
  ref : 0 < (s.inode (s.file f).ip).ref
  lock : (s.inode (s.file f).ip).lock = none
  sync : (s.inode (s.file f).ip).valid = true → (s.inode (s.file f).ip).toDinode = s.dinodeOf f
  used : (s.dinodeOf f).type ≠ .zero
  whole : Whole (s.dinodeOf f).size ((s.dinodeOf f).map s.block)

/-- What `fileread` copies, and where the file is afterwards. -/
theorem ends_fileread (h : OpenRead s f) (dst : ℕ → Bool) (n : ℤ) :
    Ends allow t (fileread f dst n) s fun r s' =>
      ((∃ got, r = some got ∧ got.length = readCount (s.file f).off (uint n) (s.dinodeOf f).size) ∨
        r = none ∧ ∃ i < readCount (s.file f).off (uint n) (s.dinodeOf f).size, dst i = false) ∧
      (s'.file f).off = (s.file f).off + (r.getD []).length := by
  unfold fileread
  rw [ends_look_bind, h.readable, if_neg (by decide), h.type]
  refine (ends_ilock h.sync h.lock h.ref h.used).bind fun _ s1 hs1 => ?_
  have hfile : s1.file = s.file := by rw [hs1]; rfl
  have hino : s1.inode (s.file f).ip =
      lockedBy t (s.inode (s.file f).ip) (s.dinodeOf f) := by rw [hs1]; exact s.setInode_self ..
  have hsize : (s1.inode (s.file f).ip).size = (s.dinodeOf f).size := by rw [hino]; rfl
  rw [ends_look_bind, hfile]
  refine (ends_readi_whole fun bn hbn => ?_).bind fun r s2 hr => ?_
  · rw [hsize] at hbn
    rw [hino, hs1]
    exact h.whole.2 bn hbn
  obtain ⟨rfl, hr⟩ := hr
  rw [hsize] at hr
  unfold modifyFile
  rw [ends_act_bind]
  have hlock : (s2.inode (s.file f).ip).lock = some t := by rw [hino]; rfl
  have href : 0 < (s2.inode (s.file f).ip).ref := by rw [hino]; exact h.ref
  refine Ends.bind (ends_iunlock hlock href) fun _ s3 hs3 => ⟨hr, ?_⟩
  have hmod : (s3.file f).off = ((s.file f).off + (r.getD []).length) % 2 ^ 32 := by
    rw [hs3]
    show (Function.update s2.file f _ f).off = _
    rw [Function.update_self, hfile]
  -- the offset does not wrap: it stays within the file, or where it was
  rw [hmod, Nat.mod_eq_of_lt]
  have hoff := h.off
  rcases hr with ⟨got, rfl, hlen⟩ | ⟨rfl, -⟩
  · have hmax : (s.dinodeOf f).size < 2 ^ 32 := lt_of_le_of_lt h.whole.1 (by decide)
    rw [Option.getD_some, hlen]
    unfold readCount
    split_ifs <;> omega
  · exact hoff

theorem readCount_le_iff (hoff : off < 2 ^ 32) (hlo : -2 ^ 31 ≤ n) (hhi : n < 2 ^ 31) :
    readCount off (uint n) size ≤ n.toNat ↔ 0 ≤ n ∨ -n ≤ off ∨ size ≤ off := by
  unfold readCount uint
  by_cases hn : 0 ≤ n
  · rw [Int.emod_eq_of_lt hn (by omega)]
    split_ifs <;> omega
  · have hmod : n % 2 ^ 32 = n + 2 ^ 32 := by omega
    rw [hmod]
    split_ifs <;> omega

/-- **`read` copies no more than it was asked for, unless the count is negative and the file has not
been read that far**: it then copies the rest of the file. -/
theorem fileread_bounded_iff (h : OpenRead s f) (t : Fin NPROC) (hlo : -2 ^ 31 ≤ n)
    (hhi : n < 2 ^ 31) :
    (∀ dst, Ends (fun _ => False) t (fileread f dst n) s fun r s' =>
      (r.getD []).length ≤ n.toNat ∧ (r = none → ∃ i < n.toNat, dst i = false) ∧
      (s'.file f).off = (s.file f).off + (r.getD []).length) ↔
    0 ≤ n ∨ -n ≤ (s.file f).off ∨ (s.dinodeOf f).size ≤ (s.file f).off := by
  rw [← readCount_le_iff h.off hlo hhi]
  constructor
  · intro hread
    have hcopy : Ends (fun _ => False) t (fileread f (fun _ => true) n) s _ := ends_fileread h _ n
    obtain ⟨r, s', -, ⟨hle, hnone, -⟩, hr, -⟩ := ((hread _).and hcopy).exists_run
    rcases hr with ⟨got, rfl, hlen⟩ | ⟨rfl, -⟩
    · rwa [← hlen]
    · obtain ⟨i, -, hi⟩ := hnone rfl
      cases hi
  · refine fun hle dst => (ends_fileread h dst n).mono fun r s' hr => ?_
    obtain ⟨hr, hoff⟩ := hr
    refine ⟨?_, ?_, hoff⟩
    · rcases hr with ⟨got, rfl, hlen⟩ | ⟨rfl, -⟩
      · exact hlen.trans_le hle
      · exact Nat.zero_le _
    · rintro rfl
      rcases hr with ⟨got, hgot, -⟩ | ⟨-, i, hi, hdst⟩
      · cases hgot
      · exact ⟨i, hi.trans_le hle, hdst⟩

/-- A file of three bytes that is open. -/
def smallOpen : State := smallFile.setFile 0 ⟨.FD_INODE, true, false, 0, 0⟩

theorem openRead_small : OpenRead smallOpen 0 :=
  ⟨rfl, rfl, by decide, by decide, rfl, fun _ => rfl, by decide, smallFile_whole⟩

theorem fileread_bounded_two : OpenRead smallOpen 0 ∧ ∃ r s',
    (fileread 0 (fun _ => true) 2).run 0 smallOpen = .ok r s' ∧ (r.getD []).length ≤ 2 := by
  obtain ⟨r, s', hrun, hle, -⟩ := ((fileread_bounded_iff (n := 2) openRead_small 0 (by decide)
    (by decide)).mpr (Or.inl (by decide)) fun _ => true).exists_run
  exact ⟨openRead_small, r, s', hrun, hle⟩

/-- **A count of `-1` reads a whole file.** -/
theorem fileread_negative : OpenRead smallOpen 0 ∧ ∃ got s',
    (fileread 0 (fun _ => true) (-1)).run 0 smallOpen = .ok (some got) s' ∧ got.length = 3 ∧
      (s'.file 0).off = (smallOpen.file 0).off + 3 := by
  have hread : Ends (fun _ => False) 0 (fileread 0 (fun _ => true) (-1)) smallOpen _ :=
    ends_fileread openRead_small _ _
  obtain ⟨r, s', hrun, hr, hoff⟩ := hread.exists_run
  rcases hr with ⟨got, rfl, hlen⟩ | ⟨-, i, -, hi⟩
  · have hlen : got.length = 3 := hlen.trans (by decide)
    rw [Option.getD_some, hlen] at hoff
    exact ⟨openRead_small, got, s', hrun, hlen, hoff⟩
  · cases hi

end Xv6.Fs
