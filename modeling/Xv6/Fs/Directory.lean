import Xv6.Fs.Write

/-!
# A directory is a finite map

A directory is a file of entries of sixteen bytes.  An entry whose inode number is zero is free;
`dirlink` takes the first free one, or one behind the end.  Names have no terminator when they fill
their fourteen bytes, so they are compared with `strncmp` and stored with `strncpy`: two names are
the same if their first fourteen bytes are, up to the first zero (`strncmp_iff`).

Nothing in `dirlookup` or `sys_unlink` depends on a name being there only once, but a name that is
there twice is still there when the entry that `dirlookup` finds is cleared.

## Main definitions

* `find` — what `dirlookup` finds in a table of entries.
* `State.lookup` — what it finds in a directory: the inode number, and the offset of the entry.
* `StartsWith`, `Readable`, `IsDir` — a directory in memory that starts with certain bytes, one
  without holes, and one whose blocks are its own.

## Main results

* `directory_is_map` — **`dirlookup`, `dirlink` and the clearing of an entry are the operations of
  a finite map**, where `sys_unlink` clears a name that is there once.
* `name_found_again` — a name that is there twice.
-/

namespace Xv6.Fs

open Conc

variable {allow : String → Prop} {t : Fin NPROC} {s s' : State} {dp e : Fin NINODE}
  {name name' : Name}
  {n k j inum off : ℕ} {ent ent' : ℕ → List UInt8} {de : List UInt8}

/-! ### Names -/

theorem namecmp_congr (h : namecmp name name' = true) (q : Name) :
    namecmp name q = namecmp name' q := by
  rw [Bool.eq_iff_iff]
  unfold namecmp at h ⊢
  rw [strncmp_iff] at h ⊢
  rw [strncmp_iff]
  exact forall₂_congr fun i hi => by rw [h i hi]

/-! ### Tables of entries -/

/-- Whether an entry is used, for a name. -/
def hit (name : Name) (de : List UInt8) : Bool := deInum de ≠ 0 && namecmp name (deName de)

/-- What `dirlookup` finds among `k` entries. -/
def find (ent : ℕ → List UInt8) (k : ℕ) (name : Name) : Option (ℕ × ℕ) :=
  ((List.range k).find? fun j => hit name (ent j)).map fun j => (deInum (ent j), DIRENT * j)

theorem find_eq_none : find ent k name = none ↔ ∀ j < k, hit name (ent j) = false := by
  simp [find]

theorem find_eq_some {r : ℕ × ℕ} : find ent k name = some r ↔ ∃ j < k, hit name (ent j) = true ∧
    (∀ i < j, hit name (ent i) = false) ∧ r = (deInum (ent j), DIRENT * j) := by
  unfold find
  rw [Option.map_eq_some_iff]
  constructor
  · rintro ⟨j, hj, rfl⟩
    rw [List.find?_range_eq_some] at hj
    exact ⟨j, by simpa using hj.2.1, hj.1, fun i hi => by simpa using hj.2.2 i hi, rfl⟩
  · rintro ⟨j, hj, hit, hfirst, rfl⟩
    exact ⟨j, List.find?_range_eq_some.mpr ⟨hit, by simpa using hj,
      fun i hi => by simpa using hfirst i hi⟩, rfl⟩

theorem find_congr {k' : ℕ} (h : ∀ j, (j < k ∧ hit name (ent j) = true) ↔ j < k' ∧
    hit name (ent' j) = true)
    (heq : ∀ j < k, hit name (ent j) = true → ent' j = ent j) :
    find ent' k' name = find ent k name := by
  cases hf : find ent k name with
  | none =>
    rw [find_eq_none] at hf ⊢
    intro j hj
    by_contra hc
    obtain ⟨hjk, hh⟩ := (h j).mpr ⟨hj, by simpa using hc⟩
    rw [hf j hjk] at hh
    cases hh
  | some r =>
    obtain ⟨j, hj, hh, hfirst, rfl⟩ := find_eq_some.mp hf
    obtain ⟨hj', hh'⟩ := (h j).mp ⟨hj, hh⟩
    refine find_eq_some.mpr ⟨j, hj', hh', fun i hi => ?_, by rw [heq j hj hh]⟩
    by_contra hc
    obtain ⟨-, hhi⟩ := (h i).mpr ⟨by omega, by simpa using hc⟩
    rw [hfirst i hi] at hhi
    cases hhi

theorem namecmp_comm (name name' : Name) : namecmp name name' = namecmp name' name := by
  rw [Bool.eq_iff_iff]
  unfold namecmp
  rw [strncmp_iff, strncmp_iff]
  exact forall₂_congr fun _ _ => eq_comm

theorem namecmp_of_common {q : Name} (h : namecmp name q = true) (h' : namecmp name' q = true) :
    namecmp name name' = true := by
  unfold namecmp at h h' ⊢
  rw [strncmp_iff] at h h' ⊢
  exact fun i hi => (h i hi).trans (h' i hi).symm

theorem hit_zero (h : deInum de = 0) : hit name de = false := by
  simp [hit, h]

theorem hit_dirent (hpos : 0 < inum) (hinum : inum < 65536) :
    hit name (dirent inum name') = namecmp name name' := by
  have hne : deInum (dirent inum name') ≠ 0 := by
    rw [deInum_dirent hinum]
    exact hpos.ne'
  simp [hit, hne, namecmp_deName]

/-- A free entry, or one behind the last, is given to a name. -/
theorem find_put {k' : ℕ} (hj : j ≤ k) (hk : k' = max k (j + 1))
    (hfree : j < k → deInum (ent j) = 0)
    (hent : ∀ i < k', ent' i = if i = j then de else ent i) :
    (hit name de = false → find ent' k' name = find ent k name) ∧
    (hit name de = true → find ent k name = none → find ent' k' name = some (deInum de,
      DIRENT * j)) := by
  have hself : ent' j = de := by rw [hent j (by omega), if_pos rfl]
  have hother : ∀ i < k', i ≠ j → ent' i = ent i := fun i hi hij => by rw [hent i hi, if_neg hij]
  refine ⟨fun hno => find_congr (fun i => ?_) fun i hi hh => ?_, fun hyes hnone => ?_⟩
  · obtain rfl | hij := eq_or_ne i j
    · rw [hself, hno]
      refine ⟨fun hc => ?_, fun hc => absurd hc.2 (by decide)⟩
      rw [hit_zero (hfree hc.1)] at hc
      exact absurd hc.2 (by decide)
    · constructor
      · exact fun hc => ⟨by omega, by rw [hother i (by omega) hij]; exact hc.2⟩
      · exact fun hc => ⟨by omega, by rw [← hother i hc.1 hij]; exact hc.2⟩
  · refine hother i (by omega) fun hij => ?_
    subst hij
    rw [hit_zero (hfree hi)] at hh
    cases hh
  · refine find_eq_some.mpr ⟨j, by omega, by rwa [hself], fun i hi => ?_, by rw [hself]⟩
    rw [hother i (by omega) (by omega)]
    exact find_eq_none.mp hnone i (by omega)

/-- The entry of a name is freed, and there is no other. -/
theorem find_clear (hj : j < k) (hj' : hit name (ent j) = true)
    (hone : ∀ i < k, hit name (ent i) = true → i = j)
    (hde : deInum de = 0) (hent : ∀ i < k, ent' i = if i = j then de else ent i) (name' : Name) :
    find ent' k name' = if namecmp name name' = true then none else find ent k name' := by
  have hself : ent' j = de := by rw [hent j hj, if_pos rfl]
  have hother : ∀ i < k, i ≠ j → ent' i = ent i := fun i hi hij => by rw [hent i hi, if_neg hij]
  have hj' : deInum (ent j) ≠ 0 ∧ namecmp name (deName (ent j)) = true := by simpa [hit] using hj'
  split_ifs with hsame
  · refine find_eq_none.mpr fun i hi => ?_
    by_cases hij : i = j
    · rw [hij, hself, hit_zero hde]
    · rw [hother i hi hij]
      by_contra hc
      rw [Bool.not_eq_false, show hit name' (ent i) = hit name (ent i) by
        unfold hit; rw [namecmp_congr hsame]] at hc
      exact hij (hone i hi hc)
  · -- the entry was not one for this name
    have hno : hit name' (ent j) = false := by
      by_contra hc
      have hc : deInum (ent j) ≠ 0 ∧ namecmp name' (deName (ent j)) = true := by
        simpa [hit] using hc
      exact hsame (namecmp_of_common hj'.2 hc.2)
    refine find_congr (fun i => ?_) fun i hi hh => hother i hi fun hij => ?_
    · by_cases hij : i = j
      · rw [hij, hself, hno, hit_zero hde]
      · exact and_congr_right fun hi => by rw [hother i hi hij]
    · rw [hij, hno] at hh
      cases hh

/-! ### Searching a directory -/

/-- Entry `j` of a directory. -/
def State.dirent (s : State) (e : Fin NINODE) (j : ℕ) : List UInt8 :=
  (List.range DIRENT).map fun i => s.byte e (DIRENT * j + i)

/-- What `dirlookup` finds in a directory: an inode number, and the offset of the entry. -/
def State.lookup (s : State) (e : Fin NINODE) (name : Name) : Option (ℕ × ℕ) :=
  find (s.dirent e) ((s.inode e).size / DIRENT) name

theorem lookup_same (h : namecmp name name' = true) : s.lookup e name = s.lookup e name' := by
  simp only [State.lookup, find, hit, namecmp_congr h]

/-- A directory in memory without holes, of whole entries. -/
structure Readable (dp : Fin NINODE) (s : State) : Prop where
  type : (s.inode dp).type = .T_DIR
  size : (s.inode dp).size % DIRENT = 0
  whole : Whole (s.inode dp).size (s.mapOf dp)

/-- One whose blocks are its own, and which somebody refers to. -/
structure IsDir (dp : Fin NINODE) (s : State) : Prop extends Readable dp s where
  ref : 0 < (s.inode dp).ref
  tidy : Tidy dp s

theorem State.length_dirent : (s.dirent e j).length = DIRENT := by
  simp [State.dirent]

/-- A directory in memory, of whole entries, starts with certain bytes. -/
structure StartsWith (dp : Fin NINODE) (s : State) (c : List UInt8) : Prop where
  type : (s.inode dp).type = .T_DIR
  size : (s.inode dp).size % DIRENT = 0
  holds : Holds s.block (s.inode dp).toDinode c
  le : c.length ≤ (s.inode dp).size
  lt : c.length < 2 ^ 32

theorem Readable.starts (h : Readable dp s) : StartsWith dp s (s.contents dp) := by
  have hmax : (s.inode dp).size ≤ 268 * 1024 := h.whole.1
  refine ⟨h.type, h.size, h.whole.holds, ?_, ?_⟩ <;> rw [State.contents, List.length_map,
    List.length_range]
  omega

variable {c : List UInt8}

theorem StartsWith.dirent (h : StartsWith dp s c) (hj : DIRENT * j + DIRENT ≤ c.length) :
    (c.drop (DIRENT * j)).take DIRENT = s.dirent dp j := by
  refine List.ext_getElem? fun i => ?_
  by_cases hi : i < DIRENT
  · have hlt : DIRENT * j + i < c.length := by omega
    have hbyte : s.byte dp (DIRENT * j + i) = c.getD (DIRENT * j + i) 0 := h.holds.bytes _ hlt
    simp [State.dirent, hi, hbyte, hlt]
  · simp [State.dirent, hi]

theorem ends_readi_ent {Q : Option (List UInt8) → State → Prop} (h : StartsWith dp s c)
    (hj : DIRENT * j + DIRENT ≤ c.length) (hQ : Q (some (s.dirent dp j)) s) :
    Ends allow t (readi dp (fun _ => true) (DIRENT * j) DIRENT) s Q := by
  refine (ends_readi h.holds h.le hj h.lt fun _ _ => rfl).mono fun r s' hr => ?_
  rwa [hr.1, hr.2, h.dirent hj]

theorem entry_le_length (hj : j < (s.inode dp).size / DIRENT) :
    DIRENT * j + DIRENT ≤ (s.contents dp).length := by
  have hj : j < (s.inode dp).size / 16 := hj
  rw [State.contents, List.length_map, List.length_range]
  show 16 * j + 16 ≤ _
  omega

theorem direntCount_eq (h : n % DIRENT = 0) : direntCount n = n / DIRENT := by
  have h : n % 16 = 0 := h
  show (n + 16 - 1) / 16 = n / 16
  omega

variable {Q : Option (Fin NINODE × ℕ) → State → Prop}

section

variable (h : StartsWith dp s c)
  (hread : ∀ j < (s.inode dp).size / DIRENT, (∀ i < j, hit name (s.dirent dp i) = false) →
    DIRENT * j + DIRENT ≤ c.length)
  (hnone : s.lookup dp name = none → Q none s)
  (hsome : ∀ inum off, s.lookup dp name = some (inum, off) →
    Ends allow t (do let ip ← iget (s.inode dp).dev inum; pure (some (ip, off))) s Q)

include h hread hnone hsome

/-- The loop of `dirlookup`; the induction is on the entries that are left. -/
theorem ends_lookupFrom (k : ℕ) :
    ∀ j, j + k = (s.inode dp).size / DIRENT → (∀ i < j, hit name (s.dirent dp i) = false) →
    Ends allow t (lookupFrom dp (s.inode dp).dev name k (DIRENT * j)) s Q := by
  induction k with
  | zero =>
    intro j hj hno
    refine hnone (find_eq_none.mpr fun i hi => hno i ?_)
    rwa [← hj, Nat.add_zero] at hi
  | succ k ih =>
    intro j hj hno
    rw [lookupFrom]
    refine Ends.bind (R := fun r s' => r = some (s.dirent dp j) ∧ s' = s)
      (ends_readi_ent h (hread j (by omega) hno) ⟨rfl, rfl⟩) fun r s' hr => ?_
    rw [hr.1, hr.2]
    have hnext : hit name (s.dirent dp j) = false →
        Ends allow t (lookupFrom dp (s.inode dp).dev name k (DIRENT * j + DIRENT)) s Q :=
          fun hmiss => by
      rw [← Nat.mul_succ]
      refine ih (j + 1) (by omega) fun i hi => ?_
      rcases Nat.lt_succ_iff_lt_or_eq.mp hi with hi | rfl
      · exact hno i hi
      · exact hmiss
    dsimp only
    rw [if_neg (by rw [State.length_dirent]; exact fun hc => hc rfl)]
    split_ifs with h0 hcmp
    · exact hnext (hit_zero h0)
    · have hhit : hit name (s.dirent dp j) = true := by simp [hit, h0, hcmp]
      exact hsome _ _ (find_eq_some.mpr ⟨j, by omega, hhit, hno, rfl⟩)
    · exact hnext (by simp [hit, hcmp])

/-- **`dirlookup` finds what there is to find**, if it comes that far. -/
theorem ends_dirlookup : Ends allow t (dirlookup dp name) s Q := by
  unfold dirlookup getInode
  rw [ends_look_bind, if_neg (by rw [h.type]; exact fun hc => hc rfl), direntCount_eq h.size]
  exact ends_lookupFrom h hread hnone hsome _ 0 (Nat.zero_add _) fun i hi =>
    absurd hi (Nat.not_lt_zero i)

end

/-- What is found is among the bytes that a directory starts with; there may be holes behind. -/
theorem ends_dirlookup_found (h : StartsWith dp s c) (hfound : s.lookup dp name = some (inum, off))
    (hoff : off + DIRENT ≤ c.length)
    (hQ : Ends allow t (do let ip ← iget (s.inode dp).dev inum; pure (some (ip, off))) s Q) :
    Ends allow t (dirlookup dp name) s Q := by
  obtain ⟨j, -, hhit, -, heq⟩ := find_eq_some.mp hfound
  refine ends_dirlookup h (fun i _ hno => ?_) (fun hnone => ?_) fun inum' off' h' => ?_
  · have hle : i ≤ j := by
      by_contra hc
      rw [hno j (not_le.mp hc)] at hhit
      cases hhit
    have hj : off = 16 * j := (Prod.mk.inj heq).2
    have hoff : off + 16 ≤ c.length := hoff
    show 16 * i + 16 ≤ c.length
    omega
  · rw [hfound] at hnone
    cases hnone
  · rw [hfound] at h'
    cases h'
    exact hQ

/-- The loop of `dirlink`: a free entry, or the end. -/
theorem ends_emptyFrom (h : Readable dp s) (k : ℕ) : ∀ j, j + k = (s.inode dp).size / DIRENT →
    Ends allow t (emptyFrom dp k (DIRENT * j)) s fun off s' => s' = s ∧
      ∃ j ≤ (s.inode dp).size / DIRENT,
      off = DIRENT * j ∧ (j < (s.inode dp).size / DIRENT → deInum (s.dirent dp j) = 0) := by
  induction k with
  | zero => exact fun j hj => ⟨rfl, j, by omega, rfl, fun hc => by omega⟩
  | succ k ih =>
    intro j hj
    rw [emptyFrom]
    refine Ends.bind (R := fun r s' => r = some (s.dirent dp j) ∧ s' = s)
      (ends_readi_ent h.starts (entry_le_length (by omega)) ⟨rfl, rfl⟩) fun r s' hr => ?_
    rw [hr.1, hr.2]
    dsimp only
    rw [if_neg (by rw [State.length_dirent]; exact fun hc => hc rfl)]
    split_ifs with h0
    · exact ⟨rfl, j, by omega, rfl, fun _ => h0⟩
    · rw [← Nat.mul_succ]
      exact ih (j + 1) (by omega)

/-! ### The inode of an entry -/

theorem lookup_congr (hin : s'.inode dp = s.inode dp) (hblk : s'.block = s.block) :
    s'.lookup dp = s.lookup dp := by
  unfold State.lookup State.dirent State.byte State.mapOf
  rw [hin, hblk]

theorem IsDir.congr (h : IsDir dp s) (hin : s'.inode dp = s.inode dp)
    (hdisk : s'.toDisk = s.toDisk) :
    IsDir dp s' := by
  have hmap : s'.mapOf dp = s.mapOf dp := by
    unfold State.mapOf
    rw [hin, hdisk]
  have ht := h.tidy
  refine ⟨⟨by rw [hin]; exact h.type, by rw [hin]; exact h.size, by rw [hin, hmap]; exact h.whole⟩,
    by rw [hin]; exact h.ref, ?_, ?_, ?_, ?_⟩
  · rw [hdisk]
    exact ht.small
  · rw [hdisk]
    exact ht.boot
  · rw [hmap, hdisk]
    exact ht.used
  · rw [hmap]
    exact ht.one

/-- Getting an inode and dropping it again leaves every entry that is in use as it was. -/
theorem ends_iget_iput {dev : ℕ} {Q : Unit → State → Prop}
    (hfull : s.empty? = none → allow "iget: no inodes")
    (hQ : ∀ s', s'.toDisk = s.toDisk → (∀ e, 0 < (s.inode e).ref → s'.inode e = s.inode e) →
      Q () s') :
    Ends allow t (iget dev inum) s fun ip s' => Ends allow t (iput ip) s' Q := by
  refine (ends_iget_cases (Q := fun e s1 => s1.toDisk = s.toDisk ∧
    ¬ ((s1.inode e).ref = 1 ∧ (s1.inode e).valid = true ∧ (s1.inode e).nlink = 0) ∧
    (∀ e', e' ≠ e → s1.inode e' = s.inode e') ∧
    (0 < (s.inode e).ref → { s1.inode e with ref := (s1.inode e).ref - 1 } = s.inode e))
    hfull (fun e href _ _ => ⟨rfl, ?_, fun e' he => s.setInode_of_ne _ he, fun _ => ?_⟩)
    fun e href _ => ⟨rfl, ?_, fun e' he => s.setInode_of_ne _ he, fun hc => ?_⟩).mono
      fun e s1 hs1 => ?_
  · rw [State.setInode_self]
    dsimp only
    omega
  · rw [State.setInode_self]
    rfl
  · rw [State.setInode_self]
    exact fun hc => nomatch hc.2.1
  · omega
  · obtain ⟨hdisk, hnot, hoth, hback⟩ := hs1
    refine (ends_iput_drop hnot).mono fun _ s' hs' => hQ s' (by rw [hs', ← hdisk]; rfl)
      fun e' he' => ?_
    rw [hs']
    obtain rfl | hee := eq_or_ne e' e
    · rw [State.setInode_self]
      exact hback he'
    · rw [State.setInode_of_ne _ _ hee, hoth e' hee]

/-! ### Writing an entry -/

theorem dirent_congr (h : ∀ i < DIRENT, s'.byte dp (DIRENT * j + i) = s.byte dp (DIRENT * j + i)) :
    s'.dirent dp j = s.dirent dp j :=
  List.map_congr_left fun i hi => h i (List.mem_range.mp hi)

/-- The entry at `j`, which may be the first behind the end, has been written. -/
structure Stored (dp : Fin NINODE) (j : ℕ) (de : List UInt8) (s s' : State) : Prop where
  dir : IsDir dp s'
  count : (s'.inode dp).size / DIRENT = max ((s.inode dp).size / DIRENT) (j + 1)
  ent : ∀ i < (s'.inode dp).size / DIRENT, s'.dirent dp i = if i = j then de else s.dirent dp i

variable {src : ℕ → Option UInt8}

theorem Transfer.entry {tot : ℕ} (h : Transfer dp src (DIRENT * j) DIRENT 0 tot s s') :
    tot = 0 ∨ tot = DIRENT := by
  have hle : tot ≤ 16 := h.le
  have hedge : 0 < tot → tot < 16 → (16 * j + tot) % 1024 = 0 := h.edge
  show tot = 0 ∨ tot = 16
  by_contra hc
  have := hedge (by omega) (by omega)
  omega

theorem Transfer.isDir {tot : ℕ} (h : IsDir dp s) (hj : j ≤ (s.inode dp).size / DIRENT)
    (hmax : DIRENT * j + DIRENT ≤ MAXFILE * BSIZE)
    (htr : Transfer dp src (DIRENT * j) DIRENT 0 tot s s') :
    IsDir dp (s'.resized dp (max (s.inode dp).size (DIRENT * j + tot))) := by
  have hsize : (s.inode dp).size % 16 = 0 := h.size
  have hj : j ≤ (s.inode dp).size / 16 := hj
  have hself := htr.edits.self
  have ht := htr.edits.tidy
  refine ⟨⟨?_, ?_, ?_⟩, ?_, ht.small, ht.boot, ?_, ?_⟩
  · rw [State.resized_inode, hself]
    exact h.type
  · rw [State.resized_inode]
    show max (s.inode dp).size (16 * j + tot) % 16 = 0
    rcases htr.entry with rfl | rfl
    · omega
    · show max (s.inode dp).size (16 * j + 16) % 16 = 0
      omega
  · rw [State.resized_inode, State.resized_mapOf]
    refine htr.whole h.whole ?_ hmax
    show 16 * j ≤ _
    omega
  · rw [State.resized_inode, hself]
    exact h.ref
  · rw [State.resized_mapOf]
    exact ht.used
  · rw [State.resized_mapOf]
    exact ht.one

theorem Transfer.other {tot i : ℕ} (h : IsDir dp s)
    (htr : Transfer dp src (DIRENT * j) DIRENT 0 tot s s') (hi : i < (s.inode dp).size / DIRENT)
    (hij : i ≠ j) :
    s'.dirent dp i = s.dirent dp i := by
  have hi : i < (s.inode dp).size / 16 := hi
  have hle : tot ≤ 16 := htr.le
  have hfetch : (fetch src tot (chunk (DIRENT * j) DIRENT tot)).length ≤ 16 - tot :=
    (length_fetch_le _).trans (Nat.min_le_left _ _)
  refine dirent_congr fun a ha => htr.edits.bytes _ (h.whole.2 _ (lt_nblocks ?_)) ?_
  · have ha : a < 16 := ha
    show 16 * i + a < _
    omega
  · have ha : a < 16 := ha
    show 16 * i + a < 16 * j + 0 ∨ 16 * j + tot + _ ≤ 16 * i + a
    omega

theorem lookup_of_dirents (hsize : (s'.inode dp).size = (s.inode dp).size)
    (hent : ∀ i < (s.inode dp).size / DIRENT, s'.dirent dp i = s.dirent dp i) :
    s'.lookup dp = s.lookup dp := by
  funext name
  unfold State.lookup
  rw [hsize]
  exact find_congr (fun i => and_congr_right fun hi => by rw [hent i hi]) fun i hi _ => hent i hi

/-- **An entry is written, or nothing changes**; the second only where the directory would have
had to grow. -/
theorem ends_writei_entry (h : IsDir dp s) (hde : de.length = DIRENT)
    (hj : j ≤ (s.inode dp).size / DIRENT) :
    Ends allow t (writei dp (bytes de) (DIRENT * j) DIRENT) s fun r s' =>
      (r = DIRENT ∧ Stored dp j de s s') ∨
      (r ≠ DIRENT ∧ j = (s.inode dp).size / DIRENT ∧ IsDir dp s' ∧ s'.lookup dp = s.lookup dp) := by
  have hsize : (s.inode dp).size % 16 = 0 := h.size
  have hlim : (s.inode dp).size ≤ 268 * 1024 := h.whole.1
  have hj16 : j ≤ (s.inode dp).size / 16 := hj
  by_cases hmax : DIRENT * j + DIRENT ≤ MAXFILE * BSIZE
  · have hoff : DIRENT * j ≤ (s.inode dp).size := by
      show 16 * j ≤ _
      omega
    refine (ends_writei h.tidy hoff hmax).mono ?_
    rintro r s' ⟨tot, s1, rfl, htr, rfl⟩
    have hdir := htr.isDir h hj hmax
    rcases htr.entry with rfl | rfl
    · right
      -- the entry had no block, so it is behind the end
      have hnone : s1.mapOf dp (.data (DIRENT * j / BSIZE)) = 0 := by
        rcases htr.stop with hc | ⟨-, hzero, -⟩ | ⟨-, -, hshort, -⟩
        · cases hc
        · exact hzero
        · refine absurd (length_fetch _ fun i hi => ?_) hshort.ne
          have hi' : i < DIRENT := lt_of_lt_of_le hi (Nat.min_le_left _ _)
          simp [bytes, hde, hi']
      have hlast : j = (s.inode dp).size / 16 := by
        by_contra hne
        have hblk := h.whole.2 (DIRENT * j / BSIZE) (lt_nblocks (by show 16 * j < _; omega))
        rw [htr.edits.map _ hblk] at hnone
        exact hblk hnone
      have hmaxeq : max (s.inode dp).size (DIRENT * j + 0) = (s.inode dp).size := by
        show max _ (16 * j + 0) = _
        omega
      refine ⟨by decide, hlast, hdir, lookup_of_dirents ?_ fun i hi => ?_⟩
      · rw [State.resized_inode, hmaxeq]
      · rw [dirent_congr fun a _ => s1.resized_byte dp _ _]
        exact htr.other h hi (by rw [hlast]; exact hi.ne)
    · -- the whole entry is stored
      left
      have hcount : max (s.inode dp).size (16 * j + 16) / 16 = max ((s.inode dp).size / 16)
        (j + 1) := by omega
      refine ⟨rfl, hdir, by rw [State.resized_inode]; exact hcount, fun i hi => ?_⟩
      rw [State.resized_inode] at hi
      have hi : i < max (s.inode dp).size (16 * j + 16) / 16 := hi
      rw [dirent_congr fun a _ => s1.resized_byte dp _ _]
      split_ifs with hij
      · subst hij
        refine List.ext_getElem (by rw [State.length_dirent, hde]) fun a ha hb => ?_
        have hstored := (htr.stored a (Nat.zero_le a) (by rwa [State.length_dirent] at ha)).2
        rw [bytes, List.getElem?_eq_getElem hb, Option.some.injEq] at hstored
        simp [State.dirent, hstored]
      · refine htr.other h ?_ hij
        show i < _ / 16
        omega
  · refine (ends_writei_reject fun hc => hmax hc.2).mono fun r s' hr => Or.inr ?_
    rw [hr.1, hr.2]
    refine ⟨by decide, ?_, h, rfl⟩
    have hmax : ¬ 16 * j + 16 ≤ 268 * 1024 := hmax
    show j = _ / 16
    omega

/-! ### The operations of a map -/

theorem ends_dirlookup_lookup (h : IsDir dp s) (hfull : s.empty? = none → allow "iget: no inodes")
    (name : Name) :
    Ends allow t (dirlookup dp name) s fun o s' => s'.toDisk = s.toDisk ∧
      o.map (fun r => ((s'.inode r.1).inum, r.2)) = s.lookup dp name := by
  refine ends_dirlookup h.starts (fun _ hj _ => entry_le_length hj)
    (fun hnone => ⟨rfl, hnone.symm⟩) fun inum off hfound => ?_
  refine Ends.bind (R := fun e s' => s'.toDisk = s.toDisk ∧ (s'.inode e).inum = inum)
    (ends_iget_cases hfull (fun e _ _ he => ⟨rfl, ?_⟩) fun e _ _ => ⟨rfl, ?_⟩) fun e s' hs' => ?_
  · rwa [State.setInode_self]
  · rw [State.setInode_self]
  · refine ⟨hs'.1, ?_⟩
    rw [hfound, ← hs'.2]
    rfl

theorem ends_dirlink_lookup (h : IsDir dp s) (hfull : s.empty? = none → allow "iget: no inodes")
    (hpos : 0 < inum) (hinum : inum < 65536) :
    Ends allow t (dirlink dp name inum) s fun ok s' => IsDir dp s' ∧
      (ok = true → s.lookup dp name = none ∧ ∀ name',
        (namecmp name name' = true → ∃ off, s'.lookup dp name' = some (inum, off)) ∧
        (namecmp name name' = false → s'.lookup dp name' = s.lookup dp name')) ∧
      (ok = false → s'.lookup dp = s.lookup dp) := by
  unfold dirlink
  refine Ends.bind ?_ fun _ _ hr => hr
  refine ends_dirlookup h.starts (fun _ hj _ => entry_le_length hj) (fun hnone => ?_)
    fun i off _ => ?_
  · unfold getInode
    rw [ends_look_bind, direntCount_eq h.size]
    refine (ends_emptyFrom h.toReadable _ 0 (Nat.zero_add _)).bind ?_
    rintro off s1 ⟨rfl, j, hj, rfl, hfree⟩
    refine (ends_writei_entry h length_dirent hj).bind fun r s' hr => ?_
    rcases hr with ⟨rfl, hst⟩ | ⟨hne, -, hdir, hsame⟩
    -- a lookup sees the new entry only if it looks for that name
    · have hput (name') : (hit name' (dirent inum name) = false →
        s'.lookup dp name' = s1.lookup dp name') ∧
          (hit name' (dirent inum name) = true → s1.lookup dp name' = none →
            s'.lookup dp name' = some (deInum (dirent inum name), DIRENT * j)) :=
        find_put hj hst.count hfree hst.ent
      refine ⟨hst.dir, fun _ => ⟨hnone, fun name' => ⟨fun hn => ?_, fun hn => ?_⟩⟩,
        fun hc => nomatch hc⟩
      · refine ⟨_, ((hput name').2 ?_ ?_).trans (by rw [deInum_dirent hinum])⟩
        · rw [hit_dirent hpos hinum, namecmp_comm, hn]
        · rwa [← lookup_same hn]
      · refine (hput name').1 ?_
        rw [hit_dirent hpos hinum, namecmp_comm, hn]
    · rw [decide_eq_false hne]
      exact ⟨hdir, fun hc => (nomatch hc), fun _ => hsame⟩
  · refine (ends_iget_iput hfull fun s' hdisk hin => ?_).bind fun ip s1 hip =>
      hip.bind fun _ s' hs' => hs'
    have hdp := hin dp h.ref
    exact ⟨h.congr hdp hdisk, fun hc => (nomatch hc), fun _ => lookup_congr hdp (by rw [hdisk])⟩

/-- The entry that `dirlookup` has found is cleared. -/
theorem ends_clear (h : IsDir dp s) (hfound : s.lookup dp name = some (inum, off))
    (hone : ∀ j < (s.inode dp).size / DIRENT, hit name (s.dirent dp j) = true → DIRENT * j = off) :
    Ends allow t (writei dp (bytes (List.replicate DIRENT 0)) off DIRENT) s fun r s' => r = DIRENT ∧
      IsDir dp s' ∧
      ∀ name', s'.lookup dp name' = if namecmp name name' = true then none
        else s.lookup dp name' := by
  obtain ⟨j, hj, hhit, -, hval⟩ := find_eq_some.mp hfound
  obtain ⟨-, rfl⟩ := Prod.mk.inj hval
  refine (ends_writei_entry h List.length_replicate hj.le).mono fun r s' hr => ?_
  rcases hr with ⟨rfl, hst⟩ | ⟨-, hlast, -⟩
  · have hcount : (s'.inode dp).size / DIRENT = (s.inode dp).size / DIRENT := by
      rw [hst.count, max_eq_left hj]
    have hent := hst.ent
    refine ⟨rfl, hst.dir, fun name' => ?_⟩
    unfold State.lookup
    rw [hcount] at hent ⊢
    exact find_clear hj hhit (fun i hi hi' => Nat.eq_of_mul_eq_mul_left (by decide) (hone i hi hi'))
      rfl hent name'
  · exact absurd hlast hj.ne

/-- **A directory is a finite map on names.**  `dirlookup` finds what the entries say; `dirlink`
returns 0 only if the name is not there, and then adds it and changes no other name; when it fails
no name changes, and it can only panic if the table of inodes is full; and clearing the entry that
`dirlookup` finds removes that name and no other, if it is there once. -/
theorem directory_is_map (t : Fin NPROC) (s : State) (dp : Fin NINODE) (h : IsDir dp s) :
    (∀ name, Ends (fun msg => msg = "iget: no inodes" ∧ s.empty? = none) t (dirlookup dp name) s
      fun o s' => s'.toDisk = s.toDisk ∧
      o.map (fun r => ((s'.inode r.1).inum, r.2)) = s.lookup dp name) ∧
    (∀ name inum, 0 < inum → inum < 65536 →
      Ends (fun msg => msg = "iget: no inodes" ∧ s.empty? = none) t (dirlink dp name inum) s
        fun ok s' => IsDir dp s' ∧
        (ok = true → s.lookup dp name = none ∧ ∀ name',
          (namecmp name name' = true → ∃ off, s'.lookup dp name' = some (inum, off)) ∧
          (namecmp name name' = false → s'.lookup dp name' = s.lookup dp name')) ∧
        (ok = false → s'.lookup dp = s.lookup dp)) ∧
    ∀ name inum off, s.lookup dp name = some (inum, off) →
      (∀ j < (s.inode dp).size / DIRENT, hit name (s.dirent dp j) = true → DIRENT * j = off) →
      Ends (fun _ => False) t (writei dp (bytes (List.replicate DIRENT 0)) off DIRENT) s fun r s' =>
        r = DIRENT ∧ IsDir dp s' ∧
        ∀ name', s'.lookup dp name' = if namecmp name name' = true then none
          else s.lookup dp name' :=
  ⟨ends_dirlookup_lookup h fun hfull => ⟨rfl, hfull⟩,
    fun _ _ hpos hinum => ends_dirlink_lookup h (fun hfull => ⟨rfl, hfull⟩) hpos hinum,
    fun _ _ _ hfound hone => ends_clear h hfound hone⟩

/-- A directory of two entries, which nothing else refers to. -/
def twoEntries (de de' : List UInt8) : State :=
  { smallFile with
    block := fun b o => if b = 8 then (de ++ de').getD o 0 else 0
    inode := fun e =>
      ⟨⟨.T_DIR, 0, 0, 1, 32, Function.update (fun _ => 0) 0 8⟩, 1, 1, if e = 0 then 1 else 0,
        none, true⟩ }

theorem twoEntries_isDir (de de' : List UInt8) : IsDir 0 (twoEntries de de') := by
  have hzero : (Dinode.mk .T_DIR 0 0 1 32 fun _ => 0).map (twoEntries de de').block = fun _ => 0 :=
    Dinode.map_eq_zero fun _ _ => rfl
  have hmap : (twoEntries de de').mapOf 0 = smallFile.mapOf 0 := by
    rw [smallFile_map, ← hzero]
    exact Dinode.map_setDirect rfl (by decide)
  have ht := smallFile_tidy
  refine ⟨⟨rfl, by show 32 % DIRENT = 0; decide, ?_⟩, Nat.one_pos, ht.small, ht.boot, ?_, ?_⟩
  · rw [hmap]
    refine ⟨by show 32 ≤ MAXFILE * BSIZE; decide, fun bn hbn => smallFile_whole.2 bn ?_⟩
    have hbn : bn < nblocks 32 := hbn
    rwa [show nblocks 32 = nblocks 3 by decide] at hbn
  · rw [hmap]
    exact ht.used
  · rw [hmap]
    exact ht.one

/-- Of two names one is removed. -/
theorem directory_is_map_two : ∃ s', (writei 0 (bytes (List.replicate DIRENT 0)) 0 DIRENT).run 0
      (twoEntries (dirent 2 [97]) (dirent 3 [98])) = .ok DIRENT s' ∧
    s'.lookup 0 [97] = none ∧ s'.lookup 0 [98] = some (3, 16) := by
  obtain ⟨-, -, hclear⟩ := directory_is_map 0 _ 0 (twoEntries_isDir (dirent 2 [97]) (dirent 3 [98]))
  obtain ⟨r, s', hrun, rfl, -, hlook⟩ := (hclear [97] 2 0 (by decide) (by decide)).exists_run
  refine ⟨s', hrun, ?_, ?_⟩
  · rw [hlook]
    rfl
  · rw [hlook]
    decide

/-- The name `a` is there twice.  When the entry that `dirlookup` finds is cleared it finds the
other. -/
theorem name_found_again : IsDir 0 (twoEntries (dirent 2 [97]) (dirent 3 [97])) ∧
    (twoEntries (dirent 2 [97]) (dirent 3 [97])).lookup 0 [97] = some (2, 0) ∧
    ∃ s', (writei 0 (bytes (List.replicate DIRENT 0)) 0 DIRENT).run 0
      (twoEntries (dirent 2 [97]) (dirent 3 [97])) =
      .ok DIRENT s' ∧ s'.lookup 0 [97] = some (3, 16) ∧
      ∃ e s'', (dirlookup 0 [97]).run 0 s' = .ok (some (e, 16)) s'' ∧ (s''.inode e).inum = 3 := by
  exact ⟨twoEntries_isDir _ _, by decide, _, rfl, by decide, 1, _, rfl, by decide⟩

end Xv6.Fs
