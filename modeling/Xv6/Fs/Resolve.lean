import Mathlib.Data.Multiset.Count
import Xv6.Fs.Directory

/-!
# Path resolution

`skipelem` cuts a path into its elements, and `namex` follows them from the root or from the working
directory.  It holds a reference to one inode at a time, and to two while it goes from one to the
next, so it needs two free entries in the table of inodes; `iget` panics if it does not find one.

On disk a path is a fold: each element is looked up in the directory that the elements before it
lead to.  `nameiparent` stops before the last element.

## Main definitions

* `Disk.child`, `Disk.resolve` — what the directories on disk say.
* `Consistent` — directories are readable, and their entries lead to inodes that are not freed.
* `Walk` — the references that a walk holds, and what it leaves as it was.

## Main results

* `path_resolution` — **`namei` and `nameiparent` are folds over the elements of the path.**
* `namei_table_full` — the table of inodes is full.
-/

namespace Xv6.Fs

open Conc

variable {allow : String → Prop} {t : Fin NPROC} {s s1 : State} {e : Fin NINODE} {i : ℕ}
  {lk lk' : Option (Fin NINODE)} {held held' : Multiset (Fin NINODE)} {D : Disk}

/-! ### Directories on disk -/

/-- The inode that a directory has for a name. -/
def Disk.child (D : Disk) (i : ℕ) (name : Name) : Option ℕ :=
  (find (fun j => (List.range DIRENT).map fun o =>
      D.block ((D.dinode i).map D.block (.data ((DIRENT * j + o) / BSIZE)))
        ((DIRENT * j + o) % BSIZE))
    ((D.dinode i).size / DIRENT) name).map Prod.fst

/-- One element of a path is followed. -/
def Disk.follow (D : Disk) (i : ℕ) (name : Name) : Option ℕ :=
  if (D.dinode i).type = .T_DIR then D.child i name else none

/-- Where the elements of a path lead. -/
def Disk.resolve (D : Disk) (i : ℕ) (names : List Name) : Option ℕ := names.foldlM D.follow i

/-- The directory that all elements but the last lead to, and the last. -/
def Disk.parent (D : Disk) (i : ℕ) (names : List Name) : Option (ℕ × Name) := do
  let name ← names.getLast?
  let j ← D.resolve i names.dropLast
  if (D.dinode j).type = .T_DIR then some (j, name) else none

/-- What the loop of `namex` returns. -/
def Disk.namexFrom (D : Disk) (nameiparent : Bool) : ℕ → List Name → Option (ℕ × Name)
  | i, [] => if nameiparent then none else some (i, [])
  | i, name :: path =>
      if (D.dinode i).type ≠ .T_DIR then none
      else if nameiparent = true ∧ path = [] then some (i, name)
      else (D.child i name).bind fun j => D.namexFrom nameiparent j path

theorem Disk.resolve_cons (i : ℕ) (name : Name) (names : List Name) :
    D.resolve i (name :: names) = (D.follow i name).bind (D.resolve · names) := rfl

theorem Disk.namexFrom_false (names : List Name) :
    ∀ i, (D.namexFrom false i names).map Prod.fst = D.resolve i names := by
  induction names with
  | nil => exact fun i => rfl
  | cons name names ih =>
    intro i
    rw [Disk.resolve_cons, Disk.namexFrom, Disk.follow]
    by_cases hdir : (D.dinode i).type = .T_DIR
    · simp [hdir, Option.map_bind, ih]
    · simp [hdir]

theorem Disk.namexFrom_true (names : List Name) :
    ∀ i, D.namexFrom true i names = D.parent i names := by
  induction names with
  | nil => exact fun i => rfl
  | cons name names ih =>
    intro i
    rw [Disk.namexFrom]
    cases names with
    | nil =>
      by_cases hdir : (D.dinode i).type = .T_DIR <;> simp [Disk.parent, Disk.resolve, hdir]
    | cons name' names =>
      by_cases hdir : (D.dinode i).type = .T_DIR
      · cases hc : D.child i name with
        | none => simp [hc, hdir, Disk.parent, Disk.resolve_cons, Disk.follow]
        | some j => simp [hc, hdir, ih, Disk.parent, Disk.resolve_cons, Disk.follow]
      · simp [Disk.parent, Disk.resolve_cons, Disk.follow, hdir]

theorem Disk.resolve_eq_parent {names : List Name} (h : names ≠ []) :
    D.resolve i names = (D.parent i names).bind fun r => D.child r.1 r.2 := by
  obtain ⟨names, name, rfl⟩ := List.eq_nil_or_concat names |>.resolve_left h
  simp only [Disk.resolve, Disk.parent, List.concat_eq_append, List.foldlM_append,
    List.getLast?_append,
    List.dropLast_concat, List.foldlM_cons, List.foldlM_nil, List.getLast?_singleton,
    Option.some_or, Option.bind_eq_bind, Option.bind_some, bind_pure, Option.bind_assoc]
  congr 1
  funext j
  unfold Disk.follow
  split_ifs <;> rfl

/-! ### References -/

/-- An inode that is not free, and is not freed when a reference to it is dropped. -/
def State.Lives (s : State) (i : ℕ) : Prop :=
  (s.dinode i).type ≠ .zero ∧
    ((s.dinode i).nlink ≠ 0 ∨ ∃ e, 0 < (s.inode e).ref ∧ (s.inode e).inum = i)

/-- Nothing is locked, inodes in memory are as on disk, directories are readable and lead to inodes
that are in use. -/
structure Consistent (t : Fin NPROC) (s : State) : Prop extends Quiet s where
  dev : ∀ e, 0 < (s.inode e).ref → (s.inode e).dev = ROOTDEV
  table : ∀ e, 0 < (s.inode e).ref → (s.dinode (s.inode e).inum).type ≠ .zero
  root : s.Lives ROOTINO
  dir : ∀ i, (s.dinode i).type = .T_DIR → (s.dinode i).size % DIRENT = 0 ∧
    Whole (s.dinode i).size ((s.dinode i).map s.block)
  child : ∀ i name j, (s.dinode i).type = .T_DIR → s.child i name = some j → s.Lives j
  cwd : ∃ e, (s.proc t).cwd = some e ∧ 0 < (s.inode e).ref

/-- There are two free entries in the table of inodes. -/
def State.Roomy (s : State) : Prop := ∃ e1 e2, e1 ≠ e2 ∧ (s.inode e1).ref = 0 ∧ (s.inode e2).ref = 0

/-- From `s` on, references have been taken to the inodes `held`, and `lk` is locked. -/
structure Walk (t : Fin NPROC) (s : State) (lk : Option (Fin NINODE)) (held : Multiset (Fin NINODE))
    (s' : State) : Prop where
  disk : s'.toDisk = s.toDisk
  synced : Synced s'
  lock : ∀ e, (s'.inode e).lock = if lk = some e then some t else none
  dev : ∀ e ∈ held, (s'.inode e).dev = ROOTDEV
  ref : ∀ e, (s'.inode e).ref = (s.inode e).ref + held.count e
  same : ∀ e, 0 < (s.inode e).ref → (s'.inode e).dev = (s.inode e).dev ∧
    (s'.inode e).inum = (s.inode e).inum
  /-- An inode that has a new entry had none. -/
  fresh : ∀ e ∈ held, (s.inode e).ref = 0 → ∀ e', 0 < (s.inode e').ref →
    (s.inode e').dev = ROOTDEV →
    (s.inode e').inum ≠ (s'.inode e).inum

theorem Quiet.walk (h : Quiet s) : Walk t s none 0 s where
  disk := rfl
  synced := h.synced
  lock := h.lock
  dev _ he := absurd he (Multiset.notMem_zero _)
  ref e := by rw [Multiset.count_zero, Nat.add_zero]
  same _ _ := ⟨rfl, rfl⟩
  fresh _ he := absurd he (Multiset.notMem_zero _)

/-- One entry changes. -/
theorem Walk.set {ip : Inode} (h : Walk t s lk held s1)
    (hsync : 0 < ip.ref → ip.valid = true → ip.toDinode = s.dinode ip.inum)
    (hlock : ip.lock = if lk' = some e then some t else none)
    (hlk : ∀ e', e' ≠ e → (lk' = some e' ↔ lk = some e'))
    (hdev : e ∈ held' → ip.dev = ROOTDEV) (href : ip.ref = (s.inode e).ref + held'.count e)
    (hheld : ∀ e', e' ≠ e → held'.count e' = held.count e')
    (hsame : 0 < (s.inode e).ref → ip.dev = (s.inode e).dev ∧ ip.inum = (s.inode e).inum)
    (hfresh : e ∈ held' → (s.inode e).ref = 0 → ∀ e', 0 < (s.inode e').ref →
      (s.inode e').dev = ROOTDEV →
      (s.inode e').inum ≠ ip.inum) :
    Walk t s lk' held' (s1.setInode e ip) := by
  have hdin : s1.dinode = s.dinode := congrArg Disk.dinode h.disk
  have hmem (e') (he : e' ≠ e) : e' ∈ held' ↔ e' ∈ held := by
    rw [← Multiset.count_pos, hheld e' he, Multiset.count_pos]
  have hother (e') (he : e' ≠ e) : (s1.setInode e ip).inode e' = s1.inode e' :=
    State.setInode_of_ne _ _ he
  refine ⟨h.disk, h.synced.setInode (by rwa [hdin]), fun e' => ?_, fun e' => ?_, fun e' => ?_,
    fun e' => ?_, fun e' => ?_⟩ <;> by_cases he : e' = e
  all_goals first | (subst he; rw [State.setInode_self]) | rw [hother e' he]
  · exact hlock
  · rw [h.lock, if_congr (hlk e' he) rfl rfl]
  · exact hdev
  · rw [hmem e' he]
    exact h.dev e'
  · exact href
  · rw [h.ref, hheld e' he]
  · exact hsame
  · exact h.same e'
  · exact hfresh
  · rw [hmem e' he]
    exact h.fresh e'

theorem Walk.ref_pos (h : Walk t s lk held s1) (he : e ∈ held) : 0 < (s1.inode e).ref := by
  have := Multiset.count_pos.mpr he
  rw [h.ref]
  omega

theorem Walk.full (h : Walk t s lk held s1) (hcard : held.card ≤ 1) (hnone : s1.empty? = none) :
    ¬ s.Roomy := by
  have hall (e) (he : (s.inode e).ref = 0) : e ∈ held := by
    have hne : (s1.inode e).ref ≠ 0 := by
      simpa using List.find?_eq_none.mp hnone e (List.mem_finRange e)
    rw [h.ref, he] at hne
    exact Multiset.count_pos.mp (by omega)
  rintro ⟨e1, e2, hne, h1, h2⟩
  obtain ⟨rest, rfl⟩ := Multiset.exists_cons_of_mem (hall e1 h1)
  rw [Multiset.card_cons] at hcard
  have hmem := hall e2 h2
  rw [Multiset.card_eq_zero.mp (by omega : rest.card = 0), Multiset.mem_cons] at hmem
  exact hmem.elim (fun hc => hne hc.symm) (Multiset.notMem_zero _)

theorem Walk.iget (h : Walk t s lk held s1) (hcard : held.card ≤ 1)
    (hallow : ¬ s.Roomy → allow "iget: no inodes") :
    Ends allow t (iget ROOTDEV i) s1 fun e s2 => Walk t s lk (e ::ₘ held) s2 ∧
      (s2.inode e).inum = i ∧
      ∀ e' ∈ held, (s2.inode e').inum = (s1.inode e').inum := by
  have hdin : s1.dinode = s.dinode := congrArg Disk.dinode h.disk
  refine ends_iget_cases (fun hnone => hallow (h.full hcard hnone)) (fun e href hdev hnum => ⟨?_,
    ?_, fun e' he' => ?_⟩)
    fun e href hno => ⟨?_, ?_, fun e' he' => ?_⟩
  · -- the inode has an entry, which gets one more reference
    refine h.set ?_ (h.lock e) (fun _ _ => Iff.rfl) (fun _ => hdev) ?_
      (fun e' he' => Multiset.count_cons_of_ne he' held) (h.same e) ?_
    · rw [← hdin]
      exact fun _ => h.synced e href
    · show (s1.inode e).ref + 1 = _
      rw [h.ref, Multiset.count_cons_self, Nat.add_assoc]
    · intro _ hzero
      refine h.fresh e (Multiset.count_pos.mp ?_) hzero
      rw [h.ref, hzero] at href
      omega
  · rwa [State.setInode_self]
  · by_cases hee : e' = e
    · rw [hee, State.setInode_self]
    · rw [State.setInode_of_ne _ _ hee]
  · -- the entry is new; no other is in use for this inode
    have hzero : (s.inode e).ref = 0 ∧ held.count e = 0 := by
      have := h.ref e
      omega
    refine h.set (fun _ hv => nomatch hv) (h.lock e) (fun _ _ => Iff.rfl) (fun _ => rfl) ?_
      (fun e' he' => Multiset.count_cons_of_ne he' held) (fun hc => absurd hc (by omega))
        fun _ _ e' he' hd hc => ?_
    · rw [Multiset.count_cons_self, hzero.1, hzero.2]
    · have hpos : 0 < (s1.inode e').ref := by
        rw [h.ref]
        omega
      exact hno e' hpos ((h.same e' he').1.trans hd) ((h.same e' he').2.trans hc)
  · rw [State.setInode_self]
  · have hee : e' ≠ e := fun hc => by
      have := h.ref_pos he'
      rw [hc, href] at this
      exact absurd this (lt_irrefl 0)
    rw [State.setInode_of_ne _ _ hee]

/-- The inode of a reference is locked, and is as on disk then. -/
theorem Walk.ilock (h : Walk t s none held s1) (he : e ∈ held)
    (htype : (s.dinode (s1.inode e).inum).type ≠ .zero) :
    Ends allow t (ilock e) s1 fun _ s2 => Walk t s (some e) held s2 ∧
      (s2.inode e).toDinode = s.dinode (s1.inode e).inum ∧
      ∀ e', (s2.inode e').inum = (s1.inode e').inum := by
  have hdin : s1.dinode = s.dinode := congrArg Disk.dinode h.disk
  refine (ends_ilock (h.synced e (h.ref_pos he)) (h.lock e) (h.ref_pos he) (by rwa [hdin])).mono
    fun _ s2 hs2 => ?_
  rw [hdin] at hs2
  subst hs2
  refine ⟨h.set (fun _ _ => rfl) (if_pos rfl).symm (fun e' he' => ?_) (h.dev e) (h.ref e)
    (fun _ _ => rfl) (h.same e)
    (h.fresh e), by rw [State.setInode_self]; rfl, fun e' => ?_⟩
  · exact ⟨fun hc => absurd (Option.some.inj hc).symm he', nofun⟩
  · by_cases hee : e' = e
    · rw [hee, State.setInode_self]
      rfl
    · rw [State.setInode_of_ne _ _ hee]

/-- An inode that is not freed when a new reference to it is dropped. -/
def State.Kept (s : State) (i : ℕ) : Prop :=
  (s.dinode i).nlink ≠ 0 ∨ ∃ e, 0 < (s.inode e).ref ∧ (s.inode e).dev = ROOTDEV ∧
    (s.inode e).inum = i

theorem Consistent.kept (h : Consistent t s) (hlives : s.Lives i) : s.Kept i :=
  hlives.2.imp_right fun ⟨e, href, hnum⟩ => ⟨e, href, h.dev e href, hnum⟩

theorem Walk.keep (h : Walk t s lk (e ::ₘ held) s1) (hkept : s.Kept (s1.inode e).inum) :
    ¬ ((s1.inode e).ref = 1 ∧ (s1.inode e).valid = true ∧ (s1.inode e).nlink = 0) := by
  rintro ⟨hone, hvalid, hlink⟩
  have href := h.ref e
  rw [Multiset.count_cons_self] at href
  rcases hkept with hnlink | ⟨e', he', hdev, hnum⟩
  · have hdin : s1.dinode = s.dinode := congrArg Disk.dinode h.disk
    rw [← hdin, ← h.synced e (by omega) hvalid] at hnlink
    exact hnlink hlink
  · exact h.fresh e (Multiset.mem_cons_self e held) (by omega) e' he' hdev hnum

theorem Walk.drop {ip : Inode} (h : Walk t s lk (e ::ₘ held) s1) (hlk : ∀ e', lk = some e' → e' = e)
    (hip : ip = { s1.inode e with lock := none, ref := (s1.inode e).ref - 1 }) :
    Walk t s none held (s1.setInode e ip) := by
  have href := h.ref e
  rw [Multiset.count_cons_self] at href
  subst hip
  refine h.set (fun hpos => ?_) rfl (fun e' he' => ⟨nofun, fun hc => absurd (hlk e' hc) he'⟩)
    (fun _ => h.dev e (Multiset.mem_cons_self e held)) ?_
    (fun e' he' => (Multiset.count_cons_of_ne he' held).symm) (h.same e) fun hmem => ?_
  · have hdin : s1.dinode = s.dinode := congrArg Disk.dinode h.disk
    rw [← hdin]
    exact h.synced e (by omega)
  · show (s1.inode e).ref - 1 = _
    omega
  · exact h.fresh e (Multiset.mem_cons_of_mem hmem)

theorem Walk.iput (h : Walk t s none (e ::ₘ held) s1) (hkept : s.Kept (s1.inode e).inum) :
    Ends allow t (iput e) s1 fun _ s2 => Walk t s none held s2 := by
  refine (ends_iput_drop (h.keep hkept)).mono fun _ s2 hs2 => ?_
  have hlock : (s1.inode e).lock = none := h.lock e
  rw [hs2]
  refine h.drop nofun ?_
  dsimp only
  rw [hlock]

theorem Walk.iunlock (h : Walk t s (some e) held s1) (he : e ∈ held) :
    Ends allow t (iunlock e) s1 fun _ s2 => Walk t s none held s2 ∧
      (s2.inode e).inum = (s1.inode e).inum := by
  have hdin : s1.dinode = s.dinode := congrArg Disk.dinode h.disk
  refine (ends_iunlock ((h.lock e).trans (if_pos rfl)) (h.ref_pos he)).mono fun _ s2 hs2 => ?_
  rw [hs2]
  refine ⟨h.set ?_ rfl (fun e' he' => ⟨nofun, fun hc => absurd (Option.some.inj hc).symm he'⟩)
    (h.dev e) (h.ref e)
    (fun _ _ => rfl) (h.same e) (h.fresh e), by rw [State.setInode_self]⟩
  rw [← hdin]
  exact h.synced e

theorem Walk.iunlockput (h : Walk t s (some e) (e ::ₘ held) s1) (hkept : s.Kept (s1.inode e).inum) :
    Ends allow t (iunlockput e) s1 fun _ s2 => Walk t s none held s2 ∧
      ∀ e', (s2.inode e').inum = (s1.inode e').inum := by
  have hlock : (s1.inode e).lock = some t := (h.lock e).trans (if_pos rfl)
  refine (ends_iunlockput hlock (h.ref_pos (Multiset.mem_cons_self e held)) (h.keep hkept)).mono
    fun _ s2 hs2 => ?_
  rw [hs2]
  refine ⟨h.drop (fun e' he' => (Option.some.inj he').symm) rfl, fun e' => ?_⟩
  by_cases hee : e' = e
  · rw [hee, State.setInode_self]
  · rw [State.setInode_of_ne _ _ hee]

theorem lookup_eq_child (hdisk : s1.toDisk = s.toDisk) (hin : (s1.inode e).toDinode = s.dinode i)
    (name : Name) :
    (s1.lookup e name).map Prod.fst = s.child i name := by
  have hblk : s1.block = s.block := congrArg Disk.block hdisk
  unfold State.lookup State.dirent State.byte State.mapOf Disk.child
  rw [hin, hblk]

theorem Walk.found {off : ℕ} (h : Walk t s (some e) {e} s1)
    (hallow : ¬ s.Roomy → allow "iget: no inodes") :
    Ends allow t (do let ip ← Fs.iget (s1.inode e).dev i; pure (some (ip, off))) s1 fun o s2 =>
      ∃ e', o = some (e', off) ∧ (s2.inode e').inum = i ∧ (s2.inode e).inum = (s1.inode e).inum ∧
        Walk t s (some e) {e', e} s2 := by
  have hmem := Multiset.mem_singleton_self e
  rw [h.dev e hmem]
  exact (h.iget (Multiset.card_singleton e).le hallow).bind fun e' s2 hr =>
    ⟨e', rfl, hr.2.1, hr.2.2 e hmem, hr.1⟩

/-- **A name is looked up in a directory that is locked.** -/
theorem Walk.dirlookup (h : Walk t s (some e) {e} s1) (hc : Consistent t s)
    (hallow : ¬ s.Roomy → allow "iget: no inodes") (hin : (s1.inode e).toDinode = s.dinode i)
    (hnum : (s1.inode e).inum = i) (hdir : (s.dinode i).type = .T_DIR) (name : Name) :
    Ends allow t (dirlookup e name) s1 fun o s2 => (s2.inode e).inum = i ∧ match o with
      | none => s.child i name = none ∧ Walk t s (some e) {e} s2
      | some (e', _) => s.child i name = some (s2.inode e').inum ∧
          Walk t s (some e) {e', e} s2 := by
  have hlook := lookup_eq_child h.disk hin name
  obtain ⟨hsize, hwhole⟩ := hc.dir i hdir
  have hread : Readable e s1 := by
    refine ⟨by rw [hin]; exact hdir, by rw [hin]; exact hsize, ?_⟩
    unfold State.mapOf
    rwa [hin, congrArg Disk.block h.disk]
  refine ends_dirlookup hread.starts (fun _ hj _ => entry_le_length hj) (fun hnone => ?_)
    fun j off hfound => ?_
  · rw [hnone] at hlook
    exact ⟨hnum, hlook.symm, h⟩
  · rw [hfound] at hlook
    refine (h.found hallow).mono ?_
    rintro _ s2 ⟨e', rfl, hnew, hsame, hwalk⟩
    refine ⟨hsame.trans hnum, ?_, hwalk⟩
    rw [← hlook, hnew]
    rfl

/-- **The loop of `namex`**; the induction is on the elements that are left. -/
theorem ends_namexFrom (hc : Consistent t s) (hallow : ¬ s.Roomy → allow "iget: no inodes")
    (nameiparent : Bool)
    (names : List Name) : ∀ e s1, Walk t s none {e} s1 → s.Lives (s1.inode e).inum →
    Ends allow t (namexFrom nameiparent names e) s1 fun o s' =>
      Walk t s none (o.elim 0 fun r => {r.1}) s' ∧
      o.map (fun r => ((s'.inode r.1).inum, r.2)) = s.namexFrom nameiparent
        (s1.inode e).inum names := by
  induction names with
  | nil =>
    intro e s1 h hlives
    cases nameiparent with
    | false => exact ⟨h, rfl⟩
    | true => exact (h.iput (hc.kept hlives)).bind fun _ s' h' => ⟨h', rfl⟩
  | cons name names ih =>
    intro e s1 h hlives
    rw [namexFrom, Disk.namexFrom]
    refine (h.ilock (Multiset.mem_singleton_self e) hlives.1).bind fun _ s2 h2 => ?_
    obtain ⟨h2, hin, hsame⟩ := h2
    have hkept2 : s.Kept (s2.inode e).inum := by rw [hsame e]; exact hc.kept hlives
    unfold getInode
    rw [ends_look_bind, hin]
    by_cases hdir : (s.dinode (s1.inode e).inum).type = .T_DIR
    · simp only [if_neg (not_not_intro hdir)]
      by_cases hlast : nameiparent = true ∧ names = []
      · simp only [if_pos hlast]
        refine (h2.iunlock (Multiset.mem_singleton_self e)).bind fun _ s' h' => ⟨h'.1, ?_⟩
        rw [← hsame e, ← h'.2]
        rfl
      · simp only [if_neg hlast]
        refine (h2.dirlookup hc hallow hin (hsame e) hdir name).bind fun o s3 h3 => ?_
        obtain ⟨hnum3, h3⟩ := h3
        have hkept3 : s.Kept (s3.inode e).inum := by rw [hnum3]; exact hc.kept hlives
        cases o with
        | none =>
          rw [h3.1]
          exact (h3.2.iunlockput hkept3).bind fun _ s' h' => ⟨h'.1, rfl⟩
        | some r =>
          obtain ⟨e', off⟩ := r
          obtain ⟨hchild, h3⟩ := h3
          rw [hchild]
          -- the directory is put before the walk goes on in the child
          have hpair : ({e', e} : Multiset (Fin NINODE)) = e ::ₘ {e'} := Multiset.pair_comm e' e
          rw [hpair] at h3
          refine (h3.iunlockput hkept3).bind fun _ s4 h4 => ?_
          rw [Option.bind_some, ← h4.2 e']
          refine ih e' s4 h4.1 ?_
          rw [h4.2 e']
          exact hc.child _ name _ hdir hchild
    · simp only [if_pos hdir]
      exact (h2.iunlockput hkept2).bind fun _ s' h' => ⟨h'.1, rfl⟩

/-! ### Paths -/

/-- The inode that a path starts from. -/
def State.start (s : State) (t : Fin NPROC) (path : List UInt8) : ℕ :=
  if path.head? = some SLASH then ROOTINO else ((s.proc t).cwd.map fun e => (s.inode e).inum).getD 0

theorem ends_namexStart (hc : Consistent t s) (hallow : ¬ s.Roomy → allow "iget: no inodes")
    (path : List UInt8) :
    Ends allow t (namexStart path) s fun e s1 => Walk t s none {e} s1 ∧
      (s1.inode e).inum = s.start t path ∧
      s.Lives (s.start t path) := by
  unfold namexStart State.start
  by_cases habs : path.head? = some SLASH
  · rw [if_pos habs, if_pos habs]
    exact (hc.toQuiet.walk.iget (Nat.zero_le 1) hallow).mono fun e s1 hr => ⟨hr.1, hr.2.1, hc.root⟩
  · obtain ⟨e, hcwd, href⟩ := hc.cwd
    rw [if_neg habs, if_neg habs]
    unfold myproc idup modifyInode Prog.atomic
    rw [Prog.step_bind, ends_step]
    dsimp only
    rw [Prog.ret_bind, hcwd]
    dsimp only
    rw [ends_act_bind, ends_pure]
    refine ⟨hc.toQuiet.walk.set (fun _ => hc.synced e href) (hc.lock e) (fun _ _ => Iff.rfl)
      (fun _ => hc.dev e href) ?_ (fun e' he' => Multiset.count_singleton ..|>.trans (if_neg he'))
      (fun _ => ⟨rfl, rfl⟩) fun _ hzero => by omega,
      by rw [State.setInode_self]; rfl, hc.table e href, Or.inr ⟨e, href, rfl⟩⟩
    rw [Multiset.count_singleton_self]

theorem ends_namex (hc : Consistent t s) (hallow : ¬ s.Roomy → allow "iget: no inodes")
    (path : List UInt8)
    (nameiparent : Bool) :
    Ends allow t (namex path nameiparent) s fun o s' => Walk t s none (o.elim 0 fun r => {r.1}) s' ∧
      o.map (fun r => ((s'.inode r.1).inum, r.2)) = s.namexFrom nameiparent (s.start t path)
        (segments path) := by
  unfold namex
  rw [elems_eq_segments]
  refine (ends_namexStart hc hallow path).bind fun e s1 hr => ?_
  obtain ⟨h, hnum, hlives⟩ := hr
  rw [← hnum] at hlives ⊢
  exact ends_namexFrom hc hallow nameiparent _ e s1 h hlives

/-- **Path resolution.**  `namei` follows the elements of a path, from the root or from the working
directory, and fails at the first whose holder is not a directory or lacks the name; `nameiparent`
stops before the last element, and fails if there is none; and `namei` is the lookup of the name in
the inode that `nameiparent` returns.  Nothing on disk changes, and neither can panic if two
entries of the table of inodes are free. -/
theorem path_resolution (t : Fin NPROC) (s : State) (h : Consistent t s) (path : List UInt8) :
    Ends (fun msg => msg = "iget: no inodes" ∧ ¬ s.Roomy) t (namei path) s
      (fun o s' => s'.toDisk = s.toDisk ∧
      o.map (fun e => (s'.inode e).inum) = s.resolve (s.start t path) (segments path)) ∧
    Ends (fun msg => msg = "iget: no inodes" ∧ ¬ s.Roomy) t (nameiparent path) s
      (fun o s' => s'.toDisk = s.toDisk ∧
      o.map (fun r => ((s'.inode r.1).inum, r.2)) = s.parent (s.start t path) (segments path)) ∧
    (segments path ≠ [] → s.resolve (s.start t path) (segments path) =
      (s.parent (s.start t path) (segments path)).bind fun r => s.child r.1 r.2) := by
  refine ⟨?_, (ends_namex h (fun hroom => ⟨rfl, hroom⟩) path true).mono
    fun o s' hr => ⟨hr.1.disk, ?_⟩, Disk.resolve_eq_parent⟩
  · unfold namei
    refine (ends_namex h (fun hroom => ⟨rfl, hroom⟩) path false).bind fun o s' hr => ⟨hr.1.disk, ?_⟩
    rw [← Disk.namexFrom_false, ← hr.2, Option.map_map, Option.map_map]
    rfl
  · rw [hr.2, Disk.namexFrom_true]

/-- The entries of a root directory with a file `a`. -/
def rootEntries : List UInt8 :=
  [1, 0, 46, 0, 0, 0, 0, 0, 0, 0, 0, 0, 0, 0, 0, 0] ++
  [1, 0, 46, 46, 0, 0, 0, 0, 0, 0, 0, 0, 0, 0, 0, 0] ++
  [51, 0, 97, 0, 0, 0, 0, 0, 0, 0, 0, 0, 0, 0, 0, 0]

def rootBlock (b : ℕ) : Block := fun o => if b = 8 then rootEntries.getD o 0 else 0

def rootDinode : Dinode := ⟨.T_DIR, 0, 0, 1, 48, Function.update (fun _ => 0) 0 8⟩

/-- The root directory, the file `a`, and files that were removed while they are in use. -/
def rootedInode (n i : ℕ) : Dinode :=
  if i = ROOTINO then rootDinode
  else if i = 51 then ⟨.T_FILE, 0, 0, 1, 0, fun _ => 0⟩
  else if 1 < i ∧ i ≤ n then ⟨.T_FILE, 0, 0, 0, 0, fun _ => 0⟩
  else .zero

/-- The inodes 1 to `n` have an entry in the table; the first, which is the root's, is the working
directory. -/
def rooted (n : ℕ) : State :=
  { smallFile with
    sb := ⟨16, 8, 64⟩
    dinode := rootedInode n
    block := rootBlock
    proc := fun _ => ⟨some 0⟩
    inode := fun e => ⟨rootedInode n (e + 1), ROOTDEV, e + 1, if e < n then 1 else 0, none, true⟩ }

theorem rootedInode_dir {n i : ℕ} (h : (rootedInode n i).type = .T_DIR) :
    i = ROOTINO ∧ rootedInode n i = rootDinode := by
  unfold rootedInode at h ⊢
  split_ifs at h ⊢ with h1
  · exact ⟨h1, rfl⟩
  all_goals cases h

theorem rootEntries_inum : ∀ k < 3, ∀ i, deInum ((List.range DIRENT).map fun o =>
    rootBlock (rootDinode.map rootBlock (.data ((DIRENT * k + o) / BSIZE)))
      ((DIRENT * k + o) % BSIZE)) = i → i = ROOTINO ∨ i = 51 := by
  simp only [forall_eq']
  decide +kernel

theorem rooted_lives {n i : ℕ} (h : i = ROOTINO ∨ i = 51) : (rooted n).Lives i := by
  rcases h with rfl | rfl <;>
    exact ⟨by simp [rooted, rootedInode, rootDinode],
      Or.inl (by simp [rooted, rootedInode, rootDinode])⟩

theorem rooted_consistent {n : ℕ} (h : 0 < n) : Consistent t (rooted n) where
  lock _ := rfl
  synced _ _ _ := rfl
  dev _ _ := rfl
  table e he := by
    have hn : e.val < n := by
      by_contra hc
      exact absurd he (by show ¬ 0 < if e.val < n then 1 else 0; rw [if_neg hc]; decide)
    show (rootedInode n (e + 1)).type ≠ .zero
    unfold rootedInode
    split_ifs with h1 h2 h3
    case neg =>
      have h1 : e.val + 1 ≠ 1 := h1
      exact absurd ⟨by omega, hn⟩ h3
    all_goals simp [rootDinode]
  root := rooted_lives (Or.inl rfl)
  dir i hi := by
    have hd : (rooted n).dinode i = rootDinode := (rootedInode_dir hi).2
    rw [hd]
    refine ⟨by decide, by decide, fun bn hbn => ?_⟩
    obtain rfl : bn = 0 := Nat.lt_one_iff.mp hbn
    show 8 ≠ 0
    decide
  child i name j hi hj := by
    have hd : (rooted n).dinode i = rootDinode := (rootedInode_dir hi).2
    rw [Disk.child, hd] at hj
    obtain ⟨r, hr, rfl⟩ := Option.map_eq_some_iff.mp hj
    obtain ⟨k, hk, -, -, rfl⟩ := find_eq_some.mp hr
    exact rooted_lives (rootEntries_inum k hk _ rfl)
  cwd := ⟨0, rfl, by show 0 < if 0 < n then 1 else 0; rw [if_pos h]; decide⟩

/-- The file `a`, which is not in the table. -/
theorem path_resolution_file : ∃ e s', (namei [SLASH, 97]).run 0 (rooted 1) = .ok (some e) s' ∧
    (s'.inode e).inum = 51 := by
  have h := (path_resolution 0 (rooted 1) (rooted_consistent Nat.one_pos) [SLASH, 97]).1
  obtain ⟨s', hs'⟩ := Result.exists_of_value? (a := some 1)
    (show ((namei [SLASH, 97]).run 0 (rooted 1)).value? = some (some 1) by decide +kernel)
  refine ⟨1, s', hs', Option.some.inj ((h.of_run hs').2.trans ?_)⟩
  decide +kernel

/-- All entries of the table are in use, and none is that of the file `a`. -/
theorem namei_table_full : Consistent 0 (rooted NINODE) ∧
    (namei [SLASH, 97]).run 0 (rooted NINODE) = .panic "iget: no inodes" :=
  ⟨rooted_consistent (by decide), Result.eq_panic_of_message? (by decide +kernel)⟩

end Xv6.Fs
