import Xv6.Fs.Blocks
import Xv6.Lib.Seq
import Mathlib.Data.List.TakeWhile

/-!
# Reading files and directories

What the functions that read do while nothing else happens: the contents of an
inode are delivered, names are compared, an inode is found in the table, locked
and let go, and a path is cut into its elements.

## Main definitions

* `Holds` — an inode has certain bytes at its start.
* `Named` — the names that directory entries hold as they are.
* `Synced`, `Quiet` — inodes in memory are as on disk, and none is locked.

## Main results

* `ends_readi` — the bytes are read.
* `namecmp_named` — names are compared.
* `ends_iget_cases`, `ends_ilock`, `ends_iunlockput` — an inode is taken and let go.
* `elems_eq_segments` — `skipelem` yields the elements of a path.
-/

namespace Xv6.Fs

open Conc

variable {allow : String → Prop} {t : Fin NPROC} {s s' : State} {e : Fin NINODE} {d : Dinode}
  {blk : ℕ → Block} {c p q r : List UInt8} {off n k bn inum : ℕ} {dst : ℕ → Bool}

/-! ### Contents -/

/-- The contents of an inode start with certain bytes. -/
structure Holds (blk : ℕ → Block) (d : Dinode) (c : List UInt8) : Prop where
  mapped : ∀ o < c.length, d.map blk (.data (o / BSIZE)) ≠ 0
  bytes : ∀ o < c.length, blk (d.map blk (.data (o / BSIZE))) (o % BSIZE) = c.getD o 0

theorem ends_addrOf (h : (s.inode e).addrs k ≠ 0) :
    Ends allow t (addrOf e k) s fun a s' => a = (s.inode e).addrs k ∧ s' = s := by
  unfold addrOf getInode
  rw [ends_look_bind, if_neg h, ends_pure]
  exact ⟨rfl, rfl⟩

/-- A block that is there is found. -/
theorem ends_bmap (h : (s.inode e).map s.block (.data bn) ≠ 0) :
    Ends allow t (bmap e bn) s fun a s' => a = (s.inode e).map s.block (.data bn) ∧ s' = s := by
  unfold bmap
  by_cases hd : bn < NDIRECT
  · rw [if_pos hd]
    rw [Dinode.map_direct hd] at h ⊢
    exact ends_addrOf h
  have hmax : bn < MAXFILE := by
    by_contra hc
    exact h (Dinode.map_of_le (not_lt.mp hc))
  have hind : (s.inode e).addrs NDIRECT ≠ 0 := fun hc => h (Dinode.map_of_no_ind (not_lt.mp hd) hc)
  have hlt : bn - NDIRECT < NINDIRECT := Nat.sub_lt_left_of_lt_add (not_lt.mp hd) hmax
  rw [if_neg hd, if_pos hlt]
  rw [Dinode.map_indirect (not_lt.mp hd) hmax hind] at h ⊢
  refine (ends_addrOf hind).bind fun a s' hr => ?_
  obtain ⟨rfl, rfl⟩ := hr
  rw [if_neg hind, ends_look_bind, if_neg h, ends_pure]
  exact ⟨rfl, rfl⟩

/-- A piece of the contents that lies in one block. -/
theorem Holds.read (h : Holds blk d c) {o m : ℕ} (hm : o % BSIZE + m ≤ BSIZE)
    (hlen : o + m ≤ c.length) :
    Bytes.read (blk (d.map blk (.data (o / BSIZE)))) (o % BSIZE) m = (c.drop o).take m := by
  have hm : o % 1024 + m ≤ 1024 := hm
  unfold Bytes.read
  refine List.ext_getElem (by simp; omega) fun i hi _ => ?_
  rw [List.length_map, List.length_range] at hi
  have hdiv : (o + i) / BSIZE = o / BSIZE := by
    show (o + i) / 1024 = o / 1024
    omega
  have hmod : (o + i) % BSIZE = o % BSIZE + i := by
    show (o + i) % 1024 = o % 1024 + i
    omega
  have hbyte := h.bytes (o + i) (by omega)
  rw [hdiv, hmod] at hbyte
  simp only [List.getElem_map, List.getElem_range, List.getElem_take, List.getElem_drop]
  rw [hbyte, List.getD_eq_getElem?_getD, List.getElem?_eq_getElem (by omega)]
  rfl

theorem take_append_piece {off g m : ℕ} (c : List UInt8) :
    (c.drop off).take g ++ (c.drop (off + g)).take m = (c.drop off).take (g + m) := by
  rw [← List.drop_drop, List.take_add]

/-- The loop of `readi`; the induction is on the rounds that are left. -/
theorem ends_readFrom (h : Holds s.block (s.inode e).toDinode c) (hlen : off + n ≤ c.length)
    (hdst : ∀ i < n, dst i = true) (k : ℕ) : ∀ got : List UInt8,
    got = (c.drop off).take got.length → got.length ≤ n → n ≤ got.length + k →
    Ends allow t (readFrom e dst off n k got) s fun r s' =>
      r = some ((c.drop off).take n) ∧ s' = s := by
  induction k with
  | zero =>
    intro got hgot hle hk
    have hn : got.length = n := by omega
    rw [readFrom, ends_pure, hgot, hn]
    exact ⟨rfl, rfl⟩
  | succ k ih =>
    intro got hgot hle hk
    rw [readFrom]
    by_cases hlt : got.length < n
    · rw [if_pos hlt]
      -- one round reads up to the end of the block, or what is left
      obtain ⟨o, ho⟩ : ∃ o, o = off + got.length := ⟨_, rfl⟩
      obtain ⟨m, hm⟩ : ∃ m, m = min (n - got.length) (BSIZE - o % BSIZE) := ⟨_, rfl⟩
      have hmod : o % BSIZE < BSIZE := Nat.mod_lt _ (by decide)
      dsimp only
      rw [← ho, ← hm]
      have hmap := h.mapped o (by omega)
      refine (ends_bmap hmap).bind fun a s' hr => ?_
      obtain ⟨rfl, rfl⟩ := hr
      have hall : ((List.range m).all fun i => dst (got.length + i)) = true := by
        rw [List.all_eq_true]
        intro i hi
        exact hdst _ (by rw [List.mem_range] at hi; omega)
      rw [if_neg hmap, ends_look_bind, h.read (by omega) (by omega), if_pos hall]
      have happ : got ++ (c.drop o).take m = (c.drop off).take (got.length + m) := by
        rw [ho, ← take_append_piece, ← hgot]
      have hl : ((c.drop off).take (got.length + m)).length = got.length + m := by
        rw [List.length_take, List.length_drop]
        omega
      rw [happ]
      exact ih _ (by rw [hl]) (by omega) (by omega)
    · have hn : got.length = n := by omega
      rw [if_neg hlt, ends_pure, hgot, hn]
      exact ⟨rfl, rfl⟩

/-- **Bytes of the contents are read.** -/
theorem ends_readi (h : Holds s.block (s.inode e).toDinode c) (hsize : c.length ≤ (s.inode e).size)
    (hlen : off + n ≤ c.length) (hmax : c.length < 2 ^ 32) (hdst : ∀ i < n, dst i = true) :
    Ends allow t (readi e dst off n) s fun r s' => r = some ((c.drop off).take n) ∧ s' = s := by
  unfold readi getInode
  rw [ends_look_bind, if_neg (by omega)]
  dsimp only
  rw [if_neg (by omega)]
  exact ends_readFrom h hlen hdst n [] rfl (Nat.zero_le _) (by rw [List.length_nil]; omega)

/-- **Reading stops at the end of the file.** -/
theorem ends_readi_file (h : Holds s.block (s.inode e).toDinode c)
    (hsize : (s.inode e).size = c.length)
    (hmax : off + n < 2 ^ 32) (hdst : ∀ i < n, dst i = true) :
    Ends allow t (readi e dst off n) s fun r s' => r = some ((c.drop off).take n) ∧ s' = s := by
  unfold readi getInode
  rw [ends_look_bind]
  by_cases hoff : off > (s.inode e).size
  · rw [if_pos (Or.inl hoff), ends_pure, List.drop_eq_nil_of_le (by omega), List.take_nil]
    exact ⟨rfl, rfl⟩
  rw [if_neg (by omega)]
  dsimp only
  by_cases hn : off + n > (s.inode e).size
  · rw [if_pos hn]
    have htake : (c.drop off).take n = (c.drop off).take ((s.inode e).size - off) := by
      rw [List.take_of_length_le (by rw [List.length_drop]; omega),
        List.take_of_length_le (by rw [List.length_drop]; omega)]
    rw [htake]
    exact ends_readFrom h (by omega) (fun i hi => hdst i (by omega)) _ [] rfl (Nat.zero_le _)
      (by rw [List.length_nil]; omega)
  · rw [if_neg hn]
    exact ends_readFrom h (by omega) hdst n [] rfl (Nat.zero_le _) (by rw [List.length_nil]; omega)

/-- How many bytes `readi` copies, if it can. -/
def readCount (off n size : ℕ) : ℕ :=
  if off > size ∨ (off + n) % 2 ^ 32 < off then 0 else min n (size - off)

/-- The loop of `readi`, in a part of the inode that has blocks. -/
theorem ends_readFrom_whole
    (h : ∀ bn < nblocks (s.inode e).size, (s.inode e).map s.block (.data bn) ≠ 0)
    (hlen : off + n ≤ (s.inode e).size) (k : ℕ) : ∀ got : List UInt8, got.length ≤ n →
      n ≤ got.length + k →
    Ends allow t (readFrom e dst off n k got) s fun r s' => s' = s ∧
      ((∃ got', r = some got' ∧ got'.length = n) ∨ r = none ∧ ∃ i < n, dst i = false) := by
  induction k with
  | zero => exact fun got hle hk => ⟨rfl, Or.inl ⟨got, rfl, by omega⟩⟩
  | succ k ih =>
    intro got hle hk
    rw [readFrom]
    by_cases hlt : got.length < n
    · rw [if_pos hlt]
      dsimp only
      have hmap := h _ (lt_nblocks (show off + got.length < (s.inode e).size by omega))
      refine (ends_bmap hmap).bind fun a s' hr => ?_
      obtain ⟨rfl, rfl⟩ := hr
      have hmod : (off + got.length) % BSIZE < BSIZE := Nat.mod_lt _ (by decide)
      rw [if_neg hmap, ends_look_bind]
      split_ifs with hall
      · have hdata : ∀ b o m, (Bytes.read b o m).length = m := by simp [Bytes.read]
        refine ih _ ?_ ?_ <;> rw [List.length_append, hdata] <;> omega
      · simp only [List.all_eq_true, List.mem_range, not_forall, Bool.not_eq_true] at hall
        obtain ⟨i, hi, hdst⟩ := hall
        exact ⟨rfl, Or.inr ⟨rfl, got.length + i, by omega, hdst⟩⟩
    · rw [if_neg hlt]
      exact ⟨rfl, Or.inl ⟨got, rfl, by omega⟩⟩

/-- **Reading an inode without holes changes nothing**, and copies what is asked for or fails. -/
theorem ends_readi_whole
    (h : ∀ bn < nblocks (s.inode e).size, (s.inode e).map s.block (.data bn) ≠ 0) :
    Ends allow t (readi e dst off n) s fun r s' => s' = s ∧
      ((∃ got, r = some got ∧ got.length = readCount off n (s.inode e).size) ∨
        r = none ∧ ∃ i < readCount off n (s.inode e).size, dst i = false) := by
  unfold readi getInode readCount
  rw [ends_look_bind]
  by_cases hoff : off > (s.inode e).size ∨ (off + n) % 2 ^ 32 < off
  · rw [if_pos hoff, if_pos hoff]
    exact ⟨rfl, Or.inl ⟨[], rfl, rfl⟩⟩
  rw [if_neg hoff, if_neg hoff]
  have hmin : (if off + n > (s.inode e).size then (s.inode e).size - off else n) =
      min n ((s.inode e).size - off) := by
    split_ifs <;> omega
  dsimp only
  rw [hmin]
  exact ends_readFrom_whole h (by omega) _ [] (Nat.zero_le _) (Nat.le_add_left ..)

/-! ### Names -/

/-- A name that an entry holds as it is. -/
structure Named (name : Name) : Prop where
  ne_nil : name ≠ []
  len : name.length ≤ DIRSIZ
  zero : 0 ∉ name

/-- Byte `i` of a string, which is zero behind its end. -/
def char (l : List UInt8) (i : ℕ) : UInt8 := (l.takeWhile (· ≠ 0)).getD i 0

theorem char_zero (l : List UInt8) : char l 0 = l.headD 0 := by
  cases l with
  | nil => rfl
  | cons x l =>
    unfold char
    by_cases hx : x = 0 <;> simp [hx]

theorem char_succ (l : List UInt8) (i : ℕ) :
    char l (i + 1) = if l.headD 0 = 0 then 0 else char l.tail i := by
  cases l with
  | nil => rfl
  | cons x l =>
    unfold char
    by_cases hx : x = 0 <;> simp [hx]

/-- `strncmp` compares the first `n` bytes. -/
theorem strncmp_iff (n : ℕ) : ∀ p q, strncmp n p q = true ↔ ∀ i < n, char p i = char q i := by
  induction n with
  | zero => exact fun p q => ⟨fun _ i hi => absurd hi (Nat.not_lt_zero i), fun _ => rfl⟩
  | succ n ih =>
    intro p q
    have hsplit : (∀ i < n + 1, char p i = char q i) ↔
        p.headD 0 = q.headD 0 ∧ ∀ i < n, char p (i + 1) = char q (i + 1) := by
      rw [← char_zero, ← char_zero]
      refine ⟨fun h => ⟨h 0 (Nat.succ_pos n), fun i hi => h (i + 1) (Nat.succ_lt_succ hi)⟩,
        fun h i hi => ?_⟩
      cases i with
      | zero => exact h.1
      | succ i => exact h.2 i (Nat.lt_of_succ_lt_succ hi)
    rw [strncmp, hsplit]
    simp only [char_succ]
    generalize p.headD 0 = a
    generalize q.headD 0 = b
    obtain rfl | heq := eq_or_ne a b
    · by_cases h0 : a = 0
      · simp [h0]
      · simp [h0, ih]
    · simp [heq]

theorem char_strncpy (n : ℕ) : ∀ (q : List UInt8) {i : ℕ}, i < n → char
    (strncpy q n) i = char q i := by
  induction n with
  | zero => exact fun _ i hi => absurd hi (Nat.not_lt_zero i)
  | succ n ih =>
    intro q i hi
    have hcons : strncpy q (n + 1) = q.headD 0 :: (List.range n).map fun i => char q (i + 1) := by
      unfold strncpy
      rw [List.range_succ_eq_map, List.map_cons, List.map_map]
      exact congrArg (· :: _) (char_zero q)
    rw [hcons]
    cases i with
    | zero => rw [char_zero, char_zero, List.headD_cons]
    | succ i =>
      rw [char_succ, char_succ, List.headD_cons, List.tail_cons]
      by_cases h0 : q.headD 0 = 0
      · rw [if_pos h0, if_pos h0]
      · have htail : ((List.range n).map fun i => char q (i + 1)) = strncpy q.tail n := by
          refine List.map_congr_left fun i _ => ?_
          rw [char_succ, if_neg h0]
          rfl
        rw [if_neg h0, if_neg h0, htail, ih _ (Nat.lt_of_succ_lt_succ hi)]

theorem namecmp_deName (inum : ℕ) (name name' : Name) :
    namecmp name (deName (dirent inum name')) = namecmp name name' := by
  rw [Bool.eq_iff_iff]
  unfold namecmp
  rw [strncmp_iff, strncmp_iff]
  refine forall₂_congr fun i hi => ?_
  rw [show deName (dirent inum name') = strncpy name' DIRSIZ from rfl, char_strncpy _ _ hi]

theorem char_of_notMem {l : List UInt8} (h : 0 ∉ l) (i : ℕ) : char l i = l.getD i 0 := by
  rw [char, List.takeWhile_eq_self_iff.mpr fun x hx => by simpa using fun hc : x = 0 => h (hc ▸ hx)]

theorem eq_of_getD {l l' : List UInt8} (h : 0 ∉ l) (h' : 0 ∉ l')
    (heq : ∀ i, l.getD i 0 = l'.getD i 0) : l = l' := by
  refine List.ext_getElem? fun i => ?_
  have hi := heq i
  rw [List.getD_eq_getElem?_getD, List.getD_eq_getElem?_getD] at hi
  cases ha : l[i]? with
  | none =>
    cases hb : l'[i]? with
    | none => rfl
    | some b => exact absurd (List.mem_of_getElem? hb) (by simp_all)
  | some a =>
    cases hb : l'[i]? with
    | none => exact absurd (List.mem_of_getElem? ha) (by simp_all)
    | some b => simp_all

/-- **Names that are proper are compared as strings.** -/
theorem namecmp_named {name name' : Name} (h : Named name) (h' : Named name') :
    namecmp name name' = decide (name = name') := by
  rw [Bool.eq_iff_iff, decide_eq_true_iff, namecmp, strncmp_iff]
  refine ⟨fun hchar => eq_of_getD h.zero h'.zero fun i => ?_, fun heq i _ => by rw [heq]⟩
  by_cases hi : i < DIRSIZ
  · rw [← char_of_notMem h.zero, ← char_of_notMem h'.zero, hchar i hi]
  · have hlen := h.len
    have hlen' := h'.len
    simp [show name.length ≤ i by omega, show name'.length ≤ i by omega]

variable {name : Name}

theorem deInum_dirent (h : inum < 2 ^ 16) : deInum (dirent inum name) = inum := by
  show (UInt8.ofNat inum).toNat + 256 * (UInt8.ofNat (inum / 256)).toNat = inum
  rw [UInt8.toNat_ofNat', UInt8.toNat_ofNat']
  omega

theorem length_dirent : (dirent inum name).length = DIRENT := by
  simp [dirent, strncpy]

/-! ### Directories -/

/-- The bytes of directory entries. -/
def dirBytes (l : List (ℕ × Name)) : List UInt8 := l.flatMap fun x => dirent x.1 x.2

theorem dirBytes_cons (x : ℕ × Name) (l : List (ℕ × Name)) :
    dirBytes (x :: l) = dirent x.1 x.2 ++ dirBytes l := rfl

theorem length_dirBytes (l : List (ℕ × Name)) : (dirBytes l).length = DIRENT * l.length := by
  induction l with
  | nil => rfl
  | cons x l ih =>
    rw [dirBytes_cons, List.length_append, length_dirent, ih, List.length_cons, Nat.mul_succ,
      Nat.add_comm]

/-- An entry that counts. -/
structure Entry (x : ℕ × Name) : Prop where
  inum : x.1 ≠ 0
  lt : x.1 < 2 ^ 16
  named : Named x.2

/-! ### Inodes -/

/-- Inodes in memory are as on disk. -/
def Synced (s : State) : Prop :=
  ∀ e, 0 < (s.inode e).ref → (s.inode e).valid = true →
    (s.inode e).toDinode = s.dinode (s.inode e).inum

/-- No inode is locked, and inodes in memory are as on disk. -/
structure Quiet (s : State) : Prop where
  lock : ∀ e, (s.inode e).lock = none
  synced : Synced s

/-- There is an empty entry in the table. -/
def State.HasEmpty (s : State) : Prop := ∃ e, (s.inode e).ref = 0

theorem State.HasEmpty.exists_empty (h : s.HasEmpty) :
    ∃ e, s.empty? = some e ∧ (s.inode e).ref = 0 := by
  obtain ⟨e, he⟩ := h
  cases hf : s.empty? with
  | none => simpa [he] using List.find?_eq_none.mp hf e (List.mem_finRange e)
  | some e' => exact ⟨e', rfl, by simpa using List.find?_some hf⟩

theorem State.setInode_self (s : State) (e : Fin NINODE) (ip : Inode) :
    (s.setInode e ip).inode e = ip :=
  Function.update_self ..

theorem State.setInode_of_ne {e' : Fin NINODE} (s : State) (ip : Inode) (h : e' ≠ e) :
    (s.setInode e ip).inode e' = s.inode e' :=
  Function.update_of_ne h _ _

theorem State.setInode_idem (s : State) (e : Fin NINODE) (ip ip' : Inode) :
    (s.setInode e ip).setInode e ip' = s.setInode e ip' := by
  unfold State.setInode
  dsimp only
  rw [Function.update_idem]

theorem Synced.setInode {ip : Inode} (h : Synced s)
    (hsync : 0 < ip.ref → ip.valid = true → ip.toDinode = s.dinode ip.inum) :
    Synced (s.setInode e ip) := by
  intro e'
  by_cases he : e' = e
  · rwa [he, State.setInode_self]
  · rw [State.setInode_of_ne s ip he]
    exact h e'

/-- **`iget` finds the entry of an inode, or takes an empty one.** -/
theorem ends_iget_cases {dev : ℕ} {Q : Fin NINODE → State → Prop}
    (hfull : s.empty? = none → allow "iget: no inodes")
    (hold : ∀ e, 0 < (s.inode e).ref → (s.inode e).dev = dev → (s.inode e).inum = inum →
      Q e (s.setInode e { s.inode e with ref := (s.inode e).ref + 1 }))
    (hnew : ∀ e, (s.inode e).ref = 0 →
      (∀ e', 0 < (s.inode e').ref → (s.inode e').dev = dev → (s.inode e').inum ≠ inum) →
      Q e (s.setInode e { s.inode e with dev := dev, inum := inum, ref := 1, valid := false })) :
    Ends allow t (iget dev inum) s Q := by
  unfold iget Prog.atomic
  rw [ends_step]
  cases hent : s.entry? dev inum with
  | some e =>
    have he : 0 < (s.inode e).ref ∧ (s.inode e).dev = dev ∧ (s.inode e).inum = inum := by
      simpa using List.find?_some hent
    exact hold e he.1 he.2.1 he.2.2
  | none =>
    cases hemp : s.empty? with
    | none => exact hfull hemp
    | some e =>
      refine hnew e (by simpa using List.find?_some hemp) fun e' href hdev hnum => ?_
      simpa [href, hdev, hnum] using List.find?_eq_none.mp hent e' (List.mem_finRange e')

/-- An inode that is locked: the entry as it is then. -/
def lockedBy (t : Fin NPROC) (ip : Inode) (d : Dinode) : Inode :=
  { ip with toDinode := d, lock := some t, valid := true }

/-- **`ilock` reads the inode if that has not been done.** -/
theorem ends_ilock (h : (s.inode e).valid = true → (s.inode e).toDinode = s.dinode (s.inode e).inum)
    (hfree : (s.inode e).lock = none) (href : 0 < (s.inode e).ref)
    (htype : (s.dinode (s.inode e).inum).type ≠ .zero) :
    Ends allow t (ilock e) s fun _ s' =>
      s' = s.setInode e (lockedBy t (s.inode e) (s.dinode (s.inode e).inum)) := by
  unfold ilock getInode
  rw [ends_look_bind, if_neg (by omega)]
  have hacq : Ends allow t (acquiresleep e) s fun _ s' =>
      s' = s.setInode e { s.inode e with lock := some t } := by
    unfold acquiresleep Prog.atomic
    rw [ends_step, if_pos hfree]
    exact rfl
  refine hacq.bind fun _ s' hs' => ?_
  subst hs'
  have hself := s.setInode_self e { s.inode e with lock := some t }
  rw [ends_look_bind, hself]
  cases hv : (s.inode e).valid with
  | true =>
    rw [if_pos rfl, ends_pure]
    have hsync := h hv
    unfold lockedBy
    rw [← hsync, ← hv]
  | false =>
    rw [if_neg (by decide)]
    unfold readInode Prog.atomic
    rw [ends_step, hself]
    dsimp only
    have hdin : (s.setInode e { s.inode e with lock := some t }).dinode = s.dinode := rfl
    rw [hdin, if_neg htype]
    rw [State.setInode_idem]
    rfl

/-- **`iput` of an inode that is not to be freed.** -/
theorem ends_iput_drop
    (h : ¬ ((s.inode e).ref = 1 ∧ (s.inode e).valid = true ∧ (s.inode e).nlink = 0)) :
    Ends allow t (iput e) s fun _ s' =>
      s' = s.setInode e { s.inode e with ref := (s.inode e).ref - 1 } := by
  have hstart : Ends allow t (iputStart e) s fun r s' => r = false ∧
      s' = s.setInode e { s.inode e with ref := (s.inode e).ref - 1 } := by
    unfold iputStart Prog.atomic
    rw [ends_step, if_neg h]
    exact ⟨rfl, rfl⟩
  unfold iput
  refine hstart.bind fun r s' hr => ?_
  obtain ⟨rfl, rfl⟩ := hr
  rw [if_neg (by decide), ends_pure]

theorem ends_iunlock (hlock : (s.inode e).lock = some t) (href : 0 < (s.inode e).ref) :
    Ends allow t (iunlock e) s fun _ s' => s' = s.setInode e { s.inode e with lock := none } := by
  unfold iunlock Prog.atomic
  rw [ends_step, if_neg (by rw [hlock]; simp; omega)]
  exact rfl

/-- **`iunlockput` of an inode that is not to be freed.** -/
theorem ends_iunlockput (hlock : (s.inode e).lock = some t) (href : 0 < (s.inode e).ref)
    (hkeep : ¬ ((s.inode e).ref = 1 ∧ (s.inode e).valid = true ∧ (s.inode e).nlink = 0)) :
    Ends allow t (iunlockput e) s fun _ s' =>
      s' = s.setInode e { s.inode e with lock := none, ref := (s.inode e).ref - 1 } := by
  unfold iunlockput
  refine (ends_iunlock hlock href).bind fun _ s' hs' => ?_
  subst hs'
  have hself := s.setInode_self e { s.inode e with lock := none }
  refine (ends_iput_drop (by rw [hself]; exact hkeep)).mono fun _ s' hs' => ?_
  rw [hs', hself, State.setInode_idem]

/-! ### Paths -/

/-- What is between slashes. -/
def pieces (path : List UInt8) : List (List UInt8) := (path.splitOnP (· = SLASH)).filter (· ≠ [])

/-- The elements of a path. -/
def segments (path : List UInt8) : List Name := (pieces path).map (·.take DIRSIZ)

theorem pieces_slash (path : List UInt8) : pieces (SLASH :: path) = pieces path := by
  simp [pieces, List.splitOnP_cons_eq_if_modifyHead]

theorem pieces_dropWhile (path : List UInt8) :
    pieces (path.dropWhile (· = SLASH)) = pieces path := by
  induction path with
  | nil => rfl
  | cons c path ih =>
    by_cases hc : c = SLASH
    · rw [List.dropWhile_cons_of_pos (by simpa using hc), ih, hc, pieces_slash]
    · rw [List.dropWhile_cons_of_neg (by simpa using hc)]

theorem splitOnP_eq (path : List UInt8) : ∃ l, path.splitOnP (· = SLASH) = path.takeWhile
    (· ≠ SLASH) :: l ∧
    l.filter (· ≠ []) = pieces (path.dropWhile (· ≠ SLASH)) := by
  induction path with
  | nil => exact ⟨[], rfl, rfl⟩
  | cons c path ih =>
    obtain rfl | hc := eq_or_ne c SLASH
    · exact ⟨path.splitOnP (· = SLASH), by simp [List.splitOnP_cons_eq_if_modifyHead],
        (pieces_slash path).symm⟩
    · obtain ⟨l, hl, hfilter⟩ := ih
      refine ⟨l, ?_, ?_⟩
      · simp [List.splitOnP_cons_eq_if_modifyHead, hl, hc]
      · simpa [hc] using hfilter

theorem pieces_cons {c : UInt8} {path : List UInt8} (h : c ≠ SLASH) :
    pieces (c :: path) = (c :: path).takeWhile (· ≠ SLASH) ::
    pieces ((c :: path).dropWhile (· ≠ SLASH)) := by
  obtain ⟨l, hl, hfilter⟩ := splitOnP_eq (c :: path)
  rw [pieces, hl, List.filter_cons_of_pos (by simp [h]), hfilter]

/-- The loop over `skipelem`; the induction is on the rounds that are left. -/
theorem elemsFrom_eq (n : ℕ) :
    ∀ path : List UInt8, path.length ≤ n → elemsFrom n path = segments path := by
  induction n with
  | zero =>
    intro path hlen
    rw [List.length_eq_zero_iff.mp (Nat.le_zero.mp hlen)]
    rfl
  | succ n ih =>
    intro path hlen
    have hdrop := pieces_dropWhile path
    have hle := (List.dropWhile_sublist (· = SLASH) (l := path)).length_le
    unfold elemsFrom skipelem segments
    rw [← hdrop]
    cases hp : path.dropWhile (· = SLASH) with
    | nil => rfl
    | cons c rest =>
      have hc : c ≠ SLASH := by
        have hne : path.dropWhile (· = SLASH) ≠ [] := by rw [hp]; exact List.cons_ne_nil c rest
        simpa [hp] using List.head_dropWhile_not (· = SLASH) hne
      rw [hp] at hle
      rw [pieces_cons hc, if_neg (List.cons_ne_nil c rest), List.map_cons, ← pieces_dropWhile]
      dsimp only
      congr 1
      refine ih _ ?_
      -- what is behind the first element is shorter
      have hrest :=
        (List.dropWhile_sublist (· = SLASH) (l := (c :: rest).dropWhile (· ≠ SLASH))).length_le
      rw [List.dropWhile_cons_of_pos (by simpa using hc)] at hrest ⊢
      have hrest' := (List.dropWhile_sublist (· ≠ SLASH) (l := rest)).length_le
      rw [List.length_cons] at hle
      omega

theorem elems_eq_segments (path : List UInt8) : elems path = segments path :=
  elemsFrom_eq _ path le_rfl

theorem elems_absolute (h : Named name) (hs : SLASH ∉ name) : elems (SLASH :: name) = [name] := by
  have hall : ∀ x ∈ name, decide (x ≠ SLASH) = true := fun x hx => decide_eq_true fun hc =>
    hs (hc ▸ hx)
  have hpieces : pieces name = [name] := by
    obtain ⟨l, hl, hfilter⟩ := splitOnP_eq name
    rw [List.takeWhile_eq_self_iff.mpr hall] at hl
    rw [List.dropWhile_eq_nil_iff.mpr hall] at hfilter
    rw [pieces, hl, List.filter_cons_of_pos (by simpa using h.ne_nil), hfilter]
    rfl
  rw [elems_eq_segments, segments, pieces_slash, hpieces, List.map_singleton,
    List.take_of_length_le h.len]

end Xv6.Fs
