import Xv6.Process.Image

/-!
# `kexec` succeeds or changes nothing

All of `kexec`: the transaction and the inode of the executable, which are let go
before the stack is built, and the process's name.  There are over a dozen ways
out, and `bad:` has to undo what has been done so far: which inode `namei` finds,
what `readi` delivers from it, and which calls of `kalloc` fail are all arbitrary.

What `namei` itself does is left to the file system: it returns an inode with a
reference to it, or nothing.

## Main definitions

* `Sys` — the kernel, with inodes, transactions, names and open files.
* `Sys.kexec` — `kexec`.

## Main results

* `kexec_all_or_nothing` — **`kexec` never panics; it puts the image of the file in place, or
  everything is as it was.**
-/

namespace Xv6.Process

open Conc Vm Function

variable {K : Layout} {allow : String → Prop} {boot : ℕ → Prop} {own : ℕ → Place} {i : Fin NPROC}
  {α : Type}

/-! ### The model -/

/-- `struct inode`: references to the entry of the inode table, and whether it is locked. -/
structure Inode where
  ref : ℕ
  locked : Bool

/-- The kernel, with `log.outstanding` and, for each process, `p->name` and `p->ofile`. -/
structure Sys where
  kernel : Kernel
  itable : ℕ → Inode
  outstanding : ℤ
  name : Fin NPROC → List UInt8
  ofile : Fin NPROC → Fin NOFILE → Option ℕ

/-- The file system while `kexec` runs: the inode a path names, and what an inode contains. -/
structure Disk where
  find : List UInt8 → Option ℕ
  content : ℕ → File

namespace Sys

/-- A computation of the kernel. -/
abbrev M := Prog Unit Sys

def kern (p : KM α) : M α := p.zoom Sys.kernel fun k s => { s with kernel := k }

def begin_op : M Unit := .act fun _ s => { s with outstanding := s.outstanding + 1 }

def end_op : M Unit := .act fun _ s => { s with outstanding := s.outstanding - 1 }

def setInode (s : Sys) (ip : ℕ) (node : Inode) : Sys :=
  { s with itable := Function.update s.itable ip node }

/-- The inode of a path, with a reference to it. -/
def namei (D : Disk) (path : List UInt8) : M (Option ℕ) :=
  match D.find path with
  | none => pure none
  | some ip => do
      .act fun _ s => s.setInode ip { s.itable ip with ref := (s.itable ip).ref + 1 }
      pure (some ip)

/-- Lock the inode; wait while it is locked. -/
def ilock (ip : ℕ) : M Unit :=
  .atomic fun _ s =>
    if (s.itable ip).ref < 1 then some (.panic "ilock")
    else if (s.itable ip).locked then none
    else some (.done () (s.setInode ip { s.itable ip with locked := true }))

def iunlock (ip : ℕ) : M Unit :=
  .atomic fun _ s =>
    if (s.itable ip).locked = false ∨ (s.itable ip).ref < 1 then some (.panic "iunlock")
    else some (.done () (s.setInode ip { s.itable ip with locked := false }))

/-- Drop a reference. -/
def iput (ip : ℕ) : M Unit :=
  .act fun _ s => s.setInode ip { s.itable ip with ref := (s.itable ip).ref - 1 }

def iunlockput (ip : ℕ) : M Unit := do
  iunlock ip
  iput ip

/-- `last`, for the rest `s` of the path: what comes after the last slash. -/
def lastFrom : List UInt8 → List UInt8 → List UInt8
  | [], last => last
  | c :: s, last => lastFrom s (if c = 47 then s else last)

/-- Save the program's name: 15 bytes fit. -/
def setName (i : Fin NPROC) (path : List UInt8) : M Unit :=
  .act fun _ s => { s with name := Function.update s.name i ((lastFrom path path).take 15) }

/-- Let go of the executable. -/
def letGo (ip : ℕ) : M Unit := do
  iunlockput ip
  end_op

/-- `bad:`, for the page table with its size and the inode, if there are any. -/
def bad (K : Layout) (pagetable : Option (ℕ × ℕ)) (ip : Option ℕ) : M ℤ := do
  pagetable.elim (pure ()) fun t => kern (vm (proc_freepagetable K t.1 t.2))
  ip.elim (pure ()) letGo
  pure (-1)

/-- Commit to an image, for the entry `p` of process `i`. -/
def install (K : Layout) (i : Fin NPROC) (path : List UInt8) (p : Proc) (img : Image) : M ℤ := do
  kern (vm (setWord p.trapframe 120 img.sp))
  setName i path
  kern (commit K i p img)

/-- The part of `kexec` after the program is loaded, in a table of size `sz`. -/
def finish (K : Layout) (i : Fin NPROC) (path : List UInt8) (argv : List (List UInt8))
    (pagetable sz entry : ℕ) : M ℤ := do
  let p ← .look fun s => s.kernel.proc i
  match ← kern (vm (pushStack K p.sz p.pagetable pagetable sz entry argv)) with
  | none => bad K none none
  | some img => install K i path p img

/-- The implementation of the `exec` system call, for process `i`. -/
def kexec (D : Disk) (K : Layout) (i : Fin NPROC) (path : List UInt8) (argv : List (List UInt8)) :
    M ℤ := do
  let p ← .look fun s => s.kernel.proc i
  begin_op
  match ← namei D path with
  | none => do
      end_op
      pure (-1)
  | some ip => do
      ilock ip
      let elf := readi (D.content ip) 0 ELFHDR
      if elf.length ≠ ELFHDR then bad K none (some ip)
      else if field elf 0 4 ≠ ELF_MAGIC then bad K none (some ip)
      else do
        match ← kern (vm (proc_pagetable K p.trapframe)) with
        | none => bad K none (some ip)
        | some pagetable => do
            match ← kern (vm (loadSegments K pagetable (D.content ip) (field elf 56 2)
              (field elf 32 8 % 2 ^ 32) 0)) with
            | (false, sz) => bad K (some (pagetable, sz)) (some ip)
            | (true, sz) => do
                letGo ip
                finish K i path argv pagetable sz (field elf 24 8)

/-! ### The inode and the transaction -/

variable {s s' : Sys} {D : Disk} {path : List UInt8} {argv : List (List UInt8)} {ip : ℕ}
  {k : Kernel}

theorem ends_kern {p : KM α} {Q : α → Sys → Prop}
    (h : Ends allow () p s.kernel fun a k => Q a { s with kernel := k }) :
    Ends allow () (kern p) s Q := by
  unfold kern
  apply ends_zoom
  · exact fun _ _ => rfl
  · exact fun _ _ _ => rfl
  · exact fun _ => rfl
  · exact h

theorem ends_vmem {p : VmM α} {Q : α → Sys → Prop} (h : Ends allow () p s.kernel.kmem fun a m =>
      Q a { s with kernel := { s.kernel with kmem := m } }) : Ends allow () (kern (vm p)) s Q :=
  ends_kern (ends_vm h)

theorem ends_ilock {Q : Unit → Sys → Prop} (href : 1 ≤ (s.itable ip).ref)
    (hlock : (s.itable ip).locked = false)
    (hQ : Q () (s.setInode ip { s.itable ip with locked := true })) :
    Ends allow () (ilock ip) s Q := by
  rwa [ilock, Prog.atomic, ends_step, if_neg (not_lt.mpr href), if_neg (by rw [hlock]; simp)]

theorem ends_iunlock {Q : Unit → Sys → Prop} (href : 1 ≤ (s.itable ip).ref)
    (hlock : (s.itable ip).locked = true)
    (hQ : Q () (s.setInode ip { s.itable ip with locked := false })) :
    Ends allow () (iunlock ip) s Q := by
  rw [iunlock, Prog.atomic, ends_step, if_neg]
  · exact hQ
  · rw [hlock, not_or]
    exact ⟨by simp, not_lt.mpr href⟩

theorem setInode_self (s : Sys) (ip : ℕ) (node : Inode) : (s.setInode ip node).itable ip = node :=
  update_self _ _ _

theorem setInode_setInode (s : Sys) (ip : ℕ) (node node' : Inode) :
    (s.setInode ip node).setInode ip node' = s.setInode ip node' := by
  unfold setInode
  rw [update_idem]

/-- The state in which an executable is loaded. -/
def opened (s : Sys) (ip : ℕ) : Sys :=
  { s.setInode ip ⟨(s.itable ip).ref + 1, true⟩ with outstanding := s.outstanding + 1 }

theorem ends_letGo {Q : Unit → Sys → Prop} (hlock : (s.itable ip).locked = false)
    (hQ : Q () { s with kernel := k }) :
    Ends allow () (letGo ip) { s.opened ip with kernel := k } Q := by
  have hself : ({ s.opened ip with kernel := k } : Sys).itable ip = ⟨(s.itable ip).ref + 1, true⟩ :=
    update_self _ _ _
  have hback : update (update (update s.itable ip
      ⟨(s.itable ip).ref + 1, true⟩) ip ⟨(s.itable ip).ref + 1, false⟩) ip
      ⟨(s.itable ip).ref, false⟩ = s.itable := by
    rw [update_idem, update_idem, ← hlock]
    exact update_eq_self _ _
  refine Ends.seq (Ends.seq (ends_iunlock ?_ ?_ (ends_act.mpr ?_)))
  · rw [hself]
    exact Nat.succ_pos _
  · rw [hself]
  · refine ends_act.mpr ?_
    rw [hself, setInode_self]
    dsimp only [setInode, opened]
    rwa [Nat.add_sub_cancel, hback, Int.add_sub_cancel]

/-- **`kexec` builds the image of the file that the path names, and commits to it**: by then the
inode and the transaction have been let go of, on every way out. -/
theorem ends_kexec_of_buildImage {Q : ℤ → Sys → Prop} (hip : D.find path = some ip)
    (hlock : (s.itable ip).locked = false)
    (h : Ends allow () (buildImage K (s.kernel.proc i).sz (s.kernel.proc i).pagetable
      (s.kernel.proc i).trapframe (D.content ip) argv) s.kernel.kmem fun o m =>
        Ends allow () (o.elim (pure (-1)) (install K i path (s.kernel.proc i)))
          { s with kernel := { s.kernel with kmem := m } } Q) :
    Ends allow () (kexec D K i path argv) s Q := by
  -- every way out before the stack is built, but for the table
  have hclose : ∀ m, Ends allow () (pure (-1)) { s with kernel := { s.kernel with kmem := m } } Q →
      Ends allow () (do letGo ip; pure (-1))
        { s.opened ip with kernel := { s.kernel with kmem := m } } Q := fun m hm =>
    Ends.seq (ends_letGo hlock hm)
  rw [kexec]
  apply ends_look_bind.mpr
  apply ends_act_bind.mpr
  rw [namei, hip]
  refine Ends.seq (ends_act_bind.mpr (ends_pure.mpr ?_))
  refine Ends.seq (ends_ilock ?_ ?_ ?_)
  · rw [setInode_self]
    exact Nat.succ_pos _
  · rw [setInode_self]
    exact hlock
  rw [setInode_setInode, setInode_self]
  rw [buildImage] at h
  dsimp only at h ⊢
  split_ifs at h ⊢
  · exact hclose _ h
  · exact hclose _ h
  refine Ends.seq (ends_vmem ((ends_bind.mp h).mono fun o m h => ?_))
  cases o with
  | none => exact hclose m h
  | some pagetable =>
    refine Ends.seq (ends_vmem ((ends_bind.mp h).mono fun o m h => ?_))
    obtain ⟨b, sz⟩ := o
    cases b with
    | true =>
      refine Ends.seq (ends_letGo hlock (ends_look_bind.mpr ?_))
      refine Ends.seq (ends_vmem (h.mono fun o m h => ?_))
      cases o with
      | none => exact h
      | some img => exact h
    | false =>
      refine Ends.seq (ends_vmem ((ends_bind.mp h).mono fun _ m h => ?_))
      exact hclose m h

/-! ### All or nothing -/

/-- What is as it was after a call that failed: the process table, names and open files, inodes and
transactions, every page that was in use, and the pages that were free. -/
structure Unchanged (s s' : Sys) : Prop where
  proc : s'.kernel.proc = s.kernel.proc
  pipes : s'.kernel.files = s.kernel.files
  mem : ∀ q ∉ s.kernel.kmem.freelist, s'.kernel.kmem.mem q = s.kernel.kmem.mem q
  free : s'.kernel.kmem.freelist.Perm s.kernel.kmem.freelist
  name : s'.name = s.name
  ofile : s'.ofile = s.ofile
  itable : s'.itable = s.itable
  outstanding : s'.outstanding = s.outstanding

/-- What a call that succeeded has changed: the image of `ip` is in place, and the process has the
name of the program. -/
structure Replaced (K : Layout) (boot : ℕ → Prop) (i : Fin NPROC) (ip : File) (path : List UInt8)
    (argv : List (List UInt8)) (s s' : Sys) : Prop where
  kernel : ∃ img, Installed K boot i ip argv img s.kernel s'.kernel
  name : s'.name = update s.name i ((lastFrom path path).take 15)
  ofile : s'.ofile = s.ofile
  itable : s'.itable = s.itable
  outstanding : s'.outstanding = s.outstanding

theorem Unchanged.of_restored {m : Kmem} (h : Owned K ∅ s.kernel.kmem own)
    (hR : Restored K s.kernel.kmem own m) :
    Unchanged s { s with kernel := { s.kernel with kmem := m } } where
  proc := rfl
  pipes := rfl
  mem q hq := hR.mem q fun hc => hq ((h.free q).mpr hc)
  free := (List.perm_ext_iff_of_nodup hR.owned.nodup h.nodup).mpr fun q => by
    rw [hR.owned.free, h.free]
  name := rfl
  ofile := rfl
  itable := rfl
  outstanding := rfl

/-- **`kexec` never panics; it succeeds, or returns -1 with everything as it was.**  If the image
can be built, it fails exactly if the arguments do not fit.  `argv` has strings as `strlen` can
measure, and not exactly `MAXARG` of them, which would write past the end of `ustack`: `sys_exec`
passes fewer. -/
theorem kexec_all_or_nothing (hI : Inv K boot s.kernel) (hrun : (s.kernel.proc i).state = .RUNNABLE)
    (hsz : (s.kernel.proc i).sz ≤ TRAPFRAME) (hlock : ∀ ip, (s.itable ip).locked = false)
    (hargc : argv.length ≠ MAXARG) (hargs : ∀ arg ∈ argv, arg.length + 1 < 2 ^ 31) :
    Ends (fun _ => False) () (kexec D K i path argv) s fun x s' =>
      (x = -1 ∧ Unchanged s s' ∨ ∃ ip, D.find path = some ip ∧ x = argv.length ∧
        Replaced K boot i (D.content ip) path argv s s') ∧
      ∀ ip, D.find path = some ip → Builds K s.kernel i (D.content ip) → (x < 0 ↔ ¬ Fits argv) := by
  obtain ⟨hW, own, h⟩ := hI
  have htf := h.trapframe_held (hW.runnable hrun).1
  cases hip : D.find path with
  | none =>
    rw [kexec, namei, hip]
    apply ends_look_bind.mpr
    apply ends_act_bind.mpr
    refine Ends.seq (ends_pure.mpr (ends_act_bind.mpr ?_))
    rw [Int.add_sub_cancel]
    exact ⟨Or.inl ⟨rfl, Unchanged.of_restored h.owned ⟨h.owned, fun _ _ => rfl⟩⟩, by simp⟩
  | some ip =>
    refine ends_kexec_of_buildImage hip (hlock ip) (ends_buildImage h.owned htf hargc hargs
      (fun hb : Builds K s.kernel i (D.content ip) => yields_of_built hb) (fun m hR hno => ?_)
      fun img m own' hf hle himg hpush => ?_)
    · refine ⟨Or.inl ⟨rfl, Unchanged.of_restored h.owned hR⟩, ?_⟩
      rintro _ ⟨⟩ hb
      exact iff_of_true (by decide) (hno hb)
    · obtain ⟨hfits, hargc', -⟩ := id hpush
      refine Ends.seq (ends_kern (ends_setWord fun b1 hb1 => ends_act_bind.mpr ?_))
      refine ends_kern (ends_commit hW h hrun hsz hf hle himg hpush hb1 fun k hk => ?_)
      refine ⟨Or.inr ⟨ip, rfl, congrArg _ hargc', ⟨img, hk⟩, rfl, rfl, rfl, rfl⟩, ?_⟩
      intro _ _ _
      exact iff_of_false (not_lt.mpr (Int.natCast_nonneg _)) (not_not.mpr hfits)

/-- A kernel in which no file is open. -/
def first (s : Kernel) : Sys := ⟨s, fun _ => ⟨0, false⟩, 0, fun _ => [], fun _ _ => none⟩

/-- A disk whose only file is the program of that path. -/
def oneProgram (path : List UInt8) : Disk :=
  ⟨fun p => if p = path then some 1 else none, fun _ => contents (program 0)⟩

set_option maxRecDepth 2000 in
/-- The first process becomes `/ls`. -/
theorem kexec_all_or_nothing_ls : ∃ s s', Inv smallLayout (fun _ => False) s ∧
    (kexec (oneProgram [47, 0x6c, 0x73]) smallLayout 0 [47, 0x6c, 0x73] [[0x6c, 0x73]]).run ()
      (first s) = .ok 1 s' ∧ s'.name 0 = [0x6c, 0x73] ∧
    (s'.kernel.proc 0).pagetable ≠ (s.proc 0).pagetable ∧
    (s.proc 0).pagetable ∈ s'.kernel.kmem.freelist := by
  obtain ⟨s, hI, hrun, hle, hb, -⟩ := exists_builds
  obtain ⟨x, s', hx, hout, hfail⟩ := (@kexec_all_or_nothing _ _ 0 (first s)
    (oneProgram [47, 0x6c, 0x73]) [47, 0x6c, 0x73] [[0x6c, 0x73]] hI hrun hle (fun _ => rfl)
    (by decide) (by decide)).exists_run
  have h0 : ¬ x < 0 := fun hc => (hfail 1 rfl hb).mp hc ⟨by decide, by decide⟩
  obtain ⟨rfl, -⟩ | ⟨ip, -, rfl, ⟨img, hk⟩, hname, -⟩ := hout
  · exact absurd (by decide) h0
  refine ⟨s, s', hI, hx, ?_, ?_, hk.freed _ ⟨0, 0, by decide, by decide, rfl⟩⟩
  · rw [hname]
    rfl
  · obtain ⟨-, own, h⟩ := hI
    rw [hk.after.proc, update_self]
    exact (h.pagetable_ne ((h.owned.free _).mp hk.fresh) 0).symm

end Sys

end Xv6.Process
