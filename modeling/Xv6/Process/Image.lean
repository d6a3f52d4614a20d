import Xv6.Process.Machine

/-!
# What a program finds in its memory

`kexec` gives `uvmalloc` the sizes that the program headers of a file ask for, and `loadseg` reads
the segments into the pages, one page at a time.  Segments may come in any order and leave gaps.

The fields of a program header have 64 bits, but `loadseg` takes the offset of a segment as a
`uint`.  A segment that begins beyond `2 ^ 32`, where no file has a byte, is not refused: what is
loaded is found at the remainder.

## Main definitions

* `contents` — what `readi` delivers from a file.
* `Kmem.peek` — the byte at a virtual address.

## Main results

* `segments_loaded` — **memory holds the segments, and zeros elsewhere**, but for segments whose
  offset does not fit into 32 bits: these are beyond the end of the file.
* `segment_beyond_file` — such a file is accepted.
* `arguments_pushed` — **the new stack holds the strings of `argv` and the array of their
  addresses**, and `kexec` fails exactly if they do not fit.
-/

namespace Xv6.Process

open Conc Vm

variable {K : Layout} {boot : ℕ → Prop} {m : Kmem} {s : Kernel} {i : Fin NPROC} {c c' : ℕ → UInt8}
  {b : List UInt8} {argv : List (List UInt8)} {r va n off : ℕ}

/-! ### Files and memory -/

/-- What `readi` delivers from a file with the bytes `b`. -/
def contents (b : List UInt8) : File := fun off n =>
  if off > b.length ∨ (off + n) % 2 ^ 32 < off then [] else (b.drop off).take n

/-- The byte at a virtual address. -/
def Kmem.peek (m : Kmem) (r va : ℕ) : Option UInt8 :=
  (m.map r (va / PGSIZE)).map fun e => m.mem e.1 (va % PGSIZE)

theorem Holds.peek (hh : Holds m r n c) (hva : va / PGSIZE < n) :
    Kmem.peek m r va = some (c va) := by
  obtain ⟨hval, hb⟩ := hh _ hva
  unfold Kmem.peek
  rw [Table.map_eq rfl hval, Option.map_some, hb _ (Nat.mod_lt _ (by decide)), Nat.div_add_mod']

theorem readi_contents (hn : 0 < n) (h : (readi (contents b) off n).length = n) :
    off + n ≤ b.length ∧ ∀ a < n, (readi (contents b) off n).getD a 0 = b.getD (off + a) 0 := by
  unfold readi contents at h ⊢
  split_ifs at h ⊢ with hc
  · rw [List.take_nil, List.length_nil] at h
    omega
  · rw [List.take_take, Nat.min_self] at h ⊢
    rw [List.length_take, List.length_drop] at h
    refine ⟨by omega, fun a ha => ?_⟩
    simp [List.getD_eq_getElem?_getD, ha, List.getElem?_drop]

/-- The bytes of a segment that was loaded. -/
theorem Patched.of_contents {offset fsz : ℕ} (hb : b.length < 2 ^ 32) (ho : offset < 2 ^ 32)
    (h : Patched (contents b) va offset fsz 0 c c') : (0 < fsz → offset + fsz ≤ b.length) ∧
      ∀ k < fsz, c' (va + k) = b.getD (offset + k) 0 := by
  have hpage : ∀ q, q * 4096 < fsz → offset + q * 4096 < 2 ^ 32 →
      offset + q * 4096 + min (fsz - q * 4096) 4096 ≤ b.length ∧
      ∀ a < min (fsz - q * 4096) 4096, c' (va + q * 4096 + a) = b.getD
        (offset + q * 4096 + a) 0 := by
    intro q hq hlt
    have hfull := h.full _ (Nat.zero_le _) hq (Nat.mul_mod_left _ _)
    have hbytes := h.bytes _ (Nat.zero_le _) hq (Nat.mul_mod_left _ _)
    unfold segPage at hfull hbytes
    rw [Nat.mod_eq_of_lt hlt] at hfull hbytes
    obtain ⟨hle, hget⟩ := readi_contents (show 0 < min (fsz - q * 4096) 4096 by omega) hfull
    exact ⟨hle, fun a ha => (hbytes a ha).trans (hget a ha)⟩
  -- the page before lies in the file, so that the offset does not wrap around
  have hlow : ∀ q, q * 4096 < fsz → offset + q * 4096 < 2 ^ 32 := by
    intro q hq
    induction q with
    | zero => omega
    | succ q ih =>
      have hq' : q * 4096 < fsz := lt_of_le_of_lt (Nat.mul_le_mul_right _ (Nat.le_succ q)) hq
      have hprev := (hpage q hq' (ih hq')).1
      clear ih
      omega
  refine ⟨fun hpos => ?_, fun k hk => ?_⟩
  · have hq : (fsz - 1) / 4096 * 4096 < fsz := by omega
    have hlast := (hpage _ hq (hlow _ hq)).1
    omega
  · have hq : k / 4096 * 4096 < fsz := by omega
    have hbyte := (hpage _ hq (hlow _ hq)).2 (k % 4096) (by omega)
    rwa [Nat.add_assoc, Nat.add_assoc, Nat.div_add_mod'] at hbyte

/-! ### The image -/

/-- **After `kexec`, memory holds the segments of the file, with zeros after them and between
them.**  A segment of at least one byte is within the file exactly if its offset fits into 32 bits;
otherwise `loadseg` has taken the remainder for the offset. -/
theorem segments_loaded (hI : Inv K boot s) (hrun : (s.proc i).state = .RUNNABLE)
    (hsz : (s.proc i).sz ≤ TRAPFRAME) (hargc : argv.length ≠ MAXARG)
    (hargs : ∀ arg ∈ argv, arg.length + 1 < 2 ^ 31) (hb : b.length < 2 ^ 32)
    (hapart : (programSegments (contents b)).Pairwise Proghdr.Apart) :
    Ends (fun _ => False) () (kexec K i (some (contents b)) argv) s fun x s' => 0 ≤ x →
      (∀ g ∈ programSegments (contents b),
        (0 < g.filesz → (g.off + g.filesz ≤ b.length ↔ g.off < 2 ^ 32)) ∧
        (g.off < 2 ^ 32 → ∀ k < g.filesz,
          Kmem.peek s'.kmem (s'.proc i).pagetable (g.vaddr + k) = b[g.off + k]?) ∧
        ∀ k, g.filesz ≤ k → k < g.memsz →
          Kmem.peek s'.kmem (s'.proc i).pagetable (g.vaddr + k) = some 0) ∧
      ∀ va < (s'.proc i).sz - USERSTACK * PGSIZE,
        (∀ g ∈ programSegments (contents b), va < g.vaddr ∨ g.vaddr + g.memsz ≤ va) →
        Kmem.peek s'.kmem (s'.proc i).pagetable va = some 0 := by
  refine ends_kexec hI hrun hsz hargc hargs (fun s' _ _ hx => absurd hx (by decide))
    fun ip ⟨r, sz, _, _, _⟩ s' hip hs' _ => ?_
  obtain rfl : contents b = ip := Option.some.inj hip
  obtain ⟨-, c, top, htop, hp, rfl, -, hh⟩ := hs'.imaged
  rw [hs'.after.proc, Function.update_self]
  have htop : top < 2 ^ 32 := lt_of_le_of_lt htop (by decide)
  -- where no segment has a byte of the file
  have hzero : ∀ va < (pages top + 1) * 4096, (∀ g ∈ programSegments (contents b),
      va < g.vaddr ∨ g.vaddr + g.filesz ≤ va) → Kmem.peek s'.kmem r va = some 0 := by
    intro va hva hout
    have hpg : va / PGSIZE < pages top + 1 := by
      show va / 4096 < pages top + 1
      omega
    rw [hh.peek hpg, hp.out va hout]
  have hbelow : ∀ va < top, va / PGSIZE < pages top + 1 := fun va hva =>
    Nat.lt_succ_of_lt (div_lt_pages hva)
  have hstack : (pages top + (USERSTACK + 1)) * PGSIZE - USERSTACK * PGSIZE =
      (pages top + 1) * 4096 := by
    show (pages top + 2) * 4096 - 1 * 4096 = (pages top + 1) * 4096
    omega
  rw [hstack]
  refine ⟨fun g hg => ?_, fun va hva hout => hzero va hva fun g hg => ?_⟩
  · obtain ⟨hms, hend⟩ := hp.inside g hg
    obtain ⟨c1, c2, hpt, hc⟩ := hp.patched hapart g hg
    rw [Nat.mod_eq_of_lt (show g.filesz < 2 ^ 32 by omega)] at hpt
    obtain ⟨hin, hbytes⟩ := hpt.of_contents hb (Nat.mod_lt _ (by decide))
    refine ⟨fun hpos => ?_, fun hoff k hk => ?_, fun k hk hk' => hzero _ ?_ fun g' hg' => ?_⟩
    · have := hin hpos
      omega
    · rw [Nat.mod_eq_of_lt hoff] at hin hbytes
      have := hin (by omega)
      rw [hh.peek (hbelow _ (by omega)), hc _ (by omega) (by omega), hbytes k hk,
        List.getD_eq_getElem?_getD, List.getElem?_eq_getElem (by omega), Option.getD_some]
    · have := Nat.div_lt_iff_lt_mul (by decide) |>.mp (hbelow (g.vaddr + k) (by omega))
      exact this
    · obtain rfl | heq := eq_or_ne g' g
      · omega
      · -- another segment does not reach into this one's pages
        by_contra hc'
        have : Std.Symm Proghdr.Apart := ⟨fun g g' hgg v hv => hgg v ⟨hv.2, hv.1⟩⟩
        have hms' := (hp.inside g' hg').1
        exact hapart.forall hg hg' (Ne.symm heq) ((g.vaddr + k) / PGSIZE)
          ⟨⟨Nat.div_le_div_right (by omega), div_lt_pages (by omega)⟩,
            Nat.div_le_div_right (by omega), div_lt_pages (by omega)⟩
  · have hms := (hp.inside g hg).1
    have := hout g hg
    omega

/-! ### The arguments -/

/-- Every subtraction that lowers the stack pointer, from `sp` on and after `argc` arguments, is
from a number that is not smaller. -/
def NoUnderflow (stackbase : ℕ) : List (List UInt8) → ℕ → ℕ → Prop
  | [], sp, argc => (argc + 1) * 8 ≤ sp
  | arg :: argv, sp, argc => arg.length + 1 ≤ sp ∧
      (stackbase ≤ sp - (arg.length + 1) - (sp - (arg.length + 1)) % 16 →
        NoUnderflow stackbase argv (sp - (arg.length + 1) - (sp - (arg.length + 1)) % 16)
          (argc + 1))

theorem noUnderflow {stackbase : ℕ} (hb : PGSIZE ≤ stackbase) (argv : List (List UInt8)) :
    ∀ sp argc, (∀ arg ∈ argv, arg.length < PGSIZE) → argc + argv.length < MAXARG → stackbase ≤ sp →
      NoUnderflow stackbase argv sp argc := by
  induction argv with
  | nil =>
    intro sp argc _ hargc hsp
    have hargc : argc < 32 := hargc
    have hb : 4096 ≤ stackbase := hb
    show (argc + 1) * 8 ≤ sp
    omega
  | cons arg argv ih =>
    intro sp argc hargs hargc hsp
    rw [List.length_cons] at hargc
    have harg := hargs arg List.mem_cons_self
    exact ⟨by omega, ih _ _ (fun a ha => hargs a (List.mem_cons_of_mem _ ha)) (by omega)⟩

/-- **After `kexec`, the arguments and the array of pointers to them are on the stack**, one below
the other from `sz` down to the address in the registers `sp` and `a1`; the result is for `a0`.  If
the image can be built, `kexec` fails exactly if they do not fit.  No subtraction underflows,
whatever the size is with the stack. -/
theorem arguments_pushed {ip : File} (hI : Inv K boot s) (hrun : (s.proc i).state = .RUNNABLE)
    (hsz : (s.proc i).sz ≤ TRAPFRAME) (hargc : argv.length < MAXARG)
    (hargs : ∀ arg ∈ argv, arg.length < PGSIZE) :
    (Ends (fun _ => False) () (kexec K i (some ip) argv) s fun x s' =>
      (0 ≤ x → x = argv.length ∧ ∃ c sp ps, ps.map Prod.snd = argv.map (· ++ [0]) ∧
        Bytes.get 8 (s'.kmem.mem (s'.proc i).trapframe) 48 = sp ∧
        Bytes.get 8 (s'.kmem.mem (s'.proc i).trapframe) 120 = sp ∧ sp < (s'.proc i).sz ∧
        (∀ va < (s'.proc i).sz, Kmem.peek s'.kmem (s'.proc i).pagetable va = some (c va)) ∧
        Pile c ((s'.proc i).sz - USERSTACK * PGSIZE) (s'.proc i).sz sp
          (ps ++ [(sp, wordBytes (ps.map Prod.fst ++ [0]))])) ∧
      (Builds K s i ip → (x < 0 ↔ ¬ Fits argv))) ∧
    ∀ sz, (USERSTACK + 1) * PGSIZE ≤ sz → NoUnderflow (sz - USERSTACK * PGSIZE) argv sz 0 := by
  refine ⟨ends_kexec hI hrun hsz hargc.ne (fun arg harg => ?_) (fun s' _ hno => ?_)
    fun ip' img s' _ hs' => ?_, fun sz hsz => ?_⟩
  · exact lt_of_lt_of_le (Nat.succ_lt_succ (hargs arg harg)) (by decide)
  · exact ⟨fun hc => absurd hc (by decide), fun hb => iff_of_true (by decide) (hno ip rfl hb)⟩
  · obtain ⟨hfits, hargc', c, ps, hps, hh, hp⟩ := hs'.pushed
    refine ⟨fun _ => ⟨congrArg _ hargc', c, img.sp, ps, hps, ?_⟩,
      fun _ => iff_of_false (not_lt.mpr (Int.natCast_nonneg _)) (not_not.mpr hfits)⟩
    rw [hs'.after.proc, Function.update_self, hs'.regs]
    obtain ⟨-, htop⟩ := hp.inside _ (List.mem_append_right _ (List.mem_singleton_self _))
    rw [wordBytes_length, List.length_append, List.length_singleton] at htop
    have hlt : img.sp < img.sz := by omega
    have hsp : img.sp < 256 ^ 8 := lt_of_lt_of_le hlt (hs'.le.trans (by decide))
    refine ⟨Bytes.get_set_self hsp, ?_, hlt, fun va hva => hh.peek (div_lt_pages hva), hp⟩
    rw [Bytes.get_set_of_disjoint (by decide), Bytes.get_set_of_disjoint (by decide),
      Bytes.get_set_self hsp]
  · refine noUnderflow ?_ argv sz 0 hargs (by omega) (Nat.sub_le _ _)
    exact Nat.le_sub_of_add_le (by rwa [Nat.add_mul] at hsz)

/-! ### A program -/

/-- A file with one segment, of one byte. -/
def program (off : ℕ) : List UInt8 :=
  wordBytes [ELF_MAGIC, 0, 0, 0, ELFHDR, 0, 0, 1] ++ wordBytes [ELF_PROG_LOAD, off, 0, 0, 1, 1, 0]

theorem exists_builds : ∃ s, Inv smallLayout (fun _ => False) s ∧ (s.proc 0).state = .RUNNABLE ∧
    (s.proc 0).sz ≤ TRAPFRAME ∧ Builds smallLayout s 0 (contents (program 0)) ∧
    Builds smallLayout s 0 (contents (program (2 ^ 32))) := by
  obtain ⟨s, hs, hP⟩ := exists_of_play (fun _ _ _ _ hreq => hreq)
    (P := fun s => (s.proc 0).state = .RUNNABLE ∧ (s.proc 0).sz ≤ TRAPFRAME ∧
      Builds smallLayout s 0 (contents (program 0)) ∧
      Builds smallLayout s 0 (contents (program (2 ^ 32)))) [] (by decide +kernel)
  exact ⟨s, (sizes_of_reachable hs).1, hP⟩

theorem ends_kexec_built {ip : File} (hI : Inv K boot s) (hrun : (s.proc i).state = .RUNNABLE)
    (hsz : (s.proc i).sz ≤ TRAPFRAME) (hbuilt : Builds K s i ip) :
    Ends (fun _ => False) () (kexec K i (some ip) []) s fun x _ => 0 ≤ x := by
  refine ends_kexec hI hrun hsz (by decide) (by simp) (fun s' _ hno => ?_)
    fun _ img _ _ _ => Int.natCast_nonneg img.argc
  exact absurd ⟨by decide, by decide⟩ (hno ip rfl hbuilt)

set_option maxRecDepth 2000 in
/-- **A segment that is beyond the end of the file is loaded**: its offset is `2 ^ 32`. -/
theorem segment_beyond_file : ∃ s s' x g, Inv smallLayout (fun _ => False) s ∧
    (s.proc 0).state = .RUNNABLE ∧ (s.proc 0).sz ≤ TRAPFRAME ∧
    (kexec smallLayout 0 (some (contents (program (2 ^ 32)))) []).run () s = .ok x s' ∧ 0 ≤ x ∧
    programSegments (contents (program (2 ^ 32))) = [g] ∧ 0 < g.filesz ∧
    (program (2 ^ 32)).length < g.off + g.filesz := by
  obtain ⟨s, hI, hrun, hle, -, hb⟩ := exists_builds
  obtain ⟨x, s', hx, h0⟩ := (ends_kexec_built hI hrun hle hb).exists_run
  exact ⟨s, s', x, ⟨2 ^ 32, 0, 1, 1⟩, hI, hrun, hle, hx,
    h0, by decide +kernel, by decide, by decide⟩

set_option maxRecDepth 2000 in
/-- The byte of a program that is loaded from the beginning of its file. -/
theorem segments_loaded_program :
    ∃ s s' x, (kexec smallLayout 0 (some (contents (program 0))) []).run () s =
    .ok x s' ∧ 0 ≤ x ∧ Kmem.peek s'.kmem (s'.proc 0).pagetable 0 = some 0x7f := by
  obtain ⟨s, hI, hrun, hle, hb, -⟩ := exists_builds
  have hseg : programSegments (contents (program 0)) = [⟨0, 0, 1, 1⟩] := by decide +kernel
  have hload := segments_loaded (b := program 0) hI hrun hle (show ([] : List (List UInt8)).length ≠
    MAXARG by decide)
    (fun _ harg => absurd harg List.not_mem_nil) (by decide)
    (by rw [hseg]; exact List.pairwise_singleton _ _)
  obtain ⟨x, s', hx, h0, hl⟩ := ((ends_kexec_built hI hrun hle hb).and hload).exists_run
  refine ⟨s, s', x, hx, h0, ?_⟩
  have hbyte := ((hl h0).1 _ (by rw [hseg]; exact List.mem_singleton_self _)).2.1
    (by decide) 0 (by decide)
  rw [hbyte]
  decide +kernel

set_option maxRecDepth 2000 in
/-- A program is given its name. -/
theorem arguments_pushed_name :
    ∃ s s', (kexec smallLayout 0 (some (contents (program 0))) [[0x6c, 0x73]]).run () s =
    .ok 1 s' := by
  obtain ⟨s, hI, hrun, hle, hb, -⟩ := exists_builds
  obtain ⟨x, s', hx, hok, hfits⟩ := (arguments_pushed hI hrun hle
    (show [[(0x6c : UInt8), 0x73]].length < MAXARG by decide) (by decide)).1.exists_run
  have h0 : ¬ x < 0 := fun hc => (hfits hb).mp hc ⟨by decide, by decide⟩
  obtain ⟨rfl, -⟩ := hok (not_lt.mp h0)
  exact ⟨s, s', hx⟩

end Xv6.Process
