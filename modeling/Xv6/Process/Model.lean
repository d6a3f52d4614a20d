import Xv6.Vm.Model
import Xv6.Param

/-!
# Processes and their memory

The parts of `kernel/proc.c`, `kernel/sysproc.c`, `kernel/exec.c`,
`kernel/trap.c` and `kernel/pipe.c` that decide what happens to physical memory:
how processes are made, grown, copied, replaced and freed, and how pipes are.
System calls run one after the other; the process that makes a call is an
argument, where the source asks for `myproc()`.

What the rest of the kernel answers is an argument too: the bytes `readi`
delivers from an executable, and whether `filealloc` finds an entry.  Pointers
are page numbers, and the null pointer is page 0.

## Main definitions

* `Proc`, `Kernel` — the process table, physical memory, and the open pipe ends.
* `allocproc`, `freeproc`, `userinit`, `growproc`, `sys_sbrk`, `kfork`, `kexit`,
  `kwait`, `kexec`, `pagefault`, `pipealloc`, `pipeclose`.
-/

namespace Xv6.Process

open Conc Vm

/-! ### State -/

inductive ProcState where
  | UNUSED
  | USED
  | SLEEPING
  | RUNNABLE
  | RUNNING
  | ZOMBIE
  deriving DecidableEq

/-- `struct proc`. -/
@[ext] structure Proc where
  state : ProcState
  killed : Bool
  xstate : ℤ
  pid : ℕ
  parent : Option (Fin NPROC)
  sz : ℕ
  pagetable : ℕ
  trapframe : ℕ
  deriving DecidableEq

/-- A free entry of the process table. -/
def Proc.unused : Proc := ⟨.UNUSED, false, 0, 0, none, 0, 0, 0⟩

/-- A process table, physical memory, and the open files that are ends of pipes:
the page of the pipe, and whether it is the end for writing. -/
structure Kernel where
  kmem : Kmem
  proc : Fin NPROC → Proc
  nextpid : ℕ
  initproc : Option (Fin NPROC)
  files : List (ℕ × Bool)

/-- A computation of the kernel. -/
abbrev KM := Prog Unit Kernel

/-- A computation on physical memory. -/
def vm {α : Type} (p : VmM α) : KM α := p.zoom Kernel.kmem fun m s => { s with kmem := m }

def getProc (i : Fin NPROC) : KM Proc := .look fun s => s.proc i

def Kernel.setProc (s : Kernel) (i : Fin NPROC) (p : Proc) : Kernel :=
  { s with proc := Function.update s.proc i p }

/-- Change fields of a process. -/
def modifyProc (i : Fin NPROC) (f : Proc → Proc) : KM Unit :=
  .act fun _ s => s.setProc i (f (s.proc i))

/-- `addr + n` for a signed `n`, in 64 bits. -/
def add64 (addr : ℕ) (n : ℤ) : ℕ := ((addr + n) % 2 ^ 64).toNat

/-- `a - b` in 64 bits. -/
def sub64 (a b : ℕ) : ℕ := (a + 2 ^ 64 - b % 2 ^ 64) % 2 ^ 64

/-- Set the 64-bit word at an offset of a page. -/
def setWord (p off v : ℕ) : VmM Unit := .act fun _ m => m.setPage p (Bytes.set 8 (m.mem p) off v)

/-! ### proc.c -/

/-- Create a user page table with trampoline and trapframe pages. -/
def proc_pagetable (K : Layout) (trapframe : ℕ) : VmM (Option ℕ) := do
  match ← uvmcreate with
  | none => pure none
  | some pagetable => do
      if ← mappages pagetable TRAMPOLINE PGSIZE K.trampoline (PTE_R ||| PTE_X) then do
        if ← mappages pagetable TRAPFRAME PGSIZE trapframe (PTE_R ||| PTE_W) then
          pure (some pagetable)
        else do
          uvmunmap K pagetable TRAMPOLINE 1 false
          uvmfree K pagetable 0
          pure none
      else do
        uvmfree K pagetable 0
        pure none

/-- Free a process's page table, and the physical memory it refers to. -/
def proc_freepagetable (K : Layout) (pagetable sz : ℕ) : VmM Unit := do
  uvmunmap K pagetable TRAMPOLINE 1 false
  uvmunmap K pagetable TRAPFRAME 1 false
  uvmfree K pagetable sz

/-- Free a proc structure and the data hanging from it. -/
def freeproc (K : Layout) (i : Fin NPROC) : KM Unit := do
  let p ← getProc i
  vm (if p.trapframe ≠ 0 then kfree K p.trapframe else pure ())
  modifyProc i fun p => { p with trapframe := 0 }
  vm (if p.pagetable ≠ 0 then proc_freepagetable K p.pagetable p.sz else pure ())
  modifyProc i fun _ => .unused

def allocpid : KM ℕ :=
  .atomic fun _ s => some (.done s.nextpid { s with nextpid := s.nextpid + 1 })

/-- The rest of `allocproc`, for the entry it has found. -/
def initProc (K : Layout) (i : Fin NPROC) : KM (Option (Fin NPROC)) := do
  let pid ← allocpid
  modifyProc i fun p => { p with pid := pid, state := .USED }
  match ← vm kalloc with
  | none => do
      modifyProc i fun p => { p with trapframe := 0 }
      freeproc K i
      pure none
  | some trapframe => do
      modifyProc i fun p => { p with trapframe := trapframe }
      match ← vm (proc_pagetable K trapframe) with
      | none => do
          modifyProc i fun p => { p with pagetable := 0 }
          freeproc K i
          pure none
      | some pagetable => do
          modifyProc i fun p => { p with pagetable := pagetable }
          pure (some i)

/-- Look in the process table for an unused entry, and set it up. -/
def allocproc (K : Layout) : KM (Option (Fin NPROC)) := do
  match ← .look fun s => (List.finRange NPROC).find? fun i => (s.proc i).state = .UNUSED with
  | none => pure none
  | some i => initProc K i

/-- Set up the first user process.  Without memory for it, the kernel faults. -/
def userinit (K : Layout) : KM Unit := do
  match ← allocproc K with
  | none => .stop "kerneltrap"
  | some i => do
      .act fun _ s => { s with initproc := some i }
      modifyProc i fun p => { p with state := .RUNNABLE }

/-- Grow or shrink user memory by `n` bytes; whether it succeeded. -/
def growproc (K : Layout) (i : Fin NPROC) (n : ℤ) : KM Bool := do
  let p ← getProc i
  if n > 0 then do
    let sz ← vm (uvmalloc K p.pagetable p.sz (add64 p.sz n) PTE_W)
    if sz = 0 then pure false
    else do
      modifyProc i fun p => { p with sz := sz }
      pure true
  else if n < 0 then do
    let sz ← vm (uvmdealloc K p.pagetable p.sz (add64 p.sz n))
    modifyProc i fun p => { p with sz := sz }
    pure true
  else pure true

/-- Copy the saved registers; the child's `a0` is 0. -/
def copyTrapframe (src dst : ℕ) : VmM Unit := do
  .act fun _ m => m.setPage dst (Bytes.write (m.mem dst) 0 (Bytes.read (m.mem src) 0 288))
  setWord dst 112 0

/-- Create a new process, copying the parent `i`; its pid. -/
def kfork (K : Layout) (i : Fin NPROC) : KM ℤ := do
  match ← allocproc K with
  | none => pure (-1)
  | some np => do
      let p ← getProc i
      let c ← getProc np
      if ← vm (uvmcopy K p.pagetable c.pagetable p.sz) then do
        modifyProc np fun c => { c with sz := p.sz }
        vm (copyTrapframe p.trapframe c.trapframe)
        modifyProc np fun c => { c with parent := some i }
        modifyProc np fun c => { c with state := .RUNNABLE }
        pure c.pid
      else do
        freeproc K np
        pure (-1)

/-- Pass the abandoned children of `i` to init. -/
def reparent (i : Fin NPROC) : KM Unit :=
  .act fun _ s =>
    { s with proc := fun j =>
        if (s.proc j).parent = some i then { s.proc j with parent := s.initproc } else s.proc j }

/-- Exit the process `i`. -/
def kexit (i : Fin NPROC) (status : ℤ) : KM Unit := do
  if (← .look fun s => s.initproc) = some i then .stop "init exiting"
  else do
    reparent i
    modifyProc i fun p => { p with xstate := status, state := .ZOMBIE }

/-- The four bytes of an `int`. -/
def intBytes (n : ℤ) : List UInt8 :=
  (List.range 4).map fun k => UInt8.ofNat ((n % 2 ^ 32).toNat / 256 ^ k)

/-- What `kwait` does with the zombie `j`. -/
def reap (K : Layout) (i : Fin NPROC) (addr : ℕ) (j : Fin NPROC) : KM ℤ := do
  let p ← getProc i
  let c ← getProc j
  if ← vm (if addr ≠ 0 then copyout K p.sz p.pagetable p.pagetable addr (intBytes c.xstate)
      else pure true) then do
    freeproc K j
    pure c.pid
  else pure (-1)

/-- Wait for a child to exit and return its pid; `none` if the process goes to
sleep, to scan the table again when it is woken up. -/
def kwait (K : Layout) (i : Fin NPROC) (addr : ℕ) : KM (Option ℤ) := do
  let s ← .look fun s => s
  match (List.finRange NPROC).find? fun j =>
      (s.proc j).parent = some i ∧ (s.proc j).state = .ZOMBIE with
  | some j => do
      let r ← reap K i addr j
      pure (some r)
  | none =>
      if ¬ (∃ j, (s.proc j).parent = some i) ∨ (s.proc i).killed then pure (some (-1))
      else pure none

/-- Copy to the memory of process `i`. -/
def either_copyout (K : Layout) (i : Fin NPROC) (dst : ℕ) (src : List UInt8) : KM Bool := do
  let p ← getProc i
  vm (copyout K p.sz p.pagetable p.pagetable dst src)

/-- Copy from the memory of process `i`. -/
def either_copyin (K : Layout) (i : Fin NPROC) (src len : ℕ) : KM (Bool × List UInt8) := do
  let p ← getProc i
  vm (copyin K p.sz p.pagetable p.pagetable src len)

/-! ### sysproc.c and trap.c -/

/-- `SBRK_EAGER`. -/
abbrev SBRK_EAGER : ℤ := 1

/-- Change the size of process `i` by `n`: at once, or lazily; the old size. -/
def sys_sbrk (K : Layout) (i : Fin NPROC) (n t : ℤ) : KM ℤ := do
  let p ← getProc i
  if t = SBRK_EAGER ∨ n < 0 then do
    if ← growproc K i n then pure p.sz else pure (-1)
  else if add64 p.sz n < p.sz then pure (-1)
  else do
    modifyProc i fun p => { p with sz := add64 p.sz n }
    pure p.sz

/-- What `usertrap` does about a page fault at `va`. -/
def pagefault (K : Layout) (i : Fin NPROC) (va : ℕ) : KM Unit := do
  let p ← getProc i
  match ← vm (vmfault K p.sz p.pagetable p.pagetable va) with
  | some _ => pure ()
  | none => do
      modifyProc i fun p => { p with killed := true }
      kexit i (-1)

/-! ### pipe.c -/

/-- Where the fields of `struct pipe` are: after the lock and the 512 bytes of data. -/
abbrev NREAD : ℕ := 536
abbrev NWRITE : ℕ := 540
abbrev READOPEN : ℕ := 544
abbrev WRITEOPEN : ℕ := 548

/-- Set a field of a pipe. -/
def setPipe (pi field v : ℕ) : VmM Unit :=
  .act fun _ m => m.setPage pi (Bytes.set 4 (m.mem pi) field v)

/-- A new pipe is open at both ends and empty. -/
def initPipe (pi : ℕ) : VmM Unit := do
  setPipe pi READOPEN 1
  setPipe pi WRITEOPEN 1
  setPipe pi NWRITE 0
  setPipe pi NREAD 0

/-- Make a pipe; `f0` and `f1` say whether `filealloc` finds an entry. -/
def pipealloc (f0 f1 : Bool) : KM Bool :=
  if f0 = false ∨ f1 = false then pure false
  else do
    match ← vm kalloc with
    | none => pure false
    | some pi => do
        vm (initPipe pi)
        .act fun _ s => { s with files := (pi, false) :: (pi, true) :: s.files }
        pure true

/-- Close one end of a pipe; the last one frees it. -/
def pipeclose (K : Layout) (pi : ℕ) (writable : Bool) : VmM Unit := do
  setPipe pi (if writable then WRITEOPEN else READOPEN) 0
  let b ← .look fun m => m.mem pi
  if Bytes.get 4 b READOPEN = 0 ∧ Bytes.get 4 b WRITEOPEN = 0 then kfree K pi else pure ()

/-- What `fileclose` does with the last reference to the end of a pipe. -/
def closePipe (K : Layout) (f : ℕ × Bool) : KM Unit := do
  .act fun _ s => { s with files := s.files.erase f }
  vm (pipeclose K f.1 f.2)

/-! ### exec.c -/

/-- What `readi` delivers from an executable, for an offset and a length. -/
abbrev File := ℕ → ℕ → List UInt8

def readi (ip : File) (off n : ℕ) : List UInt8 := (ip off n).take n

/-- A field of a structure that has been read. -/
def field (bytes : List UInt8) (off len : ℕ) : ℕ := Bytes.get len (fun i => bytes.getD i 0) off

abbrev ELF_MAGIC : ℕ := 0x464C457F
abbrev ELF_PROG_LOAD : ℕ := 1

/-- The sizes of `struct elfhdr` and `struct proghdr`. -/
abbrev ELFHDR : ℕ := 64
abbrev PROGHDR : ℕ := 56

/-- Map ELF permissions to page-table permission bits. -/
def flags2perm (flags : ℕ) : ℕ :=
  (if flags &&& 1 ≠ 0 then PTE_X else 0) ||| (if flags &&& 2 ≠ 0 then PTE_W else 0)

/-- The loop of `loadseg`, for the pages that are left. -/
def loadsegFrom (pagetable va : ℕ) (ip : File) (offset sz : ℕ) : ℕ → ℕ → VmM Bool
  | 0, _ => pure true
  | n + 1, i => do
      match ← walkaddr pagetable ((va + i) % 2 ^ 64) with
      | none => .stop "loadseg: address should exist"
      | some pa => do
          .act fun _ m => m.setPage pa
            (Bytes.write (m.mem pa) 0 (readi ip ((offset + i) % 2 ^ 32) (min (sz - i) PGSIZE)))
          if (readi ip ((offset + i) % 2 ^ 32) (min (sz - i) PGSIZE)).length ≠ min (sz - i) PGSIZE
          then pure false
          else loadsegFrom pagetable va ip offset sz n (i + PGSIZE)

/-- Load a program segment at `va`, whose pages must exist. -/
def loadseg (pagetable va : ℕ) (ip : File) (offset sz : ℕ) : VmM Bool :=
  loadsegFrom pagetable va ip offset sz ((sz + PGSIZE - 1) / PGSIZE) 0

/-- The loop of `kexec` over the program headers; whether it went through, and the
size so far. -/
def loadSegments (K : Layout) (pagetable : ℕ) (ip : File) : ℕ → ℕ → ℕ → VmM (Bool × ℕ)
  | 0, _, sz => pure (true, sz)
  | n + 1, off, sz =>
      let ph := readi ip off PROGHDR
      let vaddr := field ph 16 8
      let filesz := field ph 32 8
      let memsz := field ph 40 8
      if ph.length ≠ PROGHDR then pure (false, sz)
      else if field ph 0 4 ≠ ELF_PROG_LOAD then
        loadSegments K pagetable ip n ((off + PROGHDR) % 2 ^ 32) sz
      else if memsz < filesz then pure (false, sz)
      else if (vaddr + memsz) % 2 ^ 64 < vaddr then pure (false, sz)
      else if vaddr % PGSIZE ≠ 0 then pure (false, sz)
      else do
        let sz1 ← uvmalloc K pagetable sz ((vaddr + memsz) % 2 ^ 64) (flags2perm (field ph 4 4))
        if sz1 = 0 then pure (false, sz)
        else do
          if ← loadseg pagetable vaddr ip (field ph 8 8 % 2 ^ 32) (filesz % 2 ^ 32) then
            loadSegments K pagetable ip n ((off + PROGHDR) % 2 ^ 32) sz1
          else pure (false, sz1)

/-- Copy the argument strings to the new stack; the stack pointer and the addresses
of the strings.  The process has size `psz` and table `ppt`. -/
def pushArgs (K : Layout) (psz ppt pagetable stackbase : ℕ) :
    List (List UInt8) → ℕ → List ℕ → VmM (Option (ℕ × List ℕ))
  | [], sp, ustack => pure (some (sp, ustack))
  | arg :: argv, sp, ustack =>
      if ustack.length ≥ MAXARG then pure none
      else
        let sp := sub64 sp (arg.length + 1)
        let sp := sp - sp % 16
        if sp < stackbase then pure none
        else do
          if ← copyout K psz ppt pagetable sp (arg ++ [0]) then
            pushArgs K psz ppt pagetable stackbase argv sp (ustack ++ [sp])
          else pure none

/-- The bytes of an array of 64-bit words. -/
def wordBytes (ws : List ℕ) : List UInt8 :=
  ws.flatMap fun w => (List.range 8).map fun k => UInt8.ofNat (w / 256 ^ k)

/-- A user image that `kexec` has built. -/
structure Image where
  pagetable : ℕ
  sz : ℕ
  sp : ℕ
  argc : ℕ
  entry : ℕ

/-- `bad:`, once there is a page table. -/
def bad (K : Layout) (pagetable sz : ℕ) : VmM (Option Image) := do
  proc_freepagetable K pagetable sz
  pure none

/-- Push the array of argument pointers.  With `MAXARG` of them there is no room in it
for the null pointer at its end, and the kernel writes past the array. -/
def pushUstack (K : Layout) (psz ppt pagetable sz stackbase entry sp : ℕ) (ustack : List ℕ) :
    VmM (Option Image) :=
  let sp := sub64 sp ((ustack.length + 1) * 8)
  let sp := sp - sp % 16
  if ustack.length ≥ MAXARG then .stop "ustack: out of bounds"
  else if sp < stackbase then bad K pagetable sz
  else do
    if ← copyout K psz ppt pagetable sp (wordBytes (ustack ++ [0])) then
      pure (some ⟨pagetable, sz, sp, ustack.length, entry⟩)
    else bad K pagetable sz

/-- The part of `kexec` that builds the user stack. -/
def pushStack (K : Layout) (psz ppt pagetable sz entry : ℕ) (argv : List (List UInt8)) :
    VmM (Option Image) := do
  let sz1 ← uvmalloc K pagetable (PGROUNDUP sz) (PGROUNDUP sz + (USERSTACK + 1) * PGSIZE) PTE_W
  if sz1 = 0 then bad K pagetable (PGROUNDUP sz)
  else do
    uvmclear pagetable (sz1 - (USERSTACK + 1) * PGSIZE)
    match ← pushArgs K psz ppt pagetable (sz1 - USERSTACK * PGSIZE) argv sz1 [] with
    | none => bad K pagetable sz1
    | some (sp, ustack) =>
        pushUstack K psz ppt pagetable sz1 (sz1 - USERSTACK * PGSIZE) entry sp ustack

/-- The part of `kexec` that builds the new image, for a process of size `psz`,
table `ppt` and trapframe `trapframe`. -/
def buildImage (K : Layout) (psz ppt trapframe : ℕ) (ip : File) (argv : List (List UInt8)) :
    VmM (Option Image) :=
  let elf := readi ip 0 ELFHDR
  if elf.length ≠ ELFHDR then pure none
  else if field elf 0 4 ≠ ELF_MAGIC then pure none
  else do
    match ← proc_pagetable K trapframe with
    | none => pure none
    | some pagetable => do
        match ← loadSegments K pagetable ip (field elf 56 2) (field elf 32 8 % 2 ^ 32) 0 with
        | (true, sz) => pushStack K psz ppt pagetable sz (field elf 24 8) argv
        | (false, sz) => bad K pagetable sz

/-- The part of `kexec` that commits to the image, for the entry `p` of process `i`. -/
def commit (K : Layout) (i : Fin NPROC) (p : Proc) (img : Image) : KM ℤ := do
  modifyProc i fun p => { p with pagetable := img.pagetable, sz := img.sz }
  vm (setWord p.trapframe 24 img.entry)
  vm (setWord p.trapframe 48 img.sp)
  vm (proc_freepagetable K p.pagetable p.sz)
  pure img.argc

/-- Replace the memory of process `i`; `path` is the file that `namei` finds. -/
def kexec (K : Layout) (i : Fin NPROC) (path : Option File) (argv : List (List UInt8)) : KM ℤ :=
  match path with
  | none => pure (-1)
  | some ip => do
      let p ← getProc i
      match ← vm (buildImage K p.sz p.pagetable p.trapframe ip argv) with
      | none => pure (-1)
      | some img => do
          vm (setWord p.trapframe 120 img.sp)
          commit K i p img

end Xv6.Process
