import Xv6.Lib.Seq
import Xv6.Lib.Bytes
import Mathlib.Data.Nat.Bitwise

/-!
# Physical memory and page tables

`kernel/kalloc.c` and the page-table functions of `kernel/vm.c`.  A physical
page is named by its number, so that a pointer to page `p` is the address
`4096 * p`, and memory is a function from pages to bytes: page-table entries are
read from and written to the same bytes as everything else.

`kalloc` may fail at any call: `Kmem.fail` says at which.  The three-level
recursion of `freewalk` is on a depth that `uvmfree` provides.

## Main definitions

* `Kmem` — physical memory and the free list.
* `kalloc`, `kfree`, `walk`, `mappages`, `uvmunmap`, `uvmalloc`, `uvmdealloc`,
  `freewalk`, `uvmfree`, `uvmcopy`, `uvmclear`, `vmfault`, `copyout`, `copyin`, `copyinstr`.
-/

namespace Xv6.Vm

open Conc

/-! ### Addresses and page-table entries -/

abbrev PGSIZE : ℕ := 4096

/-- One beyond the highest virtual address. -/
abbrev MAXVA : ℕ := 2 ^ 38

abbrev TRAMPOLINE : ℕ := MAXVA - PGSIZE

abbrev TRAPFRAME : ℕ := TRAMPOLINE - PGSIZE

/-- The first page of `KERNBASE`. -/
abbrev KERNBASE : ℕ := 0x80000

/-- The page after the last one of the machine's 128 megabytes. -/
abbrev PHYSTOP : ℕ := KERNBASE + 128 * 256

def PGROUNDUP (sz : ℕ) : ℕ := (sz + PGSIZE - 1) % 2 ^ 64 / PGSIZE * PGSIZE

def PGROUNDDOWN (a : ℕ) : ℕ := a / PGSIZE * PGSIZE

abbrev PTE_V : ℕ := 1
abbrev PTE_R : ℕ := 2
abbrev PTE_W : ℕ := 4
abbrev PTE_X : ℕ := 8
abbrev PTE_U : ℕ := 16

/-- The page a page-table entry points to. -/
def PTE2PA (pte : ℕ) : ℕ := pte >>> 10

def PA2PTE (p : ℕ) : ℕ := p <<< 10

def PTE_FLAGS (pte : ℕ) : ℕ := pte % 2 ^ 10

/-- The index into the page-table page at a level, for a virtual address. -/
def PX (level va : ℕ) : ℕ := va / 2 ^ (12 + 9 * level) % 512

/-- Where the linker put the kernel: the first page after it, and the page of
the trampoline code. -/
structure Layout where
  kend : ℕ
  trampoline : ℕ
  kernbase_le : KERNBASE ≤ trampoline
  trampoline_lt : trampoline < kend
  kend_le : kend ≤ PHYSTOP

/-! ### Physical memory -/

/-- Physical memory and its allocator. -/
structure Kmem where
  /-- The bytes of every page. -/
  mem : ℕ → Bytes.Mem
  /-- `kmem.freelist`. -/
  freelist : List ℕ
  /-- Which calls of `kalloc` fail. -/
  fail : ℕ → Bool
  /-- How often `kalloc` has been called. -/
  calls : ℕ
  /-- Whether `kfree` was ever given a page that was free.  Nothing reads this: the
  source does not check it, and its list would close to a circle. -/
  refreed : Bool

/-- A computation on physical memory. -/
abbrev VmM := Prog Unit Kmem

namespace Kmem

variable (m : Kmem)

/-- Replace the contents of a page. -/
def setPage (p : ℕ) (b : Bytes.Mem) : Kmem := { m with mem := Function.update m.mem p b }

/-- Entry `i` of the page-table page `pt`. -/
def pte (pt i : ℕ) : ℕ := Bytes.get 8 (m.mem pt) (8 * i)

/-- Set entry `i` of the page-table page `pt`. -/
def setPte (pt i v : ℕ) : Kmem := m.setPage pt (Bytes.set 8 (m.mem pt) (8 * i) v)

end Kmem

/-- `memset(p, c, PGSIZE)`. -/
def memset (p : ℕ) (c : UInt8) : VmM Unit := .act fun _ m => m.setPage p fun _ => c

/-- `*pte = v`, for the entry `i` of `pt`. -/
def store (pt i v : ℕ) : VmM Unit := .act fun _ m => m.setPte pt i v

/-- Free the page `p`. -/
def kfree (K : Layout) (p : ℕ) : VmM Unit :=
  .atomic fun _ m =>
    if p < K.kend ∨ PHYSTOP ≤ p then some (.panic "kfree")
    else
      some (.done () { m.setPage p fun _ => 1 with
        freelist := p :: m.freelist
        refreed := m.refreed || decide (p ∈ m.freelist) })

/-- Allocate one page. -/
def kalloc : VmM (Option ℕ) :=
  .atomic fun _ m =>
    let m' := { m with calls := m.calls + 1 }
    if m.fail m.calls then some (.done none m')
    else
      match m.freelist with
      | [] => some (.done none m')
      | p :: ps => some (.done (some p) { m'.setPage p fun _ => 5 with freelist := ps })

/-! ### Page tables -/

/-- The loop of `walk`, from a level on. -/
def walkFrom (alloc : Bool) (va : ℕ) : ℕ → ℕ → VmM (Option (ℕ × ℕ))
  | 0, pt => pure (some (pt, PX 0 va))
  | level + 1, pt => do
      let pte ← .look fun m => m.pte pt (PX (level + 1) va)
      if pte &&& PTE_V ≠ 0 then walkFrom alloc va level (PTE2PA pte)
      else if alloc = false then pure none
      else
        match ← kalloc with
        | none => pure none
        | some p => do
            memset p 0
            store pt (PX (level + 1) va) (PA2PTE p ||| PTE_V)
            walkFrom alloc va level p

/-- The page and the index of the entry for `va`. -/
def walk (pagetable va : ℕ) (alloc : Bool) : VmM (Option (ℕ × ℕ)) :=
  if va ≥ MAXVA then .stop "walk" else walkFrom alloc va 2 pagetable

/-- Look up a virtual address; only user pages are found. -/
def walkaddr (pagetable va : ℕ) : VmM (Option ℕ) :=
  if va ≥ MAXVA then pure none
  else do
    match ← walk pagetable va false with
    | none => pure none
    | some (q, i) =>
        let pte ← .look fun m => m.pte q i
        if pte &&& PTE_V = 0 then pure none
        else if pte &&& PTE_U = 0 then pure none
        else pure (some (PTE2PA pte))

/-- The loop of `mappages`, for the pages that are left. -/
def mapFrom (pagetable perm : ℕ) : ℕ → ℕ → ℕ → VmM Bool
  | 0, _, _ => pure true
  | n + 1, a, p => do
      match ← walk pagetable a true with
      | none => pure false
      | some (q, i) =>
          let pte ← .look fun m => m.pte q i
          if pte &&& PTE_V ≠ 0 then .stop "mappages: remap"
          else do
            store q i (PA2PTE p ||| perm ||| PTE_V)
            mapFrom pagetable perm n (a + PGSIZE) (p + 1)

/-- Map `size` bytes from `va` to the pages from `p` on; whether there was room
for the page-table pages. -/
def mappages (pagetable va size p perm : ℕ) : VmM Bool :=
  if va % PGSIZE ≠ 0 then .stop "mappages: va not aligned"
  else if size % PGSIZE ≠ 0 then .stop "mappages: size not aligned"
  else if size = 0 then .stop "mappages: size"
  else mapFrom pagetable perm (size / PGSIZE) va p

/-- Create an empty user page table. -/
def uvmcreate : VmM (Option ℕ) := do
  match ← kalloc with
  | none => pure none
  | some p => do
      memset p 0
      pure (some p)

/-- `if(do_free) kfree(PTE2PA(*pte)); *pte = 0`. -/
def unmapEntry (K : Layout) (do_free : Bool) (q i pte : ℕ) : VmM Unit :=
  if do_free then do
    kfree K (PTE2PA pte)
    store q i 0
  else store q i 0

/-- One round of the loop of `uvmunmap`. -/
def unmapPage (K : Layout) (pagetable : ℕ) (do_free : Bool) (a : ℕ) : VmM Unit := do
  match ← walk pagetable a false with
  | none => pure ()
  | some (q, i) =>
      let pte ← .look fun m => m.pte q i
      if pte &&& PTE_V = 0 then pure () else unmapEntry K do_free q i pte

/-- The loop of `uvmunmap`, for the pages that are left. -/
def unmapFrom (K : Layout) (pagetable : ℕ) (do_free : Bool) : ℕ → ℕ → VmM Unit
  | 0, _ => pure ()
  | n + 1, a => do
      unmapPage K pagetable do_free a
      unmapFrom K pagetable do_free n (a + PGSIZE)

/-- Remove the mappings of `npages` pages from `va` on; they need not exist. -/
def uvmunmap (K : Layout) (pagetable va npages : ℕ) (do_free : Bool) : VmM Unit :=
  if va % PGSIZE ≠ 0 then .stop "uvmunmap: not aligned"
  else unmapFrom K pagetable do_free npages va

/-- A number that was stored in an `int`, as a `uint64`. -/
def viaInt (n : ℕ) : ℕ :=
  if n % 2 ^ 32 < 2 ^ 31 then n % 2 ^ 32 else n % 2 ^ 32 + (2 ^ 64 - 2 ^ 32)

/-- Give pages back to bring the size from `oldsz` to `newsz`. -/
def uvmdealloc (K : Layout) (pagetable oldsz newsz : ℕ) : VmM ℕ :=
  if newsz ≥ oldsz then pure oldsz
  else if PGROUNDUP newsz < PGROUNDUP oldsz then do
    let npages := viaInt ((PGROUNDUP oldsz - PGROUNDUP newsz) / PGSIZE)
    uvmunmap K pagetable (PGROUNDUP newsz) npages true
    pure newsz
  else pure newsz

/-- The loop of `uvmalloc`; `n` pages are left, and it started at `oldsz`. -/
def allocFrom (K : Layout) (pagetable oldsz newsz xperm : ℕ) : ℕ → ℕ → VmM ℕ
  | 0, _ => pure newsz
  | n + 1, a => do
      match ← kalloc with
      | none => do
          let _ ← uvmdealloc K pagetable a oldsz
          pure 0
      | some mem => do
          memset mem 0
          if ← mappages pagetable a PGSIZE mem (PTE_R ||| PTE_U ||| xperm) then
            allocFrom K pagetable oldsz newsz xperm n (a + PGSIZE)
          else do
            kfree K mem
            let _ ← uvmdealloc K pagetable a oldsz
            pure 0

/-- Allocate memory to grow from `oldsz` to `newsz`; the new size, or 0. -/
def uvmalloc (K : Layout) (pagetable oldsz newsz xperm : ℕ) : VmM ℕ :=
  if newsz < oldsz then pure oldsz
  else
    allocFrom K pagetable (PGROUNDUP oldsz) newsz xperm
      ((newsz - PGROUNDUP oldsz + PGSIZE - 1) / PGSIZE) (PGROUNDUP oldsz)

/-- One entry of the loop of `freewalk`; `free` frees a lower page-table page. -/
def freeEntry (free : ℕ → VmM Unit) (pagetable i : ℕ) : VmM Unit := do
  let pte ← .look fun m => m.pte pagetable i
  if pte &&& PTE_V ≠ 0 ∧ pte &&& (PTE_R ||| PTE_W ||| PTE_X) = 0 then do
    free (PTE2PA pte)
    store pagetable i 0
  else if pte &&& PTE_V ≠ 0 then .stop "freewalk: leaf"
  else pure ()

/-- The loop of `freewalk`, for the `n` entries from `i` on. -/
def freeFrom (free : ℕ → VmM Unit) (pagetable : ℕ) : ℕ → ℕ → VmM Unit
  | 0, _ => pure ()
  | n + 1, i => do
      freeEntry free pagetable i
      freeFrom free pagetable n (i + 1)

/-- Free page-table pages.  All leaf mappings must already have been removed. -/
def freewalk (K : Layout) : ℕ → ℕ → VmM Unit
  | 0, _ => .stop "freewalk: depth"
  | depth + 1, pagetable => do
      freeFrom (freewalk K depth) pagetable 512 0
      kfree K pagetable

/-- Free user memory pages, then free page-table pages. -/
def uvmfree (K : Layout) (pagetable sz : ℕ) : VmM Unit :=
  if sz > 0 then do
    uvmunmap K pagetable 0 (PGROUNDUP sz / PGSIZE) true
    freewalk K 3 pagetable
  else freewalk K 3 pagetable

/-- The loop of `uvmcopy`; `n` pages are left. -/
def copyFrom (K : Layout) (old new : ℕ) : ℕ → ℕ → VmM Bool
  | 0, _ => pure true
  | n + 1, i => do
      match ← walk old i false with
      | none => copyFrom K old new n (i + PGSIZE)
      | some (q, k) =>
          let pte ← .look fun m => m.pte q k
          if pte &&& PTE_V = 0 then copyFrom K old new n (i + PGSIZE)
          else
            match ← kalloc with
            | none => do
                uvmunmap K new 0 (i / PGSIZE) true
                pure false
            | some mem => do
                .act fun _ m => m.setPage mem (m.mem (PTE2PA pte))
                if ← mappages new i PGSIZE mem (PTE_FLAGS pte) then
                  copyFrom K old new n (i + PGSIZE)
                else do
                  kfree K mem
                  uvmunmap K new 0 (i / PGSIZE) true
                  pure false

/-- Copy a parent's memory into a child's page table; whether it succeeded. -/
def uvmcopy (K : Layout) (old new sz : ℕ) : VmM Bool :=
  copyFrom K old new ((sz + PGSIZE - 1) / PGSIZE) 0

/-- Mark an entry invalid for user access. -/
def uvmclear (pagetable va : ℕ) : VmM Unit := do
  match ← walk pagetable va false with
  | none => .stop "uvmclear"
  | some (q, i) => .act fun _ m => m.setPte q i (m.pte q i - (m.pte q i &&& PTE_U))

/-! ### User memory -/

def ismapped (pagetable va : ℕ) : VmM Bool := do
  match ← walk pagetable va false with
  | none => pure false
  | some (q, i) => .look fun m => m.pte q i &&& PTE_V != 0

/-- Allocate and map the page of a lazily allocated address, for a process of
size `sz` and page table `ppt`. -/
def vmfault (K : Layout) (sz ppt pagetable va : ℕ) : VmM (Option ℕ) :=
  if va ≥ sz then pure none
  else do
    if ← ismapped pagetable (PGROUNDDOWN va) then pure none
    else
      match ← kalloc with
      | none => pure none
      | some mem => do
          memset mem 0
          if ← mappages ppt (PGROUNDDOWN va) PGSIZE mem (PTE_W ||| PTE_U ||| PTE_R) then
            pure (some mem)
          else do
            kfree K mem
            pure none

/-- The page of a user address, allocated lazily if need be. -/
def userPage (K : Layout) (sz ppt pagetable va0 : ℕ) : VmM (Option ℕ) := do
  match ← walkaddr pagetable va0 with
  | some pa0 => pure (some pa0)
  | none => vmfault K sz ppt pagetable va0

/-- The loop of `copyout`; every round copies at least one byte. -/
def copyoutFrom (K : Layout) (sz ppt pagetable : ℕ) : ℕ → ℕ → List UInt8 → VmM Bool
  | 0, _, _ => pure true
  | fuel + 1, dstva, src =>
      if src = [] then pure true
      else if PGROUNDDOWN dstva ≥ MAXVA then pure false
      else do
        match ← userPage K sz ppt pagetable (PGROUNDDOWN dstva) with
        | none => pure false
        | some pa0 => do
            match ← walk pagetable (PGROUNDDOWN dstva) false with
            | none => .stop "copyout: null pte"
            | some (q, i) =>
                let pte ← .look fun m => m.pte q i
                if pte &&& PTE_W = 0 then pure false
                else do
                  let n := min (PGSIZE - (dstva - PGROUNDDOWN dstva)) src.length
                  .act fun _ m =>
                    m.setPage pa0 (Bytes.write (m.mem pa0) (dstva - PGROUNDDOWN dstva) (src.take n))
                  copyoutFrom K sz ppt pagetable fuel (PGROUNDDOWN dstva + PGSIZE) (src.drop n)

/-- Copy from kernel to user. -/
def copyout (K : Layout) (sz ppt pagetable dstva : ℕ) (src : List UInt8) : VmM Bool :=
  copyoutFrom K sz ppt pagetable src.length dstva src

/-- The loop of `copyin`; every round copies at least one byte. -/
def copyinFrom (K : Layout) (sz ppt pagetable : ℕ) : ℕ → ℕ → ℕ → VmM (Bool × List UInt8)
  | 0, _, _ => pure (true, [])
  | fuel + 1, srcva, len =>
      if len = 0 then pure (true, [])
      else do
        match ← userPage K sz ppt pagetable (PGROUNDDOWN srcva) with
        | none => pure (false, [])
        | some pa0 => do
            let n := min (PGSIZE - (srcva - PGROUNDDOWN srcva)) len
            let bytes ← .look fun m => Bytes.read (m.mem pa0) (srcva - PGROUNDDOWN srcva) n
            let rest ← copyinFrom K sz ppt pagetable fuel
              ((PGROUNDDOWN srcva + PGSIZE) % 2 ^ 64) (len - n)
            pure (rest.1, bytes ++ rest.2)

/-- Copy from user to kernel; whether all bytes could be read, and those that were copied. -/
def copyin (K : Layout) (sz ppt pagetable srcva len : ℕ) : VmM (Bool × List UInt8) :=
  copyinFrom K sz ppt pagetable len srcva len

/-- The inner loop of `copyinstr`: whether there is a `\0`, and the bytes up to it. -/
def scanStr : List UInt8 → Bool × List UInt8
  | [] => (false, [])
  | b :: bs => if b = 0 then (true, [0]) else ((scanStr bs).1, b :: (scanStr bs).2)

/-- The loop of `copyinstr`; every round that does not end it copies at least one byte. -/
def copyinstrFrom (pagetable : ℕ) : ℕ → ℕ → ℕ → VmM (Bool × List UInt8)
  | 0, _, _ => pure (false, [])
  | fuel + 1, srcva, max =>
      if max = 0 then pure (false, [])
      else do
        match ← walkaddr pagetable (PGROUNDDOWN srcva) with
        | none => pure (false, [])
        | some pa0 => do
            let n := min (PGSIZE - (srcva - PGROUNDDOWN srcva)) max
            let bytes ← .look fun m => Bytes.read (m.mem pa0) (srcva - PGROUNDDOWN srcva) n
            if (scanStr bytes).1 then pure (true, (scanStr bytes).2)
            else do
              let rest ← copyinstrFrom pagetable fuel ((PGROUNDDOWN srcva + PGSIZE) % 2 ^ 64)
                (max - n)
              pure (rest.1, (scanStr bytes).2 ++ rest.2)

/-- Copy a null-terminated string from user to kernel; whether it ended within `max` bytes, and
the bytes that were copied. -/
def copyinstr (pagetable srcva max : ℕ) : VmM (Bool × List UInt8) :=
  copyinstrFrom pagetable max srcva max

end Xv6.Vm
