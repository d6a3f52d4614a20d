import Xv6.Param
import Xv6.Lib.Prog
import Mathlib.Data.Fin.Basic
import Mathlib.Data.List.FinRange

/-!
# Inodes, directories and path names

The functions of `kernel/fs.c`, for any number of processes.  The disk is what
the buffer cache shows of it (`Xv6.Log` is about how it gets to the disk): the
inodes, the free map and the contents of the other blocks.  A step is what the
source does while it has a block's buffer locked, or while it holds
`itable.lock`; sleep-locks of inodes are held over many steps.

The inodes and the free map are kept apart from the blocks they are in.  An
address that leads to one of those blocks would overwrite them in the source and
does not here; no inode of a consistent disk has one, and none ever gets one.

A user's buffer is an argument: which bytes can be fetched from it, or which can
be written to.

## Main definitions

* `Dinode`, `Inode`, `State` — inodes on disk and in memory, and the state.
* `balloc`, `bfree`, `iupdate`, `iget`, `idup`, `ilock`, `iunlock`, `iput`, `ireclaim`,
  `bmap`, `itrunc`, `readi`, `writei`, `dirlookup`, `dirlink`, `skipelem`, `namex`.
-/

namespace Xv6.Fs

open Conc

/-! ### The state -/

/-- The type of an inode: `zero` is that of a free one, `other` a number with no meaning. -/
inductive FileType where
  | zero
  | T_DIR
  | T_FILE
  | T_DEVICE
  | other (n : Fin 65532)
  deriving DecidableEq

/-- A number as a `short` holds it. -/
def short (x : ℤ) : ℤ := (x + 2 ^ 15) % 2 ^ 16 - 2 ^ 15

/-- An inode on disk. -/
@[ext] structure Dinode where
  type : FileType
  major : ℤ
  minor : ℤ
  nlink : ℤ
  size : ℕ
  /-- The addresses of its blocks; that of the indirect block is number `NDIRECT`. -/
  addrs : ℕ → ℕ

/-- A dinode of zeros. -/
def Dinode.zero : Dinode := ⟨.zero, 0, 0, 0, 0, fun _ => 0⟩

/-- An inode in memory. -/
structure Inode extends Dinode where
  dev : ℕ
  inum : ℕ
  ref : ℕ
  /-- Who holds the sleep-lock. -/
  lock : Option (Fin NPROC)
  valid : Bool

/-- What the superblock says. -/
structure Superblock where
  /-- The size of the file system in blocks. -/
  size : ℕ
  /-- How many of them are data blocks; they come last. -/
  nblocks : ℕ
  ninodes : ℕ

/-- The disk. -/
structure Disk where
  sb : Superblock
  dinode : ℕ → Dinode
  /-- The free map: which blocks are in use. -/
  bit : ℕ → Bool
  block : ℕ → Block

/-- What kind of file a descriptor is for. -/
inductive FdType where
  | FD_NONE
  | FD_PIPE
  | FD_INODE
  | FD_DEVICE
  deriving DecidableEq

/-- An open file; its inode counts if its type says so. -/
structure File where
  type : FdType
  readable : Bool
  writable : Bool
  ip : Fin NINODE
  off : ℕ

/-- What the file system reads of a process. -/
structure Proc where
  cwd : Option (Fin NINODE)

/-- The tables above the file system. -/
structure Tables where
  file : Fin NFILE → File
  proc : Fin NPROC → Proc

/-- The state of the file system. -/
structure State extends Disk, Tables where
  /-- `itable.inode`. -/
  inode : Fin NINODE → Inode

/-- A computation of a process. -/
abbrev FsM := Prog (Fin NPROC) State

def State.setInode (s : State) (e : Fin NINODE) (ip : Inode) : State :=
  { s with inode := Function.update s.inode e ip }

def State.setDinode (s : State) (inum : ℕ) (d : Dinode) : State :=
  { s with dinode := Function.update s.dinode inum d }

def State.setBit (s : State) (b : ℕ) (used : Bool) : State :=
  { s with bit := Function.update s.bit b used }

def State.setBlock (s : State) (b : ℕ) (data : Block) : State :=
  { s with block := Function.update s.block b data }

def getInode (e : Fin NINODE) : FsM Inode := .look fun s => s.inode e

/-- Change fields of an inode in memory. -/
def modifyInode (e : Fin NINODE) (f : Inode → Inode) : FsM Unit :=
  .act fun _ s => s.setInode e (f (s.inode e))

/-- The record of the process that is running. -/
def myproc : FsM Proc := .atomic fun t s => some (.done (s.proc t) s)

/-- Do something for each element of a list, in order. -/
def forEach {α : Type} : List α → (α → FsM Unit) → FsM Unit
  | [], _ => pure ()
  | a :: l, f => do
      f a
      forEach l f

/-- Transactions are the subject of `Xv6.Log`. -/
def begin_op : FsM Unit := pure ()

def end_op : FsM Unit := pure ()

/-! ### Blocks -/

/-- Zero a block. -/
def bzero (bno : ℕ) : FsM Unit :=
  .act fun _ s => s.setBlock bno fun _ => 0

/-- The first free block among those whose bits are in one block of the map. -/
def Disk.firstFree (d : Disk) (b : ℕ) : Option ℕ :=
  (List.range' b (min BPB (d.sb.size - b))).find? fun x => !d.bit x

/-- Look for a free block in one block of the map, and mark it. -/
def ballocIn (b : ℕ) : FsM (Option ℕ) :=
  .atomic fun _ s =>
    match s.firstFree b with
    | none => some (.done none s)
    | some x => some (.done (some x) (s.setBit x true))

/-- The loop of `balloc`, over the blocks of the map that are left. -/
def ballocFrom : ℕ → ℕ → FsM ℕ
  | 0, _ => pure 0
  | n + 1, b => do
      match ← ballocIn b with
      | some x => do
          bzero x
          pure x
      | none => ballocFrom n (b + BPB)

/-- Allocate a zeroed block; 0 if the disk is full. -/
def balloc : FsM ℕ := do
  let sb ← .look fun s => s.sb
  ballocFrom ((sb.size + BPB - 1) / BPB) 0

/-- Free a block. -/
def bfree (b : ℕ) : FsM Unit :=
  .atomic fun _ s =>
    if s.bit b = false then some (.panic "freeing free block")
    else some (.done () (s.setBit b false))

/-! ### Inodes -/

/-- Copy an inode in memory to disk. -/
def iupdate (e : Fin NINODE) : FsM Unit :=
  .act fun _ s => s.setDinode (s.inode e).inum (s.inode e).toDinode

/-- The entry of an inode that is in the table. -/
def State.entry? (s : State) (dev inum : ℕ) : Option (Fin NINODE) :=
  (List.finRange NINODE).find? fun e =>
    decide (0 < (s.inode e).ref ∧ (s.inode e).dev = dev ∧ (s.inode e).inum = inum)

/-- The first empty entry. -/
def State.empty? (s : State) : Option (Fin NINODE) :=
  (List.finRange NINODE).find? fun e => decide ((s.inode e).ref = 0)

/-- Find the entry of an inode, or make one. -/
def iget (dev inum : ℕ) : FsM (Fin NINODE) :=
  .atomic fun _ s =>
    match s.entry? dev inum with
    | some e => some (.done e (s.setInode e { s.inode e with ref := (s.inode e).ref + 1 }))
    | none =>
        match s.empty? with
        | none => some (.panic "iget: no inodes")
        | some e => some (.done e (s.setInode e
            { s.inode e with dev := dev, inum := inum, ref := 1, valid := false }))

/-- Take another reference to an inode. -/
def idup (e : Fin NINODE) : FsM (Fin NINODE) := do
  modifyInode e fun ip => { ip with ref := ip.ref + 1 }
  pure e

def acquiresleep (e : Fin NINODE) : FsM Unit :=
  .atomic fun t s =>
    if (s.inode e).lock = none then some (.done () (s.setInode e { s.inode e with lock := some t }))
    else none

def releasesleep (e : Fin NINODE) : FsM Unit :=
  modifyInode e fun ip => { ip with lock := none }

/-- Read an inode from disk; it must not be a free one. -/
def readInode (e : Fin NINODE) : FsM Unit :=
  .atomic fun _ s =>
    if (s.dinode (s.inode e).inum).type = .zero then some (.panic "ilock: no type")
    else some (.done () (s.setInode e
      { s.inode e with toDinode := s.dinode (s.inode e).inum, valid := true }))

/-- Lock an inode, and read it from disk if that has not been done. -/
def ilock (e : Fin NINODE) : FsM Unit := do
  let ip ← getInode e
  if ip.ref < 1 then .stop "ilock"
  else do
    acquiresleep e
    let ip ← getInode e
    if ip.valid then pure () else readInode e

/-- Unlock an inode. -/
def iunlock (e : Fin NINODE) : FsM Unit :=
  .atomic fun t s =>
    if (s.inode e).lock ≠ some t ∨ (s.inode e).ref < 1 then some (.panic "iunlock")
    else some (.done () (s.setInode e { s.inode e with lock := none }))

/-! ### Contents -/

/-- Entry `j` of an indirect block. -/
def entry (b : Block) (j : ℕ) : ℕ := Bytes.get 4 b (4 * j)

/-- `ip->addrs[k]`, allocating a block if there is none; 0 if the disk is full. -/
def addrOf (e : Fin NINODE) (k : ℕ) : FsM ℕ := do
  let ip ← getInode e
  if ip.addrs k = 0 then do
    let addr ← balloc
    if addr = 0 then pure 0
    else do
      modifyInode e fun ip => { ip with addrs := Function.update ip.addrs k addr }
      pure addr
  else pure (ip.addrs k)

/-- The address of block `bn` of an inode, allocating it if there is none; 0 if the
disk is full. -/
def bmap (e : Fin NINODE) (bn : ℕ) : FsM ℕ :=
  if bn < NDIRECT then addrOf e bn
  else if bn - NDIRECT < NINDIRECT then do
    let ind ← addrOf e NDIRECT
    if ind = 0 then pure 0
    else do
      let addr ← .look fun s => entry (s.block ind) (bn - NDIRECT)
      if addr = 0 then do
        let addr ← balloc
        if addr = 0 then pure 0
        else do
          .act fun _ s => s.setBlock ind (Bytes.set 4 (s.block ind) (4 * (bn - NDIRECT)) addr)
          pure addr
      else pure addr
  else .stop "bmap: out of range"

/-- Free `ip->addrs[k]`, if there is one. -/
def freeAddr (e : Fin NINODE) (k : ℕ) : FsM Unit := do
  let ip ← getInode e
  if ip.addrs k = 0 then pure ()
  else do
    bfree (ip.addrs k)
    modifyInode e fun ip => { ip with addrs := Function.update ip.addrs k 0 }

/-- Free the block of entry `j` of an indirect block, if there is one. -/
def freeEntry (ind j : ℕ) : FsM Unit := do
  let a ← .look fun s => entry (s.block ind) j
  if a = 0 then pure () else bfree a

/-- Discard the contents of an inode. -/
def itrunc (e : Fin NINODE) : FsM Unit := do
  forEach (List.range NDIRECT) (freeAddr e)
  let ip ← getInode e
  if ip.addrs NDIRECT = 0 then pure ()
  else do
    forEach (List.range NINDIRECT) (freeEntry (ip.addrs NDIRECT))
    freeAddr e NDIRECT
  modifyInode e fun ip => { ip with size := 0 }
  iupdate e

/-- What `iput` does first: lock the inode if it has to be freed, else drop the
reference. -/
def iputStart (e : Fin NINODE) : FsM Bool :=
  .atomic fun t s =>
    if (s.inode e).ref = 1 ∧ (s.inode e).valid = true ∧ (s.inode e).nlink = 0 then
      if (s.inode e).lock = none then
        some (.done true (s.setInode e { s.inode e with lock := some t }))
      else none
    else some (.done false (s.setInode e { s.inode e with ref := (s.inode e).ref - 1 }))

/-- Drop a reference to an inode, and free it if that was the last reference and
it has no links. -/
def iput (e : Fin NINODE) : FsM Unit := do
  if ← iputStart e then do
    itrunc e
    modifyInode e fun ip => { ip with type := .zero }
    iupdate e
    modifyInode e fun ip => { ip with valid := false }
    releasesleep e
    modifyInode e fun ip => { ip with ref := ip.ref - 1 }
  else pure ()

def iunlockput (e : Fin NINODE) : FsM Unit := do
  iunlock e
  iput e

/-- One round of the loop of `ireclaim`: free an inode that no directory names. -/
def reclaimOne (dev inum : ℕ) : FsM Unit := do
  let dip ← .look fun s => s.dinode inum
  if dip.type ≠ .zero ∧ dip.nlink = 0 then do
    let ip ← iget dev inum
    begin_op
    ilock ip
    iunlock ip
    iput ip
    end_op
  else pure ()

/-- The loop of `ireclaim`, for the inodes that are left. -/
def ireclaimFrom (dev : ℕ) : ℕ → ℕ → FsM Unit
  | 0, _ => pure ()
  | n + 1, inum => do
      reclaimOne dev inum
      ireclaimFrom dev n (inum + 1)

/-- Free the inodes that lost their last name before a crash. -/
def ireclaim (dev : ℕ) : FsM Unit := do
  let sb ← .look fun s => s.sb
  ireclaimFrom dev (sb.ninodes - 1) 1

/-- The loop of `readi`, with the bytes read so far; every round reads at least one. -/
def readFrom (e : Fin NINODE) (dst : ℕ → Bool) (off n : ℕ) :
    ℕ → List UInt8 → FsM (Option (List UInt8))
  | 0, got => pure (some got)
  | k + 1, got =>
      if got.length < n then do
        let o := off + got.length
        let addr ← bmap e (o / BSIZE)
        if addr = 0 then pure (some got)
        else do
          let m := min (n - got.length) (BSIZE - o % BSIZE)
          let data ← .look fun s => Bytes.read (s.block addr) (o % BSIZE) m
          if (List.range m).all fun i => dst (got.length + i) then
            readFrom e dst off n k (got ++ data)
          else pure none
      else pure (some got)

/-- Read from an inode; nothing if a byte cannot be delivered. -/
def readi (e : Fin NINODE) (dst : ℕ → Bool) (off n : ℕ) : FsM (Option (List UInt8)) := do
  let ip ← getInode e
  if off > ip.size ∨ (off + n) % 2 ^ 32 < off then pure (some [])
  else
    let n := if off + n > ip.size then ip.size - off else n
    readFrom e dst off n n []

/-- The bytes that can be fetched from a buffer, up to the first that cannot. -/
def fetch (src : ℕ → Option UInt8) : ℕ → ℕ → List UInt8
  | _, 0 => []
  | a, m + 1 =>
      match src a with
      | none => []
      | some x => x :: fetch src (a + 1) m

/-- The loop of `writei`; every round writes at least one byte.  A fetch that fails
has still overwritten the part of the block's buffer that it got. -/
def writeFrom (e : Fin NINODE) (src : ℕ → Option UInt8) (off n : ℕ) : ℕ → ℕ → FsM ℕ
  | 0, tot => pure tot
  | k + 1, tot =>
      if tot < n then do
        let o := off + tot
        let addr ← bmap e (o / BSIZE)
        if addr = 0 then pure tot
        else do
          let m := min (n - tot) (BSIZE - o % BSIZE)
          .act fun _ s => s.setBlock addr
            (Bytes.write (s.block addr) (o % BSIZE) (fetch src tot m))
          if (fetch src tot m).length = m then writeFrom e src off n k (tot + m) else pure tot
      else pure tot

/-- Write to an inode; how many bytes, or -1. -/
def writei (e : Fin NINODE) (src : ℕ → Option UInt8) (off n : ℕ) : FsM ℤ := do
  let ip ← getInode e
  if off > ip.size ∨ (off + n) % 2 ^ 32 < off then pure (-1)
  else if off + n > MAXFILE * BSIZE then pure (-1)
  else do
    let tot ← writeFrom e src off n n 0
    modifyInode e fun ip => { ip with size := max ip.size (off + tot) }
    iupdate e
    pure tot

/-! ### Directories -/

/-- The name of a directory entry, or a part of a path name. -/
abbrev Name := List UInt8

/-- The size of a directory entry. -/
abbrev DIRENT : ℕ := 16

/-- The inode number in a directory entry. -/
def deInum (de : List UInt8) : ℕ := (de.getD 0 0).toNat + 256 * (de.getD 1 0).toNat

/-- The name in a directory entry. -/
def deName (de : List UInt8) : Name := de.drop 2

/-- Whether `strncmp` finds two strings equal; a string ends before its first zero. -/
def strncmp : ℕ → List UInt8 → List UInt8 → Bool
  | 0, _, _ => true
  | n + 1, p, q =>
      if p.headD 0 ≠ 0 ∧ p.headD 0 = q.headD 0 then strncmp n p.tail q.tail
      else decide (p.headD 0 = q.headD 0)

/-- Whether two names are the same. -/
def namecmp (s t : Name) : Bool := strncmp DIRSIZ s t

/-- What `strncpy` stores: the string, cut or filled up with zeros. -/
def strncpy (t : List UInt8) (n : ℕ) : List UInt8 :=
  (List.range n).map fun i => (t.takeWhile (· ≠ 0)).getD i 0

/-- A directory entry; its inode number has 16 bits. -/
def dirent (inum : ℕ) (name : Name) : List UInt8 :=
  UInt8.ofNat inum :: UInt8.ofNat (inum / 256) :: strncpy name DIRSIZ

/-- The loop of `dirlookup`, from offset `off` on. -/
def lookupFrom (dp : Fin NINODE) (dev : ℕ) (name : Name) :
    ℕ → ℕ → FsM (Option (Fin NINODE × ℕ))
  | 0, _ => pure none
  | k + 1, off => do
      let some de ← readi dp (fun _ => true) off DIRENT | .stop "dirlookup read"
      if de.length ≠ DIRENT then .stop "dirlookup read"
      else if deInum de = 0 then lookupFrom dp dev name k (off + DIRENT)
      else if namecmp name (deName de) then do
        let ip ← iget dev (deInum de)
        pure (some (ip, off))
      else lookupFrom dp dev name k (off + DIRENT)

/-- How many entries there are, the last one perhaps not whole. -/
def direntCount (size : ℕ) : ℕ := (size + DIRENT - 1) / DIRENT

/-- Look for a name in a directory; its inode, and the offset of its entry. -/
def dirlookup (dp : Fin NINODE) (name : Name) : FsM (Option (Fin NINODE × ℕ)) := do
  let ip ← getInode dp
  if ip.type ≠ .T_DIR then .stop "dirlookup not DIR"
  else lookupFrom dp ip.dev name (direntCount ip.size) 0

/-- The loop of `dirlink` that looks for an empty entry; its offset. -/
def emptyFrom (dp : Fin NINODE) : ℕ → ℕ → FsM ℕ
  | 0, off => pure off
  | k + 1, off => do
      let some de ← readi dp (fun _ => true) off DIRENT | .stop "dirlink read"
      if de.length ≠ DIRENT then .stop "dirlink read"
      else if deInum de = 0 then pure off
      else emptyFrom dp k (off + DIRENT)

/-- The bytes of a kernel buffer. -/
def bytes (l : List UInt8) : ℕ → Option UInt8 := fun i => l[i]?

/-- Write an entry into a directory; whether that was possible. -/
def dirlink (dp : Fin NINODE) (name : Name) (inum : ℕ) : FsM Bool := do
  match ← dirlookup dp name with
  | some (ip, _) => do
      iput ip
      pure false
  | none => do
      let d ← getInode dp
      let off ← emptyFrom dp (direntCount d.size) 0
      let r ← writei dp (bytes (dirent inum name)) off DIRENT
      pure (decide (r = DIRENT))

/-! ### Paths -/

/-- The character that separates the elements of a path. -/
abbrev SLASH : UInt8 := 47

/-- The first element of a path, and the path after it. -/
def skipelem (path : List UInt8) : Option (Name × List UInt8) :=
  let path := path.dropWhile (· = SLASH)
  if path = [] then none
  else some ((path.takeWhile (· ≠ SLASH)).take DIRSIZ,
    (path.dropWhile (· ≠ SLASH)).dropWhile (· = SLASH))

/-- The elements that calls of `skipelem` yield one after the other. -/
def elemsFrom : ℕ → List UInt8 → List Name
  | 0, _ => []
  | n + 1, path =>
      match skipelem path with
      | none => []
      | some (name, path) => name :: elemsFrom n path

/-- The elements of a path. -/
def elems (path : List UInt8) : List Name := elemsFrom path.length path

/-- The loop of `namex`, over the elements that are left. -/
def namexFrom (nameiparent : Bool) : List Name → Fin NINODE → FsM (Option (Fin NINODE × Name))
  | [], ip =>
      if nameiparent then do
        iput ip
        pure none
      else pure (some (ip, []))
  | name :: path, ip => do
      ilock ip
      let d ← getInode ip
      if d.type ≠ .T_DIR then do
        iunlockput ip
        pure none
      else if nameiparent = true ∧ path = [] then do
        iunlock ip
        pure (some (ip, name))
      else
        match ← dirlookup ip name with
        | none => do
            iunlockput ip
            pure none
        | some (next, _) => do
            iunlockput ip
            namexFrom nameiparent path next

/-- Where a path starts. -/
def namexStart (path : List UInt8) : FsM (Fin NINODE) :=
  if path.head? = some SLASH then iget ROOTDEV ROOTINO
  else do
    let p ← myproc
    match p.cwd with
    | none => .stop "kerneltrap"
    | some cwd => idup cwd

/-- The inode of a path, or of its parent with the last element of the path. -/
def namex (path : List UInt8) (nameiparent : Bool) : FsM (Option (Fin NINODE × Name)) := do
  let ip ← namexStart path
  namexFrom nameiparent (elems path) ip

def namei (path : List UInt8) : FsM (Option (Fin NINODE)) := do
  let r ← namex path false
  pure (r.map Prod.fst)

def nameiparent (path : List UInt8) : FsM (Option (Fin NINODE × Name)) := namex path true

end Xv6.Fs
