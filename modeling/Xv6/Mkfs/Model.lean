import Xv6.Fs.Format
import Xv6.Fs.File

/-!
# Making a file system

`mkfs/mkfs.c`: the image of a disk with a root directory and the files that are
given to it.  A failed assertion, or a sector that cannot be read, ends the
program (`none`).  What `read` delivers of a file, one piece after the other, is an
argument; so is the name by which the file is given.

## Main definitions

* `Image` — the image, and the next inode and block.
* `winode`, `rinode`, `ialloc`, `iappend`, `balloc`.
* `mkfs` — `main`.
-/

namespace Xv6.Mkfs

open Fs (RawSb FSMAGIC DINODE IPB IBLOCK Dinode FileType getDinode Name SLASH strncpy)

/-! ### Layout -/

/-- The size of the image in blocks. -/
abbrev FSSIZE : ℕ := 2000

abbrev NINODES : ℕ := 200

abbrev nbitmap : ℕ := FSSIZE / BPB + 1

abbrev ninodeblocks : ℕ := NINODES / IPB + 1

/-- How many inodes there is room for in their blocks. -/
abbrev SLOTS : ℕ := ninodeblocks * IPB

/-- The log: its header, and the blocks. -/
abbrev nlog : ℕ := LOGBLOCKS + 1

/-- How many blocks there are before the data blocks, and how many of those. -/
abbrev nmeta : ℕ := 2 + nlog + ninodeblocks + nbitmap

abbrev nblocks : ℕ := FSSIZE - nmeta

def sb : RawSb where
  magic := FSMAGIC
  size := FSSIZE
  nblocks := nblocks
  ninodes := NINODES
  nlog := nlog
  logstart := 2
  inodestart := 2 + nlog
  bmapstart := 2 + nlog + ninodeblocks

/-! ### Sectors and inodes -/

/-- The image, `freeinode` and `freeblock`. -/
structure Image where
  disk : ℕ → Block
  freeinode : ℕ
  freeblock : ℕ

namespace Image

def wsect (img : Image) (sec : ℕ) (buf : Block) : Image :=
  { img with disk := Function.update img.disk sec buf }

/-- Read a sector; there are `FSSIZE` of them. -/
def rsect (img : Image) (sec : ℕ) : Option Block :=
  if sec < FSSIZE then some (img.disk sec) else none

end Image

/-- The entries that a directory starts with. -/
def DOT : Name := [46]

def DOTDOT : Name := [46, 46]

/-- A `short` as it is on disk. -/
def ushort (x : ℤ) : ℕ := (x % 2 ^ 16).toNat

/-- Store the addresses of an inode. -/
def putAddrs (b : Block) (o : ℕ) (addrs : ℕ → ℕ) : ℕ → Block
  | 0 => b
  | k + 1 => Bytes.set 4 (putAddrs b o addrs k) (o + 12 + 4 * k) (addrs k)

/-- Store an inode at an offset of a block. -/
def putDinode (b : Block) (o : ℕ) (d : Dinode) : Block :=
  let b := Bytes.set 2 b o d.type.num
  let b := Bytes.set 2 b (o + 2) (ushort d.major)
  let b := Bytes.set 2 b (o + 4) (ushort d.minor)
  let b := Bytes.set 2 b (o + 6) (ushort d.nlink)
  let b := Bytes.set 4 b (o + 8) d.size
  putAddrs b o d.addrs (NDIRECT + 1)

def winode (img : Image) (inum : ℕ) (ip : Dinode) : Option Image := do
  let bn := IBLOCK inum sb
  let buf ← img.rsect bn
  some (img.wsect bn (putDinode buf (inum % IPB * DINODE) ip))

def rinode (img : Image) (inum : ℕ) : Option Dinode := do
  let bn := IBLOCK inum sb
  let buf ← img.rsect bn
  some (getDinode buf (inum % IPB * DINODE))

/-- A new inode of that type. -/
def ialloc (img : Image) (type : FileType) : Option (ℕ × Image) := do
  let inum := img.freeinode
  let img ← winode { img with freeinode := inum + 1 } inum
    { Dinode.zero with type := type, nlink := 1 }
  some (inum, img)

/-- The bits of the blocks below `used`. -/
def usedBits : ℕ → Block
  | 0 => fun _ => 0
  | i + 1 =>
      let buf := usedBits i
      Function.update buf (i / 8) (buf (i / 8) ||| UInt8.ofNat (1 <<< (i % 8)))

/-- Write the free map: the first `used` blocks are in use. -/
def balloc (img : Image) (used : ℕ) : Option Image :=
  if used < BPB then some (img.wsect sb.bmapstart (usedBits used)) else none

/-! ### Contents -/

/-- `din.addrs[k]`, taking the next block if there is none. -/
def takeAddr (img : Image) (din : Dinode) (k : ℕ) : Image × Dinode :=
  if din.addrs k = 0 then
    ({ img with freeblock := img.freeblock + 1 },
      { din with addrs := Function.update din.addrs k img.freeblock })
  else (img, din)

/-- Entry `j` of an indirect block, taking the next block if there is none. -/
def takeEntry (img : Image) (ind j : ℕ) : Option (Image × ℕ) := do
  let indirect ← img.rsect ind
  if Fs.entry indirect j = 0 then
    let indirect := Bytes.set 4 indirect (4 * j) img.freeblock
    some ({ img.wsect ind indirect with freeblock := img.freeblock + 1 }, Fs.entry indirect j)
  else some (img, Fs.entry indirect j)

/-- The block of an inode that has number `fbn`, taking the next block if there is none. -/
def takeBlock (img : Image) (din : Dinode) (fbn : ℕ) : Option (Image × Dinode × ℕ) :=
  if fbn < NDIRECT then
    let (img, din) := takeAddr img din fbn
    some (img, din, din.addrs fbn)
  else do
    let (img, din) := takeAddr img din NDIRECT
    let (img, x) ← takeEntry img (din.addrs NDIRECT) (fbn - NDIRECT)
    some (img, din, x)

/-- The loop of `iappend`; every round appends at least one byte. -/
def appendFrom : ℕ → Image → Dinode → ℕ → List UInt8 → Option (Image × Dinode × ℕ)
  | 0, img, din, off, _ => some (img, din, off)
  | fuel + 1, img, din, off, p =>
      if p = [] then some (img, din, off)
      else do
        let fbn := off / BSIZE
        if fbn < MAXFILE then
          let (img, din, x) ← takeBlock img din fbn
          let n1 := min p.length ((fbn + 1) * BSIZE - off)
          let buf ← img.rsect x
          let img := img.wsect x (Bytes.write buf (off - fbn * BSIZE) (p.take n1))
          appendFrom fuel img din (off + n1) (p.drop n1)
        else none

/-- Append bytes to an inode. -/
def iappend (img : Image) (inum : ℕ) (p : List UInt8) : Option Image := do
  let din ← rinode img inum
  let (img, din, off) ← appendFrom p.length img din din.size p
  winode img inum { din with size := off }

/-- A directory entry: a 16-bit number and a name, cut or filled up with zeros. -/
def mkDirent (inum : ℕ) (name : Name) : List UInt8 :=
  UInt8.ofNat inum :: UInt8.ofNat (inum / 256) :: strncpy name DIRSIZ

/-! ### Files -/

/-- A file of the host: the name it is given by, and what `read` delivers. -/
structure HostFile where
  arg : Name
  chunks : List (List UInt8)

/-- The bytes of `user/`. -/
def USER : Name := [117, 115, 101, 114, 47]

/-- Get rid of `user/`. -/
def shortname (arg : Name) : Name := if USER <+: arg then arg.drop 5 else arg

/-- Skip a leading underscore. -/
def stripped (arg : Name) : Name :=
  if (shortname arg).head? = some 95 then (shortname arg).drop 1 else shortname arg

/-- Append what is left of a file. -/
def appendAll (img : Image) (inum : ℕ) : List (List UInt8) → Option Image
  | [] => some img
  | buf :: bufs => do
      let img ← iappend img inum buf
      appendAll img inum bufs

/-- Put a file into the root directory. -/
def addFile (img : Image) (rootino : ℕ) (f : HostFile) : Option Image :=
  if SLASH ∈ shortname f.arg then none
  else if (stripped f.arg).length > DIRSIZ then none
  else do
    let (inum, img) ← ialloc img .T_FILE
    let img ← iappend img rootino (mkDirent inum (stripped f.arg))
    appendAll img inum f.chunks

def addFiles (img : Image) (rootino : ℕ) : List HostFile → Option Image
  | [] => some img
  | f :: fs => do
      let img ← addFile img rootino f
      addFiles img rootino fs

/-- The superblock, as `wsect` writes it. -/
def sbBlock : Block :=
  let b := Bytes.set 4 (fun _ => 0) 0 sb.magic
  let b := Bytes.set 4 b 4 sb.size
  let b := Bytes.set 4 b 8 sb.nblocks
  let b := Bytes.set 4 b 12 sb.ninodes
  let b := Bytes.set 4 b 16 sb.nlog
  let b := Bytes.set 4 b 20 sb.logstart
  let b := Bytes.set 4 b 24 sb.inodestart
  Bytes.set 4 b 28 sb.bmapstart

/-- The image before the first inode. -/
def blank : Image := Image.wsect ⟨fun _ _ => 0, 1, nmeta⟩ 1 sbBlock

/-- Make the image of a disk with these files. -/
def mkfs (files : List HostFile) : Option Image := do
  let (rootino, img) ← ialloc blank .T_DIR
  if rootino = ROOTINO then
    let img ← iappend img rootino (mkDirent rootino DOT)
    let img ← iappend img rootino (mkDirent rootino DOTDOT)
    let img ← addFiles img rootino files
    let din ← rinode img rootino
    let img ← winode img rootino { din with size := (din.size / BSIZE + 1) * BSIZE }
    balloc img img.freeblock
  else none

end Xv6.Mkfs
