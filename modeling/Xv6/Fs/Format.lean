import Xv6.Fs.Model
import Mathlib.Data.Nat.Bitwise

/-!
# The disk format

What the kernel finds in the blocks of a disk: the superblock in block 1, inodes
in the blocks from `inodestart` on, the free map from `bmapstart` on
(`kernel/fs.h`, and `fsinit`, `ilock` and `balloc` in `kernel/fs.c`).  What is in
the log is put in its place first (`initlog` in `kernel/log.c`; `Xv6.Log` is about
why that is right).

## Main definitions

* `RawSb`, `readsb` — the superblock.
* `getDinode`, `dinodeAt`, `bitAt` — an inode, and a bit of the free map.
* `Disk.ofRaw` — the disk of `Xv6.Fs.Model`, read from its blocks.
* `fsinit` — the file system is mounted.
-/

namespace Xv6.Fs

/-- The superblock on disk. -/
structure RawSb where
  magic : ℕ
  size : ℕ
  nblocks : ℕ
  ninodes : ℕ
  nlog : ℕ
  logstart : ℕ
  inodestart : ℕ
  bmapstart : ℕ

abbrev FSMAGIC : ℕ := 0x10203040

/-- Read the superblock. -/
def readsb (raw : ℕ → Block) : RawSb where
  magic := Bytes.get 4 (raw 1) 0
  size := Bytes.get 4 (raw 1) 4
  nblocks := Bytes.get 4 (raw 1) 8
  ninodes := Bytes.get 4 (raw 1) 12
  nlog := Bytes.get 4 (raw 1) 16
  logstart := Bytes.get 4 (raw 1) 20
  inodestart := Bytes.get 4 (raw 1) 24
  bmapstart := Bytes.get 4 (raw 1) 28

/-- The size of an inode on disk, and how many of them are in a block. -/
abbrev DINODE : ℕ := 64

abbrev IPB : ℕ := BSIZE / DINODE

/-- The block of an inode. -/
def IBLOCK (i : ℕ) (sb : RawSb) : ℕ := i / IPB + sb.inodestart

/-- The block of the free map that has the bit of a block. -/
def BBLOCK (b : ℕ) (sb : RawSb) : ℕ := b / BPB + sb.bmapstart

/-- The number of a type on disk. -/
def FileType.num : FileType → ℕ
  | .zero => 0
  | .T_DIR => 1
  | .T_FILE => 2
  | .T_DEVICE => 3
  | .other n => n + 4

def FileType.ofNum : ℕ → FileType
  | 0 => .zero
  | 1 => .T_DIR
  | 2 => .T_FILE
  | 3 => .T_DEVICE
  | n + 4 => .other ⟨n % 65532, Nat.mod_lt _ (by decide)⟩

/-- The inode at an offset of a block. -/
def getDinode (b : Block) (o : ℕ) : Dinode :=
  let addrs := (List.range (NDIRECT + 1)).map fun k => Bytes.get 4 b (o + 12 + 4 * k)
  { type := .ofNum (Bytes.get 2 b o)
    major := short (Bytes.get 2 b (o + 2))
    minor := short (Bytes.get 2 b (o + 4))
    nlink := short (Bytes.get 2 b (o + 6))
    size := Bytes.get 4 b (o + 8)
    addrs := fun k => addrs.getD k 0 }

/-- Inode `inum`, where `ilock` finds it. -/
def dinodeAt (raw : ℕ → Block) (sb : RawSb) (inum : ℕ) : Dinode :=
  getDinode (raw (IBLOCK inum sb)) (inum % IPB * DINODE)

/-- The bit of block `b`, as `balloc` tests it. -/
def bitAt (raw : ℕ → Block) (sb : RawSb) (b : ℕ) : Bool :=
  (raw (BBLOCK b sb) (b % BPB / 8)).toNat &&& 1 <<< (b % BPB % 8) != 0

theorem and_shift_ne_zero (x k : ℕ) : (x &&& 1 <<< k != 0) = x.testBit k := by
  rw [Nat.one_shiftLeft, Nat.and_two_pow]
  cases x.testBit k <;> simp

theorem toNat_shift (k : ℕ) : (UInt8.ofNat (1 <<< (k % 8))).toNat = 2 ^ (k % 8) := by
  rw [UInt8.toNat_ofNat', Nat.one_shiftLeft]
  exact Nat.mod_eq_of_lt (Nat.pow_lt_pow_right (by decide) (Nat.mod_lt _ (by decide)))

/-- The disk with these blocks. -/
def Disk.ofRaw (raw : ℕ → Block) : Disk where
  sb := ⟨(readsb raw).size, (readsb raw).nblocks, (readsb raw).ninodes⟩
  dinode := dinodeAt raw (readsb raw)
  bit := bitAt raw (readsb raw)
  block := raw

/-- Copy blocks of the log to their home locations. -/
def install_trans (raw : ℕ → Block) (sb : RawSb) : ℕ → ℕ → Block
  | 0 => raw
  | tail + 1 =>
      let raw' := install_trans raw sb tail
      Function.update raw' (Bytes.get 4 (raw sb.logstart) (4 + 4 * tail))
        (raw' (sb.logstart + tail + 1))

/-- What the header of the log says is installed, and the log is cleared. -/
def recover_from_log (raw : ℕ → Block) (sb : RawSb) : ℕ → Block :=
  let raw' := install_trans raw sb (Bytes.get 4 (raw sb.logstart) 0)
  Function.update raw' sb.logstart (Bytes.set 4 (raw' sb.logstart) 0 0)

/-- Mount the disk; a panic if it is no file system. -/
def fsinit (raw : ℕ → Block) : Option Disk :=
  if (readsb raw).magic = FSMAGIC then some (Disk.ofRaw (recover_from_log raw (readsb raw)))
  else none

end Xv6.Fs
