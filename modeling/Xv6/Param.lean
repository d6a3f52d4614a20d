import Xv6.Lib.Bytes

/-!
# Constants

The constants of `kernel/param.h` and `kernel/fs.h` that the model uses.
-/

namespace Xv6

/-- The device number of the file system's disk. -/
abbrev ROOTDEV : ℕ := 1

/-- The number of blocks any file-system operation writes at most. -/
abbrev MAXOPBLOCKS : ℕ := 10

/-- The number of data blocks in the on-disk log. -/
abbrev LOGBLOCKS : ℕ := MAXOPBLOCKS * 3

/-- The size of the disk block cache. -/
abbrev NBUF : ℕ := MAXOPBLOCKS * 3

/-- The maximum number of processes. -/
abbrev NPROC : ℕ := 64

instance : NeZero NPROC := ⟨by decide⟩

/-- The maximum number of arguments of `exec`. -/
abbrev MAXARG : ℕ := 32

/-- How many pages the user stack has. -/
abbrev USERSTACK : ℕ := 1

/-- The number of open files of a process, and of all of them. -/
abbrev NOFILE : ℕ := 16

abbrev NFILE : ℕ := 100

instance : NeZero NFILE := ⟨by decide⟩

/-- The size of the table of inodes in memory. -/
abbrev NINODE : ℕ := 50

instance : NeZero NINODE := ⟨by decide⟩

/-- The number of the root directory's inode. -/
abbrev ROOTINO : ℕ := 1

/-- The size of a disk block. -/
abbrev BSIZE : ℕ := 1024

/-- How many blocks an inode addresses itself, and through its indirect block. -/
abbrev NDIRECT : ℕ := 12

abbrev NINDIRECT : ℕ := BSIZE / 4

abbrev MAXFILE : ℕ := NDIRECT + NINDIRECT

/-- How many bits of the free map a block has. -/
abbrev BPB : ℕ := BSIZE * 8

/-- The length of a name in a directory. -/
abbrev DIRSIZ : ℕ := 14

/-- The contents of a disk block. -/
abbrev Block := Bytes.Mem

end Xv6
