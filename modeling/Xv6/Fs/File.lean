import Xv6.Fs.Model

/-!
# Reading and writing open files

`fileread` and `filewrite` of `kernel/file.c`, for the files that are inodes.  Pipes are
the subject of `Xv6.Pipes`, the console that of `Xv6.Console`.

## Main definitions

* `fileread`, `filewrite`.
-/

namespace Xv6.Fs

open Conc

def State.setFile (s : State) (f : Fin NFILE) (x : File) : State :=
  { s with file := Function.update s.file f x }

/-- Change an open file. -/
def modifyFile (f : Fin NFILE) (g : File → File) : FsM Unit :=
  .act fun _ s => s.setFile f (g (s.file f))

/-- A number as a `uint` holds it. -/
def uint (n : ℤ) : ℕ := (n % 2 ^ 32).toNat

/-- Read from a file; what was delivered.  Pipes and devices are not part of this state. -/
def fileread (f : Fin NFILE) (dst : ℕ → Bool) (n : ℤ) : FsM (Option (List UInt8)) := do
  let ff ← .look fun s => s.file f
  if ff.readable = false then pure none
  else
    match ff.type with
    | .FD_PIPE => pure none
    | .FD_DEVICE => pure none
    | .FD_INODE => do
        ilock ff.ip
        let off ← .look fun s => (s.file f).off
        let r ← readi ff.ip dst off (uint n)
        modifyFile f fun ff => { ff with off := (ff.off + (r.getD []).length) % 2 ^ 32 }
        iunlock ff.ip
        pure r
    | .FD_NONE => .stop "fileread"

/-- The most `filewrite` writes in one transaction. -/
def writeMax : ℕ := ((MAXOPBLOCKS - 1 - 1 - 2) / 2) * BSIZE

/-- The loop of `filewrite`; `i` bytes have been written. -/
def filewriteFrom (f : Fin NFILE) (ip : Fin NINODE) (src : ℕ → Option UInt8) (n : ℕ) :
    ℕ → ℕ → FsM ℕ
  | 0, i => pure i
  | k + 1, i =>
      if i < n then do
        let n1 := min (n - i) writeMax
        begin_op
        ilock ip
        let off ← .look fun s => (s.file f).off
        let r ← writei ip (fun a => src (i + a)) off n1
        modifyFile f fun ff => { ff with off := (ff.off + r.toNat) % 2 ^ 32 }
        iunlock ip
        end_op
        if r = n1 then filewriteFrom f ip src n k (i + n1) else pure i
      else pure i

/-- Write to a file; how many bytes, or -1. -/
def filewrite (f : Fin NFILE) (src : ℕ → Option UInt8) (n : ℤ) : FsM ℤ := do
  let ff ← .look fun s => s.file f
  if ff.writable = false then pure (-1)
  else
    match ff.type with
    | .FD_PIPE => pure (-1)
    | .FD_DEVICE => pure (-1)
    | .FD_INODE => do
        let i ← filewriteFrom f ff.ip src n.toNat n.toNat 0
        if (i : ℤ) = n then pure n else pure (-1)
    | .FD_NONE => .stop "filewrite"

end Xv6.Fs
