import Mofs.Dir

namespace Mofs

open Effect Bytes

variable (sb : Superblock)

/-- A handle argument: `NULL` or a pointer into the handle pool. -/
abbrev Handle := Option (Fin 64)

inductive PosixOp
  | stat (path : Path)
  | opendir (path : Path)
  | closedir (h : Handle)
  | readdir (h : Handle)
  | «open» (path : Path) (flags mode : Nat)
  | close (h : Handle)
  | read (h : Handle) (size : Nat)
  | write (h : Handle) (data : List UInt8)
  | pread (h : Handle) (size : Nat) (offset : Int)
  | pwrite (h : Handle) (data : List UInt8) (offset : Int)
  | lseek (h : Handle) (offset : Int) (whence : Whence)
  | truncate (path : Path) (length : Int)
  | ftruncate (h : Handle) (length : Int)
  | unlink (path : Path)
  | mkdir (path : Path) (mode : Nat)
  | rmdir (path : Path)
  | rename (oldPath newPath : Path)
  | fsync (h : Handle)

inductive Ret
  | done
  | handle (k : Nat)
  | bytes (bs : List UInt8)
  | count (n : Nat)
  | stat (s : Stat)
  | entry (e : Option (Name × Nat))
  deriving DecidableEq

structure Pools where
  files : Nat → FileHandle
  dirs : Nat → DirHandle

namespace Pools

def setFile (P : Pools) (k : Nat) (h : FileHandle) : Pools := { P with files := Function.update P.files k h }
def setDir (P : Pools) (k : Nat) (h : DirHandle) : Pools := { P with dirs := Function.update P.dirs k h }

end Pools

def mofsPread (user : User) (P : Pools) (k size : Nat) (offset : Int) : M (Except Errno Ret × Pools) :=
  if offset < 0 ∨ 4294967295 < offset then throw .einval
  else do
    let (r, h) ← mofsReadCore sb user (P.files k) size offset true
    match r with
    | .ok bytes => pure (.ok (.bytes bytes), P.setFile k h)
    | .error e => pure (.error e, P.setFile k h)

def mofsPwrite (user : User) (P : Pools) (k : Nat) (data : List UInt8) (offset : Int) : M (Except Errno Ret × Pools) :=
  if offset < 0 ∨ 4294967295 < offset then throw .einval
  else do
    let (r, h) ← mofsWriteCore sb user (P.files k) data offset true
    match r with
    | .ok n => pure (.ok (.count n), P.setFile k h)
    | .error e => pure (.error e, P.setFile k h)

def mofsLseek (P : Pools) (k : Nat) (offset : Int) (whence : Whence) : M (Except Errno Ret × Pools) :=
  let h := P.files k
  if h.used = false then throw .ebadf
  else do
    let base ← (match whence with
      | .set => pure 0
      | .cur => pure h.fileOffset
      | .end => do
        let x ← mofsReadInode sb h.inodeNum
        pure x.iSize.toNat
      | .other => throw .einval : M Nat)
    if 4294967295 < base + offset ∨ (base : Int) + offset < 0 then throw .einval
    else pure (.ok (.count (base + offset).toNat), P.setFile k { h with fileOffset := u32 (base + offset).toNat })

def mofsFtruncate (user : User) (P : Pools) (k : Nat) (length : Int) : M (Except Errno Ret × Pools) :=
  let h := P.files k
  if h.used = false then throw .ebadf
  else if h.openFlags &&& oflagWronly = 0 then throw .ebadf
  else do
    mofsTruncateCore sb user h.inodeNum length
    pure (.ok .done, P)

def posixBody (user : User) (P : Pools) : PosixOp → M (Except Errno Ret × Pools)
  | .stat path => do
    let s ← mofsStatCore sb user path
    pure (.ok (.stat s), P)
  | .opendir path => do
    let (k, dirs) ← mofsOpendirCore sb user P.dirs path
    pure (.ok (.handle k), { P with dirs })
  | .closedir none => throw .einval
  | .closedir (some k) => do
    let h ← mofsClosedirCore (P.dirs k)
    pure (.ok .done, P.setDir k h)
  | .readdir none => throw .einval
  | .readdir (some k) => do
    let h ← mofsReaddirCore sb user (P.dirs k)
    pure (.ok (.entry (if h.direntInodeNum ≠ 0 ∧ h.direntName ≠ [] then some (h.direntName, h.direntInodeNum) else none)),
      P.setDir k h)
  | .open path flags mode => do
    let (k, files) ← mofsOpenCore sb user P.files path flags mode
    pure (.ok (.handle k), { P with files })
  | .close none => throw .einval
  | .close (some k) => do
    let h ← mofsCloseCore (P.files k)
    pure (.ok .done, P.setFile k h)
  | .read none _ => throw .einval
  | .read (some k) size => mofsPread sb user P k size (P.files k).fileOffset
  | .write none _ => throw .einval
  | .write (some k) data => mofsPwrite sb user P k data (P.files k).fileOffset
  | .pread none _ _ => throw .einval
  | .pread (some k) size offset => mofsPread sb user P k size offset
  | .pwrite none _ _ => throw .einval
  | .pwrite (some k) data offset => mofsPwrite sb user P k data offset
  | .lseek none _ _ => throw .einval
  | .lseek (some k) offset whence => mofsLseek sb P k offset whence
  | .truncate path length => do
    let i ← mofsPathToInodeNum sb user path
    mofsTruncateCore sb user i length
    pure (.ok .done, P)
  | .ftruncate none _ => throw .ebadf
  | .ftruncate (some k) length => mofsFtruncate sb user P k length
  | .unlink path => do
    mofsUnlinkCore sb user path
    pure (.ok .done, P)
  | .mkdir path mode => do
    mofsMkdirCore sb user path mode
    pure (.ok .done, P)
  | .rmdir path => do
    mofsRmdirCore sb user path
    pure (.ok .done, P)
  | .rename oldPath newPath => do
    mofsRenameCore sb user oldPath newPath
    pure (.ok .done, P)
  | .fsync none => throw .einval
  | .fsync (some k) =>
    if (P.files k).used = false then throw .ebadf
    else do
      bcacheFlush
      pure (.ok .done, P)

/-- One call of the POSIX layer by `user`: the value it returns or the error it stores in `mofs_errno`, and the
handle pools it leaves. -/
def posixCall (user : User) (P : Pools) (op : PosixOp) : M (Except Errno Ret × Pools) := do
  match ← attempt (posixBody sb user P op) with
  | .ok r => pure r
  | .error e => pure (.error e, P)

end Mofs
