import Mofs.DirEntry

namespace Mofs

open Effect Bytes

variable (sb : Superblock)

def oflagRdonly : Nat := 0x1
def oflagWronly : Nat := 0x2
def oflagRdwr : Nat := 0x3
def oflagExec : Nat := 0x4
def oflagSearch : Nat := 0x8
def oflagAccmode : Nat := 0xF
def oflagCreat : Nat := 0x10
def oflagDirectory : Nat := 0x20
def oflagExcl : Nat := 0x40

structure User where
  uid : Nat
  gid : Nat
  suppGroups : List Nat
  valid : Bool
  deriving DecidableEq

def isCallerInGroup (user : User) (gid : Nat) : Bool := user.gid == gid || user.suppGroups.contains gid

/-- The access mode the flag tests of `mofs_check_open_permission` settle on. -/
def openPermFlags (flags : Nat) : Except Errno (Option Nat) := do
  let mode := if flags &&& oflagExec = oflagExec then some oflagExec else none
  let mode ←
    if flags &&& oflagSearch = oflagSearch then
      if mode.isSome then .error .einval else .ok (some oflagSearch)
    else .ok mode
  let mode ←
    if flags &&& oflagRdonly = oflagRdonly then
      if mode.isSome then .error .einval else .ok (some oflagRdonly)
    else .ok mode
  if flags &&& oflagWronly = oflagWronly then
    if mode.isSome then
      if mode = some oflagRdonly then .ok (some oflagRdwr) else .error .einval
    else .ok (some oflagWronly)
  else .ok mode

def mofsCheckOpenPermission (flags : Nat) (user : User) (x : Inode) : Except Errno Unit :=
  if flags &&& oflagAccmode = 0 then .error .einval
  else do
    match ← openPermFlags flags with
    | none => .ok ()
    | some mode =>
      let shift := if user.uid = x.iUid.toNat then 64 else if isCallerInGroup user x.iGid.toNat then 8 else 1
      let canRead := x.iMode.toNat &&& (4 * shift) ≠ 0
      let canWrite := x.iMode.toNat &&& (2 * shift) ≠ 0
      let canExecute := x.iMode.toNat &&& shift ≠ 0
      if mode = oflagRdonly then if canRead then .ok () else .error .eacces
      else if mode = oflagWronly then if canWrite then .ok () else .error .eacces
      else if mode = oflagRdwr then if canRead ∧ canWrite then .ok () else .error .eacces
      else if mode = oflagExec then if canExecute then .ok () else .error .eacces
      else if canExecute then .ok () else .error .eacces

def mofsCheckDirTraverse (user : User) (x : Inode) : Except Errno Unit := mofsCheckOpenPermission oflagSearch user x

def mofsCheckDirRead (user : User) (x : Inode) : Except Errno Unit := mofsCheckOpenPermission oflagRdonly user x

def mofsCheckDirWrite (user : User) (x : Inode) : Except Errno Unit := do
  mofsCheckOpenPermission oflagWronly user x
  mofsCheckDirTraverse user x

structure ResolveFlags where
  inode : Bool
  parent : Bool
  allowMissing : Bool
  checkAccess : Bool

/-- An inode number of `-1`. -/
def noInode : Nat := 4294967295

structure PathInfo where
  parentInodeNum : Nat
  leafInodeNum : Nat
  leafFound : Bool
  leafName : Name
  deriving DecidableEq

/-- A path is a C string: bytes up to a terminating NUL. -/
abbrev Path := {s : List UInt8 // 0 ∉ s}

def slash : UInt8 := 47

/-- What successive calls of `strtok(…, "/")` return. -/
def components (path : Path) : List Name := (path.1.splitOn slash).filter (· ≠ [])

def checkParentTraverse (checkAccess : Bool) (user : User) (parent : Nat) : M Unit :=
  if checkAccess = false ∨ parent = rootInodeNum then pure ()
  else do
    let x ← mofsReadInode sb parent
    if x.isDir = false then throw .enotdir
    else ofExcept (mofsCheckDirTraverse user x)

/-- The last component: its name and parent, and its inode when it is asked for and found. -/
def resolveLeaf (flags : ResolveFlags) (user : User) (parent : Nat) (leaf : Name) : M PathInfo :=
  if filenameLen ≤ leaf.length then throw .enametoolong
  else
    let parentNum := if flags.parent then parent else noInode
    if flags.inode = false then pure ⟨parentNum, noInode, false, leaf⟩
    else do
      checkParentTraverse sb flags.checkAccess user parent
      match ← attempt (findDirEntry sb leaf parent) with
      | .ok child =>
        if isNeg child then
          if flags.allowMissing then pure ⟨parentNum, noInode, false, leaf⟩ else throw .enoent
        else pure ⟨parentNum, child, true, leaf⟩
      | .error _ => if flags.allowMissing then pure ⟨parentNum, noInode, false, leaf⟩ else throw .enoent

def walkComponents (flags : ResolveFlags) (user : User) : (parent : Nat) → (current : Name) → List Name → M PathInfo
  | parent, current, [] => resolveLeaf sb flags user parent current
  | parent, current, next :: rest => do
    checkParentTraverse sb flags.checkAccess user parent
    match ← attempt (findDirEntry sb current parent) with
    | .ok child => if isNeg child then throw .enoent else walkComponents flags user child next rest
    | .error _ => throw .enoent

def mofsResolvePath (user : User) (path : Path) (flags : ResolveFlags) : M PathInfo :=
  if path.1.head? ≠ some slash then throw .einval
  else if flags.inode = false ∧ flags.parent = false then throw .einval
  else if flags.allowMissing ∧ flags.inode = false then throw .einval
  else if flags.checkAccess ∧ user.valid = false then throw .eperm
  else if path.1 = [slash] then
    if flags.parent then throw .einval else pure ⟨noInode, rootInodeNum, true, []⟩
  else
    match components path with
    | [] => throw .einval
    | current :: rest => walkComponents sb flags user rootInodeNum current rest

/-- The flag sets the callers pass. -/
def resolveInode : ResolveFlags := ⟨true, false, false, true⟩
def resolveExisting : ResolveFlags := ⟨true, true, false, true⟩
def resolveTarget : ResolveFlags := ⟨true, true, true, true⟩
def resolveParent : ResolveFlags := ⟨false, true, false, true⟩

def mofsPathToInodeNum (user : User) (path : Path) : M Nat := do
  let info ← mofsResolvePath sb user path resolveInode
  pure info.leafInodeNum

def mofsPathToParentAndComponent (user : User) (path : Path) : M (Nat × Name) := do
  let info ← mofsResolvePath sb user path resolveParent
  pure (info.parentInodeNum, info.leafName)

end Mofs
