import Mofs.Calls
import Mofs.Lib.Slots

namespace Mofs

open Bytes Slots

/-- What permissions depend on. -/
structure Access where
  mode : UInt16
  uid : UInt32
  gid : UInt32

/-- The attributes as an inode record, for the permission checks. -/
def Access.record (a : Access) : Inode := { Inode.zero with iMode := a.mode, iUid := a.uid, iGid := a.gid }

inductive Body
  | file (bytes : List UInt8)
  | dir (names : Name → Option Nat)

structure Obj where
  access : Access
  body : Body

/-- A file system without blocks: its objects by number. Files are byte arrays, and directories are maps from names to
objects. -/
abbrev Fs := Nat → Option Obj

/-- Where a path leads: its last name in directory `dir`, and what that name denotes. -/
structure Place where
  dir : Nat
  name : Name
  found : Option Nat

def Obj.newFile (user : User) (mode : Nat) : Obj :=
  ⟨⟨modeBits ftypeReg mode, .ofNat user.uid, .ofNat user.gid⟩, .file []⟩

/-- A new directory `c` below `p`. -/
def Obj.newDir (user : User) (mode c p : Nat) : Obj :=
  ⟨⟨modeBits ftypeDir mode, .ofNat user.uid, .ofNat user.gid⟩,
    .dir fun name => if name = dot then some c else if name = dotdot then some p else none⟩

def Obj.isDir : Obj → Bool
  | ⟨_, .dir _⟩ => true
  | ⟨_, .file _⟩ => false

def Obj.rename (f : (Name → Option Nat) → Name → Option Nat) : Obj → Obj
  | ⟨a, .dir names⟩ => ⟨a, .dir (f names)⟩
  | o => o

def Obj.fill (bytes : List UInt8) : Obj → Obj
  | ⟨a, .file _⟩ => ⟨a, .file bytes⟩
  | o => o

namespace Fs

variable (fs : Fs) (user : User)

/-- The attributes of object `i`, and no permission bits if there is none. -/
def record (i : Nat) : Inode := (fs i).elim Inode.zero fun o => o.access.record

def isDir (i : Nat) : Bool := (fs i).elim false Obj.isDir

def bytes (i : Nat) : List UInt8 :=
  match fs i with
  | some ⟨_, .file bytes⟩ => bytes
  | _ => []

def names (i : Nat) : Name → Option Nat :=
  match fs i with
  | some ⟨_, .dir names⟩ => names
  | _ => fun _ => none

/-- Change one object, if it is there. -/
def modify (i : Nat) (f : Obj → Obj) : Fs := Function.update fs i ((fs i).map f)

/-- Directory `p` gets or loses a name. -/
def setName (p : Nat) (name : Name) (c : Option Nat) : Fs :=
  fs.modify p (Obj.rename fun names => Function.update names name c)

def setBytes (i : Nat) (bytes : List UInt8) : Fs := fs.modify i (Obj.fill bytes)

/-- A new object `c` under a new name. -/
def enter (p : Nat) (name : Name) (c : Nat) (o : Obj) : Fs :=
  Function.update (fs.setName p name (some c)) c (some o)

/-- A name goes with the object it denotes. -/
def drop (p : Nat) (name : Name) (c : Nat) : Fs := Function.update (fs.setName p name none) c none

/-- Object `s` moves from a name in `p` to one in `q`. A directory then has `q` as its parent. -/
def move (p : Nat) (name : Name) (q : Nat) (name' : Name) (s : Nat) : Fs :=
  ((fs.setName p name none).setName q name' (some s)).setName s dotdot (some q)

/-- The names of a directory that the caller may search. The root is searched without a check. -/
def search (p : Nat) : Except Errno (Name → Option Nat) :=
  if p = rootInodeNum then .ok (fs.names p)
  else if fs.isDir p = false then .error .enotdir
  else (mofsCheckDirTraverse user (fs.record p)).map fun _ => fs.names p

def walk : (p : Nat) → (name : Name) → List Name → Except Errno Place
  | p, name, [] =>
    if filenameLen ≤ name.length then .error .enametoolong
    else (fs.search user p).map fun names => ⟨p, name, names name⟩
  | p, name, next :: rest =>
    match fs.search user p with
    | .error e => .error e
    | .ok names =>
      match names name with
      | some c => walk c next rest
      | none => .error .enoent

/-- Where a path leads that has a last component. -/
def place (path : Path) : Except Errno Place :=
  if path.1.head? ≠ some slash then .error .einval
  else if user.valid = false then .error .eperm
  else
    match components path with
    | [] => .error .einval
    | name :: rest => fs.walk user rootInodeNum name rest

/-- The object a path denotes. -/
def find (path : Path) : Except Errno Nat :=
  if path.1.head? ≠ some slash then .error .einval
  else if user.valid = false then .error .eperm
  else if path.1 = [slash] then .ok rootInodeNum
  else
    match fs.place user path with
    | .error e => .error e
    | .ok spot => spot.found.elim (.error .enoent) .ok

/-- The place of a path that denotes an object, with the object. -/
def existing (path : Path) : Except Errno (Place × Nat) :=
  match fs.place user path with
  | .error e => .error e
  | .ok spot => spot.found.elim (.error .enoent) fun c => .ok (spot, c)

/-- The place of a path that denotes nothing yet, in a directory that the caller may change. -/
def vacancy (path : Path) : Except Errno Place :=
  match fs.place user path with
  | .error e => .error e
  | .ok spot =>
    if spot.found.isSome then .error .eexist else (mofsCheckDirWrite user (fs.record spot.dir)).map fun _ => spot

/-- Directory `i` has no names but the two dot names. -/
def Empty (i : Nat) : Prop := ∀ name, isDotOrDotdotName name = false → fs.names i name = none

/-- Object `s` is `q` or on the way from `q` up to the root. -/
def Above (s q : Nat) : Prop :=
  Relation.ReflTransGen (fun c p => c ≠ rootInodeNum ∧ fs.names c dotdot = some p) q s

/-- The file system just after a format: an empty root. -/
def fresh (a : Access) : Fs := Function.update (fun _ => none) rootInodeNum (some ⟨a, .dir fun _ => none⟩)

section Edits

variable {fs} {p q s c D : Nat} {name name' : Name}

@[simp] theorem rename_self (o : Option Obj) : o.map (Obj.rename fun names => names) = o := by
  cases o with
  | none => rfl
  | some o =>
    obtain ⟨a, body⟩ := o
    cases body with
    | file bytes => rfl
    | dir names => rfl

/-- One name of directory `p` replaced, as seen from object `D`. -/
theorem setName_apply (fs : Fs) (p : Nat) (name : Name) (c : Option Nat) (D : Nat) :
    fs.setName p name c D =
      (fs D).map (Obj.rename fun names x => if D = p ∧ x = name then c else names x) := by
  rw [setName, modify]
  by_cases hD : D = p
  · subst hD
    rw [Function.update_self]
    congr 2
    funext names x
    simp only [Function.update_apply, true_and]
  · rw [Function.update_of_ne hD]
    simp only [hD, false_and, if_false, rename_self]

theorem rename_rename (o : Option Obj) (f g : (Name → Option Nat) → Name → Option Nat) :
    (o.map (Obj.rename f)).map (Obj.rename g) = o.map (Obj.rename fun names => g (f names)) := by
  cases o with
  | none => rfl
  | some o =>
    obtain ⟨a, body⟩ := o
    cases body with
    | file bytes => rfl
    | dir names => rfl

theorem enter_apply (o : Obj) (hD : D ≠ c) :
    fs.enter p name c o D = (fs D).map (Obj.rename fun names x => if D = p ∧ x = name then some c else names x) := by
  rw [enter, Function.update_of_ne hD, setName_apply]

theorem drop_apply (hD : D ≠ c) :
    fs.drop p name c D = (fs D).map (Obj.rename fun names x => if D = p ∧ x = name then none else names x) := by
  rw [drop, Function.update_of_ne hD, setName_apply]

theorem move_apply (hsp : s ≠ p) (hsq : s ≠ q) :
    fs.move p name q name' s D = (fs D).map (Obj.rename fun names x =>
      if D = q ∧ x = name' then some s
      else if D = p ∧ x = name then none
      else if D = s ∧ x = dotdot then some q
      else names x) := by
  rw [move, setName_apply, setName_apply, setName_apply, rename_rename, rename_rename]
  congr 2
  funext names x
  -- the third name is in another directory than the first two
  by_cases hD : D = s
  · subst hD
    simp only [hsp, hsq, false_and, if_false]
  · simp only [hD, false_and, if_false]

end Edits

end Fs

/-- The bytes `new` are `old` with `data` at `off`. What lies between the end of `old` and `off` is not determined. -/
structure Overwrites (old : List UInt8) (off : Nat) (data new : List UInt8) : Prop where
  length : new.length = max old.length (off + data.length)
  kept : ∀ k < old.length, k < off ∨ off + data.length ≤ k → new[k]? = old[k]?
  stored : ∀ k < data.length, new[off + k]? = data[k]?

/-- The offset a seek leads to. -/
def seekTo (base : Nat) (offset : Int) : Except Errno Nat :=
  if 4294967295 < base + offset ∨ (base : Int) + offset < 0 then .error .einval else .ok (base + offset).toNat

namespace Fs

variable (fs : Fs) (user : User)

/-- A call with the outcome `r`, which has no effect if it fails. -/
def Yields (r : Except Errno Fs) (res : Except Errno Unit) (fs' : Fs) : Prop :=
  match r with
  | .error e => res = .error e ∧ fs' = fs
  | .ok fs'' => res = .ok () ∧ fs' = fs''

def unlink (path : Path) : Except Errno Fs :=
  match fs.existing user path with
  | .error e => .error e
  | .ok (spot, c) =>
    match mofsCheckDirWrite user (fs.record spot.dir) with
    | .error e => .error e
    | .ok () => if fs.isDir c then .error .eisdir else .ok (fs.drop spot.dir spot.name c)

open Classical in
noncomputable def rmdir (path : Path) : Except Errno Fs :=
  if path.1.head? ≠ some slash ∨ path.1 = [slash] then .error .einval
  else
    match fs.existing user path with
    | .error e => .error e
    | .ok (spot, c) =>
      if isDotOrDotdotName spot.name then .error .einval
      else
        match mofsCheckDirWrite user (fs.record spot.dir) with
        | .error e => .error e
        | .ok () =>
          if fs.isDir c = false then .error .enotdir
          else if fs.Empty c then .ok (fs.drop spot.dir spot.name c)
          else .error .enotempty

/-- A new object under a path: its number is not in use, or there is no space for it. -/
def Makes (path : Path) (o : Nat → Nat → Obj) (r : Except Errno Nat) (fs' : Fs) : Prop :=
  match fs.vacancy user path with
  | .error e => r = .error e ∧ fs' = fs
  | .ok spot => r = .error .enospc ∧ fs' = fs ∨
      ∃ c, fs c = none ∧ r = .ok c ∧ fs' = fs.enter spot.dir spot.name c (o c spot.dir)

def mayOpen (flags i : Nat) : Except Errno Nat :=
  if flags &&& oflagDirectory ≠ 0 ∧ fs.isDir i = false then .error .enotdir
  else (mofsCheckOpenPermission flags user (fs.record i)).map fun _ => i

/-- The object to open. A new file stays where it is even if it may not be opened then. -/
def Opens (path : Path) (flags mode : Nat) (r : Except Errno Nat) (fs' : Fs) : Prop :=
  if user.valid = false then r = .error .eperm ∧ fs' = fs
  else
    match fs.find user path with
    | .ok i => fs' = fs ∧
        r = if flags &&& oflagCreat ≠ 0 ∧ flags &&& oflagExcl ≠ 0 then .error .eexist else fs.mayOpen user flags i
    | .error e =>
      if e = .enoent ∧ flags &&& oflagCreat ≠ 0 then
        ∃ r', fs.Makes user path (fun _ _ => .newFile user mode) r' fs' ∧
          r = match r' with
            | .error e => .error e
            | .ok c => fs'.mayOpen user flags c
      else r = .error e ∧ fs' = fs

/-- What the checks in front of a call on the data of object `i` make of it, where `e` is their error. -/
def Refuses {α : Type} (i : Nat) (e : Errno) (r : Except Errno α) : Prop := ∃ e', r = .error e' ∧ ((fs i).isSome → e' = e)

/-- The bytes of a read, with the handle after it. -/
def Delivers (h : FileHandle) (size : Nat) (offset : Int) (r : Except Errno (List UInt8 × FileHandle)) : Prop :=
  match readChecks user h size offset (fs.record h.inodeNum) with
  | .error e => fs.Refuses h.inodeNum e r
  | .ok () =>
    let bs := ((fs.bytes h.inodeNum).drop offset.toNat).take size
    r = .ok (bs, { h with fileOffset := offset.toNat + bs.length })

def writeCheck (maxBytes : Nat) (h : FileHandle) (len : Nat) (offset : Int) : Except Errno Unit :=
  if h.used = false ∨ len = 0 ∨ offset < 0 then .error .einval
  else if h.openFlags &&& oflagWronly = 0 then .error .ebadf
  else
    match accessCheck (h.openFlags &&& oflagAccmode) user (fs.record h.inodeNum) with
    | .error e => .error e
    | .ok () => if maxBytes ≤ offset.toNat then .error .efbig else .ok ()

/-- A write stores what of its data fits the largest file, or finds no space. -/
def Writes (maxBytes : Nat) (h : FileHandle) (data : List UInt8) (offset : Int) (r : Except Errno (Nat × FileHandle))
    (fs' : Fs) : Prop :=
  match fs.writeCheck user maxBytes h data.length offset with
  | .error e => fs.Refuses h.inodeNum e r ∧ fs' = fs
  | .ok () =>
    let fit := data.take (maxBytes - offset.toNat)
    r = .error .enospc ∧ fs' = fs ∨
    r = .ok (fit.length, { h with fileOffset := offset.toNat + fit.length }) ∧
      ∃ new, Overwrites (fs.bytes h.inodeNum) offset.toNat fit new ∧ fs' = fs.setBytes h.inodeNum new

/-- A truncate cuts a file or extends it with zeros. Without space it fails, and then may have changed what it was to
cut off. -/
def Truncates (maxBytes i : Nat) (length : Int) (r : Except Errno Unit) (fs' : Fs) : Prop :=
  if 0 ≤ length ∧ length ≤ maxBytes ∧ accessCheck oflagWronly user (fs.record i) = .ok () then
    r = .ok () ∧ fs' = fs.setBytes i ((fs.bytes i).take length.toNat ++
      List.replicate (length.toNat - (fs.bytes i).length) 0) ∨
    r = .error .enospc ∧ (fs' = fs ∨ length.toNat < (fs.bytes i).length ∧ ∃ new : List UInt8,
      new.length = (fs.bytes i).length ∧ new.take length.toNat = (fs.bytes i).take length.toNat ∧ fs' = fs.setBytes i new)
  else (∃ e, r = .error e) ∧ fs' = fs

/-- May `t` in directory `q` make way for `s`? -/
def MayReplace (s q t : Nat) : Prop :=
  fs.isDir t = fs.isDir s ∧ mofsCheckDirWrite user (fs.record q) = .ok () ∧ (fs.isDir t = true → fs.Empty t)

/-- May `s` go from directory `p` to directory `q`? -/
def MayMove (p s q : Nat) : Prop :=
  ¬ (fs.isDir s = true ∧ fs.Above s q) ∧ mofsCheckDirWrite user (fs.record p) = .ok () ∧
    mofsCheckDirWrite user (fs.record q) = .ok ()

/-- The second half of a rename. -/
def Moves (p : Nat) (name : Name) (s q : Nat) (name' : Name) (r : Except Errno Unit) (fs' : Fs) : Prop :=
  (∃ e, r = .error e ∧ fs' = fs ∧ (fs.MayMove user p s q → e = .enospc)) ∨
    r = .ok () ∧ fs.MayMove user p s q ∧ fs' = fs.move p name q name' s

/-- A rename of `s` from one place to another. An existing destination goes first, and stays away if the move fails then. -/
def RenamesAt (old : Place) (s : Nat) (new : Place) (r : Except Errno Unit) (fs' : Fs) : Prop :=
  match new.found with
  | none => fs.Moves user old.dir old.name s new.dir new.name r fs'
  | some t =>
    t = s ∧ r = .ok () ∧ fs' = fs ∨
    t ≠ s ∧ ¬ fs.MayReplace user s new.dir t ∧ (∃ e, r = .error e) ∧ fs' = fs ∨
    t ≠ s ∧ fs.MayReplace user s new.dir t ∧
      (fs.drop new.dir new.name t).Moves user old.dir old.name s new.dir new.name r fs'

def Renames (oldPath newPath : Path) (r : Except Errno Unit) (fs' : Fs) : Prop :=
  (∃ e, r = .error e ∧ fs' = fs ∧ ∀ old s new, fs.existing user oldPath = .ok (old, s) → fs.place user newPath = .ok new →
    isDotOrDotdotName old.name = true ∨ isDotOrDotdotName new.name = true) ∨
  ∃ old s new, fs.existing user oldPath = .ok (old, s) ∧ fs.place user newPath = .ok new ∧
    isDotOrDotdotName old.name = false ∧ isDotOrDotdotName new.name = false ∧ fs.RenamesAt user old s new r fs'

def Seeks (h : FileHandle) (offset : Int) (whence : Whence) (r : Except Errno Nat) : Prop :=
  if h.used = false then r = .error .ebadf
  else
    match whence with
    | .set => r = seekTo 0 offset
    | .cur => r = seekTo h.fileOffset offset
    | .end => (fs h.inodeNum).isSome → fs.isDir h.inodeNum = false → r = seekTo (fs.bytes h.inodeNum).length offset
    | .other => r = .error .einval

/-- What `stat` reports of object `i`. -/
structure Reports (i : Nat) (s : Stat) : Prop where
  ino : s.stIno = i
  mode : s.stMode = (fs.record i).iMode.toNat
  uid : s.stUid = (fs.record i).iUid.toNat
  gid : s.stGid = (fs.record i).iGid.toNat
  size : fs.isDir i = false → s.stSize = (fs.bytes i).length

def Stats (path : Path) (r : Except Errno Stat) : Prop :=
  if user.valid = false then r = .error .eperm
  else
    match fs.find user path with
    | .error e => r = .error e
    | .ok i =>
      match if fs.isDir i then mofsCheckDirTraverse user (fs.record i)
        else mofsCheckOpenPermission oflagRdonly user (fs.record i) with
      | .error e => r = .error e
      | .ok () => ∃ s, r = .ok s ∧ fs.Reports i s

def openDir (path : Path) : Except Errno Nat :=
  if user.valid = false then .error .eperm
  else
    match fs.find user path with
    | .error e => .error e
    | .ok i => if fs.isDir i = false then .error .enotdir else (mofsCheckDirRead user (fs.record i)).map fun _ => i

/-- What `readdir` delivers from a directory whose names stand in slots: the first one from the offset of the handle on, or the
end if there is none left. -/
def Lists (h : DirHandle) (r : Except Errno (Option (Name × Nat) × DirHandle)) : Prop :=
  if h.used = false then r = .error .einval
  else if user.valid = false then r = .error .eperm
  else if fs.isDir h.inodeNum = false then r = .error .einval ∨ r = .error .enotdir
  else
    match mofsCheckDirRead user (fs.record h.inodeNum) with
    | .error e => r = .error e
    | .ok () => ∃ slots, Distinct slots ∧ lookup slots = fs.names h.inodeNum ∧
        (entries (slots.drop h.direntOffset) = [] ∧ r = .ok (none, { h with direntName := [], direntInodeNum := 0 }) ∨
          ∃ k e, entries (slots.drop h.direntOffset) = e :: entries (slots.drop (k + 1)) ∧
            r = .ok (some e, { h with direntOffset := k + 1, direntName := e.1, direntInodeNum := e.2 }))

end Fs

/-- What a call returns, and the handle pools it leaves: a call that fails leaves them alone. -/
def outcome {α β : Type} (P : Pools) (f : α → β × Pools) : Except Errno α → Except Errno β × Pools
  | .error e => (.error e, P)
  | .ok a => (.ok (f a).1, (f a).2)

/-- The first free place of a handle pool. -/
def takeHandle (k : Option Nat) (i : Nat) : Except Errno (Nat × Nat) := k.elim (.error .enfile) fun k => .ok (k, i)

/-- A call of `mofs_pread`, through which `mofs_read` also goes. -/
def Fs.PreadStep (fs : Fs) (P : Pools) (user : User) (k size : Nat) (offset : Int) (res : Except Errno Ret) (P' : Pools) : Prop :=
  ∃ r, (if offset < 0 ∨ 4294967295 < offset then r = .error .einval else fs.Delivers user (P.files k) size offset r) ∧
    (res, P') = outcome P (fun x => (.bytes x.1, P.setFile k x.2)) r

def Fs.PwriteStep (maxBytes : Nat) (fs : Fs) (P : Pools) (user : User) (k : Nat) (data : List UInt8) (offset : Int)
    (res : Except Errno Ret) (fs' : Fs) (P' : Pools) : Prop :=
  ∃ r, (if offset < 0 ∨ 4294967295 < offset then r = .error .einval ∧ fs' = fs
      else fs.Writes user maxBytes (P.files k) data offset r fs') ∧
    (res, P') = outcome P (fun x => (.count x.1, P.setFile k x.2)) r

/-- One POSIX call on a file system whose files have at most `maxBytes` bytes: what it returns and what it leaves. -/
def Fs.Step (maxBytes : Nat) (fs : Fs) (P : Pools) (user : User) (op : PosixOp) (res : Except Errno Ret) (fs' : Fs)
    (P' : Pools) : Prop :=
  match op with
  | .stat path => fs' = fs ∧ ∃ r, fs.Stats user path r ∧ (res, P') = outcome P (fun s => (.stat s, P)) r
  | .opendir path => fs' = fs ∧ (res, P') = outcome P (fun x => (.handle x.1, P.setDir x.1 ⟨true, x.2, 0, [], 0⟩))
      (fs.openDir user path >>= takeHandle (getFreeDirhandleIndex P.dirs))
  | .closedir (some k) => fs' = fs ∧
      (res, P') = if (P.dirs k).used = false then (.error .einval, P) else (.ok .done, P.setDir k .closed)
  | .readdir (some k) => fs' = fs ∧ ∃ r, fs.Lists user (P.dirs k) r ∧
      (res, P') = outcome P (fun x => (.entry x.1, P.setDir k x.2)) r
  | .open path flags mode => ∃ r, fs.Opens user path flags mode r fs' ∧
      (res, P') = outcome P (fun x => (.handle x.1, P.setFile x.1 ⟨true, x.2, 0, flags⟩))
        (r >>= takeHandle (getFreeFilehandleIndex P.files))
  | .close (some k) => fs' = fs ∧
      (res, P') = if (P.files k).used = false then (.error .einval, P) else (.ok .done, P.setFile k .closed)
  | .read (some k) size => fs' = fs ∧ fs.PreadStep P user k size (P.files k).fileOffset res P'
  | .pread (some k) size offset => fs' = fs ∧ fs.PreadStep P user k size offset res P'
  | .write (some k) data => fs.PwriteStep maxBytes P user k data (P.files k).fileOffset res fs' P'
  | .pwrite (some k) data offset => fs.PwriteStep maxBytes P user k data offset res fs' P'
  | .lseek (some k) offset whence => fs' = fs ∧ ∃ r, fs.Seeks (P.files k) offset whence r ∧
      (res, P') = outcome P (fun n => (.count n, P.setFile k { P.files k with fileOffset := n })) r
  | .truncate path length => ∃ r, (match fs.find user path with
        | .error e => r = .error e ∧ fs' = fs
        | .ok i => fs.Truncates user maxBytes i length r fs') ∧
      (res, P') = outcome P (fun _ => (.done, P)) r
  | .ftruncate none _ => fs' = fs ∧ (res, P') = (.error .ebadf, P)
  | .ftruncate (some k) length => ∃ r,
      (if (P.files k).used = false ∨ (P.files k).openFlags &&& oflagWronly = 0 then r = .error .ebadf ∧ fs' = fs
        else fs.Truncates user maxBytes (P.files k).inodeNum length r fs') ∧
      (res, P') = outcome P (fun _ => (.done, P)) r
  | .unlink path => ∃ r, fs.Yields (fs.unlink user path) r fs' ∧ (res, P') = outcome P (fun _ => (.done, P)) r
  | .mkdir path mode => ∃ r, fs.Makes user path (fun c p => .newDir user mode c p) r fs' ∧
      (res, P') = outcome P (fun _ => (.done, P)) r
  | .rmdir path => ∃ r, fs.Yields (fs.rmdir user path) r fs' ∧ (res, P') = outcome P (fun _ => (.done, P)) r
  | .rename oldPath newPath => ∃ r, fs.Renames user oldPath newPath r fs' ∧
      (res, P') = outcome P (fun _ => (.done, P)) r
  | .fsync (some k) => fs' = fs ∧ (res, P') = (if (P.files k).used = false then .error .ebadf else .ok .done, P)
  | .closedir none | .readdir none | .close none | .read none _ | .pread none _ _ | .write none _ | .pwrite none _ _
  | .lseek none _ _ | .fsync none => fs' = fs ∧ (res, P') = (.error .einval, P)

end Mofs
