import Mofs.FileSystem
import Mofs.CallRun

namespace Mofs

open Effect Bytes Slots Mofs.Tree

variable {sb : Superblock} {V W : View} {G H : Owners} {T T' : Nat → List Slot} {up up' : Nat → Nat} {user : User}
  {path : Path} {flags : ResolveFlags} {i p : Nat} {name : Name}

def Inode.access (x : Inode) : Access := ⟨x.iMode, x.iUid, x.iGid⟩

/-- The file system that a volume holds. -/
def fsOf (sb : Superblock) (V : View) (G : Owners) (T : Nat → List Slot) (up : Nat → Nat) : Fs := fun i =>
  if V.ibit i = true then
    some ⟨(V.inode i).access, if (V.inode i).isDir then .dir (lookup (dirSlots up T i)) else .file (fileBytes sb V G i)⟩
  else none

theorem SamePerm.access {x y : Inode} (h : SamePerm x y) : y.access = x.access := by
  rw [Inode.access, h.mode, h.uid, h.gid, Inode.access]

section Objects

theorem fsOf_of_free (hi : V.ibit i = false) : fsOf sb V G T up i = none := by simp [fsOf, hi]

theorem fsOf_of_dir (hi : V.ibit i = true) (hd : (V.inode i).isDir = true) :
    fsOf sb V G T up i = some ⟨(V.inode i).access, .dir (lookup (dirSlots up T i))⟩ := by simp [fsOf, hi, hd]

theorem fsOf_of_file (hi : V.ibit i = true) (hd : (V.inode i).isDir = false) :
    fsOf sb V G T up i = some ⟨(V.inode i).access, .file (fileBytes sb V G i)⟩ := by simp [fsOf, hi, hd]

theorem fsOf_isSome : (fsOf sb V G T up i).isSome = V.ibit i := by
  cases hi : V.ibit i with
  | false => simp [fsOf, hi]
  | true => simp [fsOf, hi]

/-- The permissions of an object are those of its inode. -/
theorem Vol.record (h : Vol sb V G T up) (i : Nat) : SamePerm (V.inode i) ((fsOf sb V G T up).record i) := by
  cases hi : V.ibit i with
  | false =>
    rw [Fs.record, fsOf_of_free hi, (h.node i).zero hi]
    exact SamePerm.refl _
  | true =>
    rw [Fs.record, fsOf, if_pos hi]
    exact ⟨rfl, rfl, rfl⟩

theorem Vol.fs_isDir (h : Vol sb V G T up) (i : Nat) : (fsOf sb V G T up).isDir i = (V.inode i).isDir := by
  cases hi : V.ibit i with
  | false =>
    rw [Fs.isDir, fsOf_of_free hi, (h.node i).zero hi]
    rfl
  | true =>
    cases hd : (V.inode i).isDir with
    | false =>
      rw [Fs.isDir, fsOf_of_file hi hd]
      rfl
    | true =>
      rw [Fs.isDir, fsOf_of_dir hi hd]
      rfl

theorem Vol.fs_names (h : Vol sb V G T up) (hd : (V.inode i).isDir = true) :
    (fsOf sb V G T up).names i = lookup (dirSlots up T i) := by
  rw [Fs.names, fsOf_of_dir (h.used_of_isDir hd) hd]

theorem fs_bytes (hi : V.ibit i = true) (hd : (V.inode i).isDir = false) :
    (fsOf sb V G T up).bytes i = fileBytes sb V G i := by
  rw [Fs.bytes, fsOf_of_file hi hd]

/-- An object that has not changed. -/
theorem fsOf_congr (hB : 0 < sb.blkSize) (h : Vol sb V G T up) (hs : Same V W G H i)
    (hnames : (V.inode i).isDir = true → lookup (dirSlots up' T' i) = lookup (dirSlots up T i)) :
    fsOf sb W H T' up' i = fsOf sb V G T up i := by
  cases hi : V.ibit i with
  | false => rw [fsOf_of_free hi, fsOf_of_free (hs.ibit.trans hi)]
  | true =>
    have hi' := hs.ibit.trans hi
    cases hd : (V.inode i).isDir with
    | false =>
      rw [fsOf_of_file hi hd, fsOf_of_file hi' (by rw [hs.inode, hd]), hs.inode,
        hs.fileBytes hB (h.filesOk.length hi hd)]
    | true => rw [fsOf_of_dir hi hd, fsOf_of_dir hi' (by rw [hs.inode, hd]), hs.inode, hnames hd]

/-- A directory with other names. -/
theorem fsOf_rename {f : (Name → Option Nat) → Name → Option Nat} (hi : V.ibit i = true) (hi' : W.ibit i = true)
    (hd : (V.inode i).isDir = true) (hperm : SamePerm (V.inode i) (W.inode i))
    (hnames : lookup (dirSlots up' T' i) = f (lookup (dirSlots up T i))) :
    fsOf sb W H T' up' i = (fsOf sb V G T up i).map (Obj.rename f) := by
  rw [fsOf_of_dir hi hd, fsOf_of_dir hi' (by rw [hperm.isDir, hd]), hperm.access, hnames]
  rfl

/-- A file with other contents. -/
theorem fsOf_fill (hi : V.ibit i = true) (hi' : W.ibit i = true) (hd : (V.inode i).isDir = false)
    (hperm : SamePerm (V.inode i) (W.inode i)) :
    fsOf sb W H T' up' i = (fsOf sb V G T up i).map (Obj.fill (fileBytes sb W H i)) := by
  rw [fsOf_of_file hi hd, fsOf_of_file hi' (by rw [hperm.isDir, hd]), hperm.access]
  rfl

end Objects

section Paths

/-- What path resolution makes of the place a path leads to. -/
def Place.info (flags : ResolveFlags) (spot : Place) : Except Errno PathInfo :=
  match spot.found with
  | some c => .ok ⟨if flags.parent then spot.dir else noInode, c, true, spot.name⟩
  | none =>
    if flags.allowMissing then .ok ⟨if flags.parent then spot.dir else noInode, noInode, false, spot.name⟩
    else .error .enoent

theorem Vol.fs_search (h : Vol sb V G T up) (user : User) (p : Nat) :
    (fsOf sb V G T up).search user p = (mayTraverse V user p).map fun _ => lookup (dirSlots up T p) := by
  rw [Fs.search, mayTraverse]
  split
  next hp =>
    subst hp
    rw [h.fs_names h.rootDir]
    rfl
  rw [h.fs_isDir]
  cases hd : (V.inode p).isDir with
  | false => rfl
  | true =>
    simp only [Bool.true_eq_false, if_false]
    rw [mofsCheckDirTraverse, (h.record p).checkOpen, h.fs_names hd]
    rfl

theorem Vol.fs_leaf (h : Vol sb V G T up) (flags : ResolveFlags) (user : User) (p : Nat) (name : Name) :
    leafIn V up T flags user p name = ((fsOf sb V G T up).walk user p name []) >>= Place.info flags := by
  rw [leafIn, Fs.walk, h.fs_search]
  split
  · rfl
  cases mayTraverse V user p with
  | error e => rfl
  | ok u =>
    change _ = Place.info flags ⟨p, name, lookup (dirSlots up T p) name⟩
    unfold Place.info
    cases lookup (dirSlots up T p) name with
    | none => rfl
    | some c => rfl

/-- A walk through the tree of a volume is a walk through its file system. -/
theorem Vol.fs_walk (h : Vol sb V G T up) (flags : ResolveFlags) (user : User) (p : Nat) (name : Name) (rest : List Name) :
    walkIn V up T flags user p name rest = ((fsOf sb V G T up).walk user p name rest) >>= Place.info flags := by
  induction rest generalizing p name with
  | nil => exact h.fs_leaf flags user p name
  | cons next rest ih =>
    rw [walkIn, Fs.walk, h.fs_search]
    cases mayTraverse V user p with
    | error e => rfl
    | ok u =>
      change _ = (match lookup (dirSlots up T p) name with
        | some c => (fsOf sb V G T up).walk user c next rest
        | none => .error .enoent) >>= Place.info flags
      cases lookup (dirSlots up T p) name with
      | none => rfl
      | some c => exact ih c next

theorem Vol.fs_resolve (h : Vol sb V G T up) (hroot : path.1 ≠ [slash] ∨ flags.parent = true) (user : User) :
    resolve V up T flags user path = ((fsOf sb V G T up).place user path) >>= Place.info flags := by
  rw [resolve, Fs.place]
  split
  · rfl
  split
  · rfl
  split
  next hp =>
    rw [if_pos (hroot.resolve_left (not_not_intro hp)), components_slash hp]
    rfl
  cases components path with
  | nil => rfl
  | cons name rest => exact h.fs_walk flags user rootInodeNum name rest

theorem Vol.fs_target (h : Vol sb V G T up) (user : User) (path : Path) :
    resolve V up T resolveTarget user path = ((fsOf sb V G T up).place user path).map fun spot =>
      ⟨spot.dir, spot.found.getD noInode, spot.found.isSome, spot.name⟩ := by
  rw [h.fs_resolve (.inr rfl)]
  cases (fsOf sb V G T up).place user path with
  | error e => rfl
  | ok spot =>
    obtain ⟨dir, name, found⟩ := spot
    cases found with
    | none => rfl
    | some c => rfl

theorem Vol.fs_existing (h : Vol sb V G T up) (user : User) (path : Path) :
    resolve V up T resolveExisting user path = ((fsOf sb V G T up).existing user path).map fun x =>
      ⟨x.1.dir, x.2, true, x.1.name⟩ := by
  rw [h.fs_resolve (.inr rfl), Fs.existing]
  cases (fsOf sb V G T up).place user path with
  | error e => rfl
  | ok spot =>
    obtain ⟨dir, name, found⟩ := spot
    cases found with
    | none => rfl
    | some c => rfl

theorem Vol.fs_find (h : Vol sb V G T up) (user : User) (path : Path) :
    (resolve V up T resolveInode user path).map (fun info => info.leafInodeNum) = (fsOf sb V G T up).find user path := by
  by_cases hroot : path.1 = [slash]
  · rw [resolve, Fs.find]
    split
    · rfl
    split
    · rfl
    · rfl
  rw [h.fs_resolve (.inl hroot), Fs.find, if_neg hroot]
  have hplace : (fsOf sb V G T up).place user path = if path.1.head? ≠ some slash then .error .einval
      else if user.valid = false then .error .eperm else (fsOf sb V G T up).place user path := by
    rw [Fs.place]
    split
    · rfl
    split
    · rfl
    · rfl
  split
  next hhead =>
    rw [hplace, if_pos hhead]
    rfl
  next hhead =>
    split
    next hvalid =>
      rw [hplace, if_neg hhead, if_pos hvalid]
      rfl
    next hvalid =>
      cases (fsOf sb V G T up).place user path with
      | error e => rfl
      | ok spot =>
        obtain ⟨dir, name, found⟩ := spot
        cases found with
        | none => rfl
        | some c => rfl

end Paths

end Mofs
