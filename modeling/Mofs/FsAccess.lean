import Mofs.FsRun

namespace Mofs

open Effect Bytes Slots Mofs.Tree Simulation

variable {sb : Superblock} {env : Env} {t d d' : Disk} {V : View} {G G' : Owners} {T T' : Nat → List Slot} {up up' : Nat → Nat}
  {user : User} {P P' : Pools} {op : PosixOp} {fs fs' : Fs} {i p q s c D maxBytes : Nat} {name name' : Name} {path : Path}

section Unique

/-- A volume holds one file system only. -/
theorem Vol.fsOf_unique (h : Vol sb V G T up) (h' : Vol sb V G' T' up') : fsOf sb V G T up = fsOf sb V G' T' up' := by
  funext i
  cases hi : V.ibit i with
  | false => rw [fsOf_of_free hi, fsOf_of_free hi]
  | true =>
    cases hd : (V.inode i).isDir with
    | true => rw [fsOf_of_dir hi hd, fsOf_of_dir hi hd, (h.dirAt hd).unique (h'.dirAt hd)]
    | false =>
      obtain ⟨-, hdata⟩ := (h.wf.chain i hi).links.unique (h'.wf.chain i hi).links
      rw [fsOf_of_file hi hd, fsOf_of_file hi hd, fileBytes, fileBytes, hdata]

theorem Carries.unique {x : Disk × Pools} {y y' : Fs × Pools} (h : Carries sb x y) (h' : Carries sb x y') : y = y' := by
  obtain ⟨⟨G, T, up, hU, hfs⟩, hP⟩ := h
  obtain ⟨⟨G', T', up', hU', hfs'⟩, hP'⟩ := h'
  refine Prod.ext ?_ (hP.symm.trans hP')
  exact hfs.symm.trans ((hU.vol.fsOf_unique hU'.vol).trans hfs')

end Unique

section Checks

variable {x : Inode} {flags : Nat}

/-- A handle that is open for writing lets only those through who may write. -/
theorem mayWrite_of_flags (hflags : flags &&& oflagWronly ≠ 0)
    (h : mofsCheckOpenPermission (flags &&& oflagAccmode) user x = .ok ()) :
    mofsCheckOpenPermission oflagWronly user x = .ok () := by
  have hmodes : ∀ g < 16, g &&& oflagWronly ≠ 0 → openPermFlags g = .error .einval ∨ openPermFlags g = .ok (some oflagWronly) ∨
      openPermFlags g = .ok (some oflagRdwr) := by decide
  have hbit : flags &&& oflagAccmode &&& oflagWronly ≠ 0 := by
    rw [Nat.and_assoc]
    exact hflags
  have hlt : flags &&& oflagAccmode < 16 := lt_of_le_of_lt Nat.and_le_right (by decide)
  rw [mofsCheckOpenPermission] at h
  split at h
  · cases h
  rw [checkWronly_eq]
  rcases hmodes _ hlt hbit with hm | hm | hm
  · rw [hm] at h
    cases h
  · rw [hm] at h
    exact h
  · rw [hm] at h
    have hboth : (if x.iMode.toNat &&&
          (4 * if user.uid = x.iUid.toNat then 64 else if isCallerInGroup user x.iGid.toNat then 8 else 1) ≠ 0 ∧
        x.iMode.toNat &&& (2 * if user.uid = x.iUid.toNat then 64 else if isCallerInGroup user x.iGid.toNat then 8 else 1) ≠ 0
      then Except.ok () else .error Errno.eacces) = .ok () := h
    refine if_pos fun hno => ?_
    rw [if_neg fun h2 => h2.2 hno] at hboth
    cases hboth

theorem mayWrite_of_dirWrite (h : mofsCheckDirWrite user x = .ok ()) : mofsCheckOpenPermission oflagWronly user x = .ok () := by
  rw [mofsCheckDirWrite] at h
  cases hw : mofsCheckOpenPermission oflagWronly user x with
  | error e =>
    rw [hw] at h
    cases h
  | ok u => rfl

theorem mayWrite_of_accessCheck (h : accessCheck flags user x = .ok ()) : mofsCheckOpenPermission flags user x = .ok () := by
  rw [accessCheck] at h
  split at h
  · cases h
  cases hw : mofsCheckOpenPermission flags user x with
  | error e =>
    rw [hw] at h
    cases h
  | ok u => rfl

/-- Nobody may write where there is nothing. -/
theorem dirWrite_zero (user : User) : mofsCheckDirWrite user Inode.zero ≠ .ok () := by
  intro h
  obtain ⟨e, he⟩ := checkOpenPermission_zero oflagWronly user
  cases he.symm.trans (mayWrite_of_dirWrite h)

end Checks

namespace Fs

/-- The caller may write object `i`, or a directory with a name for it other than `.` and `..`, which are ordinary names in the
root only. -/
def MayChange (fs : Fs) (user : User) (i : Nat) : Prop :=
  mofsCheckOpenPermission oflagWronly user (fs.record i) = .ok () ∨
    ∃ p name, fs.names p name = some i ∧ (isDotOrDotdotName name = true → p = rootInodeNum) ∧
      mofsCheckDirWrite user (fs.record p) = .ok ()

/-- Below the root, `.` and `..` denote directories. -/
def DotsAreDirs (fs : Fs) : Prop :=
  ∀ p name c, fs.names p name = some c → isDotOrDotdotName name = true → p ≠ rootInodeNum → fs.isDir c = true

theorem setName_of_ne (hD : D ≠ p) (o : Option Nat) : fs.setName p name o D = fs D := Function.update_of_ne hD _ _

theorem setBytes_of_ne (hD : D ≠ i) (bytes : List UInt8) : fs.setBytes i bytes D = fs D := Function.update_of_ne hD _ _

theorem enter_of_ne (hp : D ≠ p) (hc : D ≠ c) (o : Obj) : fs.enter p name c o D = fs D := by
  rw [enter, Function.update_of_ne hc, setName_of_ne hp]

theorem drop_of_ne (hp : D ≠ p) (hc : D ≠ c) : fs.drop p name c D = fs D := by
  rw [drop, Function.update_of_ne hc, setName_of_ne hp]

theorem move_of_ne (hp : D ≠ p) (hq : D ≠ q) (hs : D ≠ s) : fs.move p name q name' s D = fs D := by
  rw [move, setName_of_ne hs, setName_of_ne hq, setName_of_ne hp]

/-- Renaming within a directory leaves the attributes of its object alone. -/
theorem record_setName (o : Option Nat) : (fs.setName p name o).record D = fs.record D := by
  rw [record, record, setName_apply]
  cases fs D with
  | none => rfl
  | some x =>
    obtain ⟨a, body⟩ := x
    cases body with
    | file bytes => rfl
    | dir names => rfl

theorem record_drop : (fs.drop p name c).record D = if D = c then Inode.zero else fs.record D := by
  by_cases hD : D = c
  · rw [if_pos hD, hD, record, drop, Function.update_self]
    rfl
  · rw [if_neg hD, record, drop, Function.update_of_ne hD]
    exact record_setName none

theorem search_ok {names : Name → Option Nat} (h : fs.search user p = .ok names) : names = fs.names p := by
  rw [search] at h
  split at h
  · exact (Except.ok.inj h).symm
  split at h
  · cases h
  cases hc : mofsCheckDirTraverse user (fs.record p) with
  | error e =>
    rw [hc] at h
    cases h
  | ok u =>
    rw [hc] at h
    exact (Except.ok.inj h).symm

theorem walk_found {rest : List Name} {spot : Place} (h : fs.walk user p name rest = .ok spot) :
    spot.found = fs.names spot.dir spot.name := by
  induction rest generalizing p name with
  | nil =>
    rw [walk] at h
    split at h
    · cases h
    cases hs : fs.search user p with
    | error e =>
      rw [hs] at h
      cases h
    | ok names =>
      rw [hs] at h
      cases h
      rw [search_ok hs]
  | cons next rest ih =>
    rw [walk] at h
    split at h
    · cases h
    split at h
    · exact ih h
    · cases h

theorem place_found {spot : Place} (h : fs.place user path = .ok spot) : spot.found = fs.names spot.dir spot.name := by
  rw [place] at h
  split at h
  · cases h
  split at h
  · cases h
  split at h
  · cases h
  · exact walk_found h

theorem existing_found {spot : Place} (h : fs.existing user path = .ok (spot, c)) : fs.names spot.dir spot.name = some c := by
  rw [existing] at h
  split at h
  · cases h
  rename_i spot' hplace
  cases hfound : spot'.found with
  | none =>
    rw [hfound] at h
    cases h
  | some c' =>
    rw [hfound] at h
    cases h
    exact (place_found hplace).symm.trans hfound

section Changes

variable {r : Except Errno Unit}

theorem Makes.changes {o : Nat → Nat → Obj} {r : Except Errno Nat} (h : fs.Makes user path o r fs') (hi : fs i ≠ none) :
    fs' i = fs i ∨ fs.MayChange user i := by
  rw [Makes, vacancy] at h
  cases hplace : fs.place user path with
  | error e =>
    rw [hplace] at h
    exact .inl (by rw [h.2])
  | ok spot =>
    rw [hplace] at h
    dsimp only at h
    split at h
    · rename_i e hvac
      exact .inl (by rw [h.2])
    rename_i spot' hvac
    split at hvac
    · cases hvac
    cases hw : mofsCheckDirWrite user (fs.record spot.dir) with
    | error e =>
      rw [hw] at hvac
      cases hvac
    | ok u =>
      rw [hw] at hvac
      cases hvac
      obtain ⟨-, rfl⟩ | ⟨c, hc, -, rfl⟩ := h
      · exact .inl rfl
      by_cases hp : i = spot.dir
      · rw [hp]
        exact .inr (.inl (mayWrite_of_dirWrite hw))
      · exact .inl (enter_of_ne hp (fun hic => hi (hic ▸ hc)) _)

/-- A name that goes with its object. -/
theorem drop_changes (hname : fs.names p name = some c) (hdot : isDotOrDotdotName name = true → p = rootInodeNum)
    (hw : mofsCheckDirWrite user (fs.record p) = .ok ()) (i : Nat) :
    fs.drop p name c i = fs i ∨ fs.MayChange user i := by
  by_cases hp : i = p
  · rw [hp]
    exact .inr (.inl (mayWrite_of_dirWrite hw))
  by_cases hc : i = c
  · rw [hc]
    exact .inr (.inr ⟨p, name, hname, hdot, hw⟩)
  · exact .inl (drop_of_ne hp hc)

theorem unlink_changes (hdots : fs.DotsAreDirs) (h : fs.unlink user path = .ok fs') (i : Nat) :
    fs' i = fs i ∨ fs.MayChange user i := by
  rw [unlink] at h
  split at h
  · cases h
  rename_i spot c hex
  split at h
  · cases h
  rename_i hw
  split at h
  · cases h
  rename_i hfile
  cases h
  refine drop_changes (existing_found hex) (fun hdot => ?_) hw i
  by_contra hp
  exact hfile (hdots _ _ _ (existing_found hex) hdot hp)

theorem rmdir_changes (h : fs.rmdir user path = .ok fs') (i : Nat) : fs' i = fs i ∨ fs.MayChange user i := by
  rw [rmdir] at h
  split at h
  · cases h
  split at h
  · cases h
  rename_i spot c hex
  split at h
  · cases h
  rename_i hdot
  split at h
  · cases h
  rename_i hw
  split at h
  · cases h
  split at h
  · cases h
    exact drop_changes (existing_found hex) (fun hd => absurd hd hdot) hw i
  · cases h

theorem Yields.changes {f : Except Errno Fs} (h : fs.Yields f r fs') (hf : ∀ fs'', f = .ok fs'' → fs'' i = fs i ∨ fs.MayChange user i) :
    fs' i = fs i ∨ fs.MayChange user i := by
  cases f with
  | error e => exact .inl (by rw [h.2])
  | ok fs'' =>
    rw [h.2]
    exact hf fs'' rfl

/-- The second half of a rename, in a file system `fs₁` that may have lost the destination. -/
theorem Moves.changes {fs₁ : Fs} (h : fs₁.Moves user p name s q name' r fs') (hname : fs.names p name = some s)
    (hdot : isDotOrDotdotName name = false)
    (hrec : ∀ i, mofsCheckDirWrite user (fs₁.record i) = .ok () → mofsCheckDirWrite user (fs.record i) = .ok ())
    (hfs : fs₁ i = fs i ∨ fs.MayChange user i) : fs' i = fs i ∨ fs.MayChange user i := by
  obtain ⟨e, -, rfl, -⟩ | ⟨-, ⟨-, hp, hq⟩, rfl⟩ := h
  · exact hfs
  by_cases hip : i = p
  · rw [hip]
    exact .inr (.inl (mayWrite_of_dirWrite (hrec _ hp)))
  by_cases hiq : i = q
  · rw [hiq]
    exact .inr (.inl (mayWrite_of_dirWrite (hrec _ hq)))
  by_cases his : i = s
  · rw [his]
    exact .inr (.inr ⟨p, name, hname, fun hd => absurd hd (by simp [hdot]), hrec _ hp⟩)
  · rw [move_of_ne hip hiq his]
    exact hfs

theorem Renames.changes {oldPath newPath : Path} (h : fs.Renames user oldPath newPath r fs') (i : Nat) :
    fs' i = fs i ∨ fs.MayChange user i := by
  obtain ⟨e, -, rfl, -⟩ | ⟨old, s, new, hold, hnew, hdot, hdot', h⟩ := h
  · exact .inl rfl
  have hname := existing_found hold
  have hfound := place_found hnew
  unfold RenamesAt at h
  cases hn : new.found with
  | none =>
    rw [hn] at h
    exact h.changes hname hdot (fun _ hw => hw) (.inl rfl)
  | some t =>
    rw [hn] at h hfound
    obtain ⟨-, -, rfl⟩ | ⟨-, -, -, rfl⟩ | ⟨-, ⟨-, hw, -⟩, hmoves⟩ := h
    · exact .inl rfl
    · exact .inl rfl
    refine hmoves.changes hname hdot (fun D hD => ?_)
      (drop_changes hfound.symm (fun hd => absurd hd (by simp [hdot'])) hw i)
    rw [record_drop] at hD
    split at hD
    · exact absurd hD (dirWrite_zero user)
    · exact hD

theorem setBytes_changes (hw : mofsCheckOpenPermission oflagWronly user (fs.record c) = .ok ()) (bytes : List UInt8) (i : Nat) :
    fs.setBytes c bytes i = fs i ∨ fs.MayChange user i := by
  by_cases hi : i = c
  · rw [hi]
    exact .inr (.inl hw)
  · exact .inl (setBytes_of_ne hi _)

theorem PwriteStep.changes {k : Nat} {data : List UInt8} {offset : Int} {res : Except Errno Ret}
    (h : fs.PwriteStep maxBytes P user k data offset res fs' P') (i : Nat) : fs' i = fs i ∨ fs.MayChange user i := by
  obtain ⟨r, h, -⟩ := h
  split at h
  · exact .inl (by rw [h.2])
  rw [Writes] at h
  cases hc : fs.writeCheck user maxBytes (P.files k) data.length offset with
  | error e =>
    rw [hc] at h
    exact .inl (by rw [h.2])
  | ok u =>
    rw [hc] at h
    obtain ⟨-, rfl⟩ | ⟨-, new, -, rfl⟩ := h
    · exact .inl rfl
    · obtain ⟨-, hflags, haccess⟩ := writeCheck_ok hc
      exact setBytes_changes (mayWrite_of_flags hflags (mayWrite_of_accessCheck haccess)) new i

theorem Truncates.changes {length : Int} (h : fs.Truncates user maxBytes c length r fs') (i : Nat) :
    fs' i = fs i ∨ fs.MayChange user i := by
  rw [Truncates] at h
  split at h
  · rename_i hc
    have hw := mayWrite_of_accessCheck hc.2.2
    obtain ⟨-, rfl⟩ | ⟨-, rfl | ⟨-, new, -, -, rfl⟩⟩ := h
    · exact setBytes_changes hw _ i
    · exact .inl rfl
    · exact setBytes_changes hw _ i
  · exact .inl (by rw [h.2])

theorem Opens.changes {flags mode : Nat} {r : Except Errno Nat} (h : fs.Opens user path flags mode r fs') (hi : fs i ≠ none) :
    fs' i = fs i ∨ fs.MayChange user i := by
  rw [Opens] at h
  split at h
  · exact .inl (by rw [h.2])
  split at h
  · exact .inl (by rw [h.1])
  split at h
  · obtain ⟨r', hmakes, -⟩ := h
    exact hmakes.changes hi
  · exact .inl (by rw [h.2])

/-- What a call does to an object, only those do who may write it or a directory that names it. -/
theorem Step.changes {res : Except Errno Ret} (hdots : fs.DotsAreDirs) (h : fs.Step maxBytes P user op res fs' P')
    (hi : fs i ≠ none) :
    fs' i = fs i ∨ fs.MayChange user i := by
  have hsame (hfs : fs' = fs) : fs' i = fs i ∨ fs.MayChange user i := .inl (by rw [hfs])
  cases op with
  | stat path | opendir path => exact hsame h.1
  | closedir k | readdir k | close k | read k size | pread k size offset | lseek k offset whence | fsync k =>
    cases k with
    | none => exact hsame h.1
    | some k => exact hsame h.1
  | «open» path flags mode =>
    obtain ⟨r, hopens, -⟩ := h
    exact hopens.changes hi
  | write k data | pwrite k data offset =>
    cases k with
    | none => exact hsame h.1
    | some k => exact PwriteStep.changes h i
  | truncate path length =>
    obtain ⟨r, h, -⟩ := h
    split at h
    · exact hsame h.2
    · exact h.changes i
  | ftruncate k length =>
    cases k with
    | none => exact hsame h.1
    | some k =>
      obtain ⟨r, h, -⟩ := h
      split at h
      · exact hsame h.2
      · exact h.changes i
  | unlink path =>
    obtain ⟨r, h, -⟩ := h
    exact h.changes fun fs'' hfs => unlink_changes hdots hfs i
  | mkdir path mode =>
    obtain ⟨r, h, -⟩ := h
    exact h.changes hi
  | rmdir path =>
    obtain ⟨r, h, -⟩ := h
    exact h.changes fun fs'' hfs => rmdir_changes hfs i
  | rename oldPath newPath =>
    obtain ⟨r, h, -⟩ := h
    exact h.changes i

end Changes

end Fs

section Run

variable {x x' : Disk × Pools} {y y' : Fs × Pools} {tr tr' : List Event} {o : Obj}

theorem Carries.dotsAreDirs (h : Carries sb x y) : y.1.DotsAreDirs := by
  obtain ⟨⟨G, T, up, hU, hfs⟩, -⟩ := h
  rw [← hfs]
  intro p name c hname hdot hp
  cases hd : ((sb.view x.1).inode p).isDir with
  | false =>
    have hnone : (fsOf sb (sb.view x.1) G T up).names p = fun _ => none := by
      rw [← hU.vol.fs_isDir] at hd
      rw [Fs.names]
      split
      · next hobj => simp [Fs.isDir, hobj, Obj.isDir] at hd
      · rfl
    rw [hnone] at hname
    cases hname
  | true =>
    rw [hU.vol.fs_isDir]
    rw [hU.vol.fs_names hd, lookup_dirSlots hp] at hname
    simp only [isDotOrDotdotName, Bool.or_eq_true, decide_eq_true_eq] at hdot
    rcases hdot with rfl | rfl
    · cases hname
      exact hd
    · cases hname
      exact hU.vol.up_isDir (hU.vol.used_of_isDir hd) hp

/-- A volume that holds a file system goes on to hold one. -/
theorem Carries.run (hx : Carries sb x y) (hok : sb.Ok) (hserves : env.Serves sb) (h : Runs (VolCall sb env) x tr x') :
    ∃ y', Carries sb x' y' := by
  obtain ⟨y', -, hy'⟩ := h.simulates (VolCall.simulated hok hserves) hx
  exact ⟨y', hy'⟩

/-- The first call of a run that changes an object is made by somebody who may change it. -/
theorem Carries.first_change (hx : Carries sb x y) (hok : sb.Ok) (hserves : env.Serves sb)
    (h : Runs (VolCall sb env) x tr x') (hx' : Carries sb x' y') (hi : y.1 i = some o) (hne : y'.1 i ≠ some o) :
    ∃ tr₁ e tr₂ d₁ P₁ fs₁, tr = tr₁ ++ e :: tr₂ ∧ Runs (VolCall sb env) x tr₁ (d₁, P₁) ∧ Carries sb (d₁, P₁) (fs₁, P₁) ∧
      fs₁ i = some o ∧ fs₁.MayChange e.user i := by
  obtain ⟨tr₁, e, tr₂, ⟨d₁, P₁⟩, v, rfl, hruns, hu, hcall, hv⟩ :=
    h.exists_step (I := fun x => ∀ y, Carries sb x y → y.1 i = some o) (fun z hz => hz.unique hx ▸ hi) fun hall => hne (hall _ hx')
  obtain ⟨⟨fs₁, P₂⟩, hcarries⟩ := hx.run hok hserves hruns
  obtain rfl : P₁ = P₂ := hcarries.2
  have hold : fs₁ i = some o := hu _ hcarries
  refine ⟨tr₁, e, tr₂, d₁, P₁, fs₁, rfl, hruns, hcarries, hold, ?_⟩
  -- the call changes the object, so that the caller may change it
  obtain ⟨z, hstep, hz⟩ := VolCall.simulated hok hserves _ _ e v hcarries hcall
  have hsome : fs₁ i ≠ none := fun hnone => by cases hnone.symm.trans hold
  obtain hsame | hmay := Fs.Step.changes hcarries.dotsAreDirs hstep hsome
  · refine absurd (fun z' hz' => ?_) hv
    rw [Carries.unique hz' hz]
    exact hsame.trans hold
  · exact hmay

/-- Integrity over whole runs: an object of a mounted volume, that is its owner and mode and its bytes or names, stays
what it is until a call of somebody who may write it or a directory that names it, `.` and `..` aside. -/
theorem object_changes_permitted (hboot : Booted sb env t) (h3 : rootInodeNum < sb.inodeNum) (h25 : sb.inodeNum < 33554432)
    (hrun : Runs (VolCall sb env) (t, .closed) tr (d, P)) (hrun' : Runs (VolCall sb env) (d, P) tr' (d', P'))
    (hfs : Carries sb (d, P) (fs, P)) (hfs' : Carries sb (d', P') (fs', P')) (hi : fs i = some o) (hne : fs' i ≠ some o) :
    ∃ tr₁ e tr₂ d₁ P₁ fs₁, tr' = tr₁ ++ e :: tr₂ ∧ Runs (VolCall sb env) (t, .closed) (tr ++ tr₁) (d₁, P₁) ∧
      Carries sb (d₁, P₁) (fs₁, P₁) ∧ fs₁ i = some o ∧ fs₁.MayChange e.user i := by
  obtain ⟨hok, hserves, -⟩ := hboot.fresh h3 h25
  obtain ⟨tr₁, e, tr₂, d₁, P₁, fs₁, htr, hruns, hrest⟩ := hfs.first_change hok hserves hrun' hfs' hi hne
  exact ⟨tr₁, e, tr₂, d₁, P₁, fs₁, htr, hrun.append hruns, hrest⟩

/-- The owner of the root creates a file there. -/
theorem object_changes_permitted_root : ∃ (sb : Superblock) (env : Env) (t d : Disk) (P : Pools) (fs fs' : Fs) (e : Event) (o : Obj),
    Booted sb env t ∧ rootInodeNum < sb.inodeNum ∧ sb.inodeNum < 33554432 ∧ Runs (VolCall sb env) (t, .closed) [e] (d, P) ∧
    Carries sb (t, .closed) (fs, .closed) ∧ Carries sb (d, P) (fs', P) ∧ fs rootInodeNum = some o ∧ fs' rootInodeNum ≠ some o ∧
    ∃ tr₁ e' tr₂ d₁ P₁ fs₁, [e] = tr₁ ++ e' :: tr₂ ∧ Runs (VolCall sb env) (t, .closed) ([] ++ tr₁) (d₁, P₁) ∧
      Carries sb (d₁, P₁) (fs₁, P₁) ∧ fs₁ rootInodeNum = some o ∧ fs₁.MayChange e'.user rootInodeNum := by
  obtain ⟨m, t, hboot, hfresh, hnum, hent, -⟩ := exists_fresh
  have h3 : rootInodeNum < m.sb.inodeNum := by rw [hnum]; decide
  have h25 : m.sb.inodeNum < 33554432 := by rw [hnum]; decide
  have hcrowd := hfresh.crowd fun _ => rootInodeNum
  have hn : 0 < entriesPerBlk m.sb := by rw [hent]; decide
  obtain ⟨d, T, up, hexec, hcrowd', hE, -⟩ := Crowd.add (k := 0) hcrowd hfresh (by rw [hnum]; decide) hn
    (show oflagCreat &&& oflagCreat ≠ 0 by decide) 0o644 .closed
  generalize Mount.posixRet _ _ = x at hexec
  have hcall : VolCall m.sb m.env (t, .closed) ⟨rootUser (m.sb.view t), .open (letterPath 0) oflagCreat 0o644, x.1⟩ (d, x.2) :=
    ⟨⟨Crowd.fits (k := 0) hcrowd hn _ _, show 0 < 2147483648 by decide⟩, hexec⟩
  have hrun := Runs.next .start hcall
  have hfs := hfresh.carries m.ok
  have hvol := hcrowd'.scene.vol
  have hfs' : Carries m.sb (d, x.2) (fsOf m.sb (m.sb.view d) (freshOwners m.sb) T up, x.2) :=
    ⟨⟨_, _, _, ⟨hvol, hcrowd'.scene.one⟩, rfl⟩, rfl⟩
  -- the root has a name that it did not have
  have hne : fsOf m.sb (m.sb.view d) (freshOwners m.sb) T up rootInodeNum ≠
      some ⟨((m.sb.view t).inode rootInodeNum).access, .dir fun _ => none⟩ := by
    intro hroot
    have hnames := hE.names rootInodeNum (by decide) (letter 0)
    rw [if_pos ⟨rfl, rfl⟩] at hnames
    rw [fsOf_of_dir (hvol.used_of_isDir hvol.rootDir) hvol.rootDir] at hroot
    have hbody := congrArg Obj.body (Option.some.inj hroot)
    have hlookup := congrFun (Body.dir.inj hbody) (letter 0)
    rw [hnames] at hlookup
    cases hlookup
  exact ⟨m.sb, m.env, t, d, x.2, _, _, _, _, hboot, h3, h25, hrun, hfs, hfs', Function.update_self _ _ _, hne,
    object_changes_permitted hboot h3 h25 .start hrun hfs hfs' (Function.update_self _ _ _) hne⟩

end Run

end Mofs
