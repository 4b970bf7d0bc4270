import Mofs.FsView

namespace Mofs

open Effect Bytes Slots Mofs.Tree

variable {sb : Superblock} {m : Mount} {V W : View} {G H : Owners} {T T' : Nat → List Slot} {up up' : Nat → Nat} {user : User}
  {path : Path} {info : PathInfo} {i p q s c mode : Nat} {n nn name : Name}

/-- A volume without grown directories holds a file system as described by `Q`. -/
def HoldsFs (sb : Superblock) (W : View) (Q : Fs → Prop) : Prop :=
  ∃ H T up, Ungrown sb W H T up ∧ Q (fsOf sb W H T up)

theorem HoldsFs.mono {Q Q' : Fs → Prop} (h : HoldsFs sb W Q) (hQ : ∀ fs, Q fs → Q' fs) : HoldsFs sb W Q' := by
  obtain ⟨H, T, up, hU, hfs⟩ := h
  exact ⟨H, T, up, hU, hQ _ hfs⟩

theorem Ungrown.holdsFs {Q : Fs → Prop} (h : Ungrown sb V G T up) (hQ : Q (fsOf sb V G T up)) : HoldsFs sb V Q :=
  ⟨G, T, up, h, hQ⟩

section Entering

/-- A name of directory `p` changed, as seen from the objects other than `c`. -/
theorem fsOf_edit {D : Nat} {o : Option Nat} (h : Vol sb V G T up) (hB : 0 < sb.blkSize) (hp : (V.inode p).isDir = true)
    (hF : Frame sb [p, c] V W G H) (hbit : W.ibit D = V.ibit D) (hperm : SamePerm (V.inode p) (W.inode p)) (hDc : D ≠ c)
    (hnames : ∀ x, lookup (dirSlots up' T' D) x = if D = p ∧ x = name then o else lookup (dirSlots up T D) x) :
    fsOf sb W H T' up' D = (fsOf sb V G T up D).map (Obj.rename fun names x => if D = p ∧ x = name then o else names x) := by
  by_cases hDp : D = p
  · subst hDp
    have hused := h.used_of_isDir hp
    exact fsOf_rename hused (hbit.trans hused) hp hperm (funext hnames)
  · rw [fsOf_congr hB h (hF.same D (by simp [hDp, hDc])) fun _ => ?_]
    · simp only [hDp, false_and, if_false, Fs.rename_self]
    · funext x
      rw [hnames, if_neg fun hx => hDp hx.1]

/-- A new object `c` under a new name in `p`. -/
theorem fsOf_enter {o : Obj} (h : Vol sb V G T up) (hB : 0 < sb.blkSize) (hp : (V.inode p).isDir = true)
    (hF : Frame sb [p, c] V W G H) (hib : W.ibit = Function.update V.ibit c true)
    (hperm : SamePerm (V.inode p) (W.inode p))
    (hnames : ∀ D, D ≠ c → ∀ x, lookup (dirSlots up' T' D) x =
      if D = p ∧ x = name then some c else lookup (dirSlots up T D) x)
    (ho : fsOf sb W H T' up' c = some o) : fsOf sb W H T' up' = (fsOf sb V G T up).enter p name c o := by
  funext D
  by_cases hDc : D = c
  · rw [hDc, ho, Fs.enter, Function.update_self]
  · rw [Fs.enter_apply o hDc]
    exact fsOf_edit h hB hp hF (by rw [hib, Function.update_of_ne hDc]) hperm hDc (hnames D hDc)

theorem fileBytes_of_empty (h : (V.inode i).iSize = 0) : fileBytes sb V G i = [] := by
  apply List.eq_nil_of_length_eq_zero
  rw [length_fileBytes, h]
  rfl

theorem Created.fs {j : Nat} (h : Vol sb V G T up) (hB : 0 < sb.blkSize) (hp : (V.inode p).isDir = true) (hpc : p ≠ c)
    (hl : lookup (dirSlots up T p) name = none) (hC : Created sb V W G T up p c j name user mode) :
    fsOf sb W G (Function.update (Function.update T p ((T p).set j (some (name, c)))) c []) (Function.update up c p) =
      (fsOf sb V G T up).enter p name c (.newFile user mode) := by
  obtain ⟨t, ht⟩ := hC.inode
  refine fsOf_enter h hB hp hC.frame hC.ibit (hC.perm p hpc) (fun D hD => lookup_entered hC.vacancy hl hpc hD) ?_
  have hd : (W.inode c).isDir = false := by
    rw [ht, newInode_isDir 1 (by decide)]
    decide
  rw [fsOf_of_file (by rw [hC.ibit, Function.update_self]) hd, fileBytes_of_empty (by rw [ht]; rfl), ht]
  rfl

theorem lookup_newDir (hc : c ≠ rootInodeNum) (n : Nat) {T : Nat → List Slot} (hT : T c = List.replicate n none)
    (hup : up c = p) : lookup (dirSlots up T c) =
      fun name => if name = dot then some c else if name = dotdot then some p else none := by
  funext x
  have hnone : lookup (T c) x = none := by
    rw [lookup_eq_none, hT]
    intro v hv
    cases List.eq_of_mem_replicate hv
  rw [lookup_dirSlots hc, hnone, hup]

theorem MadeDir.fs {j : Nat} (h : Vol sb V G T up) (hB : 0 < sb.blkSize) (hp : (V.inode p).isDir = true) (hpc : p ≠ c)
    (hc : c ≠ rootInodeNum) (hl : lookup (dirSlots up T p) name = none)
    (hD : MadeDir sb V W G H T up p c j name user mode) :
    fsOf sb W H (Function.update (Function.update T p ((T p).set j (some (name, c)))) c
        (List.replicate (entriesPerBlk sb - 2) none)) (Function.update up c p) =
      (fsOf sb V G T up).enter p name c (.newDir user mode c p) := by
  refine fsOf_enter h hB hp hD.frame hD.ibit (hD.perm p hpc) (fun D hne => lookup_entered hD.vacancy hl hpc hne) ?_
  have hd : (W.inode c).isDir = true := by
    rw [hD.child.isDir, newInode_isDir 2 (by decide)]
    decide
  rw [fsOf_of_dir (by rw [hD.ibit, Function.update_self]) hd,
    lookup_newDir hc _ (Function.update_self ..) (Function.update_self ..), hD.child.access]
  rfl

theorem Vol.fs_vacancy (h : Vol sb V G T up) (user : User) (path : Path) : (fsOf sb V G T up).vacancy user path =
    match resolve V up T resolveTarget user path with
    | .error e => .error e
    | .ok info =>
      if info.leafFound then .error .eexist
      else (mofsCheckDirWrite user (V.inode info.parentInodeNum)).map fun _ => ⟨info.parentInodeNum, info.leafName, none⟩ := by
  rw [h.fs_target, Fs.vacancy]
  cases (fsOf sb V G T up).place user path with
  | error e => rfl
  | ok spot =>
    obtain ⟨dir, name, found⟩ := spot
    cases found with
    | some c => rfl
    | none =>
      change (mofsCheckDirWrite user ((fsOf sb V G T up).record dir)).map _ = _
      rw [(h.record dir).checkDirWrite]
      rfl

/-- In a directory of one block a new name can only fail for want of space. -/
theorem AddPost.enospc {slots : List Slot} {e : Errno} (hadd : AddPost sb V W G p slots name c (.error e))
    (hlen : slots.length < sb.maxSlots) (hl : lookup slots name = none) : e = .enospc := by
  rw [AddPost, if_neg (Nat.not_le.mpr hlen), hl] at hadd
  simp only [Option.isSome_none, Bool.false_eq_true, if_false] at hadd
  split at hadd
  · cases hadd.1
  split at hadd
  · cases hadd.1
  split at hadd
  · cases hadd.1
  · cases hadd.1
    rfl

/-- A new entry in a directory that does not have to grow for it finds a vacant slot. -/
theorem TakesEntry.vacant {V' : View} {x : Nat} (h : Ungrown m.sb V G T up) (hp : (V.inode p).isDir = true)
    (htake : TakesEntry m.sb V p) (hadd : AddPost m.sb V' W H p (dirSlots up T p) name x (.ok ()))
    (hfree : (m.sb.freeData V').length ≤ (m.sb.freeData V).length) : none ∈ dirSlots up T p := by
  rcases htake with hvac | hfew
  · exact (hasVacancy_iff h.vol hp).mp hvac
  · exact hadd.mem_of_few (h.one p hp) (Nat.lt_of_le_of_lt hfree hfew)

/-- The start that `mofs_create_core` and `mofs_mkdir_core` share: it fails with `F`, or leads to a free inode `c`. -/
theorem Vol.enter_cases {F : Errno → Prop} {K : PathInfo → Nat → Prop} (h : Vol sb V G T up)
    (hP : match resolve V up T resolveTarget user path with
      | .error e => F e
      | .ok info =>
        if info.leafFound then F .eexist
        else
          match mofsCheckDirWrite user (V.inode info.parentInodeNum) with
          | .error e => F e
          | .ok () =>
            match sb.freeInodes V with
            | [] => F .enospc
            | c :: _ => K info c) :
    (∃ e, F e ∧ (fsOf sb V G T up).vacancy user path = .error e) ∨
      ∃ info : PathInfo, (fsOf sb V G T up).vacancy user path = .ok ⟨info.parentInodeNum, info.leafName, none⟩ ∧
        (F .enospc ∨ ∃ c, Entering sb V T up user path info c ∧ K info c) := by
  rw [h.fs_vacancy]
  cases hres : resolve V up T resolveTarget user path with
  | error e =>
    rw [hres] at hP
    exact .inl ⟨e, hP, rfl⟩
  | ok info =>
    rw [hres] at hP
    dsimp only at hP ⊢
    cases hf : info.leafFound with
    | true =>
      rw [hf, if_pos rfl] at hP
      exact .inl ⟨_, hP, rfl⟩
    | false =>
      rw [hf, if_neg Bool.false_ne_true] at hP
      cases hw : mofsCheckDirWrite user (V.inode info.parentInodeNum) with
      | error e =>
        rw [hw] at hP
        exact .inl ⟨e, hP, rfl⟩
      | ok u =>
        rw [hw] at hP
        refine .inr ⟨info, rfl, ?_⟩
        cases hfree : sb.freeInodes V with
        | nil =>
          rw [hfree] at hP
          exact .inl hP
        | cons c rest =>
          rw [hfree] at hP
          exact .inr ⟨c, ⟨hres, hf, hw, by rw [hfree]; rfl⟩, hP⟩

theorem Entering.ne_root (hE : Entering sb V T up user path info c) : c ≠ rootInodeNum := by
  have h3 := hE.free.2.1
  simp only [rootInodeNum]
  omega

theorem CreatePost.makes {r : Except Errno Nat} (h : Ungrown m.sb V G T up)
    (hP : CreatePost m.sb V W G T up user path mode r)
    (htake : ∀ info, resolve V up T resolveTarget user path = .ok info → info.leafFound = false →
      TakesEntry m.sb V info.parentInodeNum) :
    HoldsFs m.sb W ((fsOf m.sb V G T up).Makes user path (fun _ _ => .newFile user mode) r) := by
  unfold Fs.Makes
  obtain ⟨e, ⟨rfl, rfl⟩, hvac⟩ | ⟨info, hvac, ⟨rfl, rfl⟩ | ⟨c, hE, t, r', W', hadd, hr'⟩⟩ := h.vol.enter_cases hP
  · rw [hvac]
    exact h.holdsFs ⟨rfl, rfl⟩
  · rw [hvac]
    exact h.holdsFs (.inl ⟨rfl, rfl⟩)
  rw [hvac]
  obtain ⟨hp, hl, -⟩ := hE.located h.vol
  obtain ⟨hlt, h3, hc⟩ := hE.free
  have hshort := short_of_eq m.ok (h.one _ hp)
  rcases hr' with ⟨rfl, rfl, rfl⟩ | ⟨e, rfl, rfl, rfl⟩
  · have hnone := (htake info hE.resolved hE.missing).vacant h hp hadd (Nat.le_refl _)
    obtain ⟨-, j, hC⟩ := Created.of_addPost h.vol m.ok hp hlt h3 hc (mem_ordinary hnone) hl hshort hadd
    have hU := h.entered hC.vol hE.ne_root hC.perm fun hd => by
      obtain ⟨t', ht'⟩ := hC.inode
      rw [ht', newInode_isDir 1 (by decide)] at hd
      exact absurd hd (by decide)
    exact ⟨G, _, _, hU, .inr ⟨c, fsOf_of_free hc, rfl, hC.fs h.vol m.ok.blk_pos hp (hE.ne h.vol hp) hl⟩⟩
  · obtain rfl := hadd.enospc hshort hl
    exact h.holdsFs (.inl ⟨rfl, rfl⟩)

theorem MkdirPost.makes {r : Except Errno Unit} (h : Ungrown m.sb V G T up)
    (hP : MkdirPost m.sb V W G T up user path mode r)
    (htake : ∀ info, resolve V up T resolveTarget user path = .ok info → info.leafFound = false →
      TakesEntry m.sb V info.parentInodeNum) :
    ∃ r', r = r'.map (fun _ => ()) ∧
      HoldsFs m.sb W ((fsOf m.sb V G T up).Makes user path (fun c p => .newDir user mode c p) r') := by
  unfold Fs.Makes
  obtain ⟨e, ⟨rfl, rfl⟩, hvac⟩ | ⟨info, hvac, ⟨rfl, rfl⟩ | ⟨c, hE, hpost⟩⟩ := h.vol.enter_cases hP
  · rw [hvac]
    exact ⟨.error e, rfl, h.holdsFs ⟨rfl, rfl⟩⟩
  · rw [hvac]
    exact ⟨.error .enospc, rfl, h.holdsFs (.inl ⟨rfl, rfl⟩)⟩
  rw [hvac]
  split at hpost
  next hgrow =>
    obtain ⟨H, r', V', W', hnew, hadd, hr'⟩ := hpost
    obtain ⟨hp, hl, -⟩ := hE.located h.vol
    obtain ⟨-, h3, hc⟩ := hE.free
    have hshort := short_of_eq m.ok (h.one _ hp)
    rcases hr' with ⟨rfl, rfl, t, hW⟩ | ⟨e, rfl, rfl, hF⟩
    · have hnone : none ∈ dirSlots up T info.parentInodeNum := by
        rcases htake info hE.resolved hE.missing with hvac | hfew
        · exact (hasVacancy_iff h.vol hp).mp hvac
        · -- the new directory has taken a block and a list node
          exact absurd (m.two_le_of_canGrow hgrow) (Nat.not_le.mpr hfew)
      obtain ⟨-, j, hD⟩ := MadeDir.of_addPost h.vol m.ok hp h3 hc (mem_ordinary hnone) hl hshort (h.few_links m.ok hp) hnew
        hadd hW
      have hU := h.entered hD.vol hE.ne_root hD.perm fun _ => by
        have hent := m.ok.entries_ge
        rw [List.length_replicate]
        omega
      exact ⟨.ok c, rfl, H, _, _, hU,
        .inr ⟨c, fsOf_of_free hc, rfl, hD.fs h.vol m.ok.blk_pos hp (hE.ne h.vol hp) hE.ne_root hl⟩⟩
    · obtain rfl := hadd.enospc hshort hl
      have hsame : fsOf m.sb W G T up = fsOf m.sb V G T up :=
        funext fun D => fsOf_congr m.ok.blk_pos h.vol (hF.same D (by simp)) fun _ => rfl
      exact ⟨.error .enospc, rfl, G, T, up, h.of_frame m.ok hF, .inl ⟨rfl, hsame⟩⟩
  next =>
    obtain ⟨rfl, rfl⟩ := hpost
    exact ⟨.error .enospc, rfl, h.holdsFs (.inl ⟨rfl, rfl⟩)⟩

theorem Vol.fs_mayOpen (h : Vol sb V G T up) (user : User) (flags i : Nat) :
    (fsOf sb V G T up).mayOpen user flags i = (openChecks flags user (V.inode i)).map fun _ => i := by
  rw [Fs.mayOpen, h.fs_isDir, (h.record i).checkOpen, openChecks]
  split
  · rfl
  · rfl

theorem OpenPost.opens {r : Except Errno Nat} {flags : Nat} (h : Ungrown m.sb V G T up)
    (hP : OpenPost m.sb V W G T up user path flags mode r)
    (htake : flags &&& oflagCreat ≠ 0 → ∀ info, resolve V up T resolveTarget user path = .ok info → info.leafFound = false →
      TakesEntry m.sb V info.parentInodeNum) :
    HoldsFs m.sb W ((fsOf m.sb V G T up).Opens user path flags mode r) := by
  unfold OpenPost at hP
  split at hP
  next hvalid =>
    obtain ⟨rfl, rfl⟩ := hP
    refine h.holdsFs ?_
    rw [Fs.Opens, if_pos hvalid]
    exact ⟨rfl, rfl⟩
  next hvalid =>
    cases hres : resolve V up T resolveInode user path with
    | ok info =>
      have hfind : (fsOf m.sb V G T up).find user path = .ok info.leafInodeNum := by rw [← h.vol.fs_find, hres, Except.map]
      rw [hres] at hP
      obtain ⟨rfl, rfl⟩ := hP
      refine h.holdsFs ?_
      rw [Fs.Opens, if_neg hvalid, hfind, ← h.vol.fs_mayOpen]
      exact ⟨rfl, rfl⟩
    | error e =>
      have hfind : (fsOf m.sb V G T up).find user path = .error e := by rw [← h.vol.fs_find, hres, Except.map]
      rw [hres] at hP
      dsimp only at hP
      split at hP
      next hcreat =>
        obtain ⟨r', hC, rfl⟩ := hP
        obtain ⟨H, T', up', hU, hmakes⟩ := hC.makes h (htake hcreat.2)
        refine ⟨H, T', up', hU, ?_⟩
        rw [Fs.Opens, if_neg hvalid, hfind]
        dsimp only
        rw [if_pos hcreat]
        refine ⟨r', hmakes, ?_⟩
        cases r' with
        | error e => rfl
        | ok c => exact (hU.vol.fs_mayOpen user flags c).symm
      next hcreat =>
        obtain ⟨rfl, rfl⟩ := hP
        refine h.holdsFs ?_
        rw [Fs.Opens, if_neg hvalid, hfind]
        dsimp only
        rw [if_neg hcreat]
        exact ⟨rfl, rfl⟩

end Entering

section Removing

/-- Object `c` gone with its name in `p`. -/
theorem fsOf_drop (h : Vol sb V G T up) (hB : 0 < sb.blkSize) (hp : (V.inode p).isDir = true)
    (hF : Frame sb [p, c] V W G H) (hib : W.ibit = Function.update V.ibit c false)
    (hperm : SamePerm (V.inode p) (W.inode p))
    (hnames : ∀ D, D ≠ c → ∀ x, lookup (dirSlots up' T' D) x =
      if D = p ∧ x = name then none else lookup (dirSlots up T D) x) :
    fsOf sb W H T' up' = (fsOf sb V G T up).drop p name c := by
  funext D
  by_cases hDc : D = c
  · rw [hDc, Fs.drop, Function.update_self]
    exact fsOf_of_free (by rw [hib, Function.update_self])
  · rw [Fs.drop_apply hDc]
    exact fsOf_edit h hB hp hF (by rw [hib, Function.update_of_ne hDc]) hperm hDc (hnames D hDc)

/-- The names of all directories without the entry of `c`. -/
theorem lookup_dropped {j D : Nat} (h : Vol sb V G T up) (hp : (V.inode p).isDir = true)
    (hj : (T p)[j]? = some (some (name, c))) (hD : D ≠ c) (x : Name) :
    lookup (dirSlots up (Function.update (Function.update T p ((T p).set j none)) c []) D) x =
      if D = p ∧ x = name then none else lookup (dirSlots up T D) x := by
  rw [dirSlots, Function.update_of_ne hD]
  by_cases hDp : D = p
  · subst hDp
    rw [Function.update_self, lookup_without_slot h hp hj]
    simp only [true_and]
  · rw [Function.update_of_ne hDp, if_neg fun hx => hDp hx.1, dirSlots]

/-- An object that has lost its name and its inode. -/
theorem Unlinked.fs_drop {j : Nat} (h : Vol sb V G T up) (hB : 0 < sb.blkSize) (hp : (V.inode p).isDir = true)
    (hj : (T p)[j]? = some (some (name, c))) (hD : Unlinked sb V W G H T up p c name) :
    fsOf sb W H (without T p j c) up = (fsOf sb V G T up).drop p name c := by
  exact fsOf_drop h hB hp hD.frame hD.ibit hD.perm fun D hne => lookup_dropped h hp hj hne

theorem Unlinked.fs (h : Ungrown sb V G T up) (hok : sb.Ok) (hp : (V.inode p).isDir = true) (hleaf : kids T c = [])
    (hD : Unlinked sb V W G H T up p c name) : HoldsFs sb W fun fs' => fs' = (fsOf sb V G T up).drop p name c := by
  obtain ⟨j, hj, hvol⟩ := hD.vol h.vol hok hp hleaf
  exact ⟨H, without T p j c, up, h.of_sizes hvol fun i hi => hD.sizes h.vol hp hi, hD.fs_drop h.vol hok.blk_pos hp hj⟩

/-- A directory other than the root without children is empty. -/
theorem Vol.fs_empty (h : Vol sb V G T up) (hd : (V.inode c).isDir = true) (hc : c ≠ rootInodeNum) :
    (fsOf sb V G T up).Empty c ↔ kids T c = [] := by
  rw [← h.all_notDot hd hc, Fs.Empty, h.fs_names hd, List.all_eq_true]
  constructor
  · intro hnone slot hslot
    cases slot with
    | none => rfl
    | some e =>
      obtain ⟨name, x⟩ := e
      cases hdot : isDotOrDotdotName name with
      | true => simpa [notDot, isDotOrDotdotName] using hdot
      | false => exact absurd hslot (lookup_eq_none.mp (hnone name hdot) x)
  · intro hall name hdot
    rw [lookup_eq_none]
    intro x hx
    have hslot : isDotOrDotdotName name = true := by simpa [notDot, isDotOrDotdotName] using hall _ hx
    rw [hdot] at hslot
    cases hslot

theorem Fs.Yields.of_error {fs fs' : Fs} {r : Except Errno Fs} {e : Errno} (h : r = .error e) (hfs : fs' = fs) :
    fs.Yields r (.error e) fs' := by
  rw [h]
  exact ⟨rfl, hfs⟩

theorem Fs.Yields.of_ok {fs fs' fs'' : Fs} {r : Except Errno Fs} (h : r = .ok fs'') (hfs : fs' = fs'') :
    fs.Yields r (.ok ()) fs' := by
  rw [h]
  exact ⟨rfl, hfs⟩

theorem Vol.located_existing (h : Vol sb V G T up) {spot : Place}
    (hex : (fsOf sb V G T up).existing user path = .ok (spot, c)) :
    resolve V up T resolveExisting user path = .ok ⟨spot.dir, c, true, spot.name⟩ ∧
      Located V up T ⟨spot.dir, c, true, spot.name⟩ spot.dir := by
  have hres : resolve V up T resolveExisting user path = .ok ⟨spot.dir, c, true, spot.name⟩ := by
    rw [h.fs_existing, hex, Except.map]
  exact ⟨hres, (Located.of_resolve h.rootDir rfl hres).1⟩

theorem UnlinkPost.yields {r : Except Errno Unit} (h : Ungrown sb V G T up) (hok : sb.Ok)
    (hP : UnlinkPost sb V W G T up user path r) :
    HoldsFs sb W ((fsOf sb V G T up).Yields ((fsOf sb V G T up).unlink user path) r) := by
  unfold UnlinkPost at hP
  cases hex : (fsOf sb V G T up).existing user path with
  | error e =>
    rw [h.vol.fs_existing, hex] at hP
    obtain ⟨rfl, rfl⟩ := hP
    exact h.holdsFs (.of_error (by rw [Fs.unlink, hex]) rfl)
  | ok x =>
    obtain ⟨spot, c⟩ := x
    obtain ⟨hres, hloc⟩ := h.vol.located_existing hex
    rw [hres] at hP
    have hcheck := (h.vol.record spot.dir).checkDirWrite user
    dsimp only at hP
    split at hP
    next e hw =>
      obtain ⟨rfl, rfl⟩ := hP
      exact h.holdsFs (.of_error (by simp only [Fs.unlink, hex, hcheck, hw]) rfl)
    next hw =>
      split at hP
      next hd =>
        obtain ⟨rfl, rfl⟩ := hP
        exact h.holdsFs (.of_error (by simp only [Fs.unlink, hex, hcheck, hw, h.vol.fs_isDir, if_pos hd]) rfl)
      next hd =>
        obtain ⟨rfl, H, hD⟩ := hP
        have hleaf := kids_nil ((h.vol.node c).flat (by simpa using hd))
        exact (hD.fs h hok hloc.dir hleaf).mono fun fs' hfs =>
          .of_ok (by simp only [Fs.unlink, hex, hcheck, hw, h.vol.fs_isDir, if_neg hd]) hfs

open Classical in
theorem RmdirPost.yields {r : Except Errno Unit} (h : Ungrown sb V G T up) (hok : sb.Ok)
    (hP : RmdirPost sb V W G T up user path r) :
    HoldsFs sb W ((fsOf sb V G T up).Yields ((fsOf sb V G T up).rmdir user path) r) := by
  unfold RmdirPost at hP
  split at hP
  next hslash =>
    obtain ⟨rfl, rfl⟩ := hP
    exact h.holdsFs (.of_error (by rw [Fs.rmdir, if_pos hslash]) rfl)
  next hslash =>
    cases hex : (fsOf sb V G T up).existing user path with
    | error e =>
      rw [h.vol.fs_existing, hex] at hP
      obtain ⟨rfl, rfl⟩ := hP
      exact h.holdsFs (.of_error (by rw [Fs.rmdir, if_neg hslash, hex]) rfl)
    | ok x =>
      obtain ⟨spot, c⟩ := x
      obtain ⟨hres, hloc⟩ := h.vol.located_existing hex
      rw [hres] at hP
      have hcheck := (h.vol.record spot.dir).checkDirWrite user
      dsimp only at hP
      split at hP
      next hdot =>
        obtain ⟨rfl, rfl⟩ := hP
        exact h.holdsFs (.of_error (by simp only [Fs.rmdir, if_neg hslash, hex, if_pos hdot]) rfl)
      next hdot =>
        split at hP
        next e hw =>
          obtain ⟨rfl, rfl⟩ := hP
          exact h.holdsFs (.of_error (by simp only [Fs.rmdir, if_neg hslash, hex, if_neg hdot, hcheck, hw]) rfl)
        next hw =>
          have hspec : (fsOf sb V G T up).rmdir user path = if (V.inode c).isDir = false then .error .enotdir
              else if (fsOf sb V G T up).Empty c then .ok ((fsOf sb V G T up).drop spot.dir spot.name c)
              else .error .enotempty := by
            simp only [Fs.rmdir, if_neg hslash, hex, if_neg hdot, hcheck, hw, h.vol.fs_isDir]
          split at hP
          next hd =>
            obtain ⟨rfl, rfl⟩ := hP
            exact h.holdsFs (.of_error (by rw [hspec, if_pos hd]) rfl)
          next hd =>
            have hslot := (List.mem_append.mp (mem_of_lookup hloc.found)).resolve_left
              (not_mem_lead_of_name (by simpa using hdot) _ _)
            have hempty := h.vol.fs_empty (by simpa using hd) (h.vol.kid hloc.dir hslot).2.1
            rw [if_neg hd] at hspec
            split at hP
            next hkids =>
              obtain ⟨rfl, rfl⟩ := hP
              exact h.holdsFs (.of_error (by rw [hspec, if_neg fun he => hkids (hempty.mp he)]) rfl)
            next hkids =>
              obtain ⟨rfl, H, hD⟩ := hP
              have hleaf := not_not.mp hkids
              exact (hD.fs h hok hloc.dir hleaf).mono fun fs' hfs =>
                .of_ok (by rw [hspec, if_pos (hempty.mpr hleaf)]) hfs

end Removing

end Mofs
