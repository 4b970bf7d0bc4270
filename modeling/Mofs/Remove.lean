import Mofs.Create

namespace Mofs

open Effect Bytes Slots Mofs.Tree

variable {sb : Superblock} {U V W : View} {F G H : Owners} {T : Nat → List Slot} {up : Nat → Nat} {i p c k : Nat}
  {user : User} {path : Path} {info : PathInfo} {name : Name}

/-- The attributes that permissions depend on. -/
structure SamePerm (x y : Inode) : Prop where
  mode : y.iMode = x.iMode
  uid : y.iUid = x.iUid
  gid : y.iGid = x.iGid

theorem SameAttrs.samePerm {x y : Inode} (h : SameAttrs x y) : SamePerm x y := ⟨h.mode, h.uid, h.gid⟩

namespace SamePerm

variable {x y z : Inode}

theorem refl (x : Inode) : SamePerm x x := ⟨rfl, rfl, rfl⟩

theorem trans (h : SamePerm x y) (h' : SamePerm y z) : SamePerm x z :=
  ⟨h'.mode.trans h.mode, h'.uid.trans h.uid, h'.gid.trans h.gid⟩

theorem isDir (h : SamePerm x y) : y.isDir = x.isDir := by rw [Inode.isDir, h.mode, Inode.isDir]

theorem checkOpen (h : SamePerm x y) (flags : Nat) (user : User) :
    mofsCheckOpenPermission flags user y = mofsCheckOpenPermission flags user x := by
  simp only [mofsCheckOpenPermission, h.mode, h.uid, h.gid]

theorem checkDirWrite (h : SamePerm x y) (user : User) : mofsCheckDirWrite user y = mofsCheckDirWrite user x := by
  simp only [mofsCheckDirWrite, mofsCheckDirTraverse, h.checkOpen]

end SamePerm

theorem DirSet.samePerm {slots : List Slot} (h : DirSet sb V W G p slots) (x : Nat) : SamePerm (V.inode x) (W.inode x) := by
  by_cases hx : x = p
  · subst hx
    exact h.attrs.samePerm
  · rw [(h.frame.same x (by simpa using hx)).inode]
    exact SamePerm.refl _

/-- Inode `c` has been given back with all its blocks. -/
structure Discarded (sb : Superblock) (V W : View) (G H : Owners) (c : Nat) : Prop where
  frame : Frame sb [c] V W G H
  ibit : W.ibit = Function.update V.ibit c false
  inode : W.inode c = Inode.zero

/-- An ordinary entry of directory `p` has been taken out, and its inode `c` given back. -/
structure Unlinked (sb : Superblock) (V W : View) (G H : Owners) (T : Nat → List Slot) (up : Nat → Nat) (p c : Nat)
    (name : Name) : Prop where
  frame : Frame sb [p, c] V W G H
  ibit : W.ibit = Function.update V.ibit c false
  inode : W.inode c = Inode.zero
  perm : SamePerm (V.inode p) (W.inode p)
  links : (W.inode p).iLinks.toNat + (if (V.inode c).isDir then 1 else 0) = (V.inode p).iLinks.toNat
  dir : ∃ j, (T p)[j]? = some (some (name, c)) ∧
    DirAt sb W p (H.nodes p) (H.data p) (lead up p ++ (T p).set j none)

/-- The volume after an entry was dropped. -/
theorem Unlinked.vol (h : Vol sb V G T up) (hok : sb.Ok) (hD : Unlinked sb V W G H T up p c name)
    (hp : (V.inode p).isDir = true) (hleaf : kids T c = []) :
    ∃ j, (T p)[j]? = some (some (name, c)) ∧
      Vol sb W H (Function.update (Function.update T p ((T p).set j none)) c []) up := by
  obtain ⟨j, hj, hdir⟩ := hD.dir
  exact ⟨j, hj, h.unlink hok hD.frame hp hj hleaf hD.ibit hD.inode hdir hD.links⟩

/-- A directory other than the root is empty when it has no children. -/
theorem Vol.all_notDot (h : Vol sb V G T up) (hd : (V.inode c).isDir = true) (hr : c ≠ rootInodeNum) :
    ((dirSlots up T c).all fun s => !notDot s) = true ↔ kids T c = [] := by
  have hdist := ((h.node c).dir hd).distinct
  rw [List.all_eq_true, List.eq_nil_iff_forall_not_mem]
  constructor
  · intro hall x hx
    obtain ⟨name, hmem⟩ := mem_kids.mp hx
    have hnd := hall _ (List.mem_append_right _ hmem)
    -- the two dot names are taken already
    have hl := hdist.lookup_of_mem (List.mem_append_right _ hmem : some (name, x) ∈ dirSlots up T c)
    rw [lookup_dirSlots hr] at hl
    have hne : name = dot ∨ name = dotdot := by simpa [notDot] using hnd
    have hdup : (name :: (entries (T c)).map Prod.fst).Sublist ((entries (dirSlots up T c)).map Prod.fst) := by
      rcases hne with rfl | rfl
      · simp [dirSlots, lead_of_ne hr]
      · simp [dirSlots, lead_of_ne hr]
    have hnodup := hdup.nodup hdist
    exact (List.nodup_cons.mp hnodup).1 (List.mem_map.mpr ⟨(name, x), mem_entries.mpr hmem, rfl⟩)
  · intro hnil s hs
    rcases List.mem_append.mp hs with hs | hs
    · obtain ⟨-, rfl | rfl⟩ := mem_lead.mp hs <;> rfl
    · cases s with
      | none => rfl
      | some e => exact absurd (mem_kids.mpr ⟨e.1, hs⟩) (hnil e.2)

theorem not_mem_lead_of_name (h : isDotOrDotdotName name = false) (c p : Nat) : some (name, c) ∉ lead up p := fun hm => by
  have hne : name ≠ dot ∧ name ≠ dotdot := by simpa [isDotOrDotdotName] using h
  obtain ⟨-, he | he⟩ := mem_lead.mp hm
  · simp only [Option.some.injEq, Prod.mk.injEq] at he
    exact hne.1 he.1
  · simp only [Option.some.injEq, Prod.mk.injEq] at he
    exact hne.2 he.1

/-- A change of an inode that keeps its list, its size and its mode keeps a directory. -/
theorem DirAt.setInode {ns ds : List Nat} {slots : List Slot} {x : Inode} (h : DirAt sb V p ns ds slots)
    (hhead : x.iDataHead = (V.inode p).iDataHead) (hnr : x.iNrBlocks = (V.inode p).iNrBlocks)
    (hsize : x.iSize = (V.inode p).iSize) (hdir : x.isDir = (V.inode p).isDir) :
    DirAt sb (V.setInode p x) p ns ds slots := by
  have hx : (V.setInode p x).inode p = x := Function.update_self _ _ _
  refine ⟨⟨h.file.range, ?_, ?_, h.file.max, h.file.nodup, h.file.inData⟩, ?_, ?_, h.blocks, h.slot⟩
  · rw [hx, hhead]
    exact h.file.chain
  · rw [hx, hnr]
    exact h.file.nr
  · rw [hx, hdir]
    exact h.isDir
  · rw [hx, hsize]
    exact h.size

def UnlinkPost (sb : Superblock) (V W : View) (G : Owners) (T : Nat → List Slot) (up : Nat → Nat) (user : User) (path : Path)
    (r : Except Errno Unit) : Prop :=
  match resolve V up T resolveExisting user path with
  | .error e => r = .error e ∧ W = V
  | .ok info =>
    match mofsCheckDirWrite user (V.inode info.parentInodeNum) with
    | .error e => r = .error e ∧ W = V
    | .ok () =>
      if (V.inode info.leafInodeNum).isDir then r = .error .eisdir ∧ W = V
      else r = .ok () ∧ ∃ H, Unlinked sb V W G H T up info.parentInodeNum info.leafInodeNum info.leafName

def RmdirPost (sb : Superblock) (V W : View) (G : Owners) (T : Nat → List Slot) (up : Nat → Nat) (user : User) (path : Path)
    (r : Except Errno Unit) : Prop :=
  if path.1.head? ≠ some slash ∨ path.1 = [slash] then r = .error .einval ∧ W = V
  else
    match resolve V up T resolveExisting user path with
    | .error e => r = .error e ∧ W = V
    | .ok info =>
      if isDotOrDotdotName info.leafName then r = .error .einval ∧ W = V
      else
        match mofsCheckDirWrite user (V.inode info.parentInodeNum) with
        | .error e => r = .error e ∧ W = V
        | .ok () =>
          if (V.inode info.leafInodeNum).isDir = false then r = .error .enotdir ∧ W = V
          else if kids T info.leafInodeNum ≠ [] then r = .error .enotempty ∧ W = V
          else r = .ok () ∧ ∃ H, Unlinked sb V W G H T up info.parentInodeNum info.leafInodeNum info.leafName

/-- A call that takes out the entry its path names, which denotes no directory with children. -/
structure Removal (sb : Superblock) (V W : View) (G H : Owners) (T : Nat → List Slot) (up : Nat → Nat) (user : User)
    (path : Path) (info : PathInfo) : Prop where
  resolved : resolve V up T resolveExisting user path = .ok info
  writable : mofsCheckDirWrite user (V.inode info.parentInodeNum) = .ok ()
  leaf : kids T info.leafInodeNum = []
  unlinked : Unlinked sb V W G H T up info.parentInodeNum info.leafInodeNum info.leafName

theorem Removal.parent_isDir (h : Vol sb V G T up) (hR : Removal sb V W G H T up user path info) :
    (V.inode info.parentInodeNum).isDir = true :=
  (Located.of_resolve h.rootDir rfl hR.resolved).1.dir

theorem Removal.vol (h : Vol sb V G T up) (hok : sb.Ok) (hR : Removal sb V W G H T up user path info) :
    ∃ j, (T info.parentInodeNum)[j]? = some (some (info.leafName, info.leafInodeNum)) ∧
      Vol sb W H (Function.update (Function.update T info.parentInodeNum ((T info.parentInodeNum).set j none))
        info.leafInodeNum []) up :=
  hR.unlinked.vol h hok (hR.parent_isDir h) hR.leaf

theorem UnlinkPost.cases {r : Except Errno Unit} (h : Vol sb V G T up) (hP : UnlinkPost sb V W G T up user path r) :
    (W = V ∧ ∃ e, r = .error e) ∨ (r = .ok () ∧ ∃ info H, Removal sb V W G H T up user path info) := by
  unfold UnlinkPost at hP
  split at hP
  · exact .inl ⟨hP.2, _, hP.1⟩
  · next info hr =>
    split at hP
    · exact .inl ⟨hP.2, _, hP.1⟩
    · next hw =>
      split at hP
      · exact .inl ⟨hP.2, _, hP.1⟩
      · next hd =>
        obtain ⟨rfl, H, hU⟩ := hP
        exact .inr ⟨rfl, info, H, hr, hw, kids_nil ((h.node _).flat (by simpa using hd)), hU⟩

theorem RmdirPost.cases {r : Except Errno Unit} (hP : RmdirPost sb V W G T up user path r) :
    (W = V ∧ ∃ e, r = .error e) ∨ (r = .ok () ∧ ∃ info H, Removal sb V W G H T up user path info) := by
  unfold RmdirPost at hP
  split at hP
  · exact .inl ⟨hP.2, _, hP.1⟩
  · split at hP
    · exact .inl ⟨hP.2, _, hP.1⟩
    · next info hr =>
      split at hP
      · exact .inl ⟨hP.2, _, hP.1⟩
      · split at hP
        · exact .inl ⟨hP.2, _, hP.1⟩
        · next hw =>
          split at hP
          · exact .inl ⟨hP.2, _, hP.1⟩
          · split at hP
            · exact .inl ⟨hP.2, _, hP.1⟩
            · next hkids =>
              obtain ⟨rfl, H, hU⟩ := hP
              exact .inr ⟨rfl, info, H, hr, hw, not_not.mp hkids, hU⟩

namespace Mount

/-- Freeing all blocks of an inode needs none. -/
theorem ensures_freeAll (m : Mount) (h : Wf m.sb V G) (hi : V.ibit c = true) (hslim : G.data c = [] → G.nodes c = [])
    {n : Nat} (hn : n = (G.data c).length) :
    m.Ensures (onlyIf (0 < n) (freeDataBlock m.sb c 0 n)) V (fun r W => r = .ok () ∧
      ∃ H, Frame m.sb [c] V W G H ∧ W.ibit = V.ibit ∧ H.nodes c = [] ∧ H.data c = []) := by
  have hmax := h.max c
  simp only [maxFileDataBlocks] at hmax
  subst hn
  rw [onlyIf]
  by_cases h0 : 0 < (G.data c).length
  · rw [if_pos h0]
    refine (m.ensures_freeDataBlock h (h.range c hi) hi (by omega) h0 (by omega)).mono fun r W hr => ?_
    have hkept : keptBlocks (G.data c) 0 (G.data c).length = [] := keptBlocks_zero (Nat.le_refl _)
    rcases hr with ⟨rfl, H, hR, hH, hnil⟩ | ⟨-, hne, -⟩
    · exact ⟨rfl, H, hR.frame h fun b hb => mem_blocks_iff.mpr (.inl hb), hR.ibit, hnil hkept, hH.trans hkept⟩
    · exact absurd hkept hne
  · rw [if_neg h0]
    have hd : G.data c = [] := List.length_eq_zero_iff.mp (by omega)
    exact Ensures.pure ⟨rfl, G, Frame.refl h _, rfl, hslim hd, hd⟩

theorem ensures_discard (m : Mount) (h : Wf m.sb V G) (hi : V.ibit c = true) (h3 : 3 ≤ c)
    (hslim : G.data c = [] → G.nodes c = []) {n : Nat} (hn : n = (G.data c).length) :
    m.Ensures (do
      onlyIf (0 < n) (freeDataBlock m.sb c 0 n)
      freeInode m.sb c) V (fun r W => r = .ok () ∧ ∃ H, Discarded m.sb V W G H c) := by
  refine Ensures.bind_ok (m.ensures_freeAll h hi hslim hn) fun V₁ hV₁ => ?_
  obtain ⟨H, hfr, hib, hown⟩ := hV₁
  refine (m.ensures_freeInode V₁ h3 (h.range c hi)).mono fun r W hr => ⟨hr.1, H, ?_⟩
  obtain ⟨-, rfl⟩ := hr
  exact ⟨hfr.trans (Frame.leave hfr.wf hown), by simp [hib], by simp⟩

/-- The entry of a child goes, with the child. -/
theorem ensures_dropEntry (m : Mount) (h : Vol m.sb V G T up) (hp : (V.inode p).isDir = true) (hname : ValidName name)
    (hl : lookup (dirSlots up T p) name = some c) (hlead : some (name, c) ∉ lead up p) :
    m.Ensures (dropEntry m.sb name p c (V.inode c)) V (fun r W => r = .ok () ∧ ∃ H,
      Frame m.sb [p, c] V W G H ∧ W.ibit = Function.update V.ibit c false ∧ W.inode c = Inode.zero ∧
      SameAttrs (V.inode p) (W.inode p) ∧ ∃ j, (T p)[j]? = some (some (name, c)) ∧
        DirAt m.sb W p (H.nodes p) (H.data p) (lead up p ++ (T p).set j none)) := by
  have hmem := (List.mem_append.mp (mem_of_lookup hl)).resolve_left hlead
  obtain ⟨hcu, hcr, hup⟩ := h.kid hp hmem
  have hpc : p ≠ c := by
    rw [← hup]
    exact h.tree.up_ne hcu hcr
  have hpu := h.used_of_isDir hp
  have hrem := m.ensures_removeDirEntry h.wf (h.dirAt hp) hname.ne hname.nul
  simp only [hl] at hrem
  rw [dropEntry]
  refine Ensures.bind_ok hrem fun V₁ hV₁ => ?_
  obtain ⟨k, hk, hset⟩ := hV₁
  obtain ⟨j, rfl, hj⟩ := dirSlots_get hk hlead
  rw [dirSlots_set] at hset
  have hc₁ := hset.frame.same c (by simpa using hpc.symm)
  refine (m.ensures_discard hset.frame.wf (hc₁.ibit.trans hcu) (h.three_le hcu hcr) (h.node c).slim
    (h.wf.nr c hcu)).mono fun r W hr => ⟨hr.1, ?_⟩
  obtain ⟨-, H, hD⟩ := hr
  have hp₂ := hD.frame.same p (by simpa using hpc)
  refine ⟨H, (hset.frame.mono (by simp)).trans (hD.frame.mono (by simp)), by rw [hD.ibit, hset.ibit], hD.inode, ?_, j, hj, ?_⟩
  · rw [hp₂.inode]
    exact hset.attrs
  · exact hset.dir.of_same m.ok hD.frame.wf hp₂ (by rw [hset.ibit]; exact hpu)

theorem ensures_mofsUnlinkCore (m : Mount) (h : Vol m.sb V G T up) (user : User) (path : Path) :
    m.Ensures (mofsUnlinkCore m.sb user path) V (fun r W => UnlinkPost m.sb V W G T up user path r) := by
  have hres := m.reads_mofsResolvePath h resolveExisting rfl rfl user path
  rw [mofsUnlinkCore]
  unfold UnlinkPost
  cases hr : resolve V up T resolveExisting user path with
  | error e =>
    rw [hr] at hres
    exact (Reads.bind_error hres).ensures ⟨rfl, rfl⟩
  | ok info =>
    rw [hr] at hres
    obtain ⟨hloc, hvalid, hfound⟩ := Located.of_resolve h.rootDir rfl hr
    have hl := hloc.found
    rw [if_pos (hfound rfl)] at hl
    have hp := h.used_of_isDir hloc.dir
    have hc := h.used_of_mem hloc.dir (mem_of_lookup hl)
    refine Ensures.bind_reads hres ?_
    dsimp only
    refine Ensures.bind_reads (m.reads_validUser hvalid) ?_
    have hwrite := m.reads_requireDirWrite (V := V) user (h.wf.range _ hp)
    cases hw : mofsCheckDirWrite user (V.inode info.parentInodeNum) with
    | error e =>
      rw [hw] at hwrite
      exact (Reads.bind_error hwrite).ensures ⟨rfl, rfl⟩
    | ok u =>
      rw [hw] at hwrite
      refine Ensures.bind_reads hwrite ?_
      refine Ensures.bind_reads (m.reads_mofsReadInode V (h.wf.range _ hc)) ?_
      cases hd : (V.inode info.leafInodeNum).isDir with
      | true => exact Ensures.throw ⟨rfl, rfl⟩
      | false =>
        simp only [Bool.false_eq_true, if_false]
        -- a dot entry would name a directory
        have hlead : some (info.leafName, info.leafInodeNum) ∉ lead up info.parentInodeNum := fun hm => by
          obtain ⟨hr, he | he⟩ := mem_lead.mp hm
          · simp only [Option.some.injEq, Prod.mk.injEq] at he
            rw [he.2, hloc.dir] at hd
            cases hd
          · simp only [Option.some.injEq, Prod.mk.injEq] at he
            rw [he.2, h.up_isDir hp hr] at hd
            cases hd
        refine (m.ensures_dropEntry h hloc.dir hloc.name hl hlead).mono fun r W hr => ⟨hr.1, ?_⟩
        obtain ⟨-, H, hF, hib, hz, hattrs, hdir⟩ := hr
        exact ⟨H, hF, hib, hz, hattrs.samePerm, by rw [hd, hattrs.links]; rfl, hdir⟩

theorem ensures_mofsRmdirCore (m : Mount) (h : Vol m.sb V G T up) (user : User) (path : Path) :
    m.Ensures (mofsRmdirCore m.sb user path) V (fun r W => RmdirPost m.sb V W G T up user path r) := by
  have hres := m.reads_mofsResolvePath h resolveExisting rfl rfl user path
  rw [mofsRmdirCore]
  unfold RmdirPost
  by_cases hpath : path.1.head? ≠ some slash ∨ path.1 = [slash]
  · simp only [if_pos hpath]
    by_cases hhead : path.1.head? ≠ some slash
    · rw [if_pos hhead]
      exact Ensures.throw ⟨rfl, rfl⟩
    · rw [if_neg hhead, if_pos (.inl (hpath.resolve_left hhead))]
      exact Ensures.throw ⟨rfl, rfl⟩
  have hdots : ¬ (path.1 = [slash] ∨ isDotOrDotdotName path.1 = true) := by
    rintro (he | he)
    · exact hpath (.inr he)
    · refine hpath (.inl ?_)
      have : path.1 = dot ∨ path.1 = dotdot := by simpa [isDotOrDotdotName] using he
      rcases this with he | he <;> rw [he] <;> decide
  simp only [if_neg hpath]
  rw [if_neg (fun he => hpath (.inl he)), if_neg hdots]
  cases hr : resolve V up T resolveExisting user path with
  | error e =>
    rw [hr] at hres
    exact (Reads.bind_error hres).ensures ⟨rfl, rfl⟩
  | ok info =>
    rw [hr] at hres
    obtain ⟨hloc, hvalid, hfound⟩ := Located.of_resolve h.rootDir rfl hr
    have hl := hloc.found
    rw [if_pos (hfound rfl)] at hl
    have hp := h.used_of_isDir hloc.dir
    have hplt := h.wf.range _ hp
    have hc := h.used_of_mem hloc.dir (mem_of_lookup hl)
    refine Ensures.bind_reads hres ?_
    dsimp only
    cases hdot : isDotOrDotdotName info.leafName with
    | true => exact Ensures.throw ⟨rfl, rfl⟩
    | false =>
    simp only [Bool.false_eq_true, if_false]
    have hlead : some _ ∉ lead up info.parentInodeNum :=
      not_mem_lead_of_name hdot info.leafInodeNum info.parentInodeNum
    have hmem := (List.mem_append.mp (mem_of_lookup hl)).resolve_left hlead
    obtain ⟨-, hcr, hup⟩ := h.kid hloc.dir hmem
    have hpc : info.parentInodeNum ≠ info.leafInodeNum := by
      rw [← hup]
      exact h.tree.up_ne hc hcr
    refine Ensures.bind_reads (m.reads_validUser hvalid) ?_
    have hwrite := m.reads_requireDirWrite (V := V) user hplt
    cases hw : mofsCheckDirWrite user (V.inode info.parentInodeNum) with
    | error e =>
      rw [hw] at hwrite
      exact (Reads.bind_error hwrite).ensures ⟨rfl, rfl⟩
    | ok u =>
    rw [hw] at hwrite
    refine Ensures.bind_reads hwrite ?_
    refine Ensures.bind_reads (m.reads_mofsReadInode V (h.wf.range _ hc)) ?_
    cases hd : (V.inode info.leafInodeNum).isDir with
    | false => exact Ensures.throw ⟨rfl, rfl⟩
    | true =>
    simp only [Bool.true_eq_false, if_false]
    have hempty := m.reads_isDirectoryEmpty (h.dirAt hd)
    have hiff := h.all_notDot hd hcr
    refine Ensures.bind_reads hempty ?_
    by_cases hk : kids T info.leafInodeNum = []
    swap
    · rw [if_pos (by rw [← Bool.not_eq_true, hiff]; exact hk)]
      simp only [if_pos hk]
      exact Ensures.throw ⟨rfl, rfl⟩
    rw [if_neg (by rw [hiff.mpr hk]; decide)]
    simp only [if_neg (not_not.mpr hk)]
    refine Ensures.bind_ok (m.ensures_dropEntry h hloc.dir hloc.name hl hlead) fun W hW => ?_
    obtain ⟨H, hF, hib, hz, hattrs, j, hj, hdir⟩ := hW
    refine Ensures.bind_reads (m.reads_mofsReadInode W hplt) ?_
    have hln := ((h.node _).dir hloc.dir).links
    rw [← hattrs.links] at hln
    have hpos : (W.inode info.parentInodeNum).iLinks ≠ 0 := fun h0 => by
      rw [h0] at hln
      exact absurd hln (by simp; omega)
    rw [if_neg hpos]
    refine m.ensures_stampWrite hplt (by decide) fun t => ⟨rfl, H, ?_⟩
    have hF' := Frame.setInode hF.wf (i := info.parentInodeNum) (x := Inode.stamp { W.inode info.parentInodeNum with
      iLinks := .ofNat ((W.inode info.parentInodeNum).iLinks.toNat - 1) } timeCtime t) rfl rfl
    have hlt := (W.inode info.parentInodeNum).iLinks.toNat_lt
    refine ⟨hF.trans (hF'.mono (by simp)), hib, ?_, ?_, ?_, j, hj, ?_⟩
    · simp only [View.setInode, Function.update_of_ne hpc.symm]
      exact hz
    · simp only [View.setInode, Function.update_self]
      exact ⟨hattrs.mode, hattrs.uid, hattrs.gid⟩
    · simp only [View.setInode, Function.update_self, Inode.stamp, hd, if_true]
      rw [← hattrs.links]
      have : (UInt16.ofNat ((W.inode info.parentInodeNum).iLinks.toNat - 1)).toNat =
        (W.inode info.parentInodeNum).iLinks.toNat - 1 := Nat.mod_eq_of_lt (by omega)
      rw [this]
      omega
    · exact hdir.setInode rfl rfl rfl rfl

end Mount

end Mofs
