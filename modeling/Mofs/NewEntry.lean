import Mofs.Mkdir

namespace Mofs

open Effect Bytes Slots Mofs.Tree

variable {sb : Superblock} {U V W : View} {F G H : Owners} {T : Nat → List Slot} {up : Nat → Nat} {i p q c k j : Nat}
  {user : User} {mode : Nat} {path : Path} {info : PathInfo} {name : Name} {l slots t : List Slot} {r : Except Errno Unit}

theorem vacant_lt (h : vacant slots = some k) (hj : j < k) : slots[j]? ≠ some none := by
  obtain ⟨-, hk, -, hmin⟩ := firstIn_spec h
  have := hmin j (Nat.zero_le j) hj
  have hlt : j < slots.length := by omega
  rw [List.getD_eq_getElem _ _ hlt] at this
  rw [List.getElem?_eq_getElem hlt]
  intro he
  rw [Option.some.inj he] at this
  cases this

/-- The first vacant slot of a list is the first place that holds none. -/
theorem vacant_eq (h : slots[k]? = some none) (hmin : ∀ j < k, slots[j]? ≠ some none) : vacant slots = some k := by
  cases hv : vacant slots with
  | none => exact absurd (List.mem_of_getElem? h) (vacant_eq_none.mp hv)
  | some i =>
    rcases lt_trichotomy i k with hlt | rfl | hlt
    · exact absurd (vacant_spec hv).2 (hmin i hlt)
    · rfl
    · exact absurd h (vacant_lt hv hlt)

theorem vacant_append (hl : none ∉ l) (h : vacant t = some k) : vacant (l ++ t) = some (l.length + k) := by
  refine vacant_eq ?_ fun j hj => ?_
  · rw [List.getElem?_append_right (Nat.le_add_right _ _), Nat.add_sub_cancel_left]
    exact (vacant_spec h).2
  · rw [List.getElem?_append]
    split
    · exact fun he => hl (List.mem_of_getElem? he)
    · exact vacant_lt h (by omega)

theorem mem_ordinary (h : none ∈ dirSlots up T p) : none ∈ T p :=
  (List.mem_append.mp h).resolve_left none_not_mem_lead

/-- A new entry goes to the first vacant slot. -/
theorem AddPost.put (h : AddPost sb V W G p (dirSlots up T p) name c r) (hvac : none ∈ T p)
    (hl : lookup (dirSlots up T p) name = none) (hmax : (dirSlots up T p).length < sb.maxSlots) :
    r = .ok () ∧ ∃ j, vacant (T p) = some j ∧ DirSet sb V W G p (lead up p ++ (T p).set j (some (name, c))) := by
  cases hv : vacant (T p) with
  | none => exact absurd hvac (vacant_eq_none.mp hv)
  | some j =>
    unfold AddPost at h
    rw [if_neg (Nat.not_le.mpr hmax), hl, if_neg (by simp), dirSlots, vacant_append none_not_mem_lead hv] at h
    refine ⟨h.1, j, rfl, ?_⟩
    have hset := h.2
    rwa [← dirSlots, dirSlots_set] at hset

theorem maxSlots_gt (hok : sb.Ok) : entriesPerBlk sb < sb.maxSlots := by
  have := hok.entries_ge
  simp only [Superblock.maxSlots, maxFileDataBlocks]
  omega

/-- The volume after a file was created in a vacant slot of directory `p`. -/
structure Created (sb : Superblock) (V W : View) (G : Owners) (T : Nat → List Slot) (up : Nat → Nat) (p c j : Nat) (name : Name)
    (user : User) (mode : Nat) : Prop where
  vacancy : vacant (T p) = some j
  vol : Vol sb W G (Function.update (Function.update T p ((T p).set j (some (name, c)))) c []) (Function.update up c p)
  frame : Frame sb [p, c] V W G G
  ibit : W.ibit = Function.update V.ibit c true
  dbit : W.dbit = V.dbit
  perm : ∀ x, x ≠ c → SamePerm (V.inode x) (W.inode x)
  inode : ∃ t, W.inode c = newInode 1 ftypeReg user mode t

theorem Created.of_addPost (h : Vol sb V G T up) (hok : sb.Ok) (hp : (V.inode p).isDir = true) (hlt : c < sb.inodeNum)
    (h3 : 3 ≤ c) (hc : V.ibit c = false) (hvac : none ∈ T p) (hl : lookup (dirSlots up T p) name = none)
    (hmax : (dirSlots up T p).length < sb.maxSlots) {t : UInt64}
    (hadd : AddPost sb (V.enter c (newInode 1 ftypeReg user mode t)) W G p (dirSlots up T p) name c r) :
    r = .ok () ∧ ∃ j, Created sb V W G T up p c j name user mode := by
  obtain ⟨rfl, j, hj, hset⟩ := hadd.put hvac hl hmax
  have hpc : p ≠ c := by
    rintro rfl
    rw [h.used_of_isDir hp] at hc
    cases hc
  have hF := Frame.enter h.wf hlt hc (x := newInode 1 ftypeReg user mode t) rfl rfl
  have hFrame : Frame sb [p, c] V W G G := (hF.mono (by simp)).trans (hset.frame.mono (by simp))
  have hib : W.ibit = Function.update V.ibit c true := hset.ibit
  have hci : W.inode c = newInode 1 ftypeReg user mode t := by
    rw [(hset.frame.same c (by simpa using hpc.symm)).inode, View.enter_inode, Function.update_self]
  have hcd : (W.inode c).isDir = false := by
    rw [hci]
    exact newInode_isDir 1 (by decide) user mode t
  have hpi : (V.enter c (newInode 1 ftypeReg user mode t)).inode p = V.inode p := by
    rw [View.enter_inode, Function.update_of_ne hpc]
  obtain ⟨hnodes, hdata⟩ := h.wf.free c hc
  refine ⟨rfl, j, hj, ?_, hFrame, hib, hset.dbit, fun x hx => ?_, t, hci⟩
  · refine h.link hok hFrame hp hc hib (vacant_spec hj).2 hl rfl hset.dir ?_
      (.of_file (by rw [hib, Function.update_self]) ?_ hcd ?_ (fun _ => hnodes) (Function.update_self _ _ _))
    · rw [hcd, hset.attrs.links, hpi]
      rfl
    · simp only [rootInodeNum]
      omega
    · have hB := hok.blk_pos
      rw [hci]
      exact (Nat.div_eq_of_lt (show 0 + sb.blkSize - 1 < sb.blkSize by omega)).symm
  · have := hset.samePerm x
    rwa [View.enter_inode, Function.update_of_ne hx] at this

/-- A directory whose size has not changed had a vacant slot for its new entry. -/
theorem AddPost.vacancy (h : AddPost sb V W G p (dirSlots up T p) name c (.ok ()))
    (hdir : DirAt sb V p (G.nodes p) (G.data p) (dirSlots up T p)) (hsize : (W.inode p).iSize = (V.inode p).iSize) :
    none ∈ T p ∧ (dirSlots up T p).length < sb.maxSlots := by
  unfold AddPost at h
  split at h
  · cases h.1
  next hmax =>
  split at h
  · cases h.1
  split at h
  · next k hk => exact ⟨mem_ordinary (List.mem_of_getElem? (vacant_spec hk).2), Nat.not_le.mp hmax⟩
  · split at h
    · have := h.2.dir.size
      rw [hsize, hdir.size, List.length_append, direntBytes] at this
      simp only [List.length_cons] at this
      omega
    · split at h
      · have := h.2.size
        rw [hsize, direntBytes] at this
        omega
      · cases h.1

/-- Creations that change no size. -/
theorem CreatePost.created {r : Except Errno Nat} (h : Vol sb V G T up) (hok : sb.Ok)
    (hP : CreatePost sb V W G T up user path mode r) (hsize : ∀ i, (W.inode i).iSize = (V.inode i).iSize) :
    (W = V ∧ ∃ e, r = .error e) ∨ ∃ info c j, r = .ok c ∧ Entering sb V T up user path info c ∧
      Created sb V W G T up info.parentInodeNum c j info.leafName user mode := by
  obtain hsame | ⟨info, c, t, rfl, hE, hadd⟩ := hP.cases
  · exact .inl hsame
  · obtain ⟨hp, hl, -⟩ := hE.located h
    obtain ⟨hlt, h3, hc⟩ := hE.free
    have hpc := hE.ne h hp
    have hF := Frame.enter h.wf hlt hc (x := newInode 1 ftypeReg user mode t) rfl rfl
    have hdir := (h.dirAt hp).of_frame hok hF (h.used_of_isDir hp) (by simpa using hpc)
    obtain ⟨hvac, hmax⟩ := hadd.vacancy hdir (by rw [hsize, View.enter_inode, Function.update_of_ne hpc])
    obtain ⟨-, j, hC⟩ := Created.of_addPost h hok hp hlt h3 hc hvac hl hmax hadd
    exact .inr ⟨info, c, j, rfl, hE, hC⟩

/-- The volume after a directory was made in a vacant slot of directory `p`. -/
structure MadeDir (sb : Superblock) (V W : View) (G H : Owners) (T : Nat → List Slot) (up : Nat → Nat) (p c j : Nat)
    (name : Name) (user : User) (mode : Nat) : Prop where
  vacancy : vacant (T p) = some j
  vol : Vol sb W H (Function.update (Function.update T p ((T p).set j (some (name, c)))) c
    (List.replicate (entriesPerBlk sb - 2) none)) (Function.update up c p)
  frame : Frame sb [p, c] V W G H
  ibit : W.ibit = Function.update V.ibit c true
  perm : ∀ x, x ≠ c → SamePerm (V.inode x) (W.inode x)
  child : SamePerm (newInode 2 ftypeDir user mode 0) (W.inode c)

theorem entries_replicate_none (n : Nat) : entries (List.replicate n (none : Slot)) = [] := by
  rw [List.eq_nil_iff_forall_not_mem]
  rintro ⟨name, c⟩ hm
  rw [mem_entries] at hm
  exact absurd (List.eq_of_mem_replicate hm) (by simp)

theorem distinct_newSlots (p c : Nat) : Distinct (newSlots sb p c) := by
  rw [newSlots, Distinct, entries_append, entries_replicate_none, List.append_nil]
  exact (by decide : [dot, dotdot].Nodup)

/-- The parent of a new directory, once its link count is raised. -/
theorem MadeDir.of_addPost {V₁ W₁ : View} {t : UInt64} (h : Vol sb V G T up) (hok : sb.Ok) (hp : (V.inode p).isDir = true)
    (h3 : 3 ≤ c) (hc : V.ibit c = false) (hvac : none ∈ T p) (hl : lookup (dirSlots up T p) name = none)
    (hmax : (dirSlots up T p).length < sb.maxSlots) (hfew : (V.inode p).iLinks.toNat < 65535)
    (hnew : NewDir sb V V₁ G H p c user mode)
    (hadd : AddPost sb V₁ W₁ H p (dirSlots up T p) name c r)
    (hW : W = W₁.setInode p (Inode.stamp
      { W₁.inode p with iLinks := .ofNat ((W₁.inode p).iLinks.toNat + 1) } timeCtime t)) :
    r = .ok () ∧ ∃ j, MadeDir sb V W G H T up p c j name user mode := by
  obtain ⟨rfl, j, hj, hset⟩ := hadd.put hvac hl hmax
  subst hW
  have hpc : p ≠ c := by
    rintro rfl
    rw [h.used_of_isDir hp] at hc
    cases hc
  set x := Inode.stamp { W₁.inode p with iLinks := .ofNat ((W₁.inode p).iLinks.toNat + 1) } timeCtime t with hx
  have hF := Frame.setInode hset.frame.wf (i := p) (x := x) rfl rfl
  have hFrame : Frame sb [p, c] V (W₁.setInode p x) G H :=
    ((hnew.frame.mono (by simp)).trans (hset.frame.mono (by simp))).trans (hF.mono (by simp))
  have hcF : Frame sb [p] V₁ (W₁.setInode p x) H H := hset.frame.trans hF
  have hc₁ := hcF.same c (by simpa using hpc.symm)
  have hib : (W₁.setInode p x).ibit = Function.update V.ibit c true := hset.ibit.trans hnew.ibit
  have hin₁ : V₁.inode p = V.inode p := (hnew.frame.same p (by simpa using hpc)).inode
  have hpx : (W₁.setInode p x).inode p = x := Function.update_self _ _ _
  have hlinks : x.iLinks.toNat = (V.inode p).iLinks.toNat + 1 := by
    change (UInt16.ofNat ((W₁.inode p).iLinks.toNat + 1)).toNat = _
    rw [hset.attrs.links, hin₁]
    exact Nat.mod_eq_of_lt (by omega)
  have hcd : ((W₁.setInode p x).inode c).isDir = true := by
    rw [hc₁.inode]
    exact hnew.dir.isDir
  have hcu : V₁.ibit c = true := by rw [hnew.ibit, Function.update_self]
  have hdirc := hnew.dir.of_frame hok hcF hcu (by simpa using hpc.symm)
  have hpd : DirAt sb (W₁.setInode p x) p (H.nodes p) (H.data p) (lead up p ++ (T p).set j (some (name, c))) :=
    ⟨hF.wf.fileAt (by rw [hib, Function.update_of_ne hpc]; exact h.used_of_isDir hp), by rw [hpx]; exact hset.dir.isDir,
      by rw [hpx]; exact hset.dir.size, hset.dir.blocks, hset.dir.slot⟩
  refine ⟨rfl, j, hj, ?_, hFrame, hib, fun y hy => ?_, ?_⟩
  · refine h.link hok hFrame hp hc hib (vacant_spec hj).2 hl (entries_replicate_none _) hpd ?_ ?_
    · rw [hpx, hlinks, hcd, if_pos rfl]
    · have hcr : c ≠ rootInodeNum := by simp only [rootInodeNum]; omega
      have hslots : dirSlots (Function.update up c p) (Function.update (Function.update T p ((T p).set j (some (name, c)))) c
          (List.replicate (entriesPerBlk sb - 2) none)) c = newSlots sb p c := by
        rw [dirSlots, lead_of_ne hcr, Function.update_self, Function.update_self]
        rfl
      refine NodeOk.of_dir hok (by rw [hib, Function.update_self]) (by simp only [rootInodeNum]; omega) hcd
        ⟨by rw [hslots]; exact hdirc, by rw [hslots, length_newSlots hok], ?_, ?_⟩
      · rw [hslots]
        exact distinct_newSlots p c
      · rw [kids_update_self, entries_replicate_none, hc₁.inode, hnew.links]
        rfl
  · have h₁ : SamePerm (V.inode y) (V₁.inode y) := by
      rw [(hnew.frame.same y (by simpa using hy)).inode]
      exact SamePerm.refl _
    refine (h₁.trans (hset.samePerm y)).trans ?_
    by_cases hyp : y = p
    · rw [hyp, hpx]
      exact ⟨rfl, rfl, rfl⟩
    · rw [(hF.same y (by simpa using hyp)).inode]
      exact SamePerm.refl _
  · rw [hc₁.inode]
    exact hnew.perm

/-- A well-formed volume whose directories have one block each. -/
structure Ungrown (sb : Superblock) (V : View) (G : Owners) (T : Nat → List Slot) (up : Nat → Nat) : Prop where
  vol : Vol sb V G T up
  one : ∀ i, (V.inode i).isDir = true → (dirSlots up T i).length = entriesPerBlk sb

namespace Ungrown

/-- A directory of one block is far from the largest link count. -/
theorem few_links (h : Ungrown sb V G T up) (hok : sb.Ok) (hp : (V.inode p).isDir = true) :
    (V.inode p).iLinks.toNat < 65535 := by
  have hlen := h.one p hp
  have hcount : ((kids T p).countP fun c => (V.inode c).isDir) ≤ (kids T p).length := List.countP_le_length
  have hkids : (kids T p).length ≤ (T p).length := by
    rw [kids, List.length_map]
    exact List.length_filterMap_le _ _
  have hE := hok.entries_le
  rw [dirSlots, List.length_append] at hlen
  rw [((h.vol.node p).dir hp).links]
  omega

theorem of_frame (h : Ungrown sb V G T up) (hok : sb.Ok) (hF : Frame sb [] V W G G) : Ungrown sb W G T up := by
  have hinode (i : Nat) : W.inode i = V.inode i := (hF.same i (by simp)).inode
  have hib : W.ibit = V.ibit := funext fun i => (hF.same i (by simp)).ibit
  refine ⟨h.vol.rebuild hok hF (by rw [hinode]; exact h.vol.rootDir) (hib ▸ h.vol.tree) (fun _ _ => rfl)
    (fun _ _ _ _ => rfl) (fun _ _ c _ => by rw [hinode]) fun i hi => ?_, fun i hi => h.one i (hinode i ▸ hi)⟩
  cases hi

/-- A new inode in a vacant slot leaves every directory with one block. -/
theorem entered {tc : List Slot} (h : Ungrown sb V G T up)
    (hvol : Vol sb W H (Function.update (Function.update T p ((T p).set j (some (name, c)))) c tc) (Function.update up c p))
    (hr : c ≠ rootInodeNum) (hperm : ∀ x, x ≠ c → SamePerm (V.inode x) (W.inode x))
    (hc : (W.inode c).isDir = true → tc.length + 2 = entriesPerBlk sb) :
    Ungrown sb W H (Function.update (Function.update T p ((T p).set j (some (name, c)))) c tc) (Function.update up c p) := by
  refine ⟨hvol, fun i hi => ?_⟩
  by_cases hic : i = c
  · subst hic
    have := hc hi
    simp only [dirSlots, lead_of_ne hr, Function.update_self, List.length_append, List.length_cons, List.length_nil]
    omega
  · have hlen := h.one i ((hperm i hic).isDir ▸ hi)
    have hlead : lead (Function.update up c p) i = lead up i := by rw [lead, Function.update_of_ne hic, lead]
    rw [dirSlots, hlead, Function.update_of_ne hic]
    by_cases hip : i = p
    · subst hip
      rw [Function.update_self, List.length_append, List.length_set, ← List.length_append]
      exact hlen
    · rw [Function.update_of_ne hip]
      exact hlen

end Ungrown

/-- Calls of `mkdir` that leave the size of every directory as it is. -/
theorem MkdirPost.made {r : Except Errno Unit} (h : Ungrown sb V G T up) (hok : sb.Ok)
    (hP : MkdirPost sb V W G T up user path mode r)
    (hsize : ∀ i, (V.inode i).isDir = true → (W.inode i).iSize = (V.inode i).iSize) :
    (Frame sb [] V W G G ∧ ∃ e, r = .error e) ∨ ∃ info c H j, r = .ok () ∧ Entering sb V T up user path info c ∧
      MadeDir sb V W G H T up info.parentInodeNum c j info.leafName user mode := by
  obtain hfail | ⟨info, c, H, V', W', t, rfl, hE, -, hnew, hadd, hW⟩ := hP.cases h.vol.wf
  · exact .inl hfail
  · obtain ⟨hp, hl, -⟩ := hE.located h.vol
    obtain ⟨-, h3, hc⟩ := hE.free
    have hpc := hE.ne h.vol hp
    have hpi : V'.inode info.parentInodeNum = V.inode info.parentInodeNum := (hnew.frame.same _ (by simpa using hpc)).inode
    have hdir := (h.vol.dirAt hp).of_frame hok hnew.frame (h.vol.used_of_isDir hp) (by simpa using hpc)
    have hsame : (W'.inode info.parentInodeNum).iSize = (V'.inode info.parentInodeNum).iSize := by
      have hstamped : (W.inode info.parentInodeNum).iSize = (W'.inode info.parentInodeNum).iSize := by
        subst hW
        have hin := Function.update_self info.parentInodeNum (Inode.stamp { W'.inode info.parentInodeNum with
          iLinks := .ofNat ((W'.inode info.parentInodeNum).iLinks.toNat + 1) } timeCtime t) W'.inode
        exact (congrArg Inode.iSize hin).trans rfl
      rw [hpi, ← hsize _ hp, hstamped]
    obtain ⟨hvac, hmax⟩ := hadd.vacancy hdir hsame
    obtain ⟨-, j, hD⟩ := MadeDir.of_addPost h.vol hok hp h3 hc hvac hl hmax (h.few_links hok hp) hnew hadd hW
    exact .inr ⟨info, c, H, j, rfl, hE, hD⟩

/-- The names of all directories after a new entry. -/
theorem lookup_entered {D : Nat} {tc : List Slot} (hj : vacant (T p) = some j) (hl : lookup (dirSlots up T p) name = none)
    (hpc : p ≠ c) (hD : D ≠ c) (x : Name) :
    lookup (dirSlots (Function.update up c p) (Function.update (Function.update T p ((T p).set j (some (name, c)))) c tc) D) x =
      if D = p ∧ x = name then some c else lookup (dirSlots up T D) x := by
  have hlead : lead (Function.update up c p) D = lead up D := by
    rw [lead, Function.update_of_ne hD, lead]
  rw [dirSlots, hlead, Function.update_of_ne hD]
  by_cases hDp : D = p
  · subst hDp
    rw [Function.update_self, ((Added.put (vacant_spec hj).2).prepend (lead up D)).lookup hl]
    simp [dirSlots]
  · rw [Function.update_of_ne hDp, if_neg fun hc => hDp hc.1, dirSlots]

theorem head_freeInodes (h3 : 3 ≤ c) (hlt : c < sb.inodeNum) (hc : V.ibit c = false)
    (hall : ∀ i, 3 ≤ i → i < c → V.ibit i = true) : (sb.freeInodes V).head? = some c := by
  rw [Superblock.freeInodes, List.head?_filter, List.find?_range_eq_some]
  refine ⟨by simp [h3, hc], by simpa using hlt, fun i hi => ?_⟩
  by_cases hi3 : 3 ≤ i
  · simp [hall i hi3 hi]
  · simp [hi3]

/-- Directories are short as long as they have not grown. -/
theorem short_of_eq (hok : sb.Ok) (h : (dirSlots up T p).length = entriesPerBlk sb) :
    (dirSlots up T p).length < sb.maxSlots := by
  rw [h]
  exact maxSlots_gt hok

/-- The call may enter a name of its own choice in directory `info.parentInodeNum`, which has a vacant slot for it. -/
structure MayEnter (sb : Superblock) (V : View) (T : Nat → List Slot) (up : Nat → Nat) (user : User) (path : Path)
    (info : PathInfo) (c : Nat) : Prop extends Entering sb V T up user path info c where
  vacant : none ∈ T info.parentInodeNum
  short : (dirSlots up T info.parentInodeNum).length < sb.maxSlots

theorem CreatePost.succeeds {r : Except Errno Nat} (h : Vol sb V G T up) (hok : sb.Ok)
    (hM : MayEnter sb V T up user path info c) (hP : CreatePost sb V W G T up user path mode r) :
    r = .ok c ∧ ∃ j, Created sb V W G T up info.parentInodeNum c j info.leafName user mode := by
  obtain ⟨hp, hl, -⟩ := hM.located h
  obtain ⟨hlt, h3, hc⟩ := hM.free
  obtain ⟨cs, hfree⟩ := List.head?_eq_some_iff.mp hM.next
  unfold CreatePost at hP
  simp only [hM.resolved, hM.missing, hM.writable, hfree, Bool.false_eq_true, if_false] at hP
  obtain ⟨t, r', W', hadd, hr⟩ := hP
  obtain ⟨rfl, hC⟩ := Created.of_addPost h hok hp hlt h3 hc hM.vacant hl hM.short hadd
  rcases hr with ⟨-, rfl, rfl⟩ | ⟨e, he, -⟩
  · exact ⟨rfl, hC⟩
  · cases he

theorem MkdirPost.succeeds (h : Vol sb V G T up) (hok : sb.Ok) (hM : MayEnter sb V T up user path info c)
    (hroom : sb.canGrow V 0 1) (hfew : (V.inode info.parentInodeNum).iLinks.toNat < 65535)
    (hP : MkdirPost sb V W G T up user path mode r) :
    r = .ok () ∧ ∃ H j, MadeDir sb V W G H T up info.parentInodeNum c j info.leafName user mode := by
  obtain ⟨hp, hl, -⟩ := hM.located h
  obtain ⟨hlt, h3, hc⟩ := hM.free
  obtain ⟨cs, hfree⟩ := List.head?_eq_some_iff.mp hM.next
  unfold MkdirPost at hP
  simp only [hM.resolved, hM.missing, hM.writable, hfree, Bool.false_eq_true, if_false, if_pos hroom] at hP
  obtain ⟨H, r', V₁, W₁, hnew, hadd, hr⟩ := hP
  rcases hr with ⟨-, rfl, t, hW⟩ | ⟨e, he, -⟩
  · exact ⟨rfl, H, (MadeDir.of_addPost h hok hp h3 hc hM.vacant hl hM.short hfew hnew hadd hW).2⟩
  · rw [(hadd.put hM.vacant hl hM.short).1] at he
    cases he

end Mofs
