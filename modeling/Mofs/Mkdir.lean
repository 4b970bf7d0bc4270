import Mofs.Remove

namespace Mofs

open Effect Bytes Slots Mofs.Tree

variable {sb : Superblock} {U V W : View} {F G H : Owners} {T : Nat → List Slot} {up : Nat → Nat} {p c : Nat}
  {user : User} {mode : Nat} {path : Path} {info : PathInfo} {name : Name}

/-- The slots of a new directory `c` below `p`. -/
def newSlots (sb : Superblock) (p c : Nat) : List Slot :=
  [some (dot, c), some (dotdot, p)] ++ List.replicate (entriesPerBlk sb - 2) none

/-- Inode `c` has become a new directory below `p`, without an entry for it there. -/
structure NewDir (sb : Superblock) (V W : View) (G H : Owners) (p c : Nat) (user : User) (mode : Nat) : Prop where
  frame : Frame sb [c] V W G H
  ibit : W.ibit = Function.update V.ibit c true
  dir : DirAt sb W c (H.nodes c) (H.data c) (newSlots sb p c)
  links : (W.inode c).iLinks = 2
  perm : SamePerm (newInode 2 ftypeDir user mode 0) (W.inode c)

theorem length_newSlots (hok : sb.Ok) (p c : Nat) : (newSlots sb p c).length = entriesPerBlk sb := by
  have := hok.entries_ge
  simp [newSlots]
  omega

theorem blocksFor_blkSize (hok : sb.Ok) : sb.blocksFor sb.blkSize = 1 := by
  have := hok.blk_pos
  rw [Superblock.blocksFor, show sb.blkSize + sb.blkSize - 1 = sb.blkSize - 1 + sb.blkSize by omega, Nat.add_div_right _ this,
    Nat.div_eq_of_lt (by omega)]

theorem validName_dot : ValidName dot := ⟨by decide, by decide, by decide⟩

theorem validName_dotdot : ValidName dotdot := ⟨by decide, by decide, by decide⟩

/-- The block that `write_dot_entries` writes. -/
theorem holds_dotBlock (hc : c ≠ 0) (hc32 : c < 4294967296) (hp : p ≠ 0) (hp32 : p < 4294967296) (k : Nat) :
    Holds (dotBlock c p) (direntBytes * k) ((newSlots sb p c).getD k none) := by
  match k with
  | 0 => exact (holds_putSlot _ 0 validName_dot hc hc32).putSlot_other (by decide) validName_dotdot.short p
  | 1 => exact holds_putSlot _ 1 validName_dotdot hp hp32
  | k + 2 =>
    have hnone : (newSlots sb p c).getD (k + 2) none = none := by
      simp [newSlots, List.getElem?_replicate]
      split <;> rfl
    rw [hnone]
    have hzero : Holds (fun _ => 0) (direntBytes * (k + 2)) none := rfl
    exact (hzero.putSlot_other (by omega) validName_dot.short c).putSlot_other (by omega) validName_dotdot.short p

/-- What `mofs_mkdir_core` does, by the state of the volume. -/
def MkdirPost (sb : Superblock) (V W : View) (G : Owners) (T : Nat → List Slot) (up : Nat → Nat) (user : User) (path : Path)
    (mode : Nat) (r : Except Errno Unit) : Prop :=
  match resolve V up T resolveTarget user path with
  | .error e => r = .error e ∧ W = V
  | .ok info =>
    if info.leafFound then r = .error .eexist ∧ W = V
    else
      match mofsCheckDirWrite user (V.inode info.parentInodeNum) with
      | .error e => r = .error e ∧ W = V
      | .ok () =>
        match sb.freeInodes V with
        | [] => r = .error .enospc ∧ W = V
        | c :: _ =>
          if sb.canGrow V 0 1 then
            ∃ H r' V' W', NewDir sb V V' G H info.parentInodeNum c user mode ∧
              AddPost sb V' W' H info.parentInodeNum (dirSlots up T info.parentInodeNum) info.leafName c r' ∧
              ((r' = .ok () ∧ r = .ok () ∧ ∃ t, W = W'.setInode info.parentInodeNum (Inode.stamp
                { W'.inode info.parentInodeNum with
                  iLinks := .ofNat ((W'.inode info.parentInodeNum).iLinks.toNat + 1) } timeCtime t)) ∨
                ∃ e, r' = .error e ∧ r = .error e ∧ Frame sb [] V W G G)
          else r = .error .enospc ∧ W = V

/-- A directory is not made and no inode changes, or a new one is entered and counted. -/
theorem MkdirPost.cases {r : Except Errno Unit} (h : Wf sb V G) (hP : MkdirPost sb V W G T up user path mode r) :
    (Frame sb [] V W G G ∧ ∃ e, r = .error e) ∨ ∃ info c H V' W' t, r = .ok () ∧ Entering sb V T up user path info c ∧
      sb.canGrow V 0 1 ∧ NewDir sb V V' G H info.parentInodeNum c user mode ∧
      AddPost sb V' W' H info.parentInodeNum (dirSlots up T info.parentInodeNum) info.leafName c (.ok ()) ∧
      W = W'.setInode info.parentInodeNum (Inode.stamp { W'.inode info.parentInodeNum with
        iLinks := .ofNat ((W'.inode info.parentInodeNum).iLinks.toNat + 1) } timeCtime t) := by
  have hsame (he : W = V) : Frame sb [] V W G G := he ▸ Frame.refl h []
  unfold MkdirPost at hP
  split at hP
  · exact .inl ⟨hsame hP.2, _, hP.1⟩
  · next info hr =>
    split at hP
    · exact .inl ⟨hsame hP.2, _, hP.1⟩
    · next hmiss =>
      split at hP
      · exact .inl ⟨hsame hP.2, _, hP.1⟩
      · next hw =>
        split at hP
        · exact .inl ⟨hsame hP.2, _, hP.1⟩
        · next c cs hfree =>
          split at hP
          · next hroom =>
            obtain ⟨H, r', V', W', hnew, hadd, ⟨rfl, rfl, t, hW⟩ | ⟨e, -, rfl, hF⟩⟩ := hP
            · exact .inr ⟨info, c, H, V', W', t, rfl, ⟨hr, by simpa using hmiss, hw, by rw [hfree]; rfl⟩, hroom, hnew, hadd, hW⟩
            · exact .inl ⟨hF, e, rfl⟩
          · exact .inl ⟨hsame hP.2, _, hP.1⟩

/-- Ownership is determined when no inode has changed. -/
theorem Frame.owners_eq (h : Frame sb [] V W G H) : H = G := by
  cases H
  cases G
  congr 1
  · funext i
    exact (h.same i (by simp)).nodes
  · funext i
    exact (h.same i (by simp)).data

/-- An inode that came into use and was given back. -/
theorem Discarded.undo (hV : Wf sb V G) (hc : V.ibit c = false) (hz : V.inode c = Inode.zero) (h₁ : Frame sb [c] V U G F)
    (h : Discarded sb U W F H c) : Frame sb [] V W G G := by
  have hF := h₁.trans h.frame
  have hib : W.ibit c = false := by rw [h.ibit, Function.update_self]
  obtain ⟨hn, hd⟩ := hV.free c hc
  obtain ⟨hn', hd'⟩ := hF.wf.free c hib
  have hall : Frame sb [] V W G H := by
    refine ⟨hF.wf, fun j _ => ?_⟩
    by_cases hj : j = c
    · subst hj
      refine ⟨hib.trans hc.symm, h.inode.trans hz.symm, hn'.trans hn.symm, hd'.trans hd.symm, fun b hb => ?_⟩
      rw [hd] at hb
      cases hb
    · exact hF.same j (by simpa using hj)
  have := hall.owners_eq
  rwa [this] at hall

namespace Mount

theorem ensures_ignore (m : Mount) {q : M Unit} {P : View → Prop} {r : Except Errno Unit}
    (h : m.Ensures q V (fun r' W => r' = r ∧ P W)) : m.Ensures (ignore q) V (fun r W => r = .ok () ∧ P W) :=
  Ensures.bind_ok h.attempt_eq fun _ hW => Ensures.pure ⟨rfl, hW⟩

theorem ensures_mkdirChild (m : Mount) (h : Vol m.sb V G T up) (hc : V.ibit c = false) (hlt : c < m.sb.inodeNum)
    (user : User) (mode : Nat) :
    m.Ensures (mkdirChild m.sb user mode c) (V.setIbit c true) (fun r W => ∃ t,
      if m.sb.canGrow V 0 1 then
        r = .ok () ∧ ∃ H, Relisted m.sb (V.enter c (newInode 2 ftypeDir user mode t)) W G H c [] ∧ (H.data c).length = 1
      else r = .error .enospc ∧ W = V.enter c (newInode 2 ftypeDir user mode t)) := by
  rw [mkdirChild]
  refine Ensures.seq (m.ensures_mofsInodeStampNow (by decide) fun t => ?_)
  refine Ensures.seq (m.ensures_mofsWriteInode hlt ?_)
  have hF := Frame.enter h.wf hlt hc (x := newInode 2 ftypeDir user mode t) rfl rfl
  have hd := (h.wf.free c hc).2
  have halloc := m.ensures_allocateDataBlock hF.wf hlt (by simp) (n := 1) (by decide) (by decide)
  rw [hd, List.length_nil] at halloc
  refine halloc.mono fun r W hr => ⟨t, ?_⟩
  have hgrow : m.sb.canGrow (V.enter c (newInode 2 ftypeDir user mode t)) 0 1 ↔ m.sb.canGrow V 0 1 := Iff.rfl
  by_cases hg : m.sb.canGrow V 0 1
  · rw [if_pos (hgrow.mpr hg)] at hr
    rw [if_pos hg]
    obtain ⟨rfl, H, ⟨hR, -⟩, hdata⟩ := hr
    refine ⟨rfl, H, hR, ?_⟩
    have hroom : 1 + listNodesForBlockCount m.sb 1 ≤ (m.sb.freeData V).length := hg.2
    have hfree : m.sb.freeData (V.enter c (newInode 2 ftypeDir user mode t)) = m.sb.freeData V := rfl
    rw [hdata, hfree, List.nil_append, length_abs, List.length_take]
    omega
  · rw [if_neg (fun hh => hg (hgrow.mp hh))] at hr
    rw [if_neg hg]
    exact hr

theorem ensures_mkdirFill (m : Mount) (h : Vol m.sb V G T up) (hc : V.ibit c = false) (hlt : c < m.sb.inodeNum) (h3 : 3 ≤ c)
    (hp : (V.inode p).isDir = true) {t : UInt64}
    (hR : Relisted m.sb (V.enter c (newInode 2 ftypeDir user mode t)) U G H c []) (hone : (H.data c).length = 1) :
    m.Ensures (mkdirFill m.sb c p) U (fun r W => r = .ok () ∧ NewDir m.sb V W G H p c user mode) := by
  have hpu := h.used_of_isDir hp
  have hp2 := (h.node p).low hpu
  have h32 := m.ok.inodes_lt
  have hplt := h.wf.range p hpu
  have hble := m.ok.blk_le
  have hEge := m.ok.entries_ge
  have hF₁ := Frame.enter h.wf hlt hc (x := newInode 2 ftypeDir user mode t) rfl rfl
  have hib : U.ibit c = true := by
    rw [hR.ibit]
    simp
  have hfile := hR.wf.fileAt hib
  obtain ⟨hattrs, -⟩ := hR.attrs
  rw [View.enter_inode, Function.update_self] at hattrs
  rw [mkdirFill, writeDotEntries]
  refine Ensures.bind_ok (m.ensures_writeDirBlock hfile (by omega) _) fun U₁ hU₁ => ?_
  refine Ensures.bind_reads (m.reads_mofsReadInode U₁ hlt) ?_
  refine m.ensures_stampWrite hlt (by decide) fun t' => ⟨rfl, ?_⟩
  have hin : U₁.inode c = U.inode c := congrFun hU₁.inode c
  have hF₂ := hU₁.frame hR.wf (by omega)
  have hF₃ := Frame.setInode hF₂.wf (i := c) (x := Inode.stamp { U₁.inode c with iSize := .ofNat m.sb.blkSize }
    (timeMtime ||| timeCtime) t') rfl rfl
  have hF := ((hF₁.trans (hR.frame hF₁.wf (by simp))).trans hF₂).trans hF₃
  have hx : (U₁.setInode c (Inode.stamp { U₁.inode c with iSize := .ofNat m.sb.blkSize }
    (timeMtime ||| timeCtime) t')).inode c = Inode.stamp { U₁.inode c with iSize := .ofNat m.sb.blkSize }
    (timeMtime ||| timeCtime) t' := Function.update_self _ _ _
  have hbits : (U₁.setInode c (Inode.stamp { U₁.inode c with iSize := .ofNat m.sb.blkSize }
    (timeMtime ||| timeCtime) t')).ibit = Function.update V.ibit c true := by
    change U₁.ibit = _
    rw [hU₁.ibit, hR.ibit]
    rfl
  refine ⟨hF, hbits, ?_, ?_, ?_⟩
  · refine ⟨hF.wf.fileAt (by rw [hbits, Function.update_self]), ?_, ?_, ?_, fun k hk => ?_⟩
    · rw [hx, Inode.isDir]
      change (U₁.inode c).iMode.toNat &&& ftypeDir != 0
      rw [hin, hattrs.mode]
      exact newInode_isDir 2 (by decide) user mode t
    · rw [hx, length_newSlots m.ok, ← m.ok.blk_eq]
      exact Nat.mod_eq_of_lt (by omega)
    · rw [hone, length_newSlots m.ok, ← m.ok.blk_eq, blocksFor_blkSize m.ok]
    · rw [length_newSlots m.ok] at hk
      rw [Nat.div_eq_of_lt hk, Nat.mod_eq_of_lt hk]
      change Holds (U₁.blk _) _ _
      have hblk : U₁.blk ((H.data c).getD 0 0) = dotBlock c p := hU₁.inside 0 (by decide)
      rw [hblk]
      simp only [rootInodeNum] at hp2
      exact holds_dotBlock (by omega) (by omega) (by omega) (by omega) k
  · rw [hx]
    change (U₁.inode c).iLinks = 2
    rw [hin, hattrs.links]
    rfl
  · rw [hx]
    refine ⟨?_, ?_, ?_⟩
    · change (U₁.inode c).iMode = _
      rw [hin, hattrs.mode]
      rfl
    · change (U₁.inode c).iUid = _
      rw [hin, hattrs.uid]
      rfl
    · change (U₁.inode c).iGid = _
      rw [hin, hattrs.gid]
      rfl

/-- The rollback of `mofs_mkdir_core` once the child has its block. -/
theorem ensures_mkdirUndo (m : Mount) (h : Vol m.sb V G T up) (hc : V.ibit c = false) (h3 : 3 ≤ c)
    (hN : NewDir m.sb V U G H p c user mode) (name : Name) (q : Nat) :
    m.Ensures (mkdirUndo m.sb true false name q c) U (fun r W => r = .ok () ∧ Frame m.sb [] V W G G) := by
  have hib : U.ibit c = true := by rw [hN.ibit, Function.update_self]
  have hone : (H.data c).length = 1 := by
    rw [hN.dir.blocks, length_newSlots m.ok, ← m.ok.blk_eq, blocksFor_blkSize m.ok]
  have hfree : m.Ensures (freeDataBlock m.sb c 0 1) U _ :=
    m.ensures_freeAll hN.frame.wf hib (fun he => absurd hone (by simp [he])) hone.symm
  rw [mkdirUndo]
  refine Ensures.bind_reads (Reads.pure ()) ?_
  refine Ensures.bind_ok (m.ensures_ignore hfree) fun U₁ hU₁ => ?_
  obtain ⟨F, hfr, hib₁, hown⟩ := hU₁
  have hlt := hN.frame.wf.range c hib
  refine (m.ensures_ignore (m.ensures_freeInode U₁ h3 hlt)).mono fun r W hr => ⟨hr.1, ?_⟩
  obtain ⟨-, rfl⟩ := hr
  have hD : Discarded m.sb U (U₁.leave c) H F c :=
    ⟨hfr.trans (Frame.leave hfr.wf hown), by simp [hib₁], by simp⟩
  exact hD.undo h.wf hc ((h.node c).zero hc) hN.frame

theorem ensures_mofsMkdirCore (m : Mount) (h : Vol m.sb V G T up) (user : User) (path : Path) (mode : Nat) :
    m.Ensures (mofsMkdirCore m.sb user path mode) V (fun r W => MkdirPost m.sb V W G T up user path mode r) := by
  have hres := m.reads_mofsResolvePath h resolveTarget rfl rfl user path
  rw [mofsMkdirCore]
  unfold MkdirPost
  by_cases hhead : path.1.head? ≠ some slash
  · rw [if_pos hhead, resolve, if_pos hhead]
    exact Ensures.throw ⟨rfl, rfl⟩
  rw [if_neg hhead]
  cases hr : resolve V up T resolveTarget user path with
  | error e =>
    rw [hr] at hres
    exact (Reads.bind_error hres).ensures ⟨rfl, rfl⟩
  | ok info =>
    rw [hr] at hres
    obtain ⟨hloc, hvalid, -⟩ := Located.of_resolve h.rootDir rfl hr
    have hp := h.used_of_isDir hloc.dir
    have hplt := h.wf.range _ hp
    refine Ensures.bind_reads hres ?_
    dsimp only
    by_cases hf : info.leafFound = true
    · simp only [if_pos hf]
      exact Ensures.throw ⟨rfl, rfl⟩
    simp only [if_neg hf]
    refine Ensures.bind_reads (m.reads_validUser hvalid) ?_
    refine Ensures.bind_reads (m.reads_mofsReadInode V hplt) ?_
    rw [hloc.dir, if_neg (by decide)]
    cases hw : mofsCheckDirWrite user (V.inode info.parentInodeNum) with
    | error e => exact (Reads.bind_error (Reads.ofExcept _)).ensures ⟨rfl, rfl⟩
    | ok u =>
      refine Ensures.bind_reads (Reads.ofExcept _) ?_
      have halloc := m.ensures_allocateInode V
      cases hfree : m.sb.freeInodes V with
      | nil =>
        rw [hfree] at halloc
        refine halloc.bind (fun _ _ hr => nomatch hr.1) fun e W hr => ?_
        cases hr.1
        exact ⟨rfl, hr.2⟩
      | cons c cs =>
        rw [hfree] at halloc
        obtain ⟨hlt, h3, hc⟩ := mem_freeInodes.mp (hfree ▸ List.mem_cons_self : c ∈ m.sb.freeInodes V)
        refine Ensures.bind_ok halloc ?_
        rintro _ rfl
        refine Ensures.seq (Ensures.attempt (m.ensures_mkdirChild h hc hlt user mode) ?_)
        rintro r₁ U ⟨t, hU⟩
        by_cases hg : m.sb.canGrow V 0 1
        swap
        · -- no block for the child: only its inode is taken back
          rw [if_neg hg] at hU
          obtain ⟨rfl, rfl⟩ := hU
          simp only [if_neg hg]
          refine Ensures.bind_ok (a := ()) (P := fun W => W = V) ?_ fun W hW => Ensures.throw ⟨rfl, hW⟩
          rw [mkdirUndo]
          refine Ensures.bind_reads (Reads.pure ()) ?_
          refine Ensures.bind_reads (Reads.pure ()) ?_
          refine (m.ensures_ignore (m.ensures_freeInode _ h3 hlt)).mono fun r W hr => ⟨hr.1, ?_⟩
          rw [hr.2, View.leave_enter hc ((h.node c).zero hc)]
        rw [if_pos hg] at hU
        obtain ⟨rfl, H, hR, hone⟩ := hU
        simp only [if_pos hg]
        refine Ensures.seq (Ensures.attempt (P := fun r' W => ∃ V', NewDir m.sb V V' G H info.parentInodeNum c user mode ∧
          AddPost m.sb V' W H info.parentInodeNum (dirSlots up T info.parentInodeNum) info.leafName c r') ?_ ?_)
        · refine Ensures.bind_ok (m.ensures_mkdirFill h hc hlt h3 hloc.dir hR hone) fun V' hN => ?_
          have hpc : info.parentInodeNum ≠ c := by
            rintro he
            rw [he, hc] at hp
            cases hp
          have hsame := hN.frame.same info.parentInodeNum (by simpa using hpc)
          have hdir := (h.dirAt hloc.dir).of_same m.ok hN.frame.wf hsame hp
          exact (m.ensures_addDirEntry hN.frame.wf (hsame.ibit.trans hp) hdir hloc.name (by omega) hlt).mono
            fun r W hr => ⟨V', hN, hr⟩
        · rintro r' W' ⟨V', hN, hadd⟩
          cases r' with
          | error e =>
            obtain rfl := hadd.of_error
            refine Ensures.bind_ok (m.ensures_mkdirUndo h hc h3 hN _ _) fun W hW => ?_
            exact Ensures.throw ⟨H, .error e, _, _, hN, hadd, .inr ⟨e, rfl, rfl, hW⟩⟩
          | ok u =>
            have hcount : m.Ensures (mkdirCount m.sb info.parentInodeNum) W' (fun r W => r = .ok () ∧
                ∃ t, W = W'.setInode info.parentInodeNum (Inode.stamp { W'.inode info.parentInodeNum with
                  iLinks := .ofNat ((W'.inode info.parentInodeNum).iLinks.toNat + 1) } timeCtime t)) := by
              refine Ensures.bind_reads (m.reads_mofsReadInode W' hplt) ?_
              exact m.ensures_stampWrite hplt (by decide) fun t => ⟨rfl, t, rfl⟩
            refine Ensures.bind_ok hcount.attempt_eq fun W hW => ?_
            exact Ensures.pure ⟨H, .ok (), V', W', hN, hadd, .inl ⟨rfl, rfl, hW⟩⟩

end Mount

end Mofs
