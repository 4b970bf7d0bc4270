import Mofs.Ancestor

namespace Mofs

open Effect Bytes Slots Mofs.Tree

variable {sb : Superblock} {U V W : View} {F G H : Owners} {T : Nat → List Slot} {up : Nat → Nat} {i p q s : Nat}
  {user : User} {oldPath newPath : Path} {old new : PathInfo} {n nn : Name} {slots : List Slot}

/-- What follows the two entry updates of a rename: the `..` entry and the link counts, then the change time. -/
def Finished (V W : View) (G : Owners) (srcIsDir : Bool) (p q s : Nat) : Prop :=
  ∃ V', (if srcIsDir = true ∧ p ≠ q then
      ∃ U t t', Filled V U (G.data s) 0 1 (fun _ => dotdotBlock (V.blk ((G.data s).getD 0 0)) q) ∧
        V' = (U.setInode p (nlinkInode (V.inode p) (-1) t)).setInode q (nlinkInode (V.inode q) 1 t')
    else V' = V) ∧ ∃ t, W = V'.setInode s ((V'.inode s).stamp timeCtime t)

/-- The slots in which the new entry is looked for, once the old one is gone. -/
def slotsWithout (up : Nat → Nat) (T : Nat → List Slot) (p q k : Nat) : List Slot :=
  if p = q then (dirSlots up T p).set k none else dirSlots up T q

/-- What the move of an entry does. -/
def MovePost (sb : Superblock) (V W : View) (G : Owners) (T : Nat → List Slot) (up : Nat → Nat) (p : Nat) (n : Name)
    (s q : Nat) (nn : Name) (r : Except Errno Unit) : Prop :=
  ∃ k V₁ r₁ W₁, (dirSlots up T p)[k]? = some (some (n, s)) ∧ DirSet sb V V₁ G p ((dirSlots up T p).set k none) ∧
    AddPost sb V₁ W₁ G q (slotsWithout up T p q k) nn s r₁ ∧
    match r₁ with
    | .error e => r = .error e ∧ ∃ r₂, AddPost sb V₁ W G p ((dirSlots up T p).set k none) n s r₂
    | .ok () => r = .ok () ∧ Finished W₁ W G (V.inode s).isDir p q s

/-- An entry added to one directory leaves the others alone. -/
theorem AddPost.dirAt_other {j c : Nat} {sl : List Slot} {r : Except Errno Unit} {name : Name}
    (h : AddPost sb V W G q slots name c r) (hok : sb.Ok) (hj : V.ibit j = true) (hjq : j ≠ q)
    (hd : DirAt sb V j (G.nodes j) (G.data j) sl) :
    DirAt sb W j (G.nodes j) (G.data j) sl ∧ W.inode j = V.inode j := by
  have hset {sl' : List Slot} (hs : DirSet sb V W G q sl') :
      DirAt sb W j (G.nodes j) (G.data j) sl ∧ W.inode j = V.inode j := by
    have hsame := hs.frame.same j (by simpa using hjq)
    exact ⟨hd.of_same hok hs.frame.wf hsame hj, hsame.inode⟩
  unfold AddPost at h
  have hkeep (he : W = V) : DirAt sb W j (G.nodes j) (G.data j) sl ∧ W.inode j = V.inode j := by
    rw [he]
    exact ⟨hd, rfl⟩
  split at h
  · exact hkeep h.2
  · split at h
    · exact hkeep h.2
    · split at h
      · exact hset h.2
      · split at h
        · exact hset h.2
        · split at h
          · have hg := h.2
            exact ⟨hd.congr (hg.others j hjq) (fun b hb => hg.blks j hjq b hb) hok, hg.others j hjq⟩
          · exact hkeep h.2

/-- The checks between the removal of the destination and the move, where `l` is the way up from the new parent. -/
def moveChecks (V : View) (user : User) (p s q : Nat) (l : List Nat) : Except Errno Unit :=
  if (V.inode s).isDir = true ∧ s ∈ l then .error .einval
  else
    match mofsCheckDirWrite user (V.inode p) with
    | .error e => .error e
    | .ok () => if p ≠ q then mofsCheckDirWrite user (V.inode q) else .ok ()

/-- May the destination `t` in directory `q` be removed for `s`? -/
def destChecks (V : View) (T : Nat → List Slot) (user : User) (s q t : Nat) : Except Errno Unit :=
  if (V.inode s).isDir = true then
    if (V.inode t).isDir = true then
      match mofsCheckDirWrite user (V.inode q) with
      | .error e => .error e
      | .ok () => if kids T t ≠ [] then .error .enotempty else .ok ()
    else .error .enotdir
  else if (V.inode t).isDir = true then .error .eisdir
  else mofsCheckDirWrite user (V.inode q)

/-- The checks and the move. -/
def MoveStage (sb : Superblock) (V W : View) (G : Owners) (T : Nat → List Slot) (up : Nat → Nat) (user : User) (p : Nat)
    (n : Name) (s q : Nat) (nn : Name) (r : Except Errno Unit) : Prop :=
  ∃ l, Climb up rootInodeNum q l ∧
    match moveChecks V user p s q l with
    | .error e => r = .error e ∧ W = V
    | .ok () => MovePost sb V W G T up p n s q nn r

/-- The volume without the entry in slot `j` of directory `q`, and without its inode `t`. -/
def without (T : Nat → List Slot) (q j t : Nat) : Nat → List Slot :=
  Function.update (Function.update T q ((T q).set j none)) t []

/-- What `mofs_rename_core` does once both paths are resolved and denote different things. -/
def RenameStage (sb : Superblock) (V W : View) (G : Owners) (T : Nat → List Slot) (up : Nat → Nat) (user : User)
    (old new : PathInfo) (r : Except Errno Unit) : Prop :=
  if new.leafFound = true then
    match destChecks V T user old.leafInodeNum new.parentInodeNum new.leafInodeNum with
    | .error e => r = .error e ∧ W = V
    | .ok () => ∃ V₁ H j, Unlinked sb V V₁ G H T up new.parentInodeNum new.leafInodeNum new.leafName ∧
        (T new.parentInodeNum)[j]? = some (some (new.leafName, new.leafInodeNum)) ∧
        Vol sb V₁ H (without T new.parentInodeNum j new.leafInodeNum) up ∧
        MoveStage sb V₁ W H (without T new.parentInodeNum j new.leafInodeNum) up user old.parentInodeNum old.leafName
          old.leafInodeNum new.parentInodeNum new.leafName r
  else
    MoveStage sb V W G T up user old.parentInodeNum old.leafName old.leafInodeNum new.parentInodeNum new.leafName r

/-- The two paths of a rename resolve to places whose last components are no dot names. -/
structure RenamePaths (V : View) (T : Nat → List Slot) (up : Nat → Nat) (user : User) (oldPath newPath : Path)
    (old new : PathInfo) : Prop where
  atOld : resolve V up T resolveExisting user oldPath = .ok old
  atNew : resolve V up T resolveTarget user newPath = .ok new
  oldName : isDotOrDotdotName old.leafName = false
  newName : isDotOrDotdotName new.leafName = false

/-- What `mofs_rename_core` does: it fails before it has changed anything, or finds that both paths denote the same
object, or goes on to its later stages. -/
def RenamePost (sb : Superblock) (V W : View) (G : Owners) (T : Nat → List Slot) (up : Nat → Nat) (user : User)
    (oldPath newPath : Path) (r : Except Errno Unit) : Prop :=
  (∃ e, r = .error e ∧ W = V ∧ ∀ old new, ¬ RenamePaths V T up user oldPath newPath old new) ∨
  ∃ old new, RenamePaths V T up user oldPath newPath old new ∧
    if new.leafFound = true ∧ new.leafInodeNum = old.leafInodeNum then r = .ok () ∧ W = V
    else RenameStage sb V W G T up user old new r

namespace Mount

theorem ensures_reparent (m : Mount) {ns : List Nat} {a b : Nat} {rest : List Slot}
    (h : Dotted m.sb V s ns (G.data s) a b rest) (hp : p < m.sb.inodeNum) (hq : q < m.sb.inodeNum) (hpq : p ≠ q)
    (hlinks : (V.inode p).iLinks ≠ 0) :
    m.Ensures (reparent m.sb s p q) V (fun r W => r = .ok () ∧
      ∃ U t t', Filled V U (G.data s) 0 1 (fun _ => dotdotBlock (V.blk ((G.data s).getD 0 0)) q) ∧
        W = (U.setInode p (nlinkInode (V.inode p) (-1) t)).setInode q (nlinkInode (V.inode q) 1 t')) := by
  rw [reparent]
  refine Ensures.bind_ok (m.ensures_rewriteDotdot h q) fun U hU => ?_
  have hin := hU.inode
  refine Ensures.bind_ok (m.ensures_adjustDirNlink hp (-1) (by rw [hin]; exact fun hc => hlinks hc.2)) fun U₁ hU₁ => ?_
  obtain ⟨t, rfl⟩ := hU₁
  refine Ensures.bind_ok (m.ensures_adjustDirNlink hq 1 (fun hc => absurd hc.1 (by decide))).attempt_eq fun W hW => ?_
  obtain ⟨t', rfl⟩ := hW
  refine Ensures.pure ⟨rfl, U, t, t', hU, ?_⟩
  have hq' : (U.setInode p (nlinkInode (U.inode p) (-1) t)).inode q = U.inode q := Function.update_of_ne hpq.symm _ _
  rw [hq', hin]

theorem ensures_moveEntry (m : Mount) (h : Vol m.sb V G T up) (hp : (V.inode p).isDir = true) (hq : (V.inode q).isDir = true)
    (hn : ValidName n) (hnn : ValidName nn) (hl : lookup (dirSlots up T p) n = some s) (hlead : some (n, s) ∉ lead up p)
    (hsq : s ≠ q) (hold : old.leafInodeNum = s ∧ old.parentInodeNum = p ∧ old.leafName = n)
    (hnew : new.parentInodeNum = q ∧ new.leafName = nn) :
    m.Ensures (moveEntry m.sb (V.inode s).isDir old new) V (fun r W => MovePost m.sb V W G T up p n s q nn r) := by
  obtain ⟨rfl, rfl, rfl⟩ := hold
  obtain ⟨rfl, rfl⟩ := hnew
  have hmem := (List.mem_append.mp (mem_of_lookup hl)).resolve_left hlead
  obtain ⟨hsu, hsr, hup⟩ := h.kid hp hmem
  have hps : old.parentInodeNum ≠ old.leafInodeNum := by
    rw [← hup]
    exact h.tree.up_ne hsu hsr
  have hpu := h.used_of_isDir hp
  have hqu := h.used_of_isDir hq
  have hs0 : old.leafInodeNum ≠ 0 := by have := h.three_le hsu hsr; omega
  have hslt := h.wf.range _ hsu
  have hrem := m.ensures_removeDirEntry h.wf (h.dirAt hp) hn.ne hn.nul
  simp only [hl] at hrem
  rw [moveEntry]
  refine Ensures.bind_ok hrem fun V₁ hV₁ => ?_
  obtain ⟨k, hk, hset⟩ := hV₁
  have hdq : DirAt m.sb V₁ new.parentInodeNum (G.nodes new.parentInodeNum) (G.data new.parentInodeNum)
      (slotsWithout up T old.parentInodeNum new.parentInodeNum k) := by
    rw [slotsWithout]
    by_cases hpq : old.parentInodeNum = new.parentInodeNum
    · rw [if_pos hpq, ← hpq]
      exact hset.dir
    · rw [if_neg hpq]
      exact (h.dirAt hq).of_same m.ok hset.frame.wf (hset.frame.same _ (by simpa using Ne.symm hpq)) hqu
  have hadd := m.ensures_addDirEntry hset.frame.wf (by rw [hset.ibit]; exact hqu) hdq hnn hs0 hslt
  refine Ensures.seq (Ensures.attempt hadd fun r₁ W₁ hr₁ => ?_)
  cases r₁ with
  | error e =>
    obtain rfl := hr₁.of_error
    have hback := m.ensures_addDirEntry hset.frame.wf (by rw [hset.ibit]; exact hpu) hset.dir hn hs0 hslt
    refine Ensures.seq ?_
    refine Ensures.seq (Ensures.attempt hback fun r₂ W₂ hr₂ => ?_)
    exact Ensures.pure (Ensures.throw ⟨k, _, .error e, _, hk, hset, hr₁, rfl, r₂, hr₂⟩)
  | ok u =>
    have hpost (V' : View) (hV' : if (V.inode old.leafInodeNum).isDir = true ∧ old.parentInodeNum ≠ new.parentInodeNum then
          ∃ U t t', Filled W₁ U (G.data old.leafInodeNum) 0 1
              (fun _ => dotdotBlock (W₁.blk ((G.data old.leafInodeNum).getD 0 0)) new.parentInodeNum) ∧
            V' = (U.setInode old.parentInodeNum (nlinkInode (W₁.inode old.parentInodeNum) (-1) t)).setInode
              new.parentInodeNum (nlinkInode (W₁.inode new.parentInodeNum) 1 t')
        else V' = W₁) : m.Ensures (ignore (mofsInodeStampPersist m.sb old.leafInodeNum timeCtime)) V'
          (fun r W => MovePost m.sb V W G T up old.parentInodeNum old.leafName old.leafInodeNum new.parentInodeNum
            new.leafName r) := by
      have hstamp : m.Ensures (mofsInodeStampPersist m.sb old.leafInodeNum timeCtime) V' (fun r W => r = .ok () ∧
          ∃ t, W = V'.setInode old.leafInodeNum ((V'.inode old.leafInodeNum).stamp timeCtime t)) :=
        m.ensures_mofsInodeStampPersist hslt (by decide) fun t => ⟨rfl, t, rfl⟩
      refine (m.ensures_ignore hstamp).mono fun r W hr => ?_
      obtain ⟨rfl, ht⟩ := hr
      exact ⟨k, V₁, .ok (), W₁, hk, hset, hr₁, rfl, V', hV', ht⟩
    by_cases hmove : (V.inode old.leafInodeNum).isDir = true ∧ old.parentInodeNum ≠ new.parentInodeNum
    · have hs₁ := hset.frame.same old.leafInodeNum (by simpa using Ne.symm hps)
      have hd₁ := (h.dotted hmove.1 hsr).dir.of_same m.ok hset.frame.wf hs₁ hsu
      have hdot : Dotted m.sb W₁ old.leafInodeNum (G.nodes old.leafInodeNum) (G.data old.leafInodeNum) old.leafInodeNum
          (up old.leafInodeNum) (T old.leafInodeNum) :=
        ⟨(hr₁.dirAt_other m.ok (hs₁.ibit.trans hsu) hsq hd₁).1, (h.dotted hmove.1 hsr).large⟩
      have hin := (hr₁.dirAt_other m.ok (by rw [hset.ibit]; exact hpu) hmove.2 hset.dir).2
      have hlinks : (W₁.inode old.parentInodeNum).iLinks ≠ 0 := fun h0 => by
        have := ((h.node _).dir hp).links
        rw [hin, hset.attrs.links] at h0
        rw [h0] at this
        simp only [UInt16.toNat_zero] at this
        omega
      rw [onlyIf, if_pos hmove]
      refine Ensures.bind_ok (a := ()) ?_ fun V' hV' => hpost V' (by rw [if_pos hmove]; exact hV')
      rw [reparentOrUndo]
      exact Ensures.bind_ok (m.ensures_reparent hdot (h.wf.range _ hpu) (h.wf.range _ hqu) hmove.2 hlinks).attempt_eq
        fun V' hV' => Ensures.pure ⟨rfl, hV'⟩
    · rw [onlyIf, if_neg hmove]
      refine Ensures.bind_reads (Reads.pure ()) ?_
      exact hpost W₁ (by rw [if_neg hmove])

theorem reads_requireParentWrite (m : Mount) (hvalid : user.valid = true) (hp : p < m.sb.inodeNum)
    (hd : (V.inode p).isDir = true) :
    m.Reads (requireParentWrite m.sb user p) V (mofsCheckDirWrite user (V.inode p)) := by
  refine Reads.bind (m.reads_validUser hvalid) ?_
  refine Reads.bind (m.reads_mofsReadInode V hp) ?_
  rw [hd, if_neg (by decide)]
  exact Reads.ofExcept _

theorem reads_checkMove (m : Mount) (old new : PathInfo) (h : Vol m.sb V G T up) (hvalid : user.valid = true)
    (hp : (V.inode old.parentInodeNum).isDir = true) (hq : (V.inode new.parentInodeNum).isDir = true) {l : List Nat}
    (hl : Climb up rootInodeNum new.parentInodeNum l) :
    m.Reads (checkMove m.sb user (V.inode old.leafInodeNum).isDir old new) V
      (moveChecks V user old.parentInodeNum old.leafInodeNum new.parentInodeNum l) := by
  have hplt := h.wf.range _ (h.used_of_isDir hp)
  have hqlt := h.wf.range _ (h.used_of_isDir hq)
  rw [checkMove, moveChecks]
  have hanc := m.reads_directoryIsAncestor h hq hl old.leafInodeNum
  by_cases hcyc : (V.inode old.leafInodeNum).isDir = true ∧ old.leafInodeNum ∈ l
  · rw [if_pos hcyc, onlyIf, if_pos hcyc.1]
    refine Reads.bind_error (Reads.bind hanc ?_)
    rw [onlyIf, if_pos (by simpa using hcyc.2)]
    exact Reads.throw _
  · rw [if_neg hcyc]
    have hfirst : m.Reads (onlyIf ((V.inode old.leafInodeNum).isDir = true) (do
        let ancestor ← directoryIsAncestor m.sb old.leafInodeNum new.parentInodeNum
        onlyIf (ancestor = true) (throw .einval))) V (.ok ()) := by
      rw [onlyIf]
      split
      · refine Reads.bind hanc ?_
        rw [onlyIf, if_neg (by simpa using fun hm => hcyc ⟨by assumption, hm⟩)]
        exact Reads.pure _
      · exact Reads.pure _
    refine Reads.bind hfirst ?_
    have hpw := m.reads_requireParentWrite hvalid hplt hp
    have hqw := m.reads_requireParentWrite hvalid hqlt hq
    cases hc : mofsCheckDirWrite user (V.inode old.parentInodeNum) with
    | error e =>
      rw [hc] at hpw
      exact Reads.bind_error hpw
    | ok u =>
      rw [hc] at hpw
      refine Reads.bind hpw ?_
      rw [onlyIf]
      dsimp only
      split
      · exact hqw
      · exact Reads.pure _

theorem ensures_moveStage (m : Mount) (old new : PathInfo) (h : Vol m.sb V G T up) (hvalid : user.valid = true)
    (hp : (V.inode old.parentInodeNum).isDir = true) (hq : (V.inode new.parentInodeNum).isDir = true)
    (hn : ValidName old.leafName) (hnn : ValidName new.leafName)
    (hl : lookup (dirSlots up T old.parentInodeNum) old.leafName = some old.leafInodeNum)
    (hlead : isDotOrDotdotName old.leafName = false) :
    m.Ensures (do
      checkMove m.sb user (V.inode old.leafInodeNum).isDir old new
      moveEntry m.sb (V.inode old.leafInodeNum).isDir old new) V (fun r W =>
        MoveStage m.sb V W G T up user old.parentInodeNum old.leafName old.leafInodeNum new.parentInodeNum new.leafName r) := by
  obtain ⟨l, hcl⟩ := h.tree.rooted _ (h.used_of_isDir hq)
  have hcheck := m.reads_checkMove old new h hvalid hp hq hcl
  cases hc : moveChecks V user old.parentInodeNum old.leafInodeNum new.parentInodeNum l with
  | error e =>
    rw [hc] at hcheck
    exact (Reads.bind_error hcheck).ensures ⟨l, hcl, by rw [hc]; exact ⟨rfl, rfl⟩⟩
  | ok u =>
    rw [hc] at hcheck
    refine Ensures.bind_reads hcheck ?_
    have hsq : old.leafInodeNum ≠ new.parentInodeNum := by
      intro he
      have : (V.inode old.leafInodeNum).isDir = true ∧ old.leafInodeNum ∈ l := by
        rw [he]
        exact ⟨hq, hcl.mem_self⟩
      rw [moveChecks, if_pos this] at hc
      cases hc
    refine (m.ensures_moveEntry h hp hq hn hnn hl (not_mem_lead_of_name hlead _ _) hsq ⟨rfl, rfl, rfl⟩
      ⟨rfl, rfl⟩).mono fun r W hr => ⟨l, hcl, ?_⟩
    rw [hc]
    exact hr

/-- The existing destination goes, or the rename fails here. -/
theorem ensures_removeDestination (m : Mount) (h : Vol m.sb V G T up) {srcIsDir : Bool} (hs : (V.inode s).isDir = srcIsDir)
    (hres : resolve V up T resolveExisting user newPath = .ok new) (hdot : isDotOrDotdotName new.leafName = false)
    (hpath : ¬ (newPath.1.head? ≠ some slash ∨ newPath.1 = [slash])) :
    m.Ensures (removeDestination m.sb user newPath srcIsDir new.leafInodeNum) V (fun r W =>
      match destChecks V T user s new.parentInodeNum new.leafInodeNum with
      | .error e => r = .error e ∧ W = V
      | .ok () => r = .ok () ∧ ∃ H, Unlinked m.sb V W G H T up new.parentInodeNum new.leafInodeNum new.leafName) := by
  obtain ⟨hloc, -, hfound⟩ := Located.of_resolve h.rootDir rfl hres
  have hl := hloc.found
  rw [if_pos (hfound rfl)] at hl
  have ht := h.used_of_mem hloc.dir (mem_of_lookup hl)
  rw [removeDestination]
  unfold destChecks
  refine Ensures.bind_reads (m.reads_mofsReadInode V (h.wf.range _ ht)) ?_
  cases hsd : srcIsDir with
  | true =>
    rw [hsd] at hs
    simp only [hs, if_true, Bool.true_and, Bool.not_true, Bool.false_and, Bool.false_eq_true, if_false]
    cases htd : (V.inode new.leafInodeNum).isDir with
    | false => exact Ensures.throw ⟨rfl, rfl⟩
    | true =>
      simp only [if_true]
      refine (m.ensures_mofsRmdirCore h user newPath).mono fun r W hr => ?_
      unfold RmdirPost at hr
      simp only [if_neg hpath, hres, hdot, Bool.false_eq_true, if_false, htd, Bool.true_eq_false] at hr
      cases hw : mofsCheckDirWrite user (V.inode new.parentInodeNum) with
      | error e =>
        rw [hw] at hr
        exact hr
      | ok u =>
        simp only [hw] at hr ⊢
        by_cases hk : kids T new.leafInodeNum ≠ []
        · rw [if_pos hk] at hr
          simp only [if_pos hk]
          exact hr
        · rw [if_neg hk] at hr
          simp only [if_neg hk]
          exact hr
  | false =>
    rw [hsd] at hs
    simp only [hs, Bool.false_and, Bool.false_eq_true, if_false, Bool.not_false, Bool.true_and]
    cases htd : (V.inode new.leafInodeNum).isDir with
    | true => exact Ensures.throw ⟨rfl, rfl⟩
    | false =>
      simp only [Bool.not_false, if_true, Bool.false_eq_true, if_false]
      refine (m.ensures_mofsUnlinkCore h user newPath).mono fun r W hr => ?_
      unfold UnlinkPost at hr
      simp only [hres, htd, Bool.false_eq_true, if_false] at hr
      cases hw : mofsCheckDirWrite user (V.inode new.parentInodeNum) with
      | error e =>
        rw [hw] at hr
        exact hr
      | ok u =>
        simp only [hw] at hr ⊢
        exact hr

end Mount

/-- What the removal of the destination leaves of the source. -/
theorem Unlinked.source {t j : Nat} (hD : Unlinked sb V W G H T up q t nn)
    (hV : Vol sb W H (without T q j t) up) (hj : (T q)[j]? = some (some (nn, t))) (hp : (V.inode p).isDir = true)
    (hleaf : kids T t = []) (hs : some (n, s) ∈ T p) (hst : s ≠ t) :
    (∀ x, x ≠ t → SamePerm (V.inode x) (W.inode x)) ∧ p ≠ t ∧ q ≠ t ∧
      lookup (dirSlots up (without T q j t) p) n = some s := by
  have hnil {x : Nat} (hx : kids T x ≠ []) : x ≠ t := fun he => hx (he ▸ hleaf)
  have hpt : p ≠ t := hnil (List.ne_nil_of_mem (mem_kids.mpr ⟨n, hs⟩))
  have hqt : q ≠ t := hnil (List.ne_nil_of_mem (mem_kids.mpr ⟨nn, List.mem_of_getElem? hj⟩))
  have hperm (x : Nat) (hx : x ≠ t) : SamePerm (V.inode x) (W.inode x) := by
    by_cases hxq : x = q
    · exact hxq ▸ hD.perm
    · rw [(hD.frame.same x (mem_pair.mpr ⟨hxq, hx⟩)).inode]
      exact SamePerm.refl _
  refine ⟨hperm, hpt, hqt, ?_⟩
  have hpd : (W.inode p).isDir = true := (hperm p hpt).isDir.trans hp
  refine ((hV.node p).dir hpd).distinct.lookup_of_mem (List.mem_append_right _ ?_)
  rw [without, Function.update_of_ne hpt]
  by_cases hpq : p = q
  · subst hpq
    rw [Function.update_self]
    obtain ⟨i, hi, he⟩ := List.getElem_of_mem hs
    have hij : j ≠ i := by
      rintro rfl
      rw [List.getElem?_eq_getElem hi, he] at hj
      simp only [Option.some.injEq, Prod.mk.injEq] at hj
      exact hst hj.2
    refine List.mem_of_getElem? (i := i) ?_
    rw [List.getElem?_set_ne hij, List.getElem?_eq_getElem hi, he]
  · rw [Function.update_of_ne hpq]
    exact hs

theorem kids_of_destChecks {t : Nat} (h : Vol sb V G T up) (hc : destChecks V T user s q t = .ok ()) : kids T t = [] := by
  cases ht : (V.inode t).isDir with
  | false => exact kids_nil ((h.node t).flat ht)
  | true =>
    unfold destChecks at hc
    simp only [ht, if_true] at hc
    split at hc
    · split at hc
      · cases hc
      · split at hc
        · cases hc
        · exact not_not.mp ‹_›
    · cases hc

/-- Both paths of a rename name places in directories. -/
theorem RenamePaths.located (h : Vol sb V G T up) (hP : RenamePaths V T up user oldPath newPath old new) :
    Located V up T old old.parentInodeNum ∧ Located V up T new new.parentInodeNum ∧ user.valid = true ∧
      some (old.leafName, old.leafInodeNum) ∈ T old.parentInodeNum := by
  obtain ⟨hold, hvalid, hfound⟩ := Located.of_resolve h.rootDir rfl hP.atOld
  obtain ⟨hnew, -, -⟩ := Located.of_resolve h.rootDir rfl hP.atNew
  have hl := hold.found
  rw [if_pos (hfound rfl)] at hl
  exact ⟨hold, hnew, hvalid,
    (List.mem_append.mp (mem_of_lookup hl)).resolve_left (not_mem_lead_of_name hP.oldName _ _)⟩

theorem path_of_resolve {flags : ResolveFlags} {path : Path} {info : PathInfo} (hparent : flags.parent = true)
    (h : resolve V up T flags user path = .ok info) : ¬ (path.1.head? ≠ some slash ∨ path.1 = [slash]) := by
  rintro (hh | hh)
  · rw [resolve, if_pos hh] at h
    cases h
  · rw [resolve] at h
    split at h
    · cases h
    · split at h
      · cases h
      · cases h

namespace Mount

theorem ensures_renameStage (m : Mount) (h : Vol m.sb V G T up) (hP : RenamePaths V T up user oldPath newPath old new)
    (hne : ¬ (new.leafFound = true ∧ new.leafInodeNum = old.leafInodeNum)) :
    m.Ensures (do
      onlyIf (new.leafFound = true)
        (removeDestination m.sb user newPath (V.inode old.leafInodeNum).isDir new.leafInodeNum)
      checkMove m.sb user (V.inode old.leafInodeNum).isDir old new
      moveEntry m.sb (V.inode old.leafInodeNum).isDir old new) V (fun r W => RenameStage m.sb V W G T up user old new r) := by
  obtain ⟨hold, hnew, hvalid, hsrc⟩ := hP.located h
  unfold RenameStage
  by_cases hf : new.leafFound = true
  · simp only [if_pos hf]
    rw [onlyIf, if_pos hf]
    have hst : old.leafInodeNum ≠ new.leafInodeNum := fun he => hne ⟨hf, he.symm⟩
    refine Ensures.seq ((m.ensures_removeDestination h rfl (resolve_existing hP.atNew hf) hP.newName
      (path_of_resolve rfl hP.atNew)).mono fun r₁ V₁ hr₁ => ?_)
    cases hc : destChecks V T user old.leafInodeNum new.parentInodeNum new.leafInodeNum with
    | error e =>
      rw [hc] at hr₁
      obtain ⟨rfl, rfl⟩ := hr₁
      exact ⟨rfl, rfl⟩
    | ok u =>
      rw [hc] at hr₁
      obtain ⟨rfl, H, hD⟩ := hr₁
      have hleaf := kids_of_destChecks h hc
      obtain ⟨j, hj, hV₁⟩ := hD.vol h m.ok hnew.dir hleaf
      obtain ⟨hperm, hpt, hqt, hl⟩ := hD.source hV₁ hj hold.dir hleaf hsrc hst
      have hstage := m.ensures_moveStage old new hV₁ hvalid ((hperm _ hpt).isDir.trans hold.dir)
        ((hperm _ hqt).isDir.trans hnew.dir) hold.name hnew.name hl hP.oldName
      rw [(hperm _ hst).isDir] at hstage
      exact hstage.mono fun r W hr => ⟨V₁, H, j, hD, hj, hV₁, hr⟩
  · simp only [if_neg hf]
    rw [onlyIf, if_neg hf]
    refine Ensures.bind_reads (Reads.pure ()) ?_
    obtain ⟨-, -, hfound⟩ := Located.of_resolve h.rootDir rfl hP.atOld
    have hl := hold.found
    rw [if_pos (hfound rfl)] at hl
    exact m.ensures_moveStage old new h hvalid hold.dir hnew.dir hold.name hnew.name hl hP.oldName

theorem ensures_mofsRenameCore (m : Mount) (h : Vol m.sb V G T up) (user : User) (oldPath newPath : Path) :
    m.Ensures (mofsRenameCore m.sb user oldPath newPath) V (fun r W =>
      RenamePost m.sb V W G T up user oldPath newPath r) := by
  have hres := m.reads_mofsResolvePath h resolveExisting rfl rfl user oldPath
  have hres' := m.reads_mofsResolvePath h resolveTarget rfl rfl user newPath
  rw [mofsRenameCore]
  by_cases hhead : oldPath.1.head? ≠ some slash ∨ newPath.1.head? ≠ some slash
  · rw [if_pos hhead]
    refine Ensures.throw (.inl ⟨_, rfl, rfl, fun old new hP => ?_⟩)
    rcases hhead with hh | hh
    · exact path_of_resolve rfl hP.atOld (.inl hh)
    · exact path_of_resolve rfl hP.atNew (.inl hh)
  rw [if_neg hhead]
  cases hr : resolve V up T resolveExisting user oldPath with
  | error e =>
    rw [hr] at hres
    refine (Reads.bind_error hres).ensures (.inl ⟨_, rfl, rfl, fun old new hP => ?_⟩)
    rw [hP.atOld] at hr
    cases hr
  | ok old =>
  rw [hr] at hres
  obtain ⟨hold, -, hfound⟩ := Located.of_resolve h.rootDir rfl hr
  have hf := hfound rfl
  have hsu := h.used_of_mem hold.dir (mem_of_lookup (hold.found.trans (if_pos hf)))
  refine Ensures.bind_reads hres ?_
  by_cases hdot : old.leafFound = false ∨ isDotOrDotdotName old.leafName = true
  · rw [if_pos hdot]
    refine Ensures.throw (.inl ⟨_, rfl, rfl, fun old' new hP => ?_⟩)
    have : old' = old := Except.ok.inj (hP.atOld.symm.trans hr)
    subst this
    have hnd := hP.oldName
    rcases hdot with he | he
    · rw [hf] at he
      cases he
    · rw [he] at hnd
      cases hnd
  rw [if_neg hdot]
  cases hr' : resolve V up T resolveTarget user newPath with
  | error e =>
    rw [hr'] at hres'
    refine (Reads.bind_error hres').ensures (.inl ⟨_, rfl, rfl, fun old new hP => ?_⟩)
    rw [hP.atNew] at hr'
    cases hr'
  | ok new =>
  rw [hr'] at hres'
  refine Ensures.bind_reads hres' ?_
  by_cases hdot' : isDotOrDotdotName new.leafName = true
  · rw [if_pos hdot']
    refine Ensures.throw (.inl ⟨_, rfl, rfl, fun old new' hP => ?_⟩)
    have : new' = new := Except.ok.inj (hP.atNew.symm.trans hr')
    subst this
    have hnd := hP.newName
    rw [hdot'] at hnd
    cases hnd
  rw [if_neg hdot']
  have hP : RenamePaths V T up user oldPath newPath old new := ⟨hr, hr', by simpa using fun he => hdot (.inr he),
    by simpa using hdot'⟩
  refine Ensures.bind_reads (m.reads_mofsReadInode V (h.wf.range _ hsu)) ?_
  by_cases hsame : new.leafFound = true ∧ new.leafInodeNum = old.leafInodeNum
  · rw [if_pos hsame]
    exact Ensures.pure (.inr ⟨old, new, hP, by rw [if_pos hsame]; exact ⟨rfl, rfl⟩⟩)
  · rw [if_neg hsame]
    exact (m.ensures_renameStage h hP hsame).mono fun r W hr => .inr ⟨old, new, hP, by rw [if_neg hsame]; exact hr⟩

end Mount

end Mofs
