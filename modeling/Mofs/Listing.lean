import Mofs.FreshVolume
import Mofs.Fuse
import Mofs.Readdir

namespace Mofs

open Effect Bytes Slots Mofs.Tree

variable {sb : Superblock} {V W : View} {G : Owners} {T : Nat → List Slot} {up : Nat → Nat} {D k a offset cursor room : Nat}
  {ns ds : List Nat} {slots s : List Slot} {user : User} {path : Path} {P : Pools} {es : List (Name × Nat)}

section Pages

/-- The entries of a directory with their cookies, from `cursor` on. The dot names have cookies and are not listed. -/
def numbered : (cursor : Nat) → List (Name × Nat) → List (Name × Nat)
  | _, [] => []
  | cursor, e :: es => if isDotOrDotdotName e.1 then numbered (cursor + 1) es else (e.1, cursor + 1) :: numbered (cursor + 1) es

/-- All that a listing of a directory can deliver, with cookies. -/
def deliverable (es : List (Name × Nat)) : List (Name × Nat) := (dot, 1) :: (dotdot, 2) :: numbered 2 es

/-- The page that starts behind cookie `offset`. -/
def page (offset room : Nat) (l : List (Name × Nat)) : List (Name × Nat) :=
  (l.filter fun e => decide (offset < e.2)).take room

theorem page_cons (offset room : Nat) (e : Name × Nat) {l : List (Name × Nat)} : page offset room (e :: l) =
    if offset < e.2 then (if room = 0 then [] else e :: page offset (room - 1) l) else page offset room l := by
  rw [page, List.filter_cons]
  by_cases h : offset < e.2
  · rw [if_pos (by simpa using h), if_pos h]
    cases room with
    | zero => rfl
    | succ n => rfl
  · rw [if_neg (by simpa using h), if_neg h, page]

end Pages

section Scan

theorem entries_eq_nil (h : ∀ s ∈ slots, s = none) : entries slots = [] := by
  rw [List.eq_nil_iff_forall_not_mem]
  rintro ⟨name, c⟩ hm
  rw [mem_entries] at hm
  cases h _ hm

/-- The entries from slot `a` on begin with the one of the next occupied slot. -/
theorem entries_drop (slots : List Slot) (a : Nat) :
    match nextLive slots a with
    | none => entries (slots.drop a) = []
    | some k => a ≤ k ∧ k < slots.length ∧ ∃ e, slots.getD k none = some e ∧
        entries (slots.drop a) = e :: entries (slots.drop (k + 1)) := by
  cases hn : nextLive slots a with
  | none =>
    refine entries_eq_nil fun s hs => ?_
    obtain ⟨j, hj, rfl⟩ := List.getElem_of_mem hs
    rw [List.length_drop] at hj
    have := firstIn_eq_none.mp hn (a + j) (by omega) (by omega)
    rw [List.getElem_drop]
    rwa [List.getD_eq_getElem _ _ (by omega), Option.isSome_eq_false_iff, Option.isNone_iff_eq_none] at this
  | some k =>
    obtain ⟨hak, hk, hlive, hmin⟩ := firstIn_spec hn
    have hlt : k < slots.length := by omega
    refine ⟨hak, hlt, ?_⟩
    cases hs : slots.getD k none with
    | none =>
      rw [hs] at hlive
      cases hlive
    | some e =>
      refine ⟨e, rfl, ?_⟩
      have hsplit : slots.drop a = (slots.drop a).take (k - a) ++ some e :: slots.drop (k + 1) := by
        have hget : slots[k] = some e := by rw [← List.getD_eq_getElem _ none hlt, hs]
        have := (List.take_append_drop (k - a) (slots.drop a)).symm
        rwa [List.drop_drop, show a + (k - a) = k by omega, List.drop_eq_getElem_cons hlt, hget] at this
      rw [hsplit, entries_append, entries_eq_nil, List.nil_append, entries_cons_some]
      intro s hs
      obtain ⟨j, hj, rfl⟩ := List.getElem_of_mem hs
      rw [List.length_take, List.length_drop] at hj
      have := hmin (a + j) (by omega) (by omega)
      rw [List.getElem_take, List.getElem_drop]
      rwa [List.getD_eq_getElem _ _ (by omega), Option.isSome_eq_false_iff, Option.isNone_iff_eq_none] at this

end Scan

/-- Occupied slots have a name and an inode number. -/
theorem DirAt.live (h : DirAt sb V D ns ds slots) {e : Name × Nat} (hk : k < slots.length) (he : slots.getD k none = some e) :
    e.1 ≠ [] ∧ e.2 ≠ 0 := by
  have := h.slot k hk
  rw [he] at this
  exact ⟨this.name.ne, this.ne⟩

namespace Mount

variable {m : Mount}

theorem reads_posixCall {user : User} {P : Pools} {op : PosixOp} {r : Except Errno (Except Errno Ret × Pools)}
    (h : m.Reads (posixBody m.sb user P op) V r) : m.Reads (posixCall m.sb user P op) V (.ok (posixRet P r)) := by
  rw [posixCall]
  refine Reads.bind h.attempt ?_
  cases r with
  | error e => exact Reads.pure _
  | ok x => exact Reads.pure _

/-- What `mofs_readdir` returns for the handle it leaves. -/
def direntOf (h : DirHandle) : Option (Name × Nat) :=
  if h.direntInodeNum ≠ 0 ∧ h.direntName ≠ [] then some (h.direntName, h.direntInodeNum) else none

theorem reads_readdirCall (m : Mount) (h : DirAt m.sb V D ns ds slots) {k : Fin 64} (hused : (P.dirs k).used = true)
    (hi : (P.dirs k).inodeNum = D) (hvalid : user.valid = true) (hread : mofsCheckDirRead user (V.inode D) = .ok ())
    (hoff : (P.dirs k).direntOffset ≤ slots.length) :
    m.Reads (posixCall m.sb user P (.readdir (some k))) V
      (.ok (.ok (.entry (direntOf (readdirHandle slots (P.dirs k)))), P.setDir k (readdirHandle slots (P.dirs k)))) := by
  refine reads_posixCall (r := .ok (_, _)) ?_
  rw [posixBody]
  exact Reads.bind (m.reads_mofsReaddirCore h hused hi hvalid hread hoff) (Reads.pure _)

theorem reads_fuseLoop (m : Mount) (h : DirAt m.sb V D ns ds slots) {k : Fin 64} (offset fuel : Nat) (hvalid : user.valid = true)
    (hread : mofsCheckDirRead user (V.inode D) = .ok ()) (hused : (P.dirs k).used = true) (hi : (P.dirs k).inodeNum = D)
    (hoff : (P.dirs k).direntOffset ≤ slots.length)
    (hfuel : (entries (slots.drop (P.dirs k).direntOffset)).length < fuel) (cursor room : Nat) :
    ∃ P', m.Reads (fuseLoop m.sb user k offset fuel cursor room P) V
      (.ok (.ok (page offset room (numbered cursor (entries (slots.drop (P.dirs k).direntOffset)))), P')) ∧
      (P'.dirs k).used = true := by
  induction fuel generalizing P cursor room with
  | zero => exact absurd hfuel (Nat.not_lt_zero _)
  | succ fuel ih =>
    have hcall := m.reads_readdirCall h hused hi hvalid hread hoff
    have hdrop := entries_drop slots (P.dirs k).direntOffset
    have hself : ((P.setDir k (readdirHandle slots (P.dirs k))).dirs k) = readdirHandle slots (P.dirs k) :=
      Function.update_self _ _ _
    rw [fuseLoop]
    cases hn : nextLive slots (P.dirs k).direntOffset with
    | none =>
      rw [hn] at hdrop
      rw [readdirHandle, hn] at hcall hself
      dsimp only at hcall hself
      rw [direntOf, if_neg (by simp)] at hcall
      refine ⟨_, Reads.bind hcall ?_, by rw [hself]; exact hused⟩
      rw [hdrop, numbered, page, List.filter_nil, List.take_nil]
      exact Reads.pure _
    | some j =>
      rw [hn] at hdrop
      obtain ⟨-, hj, e, he, hes⟩ := hdrop
      obtain ⟨hne, h0⟩ := h.live hj he
      rw [readdirHandle, hn] at hcall hself
      simp only [he, Option.elim_some] at hcall hself
      rw [direntOf, if_pos ⟨h0, hne⟩] at hcall
      rw [hes] at hfuel ⊢
      have hih := ih (P := P.setDir k { P.dirs k with direntOffset := j + 1, direntName := e.1, direntInodeNum := e.2 })
        (by rw [hself]; exact hused) (by rw [hself]; exact hi) (by rw [hself]; exact hj)
        (by rw [hself]; exact Nat.lt_of_succ_lt_succ hfuel) (cursor + 1)
      rw [hself] at hih
      rw [numbered]
      by_cases hskip : cursor < offset ∨ isDotOrDotdotName e.1 = true
      · obtain ⟨P', hP', hu⟩ := hih room
        refine ⟨P', Reads.bind hcall ?_, hu⟩
        dsimp only
        rw [if_pos hskip]
        split
        · exact hP'
        · next hdot =>
          rw [page_cons, if_neg (by have := hskip.resolve_right hdot; simp only; omega)]
          exact hP'
      · rw [not_or] at hskip
        rw [if_neg hskip.2, page_cons, if_pos (by simp only; omega)]
        by_cases hroom : room = 0
        · refine ⟨_, Reads.bind hcall ?_, by rw [hself]; exact hused⟩
          dsimp only
          rw [if_neg (not_or.mpr hskip), fuseFill, if_pos (by omega), if_pos hroom, if_pos hroom]
          exact Reads.pure _
        · obtain ⟨P', hP', hu⟩ := hih (room - 1)
          refine ⟨P', Reads.bind hcall ?_, hu⟩
          dsimp only
          rw [if_neg (not_or.mpr hskip), fuseFill, if_pos (by omega), if_neg hroom, if_neg hroom]
          exact Reads.bind hP' (Reads.pure _)

/-- What `mofs_opendir_core` returns. -/
def openedDir (V : View) (T : Nat → List Slot) (up : Nat → Nat) (user : User) (pool : Nat → DirHandle) (path : Path) :
    Except Errno (Nat × (Nat → DirHandle)) :=
  if user.valid = false then .error .eperm
  else
    match resolve V up T resolveInode user path with
    | .error e => .error e
    | .ok info =>
      if (V.inode info.leafInodeNum).isDir = false then .error .enotdir
      else
        match mofsCheckDirRead user (V.inode info.leafInodeNum) with
        | .error e => .error e
        | .ok () =>
          match getFreeDirhandleIndex pool with
          | none => .error .enfile
          | some k => .ok (k, Function.update pool k ⟨true, info.leafInodeNum, 0, [], 0⟩)

theorem reads_mofsOpendirCore (m : Mount) (h : Vol m.sb V G T up) (user : User) (pool : Nat → DirHandle) (path : Path) :
    m.Reads (mofsOpendirCore m.sb user pool path) V (openedDir V T up user pool path) := by
  rw [mofsOpendirCore, openedDir]
  cases hvalid : user.valid with
  | false =>
    refine Reads.bind_error ?_
    rw [requireUser, hvalid, if_pos rfl]
    exact Reads.throw _
  | true =>
    rw [if_neg (by decide)]
    refine Reads.bind (m.reads_validUser hvalid) ?_
    have hpath := m.reads_mofsPathToInodeNum h user path
    cases hr : resolve V up T resolveInode user path with
    | error e =>
      rw [hr] at hpath
      exact Reads.bind_error hpath
    | ok info =>
      rw [hr] at hpath
      refine Reads.bind hpath ?_
      refine Reads.bind (m.reads_mofsReadInode V (h.wf.range _ (h.used_of_resolve hr))) ?_
      dsimp only
      split
      · exact Reads.throw _
      · have hcheck := Reads.ofExcept (m := m) (V := V) (mofsCheckDirRead user (V.inode info.leafInodeNum))
        cases hc : mofsCheckDirRead user (V.inode info.leafInodeNum) with
        | error e =>
          rw [hc] at hcheck
          exact Reads.bind_error hcheck
        | ok u =>
          rw [hc] at hcheck
          refine Reads.bind hcheck ?_
          cases hk : getFreeDirhandleIndex pool with
          | none => exact Reads.throw _
          | some k => exact Reads.pure _

theorem lt_of_getFreeDirhandleIndex {pool : Nat → DirHandle} (h : getFreeDirhandleIndex pool = some k) : k < 64 :=
  List.mem_range.mp (List.mem_of_find?_eq_some h)

theorem reads_fuseEntries (m : Mount) (h : DirAt m.sb V D ns ds slots) {k : Fin 64} (hvalid : user.valid = true)
    (hread : mofsCheckDirRead user (V.inode D) = .ok ()) (hused : (P.dirs k).used = true) (hi : (P.dirs k).inodeNum = D)
    (hoff : (P.dirs k).direntOffset = 0) (offset room : Nat) :
    ∃ P', m.Reads (fuseEntries m.sb user k offset room P) V
      (.ok (.ok (page offset room (deliverable (entries slots))), P')) ∧ (P'.dirs k).used = true := by
  have hloop (room : Nat) := m.reads_fuseLoop h offset (maxFileDataBlocks * entriesPerBlk m.sb + 1) hvalid
    hread hused hi (by omega) (by
      rw [hoff, List.drop_zero]
      have hlen : (entries slots).length ≤ slots.length := List.reduceOption_length_le slots
      have hlast := h.none_left m.ok (Nat.le_refl ds.length)
      have := Nat.mul_le_mul_right (entriesPerBlk m.sb) h.file.max
      omega) 2 room
  rw [hoff, List.drop_zero] at hloop
  rw [fuseEntries, fuseFill, deliverable, page_cons offset room (dot, 1), page_cons offset (room - 1), page_cons offset room]
  by_cases h0 : offset ≤ 0
  · rw [if_pos h0, if_pos (show offset < 1 by omega)]
    by_cases hroom : room = 0
    · rw [if_pos hroom, if_pos hroom]
      exact ⟨P, Reads.pure _, hused⟩
    · rw [if_neg hroom, if_neg hroom]
      dsimp only
      rw [fuseFill, if_pos (by omega), if_pos (show offset < 2 by omega)]
      by_cases hroom' : room - 1 = 0
      · rw [if_pos hroom', if_pos hroom']
        exact ⟨P, Reads.pure _, hused⟩
      · rw [if_neg hroom', if_neg hroom']
        obtain ⟨P', hP', hu⟩ := hloop (room - 1 - 1)
        exact ⟨P', Reads.bind hP' (Reads.pure _), hu⟩
  · rw [if_neg h0, if_neg (show ¬ offset < 1 by omega)]
    dsimp only
    rw [fuseFill]
    by_cases h1 : offset ≤ 1
    · rw [if_pos h1, if_pos (show offset < 2 by omega)]
      by_cases hroom : room = 0
      · rw [if_pos hroom, if_pos hroom]
        exact ⟨P, Reads.pure _, hused⟩
      · rw [if_neg hroom, if_neg hroom]
        obtain ⟨P', hP', hu⟩ := hloop (room - 1)
        exact ⟨P', Reads.bind hP' (Reads.pure _), hu⟩
    · rw [if_neg h1, if_neg (show ¬ offset < 2 by omega)]
      obtain ⟨P', hP', hu⟩ := hloop room
      exact ⟨P', Reads.bind hP' (Reads.pure _), hu⟩

/-- A call of `mofs_readdir_fuse` that can open the directory delivers the page behind its offset. -/
theorem reads_mofsReaddirFuse (m : Mount) (h : Vol m.sb V G T up) {info : PathInfo} {dirs : Nat → DirHandle}
    (hres : resolve V up T resolveInode user path = .ok info) (hopen : openedDir V T up user P.dirs path = .ok (k, dirs))
    (offset room : Nat) :
    ∃ P', m.Reads (mofsReaddirFuse m.sb user P path offset room) V
      (.ok (.ok (page offset room (deliverable (entries (dirSlots up T info.leafInodeNum)))), P')) := by
  have hcall : m.Reads (posixCall m.sb user P (.opendir path)) V (.ok (.ok (.handle k), { P with dirs := dirs })) := by
    refine reads_posixCall (r := .ok (_, _)) ?_
    have hreads := m.reads_mofsOpendirCore h user P.dirs path
    rw [hopen] at hreads
    rw [posixBody]
    exact Reads.bind hreads (Reads.pure _)
  -- what the successful open says about the caller and the handle
  rw [openedDir] at hopen
  split at hopen
  · cases hopen
  next hvalid =>
  rw [hres] at hopen
  dsimp only at hopen
  split at hopen
  · cases hopen
  next hdir =>
  split at hopen
  · cases hopen
  next hread =>
  split at hopen
  · cases hopen
  next k' hk' =>
  cases hopen
  have hk := lt_of_getFreeDirhandleIndex hk'
  have hself : Function.update P.dirs k ⟨true, info.leafInodeNum, 0, [], 0⟩ k = ⟨true, info.leafInodeNum, 0, [], 0⟩ :=
    Function.update_self _ _ _
  obtain ⟨P₂, hfill, hused⟩ := m.reads_fuseEntries
    (P := { P with dirs := Function.update P.dirs k ⟨true, info.leafInodeNum, 0, [], 0⟩ }) (k := ⟨k, hk⟩)
    (h.dirAt (by simpa using hdir)) (by simpa using hvalid) hread (congrArg DirHandle.used hself)
    (congrArg DirHandle.inodeNum hself) (congrArg DirHandle.direntOffset hself) offset room
  have hclose : m.Reads (posixCall m.sb user P₂ (.closedir (some ⟨k, hk⟩))) V (.ok (.ok .done, P₂.setDir k .closed)) := by
    refine reads_posixCall (r := .ok (_, _)) ?_
    rw [posixBody, mofsClosedirCore, hused, if_neg (by decide)]
    exact Reads.bind (Reads.pure _) (Reads.pure _)
  refine ⟨P₂.setDir k .closed, ?_⟩
  rw [mofsReaddirFuse, if_neg (by omega)]
  refine Reads.bind hcall ?_
  dsimp only
  rw [dif_pos hk, Int.toNat_natCast]
  exact Reads.bind hfill (Reads.bind hclose (Reads.pure _))

/-- A successful call of `mofs_readdir_fuse` has opened the directory and delivered a page of it. -/
theorem page_of_readdir (m : Mount) {d d' : Disk} {P' : Pools} {pg : List (Name × Nat)} (h : Vol m.sb (m.sb.view d) G T up)
    (hcall : exec m.env (mofsReaddirFuse m.sb user P path offset room) d = some (.ok (.ok pg, P'), d')) :
    ∃ info, resolve (m.sb.view d) up T resolveInode user path = .ok info ∧
      ((m.sb.view d).inode info.leafInodeNum).isDir = true ∧ d' = d ∧
      pg = page offset room (deliverable (entries (dirSlots up T info.leafInodeNum))) := by
  cases hopen : openedDir (m.sb.view d) T up user P.dirs path with
  | error e =>
    have hfail : m.Reads (mofsReaddirFuse m.sb user P path offset room) (m.sb.view d) (.ok (.error e, P)) := by
      have hreads := m.reads_mofsOpendirCore h user P.dirs path
      rw [hopen] at hreads
      rw [mofsReaddirFuse, if_neg (by omega)]
      refine Reads.bind (reads_posixCall (r := .error e) ?_) (Reads.pure _)
      rw [posixBody]
      exact Reads.bind_error hreads
    rw [hfail.exec_eq rfl] at hcall
    cases hcall
  | ok opened =>
    obtain ⟨k, dirs⟩ := opened
    have hparts := hopen
    rw [openedDir] at hparts
    split at hparts
    · cases hparts
    split at hparts
    · cases hparts
    next info hres =>
    split at hparts
    · cases hparts
    next hdir =>
    obtain ⟨P'', hreads⟩ := m.reads_mofsReaddirFuse h hres hopen offset room
    rw [hreads.exec_eq rfl] at hcall
    cases hcall
    exact ⟨info, hres, by simpa using hdir, rfl, rfl⟩

end Mount

end Mofs
