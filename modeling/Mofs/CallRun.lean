import Mofs.CallData
import Mofs.FailedCall
import Mofs.Lib.Simulation

namespace Mofs

open Effect Bytes Slots Mofs.Tree Simulation

variable {α : Type} {sb : Superblock} {env : Env} {t d d' : Disk} {V W : View} {G H : Owners} {T : Nat → List Slot} {up : Nat → Nat}
  {user : User} {path : Path} {P P' : Pools} {op : PosixOp} {i q flags mode : Nat} {name : Name} {info : PathInfo}

/-- The path under which a call may make a new file or directory. -/
def PosixOp.makes : PosixOp → Option Path
  | .open path flags _ => if flags &&& oflagCreat ≠ 0 then some path else none
  | .mkdir path _ => some path
  | _ => none

/-- The handle through which a call works on the data of a file. -/
def PosixOp.fileHandle : PosixOp → Handle
  | .read h _ => h
  | .write h _ => h
  | .pread h _ _ => h
  | .pwrite h _ _ => h
  | .ftruncate h _ => h
  | _ => none

/-- The path under which a call may enter a name. -/
def PosixOp.newPath : PosixOp → Option Path
  | .rename _ newPath => some newPath
  | op => op.makes

/-- The path leads to directory `q`, which does not have the last name of the path. -/
def MissingAt (sb : Superblock) (env : Env) (d : Disk) (user : User) (path : Path) (q : Nat) (name : Name) : Prop :=
  ∃ info d', exec env (mofsResolvePath sb user path resolveTarget) d = some (.ok info, d') ∧ info.leafFound = false ∧
    info.parentInodeNum = q ∧ info.leafName = name

/-- The call takes an entry out of directory `q` to give it another name. -/
def PosixOp.RenamesFrom (sb : Superblock) (env : Env) (d : Disk) (user : User) (q : Nat) : PosixOp → Prop
  | .rename oldPath _ => ∃ info d', exec env (mofsResolvePath sb user oldPath resolveExisting) d = some (.ok info, d') ∧
      info.parentInodeNum = q
  | _ => False

/-- No directory has to grow for the name that the call may enter. -/
def Fits (sb : Superblock) (env : Env) (d : Disk) (user : User) (op : PosixOp) : Prop :=
  ∀ path ∈ op.newPath, ∀ q name, MissingAt sb env d user path q name →
    TakesEntry sb (sb.view d) q ∨ op.RenamesFrom sb env d user q

/-- The call may make a file or directory with an entry `name` in directory `q`. -/
def Enters (sb : Superblock) (env : Env) (d : Disk) (user : User) (op : PosixOp) (q : Nat) (name : Name) : Prop :=
  ∃ path ∈ op.makes, MissingAt sb env d user path q name

section Step

theorem OnFile.keeps (h : Ungrown sb V G T up) (hF : OnFile sb V W G T up i) (enters : Nat → Name → Prop) : Keeps sb V W T enters := by
  obtain ⟨H, hframe, hvol⟩ := hF.vol
  refine ⟨H, T, up, h.of_sizes hvol fun j hj => ?_, fun hT _ _ => hT, fun j hj => .inl (hF.ibit ▸ hj)⟩
  by_cases hji : j = i
  · rw [hji, hF.attrs.isDir, hF.file] at hj
    cases hj
  · rw [(hframe.same j (by simpa using hji)).inode] at hj ⊢
    exact ⟨hj, rfl⟩

theorem DataPost.keeps {r : Except Errno α} (h : Ungrown sb V G T up) (hP : DataPost sb V W G T up i r) (enters : Nat → Name → Prop) :
    Keeps sb V W T enters := by
  rcases hP with ⟨-, rfl⟩ | hF
  · exact h.keeps enters
  · exact hF.keeps h enters

theorem OpenPost.keeps {m : Mount} {r : Except Errno Nat} {enters : Nat → Name → Prop} (h : Ungrown m.sb V G T up)
    (hP : OpenPost m.sb V W G T up user path flags mode r)
    (htake : flags &&& oflagCreat ≠ 0 → ∀ info, resolve V up T resolveTarget user path = .ok info → info.leafFound = false →
      TakesEntry m.sb V info.parentInodeNum ∧ enters info.parentInodeNum info.leafName) :
    Keeps m.sb V W T enters := by
  unfold OpenPost at hP
  split at hP
  · rw [hP.2]
    exact h.keeps enters
  split at hP
  · rw [hP.1]
    exact h.keeps enters
  split at hP
  · next hcreat =>
    obtain ⟨r', hC, -⟩ := hP
    exact hC.keeps h (htake hcreat.2)
  · rw [hP.2]
    exact h.keeps enters

namespace Mount

variable {m : Mount} {Q : View → Prop}

theorem missingAt_of_resolve (m : Mount) (h : Vol m.sb (m.sb.view d) G T up)
    (hres : resolve (m.sb.view d) up T resolveTarget user path = .ok info) (hmiss : info.leafFound = false) :
    MissingAt m.sb m.env d user path info.parentInodeNum info.leafName := by
  have hread := m.reads_mofsResolvePath h resolveTarget rfl rfl user path
  rw [hres] at hread
  exact ⟨info, d, hread.exec_eq rfl, hmiss, rfl, rfl⟩

theorem runs_posixCall (h : m.Runs (posixBody m.sb user P op) V (fun _ W => Q W)) :
    m.Runs (posixCall m.sb user P op) V (fun _ W => Q W) := by
  rw [posixCall]
  refine (h.attempt (R := fun _ W => Q W) fun _ _ hW => hW).bind (fun r W hW => ?_) fun _ _ hW => hW
  cases r with
  | error e => exact Runs.pure hW
  | ok x => exact Runs.pure hW

/-- A call that only reads. -/
theorem runs_quiet (hp : ReadOnly (posixBody m.sb user P op)) (hQ : Q V) :
    m.Runs (posixBody m.sb user P op) V (fun _ W => Q W) :=
  (runs_readOnly hp).mono fun _ _ hW => hW ▸ hQ

theorem runs_bcacheFlush (m : Mount) (V : View) : m.Runs bcacheFlush V (fun _ W => W = V) := fun d hd r d' h => by
  cases h
  exact hd

theorem runs_mofsPread (m : Mount) (h : Vol m.sb V G T up) (user : User) (P : Pools) (k size : Nat) (offset : Int) :
    m.Runs (mofsPread m.sb user P k size offset) V (fun r W => DataPost m.sb V W G T up (P.files k).inodeNum r) := by
  rw [mofsPread]
  split
  · exact Runs.throw (.inl ⟨⟨_, rfl⟩, rfl⟩)
  refine (m.runs_mofsReadCore h user (P.files k) size offset true).bind ?_ fun _ _ hW => hW.of_error
  rintro ⟨r, hd⟩ W hW
  cases r with
  | error e => exact Runs.pure (.inr hW.onFile)
  | ok bytes => exact Runs.pure (.inr hW.onFile)

theorem runs_mofsPwrite (m : Mount) (h : Vol m.sb V G T up) (user : User) (P : Pools) (k : Nat) (data : List UInt8) (offset : Int) :
    m.Runs (mofsPwrite m.sb user P k data offset) V (fun r W => DataPost m.sb V W G T up (P.files k).inodeNum r) := by
  rw [mofsPwrite]
  split
  · exact Runs.throw (.inl ⟨⟨_, rfl⟩, rfl⟩)
  refine (m.runs_mofsWriteCore h user (P.files k) data offset true).bind ?_ fun _ _ hW => hW.of_error
  rintro ⟨r, hd⟩ W hW
  cases r with
  | error e => exact Runs.pure (.inr hW.onFile)
  | ok n => exact Runs.pure (.inr hW.onFile)

theorem runs_mofsFtruncate (m : Mount) (h : Vol m.sb V G T up) (user : User) (P : Pools) (k : Nat) (length : Int) :
    m.Runs (mofsFtruncate m.sb user P k length) V (fun r W => DataPost m.sb V W G T up (P.files k).inodeNum r) := by
  unfold mofsFtruncate
  dsimp only
  split
  · exact Runs.throw (.inl ⟨⟨_, rfl⟩, rfl⟩)
  split
  · exact Runs.throw (.inl ⟨⟨_, rfl⟩, rfl⟩)
  exact (m.runs_mofsTruncateCore h user _ length).bind (fun _ _ hW => Runs.pure (.inr hW.onFile)) fun _ _ hW => hW.of_error

/-- The calls on the data of a file, through an open handle or any other. -/
theorem runs_fileCall (m : Mount) (h : Vol m.sb V G T up) (user : User) (P : Pools) {k : Fin 64} (hop : op.fileHandle = some k) :
    m.Runs (posixBody m.sb user P op) V (fun r W => DataPost m.sb V W G T up (P.files k).inodeNum r) := by
  cases op with
  | read k' size =>
    obtain rfl : k' = some k := hop
    exact m.runs_mofsPread h user P k size _
  | pread k' size offset =>
    obtain rfl : k' = some k := hop
    exact m.runs_mofsPread h user P k size offset
  | write k' data =>
    obtain rfl : k' = some k := hop
    exact m.runs_mofsPwrite h user P k data _
  | pwrite k' data offset =>
    obtain rfl : k' = some k := hop
    exact m.runs_mofsPwrite h user P k data offset
  | ftruncate k' length =>
    obtain rfl : k' = some k := hop
    exact m.runs_mofsFtruncate h user P k length
  | _ => cases hop

/-- One call keeps a volume whose directories have not grown. -/
theorem runs_posixBody (m : Mount) (h : Ungrown m.sb (m.sb.view d) G T up) (P : Pools) (hfits : Fits m.sb m.env d user op) :
    m.Runs (posixBody m.sb user P op) (m.sb.view d) (fun _ W =>
      Keeps m.sb (m.sb.view d) W T (Enters m.sb m.env d user op)) := by
  have hsame := h.keeps (Enters m.sb m.env d user op)
  -- the new entry of a file or directory
  have htake {path : Path} (hmakes : op.makes = some path) (hnew : op.newPath = some path)
      (hno : ∀ q, ¬ op.RenamesFrom m.sb m.env d user q) (info : PathInfo)
      (hres : resolve (m.sb.view d) up T resolveTarget user path = .ok info) (hmiss : info.leafFound = false) :
      TakesEntry m.sb (m.sb.view d) info.parentInodeNum ∧
        Enters m.sb m.env d user op info.parentInodeNum info.leafName := by
    have hat := m.missingAt_of_resolve h.vol hres hmiss
    exact ⟨(hfits path hnew _ _ hat).resolve_right (hno _), path, hmakes, hat⟩
  -- a call on the data of a file
  have hdata {k : Handle} (hop : op.fileHandle = k) (hnone : k = none → ∃ e, posixBody m.sb user P op = throw e) :
      m.Runs (posixBody m.sb user P op) (m.sb.view d) (fun _ W =>
        Keeps m.sb (m.sb.view d) W T (Enters m.sb m.env d user op)) := by
    cases k with
    | none =>
      obtain ⟨e, he⟩ := hnone rfl
      rw [he]
      exact Runs.throw hsame
    | some k => exact (m.runs_fileCall h.vol user P hop).mono fun _ _ hW => hW.keeps h _
  cases op with
  | stat path => exact runs_quiet ((readOnly_mofsStatCore user path).bind fun _ => .pure _) hsame
  | opendir path => exact runs_quiet ((readOnly_mofsOpendirCore user P.dirs path).bind fun _ => .pure _) hsame
  | closedir k =>
    refine runs_quiet ?_ hsame
    cases k with
    | none => exact .throw _
    | some k =>
      rw [posixBody, mofsClosedirCore]
      exact ReadOnly.bind (by split <;> first | exact .throw _ | exact .pure _) fun _ => .pure _
  | readdir k =>
    refine runs_quiet ?_ hsame
    cases k with
    | none => exact .throw _
    | some k => exact (readOnly_mofsReaddirCore user _).bind fun _ => .pure _
  | close k =>
    refine runs_quiet ?_ hsame
    cases k with
    | none => exact .throw _
    | some k =>
      rw [posixBody, mofsCloseCore]
      exact ReadOnly.bind (by split <;> first | exact .throw _ | exact .pure _) fun _ => .pure _
  | lseek k offset whence =>
    refine runs_quiet ?_ hsame
    cases k with
    | none => exact .throw _
    | some k => exact readOnly_mofsLseek P k offset whence
  | fsync k =>
    cases k with
    | none => exact Runs.throw hsame
    | some k =>
      rw [posixBody]
      split
      · exact Runs.throw hsame
      refine (m.runs_bcacheFlush _).bind ?_ ?_
      · rintro _ W rfl
        exact Runs.pure hsame
      · rintro _ W rfl
        exact hsame
  | read k size => exact hdata rfl (by rintro rfl; exact ⟨_, rfl⟩)
  | pread k size offset => exact hdata rfl (by rintro rfl; exact ⟨_, rfl⟩)
  | write k data => exact hdata rfl (by rintro rfl; exact ⟨_, rfl⟩)
  | pwrite k data offset => exact hdata rfl (by rintro rfl; exact ⟨_, rfl⟩)
  | ftruncate k length => exact hdata rfl (by rintro rfl; exact ⟨_, rfl⟩)
  | truncate path length =>
    refine Runs.after_readOnly (readOnly_mofsPathToInodeNum user path) (fun _ => hsame) fun i => ?_
    exact (m.runs_mofsTruncateCore h.vol user i length).bind (fun _ _ hW => Runs.pure (hW.keeps h _)) fun _ _ hW => hW.keeps h _
  | unlink path =>
    refine (m.ensures_done (m.ensures_mofsUnlinkCore h.vol user path) P).runs.mono ?_
    rintro r W ⟨r', hr', -⟩
    exact hr'.keeps h m.ok _
  | rmdir path =>
    refine (m.ensures_done (m.ensures_mofsRmdirCore h.vol user path) P).runs.mono ?_
    rintro r W ⟨r', hr', -⟩
    exact hr'.keeps h m.ok _
  | mkdir path mode =>
    refine (m.ensures_done (m.ensures_mofsMkdirCore h.vol user path mode) P).runs.mono ?_
    rintro r W ⟨r', hr', -⟩
    exact hr'.keeps h (htake rfl rfl fun _ => id)
  | «open» path flags mode =>
    refine (m.ensures_posixBody_open h.vol user P path flags mode).runs.mono ?_
    rintro r W ⟨r', hr', -⟩
    exact hr'.keeps h fun hcreat => htake (if_pos hcreat) (if_pos hcreat) fun _ => id
  | rename oldPath newPath =>
    refine (m.ensures_done (m.ensures_mofsRenameCore h.vol user oldPath newPath) P).runs.mono ?_
    rintro r W ⟨r', hr', -⟩
    refine hr'.keeps h (fun old new hpaths hmiss => ?_) _
    rcases hfits newPath rfl _ _ (m.missingAt_of_resolve h.vol hpaths.atNew hmiss) with htakes | ⟨info, d', hexec, hp⟩
    · exact .inr htakes
    · have hread := m.reads_mofsResolvePath h.vol resolveExisting rfl rfl user oldPath
      rw [hpaths.atOld] at hread
      cases (hread.exec_eq rfl).symm.trans hexec
      exact .inl hp

theorem posixCall_keeps (m : Mount) (h : Ungrown m.sb (m.sb.view d) G T up) (hfits : Fits m.sb m.env d user op)
    {r : Except Errno (Except Errno Ret × Pools)} (hexec : exec m.env (posixCall m.sb user P op) d = some (r, d')) :
    Keeps m.sb (m.sb.view d) (m.sb.view d') T (Enters m.sb m.env d user op) :=
  runs_posixCall (m.runs_posixBody h P hfits) d rfl _ _ hexec

end Mount

end Step

/-- A call of the core that succeeds and returns nothing, as the POSIX layer makes it. -/
theorem exec_posixCall_done {p : M Unit}
    (hop : posixBody sb user P op = do
      p
      pure (.ok .done, P)) (h : exec env p d = some (.ok (), d')) :
    exec env (posixCall sb user P op) d = some (.ok (.ok .done, P), d') := by
  have hbody : exec env (posixBody sb user P op) d = some (.ok (.ok .done, P), d') := by
    rw [hop]
    exact run_bind_ok h
  rw [posixCall]
  exact run_bind_ok (run_attempt_of hbody)

/-- Handle pools without open handles. -/
def Pools.closed : Pools := ⟨fun _ => .closed, fun _ => .closed⟩

/-- A call that somebody made, with what it returned. -/
structure Event where
  user : User
  op : PosixOp
  res : Except Errno Ret

/-- One call on a mounted volume, which meets `C` in the state it is made in. -/
def CallIn (sb : Superblock) (env : Env) (C : Disk → Pools → User → PosixOp → Prop) (x : Disk × Pools) (e : Event)
    (y : Disk × Pools) : Prop :=
  C x.1 x.2 e.user e.op ∧ exec env (posixCall sb e.user x.2 e.op) x.1 = some (.ok (e.res, y.2), y.1)

section Calls

variable {C : Disk → Pools → User → PosixOp → Prop} {res : Except Errno Ret}

/-- The states of a mounted volume that runs of POSIX calls reach from `t`, each call succeeding or failing, and each
meeting `C` in the state it is made in. -/
def Calls (sb : Superblock) (env : Env) (C : Disk → Pools → User → PosixOp → Prop) (t d : Disk) (P : Pools) : Prop :=
  ∃ tr, Runs (CallIn sb env C) (t, .closed) tr (d, P)

theorem Calls.start : Calls sb env C t t .closed := ⟨[], .start⟩

theorem Calls.call (h : Calls sb env C t d P) (hC : C d P user op)
    (hrun : exec env (posixCall sb user P op) d = some (.ok (res, P'), d')) : Calls sb env C t d' P' := by
  obtain ⟨tr, h⟩ := h
  exact ⟨_, h.next (l := ⟨user, op, res⟩) ⟨hC, hrun⟩⟩

/-- In a run without growing directories every volume reached is well formed, with directories of one block. Without new
entries named by dots in the root it has none there. -/
theorem Calls.ungrown (hok : sb.Ok) (hserves : env.Serves sb)
    (hfresh : Fresh sb (sb.view t)) (hfits : ∀ d P user op, C d P user op → Fits sb env d user op) (h : Calls sb env C t d P) :
    ∃ G T up, Ungrown sb (sb.view d) G T up ∧ ((∀ d P user op, C d P user op →
      ¬ Enters sb env d user op rootInodeNum dot ∧ ¬ Enters sb env d user op rootInodeNum dotdot) → Dotless T) := by
  obtain ⟨tr, h⟩ := h
  refine h.invariant (I := fun x => ∃ G T up, Ungrown sb (sb.view x.1) G T up ∧ ((∀ d P user op, C d P user op →
    ¬ Enters sb env d user op rootInodeNum dot ∧ ¬ Enters sb env d user op rootInodeNum dotdot) → Dotless T)) ?_ ?_
  · rintro x e y ⟨G, T, up, hU, hT⟩ ⟨hC, hrun⟩
    obtain ⟨G', T', up', hkept⟩ := (Mount.mk sb env hok hserves).posixCall_keeps hU (hfits _ _ _ _ hC) hrun
    exact ⟨G', T', up', hkept.ungrown, fun hdots =>
      hkept.dotless (hT hdots) (hdots _ _ _ _ hC).1 (hdots _ _ _ _ hC).2⟩
  · have hscene := hfresh.scene hok fun _ => rootInodeNum
    exact ⟨_, _, _, ⟨hscene.vol, hscene.one⟩, fun _ => dotless_freshSlots⟩

end Calls

section Growth

theorem Chain.data_nil {blk : Nat → Block} {head : Nat} {ds : List Nat} (h : Chain sb blk head [] ds) : ds = [] := by
  obtain ⟨hlinks, -⟩ := h
  cases hlinks
  rfl

/-- A directory that has got a block without its inode knowing: its list begins with a block that is marked free. -/
theorem Grown.not_wf (hV : Wf sb V G) (hi : V.ibit i = true) (hdata : G.data i ≠ []) (hW : Grown sb V W G i) : ¬ ∃ G', Wf sb W G' := by
  rintro ⟨G', hW'⟩
  have hi' : W.ibit i = true := by rw [hW.ibit]; exact hi
  have hchain := hV.chain i hi
  have hchain' := hW'.chain i hi'
  rw [hW.head] at hchain'
  have hnr : (G'.data i).length = (G.data i).length := by rw [← hV.nr i hi, ← hW.nr, hW'.nr i hi']
  cases hns : G.nodes i with
  | nil =>
    rw [hns] at hchain
    exact hdata hchain.data_nil
  | cons b ns =>
    cases hns' : G'.nodes i with
    | nil =>
      rw [hns'] at hchain'
      rw [hchain'.data_nil, List.length_nil] at hnr
      exact hdata (List.eq_nil_of_length_eq_zero hnr.symm)
    | cons b' ns' =>
      rw [hns] at hchain
      rw [hns'] at hchain'
      have hb : b = b' := (Chain.cons_iff.mp hchain).1.symm.trans (Chain.cons_iff.mp hchain').1
      have hown : b ∈ G'.owned i := by
        rw [hb]
        exact hW'.mem_nodes (hns' ▸ List.mem_cons_self)
      obtain ⟨hlow, hlt⟩ := hW'.inData i b hown
      have hbit := (hW'.bits (b - sb.dataRegionStart) (by omega)).mpr ⟨i, by rwa [Nat.add_sub_cancel' hlow]⟩
      rw [hW.freed b (hns ▸ List.mem_cons_self)] at hbit
      cases hbit

theorem Wf.freeData_eq (hV : Wf sb V G) (hW : Wf sb W G) : sb.freeData W = sb.freeData V := by
  rw [Superblock.freeData, Superblock.freeData]
  refine List.filter_congr fun k hk => ?_
  have hlt := List.mem_range.mp hk
  rw [Bool.eq_iff_iff.mpr ((hW.bits k hlt).trans (hV.bits k hlt).symm)]

/-- A file created in a full directory, which grows for it. -/
theorem CreatePost.not_wf {r : Except Errno Nat} {c : Nat} (h : Ungrown sb V G T up) (hok : sb.Ok)
    (hE : Entering sb V T up user path info c) (hfull : none ∉ dirSlots up T info.parentInodeNum)
    (hgrow : sb.canGrow V (G.data info.parentInodeNum).length 1) (hP : CreatePost sb V W G T up user path mode r) :
    ¬ ∃ G', Wf sb W G' := by
  obtain ⟨hp, hl, -⟩ := hE.located h.vol
  have hlen := h.one _ hp
  have hshort := short_of_eq hok hlen
  have hroom : ¬ NoRoom sb V G info.parentInodeNum (dirSlots up T info.parentInodeNum) := by
    rintro (hmax | ⟨-, -, hno⟩)
    · omega
    · exact hno hgrow
  obtain ⟨c, rfl⟩ := (hP.ok_iff h.vol).mpr ⟨info, c, hE, hroom⟩
  obtain ⟨-, e, he⟩ | ⟨info', c', t, -, hE', hadd⟩ := hP.cases
  · cases he
  cases hE.resolved.symm.trans hE'.resolved
  obtain ⟨hlt, -, hc⟩ := hE'.free
  have hpc := hE'.ne h.vol hp
  have hF := Frame.enter h.vol.wf hlt hc (x := newInode 1 ftypeReg user mode t) rfl rfl
  have hgrow' : sb.canGrow (V.enter c' (newInode 1 ftypeReg user mode t)) (G.data info.parentInodeNum).length 1 := hgrow
  rw [AddPost, if_neg (Nat.not_le.mpr hshort), hl, if_neg (by simp), vacant_eq_none.mpr hfull, hlen, Nat.mod_self] at hadd
  simp only [ne_eq, not_true_eq_false, if_false, if_pos hgrow'] at hadd
  refine hadd.2.not_wf hF.wf ?_ fun hnil => ?_
  · rw [View.enter_ibit, Function.update_of_ne hpc]
    exact h.vol.used_of_isDir hp
  · have hE16 := hok.entries_ge
    have hpos := ((h.vol.dirAt hp).lt_blocks_iff hok (b := 0)).mpr (by omega)
    rw [hnil] at hpos
    exact absurd hpos (by simp)

end Growth

section Crowd

variable {m : Mount} {n : Nat}

/-- A path to a name of one letter in the root. -/
def letterPath (k : Fin 64) : Path := ⟨[slash, UInt8.ofNat (65 + k)], by revert k; decide⟩

theorem components_letterPath (k : Fin 64) : components (letterPath k) = [letter k] := by
  revert k
  decide

theorem letter_injective {k l : Nat} (hk : k < 64) (hl : l < 64) (h : letter k = letter l) : k = l := by
  have := congrArg UInt8.toNat (List.cons.inj h).1
  rw [UInt8.toNat_ofNat', UInt8.toNat_ofNat'] at this
  omega

/-- An `open` call that creates a file for which there is a slot. -/
theorem Scene.opens (h : Scene m.sb (m.sb.view d) G T up n) (h3 : 3 ≤ n) (hM : MayEnter m.sb (m.sb.view d) T up user path info n)
    (hvalid : user.valid = true) (hmiss : resolve (m.sb.view d) up T resolveInode user path = .error .enoent)
    (hcreat : flags &&& oflagCreat ≠ 0) (mode : Nat) (P : Pools) :
    ∃ d' T' up', exec m.env (posixCall m.sb user P (.open path flags mode)) d = some (.ok (Mount.posixRet P (Mount.openRet P flags
        ((openChecks flags user ((m.sb.view d').inode n)).map fun _ => n))), d') ∧
      Scene m.sb (m.sb.view d') G T' up' (n + 1) ∧
      Entered (m.sb.view d) (m.sb.view d') T T' up up' info.parentInodeNum n info.leafName ∧
      ∃ t, (m.sb.view d').inode n = newInode 1 ftypeReg user mode t := by
  obtain ⟨r, d', hexec, r', ⟨r'', hopen, rfl⟩, rfl⟩ :=
    (m.ensures_posixCall (.open path flags mode) (m.ensures_posixBody_open h.vol user P path flags mode)).exists rfl
  rw [OpenPost, hvalid, if_neg (by simp), hmiss] at hopen
  dsimp only at hopen
  rw [if_pos ⟨rfl, hcreat⟩] at hopen
  obtain ⟨r', hpost, rfl⟩ := hopen
  obtain ⟨rfl, j, hC⟩ := hpost.succeeds h.vol m.ok hM
  obtain ⟨T', up', hS, hE, ht⟩ := h.created h3 hM hC
  exact ⟨d', T', up', hexec, hS, hE, ht⟩

/-- The root has `n` files made by its owner and no directories, and the letters from the `k`th on are not in use. -/
structure Crowd (m : Mount) (t d : Disk) (G : Owners) (T : Nat → List Slot) (up : Nat → Nat) (n k : Nat) : Prop where
  scene : Scene m.sb (m.sb.view d) G T up (3 + n)
  names : ∀ l, k ≤ l → l < 64 → lookup (dirSlots up T rootInodeNum) (letter l) = none
  perm : SamePerm ((m.sb.view t).inode rootInodeNum) ((m.sb.view d).inode rootInodeNum)
  only : ∀ i, ((m.sb.view d).inode i).isDir = true → i = rootInodeNum

theorem Fresh.crowd (h : Fresh m.sb (m.sb.view t)) (up : Nat → Nat) : Crowd m t t (freshOwners m.sb) (freshSlots m.sb) up 0 0 := by
  have hscene := h.scene m.ok up
  exact ⟨hscene, fun l _ _ => Fresh.lookup_eq_none _, .refl _, fun i hi => h.used (hscene.vol.used_of_isDir hi)⟩

namespace Crowd

variable {k : Fin 64}

/-- The next letter is missing in the root. -/
theorem missing (h : Crowd m t d G T up n k) :
    resolve (m.sb.view d) up T resolveInode (rootUser (m.sb.view t)) (letterPath k) = .error .enoent ∧
    resolve (m.sb.view d) up T resolveTarget (rootUser (m.sb.view t)) (letterPath k) =
      .ok ⟨rootInodeNum, noInode, false, letter k⟩ := by
  have hlen : (letter k).length < filenameLen := show 1 < filenameLen by decide
  refine ⟨?_, ?_⟩
  · rw [resolve_one rfl rfl (components_letterPath k), leafIn_eq hlen (if_pos rfl), h.names k (Nat.le_refl _) k.2]
    rfl
  · rw [resolve_one rfl rfl (components_letterPath k), leafIn_eq hlen (if_pos rfl), h.names k (Nat.le_refl _) k.2]
    rfl

theorem entering (h : Crowd m t d G T up n k) (hfresh : Fresh m.sb (m.sb.view t)) (hlt : 3 + n < m.sb.inodeNum) :
    Entering m.sb (m.sb.view d) T up (rootUser (m.sb.view t)) (letterPath k) ⟨rootInodeNum, noInode, false, letter k⟩ (3 + n) :=
  h.scene.entering h.missing.2 rfl (hfresh.rootWritable h.perm) (Nat.le_add_right _ _) hlt

theorem missingAt_eq (h : Crowd m t d G T up n k) (hmiss : MissingAt m.sb m.env d (rootUser (m.sb.view t)) (letterPath k) q name) :
    q = rootInodeNum ∧ name = letter k := by
  obtain ⟨info, d', hres, -, rfl, rfl⟩ := hmiss
  have hread := m.reads_mofsResolvePath h.scene.vol resolveTarget rfl rfl (rootUser (m.sb.view t)) (letterPath k)
  rw [h.missing.2] at hread
  cases (hread.exec_eq rfl).symm.trans hres
  exact ⟨rfl, rfl⟩

/-- The next file fits in the root. -/
theorem fits (h : Crowd m t d G T up n k) (hn : n < entriesPerBlk m.sb) (flags mode : Nat) :
    Fits m.sb m.env d (rootUser (m.sb.view t)) (.open (letterPath k) flags mode) := by
  intro path hpath q name hmiss
  have hvol := h.scene.vol
  obtain rfl : letterPath k = path := by
    simp only [PosixOp.newPath, PosixOp.makes] at hpath
    split at hpath
    · exact Option.some.inj hpath
    · cases hpath
  obtain ⟨rfl, -⟩ := h.missingAt_eq hmiss
  refine .inl (.inl ((hasVacancy_iff hvol hvol.rootDir).mpr (List.mem_append_right _ (h.scene.vacant hvol.rootDir ?_))))
  rw [lead_root, List.length_nil]
  omega

theorem enters_eq (h : Crowd m t d G T up n k)
    (henters : Enters m.sb m.env d (rootUser (m.sb.view t)) (.open (letterPath k) flags mode) q name) : name = letter k := by
  obtain ⟨path, hpath, hmiss⟩ := henters
  simp only [PosixOp.makes] at hpath
  split at hpath
  · cases hpath
    exact (h.missingAt_eq hmiss).2
  · cases hpath

/-- One more file. -/
theorem add (h : Crowd m t d G T up n k) (hfresh : Fresh m.sb (m.sb.view t)) (hlt : 3 + n < m.sb.inodeNum)
    (hn : n < entriesPerBlk m.sb) (hcreat : flags &&& oflagCreat ≠ 0) (mode : Nat) (P : Pools) :
    ∃ d' T' up', exec m.env (posixCall m.sb (rootUser (m.sb.view t)) P (.open (letterPath k) flags mode)) d =
        some (.ok (Mount.posixRet P (Mount.openRet P flags
          ((openChecks flags (rootUser (m.sb.view t)) ((m.sb.view d').inode (3 + n))).map fun _ => 3 + n))), d') ∧
      Crowd m t d' G T' up' (n + 1) (k + 1) ∧ Entered (m.sb.view d) (m.sb.view d') T T' up up' rootInodeNum (3 + n) (letter k) ∧
      ∃ s, (m.sb.view d').inode (3 + n) = newInode 1 ftypeReg (rootUser (m.sb.view t)) mode s := by
  have hM := h.scene.mayEnter m.ok h.missing.2 rfl (hfresh.rootWritable h.perm) (Nat.le_add_right _ _) hlt
    (by rw [lead_root, List.length_nil]; omega)
  obtain ⟨d', T', up', hexec, hS, hE, s, hs⟩ := h.scene.opens (Nat.le_add_right _ _) hM rfl h.missing.1 hcreat mode P
  have hr : rootInodeNum ≠ 3 + n := by simp only [rootInodeNum]; omega
  refine ⟨d', T', up', hexec, ⟨hS, fun l hl hl64 => ?_, h.perm.trans (hE.perm _ hr), fun i hi => ?_⟩, hE, s, hs⟩
  · rw [hE.names _ hr, if_neg fun hc => ?_]
    · exact h.names l (by omega) hl64
    · have := letter_injective hl64 k.2 hc.2
      omega
  · by_cases hin : i = 3 + n
    · rw [hin, hs, newInode_isDir 1 (by decide)] at hi
      exact absurd hi (by decide)
    · exact h.only i ((hE.perm i hin).isDir ▸ hi)

/-- With as many files as slots the root is full. -/
theorem full {k : Nat} (h : Crowd m t d G T up n k) (hn : entriesPerBlk m.sb = n) : none ∉ dirSlots up T rootInodeNum := by
  have hvol := h.scene.vol
  have hlen := h.scene.one _ hvol.rootDir
  -- every file is an entry of the root
  have hkids : List.range' 3 n ⊆ kids T rootInodeNum := by
    intro c hc
    rw [List.mem_range'_1] at hc
    have hcr : c ≠ rootInodeNum := by simp only [rootInodeNum]; omega
    have hused : (m.sb.view d).ibit c = true := by
      rw [h.scene.ibit]
      exact decide_eq_true ⟨by simp only [rootInodeNum]; omega, by omega⟩
    have hmem := (hvol.tree.parent c hused hcr).2
    rwa [h.only _ (hvol.up_isDir hused hcr)] at hmem
  have hnodup : (List.range' 3 n).Nodup := List.nodup_range'
  have hcount := (hnodup.subperm hkids).length_le
  rw [List.length_range', kids, List.length_map] at hcount
  rw [dirSlots, lead_root, List.nil_append] at hlen ⊢
  intro hnone
  have := List.reduceOption_length_lt_iff.mpr hnone
  rw [entries] at hcount
  omega

end Crowd

/-- The owner of the root of a fresh volume creates files in it, one for each letter. -/
theorem Fresh.crowds (hfresh : Fresh m.sb (m.sb.view t)) (k : Nat) (hk : k ≤ entriesPerBlk m.sb) (h64 : k ≤ 64)
    (hlt : k + 3 ≤ m.sb.inodeNum) :
    ∃ d T up P, Calls m.sb m.env (fun _ _ _ _ => True) t d P ∧ Crowd m t d (freshOwners m.sb) T up k k := by
  induction k with
  | zero => exact ⟨t, _, _, _, .start, hfresh.crowd fun _ => rootInodeNum⟩
  | succ k ih =>
    obtain ⟨d, T, up, P, hcalls, hcrowd⟩ := ih (by omega) (by omega) (by omega)
    obtain ⟨d', T', up', hexec, hcrowd', -⟩ := Crowd.add (k := ⟨k, by omega⟩) hcrowd hfresh (show 3 + k < _ by omega)
      (show k < _ by omega) (show oflagCreat &&& oflagCreat ≠ 0 by decide) 0 P
    exact ⟨d', T', up', _, hcalls.call trivial hexec, hcrowd'⟩

end Crowd

/-- Block ownership over whole runs: as long as no directory has to grow, the lists of all inodes in use are sound, their
blocks are all different, and the data bitmap marks exactly these blocks. -/
theorem blocks_owned_of_fits (hboot : Booted sb env t) (h3 : rootInodeNum < sb.inodeNum) (h25 : sb.inodeNum < 33554432)
    (hrun : Calls sb env (fun d _ user op => Fits sb env d user op) t d P) : ∃ G, Wf sb (sb.view d) G := by
  obtain ⟨hok, hserves, hfresh⟩ := hboot.fresh h3 h25
  obtain ⟨G, T, up, hU, -⟩ := hrun.ungrown hok hserves hfresh fun _ _ _ _ h => h
  exact ⟨G, hU.vol.wf⟩

/-- A file created in the root. -/
theorem blocks_owned_of_fits_fileA : ∃ (sb : Superblock) (env : Env) (t d : Disk) (P : Pools), Booted sb env t ∧
    rootInodeNum < sb.inodeNum ∧ sb.inodeNum < 33554432 ∧ Calls sb env (fun d _ user op => Fits sb env d user op) t d P ∧
    (sb.view d).ibit 3 = true ∧ ∃ G, Wf sb (sb.view d) G := by
  obtain ⟨m, t, hboot, hfresh, hnum, hent, -⟩ := exists_fresh
  have h3 : rootInodeNum < m.sb.inodeNum := by rw [hnum]; decide
  have h25 : m.sb.inodeNum < 33554432 := by rw [hnum]; decide
  have hcrowd : Crowd m t t _ _ _ 0 (0 : Fin 64) := hfresh.crowd fun _ => rootInodeNum
  obtain ⟨d, T, up, hexec, hcrowd', -⟩ := hcrowd.add hfresh (show 3 + 0 < _ by omega) (show 0 < _ by omega)
    (show oflagCreat &&& oflagCreat ≠ 0 by decide) 0 Pools.closed
  have hfits := hcrowd.fits (show 0 < _ by omega) oflagCreat 0
  have hrun : Calls m.sb m.env (fun d _ user op => Fits m.sb m.env d user op) t d _ := Calls.start.call hfits hexec
  refine ⟨m.sb, m.env, t, d, _, hboot, h3, h25, hrun, ?_, blocks_owned_of_fits hboot h3 h25 hrun⟩
  rw [hcrowd'.scene.ibit]
  decide

/-- The seventeenth file in the root of a volume with sixteen entries to a block: the root grows, and the data bitmap is
wrong from then on. -/
theorem blocks_not_owned : ∃ (sb : Superblock) (env : Env) (t d : Disk) (P : Pools), Booted sb env t ∧
    rootInodeNum < sb.inodeNum ∧ sb.inodeNum < 33554432 ∧ Calls sb env (fun _ _ _ _ => True) t d P ∧
    ¬ ∃ G, Wf sb (sb.view d) G := by
  obtain ⟨m, t, hboot, hfresh, hnum, hent, -, hgrow⟩ := exists_fresh
  obtain ⟨d, T, up, P, hcalls, hcrowd⟩ := hfresh.crowds 16 (by omega) (by decide) (by omega)
  have hE := Crowd.entering (k := 16) hcrowd hfresh (show 3 + 16 < _ by omega)
  obtain ⟨hmiss, -⟩ := Crowd.missing (k := 16) hcrowd
  have hroom : m.sb.canGrow (m.sb.view d) ((freshOwners m.sb).data rootInodeNum).length 1 := by
    rw [Superblock.canGrow, (hfresh.wf m.ok).freeData_eq hcrowd.scene.vol.wf]
    exact hgrow
  obtain ⟨r, d', hexec, r', ⟨r'', hopen, rfl⟩, rfl⟩ := (m.ensures_posixCall (.open (letterPath 16) oflagCreat 0)
    (m.ensures_posixBody_open hcrowd.scene.vol (rootUser (m.sb.view t)) P (letterPath 16) oflagCreat 0)).exists rfl
  rw [OpenPost, if_neg (show ¬ (rootUser (m.sb.view t)).valid = false from Bool.noConfusion), hmiss] at hopen
  dsimp only at hopen
  rw [if_pos ⟨rfl, by decide⟩] at hopen
  obtain ⟨r', hpost, -⟩ := hopen
  exact ⟨m.sb, m.env, t, d', _, hboot, by rw [hnum]; decide, by rw [hnum]; decide, hcalls.call trivial hexec,
    hpost.not_wf ⟨hcrowd.scene.vol, hcrowd.scene.one⟩ m.ok hE (hcrowd.full hent) hroom⟩

end Mofs
