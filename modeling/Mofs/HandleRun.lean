import Mofs.CallRun
import Mofs.Isolation

namespace Mofs

open Effect Bytes Slots Mofs.Tree Simulation

variable {α β : Type} {sb : Superblock} {env : Env} {t d d' : Disk} {V W : View} {G H : Owners} {T : Nat → List Slot} {up : Nat → Nat}
  {user : User} {path : Path} {P P' : Pools} {op : PosixOp} {res : Except Errno Ret} {alive : Nat → Bool} {i q : Nat} {info : PathInfo}

section Pools

/-- The call has returned the new file handle `k`. -/
def PosixOp.opened (k : Nat) : PosixOp → Except Errno Ret → Bool
  | .open _ _ _, .ok (.handle j) => decide (k = j)
  | _, _ => false

/-- What one call does to the file handles: a handle in use is the one just opened, or was in use before for the same inode. -/
def PoolStep (P P' : Pools) (op : PosixOp) (res : Except Errno Ret) : Prop :=
  ∀ k, (P'.files k).used = true → op.opened k res = true ∨
    (P.files k).used = true ∧ (P'.files k).inodeNum = (P.files k).inodeNum

/-- The handle `h'` is for the same inode as `h`. -/
def SameTarget (h h' : FileHandle) : Prop := h'.used = h.used ∧ h'.inodeNum = h.inodeNum

theorem PoolStep.of_files (h : P'.files = P.files) : PoolStep P P' op res := fun k hk => by
  rw [h] at hk ⊢
  exact .inr ⟨hk, rfl⟩

theorem PoolStep.setFile {k : Nat} {h : FileHandle} (hh : h.used = true → SameTarget (P.files k) h) :
    PoolStep P (P.setFile k h) op res := fun j hj => by
  have hset : (P.setFile k h).files j = Function.update P.files k h j := rfl
  rw [hset] at hj ⊢
  by_cases hjk : j = k
  · subst hjk
    rw [Function.update_self] at hj ⊢
    obtain ⟨hu, hi⟩ := hh hj
    exact .inr ⟨hu ▸ hj, hi⟩
  · rw [Function.update_of_ne hjk] at hj ⊢
    exact .inr ⟨hj, rfl⟩

/-- Every value that the program can return is in `R`. -/
def Returns (R : α → Prop) (p : M α) : Prop := Uses (fun _ => True) R p

namespace Returns

variable {p : M α} {f : α → M β} {R : β → Prop}

theorem after (hf : ∀ a, Returns R (f a)) : Returns R (p >>= f) := uses_bind (uses_any p) fun a _ => hf a

theorem bind {R' : α → Prop} (hp : Returns R' p) (hf : ∀ a, R' a → Returns R (f a)) : Returns R (p >>= f) := uses_bind hp hf

theorem pure {b : β} (h : R b) : Returns R (pure b : M β) := uses_pure h

theorem throw (e : Errno) : Returns R (throw e : M β) := trivial

end Returns

theorem returns_mofsReadCore (user : User) (h : FileHandle) (size : Nat) (offset : Int) (upd : Bool) :
    Returns (fun x => SameTarget h x.2) (mofsReadCore sb user h size offset upd) := by
  have hmoved (o : Nat) : SameTarget h (if upd = true then { h with fileOffset := o } else h) := by
    split
    · exact ⟨rfl, rfl⟩
    · exact ⟨rfl, rfl⟩
  rw [mofsReadCore]
  split
  · exact .throw _
  split
  · exact .throw _
  refine .after fun x => .after fun _ => .after fun _ => ?_
  split
  · exact .throw _
  refine .after fun r => ?_
  dsimp only
  split
  · refine .after fun s => ?_
    split
    · exact .pure (hmoved _)
    · exact .pure (hmoved _)
  · exact .pure (hmoved _)

theorem returns_mofsWriteCore (user : User) (h : FileHandle) (data : List UInt8) (offset : Int) (upd : Bool) :
    Returns (fun x => SameTarget h x.2) (mofsWriteCore sb user h data offset upd) := by
  rw [mofsWriteCore]
  split
  · exact .throw _
  split
  · exact .throw _
  refine .after fun x => .after fun _ => .after fun _ => ?_
  split
  · exact .throw _
  dsimp only
  split
  · exact .throw _
  refine .after ?_
  rintro ⟨r, written⟩
  refine .pure ?_
  split
  · exact ⟨rfl, rfl⟩
  · exact ⟨rfl, rfl⟩

theorem returns_mofsPread (user : User) (P : Pools) (k size : Nat) (offset : Int) (op : PosixOp) :
    Returns (fun x => PoolStep P x.2 op x.1) (mofsPread sb user P k size offset) := by
  rw [mofsPread]
  split
  · exact .throw _
  refine (returns_mofsReadCore user (P.files k) size offset true).bind ?_
  rintro ⟨r, h⟩ hh
  cases r with
  | error e => exact .pure (.setFile fun _ => hh)
  | ok bytes => exact .pure (.setFile fun _ => hh)

theorem returns_mofsPwrite (user : User) (P : Pools) (k : Nat) (data : List UInt8) (offset : Int) (op : PosixOp) :
    Returns (fun x => PoolStep P x.2 op x.1) (mofsPwrite sb user P k data offset) := by
  rw [mofsPwrite]
  split
  · exact .throw _
  refine (returns_mofsWriteCore user (P.files k) data offset true).bind ?_
  rintro ⟨r, h⟩ hh
  cases r with
  | error e => exact .pure (.setFile fun _ => hh)
  | ok n => exact .pure (.setFile fun _ => hh)

theorem returns_mofsCloseCore (h : FileHandle) : Returns (fun h' => h'.used = false) (mofsCloseCore h) := by
  rw [mofsCloseCore]
  split
  · exact .throw _
  · exact .pure rfl

/-- A new handle takes an unused place. -/
theorem returns_mofsOpenCore (user : User) (pool : Nat → FileHandle) (path : Path) (flags mode : Nat) :
    Returns (fun x => ∃ h, x.2 = Function.update pool x.1 h) (mofsOpenCore sb user pool path flags mode) := by
  refine .after fun i => ?_
  split
  · exact .throw _
  · exact .pure ⟨_, rfl⟩

theorem returns_posixBody (user : User) (P : Pools) (op : PosixOp) :
    Returns (fun x => PoolStep P x.2 op x.1) (posixBody sb user P op) := by
  match op with
  | .closedir none | .readdir none | .close none | .read none _ | .pread none _ _ | .write none _ | .pwrite none _ _
  | .lseek none _ _ | .ftruncate none _ | .fsync none => exact .throw _
  | .stat _ | .opendir _ | .closedir (some _) | .readdir (some _) | .unlink _ | .mkdir _ _ | .rmdir _ | .rename _ _ =>
    exact .after fun _ => .pure (.of_files rfl)
  | .truncate _ _ => exact .after fun _ => .after fun _ => .pure (.of_files rfl)
  | .open path flags mode =>
    refine (returns_mofsOpenCore user P.files path flags mode).bind ?_
    rintro ⟨k, files⟩ ⟨h, hh⟩
    refine .pure fun j hj => ?_
    obtain rfl : files = Function.update P.files k h := hh
    by_cases hjk : j = k
    · exact .inl (decide_eq_true hjk)
    · dsimp only at hj ⊢
      rw [Function.update_of_ne hjk] at hj ⊢
      exact .inr ⟨hj, rfl⟩
  | .close (some k) =>
    refine (returns_mofsCloseCore (P.files k)).bind fun h hh => .pure (.setFile fun hu => ?_)
    rw [hh] at hu
    cases hu
  | .read (some k) size => exact returns_mofsPread user P k size _ _
  | .pread (some k) size offset => exact returns_mofsPread user P k size offset _
  | .write (some k) data => exact returns_mofsPwrite user P k data _ _
  | .pwrite (some k) data offset => exact returns_mofsPwrite user P k data offset _
  | .lseek (some k) offset whence =>
    rw [posixBody]
    unfold mofsLseek
    dsimp only
    split
    · exact .throw _
    refine .after fun base => ?_
    split
    · exact .throw _
    · exact .pure (.setFile fun _ => ⟨rfl, rfl⟩)
  | .ftruncate (some k) length =>
    rw [posixBody]
    unfold mofsFtruncate
    dsimp only
    split
    · exact .throw _
    split
    · exact .throw _
    · exact .after fun _ => .pure (.of_files rfl)
  | .fsync (some k) =>
    rw [posixBody]
    split
    · exact .throw _
    · exact .after fun _ => .pure (.of_files rfl)

theorem poolStep_of_exec (h : exec env (posixCall sb user P op) d = some (.ok (res, P'), d')) : PoolStep P P' op res := by
  have hcall : Returns (fun x => PoolStep P x.2 op x.1) (posixCall sb user P op) := by
    rw [posixCall]
    refine .bind (uses_attempt (returns_posixBody user P op)) fun r hr => ?_
    cases r with
    | error e => exact .pure (.of_files rfl)
    | ok x => exact .pure (hr x rfl)
  exact value_of_uses (P := fun x : Except Errno Ret × Pools => PoolStep P x.2 op x.1) hcall h

end Pools

section Alike

namespace Mount

variable {m : Mount} {p : M α} {f : α → M β}

/-- The program returns the same from both volumes. -/
def Alike (m : Mount) (p : M α) (V W : View) : Prop :=
  ∃ r, m.Ensures p V (fun r' _ => r' = r) ∧ m.Ensures p W (fun r' _ => r' = r)

theorem Alike.pure (a : α) : m.Alike (pure a) V W := ⟨_, Ensures.pure rfl, Ensures.pure rfl⟩

theorem Alike.throw (e : Errno) : m.Alike (throw e : M α) V W := ⟨_, Ensures.throw rfl, Ensures.throw rfl⟩

/-- After a part that has read the same from both volumes. -/
theorem Alike.after {r : Except Errno α} (hV : m.Reads p V r) (hW : m.Reads p W r)
    (hf : ∀ a, r = .ok a → m.Alike (f a) V W) : m.Alike (p >>= f) V W := by
  cases r with
  | error e => exact ⟨.error e, (Reads.bind_error hV).ensures rfl, (Reads.bind_error hW).ensures rfl⟩
  | ok a =>
    obtain ⟨r, hfV, hfW⟩ := hf a rfl
    exact ⟨r, Ensures.bind_reads hV hfV, Ensures.bind_reads hW hfW⟩

theorem Ensures.eq_bind_pure {g : α → β} {r : Except Errno α} (h : m.Ensures p V (fun r' _ => r' = r))
    (hf : ∀ a, f a = Pure.pure (g a)) : m.Ensures (p >>= f) V (fun r' _ => r' = r.map g) := by
  refine h.bind (fun a W ha => ?_) fun e W he => ?_
  · rw [hf, ← ha]
    exact Ensures.pure rfl
  · rw [← he]
    rfl

/-- What the program makes of its result does not depend on the volume. -/
theorem Alike.bind_pure {g : α → β} (h : m.Alike p V W) (hf : ∀ a, f a = Pure.pure (g a)) : m.Alike (p >>= f) V W := by
  obtain ⟨r, hV, hW⟩ := h
  exact ⟨_, hV.eq_bind_pure hf, hW.eq_bind_pure hf⟩

theorem Alike.attempt (h : m.Alike p V W) : m.Alike (attempt p) V W := by
  obtain ⟨r, hV, hW⟩ := h
  exact ⟨.ok r, Ensures.attempt hV fun r' _ hr => by rw [hr], Ensures.attempt hW fun r' _ hr => by rw [hr]⟩

/-- A read through a handle returns the same from two volumes that agree on the file. -/
theorem alike_mofsReadCore (m : Mount) (user : User) (hd : FileHandle) (size : Nat) (offset : Int) (upd : Bool)
    (hV : Wf m.sb V G) (hi : V.ibit hd.inodeNum = true) (hW : Intact m.sb V W G hd.inodeNum) :
    m.Alike (mofsReadCore m.sb user hd size offset upd) V W := by
  have hlt := hV.range _ hi
  have hread := m.reads_mofsReadInode W hlt
  rw [hW.inode] at hread
  rw [mofsReadCore]
  split
  · exact .throw _
  split
  · exact .throw _
  refine .after (m.reads_mofsReadInode V hlt) hread ?_
  rintro x hx
  cases hx
  refine .after (m.reads_requireUser V user) (m.reads_requireUser W user) fun _ _ => ?_
  refine .after (Reads.ofExcept _) (Reads.ofExcept _) fun _ _ => ?_
  split
  · exact .throw _
  obtain ⟨r, hrV, hrW⟩ := hW.readsAlike hV hi (u32 (offset.toNat / m.sb.blkSize))
    (u32 ((offset.toNat % m.sb.blkSize + size + m.sb.blkSize - 1) / m.sb.blkSize))
  refine .after hrV hrW fun a _ => ?_
  dsimp only
  have hnum (o : Nat) : (if upd = true then { hd with fileOffset := o } else hd).inodeNum = hd.inodeNum := by
    split <;> rfl
  rw [hnum]
  split
  · have hstamp (U : View) : m.Ensures (mofsInodeStampPersist m.sb hd.inodeNum timeAtime) U (fun r' _ => r' = .ok ()) :=
      m.ensures_mofsInodeStampPersist hlt (by decide) fun _ => rfl
    have hboth : m.Alike (mofsInodeStampPersist m.sb hd.inodeNum timeAtime) V W := ⟨_, hstamp V, hstamp W⟩
    generalize slice (flatten m.sb a.buf) (offset.toNat % m.sb.blkSize) (readSize m.sb size offset.toNat a) = bytes
    generalize (if upd = true then { hd with fileOffset := u32 (offset.toNat + readSize m.sb size offset.toNat a) } else hd) = hd'
    refine hboth.attempt.bind_pure (g := fun r => (r.map fun _ => bytes, hd')) fun r => ?_
    cases r with
    | error e => rfl
    | ok u => rfl
  · exact .pure _

theorem alike_mofsPread (m : Mount) (user : User) (P : Pools) (k size : Nat) (offset : Int) (hV : Wf m.sb V G)
    (hi : V.ibit (P.files k).inodeNum = true) (hW : Intact m.sb V W G (P.files k).inodeNum) :
    m.Alike (mofsPread m.sb user P k size offset) V W := by
  rw [mofsPread]
  split
  · exact .throw _
  refine (m.alike_mofsReadCore user (P.files k) size offset true hV hi hW).bind_pure
    (g := fun x => (x.1.map Ret.bytes, P.setFile k x.2)) ?_
  rintro ⟨r, h⟩
  cases r with
  | error e => rfl
  | ok bytes => rfl

end Mount

end Alike

/-- The calls that read from a file. -/
def PosixOp.reads : PosixOp → Bool
  | .read _ _ => true
  | .pread _ _ _ => true
  | _ => false

theorem Mount.alike_posixCall (m : Mount) {k : Fin 64} (hop : op.fileHandle = some k) (hreads : op.reads = true) (user : User)
    (P : Pools) (hV : Wf m.sb V G) (hi : V.ibit (P.files k).inodeNum = true) (hW : Intact m.sb V W G (P.files k).inodeNum) :
    m.Alike (posixCall m.sb user P op) V W := by
  have hbody : m.Alike (posixBody m.sb user P op) V W := by
    cases op with
    | read k' size =>
      obtain rfl : k' = some k := hop
      exact m.alike_mofsPread user P k size _ hV hi hW
    | pread k' size offset =>
      obtain rfl : k' = some k := hop
      exact m.alike_mofsPread user P k size offset hV hi hW
    | _ => cases hreads
  rw [posixCall]
  refine hbody.attempt.bind_pure (g := Mount.posixRet P) fun r => ?_
  cases r with
  | error e => rfl
  | ok x => rfl

section Run

/-- Whether the file that handle `k` was opened on still exists after a call: not if it was gone before, or is now. -/
def stillThere (V : View) (P' : Pools) (op : PosixOp) (res : Except Errno Ret) (alive : Nat → Bool) (k : Nat) : Bool :=
  op.opened k res || alive k && V.ibit (P'.files k).inodeNum

/-- One call as in `CallIn`, which also records for every file handle whether the file it was opened on has existed ever
since. -/
def CallOn (sb : Superblock) (env : Env) (C : Disk → Pools → User → PosixOp → Prop) (x : Disk × Pools × (Nat → Bool)) (e : Event)
    (y : Disk × Pools × (Nat → Bool)) : Prop :=
  CallIn sb env C (x.1, x.2.1) e (y.1, y.2.1) ∧ y.2.2 = stillThere (sb.view y.1) y.2.1 e.op e.res x.2.2

/-- The states that runs of such calls reach from `t`. -/
def Opens (sb : Superblock) (env : Env) (C : Disk → Pools → User → PosixOp → Prop) (t d : Disk) (P : Pools) (alive : Nat → Bool) : Prop :=
  ∃ tr, Runs (CallOn sb env C) (t, .closed, fun _ => false) tr (d, P, alive)

section Opens

variable {C : Disk → Pools → User → PosixOp → Prop}

theorem Opens.start : Opens sb env C t t .closed fun _ => false := ⟨[], .start⟩

theorem Opens.call (h : Opens sb env C t d P alive) (hC : C d P user op)
    (hrun : exec env (posixCall sb user P op) d = some (.ok (res, P'), d')) :
    Opens sb env C t d' P' (stillThere (sb.view d') P' op res alive) := by
  obtain ⟨tr, h⟩ := h
  exact ⟨_, h.next (l := ⟨user, op, res⟩) ⟨⟨hC, hrun⟩, rfl⟩⟩

theorem Opens.calls (h : Opens sb env C t d P alive) : Calls sb env C t d P := by
  obtain ⟨tr, h⟩ := h
  have hstep : ∀ x y e x', y = (x.1, x.2.1) → CallOn sb env C x e x' → ∃ y', CallIn sb env C y e y' ∧ y' = (x'.1, x'.2.1) := by
    rintro x y e x' rfl hcall
    exact ⟨_, hcall.1, rfl⟩
  obtain ⟨_, hruns, rfl⟩ := h.simulates hstep rfl
  exact ⟨tr, hruns⟩

theorem Opens.mono {C' : Disk → Pools → User → PosixOp → Prop} (h : Opens sb env C t d P alive)
    (hC : ∀ d P user op, C d P user op → C' d P user op) : Opens sb env C' t d P alive := by
  obtain ⟨tr, h⟩ := h
  exact ⟨tr, h.mono fun _ _ _ hcall => ⟨⟨hC _ _ _ _ hcall.1.1, hcall.1.2⟩, hcall.2⟩⟩

end Opens

/-- The call may make a new file or directory, and the inode it gets is one that an open handle is for. -/
def Reuses (sb : Superblock) (env : Env) (d : Disk) (P : Pools) (user : User) (op : PosixOp) : Prop :=
  (∃ q name, Enters sb env d user op q name) ∧
    ∃ k, (P.files k).used = true ∧ (sb.freeInodes (sb.view d)).head? = some (P.files k).inodeNum

/-- The call makes no directory grow, and gives no inode number away that an open handle is for. -/
def KeepsHandles (sb : Superblock) (env : Env) (d : Disk) (P : Pools) (user : User) (op : PosixOp) : Prop :=
  Fits sb env d user op ∧ ¬ Reuses sb env d P user op

/-- An inode in use that an open handle is for is the file the handle was opened on. -/
theorem Opens.alive_of_used (hok : sb.Ok) (hserves : env.Serves sb) (hfresh : Fresh sb (sb.view t))
    (h : Opens sb env (KeepsHandles sb env) t d P alive) {k : Nat} (hk : (P.files k).used = true)
    (hi : (sb.view d).ibit (P.files k).inodeNum = true) : alive k = true := by
  obtain ⟨tr, h⟩ := h
  refine (h.invariant (I := fun x => Calls sb env (KeepsHandles sb env) t x.1 x.2.1 ∧ ((x.2.1.files k).used = true →
    (sb.view x.1).ibit (x.2.1.files k).inodeNum = true → x.2.2 k = true)) ?_ ⟨.start, fun hk => by cases hk⟩).2 hk hi
  rintro ⟨d, P, alive⟩ ⟨user, op, res⟩ ⟨d', P', alive'⟩ ⟨hcalls, ih⟩ ⟨⟨hC, hrun⟩, halive⟩
  dsimp only at ih hC hrun halive ⊢
  refine ⟨hcalls.call hC hrun, fun hk hi => ?_⟩
  obtain ⟨G, T, up, hU, -⟩ := hcalls.ungrown hok hserves hfresh fun _ _ _ _ hC => hC.1
  obtain ⟨G', T', up', hkept⟩ := (Mount.mk sb env hok hserves).posixCall_keeps hU hC.1 hrun
  rw [halive, stillThere, Bool.or_eq_true, Bool.and_eq_true]
  rcases poolStep_of_exec hrun k hk with hopen | ⟨hused, hsame⟩
  · exact .inl hopen
  refine .inr ⟨ih hused ?_, hi⟩
  rcases hkept.bits _ hi with hbit | ⟨henters, hfirst⟩
  · rwa [hsame] at hbit
  · rw [hsame] at hfirst
    exact absurd ⟨henters, k, hused, hfirst⟩ hC.2

/-- The call works on inode `i` alone: no other inode has another record, list or data than before, and what a read returns
does not depend on them. -/
def ActsOn (sb : Superblock) (env : Env) (d d' : Disk) (user : User) (P P' : Pools) (op : PosixOp) (res : Except Errno Ret)
    (i : Nat) : Prop :=
  ∃ G H, Wf sb (sb.view d) G ∧ Frame sb [i] (sb.view d) (sb.view d') G H ∧
    (op.reads = true → ∀ e, Intact sb (sb.view d) (sb.view e) G i →
      ∃ e', exec env (posixCall sb user P op) e = some (.ok (res, P'), e'))

theorem Mount.fileCall_acts (m : Mount) (h : Vol m.sb (m.sb.view d) G T up) {k : Fin 64} (hop : op.fileHandle = some k)
    (hexec : exec m.env (posixCall m.sb user P op) d = some (.ok (res, P'), d')) :
    ((∃ e, res = .error e) ∧ m.sb.view d' = m.sb.view d) ∨ (m.sb.view d).ibit (P.files k).inodeNum = true ∧
      ActsOn m.sb m.env d d' user P P' op res (P.files k).inodeNum := by
  have hcall : m.Runs (posixCall m.sb user P op) (m.sb.view d) (fun r W => ∃ x : Except Errno Ret × Pools, r = .ok x ∧
      (((∃ e, x.1 = .error e) ∧ W = m.sb.view d) ∨ OnFile m.sb (m.sb.view d) W G T up (P.files k).inodeNum)) := by
    rw [posixCall]
    refine ((m.runs_fileCall h user P hop).attempt (R := fun r W => ∃ x, r = .ok x ∧
      DataPost m.sb (m.sb.view d) W G T up (P.files k).inodeNum x) fun r W hr => ⟨r, rfl, hr⟩).bind ?_ ?_
    · rintro r W ⟨x, hx, hr⟩
      cases hx
      cases r with
      | error e => exact Runs.pure ⟨_, rfl, hr.imp_left fun hfail => ⟨⟨e, rfl⟩, hfail.2⟩⟩
      | ok x => exact Runs.pure ⟨x, rfl, .inr hr.onFile⟩
    · rintro e W ⟨x, hx, -⟩
      cases hx
  obtain ⟨x, hx, hpost⟩ := hcall d rfl _ _ hexec
  cases hx
  rcases hpost with hfail | hF
  · exact .inl hfail
  obtain ⟨H, hframe, -⟩ := hF.vol
  refine .inr ⟨hF.used, G, H, h.wf, hframe, fun hreads e hintact => ?_⟩
  obtain ⟨r, hV, hW⟩ := m.alike_posixCall hop hreads user P h.wf hF.used hintact
  obtain ⟨r', e', hexec', rfl⟩ := hW.exists rfl
  cases hV.of_exec rfl hexec
  exact ⟨e', hexec'⟩

end Run

section Stale

variable {m : Mount} {n k : Nat}

/-- The flags of an `open` call that creates a file to read and write it. -/
def createFlags : Nat := oflagCreat ||| oflagRdwr

/-- A new handle for the first inode behind the root. -/
def firstHandle : FileHandle := ⟨true, 3, 0, createFlags⟩

/-- Everybody may read and write a file with all read and write bits. -/
theorem checkRdwr_all {x : Inode} (hmode : x.iMode.toNat &&& 0o666 = 0o666) (user : User) :
    mofsCheckOpenPermission createFlags user x = .ok () ∧ mofsCheckOpenPermission oflagRdwr user x = .ok () := by
  have hbits {b : Nat} (hb : 0o666 &&& b = b) (h0 : b ≠ 0) : x.iMode.toNat &&& b ≠ 0 := and_ne_zero hmode hb h0
  have hboth : x.iMode.toNat &&& (4 * if user.uid = x.iUid.toNat then 64 else if isCallerInGroup user x.iGid.toNat then 8 else 1) ≠ 0 ∧
      x.iMode.toNat &&& (2 * if user.uid = x.iUid.toNat then 64 else if isCallerInGroup user x.iGid.toNat then 8 else 1) ≠ 0 := by
    split
    · exact ⟨hbits (by decide) (by decide), hbits (by decide) (by decide)⟩
    · split
      · exact ⟨hbits (by decide) (by decide), hbits (by decide) (by decide)⟩
      · exact ⟨hbits (by decide) (by decide), hbits (by decide) (by decide)⟩
  exact ⟨if_pos hboth, if_pos hboth⟩

/-- The unlinking of an empty file marks no block. -/
theorem Mount.ensures_unlinkEmpty (m : Mount) (h : Vol m.sb V G T up) (hres : resolve V up T resolveExisting user path = .ok info)
    (hw : mofsCheckDirWrite user (V.inode info.parentInodeNum) = .ok ()) (hd : (V.inode info.leafInodeNum).isDir = false)
    (hempty : (V.inode info.leafInodeNum).iNrBlocks = 0) :
    m.Ensures (mofsUnlinkCore m.sb user path) V (fun _ W => W.dbit = V.dbit) := by
  have hread := m.reads_mofsResolvePath h resolveExisting rfl rfl user path
  rw [hres] at hread
  obtain ⟨hloc, hvalid, hfound⟩ := Located.of_resolve h.rootDir rfl hres
  have hl := hloc.found
  rw [if_pos (hfound rfl)] at hl
  have hp := h.used_of_isDir hloc.dir
  have hc := h.used_of_mem hloc.dir (mem_of_lookup hl)
  have hr : info.leafInodeNum ≠ rootInodeNum := by
    intro he
    rw [he, h.rootDir] at hd
    cases hd
  have hwrite := m.reads_requireDirWrite (V := V) user (h.wf.range _ hp)
  rw [hw] at hwrite
  have hrem := m.ensures_removeDirEntry h.wf (h.dirAt hloc.dir) hloc.name.ne hloc.name.nul
  simp only [hl] at hrem
  rw [mofsUnlinkCore]
  refine Ensures.bind_reads hread (Ensures.bind_reads (m.reads_validUser hvalid) (Ensures.bind_reads hwrite ?_))
  refine Ensures.bind_reads (m.reads_mofsReadInode V (h.wf.range _ hc)) ?_
  rw [if_neg (by simp [hd]), dropEntry, hempty]
  refine Ensures.bind_ok hrem fun V₁ hV₁ => ?_
  obtain ⟨j, -, hset⟩ := hV₁
  refine (m.ensures_freeInode V₁ (h.three_le hc hr) (h.wf.range _ hc)).mono fun r W hW => ?_
  rw [hW.2]
  exact hset.dbit

/-- The last file of a crowd goes. -/
theorem Crowd.remove {l : Fin 64} (h : Crowd m t d G T up (n + 1) k) (hfresh : Fresh m.sb (m.sb.view t))
    (hl : lookup (dirSlots up T rootInodeNum) (letter l) = some (3 + n)) (hempty : ((m.sb.view d).inode (3 + n)).iNrBlocks = 0)
    (P : Pools) :
    ∃ d' H T', exec m.env (posixCall m.sb (rootUser (m.sb.view t)) P (.unlink (letterPath l))) d = some (.ok (.ok .done, P), d') ∧
      Crowd m t d' H T' up n k ∧ (m.sb.view d').dbit = (m.sb.view d).dbit := by
  have hvol := h.scene.vol
  have hcr : 3 + n ≠ rootInodeNum := by simp only [rootInodeNum]; omega
  have hd : ((m.sb.view d).inode (3 + n)).isDir = false := by
    cases hdir : ((m.sb.view d).inode (3 + n)).isDir with
    | false => rfl
    | true => exact absurd (h.only _ hdir) hcr
  have hres : resolve (m.sb.view d) up T resolveExisting (rootUser (m.sb.view t)) (letterPath l) =
      .ok ⟨rootInodeNum, 3 + n, true, letter l⟩ := by
    have hlen : (letter l).length < filenameLen := show 1 < filenameLen by decide
    rw [resolve_one rfl rfl (components_letterPath l), leafIn_eq hlen (if_pos rfl), hl]
    rfl
  have hw := hfresh.rootWritable h.perm
  obtain ⟨r, d', hexec, hpost⟩ := (m.ensures_mofsUnlinkCore hvol (rootUser (m.sb.view t)) (letterPath l)).exists rfl
  have hdbit := (m.ensures_unlinkEmpty hvol hres hw hd hempty).of_exec rfl hexec
  simp only [UnlinkPost, hres, hw, hd, Bool.false_eq_true, if_false] at hpost
  obtain ⟨rfl, H, hU⟩ := hpost
  obtain ⟨j, hj, hvol'⟩ := hU.vol hvol m.ok hvol.rootDir (kids_nil ((hvol.node _).flat hd))
  have hungrown := Ungrown.of_sizes ⟨hvol, h.scene.one⟩ hvol' fun i hi => hU.sizes hvol hvol.rootDir hi
  refine ⟨d', H, _, exec_posixCall_done rfl hexec, ⟨⟨hvol', fun i => ?_, hungrown.one⟩, fun x hx hx64 => ?_, h.perm.trans hU.perm,
    fun i hi => ?_⟩, hdbit⟩
  · rw [hU.ibit]
    by_cases hi : i = 3 + n
    · rw [hi, Function.update_self]
      exact (decide_eq_false (by omega)).symm
    · rw [Function.update_of_ne hi, h.scene.ibit, decide_eq_decide]
      omega
  · have hdist := ((hvol.node rootInodeNum).dir hvol.rootDir).distinct
    rw [dirSlots, lead_root, List.nil_append] at hdist
    rw [lookup_root, Function.update_of_ne hcr.symm, Function.update_self, hdist.lookup_clear hj]
    split
    · rfl
    · have hroot : lookup (dirSlots up T rootInodeNum) (letter x) = lookup (T rootInodeNum) (letter x) := lookup_root T _
      rw [← hroot]
      exact h.names x hx hx64
  · by_cases hir : i = rootInodeNum
    · exact hir
    · have hic : i ≠ 3 + n := by
        rintro rfl
        rw [hU.inode] at hi
        cases hi
      rw [(hU.frame.same i (by simp [hir, hic])).inode] at hi
      exact h.only i hi

/-- A new file that everybody may read and write can be written through a handle for its inode. -/
theorem Mount.pwrites_byte (m : Mount) (h : Vol m.sb (m.sb.view d) G T up) {creator : User} {s : UInt64} {k : Fin 64}
    (hi : (m.sb.view d).ibit i = true) (hx : (m.sb.view d).inode i = newInode 1 ftypeReg creator 0o666 s)
    (hroom : m.sb.canGrow (m.sb.view d) 0 1) (hvalid : user.valid = true) (hk : P.files k = ⟨true, i, 0, createFlags⟩) :
    ∃ P' d', exec m.env (posixCall m.sb user P (.pwrite (some k) [120] 0)) d = some (.ok (.ok (.count 1), P'), d') ∧
      ((m.sb.view d').inode i).iSize.toNat = 1 := by
  have hmode : ((m.sb.view d).inode i).iMode.toNat &&& 0o666 = 0o666 := by
    rw [hx]
    exact (by decide : (modeBits ftypeReg 0o666).toNat &&& 0o666 = 0o666)
  have hfile : ((m.sb.view d).inode i).isDir = false := by
    rw [hx, newInode_isDir 1 (by decide)]
    decide
  have hsize : ((m.sb.view d).inode i).iSize = 0 := by
    rw [hx]
    rfl
  have hB := m.ok.blk_pos
  have hmax : 0 < mofsMaxFileBytes m.sb := Nat.mul_pos (by decide) hB
  have hnil : (G.data i).length = 0 := by
    rw [h.filesOk.length hi hfile, hsize]
    exact Nat.div_eq_of_lt (by simp only [UInt32.toNat_zero]; omega)
  have hone : m.sb.blocksFor 1 = 1 := by
    rw [Superblock.blocksFor, Nat.add_sub_cancel_left, Nat.div_self hB]
  have hchk : writeChecks m.sb user (P.files k) [(120 : UInt8)].length 0 ((m.sb.view d).inode (P.files k).inodeNum) = .ok () := by
    rw [hk, writeChecks, if_neg (show ¬ (true = false ∨ [(120 : UInt8)].length = 0 ∨ (0 : Int) < 0) by decide),
      if_neg (show ¬ createFlags &&& oflagWronly = 0 by decide), show createFlags &&& oflagAccmode = oflagRdwr by decide,
      accessCheck, if_neg (by simp [hvalid]), (checkRdwr_all hmode user).2]
    simp only [hfile, Bool.false_eq_true, if_false]
    rw [if_neg (by simp only [Int.toNat_zero]; omega)]
  have hfit : [(120 : UInt8)].take (mofsMaxFileBytes m.sb - (0 : Int).toNat) = [120] :=
    List.take_of_length_le (by simp only [List.length_singleton, Int.toNat_zero]; omega)
  have hwrite := m.stores_mofsWriteCore user (P.files k) 0 true h.wf (by rw [hk]; exact hi)
    (h.filesOk.length (by rw [hk]; exact hi) (by rw [hk]; exact hfile)) hchk hfit fun _ => by
      rw [hk]
      simp only [hnil, List.length_singleton, Int.toNat_zero, Nat.zero_add, hone]
      exact hroom
  obtain ⟨r, d', hexec, rfl, H, hW⟩ := hwrite.exists rfl
  have hsize' := hW.size
  rw [hk] at hsize'
  have hbody : exec m.env (posixBody m.sb user P (.pwrite (some k) [120] 0)) d =
      some (.ok (.ok (.count 1), P.setFile k { P.files k with fileOffset := 1 }), d') := by
    rw [posixBody, mofsPwrite, if_neg (by decide)]
    exact run_bind_ok hexec
  refine ⟨_, d', run_bind_ok (run_attempt_of hbody), ?_⟩
  rw [hsize', hsize]
  rfl

/-- A new file with all read and write bits can be opened by everybody. -/
theorem openChecks_new (user owner : User) (s : UInt64) :
    openChecks createFlags user (newInode 1 ftypeReg owner 0o666 s) = .ok () := by
  rw [openChecks, if_neg fun hc => absurd hc.1 (by decide)]
  exact (checkRdwr_all (by exact (by decide : (modeBits ftypeReg 0o666).toNat &&& 0o666 = 0o666)) user).1

/-- The owner of the root of a fresh volume creates a file that everybody may read and write, and has its first handle. -/
theorem Fresh.opensA (hfresh : Fresh m.sb (m.sb.view t)) (hnum : m.sb.inodeNum = 20) (hent : entriesPerBlk m.sb = 16) :
    ∃ d T up, Crowd m t d (freshOwners m.sb) T up 1 1 ∧
      Opens m.sb m.env (KeepsHandles m.sb m.env) t d (Pools.closed.setFile 0 firstHandle) (fun k => decide (k = 0)) ∧
      lookup (dirSlots up T rootInodeNum) (letter 0) = some 3 ∧
      ∃ s, (m.sb.view d).inode 3 = newInode 1 ftypeReg (rootUser (m.sb.view t)) 0o666 s := by
  have hcrowd : Crowd m t t _ _ _ 0 (0 : Fin 64) := hfresh.crowd fun _ => rootInodeNum
  obtain ⟨d, T, up, hexec, hcrowd', hE, s, hs⟩ := hcrowd.add hfresh (show 3 + 0 < _ by omega) (show 0 < _ by omega)
    (show createFlags &&& oflagCreat ≠ 0 by decide) 0o666 Pools.closed
  rw [hs, openChecks_new] at hexec
  have hkeeps : KeepsHandles m.sb m.env t Pools.closed (rootUser (m.sb.view t)) (.open (letterPath 0) createFlags 0o666) := by
    refine ⟨hcrowd.fits (show 0 < _ by omega) _ _, ?_⟩
    rintro ⟨-, k, hk, -⟩
    cases hk
  have hrun := Opens.start.call hkeeps hexec
  refine ⟨d, T, up, hcrowd', ?_, ?_, s, hs⟩
  · have halive : stillThere (m.sb.view d) (Pools.closed.setFile 0 firstHandle) (.open (letterPath 0) createFlags 0o666)
        (.ok (.handle 0)) (fun _ => false) = fun k => decide (k = 0) := by
      funext k
      simp [stillThere, PosixOp.opened]
    rw [← halive]
    exact hrun
  · rw [hE.names _ (by decide), if_pos ⟨rfl, rfl⟩]

end Stale

/-- An open handle keeps denoting the file it was opened on: while no call gives the number of its inode to a new file, every
call on the data of a file through the handle fails without an effect, or the file still exists and the call works on it
alone. -/
theorem handle_denotes_file (hboot : Booted sb env t) (h3 : rootInodeNum < sb.inodeNum) (h25 : sb.inodeNum < 33554432)
    (hrun : Opens sb env (KeepsHandles sb env) t d P alive) {k : Fin 64} (hk : (P.files k).used = true)
    (hop : op.fileHandle = some k) (hexec : exec env (posixCall sb user P op) d = some (.ok (res, P'), d')) :
    ((∃ e, res = .error e) ∧ sb.view d' = sb.view d) ∨
      alive k = true ∧ ActsOn sb env d d' user P P' op res (P.files k).inodeNum := by
  obtain ⟨hok, hserves, hfresh⟩ := hboot.fresh h3 h25
  obtain ⟨G, T, up, hU, -⟩ := hrun.calls.ungrown hok hserves hfresh fun _ _ _ _ hC => hC.1
  have hacts := (Mount.mk sb env hok hserves).fileCall_acts hU.vol hop hexec
  exact hacts.imp_right fun hF => ⟨hrun.alive_of_used hok hserves hfresh hk hF.1, hF.2⟩

/-- A byte written through the handle of a new file. -/
theorem handle_denotes_file_write : ∃ (sb : Superblock) (env : Env) (t d d' : Disk) (P P' : Pools) (alive : Nat → Bool) (user : User),
    Booted sb env t ∧ rootInodeNum < sb.inodeNum ∧ sb.inodeNum < 33554432 ∧ Opens sb env (KeepsHandles sb env) t d P alive ∧
    (P.files 0).used = true ∧ (PosixOp.pwrite (some 0) [120] 0).fileHandle = some 0 ∧
    exec env (posixCall sb user P (.pwrite (some 0) [120] 0)) d = some (.ok (.ok (.count 1), P'), d') ∧
    (((∃ e, (.ok (.count 1) : Except Errno Ret) = .error e) ∧ sb.view d' = sb.view d) ∨
      alive 0 = true ∧ ActsOn sb env d d' user P P' (.pwrite (some 0) [120] 0) (.ok (.count 1)) (P.files 0).inodeNum) := by
  obtain ⟨m, t, hboot, hfresh, hnum, hent, hgrow, -⟩ := exists_fresh
  have h3 : rootInodeNum < m.sb.inodeNum := by rw [hnum]; decide
  have h25 : m.sb.inodeNum < 33554432 := by rw [hnum]; decide
  obtain ⟨d, T, up, hcrowd, hrun, -, s, hs⟩ := hfresh.opensA hnum hent
  have hvol := hcrowd.scene.vol
  have hroom : m.sb.canGrow (m.sb.view d) 0 1 := by
    rw [Superblock.canGrow, (hfresh.wf m.ok).freeData_eq hvol.wf]
    exact hgrow
  have hused : (m.sb.view d).ibit 3 = true := by
    rw [hcrowd.scene.ibit]
    decide
  obtain ⟨P', d', hexec, -⟩ := m.pwrites_byte (P := Pools.closed.setFile 0 firstHandle) (k := 0) hvol hused hs hroom
    (show (rootUser (m.sb.view t)).valid = true from rfl) rfl
  exact ⟨m.sb, m.env, t, d, d', _, P', _, rootUser (m.sb.view t), hboot, h3, h25, hrun, rfl, rfl, hexec,
    handle_denotes_file hboot h3 h25 hrun (k := 0) rfl rfl hexec⟩

/-- The file of handle 0 is unlinked, and a new file gets its inode. A byte written through handle 0 ends up in the new
file. -/
theorem handle_denotes_other_file : ∃ (sb : Superblock) (env : Env) (t d d' : Disk) (P P' : Pools) (alive : Nat → Bool) (user : User),
    Booted sb env t ∧ rootInodeNum < sb.inodeNum ∧ sb.inodeNum < 33554432 ∧
    Opens sb env (fun d _ user op => Fits sb env d user op) t d P alive ∧
    (P.files 0).used = true ∧ (P.files 0).inodeNum = 3 ∧ alive 0 = false ∧ ResolvesTo sb env d user (letterPath 1) 3 ∧
    ((sb.view d).inode 3).iSize = 0 ∧
    exec env (posixCall sb user P (.pwrite (some 0) [120] 0)) d = some (.ok (.ok (.count 1), P'), d') ∧
    ((sb.view d').inode 3).iSize.toNat = 1 := by
  obtain ⟨m, t, hboot, hfresh, hnum, hent, hgrow, -⟩ := exists_fresh
  obtain ⟨d₁, T₁, up₁, hcrowd₁, hrun₁, hlook₁, s₁, hs₁⟩ := hfresh.opensA hnum hent
  -- unlink /A
  obtain ⟨d₂, H, T₂, hunlink, hcrowd₂, hdbit⟩ := Crowd.remove (n := 0) (l := 0) hcrowd₁ hfresh hlook₁
    (show ((m.sb.view d₁).inode 3).iNrBlocks = 0 by rw [hs₁]; rfl) (Pools.closed.setFile 0 firstHandle)
  have hgone : (m.sb.view d₂).ibit 3 = false := by
    rw [hcrowd₂.scene.ibit]
    decide
  -- create /B
  have hcrowd₂ : Crowd m t d₂ H T₂ up₁ 0 (1 : Fin 64) := hcrowd₂
  obtain ⟨d₃, T₃, up₃, hopen, hcrowd₃, hE, s₃, hs₃⟩ := hcrowd₂.add hfresh (show 3 + 0 < _ by omega) (show 0 < _ by omega)
    (show createFlags &&& oflagCreat ≠ 0 by decide) 0o666 (Pools.closed.setFile 0 firstHandle)
  rw [hs₃, openChecks_new] at hopen
  have hopen : exec m.env (posixCall m.sb (rootUser (m.sb.view t)) (Pools.closed.setFile 0 firstHandle)
      (.open (letterPath 1) createFlags 0o666)) d₂ =
      some (.ok (.ok (.handle 1), (Pools.closed.setFile 0 firstHandle).setFile 1 firstHandle), d₃) := hopen
  have hrun := ((hrun₁.mono fun _ _ _ _ hC => hC.1).call (fun path hpath => by cases hpath) hunlink).call
    (hcrowd₂.fits (show 0 < _ by omega) _ _) hopen
  have hvol := hcrowd₃.scene.vol
  have hroom : m.sb.canGrow (m.sb.view d₃) 0 1 := by
    rw [Superblock.canGrow, hcrowd₂.scene.vol.wf.freeData_eq hvol.wf, Superblock.freeData, hdbit, ← Superblock.freeData,
      (hfresh.wf m.ok).freeData_eq hcrowd₁.scene.vol.wf]
    exact hgrow
  have hused : (m.sb.view d₃).ibit 3 = true := by
    rw [hcrowd₃.scene.ibit]
    decide
  obtain ⟨P', d', hexec, hsize⟩ := m.pwrites_byte (P := (Pools.closed.setFile 0 firstHandle).setFile 1 firstHandle) (k := 0) hvol
    hused hs₃ hroom (show (rootUser (m.sb.view t)).valid = true from rfl) rfl
  have hres : resolve (m.sb.view d₃) up₃ T₃ resolveInode (rootUser (m.sb.view t)) (letterPath 1) =
      .ok ⟨noInode, 3, true, letter 1⟩ := by
    rw [resolve_one rfl rfl (components_letterPath 1), leafIn_eq (by decide) (if_pos rfl), hE.names _ (by decide),
      if_pos ⟨rfl, rfl⟩]
    rfl
  have hpath := (m.reads_mofsResolvePath hvol resolveInode rfl rfl (rootUser (m.sb.view t)) (letterPath 1)).exec_eq rfl
  refine ⟨m.sb, m.env, t, d₃, d', _, P', _, rootUser (m.sb.view t), hboot, by rw [hnum]; decide, by rw [hnum]; decide, hrun, rfl, rfl,
    ?_, ⟨_, d₃, hpath.trans (by rw [hres]), rfl, rfl⟩, by rw [hs₃]; rfl, hexec, hsize⟩
  -- the file was gone after the second call
  have hgone : (m.sb.view d₂).ibit ((Pools.closed.setFile 0 firstHandle).files 0).inodeNum = false := hgone
  simp [stillThere, PosixOp.opened, hgone]

end Mofs
