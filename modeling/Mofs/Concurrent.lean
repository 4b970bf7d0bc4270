import Mofs.Calls
import Mofs.FileModel
import Mofs.Lib.Serial

namespace Mofs

open Effect Serial

variable {sb : Superblock} {env : Env} {user : User}

/-- What the threads share: the disk and the handle pools. -/
abbrev Shared := Disk × Pools

/-- Run `p` on the shared state under the core lock. -/
def locked (env : Env) (p : Pools → M (Except Errno Ret × Pools)) (s : Shared) : Option (Except Errno Ret × Shared) :=
  match exec env (p s.2) s.1 with
  | none => none
  | some (r, d) => some ((Mount.posixRet s.2 r).1, (d, (Mount.posixRet s.2 r).2))

/-- One whole POSIX call on the shared state. -/
def posixStep (sb : Superblock) (env : Env) (user : User) (op : PosixOp) (s : Shared) : Option (Except Errno Ret × Shared) :=
  match exec env (posixCall sb user s.2 op) s.1 with
  | some (.ok (r, P), d) => some (r, (d, P))
  | _ => none

theorem posixStep_eq (sb : Superblock) (env : Env) (user : User) (op : PosixOp) (s : Shared) :
    posixStep sb env user op s = locked env (fun P => posixBody sb user P op) s := by
  rw [posixStep, locked, posixCall, exec, exec, run_bind, run_attempt]
  rcases run env.answer (posixBody sb user s.2 op) s.1 with _ | ⟨_ | r, d⟩ <;> rfl

/-- The calls that work on a file handle. -/
inductive HandleOp
  | «open» (path : Path) (flags mode : Nat)
  | close (h : Handle)
  | read (h : Handle) (size : Nat)
  | write (h : Handle) (data : List UInt8)
  | lseek (h : Handle) (offset : Int) (whence : Whence)
  | ftruncate (h : Handle) (length : Int)

/-- The part of `mofs_lseek` behind its check of `used`, which is under the lock. -/
def lseekLocked (sb : Superblock) (P : Pools) (k : Nat) (offset : Int) (whence : Whence) :
    M (Except Errno Ret × Pools) := do
  let h := P.files k
  let base ← (match whence with
    | .set => pure 0
    | .cur => pure h.fileOffset
    | .end => do
      let x ← mofsReadInode sb h.inodeNum
      pure x.iSize.toNat
    | .other => throw .einval : M Nat)
  if 4294967295 < base + offset ∨ (base : Int) + offset < 0 then throw .einval
  else pure (.ok (.count (base + offset).toNat), P.setFile k { h with fileOffset := u32 (base + offset).toNat })

/-- The part of `mofs_ftruncate` under the lock, which reads the inode number of the handle again. -/
def ftruncateLocked (sb : Superblock) (user : User) (P : Pools) (k : Nat) (length : Int) :
    M (Except Errno Ret × Pools) := do
  mofsTruncateCore sb user (P.files k).inodeNum length
  pure (.ok .done, P)

namespace HandleOp

def toPosix : HandleOp → PosixOp
  | .open path flags mode => .open path flags mode
  | .close h => .close h
  | .read h size => .read h size
  | .write h data => .write h data
  | .lseek h offset whence => .lseek h offset whence
  | .ftruncate h length => .ftruncate h length

/-- A call as its accesses to the handle before it takes the core lock, in program order, and its locked section. -/
def steps (sb : Superblock) (env : Env) (user : User) : HandleOp → Call Shared Nat (Except Errno Ret)
  | .open path flags mode => .lock (locked env fun P => posixBody sb user P (.open path flags mode))
  | .close h => .lock (locked env fun P => posixBody sb user P (.close h))
  | .read none _ => .ret (.error .einval)
  | .read (some k) size =>
    .load (fun s => (s.2.files k).fileOffset) fun offset =>
      .lock (locked env fun P => mofsPread sb user P k size offset)
  | .write none _ => .ret (.error .einval)
  | .write (some k) data =>
    .load (fun s => (s.2.files k).fileOffset) fun offset =>
      .lock (locked env fun P => mofsPwrite sb user P k data offset)
  | .lseek none _ _ => .ret (.error .einval)
  | .lseek (some k) offset whence =>
    .load (fun s => (s.2.files k).used.toNat) fun used =>
      if used = 0 then .ret (.error .ebadf)
      else .lock (locked env fun P => lseekLocked sb P k offset whence)
  | .ftruncate none _ => .ret (.error .ebadf)
  | .ftruncate (some k) length =>
    .load (fun s => (s.2.files k).used.toNat) fun used =>
      if used = 0 then .ret (.error .ebadf)
      else .load (fun s => (s.2.files k).openFlags) fun flags =>
        if flags &&& oflagWronly = 0 then .ret (.error .ebadf)
        else .lock (locked env fun P => ftruncateLocked sb user P k length)

end HandleOp

theorem locked_throw (e : Errno) {p : Pools → M (Except Errno Ret × Pools)} {s : Shared} (h : p s.2 = throw e) :
    locked env p s = some (.error e, s) := by
  rw [locked, h]
  rfl

theorem locked_congr {p q : Pools → M (Except Errno Ret × Pools)} {s : Shared} (h : p s.2 = q s.2) :
    locked env p s = locked env q s := by
  rw [locked, h]
  rfl

/-- Without another thread between its steps, a call does what the POSIX layer does. -/
theorem HandleOp.run_steps (op : HandleOp) (s : Shared) : (op.steps sb env user).run s = posixStep sb env user op.toPosix s := by
  rw [posixStep_eq]
  cases op with
  | «open» path flags mode => rfl
  | close h => rfl
  | read h size =>
    cases h with
    | none => exact (locked_throw .einval rfl).symm
    | some k => rfl
  | write h data =>
    cases h with
    | none => exact (locked_throw .einval rfl).symm
    | some k => rfl
  | lseek h offset whence =>
    cases h with
    | none => exact (locked_throw .einval rfl).symm
    | some k =>
      simp only [steps, Call.run]
      cases hused : (s.2.files k).used with
      | false => exact (locked_throw .ebadf (if_pos hused)).symm
      | true => exact locked_congr (if_neg (by simp [hused])).symm
  | ftruncate h length =>
    cases h with
    | none => exact (locked_throw .ebadf rfl).symm
    | some k =>
      simp only [steps, Call.run]
      cases hused : (s.2.files k).used with
      | false => exact (locked_throw .ebadf (if_pos hused)).symm
      | true =>
        have hbody : posixBody sb user s.2 (.ftruncate (some k) length) =
            if (s.2.files k).openFlags &&& oflagWronly = 0 then throw .ebadf
            else ftruncateLocked sb user s.2 k length := if_neg (by simp [hused])
        by_cases hw : (s.2.files k).openFlags &&& oflagWronly = 0
        · rw [if_neg (by decide), Call.run, if_pos hw]
          exact (locked_throw .ebadf (hbody.trans (if_pos hw))).symm
        · rw [if_neg (by decide), Call.run, if_neg hw]
          exact locked_congr (hbody.trans (if_neg hw)).symm

/-- The threads of a set of concurrent calls. -/
def threads (sb : Superblock) (env : Env) {n : Nat} (calls : Fin n → User × HandleOp) (i : Fin n) :
    Call Shared Nat (Except Errno Ret) :=
  (calls i).2.steps sb env (calls i).1

/-- The same calls, each in one step. -/
def wholeCalls (sb : Superblock) (env : Env) {n : Nat} (calls : Fin n → User × HandleOp) (i : Fin n) :
    Call Shared Nat (Except Errno Ret) :=
  .lock (posixStep sb env (calls i).1 (calls i).2.toPosix)

/-- What a call has read from the handle before it took the lock is still so when the call ends. -/
def StillSo (sb : Superblock) (env : Env) {n : Nat} (calls : Fin n → User × HandleOp) (i : Fin n) (s : Shared)
    (seen : List Nat) : Prop :=
  (threads sb env calls i).Current s seen

/-- In an interleaving in which no call acts on an outdated handle field, the calls return what they would return one
after the other in some order, which also gives the same disk and handles. -/
theorem shared_handle_serialisable (sb : Superblock) (env : Env) {n : Nat} (calls : Fin n → User × HandleOp) {s : Shared}
    {c : Config Shared Nat (Except Errno Ret) (Fin n)} (h : Run (threads sb env calls) (StillSo sb env calls) s c)
    (hdone : ∀ i, (c.result i).isSome = true) : Serialisable (wholeCalls sb env calls) Eq s c :=
  (Run.serialisable h hdone).of_run fun i s => (HandleOp.run_steps (calls i).2 s).symm

/-- A pool in which every handle is open on the file. -/
def sharedPools : Pools := ⟨fun _ => fileHandle, fun _ => .closed⟩

/-- Two threads move the offset of one handle. -/
def twoSeeks (i : Fin 2) : User × HandleOp := (fileOwner, .lseek (some 0) (i : Nat) .set)

/-- One thread moves the offset after the other one has seen that the handle is open, and before that one takes the lock. -/
theorem shared_handle_serialisable_seek : ∃ (sb : Superblock) (env : Env) (s : Shared)
    (c : Config Shared Nat (Except Errno Ret) (Fin 2)), Run (threads sb env twoSeeks) (StillSo sb env twoSeeks) s c ∧
    (∀ i, (c.result i).isSome = true) ∧ Serialisable (wholeCalls sb env twoSeeks) Eq s c := by
  obtain ⟨m, d, -⟩ := exists_oneFile (fun _ => 0)
  have hstart : Run (threads m.sb m.env twoSeeks) (StillSo m.sb m.env twoSeeks) (d, sharedPools) _ := .start
  have hload₀ := hstart.step 0 (.load rfl (fun r hr => by cases hr))
  have hload₁ := hload₀.step 1 (.load rfl (fun r hr => by cases hr))
  have hseek₁ := hload₁.step 1 (.lock rfl rfl rfl ⟨rfl, trivial⟩)
  have hseek₀ := hseek₁.step 0 (.lock rfl rfl rfl ⟨rfl, trivial⟩)
  refine ⟨m.sb, m.env, _, _, hseek₀, ?done, shared_handle_serialisable m.sb m.env twoSeeks hseek₀ ?done⟩
  intro i
  have hi : i = 0 ∨ i = 1 := by revert i; decide
  rcases hi with rfl | rfl <;> rfl

section LostWrite

variable {m : Mount}

/-- A handle on the file, at offset `o`. -/
def handleAt (o : Nat) : FileHandle := ⟨true, 3, o, oflagRdwr⟩

/-- A volume in which a write of one byte near the start of the file succeeds. -/
structure OneByte (m : Mount) (V : View) (G : Owners) : Prop where
  blkSize : m.sb.blkSize = 512
  wf : Wf m.sb V G
  ibit : V.ibit 3 = true
  access : accessCheck (oflagRdwr &&& oflagAccmode) fileOwner (V.inode 3) = .ok ()
  length : (G.data 3).length = m.sb.blocksFor (V.inode 3).iSize.toNat
  room : G.data 3 = [] → m.sb.canGrow V 0 1

theorem OneFile.oneByte {d : Disk} {x : Block} (h : OneFile m d x) : OneByte m (m.sb.view d) (freshOwners m.sb) where
  blkSize := by rw [h.sb]; rfl
  wf := h.ok.wf
  ibit := h.ibit
  access := congrArg (accessCheck (oflagRdwr &&& oflagAccmode) fileOwner) h.inode
  length := h.ok.length h.ibit (congrArg Inode.isDir h.inode)
  room _ := by rw [Superblock.canGrow, h.free, h.sb]; decide

/-- A write of one byte in the first block, through the handle at any offset. -/
theorem OneByte.write {V : View} {G : Owners} (h : OneByte m V G) (o : Nat) {off : Nat} (hoff : off < 512) :
    m.Ensures (mofsWriteCore m.sb fileOwner (handleAt o) [120] off true) V (fun r W =>
      r = .ok (.ok 1, handleAt (off + 1)) ∧ ∃ H, OneByte m W H) := by
  have hmax : mofsMaxFileBytes m.sb = 524288 := by rw [mofsMaxFileBytes, h.blkSize]; rfl
  have hacc : accessCheck ((handleAt o).openFlags &&& oflagAccmode) fileOwner (V.inode 3) = .ok () := h.access
  have hchk : writeChecks m.sb fileOwner (handleAt o) [120].length off (V.inode 3) = .ok () := by
    rw [writeChecks, if_neg (by simp [handleAt]), if_neg (show ¬ (handleAt o).openFlags &&& oflagWronly = 0 from
      show ¬ oflagRdwr &&& oflagWronly = 0 by decide), hacc, hmax]
    exact if_neg (by omega)
  have hfit : [120].take (mofsMaxFileBytes m.sb - (off : Int).toNat) = [(120 : UInt8)] := by
    rw [hmax, Int.toNat_natCast]
    exact List.take_of_length_le (by simp; omega)
  have hneed : m.sb.blocksFor ((off : Int).toNat + [(120 : UInt8)].length) = 1 := by
    rw [Superblock.blocksFor, h.blkSize, Int.toNat_natCast]
    simp only [List.length_singleton]
    omega
  refine (m.stores_mofsWriteCore fileOwner (handleAt o) off true h.wf h.ibit h.length hchk hfit
    fun hlt => ?_).mono fun r W hr => ?_
  · have hnil : G.data 3 = [] := by
      rw [hneed] at hlt
      exact List.length_eq_zero_iff.mp (Nat.lt_one_iff.mp hlt)
    rw [hneed, show G.data (handleAt o).inodeNum = [] from hnil]
    exact h.room hnil
  · obtain ⟨rfl, H, hW⟩ := hr
    have hW : WrittenAt m.sb V W G H 3 off [120] := hW
    have hu : u32 (off + 1) = off + 1 := Nat.mod_eq_of_lt (by omega)
    refine ⟨by simp [hu, handleAt], H, h.blkSize, hW.frame.wf, ?_, ?_, hW.length (by rw [h.blkSize]; decide) h.length,
      fun hnil => ?_⟩
    · rw [hW.ibit]
      exact h.ibit
    · rw [hW.attrs.accessCheck]
      exact h.access
    · have hle := hW.enough
      rw [hnil, show m.sb.blocksFor (off + [(120 : UInt8)].length) = 1 from hneed] at hle
      exact absurd hle (by decide)

/-- The same on the shared state, in which the offset of the handle is `o`. -/
structure Shared.Ready (m : Mount) (s : Shared) (o : Nat) : Prop where
  oneByte : ∃ G, OneByte m (m.sb.view s.1) G
  handle : s.2.files 0 = handleAt o

theorem Shared.Ready.write {s : Shared} {o off : Nat} (h : s.Ready m o) (hoff : off < 512) : ∃ t,
    locked m.env (fun P => mofsPwrite m.sb fileOwner P 0 [120] off) s = some (.ok (.count 1), t) ∧ Shared.Ready m t (off + 1) := by
  obtain ⟨G, hG⟩ := h.oneByte
  obtain ⟨r, d, hexec, rfl, H, hH⟩ := (hG.write o hoff).exists rfl
  have hrun : exec m.env (mofsPwrite m.sb fileOwner s.2 0 [120] off) s.1 =
      some (.ok (.ok (.count 1), s.2.setFile 0 (handleAt (off + 1))), d) := by
    rw [mofsPwrite, if_neg (by omega), h.handle]
    exact run_bind_ok hexec
  refine ⟨(d, s.2.setFile 0 (handleAt (off + 1))), ?_, ⟨H, hH⟩, ?_⟩
  · rw [locked, hrun]
    rfl
  · exact Function.update_self 0 (handleAt (off + 1)) s.2.files

/-- Two threads write a byte each through one handle. -/
def twoWrites (_ : Fin 2) : User × HandleOp := (fileOwner, .write (some 0) [120])

/-- Such calls one after the other move the offset by one each. -/
theorem ready_of_inOrder {result : Fin 2 → Option (Except Errno Ret)} {order : List (Fin 2)} {s t : Shared} {o : Nat}
    (h : InOrder (wholeCalls m.sb m.env twoWrites) result order s t) (hs : s.Ready m o) (ho : o + order.length ≤ 512) :
    t.Ready m (o + order.length) := by
  induction h generalizing o with
  | nil s => exact hs
  | @cons i l s u t r hrun hr rest ih =>
    rw [List.length_cons] at ho
    obtain ⟨u', hlock, hu⟩ := hs.write (show o < 512 by omega)
    have hwhole : (wholeCalls m.sb m.env twoWrites i).run s = some (.ok (.count 1), u') := by
      refine (posixStep_eq m.sb m.env fileOwner (.write (some 0) [120]) s).trans ((locked_congr ?_).trans hlock)
      exact congrArg (fun hd : FileHandle => mofsPwrite m.sb fileOwner s.2 0 [120] hd.fileOffset) hs.handle
    rw [hwhole] at hrun
    cases hrun
    have := ih hu (by omega)
    rwa [Nat.add_assoc, Nat.add_comm 1, ← List.length_cons] at this

/-- Both threads read the offset of the handle before the first of them takes the lock. Both bytes go to the start of the
file, and the offset ends at 1 where the two calls one after the other leave it at 2. -/
theorem shared_handle_lost_write : ∃ (m : Mount) (s : Shared) (c : Config Shared Nat (Except Errno Ret) (Fin 2)),
    Run (threads m.sb m.env twoWrites) (fun _ _ _ => True) s c ∧ (∀ i, c.result i = some (.ok (.count 1))) ∧
    ¬ Serialisable (wholeCalls m.sb m.env twoWrites) (fun t u => ∀ k, (t.2.files k).fileOffset = (u.2.files k).fileOffset) s c := by
  obtain ⟨m, d, hd⟩ := exists_oneFile (fun _ => 0)
  have hready : Shared.Ready m (d, sharedPools) 0 := ⟨⟨_, hd.oneByte⟩, rfl⟩
  obtain ⟨s₁, hlock₁, h₁⟩ := hready.write (show 0 < 512 by decide)
  obtain ⟨s₂, hlock₂, h₂⟩ := h₁.write (show 0 < 512 by decide)
  have hstart : Run (threads m.sb m.env twoWrites) (fun _ _ _ => True) (d, sharedPools) _ := .start
  have hload₀ := hstart.step 0 (.load rfl (fun r hr => by cases hr))
  have hload₁ := hload₀.step 1 (.load rfl (fun r hr => by cases hr))
  have hwrite₀ := hload₁.step 0 (.lock rfl rfl hlock₁ trivial)
  have hwrite₁ := hwrite₀.step 1 (.lock rfl rfl hlock₂ trivial)
  refine ⟨m, _, _, hwrite₁, fun i => ?_, ?_⟩
  · have hi : i = 0 ∨ i = 1 := by revert i; decide
    rcases hi with rfl | rfl <;> rfl
  · rintro ⟨order, t, hnodup, hall, hin, hoff⟩
    have hperm : order.Perm (List.finRange 2) :=
      (List.perm_ext_iff_of_nodup hnodup (List.nodup_finRange 2)).mpr fun i => by simp [hall i]
    have hlen : order.length = 2 := by rw [hperm.length_eq, List.length_finRange]
    have ht := ready_of_inOrder hin hready (by rw [hlen]; decide)
    have h0 := hoff 0
    rw [ht.handle, hlen] at h0
    rw [show _ = handleAt 1 from h₂.handle] at h0
    cases h0

end LostWrite

end Mofs
