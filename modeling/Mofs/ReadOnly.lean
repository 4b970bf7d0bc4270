import Mofs.Path

namespace Mofs

open Effect Bytes

variable {α β : Type} {sb : Superblock} {p : M α} {f : α → M β}

def BlockOp.IsRead : BlockOp → Prop
  | .read _ => True
  | _ => False

/-- The program asks for nothing but block reads, whatever the blocks hold. -/
def ReadOnly (p : M α) : Prop := Uses BlockOp.IsRead (fun _ => True) p

namespace ReadOnly

theorem answer_same (e : Env) (op : BlockOp) (d : Disk) (h : op.IsRead) : (e.answer op d).2 = d := by
  cases op with
  | read b =>
    simp only [Env.answer]
    split <;> rfl
  | _ => exact absurd h id

theorem exec_eq (h : ReadOnly p) {e : Env} {d d' : Disk} {r : Except Errno α} (hr : exec e p d = some (r, d')) : d' = d :=
  run_of_uses (answer_same e) h hr

theorem cut_eq (h : ReadOnly p) {e : Env} {d d' : Disk} (hc : Cut e.answer p d d') : d' = d :=
  cut_of_uses (answer_same e) h hc

theorem pure (a : α) : ReadOnly (pure a) := uses_pure trivial

theorem throw (e : Errno) : ReadOnly (throw e : M α) := trivial

theorem bind (hp : ReadOnly p) (hf : ∀ a, ReadOnly (f a)) : ReadOnly (p >>= f) := uses_bind hp fun a _ => hf a

theorem attempt (hp : ReadOnly p) : ReadOnly (attempt p) := uses_mono (uses_attempt hp) fun _ _ => trivial

theorem ofExcept (x : Except Errno α) : ReadOnly (ofExcept x) := uses_ofExcept fun _ _ => trivial

end ReadOnly

theorem readOnly_readContinuousBlocks (b : Nat) : ReadOnly (readContinuousBlocks b) :=
  uses_bind (uses_call (show BlockOp.IsRead (.read b) from trivial)) fun _ _ => ReadOnly.ofExcept _

theorem readOnly_readFull (b : Nat) : ReadOnly (readFull b) := by
  refine (readOnly_readContinuousBlocks b).bind fun r => ?_
  split
  · exact .throw _
  · exact .pure _

theorem readOnly_mofsReadInode (i : Nat) : ReadOnly (mofsReadInode sb i) := by
  rw [mofsReadInode]
  split
  · exact .throw _
  · exact (readOnly_readFull _).bind fun _ => .pure _

theorem readOnly_resolveFrom (fuel nodeAbs remain : Nat) : ReadOnly (resolveFrom sb fuel nodeAbs remain) := by
  induction fuel generalizing nodeAbs remain with
  | zero => exact trivial
  | succ fuel ih =>
    rw [resolveFrom]
    split
    · exact .throw _
    refine (readOnly_readFull _).bind fun buf => ?_
    split
    · exact .throw _
    split
    · exact .pure _
    · exact ih _ _

theorem readOnly_resolveFileDataBlock (i k : Nat) : ReadOnly (resolveFileDataBlock sb i k) := by
  rw [resolveFileDataBlock]
  split
  · exact .throw _
  refine (readOnly_mofsReadInode i).bind fun x => ?_
  split
  · exact .throw _
  split
  · exact .throw _
  · exact readOnly_resolveFrom _ _ _

theorem readOnly_readBlocksFrom (i start n k : Nat) (buf : List Block) : ReadOnly (readBlocksFrom sb i start n k buf) := by
  induction n generalizing k buf with
  | zero => exact .pure _
  | succ n ih =>
    rw [readBlocksFrom]
    refine (readOnly_resolveFileDataBlock i _).bind fun b => (readOnly_readContinuousBlocks b).bind fun r => ?_
    split
    · exact .pure _
    split
    · exact .throw _
    · exact ih _ _

theorem readOnly_readFileDataBlock (i start req : Nat) : ReadOnly (readFileDataBlock sb i start req) := by
  rw [readFileDataBlock]
  split
  · exact .throw _
  split
  · exact .pure _
  refine (readOnly_mofsReadInode i).bind fun x => ?_
  dsimp only
  split
  · exact .pure _
  refine (readOnly_readBlocksFrom i start _ 0 []).bind fun r => ?_
  split
  · exact .pure _
  · exact .pure _

theorem readOnly_readDirBlock (i blkIdx : Nat) (buf : Block) : ReadOnly (readDirBlock sb i blkIdx buf) :=
  (readOnly_readFileDataBlock i blkIdx 1).bind fun _ => .pure _

theorem readOnly_findInBlocks (component : Name) (parent n blkIdx : Nat) (buf : Block) :
    ReadOnly (findInBlocks sb component parent n blkIdx buf) := by
  induction n generalizing blkIdx buf with
  | zero => exact .throw _
  | succ n ih =>
    rw [findInBlocks]
    refine (readOnly_readDirBlock parent blkIdx buf).bind fun r => ?_
    dsimp only
    split
    · exact .pure _
    · exact ih _ _

theorem readOnly_findDirEntry (component : Name) (parent : Nat) : ReadOnly (findDirEntry sb component parent) := by
  rw [findDirEntry, findDirEntryWith]
  split
  · exact .throw _
  · exact (readOnly_mofsReadInode parent).bind fun x => readOnly_findInBlocks _ _ _ _ _

theorem readOnly_checkParentTraverse (checkAccess : Bool) (user : User) (parent : Nat) :
    ReadOnly (checkParentTraverse sb checkAccess user parent) := by
  rw [checkParentTraverse]
  split
  · exact .pure _
  refine (readOnly_mofsReadInode parent).bind fun x => ?_
  split
  · exact .throw _
  · exact .ofExcept _

section

variable {e : Env} {d d' : Disk} {user : User} {info : PathInfo} {name : Name} {parent : Nat}

/-- A read-only part of a call that returned has returned, on the same disk. -/
theorem ReadOnly.exec_bind (hp : ReadOnly p) {b : β} (h : exec e (p >>= f) d = some (.ok b, d')) :
    ∃ a, exec e p d = some (.ok a, d) ∧ exec e (f a) d = some (.ok b, d') := by
  obtain ⟨a, u, hu, hf⟩ := run_bind_eq_ok h
  obtain rfl := hp.exec_eq hu
  exact ⟨a, hu, hf⟩

theorem exec_attempt {r : Except Errno α} (h : exec e (attempt p) d = some (.ok r, d')) : exec e p d = some (r, d') := by
  rw [exec, run_attempt, Option.map_eq_some_iff] at h
  obtain ⟨x, hx, he⟩ := h
  cases he
  exact hx

theorem exec_resolveLeaf (h : exec e (resolveLeaf sb resolveExisting user parent name) d = some (.ok info, d')) :
    exec e (findDirEntry sb info.leafName info.parentInodeNum) d = some (.ok info.leafInodeNum, d) := by
  rw [resolveLeaf] at h
  split at h
  · cases h
  obtain ⟨_, -, h⟩ := (readOnly_checkParentTraverse _ _ _).exec_bind h
  obtain ⟨r, hr, h⟩ := (readOnly_findDirEntry _ _).attempt.exec_bind h
  have hfind := exec_attempt hr
  cases r with
  | error err => cases h
  | ok child =>
    dsimp only at h
    split at h
    · cases h
    · cases h
      exact hfind

theorem exec_walkComponents {rest : List Name}
    (h : exec e (walkComponents sb resolveExisting user parent name rest) d = some (.ok info, d')) :
    exec e (findDirEntry sb info.leafName info.parentInodeNum) d = some (.ok info.leafInodeNum, d) := by
  induction rest generalizing parent name with
  | nil => exact exec_resolveLeaf h
  | cons next rest ih =>
    rw [walkComponents] at h
    obtain ⟨_, -, h⟩ := (readOnly_checkParentTraverse _ _ _).exec_bind h
    obtain ⟨r, hr, h⟩ := (readOnly_findDirEntry _ _).attempt.exec_bind h
    cases r with
    | error err => cases h
    | ok child =>
      dsimp only at h
      split at h
      · cases h
      · exact ih h

/-- A path that resolves names an entry of its parent. -/
theorem exec_mofsResolvePath {path : Path} (h : exec e (mofsResolvePath sb user path resolveExisting) d = some (.ok info, d')) :
    exec e (findDirEntry sb info.leafName info.parentInodeNum) d = some (.ok info.leafInodeNum, d) := by
  rw [mofsResolvePath] at h
  split at h
  · cases h
  split at h
  · cases h
  split at h
  · cases h
  split at h
  · cases h
  split at h
  · split at h
    · cases h
    · next hparent => exact absurd rfl hparent
  · split at h
    · cases h
    · exact exec_walkComponents h

end

end Mofs
