import Mofs.CacheAgree
import Mofs.CallRun
import Mofs.Format
import Mofs.PatchCalls

namespace Mofs

open Effect Bytes WriteBack

/-- What a build with a cache has below the core: the cache with its device, and the clock readings taken so far. -/
structure Behind (S : Type) where
  store : S
  ticks : Nat

/-- The block layer of a build with a cache. -/
def CacheImpl.answer {S : Type} (C : CacheImpl S) (blkSize : Nat) (clock : Nat → UInt64) :
    (op : BlockOp) → Behind S → BlockAns op × Behind S
  | .read b, s =>
    let (r, t) := C.readFrom b 1 0 [] s.store
    (r.ret.map fun _ => ⟨r.readBlkNum, r.fraction, r.blocks.headD fun k => r.part.getD k 0⟩, { s with store := t })
  | .write b x, s =>
    let ((ret, written), t) := C.writeFrom b [x] 0 s.store
    (ret.map fun _ => ⟨written, 0⟩, { s with store := t })
  | .modify b off patch, s =>
    if patch = [] ∨ blkSize < off + patch.length then (.error .einval, s)
    else
      let (ret, t) := C.modifyBlock b off patch s.store
      (ret, { s with store := t })
  | .invalidate b, s => ((), { s with store := C.invalidate b s.store })
  | .flush, s =>
    let (ret, t) := C.flush s.store
    (ret, { s with store := t })
  | .now, s => (.ok (clock s.ticks), { s with ticks := s.ticks + 1 })

/-- The three builds: without a cache, with one pool of cache slots, and with a pool for the metadata and one for the
data. -/
inductive Build
  | plain
  | unified (slots : Nat)
  | split (metaSlots dataSlots : Nat)

namespace Build

/-- Every pool of the build has a slot. -/
def Pooled : Build → Prop
  | .plain => True
  | .unified n => 0 < n
  | .split n k => 0 < n ∧ 0 < k

def State : Build → Type
  | .plain => Disk
  | .unified n => Behind (Pool n × RawDev)
  | .split n k => Behind (SplitState n k)

/-- A fault-free device of `size` bytes under the cache. -/
def rawEnv (sb : Superblock) (size : Nat) : RawEnv := ⟨sb.blkSize, size, fun _ => none⟩

def plainEnv (sb : Superblock) (size : Nat) (clock : Nat → UInt64) : Env := ⟨sb.blkSize, size, false, fun _ => none, clock⟩

/-- The state in which `mofs_init_core` leaves the layers below the core, on a device with these blocks. -/
def start : (B : Build) → Disk → B.State
  | .plain, d => d
  | .unified n, d => ⟨(Pool.init n, ⟨d.blk, 0⟩), d.ticks⟩
  | .split n k, d => ⟨⟨Pool.init n, Pool.init k, ⟨d.blk, 0⟩⟩, d.ticks⟩

def answer (sb : Superblock) (size : Nat) (clock : Nat → UInt64) : (B : Build) → (op : BlockOp) → B.State → BlockAns op × B.State
  | .plain => (plainEnv sb size clock).answer
  | .unified n => (unifiedCache (rawEnv sb size) n).answer sb.blkSize clock
  | .split n k => (splitCache (rawEnv sb size) sb.dataRegionStart n k).answer sb.blkSize clock

end Build

/-- A sequence of POSIX calls, each by its caller, with what they return. -/
def callAll (sb : Superblock) : Pools → List (User × PosixOp) → M (List (Except Errno Ret))
  | _, [] => pure []
  | P, (user, op) :: calls => do
    let (r, P) ← posixCall sb user P op
    let rs ← callAll sb P calls
    pure (r :: rs)

/-- The last part of `mofs_init_core`, and then the calls. -/
def session (sb : Superblock) (rootOwner : Option (Nat × Nat)) (calls : List (User × PosixOp)) : M (List (Except Errno Ret)) := do
  match rootOwner with
  | none => pure ()
  | some (uid, gid) => updateRootOwner sb uid gid
  callAll sb Pools.closed calls

/-- What the calls return after a mount of the device, or the error of the mount. -/
def Build.mountAndCall (B : Build) (clock : Nat → UInt64) (rootOwner : Option (Nat × Nat)) (calls : List (User × PosixOp))
    (d : Dev) : Option (Except Errno (List (Except Errno Ret))) :=
  match loadSuperblock d.size d.bytes with
  | .error e => some (.error e)
  | .ok sb =>
    (run (B.answer sb d.size clock) (session sb rootOwner calls) (B.start (diskOf sb.blkSize d.bytes))).map Prod.fst

/-- `mofs_format`, `mofs_init_core` and the calls. The format does not go through the cache in any build. -/
def Build.results (B : Build) (fsSize blkSize : Int) (clock : Nat → UInt64) (rootOwner : Option (Nat × Nat))
    (calls : List (User × PosixOp)) (d : Dev) : Option (Except Errno (List (Except Errno Ret))) :=
  match run Dev.answer (mofsFormat fsSize blkSize) d with
  | none => none
  | some (.error e, _) => some (.error e)
  | some (.ok (), d') => B.mountAndCall clock rootOwner calls d'

end Mofs
