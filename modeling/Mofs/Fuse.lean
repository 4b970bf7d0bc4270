import Mofs.Posix

namespace Mofs

open Effect Bytes

variable (sb : Superblock)

/-- One call of the filler for the entry behind `cursor`: nothing when the caller has it already, otherwise the entry with
its cookie, or a refusal when the filler has no room left. -/
def fuseFill (offset cursor room : Nat) (name : Name) : Option (List (Name × Nat) × Nat) :=
  if offset ≤ cursor then
    if room = 0 then none else some ([(name, cursor + 1)], room - 1)
  else some ([], room)

/-- The loop of `mofs_readdir_fuse`. It ends when the directory ends or the filler refuses an entry; the model gives up after
`fuel` rounds. -/
def fuseLoop (user : User) (k : Fin 64) (offset : Nat) :
    (fuel cursor room : Nat) → Pools → M (Except Errno (List (Name × Nat)) × Pools)
  | 0, _, _, _ => .hang
  | fuel + 1, cursor, room, P => do
    let (r, P) ← posixCall sb user P (.readdir (some k))
    match r with
    | .error e => pure (.error e, P)
    | .ok (.entry (some (name, _))) =>
      if cursor < offset ∨ isDotOrDotdotName name then fuseLoop user k offset fuel (cursor + 1) room P
      else
        match fuseFill offset cursor room name with
        | none => pure (.ok [], P)
        | some (filled, room) => do
          let (rest, P) ← fuseLoop user k offset fuel (cursor + 1) room P
          pure (rest.map (filled ++ ·), P)
    | .ok _ => pure (.ok [], P)

/-- The two dot entries and then those of the directory. -/
def fuseEntries (user : User) (k : Fin 64) (offset room : Nat) (P : Pools) : M (Except Errno (List (Name × Nat)) × Pools) :=
  match fuseFill offset 0 room dot with
  | none => pure (.ok [], P)
  | some (first, room) =>
    match fuseFill offset 1 room dotdot with
    | none => pure (.ok first, P)
    | some (second, room) => do
      let (rest, P) ← fuseLoop sb user k offset (maxFileDataBlocks * entriesPerBlk sb + 1) 2 room P
      pure (rest.map (first ++ second ++ ·), P)

/-- The entries that `mofs_readdir_fuse` passes to the filler, which takes `room` of them, each with its cookie. An error
return makes the caller drop them all. -/
def mofsReaddirFuse (user : User) (P : Pools) (path : Path) (offset : Int) (room : Nat) :
    M (Except Errno (List (Name × Nat)) × Pools) :=
  if offset < 0 then pure (.error .einval, P)
  else do
    let (r, P) ← posixCall sb user P (.opendir path)
    match r with
    | .ok (.handle k) =>
      if hk : k < 64 then do
        let (filled, P) ← fuseEntries sb user ⟨k, hk⟩ offset.toNat room P
        let (closed, P) ← posixCall sb user P (.closedir (some ⟨k, hk⟩))
        match filled, closed with
        | .ok _, .error e => pure (.error e, P)
        | filled, _ => pure (filled, P)
      else pure (.error .einval, P)
    | .error e => pure (.error e, P)
    | .ok _ => pure (.error .einval, P)

end Mofs
