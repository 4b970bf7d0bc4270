import Mofs.Builds

namespace Mofs

open Effect Bytes WriteBack

/-- The operation is on whole blocks of the device. It reads no block that was freed and not written since, and frees only a block
of the data region. -/
def BlockOp.Orderly (sb : Superblock) (size : Nat) (freed : List Nat) : BlockOp → Prop
  | .read b => (Build.rawEnv sb size).inRange b ∧ b ∉ freed
  | .write b _ => (Build.rawEnv sb size).inRange b
  | .invalidate b => (Build.rawEnv sb size).inRange b ∧ sb.dataRegionStart ≤ b
  | _ => True

instance (sb : Superblock) (size : Nat) (freed : List Nat) : (op : BlockOp) → Decidable (op.Orderly sb size freed)
  | .read _ => inferInstanceAs (Decidable (_ ∧ _))
  | .write b _ => inferInstanceAs (Decidable ((Build.rawEnv sb size).inRange b))
  | .modify _ _ _ => .isTrue trivial
  | .invalidate _ => inferInstanceAs (Decidable (_ ∧ _))
  | .flush => .isTrue trivial
  | .now => .isTrue trivial

/-- The blocks that are freed and not written since, after an operation. -/
def BlockOp.freed (freed : List Nat) : BlockOp → List Nat
  | .write b _ => freed.filter (· ≠ b)
  | .invalidate b => b :: freed
  | _ => freed

variable {S : Type} {C : CacheImpl S} {Stores : S → (Nat → Block) → Prop} {Ahead : S → Nat → Prop} {Room : Nat → S → Prop}
  {sb : Superblock} {size k b : Nat} {clock : Nat → UInt64} {L : Nat → Block} {s : Behind S} {freed : List Nat}

section Answer

variable (hS : C.Serving Stores Room (Build.rawEnv sb size).inRange)
  (hC : C.Lawful Stores Ahead (Build.rawEnv sb size).inRange (sb.dataRegionStart ≤ ·))
  (h32 : ∀ b, (Build.rawEnv sb size).inRange b → u32 b = b)

/-- The cache makes up the store `L` and has room for `k` accesses. -/
abbrev Sound (Stores : S → (Nat → Block) → Prop) (Ahead : S → Nat → Prop) (Room : Nat → S → Prop) (k : Nat) (L : Nat → Block)
    (s : S) : Prop := CacheSound Stores Ahead Room k (fun _ => False) L s

include hS

theorem Sound.pred {s : S} (h : Sound Stores Ahead Room k L s) : Sound Stores Ahead Room (k - 1) L s := by
  cases k with
  | zero => exact h
  | succ k => exact ⟨h.stores, h.resting, hS.mono h.room⟩

include hC

theorem Sound.call {c : CacheCall} {ret : CacheRet} {s t : S} (h : Sound Stores Ahead Room (k + c.accesses) L s)
    (hc : c.InRange (Build.rawEnv sb size).inRange (sb.dataRegionStart ≤ ·)) (hr : C.call sb.blkSize c s = (ret, t)) :
    c.Succeeds sb.blkSize ret ∧ c.Answers (Build.rawEnv sb size).inRange L (C.dev t).blk ret ∧
      ∃ L', Sound Stores Ahead Room k L' t ∧ ∀ b, ¬ c.Invalidates b → L' b = c.logical L ret b := by
  obtain ⟨hret, hans, -, L', h', hL'⟩ := CacheSound.call hS hC h hc hr
  exact ⟨hret, hans, L', ⟨h'.stores, fun _ hf => hf.elim, h'.room⟩, hL'⟩

include h32

variable (clock)

theorem answer_read (h : Sound Stores Ahead Room (k + 1) L s.store) (hb : (Build.rawEnv sb size).inRange b) :
    ∃ t, C.answer sb.blkSize clock (.read b) s = (.ok ⟨1, 0, L b⟩, { s with store := t }) ∧ Sound Stores Ahead Room k L t := by
  rcases hf : C.readFrom b 1 0 [] s.store with ⟨r, t⟩
  have hcall : C.call sb.blkSize (.read b 1) s.store = (.read r, t) := by rw [CacheImpl.call, hf]
  have hin : (CacheCall.read b 1).InRange (Build.rawEnv sb size).inRange (sb.dataRegionStart ≤ ·) := by
    intro i hi
    obtain rfl : i = 0 := by omega
    rw [Nat.add_zero, h32 b hb]
    exact hb
  obtain ⟨⟨hret, hnum, hfrac⟩, ⟨hlen, -, hx⟩, L', h', hL'⟩ := Sound.call hS hC h hin hcall
  obtain rfl : L' = L := funext fun c => hL' c (by rintro ⟨⟩)
  obtain ⟨x, hblocks⟩ := List.length_eq_one_iff.mp (hlen.trans hnum)
  have hxb : x = L' b := by
    have := hx 0 x (by rw [hblocks]; rfl)
    rwa [Nat.add_zero, h32 b hb] at this
  refine ⟨t, ?_, h'⟩
  simp only [CacheImpl.answer, hf, hret, hnum, hfrac, hblocks, hxb]
  rfl

theorem answer_write (h : Sound Stores Ahead Room (k + 1) L s.store) (hb : (Build.rawEnv sb size).inRange b) (x : Block) :
    ∃ t, C.answer sb.blkSize clock (.write b x) s = (.ok ⟨1, 0⟩, { s with store := t }) ∧
      Sound Stores Ahead Room k (Function.update L b x) t := by
  rcases hf : C.writeFrom b [x] 0 s.store with ⟨⟨ret, written⟩, t⟩
  have hcall : C.call sb.blkSize (.write b [x]) s.store = (.write ret written, t) := by rw [CacheImpl.call, hf]
  have hin : (CacheCall.write b [x]).InRange (Build.rawEnv sb size).inRange (sb.dataRegionStart ≤ ·) := by
    intro i hi
    obtain rfl : i = 0 := by simpa using hi
    rw [Nat.add_zero, h32 b hb]
    exact hb
  obtain ⟨⟨hret, hwritten⟩, -, L', h', hL'⟩ := Sound.call hS hC h hin hcall
  obtain rfl : written = 1 := hwritten
  have hstore : L' = Function.update L b x := by
    funext c
    rw [hL' c (by rintro ⟨⟩)]
    show Function.update L (u32 (b + 0)) x c = _
    rw [Nat.add_zero, h32 b hb]
  refine ⟨t, ?_, hstore ▸ h'⟩
  simp only [CacheImpl.answer, hf, hret]
  rfl

omit h32

theorem answer_modify (h : Sound Stores Ahead Room (k + 1) L s.store) (hb : (Build.rawEnv sb size).inRange b) {off : Nat}
    {patch : List UInt8} (hne : patch ≠ []) (hlen : off + patch.length ≤ sb.blkSize) :
    ∃ t, C.answer sb.blkSize clock (.modify b off patch) s = (.ok (), { s with store := t }) ∧
      Sound Stores Ahead Room k (Function.update L b (splice (L b) off patch)) t := by
  have hgood : ¬ (patch = [] ∨ sb.blkSize < off + patch.length) := by
    rintro (he | hlt)
    · exact hne he
    · omega
  rcases hf : C.modifyBlock b off patch s.store with ⟨ret, t⟩
  have hcall : C.call sb.blkSize (.modify b off patch) s.store = (.done ret, t) := by rw [CacheImpl.call, if_neg hgood, hf]
  obtain ⟨hret, -, L', h', hL'⟩ := Sound.call (c := .modify b off patch) hS hC h hb hcall
  obtain rfl : ret = .ok () := Eq.trans hret (if_neg hgood)
  have hstore : L' = Function.update L b (splice (L b) off patch) := funext fun c => hL' c (by rintro ⟨⟩)
  refine ⟨t, ?_, hstore ▸ h'⟩
  simp only [CacheImpl.answer, if_neg hgood, hf]

theorem answer_invalidate (h : Sound Stores Ahead Room k L s.store) (hb : (Build.rawEnv sb size).inRange b)
    (hdata : sb.dataRegionStart ≤ b) :
    ∃ L', Sound Stores Ahead Room k L' (C.answer sb.blkSize clock (.invalidate b) s).2.store ∧ ∀ c, c ≠ b → L' c = L c := by
  have hin : (CacheCall.invalidate b).InRange (Build.rawEnv sb size).inRange (sb.dataRegionStart ≤ ·) := ⟨hb, hdata⟩
  obtain ⟨-, -, L', h', hL'⟩ := Sound.call (c := .invalidate b) (k := k) hS hC h hin rfl
  refine ⟨L', h', fun c hc => hL' c ?_⟩
  rintro ⟨⟩
  exact hc rfl

theorem answer_flush (h : Sound Stores Ahead Room k L s.store) :
    ∃ t, C.answer sb.blkSize clock .flush s = (.ok (), { s with store := t }) ∧ Sound Stores Ahead Room k L t := by
  rcases hf : C.flush s.store with ⟨ret, t⟩
  have hcall : C.call sb.blkSize .flush s.store = (.done ret, t) := by rw [CacheImpl.call, hf]
  obtain ⟨hret, -, L', h', hL'⟩ := Sound.call (c := .flush) (k := k) hS hC h trivial hcall
  obtain rfl : ret = .ok () := hret
  obtain rfl : L' = L := funext fun c => hL' c (by rintro ⟨⟩)
  refine ⟨t, ?_, h'⟩
  simp only [CacheImpl.answer, hf]

end Answer

/-- What is kept along the operations of both builds: the freed blocks, and how many operations the clocks of the pools
still count. -/
abbrev Ledger : Type := List Nat × Nat

def Ledger.Allows (sb : Superblock) (size : Nat) (g : Ledger) (op : BlockOp) : Prop := op.Orderly sb size g.1 ∧ 0 < g.2

def Ledger.after (g : Ledger) (op : BlockOp) : Ledger := (op.freed g.1, g.2 - 1)

/-- The cache makes up a store that has the blocks of the device `d`, but for the freed ones. -/
def Tracks (Stores : S → (Nat → Block) → Prop) (Ahead : S → Nat → Prop) (Room : Nat → S → Prop) (g : Ledger) (d : Disk)
    (s : Behind S) : Prop :=
  s.ticks = d.ticks ∧ ∃ L, Sound Stores Ahead Room g.2 L s.store ∧ ∀ b, b ∉ g.1 → L b = d.blk b

/-- The list of operations is in order if each one is, and the ledger counts all of them. -/
theorem follows_allows {ops : List BlockOp} (h : Follows (BlockOp.Orderly sb size) BlockOp.freed freed ops) (hk : ops.length ≤ k) :
    Follows (Ledger.Allows sb size) Ledger.after (freed, k) ops := by
  induction ops generalizing freed k with
  | nil => trivial
  | cons op ops ih =>
    rw [List.length_cons] at hk
    exact ⟨⟨h.1, by show 0 < k; omega⟩, ih h.2 (by omega)⟩

theorem plain_read (hb : (Build.rawEnv sb size).inRange b) (d : Disk) :
    (Build.plainEnv sb size clock).answer (.read b) d = (.ok ⟨1, 0, d.blk b⟩, d) := if_pos hb

theorem plain_write (hb : (Build.rawEnv sb size).inRange b) (x : Block) (d : Disk) :
    (Build.plainEnv sb size clock).answer (.write b x) d = (.ok ⟨1, 0⟩, d.put b x) := if_pos hb

theorem plain_modify (b off : Nat) (patch : List UInt8) (d : Disk) :
    (Build.plainEnv sb size clock).answer (.modify b off patch) d = (.error .einval, d) := by
  rw [Env.answer, if_pos (.inl rfl)]

theorem asked_readFull {σ : Type} {H : (op : BlockOp) → σ → BlockAns op × σ} (b : Nat) (t : σ) :
    asked H (readFull b) t = [.read b] := by
  show BlockOp.read b :: asked H (Effect.ofExcept (H (.read b) t).1 >>= _) _ = _
  cases (H (.read b) t).1 with
  | error e => rfl
  | ok r =>
    show _ :: asked H (if _ then _ else _) _ = _
    split <;> rfl

theorem asked_writeFull {σ : Type} {H : (op : BlockOp) → σ → BlockAns op × σ} (b : Nat) (x : Block) (t : σ) :
    asked H (writeFull b x) t = [.write b x] := by
  show BlockOp.write b x :: asked H (Effect.ofExcept (H (.write b x) t).1 >>= _) _ = _
  cases (H (.write b x) t).1 with
  | error e => rfl
  | ok r =>
    show _ :: asked H (if _ then _ else _) _ = _
    split <;> rfl

section Patch

variable {σ : Type} {H : (op : BlockOp) → σ → BlockAns op × σ} {n : Nat}

theorem asked_patch (b off : Nat) (patch : List UInt8) (t : σ) :
    ∃ rest, asked H ((patchAlternative n).instead (.modify b off patch)) t = .read b :: rest := by
  obtain ⟨rest, hrest⟩ := asked_bind (H := H) (readFull b) (fun buf => writeFull b (splice buf off patch)) t
  rw [asked_readFull] at hrest
  exact ⟨rest, (asked_attempt _ t).trans hrest⟩

theorem asked_patch_of_read {off : Nat} {patch : List UInt8} {t u : σ} {buf : Block}
    (h : run H (readFull b) t = some (.ok buf, u)) :
    asked H ((patchAlternative n).instead (.modify b off patch)) t = [.read b, .write b (splice buf off patch)] := by
  refine (asked_attempt _ t).trans ?_
  rw [asked_bind_ok h, asked_readFull, asked_writeFull]
  rfl

end Patch

section Match

variable (hS : C.Serving Stores Room (Build.rawEnv sb size).inRange)
  (hC : C.Lawful Stores Ahead (Build.rawEnv sb size).inRange (sb.dataRegionStart ≤ ·))
  (h32 : ∀ b, (Build.rawEnv sb size).inRange b → u32 b = b)
  {g : Ledger} {d : Disk} {op : BlockOp}

include hS hC

/-- A patch in the cache does what reading the block and writing it back does without one. -/
theorem tracks_instead (hop : (patchAlternative sb.blkSize).optional op) (h : Tracks Stores Ahead Room g d s)
    (hnext : Follows (Ledger.Allows sb size) Ledger.after (g.after op)
      (asked (Build.plainEnv sb size clock).answer ((patchAlternative sb.blkSize).instead op) d)) :
    (C.answer sb.blkSize clock op s).1 ≠ (patchAlternative sb.blkSize).refusal op ∧
      ∃ u, run (Build.plainEnv sb size clock).answer ((patchAlternative sb.blkSize).instead op) d =
          some (.ok (C.answer sb.blkSize clock op s).1, u) ∧
        Tracks Stores Ahead Room ((asked (Build.plainEnv sb size clock).answer ((patchAlternative sb.blkSize).instead op) d).foldl
          Ledger.after (g.after op)) u (C.answer sb.blkSize clock op s).2 := by
  obtain ⟨b, off, patch, rfl, hne, hlen⟩ := hop
  obtain ⟨hticks, L, hL, hK⟩ := h
  -- the ledger allows the read, so the block is on the device and not freed
  obtain ⟨rest, hrest⟩ := asked_patch (n := sb.blkSize) (H := (Build.plainEnv sb size clock).answer) b off patch d
  rw [hrest] at hnext
  obtain ⟨hb, hKb⟩ := hnext.1.1
  have hread : run (Build.plainEnv sb size clock).answer (readFull b) d = some (.ok (d.blk b), d) := exec_readFull hb d
  have hwrite : run (Build.plainEnv sb size clock).answer (writeFull b (splice (d.blk b) off patch)) d =
      some (.ok (), d.put b (splice (d.blk b) off patch)) := exec_writeFull hb _ d
  rw [asked_patch_of_read hread]
  obtain ⟨freed, _ | k⟩ := g
  · exact absurd hnext.1.2 (lt_irrefl 0)
  obtain ⟨t, hans, ht⟩ := answer_modify clock hS hC hL hb hne hlen
  rw [hans]
  refine ⟨by rintro ⟨⟩, _, run_attempt_of ((run_bind_ok hread).trans hwrite), hticks, _, (ht.pred hS).pred hS, fun c hc => ?_⟩
  rcases eq_or_ne c b with rfl | hcb
  · rw [Function.update_self, hK c hKb]
    exact (Function.update_self c _ d.blk).symm
  · rw [Function.update_of_ne hcb, hK c fun hfreed => hc (List.mem_filter.mpr ⟨hfreed, decide_eq_true hcb⟩)]
    exact (Function.update_of_ne hcb _ d.blk).symm

include h32

theorem tracks_step (hop : ¬ (patchAlternative sb.blkSize).optional op) (h : Tracks Stores Ahead Room g d s)
    (hallowed : g.Allows sb size op) :
    (C.answer sb.blkSize clock op s).1 = ((Build.plainEnv sb size clock).answer op d).1 ∧
      Tracks Stores Ahead Room (g.after op) ((Build.plainEnv sb size clock).answer op d).2 (C.answer sb.blkSize clock op s).2 := by
  obtain ⟨freed, _ | k⟩ := g
  · exact absurd hallowed.2 (lt_irrefl 0)
  obtain ⟨hticks, L, hL, hK⟩ := h
  obtain ⟨hord, -⟩ := hallowed
  cases op with
  | read b =>
    obtain ⟨t, hans, ht⟩ := answer_read clock hS hC h32 hL hord.1
    rw [hans, plain_read hord.1, hK b hord.2]
    exact ⟨rfl, hticks, L, ht, hK⟩
  | write b x =>
    obtain ⟨t, hans, ht⟩ := answer_write clock hS hC h32 hL hord x
    rw [hans, plain_write hord]
    refine ⟨rfl, hticks, _, ht, fun c hc => ?_⟩
    rcases eq_or_ne c b with rfl | hne
    · exact (Function.update_self c x L).trans (Function.update_self c x d.blk).symm
    · rw [Function.update_of_ne hne, hK c fun hfreed => hc (List.mem_filter.mpr ⟨hfreed, decide_eq_true hne⟩)]
      exact (Function.update_of_ne hne x d.blk).symm
  | modify b off patch =>
    -- the arguments are bad, so both builds refuse
    have hbad : patch = [] ∨ sb.blkSize < off + patch.length := by
      by_contra hgood
      exact hop ⟨b, off, patch, rfl, fun he => hgood (.inl he), not_lt.mp fun hlt => hgood (.inr hlt)⟩
    rw [CacheImpl.answer, if_pos hbad, plain_modify]
    exact ⟨rfl, hticks, L, hL.pred hS, hK⟩
  | invalidate b =>
    obtain ⟨L', hL', heq⟩ := answer_invalidate clock hS hC (hL.pred hS) hord.1 hord.2
    refine ⟨rfl, hticks, L', hL', fun c hc => ?_⟩
    change c ∉ b :: freed at hc
    rw [List.mem_cons, not_or] at hc
    exact (heq c hc.1).trans (hK c hc.2)
  | flush =>
    obtain ⟨t, hans, ht⟩ := answer_flush clock hS hC (hL.pred hS)
    rw [hans]
    exact ⟨rfl, hticks, L, ht, hK⟩
  | now =>
    refine ⟨?_, congrArg (· + 1) hticks, L, hL.pred hS, hK⟩
    show Except.ok (clock s.ticks) = Except.ok (clock d.ticks)
    rw [hticks]

theorem cache_matches : Matches (patchAlternative sb.blkSize) (Build.plainEnv sb size clock).answer (C.answer sb.blkSize clock)
    (Ledger.Allows sb size) Ledger.after (Tracks Stores Ahead Room) where
  step hop h hallowed := tracks_step hS hC h32 hop h hallowed
  refuses := by
    rintro op d ⟨b, off, patch, rfl, -⟩
    exact plain_modify b off patch d
  instead hop h _ hnext := tracks_instead hS hC hop h hnext

end Match

theorem patches_updateRootOwner (n uid gid : Nat) : Patches n (updateRootOwner sb uid gid) :=
  (patches_of_readOnly (readOnly_mofsReadInode _)).bind fun _ => (patches_mofsInodeStampNow _ _).bind fun _ =>
    patches_mofsWriteInode _ _

theorem patches_callAll (n : Nat) (P : Pools) (calls : List (User × PosixOp)) : Patches n (callAll sb P calls) := by
  induction calls generalizing P with
  | nil => exact .pure _
  | cons c calls ih => exact (patches_posixCall c.1 P c.2).bind fun x => (ih x.2).bind fun _ => .pure _

theorem patches_session (n : Nat) (rootOwner : Option (Nat × Nat)) (calls : List (User × PosixOp)) :
    Patches n (session sb rootOwner calls) := by
  cases rootOwner with
  | none => exact patches_callAll n _ calls
  | some o => exact (patches_updateRootOwner n o.1 o.2).bind fun _ => patches_callAll n _ calls

/-- The block operations of the calls, in the build without a cache. -/
def plainOps (sb : Superblock) (size : Nat) (clock : Nat → UInt64) (rootOwner : Option (Nat × Nat))
    (calls : List (User × PosixOp)) (d : Disk) : List BlockOp :=
  asked (Build.plainEnv sb size clock).answer (session sb rootOwner calls) d

/-- Without a cache, the calls use whole blocks of the device and free blocks of the data region only. They never read a block
that was freed and not written since, and they are few enough for the clocks of the pools. -/
def OrderlyCalls (clock : Nat → UInt64) (rootOwner : Option (Nat × Nat)) (calls : List (User × PosixOp)) (d : Dev) : Prop :=
  match loadSuperblock d.size d.bytes with
  | .error _ => True
  | .ok sb =>
    let ops := plainOps sb d.size clock rootOwner calls (diskOf sb.blkSize d.bytes)
    Follows (BlockOp.Orderly sb d.size) BlockOp.freed [] ops ∧ ops.length < 18446744073709551615

instance (clock : Nat → UInt64) (rootOwner : Option (Nat × Nat)) (calls : List (User × PosixOp)) (d : Dev) :
    Decidable (OrderlyCalls clock rootOwner calls d) := by
  unfold OrderlyCalls
  split <;> infer_instance

/-- The calls after a format that succeeds. -/
@[irreducible] def OrderlyFrom (fsSize blkSize : Int) (clock : Nat → UInt64) (rootOwner : Option (Nat × Nat)) (calls : List (User × PosixOp))
    (d : Dev) : Prop :=
  match run Dev.answer (mofsFormat fsSize blkSize) d with
  | some (.ok (), d') => OrderlyCalls clock rootOwner calls d'
  | _ => True

instance (fsSize blkSize : Int) (clock : Nat → UInt64) (rootOwner : Option (Nat × Nat)) (calls : List (User × PosixOp))
    (d : Dev) : Decidable (OrderlyFrom fsSize blkSize clock rootOwner calls d) := by
  unfold OrderlyFrom
  split <;> infer_instance

theorem u32_of_inRange {d : Dev} (h : loadSuperblock d.size d.bytes = .ok sb) (b : Nat)
    (hb : (Build.rawEnv sb d.size).inRange b) : u32 b = b := by
  obtain ⟨rfl, hadmitted⟩ := loadSuperblock_ok h
  obtain ⟨k, -, hblk⟩ := hadmitted.blk
  have hpos : 0 < (decodeSuperblock d.bytes).blkSize := by
    rw [hblk]
    exact Nat.mul_pos (by decide) (Nat.two_pow_pos k)
  have hle : b + 1 ≤ (decodeSuperblock d.bytes).holeBlkNum := hadmitted.hole ▸ (Nat.le_div_iff_mul_le hpos).mpr hb
  have hlt : (decodeSuperblock d.bytes).holeBlkNum < 4294967296 := leNat_lt _ 4 4
  exact Nat.mod_eq_of_lt (by omega)

/-- A file is created, gets a byte, is emptied, gets a byte at `offset`, and its first byte is read, all through the handle `h`. -/
def reuseCalls (h : Handle) (offset : Int) : List (User × PosixOp) :=
  [.open pathA (oflagCreat ||| oflagRdwr) 0o644, .pwrite h [1] 0, .ftruncate h 0, .pwrite h [1] offset, .pread h 1 0].map
    fun op => (⟨0, 0, [], true⟩, op)

/-- The build without a cache, with the write of a block spelled out: this is quicker to evaluate than `Function.update`. -/
def plainAnswer (sb : Superblock) (size : Nat) (clock : Nat → UInt64) : (op : BlockOp) → Disk → BlockAns op × Disk
  | .write b x, d =>
    let d' : Disk := { d with blk := fun c => if c = b then x else d.blk c }
    if (b + 1) * sb.blkSize ≤ size then (.ok ⟨1, 0⟩, d') else (.ok ⟨0, size - b * sb.blkSize⟩, d')
  | op, d => (Build.plainEnv sb size clock).answer op d

theorem plainEnv_answer (sb : Superblock) (size : Nat) (clock : Nat → UInt64) :
    (Build.plainEnv sb size clock).answer = plainAnswer sb size clock := by
  funext op d
  cases op with
  | write b x =>
    have hput : d.put b x = { d with blk := fun c => if c = b then x else d.blk c } := by
      rw [Disk.put]
      congr 1
      funext c
      exact Function.update_apply d.blk b x c
    rw [Env.answer, hput]
    rfl
  | _ => rfl

theorem plain_mountAndCall (clock : Nat → UInt64) (rootOwner : Option (Nat × Nat)) (calls : List (User × PosixOp)) (d : Dev) :
    Build.plain.mountAndCall clock rootOwner calls d = match loadSuperblock d.size d.bytes with
      | .error e => some (.error e)
      | .ok sb => (run (plainAnswer sb d.size clock) (session sb rootOwner calls) (diskOf sb.blkSize d.bytes)).map Prod.fst := by
  simp only [← plainEnv_answer]
  rfl

end Mofs
