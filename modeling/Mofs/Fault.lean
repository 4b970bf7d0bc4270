import Mofs.Lib.Fault
import Mofs.Crash

namespace Mofs

open Effect Bytes

variable {α β : Type} {sb : Superblock}

/-- How an access to the device fails. Without a cache `mofs_bcache_modify_block` is refused before it accesses anything. -/
def Env.Fails (e : Env) : (op : BlockOp) → BlockAns op → Prop
  | .read _, a => ∃ err, a = Except.error err
  | .write _ _, a => ∃ err, a = Except.error err
  | .modify _ _ _, a => e.cached = true ∧ ∃ err, a = Except.error err
  | .flush, a => ∃ err, a = Except.error err
  | .invalidate _, _ => False
  | .now, _ => False

section Surfaces

variable {e : Env} {d d' : Disk}

theorem faulted_readContinuousBlocks {b : Nat} {r : Except Errno ReadAns}
    (h : Faulted e.answer e.Fails (readContinuousBlocks b) d r d') : (∃ err, r = .error err) ∧ d' = d := by
  rcases faulted_bind h with ⟨err, -, hc⟩ | ⟨a, u, hc, hr⟩ | ⟨a, u, -, hf⟩
  · obtain ⟨a, -, ha, -⟩ := faulted_call hc
    cases ha
  · obtain ⟨_, ⟨err, rfl⟩, ha, rfl⟩ := faulted_call hc
    cases ha
    cases hr
    exact ⟨⟨err, rfl⟩, rfl⟩
  · exact absurd hf not_faulted_ofExcept

theorem faulted_writeContinuousBlocks {b : Nat} {x : Block} {r : Except Errno WriteAns}
    (h : Faulted e.answer e.Fails (writeContinuousBlocks b x) d r d') : (∃ err, r = .error err) ∧ d' = d := by
  rcases faulted_bind h with ⟨err, -, hc⟩ | ⟨a, u, hc, hr⟩ | ⟨a, u, -, hf⟩
  · obtain ⟨a, -, ha, -⟩ := faulted_call hc
    cases ha
  · obtain ⟨_, ⟨err, rfl⟩, ha, rfl⟩ := faulted_call hc
    cases ha
    cases hr
    exact ⟨⟨err, rfl⟩, rfl⟩
  · exact absurd hf not_faulted_ofExcept

theorem faulted_bcacheModifyBlock {b off : Nat} {patch : List UInt8} {r : Except Errno Unit}
    (h : Faulted e.answer e.Fails (bcacheModifyBlock b off patch) d r d') :
    (∃ err, r = .error err) ∧ d' = d ∧ e.cached = true := by
  rcases faulted_bind h with ⟨err, -, hc⟩ | ⟨a, u, hc, hr⟩ | ⟨a, u, -, hf⟩
  · obtain ⟨a, -, ha, -⟩ := faulted_call hc
    cases ha
  · obtain ⟨_, ⟨hcached, err, rfl⟩, ha, rfl⟩ := faulted_call hc
    cases ha
    cases hr
    exact ⟨⟨err, rfl⟩, rfl, hcached⟩
  · exact absurd hf not_faulted_ofExcept

theorem faulted_writeFull {b : Nat} {x : Block} {r : Except Errno Unit} (h : Faulted e.answer e.Fails (writeFull b x) d r d') :
    (∃ err, r = .error err) ∧ d' = d := by
  rcases faulted_bind h with ⟨err, rfl, hw⟩ | ⟨a, u, hw, -⟩ | ⟨a, u, -, hf⟩
  · exact ⟨⟨err, rfl⟩, (faulted_writeContinuousBlocks hw).2⟩
  · obtain ⟨⟨err, he⟩, -⟩ := faulted_writeContinuousBlocks hw
    cases he
  · split at hf
    · exact absurd hf not_faulted_fail
    · exact absurd hf not_faulted_pure

theorem surfaces_readContinuousBlocks (b : Nat) : Surfaces e.answer e.Fails (readContinuousBlocks b) :=
  fun _ _ _ h => (faulted_readContinuousBlocks h).1

theorem surfaces_readFull (b : Nat) : Surfaces e.answer e.Fails (readFull b) := by
  refine (surfaces_readContinuousBlocks b).bind fun r => ?_
  split
  · exact .fail _
  · exact .pure _

theorem surfaces_mofsReadInode (i : Nat) : Surfaces e.answer e.Fails (mofsReadInode sb i) := by
  rw [mofsReadInode]
  split
  · exact .fail _
  · exact (surfaces_readFull _).bind fun _ => .pure _

theorem surfaces_exportFrom (nr fuel nodeAbs : Nat) (out : List Nat) :
    Surfaces e.answer e.Fails (exportFrom sb nr fuel nodeAbs out) := by
  induction fuel generalizing nodeAbs out with
  | zero => exact nofun
  | succ fuel ih =>
    rw [exportFrom]
    split
    · split
      · exact .fail _
      · exact .pure _
    refine (surfaces_readFull _).bind fun buf => ?_
    split
    · exact .fail _
    split
    · exact .fail _
    · exact ih _ _

theorem surfaces_exportDataBlockList (x : Inode) (absCap : Nat) :
    Surfaces e.answer e.Fails (exportDataBlockList sb x absCap) := by
  rw [exportDataBlockList]
  split
  · exact .pure _
  split
  · exact .fail _
  split
  · exact .fail _
  · exact surfaces_exportFrom _ _ _ _

theorem surfaces_scanBlocks (lo bound start req n blkIdx : Nat) (acc : List Nat) :
    Surfaces e.answer e.Fails (scanBlocks sb lo bound start req n blkIdx acc) := by
  induction n generalizing blkIdx acc with
  | zero => exact .pure _
  | succ n ih =>
    rw [scanBlocks]
    split
    · exact .pure _
    · exact (surfaces_readFull _).bind fun buf => ih _ _

theorem surfaces_findFreeDataBlockIndices (req : Nat) : Surfaces e.answer e.Fails (findFreeDataBlockIndices sb req) := by
  rw [findFreeDataBlockIndices, findFreeIndices]
  split
  · exact .pure _
  refine (surfaces_scanBlocks _ _ _ _ _ _ _).bind fun acc => ?_
  split
  · exact .fail _
  · exact .pure _

/-- A read-modify-write of one block fails as a whole. -/
theorem faulted_readWrite {b c : Nat} {g : Block → Block} {r : Except Errno Unit}
    (h : Faulted e.answer e.Fails (do let buf ← readFull b; writeFull c (g buf) : M Unit) d r d') :
    (∃ err, r = .error err) ∧ d' = d := by
  rcases faulted_bind h with ⟨err, rfl, hr⟩ | ⟨a, u, hr, -⟩ | ⟨a, u, hr, hf⟩
  · exact ⟨⟨err, rfl⟩, faulted_of_uses (ReadOnly.answer_same e) (readOnly_readFull b) hr⟩
  · obtain ⟨err, he⟩ := surfaces_readFull b _ _ _ hr
    cases he
  · obtain rfl := (readOnly_readFull b).exec_eq hr
    exact faulted_writeFull hf

end Surfaces

namespace Mount

variable {m : Mount} {V W : View} {p : M α} {f : α → M β} {P B : Except Errno α → View → Prop}
  {F F' : Except Errno β → View → Prop}

/-- Whenever the program returns from a disk that shows `V`, its result and the volume it leaves satisfy `Q`. -/
def Runs (m : Mount) (p : M α) (V : View) (Q : Except Errno α → View → Prop) : Prop :=
  ∀ d, m.sb.view d = V → ∀ r d', exec m.env p d = some (r, d') → Q r (m.sb.view d')

/-- Whenever the program returns from a disk that shows `V` although one access has failed, its result and the volume it
leaves satisfy `Q`. -/
def Fault (m : Mount) (p : M α) (V : View) (Q : Except Errno α → View → Prop) : Prop :=
  ∀ d, m.sb.view d = V → ∀ r d', Faulted m.env.answer m.env.Fails p d r d' → Q r (m.sb.view d')

theorem Ensures.runs (h : m.Ensures p V P) : m.Runs p V P := fun _ hd _ _ hr => h.of_exec hd hr

theorem Reads.runs {r : Except Errno α} (h : m.Reads p V r) (hP : P r V) : m.Runs p V P := (h.ensures hP).runs

theorem Fault.mono (h : m.Fault p V P) (hP : ∀ r W, P r W → B r W) : m.Fault p V B :=
  fun d hd r d' hf => hP _ _ (h d hd r d' hf)

theorem Fault.pure (a : α) : m.Fault (pure a) V P := fun _ _ _ _ h => absurd h not_faulted_pure

theorem Fault.throw (e : Errno) : m.Fault (throw e) V P := fun _ _ _ _ h => absurd h not_faulted_fail

/-- In a sequence the failure comes in the second part, or the second part runs after it. -/
theorem Fault.bind (hp : m.Runs p V P) (hfail : m.Fault p V B) (hlater : ∀ a W, P (.ok a) W → m.Fault (f a) W F)
    (hok : ∀ a W, B (.ok a) W → m.Runs (f a) W F) (herr : ∀ e W, B (.error e) W → F (.error e) W) :
    m.Fault (p >>= f) V F := fun d hd r d' h => by
  rcases faulted_bind h with ⟨e, rfl, hp'⟩ | ⟨a, u, hp', hr⟩ | ⟨a, u, hr, hf⟩
  · exact herr e _ (hfail d hd _ _ hp')
  · exact hok a _ (hfail d hd _ _ hp') u rfl r d' hr
  · exact hlater a _ (hp d hd _ _ hr) u rfl r d' hf

theorem Fault.ofExcept_bind {x : Except Errno α} (h : ∀ a, x = .ok a → m.Fault (f a) V F) :
    m.Fault (Effect.ofExcept x >>= f) V F := by
  cases x with
  | error e => exact Fault.throw e
  | ok a => exact h a rfl

theorem Fault.attempt {Q : Except Errno (Except Errno α) → View → Prop} (h : m.Fault p V P)
    (hPQ : ∀ r W, P r W → Q (.ok r) W) : m.Fault (attempt p) V Q := fun d hd r d' hf => by
  obtain ⟨r', rfl, hp⟩ := faulted_attempt hf
  exact hPQ _ _ (h d hd _ _ hp)

/-- A failure stops the program, which has changed nothing. -/
def Stops (m : Mount) (p : M α) (V : View) : Prop := m.Fault p V (fun r W => (∃ e, r = .error e) ∧ W = V)

theorem Stops.of_readOnly (hro : ReadOnly p) (hs : Surfaces m.env.answer m.env.Fails p) : m.Stops p V := fun d hd r d' h =>
  ⟨hs _ _ _ h, by rw [faulted_of_uses (ReadOnly.answer_same m.env) hro h, hd]⟩

theorem Stops.bind (hs : m.Stops p V) (hp : m.Runs p V P) (he : ∀ e, F (.error e) V)
    (hf : ∀ a W, P (.ok a) W → m.Fault (f a) W F) : m.Fault (p >>= f) V F := by
  refine Fault.bind hp hs hf ?_ ?_
  · rintro a W ⟨⟨e, he⟩, -⟩
    cases he
  · rintro e W ⟨-, rfl⟩
    exact he e

theorem Stops.bind_reads {a : α} (hs : m.Stops p V) (hp : m.Reads p V (.ok a)) (he : ∀ e, F (.error e) V)
    (hf : m.Fault (f a) V F) : m.Fault (p >>= f) V F := by
  refine hs.bind (hp.runs (P := fun r W => r = .ok a ∧ W = V) ⟨rfl, rfl⟩) he ?_
  rintro b W ⟨hb, rfl⟩
  cases hb
  exact hf

theorem Stops.bind_error {e : Errno} (hs : m.Stops p V) (hp : m.Reads p V (.error e)) (he : ∀ e, F (.error e) V) :
    m.Fault (p >>= f) V F := by
  refine hs.bind (hp.runs (P := fun r _ => r = .error e) rfl) he ?_
  rintro b W ⟨⟩

theorem stops_mofsReadInode (m : Mount) (V : View) (i : Nat) : m.Stops (mofsReadInode m.sb i) V :=
  .of_readOnly (readOnly_mofsReadInode i) (surfaces_mofsReadInode i)

theorem stops_exportDataBlockList (m : Mount) (V : View) (x : Inode) (absCap : Nat) :
    m.Stops (exportDataBlockList m.sb x absCap) V :=
  .of_readOnly (readOnly_exportDataBlockList x absCap) (surfaces_exportDataBlockList x absCap)

theorem stops_findFreeDataBlockIndices (m : Mount) (V : View) (req : Nat) :
    m.Stops (findFreeDataBlockIndices m.sb req) V :=
  .of_readOnly (readOnly_findFreeDataBlockIndices req) (surfaces_findFreeDataBlockIndices req)

theorem stops_writeFull (m : Mount) (V : View) (b : Nat) (x : Block) : m.Stops (writeFull b x) V := fun d hd r d' h => by
  obtain ⟨he, rfl⟩ := faulted_writeFull h
  exact ⟨he, hd⟩

theorem stops_setDataBitmapBit (m : Mount) (V : View) (k : Nat) (u : Bool) : m.Stops (setDataBitmapBit m.sb k u) V :=
  fun d hd r d' h => by
    rw [setDataBitmapBit] at h
    split at h
    · exact absurd h not_faulted_fail
    · obtain ⟨he, rfl⟩ := faulted_readWrite h
      exact ⟨he, hd⟩

theorem fault_bcacheInvalidate (m : Mount) (V : View) (b : Nat) (P : Except Errno Unit → View → Prop) :
    m.Fault (bcacheInvalidate b) V P := fun d _ r d' h => by
  rcases faulted_bind h with ⟨_, -, hc⟩ | ⟨a, u, hc, -⟩ | ⟨a, u, -, hf⟩
  · exact (faulted_call hc).choose_spec.1.elim
  · exact (faulted_call hc).choose_spec.1.elim
  · exact absurd hf not_faulted_pure

/-- A failing inode update has happened or it has not: when the cache refuses it with `EINVAL`, the inode is written the
other way. -/
theorem fault_mofsWriteInode (m : Mount) {i : Nat} (hi : i < m.sb.inodeNum) {x : Inode} {Q : Except Errno Unit → View → Prop}
    (herr : ∀ e, Q (.error e) V) (hok : Q (.ok ()) (V.setInode i x)) : m.Fault (mofsWriteInode m.sb i x) V Q :=
  fun d hd r d' h => by
    have hblk := m.ok.inodeBlk_eq hi
    have hfit : (inodeBlk m.sb i + 1) * m.env.blkSize ≤ m.env.size := by
      rw [hblk]
      exact m.fits (m.inodeBlk_lt hi)
    have hsame (r : Except Errno Unit) (he : ∃ e, r = .error e) : Q r (m.sb.view d) := by
      obtain ⟨e, rfl⟩ := he
      rw [hd]
      exact herr e
    rw [mofsWriteInode, if_neg (m.not_isNeg hi)] at h
    rcases faulted_bind h with ⟨e, -, ha⟩ | ⟨a, u, ha, hr⟩ | ⟨a, u, ha, hf⟩
    · obtain ⟨r', hr', -⟩ := faulted_attempt ha
      cases hr'
    · obtain ⟨r', hr', hmod⟩ := faulted_attempt ha
      cases hr'
      obtain ⟨⟨e, rfl⟩, rfl, -⟩ := faulted_bcacheModifyBlock hmod
      split at hr
      · rw [run_bind_ok (exec_readFull hfit u), show run m.env.answer (writeFull _ _) u = _ from exec_writeFull hfit _ u] at hr
        cases hr
        rw [hblk, m.ok.inodeOffset_eq hi, view_put_inode m.ok.toLaid u hi x, hd]
        exact hok
      · cases hr
        exact hsame _ ⟨e, rfl⟩
    · have hmod := exec_bcacheModifyBlock hfit (encodeInode_ne_nil x)
        (show inodeOffset m.sb i + (encodeInode x).length ≤ m.env.blkSize by
          rw [length_encodeInode, m.ok.inodeOffset_eq hi, m.serves.blk]
          exact m.ok.inode_fits i) d
      cases hc : m.env.cached with
      | false =>
        rw [hc, if_neg (by decide)] at hmod
        rw [run_attempt_of hmod] at ha
        cases ha
        obtain ⟨he, rfl⟩ := faulted_readWrite hf
        exact hsame _ he
      | true =>
        rw [hc, if_pos rfl] at hmod
        rw [run_attempt_of hmod] at ha
        cases ha
        exact absurd hf not_faulted_ofExcept

/-- An access of an inode update can fail so that nothing is written. -/
theorem faulted_inodeUpdate (m : Mount) {i : Nat} (hi : i < m.sb.inodeNum) (x : Inode) (d : Disk) :
    Faulted m.env.answer m.env.Fails (mofsWriteInode m.sb i x) d (.error .eio) d := by
  have hblk := m.ok.inodeBlk_eq hi
  have hfit : (inodeBlk m.sb i + 1) * m.env.blkSize ≤ m.env.size := by
    rw [hblk]
    exact m.fits (m.inodeBlk_lt hi)
  rw [mofsWriteInode, if_neg (m.not_isNeg hi)]
  cases hc : m.env.cached with
  | false =>
    have hmod := exec_bcacheModifyBlock hfit (encodeInode_ne_nil x)
      (show inodeOffset m.sb i + (encodeInode x).length ≤ m.env.blkSize by
        rw [length_encodeInode, m.ok.inodeOffset_eq hi, m.serves.blk]
        exact m.ok.inode_fits i) d
    rw [hc, if_neg (by decide)] at hmod
    refine Faulted.bind_later (run_attempt_of hmod) (Faulted.bind_error (e := Errno.eio) (Faulted.bind_error ?_))
    exact .here ⟨Errno.eio, rfl⟩ rfl
  | true =>
    refine Faulted.bind_ok (a := .error .eio) (Faulted.attempt ?_) rfl
    exact .here ⟨hc, Errno.eio, rfl⟩ rfl

theorem faulted_bitUpdate (m : Mount) {k : Nat} (hk : k < m.sb.dataBlkNum) (u : Bool) (d : Disk) :
    Faulted m.env.answer m.env.Fails (setDataBitmapBit m.sb k u) d (.error .eio) d := by
  rw [setDataBitmapBit, if_neg (Nat.not_le.mpr hk)]
  refine Faulted.bind_error (e := Errno.eio) (Faulted.bind_error ?_)
  exact .here ⟨Errno.eio, rfl⟩ rfl

/-- When a mark fails, the ones made before it are taken back. -/
theorem stops_markUsed (m : Mount) {ks : List Nat} (hk : ∀ k ∈ ks, k < m.sb.dataBlkNum) (hfree : ∀ k ∈ ks, V.dbit k = false) :
    m.Stops (markUsed m.sb [] ks) V := by
  suffices h : ∀ marked : List Nat, (∀ k ∈ marked ++ ks, k < m.sb.dataBlkNum ∧ V.dbit k = false) →
      m.Fault (markUsed m.sb marked ks) (V.setDbits marked true) (fun r W => (∃ e, r = .error e) ∧ W = V) by
    have := h [] fun k hm => ⟨hk k (by simpa using hm), hfree k (by simpa using hm)⟩
    rwa [View.setDbits_nil] at this
  clear hk hfree
  induction ks with
  | nil => exact fun _ _ => Fault.pure _
  | cons k ks ih =>
    intro marked hm
    refine Fault.bind (P := fun r W => r = .ok (.ok ()) ∧ W = (V.setDbits marked true).setDbit k true)
      (B := fun r W => (∃ e, r = .ok (.error e)) ∧ W = V.setDbits marked true) ?_ ?_ ?_ ?_ ?_
    · have hset : m.Ensures (setDataBitmapBit m.sb k true) (V.setDbits marked true) (fun r W =>
          r = .ok () ∧ W = (V.setDbits marked true).setDbit k true) :=
        m.ensures_setDataBitmapBit (hm k (by simp)).1 ⟨rfl, rfl⟩
      exact hset.attempt_eq.runs
    · refine (m.stops_setDataBitmapBit _ k true).attempt ?_
      rintro r W ⟨⟨e, rfl⟩, rfl⟩
      exact ⟨⟨e, rfl⟩, rfl⟩
    · rintro a W ⟨ha, rfl⟩
      cases ha
      have hnext : (V.setDbits marked true).setDbit k true = V.setDbits (marked ++ [k]) true := by
        refine View.ext rfl rfl (funext fun j => ?_) rfl
        by_cases hj : j = k <;> simp [View.setDbits, View.setDbit, hj]
      rw [hnext]
      exact ih (marked ++ [k]) fun j hj => hm j (by simpa using hj)
    · rintro a W ⟨⟨e, ha⟩, rfl⟩
      cases ha
      refine (Ensures.seq (m.ensures_updateDataBitmapBits (fun j hj => (hm j (by simp [hj])).1) ?_)).runs
      refine Ensures.throw ⟨⟨e, rfl⟩, ?_⟩
      exact View.setDbits_undo (fun j hj => (hm j (by simp [hj])).2) true
    · rintro e W ⟨⟨e', he⟩, -⟩
      cases he

end Mount

/-- What `rebuild_data_block_list` writes to block `b` when it puts a list of `ds` into the blocks `idx`. -/
def nodeFor (sb : Superblock) : (idx ds : List Nat) → (b : Nat) → Option Block
  | [], _, _ => none
  | k :: ks, ds, b =>
    if b = sb.dataRegionStart + k then some (encodeNode (nextAbs sb ks) (ds.take (listPtrsCap sb)))
    else nodeFor sb ks (ds.drop (listPtrsCap sb)) b

theorem nodeFor_eq_none {idx : List Nat} (ds : List Nat) {b : Nat} (h : b ∉ sb.abs idx) : nodeFor sb idx ds b = none := by
  induction idx generalizing ds with
  | nil => rfl
  | cons k ks ih =>
    simp only [Superblock.abs, List.map_cons, List.mem_cons, not_or] at h
    rw [nodeFor, if_neg h.1]
    exact ih _ h.2

/-- Some nodes of a list of `ds` may have been written to the blocks `idx`, and nothing else. -/
structure HalfListed (sb : Superblock) (V W : View) (idx ds : List Nat) : Prop where
  inode : W.inode = V.inode
  ibit : W.ibit = V.ibit
  dbit : W.dbit = V.dbit
  blk : ∀ b, W.blk b = V.blk b ∨ nodeFor sb idx ds b = some (W.blk b)

theorem HalfListed.refl (sb : Superblock) (V : View) (idx ds : List Nat) : HalfListed sb V V idx ds :=
  ⟨rfl, rfl, rfl, fun _ => .inl rfl⟩

namespace Mount

variable {m : Mount} {V W : View}

/-- The nodes a complete list consists of. -/
theorem ensures_writeListNodes_blk (m : Mount) {idx : List Nat} (hidx : ∀ k ∈ idx, k < m.sb.dataBlkNum) (hn : idx.Nodup)
    (ds : List Nat) : m.Ensures (writeListNodes m.sb idx ds) V (fun r W =>
      r = .ok () ∧ ∀ b, W.blk b = (nodeFor m.sb idx ds b).getD (V.blk b)) := by
  induction idx generalizing V ds with
  | nil => exact Ensures.pure ⟨rfl, fun _ => rfl⟩
  | cons k ks ih =>
    rw [writeListNodes, m.inData_u32 (hidx k (by simp)), writeListNode]
    refine Ensures.seq (m.ensures_writeFull (m.inData_add (hidx k (by simp))) ?_)
    refine (ih (fun j hj => hidx j (by simp [hj])) (List.nodup_cons.mp hn).2 _).mono fun r W hW => ?_
    refine ⟨hW.1, fun b => ?_⟩
    rw [hW.2 b, nodeFor]
    by_cases hb : b = m.sb.dataRegionStart + k
    · have hnot : b ∉ m.sb.abs ks := by
        rw [hb, add_mem_abs]
        exact (List.nodup_cons.mp hn).1
      rw [nodeFor_eq_none _ hnot, if_pos hb]
      simp [hb, View.setBlk]
    · simp [hb, View.setBlk]

theorem ensures_rebuildDataBlockList_blk (m : Mount) (x : Inode) (ds : List Nat) :
    m.Ensures (rebuildDataBlockList m.sb x ds) V (fun r W => ∀ y, r = .ok y → ∀ b, W.blk b =
      (nodeFor m.sb ((m.sb.freeData V).take (listNodesForBlockCount m.sb ds.length)) ds b).getD (V.blk b)) := by
  rw [rebuildDataBlockList]
  split
  · next h0 =>
    rw [h0, listNodes_zero, List.take_zero]
    exact Ensures.pure fun _ _ _ => rfl
  split
  · refine Ensures.throw ?_
    rintro y ⟨⟩
  generalize listNodesForBlockCount m.sb ds.length = c
  have hfind := m.reads_findFreeDataBlockIndices V c
  by_cases hlt : (m.sb.freeData V).length < c
  · rw [if_pos hlt] at hfind
    refine (Reads.bind_error hfind).ensures ?_
    rintro y ⟨⟩
  rw [if_neg hlt] at hfind
  refine Ensures.bind_reads hfind ?_
  have hidx : ∀ k ∈ (m.sb.freeData V).take c, k < m.sb.dataBlkNum := fun k hk =>
    (mem_freeData.mp (List.mem_of_mem_take hk)).1
  refine Ensures.seq (m.ensures_markUsed hidx ?_)
  have hwrite := m.ensures_writeListNodes_blk (V := V.setDbits ((m.sb.freeData V).take c) true) hidx
    (nodup_freeData m.sb V).take ds
  exact Ensures.bind_ok hwrite.attempt_eq fun W hW => Ensures.pure fun _ _ => hW

theorem fault_writeListNodes (m : Mount) {idx : List Nat} (hidx : ∀ k ∈ idx, k < m.sb.dataBlkNum) (hn : idx.Nodup)
    (ds : List Nat) : m.Fault (writeListNodes m.sb idx ds) V (fun r W => (∃ e, r = .error e) ∧ HalfListed m.sb V W idx ds) := by
  induction idx generalizing V ds with
  | nil => exact Fault.pure _
  | cons k ks ih =>
    rw [writeListNodes, m.inData_u32 (hidx k (by simp)), writeListNode]
    set x := encodeNode (nextAbs m.sb ks) (ds.take (listPtrsCap m.sb)) with hx
    refine (m.stops_writeFull V _ x).bind (P := fun r W => W = V.setBlk (m.sb.dataRegionStart + k) x)
      (m.ensures_writeFull (m.inData_add (hidx k (by simp))) rfl).runs (fun e => ⟨⟨e, rfl⟩, .refl _ _ _ _⟩) ?_
    rintro _ _ rfl
    refine (ih (fun j hj => hidx j (by simp [hj])) (List.nodup_cons.mp hn).2 _).mono fun r W hW => ?_
    obtain ⟨he, hW⟩ := hW
    refine ⟨he, hW.inode, hW.ibit, hW.dbit, fun b => ?_⟩
    rw [nodeFor]
    by_cases hb : b = m.sb.dataRegionStart + k
    · have hnot : b ∉ m.sb.abs ks := by
        rw [hb, add_mem_abs]
        exact (List.nodup_cons.mp hn).1
      right
      rw [if_pos hb]
      rcases hW.blk b with hWb | hWb
      · rw [hWb]
        simp [View.setBlk, hb, hx]
      · simp [nodeFor_eq_none _ hnot] at hWb
    · rw [if_neg hb]
      refine (hW.blk b).imp_left fun hWb => ?_
      rw [hWb]
      simp [View.setBlk, hb]

/-- A list that cannot be finished is given up, and its blocks are free again. -/
theorem fault_rebuildDataBlockList (m : Mount) (x : Inode) (ds : List Nat) :
    m.Fault (rebuildDataBlockList m.sb x ds) V (fun r W => (∃ e, r = .error e) ∧
      HalfListed m.sb V W ((m.sb.freeData V).take (listNodesForBlockCount m.sb ds.length)) ds) := by
  rw [rebuildDataBlockList]
  split
  · exact Fault.pure _
  split
  · exact Fault.throw _
  generalize listNodesForBlockCount m.sb ds.length = c
  have hfind := m.reads_findFreeDataBlockIndices V c
  have hstop := m.stops_findFreeDataBlockIndices V c
  by_cases hlt : (m.sb.freeData V).length < c
  · rw [if_pos hlt] at hfind
    exact hstop.bind_error hfind fun e => ⟨⟨e, rfl⟩, .refl _ _ _ _⟩
  rw [if_neg hlt] at hfind
  refine hstop.bind_reads hfind (fun e => ⟨⟨e, rfl⟩, .refl _ _ _ _⟩) ?_
  have hidx : ∀ k ∈ (m.sb.freeData V).take c, k < m.sb.dataBlkNum ∧ V.dbit k = false := fun k hk =>
    mem_freeData.mp (List.mem_of_mem_take hk)
  have hnd : ((m.sb.freeData V).take c).Nodup := (nodup_freeData m.sb V).take
  generalize (m.sb.freeData V).take c = idx at *
  refine (m.stops_markUsed (fun k hk => (hidx k hk).1) fun k hk => (hidx k hk).2).bind
    (P := fun r W => W = V.setDbits idx true) (m.ensures_markUsed (fun k hk => (hidx k hk).1) rfl).runs
    (fun e => ⟨⟨e, rfl⟩, .refl _ _ _ _⟩) ?_
  rintro _ _ rfl
  refine Fault.bind (P := fun r _ => r = .ok (.ok ()))
    (B := fun r W => (∃ e, r = .ok (.error e)) ∧ HalfListed m.sb (V.setDbits idx true) W idx ds) ?_ ?_ ?_ ?_ ?_
  · exact ((m.ensures_writeListNodes_blk (fun k hk => (hidx k hk).1) hnd ds).attempt fun r W hr => by rw [hr.1]).runs
  · refine (m.fault_writeListNodes (fun k hk => (hidx k hk).1) hnd ds).attempt ?_
    rintro r W ⟨⟨e, rfl⟩, hW⟩
    exact ⟨⟨e, rfl⟩, hW⟩
  · rintro a W ha
    cases ha
    exact Fault.pure _
  · rintro a W ⟨⟨e, ha⟩, hW⟩
    cases ha
    refine (Ensures.seq (m.ensures_updateDataBitmapBits (fun k hk => (hidx k hk).1) ?_)).runs
    refine Ensures.throw ?_
    have hundo : (W.setDbits idx false).dbit = V.dbit := by
      rw [← View.setDbits_undo (fun k hk => (hidx k hk).2) true]
      simp only [View.setDbits, hW.dbit]
    exact ⟨⟨e, rfl⟩, hW.inode, hW.ibit, hundo, hW.blk⟩
  · rintro e W ⟨⟨e', he⟩, -⟩
    cases he

end Mount

end Mofs
