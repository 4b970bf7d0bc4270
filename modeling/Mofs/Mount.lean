import Mofs.PortRun
import Mofs.View

namespace Mofs

open Effect Bytes

section

variable {e : Env} {sb : Superblock}

theorem Env.Serves.fits (hs : e.Serves sb) {b : Nat} (h : b < sb.holeBlkNum) : (b + 1) * e.blkSize ≤ e.size := by
  rw [hs.blk]
  exact (Nat.mul_le_mul_right _ h).trans hs.size

theorem exec_setBitmapBit (hl : sb.Laid) (hs : e.Serves sb) (d : Disk) {start k : Nat}
    (h : bitBlk sb.blkSize start k < sb.holeBlkNum) (u : Bool) :
    exec e (setBitmapBit sb start k u) d = some (.ok (), d.put (bitBlk sb.blkSize start k)
      (bitmapPut (d.blk (bitBlk sb.blkSize start k)) (k % (sb.blkSize * 8) / 8) (k % (sb.blkSize * 8) % 8) u)) := by
  have hle := hl.blk_le
  have hlt := hl.hole_lt
  have h8 : u32 (sb.blkSize * 8) = sb.blkSize * 8 := Nat.mod_eq_of_lt (by omega)
  have hb : u32 (start + k / (sb.blkSize * 8)) = bitBlk sb.blkSize start k := Nat.mod_eq_of_lt (lt_trans h hlt)
  simp only [setBitmapBit, h8, hb]
  rw [exec, run_bind_ok (exec_readFull (hs.fits h) d)]
  exact exec_writeFull (hs.fits h) _ d

theorem exec_setDataBitmapBit (hl : sb.Laid) (hs : e.Serves sb) (d : Disk) {k : Nat} (hk : k < sb.dataBlkNum) (u : Bool) :
    exec e (setDataBitmapBit sb k u) d = some (.ok (), d.put (bitBlk sb.blkSize sb.dataBitmapStart k)
      (bitmapPut (d.blk (bitBlk sb.blkSize sb.dataBitmapStart k)) (k % (sb.blkSize * 8) / 8) (k % (sb.blkSize * 8) % 8) u)) := by
  have := hl.dbitBlk_lt hk
  have := hl.data_ge
  have := hl.hole
  rw [setDataBitmapBit, if_neg (by omega)]
  exact exec_setBitmapBit hl hs d (by omega) u

theorem exec_setInodeBitmapBit (hl : sb.Laid) (hs : e.Serves sb) (d : Disk) {i : Nat} (h3 : 3 ≤ i) (hi : i < sb.inodeNum)
    (u : Bool) :
    exec e (setInodeBitmapBit sb i u) d = some (.ok (), d.put (bitBlk sb.blkSize sb.inodeBitmapStart i)
      (bitmapPut (d.blk (bitBlk sb.blkSize sb.inodeBitmapStart i)) (i % (sb.blkSize * 8) / 8) (i % (sb.blkSize * 8) % 8)
        u)) := by
  have := hl.ibitBlk_lt hi
  have := hl.table_ge
  have := hl.data_ge
  have := hl.hole
  rw [setInodeBitmapBit, if_neg (by omega)]
  exact exec_setBitmapBit hl hs d (by omega) u

section Table

variable {i : Nat} (hl : sb.Laid) (hs : e.Serves sb) (hi : i < sb.inodeNum) (h25 : i < 33554432) (d : Disk)

include hl hs hi h25

theorem Superblock.Laid.table_access : inodeBlk sb i = sb.tableBlk i ∧ ¬ (isNeg i ∨ sb.inodeNum ≤ i) ∧
    (sb.tableBlk i + 1) * e.blkSize ≤ e.size := by
  have hlt := hl.tableBlk_lt hi
  have hhole := hl.hole
  refine ⟨hl.inodeBlk_eq hi h25, ?_, hs.fits (by omega)⟩
  unfold isNeg
  omega

theorem exec_readInode_view : exec e (mofsReadInode sb i) d = some (.ok ((sb.view d).inode i), d) := by
  obtain ⟨hblk, hneg, hfit⟩ := hl.table_access hs hi h25
  rw [exec_mofsReadInode hneg (by rw [hblk]; exact hfit), hblk, inodeOffset_eq sb h25]
  simp [Superblock.view, hi]

theorem exec_writeInode_view (x : Inode) : ∃ d', exec e (mofsWriteInode sb i x) d = some (.ok (), d') ∧
    sb.view d' = (sb.view d).setInode i x ∧ ∀ b, b ≠ sb.tableBlk i → d'.blk b = d.blk b := by
  obtain ⟨hblk, hneg, hfit⟩ := hl.table_access hs hi h25
  have hw := exec_mofsWriteInode hneg (by rw [hblk]; exact hfit)
    (by rw [inodeOffset_eq sb h25, hs.blk]; exact hl.inode_fits i) x d
  rw [hblk, inodeOffset_eq sb h25] at hw
  exact ⟨_, hw, view_put_inode hl d hi x, fun b hb => Function.update_of_ne hb _ _⟩

theorem exec_stampPersist_view {mask : Nat} (hm : mask ≠ 0) : ∃ d', exec e (mofsInodeStampPersist sb i mask) d = some (.ok (), d') ∧
    sb.view d' = (sb.view d).setInode i (((sb.view d).inode i).stamp mask (e.clock d.ticks)) ∧
    ∀ b, b ≠ sb.tableBlk i → d'.blk b = d.blk b := by
  obtain ⟨hblk, hneg, hfit⟩ := hl.table_access hs hi h25
  have hx : decodeInode (d.blk (sb.tableBlk i)) (i * 64 % sb.blkSize) = (sb.view d).inode i := by
    simp [Superblock.view, hi]
  rw [mofsInodeStampPersist, if_neg (by tauto), hblk, inodeOffset_eq sb h25, exec, run_bind_ok (exec_readFull hfit d), hx,
    run_bind_ok (exec_mofsInodeStampNow hm _ d)]
  exact ⟨_, exec_writeFull hfit _ _, view_put_inode hl d.tick hi (((sb.view d).inode i).stamp mask (e.clock d.ticks)),
    fun b hb => Function.update_of_ne hb _ _⟩

end Table

end

/-- A mounted volume: a superblock with a sound layout on a fault-free device that holds all of it. -/
structure Mount where
  sb : Superblock
  env : Env
  ok : sb.Ok
  serves : env.Serves sb

/-- What may be left of a block with content `y` when its cached copy is dropped. -/
def Env.MayDrop (e : Env) (y z : Block) : Prop := if e.cached = true then ∃ n, z = (e.stale n).getD y else z = y

theorem Env.MayDrop.eq_of_uncached {e : Env} {y z : Block} (h : e.MayDrop y z) (hc : e.cached = false) : z = y := by
  rwa [Env.MayDrop, if_neg (by simp [hc])] at h

theorem Env.MayDrop.eq_of_stale {e : Env} {x y z : Block} (h : e.MayDrop y z) (hc : e.cached = true)
    (hs : ∀ n, e.stale n = some x) : z = x := by
  rw [Env.MayDrop, if_pos hc] at h
  obtain ⟨n, rfl⟩ := h
  rw [hs n]
  rfl

namespace Mount

variable {m : Mount} {V W : View} {α β : Type} {p : M α} {f : α → M β} {r : Except Errno α}
  {P Q : Except Errno α → View → Prop} {R : Except Errno β → View → Prop}

/-- From every disk that shows `V`, the program returns `r` and changes nothing. -/
def Reads (m : Mount) (p : M α) (V : View) (r : Except Errno α) : Prop :=
  ∀ d, m.sb.view d = V → exec m.env p d = some (r, d)

/-- From every disk that shows `V`, the program returns, and its result and the volume it leaves satisfy `Q`. -/
def Ensures (m : Mount) (p : M α) (V : View) (Q : Except Errno α → View → Prop) : Prop :=
  ∀ d, m.sb.view d = V → ∃ r d', exec m.env p d = some (r, d') ∧ Q r (m.sb.view d')

theorem Reads.of_exec (h : ∀ d, m.sb.view d = V → exec m.env p d = some (r, d)) : m.Reads p V r := h

theorem Reads.exec_eq (h : m.Reads p V r) {d : Disk} (hd : m.sb.view d = V) : exec m.env p d = some (r, d) := h d hd

theorem Reads.pure (a : α) : m.Reads (pure a) V (.ok a) := fun _ _ => rfl

theorem Reads.throw (e : Errno) : m.Reads (throw e : M α) V (.error e) := fun _ _ => rfl

theorem Reads.bind {a : α} {r : Except Errno β} (hp : m.Reads p V (.ok a)) (hf : m.Reads (f a) V r) :
    m.Reads (p >>= f) V r := fun d hd => by
  rw [exec, run_bind_ok (hp d hd)]
  exact hf d hd

theorem Reads.bind_error {e : Errno} (hp : m.Reads p V (.error e)) : m.Reads (p >>= f) V (.error e) :=
  fun d hd => run_bind_error (hp d hd)

theorem Reads.attempt (hp : m.Reads p V r) : m.Reads (attempt p) V (.ok r) :=
  fun d hd => run_attempt_of (hp d hd)

theorem Reads.ofExcept (x : Except Errno α) : m.Reads (ofExcept x) V x := fun _ _ => run_ofExcept x

theorem Reads.ensures (hp : m.Reads p V r) (hQ : Q r V) : m.Ensures p V Q :=
  fun d hd => ⟨r, d, hp d hd, by rw [hd]; exact hQ⟩

theorem Ensures.pure {a : α} (h : Q (.ok a) V) : m.Ensures (pure a) V Q := (Reads.pure a).ensures h

theorem Ensures.throw {e : Errno} (h : Q (.error e) V) : m.Ensures (throw e) V Q := (Reads.throw e).ensures h

theorem Ensures.mono (h : m.Ensures p V P) (hPQ : ∀ r W, P r W → Q r W) : m.Ensures p V Q := fun d hd => by
  obtain ⟨r, d', hr, hP⟩ := h d hd
  exact ⟨r, d', hr, hPQ _ _ hP⟩

theorem Ensures.bind (hp : m.Ensures p V P) (hf : ∀ a W, P (.ok a) W → m.Ensures (f a) W R)
    (he : ∀ e W, P (.error e) W → R (.error e) W) : m.Ensures (p >>= f) V R := fun d hd => by
  obtain ⟨r, d', hr, hP⟩ := hp d hd
  cases r with
  | error e => exact ⟨_, d', run_bind_error hr, he e _ hP⟩
  | ok a =>
    obtain ⟨r, d'', hr', hR⟩ := hf a _ hP d' rfl
    exact ⟨r, d'', by rw [exec, run_bind_ok hr]; exact hr', hR⟩

/-- What the first part of a sequence has to ensure, given the postcondition of the whole. -/
def After (m : Mount) (f : α → M β) (R : Except Errno β → View → Prop) : Except Errno α → View → Prop
  | .ok a, W => m.Ensures (f a) W R
  | .error e, W => R (.error e) W

theorem Ensures.seq (h : m.Ensures p V (m.After f R)) : m.Ensures (p >>= f) V R :=
  h.bind (fun _ _ hf => hf) (fun _ _ he => he)

theorem Ensures.bind_ok {a : α} {P : View → Prop} (hp : m.Ensures p V (fun r W => r = .ok a ∧ P W))
    (hf : ∀ W, P W → m.Ensures (f a) W R) : m.Ensures (p >>= f) V R := by
  refine hp.bind ?_ (by simp)
  rintro b W ⟨hb, hP⟩
  cases hb
  exact hf W hP

theorem Ensures.bind_reads {a : α} (hp : m.Reads p V (.ok a)) (hf : m.Ensures (f a) V R) :
    m.Ensures (p >>= f) V R := fun d hd => by
  obtain ⟨r, d', hr, hR⟩ := hf d hd
  exact ⟨r, d', by rw [exec, run_bind_ok (hp d hd)]; exact hr, hR⟩

theorem Ensures.attempt {Q : Except Errno (Except Errno α) → View → Prop} (h : m.Ensures p V P)
    (hPQ : ∀ r W, P r W → Q (.ok r) W) : m.Ensures (attempt p) V Q := fun d hd => by
  obtain ⟨r, d', hr, hP⟩ := h d hd
  exact ⟨_, d', run_attempt_of hr, hPQ _ _ hP⟩

theorem Ensures.attempt_eq {P : View → Prop} (h : m.Ensures p V (fun r' W => r' = r ∧ P W)) :
    m.Ensures (Effect.attempt p) V (fun r' W => r' = .ok r ∧ P W) :=
  h.attempt fun _ _ ⟨hr, hP⟩ => ⟨congrArg _ hr, hP⟩

theorem Ensures.exists (h : m.Ensures p V Q) {d : Disk} (hd : m.sb.view d = V) :
    ∃ r d', exec m.env p d = some (r, d') ∧ Q r (m.sb.view d') := h d hd

/-- What a program is known to ensure holds of the run that was observed. -/
theorem Ensures.of_exec (h : m.Ensures p V Q) {d d' : Disk} (hd : m.sb.view d = V)
    (hr : exec m.env p d = some (r, d')) : Q r (m.sb.view d') := by
  obtain ⟨r', d'', hr', hQ⟩ := h d hd
  rw [hr] at hr'
  cases hr'
  exact hQ

theorem Ensures.and (hP : m.Ensures p V P) (hQ : m.Ensures p V Q) : m.Ensures p V (fun r W => P r W ∧ Q r W) := fun d hd => by
  obtain ⟨r, d', hr, hP⟩ := hP d hd
  exact ⟨r, d', hr, hP, hQ.of_exec hd hr⟩

theorem fits (m : Mount) {b : Nat} (h : b < m.sb.holeBlkNum) : (b + 1) * m.env.blkSize ≤ m.env.size := m.serves.fits h

theorem inData_lt (m : Mount) {b : Nat} (h : m.sb.inData b) : b < m.sb.holeBlkNum :=
  lt_of_lt_of_le h.2 m.ok.hole

theorem inData_u32 (m : Mount) {k : Nat} (h : k < m.sb.dataBlkNum) :
    u32 (m.sb.dataRegionStart + k) = m.sb.dataRegionStart + k := by
  have := m.ok.hole
  have := m.ok.hole_lt
  exact Nat.mod_eq_of_lt (by omega)

theorem reads_readContinuousBlocks (m : Mount) (V : View) {b : Nat} (h : m.sb.inData b) :
    m.Reads (readContinuousBlocks b) V (.ok ⟨1, 0, V.blk b⟩) := fun d hd => by
  rw [exec_readContinuousBlocks (m.fits (m.inData_lt h)), ← hd]
  simp [Superblock.view, h]

theorem reads_readFull (m : Mount) (V : View) {b : Nat} (h : m.sb.inData b) :
    m.Reads (readFull b) V (.ok (V.blk b)) := fun d hd => by
  rw [exec_readFull (m.fits (m.inData_lt h)), ← hd]
  simp [Superblock.view, h]

theorem ensures_writeContinuousBlocks (m : Mount) {V : View} {b : Nat} (h : m.sb.inData b) {x : Block}
    {Q : Except Errno WriteAns → View → Prop} (hQ : Q (.ok ⟨1, 0⟩) (V.setBlk b x)) :
    m.Ensures (writeContinuousBlocks b x) V Q := fun d hd =>
  ⟨_, _, exec_writeContinuousBlocks (m.fits (m.inData_lt h)) x d, by rw [view_put_data m.ok.toLaid d h, hd]; exact hQ⟩

theorem ensures_writeFull (m : Mount) {V : View} {b : Nat} (h : m.sb.inData b) {x : Block}
    {Q : Except Errno Unit → View → Prop} (hQ : Q (.ok ()) (V.setBlk b x)) :
    m.Ensures (writeFull b x) V Q := fun d hd =>
  ⟨_, _, exec_writeFull (m.fits (m.inData_lt h)) x d, by rw [view_put_data m.ok.toLaid d h, hd]; exact hQ⟩

theorem ensures_bcacheInvalidate_drop (m : Mount) {V : View} {b : Nat} (h : m.sb.inData b)
    {Q : Except Errno Unit → View → Prop} (hQ : ∀ x, m.env.MayDrop (V.blk b) x → Q (.ok ()) (V.setBlk b x)) :
    m.Ensures (bcacheInvalidate b) V Q := fun d hd => by
  refine ⟨.ok (), (m.env.answer (.invalidate b) d).2, rfl, ?_⟩
  have hblk : V.blk b = d.blk b := by rw [← hd]; simp [Superblock.view, h]
  cases hc : m.env.cached with
  | false =>
    have ha : m.env.answer (.invalidate b) d = ((), d) := if_neg (by simp [hc])
    have hx : V.setBlk b (V.blk b) = V := by simp [View.setBlk]
    rw [ha, hd, ← hx]
    exact hQ _ (by simp [Env.MayDrop, hc])
  | true =>
    have ha : m.env.answer (.invalidate b) d = ((), d.drop b (m.env.stale d.drops)) := if_pos hc
    have hx := view_put_data m.ok.toLaid d h ((m.env.stale d.drops).getD (d.blk b))
    rw [ha]
    change Q (.ok ()) (m.sb.view (d.put b ((m.env.stale d.drops).getD (d.blk b))))
    rw [hx, hd]
    exact hQ _ (by rw [Env.MayDrop, if_pos hc, hblk]; exact ⟨_, rfl⟩)

/-- Dropping a block of the data region leaves it with some content. -/
theorem ensures_bcacheInvalidate (m : Mount) {V : View} {b : Nat} (h : m.sb.inData b)
    {Q : Except Errno Unit → View → Prop} (hQ : ∀ x, Q (.ok ()) (V.setBlk b x)) :
    m.Ensures (bcacheInvalidate b) V Q := m.ensures_bcacheInvalidate_drop h fun x _ => hQ x

theorem inodeBlk_lt (m : Mount) {i : Nat} (hi : i < m.sb.inodeNum) : m.sb.tableBlk i < m.sb.holeBlkNum := by
  have := m.ok.tableBlk_lt hi
  have := m.ok.hole
  omega

theorem not_isNeg (m : Mount) {i : Nat} (hi : i < m.sb.inodeNum) : ¬ (isNeg i ∨ m.sb.inodeNum ≤ i) := by
  have := m.ok.inodes_lt
  unfold isNeg
  omega

theorem reads_mofsReadInode (m : Mount) (V : View) {i : Nat} (hi : i < m.sb.inodeNum) :
    m.Reads (mofsReadInode m.sb i) V (.ok (V.inode i)) := fun d hd => by
  rw [exec_readInode_view m.ok.toLaid m.serves hi (hi.trans m.ok.inodes_lt), hd]

theorem reads_mofsReadInode_einval (m : Mount) (V : View) {i : Nat} (hi : m.sb.inodeNum ≤ i) :
    m.Reads (mofsReadInode m.sb i) V (.error .einval) := by
  rw [mofsReadInode, if_pos (Or.inr hi)]
  exact Reads.throw _

theorem ensures_mofsWriteInode (m : Mount) {V : View} {i : Nat} (hi : i < m.sb.inodeNum) {x : Inode}
    {Q : Except Errno Unit → View → Prop} (hQ : Q (.ok ()) (V.setInode i x)) :
    m.Ensures (mofsWriteInode m.sb i x) V Q := fun d hd => by
  obtain ⟨d', hw, hv, -⟩ := exec_writeInode_view m.ok.toLaid m.serves hi (hi.trans m.ok.inodes_lt) d x
  exact ⟨_, d', hw, by rw [hv, hd]; exact hQ⟩

theorem ensures_mofsInodeStampNow (m : Mount) {V : View} {x : Inode} {mask : Nat} (hm : mask ≠ 0)
    {Q : Except Errno Inode → View → Prop} (hQ : ∀ t, Q (.ok (x.stamp mask t)) V) :
    m.Ensures (mofsInodeStampNow x mask) V Q := fun d hd => by
  refine ⟨_, _, exec_mofsInodeStampNow hm x d, ?_⟩
  change Q _ (m.sb.view d)
  rw [hd]
  exact hQ _

/-- The end of most updates: stamp the inode at hand and write it. -/
theorem ensures_stampWrite (m : Mount) {V : View} {i : Nat} (hi : i < m.sb.inodeNum) {x : Inode} {mask : Nat}
    (hm : mask ≠ 0) {Q : Except Errno Unit → View → Prop} (hQ : ∀ t, Q (.ok ()) (V.setInode i (x.stamp mask t))) :
    m.Ensures (do let x ← mofsInodeStampNow x mask; mofsWriteInode m.sb i x) V Q :=
  Ensures.seq (m.ensures_mofsInodeStampNow hm fun t => m.ensures_mofsWriteInode hi (hQ t))

theorem ensures_mofsInodeStampPersist (m : Mount) {V : View} {i : Nat} (hi : i < m.sb.inodeNum) {mask : Nat}
    (hm : mask ≠ 0) {Q : Except Errno Unit → View → Prop}
    (hQ : ∀ t, Q (.ok ()) (V.setInode i ((V.inode i).stamp mask t))) :
    m.Ensures (mofsInodeStampPersist m.sb i mask) V Q := fun d hd => by
  obtain ⟨d', hw, hv, -⟩ := exec_stampPersist_view m.ok.toLaid m.serves hi (hi.trans m.ok.inodes_lt) d hm
  exact ⟨_, d', hw, by rw [hv, hd]; exact hQ _⟩

theorem ensures_setDataBitmapBit (m : Mount) {V : View} {k : Nat} (hk : k < m.sb.dataBlkNum) {u : Bool}
    {Q : Except Errno Unit → View → Prop} (hQ : Q (.ok ()) (V.setDbit k u)) :
    m.Ensures (setDataBitmapBit m.sb k u) V Q := fun d hd =>
  ⟨_, _, exec_setDataBitmapBit m.ok.toLaid m.serves d hk u, by rw [view_put_dbit m.ok.toLaid d hk u, hd]; exact hQ⟩

theorem ensures_setInodeBitmapBit (m : Mount) {V : View} {i : Nat} (h3 : 3 ≤ i) (hi : i < m.sb.inodeNum) {u : Bool}
    {Q : Except Errno Unit → View → Prop} (hQ : Q (.ok ()) (V.setIbit i u)) :
    m.Ensures (setInodeBitmapBit m.sb i u) V Q := fun d hd =>
  ⟨_, _, exec_setInodeBitmapBit m.ok.toLaid m.serves d h3 hi u, by rw [view_put_ibit m.ok.toLaid d hi u, hd]; exact hQ⟩

-- from here on the two judgements are used through their rules only
attribute [irreducible] Reads Ensures

end Mount

end Mofs
