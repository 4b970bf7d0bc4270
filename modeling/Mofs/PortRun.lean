import Mofs.Inode

namespace Mofs

open Effect Bytes

variable {e : Env} {sb : Superblock} {b i o : Nat} {x : Block} {bs : List UInt8}

theorem exec_readContinuousBlocks (h : (b + 1) * e.blkSize ≤ e.size) (d : Disk) :
    exec e (readContinuousBlocks b) d = some (.ok ⟨1, 0, d.blk b⟩, d) := by
  have ha : e.answer (.read b) d = (.ok ⟨1, 0, d.blk b⟩, d) := if_pos h
  change run e.answer (ofExcept (e.answer (.read b) d).1) (e.answer (.read b) d).2 = _
  rw [ha]; rfl

theorem exec_writeContinuousBlocks (h : (b + 1) * e.blkSize ≤ e.size) (x : Block) (d : Disk) :
    exec e (writeContinuousBlocks b x) d = some (.ok ⟨1, 0⟩, d.put b x) := by
  have ha : e.answer (.write b x) d = (.ok ⟨1, 0⟩, d.put b x) := if_pos h
  change run e.answer (ofExcept (e.answer (.write b x) d).1) (e.answer (.write b x) d).2 = _
  rw [ha]; rfl

theorem exec_readFull (h : (b + 1) * e.blkSize ≤ e.size) (d : Disk) :
    exec e (readFull b) d = some (.ok (d.blk b), d) := by
  rw [exec, readFull, run_bind_ok (exec_readContinuousBlocks h d)]
  simp

theorem exec_readContinuousBlocks_short (h : ¬ (b + 1) * e.blkSize ≤ e.size) (d : Disk) :
    exec e (readContinuousBlocks b) d = some (.ok ⟨0, e.size - b * e.blkSize, d.blk b⟩, d) := by
  have ha : e.answer (.read b) d = (.ok ⟨0, e.size - b * e.blkSize, d.blk b⟩, d) := if_neg h
  change run e.answer (Effect.ofExcept (e.answer (.read b) d).1) (e.answer (.read b) d).2 = _
  rw [ha]
  rfl

theorem exec_readFull_short (h : ¬ (b + 1) * e.blkSize ≤ e.size) (d : Disk) :
    exec e (readFull b) d = some (.error .eio, d) := by
  rw [exec, readFull, run_bind_ok (exec_readContinuousBlocks_short h d), if_pos (Or.inl (Nat.zero_ne_one))]
  rfl

theorem exec_writeFull (h : (b + 1) * e.blkSize ≤ e.size) (x : Block) (d : Disk) :
    exec e (writeFull b x) d = some (.ok (), d.put b x) := by
  rw [exec, writeFull, run_bind_ok (exec_writeContinuousBlocks h x d)]
  simp

theorem exec_bcacheModifyBlock (h : (b + 1) * e.blkSize ≤ e.size) (hne : bs ≠ []) (hlen : o + bs.length ≤ e.blkSize)
    (d : Disk) :
    exec e (bcacheModifyBlock b o bs) d =
      if e.cached then some (.ok (), d.put b (splice (d.blk b) o bs)) else some (.error .einval, d) := by
  change run e.answer (ofExcept (e.answer (.modify b o bs) d).1) (e.answer (.modify b o bs) d).2 = _
  cases hc : e.cached with
  | false =>
    have ha : e.answer (.modify b o bs) d = (.error .einval, d) := if_pos (Or.inl hc)
    rw [ha]; rfl
  | true =>
    have hg : ¬ (e.cached = false ∨ bs = [] ∨ e.blkSize < o + bs.length) := by simp [hc, hne, hlen]
    have ha : e.answer (.modify b o bs) d = (.ok (), d.put b (splice (d.blk b) o bs)) := by
      simp only [Env.answer, if_neg hg, if_pos h]
    rw [ha]; rfl

theorem encodeInode_ne_nil (x : Inode) : encodeInode x ≠ [] := fun h => by
  have := congrArg List.length h
  simp [inodeBytes] at this

theorem exec_mofsReadInode (hi : ¬ (isNeg i ∨ sb.inodeNum ≤ i)) (h : (inodeBlk sb i + 1) * e.blkSize ≤ e.size) (d : Disk) :
    exec e (mofsReadInode sb i) d = some (.ok (decodeInode (d.blk (inodeBlk sb i)) (inodeOffset sb i)), d) := by
  rw [mofsReadInode, if_neg hi, exec, run_bind_ok (exec_readFull h d)]
  rfl

/-- With a cache the inode is patched in place, without one its block is read, changed and written. -/
theorem exec_mofsWriteInode (hi : ¬ (isNeg i ∨ sb.inodeNum ≤ i)) (h : (inodeBlk sb i + 1) * e.blkSize ≤ e.size)
    (hfit : inodeOffset sb i + inodeBytes ≤ e.blkSize) (x : Inode) (d : Disk) :
    exec e (mofsWriteInode sb i x) d = some (.ok (), d.put (inodeBlk sb i)
      (splice (d.blk (inodeBlk sb i)) (inodeOffset sb i) (encodeInode x))) := by
  rw [mofsWriteInode, if_neg hi]
  have hm := exec_bcacheModifyBlock h (encodeInode_ne_nil x) (by rw [length_encodeInode]; exact hfit) d
  cases hc : e.cached with
  | false =>
    rw [hc, if_neg (by decide)] at hm
    rw [exec, run_bind_ok (run_attempt_of hm)]
    dsimp only
    rw [run_bind_ok (exec_readFull h d)]
    exact exec_writeFull h _ d
  | true =>
    rw [hc, if_pos rfl] at hm
    rw [exec, run_bind_ok (run_attempt_of hm)]
    rfl

theorem exec_mofsInodeStampNow {mask : Nat} (hm : mask ≠ 0) (x : Inode) (d : Disk) :
    exec e (mofsInodeStampNow x mask) d = some (.ok (x.stamp mask (e.clock d.ticks)), d.tick) := by
  rw [mofsInodeStampNow, if_neg hm]
  rfl

end Mofs
