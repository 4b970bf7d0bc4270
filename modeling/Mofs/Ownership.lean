import Mofs.Start

namespace Mofs

open Effect Bytes

/-- What a call of the block layer on inode `i` may leave, from the volume `V` with the owners `G`: ownership is
again consistent, every other inode has the record and the blocks it had, and a failed call has changed neither
inode `i` nor the data bitmap. -/
structure Settled (sb : Superblock) (V W : View) (G : Owners) (i : Nat) (r : Except Errno Unit) : Prop where
  wf : ∃ H, Wf sb W H ∧ ∀ j, j ≠ i → H.nodes j = G.nodes j ∧ H.data j = G.data j
  others : ∀ j, j ≠ i → W.inode j = V.inode j
  failed : r ≠ .ok () → W.inode i = V.inode i ∧ W.dbit = V.dbit

variable {V W : View} {G H : Owners} {i n start : Nat}

theorem Wf.settled_refl {sb : Superblock} (h : Wf sb V G) (i : Nat) (r : Except Errno Unit) : Settled sb V V G i r :=
  ⟨⟨G, h, fun _ _ => ⟨rfl, rfl⟩⟩, fun _ _ => rfl, fun _ => ⟨rfl, rfl⟩⟩

theorem Relisted.settled {sb : Superblock} {touched : List Nat} (h : Relisted sb V W G H i touched) :
    Settled sb V W G i (.ok ()) :=
  ⟨⟨H, h.wf, h.others⟩, h.inode_other, fun hr => absurd rfl hr⟩

namespace Mount

theorem settles_allocateDataBlock (m : Mount) (h : Wf m.sb V G) (hlt : i < m.sb.inodeNum) (hi : V.ibit i = true)
    (hn : n ≤ maxFileDataBlocks) :
    m.Ensures (allocateDataBlock m.sb i n) V (fun r W => Settled m.sb V W G i r) := by
  by_cases hn0 : n = 0
  · rw [allocateDataBlock, if_neg (m.not_isNeg' hlt), if_pos hn0]
    exact Ensures.pure (h.settled_refl i _)
  · refine (m.ensures_allocateDataBlock h hlt hi hn0 hn).mono fun r W hr => ?_
    split at hr
    · obtain ⟨rfl, H, hH, -⟩ := hr
      exact hH.1.settled
    · obtain ⟨rfl, rfl⟩ := hr
      exact h.settled_refl i _

theorem settles_freeDataBlock (m : Mount) (h : Wf m.sb V G) (hlt : i < m.sb.inodeNum) (hi : V.ibit i = true)
    (h32 : start + n < 4294967296) :
    m.Ensures (freeDataBlock m.sb i start n) V (fun r W => Settled m.sb V W G i r) := by
  by_cases hn0 : n = 0
  · rw [freeDataBlock, if_neg (m.not_isNeg' hlt), if_pos hn0]
    exact Ensures.pure (h.settled_refl i _)
  by_cases hstart : start < (G.data i).length
  · refine (m.ensures_freeDataBlock h hlt hi hn0 hstart h32).mono fun r W hr => ?_
    rcases hr with ⟨rfl, H, hH, -⟩ | ⟨rfl, -, hin, hib, hdb, hblk⟩
    · exact hH.settled
    · -- what was released and taken back holds data of this inode, so no list node has changed
      have hnode : ∀ j, ∀ b ∈ G.nodes j, W.blk b = V.blk b := fun j b hb =>
        hblk b fun hm => h.node_ne_data hb (mem_blocks_iff.mpr (.inl hm)) rfl
      exact ⟨⟨G, h.congr hin hib hdb hnode, fun _ _ => ⟨rfl, rfl⟩⟩, fun j _ => congrFun hin j,
        fun _ => ⟨congrFun hin i, hdb⟩⟩
  · rw [freeDataBlock, if_neg (m.not_isNeg' hlt), if_neg hn0]
    refine Ensures.bind_reads (m.reads_mofsReadInode V hlt) ?_
    simp only [h.nr i hi]
    rw [if_pos (Nat.not_lt.mp hstart)]
    exact Ensures.throw (h.settled_refl i _)

end Mount

/-- The block layer keeps block ownership consistent, for every inode in use and every request its callers make. -/
theorem blockLayer_keeps_ownership (m : Mount) {d : Disk} (h : Wf m.sb (m.sb.view d) G)
    (hi : (m.sb.view d).ibit i = true) :
    (∀ n ≤ maxFileDataBlocks, ∃ r d', exec m.env (allocateDataBlock m.sb i n) d = some (r, d') ∧
      Settled m.sb (m.sb.view d) (m.sb.view d') G i r) ∧
    (∀ start n, start + n < 4294967296 → ∃ r d', exec m.env (freeDataBlock m.sb i start n) d = some (r, d') ∧
      Settled m.sb (m.sb.view d) (m.sb.view d') G i r) := by
  have hlt := m.lt_of_ibit rfl hi
  exact ⟨fun n hn => (m.settles_allocateDataBlock h hlt hi hn).exists rfl,
    fun start n h32 => (m.settles_freeDataBlock h hlt hi h32).exists rfl⟩

theorem blockLayer_keeps_ownership_sixteen : ∃ (m : Mount) (d : Disk) (G : Owners), Wf m.sb (m.sb.view d) G ∧
    (m.sb.view d).ibit rootInodeNum = true ∧
    ∃ r d', exec m.env (allocateDataBlock m.sb rootInodeNum 3) d = some (r, d') ∧
      Settled m.sb (m.sb.view d) (m.sb.view d') G rootInodeNum r := by
  obtain ⟨env, t, hboot⟩ := booted_blankDev (show 8 < 16 by decide) (by decide)
  obtain ⟨hok, hserves, hfresh⟩ := hboot.fresh (by decide) (by decide)
  have hi : (((geometry (16 * 512) 512).superblock 512).view t).ibit rootInodeNum = true := by rw [hfresh.ibit]; rfl
  exact ⟨⟨_, env, hok, hserves⟩, t, _, hfresh.wf hok, hi,
    (blockLayer_keeps_ownership ⟨_, env, hok, hserves⟩ (hfresh.wf hok) hi).1 3 (by decide)⟩

end Mofs
