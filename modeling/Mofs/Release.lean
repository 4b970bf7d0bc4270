import Mofs.Alloc

namespace Mofs

open Effect Bytes

variable {sb : Superblock} {V W : View} {G : Owners}

/-- Ownership reads the inodes, the bitmaps and the list nodes only. -/
theorem Wf.congr (h : Wf sb V G) (hin : W.inode = V.inode) (hib : W.ibit = V.ibit) (hdb : W.dbit = V.dbit)
    (hblk : ∀ i, ∀ b ∈ G.nodes i, W.blk b = V.blk b) : Wf sb W G where
  range i hi := h.range i (by rwa [hib] at hi)
  chain i hi := by
    rw [hin]
    exact (h.chain i (by rwa [hib] at hi)).congr fun b hb => (hblk i b hb).symm
  nr i hi := by rw [hin]; exact h.nr i (by rwa [hib] at hi)
  max := h.max
  free i hi := h.free i (by rwa [hib] at hi)
  nodup := h.nodup
  disjoint := h.disjoint
  inData := h.inData
  bits k hk := by rw [hdb]; exact h.bits k hk

/-- The blocks `free_data_block` gives back and the ones it keeps, of a file with the blocks `ds`. -/
def releasedBlocks (ds : List Nat) (start n : Nat) : List Nat := (ds.drop start).take (min n (ds.length - start))

def keptBlocks (ds : List Nat) (start n : Nat) : List Nat :=
  ds.take start ++ ds.drop (start + min n (ds.length - start))

theorem split_blocks (ds : List Nat) (start n : Nat) :
    ds = ds.take start ++ releasedBlocks ds start n ++ ds.drop (start + min n (ds.length - start)) := by
  rw [releasedBlocks, List.append_assoc, ← List.drop_drop, List.take_append_drop, List.take_append_drop]

theorem mem_blocks_iff {ds : List Nat} {start n b : Nat} :
    b ∈ ds ↔ b ∈ releasedBlocks ds start n ∨ b ∈ keptBlocks ds start n := by
  conv_lhs => rw [split_blocks ds start n]
  simp only [keptBlocks, List.mem_append]
  tauto

theorem nodup_kept {ds : List Nat} (h : ds.Nodup) (start n : Nat) :
    (keptBlocks ds start n).Nodup ∧ ∀ b ∈ releasedBlocks ds start n, b ∉ keptBlocks ds start n := by
  rw [split_blocks ds start n, List.nodup_append, List.nodup_append] at h
  obtain ⟨⟨h1, -, h12⟩, h3, h123⟩ := h
  simp only [keptBlocks, List.mem_append, List.nodup_append] at h123 ⊢
  refine ⟨⟨h1, h3, fun a ha b hb => h123 a (.inl ha) b hb⟩, fun b hb hk => ?_⟩
  rcases hk with hk | hk
  · exact h12 b hk b hb rfl
  · exact h123 b (.inr hb) b hk rfl

theorem keptBlocks_zero {ds : List Nat} {n : Nat} (h : ds.length ≤ n) : keptBlocks ds 0 n = [] := by
  simp [keptBlocks, h]

theorem keptBlocks_tail {ds : List Nat} {start n : Nat} (h : ds.length ≤ start + n) :
    keptBlocks ds start n = ds.take start := by
  rw [keptBlocks, List.drop_eq_nil_of_le (by omega), List.append_nil]

/-- Room for the list of the `kept` blocks of a file that gives `released` blocks back: its nodes are written while the old
ones are still held. -/
def Superblock.canRelist (sb : Superblock) (V : View) (released kept : Nat) : Prop :=
  listNodesForBlockCount sb kept ≤ (sb.freeData V).length + released

instance (sb : Superblock) (V : View) (released kept : Nat) : Decidable (sb.canRelist V released kept) := by
  unfold Superblock.canRelist; infer_instance

namespace Mount

/-- The blocks that a release has made free. -/
theorem Dropped.length_freeData {bs : List Nat} (h : Dropped sb V W bs) (hn : bs.Nodup) (hd : ∀ b ∈ bs, sb.inData b)
    (hused : ∀ b ∈ bs, V.dbit (b - sb.dataRegionStart) = true) :
    (sb.freeData W).length = (sb.freeData V).length + bs.length := by
  have hinj : (bs.map (· - sb.dataRegionStart)).Nodup := by
    refine List.pairwise_map.mpr (hn.imp_of_mem fun {a b} ha hb hne he => hne ?_)
    have := (hd a ha).1
    have := (hd b hb).1
    omega
  have hperm : (sb.freeData W).Perm (sb.freeData V ++ bs.map (· - sb.dataRegionStart)) := by
    refine (List.perm_ext_iff_of_nodup (nodup_freeData sb W) ?_).mpr fun k => ?_
    · refine List.nodup_append.mpr ⟨nodup_freeData sb V, hinj, fun k hk k' hm he => ?_⟩
      subst he
      obtain ⟨b, hb, rfl⟩ := List.mem_map.mp hm
      have := hused b hb
      rw [(mem_freeData.mp hk).2] at this
      cases this
    · rw [List.mem_append, mem_freeData, mem_freeData, h.dbit k]
      simp only [Bool.and_eq_false_iff, Bool.not_eq_false', decide_eq_true_eq]
      constructor
      · rintro ⟨hk, hk' | hk'⟩
        · exact .inl ⟨hk, hk'⟩
        · exact .inr (List.mem_map.mpr ⟨_, hk', by omega⟩)
      · rintro (⟨hk, hk'⟩ | hk)
        · exact ⟨hk, .inl hk'⟩
        · obtain ⟨b, hb, rfl⟩ := List.mem_map.mp hk
          have h1 := (hd b hb).1
          have h2 := (hd b hb).2
          exact ⟨by omega, .inr (by rwa [show sb.dataRegionStart + (b - sb.dataRegionStart) = b by omega])⟩
  rw [hperm.length_eq, List.length_append, List.length_map]

theorem ensures_releaseBlocks (m : Mount) {bs : List Nat} (hd : ∀ b ∈ bs, m.sb.inData b) (hn : bs.Nodup) :
    m.Ensures (releaseBlocks m.sb bs) V (fun r W => r = .ok () ∧ Dropped m.sb V W bs ∧
      ∀ b ∈ bs, m.env.MayDrop (V.blk b) (W.blk b)) := by
  induction bs generalizing V with
  | nil => exact Ensures.pure ⟨rfl, Dropped.nil _ _, by simp⟩
  | cons b bs ih =>
    obtain ⟨hb, hn⟩ := List.nodup_cons.mp hn
    have hdat : m.sb.inData b := hd b (by simp)
    have hlt : b - m.sb.dataRegionStart < m.sb.dataBlkNum := hdat.idx_lt
    rw [releaseBlocks, m.absToDataIdx_ok hdat]
    refine Ensures.bind_reads (Reads.ofExcept _) ?_
    refine Ensures.seq (m.ensures_setDataBitmapBit hlt ?_)
    refine Ensures.seq (m.ensures_bcacheInvalidate_drop hdat fun x hx => ?_)
    refine (ih (fun c hc => hd c (by simp [hc])) hn).mono ?_
    rintro r W ⟨rfl, hW, hdrop⟩
    exact ⟨rfl, hW.cons hdat, m.mayDrop_cons hb hx hW hdrop⟩

/-- The rollback sets the bits that the release has cleared, and nothing else. -/
theorem ensures_rollbackBitmap_bits (m : Mount) {bs : List Nat} {V₁ : View} (hd : ∀ b ∈ bs, m.sb.inData b)
    (hused : ∀ b ∈ bs, V.dbit (b - m.sb.dataRegionStart) = true)
    (hbit : ∀ k, V₁.dbit k = (V.dbit k && !decide (m.sb.dataRegionStart + k ∈ bs))) :
    m.Ensures (rollbackBitmap m.sb bs) V₁ (fun r W => r = .ok () ∧ W = { V₁ with dbit := V.dbit }) := by
  have hmap : bs.map (fun a => u32 (a + 4294967296 - m.sb.dataRegionStart)) =
      bs.map (fun a => a - m.sb.dataRegionStart) :=
    List.map_congr_left fun b hb => by
      have h1 := (hd b hb).1
      have := m.data_lt (hd b hb)
      rw [u32]
      omega
  rw [rollbackBitmap, hmap]
  refine m.ensures_updateDataBitmapBits (fun k hk => ?_) ⟨rfl, View.ext rfl rfl (funext fun k => ?_) rfl⟩
  · obtain ⟨b, hb, rfl⟩ := List.mem_map.mp hk
    have h1 := (hd b hb).1
    have h2 := (hd b hb).2
    omega
  · by_cases hk : k ∈ bs.map (fun a => a - m.sb.dataRegionStart)
    · obtain ⟨b, hb, rfl⟩ := List.mem_map.mp hk
      simp only [View.setDbits, if_pos hk]
      exact (hused b hb).symm
    · have hnot : m.sb.dataRegionStart + k ∉ bs := fun hm => hk (List.mem_map.mpr ⟨_, hm, by omega⟩)
      simp only [View.setDbits, if_neg hk, hbit k, hnot, decide_false, Bool.not_false, Bool.and_true]

theorem ensures_rollbackBitmap (m : Mount) {bs : List Nat} {V₁ : View} (hd : ∀ b ∈ bs, m.sb.inData b)
    (hused : ∀ b ∈ bs, V.dbit (b - m.sb.dataRegionStart) = true) (h : Dropped m.sb V V₁ bs) :
    m.Ensures (rollbackBitmap m.sb bs) V₁ (fun r W => r = .ok () ∧ W.inode = V.inode ∧ W.ibit = V.ibit ∧
      W.dbit = V.dbit ∧ W.blk = V₁.blk) := by
  refine (m.ensures_rollbackBitmap_bits hd hused h.dbit).mono ?_
  rintro r W ⟨rfl, rfl⟩
  exact ⟨rfl, h.inode, h.ibit, rfl, rfl⟩

/-- `free_data_block` on a valid start index. It fails if and only if the blocks that are free or given back are too few for
the nodes of the shorter list, and then the bitmap and the inode are restored. -/
theorem ensures_freeDataBlock_packed (m : Mount) (h : Wf m.sb V G) {i start n : Nat} (hlt : i < m.sb.inodeNum)
    (hi : V.ibit i = true) (hn0 : n ≠ 0) (hstart : start < (G.data i).length) (h32 : start + n < 4294967296) :
    m.Ensures (freeDataBlock m.sb i start n) V (fun r W =>
      if m.sb.canRelist V (releasedBlocks (G.data i) start n).length (keptBlocks (G.data i) start n).length then
        r = .ok () ∧ ∃ H, Relisted m.sb V W G H i (releasedBlocks (G.data i) start n) ∧
          H.data i = keptBlocks (G.data i) start n ∧ (keptBlocks (G.data i) start n = [] → H.nodes i = []) ∧
          m.sb.Packed W.blk (H.nodes i)
      else r = .error .enospc ∧ W.inode = V.inode ∧ W.ibit = V.ibit ∧ W.dbit = V.dbit ∧
        (∀ b ∉ releasedBlocks (G.data i) start n, W.blk b = V.blk b) ∧
        ∀ b ∈ releasedBlocks (G.data i) start n, m.env.MayDrop (V.blk b) (W.blk b)) := by
  have hmax := h.max i
  have hnr := h.nr i hi
  rw [freeDataBlock, if_neg (m.not_isNeg' hlt), if_neg hn0]
  refine Ensures.bind_reads (m.reads_mofsReadInode V hlt) ?_
  simp only [hnr]
  rw [if_neg (by omega), u32, Nat.mod_eq_of_lt h32]
  have hcount : (if (G.data i).length < start + n then (G.data i).length - start else n) =
      min n ((G.data i).length - start) := by
    split <;> omega
  rw [hcount]
  have hexp := m.reads_exportDataBlockList h hi
  rw [hnr] at hexp
  refine Ensures.bind_reads hexp ?_
  rw [← releasedBlocks, ← keptBlocks]
  have hmem : ∀ b ∈ releasedBlocks (G.data i) start n, b ∈ G.data i := fun b hb => mem_blocks_iff.mpr (.inl hb)
  have hkm : ∀ b ∈ keptBlocks (G.data i) start n, b ∈ G.data i := fun b hb => mem_blocks_iff.mpr (.inr hb)
  obtain ⟨hknd, hdisj⟩ := nodup_kept (h.data_nodup i) start n
  have hklen : (keptBlocks (G.data i) start n).length ≤ (G.data i).length := by
    simp [keptBlocks]; omega
  have hrnd : (releasedBlocks (G.data i) start n).Nodup := (h.data_nodup i).sublist
    ((List.take_sublist _ _).trans (List.drop_sublist _ _))
  have hsplit (b : Nat) : b ∈ G.data i ↔ b ∈ releasedBlocks (G.data i) start n ∨ b ∈ keptBlocks (G.data i) start n :=
    mem_blocks_iff
  generalize releasedBlocks (G.data i) start n = rel at *
  generalize keptBlocks (G.data i) start n = kept at *
  have hrd : ∀ b ∈ rel, m.sb.inData b := fun b hb => h.inData i b (h.mem_data (hmem b hb))
  have hused : ∀ b ∈ rel, V.dbit (b - m.sb.dataRegionStart) = true := fun b hb => h.used (h.mem_data (hmem b hb))
  refine Ensures.bind_ok (m.ensures_releaseBlocks hrd hrnd) fun V₁ hR₁ => ?_
  obtain ⟨hV₁, hdrop⟩ := hR₁
  have hcount : (m.sb.freeData V₁).length = (m.sb.freeData V).length + rel.length := hV₁.length_freeData hrnd hrd hused
  refine Ensures.seq (Ensures.attempt (m.ensures_rebuildDataBlockList_packed (V.inode i)
    (fun p hp => m.data_lt (h.inData i p (h.mem_data (hkm p hp)))) (by omega)) fun r V₂ hr => ?_)
  have hfreei : ∀ k ∈ (m.sb.freeData V₁).take (listNodesForBlockCount m.sb kept.length), k ∈ m.sb.freeData V₁ :=
    fun k hk => List.mem_of_mem_take hk
  have hidnd : ((m.sb.freeData V₁).take (listNodesForBlockCount m.sb kept.length)).Nodup :=
    (nodup_freeData m.sb V₁).take
  have hbits : ∀ k < m.sb.dataBlkNum, (V₁.dbit k = true ↔ m.sb.dataRegionStart + k ∈ G.nodes i ∨
      m.sb.dataRegionStart + k ∈ kept ∨ ∃ j, j ≠ i ∧ m.sb.dataRegionStart + k ∈ G.owned j) := by
    intro k hk
    rw [hV₁.dbit k]
    simp only [Bool.and_eq_true, Bool.not_eq_true', decide_eq_false_iff_not, h.bits k hk]
    constructor
    · rintro ⟨⟨j, hj⟩, hnot⟩
      by_cases hji : j = i
      · subst hji
        rcases List.mem_append.mp hj with hj | hj
        · exact .inl hj
        · exact .inr (.inl (((hsplit _).mp hj).resolve_left hnot))
      · exact .inr (.inr ⟨j, hji, hj⟩)
    · rintro (hj | hj | ⟨j, hji, hj⟩)
      · exact ⟨⟨i, h.mem_nodes hj⟩, fun hr => h.node_ne_data hj (hmem _ hr) rfl⟩
      · exact ⟨⟨i, h.mem_data (hkm _ hj)⟩, fun hr => hdisj _ hr hj⟩
      · exact ⟨⟨j, hj⟩, fun hr => h.owned_ne hji hj (h.mem_data (hmem _ hr)) rfl⟩
  by_cases hfew : (m.sb.freeData V₁).length < listNodesForBlockCount m.sb kept.length
  · rw [if_pos hfew] at hr
    obtain ⟨rfl, rfl⟩ := hr
    rw [hcount] at hfew
    refine Ensures.bind_ok (m.ensures_rollbackBitmap hrd hused hV₁) fun W hW => Ensures.throw ?_
    rw [if_neg (show ¬ m.sb.canRelist V rel.length kept.length from Nat.not_le.mpr hfew)]
    obtain ⟨hin, hib, hdb, hblk⟩ := hW
    exact ⟨rfl, hin, hib, hdb, fun b hb => by rw [hblk, hV₁.blk b hb], fun b hb => by rw [hblk]; exact hdrop b hb⟩
  · rw [if_neg hfew] at hr
    obtain ⟨rfl, hL, hpack⟩ := hr
    rw [hcount] at hfew
    have hnil : kept = [] → (m.sb.freeData V₁).take (listNodesForBlockCount m.sb kept.length) = [] := by
      rintro rfl
      simp
    generalize (m.sb.freeData V₁).take (listNodesForBlockCount m.sb kept.length) = idx at *
    refine Ensures.bind_ok (m.ensures_mofsWriteInode (Q := fun r W => r = .ok () ∧ W = V₂.setInode i _)
      hlt ⟨rfl, rfl⟩).attempt_eq ?_
    rintro _ rfl
    have hkeep : ∀ b ∈ G.nodes i, V₂.blk b = V.blk b := fun b hb => by
      refine (hL.blk b fun hm => ?_).trans (hV₁.blk b fun hm => h.node_ne_data hb (hmem b hm) rfl)
      obtain ⟨k, hk, rfl⟩ := mem_abs.mp hm
      have hk' := mem_freeData.mp (hfreei k hk)
      have := (hbits k hk'.1).mpr (.inl hb)
      simp [hk'.2] at this
    refine (m.ensures_freeOldList (V := V₂.setInode i _) ((h.chain i hi).congr fun b hb => (hkeep b hb).symm)
      (fun b hb => h.inData i b (h.mem_nodes hb)) (h.nodes_nodup i) (h.length_nodes_le i)).mono ?_
    rintro r W ⟨rfl, hW⟩
    rw [if_pos (show m.sb.canRelist V rel.length kept.length from Nat.not_lt.mp hfew)]
    obtain ⟨hR, hold⟩ := m.relisted_of_install h hi hV₁.inode hV₁.ibit hV₁.blk
      (fun b hb j hm => h.node_ne_data hm (hmem b hb) rfl) hbits (by omega) hknd
      (fun b hb => h.inData i b (h.mem_data (hkm b hb)))
      (fun j hj b hb hm => h.owned_ne hj hm (h.mem_data (hkm b hb)) rfl)
      (fun b hb hm => h.node_ne_data hm (hkm b hb) rfl) hfreei hidnd hL hW
    refine ⟨rfl, G.set i (m.sb.abs idx) kept, hR, by simp, fun hk => by simp [hnil hk, Superblock.abs], ?_⟩
    rw [G.set_nodes_self]
    exact hpack.congr fun b hb => hW.blk b fun hm => hold b hm (hR.wf.mem_nodes (by rw [G.set_nodes_self]; exact hb))

theorem ensures_freeDataBlock_exact (m : Mount) (h : Wf m.sb V G) {i start n : Nat} (hlt : i < m.sb.inodeNum)
    (hi : V.ibit i = true) (hn0 : n ≠ 0) (hstart : start < (G.data i).length) (h32 : start + n < 4294967296) :
    m.Ensures (freeDataBlock m.sb i start n) V (fun r W =>
      if m.sb.canRelist V (releasedBlocks (G.data i) start n).length (keptBlocks (G.data i) start n).length then
        r = .ok () ∧ ∃ H, Relisted m.sb V W G H i (releasedBlocks (G.data i) start n) ∧
          H.data i = keptBlocks (G.data i) start n ∧ (keptBlocks (G.data i) start n = [] → H.nodes i = [])
      else r = .error .enospc ∧ W.inode = V.inode ∧ W.ibit = V.ibit ∧ W.dbit = V.dbit ∧
        (∀ b ∉ releasedBlocks (G.data i) start n, W.blk b = V.blk b) ∧
        ∀ b ∈ releasedBlocks (G.data i) start n, m.env.MayDrop (V.blk b) (W.blk b)) := by
  refine (m.ensures_freeDataBlock_packed h hlt hi hn0 hstart h32).mono fun r W hr => ?_
  split at hr
  · obtain ⟨hok, H, hR, hdata, hnil, -⟩ := hr
    rw [if_pos (by assumption)]
    exact ⟨hok, H, hR, hdata, hnil⟩
  · rwa [if_neg (by assumption)]

/-- `free_data_block` on a valid start index. It can only fail for want of blocks for the shorter list, and
then the bitmap and the inode are restored. -/
theorem ensures_freeDataBlock (m : Mount) (h : Wf m.sb V G) {i start n : Nat} (hlt : i < m.sb.inodeNum)
    (hi : V.ibit i = true) (hn0 : n ≠ 0) (hstart : start < (G.data i).length) (h32 : start + n < 4294967296) :
    m.Ensures (freeDataBlock m.sb i start n) V (fun r W =>
      (r = .ok () ∧ ∃ H, Relisted m.sb V W G H i (releasedBlocks (G.data i) start n) ∧
        H.data i = keptBlocks (G.data i) start n ∧ (keptBlocks (G.data i) start n = [] → H.nodes i = [])) ∨
      (r = .error .enospc ∧ keptBlocks (G.data i) start n ≠ [] ∧ W.inode = V.inode ∧ W.ibit = V.ibit ∧
        W.dbit = V.dbit ∧ ∀ b ∉ releasedBlocks (G.data i) start n, W.blk b = V.blk b)) := by
  refine (m.ensures_freeDataBlock_exact h hlt hi hn0 hstart h32).mono fun r W hr => ?_
  split at hr
  · exact .inl hr
  next hroom =>
  obtain ⟨rfl, hin, hib, hdb, hblk, -⟩ := hr
  refine .inr ⟨rfl, fun hnil => hroom ?_, hin, hib, hdb, hblk⟩
  rw [Superblock.canRelist, hnil, List.length_nil, listNodes_zero]
  exact Nat.zero_le _

end Mount

end Mofs
