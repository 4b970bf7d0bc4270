import Mofs.Rebuild

namespace Mofs

open Effect Bytes

theorem filter_not_mem_take {l : List Nat} (h : l.Nodup) (n : Nat) :
    l.filter (fun k => !decide (k ∈ l.take n)) = l.drop n := by
  have hd : (l.drop n).filter (fun k => !decide (k ∈ l.take n)) = l.drop n := by
    rw [List.filter_eq_self]
    intro k hk
    simpa using fun hk' => List.disjoint_take_drop h (Nat.le_refl n) hk' hk
  have ht : (l.take n).filter (fun k => !decide (k ∈ l.take n)) = [] := by
    rw [List.filter_eq_nil_iff]
    simp
  conv_lhs => rw [← List.take_append_drop n l, List.filter_append]
  rw [List.take_append_drop, ht, hd, List.nil_append]

theorem freeData_setDbits_take (sb : Superblock) (V : View) (n : Nat) :
    sb.freeData (V.setDbits ((sb.freeData V).take n) true) = (sb.freeData V).drop n := by
  rw [← filter_not_mem_take (nodup_freeData sb V) n]
  conv_rhs => rw [Superblock.freeData, List.filter_filter]
  refine List.filter_congr fun k _ => ?_
  by_cases hk : k ∈ (sb.freeData V).take n
  · have hk' : k ∈ List.take n (List.filter (fun k => !V.dbit k) (List.range sb.dataBlkNum)) := hk
    simp [View.setDbits, hk, hk']
  · have hk' : k ∉ List.take n (List.filter (fun k => !V.dbit k) (List.range sb.dataBlkNum)) := hk
    simp [View.setDbits, hk, hk']

/-- Inode `i` has a new list, everyone else's is as before; apart from the list nodes only the blocks
`touched` may have changed content. -/
structure Relisted (sb : Superblock) (V W : View) (G H : Owners) (i : Nat) (touched : List Nat) : Prop where
  wf : Wf sb W H
  others : ∀ j, j ≠ i → H.nodes j = G.nodes j ∧ H.data j = G.data j
  inode_other : ∀ j, j ≠ i → W.inode j = V.inode j
  inode_self : ∃ h c, W.inode i = { V.inode i with iDataHead := h, iNrBlocks := c }
  ibit : W.ibit = V.ibit
  blk : ∀ b, b ∉ G.nodes i → b ∉ H.nodes i → b ∉ touched → W.blk b = V.blk b

/-- Room for `n` more blocks of a file that has `len`: within the file limit, and enough free blocks for the
data and for a second copy of the list. -/
def Superblock.canGrow (sb : Superblock) (V : View) (len n : Nat) : Prop :=
  len + n ≤ maxFileDataBlocks ∧ n + listNodesForBlockCount sb (len + n) ≤ (sb.freeData V).length

instance (sb : Superblock) (V : View) (len n : Nat) : Decidable (sb.canGrow V len n) := by
  unfold Superblock.canGrow; infer_instance

namespace Mount

variable {m : Mount} {V : View} {G : Owners}

/-- A list written to free blocks and installed in the inode, the old nodes then dropped. -/
theorem relisted_of_install (m : Mount) (h : Wf m.sb V G) {i : Nat} (hi : V.ibit i = true) {V₁ V₂ W : View}
    {touched idx ds : List Nat} (hin : V₁.inode = V.inode) (hib : V₁.ibit = V.ibit)
    (hblk : ∀ b ∉ touched, V₁.blk b = V.blk b) (htouched : ∀ b ∈ touched, ∀ j, b ∉ G.nodes j)
    (hbits : ∀ k < m.sb.dataBlkNum, (V₁.dbit k = true ↔ m.sb.dataRegionStart + k ∈ G.nodes i ∨
      m.sb.dataRegionStart + k ∈ ds ∨ ∃ j, j ≠ i ∧ m.sb.dataRegionStart + k ∈ G.owned j))
    (hmax : ds.length ≤ maxFileDataBlocks) (hds : ds.Nodup) (hdata : ∀ b ∈ ds, m.sb.inData b)
    (hfresh : ∀ j, j ≠ i → ∀ b ∈ ds, b ∉ G.owned j) (hold : ∀ b ∈ ds, b ∉ G.nodes i)
    (hidx : ∀ k ∈ idx, k ∈ m.sb.freeData V₁) (hnd : idx.Nodup)
    (hL : Listed m.sb (V₁.setDbits idx true) V₂ idx ds)
    (hW : Dropped m.sb (V₂.setInode i { V.inode i with
      iDataHead := .ofNat (nodeHead m.sb idx)
      iNrBlocks := .ofNat ds.length }) W (G.nodes i)) :
    Relisted m.sb V W G (G.set i (m.sb.abs idx) ds) i touched ∧
      ∀ b ∈ G.nodes i, b ∉ (G.set i (m.sb.abs idx) ds).owned i := by
  have hilt : ∀ k ∈ idx, k < m.sb.dataBlkNum := fun k hk => (mem_freeData.mp (hidx k hk)).1
  -- a block chosen for a node is free in `V₁`, so it is none of the blocks whose bits are set there
  have hfree : ∀ b ∈ m.sb.abs idx, b ∉ G.nodes i ∧ b ∉ ds ∧ ∀ j, j ≠ i → b ∉ G.owned j := by
    intro b hb
    obtain ⟨k, hk, rfl⟩ := mem_abs.mp hb
    have hbit := (mem_freeData.mp (hidx k hk)).2
    have hnot := mt (hbits k (hilt k hk)).mpr (by simp [hbit])
    simp only [not_or, not_exists, not_and] at hnot
    exact hnot
  have hself : W.inode i = { V.inode i with
      iDataHead := .ofNat (nodeHead m.sb idx)
      iNrBlocks := .ofNat ds.length } := by
    rw [hW.inode]; simp [View.setInode]
  have hother : ∀ j, j ≠ i → W.inode j = V.inode j := fun j hj => by
    rw [hW.inode]
    simp only [View.setInode, Function.update_of_ne hj]
    rw [hL.inode]
    exact congrFun hin j
  have hib' : W.ibit = V.ibit := by rw [hW.ibit]; exact hL.ibit.trans hib
  have hblk' : ∀ b, b ∉ G.nodes i → b ∉ m.sb.abs idx → b ∉ touched → W.blk b = V.blk b := fun b h1 h2 h3 =>
    (hW.blk b h1).trans ((hL.blk b h2).trans (hblk b h3))
  have hhead : (W.inode i).iDataHead.toNat = nodeHead m.sb idx := by
    rw [hself]
    refine Nat.mod_eq_of_lt ?_
    have := m.ok.hole
    have := m.ok.hole_lt
    cases idx with
    | nil => exact Nat.zero_lt_succ _
    | cons k ks =>
      have := hilt k (by simp)
      simp only [nodeHead]
      omega
  have hwf : Wf m.sb W (G.set i (m.sb.abs idx) ds) := by
    refine h.replace hi hib' hother ?_ ?_ ?_ hmax ?_ ?_ ?_ ?_
    · intro j hj b hb
      exact hblk' b (fun hm => h.owned_ne hj (h.mem_nodes hb) (h.mem_nodes hm) rfl)
        (fun hm => (hfree b hm).2.2 j hj (h.mem_nodes hb)) (fun hm => htouched b hm j hb)
    · rw [hhead]
      exact hL.chain.congr fun b hb => (hW.blk b (hfree b hb).1).symm
    · rw [hself]
      exact Nat.mod_eq_of_lt (by simp only [maxFileDataBlocks] at hmax; omega)
    · exact List.nodup_append.mpr ⟨nodup_abs hnd, hds, fun b hb c hc hbc => (hfree b hb).2.1 (hbc ▸ hc)⟩
    · intro b hb
      rcases List.mem_append.mp hb with hb | hb
      · exact inData_abs hilt hb
      · exact hdata b hb
    · intro j hj b hb
      rcases List.mem_append.mp hb with hb | hb
      · exact (hfree b hb).2.2 j hj
      · exact hfresh j hj b hb
    · intro k hk
      have hbk := hbits k hk
      have hnode : m.sb.dataRegionStart + k ∈ G.nodes i → k ∉ idx := fun hm hki =>
        (hfree _ (add_mem_abs.mpr hki)).1 hm
      have hnd' : m.sb.dataRegionStart + k ∈ G.nodes i → m.sb.dataRegionStart + k ∉ ds := fun hm hd => hold _ hd hm
      have hno : m.sb.dataRegionStart + k ∈ G.nodes i → ∀ j, j ≠ i → m.sb.dataRegionStart + k ∉ G.owned j :=
        fun hm j hj hd => h.owned_ne hj hd (h.mem_nodes hm) rfl
      have hV2 : V₂.dbit k = if k ∈ idx then true else V₁.dbit k := congrFun hL.dbit k
      rw [hW.dbit k, List.mem_append, add_mem_abs]
      simp only [View.setInode, hV2, Bool.and_eq_true, Bool.not_eq_true', decide_eq_false_iff_not]
      by_cases hki : k ∈ idx
      · simp [hki, (hfree _ (add_mem_abs.mpr hki)).1]
      · simp only [hki, if_false, hbk, false_or]
        constructor
        · rintro ⟨hm | hm, hn⟩
          · exact absurd hm hn
          · exact hm
        · intro hm
          refine ⟨.inr hm, fun hn => ?_⟩
          rcases hm with hm | ⟨j, hj, hm⟩
          · exact hnd' hn hm
          · exact hno hn j hj hm
  refine ⟨⟨hwf, fun j hj => ⟨G.set_nodes_of_ne hj _ _, G.set_data_of_ne hj _ _⟩, hother, ⟨_, _, hself⟩, hib',
    fun b h1 h2 h3 => hblk' b h1 (by simpa using h2) h3⟩, fun b hb hm => ?_⟩
  rw [G.set_owned_self] at hm
  rcases List.mem_append.mp hm with hm | hm
  · exact (hfree b hm).1 hb
  · exact hold b hm hb

/-- The last step of both operations: drop the nodes of the list that has been replaced. -/
theorem ensures_freeOldList (m : Mount) {head : Nat} {ns ds : List Nat} (h : Chain m.sb V.blk head ns ds)
    (hd : ∀ b ∈ ns, m.sb.inData b) (hn : ns.Nodup) (hlen : ns.length ≤ m.sb.dataBlkNum) :
    m.Ensures (if head ≠ 0 then do
        let _ ← attempt (freeListChain m.sb head)
        pure ()
      else pure () : M Unit) V (fun r W => r = .ok () ∧ Dropped m.sb V W ns) := by
  by_cases h0 : head = 0
  · subst h0
    obtain ⟨rfl, rfl⟩ := h.of_null
    rw [if_neg (by simp)]
    exact Ensures.pure ⟨rfl, Dropped.nil _ _⟩
  · rw [if_pos h0]
    refine Ensures.bind_ok (m.ensures_freeListChainFrom h hd hn (length_walk_lt m.ok hlen)).attempt_eq fun W hW => ?_
    exact Ensures.pure ⟨rfl, hW⟩

theorem data_lt (m : Mount) {b : Nat} (h : m.sb.inData b) : b < 4294967296 :=
  (m.inData_lt h).trans m.ok.hole_lt

theorem map_u32 (m : Mount) {ks : List Nat} (h : ∀ k ∈ ks, k < m.sb.dataBlkNum) :
    ks.map (fun k => u32 (m.sb.dataRegionStart + k)) = m.sb.abs ks :=
  List.map_congr_left fun k hk => m.inData_u32 (h k hk)

section Grow

variable (h : Wf m.sb V G) {n : Nat}
include h

theorem not_owned_new {b : Nat} (hb : b ∈ m.sb.abs ((m.sb.freeData V).take n)) (j : Nat) : b ∉ G.owned j := by
  obtain ⟨k, hk, rfl⟩ := mem_abs.mp hb
  have hk := mem_freeData.mp (List.mem_of_mem_take hk)
  exact h.not_owned hk.1 hk.2

/-- Blocks that are free once some free ones have been marked belong to nobody. -/
theorem not_owned_marked {new idx : List Nat} (hidx : ∀ k ∈ idx, k ∈ m.sb.freeData (V.setDbits new true)) {b : Nat}
    (hb : b ∈ m.sb.abs idx) (j : Nat) : b ∉ G.owned j := by
  obtain ⟨k, hk, rfl⟩ := mem_abs.mp hb
  have hk := mem_freeData.mp (hidx k hk)
  have hbit : V.dbit k = false := by
    have := hk.2
    simp only [View.setDbits] at this
    split at this
    · exact absurd this (by decide)
    · exact this
  exact h.not_owned hk.1 hbit

/-- The list of a file that has grown by the first `n` free blocks, in nodes at the free blocks after them. -/
theorem relisted_of_grow {i : Nat} (hi : V.ibit i = true) (hmax : (G.data i).length + n ≤ maxFileDataBlocks)
    (hlen : ((m.sb.freeData V).take n).length = n) {idx : List Nat} {V₂ W : View}
    (hidx : ∀ k ∈ idx, k ∈ m.sb.freeData (V.setDbits ((m.sb.freeData V).take n) true)) (hnd : idx.Nodup)
    (hL : Listed m.sb ((V.setDbits ((m.sb.freeData V).take n) true).setDbits idx true) V₂ idx
      (G.data i ++ m.sb.abs ((m.sb.freeData V).take n)))
    (hW : Dropped m.sb (V₂.setInode i { V.inode i with
      iDataHead := .ofNat (nodeHead m.sb idx)
      iNrBlocks := .ofNat ((G.data i).length + n) }) W (G.nodes i)) :
    Relisted m.sb V W G (G.set i (m.sb.abs idx) (G.data i ++ m.sb.abs ((m.sb.freeData V).take n))) i [] ∧
      ∀ b ∈ G.nodes i, b ∉ (G.set i (m.sb.abs idx) (G.data i ++ m.sb.abs ((m.sb.freeData V).take n))).owned i := by
  have hfresh := fun b hb => not_owned_new (n := n) h (b := b) hb
  have hnew : ∀ k ∈ (m.sb.freeData V).take n, k < m.sb.dataBlkNum := fun k hk =>
    (mem_freeData.mp (List.mem_of_mem_take hk)).1
  have hdl : (G.data i ++ m.sb.abs ((m.sb.freeData V).take n)).length = (G.data i).length + n := by
    rw [List.length_append, length_abs, hlen]
  have hndn : ((m.sb.freeData V).take n).Nodup := (nodup_freeData m.sb V).take
  generalize (m.sb.freeData V).take n = new at *
  have hin : (V.setDbits new true).inode = V.inode := rfl
  refine m.relisted_of_install h hi hin rfl (fun _ _ => rfl) (by simp) ?_ (by omega) ?_ ?_ ?_ ?_
    hidx hnd hL (by rw [hdl]; exact hW)
  · intro k hk
    have hb := h.bits k hk
    simp only [View.setDbits, List.mem_append, add_mem_abs]
    by_cases hkn : k ∈ new
    · simp [hkn]
    · simp only [hkn, if_false, hb, or_false]
      constructor
      · rintro ⟨j, hj⟩
        by_cases hji : j = i
        · subst hji
          rcases List.mem_append.mp hj with hj | hj
          · exact .inl hj
          · exact .inr (.inl hj)
        · exact .inr (.inr ⟨j, hji, hj⟩)
      · rintro (hj | hj | ⟨j, -, hj⟩)
        · exact ⟨i, h.mem_nodes hj⟩
        · exact ⟨i, h.mem_data hj⟩
        · exact ⟨j, hj⟩
  · exact List.nodup_append.mpr ⟨h.data_nodup i, nodup_abs hndn, fun b hb c hc hbc =>
      hfresh c hc i (hbc ▸ h.mem_data hb)⟩
  · intro b hb
    rcases List.mem_append.mp hb with hb | hb
    · exact h.inData i b (h.mem_data hb)
    · exact inData_abs hnew hb
  · intro j hj b hb
    rcases List.mem_append.mp hb with hb | hb
    · exact fun hm => h.owned_ne hj hm (h.mem_data hb) rfl
    · exact hfresh b hb j
  · intro b hb
    rcases List.mem_append.mp hb with hb | hb
    · exact fun hm => h.node_ne_data hm hb rfl
    · exact fun hm => hfresh b hb i (h.mem_nodes hm)

end Grow

theorem ensures_allocateDataBlock_packed (m : Mount) (h : Wf m.sb V G) {i n : Nat} (hlt : i < m.sb.inodeNum)
    (hi : V.ibit i = true) (hn0 : n ≠ 0) (hn : n ≤ maxFileDataBlocks) :
    m.Ensures (allocateDataBlock m.sb i n) V (fun r W =>
      if m.sb.canGrow V (G.data i).length n then
        r = .ok () ∧ ∃ H, (Relisted m.sb V W G H i [] ∧ ∀ b ∈ G.nodes i, b ∉ H.owned i) ∧
          H.data i = G.data i ++ m.sb.abs ((m.sb.freeData V).take n) ∧ m.sb.Packed W.blk (H.nodes i)
      else r = .error .enospc ∧ W = V) := by
  have hmax := h.max i
  have hnr := h.nr i hi
  simp only [maxFileDataBlocks] at hn hmax
  rw [allocateDataBlock, if_neg (m.not_isNeg' hlt), if_neg hn0]
  refine Ensures.bind_reads (m.reads_mofsReadInode V hlt) ?_
  rw [u32, Nat.mod_eq_of_lt (by omega), hnr]
  by_cases hbig : maxFileDataBlocks < (G.data i).length + n
  · rw [if_pos hbig]
    have hno : ¬ m.sb.canGrow V (G.data i).length n := fun hc => by have := hc.1; omega
    refine Ensures.throw ?_
    rw [if_neg hno]
    exact ⟨rfl, rfl⟩
  rw [if_neg hbig]
  have hexp := m.reads_exportDataBlockList h hi
  rw [hnr] at hexp
  refine Ensures.bind_reads hexp ?_
  have hfind := m.reads_findFreeDataBlockIndices V n
  by_cases hfew : (m.sb.freeData V).length < n
  · rw [if_pos hfew] at hfind
    have hno : ¬ m.sb.canGrow V (G.data i).length n := fun hc => by have := hc.2; omega
    refine (Reads.bind_error hfind).ensures ?_
    rw [if_neg hno]
    exact ⟨rfl, rfl⟩
  rw [if_neg hfew] at hfind
  refine Ensures.bind_reads hfind ?_
  have hrest := freeData_setDbits_take m.sb V n
  have hlen : ((m.sb.freeData V).take n).length = n := by simp; omega
  have hmem : ∀ k ∈ (m.sb.freeData V).take n, k < m.sb.dataBlkNum ∧ V.dbit k = false := fun k hk =>
    mem_freeData.mp (List.mem_of_mem_take hk)
  have hnd : ((m.sb.freeData V).take n).Nodup := (nodup_freeData m.sb V).take
  set new := (m.sb.freeData V).take n with hnew
  rw [m.map_u32 fun k hk => (hmem k hk).1]
  refine Ensures.seq (m.ensures_markUsed (fun k hk => (hmem k hk).1) ?_)
  set V₁ := V.setDbits new true with hV₁
  have hds : ∀ b ∈ G.data i ++ m.sb.abs new, m.sb.inData b := fun b hb => by
    rcases List.mem_append.mp hb with hb | hb
    · exact h.inData i b (h.mem_data hb)
    · exact inData_abs (fun k hk => (hmem k hk).1) hb
  have hdl : (G.data i ++ m.sb.abs new).length = (G.data i).length + n := by simp [hlen]
  have hcost : (m.sb.freeData V₁).length < listNodesForBlockCount m.sb ((G.data i).length + n) ↔
      ¬ m.sb.canGrow V (G.data i).length n := by
    rw [hrest, List.length_drop, Superblock.canGrow]
    constructor
    · rintro hlt' ⟨-, hc⟩
      omega
    · intro hc
      by_contra hge
      exact hc ⟨by omega, by omega⟩
  refine Ensures.seq (Ensures.attempt (m.ensures_rebuildDataBlockList_packed (V.inode i) (fun p hp => m.data_lt (hds p hp))
    (by rw [hdl]; simp only [maxFileDataBlocks] at hbig ⊢; omega)) fun r V₂ hr => ?_)
  rw [hdl] at hr
  by_cases hroom : m.sb.canGrow V (G.data i).length n
  · rw [if_neg (by rw [hcost]; exact not_not.mpr hroom)] at hr
    obtain ⟨rfl, hL, hpack⟩ := hr
    set idx := (m.sb.freeData V₁).take (listNodesForBlockCount m.sb ((G.data i).length + n)) with hidx
    have hfreei : ∀ k ∈ idx, k ∈ m.sb.freeData V₁ := fun k hk => List.mem_of_mem_take hk
    refine Ensures.bind_ok (m.ensures_mofsWriteInode (Q := fun r W => r = .ok () ∧ W = V₂.setInode i _)
      hlt ⟨rfl, rfl⟩).attempt_eq ?_
    rintro _ rfl
    have hkeep : ∀ b ∈ G.nodes i, V₂.blk b = V.blk b := fun b hb =>
      hL.blk b fun hm => not_owned_marked h hfreei hm i (h.mem_nodes hb)
    refine (m.ensures_freeOldList (V := V₂.setInode i _) ((h.chain i hi).congr fun b hb => (hkeep b hb).symm)
      (fun b hb => h.inData i b (h.mem_nodes hb)) (h.nodes_nodup i) (h.length_nodes_le i)).mono ?_
    rintro r W ⟨rfl, hW⟩
    rw [if_pos hroom]
    obtain ⟨hR, hold⟩ := relisted_of_grow h hi hroom.1 hlen hfreei (nodup_freeData m.sb V₁).take hL hW
    refine ⟨rfl, _, ⟨hR, hold⟩, by simp [hnew], ?_⟩
    rw [G.set_nodes_self]
    exact hpack.congr fun b hb => hW.blk b fun hm => hold b hm (hR.wf.mem_nodes (by rw [G.set_nodes_self]; exact hb))
  · rw [if_pos (hcost.mpr hroom)] at hr
    obtain ⟨rfl, rfl⟩ := hr
    refine Ensures.seq (m.ensures_updateDataBitmapBits (fun k hk => (hmem k hk).1) ?_)
    refine Ensures.throw ?_
    rw [if_neg hroom, hV₁, View.setDbits_undo fun k hk => (hmem k hk).2]
    exact ⟨rfl, rfl⟩

theorem ensures_allocateDataBlock (m : Mount) (h : Wf m.sb V G) {i n : Nat} (hlt : i < m.sb.inodeNum)
    (hi : V.ibit i = true) (hn0 : n ≠ 0) (hn : n ≤ maxFileDataBlocks) :
    m.Ensures (allocateDataBlock m.sb i n) V (fun r W =>
      if m.sb.canGrow V (G.data i).length n then
        r = .ok () ∧ ∃ H, (Relisted m.sb V W G H i [] ∧ ∀ b ∈ G.nodes i, b ∉ H.owned i) ∧
          H.data i = G.data i ++ m.sb.abs ((m.sb.freeData V).take n)
      else r = .error .enospc ∧ W = V) := by
  refine (m.ensures_allocateDataBlock_packed h hlt hi hn0 hn).mono fun r W hr => ?_
  split at hr
  · obtain ⟨hok, H, hR, hdata, -⟩ := hr
    rw [if_pos (by assumption)]
    exact ⟨hok, H, hR, hdata⟩
  · rwa [if_neg (by assumption)]

end Mount

end Mofs
