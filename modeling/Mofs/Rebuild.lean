import Mofs.Walk

namespace Mofs

open Effect Bytes

theorem leNat_flatMap (f : Block) (o : Nat) {ptrs : List Nat} {k : Nat} (hk : k < ptrs.length) :
    leNat (splice f o (ptrs.flatMap (fun p => leBytes p 4))) (o + 4 * k) 4 = ptrs.get ⟨k, hk⟩ % 256 ^ 4 := by
  induction ptrs generalizing o k with
  | nil => simp at hk
  | cons p ptrs ih =>
    cases k with
    | zero => simpa using leNat_splice_head f o p 4 _
    | succ k =>
      rw [List.flatMap_cons, leNat_splice_tail _ _ _ _ _ _ (by rw [length_leBytes]; omega), length_leBytes,
        show o + 4 * (k + 1) = o + 4 + 4 * k by omega]
      simpa using ih (o + 4) (Nat.lt_of_succ_lt_succ hk)

theorem nodeNext_encodeNode {next : Nat} (h : next < 4294967296) (ptrs : List Nat) :
    nodeNext (encodeNode next ptrs) = next := by
  rw [nodeNext, encodeNode, List.append_assoc, leNat_splice_head]
  exact Nat.mod_eq_of_lt h

theorem nodeNrPtrs_encodeNode (next : Nat) {ptrs : List Nat} (h : ptrs.length < 4294967296) :
    nodeNrPtrs (encodeNode next ptrs) = ptrs.length := by
  rw [nodeNrPtrs, encodeNode, List.append_assoc, leNat_splice_tail _ _ _ _ _ _ (by simp), length_leBytes,
    leNat_splice_head]
  exact Nat.mod_eq_of_lt h

theorem nodePtrs_encodeNode (next : Nat) {ptrs : List Nat} (h : ∀ p ∈ ptrs, p < 4294967296) :
    nodePtrs (encodeNode next ptrs) ptrs.length = ptrs := by
  apply List.ext_getElem
  · simp
  · intro k hk hk'
    have hget := leNat_flatMap (fun _ => 0) 8 hk'
    simp only [nodePtrs, List.getElem_map, List.getElem_range]
    rw [encodeNode, leNat_splice_tail _ _ _ _ _ _ (by simp)]
    simp only [List.length_append, length_leBytes, Nat.zero_add, Nat.reduceAdd]
    rw [hget]
    exact Nat.mod_eq_of_lt (h _ (by simp))

/-- The head of a list whose nodes sit at the data-region indices `idx`. -/
def nodeHead (sb : Superblock) : List Nat → Nat
  | [] => 0
  | k :: _ => sb.dataRegionStart + k

def Superblock.abs (sb : Superblock) (ks : List Nat) : List Nat := ks.map (sb.dataRegionStart + ·)

theorem mem_abs {sb : Superblock} {ks : List Nat} {b : Nat} : b ∈ sb.abs ks ↔ ∃ k ∈ ks, sb.dataRegionStart + k = b := by
  simp [Superblock.abs]

theorem add_mem_abs {sb : Superblock} {ks : List Nat} {k : Nat} : sb.dataRegionStart + k ∈ sb.abs ks ↔ k ∈ ks := by
  simp [Superblock.abs]

theorem inData_abs {sb : Superblock} {ks : List Nat} (h : ∀ k ∈ ks, k < sb.dataBlkNum) {b : Nat} (hb : b ∈ sb.abs ks) :
    sb.inData b := by
  obtain ⟨k, hk, rfl⟩ := mem_abs.mp hb
  exact ⟨Nat.le_add_right _ _, Nat.add_lt_add_left (h k hk) _⟩

theorem nodup_abs {sb : Superblock} {ks : List Nat} (h : ks.Nodup) : (sb.abs ks).Nodup :=
  List.Pairwise.map _ (fun _ _ hab => by omega) h

@[simp] theorem length_abs (sb : Superblock) (ks : List Nat) : (sb.abs ks).length = ks.length := by
  simp [Superblock.abs]

/-- A fresh list for `ds` has been written into the blocks `idx`; their bits are the ones of `V` or set. -/
structure Listed (sb : Superblock) (V W : View) (idx ds : List Nat) : Prop where
  inode : W.inode = V.inode
  ibit : W.ibit = V.ibit
  dbit : W.dbit = V.dbit
  blk : ∀ b ∉ sb.abs idx, W.blk b = V.blk b
  chain : Chain sb W.blk (nodeHead sb idx) (sb.abs idx) ds

/-- Every list node but the last holds as many pointers as fit into a block. -/
def Superblock.Packed (sb : Superblock) (blk : Nat → Block) (ns : List Nat) : Prop :=
  ∀ b ∈ ns.dropLast, nodeNrPtrs (blk b) = listPtrsCap sb

theorem Superblock.Packed.congr {sb : Superblock} {blk blk' : Nat → Block} {ns : List Nat} (h : sb.Packed blk ns)
    (heq : ∀ b ∈ ns, blk' b = blk b) : sb.Packed blk' ns := fun b hb => by
  rw [heq b (List.dropLast_subset ns hb)]
  exact h b hb

namespace Mount

variable {V : View}

theorem inData_add (m : Mount) {k : Nat} (h : k < m.sb.dataBlkNum) : m.sb.inData (m.sb.dataRegionStart + k) :=
  ⟨Nat.le_add_right _ _, Nat.add_lt_add_left h _⟩

theorem cap_lt (m : Mount) : listPtrsCap m.sb < 65536 := by
  have := m.ok.blk_ge
  have := m.ok.blk_le
  rw [listPtrsCap, listPtrsPerNode, if_neg (by omega)]
  omega

theorem ensures_writeListNodes_packed (m : Mount) {idx ds : List Nat} (hidx : ∀ k ∈ idx, k < m.sb.dataBlkNum)
    (hn : idx.Nodup) (hds : ∀ p ∈ ds, p < 4294967296) (hlen : ds.length ≤ idx.length * listPtrsCap m.sb) :
    m.Ensures (writeListNodes m.sb idx ds) V (fun r W => r = .ok () ∧ Listed m.sb V W idx ds ∧
      ((idx.length - 1) * listPtrsCap m.sb ≤ ds.length → m.sb.Packed W.blk (m.sb.abs idx))) := by
  induction idx generalizing V ds with
  | nil =>
    obtain rfl : ds = [] := by simpa using hlen
    exact Ensures.pure ⟨rfl, ⟨rfl, rfl, rfl, fun _ _ => rfl, chain_nil _ _⟩, fun _ b hb => by simp [Superblock.abs] at hb⟩
  | cons k ks ih =>
    have hk : k < m.sb.dataBlkNum := hidx k (by simp)
    have hhole := m.ok.hole
    have hlt := m.ok.hole_lt
    have hcap := m.cap_lt
    have hnext : nextAbs m.sb ks = nodeHead m.sb ks := by
      cases ks with
      | nil => rfl
      | cons j ks => exact m.inData_u32 (hidx j (by simp))
    have hnlt : nodeHead m.sb ks < 4294967296 := by
      cases ks with
      | nil => exact Nat.zero_lt_succ _
      | cons j ks =>
        have : j < m.sb.dataBlkNum := hidx j (by simp)
        simp only [nodeHead]
        omega
    rw [writeListNodes, hnext, m.inData_u32 hk]
    set x := encodeNode (nodeHead m.sb ks) (ds.take (listPtrsCap m.sb)) with hx
    refine Ensures.seq (m.ensures_writeFull (m.inData_add hk) ?_)
    refine (ih (fun j hj => hidx j (by simp [hj])) (List.nodup_cons.mp hn).2
      (fun p hp => hds p (List.mem_of_mem_drop hp)) ?_).mono ?_
    · simp only [List.length_cons, Nat.succ_mul, List.length_drop] at hlen ⊢
      omega
    · rintro r W ⟨rfl, hW, hpack⟩
      have hself : W.blk (m.sb.dataRegionStart + k) = x := by
        rw [hW.blk _ (by rw [add_mem_abs]; exact (List.nodup_cons.mp hn).1)]
        simp [View.setBlk]
      have hnr : nodeNrPtrs x = (ds.take (listPtrsCap m.sb)).length :=
        nodeNrPtrs_encodeNode _ (by simp; omega)
      refine ⟨rfl, ⟨hW.inode, hW.ibit, hW.dbit, fun b hb => ?_, ?_⟩, fun hmin => ?_⟩
      · rw [hW.blk b (fun hm => hb (by simp [Superblock.abs] at hm ⊢; exact .inr hm))]
        have : b ≠ m.sb.dataRegionStart + k := by rintro rfl; simp [Superblock.abs] at hb
        simp [View.setBlk, this]
      · refine Chain.cons_iff.mpr ⟨rfl, m.data_ne_zero (m.inData_add hk), ?_, ds.drop (listPtrsCap m.sb), ?_, ?_⟩
        · rw [hself, hnr]; exact List.length_take_le _ _
        · rw [hself, hnr, nodePtrs_encodeNode _ (fun p hp => hds p (List.mem_of_mem_take hp)), List.take_append_drop]
        · rw [hself, hx, nodeNext_encodeNode hnlt]
          exact hW.chain
      · cases ks with
        | nil =>
          intro b hb
          simp [Superblock.abs] at hb
        | cons j ks =>
          -- the nodes that follow need the pointers beyond the first block full
          simp only [List.length_cons, Nat.add_sub_cancel, Nat.succ_mul, List.length_drop] at hmin hpack
          intro b hb
          rw [Superblock.abs, List.map_cons, List.map_cons, List.dropLast_cons_cons, ← List.map_cons,
            ← Superblock.abs, List.mem_cons] at hb
          rcases hb with rfl | hb
          · rw [hself, hnr, List.length_take, Nat.min_eq_left (by omega)]
          · exact hpack (by omega) b hb

theorem ensures_writeListNodes (m : Mount) {idx ds : List Nat} (hidx : ∀ k ∈ idx, k < m.sb.dataBlkNum)
    (hn : idx.Nodup) (hds : ∀ p ∈ ds, p < 4294967296) (hlen : ds.length ≤ idx.length * listPtrsCap m.sb) :
    m.Ensures (writeListNodes m.sb idx ds) V (fun r W => r = .ok () ∧ Listed m.sb V W idx ds) :=
  (m.ensures_writeListNodes_packed hidx hn hds hlen).mono fun _ _ h => ⟨h.1, h.2.1⟩

/-- `list_nodes_for_block_count` rounds up. -/
theorem le_listNodes (m : Mount) {n : Nat} (h : n ≤ 2 * maxFileDataBlocks) :
    n ≤ listNodesForBlockCount m.sb n * listPtrsCap m.sb := by
  have hpos := m.cap_pos
  have hcap := m.cap_lt
  rw [listNodesForBlockCount]
  by_cases h0 : n = 0
  · simp [h0]
  · rw [if_neg h0, if_neg (by omega), u32, Nat.mod_eq_of_lt (by simp only [maxFileDataBlocks] at h; omega)]
    generalize listPtrsCap m.sb = c at *
    have := Nat.div_add_mod (n + c - 1) c
    have := Nat.mod_lt (n + c - 1) hpos
    have hc : (n + c - 1) / c * c = c * ((n + c - 1) / c) := Nat.mul_comm _ _
    omega

/-- `list_nodes_for_block_count` rounds up to the next node only. -/
theorem listNodes_pred_le (m : Mount) {n : Nat} (h : n ≤ 2 * maxFileDataBlocks) :
    (listNodesForBlockCount m.sb n - 1) * listPtrsCap m.sb ≤ n := by
  have hpos := m.cap_pos
  have hcap := m.cap_lt
  rw [listNodesForBlockCount]
  by_cases h0 : n = 0
  · simp [h0]
  · rw [if_neg h0, if_neg (by omega), u32, Nat.mod_eq_of_lt (by simp only [maxFileDataBlocks] at h; omega)]
    generalize listPtrsCap m.sb = c at *
    have := Nat.div_mul_le_self (n + c - 1) c
    rw [Nat.sub_mul]
    omega

theorem listNodes_ne_zero (m : Mount) {n : Nat} (h : n ≤ 2 * maxFileDataBlocks) (h0 : n ≠ 0) :
    listNodesForBlockCount m.sb n ≠ 0 := fun hz => by
  have := m.le_listNodes h
  rw [hz] at this
  omega

@[simp] theorem listNodes_zero (sb : Superblock) : listNodesForBlockCount sb 0 = 0 := rfl

theorem ensures_rebuildDataBlockList_packed (m : Mount) (x : Inode) {ds : List Nat} (hds : ∀ p ∈ ds, p < 4294967296)
    (hmax : ds.length ≤ 2 * maxFileDataBlocks) :
    m.Ensures (rebuildDataBlockList m.sb x ds) V (fun r W =>
      if (m.sb.freeData V).length < listNodesForBlockCount m.sb ds.length then r = .error .enospc ∧ W = V
      else
        r = .ok { x with
          iDataHead := .ofNat (nodeHead m.sb ((m.sb.freeData V).take (listNodesForBlockCount m.sb ds.length)))
          iNrBlocks := .ofNat ds.length } ∧
        Listed m.sb (V.setDbits ((m.sb.freeData V).take (listNodesForBlockCount m.sb ds.length)) true) W
          ((m.sb.freeData V).take (listNodesForBlockCount m.sb ds.length)) ds ∧
        m.sb.Packed W.blk (m.sb.abs ((m.sb.freeData V).take (listNodesForBlockCount m.sb ds.length)))) := by
  rw [rebuildDataBlockList]
  by_cases h0 : ds.length = 0
  · obtain rfl := List.length_eq_zero_iff.mp h0
    refine Ensures.pure ?_
    simp only [List.length_nil, listNodes_zero, Nat.not_lt_zero, if_false, List.take_zero, View.setDbits_nil]
    exact ⟨rfl, ⟨rfl, rfl, rfl, fun _ _ => rfl, chain_nil _ _⟩, fun b hb => by simp [Superblock.abs] at hb⟩
  · have hc := m.listNodes_ne_zero hmax h0
    have hle := m.le_listNodes hmax
    have hmin := m.listNodes_pred_le hmax
    rw [if_neg h0, if_neg hc]
    generalize listNodesForBlockCount m.sb ds.length = c at *
    have hfind := m.reads_findFreeDataBlockIndices V c
    by_cases hlt : (m.sb.freeData V).length < c
    · simp only [if_pos hlt] at hfind ⊢
      exact (Reads.bind_error hfind).ensures ⟨rfl, rfl⟩
    · simp only [if_neg hlt] at hfind ⊢
      refine Ensures.bind_reads hfind ?_
      have hlen : ((m.sb.freeData V).take c).length = c := by simp; omega
      have hidx : ∀ k ∈ (m.sb.freeData V).take c, k < m.sb.dataBlkNum := fun k hk =>
        (mem_freeData.mp (List.mem_of_mem_take hk)).1
      have hnd : ((m.sb.freeData V).take c).Nodup := (nodup_freeData m.sb V).take
      generalize (m.sb.freeData V).take c = idx at *
      refine Ensures.seq (m.ensures_markUsed hidx ?_)
      refine Ensures.bind_ok (m.ensures_writeListNodes_packed hidx hnd hds (by rw [hlen]; exact hle)).attempt_eq
        fun W hW => ?_
      refine Ensures.pure ⟨?_, hW.1, hW.2 (by rw [hlen]; exact hmin)⟩
      cases idx with
      | nil => simp only [List.length_nil] at hlen; omega
      | cons k ks => rfl

theorem ensures_rebuildDataBlockList (m : Mount) (x : Inode) {ds : List Nat} (hds : ∀ p ∈ ds, p < 4294967296)
    (hmax : ds.length ≤ 2 * maxFileDataBlocks) :
    m.Ensures (rebuildDataBlockList m.sb x ds) V (fun r W =>
      if (m.sb.freeData V).length < listNodesForBlockCount m.sb ds.length then r = .error .enospc ∧ W = V
      else
        r = .ok { x with
          iDataHead := .ofNat (nodeHead m.sb ((m.sb.freeData V).take (listNodesForBlockCount m.sb ds.length)))
          iNrBlocks := .ofNat ds.length } ∧
        Listed m.sb (V.setDbits ((m.sb.freeData V).take (listNodesForBlockCount m.sb ds.length)) true) W
          ((m.sb.freeData V).take (listNodesForBlockCount m.sb ds.length)) ds) := by
  refine (m.ensures_rebuildDataBlockList_packed x hds hmax).mono fun r W hr => ?_
  split at hr
  · rwa [if_pos (by assumption)]
  · rw [if_neg (by assumption)]
    exact ⟨hr.1, hr.2.1⟩

end Mount

end Mofs
