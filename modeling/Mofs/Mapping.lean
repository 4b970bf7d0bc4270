import Mofs.BitmapExact
import Mofs.Confined
import Mofs.FreshVolume

namespace Mofs

open Effect Bytes

variable {m : Mount} {d : Disk} {V : View} {G : Owners} {i : Nat}

/-- The blocks of inode `i`, seen as a list: what looking up, exporting, appending and removing do with it. -/
structure MappingLaws (m : Mount) (d : Disk) (G : Owners) (i : Nat) : Prop where
  resolve : ∀ k, exec m.env (resolveFileDataBlock m.sb i k) d =
    some (if k < (G.data i).length then .ok ((G.data i).getD k 0) else .error .einval, d)
  flat : ∀ cap, (G.data i).length ≤ cap →
    exec m.env (exportDataBlockList m.sb ((m.sb.view d).inode i) cap) d = some (.ok (G.data i), d)
  append : ∀ n d', 1 ≤ n → n ≤ maxFileDataBlocks → exec m.env (allocateDataBlock m.sb i n) d = some (.ok (), d') →
    ∃ H new, Wf m.sb (m.sb.view d') H ∧
      Smallest (fun k => k < m.sb.dataBlkNum ∧ (m.sb.view d).dbit k = false) n new ∧
      H.data i = G.data i ++ m.sb.abs new ∧ m.sb.Packed (m.sb.view d').blk (H.nodes i)
  remove : ∀ start n d', start < (G.data i).length → start + n < 4294967296 →
    exec m.env (freeDataBlock m.sb i start n) d = some (.ok (), d') →
    ∃ H, Wf m.sb (m.sb.view d') H ∧
      H.data i = (G.data i).take start ++ (G.data i).drop (min (start + n) (G.data i).length) ∧
      (n ≠ 0 ∨ m.sb.Packed (m.sb.view d).blk (G.nodes i) → m.sb.Packed (m.sb.view d').blk (H.nodes i))

theorem exportDataBlockList_cap (sb : Superblock) {x : Inode} {cap : Nat} (h : x.iNrBlocks.toNat ≤ cap) :
    exportDataBlockList sb x cap = exportDataBlockList sb x x.iNrBlocks.toNat := by
  rw [exportDataBlockList, exportDataBlockList]
  simp only [Nat.not_lt.mpr h, Nat.lt_irrefl]

theorem smallest_freeData {sb : Superblock} {n : Nat} (h : n ≤ (sb.freeData V).length) :
    Smallest (fun k => k < sb.dataBlkNum ∧ V.dbit k = false) n ((sb.freeData V).take n) :=
  smallest_take (List.pairwise_lt_range.filter _) (fun _ => mem_freeData) h

theorem keptBlocks_eq {ds : List Nat} {start n : Nat} (h : start < ds.length) :
    keptBlocks ds start n = ds.take start ++ ds.drop (min (start + n) ds.length) := by
  rw [keptBlocks, show start + min n (ds.length - start) = min (start + n) ds.length by omega]

/-- The mapping of an inode in use is a list, and after a change of it its nodes are full but for the last. A removal of no
block at all returns 0 at once, so it keeps whatever nodes there are. -/
theorem mapping_laws (m : Mount) (h : Wf m.sb (m.sb.view d) G) (hi : (m.sb.view d).ibit i = true) : MappingLaws m d G i where
  resolve k := (m.reads_resolve (h.fileAt hi) k).exec_eq rfl
  flat cap hcap := by
    rw [exportDataBlockList_cap m.sb (by rw [h.nr i hi]; exact hcap)]
    exact (m.reads_exportDataBlockList h hi).exec_eq rfl
  append n d' hn1 hn hrun := by
    have hpost := (m.ensures_allocateDataBlock_packed h (h.range i hi) hi (by omega) hn).of_exec rfl hrun
    split at hpost
    · next hroom =>
      obtain ⟨-, H, ⟨hR, -⟩, hdata, hpack⟩ := hpost
      have hlen : n ≤ (m.sb.freeData (m.sb.view d)).length := by
        have := hroom.2
        omega
      exact ⟨H, _, hR.wf, smallest_freeData hlen, hdata, hpack⟩
    · cases hpost.1
  remove start n d' hstart h32 hrun := by
    by_cases hn : n = 0
    · subst hn
      rw [freeDataBlock, if_neg (m.not_isNeg' (h.range i hi)), if_pos rfl] at hrun
      cases hrun
      refine ⟨G, h, ?_, fun hp => hp.resolve_left (by decide)⟩
      rw [Nat.add_zero, Nat.min_eq_left hstart.le, List.take_append_drop]
    · have hpost := (m.ensures_freeDataBlock_packed h (h.range i hi) hi hn hstart h32).of_exec rfl hrun
      split at hpost
      · obtain ⟨-, H, hR, hdata, -, hpack⟩ := hpost
        exact ⟨H, hR.wf, by rw [hdata, keptBlocks_eq hstart], fun _ => hpack⟩
      · cases hpost.1

theorem mapping_laws_fresh : ∃ (m : Mount) (d : Disk) (G : Owners), Wf m.sb (m.sb.view d) G ∧
    (m.sb.view d).ibit rootInodeNum = true ∧ MappingLaws m d G rootInodeNum := by
  obtain ⟨m, d, -, hfresh, -⟩ := exists_fresh
  exact ⟨m, d, _, hfresh.wf m.ok, hfresh.rootUsed, mapping_laws m (hfresh.wf m.ok) hfresh.rootUsed⟩

/-- The view after a list node without pointers has been put before the node of the root directory. -/
def View.withEmptyNode (sb : Superblock) (V : View) (k : Nat) : View :=
  ((V.setBlk (sb.dataRegionStart + k) (encodeNode (sb.dataRegionStart + 1) [])).setDbit k true).setInode rootInodeNum
    { V.inode rootInodeNum with iDataHead := .ofNat (sb.dataRegionStart + k) }

def looseOwners (sb : Superblock) (k : Nat) : Owners :=
  (freshOwners sb).set rootInodeNum [sb.dataRegionStart + k, sb.dataRegionStart + 1] [sb.dataRegionStart]

theorem Fresh.wf_withEmptyNode {sb : Superblock} (hok : sb.Ok) (h : Fresh sb V) {k : Nat} (hk : k ∈ sb.freeData V) :
    Wf sb (V.withEmptyNode sb k) (looseOwners sb k) := by
  have hwf := h.wf hok
  obtain ⟨hlt, hbit⟩ := mem_freeData.mp hk
  have hk2 : 2 ≤ k := by
    rw [h.dbit k hlt] at hbit
    exact Nat.not_lt.mp (of_decide_eq_false hbit)
  have hroom := h.room
  have hhole := hok.hole
  have hhlt := hok.hole_lt
  have hothers : ∀ j, j ≠ rootInodeNum → (freshOwners sb).owned j = [] := fun j hj => by
    simp [Owners.owned, freshOwners, hj]
  have hroot : (freshOwners sb).nodes rootInodeNum = [sb.dataRegionStart + 1] ∧
      (freshOwners sb).data rootInodeNum = [sb.dataRegionStart] := by
    simp [freshOwners]
  have hchain := hwf.chain rootInodeNum h.rootUsed
  rw [hroot.1, hroot.2, h.head] at hchain
  have hinode : (V.withEmptyNode sb k).inode rootInodeNum =
      { V.inode rootInodeNum with iDataHead := .ofNat (sb.dataRegionStart + k) } := by
    simp [View.withEmptyNode, View.setInode]
  have hself : (V.withEmptyNode sb k).blk (sb.dataRegionStart + k) = encodeNode (sb.dataRegionStart + 1) [] :=
    Function.update_self ..
  have hold : ∀ b ∈ [sb.dataRegionStart + 1], V.blk b = (V.withEmptyNode sb k).blk b := fun b hb =>
    (Function.update_of_ne (by rw [List.mem_singleton.mp hb]; omega) _ _).symm
  refine hwf.replace h.rootUsed rfl (fun j hj => Function.update_of_ne hj _ _) ?_ ?_ ?_ (by simp [maxFileDataBlocks]) ?_ ?_ ?_ ?_
  · intro j hj b hb
    have hmem := hwf.mem_nodes hb
    rw [hothers j hj] at hmem
    cases hmem
  · rw [hinode, show (UInt32.ofNat (sb.dataRegionStart + k)).toNat = sb.dataRegionStart + k from
      Nat.mod_eq_of_lt (by omega)]
    refine Chain.cons_iff.mpr ⟨rfl, by omega, ?_, [sb.dataRegionStart], ?_, ?_⟩
    · rw [hself, nodeNrPtrs_encodeNode _ (show ([] : List Nat).length < 4294967296 by decide)]
      exact Nat.zero_le _
    · rw [hself, nodeNrPtrs_encodeNode _ (show ([] : List Nat).length < 4294967296 by decide),
        nodePtrs_encodeNode _ (by simp)]
      rfl
    · rw [hself, nodeNext_encodeNode (by omega)]
      exact hchain.congr hold
  · rw [hinode, h.nr]
    rfl
  · simp
    omega
  · intro b hb
    have hb : b = sb.dataRegionStart + k ∨ b = sb.dataRegionStart + 1 ∨ b = sb.dataRegionStart := by simpa using hb
    exact ⟨by omega, by omega⟩
  · intro j hj b _
    rw [hothers j hj]
    exact List.not_mem_nil
  · intro j hj
    have hset : (V.withEmptyNode sb k).dbit j = if j = k then true else V.dbit j := by
      simp [View.withEmptyNode, View.setInode, View.setDbit, View.setBlk, Function.update_apply]
    have hnone : ¬ ∃ i, i ≠ rootInodeNum ∧ sb.dataRegionStart + j ∈ (freshOwners sb).owned i := by
      rintro ⟨i, hi, hm⟩
      rw [hothers i hi] at hm
      cases hm
    rw [hset, h.dbit j hj, or_iff_left hnone]
    split
    · simp [*]
    · simp
      omega

/-- A well-formed volume on which `free_data_block` of no block returns 0, with a list whose first node is empty. -/
theorem free_none_not_packed : ∃ (m : Mount) (d : Disk) (G : Owners), Wf m.sb (m.sb.view d) G ∧
    (m.sb.view d).ibit rootInodeNum = true ∧ 0 < (G.data rootInodeNum).length ∧
    exec m.env (freeDataBlock m.sb rootInodeNum 0 0) d = some (.ok (), d) ∧
    ¬ m.sb.Packed (m.sb.view d).blk (G.nodes rootInodeNum) := by
  obtain ⟨m, d, -, hfresh, -, -, hroom, -⟩ := exists_fresh
  obtain ⟨k, hk⟩ : ∃ k, k ∈ m.sb.freeData (m.sb.view d) := by
    have := hroom.2
    exact List.exists_mem_of_length_pos (by omega)
  have hlt := (mem_freeData.mp hk).1
  have hmake : m.Ensures (do
      writeFull (m.sb.dataRegionStart + k) (encodeNode (m.sb.dataRegionStart + 1) [])
      setDataBitmapBit m.sb k true
      mofsWriteInode m.sb rootInodeNum { (m.sb.view d).inode rootInodeNum with
        iDataHead := .ofNat (m.sb.dataRegionStart + k) }) (m.sb.view d)
      (fun _ W => W = (m.sb.view d).withEmptyNode m.sb k) :=
    Mount.Ensures.seq (m.ensures_writeFull (m.inData_add hlt) (Mount.Ensures.seq (m.ensures_setDataBitmapBit hlt
      (m.ensures_mofsWriteInode hfresh.range rfl))))
  obtain ⟨r, d', -, hview⟩ := hmake.exists rfl
  refine ⟨m, d', looseOwners m.sb k, ?_, ?_, ?_, ?_, ?_⟩
  · rw [hview]
    exact hfresh.wf_withEmptyNode m.ok hk
  · rw [hview]
    exact hfresh.rootUsed
  · simp [looseOwners]
  · rw [freeDataBlock, if_neg (m.not_isNeg' hfresh.range), if_pos rfl]
    rfl
  · intro hpack
    have hfull := hpack (m.sb.dataRegionStart + k) (by simp [looseOwners])
    have hself : (m.sb.view d').blk (m.sb.dataRegionStart + k) = encodeNode (m.sb.dataRegionStart + 1) [] := by
      rw [hview]
      exact Function.update_self ..
    rw [hself, nodeNrPtrs_encodeNode _ (show ([] : List Nat).length < 4294967296 by decide)] at hfull
    exact absurd hfull.symm m.cap_pos.ne'

end Mofs
