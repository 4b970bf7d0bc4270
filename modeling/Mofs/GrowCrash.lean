import Mofs.Crash
import Mofs.FileModel

namespace Mofs

open Effect Bytes Mount

variable {sb : Superblock} {V W : View} {G H : Owners} {i n : Nat}

/-- The blocks that the inodes in use refer to are distinct and marked as used. Other blocks may be marked as well. -/
structure Covered (sb : Superblock) (V : View) (G : Owners) : Prop where
  chain : ∀ i, V.ibit i = true → Chain sb V.blk (V.inode i).iDataHead.toNat (G.nodes i) (G.data i)
  nr : ∀ i, V.ibit i = true → (V.inode i).iNrBlocks.toNat = (G.data i).length
  nodup : ∀ i, (G.owned i).Nodup
  disjoint : ∀ i j b, b ∈ G.owned i → b ∈ G.owned j → i = j
  used : ∀ i b, b ∈ G.owned i → sb.inData b ∧ V.dbit (b - sb.dataRegionStart) = true

theorem Wf.covered (h : Wf sb V G) : Covered sb V G :=
  ⟨h.chain, h.nr, h.nodup, h.disjoint, fun i b hb => ⟨h.inData i b hb, h.used hb⟩⟩

theorem Covered.near (h : Covered sb V G) {marks bs : List Nat} (hn : Near sb V W marks bs)
    (hm : ∀ j b, b ∈ G.owned j → b ∉ marks) (hb : ∀ j b, b ∈ G.nodes j → b ∉ bs) : Covered sb W G where
  chain j hj := by
    rw [hn.ibit] at hj
    rw [hn.inode]
    exact (h.chain j hj).congr fun b hbj => (hn.blk b (hb j b hbj)).symm
  nr j hj := by
    rw [hn.ibit] at hj
    rw [hn.inode]
    exact h.nr j hj
  nodup := h.nodup
  disjoint := h.disjoint
  used j b hbj := by
    obtain ⟨hin, hbit⟩ := h.used j b hbj
    refine ⟨hin, ?_⟩
    rw [hn.dbit _ (by rw [Nat.add_sub_cancel' hin.1]; exact hm j b hbj)]
    exact hbit

/-- Inode `i` has its old blocks, or these and the first `n` free ones; nothing else has changed for anyone. -/
structure GrowImage (sb : Superblock) (V W : View) (G H : Owners) (i n : Nat) : Prop where
  covered : Covered sb W H
  self : H.data i = G.data i ∨ H.data i = G.data i ++ sb.abs ((sb.freeData V).take n)
  attrs : ∃ h c, W.inode i = { V.inode i with iDataHead := h, iNrBlocks := c }
  others : ∀ j, j ≠ i → W.inode j = V.inode j ∧ H.nodes j = G.nodes j ∧ H.data j = G.data j
  ibit : W.ibit = V.ibit
  content : ∀ j b, b ∈ G.data j → W.blk b = V.blk b

/-- Before the inode is written, only free blocks have changed. -/
theorem GrowImage.old (h : Wf sb V G) (hW : Near sb V W (sb.abs (sb.freeData V)) (sb.abs (sb.freeData V))) :
    GrowImage sb V W G G i n := by
  have hfree : ∀ j b, b ∈ G.owned j → b ∉ sb.abs (sb.freeData V) := fun j b hb hm => by
    obtain ⟨k, hk, rfl⟩ := mem_abs.mp hm
    have hk := mem_freeData.mp hk
    exact h.not_owned hk.1 hk.2 hb
  refine ⟨h.covered.near hW hfree fun j b hb => hfree j b (h.mem_nodes hb), .inl rfl,
    ⟨(V.inode i).iDataHead, (V.inode i).iNrBlocks, ?_⟩, fun j _ => ⟨?_, rfl, rfl⟩, hW.ibit, fun j b hb => hW.blk b (hfree j b (h.mem_data hb))⟩
  · rw [hW.inode]
  · rw [hW.inode]

/-- Once it is written, only the nodes of the old list are still to be released. -/
theorem GrowImage.new {m : Mount} (h : Wf m.sb V G) {V' : View}
    (hR : Relisted m.sb V V' G H i []) (hold : ∀ b ∈ G.nodes i, b ∉ H.owned i)
    (hdata : H.data i = G.data i ++ m.sb.abs ((m.sb.freeData V).take n))
    (hnodes : ∀ b ∈ H.nodes i, ∀ j, b ∉ G.owned j)
    (hW : Near m.sb V' W (G.nodes i) []) : GrowImage m.sb V W G H i n := by
  have hown : ∀ j, j ≠ i → H.owned j = G.owned j := fun j hj => by
    rw [Owners.owned, Owners.owned, (hR.others j hj).1, (hR.others j hj).2]
  refine ⟨hR.wf.covered.near hW (fun j b hb hm => ?_) (by simp), .inr hdata, ?_, fun j hj => ⟨?_, hR.others j hj⟩, ?_, ?_⟩
  · by_cases hj : j = i
    · subst hj
      exact hold b hm hb
    · rw [hown j hj] at hb
      exact h.owned_ne hj hb (h.mem_nodes hm) rfl
  · rw [hW.inode]
    exact hR.inode_self
  · rw [hW.inode]
    exact hR.inode_other j hj
  · rw [hW.ibit, hR.ibit]
  · intro j b hb
    rw [hW.blk b (by simp)]
    exact hR.blk b (fun hm => h.node_ne_data hm hb rfl) (fun hm => hnodes b hm j (h.mem_data hb)) (by simp)

namespace Mount

/-- The view after the nodes `bs` of a list have been released. -/
def released (sb : Superblock) (V : View) (bs : List Nat) : View :=
  { V with dbit := fun k => V.dbit k && !decide (sb.dataRegionStart + k ∈ bs) }

theorem dropped_released (sb : Superblock) (V : View) (bs : List Nat) : Dropped sb V (released sb V bs) bs :=
  ⟨rfl, rfl, fun _ => rfl, fun _ _ => rfl⟩

theorem Near.released {bs : List Nat} (h : Near sb V W bs []) : Near sb (released sb V bs) W bs [] := by
  refine ⟨h.inode, h.ibit, fun k hk => ?_, h.blk⟩
  rw [h.dbit k hk, Mount.released]
  simp [hk]

theorem crash_allocateDataBlock (m : Mount) (hcache : m.env.cached = false) (h : Wf m.sb V G) (hi : V.ibit i = true)
    (hn : n ≤ maxFileDataBlocks) :
    m.Crash (allocateDataBlock m.sb i n) V (fun W => ∃ H, GrowImage m.sb V W G H i n) := by
  have hlt := h.range i hi
  have hold : ∀ W, Near m.sb V W (m.sb.abs (m.sb.freeData V)) (m.sb.abs (m.sb.freeData V)) →
      ∃ H, GrowImage m.sb V W G H i n := fun W hW => ⟨G, .old h hW⟩
  have hV := hold V (.refl _ _ _ _)
  have hmax := h.max i
  have hnr := h.nr i hi
  simp only [maxFileDataBlocks] at hn hmax
  rw [allocateDataBlock, if_neg (m.not_isNeg' hlt)]
  by_cases hn0 : n = 0
  · rw [if_pos hn0]
    exact Crash.pure _ hV
  rw [if_neg hn0]
  refine Crash.bind_reads (readOnly_mofsReadInode i) (m.reads_mofsReadInode V hlt) ?_
  rw [u32, Nat.mod_eq_of_lt (by omega), hnr]
  by_cases hbig : maxFileDataBlocks < (G.data i).length + n
  · rw [if_pos hbig]
    exact Crash.throw _ hV
  rw [if_neg hbig]
  have hexp := m.reads_exportDataBlockList h hi
  rw [hnr] at hexp
  refine Crash.bind_reads (readOnly_exportDataBlockList _ _) hexp ?_
  have hfind := m.reads_findFreeDataBlockIndices V n
  by_cases hfew : (m.sb.freeData V).length < n
  · rw [if_pos hfew] at hfind
    refine Crash.bind (P := fun r _ => r = .error .enospc) (Crash.readOnly (readOnly_findFreeDataBlockIndices n) (.inl hV))
      (hfind.ensures rfl) ?_
    rintro _ _ ⟨⟩
  rw [if_neg hfew] at hfind
  refine Crash.bind_reads (readOnly_findFreeDataBlockIndices n) hfind ?_
  have hlen : ((m.sb.freeData V).take n).length = n := List.length_take_of_le (Nat.not_lt.mp hfew)
  have hmem : ∀ k ∈ (m.sb.freeData V).take n, k < m.sb.dataBlkNum := fun k hk =>
    (mem_freeData.mp (List.mem_of_mem_take hk)).1
  have hsub : ∀ b, b ∈ m.sb.abs ((m.sb.freeData V).take n) → b ∈ m.sb.abs (m.sb.freeData V) := fun b hb => by
    obtain ⟨k, hk, rfl⟩ := mem_abs.mp hb
    exact add_mem_abs.mpr (List.mem_of_mem_take hk)
  rw [m.map_u32 hmem]
  have hrest := freeData_setDbits_take m.sb V n
  have hds : ∀ b ∈ G.data i ++ m.sb.abs ((m.sb.freeData V).take n), b < 4294967296 := fun b hb => by
    rcases List.mem_append.mp hb with hb | hb
    · exact m.data_lt (h.inData i b (h.mem_data hb))
    · exact m.data_lt (inData_abs hmem hb)
  have hdl : (G.data i ++ m.sb.abs ((m.sb.freeData V).take n)).length = (G.data i).length + n := by
    rw [List.length_append, length_abs, hlen]
  have hlen₂ : (G.data i ++ m.sb.abs ((m.sb.freeData V).take n)).length ≤ 2 * maxFileDataBlocks := by
    rw [hdl]
    simp only [maxFileDataBlocks] at hbig ⊢
    omega
  refine Crash.bind (P := fun r W => r = .ok () ∧ W = V.setDbits ((m.sb.freeData V).take n) true)
    (m.crash_markUsed hmem fun W hW => .inl (hold W (hW.mono hsub (by simp)))) (m.ensures_markUsed hmem ⟨rfl, rfl⟩) ?_
  rintro _ _ ⟨-, rfl⟩
  have hfree₁ : ∀ b, b ∈ m.sb.abs (m.sb.freeData (V.setDbits ((m.sb.freeData V).take n) true)) →
      b ∈ m.sb.abs (m.sb.freeData V) := fun b hb => by
    rw [hrest] at hb
    obtain ⟨k, hk, rfl⟩ := mem_abs.mp hb
    exact add_mem_abs.mpr (List.mem_of_mem_drop hk)
  have hold₁ : ∀ W, Near m.sb (V.setDbits ((m.sb.freeData V).take n) true) W (m.sb.abs (m.sb.freeData V))
      (m.sb.abs (m.sb.freeData V)) → ∃ H, GrowImage m.sb V W G H i n := fun W hW => by
    refine hold W (((near_setDbits m.sb V _ true).trans hW).mono (fun b hb => ?_) (by simp))
    rcases List.mem_append.mp hb with hb | hb
    · exact hsub b hb
    · exact hb
  refine Crash.attempt_bind
    (m.crash_rebuildDataBlockList (V.inode i) hds hlen₂ fun W hW => .inl (hold₁ W (hW.mono hfree₁ hfree₁)))
    (m.ensures_rebuildDataBlockList (V.inode i) hds hlen₂) ?_
  rintro r V₂ hpost
  rw [hdl] at hpost
  split at hpost
  · obtain ⟨rfl, rfl⟩ := hpost
    refine Crash.bind
      (P := fun r W => r = .ok () ∧ W = (V.setDbits ((m.sb.freeData V).take n) true).setDbits ((m.sb.freeData V).take n) false)
      (m.crash_updateDataBitmapBits hmem fun W hW => ?_) (m.ensures_updateDataBitmapBits hmem ⟨rfl, rfl⟩) ?_
    · exact .inl (hold₁ W (hW.mono hsub (by simp)))
    · rintro _ _ ⟨-, rfl⟩
      exact Crash.throw _ (hold₁ _ ((near_setDbits m.sb _ _ false).mono hsub (by simp)))
  · next hroom =>
    obtain ⟨rfl, hL⟩ := hpost
    have hidx : ∀ k ∈ (m.sb.freeData (V.setDbits ((m.sb.freeData V).take n) true)).take
        (listNodesForBlockCount m.sb ((G.data i).length + n)),
        k ∈ m.sb.freeData (V.setDbits ((m.sb.freeData V).take n) true) := fun k hk => List.mem_of_mem_take hk
    have hnd := (nodup_freeData m.sb (V.setDbits ((m.sb.freeData V).take n) true)).take
      (i := listNodesForBlockCount m.sb ((G.data i).length + n))
    generalize (m.sb.freeData (V.setDbits ((m.sb.freeData V).take n) true)).take
      (listNodesForBlockCount m.sb ((G.data i).length + n)) = idx at *
    have hkeep : ∀ b ∈ G.nodes i, V₂.blk b = V.blk b := fun b hb =>
      hL.blk b fun hm => not_owned_marked h hidx hm i (h.mem_nodes hb)
    have hbuilt : ∃ H, GrowImage m.sb V V₂ G H i n := by
      have hin : ∀ b, b ∈ m.sb.abs idx → b ∈ m.sb.abs (m.sb.freeData V) := fun b hb => by
        obtain ⟨k, hk, rfl⟩ := mem_abs.mp hb
        exact hfree₁ _ (add_mem_abs.mpr (hidx k hk))
      have hlisted : Near m.sb ((V.setDbits ((m.sb.freeData V).take n) true).setDbits idx true) V₂ [] (m.sb.abs idx) :=
        ⟨hL.inode, hL.ibit, fun k _ => congrFun hL.dbit k, hL.blk⟩
      exact hold₁ V₂ (((near_setDbits m.sb _ idx true).trans hlisted).mono (by simpa using hin) (by simpa using hin))
    have hnew : ∀ W, Near m.sb (V₂.setInode i { V.inode i with
        iDataHead := .ofNat (nodeHead m.sb idx)
        iNrBlocks := .ofNat ((G.data i).length + n) }) W (G.nodes i) [] → ∃ H, GrowImage m.sb V W G H i n := fun W hW => by
      obtain ⟨hR, hold⟩ := relisted_of_grow h hi (by simp only [maxFileDataBlocks] at hbig ⊢; omega) hlen hidx hnd hL
        (dropped_released m.sb _ (G.nodes i))
      refine ⟨_, GrowImage.new h hR hold (by simp) (fun b hb j => ?_) hW.released⟩
      rw [Owners.set_nodes_self] at hb
      exact not_owned_marked h hidx hb j
    refine Crash.attempt_bind (m.crash_mofsWriteInode hcache hlt (.inl hbuilt) (.inr ⟨.ok (), rfl, rfl⟩))
      (m.ensures_mofsWriteInode (Q := fun r W => r = .ok () ∧ W = V₂.setInode i _) hlt ⟨rfl, rfl⟩) ?_
    rintro _ _ ⟨rfl, rfl⟩
    exact m.crash_freeOldList hcache ((h.chain i hi).congr fun b hb => (hkeep b hb).symm)
      (fun b hb => h.inData i b (h.mem_nodes hb)) (h.length_nodes_le i) hnew

end Mount

/-- Growing a file without a cache is safe against a crash: wherever it is cut off, the file has its old blocks or its
new ones, every block that is referred to is marked, and everyone else's blocks are as before. -/
theorem grow_crash_safe (m : Mount) (hcache : m.env.cached = false) {d d' : Disk} (h : Wf m.sb (m.sb.view d) G)
    (hi : (m.sb.view d).ibit i = true) (hn : n ≤ 1024) (hcut : Cut m.env.answer (allocateDataBlock m.sb i n) d d') :
    ∃ H, GrowImage m.sb (m.sb.view d) (m.sb.view d') G H i n :=
  m.crash_allocateDataBlock hcache h hi hn d rfl d' hcut

/-- The file of a small volume grows by two blocks, and the device fails right after that. -/
theorem grow_crash_safe_end : ∃ (m : Mount) (d d' : Disk) (G : Owners), m.env.cached = false ∧ Wf m.sb (m.sb.view d) G ∧
    (m.sb.view d).ibit 3 = true ∧ (2 : Nat) ≤ 1024 ∧ Cut m.env.answer (allocateDataBlock m.sb 3 2) d d' ∧
    ∃ H, GrowImage m.sb (m.sb.view d) (m.sb.view d') G H 3 2 := by
  obtain ⟨m₀, d, h⟩ := exists_oneFile (fun _ => 0)
  let m : Mount := ⟨m₀.sb, { m₀.env with cached := false }, m₀.ok, ⟨m₀.serves.blk, m₀.serves.size⟩⟩
  have hwf : Wf m.sb (m.sb.view d) (freshOwners m.sb) := h.ok.wf
  obtain ⟨r, d', hr, -⟩ := (m.ensures_allocateDataBlock hwf (hwf.range 3 h.ibit) h.ibit (by decide) (n := 2)
    (by decide)).exists rfl
  have hcut : Cut m.env.answer (allocateDataBlock m.sb 3 2) d d' := cut_of_run hr
  exact ⟨m, d, d', _, rfl, hwf, h.ibit, by decide, hcut, grow_crash_safe m rfl hwf h.ibit (by decide) hcut⟩

end Mofs
