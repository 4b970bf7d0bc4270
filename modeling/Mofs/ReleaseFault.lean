import Mofs.Fault
import Mofs.Shrink

namespace Mofs

open Effect Bytes

variable {sb : Superblock} {V W : View} {G : Owners} {i : Nat}

/-- What `free_data_block` does once it has cleared the bits of the released blocks. -/
def commitRelease (sb : Superblock) (i : Nat) (x : Inode) (released compact : List Nat) : M Unit := do
  match ← attempt (rebuildDataBlockList sb x compact) with
  | .error e =>
    rollbackBitmap sb released
    throw e
  | .ok y =>
    match ← attempt (mofsWriteInode sb i y) with
    | .error e =>
      let _ ← attempt (freeListChain sb y.iDataHead.toNat)
      rollbackBitmap sb released
      throw e
    | .ok () =>
      if x.iDataHead.toNat ≠ 0 then
        let _ ← attempt (freeListChain sb x.iDataHead.toNat)
        pure ()
      else pure ()

theorem freeDataBlock_eq (sb : Superblock) (i start n : Nat) :
    freeDataBlock sb i start n = (if isNeg i then throw .einval
      else if n = 0 then pure ()
      else do
        let x ← mofsReadInode sb i
        if x.iNrBlocks.toNat ≤ start then throw .einval
        else
          let freeBlkNum := if x.iNrBlocks.toNat < u32 (start + n) then x.iNrBlocks.toNat - start else n
          let flat ← exportDataBlockList sb x x.iNrBlocks.toNat
          releaseBlocks sb ((flat.drop start).take freeBlkNum)
          commitRelease sb i x ((flat.drop start).take freeBlkNum)
            (flat.take start ++ flat.drop (start + freeBlkNum))) := rfl

/-- The mappings, the data bitmap and the contents of all owned blocks are those of `V`. -/
structure Restored (V W : View) (G : Owners) : Prop where
  inode : W.inode = V.inode
  dbit : W.dbit = V.dbit
  blk : ∀ j, ∀ b ∈ G.owned j, W.blk b = V.blk b

theorem Restored.refl (V : View) (G : Owners) : Restored V V G := ⟨rfl, rfl, fun _ _ _ => rfl⟩

theorem releasedBlocks_one {ds : List Nat} {start : Nat} (h : start < ds.length) :
    releasedBlocks ds start 1 = [ds.getD start 0] := by
  rw [releasedBlocks, Nat.min_eq_left (by omega), List.drop_eq_getElem_cons h, List.getD_eq_getElem _ _ h]
  rfl

/-- Where the list of a file that gives back its block number `start` is put. -/
def Superblock.relistIdx (sb : Superblock) (V : View) (ds : List Nat) (start : Nat) : List Nat :=
  (sb.freeData (V.setDbit (ds.getD start 0 - sb.dataRegionStart) false)).take
    (listNodesForBlockCount sb (keptBlocks ds start 1).length)

/-- The shorter list of a file that gives back its block number `start` finds its nodes, and what it writes to the
released block, if it gets that one, is what the block holds already. -/
def Superblock.SparesBlock (sb : Superblock) (V : View) (ds : List Nat) (start : Nat) : Prop :=
  listNodesForBlockCount sb (keptBlocks ds start 1).length ≤
      (sb.freeData (V.setDbit (ds.getD start 0 - sb.dataRegionStart) false)).length ∧
    ∀ x, nodeFor sb (sb.relistIdx V ds start) (keptBlocks ds start 1) (ds.getD start 0) = some x → x = V.blk (ds.getD start 0)

/-- Nodes are put into free blocks and perhaps into the released one. -/
theorem restored_blk {r : Nat} (h : Wf sb V G) (hr : ∃ j, r ∈ G.owned j) {idx ds : List Nat}
    (hidx : ∀ k ∈ idx, k ∈ sb.freeData (V.setDbit (r - sb.dataRegionStart) false))
    (hspare : ∀ x, nodeFor sb idx ds r = some x → x = V.blk r)
    (hW : ∀ b, W.blk b = V.blk b ∨ nodeFor sb idx ds b = some (W.blk b)) (j b : Nat) (hb : b ∈ G.owned j) :
    W.blk b = V.blk b := by
  rcases hW b with hWb | hWb
  · exact hWb
  by_cases hbr : b = r
  · subst hbr
    exact hspare _ hWb
  · have hnot : b ∉ sb.abs idx := fun hm => by
      obtain ⟨k, hk, rfl⟩ := mem_abs.mp hm
      have hfree := (mem_freeData.mp (hidx k hk)).2
      have hused := h.used hb
      rw [Nat.add_sub_cancel_left] at hused
      obtain ⟨j', hr⟩ := hr
      have hge := (h.inData j' r hr).1
      have hne : k ≠ r - sb.dataRegionStart := by omega
      simp [View.setDbit, hne, hused] at hfree
    rw [nodeFor_eq_none _ hnot] at hWb
    cases hWb

theorem Wf.getD_mem_owned (h : Wf sb V G) {start : Nat} (hstart : start < (G.data i).length) :
    (G.data i).getD start 0 ∈ G.owned i :=
  h.mem_data (by rw [List.getD_eq_getElem _ _ hstart]; exact List.getElem_mem hstart)

theorem Mount.Dropped.freeData_one {r : Nat} (h : Mount.Dropped sb V W [r]) (hr : sb.dataRegionStart ≤ r) :
    sb.freeData W = sb.freeData (V.setDbit (r - sb.dataRegionStart) false) := by
  refine freeData_congr (funext fun k => ?_)
  rw [h.dbit k]
  by_cases hk : k = r - sb.dataRegionStart
  · simp [View.setDbit, hk, Nat.add_sub_cancel' hr]
  · have : sb.dataRegionStart + k ≠ r := by omega
    simp [View.setDbit, hk, this]

namespace Mount

variable {m : Mount}

theorem kept_bounds (h : Wf m.sb V G) (i start : Nat) : (∀ p ∈ keptBlocks (G.data i) start 1, p < 4294967296) ∧
    (keptBlocks (G.data i) start 1).length ≤ 2 * maxFileDataBlocks := by
  refine ⟨fun p hp => m.data_lt (h.inData i p (h.mem_data (mem_blocks_iff.mpr (.inr hp)))), ?_⟩
  have hmax := h.max i
  simp only [keptBlocks, List.length_append, List.length_take, List.length_drop, maxFileDataBlocks] at hmax ⊢
  omega

/-- The two ways of `free_data_block` to throw a new list away: its nodes are freed, and the bits set again. -/
theorem ensures_undoRelease (m : Mount) {V₁ V₂ : View} {rel idx ds : List Nat} (hd : ∀ b ∈ rel, m.sb.inData b)
    (hused : ∀ b ∈ rel, V.dbit (b - m.sb.dataRegionStart) = true) (h₁ : Dropped m.sb V V₁ rel)
    (hidx : ∀ k ∈ idx, k ∈ m.sb.freeData V₁) (hnd : idx.Nodup) (hL : Listed m.sb (V₁.setDbits idx true) V₂ idx ds) (e : Errno) :
    m.Ensures (do
      let _ ← attempt (freeListChain m.sb (nodeHead m.sb idx))
      rollbackBitmap m.sb rel
      throw e : M Unit) V₂ (fun r W => r = .error e ∧ W.inode = V.inode ∧ W.dbit = V.dbit ∧
        (∀ b ∉ m.sb.abs idx, W.blk b = V₂.blk b) ∧ ∀ b ∈ m.sb.abs idx, m.env.MayDrop (V₂.blk b) (W.blk b)) := by
  have hlt : ∀ k ∈ idx, k < m.sb.dataBlkNum := fun k hk => (mem_freeData.mp (hidx k hk)).1
  have hlen : (m.sb.abs idx).length ≤ m.sb.dataBlkNum := by
    rw [length_abs]
    have := (hnd.subperm fun k hk => List.mem_range.mpr (hlt k hk)).length_le
    simpa using this
  refine Ensures.bind_ok (m.ensures_freeListChainFrom_drop hL.chain (fun b hb => inData_abs hlt hb) (nodup_abs hnd)
    (length_walk_lt m.ok hlen)).attempt_eq fun U hU => ?_
  obtain ⟨hU, hdrop⟩ := hU
  have hbit : ∀ k, U.dbit k = (V.dbit k && !decide (m.sb.dataRegionStart + k ∈ rel)) := fun k => by
    rw [hU.dbit k, hL.dbit, ← h₁.dbit k]
    simp only [View.setDbits, add_mem_abs]
    by_cases hk : k ∈ idx
    · simp [hk, (mem_freeData.mp (hidx k hk)).2]
    · simp [hk]
  refine Ensures.bind_ok (m.ensures_rollbackBitmap_bits hd hused hbit) fun W hW => Ensures.throw ?_
  subst hW
  exact ⟨rfl, hU.inode.trans (hL.inode.trans h₁.inode), rfl, hU.blk, hdrop⟩

/-- The old list is dropped at the end, and failures there go unnoticed. -/
theorem runs_freeOldList (m : Mount) (V : View) (head : Nat) :
    m.Runs (if head ≠ 0 then do
        let _ ← attempt (freeListChain m.sb head)
        pure ()
      else pure () : M Unit) V (fun r _ => r = .ok ()) := fun d _ r d' h => by
  split at h
  · rw [exec, run_bind, run_attempt] at h
    rcases hrun : run m.env.answer (freeListChain m.sb head) d with _ | ⟨r', u⟩
    · simp [hrun] at h
    · rw [hrun] at h
      cases h
      rfl
  · cases h
    rfl

theorem fault_freeOldList (m : Mount) (V : View) (head : Nat) :
    m.Fault (if head ≠ 0 then do
        let _ ← attempt (freeListChain m.sb head)
        pure ()
      else pure () : M Unit) V (fun r _ => r = .ok ()) := fun d _ r d' h => by
  split at h
  · rcases faulted_bind h with ⟨e, -, ha⟩ | ⟨a, u, -, hr⟩ | ⟨a, u, -, hf⟩
    · obtain ⟨r', hr', -⟩ := faulted_attempt ha
      cases hr'
    · cases hr
      rfl
    · exact absurd hf not_faulted_pure
  · exact absurd h not_faulted_pure

/-- What the shorter list consists of when it is complete. -/
theorem ensures_relist (m : Mount) {V₁ : View} (x : Inode) {ds : List Nat} (hds : ∀ p ∈ ds, p < 4294967296)
    (hmax : ds.length ≤ 2 * maxFileDataBlocks) (hroom : listNodesForBlockCount m.sb ds.length ≤ (m.sb.freeData V₁).length) :
    let idx := (m.sb.freeData V₁).take (listNodesForBlockCount m.sb ds.length)
    m.Ensures (rebuildDataBlockList m.sb x ds) V₁ (fun r W => ∃ y, r = .ok y ∧ y.iDataHead.toNat = nodeHead m.sb idx ∧
      Listed m.sb (V₁.setDbits idx true) W idx ds ∧ ∀ b, W.blk b = (nodeFor m.sb idx ds b).getD (V₁.blk b)) := by
  intro idx
  refine ((m.ensures_rebuildDataBlockList (V := V₁) x hds hmax).and (m.ensures_rebuildDataBlockList_blk x ds)).mono ?_
  rintro r W ⟨hr, hblk⟩
  rw [if_neg (Nat.not_lt.mpr hroom)] at hr
  obtain ⟨rfl, hL⟩ := hr
  refine ⟨_, rfl, ?_, hL, hblk _ rfl⟩
  refine Nat.mod_eq_of_lt ?_
  have hlt : ∀ k ∈ idx, k < m.sb.dataBlkNum := fun k hk => (mem_freeData.mp (List.mem_of_mem_take hk)).1
  have hhole := m.ok.hole
  have hole := m.ok.hole_lt
  change nodeHead m.sb idx < 4294967296
  rcases idx with _ | ⟨k, ks⟩
  · exact Nat.zero_lt_succ _
  · have := hlt k (by simp)
    simp only [nodeHead]
    omega

section Single

variable {r : Nat} {kept : List Nat}

/-- Without a cache, a single released block that the new list spares is back after a failure. -/
theorem fault_commitRelease (m : Mount) (hcache : m.env.cached = false) (h : Wf m.sb V G) (hlt : i < m.sb.inodeNum)
    (hr : r ∈ G.owned i) (hkept : ∀ p ∈ kept, p < 4294967296) (hmax : kept.length ≤ 2 * maxFileDataBlocks)
    {V₁ : View} (hV₁ : V₁ = V.setDbit (r - m.sb.dataRegionStart) false)
    (hroom : listNodesForBlockCount m.sb kept.length ≤ (m.sb.freeData V₁).length)
    (hspare : ∀ x, nodeFor m.sb ((m.sb.freeData V₁).take (listNodesForBlockCount m.sb kept.length)) kept r = some x → x = V.blk r) :
    m.Fault (commitRelease m.sb i (V.inode i) [r] kept) V₁ (fun res W => ∀ e, res = .error e → Restored V W G) := by
  have hin : ∀ b ∈ [r], m.sb.inData b := fun b hb => by
    obtain rfl := List.mem_singleton.mp hb
    exact h.inData i b hr
  have hused : ∀ b ∈ [r], V.dbit (b - m.sb.dataRegionStart) = true := fun b hb => by
    obtain rfl := List.mem_singleton.mp hb
    exact h.used hr
  have hge := (h.inData i r hr).1
  have h₁ : Dropped m.sb V V₁ [r] := by
    subst hV₁
    refine ⟨rfl, rfl, fun k => ?_, fun _ _ => rfl⟩
    by_cases hk : k = r - m.sb.dataRegionStart
    · simp [View.setDbit, hk, Nat.add_sub_cancel' hge]
    · have : m.sb.dataRegionStart + k ≠ r := by omega
      simp [View.setDbit, hk, this]
  have hblk₁ : V₁.blk = V.blk := by rw [hV₁]; rfl
  have hrelist := m.ensures_relist (V.inode i) hkept hmax hroom
  have hidx : ∀ k ∈ (m.sb.freeData V₁).take (listNodesForBlockCount m.sb kept.length), k ∈ m.sb.freeData V₁ :=
    fun k hk => List.mem_of_mem_take hk
  have hnd : ((m.sb.freeData V₁).take (listNodesForBlockCount m.sb kept.length)).Nodup := (nodup_freeData m.sb V₁).take
  have hfault := m.fault_rebuildDataBlockList (V := V₁) (V.inode i) kept
  generalize (m.sb.freeData V₁).take (listNodesForBlockCount m.sb kept.length) = idx at *
  have hkeep {W : View} (hW : ∀ b, W.blk b = V.blk b ∨ nodeFor m.sb idx kept b = some (W.blk b)) :
      ∀ j, ∀ b ∈ G.owned j, W.blk b = V.blk b :=
    restored_blk h ⟨i, hr⟩ (fun k hk => hV₁ ▸ hidx k hk) hspare hW
  rw [commitRelease]
  refine Fault.bind (B := fun res W => (∃ e, res = .ok (.error e)) ∧ HalfListed m.sb V₁ W idx kept)
    (hrelist.attempt (Q := fun res W => ∃ y, res = .ok (.ok y) ∧ y.iDataHead.toNat = nodeHead m.sb idx ∧
      Listed m.sb (V₁.setDbits idx true) W idx kept ∧ ∀ b, W.blk b = (nodeFor m.sb idx kept b).getD (V₁.blk b)) ?_).runs
    ?_ ?_ ?_ ?_
  · rintro res W ⟨y, rfl, hy⟩
    exact ⟨y, rfl, hy⟩
  · refine hfault.attempt ?_
    rintro res W ⟨⟨e, rfl⟩, hW⟩
    exact ⟨⟨e, rfl⟩, hW⟩
  · rintro a V₂ ⟨y, ha, hhead, hL, hblk⟩
    cases ha
    have hset : m.Ensures (mofsWriteInode m.sb i y) V₂ (fun res _ => res = .ok ()) := m.ensures_mofsWriteInode hlt rfl
    refine Fault.bind (P := fun res _ => res = .ok (.ok ()))
      (B := fun res W => (∃ e, res = .ok (.error e)) ∧ W = V₂ ∨ res = .ok (.ok ())) ?_ ?_ ?_ ?_ ?_
    · exact (hset.attempt fun res W hres => by rw [hres]).runs
    · exact (m.fault_mofsWriteInode (V := V₂) hlt (Q := fun res W => (∃ e, res = .error e) ∧ W = V₂ ∨ res = .ok ())
        (fun e => .inl ⟨⟨e, rfl⟩, rfl⟩) (.inr rfl)).attempt fun res W hres => by
          rcases hres with ⟨⟨e, rfl⟩, hW⟩ | rfl
          · exact .inl ⟨⟨e, rfl⟩, hW⟩
          · exact .inr rfl
    · rintro _ W ⟨⟩
      refine (m.fault_freeOldList W _).mono ?_
      rintro _ U rfl e ⟨⟩
    · rintro a W (⟨⟨e, ha⟩, rfl⟩ | ha)
      · cases ha
        dsimp only
        rw [hhead]
        refine ((m.ensures_undoRelease hin hused h₁ hidx hnd hL e).mono ?_).runs
        rintro _ U ⟨rfl, hUin, hUbit, hUother, hUnode⟩ e' -
        refine ⟨hUin, hUbit, hkeep fun b => ?_⟩
        have hUb : U.blk b = (nodeFor m.sb idx kept b).getD (V.blk b) := by
          rw [← hblk₁, ← hblk b]
          by_cases hb : b ∈ m.sb.abs idx
          · exact (hUnode b hb).eq_of_uncached hcache
          · exact hUother b hb
        rcases hn : nodeFor m.sb idx kept b with _ | x
        · exact .inl (by rw [hUb, hn]; rfl)
        · exact .inr (by rw [hUb, hn]; rfl)
      · cases ha
        refine fun d hd res d' hrun e he => ?_
        have := m.runs_freeOldList W _ d hd res d' hrun
        rw [he] at this
        cases this
    · rintro e W (⟨⟨e', he⟩, -⟩ | he)
      · cases he
      · cases he
  · rintro a W ⟨⟨e, ha⟩, hW⟩
    cases ha
    have hbit : ∀ k, W.dbit k = (V.dbit k && !decide (m.sb.dataRegionStart + k ∈ [r])) := fun k => by
      rw [hW.dbit, h₁.dbit k]
    refine (Ensures.bind_ok (m.ensures_rollbackBitmap_bits hin hused hbit) fun U hU => Ensures.throw ?_).runs
    subst hU
    refine fun _ _ => ⟨hW.inode.trans h₁.inode, rfl, hkeep fun b => ?_⟩
    rw [← hblk₁]
    exact hW.blk b
  · rintro e W ⟨⟨e', he⟩, -⟩
    cases he

end Single

theorem stops_releaseBlocks_one (m : Mount) {r : Nat} (hr : m.sb.inData r) : m.Stops (releaseBlocks m.sb [r]) V := by
  have hlt : r - m.sb.dataRegionStart < m.sb.dataBlkNum := hr.idx_lt
  rw [releaseBlocks, m.absToDataIdx_ok hr]
  refine Fault.ofExcept_bind fun k hk => ?_
  cases hk
  refine (m.stops_setDataBitmapBit V _ false).bind (P := fun _ _ => True) (fun _ _ _ _ _ => trivial)
    (fun e => ⟨⟨e, rfl⟩, rfl⟩) fun _ W _ => ?_
  exact Fault.bind (P := fun _ _ => True) (B := fun _ _ => False) (fun _ _ _ _ _ => trivial) (m.fault_bcacheInvalidate W r _)
    (fun _ _ _ => Fault.pure _) (fun _ _ h => h.elim) fun _ _ h => h.elim

/-- Without a cache the content of a released block stays. -/
theorem ensures_releaseBlocks_one (m : Mount) (hcache : m.env.cached = false) {r : Nat} (hr : m.sb.inData r) :
    m.Ensures (releaseBlocks m.sb [r]) V (fun res W => res = .ok () ∧ W = V.setDbit (r - m.sb.dataRegionStart) false) := by
  have hge := hr.1
  have hone : ∀ b ∈ [r], m.sb.inData b := by simpa using hr
  refine (m.ensures_releaseBlocks hone (List.nodup_singleton r)).mono ?_
  rintro res W ⟨rfl, hW, hdrop⟩
  refine ⟨rfl, View.ext hW.inode hW.ibit (funext fun k => ?_) (funext fun b => ?_)⟩
  · rw [hW.dbit k]
    by_cases hk : k = r - m.sb.dataRegionStart
    · simp [View.setDbit, hk, Nat.add_sub_cancel' hge]
    · have : m.sb.dataRegionStart + k ≠ r := by omega
      simp [View.setDbit, hk, this]
  · by_cases hb : b = r
    · subst hb
      exact (hdrop b (by simp)).eq_of_uncached hcache
    · exact hW.blk b (by simpa using hb)

section Call

variable {start n : Nat} (h : Wf m.sb V G) (hi : V.ibit i = true) (hn0 : n ≠ 0) (hrange : start + n ≤ (G.data i).length)
include h hi hn0 hrange

/-- What a call does after it has read the list. -/
theorem fault_freeDataBlock {F : Except Errno Unit → View → Prop} (herr : ∀ e, F (.error e) V)
    (hf : m.Fault (do
      releaseBlocks m.sb (releasedBlocks (G.data i) start n)
      commitRelease m.sb i (V.inode i) (releasedBlocks (G.data i) start n) (keptBlocks (G.data i) start n)) V F) :
    m.Fault (freeDataBlock m.sb i start n) V F := by
  have hlt := h.range i hi
  have hnr := h.nr i hi
  have hmax := h.max i
  simp only [maxFileDataBlocks] at hmax
  rw [freeDataBlock_eq, if_neg (m.not_isNeg' hlt), if_neg hn0]
  refine (m.stops_mofsReadInode V i).bind_reads (m.reads_mofsReadInode V hlt) herr ?_
  simp only [hnr]
  have hexp := m.reads_exportDataBlockList h hi
  rw [hnr] at hexp
  rw [if_neg (by omega), u32, Nat.mod_eq_of_lt (by omega), if_neg (by omega)]
  refine (m.stops_exportDataBlockList V _ _).bind_reads hexp herr ?_
  rwa [releasedBlocks, keptBlocks, Nat.min_eq_left (by omega)] at hf

theorem faulted_freeDataBlock {d d' : Disk} (hd : m.sb.view d = V) {res : Except Errno Unit}
    (hf : Faulted m.env.answer m.env.Fails (do
      releaseBlocks m.sb (releasedBlocks (G.data i) start n)
      commitRelease m.sb i (V.inode i) (releasedBlocks (G.data i) start n) (keptBlocks (G.data i) start n)) d res d') :
    Faulted m.env.answer m.env.Fails (freeDataBlock m.sb i start n) d res d' := by
  have hlt := h.range i hi
  have hnr := h.nr i hi
  have hmax := h.max i
  simp only [maxFileDataBlocks] at hmax
  rw [freeDataBlock_eq, if_neg (m.not_isNeg' hlt), if_neg hn0]
  refine Faulted.bind_later ((m.reads_mofsReadInode V hlt).exec_eq hd) ?_
  simp only [hnr]
  have hexp := m.reads_exportDataBlockList h hi
  rw [hnr] at hexp
  rw [if_neg (by omega), u32, Nat.mod_eq_of_lt (by omega), if_neg (by omega)]
  refine Faulted.bind_later (hexp.exec_eq hd) ?_
  rwa [releasedBlocks, keptBlocks, Nat.min_eq_left (by omega)] at hf

end Call

section Lost

variable {d : Disk} {start : Nat} (h : Wf m.sb (m.sb.view d) G) (hi : (m.sb.view d).ibit i = true)
include h hi

/-- Of two released blocks the second can fail, and the bit of the first stays clear. -/
theorem release_two_lost {n : Nat} (h2 : 2 ≤ n) (hrange : start + n ≤ (G.data i).length) : ∃ e d',
    Faulted m.env.answer m.env.Fails (freeDataBlock m.sb i start n) d (.error e) d' ∧
      ¬ Restored (m.sb.view d) (m.sb.view d') G := by
  obtain ⟨r₁, r₂, rs, hrel⟩ : ∃ r₁ r₂ rs, releasedBlocks (G.data i) start n = r₁ :: r₂ :: rs := by
    have hlen : (releasedBlocks (G.data i) start n).length = n := by
      simp [releasedBlocks]
      omega
    rcases hcase : releasedBlocks (G.data i) start n with _ | ⟨r₁, _ | ⟨r₂, rs⟩⟩
    · simp [hcase] at hlen
      omega
    · simp [hcase] at hlen
      omega
    · exact ⟨r₁, r₂, rs, rfl⟩
  have hmem : ∀ b ∈ [r₁, r₂], b ∈ G.owned i := fun b hb =>
    h.mem_data (mem_blocks_iff.mpr (.inl (show b ∈ releasedBlocks (G.data i) start n by rw [hrel]; simp at hb ⊢; tauto)))
  have hin₁ := h.inData i r₁ (hmem r₁ (by simp))
  have hin₂ := h.inData i r₂ (hmem r₂ (by simp))
  have hset : m.Ensures (setDataBitmapBit m.sb (r₁ - m.sb.dataRegionStart) false) (m.sb.view d) (fun res W =>
      res = .ok () ∧ W = (m.sb.view d).setDbit (r₁ - m.sb.dataRegionStart) false) :=
    m.ensures_setDataBitmapBit hin₁.idx_lt ⟨rfl, rfl⟩
  obtain ⟨_, d₁, hexec₁, rfl, hd₁⟩ := hset.exists rfl
  have hinv : m.Ensures (bcacheInvalidate r₁) (m.sb.view d₁) (fun res W =>
      res = .ok () ∧ W.dbit = (m.sb.view d₁).dbit) := m.ensures_bcacheInvalidate hin₁ fun x => ⟨rfl, rfl⟩
  obtain ⟨_, d₂, hexec₂, rfl, hbit⟩ := hinv.exists rfl
  refine ⟨.eio, d₂, faulted_freeDataBlock h hi (by omega) hrange rfl ?_, fun hres => ?_⟩
  · rw [hrel, releaseBlocks, m.absToDataIdx_ok hin₁]
    refine Faulted.bind_error (Faulted.bind_later rfl (Faulted.bind_later hexec₁ (Faulted.bind_later hexec₂ ?_)))
    rw [releaseBlocks, m.absToDataIdx_ok hin₂]
    exact Faulted.bind_later rfl (Faulted.bind_error (m.faulted_bitUpdate hin₂.idx_lt false d₂))
  · have hused := h.used (hmem r₁ (by simp))
    rw [← hres.dbit, hbit, hd₁] at hused
    simp [View.setDbit] at hused

variable (hstart : start < (G.data i).length)
include hstart

theorem faulted_freeDataBlock_one {d' : Disk} {res : Except Errno Unit}
    (hf : Faulted m.env.answer m.env.Fails (do
      releaseBlocks m.sb [(G.data i).getD start 0]
      commitRelease m.sb i ((m.sb.view d).inode i) [(G.data i).getD start 0] (keptBlocks (G.data i) start 1)) d res d') :
    Faulted m.env.answer m.env.Fails (freeDataBlock m.sb i start 1) d res d' := by
  refine faulted_freeDataBlock h hi Nat.one_ne_zero hstart rfl ?_
  rwa [releasedBlocks_one hstart]

/-- When the list cannot be rebuilt, the rollback itself can fail. -/
theorem release_full_lost (hfull : (m.sb.freeData ((m.sb.view d).setDbit ((G.data i).getD start 0 - m.sb.dataRegionStart) false)).length <
      listNodesForBlockCount m.sb (keptBlocks (G.data i) start 1).length) : ∃ e d',
    Faulted m.env.answer m.env.Fails (freeDataBlock m.sb i start 1) d (.error e) d' ∧
      ¬ Restored (m.sb.view d) (m.sb.view d') G := by
  have hr := h.getD_mem_owned hstart
  obtain ⟨hkept, hmax⟩ := kept_bounds h i start
  have hcall (d' : Disk) (res : Except Errno Unit) :
      _ → Faulted m.env.answer m.env.Fails (freeDataBlock m.sb i start 1) d res d' := faulted_freeDataBlock_one h hi hstart
  generalize (G.data i).getD start 0 = r at *
  generalize keptBlocks (G.data i) start 1 = kept at *
  have hin := h.inData i r hr
  have hlt : r - m.sb.dataRegionStart < m.sb.dataBlkNum := hin.idx_lt
  have hone : ∀ b ∈ [r], m.sb.inData b := by simpa using hin
  obtain ⟨_, d₁, hexec₁, rfl, h₁, -⟩ := (m.ensures_releaseBlocks (V := m.sb.view d) hone (List.nodup_singleton r)).exists rfl
  have hreb := m.ensures_rebuildDataBlockList (V := m.sb.view d₁) ((m.sb.view d).inode i) hkept hmax
  rw [h₁.freeData_one hin.1] at hreb
  simp only [if_pos hfull] at hreb
  obtain ⟨_, d₂, hexec₂, rfl, hd₂⟩ := hreb.exists rfl
  have hidx : u32 (r + 4294967296 - m.sb.dataRegionStart) = r - m.sb.dataRegionStart := by
    have := hin.1
    have := m.data_lt hin
    rw [u32]
    omega
  refine ⟨.enospc, d₂, hcall _ _ (Faulted.bind_later hexec₁ ?_), fun hres => ?_⟩
  · rw [commitRelease]
    refine Faulted.bind_later (run_attempt_of hexec₂) (Faulted.bind_ok (a := ()) ?_ rfl)
    rw [rollbackBitmap, List.map_singleton, hidx, updateDataBitmapBits]
    exact Faulted.bind_ok (m.faulted_bitUpdate hlt true d₂).attempt rfl
  · have hused := h.used hr
    rw [← hres.dbit, hd₂, h₁.dbit, Nat.add_sub_cancel' hin.1] at hused
    simp at hused

/-- The update of the inode can fail after the shorter list has been written. -/
theorem faulted_lastStep (hroom : listNodesForBlockCount m.sb (keptBlocks (G.data i) start 1).length ≤
      (m.sb.freeData ((m.sb.view d).setDbit ((G.data i).getD start 0 - m.sb.dataRegionStart) false)).length) :
    let r := (G.data i).getD start 0
    let idx := m.sb.relistIdx (m.sb.view d) (G.data i) start
    ∃ d' z, Faulted m.env.answer m.env.Fails (freeDataBlock m.sb i start 1) d (.error .eio) d' ∧
      m.env.MayDrop ((m.sb.view d).blk r) z ∧
      (r ∉ m.sb.abs idx → (m.sb.view d').blk r = z) ∧
      (r ∈ m.sb.abs idx → m.env.MayDrop ((nodeFor m.sb idx (keptBlocks (G.data i) start 1) r).getD z) ((m.sb.view d').blk r)) := by
  have hr := h.getD_mem_owned hstart
  have hi' := h.range i hi
  obtain ⟨hkept, hmax⟩ := kept_bounds h i start
  have hcall (d' : Disk) (res : Except Errno Unit) :
      _ → Faulted m.env.answer m.env.Fails (freeDataBlock m.sb i start 1) d res d' := faulted_freeDataBlock_one h hi hstart
  simp only [Superblock.relistIdx]
  generalize (G.data i).getD start 0 = r at *
  generalize keptBlocks (G.data i) start 1 = kept at *
  have hin := h.inData i r hr
  have hrin : ∀ b ∈ [r], m.sb.inData b := by simpa using hin
  have hused : ∀ b ∈ [r], (m.sb.view d).dbit (b - m.sb.dataRegionStart) = true := by simpa using h.used hr
  obtain ⟨_, d₁, hexec₁, rfl, h₁, hdrop⟩ := (m.ensures_releaseBlocks (V := m.sb.view d) hrin (by simp)).exists rfl
  rw [← h₁.freeData_one hin.1] at hroom ⊢
  obtain ⟨_, d₂, hexec₂, y, rfl, hhead, hL, hblk⟩ := (m.ensures_relist ((m.sb.view d).inode i) hkept hmax hroom).exists rfl
  have hidx : ∀ k ∈ (m.sb.freeData (m.sb.view d₁)).take (listNodesForBlockCount m.sb kept.length), k ∈ m.sb.freeData (m.sb.view d₁) :=
    fun k hk => List.mem_of_mem_take hk
  have hnd : ((m.sb.freeData (m.sb.view d₁)).take (listNodesForBlockCount m.sb kept.length)).Nodup :=
    (nodup_freeData m.sb (m.sb.view d₁)).take
  generalize (m.sb.freeData (m.sb.view d₁)).take (listNodesForBlockCount m.sb kept.length) = idx at *
  obtain ⟨_, d₃, hexec₃, rfl, -, -, hother, hnode⟩ :=
    (m.ensures_undoRelease hrin hused h₁ hidx hnd hL .eio).exists rfl
  rw [← hhead] at hexec₃
  refine ⟨d₃, (m.sb.view d₁).blk r, hcall _ _ (Faulted.bind_later hexec₁ ?_), hdrop r (by simp), fun hnot => ?_, fun hmem => ?_⟩
  · rw [commitRelease]
    exact Faulted.bind_later (run_attempt_of hexec₂) (Faulted.bind_ok (m.faulted_inodeUpdate hi' y d₂).attempt hexec₃)
  · rw [hother r hnot, hblk r, nodeFor_eq_none _ hnot]
    rfl
  · rw [← hblk r]
    exact hnode r hmem

end Lost

section Build

variable {d : Disk} {start : Nat}

/-- With a cache, the content of a released block can be gone. -/
theorem cached_release_lost (h : Wf m.sb (m.sb.view d) G) (hi : (m.sb.view d).ibit i = true) (hstart : start < (G.data i).length)
    (hroom : listNodesForBlockCount m.sb (keptBlocks (G.data i) start 1).length ≤
      (m.sb.freeData ((m.sb.view d).setDbit ((G.data i).getD start 0 - m.sb.dataRegionStart) false)).length)
    (hcached : m.env.cached = true) {y : Block} (hstale : ∀ n, m.env.stale n = some y)
    (hy : y ≠ (m.sb.view d).blk ((G.data i).getD start 0)) : ∃ e d',
    Faulted m.env.answer m.env.Fails (freeDataBlock m.sb i start 1) d (.error e) d' ∧
      ¬ Restored (m.sb.view d) (m.sb.view d') G := by
  obtain ⟨d', z, hf, hz, hother, hnode⟩ := faulted_lastStep h hi hstart hroom
  refine ⟨_, d', hf, fun hres => hy ?_⟩
  rw [← hres.blk i _ (h.getD_mem_owned hstart)]
  by_cases hm : (G.data i).getD start 0 ∈ m.sb.abs (m.sb.relistIdx (m.sb.view d) (G.data i) start)
  · exact ((hnode hm).eq_of_stale hcached hstale).symm
  · exact ((hother hm).trans (hz.eq_of_stale hcached hstale)).symm

/-- Without a cache, a node of the new list can be left in a released block. -/
theorem overwritten_release_lost (h : Wf m.sb (m.sb.view d) G) (hi : (m.sb.view d).ibit i = true)
    (hstart : start < (G.data i).length)
    (hroom : listNodesForBlockCount m.sb (keptBlocks (G.data i) start 1).length ≤
      (m.sb.freeData ((m.sb.view d).setDbit ((G.data i).getD start 0 - m.sb.dataRegionStart) false)).length)
    (hcache : m.env.cached = false) {x : Block}
    (hx : nodeFor m.sb (m.sb.relistIdx (m.sb.view d) (G.data i) start) (keptBlocks (G.data i) start 1)
      ((G.data i).getD start 0) = some x) (hne : x ≠ (m.sb.view d).blk ((G.data i).getD start 0)) : ∃ e d',
    Faulted m.env.answer m.env.Fails (freeDataBlock m.sb i start 1) d (.error e) d' ∧
      ¬ Restored (m.sb.view d) (m.sb.view d') G := by
  obtain ⟨d', z, hf, -, -, hnode⟩ := faulted_lastStep h hi hstart hroom
  refine ⟨_, d', hf, fun hres => hne ?_⟩
  have hm : (G.data i).getD start 0 ∈ m.sb.abs (m.sb.relistIdx (m.sb.view d) (G.data i) start) := by
    by_contra hm
    rw [nodeFor_eq_none _ hm] at hx
    cases hx
  rw [← hres.blk i _ (h.getD_mem_owned hstart), (hnode hm).eq_of_uncached hcache, hx]
  rfl

/-- Without a cache, nothing of a single block is lost that the shorter list spares. -/
theorem fault_freeDataBlock_one (m : Mount) (hcache : m.env.cached = false) (h : Wf m.sb V G) (hi : V.ibit i = true)
    (hstart : start < (G.data i).length)
    (hroom : listNodesForBlockCount m.sb (keptBlocks (G.data i) start 1).length ≤
      (m.sb.freeData (V.setDbit ((G.data i).getD start 0 - m.sb.dataRegionStart) false)).length)
    (hspare : ∀ x, nodeFor m.sb (m.sb.relistIdx V (G.data i) start) (keptBlocks (G.data i) start 1)
      ((G.data i).getD start 0) = some x → x = V.blk ((G.data i).getD start 0)) :
    m.Fault (freeDataBlock m.sb i start 1) V (fun res W => ∀ e, res = .error e → Restored V W G) := by
  have hr := h.getD_mem_owned hstart
  have hin := h.inData i _ hr
  obtain ⟨hkept, hmax⟩ := kept_bounds h i start
  refine fault_freeDataBlock h hi Nat.one_ne_zero hstart (fun e _ _ => .refl _ _) ?_
  rw [releasedBlocks_one hstart]
  refine (m.stops_releaseBlocks_one hin).bind (m.ensures_releaseBlocks_one hcache hin).runs (fun e _ _ => .refl _ _) ?_
  rintro _ _ ⟨-, rfl⟩
  exact m.fault_commitRelease hcache h (h.range i hi) hr hkept hmax rfl hroom hspare

end Build

end Mount

/-- Under a single failing access, the rollback of `free_data_block` is exact if and only if there is nothing to release,
or a build without a cache releases one block and the shorter list finds nodes that spare its content. -/
theorem rollback_exact_iff (m : Mount) (cached : Bool) {d : Disk} (h : Wf m.sb (m.sb.view d) G) {start n : Nat}
    (hi : (m.sb.view d).ibit i = true) (hrange : start + n ≤ (G.data i).length) :
    (∀ stale e d', Faulted (m.build cached stale).env.answer (m.build cached stale).env.Fails (freeDataBlock m.sb i start n) d
      (.error e) d' → Restored (m.sb.view d) (m.sb.view d') G) ↔
      n = 0 ∨ cached = false ∧ n = 1 ∧ m.sb.SparesBlock (m.sb.view d) (G.data i) start := by
  constructor
  · intro hall
    obtain rfl | rfl | h2 : n = 0 ∨ n = 1 ∨ 2 ≤ n := by omega
    · exact .inl rfl
    · have hstart : start < (G.data i).length := hrange
      have hroom : listNodesForBlockCount m.sb (keptBlocks (G.data i) start 1).length ≤
          (m.sb.freeData ((m.sb.view d).setDbit ((G.data i).getD start 0 - m.sb.dataRegionStart) false)).length := by
        by_contra hfull
        obtain ⟨e, d', hf, hlost⟩ := Mount.release_full_lost (m := m.build cached fun _ => none) h hi hstart
          (Nat.not_le.mp hfull)
        exact hlost (hall _ e d' hf)
      cases cached with
      | true =>
        obtain ⟨y, hy⟩ : ∃ y : Block, y ≠ (m.sb.view d).blk ((G.data i).getD start 0) :=
          ⟨fun k => (m.sb.view d).blk ((G.data i).getD start 0) k + 1, fun he => by simpa using congrFun he 0⟩
        obtain ⟨e, d', hf, hlost⟩ := Mount.cached_release_lost (m := m.build true fun _ => some y) h hi hstart hroom rfl
          (fun _ => rfl) hy
        exact absurd (hall _ e d' hf) hlost
      | false =>
        refine .inr ⟨rfl, rfl, hroom, fun x hx => ?_⟩
        by_contra hne
        obtain ⟨e, d', hf, hlost⟩ := Mount.overwritten_release_lost (m := m.build false fun _ => none) h hi hstart hroom rfl
          hx hne
        exact hlost (hall _ e d' hf)
    · obtain ⟨e, d', hf, hlost⟩ := Mount.release_two_lost (m := m.build cached fun _ => none) h hi h2 hrange
      exact absurd (hall _ e d' hf) hlost
  · rintro (rfl | ⟨rfl, rfl, hroom, hspare⟩) stale e d' hf
    · rw [freeDataBlock, if_neg (m.not_isNeg' (h.range i hi)), if_pos rfl] at hf
      exact absurd hf not_faulted_pure
    · exact (m.build false stale).fault_freeDataBlock_one rfl h hi hrange hroom hspare d rfl _ d' hf e rfl

/-- A file of two blocks gives both back, and the bitmap update for the second fails: the first is free, and the file still
has it. -/
theorem rollback_not_exact : ∃ (m : Mount) (d d' : Disk) (G : Owners) (e : Errno),
    m.env.cached = false ∧ Wf m.sb (m.sb.view d) G ∧ (m.sb.view d).ibit 3 = true ∧ 0 + 2 ≤ (G.data 3).length ∧
    Faulted m.env.answer m.env.Fails (freeDataBlock m.sb 3 0 2) d (.error e) d' ∧
    ¬ Restored (m.sb.view d) (m.sb.view d') G := by
  have hlen : (List.replicate 513 (120 : UInt8)).length = 513 := List.length_replicate
  have hne : List.replicate 513 (120 : UInt8) ≠ [] := fun h => by
    rw [h] at hlen
    cases hlen
  obtain ⟨m, d₀, d, G, hsb, hempty, hfree, hok, hi, hW⟩ := exists_writtenFile (show 8 < 16 by decide) (by decide) (by decide)
    (by decide) (by decide) hne (by rw [hlen]; decide) (by rw [hlen]; decide)
  have hrange : 0 + 2 ≤ (G.data 3).length := by
    have hneed : m.sb.blocksFor (0 + 513) = 2 := by
      rw [hsb]
      decide
    have henough := hW.enough
    rw [hlen, hneed] at henough
    exact henough
  obtain ⟨e, d', hf, hlost⟩ := Mount.release_two_lost (m := m.build false fun _ => none) hok.wf hi (Nat.le_refl 2) hrange
  exact ⟨m.build false fun _ => none, d, d', G, e, rfl, hok.wf, hi, hrange, hf, hlost⟩

/-- The only block of a file is back after any failure, if there is no cache. -/
theorem rollback_exact_iff_last : ∃ (m : Mount) (d : Disk) (G : Owners),
    Wf m.sb (m.sb.view d) G ∧ (m.sb.view d).ibit fileHandle.inodeNum = true ∧ 0 + 1 ≤ (G.data fileHandle.inodeNum).length ∧
    ∀ stale e d', Faulted (m.build false stale).env.answer (m.build false stale).env.Fails
      (freeDataBlock m.sb fileHandle.inodeNum 0 1) d (.error e) d' → Restored (m.sb.view d) (m.sb.view d') G := by
  obtain ⟨m, d₀, h⟩ := exists_oneFile (fun _ => 0)
  obtain ⟨d, G, -, hW⟩ := h.writes
  have hi : (m.sb.view d).ibit fileHandle.inodeNum = true := by rw [hW.ibit]; exact h.ibit
  have hempty : ((m.sb.view d₀).inode fileHandle.inodeNum).iSize.toNat = 0 := by rw [h.inode]; rfl
  have hlen : (G.data fileHandle.inodeNum).length = 1 := by
    rw [hW.length m.ok.blk_pos (h.ok.length h.ibit (by rw [h.inode]; rfl)), hW.size, hempty, h.sb]
    decide
  have hkept : keptBlocks (G.data fileHandle.inodeNum) 0 1 = [] := keptBlocks_zero (Nat.le_of_eq hlen)
  refine ⟨m, d, G, hW.frame.wf, hi, Nat.le_of_eq hlen.symm,
    (rollback_exact_iff m false hW.frame.wf hi (Nat.le_of_eq hlen.symm)).mpr (.inr ⟨rfl, rfl, ?_, fun x hx => ?_⟩)⟩
  · rw [hkept]
    exact Nat.zero_le _
  · rw [Superblock.relistIdx, hkept] at hx
    cases hx

end Mofs
