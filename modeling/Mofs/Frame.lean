import Mofs.Content

namespace Mofs

open Effect Bytes

variable {sb : Superblock} {U V W : View} {F G H : Owners} {S T : List Nat} {i j : Nat}

/-- Inode `j` is the same object in two volumes: same record, same list, same bytes. -/
structure Same (V W : View) (G H : Owners) (j : Nat) : Prop where
  ibit : W.ibit j = V.ibit j
  inode : W.inode j = V.inode j
  nodes : H.nodes j = G.nodes j
  data : H.data j = G.data j
  blk : ∀ b ∈ G.data j, W.blk b = V.blk b

namespace Same

theorem refl (V : View) (G : Owners) (j : Nat) : Same V V G G j := ⟨rfl, rfl, rfl, rfl, fun _ _ => rfl⟩

theorem trans (h : Same U V F G j) (h' : Same V W G H j) : Same U W F H j where
  ibit := h'.ibit.trans h.ibit
  inode := h'.inode.trans h.inode
  nodes := h'.nodes.trans h.nodes
  data := h'.data.trans h.data
  blk b hb := (h'.blk b (h.data.symm ▸ hb)).trans (h.blk b hb)

theorem bytes (h : Same V W G H j) {B p : Nat} (hp : p / B < (G.data j).length) :
    bytesOf B W.blk (H.data j) p = bytesOf B V.blk (G.data j) p := by
  rw [h.data]
  exact bytesOf_congr h.blk hp

end Same

/-- The fields of an inode that file contents do not depend on. -/
structure SameAttrs (x y : Inode) : Prop where
  links : y.iLinks = x.iLinks
  mode : y.iMode = x.iMode
  uid : y.iUid = x.iUid
  gid : y.iGid = x.iGid

theorem SameAttrs.refl (x : Inode) : SameAttrs x x := ⟨rfl, rfl, rfl, rfl⟩

theorem SameAttrs.isDir {x y : Inode} (h : SameAttrs x y) : y.isDir = x.isDir := by rw [Inode.isDir, h.mode, Inode.isDir]

/-- The frame of an operation: ownership is consistent afterwards, and no inode outside `S` has changed. -/
structure Frame (sb : Superblock) (S : List Nat) (V W : View) (G H : Owners) : Prop where
  wf : Wf sb W H
  same : ∀ j, j ∉ S → Same V W G H j

namespace Frame

theorem refl (h : Wf sb V G) (S : List Nat) : Frame sb S V V G G := ⟨h, fun j _ => .refl V G j⟩

theorem trans (h : Frame sb S U V F G) (h' : Frame sb S V W G H) : Frame sb S U W F H :=
  ⟨h'.wf, fun j hj => (h.same j hj).trans (h'.same j hj)⟩

theorem mono (h : Frame sb S V W G H) (hST : S ⊆ T) : Frame sb T V W G H :=
  ⟨h.wf, fun j hj => h.same j fun hs => hj (hST hs)⟩

end Frame

/-- A new list for one inode leaves every other inode alone. -/
theorem Relisted.frame {touched : List Nat} (hV : Wf sb V G) (h : Relisted sb V W G H i touched)
    (ht : ∀ b ∈ touched, b ∈ G.data i) : Frame sb [i] V W G H := by
  refine ⟨h.wf, fun j hj => ?_⟩
  have hji : j ≠ i := by simpa using hj
  obtain ⟨hn, hd⟩ := h.others j hji
  refine ⟨congrFun h.ibit j, h.inode_other j hji, hn, hd, fun b hb => h.blk b ?_ ?_ ?_⟩
  · exact fun hm => hV.owned_ne hji (hV.mem_data hb) (hV.mem_nodes hm) rfl
  · exact fun hm => h.wf.owned_ne hji (h.wf.mem_data (hd.symm ▸ hb)) (h.wf.mem_nodes hm) rfl
  · exact fun hm => hV.owned_ne hji (hV.mem_data hb) (hV.mem_data (ht b hm)) rfl

/-- Ownership does not depend on the fields of an inode other than its list. -/
theorem Wf.setInode (h : Wf sb V G) {x : Inode} (hhead : x.iDataHead = (V.inode i).iDataHead)
    (hnr : x.iNrBlocks = (V.inode i).iNrBlocks) : Wf sb (V.setInode i x) G := by
  have hsame : ∀ j, ((V.setInode i x).inode j).iDataHead = (V.inode j).iDataHead ∧
      ((V.setInode i x).inode j).iNrBlocks = (V.inode j).iNrBlocks := fun j => by
    by_cases hj : j = i
    · subst hj; simp [View.setInode, hhead, hnr]
    · simp [View.setInode, hj]
  exact
    { range := h.range
      chain := fun j hj => by rw [(hsame j).1]; exact h.chain j hj
      nr := fun j hj => by rw [(hsame j).2]; exact h.nr j hj
      max := h.max
      free := h.free
      nodup := h.nodup
      disjoint := h.disjoint
      inData := h.inData
      bits := h.bits }

theorem Frame.setInode (h : Wf sb V G) {x : Inode} (hhead : x.iDataHead = (V.inode i).iDataHead)
    (hnr : x.iNrBlocks = (V.inode i).iNrBlocks) : Frame sb [i] V (V.setInode i x) G G := by
  refine ⟨h.setInode hhead hnr, fun j hj => ?_⟩
  have hji : j ≠ i := by simpa using hj
  exact ⟨rfl, by simp [View.setInode, hji], rfl, rfl, fun _ _ => rfl⟩

/-- The blocks `start, …, start + n - 1` of the list `ds` now hold `buf`, and nothing else has changed. -/
structure Filled (V W : View) (ds : List Nat) (start n : Nat) (buf : Nat → Block) : Prop where
  inode : W.inode = V.inode
  ibit : W.ibit = V.ibit
  dbit : W.dbit = V.dbit
  inside : ∀ j < n, W.blk (ds.getD (start + j) 0) = buf j
  outside : ∀ b, (∀ j < n, b ≠ ds.getD (start + j) 0) → W.blk b = V.blk b

/-- One block is written. -/
theorem Filled.one (V : View) (ds : List Nat) (start : Nat) (buf : Nat → Block) :
    Filled V (V.setBlk (ds.getD start 0) (buf 0)) ds start 1 buf := by
  refine ⟨rfl, rfl, rfl, fun j hj => ?_, fun b hb => ?_⟩
  · obtain rfl : j = 0 := by omega
    simp [View.setBlk]
  · exact Function.update_of_ne (hb 0 Nat.one_pos) _ _

theorem Filled.blk_of_not_mem {ds : List Nat} {start n : Nat} {buf : Nat → Block} (h : Filled V W ds start n buf)
    (hn : start + n ≤ ds.length) {b : Nat} (hb : b ∉ ds) : W.blk b = V.blk b := by
  refine h.outside b fun j hj he => hb ?_
  rw [he, List.getD_eq_getElem _ _ (by omega)]
  exact List.getElem_mem _

theorem Filled.frame {start n : Nat} {buf : Nat → Block} (hV : Wf sb V G)
    (h : Filled V W (G.data i) start n buf) (hn : start + n ≤ (G.data i).length) : Frame sb [i] V W G G := by
  have hout : ∀ b, b ∉ G.data i → W.blk b = V.blk b := fun b hb => h.blk_of_not_mem hn hb
  refine ⟨hV.congr h.inode h.ibit h.dbit fun j b hb => hout b fun hd => hV.node_ne_data hb hd rfl, fun j hj => ?_⟩
  have hji : j ≠ i := by simpa using hj
  exact ⟨congrFun h.ibit j, congrFun h.inode j, rfl, rfl, fun b hb => hout b fun hd =>
    hV.owned_ne hji (hV.mem_data hb) (hV.mem_data hd) rfl⟩

theorem Filled.fileAt {ns ds : List Nat} {start n : Nat} {buf : Nat → Block} (hV : FileAt sb V i ns ds)
    (h : Filled V W ds start n buf) (hn : start + n ≤ ds.length) : FileAt sb W i ns ds :=
  hV.congr (congrFun h.inode i) fun _ hb => h.blk_of_not_mem hn fun hd => hV.not_node hd hb

/-- The bytes of a file after some of its blocks were written. -/
theorem Filled.bytes {ns ds : List Nat} {start n B p : Nat} {buf : Nat → Block} (hV : FileAt sb V i ns ds)
    (h : Filled V W ds start n buf) (hn : start + n ≤ ds.length) (hp : p / B < ds.length) :
    bytesOf B W.blk ds p =
      if start ≤ p / B ∧ p / B < start + n then buf (p / B - start) (p % B) else bytesOf B V.blk ds p := by
  rw [bytesOf]
  by_cases hin : start ≤ p / B ∧ p / B < start + n
  · have := h.inside (p / B - start) (by omega)
    rw [Nat.add_sub_cancel' hin.1] at this
    rw [if_pos hin, this]
  · rw [if_neg hin, bytesOf, h.outside]
    intro j hj he
    have := hV.get_inj hp (by omega) he
    omega

namespace Mount

variable {ns ds : List Nat} {start n k : Nat}

theorem ensures_writeBlocksFrom (m : Mount) (h : FileAt m.sb V i ns ds) {buf : Nat → Block}
    (hk : start + k + n ≤ ds.length) :
    m.Ensures (writeBlocksFrom m.sb i start buf n k) V (fun r W => r = .ok ⟨k + n, 0⟩ ∧
      Filled V W ds (start + k) n (fun j => buf (k + j))) := by
  have hmax := h.max
  have hhole := m.ok.hole
  have hlt32 := m.ok.hole_lt
  simp only [maxFileDataBlocks] at hmax
  induction n generalizing k V with
  | zero => exact Ensures.pure ⟨rfl, rfl, rfl, rfl, by simp, fun _ _ => rfl⟩
  | succ n ih =>
    have hlt : start + k < ds.length := by omega
    have hin := h.inData_get hlt
    rw [writeBlocksFrom, u32, Nat.mod_eq_of_lt (by omega)]
    refine Ensures.bind_reads (m.reads_resolveFileDataBlock h hlt) ?_
    rw [u32, Nat.mod_eq_of_lt (by omega), if_neg (by have := hin.1; have := hin.2; omega)]
    refine Ensures.seq (m.ensures_writeContinuousBlocks hin ?_)
    have hone := Filled.one V ds (start + k) fun j => buf (k + j)
    refine (ih (k := k + 1) (hone.fileAt h (by omega)) (by omega)).mono fun r W hr => ?_
    obtain ⟨rfl, hF⟩ := hr
    refine ⟨by rw [show k + 1 + n = k + (n + 1) by omega], hF.inode, hF.ibit, hF.dbit, fun j hj => ?_, fun b hb => ?_⟩
    · cases j with
      | zero =>
        rw [hF.outside]
        · exact hone.inside 0 (by omega)
        · intro j hj he
          have := h.get_inj (by omega) (by omega) he
          omega
      | succ j =>
        have := hF.inside j (by omega)
        rw [show start + k + (j + 1) = start + (k + 1) + j by omega, show k + (j + 1) = k + 1 + j by omega]
        exact this
    · rw [hF.outside b fun j hj he => hb (j + 1) (by omega) (by rw [he]; congr 1; omega)]
      exact hone.outside b fun j hj he => hb j (by omega) he

theorem ensures_writeFileDataBlock (m : Mount) (h : FileAt m.sb V i ns ds) {buf : Nat → Block} {req : Nat}
    (h0 : 0 < req) (hn : start + req ≤ ds.length) :
    m.Ensures (writeFileDataBlock m.sb i buf start req) V (fun r W => r = .ok ⟨req, 0⟩ ∧
      Filled V W ds start req buf) := by
  rw [writeFileDataBlock, if_neg (m.not_isNeg' h.range), if_neg (by omega)]
  refine Ensures.bind_reads (m.reads_mofsReadInode V h.range) ?_
  rw [h.nr, if_neg (by omega), Nat.min_eq_left (by omega)]
  have hrun : m.Ensures (writeBlocksFrom m.sb i start buf req 0) V _ := m.ensures_writeBlocksFrom h hn
  simpa using hrun

end Mount

end Mofs
