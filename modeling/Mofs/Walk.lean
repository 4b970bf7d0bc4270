import Mofs.Own

namespace Mofs

open Effect Bytes

def View.setDbits (V : View) (ks : List Nat) (u : Bool) : View :=
  { V with dbit := fun k => if k ∈ ks then u else V.dbit k }

@[simp] theorem View.setDbits_nil (V : View) (u : Bool) : V.setDbits [] u = V := by simp [View.setDbits]

theorem View.setDbits_cons (V : View) (k : Nat) (ks : List Nat) (u : Bool) :
    (V.setDbit k u).setDbits ks u = V.setDbits (k :: ks) u := by
  refine View.ext rfl rfl (funext fun j => ?_) rfl
  by_cases hj : j = k <;> simp [View.setDbits, View.setDbit, hj]

/-- Marking free entries and taking the marks back is no change. -/
theorem View.setDbits_undo {V : View} {ks : List Nat} {u : Bool} (h : ∀ k ∈ ks, V.dbit k = u) (w : Bool) :
    (V.setDbits ks w).setDbits ks u = V := by
  refine View.ext rfl rfl (funext fun j => ?_) rfl
  by_cases hj : j ∈ ks <;> simp [View.setDbits, hj]
  exact (h j hj).symm

theorem length_walk_lt {sb : Superblock} (h : sb.Ok) {n : Nat} (hn : n ≤ sb.dataBlkNum) : n < walkFuel := by
  have := h.hole
  have := h.hole_lt
  rw [walkFuel]
  omega

namespace Mount

variable {V : View} {G : Owners}

theorem data_ne_zero (m : Mount) {b : Nat} (h : m.sb.inData b) : b ≠ 0 := by
  have := h.1
  have := m.ok.start_pos
  have := m.ok.bitmaps
  have := m.ok.table_ge
  have := m.ok.data_ge
  omega

theorem cap_pos (m : Mount) : 0 < listPtrsCap m.sb := by
  have := m.ok.blk_ge
  rw [listPtrsCap, listPtrsPerNode, if_neg (by omega)]
  omega

theorem absToDataIdx_ok (m : Mount) {b : Nat} (h : m.sb.inData b) :
    absToDataIdx m.sb b = .ok (b - m.sb.dataRegionStart) := by
  have h1 := h.1
  have h2 := h.2
  rw [absToDataIdx, if_neg (by omega), if_neg (by omega)]

theorem reads_exportFrom (m : Mount) {nr fuel head : Nat} {ns ds out : List Nat}
    (h : Chain m.sb V.blk head ns ds) (hd : ∀ b ∈ ns, m.sb.inData b) (hf : ns.length < fuel)
    (hnr : out.length + ds.length = nr) :
    m.Reads (exportFrom m.sb nr fuel head out) V (.ok (out ++ ds)) := by
  induction ns generalizing head ds out fuel with
  | nil =>
    obtain ⟨fuel, rfl⟩ := Nat.exists_eq_add_of_lt hf
    obtain ⟨rfl, rfl⟩ : head = 0 ∧ ds = [] := by cases h.links; exact ⟨rfl, rfl⟩
    simp only [List.length_nil, Nat.zero_add, exportFrom, if_pos]
    rw [if_neg (by simpa using hnr), List.append_nil]
    exact Reads.pure _
  | cons b ns ih =>
    obtain ⟨fuel, rfl⟩ := Nat.exists_eq_add_of_lt hf
    obtain ⟨rfl, hb, hcap, ds, rfl, ht⟩ := Chain.cons_iff.mp h
    simp only [List.length_cons, List.length_append, length_nodePtrs] at hnr hf
    rw [exportFrom, if_neg hb]
    refine Reads.bind (m.reads_readFull V (hd _ (by simp))) ?_
    rw [if_neg (by omega), if_neg (by omega), ← List.append_assoc]
    refine ih ht (fun c hc => hd c (by simp [hc])) (by simp; omega) ?_
    simp only [List.length_append, length_nodePtrs]
    omega

theorem reads_exportDataBlockList (m : Mount) (h : Wf m.sb V G) {i : Nat} (hi : V.ibit i = true) :
    m.Reads (exportDataBlockList m.sb (V.inode i) (V.inode i).iNrBlocks.toNat) V (.ok (G.data i)) := by
  have hnr := h.nr i hi
  rw [exportDataBlockList, hnr]
  by_cases h0 : (G.data i).length = 0
  · rw [if_pos h0, List.length_eq_zero_iff.mp h0]
    exact Reads.pure _
  · have hhead : (V.inode i).iDataHead.toNat ≠ 0 :=
      (h.chain i hi).links.ne_null fun h' => h0 (by simp [h'])
    rw [if_neg h0, if_neg (by simp [hhead]), if_neg (by have := m.cap_pos; omega)]
    exact m.reads_exportFrom (h.chain i hi) (fun b hb => h.inData i b (h.mem_nodes hb))
      (length_walk_lt m.ok (h.length_nodes_le i)) (by simp)

theorem reads_resolveFrom (m : Mount) {fuel head remain : Nat} {ns ds : List Nat}
    (h : Chain m.sb V.blk head ns ds) (hd : ∀ b ∈ ns, m.sb.inData b) (hf : ns.length < fuel)
    (hr : remain < ds.length) :
    m.Reads (resolveFrom m.sb fuel head remain) V (.ok (ds.getD remain 0)) := by
  induction ns generalizing head ds remain fuel with
  | nil =>
    obtain ⟨rfl, rfl⟩ : head = 0 ∧ ds = [] := by cases h.links; exact ⟨rfl, rfl⟩
    simp at hr
  | cons b ns ih =>
    obtain ⟨fuel, rfl⟩ := Nat.exists_eq_add_of_lt hf
    obtain ⟨rfl, hb, hcap, ds, rfl, ht⟩ := Chain.cons_iff.mp h
    simp only [List.length_append, length_nodePtrs] at hr
    rw [resolveFrom, if_neg hb]
    refine Reads.bind (m.reads_readFull V (hd _ (by simp))) ?_
    rw [if_neg (by omega)]
    by_cases hlt : remain < nodeNrPtrs (V.blk head)
    · have hget : (nodePtrs (V.blk head) (nodeNrPtrs (V.blk head)) ++ ds).getD remain 0 =
          leNat (V.blk head) (8 + 4 * remain) 4 := by
        rw [List.getD_append _ _ _ _ (by simpa using hlt), List.getD_eq_getElem _ _ (by simpa using hlt)]
        simp [nodePtrs]
      rw [if_pos hlt, hget]
      exact Reads.pure _
    · rw [if_neg hlt, List.getD_append_right _ _ _ _ (by simpa using hlt), length_nodePtrs]
      exact ih ht (fun c hc => hd c (by simp [hc])) (by simp at hf ⊢; omega) (by omega)

theorem lt_of_ibit (m : Mount) {d : Disk} (hd : m.sb.view d = V) {i : Nat} (hi : V.ibit i = true) :
    i < m.sb.inodeNum := by
  rw [← hd] at hi
  simp only [Superblock.view, Bool.and_eq_true, decide_eq_true_eq] at hi
  exact hi.1

theorem not_isNeg' (m : Mount) {i : Nat} (hi : i < m.sb.inodeNum) : ¬ isNeg i := fun h => m.not_isNeg hi (.inl h)

theorem ensures_updateDataBitmapBits (m : Mount) {u : Bool} {ks : List Nat} (hk : ∀ k ∈ ks, k < m.sb.dataBlkNum)
    {Q : Except Errno Unit → View → Prop} (hQ : Q (.ok ()) (V.setDbits ks u)) :
    m.Ensures (updateDataBitmapBits m.sb u ks) V Q := by
  induction ks generalizing V with
  | nil => exact Ensures.pure (by simpa using hQ)
  | cons k ks ih =>
    refine Ensures.seq (Ensures.attempt (P := fun r W => r = .ok () ∧ W = V.setDbit k u) ?_ ?_)
    · exact m.ensures_setDataBitmapBit (hk k (by simp)) ⟨rfl, rfl⟩
    · rintro r W ⟨rfl, rfl⟩
      exact ih (fun j hj => hk j (by simp [hj])) (by rw [View.setDbits_cons]; exact hQ)

theorem ensures_markUsed (m : Mount) {marked ks : List Nat} (hk : ∀ k ∈ ks, k < m.sb.dataBlkNum)
    {Q : Except Errno Unit → View → Prop} (hQ : Q (.ok ()) (V.setDbits ks true)) :
    m.Ensures (markUsed m.sb marked ks) V Q := by
  induction ks generalizing V marked with
  | nil => exact Ensures.pure (by simpa using hQ)
  | cons k ks ih =>
    refine Ensures.seq (Ensures.attempt (P := fun r W => r = .ok () ∧ W = V.setDbit k true) ?_ ?_)
    · exact m.ensures_setDataBitmapBit (hk k (by simp)) ⟨rfl, rfl⟩
    · rintro r W ⟨rfl, rfl⟩
      exact ih (fun j hj => hk j (by simp [hj])) (by rw [View.setDbits_cons]; exact hQ)

/-- Nothing but the bits and the contents of the blocks `bs` differs, and their bits are clear. -/
structure Dropped (sb : Superblock) (V W : View) (bs : List Nat) : Prop where
  inode : W.inode = V.inode
  ibit : W.ibit = V.ibit
  dbit : ∀ k, W.dbit k = (V.dbit k && !decide (sb.dataRegionStart + k ∈ bs))
  blk : ∀ b ∉ bs, W.blk b = V.blk b

theorem Dropped.nil (sb : Superblock) (V : View) : Dropped sb V V [] := ⟨rfl, rfl, by simp, by simp⟩

theorem Dropped.cons {sb : Superblock} {V W : View} {b : Nat} {bs : List Nat} {x : Block}
    (hb : sb.inData b) (h : Dropped sb ((V.setDbit (b - sb.dataRegionStart) false).setBlk b x) W bs) :
    Dropped sb V W (b :: bs) where
  inode := h.inode
  ibit := h.ibit
  dbit k := by
    have hb1 := hb.1
    rw [h.dbit k]
    by_cases hkb : k = b - sb.dataRegionStart
    · simp [View.setDbit, View.setBlk, hkb, show sb.dataRegionStart + (b - sb.dataRegionStart) = b by omega]
    · have : sb.dataRegionStart + k ≠ b := by omega
      simp [View.setDbit, View.setBlk, hkb, this]
  blk c hc := by
    rw [h.blk c (fun hm => hc (by simp [hm]))]
    simp [View.setDbit, View.setBlk, show c ≠ b by rintro rfl; simp at hc]

/-- One more block is discarded before the others. -/
theorem mayDrop_cons (m : Mount) {W : View} {b k : Nat} {bs : List Nat} {x : Block} (hb : b ∉ bs) (hx : m.env.MayDrop (V.blk b) x)
    (hW : Dropped m.sb ((V.setDbit k false).setBlk b x) W bs)
    (hdrop : ∀ c ∈ bs, m.env.MayDrop (((V.setDbit k false).setBlk b x).blk c) (W.blk c)) :
    ∀ c ∈ b :: bs, m.env.MayDrop (V.blk c) (W.blk c) := fun c hc => by
  rcases List.mem_cons.mp hc with rfl | hc
  · have hself : ((V.setDbit k false).setBlk c x).blk c = x := Function.update_self _ _ _
    rw [hW.blk c hb, hself]
    exact hx
  · have hcb : c ≠ b := fun he => hb (he ▸ hc)
    have hother : ((V.setDbit k false).setBlk b x).blk c = V.blk c := Function.update_of_ne hcb _ _
    rw [← hother]
    exact hdrop c hc

theorem ensures_freeListChainFrom_drop (m : Mount) {fuel head : Nat} {ns ds : List Nat}
    (h : Chain m.sb V.blk head ns ds) (hd : ∀ b ∈ ns, m.sb.inData b) (hn : ns.Nodup) (hf : ns.length < fuel) :
    m.Ensures (freeListChainFrom m.sb fuel head) V (fun r W => r = .ok () ∧ Dropped m.sb V W ns ∧
      ∀ b ∈ ns, m.env.MayDrop (V.blk b) (W.blk b)) := by
  induction ns generalizing head ds fuel V with
  | nil =>
    obtain ⟨fuel, rfl⟩ := Nat.exists_eq_add_of_lt hf
    obtain ⟨rfl, rfl⟩ : head = 0 ∧ ds = [] := by cases h.links; exact ⟨rfl, rfl⟩
    exact Ensures.pure ⟨rfl, Dropped.nil _ _, by simp⟩
  | cons b ns ih =>
    obtain ⟨fuel, rfl⟩ := Nat.exists_eq_add_of_lt hf
    obtain ⟨rfl, hb, hcap, ds, rfl, ht⟩ := Chain.cons_iff.mp h
    have hdat : m.sb.inData head := hd _ (by simp)
    have hlt : head - m.sb.dataRegionStart < m.sb.dataBlkNum := hdat.idx_lt
    rw [freeListChainFrom, if_neg hb]
    refine Ensures.bind_reads (m.reads_readFull V hdat) ?_
    rw [m.absToDataIdx_ok hdat]
    refine Ensures.bind_reads (Reads.ofExcept _) ?_
    refine Ensures.seq (m.ensures_setDataBitmapBit hlt ?_)
    refine Ensures.seq (m.ensures_bcacheInvalidate_drop hdat fun x hx => ?_)
    have hnh : head ∉ ns := (List.nodup_cons.mp hn).1
    refine (ih (ht.congr fun c hc => ?_) (fun c hc => hd c (by simp [hc])) (List.nodup_cons.mp hn).2 ?_).mono ?_
    · simp [View.setBlk, View.setDbit, show c ≠ head by rintro rfl; exact hnh hc]
    · simp only [List.length_cons] at hf ⊢
      omega
    · rintro r W ⟨rfl, hW, hdrop⟩
      exact ⟨rfl, hW.cons hdat, m.mayDrop_cons hnh hx hW hdrop⟩

theorem ensures_freeListChainFrom (m : Mount) {fuel head : Nat} {ns ds : List Nat}
    (h : Chain m.sb V.blk head ns ds) (hd : ∀ b ∈ ns, m.sb.inData b) (hn : ns.Nodup) (hf : ns.length < fuel) :
    m.Ensures (freeListChainFrom m.sb fuel head) V (fun r W => r = .ok () ∧ Dropped m.sb V W ns) :=
  (m.ensures_freeListChainFrom_drop h hd hn hf).mono fun _ _ hr => ⟨hr.1, hr.2.1⟩

end Mount

end Mofs
