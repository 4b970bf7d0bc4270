import Mathlib.Data.Finite.Prod
import Mofs.FormatLayout
import Mofs.Lib.Loop
import Mofs.Rebuild

namespace Mofs

open Effect Bytes Loop

variable {sb : Superblock} {e : Env} {b s idx nr fuel : Nat} {out : List Nat}

/-- A node that the readers of a list accept: not the end of the list, on the device, and with a count that fits. -/
def Env.Accepts (e : Env) (sb : Superblock) (blk : Nat → Block) (b : Nat) : Prop :=
  b ≠ 0 ∧ (b + 1) * e.blkSize ≤ e.size ∧ nodeNrPtrs (blk b) ≤ listPtrsCap sb

theorem exec_readNode_of_not_accepts {α : Type} {d : Disk} {f : Block → M α} (h0 : b ≠ 0) (h : ¬ e.Accepts sb d.blk b) :
    exec e (do
      let buf ← readListNode b
      if listPtrsCap sb < nodeNrPtrs buf then throw .eio else f buf) d = some (.error .eio, d) := by
  by_cases hfit : (b + 1) * e.blkSize ≤ e.size
  · have hcap : listPtrsCap sb < nodeNrPtrs (d.blk b) := Nat.lt_of_not_le fun hle => h ⟨h0, hfit, hle⟩
    rw [exec, readListNode, run_bind_ok (exec_readFull hfit d), if_pos hcap]
    rfl
  · rw [exec, readListNode]
    exact run_bind_error (exec_readFull_short hfit d)

theorem exec_readNode_of_accepts {α : Type} {d : Disk} {f : Block → M α} (h : e.Accepts sb d.blk b) :
    exec e (do
      let buf ← readListNode b
      if listPtrsCap sb < nodeNrPtrs buf then throw .eio else f buf) d = exec e (f (d.blk b)) d := by
  rw [exec, readListNode, run_bind_ok (exec_readFull h.2.1 d), if_neg (Nat.not_lt.mpr h.2.2)]
  rfl

theorem exec_resolveFrom_refused (d : Disk) (h : ¬ e.Accepts sb d.blk b) (r : Nat) :
    exec e (resolveFrom sb (fuel + 1) b r) d = some (.error .eio, d) := by
  rw [resolveFrom]
  by_cases h0 : b = 0
  · rw [if_pos h0]
    rfl
  · rw [if_neg h0]
    exact exec_readNode_of_not_accepts h0 h

theorem exec_resolveFrom_accepted (d : Disk) (h : e.Accepts sb d.blk b) (r : Nat) :
    exec e (resolveFrom sb (fuel + 1) b r) d =
      if r < nodeNrPtrs (d.blk b) then some (.ok (leNat (d.blk b) (8 + 4 * r) 4), d)
      else exec e (resolveFrom sb fuel (nodeNext (d.blk b)) (r - nodeNrPtrs (d.blk b))) d := by
  rw [resolveFrom, if_neg h.1, exec_readNode_of_accepts h]
  split <;> rfl

/-- One link of a walk: on to the next node, with the pointers of this one counted. -/
def advance (blk : Nat → Block) (p : Nat × Nat) : Nat × Nat := (nodeNext (blk p.1), p.2 + nodeNrPtrs (blk p.1))

/-- A walk that looks for at most `bound` pointers goes on from the node `p.1`, with `p.2` pointers before it. -/
def Env.Passes (e : Env) (sb : Superblock) (blk : Nat → Block) (bound : Nat) (p : Nat × Nat) : Prop :=
  e.Accepts sb blk p.1 ∧ p.2 + nodeNrPtrs (blk p.1) ≤ bound

theorem exec_resolveFrom_none (d : Disk) (hs : s ≤ idx) : exec e (resolveFrom sb fuel b (idx - s)) d = none ↔
    ∀ k < fuel, e.Passes sb d.blk idx ((advance d.blk)^[k] (b, s)) := by
  induction fuel generalizing b s with
  | zero => exact iff_of_true rfl (fun k hk => absurd hk (Nat.not_lt_zero k))
  | succ fuel ih =>
    rw [forall_iterate_succ]
    by_cases hacc : e.Accepts sb d.blk b
    · rw [exec_resolveFrom_accepted d hacc]
      by_cases hlt : idx - s < nodeNrPtrs (d.blk b)
      · rw [if_pos hlt]
        refine iff_of_false (by simp) fun h => ?_
        have hle : s + nodeNrPtrs (d.blk b) ≤ idx := h.1.2
        omega
      · rw [if_neg hlt, Nat.sub_sub, ih (by omega)]
        exact (and_iff_right (⟨hacc, show s + nodeNrPtrs (d.blk b) ≤ idx by omega⟩ : e.Passes sb d.blk idx (b, s))).symm
    · rw [exec_resolveFrom_refused d hacc]
      exact iff_of_false (by simp) fun h => hacc h.1.1

/-- Where the lookup of pointer `idx` returns: at a node with the pointer, after nodes with all the pointers before. -/
theorem exec_resolveFrom_ok (d : Disk) {d' : Disk} {v : Nat} (hs : s ≤ idx)
    (hrun : exec e (resolveFrom sb fuel b (idx - s)) d = some (.ok v, d')) :
    ∃ n, (∀ k < n, e.Passes sb d.blk idx ((advance d.blk)^[k] (b, s))) ∧ ∃ c t, (advance d.blk)^[n] (b, s) = (c, t) ∧
      e.Accepts sb d.blk c ∧ t ≤ idx ∧ idx < t + nodeNrPtrs (d.blk c) ∧ v = leNat (d.blk c) (8 + 4 * (idx - t)) 4 := by
  induction fuel generalizing b s with
  | zero => cases hrun
  | succ fuel ih =>
    by_cases hacc : e.Accepts sb d.blk b
    · rw [exec_resolveFrom_accepted d hacc] at hrun
      by_cases hlt : idx - s < nodeNrPtrs (d.blk b)
      · rw [if_pos hlt] at hrun
        cases hrun
        exact ⟨0, fun k hk => absurd hk (Nat.not_lt_zero k), b, s, rfl, hacc, hs, by omega, rfl⟩
      · rw [if_neg hlt, Nat.sub_sub] at hrun
        obtain ⟨n, hpass, c, t, hat, hrest⟩ := ih (by omega) hrun
        have hhead : e.Passes sb d.blk idx (b, s) := ⟨hacc, show s + nodeNrPtrs (d.blk b) ≤ idx by omega⟩
        exact ⟨n + 1, forall_iterate_succ.mpr ⟨hhead, hpass⟩, c, t, hat, hrest⟩
    · rw [exec_resolveFrom_refused d hacc] at hrun
      cases hrun

theorem exec_exportFrom_none (d : Disk) : exec e (exportFrom sb nr fuel b out) d = none ↔
    ∀ k < fuel, e.Passes sb d.blk nr ((advance d.blk)^[k] (b, out.length)) := by
  induction fuel generalizing b out with
  | zero => exact iff_of_true rfl (fun k hk => absurd hk (Nat.not_lt_zero k))
  | succ fuel ih =>
    rw [forall_iterate_succ, exportFrom]
    by_cases h0 : b = 0
    · rw [if_pos h0]
      refine iff_of_false ?_ fun h => h.1.1.1 h0
      split <;> simp [exec, throw]
    rw [if_neg h0]
    by_cases hacc : e.Accepts sb d.blk b
    · rw [exec_readNode_of_accepts hacc]
      by_cases hlt : nr < out.length + nodeNrPtrs (d.blk b)
      · rw [if_pos hlt]
        refine iff_of_false (by simp [exec, throw]) fun h => ?_
        have hle : out.length + nodeNrPtrs (d.blk b) ≤ nr := h.1.2
        omega
      · have hlen : (out ++ nodePtrs (d.blk b) (nodeNrPtrs (d.blk b))).length = out.length + nodeNrPtrs (d.blk b) := by
          simp [nodePtrs]
        rw [if_neg hlt, ih, hlen]
        exact (and_iff_right (⟨hacc, Nat.not_lt.mp hlt⟩ : e.Passes sb d.blk nr (b, out.length))).symm
    · rw [exec_readNode_of_not_accepts h0 hacc]
      exact iff_of_false (by simp) fun h => hacc h.1.1

theorem nodeNext_lt (x : Block) : nodeNext x < 4294967296 := leNat_lt x 0 4

/-- The reading loops run through finitely many pairs of a node and a number of pointers. -/
theorem finite_passes (blk : Nat → Block) (head bound : Nat)
    (h : ∀ k, e.Passes sb blk bound ((advance blk)^[k] (head, 0))) :
    (Set.range fun k => (advance blk)^[k] (head, 0)).Finite := by
  refine ((Set.finite_lt_nat (max (head + 1) 4294967296)).prod (Set.finite_le_nat bound)).subset ?_
  rintro p ⟨k, rfl⟩
  refine ⟨?_, ?_⟩
  · cases k with
    | zero => exact lt_of_lt_of_le (Nat.lt_succ_self head) (Nat.le_max_left _ _)
    | succ k =>
      simp only [Function.iterate_succ_apply']
      exact lt_of_lt_of_le (nodeNext_lt _) (Nat.le_max_right _ _)
  · exact (Nat.le_add_right _ _).trans (h k).2

theorem resolve_ends_iff (d : Disk) (head idx : Nat) : (∃ fuel, exec e (resolveFrom sb fuel head idx) d ≠ none) ↔
    ¬ Cycles (advance d.blk) (e.Passes sb d.blk idx) (head, 0) := by
  rw [← ends_iff_not_cycles (finite_passes d.blk head idx)]
  exact returns_iff_ends fun _ => exec_resolveFrom_none d (Nat.zero_le idx)

/-- The fuel of the model is enough for a lookup of the first pointer that ends at all. -/
theorem exec_resolveFrom_walkFuel_none (d : Disk) (head : Nat) : exec e (resolveFrom sb walkFuel head 0) d = none ↔
    Cycles (advance d.blk) (e.Passes sb d.blk 0) (head, 0) := by
  have hnone : exec e (resolveFrom sb walkFuel head (0 - 0)) d = none ↔ _ := exec_resolveFrom_none d (Nat.le_refl 0)
  refine hnone.trans ⟨fun hpass => ?_, fun hc k _ => hc.goes k⟩
  -- without a pointer the walk is in a node and has counted nothing
  have himage : ((Finset.range 4294967296).image fun b => (b, 0)).card ≤ (Finset.range 4294967296).card := Finset.card_image_le
  have hcard := Finset.card_insert_le (head, 0) ((Finset.range 4294967296).image fun b => (b, 0))
  rw [Finset.card_range] at himage
  have hfuel : 4294967297 < walkFuel := by decide
  refine cycles_of_card (S := insert (head, 0) ((Finset.range 4294967296).image fun b => (b, 0))) (fun k hk => ?_)
    fun k hk => hpass k (by omega)
  cases k with
  | zero => exact Finset.mem_insert_self _ _
  | succ k =>
    have hle := (hpass k (by omega)).2
    refine Finset.mem_insert_of_mem (Finset.mem_image.mpr ⟨nodeNext (d.blk ((advance d.blk)^[k] (head, 0)).1), ?_, ?_⟩)
    · exact Finset.mem_range.mpr (nodeNext_lt _)
    · rw [Function.iterate_succ_apply']
      exact Prod.ext rfl (Nat.le_zero.mp hle).symm

theorem export_ends_iff (d : Disk) (head nr : Nat) : (∃ fuel, exec e (exportFrom sb nr fuel head []) d ≠ none) ↔
    ¬ Cycles (advance d.blk) (e.Passes sb d.blk nr) (head, 0) := by
  rw [← ends_iff_not_cycles (finite_passes d.blk head nr)]
  exact returns_iff_ends fun _ => exec_exportFrom_none d

/-- No cached copy is newer than the device: dropping one changes nothing. -/
def Env.Clean (e : Env) : Prop := e.cached = true → ∀ n, e.stale n = none

section Free

variable (hl : sb.Laid) (hs : e.Serves sb)

include hl in
theorem Superblock.Laid.data_pos (hb : sb.inData b) : b ≠ 0 := by
  have := hl.start_pos
  have := hl.bitmaps
  have := hl.table_ge
  have := hl.data_ge
  have := hb.1
  omega

theorem exec_bcacheInvalidate (b : Nat) (d : Disk) : ∃ d', exec e (bcacheInvalidate b) d = some (.ok (), d') ∧
    (∀ c, c ≠ b → d'.blk c = d.blk c) ∧ (e.Clean → d'.blk b = d.blk b) := by
  cases hc : e.cached with
  | false =>
    have ha : e.answer (.invalidate b) d = ((), d) := if_neg (by simp [hc])
    refine ⟨d, ?_, fun _ _ => rfl, fun _ => rfl⟩
    change some (Except.ok (), (e.answer (.invalidate b) d).2) = _
    rw [ha]
  | true =>
    have ha : e.answer (.invalidate b) d = ((), d.drop b (e.stale d.drops)) := if_pos hc
    refine ⟨d.drop b (e.stale d.drops), ?_, fun c hne => Function.update_of_ne hne _ _, fun hclean => ?_⟩
    · change some (Except.ok (), (e.answer (.invalidate b) d).2) = _
      rw [ha]
    · rw [Disk.drop, hclean hc]
      exact Function.update_self ..

theorem exec_freeListChainFrom_outside (d : Disk) (hb : ¬ sb.inData b) :
    exec e (freeListChainFrom sb (fuel + 1) b) d ≠ none := by
  have hidx : absToDataIdx sb b = .error .eio := by
    rw [absToDataIdx]
    split
    · rfl
    · rw [if_pos]
      by_contra hlt
      exact hb ⟨by omega, by omega⟩
  rw [freeListChainFrom]
  by_cases h0 : b = 0
  · rw [if_pos h0]
    exact Option.some_ne_none _
  rw [if_neg h0, readListNode]
  by_cases hfit : (b + 1) * e.blkSize ≤ e.size
  · rw [exec, run_bind_ok (exec_readFull hfit d), hidx, run_bind_error (run_ofExcept _)]
    exact Option.some_ne_none _
  · rw [exec, run_bind_error (exec_readFull_short hfit d)]
    exact Option.some_ne_none _

include hl hs

/-- One iteration of `free_list_chain` at a block of the data region. -/
theorem exec_freeListChainFrom_succ (d : Disk) (hb : sb.inData b) : ∃ d',
    (∀ fuel, exec e (freeListChainFrom sb (fuel + 1) b) d = exec e (freeListChainFrom sb fuel (nodeNext (d.blk b))) d') ∧
      (∀ c, sb.inData c → c ≠ b → d'.blk c = d.blk c) ∧ (e.Clean → d'.blk b = d.blk b) := by
  have hlo := hb.1
  have hhi := hb.2
  have hhole := hl.hole
  have hk : b - sb.dataRegionStart < sb.dataBlkNum := by omega
  have hfit := hs.fits (show b < sb.holeBlkNum by omega)
  have hidx : absToDataIdx sb b = .ok (b - sb.dataRegionStart) := by
    rw [absToDataIdx, if_neg (by omega), if_neg (by omega)]
  have hbit := exec_setDataBitmapBit hl hs d hk false
  have hblk := hl.dbitBlk_lt hk
  have hge := hl.data_ge
  generalize bitBlk sb.blkSize sb.dataBitmapStart (b - sb.dataRegionStart) = q at *
  generalize bitmapPut _ _ _ _ = y at hbit
  have hput : ∀ c, sb.inData c → (d.put q y).blk c = d.blk c := fun c hc =>
    Function.update_of_ne (by have := hc.1; omega) _ _
  obtain ⟨d', hinv, hother, hsame⟩ := exec_bcacheInvalidate (e := e) b (d.put q y)
  refine ⟨d', fun fuel => ?_, fun c hc hne => (hother c hne).trans (hput c hc), fun hclean => (hsame hclean).trans (hput b hb)⟩
  rw [freeListChainFrom, if_neg (hl.data_pos hb), exec, readListNode, run_bind_ok (exec_readFull hfit d), hidx,
    run_bind_ok (run_ofExcept _), run_bind_ok hbit, run_bind_ok hinv]
  rfl

/-- A list whose nodes are distinct up to the first one outside the data region is freed to its end. Each node is read
before it is dropped, so what the drop brings back is never read. -/
theorem exec_freeListChainFrom_ne_none {next : Nat → Nat} {n : Nat} (d : Disk) (hin : ∀ k < n, sb.inData (next^[k] b))
    (hout : ¬ sb.inData (next^[n] b)) (hne : ∀ i j, i < j → j < n → next^[i] b ≠ next^[j] b)
    (hnext : ∀ k < n, nodeNext (d.blk (next^[k] b)) = next^[k + 1] b) :
    exec e (freeListChainFrom sb (n + 1) b) d ≠ none := by
  induction n generalizing b d with
  | zero => exact exec_freeListChainFrom_outside d hout
  | succ n ih =>
    have hb : sb.inData b := hin 0 (Nat.succ_pos n)
    obtain ⟨d', hstep, hother, -⟩ := exec_freeListChainFrom_succ hl hs d hb
    have hlink : nodeNext (d.blk b) = next b := hnext 0 (Nat.succ_pos n)
    rw [hstep, hlink]
    refine ih d' (fun k hk => hin (k + 1) (by omega)) hout (fun i j hij hj => hne (i + 1) (j + 1) (by omega) (by omega)) ?_
    intro k hk
    have hkin : sb.inData (next^[k + 1] b) := hin (k + 1) (by omega)
    rw [← Function.iterate_succ_apply, hother _ hkin (hne 0 (k + 1) (by omega) (by omega)).symm]
    exact hnext (k + 1) (by omega)

/-- A list that stays in the data region is followed for ever. -/
theorem exec_freeListChainFrom_none (hclean : e.Clean) {next : Nat → Nat} (hin : ∀ k, sb.inData (next^[k] b)) (d : Disk)
    (hnext : ∀ c, sb.inData c → nodeNext (d.blk c) = next c) : exec e (freeListChainFrom sb fuel b) d = none := by
  induction fuel generalizing b d with
  | zero => rfl
  | succ fuel ih =>
    have hb : sb.inData b := hin 0
    obtain ⟨d', hstep, hother, hsame⟩ := exec_freeListChainFrom_succ hl hs d hb
    rw [hstep, hnext b hb]
    refine ih (fun k => hin (k + 1)) d' fun c hc => ?_
    by_cases hcb : c = b
    · rw [hcb, hsame hclean, hnext b hb]
    · rw [hother c hc hcb, hnext c hc]

theorem free_ends_of_not_cycles (d : Disk) (head : Nat) (h : ¬ Cycles (fun c => nodeNext (d.blk c)) sb.inData head) :
    ∃ fuel, exec e (freeListChainFrom sb fuel head) d ≠ none := by
  classical
  have hend : Ends (fun c => nodeNext (d.blk c)) sb.inData head := by
    refine (ends_iff_not_cycles fun hin => ?_).mpr h
    refine (Set.finite_lt_nat (sb.dataRegionStart + sb.dataBlkNum)).subset ?_
    rintro c ⟨k, rfl⟩
    exact (hin k).2
  have hin : ∀ k < Nat.find hend, sb.inData ((fun c => nodeNext (d.blk c))^[k] head) := fun k hk =>
    not_not.mp (Nat.find_min hend hk)
  refine ⟨Nat.find hend + 1, exec_freeListChainFrom_ne_none hl hs d hin (Nat.find_spec hend) ?_ fun k _ => ?_⟩
  · exact fun i j hij hj => ne_of_not_cycles h hin hij hj
  · exact (Function.iterate_succ_apply' (fun c => nodeNext (d.blk c)) k head).symm

theorem not_cycles_of_free_ends (hclean : e.Clean) (d : Disk) (head : Nat)
    (h : ∃ fuel, exec e (freeListChainFrom sb fuel head) d ≠ none) :
    ¬ Cycles (fun c => nodeNext (d.blk c)) sb.inData head := by
  obtain ⟨fuel, hf⟩ := h
  exact fun hc => hf (exec_freeListChainFrom_none hl hs hclean hc.goes d fun _ _ => rfl)

end Free

/-- The three walks along the list of an inode with the content `x` take finitely many iterations, and a lookup that
returns has gone through nodes with at least `idx` pointers to one that holds pointer `idx`. -/
structure WalksEnd (e : Env) (sb : Superblock) (d : Disk) (x : Inode) : Prop where
  resolve : ∀ idx < x.iNrBlocks.toNat, ∃ fuel, exec e (resolveFrom sb fuel x.iDataHead.toNat idx) d ≠ none
  flat : x.iNrBlocks.toNat ≠ 0 → ∃ fuel, exec e (exportFrom sb x.iNrBlocks.toNat fuel x.iDataHead.toNat []) d ≠ none
  free : ∃ fuel, exec e (freeListChainFrom sb fuel x.iDataHead.toNat) d ≠ none
  sound : ∀ fuel idx v d', exec e (resolveFrom sb fuel x.iDataHead.toNat idx) d = some (.ok v, d') →
    ∃ n, (∀ k < n, e.Passes sb d.blk idx ((advance d.blk)^[k] (x.iDataHead.toNat, 0))) ∧
      ∃ c t, (advance d.blk)^[n] (x.iDataHead.toNat, 0) = (c, t) ∧ e.Accepts sb d.blk c ∧ t ≤ idx ∧
        idx < t + nodeNrPtrs (d.blk c) ∧ v = leNat (d.blk c) (8 + 4 * (idx - t)) 4

/-- The list does not come back to a node without a pointer having been passed, within the pointers that the inode
counts, and it does not come back at all to a node in the data region. -/
structure NoCycle (e : Env) (sb : Superblock) (blk : Nat → Block) (x : Inode) : Prop where
  counted : x.iNrBlocks.toNat ≠ 0 →
    ¬ Cycles (advance blk) (e.Passes sb blk x.iNrBlocks.toNat) (x.iDataHead.toNat, 0)
  data : ¬ Cycles (fun c => nodeNext (blk c)) sb.inData x.iDataHead.toNat

theorem Env.Passes.mono {blk : Nat → Block} {m n : Nat} {p : Nat × Nat} (h : e.Passes sb blk m p) (hmn : m ≤ n) :
    e.Passes sb blk n p := ⟨h.1, h.2.trans hmn⟩

/-- The walks end where the list has no cycle, and where no dropped copy brings other content back they end nowhere
else: nothing in the loops bounds the number of nodes. -/
theorem walksEnd_iff (hl : sb.Laid) (hs : e.Serves sb) (d : Disk) (x : Inode) :
    (NoCycle e sb d.blk x → WalksEnd e sb d x) ∧ (e.Clean → (WalksEnd e sb d x ↔ NoCycle e sb d.blk x)) := by
  have hends : NoCycle e sb d.blk x → WalksEnd e sb d x := by
    intro h
    refine ⟨fun idx hidx => ?_, fun h0 => (export_ends_iff d _ _).mpr (h.counted h0),
      free_ends_of_not_cycles hl hs d _ h.data, fun fuel idx v d' hrun => exec_resolveFrom_ok d (Nat.zero_le idx) hrun⟩
    refine (resolve_ends_iff d _ idx).mpr ?_
    rintro ⟨a, b, hab, heq, hpass⟩
    exact h.counted (by omega) ⟨a, b, hab, heq, fun k hk => (hpass k hk).mono hidx.le⟩
  refine ⟨hends, fun hclean => ⟨fun h => ?_, hends⟩⟩
  exact ⟨fun h0 => (export_ends_iff d _ _).mp (h.flat h0), not_cycles_of_free_ends hl hs hclean d _ h.free⟩

/-- A list of one node, on a formatted volume. -/
theorem walksEnd_iff_one : ∃ (sb : Superblock) (e : Env) (d : Disk) (x : Inode), sb.Laid ∧ e.Serves sb ∧
    x.iDataHead.toNat = 4 ∧ NoCycle e sb d.blk x ∧ WalksEnd e sb d x := by
  have hsb := fromFormat_blankDev (show 8 < 16 by decide) (by decide)
  have hs : Env.Serves ⟨512, 8192, false, fun _ => none, fun _ => 0⟩ ((geometry (16 * 512) 512).superblock 512) :=
    ⟨rfl, by decide⟩
  have hnext : nodeNext (fun _ => 0) = 0 := by decide
  have hno : NoCycle ⟨512, 8192, false, fun _ => none, fun _ => 0⟩ ((geometry (16 * 512) 512).superblock 512)
      (fun _ _ => 0) { Inode.zero with iDataHead := 4, iNrBlocks := 1 } := by
    refine ⟨fun _ => ?_, ?_⟩
    · rintro ⟨a, b, hab, heq, hgo⟩
      by_cases hb : 1 < b
      · exact (hgo 1 hb).1.1 hnext
      · obtain ⟨rfl, rfl⟩ : a = 0 ∧ b = 1 := ⟨by omega, by omega⟩
        exact absurd (congrArg Prod.fst heq) (by decide)
    · rintro ⟨a, b, hab, heq, hgo⟩
      by_cases hb : 1 < b
      · exact hsb.laid.data_pos (hgo 1 hb) hnext
      · obtain ⟨rfl, rfl⟩ : a = 0 ∧ b = 1 := ⟨by omega, by omega⟩
        exact absurd heq (by decide)
  exact ⟨_, _, ⟨fun _ _ => 0, 0, 0⟩, _, hsb.laid, hs, rfl, hno, (walksEnd_iff hsb.laid hs ⟨fun _ _ => 0, 0, 0⟩ _).1 hno⟩

/-- A node of a formatted volume that links to itself and holds no pointer. -/
def selfLink : Disk := ⟨fun b => if b = 4 then encodeNode 4 [] else fun _ => 0, 0, 0⟩

/-- No number of iterations is enough for a list whose node links to itself: the three walks do not return. -/
theorem walks_hang : ∃ (sb : Superblock) (e : Env) (x : Inode), sb.FromFormat ∧ e.Serves sb ∧ e.Clean ∧
    (∀ fuel, exec e (resolveFrom sb fuel x.iDataHead.toNat 0) selfLink = none) ∧ 0 < x.iNrBlocks.toNat ∧
    (∀ fuel, exec e (exportFrom sb x.iNrBlocks.toNat fuel x.iDataHead.toNat []) selfLink = none) ∧
    ∀ fuel, exec e (freeListChainFrom sb fuel x.iDataHead.toNat) selfLink = none := by
  have hsb := fromFormat_blankDev (show 8 < 16 by decide) (by decide)
  have hs : Env.Serves ⟨512, 8192, false, fun _ => none, fun _ => 0⟩ ((geometry (16 * 512) 512).superblock 512) :=
    ⟨rfl, by decide⟩
  have hclean : Env.Clean ⟨512, 8192, false, fun _ => none, fun _ => 0⟩ := fun _ _ => rfl
  have hnext : nodeNext (selfLink.blk 4) = 4 := nodeNext_encodeNode (by decide) []
  have hnr : nodeNrPtrs (selfLink.blk 4) = 0 := nodeNrPtrs_encodeNode 4 (show ([] : List Nat).length < 4294967296 by decide)
  have hin : ((geometry (16 * 512) 512).superblock 512).inData 4 := ⟨by decide, by decide⟩
  have hfix : advance selfLink.blk (4, 0) = (4, 0) := by rw [advance, hnext, hnr]
  have hpass (bound k : Nat) : Env.Passes ⟨512, 8192, false, fun _ => none, fun _ => 0⟩
      ((geometry (16 * 512) 512).superblock 512) selfLink.blk bound ((advance selfLink.blk)^[k] (4, 0)) := by
    rw [Function.iterate_fixed hfix]
    exact ⟨⟨by decide, by decide, by rw [hnr]; exact Nat.zero_le _⟩, by rw [hnr]; exact Nat.zero_le _⟩
  refine ⟨_, _, { Inode.zero with iDataHead := 4, iNrBlocks := 1 }, hsb, hs, hclean, fun fuel => ?_, by decide,
    fun fuel => ?_, fun fuel => ?_⟩
  · exact (exec_resolveFrom_none selfLink (Nat.zero_le 0)).mpr fun k _ => hpass 0 k
  · exact (exec_exportFrom_none selfLink).mpr fun k _ => hpass 1 k
  · refine exec_freeListChainFrom_none hsb.laid hs hclean (fun k => ?_) selfLink fun c _ => rfl
    have hstay : (fun c => nodeNext (selfLink.blk c))^[k] 4 = 4 :=
      Function.iterate_fixed (f := fun c => nodeNext (selfLink.blk c)) hnext k
    change ((geometry (16 * 512) 512).superblock 512).inData ((fun c => nodeNext (selfLink.blk c))^[k] 4)
    rw [hstay]
    exact hin

end Mofs
