import Mofs.Fault
import Mofs.FileModel
import Mofs.Confined

namespace Mofs

open Effect Bytes

variable {α β : Type} {sb : Superblock} {V W : View} {G : Owners} {i : Nat}

section Surfaces

variable {e : Env}

theorem surfaces_resolveFrom (fuel nodeAbs remain : Nat) : Surfaces e.answer e.Fails (resolveFrom sb fuel nodeAbs remain) := by
  induction fuel generalizing nodeAbs remain with
  | zero => exact nofun
  | succ fuel ih =>
    rw [resolveFrom]
    split
    · exact .fail _
    refine (surfaces_readFull _).bind fun buf => ?_
    split
    · exact .fail _
    split
    · exact .pure _
    · exact ih _ _

theorem surfaces_resolveFileDataBlock (i k : Nat) : Surfaces e.answer e.Fails (resolveFileDataBlock sb i k) := by
  rw [resolveFileDataBlock]
  split
  · exact .fail _
  refine (surfaces_mofsReadInode i).bind fun x => ?_
  split
  · exact .fail _
  split
  · exact .fail _
  · exact surfaces_resolveFrom _ _ _

theorem readOnly_readForWrite (b : Nat) : ReadOnly (readForWrite sb b) := by
  rw [readForWrite]
  split
  · exact .throw _
  · exact readOnly_readFull b

theorem surfaces_readForWrite (b : Nat) : Surfaces e.answer e.Fails (readForWrite sb b) := by
  rw [readForWrite]
  split
  · exact .fail _
  · exact surfaces_readFull b

theorem readOnly_preloadBlocks {readOne : Nat → M Block} (h : ∀ b, ReadOnly (readOne b)) (i start current n k : Nat)
    (buf : Block) : ReadOnly (preloadBlocks sb readOne i start current n k buf) := by
  induction n generalizing k buf with
  | zero => exact .pure _
  | succ n ih =>
    rw [preloadBlocks]
    split
    · exact ih _ _
    · exact (readOnly_resolveFileDataBlock i _).bind fun b => (h b).bind fun x => ih _ _

theorem surfaces_preloadBlocks {readOne : Nat → M Block} (h : ∀ b, Surfaces e.answer e.Fails (readOne b))
    (i start current n k : Nat) (buf : Block) :
    Surfaces e.answer e.Fails (preloadBlocks sb readOne i start current n k buf) := by
  induction n generalizing k buf with
  | zero => exact .pure _
  | succ n ih =>
    rw [preloadBlocks]
    split
    · exact ih _ _
    · exact (surfaces_resolveFileDataBlock i _).bind fun b => (h b).bind fun x => ih _ _

/-- The clock is not an access to the device. -/
theorem not_faulted_mofsNow {d d' : Disk} {r : Except Errno UInt64} : ¬ Faulted e.answer e.Fails mofsNow d r d' := fun h => by
  rcases faulted_bind h with ⟨_, -, hc⟩ | ⟨a, u, hc, -⟩ | ⟨a, u, -, hf⟩
  · exact (faulted_call hc).choose_spec.1
  · exact (faulted_call hc).choose_spec.1
  · exact not_faulted_ofExcept hf

end Surfaces

theorem requireUser_eq (user : User) :
    requireUser user = Effect.ofExcept (if user.valid = false then .error .eperm else .ok ()) := by
  rw [requireUser]
  split <;> rfl

/-- A caller who passes the checks gets on. -/
theorem access_eq {k : M α} {flags : Nat} {user : User} {x : Inode} (h : accessCheck flags user x = .ok ()) :
    (do
      requireUser user
      ofExcept (mofsCheckOpenPermission flags user x)
      if x.isDir then throw .eisdir else k) = k := by
  have hdir := isDir_of_accessCheck h
  rw [accessCheck] at h
  split at h
  · cases h
  next hvalid =>
  split at h
  · cases h
  next hperm =>
  rw [requireUser_eq, if_neg hvalid, hperm, hdir]
  rfl

namespace Mount

variable {m : Mount} {p : M α} {f : α → M β} {F : Except Errno β → View → Prop} {I : View → Prop}

theorem Fault.bind_pure (h : m.Fault p V (fun _ W => I W)) (g : α → β) :
    m.Fault (p >>= fun a => Pure.pure (g a)) V (fun _ W => I W) := by
  refine Fault.bind (P := fun _ _ => True) (fun _ _ _ _ _ => trivial) h (fun a W _ => Fault.pure _) ?_ fun e W hW => hW
  exact fun a W hW => (Ensures.pure hW).runs

theorem fault_access (m : Mount) {k : M α} {flags : Nat} {user : User} {x : Inode} {Q : Except Errno α → View → Prop}
    (hk : accessCheck flags user x = .ok () → m.Fault k V Q) :
    m.Fault (do
      requireUser user
      ofExcept (mofsCheckOpenPermission flags user x)
      if x.isDir then throw .eisdir else k) V Q := by
  rw [requireUser_eq]
  refine Fault.ofExcept_bind fun _ huser => Fault.ofExcept_bind fun _ hperm => ?_
  split
  · exact Fault.throw _
  next hdir =>
  refine hk ?_
  have hvalid : ¬ user.valid = false := fun h => by
    rw [if_pos h] at huser
    cases huser
  rw [accessCheck, if_neg hvalid, hperm]
  exact if_neg hdir

theorem stops_resolveFileDataBlock (m : Mount) (V : View) (i k : Nat) : m.Stops (resolveFileDataBlock m.sb i k) V :=
  .of_readOnly (readOnly_resolveFileDataBlock i k) (surfaces_resolveFileDataBlock i k)

theorem stops_assembleWrite (m : Mount) (V : View) (i oldSize off start req : Nat) (data : List UInt8) :
    m.Stops (assembleWrite m.sb i oldSize off start req data) V := by
  refine .of_readOnly ?_ ?_
  · exact (readOnly_preloadBlocks (fun b => readOnly_readForWrite b) _ _ _ _ _ _).bind fun buf => .pure _
  · exact (surfaces_preloadBlocks (fun b => surfaces_readForWrite b) _ _ _ _ _ _).bind fun buf => .pure _

/-- A write of blocks that fails has changed no inode. -/
theorem fault_writeBlocksFrom (m : Mount) (h : Wf m.sb V G) (hi : V.ibit i = true) (start : Nat) (buf : Nat → Block) (n k : Nat) :
    m.Fault (writeBlocksFrom m.sb i start buf n k) V (fun r W => (∃ e, r = .error e) ∧ W.inode = V.inode) := by
  induction n generalizing V k with
  | zero => exact Fault.pure _
  | succ n ih =>
    rw [writeBlocksFrom]
    have hstop := m.stops_resolveFileDataBlock V i (u32 (start + k))
    have hres := m.reads_resolve (h.fileAt hi) (u32 (start + k))
    have herr (e : Errno) : (∃ e', (.error e : Except Errno FileWritten) = .error e') ∧ V.inode = V.inode := ⟨⟨e, rfl⟩, rfl⟩
    split at hres
    · next hlt =>
      refine hstop.bind_reads hres herr ?_
      have hmem := getD_mem hlt
      generalize (G.data i).getD (u32 (start + k)) 0 = b at *
      split
      · exact Fault.throw _
      have hW := Patched.setBlk V hmem (buf k)
      have hwrite : m.Stops (writeContinuousBlocks b (buf k)) V := fun d hd r d' hf => by
        obtain ⟨he, rfl⟩ := faulted_writeContinuousBlocks hf
        exact ⟨he, hd⟩
      refine hwrite.bind (P := fun r W => r = .ok ⟨1, 0⟩ ∧ W = V.setBlk b (buf k))
        (m.ensures_writeContinuousBlocks (h.inData i b (h.mem_data hmem)) ⟨rfl, rfl⟩).runs herr ?_
      rintro a W ⟨ha, rfl⟩
      cases ha
      exact ih (hW.frame h).wf hi (k + 1)
    · exact hstop.bind_error hres herr

theorem fault_writeFileDataBlock (m : Mount) (h : Wf m.sb V G) (hi : V.ibit i = true) (buf : Nat → Block) (start req : Nat) :
    m.Fault (writeFileDataBlock m.sb i buf start req) V (fun r W => (∃ e, r = .error e) ∧ W.inode = V.inode) := by
  rw [writeFileDataBlock]
  split
  · exact Fault.throw _
  split
  · exact Fault.pure _
  refine (m.stops_mofsReadInode V i).bind_reads (m.reads_mofsReadInode V (h.range i hi)) (fun e => ⟨⟨e, rfl⟩, rfl⟩) ?_
  split
  · exact Fault.throw _
  · exact m.fault_writeBlocksFrom h hi start buf _ 0

theorem fault_stampWrite (m : Mount) (hi : i < m.sb.inodeNum) {x : Inode} {mask : Nat} (hm : mask ≠ 0)
    {Q : Except Errno Unit → View → Prop} (herr : ∀ e, Q (.error e) V) (hok : ∀ t, Q (.ok ()) (V.setInode i (x.stamp mask t))) :
    m.Fault (do let x ← mofsInodeStampNow x mask; mofsWriteInode m.sb i x) V Q := by
  have hnow : m.Fault (mofsInodeStampNow x mask) V (fun _ _ => False) := fun d _ r d' h => by
    rw [mofsInodeStampNow, if_neg hm] at h
    rcases faulted_bind h with ⟨e, -, hc⟩ | ⟨a, u, hc, -⟩ | ⟨a, u, -, hf⟩
    · exact not_faulted_mofsNow hc
    · exact not_faulted_mofsNow hc
    · exact not_faulted_pure hf
  refine Fault.bind (P := fun r W => ∃ t, r = .ok (x.stamp mask t) ∧ W = V)
    (m.ensures_mofsInodeStampNow hm fun t => ⟨t, rfl, rfl⟩).runs hnow ?_ (fun _ _ h => h.elim) fun _ _ h => h.elim
  rintro a W ⟨t, ha, rfl⟩
  cases ha
  exact m.fault_mofsWriteInode hi herr (hok t)

theorem fault_updateDataBitmapBits (m : Mount) {u : Bool} {ks : List Nat} (hk : ∀ k ∈ ks, k < m.sb.dataBlkNum) :
    m.Fault (updateDataBitmapBits m.sb u ks) V (fun _ W => W.inode = V.inode) := by
  induction ks generalizing V with
  | nil => exact Fault.pure _
  | cons k ks ih =>
    have hks : ∀ j ∈ ks, j < m.sb.dataBlkNum := fun j hj => hk j (by simp [hj])
    have hset : m.Ensures (setDataBitmapBit m.sb k u) V (fun r W => r = .ok () ∧ W = V.setDbit k u) :=
      m.ensures_setDataBitmapBit (hk k (by simp)) ⟨rfl, rfl⟩
    refine Fault.bind (B := fun r W => (∃ r', r = .ok r') ∧ W = V) hset.attempt_eq.runs ?_ ?_ ?_ ?_
    · exact (m.stops_setDataBitmapBit V k u).attempt fun r W hW => ⟨⟨r, rfl⟩, hW.2⟩
    · rintro a W ⟨-, rfl⟩
      exact ih hks
    · rintro a W ⟨-, rfl⟩
      exact (m.ensures_updateDataBitmapBits hks rfl).runs
    · rintro e W ⟨⟨r', hr'⟩, -⟩
      cases hr'

/-- Blocks that are not there cannot be added, and the inode is not touched in the attempt. -/
theorem fault_allocateDataBlock (m : Mount) (h : Wf m.sb V G) (hi : V.ibit i = true) {n : Nat} (hn0 : n ≠ 0)
    (hn : n ≤ maxFileDataBlocks) (hfull : ¬ m.sb.canGrow V (G.data i).length n) :
    m.Fault (allocateDataBlock m.sb i n) V (fun r W => (∃ e, r = .error e) ∧ W.inode = V.inode) := by
  have hlt := h.range i hi
  have hmax := h.max i
  have hnr := h.nr i hi
  have herr (e : Errno) : (∃ e', (.error e : Except Errno Unit) = .error e') ∧ V.inode = V.inode := ⟨⟨e, rfl⟩, rfl⟩
  simp only [maxFileDataBlocks] at hn hmax
  rw [allocateDataBlock, if_neg (m.not_isNeg' hlt), if_neg hn0]
  refine (m.stops_mofsReadInode V i).bind_reads (m.reads_mofsReadInode V hlt) herr ?_
  rw [u32, Nat.mod_eq_of_lt (by omega), hnr]
  split
  · exact Fault.throw _
  next hbig =>
  have hexp := m.reads_exportDataBlockList h hi
  rw [hnr] at hexp
  refine (m.stops_exportDataBlockList V _ _).bind_reads hexp herr ?_
  have hfind := m.reads_findFreeDataBlockIndices V n
  have hstop := m.stops_findFreeDataBlockIndices V n
  by_cases hfew : (m.sb.freeData V).length < n
  · rw [if_pos hfew] at hfind
    exact hstop.bind_error hfind herr
  rw [if_neg hfew] at hfind
  refine hstop.bind_reads hfind herr ?_
  have hrest := freeData_setDbits_take m.sb V n
  have hlen : ((m.sb.freeData V).take n).length = n := List.length_take_of_le (Nat.not_lt.mp hfew)
  have hmem : ∀ k ∈ (m.sb.freeData V).take n, k < m.sb.dataBlkNum ∧ V.dbit k = false := fun k hk =>
    mem_freeData.mp (List.mem_of_mem_take hk)
  set new := (m.sb.freeData V).take n with hnew
  rw [m.map_u32 fun k hk => (hmem k hk).1]
  refine (m.stops_markUsed (fun k hk => (hmem k hk).1) fun k hk => (hmem k hk).2).bind
    (P := fun _ W => W = V.setDbits new true) (m.ensures_markUsed (fun k hk => (hmem k hk).1) rfl).runs herr ?_
  rintro _ _ rfl
  have hdl : (G.data i ++ m.sb.abs new).length = (G.data i).length + n := by simp [hlen]
  have hds : ∀ b ∈ G.data i ++ m.sb.abs new, b < 4294967296 := fun b hb => by
    rcases List.mem_append.mp hb with hb | hb
    · exact m.data_lt (h.inData i b (h.mem_data hb))
    · exact m.data_lt (inData_abs (fun k hk => (hmem k hk).1) hb)
  have hcost : (m.sb.freeData (V.setDbits new true)).length < listNodesForBlockCount m.sb (G.data i ++ m.sb.abs new).length := by
    rw [hrest, hdl, List.length_drop]
    by_contra hge
    exact hfull ⟨by omega, by omega⟩
  have hfails := m.ensures_rebuildDataBlockList (V := V.setDbits new true) (V.inode i) hds
    (by rw [hdl]; simp only [maxFileDataBlocks] at hbig ⊢; omega)
  simp only [if_pos hcost] at hfails
  have hundo (e : Errno) (W : View) (hW : W.inode = V.inode) : m.Runs (do
      updateDataBitmapBits m.sb false new
      throw e : M Unit) W (fun r U => (∃ e, r = .error e) ∧ U.inode = V.inode) := by
    refine (Ensures.seq (m.ensures_updateDataBitmapBits (fun k hk => (hmem k hk).1) ?_)).runs
    exact Ensures.throw ⟨⟨e, rfl⟩, hW⟩
  refine Fault.bind (B := fun r W => (∃ e, r = .ok (.error e)) ∧ W.inode = V.inode) hfails.attempt_eq.runs ?_ ?_ ?_ ?_
  · refine (m.fault_rebuildDataBlockList (V.inode i) _).attempt ?_
    rintro r W ⟨⟨e, rfl⟩, hW⟩
    exact ⟨⟨e, rfl⟩, hW.inode⟩
  · rintro a W ⟨ha, rfl⟩
    cases ha
    refine Fault.bind (P := fun _ _ => True) (fun _ _ _ _ _ => trivial)
      (m.fault_updateDataBitmapBits fun k hk => (hmem k hk).1) (fun _ _ _ => Fault.throw _) ?_ ?_
    · exact fun _ W hW => (Ensures.throw ⟨⟨_, rfl⟩, hW⟩).runs
    · exact fun e W hW => ⟨⟨e, rfl⟩, hW⟩
  · rintro a W ⟨⟨e, ha⟩, hW⟩
    cases ha
    exact hundo e W hW
  · rintro e W ⟨⟨e', he⟩, -⟩
    cases he

end Mount

/-- The inode maps as many blocks as its size needs. -/
def Superblock.Fitted (sb : Superblock) (x : Inode) : Prop := x.iNrBlocks.toNat = sb.blocksFor x.iSize.toNat

/-- The size of a file grows within its last block. -/
theorem Superblock.Fitted.resize {x : Inode} (h : sb.Fitted x) (hB : 0 < sb.blkSize) {n : Nat} (hn : n < 4294967296)
    (hle : sb.blocksFor n ≤ x.iNrBlocks.toNat) (mask : Nat) (t : UInt64) :
    sb.Fitted ((if x.iSize.toNat < n then { x with iSize := .ofNat n } else x).stamp mask t) := by
  by_cases hlt : x.iSize.toNat < n
  · rw [if_pos hlt]
    have hsize : (UInt32.ofNat n).toNat = n := Nat.mod_eq_of_lt hn
    have hge := blocksFor_mono hB (Nat.le_of_lt hlt)
    rw [← h] at hge
    change x.iNrBlocks.toNat = sb.blocksFor (UInt32.ofNat n).toNat
    rw [hsize]
    omega
  · rw [if_neg hlt]
    exact h

namespace Mount

variable {m : Mount}

/-- Storing into blocks the file has keeps its inode fitted, wherever an access fails. -/
theorem fault_storeWrite (m : Mount) (h : Wf m.sb V G) (hi : V.ibit i = true) (hfit : m.sb.Fitted (V.inode i)) {off n : Nat}
    (hmax : off + n ≤ mofsMaxFileBytes m.sb) (hroom : m.sb.blocksFor (off + n) ≤ (V.inode i).iNrBlocks.toNat) (req : Nat)
    (buf : Block) :
    m.Fault (storeWrite m.sb i (V.inode i) off req n buf) V (fun _ W => m.sb.Fitted (W.inode i)) := by
  have hB := m.ok.blk_pos
  have hle : mofsMaxFileBytes m.sb ≤ 1024 * 65536 := Nat.mul_le_mul_left 1024 m.ok.blk_le
  have hkeep {W : View} (hW : W.inode = V.inode) : m.sb.Fitted (W.inode i) := by rwa [hW]
  rw [storeWrite]
  refine Fault.bind (P := fun _ W => W.inode = V.inode)
    ((m.patches_writeFileDataBlock i _ _ _ V G h hi).mono fun _ _ hW => hW.inode).runs
    (m.fault_writeFileDataBlock h hi _ _ _) ?_ ?_ fun e W hW => hkeep hW.2
  · intro w W hW
    dsimp only
    generalize hwr : (if w.writtenBlkNum * m.sb.blkSize + w.fraction < off % m.sb.blkSize then 0
      else min n (w.writtenBlkNum * m.sb.blkSize + w.fraction - off % m.sb.blkSize)) = written
    have hwle : written ≤ n := by
      rw [← hwr]
      split <;> omega
    split
    · refine Fault.bind_pure (I := fun W => m.sb.Fitted (W.inode i)) ?_ _
      refine (m.fault_stampWrite (h.range i hi) (by decide) (Q := fun _ W => m.sb.Fitted (W.inode i)) (fun _ => hkeep hW)
        fun t => ?_).attempt fun _ _ hU => hU
      simp only [View.setInode, Function.update_self]
      exact hfit.resize hB (by omega) ((blocksFor_mono hB (by omega)).trans hroom) _ t
    · exact Fault.pure _
  · rintro a W ⟨⟨e, he⟩, -⟩
    cases he

/-- A write into blocks the file has, or one that finds no blocks, keeps the inode fitted. -/
theorem fault_writeAt (m : Mount) (h : Wf m.sb V G) (hi : V.ibit i = true) (hfit : m.sb.Fitted (V.inode i)) {off : Nat}
    {data : List UInt8} (hn : 0 < data.length) (hmax : off + data.length ≤ mofsMaxFileBytes m.sb)
    (hstay : (G.data i).length < m.sb.blocksFor (off + data.length) →
      ¬ m.sb.canGrow V (G.data i).length (m.sb.blocksFor (off + data.length) - (G.data i).length)) :
    m.Fault (writeAt m.sb i (V.inode i) off data) V (fun _ W => m.sb.Fitted (W.inode i)) := by
  have hB := m.ok.blk_pos
  have hneed := m.blocksFor_le_max hmax
  have hle : mofsMaxFileBytes m.sb ≤ 1024 * 65536 := Nat.mul_le_mul_left 1024 m.ok.blk_le
  have hlen := h.max i
  have hnr := h.nr i hi
  have hs : (G.data i).length = m.sb.blocksFor (V.inode i).iSize.toNat := hnr.symm.trans hfit
  have hcur : ceilBlks m.sb (V.inode i).iSize.toNat = (G.data i).length := (m.ceilBlks_eq (hs ▸ hlen)).trans hs.symm
  have hmod := Nat.mod_lt off hB
  have hble := m.ok.blk_le
  obtain ⟨req, hreq, h0, hcover, hdiv⟩ := exists_req hB off hn
  simp only [maxFileDataBlocks] at hneed
  have hu : u32 (off % m.sb.blkSize + data.length + m.sb.blkSize - 1) / m.sb.blkSize = req := by
    rw [u32, Nat.mod_eq_of_lt (by omega), hdiv]
  rw [writeAt]
  simp only [hu, hcur]
  rw [u32, Nat.mod_eq_of_lt (by omega), ← hreq]
  by_cases hgrow : (G.data i).length < m.sb.blocksFor (off + data.length)
  · -- the allocation is tried and fails
    simp only [onlyIf, if_pos hgrow]
    have halloc := m.ensures_allocateDataBlock h (h.range i hi) hi
      (show m.sb.blocksFor (off + data.length) - (G.data i).length ≠ 0 by omega) (by simp only [maxFileDataBlocks]; omega)
    simp only [if_neg (hstay hgrow)] at halloc
    refine Fault.bind halloc.runs (m.fault_allocateDataBlock h hi (by omega) (by simp only [maxFileDataBlocks]; omega)
      (hstay hgrow)) ?_ ?_ fun e W hW => by rw [hW.2]; exact hfit
    · rintro a W ⟨ha, -⟩
      cases ha
    · rintro a W ⟨⟨e, he⟩, -⟩
      cases he
  · simp only [onlyIf, if_neg hgrow]
    have hstops : m.Stops (do
        let buf ← assembleWrite m.sb i (V.inode i).iSize.toNat off (off / m.sb.blkSize) req data
        Pure.pure (V.inode i, buf) : M (Inode × Block)) V :=
      (m.stops_assembleWrite V _ _ _ _ _ _).bind (P := fun _ _ => True) (fun _ _ _ _ _ => trivial)
        (fun e => ⟨⟨e, rfl⟩, rfl⟩) fun _ _ _ => Fault.pure _
    refine Fault.ofExcept_bind (x := .ok ()) fun _ _ => ?_
    refine Fault.bind (B := fun r W => (∃ e, r = .ok (.error e)) ∧ W = V)
      (P := fun r W => W = V ∧ ∀ x buf, r = .ok (.ok (x, buf)) → x = V.inode i) ?_ ?_ ?_ ?_ ?_
    · obtain ⟨_ | buf, hbuf⟩ := m.peeks_assembleWrite (h.fileAt hi) (V.inode i).iSize.toNat off (off / m.sb.blkSize) req data
      · refine Reads.runs ((Reads.pure (V.inode i)).bind (Reads.bind_error hbuf)).attempt ⟨rfl, ?_⟩
        rintro x buf ⟨⟩
      · refine Reads.runs ((Reads.pure (V.inode i)).bind (hbuf.bind (Reads.pure (V.inode i, buf)))).attempt ⟨rfl, ?_⟩
        rintro x buf ⟨⟩
        rfl
    · refine hstops.attempt ?_
      rintro r W ⟨⟨e, rfl⟩, hW⟩
      exact ⟨⟨e, rfl⟩, hW⟩
    · rintro (e | ⟨x, buf⟩) W ⟨rfl, hx⟩
      · exact Fault.throw _
      · obtain rfl := hx x buf rfl
        exact m.fault_storeWrite h hi hfit hmax (by rw [hnr]; omega) req buf
    · rintro a W ⟨⟨e, ha⟩, rfl⟩
      cases ha
      exact (Ensures.throw hfit).runs
    · rintro e W ⟨⟨e', he⟩, -⟩
      cases he

end Mount

/-- A write that passes its checks, needs more blocks than the file has, and finds them. -/
def Superblock.Grows (sb : Superblock) (V : View) (user : User) (hd : FileHandle) (data : List UInt8) (offset : Int) : Prop :=
  let x := V.inode hd.inodeNum
  let need := sb.blocksFor (offset.toNat + (data.take (mofsMaxFileBytes sb - offset.toNat)).length)
  writeChecks sb user hd data.length offset x = .ok () ∧ x.iNrBlocks.toNat < need ∧
    sb.canGrow V x.iNrBlocks.toNat (need - x.iNrBlocks.toNat)

namespace Mount

variable {m : Mount}

theorem fault_mofsWriteCore (m : Mount) {user : User} {hd : FileHandle} {data : List UInt8} {offset : Int} {upd : Bool}
    (h : Wf m.sb V G) (hi : V.ibit hd.inodeNum = true) (hfit : m.sb.Fitted (V.inode hd.inodeNum))
    (hstay : ¬ m.sb.Grows V user hd data offset) :
    m.Fault (mofsWriteCore m.sb user hd data offset upd) V (fun _ W => m.sb.Fitted (W.inode hd.inodeNum)) := by
  rw [mofsWriteCore]
  split
  · exact Fault.throw _
  next h1 =>
  split
  · exact Fault.throw _
  next h2 =>
  refine (m.stops_mofsReadInode V _).bind_reads (m.reads_mofsReadInode V (h.range _ hi)) (fun _ => hfit) ?_
  refine m.fault_access fun hok => ?_
  dsimp only
  split
  · exact Fault.throw _
  next h3 =>
  have hchk : writeChecks m.sb user hd data.length offset (V.inode hd.inodeNum) = .ok () := by
    rw [writeChecks, if_neg h1, if_neg h2, hok]
    exact if_neg h3
  have hlen : (data.take (mofsMaxFileBytes m.sb - offset.toNat)).length = min (mofsMaxFileBytes m.sb - offset.toNat) data.length :=
    List.length_take
  refine (m.fault_writeAt h hi hfit (by omega) (by omega) fun hlt hgrow => ?_).bind_pure _
  rw [← h.nr _ hi] at hlt hgrow
  exact hstay ⟨hchk, hlt, hgrow⟩

/-- The access that stores the new size can fail after the data has been written. -/
theorem faulted_storeWrite (m : Mount) {d : Disk} {ns ds : List Nat} (h : FileAt m.sb (m.sb.view d) i ns ds) (x : Inode) {off n : Nat}
    (hn : 0 < n) (hroom : m.sb.blocksFor (off + n) ≤ ds.length) (buf : Block) : ∃ d',
    Faulted m.env.answer m.env.Fails (storeWrite m.sb i x off (m.sb.blocksFor (off + n) - off / m.sb.blkSize) n buf) d
      (.ok (.error .eio, n)) d' ∧ (m.sb.view d').inode = (m.sb.view d).inode := by
  obtain ⟨req, hreq, h0, hcover, -⟩ := exists_req m.ok.blk_pos off hn
  rw [hreq] at hroom
  rw [hreq, Nat.add_sub_cancel_left, storeWrite]
  have hwrite : m.Ensures (writeFileDataBlock m.sb i (blockAt m.sb buf) (off / m.sb.blkSize) req) (m.sb.view d) _ :=
    m.ensures_writeFileDataBlock h h0 hroom
  obtain ⟨r, d₁, hexec, rfl, hfill⟩ := hwrite.exists rfl
  refine ⟨d₁.tick, Faulted.bind_later hexec ?_, hfill.inode⟩
  have hwritten : (if req * m.sb.blkSize + 0 < off % m.sb.blkSize then 0
      else min n (req * m.sb.blkSize + 0 - off % m.sb.blkSize)) = n := by
    rw [if_neg (by omega), Nat.min_eq_left (by omega)]
  simp only [hwritten, if_pos hn]
  refine Faulted.bind_ok (a := .error .eio) (Faulted.attempt ?_) rfl
  exact Faulted.bind_later (exec_mofsInodeStampNow (by decide) _ d₁) (m.faulted_inodeUpdate h.range _ _)

theorem faulted_writeAt (m : Mount) {d : Disk} (h : Wf m.sb (m.sb.view d) G) (hi : (m.sb.view d).ibit i = true)
    (hfit : m.sb.Fitted ((m.sb.view d).inode i)) {off : Nat} {data : List UInt8} (hn : 0 < data.length)
    (hmax : off + data.length ≤ mofsMaxFileBytes m.sb) (hlt : (G.data i).length < m.sb.blocksFor (off + data.length))
    (hgrow : m.sb.canGrow (m.sb.view d) (G.data i).length (m.sb.blocksFor (off + data.length) - (G.data i).length)) : ∃ d',
    Faulted m.env.answer m.env.Fails (writeAt m.sb i ((m.sb.view d).inode i) off data) d (.ok (.error .eio, data.length)) d' ∧
      ((m.sb.view d').inode i).iSize = ((m.sb.view d).inode i).iSize ∧
      ((m.sb.view d').inode i).iNrBlocks.toNat = m.sb.blocksFor (off + data.length) := by
  have hB := m.ok.blk_pos
  have hneed := m.blocksFor_le_max hmax
  have hle : mofsMaxFileBytes m.sb ≤ 1024 * 65536 := Nat.mul_le_mul_left 1024 m.ok.blk_le
  have hlen := h.max i
  have hs : (G.data i).length = m.sb.blocksFor ((m.sb.view d).inode i).iSize.toNat := (h.nr i hi).symm.trans hfit
  have hcur : ceilBlks m.sb ((m.sb.view d).inode i).iSize.toNat = (G.data i).length :=
    (m.ceilBlks_eq (hs ▸ hlen)).trans hs.symm
  have hmod := Nat.mod_lt off hB
  have hble := m.ok.blk_le
  obtain ⟨req, hreq, h0, hcover, hdiv⟩ := exists_req hB off hn
  have hu : u32 (off % m.sb.blkSize + data.length + m.sb.blkSize - 1) / m.sb.blkSize = req := by
    rw [u32, Nat.mod_eq_of_lt (by omega), hdiv]
  have hnew : ((m.sb.freeData (m.sb.view d)).take (m.sb.blocksFor (off + data.length) - (G.data i).length)).length =
      m.sb.blocksFor (off + data.length) - (G.data i).length :=
    List.length_take_of_le ((Nat.le_add_right _ _).trans hgrow.2)
  rw [writeAt]
  simp only [hu, hcur]
  rw [u32, Nat.mod_eq_of_lt (by simp only [maxFileDataBlocks] at hneed; omega), ← hreq]
  simp only [onlyIf, if_pos hlt]
  have halloc := m.ensures_allocateDataBlock h (h.range i hi) hi
    (show m.sb.blocksFor (off + data.length) - (G.data i).length ≠ 0 by omega) (by omega)
  simp only [if_pos hgrow] at halloc
  obtain ⟨r, d₁, hexec, rfl, H, ⟨hR, -⟩, hHd⟩ := halloc.exists rfl
  have hi₁ : (m.sb.view d₁).ibit i = true := by rw [hR.ibit]; exact hi
  have hlenH : (H.data i).length = m.sb.blocksFor (off + data.length) := by
    rw [hHd, List.length_append, length_abs, hnew]
    omega
  have hfile := hR.wf.fileAt hi₁
  have hprep := (m.reads_mofsReadInode (m.sb.view d₁) hfile.range).bind (f := fun x => do
    let buf ← assembleWrite m.sb i ((m.sb.view d).inode i).iSize.toNat off (off / m.sb.blkSize) req data
    pure (x, buf)) (Reads.bind (m.reads_assembleWrite hfile (by omega) (by simp only [maxFileDataBlocks] at hneed; omega))
      (Reads.pure _))
  have hsub : m.sb.blocksFor (off + data.length) - off / m.sb.blkSize = req := by omega
  obtain ⟨d₂, hstore, hin⟩ := m.faulted_storeWrite hfile ((m.sb.view d₁).inode i) hn (Nat.le_of_eq hlenH.symm)
    (assembled m.sb (m.sb.view d₁).blk (H.data i) ((m.sb.view d).inode i).iSize.toNat off req data)
  rw [hsub] at hstore
  refine ⟨d₂, Faulted.bind_later hexec (Faulted.bind_later (hprep.attempt.exec_eq rfl) hstore), ?_, ?_⟩
  · rw [hin]
    exact hR.attrs.2
  · rw [hin, hR.wf.nr i hi₁, hlenH]

/-- A write that adds blocks to the file leaves more than its size needs when the last access fails. -/
theorem faulted_mofsWriteCore (m : Mount) {user : User} {hd : FileHandle} {data : List UInt8} {offset : Int} (upd : Bool) {d : Disk}
    (h : Wf m.sb (m.sb.view d) G) (hi : (m.sb.view d).ibit hd.inodeNum = true)
    (hfit : m.sb.Fitted ((m.sb.view d).inode hd.inodeNum)) (hgrow : m.sb.Grows (m.sb.view d) user hd data offset) : ∃ r d',
    Faulted m.env.answer m.env.Fails (mofsWriteCore m.sb user hd data offset upd) d (.ok (.error .eio, r)) d' ∧
      ((m.sb.view d').inode hd.inodeNum).iSize = ((m.sb.view d).inode hd.inodeNum).iSize ∧
      ((m.sb.view d).inode hd.inodeNum).iNrBlocks.toNat < ((m.sb.view d').inode hd.inodeNum).iNrBlocks.toNat := by
  obtain ⟨hchk, hlt, hroom⟩ := hgrow
  rw [writeChecks] at hchk
  split at hchk
  · cases hchk
  next h1 =>
  split at hchk
  · cases hchk
  next h2 =>
  split at hchk
  · cases hchk
  next hacc =>
  split at hchk
  · cases hchk
  next h3 =>
  have hlen : (data.take (mofsMaxFileBytes m.sb - offset.toNat)).length = min (mofsMaxFileBytes m.sb - offset.toNat) data.length :=
    List.length_take
  rw [h.nr _ hi] at hlt hroom
  obtain ⟨d', hf, hsize, hnr⟩ := m.faulted_writeAt h hi hfit (by omega) (by omega) hlt hroom
  rw [mofsWriteCore, if_neg h1, if_neg h2]
  refine ⟨if upd then { hd with fileOffset := u32 (offset.toNat + (data.take (mofsMaxFileBytes m.sb - offset.toNat)).length) }
    else hd, d', Faulted.bind_later ((m.reads_mofsReadInode _ (h.range _ hi)).exec_eq rfl) ?_, hsize, ?_⟩
  · rw [access_eq hacc]
    dsimp only
    rw [if_neg h3]
    exact Faulted.bind_ok hf rfl
  · rw [hnr, h.nr _ hi]
    exact hlt

end Mount

/-- After a write during which one access failed, the file maps exactly the blocks its size needs if and only if the write
had no blocks to add. -/
theorem write_fitted_iff (m : Mount) (user : User) (hd : FileHandle) (data : List UInt8) (offset : Int) (upd : Bool) (d : Disk)
    (h : Wf m.sb (m.sb.view d) G) (hi : (m.sb.view d).ibit hd.inodeNum = true)
    (hfit : m.sb.Fitted ((m.sb.view d).inode hd.inodeNum)) :
    (∀ r d', Faulted m.env.answer m.env.Fails (mofsWriteCore m.sb user hd data offset upd) d r d' →
      m.sb.Fitted ((m.sb.view d').inode hd.inodeNum)) ↔ ¬ m.sb.Grows (m.sb.view d) user hd data offset := by
  constructor
  · intro hall hgrow
    obtain ⟨r, d', hf, hsize, hmore⟩ := m.faulted_mofsWriteCore upd h hi hfit hgrow
    have hfit' := hall _ _ hf
    rw [Superblock.Fitted, hsize, ← show _ = _ from hfit] at hfit'
    omega
  · exact fun hstay r d' hf => m.fault_mofsWriteCore h hi hfit hstay d rfl r d' hf

/-- The first byte of the empty file takes a block. -/
theorem OneFile.grows {m : Mount} {d : Disk} {x : Block} (h : OneFile m d x) :
    m.sb.Grows (m.sb.view d) fileOwner fileHandle [120] 0 := by
  have hchk : writeChecks m.sb fileOwner fileHandle [120].length 0 emptyFile = .ok () := by
    rw [h.sb]
    decide
  have hneed : m.sb.blocksFor ((0 : Int).toNat + ([(120 : UInt8)].take (mofsMaxFileBytes m.sb - (0 : Int).toNat)).length) = 1 := by
    rw [h.sb]
    decide
  have hroom : m.sb.canGrow (m.sb.view d) 0 1 := by
    rw [Superblock.canGrow, h.free, h.sb]
    decide
  rw [Superblock.Grows, h.inode, hneed]
  exact ⟨hchk, by decide, hroom⟩

theorem OneFile.fitted {m : Mount} {d : Disk} {x : Block} (h : OneFile m d x) :
    m.sb.Fitted ((m.sb.view d).inode fileHandle.inodeNum) :=
  h.ok.sized _ h.ibit (by rw [h.inode]; rfl)

/-- When the update of the inode fails, a first byte leaves a block behind the end of a file that is still empty. -/
theorem write_strands_block : ∃ (m : Mount) (d d' : Disk) (r : FileHandle),
    Wf m.sb (m.sb.view d) (freshOwners m.sb) ∧ (m.sb.view d).ibit fileHandle.inodeNum = true ∧
    m.sb.Fitted ((m.sb.view d).inode fileHandle.inodeNum) ∧
    Faulted m.env.answer m.env.Fails (mofsWriteCore m.sb fileOwner fileHandle [120] 0 false) d (.ok (.error .eio, r)) d' ∧
    ((m.sb.view d').inode fileHandle.inodeNum).iSize.toNat = 0 ∧
    0 < ((m.sb.view d').inode fileHandle.inodeNum).iNrBlocks.toNat ∧
    ¬ m.sb.Fitted ((m.sb.view d').inode fileHandle.inodeNum) := by
  obtain ⟨m, d, h⟩ := exists_oneFile (fun _ => 0)
  obtain ⟨r, d', hf, hsize, hmore⟩ := m.faulted_mofsWriteCore false h.ok.wf h.ibit h.fitted h.grows
  have hzero : ((m.sb.view d').inode fileHandle.inodeNum).iSize.toNat = 0 := by
    rw [hsize, h.inode]
    rfl
  have hnone : m.sb.blocksFor 0 = 0 := by
    rw [h.sb]
    decide
  have hpos := Nat.zero_lt_of_lt hmore
  refine ⟨m, d, d', r, h.ok.wf, h.ibit, h.fitted, hf, hzero, hpos, fun hfit => ?_⟩
  rw [Superblock.Fitted, hzero, hnone] at hfit
  omega

/-- The same byte written again has its block, and no failing access changes that. -/
theorem write_fitted_iff_again : ∃ (m : Mount) (d : Disk) (G : Owners),
    Wf m.sb (m.sb.view d) G ∧ (m.sb.view d).ibit fileHandle.inodeNum = true ∧
    m.sb.Fitted ((m.sb.view d).inode fileHandle.inodeNum) ∧
    0 < ((m.sb.view d).inode fileHandle.inodeNum).iNrBlocks.toNat ∧
    ∀ r d', Faulted m.env.answer m.env.Fails (mofsWriteCore m.sb fileOwner fileHandle [120] 0 false) d r d' →
      m.sb.Fitted ((m.sb.view d').inode fileHandle.inodeNum) := by
  obtain ⟨m, d, h⟩ := exists_oneFile (fun _ => 0)
  obtain ⟨d₁, H, -, hW⟩ := h.writes
  have hi : (m.sb.view d₁).ibit fileHandle.inodeNum = true := by rw [hW.ibit]; exact h.ibit
  have hlen := hW.length m.ok.blk_pos (h.ok.length h.ibit (by rw [h.inode]; rfl))
  have hnr := hW.frame.wf.nr _ hi
  have hone : m.sb.blocksFor (0 + [(120 : UInt8)].length) = 1 := by
    rw [h.sb]
    decide
  have hneed : m.sb.blocksFor ((0 : Int).toNat + ([(120 : UInt8)].take (mofsMaxFileBytes m.sb - (0 : Int).toNat)).length) = 1 := by
    rw [h.sb]
    decide
  have henough := hW.enough
  refine ⟨m, d₁, H, hW.frame.wf, hi, hnr.trans hlen, by omega,
    (write_fitted_iff m fileOwner fileHandle [120] 0 false d₁ hW.frame.wf hi (hnr.trans hlen)).mpr ?_⟩
  rintro ⟨-, hlt, -⟩
  rw [hneed] at hlt
  omega

end Mofs
