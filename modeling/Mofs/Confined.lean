import Mofs.Truncate

namespace Mofs

open Effect Bytes

variable {sb : Superblock} {U V W : View} {G H : Owners} {i : Nat} {ns ds : List Nat} {α β : Type} {p : M α} {f : α → M β}

/-- Only the content of the blocks `ds` has changed. -/
structure Patched (V W : View) (ds : List Nat) : Prop where
  inode : W.inode = V.inode
  ibit : W.ibit = V.ibit
  dbit : W.dbit = V.dbit
  blk : ∀ b, b ∉ ds → W.blk b = V.blk b

namespace Patched

theorem refl (V : View) (ds : List Nat) : Patched V V ds := ⟨rfl, rfl, rfl, fun _ _ => rfl⟩

theorem trans (h : Patched U V ds) (h' : Patched V W ds) : Patched U W ds :=
  ⟨h'.inode.trans h.inode, h'.ibit.trans h.ibit, h'.dbit.trans h.dbit, fun b hb => (h'.blk b hb).trans (h.blk b hb)⟩

theorem setBlk (V : View) {b : Nat} (hb : b ∈ ds) (x : Block) : Patched V (V.setBlk b x) ds := by
  refine ⟨rfl, rfl, rfl, fun c hc => Function.update_of_ne ?_ _ _⟩
  rintro rfl
  exact hc hb

theorem frame (hV : Wf sb V G) (h : Patched V W (G.data i)) : Frame sb [i] V W G G := by
  refine ⟨hV.congr h.inode h.ibit h.dbit fun j b hb => h.blk b fun hd => hV.node_ne_data hb hd rfl, fun j hj => ?_⟩
  have hji : j ≠ i := by simpa using hj
  exact ⟨congrFun h.ibit j, congrFun h.inode j, rfl, rfl, fun b hb => h.blk b fun hd =>
    hV.owned_ne hji (hV.mem_data hb) (hV.mem_data hd) rfl⟩

end Patched

namespace Mount

variable {m : Mount}

/-- From every disk that shows `V`, the program returns and changes nothing. -/
def Peeks (m : Mount) (p : M α) (V : View) : Prop := ∃ r, m.Reads p V r

theorem Reads.peeks {r : Except Errno α} (h : m.Reads p V r) : m.Peeks p V := ⟨r, h⟩

theorem Peeks.bind (hp : m.Peeks p V) (hf : ∀ a, m.Reads p V (.ok a) → m.Peeks (f a) V) : m.Peeks (p >>= f) V := by
  obtain ⟨_ | a, hr⟩ := hp
  · exact ⟨_, Reads.bind_error hr⟩
  · obtain ⟨r, hr'⟩ := hf a hr
    exact ⟨r, Reads.bind hr hr'⟩

theorem Peeks.throw (e : Errno) : m.Peeks (throw e : M α) V := ⟨_, Reads.throw e⟩

theorem Peeks.pure (a : α) : m.Peeks (pure a) V := ⟨_, Reads.pure a⟩

theorem Peeks.ensures {Q : Except Errno α → View → Prop} (hp : m.Peeks p V) (hQ : ∀ r, m.Reads p V r → Q r V) :
    m.Ensures p V Q := by
  obtain ⟨r, hr⟩ := hp
  exact hr.ensures (hQ r hr)

theorem Peeks.ensures_bind {Q : Except Errno β → View → Prop} (hp : m.Peeks p V) (he : ∀ e, Q (.error e) V)
    (hf : ∀ a, m.Ensures (f a) V Q) : m.Ensures (p >>= f) V Q := by
  obtain ⟨_ | a, hr⟩ := hp
  · exact (Reads.bind_error hr).ensures (he _)
  · exact Ensures.bind_reads hr (hf a)

/-- The block numbers of a file are resolved to its blocks, and others are refused. -/
theorem reads_resolve (m : Mount) (h : FileAt m.sb V i ns ds) (k : Nat) :
    m.Reads (resolveFileDataBlock m.sb i k) V (if k < ds.length then .ok (ds.getD k 0) else .error .einval) := by
  by_cases hk : k < ds.length
  · rw [if_pos hk]
    exact m.reads_resolveFileDataBlock h hk
  · rw [if_neg hk, resolveFileDataBlock, if_neg (m.not_isNeg' h.range)]
    refine Reads.bind (m.reads_mofsReadInode V h.range) ?_
    rw [h.nr, if_pos (by omega)]
    exact Reads.throw _

theorem getD_mem {k : Nat} (hk : k < ds.length) : ds.getD k 0 ∈ ds := by
  rw [List.getD_eq_getElem _ _ hk]
  exact List.getElem_mem hk

theorem Peeks.resolve_bind (h : FileAt m.sb V i ns ds) {k : Nat} {f : Nat → M β}
    (hf : ∀ b ∈ ds, m.sb.inData b → m.Peeks (f b) V) : m.Peeks (resolveFileDataBlock m.sb i k >>= f) V := by
  have hres := m.reads_resolve h k
  split at hres
  · next hk =>
    obtain ⟨r, hr⟩ := hf _ (getD_mem hk) (h.inData_get hk)
    exact ⟨r, Reads.bind hres hr⟩
  · exact ⟨_, Reads.bind_error hres⟩

theorem peeks_preloadBlocks (m : Mount) (h : FileAt m.sb V i ns ds) {readOne : Nat → M Block}
    (hread : ∀ b, m.sb.inData b → m.Peeks (readOne b) V) (start current n k : Nat) (buf : Block) :
    m.Peeks (preloadBlocks m.sb readOne i start current n k buf) V := by
  induction n generalizing k buf with
  | zero => exact Peeks.pure _
  | succ n ih =>
    rw [preloadBlocks]
    split
    · exact ih _ _
    · exact Peeks.resolve_bind h fun b _ hb => (hread b hb).bind fun x _ => ih _ _

theorem peeks_assembleWrite (m : Mount) (h : FileAt m.sb V i ns ds) (oldSize off start req : Nat) (data : List UInt8) :
    m.Peeks (assembleWrite m.sb i oldSize off start req data) V :=
  (m.peeks_preloadBlocks h (fun _ hb => (m.reads_readForWrite V hb).peeks) _ _ _ _ _).bind fun _ _ => .pure _

/-- On every consistent volume, the program returns and changes at most the data of inode `i`. -/
def Patches (m : Mount) (i : Nat) (p : M α) : Prop :=
  ∀ V G, Wf m.sb V G → V.ibit i = true → m.Ensures p V (fun _ W => Patched V W (G.data i))

theorem Patches.of_peeks (h : ∀ V G, Wf m.sb V G → V.ibit i = true → m.Peeks p V) : m.Patches i p :=
  fun V G hV hi => (h V G hV hi).ensures fun _ _ => .refl V _

theorem Patches.pure (a : α) : m.Patches i (pure a) := .of_peeks fun _ _ _ _ => .pure a

theorem Patches.throw (e : Errno) : m.Patches i (throw e : M α) := .of_peeks fun _ _ _ _ => .throw e

theorem Patches.bind (hp : m.Patches i p) (hf : ∀ a, m.Patches i (f a)) : m.Patches i (p >>= f) := fun V G hV hi => by
  refine (hp V G hV hi).bind (fun a W hW => ?_) fun e W hW => hW
  exact (hf a W G (hW.frame hV).wf (by rw [hW.ibit]; exact hi)).mono fun _ U hU => hW.trans hU

theorem patches_mofsReadInode (m : Mount) (i : Nat) : m.Patches i (mofsReadInode m.sb i) :=
  .of_peeks fun V _ hV hi => (m.reads_mofsReadInode V (hV.range i hi)).peeks

/-- A block of the file may be written. -/
theorem Patches.resolve_bind {k : Nat} {f : Nat → M β}
    (hf : ∀ V G, Wf m.sb V G → V.ibit i = true → ∀ b ∈ G.data i, m.Ensures (f b) V (fun _ W => Patched V W (G.data i))) :
    m.Patches i (resolveFileDataBlock m.sb i k >>= f) := fun V G hV hi => by
  have hres := m.reads_resolve (hV.fileAt hi) k
  split at hres
  · next hk => exact Ensures.bind_reads hres (hf V G hV hi _ (getD_mem hk))
  · exact (Reads.bind_error hres).ensures (.refl V _)

theorem patches_writeBlocksFrom (m : Mount) (i start : Nat) (buf : Nat → Block) (n k : Nat) :
    m.Patches i (writeBlocksFrom m.sb i start buf n k) := by
  induction n generalizing k with
  | zero => exact .pure _
  | succ n ih =>
    rw [writeBlocksFrom]
    refine Patches.resolve_bind fun V G hV hi b hb => ?_
    split
    · exact Ensures.throw (.refl V _)
    · refine Ensures.seq (m.ensures_writeContinuousBlocks (hV.inData i b (hV.mem_data hb)) ?_)
      have hW := Patched.setBlk V hb (buf k)
      exact (ih (k + 1) _ G (hW.frame hV).wf hi).mono fun _ U hU => hW.trans hU

theorem patches_writeFileDataBlock (m : Mount) (i : Nat) (buf : Nat → Block) (start req : Nat) :
    m.Patches i (writeFileDataBlock m.sb i buf start req) := by
  rw [writeFileDataBlock]
  split
  · exact .throw _
  split
  · exact .pure _
  refine (m.patches_mofsReadInode i).bind fun x => ?_
  split
  · exact .throw _
  · exact m.patches_writeBlocksFrom i start buf _ 0

theorem patches_zeroPartialBlockTail (m : Mount) (i blkIdx tail : Nat) : m.Patches i (zeroPartialBlockTail m.sb i blkIdx tail) := by
  rw [zeroPartialBlockTail]
  split
  · exact .throw _
  refine Patches.resolve_bind fun V G hV hi b hb => ?_
  have hin := hV.inData i b (hV.mem_data hb)
  refine Ensures.bind_reads (m.reads_readOrEio V hin) ?_
  have hwrite : m.Ensures (writeFull b (zeroRange (V.blk b) tail m.sb.blkSize)) V (fun r W =>
      r = .ok () ∧ Patched V W (G.data i)) := m.ensures_writeFull hin ⟨rfl, .setBlk V hb _⟩
  exact Ensures.bind_ok hwrite.attempt_eq fun W hW => Ensures.pure hW

theorem patches_zeroFileByteRange (m : Mount) (i fromOff toOff : Nat) : m.Patches i (zeroFileByteRange m.sb i fromOff toOff) := by
  rw [zeroFileByteRange]
  split
  · exact .pure _
  refine (m.patches_mofsReadInode i).bind fun x => ?_
  refine Patches.bind (.of_peeks fun V G hV hi => ?_) fun buf => ?_
  · exact m.peeks_preloadBlocks (hV.fileAt hi) (fun b hb => (m.reads_readOrEio V hb).peeks) _ _ _ _ _
  · exact (m.patches_writeFileDataBlock i _ _ _).bind fun _ => .pure _

/-- On every consistent volume, the program returns, the volume stays consistent, and no inode but `i` changes. -/
def Confined (m : Mount) (i : Nat) (p : M α) : Prop :=
  ∀ V G, Wf m.sb V G → V.ibit i = true → m.Ensures p V (fun _ W => ∃ H, Frame m.sb [i] V W G H ∧ W.ibit = V.ibit)

theorem Patches.confined (h : m.Patches i p) : m.Confined i p := fun V G hV hi =>
  (h V G hV hi).mono fun _ _ hW => ⟨G, hW.frame hV, hW.ibit⟩

/-- A part that stays within inode `i` after another one that did. -/
theorem Ensures.after_frame {F : Owners} (hfr : Frame m.sb [i] U V F G) (hib : V.ibit = U.ibit)
    (h : m.Ensures p V (fun _ W => ∃ H, Frame m.sb [i] V W G H ∧ W.ibit = V.ibit)) :
    m.Ensures p V (fun _ W => ∃ H, Frame m.sb [i] U W F H ∧ W.ibit = U.ibit) := by
  refine h.mono fun _ W hW => ?_
  obtain ⟨H, hfr', hib'⟩ := hW
  exact ⟨H, hfr.trans hfr', hib'.trans hib⟩

theorem Confined.bind (hp : m.Confined i p) (hf : ∀ a, m.Confined i (f a)) : m.Confined i (p >>= f) := fun V G hV hi => by
  refine (hp V G hV hi).bind (fun a W hW => ?_) fun e W hW => hW
  obtain ⟨H, hfr, hib⟩ := hW
  exact (hf a W H hfr.wf (by rw [hib]; exact hi)).after_frame hfr hib

theorem Confined.attempt (hp : m.Confined i p) : m.Confined i (attempt p) := fun V G hV hi =>
  (hp V G hV hi).attempt fun _ _ hW => hW

theorem Confined.onlyIf {c : Prop} [Decidable c] {p : M Unit} (h : c → m.Confined i p) : m.Confined i (onlyIf c p) := by
  rw [Effect.onlyIf]
  split
  · next hc => exact h hc
  · exact (Patches.pure _).confined

theorem confined_allocateDataBlock (m : Mount) (i : Nat) {n : Nat} (hn : n ≤ maxFileDataBlocks) :
    m.Confined i (allocateDataBlock m.sb i n) := fun V G hV hi => by
  by_cases h0 : n = 0
  · rw [allocateDataBlock, if_neg (m.not_isNeg' (hV.range i hi)), if_pos h0]
    exact Ensures.pure ⟨G, Frame.refl hV _, rfl⟩
  refine (m.ensures_allocateDataBlock hV (hV.range i hi) hi h0 hn).mono fun r W hr => ?_
  split at hr
  · obtain ⟨-, H, ⟨hR, -⟩, -⟩ := hr
    exact ⟨H, hR.frame hV (by simp), hR.ibit⟩
  · rw [hr.2]
    exact ⟨G, Frame.refl hV _, rfl⟩

theorem confined_freeDataBlock (m : Mount) (i : Nat) {start n : Nat} (h32 : start + n < 4294967296) :
    m.Confined i (freeDataBlock m.sb i start n) := fun V G hV hi => by
  have hlt := hV.range i hi
  by_cases h0 : n = 0
  · rw [freeDataBlock, if_neg (m.not_isNeg' hlt), if_pos h0]
    exact Ensures.pure ⟨G, Frame.refl hV _, rfl⟩
  by_cases hs : start < (G.data i).length
  · refine (m.ensures_freeDataBlock hV hlt hi h0 hs h32).mono fun r W hr => ?_
    have hrel : ∀ b ∈ releasedBlocks (G.data i) start n, b ∈ G.data i := fun b hb => mem_blocks_iff.mpr (.inl hb)
    rcases hr with ⟨-, H, hR, -⟩ | ⟨-, -, hin, hib, hdb, hblk⟩
    · exact ⟨H, hR.frame hV hrel, hR.ibit⟩
    · exact ⟨G, Patched.frame hV ⟨hin, hib, hdb, fun b hb => hblk b fun hr => hb (hrel b hr)⟩, hib⟩
  · rw [freeDataBlock, if_neg (m.not_isNeg' hlt), if_neg h0]
    refine Ensures.bind_reads (m.reads_mofsReadInode V hlt) ?_
    dsimp only
    rw [hV.nr i hi, if_pos (by omega)]
    exact Ensures.throw ⟨G, Frame.refl hV _, rfl⟩

/-- The record `x` has the list of inode `i`. -/
def HasList (V : View) (i : Nat) (x : Inode) : Prop :=
  x.iDataHead = (V.inode i).iDataHead ∧ x.iNrBlocks = (V.inode i).iNrBlocks

theorem HasList.stampWrite {x : Inode} (hx : HasList V i x) (hV : Wf m.sb V G) (hi : V.ibit i = true) {mask : Nat}
    (hm : mask ≠ 0) : m.Ensures (do let x ← mofsInodeStampNow x mask; mofsWriteInode m.sb i x) V (fun _ W =>
      ∃ H, Frame m.sb [i] V W G H ∧ W.ibit = V.ibit) :=
  m.ensures_stampWrite (hV.range i hi) hm fun _ => ⟨G, Frame.setInode hV hx.1 hx.2, rfl⟩

theorem HasList.setSize {x : Inode} (hx : HasList V i x) (hV : Wf m.sb V G) (hi : V.ibit i = true) (size : Nat) :
    m.Ensures (setSize m.sb i x size) V (fun _ W => ∃ H, Frame m.sb [i] V W G H ∧ W.ibit = V.ibit) :=
  HasList.stampWrite (x := { x with iSize := .ofNat size }) hx hV hi (by decide)

/-- A record that was at hand before the data of the file was written still has its list. -/
theorem HasList.after_patches {x : Inode} (hx : HasList V i x) (hV : Wf m.sb V G) (hi : V.ibit i = true)
    (hp : m.Patches i p) (hf : ∀ a W, HasList W i x → Wf m.sb W G → W.ibit i = true →
      m.Ensures (f a) W (fun _ U => ∃ H, Frame m.sb [i] W U G H ∧ U.ibit = W.ibit)) :
    m.Ensures (p >>= f) V (fun _ W => ∃ H, Frame m.sb [i] V W G H ∧ W.ibit = V.ibit) := by
  refine (hp V G hV hi).bind (fun a W hW => ?_) fun e W hW => ⟨G, hW.frame hV, hW.ibit⟩
  have hxW : HasList W i x := by rw [HasList, hW.inode]; exact hx
  exact (hf a W hxW (hW.frame hV).wf (by rw [hW.ibit]; exact hi)).after_frame (hW.frame hV) hW.ibit

/-- After blocks were added or not, the record of the file is read again or still at hand. -/
theorem reads_again (m : Mount) {c : Prop} [Decidable c] (hi : i < m.sb.inodeNum) (hsame : ¬ c → W = V) :
    m.Reads (if c then mofsReadInode m.sb i else pure (V.inode i) : M Inode) W (.ok (W.inode i)) := by
  split
  · exact m.reads_mofsReadInode W hi
  · next hc =>
    rw [hsame hc]
    exact Reads.pure _

/-- Blocks are added where the file needs them. -/
theorem ensures_allocateIf (m : Mount) (hV : Wf m.sb V G) (hi : V.ibit i = true) {c : Prop} [Decidable c] {n : Nat}
    (hn : n ≤ maxFileDataBlocks) : m.Ensures (onlyIf c (allocateDataBlock m.sb i n)) V (fun _ W =>
      (¬ c → W = V) ∧ ∃ H, Frame m.sb [i] V W G H ∧ W.ibit = V.ibit) := by
  rw [Effect.onlyIf]
  split
  · next hc => exact (m.confined_allocateDataBlock i hn V G hV hi).mono fun _ W hW => ⟨fun h => absurd hc h, hW⟩
  · exact Ensures.pure ⟨fun _ => rfl, G, Frame.refl hV _, rfl⟩

/-- The blocks of a failed call are given back, and its error is passed on. -/
theorem confined_undo (m : Mount) (i : Nat) {c : Prop} [Decidable c] {start n : Nat} (h32 : c → start + n < 4294967296)
    (e : Errno) : m.Confined i (if c then do
      let _ ← attempt (freeDataBlock m.sb i start n)
      throw e
    else throw e : M α) := by
  split
  · next hc => exact (m.confined_freeDataBlock i (h32 hc)).attempt.bind fun _ => (Patches.throw e).confined
  · exact (Patches.throw e).confined

theorem HasList.storeWrite {x : Inode} (hx : HasList V i x) (hV : Wf m.sb V G) (hi : V.ibit i = true)
    (off req n : Nat) (buf : Block) : m.Ensures (storeWrite m.sb i x off req n buf) V (fun _ W =>
      ∃ H, Frame m.sb [i] V W G H ∧ W.ibit = V.ibit) := by
  rw [Mofs.storeWrite]
  refine hx.after_patches hV hi (m.patches_writeFileDataBlock i _ _ _) fun w W hxW hW hiW => ?_
  dsimp only
  generalize (if w.writtenBlkNum * m.sb.blkSize + w.fraction < off % m.sb.blkSize then 0
    else min n (w.writtenBlkNum * m.sb.blkSize + w.fraction - off % m.sb.blkSize)) = written
  split
  · refine Ensures.seq (Ensures.attempt (HasList.stampWrite ?_ hW hiW (by decide)) fun r U hU => Ensures.pure hU)
    split
    · exact hxW
    · exact hxW
  · exact Ensures.pure ⟨G, Frame.refl hW _, rfl⟩

theorem ensures_writeAt_frame (m : Mount) (hV : Wf m.sb V G) (hi : V.ibit i = true) {off : Nat} {data : List UInt8}
    (hn : 0 < data.length) (hmax : off + data.length ≤ mofsMaxFileBytes m.sb) :
    m.Ensures (writeAt m.sb i (V.inode i) off data) V (fun _ W => ∃ H, Frame m.sb [i] V W G H ∧ W.ibit = V.ibit) := by
  have hB := m.ok.blk_pos
  have hneed := m.blocksFor_le_max hmax
  have hle : mofsMaxFileBytes m.sb ≤ 1024 * 65536 := Nat.mul_le_mul_left 1024 m.ok.blk_le
  have hmod := Nat.mod_lt off hB
  have hble := m.ok.blk_le
  obtain ⟨req, hreq, h0, hcover, hdiv⟩ := exists_req hB off hn
  have hu : u32 (off % m.sb.blkSize + data.length + m.sb.blkSize - 1) / m.sb.blkSize = req := by
    rw [u32, Nat.mod_eq_of_lt (by omega), hdiv]
  rw [writeAt]
  simp only [hu]
  simp only [maxFileDataBlocks] at hneed
  refine (m.ensures_allocateIf hV hi (by simp only [maxFileDataBlocks]; omega)).bind (fun _ W hW => ?_)
    fun e W hW => hW.2
  obtain ⟨hsame, H, hfr, hib⟩ := hW
  have hiW : W.ibit i = true := by rw [hib]; exact hi
  have hagain := m.reads_again (hV.range i hi) hsame
  obtain ⟨_ | buf, hbuf⟩ := m.peeks_assembleWrite (hfr.wf.fileAt hiW) (V.inode i).iSize.toNat off (off / m.sb.blkSize) req data
  · refine Ensures.bind_reads (hagain.bind (Reads.bind_error hbuf)).attempt ?_
    refine (m.confined_undo i (fun hc => ?_) _ W H hfr.wf hiW).after_frame hfr hib
    have hcur := lt_of_lt_of_le hc (Nat.mod_le (off / m.sb.blkSize + req) 4294967296)
    omega
  · refine Ensures.bind_reads (hagain.bind (hbuf.bind (Reads.pure (W.inode i, buf)))).attempt ?_
    exact (HasList.storeWrite ⟨rfl, rfl⟩ hfr.wf hiW _ _ _ _).after_frame hfr hib

theorem confined_mofsWriteCore (m : Mount) (user : User) (hd : FileHandle) (data : List UInt8) (offset : Int) (upd : Bool) :
    m.Confined hd.inodeNum (mofsWriteCore m.sb user hd data offset upd) := fun V G hV hi => by
  have hrefl : ∃ H, Frame m.sb [hd.inodeNum] V V G H ∧ V.ibit = V.ibit := ⟨G, Frame.refl hV _, rfl⟩
  rw [mofsWriteCore]
  split
  · exact Ensures.throw hrefl
  next h1 =>
  split
  · exact Ensures.throw hrefl
  refine Ensures.bind_reads (m.reads_mofsReadInode V (hV.range _ hi)) ?_
  refine m.ensures_access (fun e _ => hrefl) fun _ => ?_
  dsimp only
  split
  · exact Ensures.throw hrefl
  · refine (m.ensures_writeAt_frame hV hi ?_ ?_).bind (fun a W hW => Ensures.pure hW) fun e W hW => hW
    · rw [List.length_take]
      omega
    · rw [List.length_take]
      omega

theorem ensures_shrinkInode_frame (m : Mount) (hV : Wf m.sb V G) (hi : V.ibit i = true) (newSize : Nat) :
    m.Ensures (shrinkInode m.sb i (V.inode i) newSize) V (fun _ W => ∃ H, Frame m.sb [i] V W G H ∧ W.ibit = V.ibit) := by
  have hfree (keep : Nat) : m.Confined i (onlyIf (keep < (V.inode i).iNrBlocks.toNat)
      (freeDataBlock m.sb i keep ((V.inode i).iNrBlocks.toNat - keep))) :=
    Confined.onlyIf fun hlt => m.confined_freeDataBlock i (by have := (V.inode i).iNrBlocks.toNat_lt; omega)
  have hsize : m.Confined i (do
      let x ← mofsReadInode m.sb i
      setSize m.sb i x newSize) := fun V G hV hi =>
    Ensures.bind_reads (m.reads_mofsReadInode V (hV.range i hi)) (HasList.setSize ⟨rfl, rfl⟩ hV hi newSize)
  rw [shrinkInode]
  refine Confined.bind (Confined.onlyIf fun _ => (m.patches_zeroPartialBlockTail i _ _).confined)
    (fun _ => (hfree _).bind fun _ => hsize) V G hV hi

theorem ensures_growInode_frame (m : Mount) (hV : Wf m.sb V G) (hi : V.ibit i = true) {newSize : Nat}
    (hmax : newSize ≤ mofsMaxFileBytes m.sb) :
    m.Ensures (growInode m.sb i (V.inode i) newSize) V (fun _ W => ∃ H, Frame m.sb [i] V W G H ∧ W.ibit = V.ibit) := by
  have hneed := m.blocksFor_le_max hmax
  rw [growInode]
  simp only [m.ceilBlks_eq hneed]
  simp only [maxFileDataBlocks] at hneed
  refine (m.ensures_allocateIf hV hi (by simp only [maxFileDataBlocks]; omega)).bind (fun _ W hW => ?_)
    fun e W hW => hW.2
  obtain ⟨hsame, H, hfr, hib⟩ := hW
  have hiW : W.ibit i = true := by rw [hib]; exact hi
  have hagain := m.reads_again (hV.range i hi) hsame
  have hext : m.Ensures (do
      let x ← (if (V.inode i).iNrBlocks.toNat < m.sb.blocksFor newSize then mofsReadInode m.sb i
        else pure (V.inode i) : M Inode)
      zeroFileByteRange m.sb i (V.inode i).iSize.toNat newSize
      setSize m.sb i x newSize) W (fun _ U => ∃ F, Frame m.sb [i] W U H F ∧ U.ibit = W.ibit) :=
    Ensures.bind_reads hagain (HasList.after_patches ⟨rfl, rfl⟩ hfr.wf hiW (m.patches_zeroFileByteRange i _ _)
      fun _ U hx hU hiU => hx.setSize hU hiU newSize)
  refine Ensures.seq (Ensures.attempt (hext.after_frame hfr hib) fun r U hU => ?_)
  obtain ⟨F, hfr', hib'⟩ := hU
  cases r with
  | ok u => exact Ensures.pure ⟨F, hfr', hib'⟩
  | error e =>
    refine (m.confined_undo i (fun hc => ?_) e U F hfr'.wf (by rw [hib']; exact hi)).after_frame hfr' hib'
    omega

theorem confined_mofsTruncateCore (m : Mount) (user : User) (i : Nat) (length : Int) :
    m.Confined i (mofsTruncateCore m.sb user i length) := fun V G hV hi => by
  have hrefl : ∃ H, Frame m.sb [i] V V G H ∧ V.ibit = V.ibit := ⟨G, Frame.refl hV _, rfl⟩
  rw [mofsTruncateCore]
  split
  · exact Ensures.throw hrefl
  split
  · exact Ensures.throw hrefl
  split
  · exact Ensures.throw hrefl
  rw [truncateInode]
  refine Ensures.bind_reads (m.reads_mofsReadInode V (hV.range i hi)) ?_
  split
  · exact Ensures.throw hrefl
  refine (m.reads_requireUser V user).peeks.ensures_bind (fun _ => hrefl) fun _ => ?_
  refine (Reads.ofExcept _).peeks.ensures_bind (fun _ => hrefl) fun _ => ?_
  split
  · exact Ensures.pure hrefl
  split
  · exact m.ensures_shrinkInode_frame hV hi _
  · exact m.ensures_growInode_frame hV hi (by omega)

end Mount

end Mofs
