import Mofs.Overwrite

namespace Mofs

open Effect Bytes

variable {sb : Superblock} {V W : View} {G H : Owners} {i : Nat} {ns ds : List Nat}

theorem Relisted.attrs {touched : List Nat} (h : Relisted sb V W G H i touched) :
    SameAttrs (V.inode i) (W.inode i) ∧ (W.inode i).iSize = (V.inode i).iSize := by
  obtain ⟨hd, c, he⟩ := h.inode_self
  rw [he]
  exact ⟨⟨rfl, rfl, rfl, rfl⟩, rfl⟩

/-- What a write of `data` at `off` leaves. -/
structure WrittenAt (sb : Superblock) (V W : View) (G H : Owners) (i off : Nat) (data : List UInt8) : Prop where
  frame : Frame sb [i] V W G H
  ibit : W.ibit = V.ibit
  blocks : H.data i = G.data i ++ sb.abs ((sb.freeData V).take (sb.blocksFor (off + data.length) - (G.data i).length))
  enough : sb.blocksFor (off + data.length) ≤ (H.data i).length
  size : (W.inode i).iSize.toNat = max (V.inode i).iSize.toNat (off + data.length)
  attrs : SameAttrs (V.inode i) (W.inode i)
  bytes : ∀ q, q / sb.blkSize < (H.data i).length → bytesOf sb.blkSize W.blk (H.data i) q =
    afterWrite sb (V.inode i).iSize.toNat off data (bytesOf sb.blkSize V.blk (H.data i)) q

theorem blocksFor_mono (hB : 0 < sb.blkSize) {a b : Nat} (h : a ≤ b) : sb.blocksFor a ≤ sb.blocksFor b :=
  (blocksFor_le_iff hB).mpr (h.trans ((blocksFor_le_iff hB).mp (Nat.le_refl _)))

theorem blocksFor_max (hB : 0 < sb.blkSize) (a b : Nat) :
    sb.blocksFor (max a b) = max (sb.blocksFor a) (sb.blocksFor b) := by
  rcases Nat.le_total a b with h | h
  · rw [Nat.max_eq_right h, Nat.max_eq_right (blocksFor_mono hB h)]
  · rw [Nat.max_eq_left h, Nat.max_eq_left (blocksFor_mono hB h)]

theorem WrittenAt.length {off : Nat} {data : List UInt8} (hB : 0 < sb.blkSize) (h : WrittenAt sb V W G H i off data)
    (hs : (G.data i).length = sb.blocksFor (V.inode i).iSize.toNat) :
    (H.data i).length = sb.blocksFor (W.inode i).iSize.toNat := by
  have henough := h.enough
  rw [h.size, blocksFor_max hB, ← hs]
  rw [h.blocks, List.length_append, length_abs, List.length_take] at henough ⊢
  omega

/-- The place of byte `q` of a file in a buffer of blocks that begins with block `start`. -/
theorem block_position (hB : 0 < sb.blkSize) {start q : Nat} (h : start ≤ q / sb.blkSize) :
    start * sb.blkSize + ((q / sb.blkSize - start) * sb.blkSize + q % sb.blkSize) = q ∧
    ((q / sb.blkSize - start) * sb.blkSize + q % sb.blkSize) / sb.blkSize = q / sb.blkSize - start ∧
    ((q / sb.blkSize - start) * sb.blkSize + q % sb.blkSize) % sb.blkSize = q % sb.blkSize := by
  have hmod := Nat.mod_lt q hB
  obtain ⟨c, hc⟩ := Nat.exists_eq_add_of_le h
  rw [hc, Nat.add_sub_cancel_left]
  refine ⟨?_, ?_, ?_⟩
  · rw [← Nat.add_assoc, ← Nat.add_mul, ← hc, Nat.mul_comm]
    exact Nat.div_add_mod q _
  · rw [Nat.mul_comm, Nat.mul_add_div hB, Nat.div_eq_of_lt hmod, Nat.add_zero]
  · rw [Nat.mul_comm, Nat.mul_add_mod, Nat.mod_mod]

theorem preloaded_at (hB : 0 < sb.blkSize) {blk : Nat → Block} {start current req q : Nat}
    (h : start ≤ q / sb.blkSize) (hlt : q / sb.blkSize < start + req) :
    preloaded sb blk ds start current 0 req (fun _ => 0) ((q / sb.blkSize - start) * sb.blkSize + q % sb.blkSize) =
      if current ≤ q / sb.blkSize then 0 else bytesOf sb.blkSize blk ds q := by
  obtain ⟨-, hdiv, hmod⟩ := block_position hB h
  simp only [preloaded, hdiv, hmod, Nat.add_sub_cancel' h, bytesOf]
  by_cases hcur : current ≤ q / sb.blkSize
  · rw [if_neg (by omega), if_pos hcur]
  · rw [if_pos (by omega), if_neg hcur]

/-- Clearing the file positions from `lo` to `hi` in a buffer that begins at position `startOff`. -/
theorem zeroRange_shift (buf : Block) (lo hi startOff p : Nat) :
    zeroRange buf (max lo startOff - startOff) (hi - startOff) p =
      if lo ≤ startOff + p ∧ startOff + p < hi then 0 else buf p := by
  rw [zeroRange]
  by_cases hp : lo ≤ startOff + p ∧ startOff + p < hi
  · rw [if_pos (by omega), if_pos hp]
  · rw [if_neg (by omega), if_neg hp]

/-- The buffer of `mofs_write_core`: the old blocks, the gap behind the old end cleared, the data put in. -/
def assembled (sb : Superblock) (blk : Nat → Block) (ds : List Nat) (s off req : Nat) (data : List UInt8) : Block :=
  let startOff := off / sb.blkSize * sb.blkSize
  let buf := preloaded sb blk ds (off / sb.blkSize) (sb.blocksFor s) 0 req (fun _ => 0)
  splice (if s < off then zeroRange buf (max s startOff - startOff) (off - startOff) else buf) (off % sb.blkSize) data

theorem blockAt_assembled (hB : 0 < sb.blkSize) {blk : Nat → Block} {s off q : Nat} {data : List UInt8}
    (hq : sb.covers off data.length q) :
    blockAt sb (assembled sb blk ds s off (sb.blocksFor (off + data.length) - off / sb.blkSize) data)
        (q / sb.blkSize - off / sb.blkSize) (q % sb.blkSize) =
      afterWrite sb s off data (bytesOf sb.blkSize blk ds) q := by
  have hoe := Nat.div_add_mod off sb.blkSize
  rw [Nat.mul_comm] at hoe
  have hhi := hq.2
  obtain ⟨hpos, -, -⟩ := block_position hB hq.1
  have hpre : preloaded sb blk ds (off / sb.blkSize) (sb.blocksFor s) 0
      (sb.blocksFor (off + data.length) - off / sb.blkSize) (fun _ => 0) _ = _ := preloaded_at hB hq.1 (by omega)
  rw [blockAt, if_pos (Nat.mod_lt q hB), assembled, splice, afterWrite]
  generalize (q / sb.blkSize - off / sb.blkSize) * sb.blkSize + q % sb.blkSize = p at *
  by_cases hin : off ≤ q ∧ q < off + data.length
  · rw [if_pos (by omega), if_pos hin]
    congr 1
    omega
  rw [if_neg (by omega), if_neg hin]
  by_cases hgap : s ≤ q ∧ q < off
  · rw [if_pos (show s < off by omega), zeroRange_shift, hpos, if_pos hgap, if_pos ⟨hq, .inl hgap⟩]
  · have hskip (buf : Block) : (if s < off then zeroRange buf (max s (off / sb.blkSize * sb.blkSize) -
        off / sb.blkSize * sb.blkSize) (off - off / sb.blkSize * sb.blkSize) else buf) p = buf p := by
      by_cases hso : s < off
      · rw [if_pos hso, zeroRange_shift, hpos, if_neg hgap]
      · rw [if_neg hso]
    rw [hskip, hpre]
    by_cases hcur : sb.blocksFor s ≤ q / sb.blkSize
    · rw [if_pos hcur, if_pos ⟨hq, .inr hcur⟩]
    · rw [if_neg hcur, if_neg (by simp only [hgap, hcur, or_self, and_false, not_false_eq_true])]

theorem afterWrite_congr {s off q : Nat} {data : List UInt8} {f g : Nat → UInt8} (h : f q = g q) :
    afterWrite sb s off data f q = afterWrite sb s off data g q := by
  rw [afterWrite, afterWrite, h]

theorem afterWrite_of_not_covers (hB : 0 < sb.blkSize) {s off q : Nat} {data : List UInt8} {f : Nat → UInt8}
    (h : ¬ sb.covers off data.length q) : afterWrite sb s off data f q = f q := by
  have hin : ¬ (off ≤ q ∧ q < off + data.length) := fun hq =>
    h ⟨Nat.div_le_div_right hq.1, (lt_blocksFor_iff hB).mpr (lt_of_le_of_lt (Nat.div_mul_le_self q _) hq.2)⟩
  rw [afterWrite, if_neg hin, if_neg (fun hc => h hc.1)]

/-- The blocks appended to a file were free, so a new list has not touched them. -/
theorem Relisted.blk_data {n : Nat} (hV : Wf sb V G) (h : Relisted sb V W G H i [])
    (hd : H.data i = G.data i ++ sb.abs ((sb.freeData V).take n)) {b : Nat} (hb : b ∈ H.data i) :
    W.blk b = V.blk b := by
  refine h.blk b ?_ (fun hn => h.wf.node_ne_data hn hb rfl) (by simp)
  rw [hd] at hb
  rcases List.mem_append.mp hb with hb | hb
  · exact fun hn => hV.node_ne_data hn hb rfl
  · obtain ⟨k, hk, rfl⟩ := mem_abs.mp hb
    obtain ⟨hlt, hfree⟩ := mem_freeData.mp (List.mem_of_mem_take hk)
    exact fun hn => hV.not_owned hlt hfree (hV.mem_nodes hn)

namespace Mount

theorem blocksFor_le_max (m : Mount) {n : Nat} (h : n ≤ mofsMaxFileBytes m.sb) : m.sb.blocksFor n ≤ maxFileDataBlocks :=
  (blocksFor_le_iff m.ok.blk_pos).mpr h

theorem reads_assembleWrite (m : Mount) (h : FileAt m.sb V i ns ds) {s off req : Nat} {data : List UInt8}
    (hs : m.sb.blocksFor s ≤ ds.length) (h32 : off / m.sb.blkSize + req < 4294967296) :
    m.Reads (assembleWrite m.sb i s off (off / m.sb.blkSize) req data) V (.ok (assembled m.sb V.blk ds s off req data)) := by
  rw [assembleWrite, m.ceilBlks_eq (hs.trans h.max)]
  have hpre : m.Reads (preloadBlocks m.sb (readForWrite m.sb) i (off / m.sb.blkSize) (m.sb.blocksFor s) req 0
      (fun _ => 0)) V _ := m.reads_preloadBlocks h (fun b hb => m.reads_readForWrite V hb) hs (by omega)
  rw [Nat.zero_add] at hpre
  exact Reads.bind hpre (Reads.pure _)

theorem size_ofNat_max (m : Mount) {s : UInt32} {n : Nat} (hn : n ≤ mofsMaxFileBytes m.sb) :
    (if s.toNat < n then UInt32.ofNat n else s).toNat = max s.toNat n := by
  have hle : mofsMaxFileBytes m.sb ≤ 1024 * 65536 := Nat.mul_le_mul_left 1024 m.ok.blk_le
  by_cases h : s.toNat < n
  · rw [if_pos h, Nat.max_eq_right (by omega)]
    exact Nat.mod_eq_of_lt (by omega)
  · rw [if_neg h, Nat.max_eq_left (by omega)]

/-- The part of a write after its blocks are there. -/
theorem ensures_storeWrite (m : Mount) (h : FileAt m.sb V i ns ds) {x : Inode} {off n : Nat} {buf : Block} (hn : 0 < n)
    (hroom : m.sb.blocksFor (off + n) ≤ ds.length) :
    m.Ensures (storeWrite m.sb i x off (m.sb.blocksFor (off + n) - off / m.sb.blkSize) n buf) V (fun r W =>
      r = .ok (.ok n, n) ∧ ∃ U t, Filled V U ds (off / m.sb.blkSize) (m.sb.blocksFor (off + n) - off / m.sb.blkSize)
        (blockAt m.sb buf) ∧ W = U.setInode i (Inode.stamp { x with
          iSize := if x.iSize.toNat < off + n then .ofNat (off + n) else x.iSize } (timeMtime ||| timeCtime) t)) := by
  obtain ⟨req, hreq, h0, hcover, -⟩ := exists_req m.ok.blk_pos off hn
  rw [hreq] at hroom
  rw [hreq, Nat.add_sub_cancel_left]
  rw [storeWrite]
  refine Ensures.bind_ok (m.ensures_writeFileDataBlock h h0 hroom) fun U hU => ?_
  have hwritten : (if req * m.sb.blkSize + 0 < off % m.sb.blkSize then 0
      else min n (req * m.sb.blkSize + 0 - off % m.sb.blkSize)) = n := by
    rw [if_neg (by omega), Nat.min_eq_left (by omega)]
  simp only [hwritten, if_pos hn]
  have hstamp : m.Ensures (do
      let x ← mofsInodeStampNow (if x.iSize.toNat < off + n then { x with iSize := .ofNat (off + n) } else x)
        (timeMtime ||| timeCtime)
      mofsWriteInode m.sb i x) U (fun r W => r = .ok () ∧ ∃ t, W = U.setInode i (Inode.stamp { x with
        iSize := if x.iSize.toNat < off + n then .ofNat (off + n) else x.iSize } (timeMtime ||| timeCtime) t)) := by
    refine m.ensures_stampWrite h.range (by decide) fun t => ⟨rfl, t, ?_⟩
    by_cases hlt : x.iSize.toNat < off + n
    · simp only [if_pos hlt]
    · simp only [if_neg hlt]
  refine Ensures.bind_ok hstamp.attempt_eq fun W hW => ?_
  obtain ⟨t, rfl⟩ := hW
  exact Ensures.pure ⟨rfl, U, t, hU, rfl⟩

/-- A write that has its blocks, or can get them, stores all of its data; one that cannot changes nothing. -/
theorem ensures_writeAt (m : Mount) (h : Wf m.sb V G) (hi : V.ibit i = true)
    (hs : (G.data i).length = m.sb.blocksFor (V.inode i).iSize.toNat) {off : Nat} {data : List UInt8}
    (hn : 0 < data.length) (hmax : off + data.length ≤ mofsMaxFileBytes m.sb) :
    m.Ensures (writeAt m.sb i (V.inode i) off data) V (fun r W =>
      if (G.data i).length < m.sb.blocksFor (off + data.length) ∧
        ¬ m.sb.canGrow V (G.data i).length (m.sb.blocksFor (off + data.length) - (G.data i).length) then
        r = .error .enospc ∧ W = V
      else r = .ok (.ok data.length, data.length) ∧ ∃ H, WrittenAt m.sb V W G H i off data) := by
  have hB := m.ok.blk_pos
  have hneed := m.blocksFor_le_max hmax
  have hle : mofsMaxFileBytes m.sb ≤ 1024 * 65536 := Nat.mul_le_mul_left 1024 m.ok.blk_le
  have hlen := h.max i
  have hcur : ceilBlks m.sb (V.inode i).iSize.toNat = (G.data i).length := (m.ceilBlks_eq (hs ▸ hlen)).trans hs.symm
  have hmod := Nat.mod_lt off hB
  have hble := m.ok.blk_le
  obtain ⟨req, hreq, h0, hcover, hdiv⟩ := exists_req hB off hn
  simp only [maxFileDataBlocks] at hneed
  have hu : u32 (off % m.sb.blkSize + data.length + m.sb.blkSize - 1) / m.sb.blkSize = req := by
    rw [u32, Nat.mod_eq_of_lt (by omega), hdiv]
  rw [writeAt]
  simp only [hu, hcur]
  rw [u32, Nat.mod_eq_of_lt (by omega), ← hreq]
  refine Ensures.bind (m.ensures_extend h hi hneed) (fun _ V₁ h1 => ?_) (fun e W he => ?_)
  swap
  · split at he
    · obtain ⟨he, rfl⟩ := he
      cases he
      rw [if_pos ‹_›]
      exact ⟨rfl, rfl⟩
    · exact absurd he.1 (by simp)
  split at h1
  · exact absurd h1.1 (by simp)
  rename_i hroom
  obtain ⟨-, hsame, H, hR, hHd⟩ := h1
  have hib : V₁.ibit i = true := by rw [hR.ibit]; exact hi
  have hfile := hR.wf.fileAt hib
  obtain ⟨hattrs, hsz⟩ := hR.attrs
  have hlenH : m.sb.blocksFor (off + data.length) ≤ (H.data i).length := by
    rw [hHd, List.length_append, length_abs, List.length_take]
    by_cases hlt : (G.data i).length < m.sb.blocksFor (off + data.length)
    · have hc : m.sb.canGrow V (G.data i).length (m.sb.blocksFor (off + data.length) - (G.data i).length) :=
        not_not.mp fun hc => hroom ⟨hlt, hc⟩
      have := hc.2
      omega
    · omega
  have hlenG : m.sb.blocksFor (V.inode i).iSize.toNat ≤ (H.data i).length := by
    rw [← hs, hHd, List.length_append]
    omega
  have hinode : m.Reads (if (G.data i).length < m.sb.blocksFor (off + data.length) then mofsReadInode m.sb i
      else pure (V.inode i) : M Inode) V₁ (.ok (V₁.inode i)) := by
    by_cases hlt : (G.data i).length < m.sb.blocksFor (off + data.length)
    · rw [if_pos hlt]
      exact m.reads_mofsReadInode V₁ hfile.range
    · rw [if_neg hlt, hsame (by omega)]
      exact Reads.pure _
  have hprep := hinode.bind (f := fun x => do
    let buf ← assembleWrite m.sb i (V.inode i).iSize.toNat off (off / m.sb.blkSize) req data
    pure (x, buf)) (Reads.bind (m.reads_assembleWrite hfile hlenG (by omega)) (Reads.pure _))
  refine Ensures.bind_reads hprep.attempt ?_
  have hsub : m.sb.blocksFor (off + data.length) - off / m.sb.blkSize = req := by omega
  dsimp only
  rw [← hsub]
  refine (m.ensures_storeWrite hfile hn hlenH).mono fun r W hr => ?_
  obtain ⟨rfl, U, t, hF, rfl⟩ := hr
  rw [if_neg hroom]
  have hfill : off / m.sb.blkSize + (m.sb.blocksFor (off + data.length) - off / m.sb.blkSize) ≤ (H.data i).length := by
    omega
  have hfr := ((hR.frame h (by simp)).trans (hF.frame hR.wf hfill)).trans
    (Frame.setInode (hF.frame hR.wf hfill).wf (i := i) (x := Inode.stamp { V₁.inode i with
      iSize := if (V₁.inode i).iSize.toNat < off + data.length then .ofNat (off + data.length) else (V₁.inode i).iSize }
      (timeMtime ||| timeCtime) t) (by rw [hF.inode]; rfl) (by rw [hF.inode]; rfl))
  refine ⟨rfl, H, hfr, ?_, hHd, hlenH, ?_, ?_, fun q hq => ?_⟩
  · exact hF.ibit.trans hR.ibit
  · simp only [View.setInode, Function.update_self, Inode.stamp]
    rw [m.size_ofNat_max hmax, hsz]
  · simp only [View.setInode, Function.update_self]
    exact ⟨hattrs.links, hattrs.mode, hattrs.uid, hattrs.gid⟩
  · have hold : bytesOf m.sb.blkSize V₁.blk (H.data i) q = bytesOf m.sb.blkSize V.blk (H.data i) q :=
      bytesOf_congr (fun b hb => hR.blk_data h hHd hb) hq
    change bytesOf m.sb.blkSize U.blk (H.data i) q = _
    rw [hF.bytes hfile hfill hq, ← afterWrite_congr hold]
    by_cases hcov : m.sb.covers off data.length q
    · rw [if_pos ⟨hcov.1, by rw [hsub, ← hreq]; exact hcov.2⟩, blockAt_assembled hB hcov]
    · rw [if_neg (by rw [hsub, ← hreq]; exact hcov), afterWrite_of_not_covers hB hcov]

end Mount

end Mofs
