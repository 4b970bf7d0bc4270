import Mofs.ReadWrite

namespace Mofs

open Effect Bytes

variable {sb : Superblock} {V W : View} {G H : Owners} {i : Nat} {ns ds : List Nat}

/-- What a change of the size of file `i` to `len` leaves. -/
structure Resized (sb : Superblock) (V W : View) (G H : Owners) (i len : Nat) : Prop where
  frame : Frame sb [i] V W G H
  ibit : W.ibit = V.ibit
  blocks : (H.data i).length = sb.blocksFor len
  slim : (G.data i = [] → G.nodes i = []) → H.data i = [] → H.nodes i = []
  size : (W.inode i).iSize.toNat = len
  attrs : SameAttrs (V.inode i) (W.inode i)
  bytes : ∀ q < len, bytesOf sb.blkSize W.blk (H.data i) q =
    if q < (V.inode i).iSize.toNat then bytesOf sb.blkSize V.blk (G.data i) q else 0

theorem bytesOf_append {blkSize q : Nat} {blk : Nat → Block} {ds es : List Nat} (h : q / blkSize < ds.length) :
    bytesOf blkSize blk (ds ++ es) q = bytesOf blkSize blk ds q := by
  rw [bytesOf, List.getD_append _ _ _ _ h, bytesOf]

theorem bytesOf_take {blkSize q n : Nat} {blk : Nat → Block} {ds : List Nat} (h : q / blkSize < (ds.take n).length) :
    bytesOf blkSize blk (ds.take n) q = bytesOf blkSize blk ds q := by
  conv_rhs => rw [← List.take_append_drop n ds, bytesOf_append h]

theorem div_lt_of_lt (hB : 0 < sb.blkSize) {q s : Nat} (h : q < s) : q / sb.blkSize < sb.blocksFor s :=
  (lt_blocksFor_iff hB).mpr (lt_of_le_of_lt (Nat.div_mul_le_self q _) h)

/-- What a shrinking truncate to `len` leaves when the shorter list finds no room: the record and the list of the file are the
old ones, but the tail of the block that was to be the last is cleared, and the cached copies of the blocks after it are
dropped. -/
structure Unshrunk (m : Mount) (V W : View) (G : Owners) (i len : Nat) : Prop where
  frame : Frame m.sb [i] V W G G
  ibit : W.ibit = V.ibit
  inode : W.inode = V.inode
  head : ∀ q < len, bytesOf m.sb.blkSize W.blk (G.data i) q = bytesOf m.sb.blkSize V.blk (G.data i) q
  cleared : ∀ q, len ≤ q → q < m.sb.blocksFor len * m.sb.blkSize → bytesOf m.sb.blkSize W.blk (G.data i) q = 0
  dropped : ∀ b ∈ (G.data i).drop (m.sb.blocksFor len), m.env.MayDrop (V.blk b) (W.blk b)

/-- The list of a file shrunk to `len` bytes finds no room for its nodes. -/
def ShrinkStuck (sb : Superblock) (V : View) (G : Owners) (i len : Nat) : Prop :=
  sb.blocksFor len < (G.data i).length ∧
    ¬ sb.canRelist V ((G.data i).length - sb.blocksFor len) (sb.blocksFor len)

instance (sb : Superblock) (V : View) (G : Owners) (i len : Nat) : Decidable (ShrinkStuck sb V G i len) := by
  unfold ShrinkStuck; infer_instance

/-- The checks of a truncate pass. -/
structure MayTruncate (sb : Superblock) (user : User) (x : Inode) (length : Int) : Prop where
  pos : 0 ≤ length
  max : length ≤ (mofsMaxFileBytes sb : Int)
  file : x.isDir = false
  access : accessCheck oflagWronly user x = .ok ()

/-- When a truncate that passes its checks finds no room. -/
def TruncateStuck (sb : Superblock) (V : View) (G : Owners) (i len : Nat) : Prop :=
  if len < (V.inode i).iSize.toNat then ShrinkStuck sb V G i len
  else (G.data i).length < sb.blocksFor len ∧ ¬ sb.canGrow V (G.data i).length (sb.blocksFor len - (G.data i).length)

namespace Mount

theorem ensures_zeroPartialBlockTail (m : Mount) (h : FileAt m.sb V i ns ds) {k tail : Nat} (hk : k < ds.length)
    (ht : tail < m.sb.blkSize) :
    m.Ensures (zeroPartialBlockTail m.sb i k tail) V (fun r W => r = .ok () ∧
      Filled V W ds k 1 (fun _ => zeroRange (V.blk (ds.getD k 0)) tail m.sb.blkSize)) := by
  have hin := h.inData_get hk
  rw [zeroPartialBlockTail, if_neg (by omega)]
  refine Ensures.bind_reads (m.reads_resolveFileDataBlock h hk) ?_
  refine Ensures.bind_reads (m.reads_readOrEio V hin) ?_
  have hwrite : m.Ensures (writeFull (ds.getD k 0) (zeroRange (V.blk (ds.getD k 0)) tail m.sb.blkSize)) V (fun r W =>
      r = .ok () ∧ W = V.setBlk (ds.getD k 0) (zeroRange (V.blk (ds.getD k 0)) tail m.sb.blkSize)) :=
    m.ensures_writeFull hin ⟨rfl, rfl⟩
  refine Ensures.bind_ok hwrite.attempt_eq fun W hW => Ensures.pure ⟨rfl, ?_⟩
  subst hW
  exact Filled.one V ds k fun _ => zeroRange (V.blk (ds.getD k 0)) tail m.sb.blkSize

theorem ensures_setSize (m : Mount) (hi : i < m.sb.inodeNum) {x : Inode} {size : Nat}
    {Q : Except Errno Unit → View → Prop}
    (hQ : ∀ t, Q (.ok ()) (V.setInode i (Inode.stamp { x with iSize := .ofNat size } (timeMtime ||| timeCtime) t))) :
    m.Ensures (setSize m.sb i x size) V Q :=
  m.ensures_stampWrite hi (by decide) hQ

/-- A shrinking truncate clears the tail of the new last block. -/
theorem ensures_clearTail (m : Mount) (h : FileAt m.sb V i ns ds) {size : Nat}
    (hs : m.sb.blocksFor size ≤ ds.length) :
    m.Ensures (onlyIf (0 < size ∧ size % m.sb.blkSize ≠ 0 ∧ 0 < m.sb.blocksFor size)
      (zeroPartialBlockTail m.sb i (m.sb.blocksFor size - 1) (size % m.sb.blkSize))) V (fun r W => r = .ok () ∧
      (∃ n buf, Filled V W ds (m.sb.blocksFor size - 1) n buf ∧ m.sb.blocksFor size - 1 + n ≤ m.sb.blocksFor size) ∧
      (∀ q < size, bytesOf m.sb.blkSize W.blk ds q = bytesOf m.sb.blkSize V.blk ds q) ∧
      ∀ q, size ≤ q → q < m.sb.blocksFor size * m.sb.blkSize → bytesOf m.sb.blkSize W.blk ds q = 0) := by
  have hB := m.ok.blk_pos
  rw [onlyIf]
  by_cases hc : 0 < size ∧ size % m.sb.blkSize ≠ 0 ∧ 0 < m.sb.blocksFor size
  · rw [if_pos hc]
    refine (m.ensures_zeroPartialBlockTail h (by omega) (Nat.mod_lt _ hB)).mono fun r W hr => ?_
    obtain ⟨rfl, hF⟩ := hr
    have hlast := (div_lt_blocksFor hB).mpr hc.2.1
    have hsucc := blocksFor_le_succ hB (s := size)
    refine ⟨rfl, ⟨1, _, hF, by omega⟩, fun q hq => ?_, fun q hq hql => ?_⟩
    · have hql := div_lt_of_lt hB hq
      rw [hF.bytes h (by omega) (by omega)]
      by_cases hin : m.sb.blocksFor size - 1 ≤ q / m.sb.blkSize ∧ q / m.sb.blkSize < m.sb.blocksFor size - 1 + 1
      · rw [if_pos hin, show m.sb.blocksFor size - 1 = q / m.sb.blkSize by omega, zeroRange, if_neg, bytesOf]
        -- `q` lies in the last block, before the end
        have h1 := Nat.div_add_mod q m.sb.blkSize
        have h2 := Nat.div_add_mod size m.sb.blkSize
        rw [show size / m.sb.blkSize = q / m.sb.blkSize by omega] at h2
        omega
      · rw [if_neg hin]
    · -- and here behind it
      have hdiv : q / m.sb.blkSize = size / m.sb.blkSize := by
        have h1 := Nat.div_le_div_right (c := m.sb.blkSize) hq
        have h2 := (Nat.div_lt_iff_lt_mul hB).mpr hql
        omega
      rw [hF.bytes h (by omega) (by omega), if_pos (by omega), zeroRange, if_pos]
      have h1 := Nat.div_add_mod q m.sb.blkSize
      have h2 := Nat.div_add_mod size m.sb.blkSize
      rw [← hdiv] at h2
      exact ⟨by omega, Nat.mod_lt _ hB⟩
  · rw [if_neg hc]
    refine Ensures.pure ⟨rfl, ⟨0, fun _ _ => 0, ⟨rfl, rfl, rfl, by simp, fun _ _ => rfl⟩, by omega⟩, fun _ _ => rfl, fun q hq hql => ?_⟩
    -- a size with bytes behind it in its last block is not a multiple of the block size
    have hlast := lt_of_le_of_lt (Nat.div_le_div_right (c := m.sb.blkSize) hq) ((Nat.div_lt_iff_lt_mul hB).mpr hql)
    have hmod := (div_lt_blocksFor hB).mp hlast
    exact absurd ⟨Nat.pos_of_ne_zero fun h0 => hmod (by rw [h0, Nat.zero_mod]), hmod, lt_of_le_of_lt (Nat.zero_le _) hlast⟩ hc

/-- The blocks of a file from `keep` on are given back. When the shorter list finds no room, nothing but the content
of those blocks has changed. -/
theorem ensures_dropTail (m : Mount) (h : Wf m.sb V G) (hi : V.ibit i = true) (keep : Nat) :
    m.Ensures (onlyIf (keep < (V.inode i).iNrBlocks.toNat)
      (freeDataBlock m.sb i keep ((V.inode i).iNrBlocks.toNat - keep))) V (fun r W =>
      if keep < (G.data i).length ∧ ¬ m.sb.canRelist V ((G.data i).length - keep) keep then
        r = .error .enospc ∧ Frame m.sb [i] V W G G ∧ W.ibit = V.ibit ∧ W.inode = V.inode ∧
          (∀ b ∈ (G.data i).take keep, W.blk b = V.blk b) ∧
          ∀ b ∈ (G.data i).drop keep, m.env.MayDrop (V.blk b) (W.blk b)
      else r = .ok () ∧ ∃ H, Frame m.sb [i] V W G H ∧ W.ibit = V.ibit ∧ H.data i = (G.data i).take keep ∧
        ((G.data i = [] → G.nodes i = []) → H.data i = [] → H.nodes i = []) ∧
        SameAttrs (V.inode i) (W.inode i) ∧ (W.inode i).iSize = (V.inode i).iSize ∧
        ∀ b ∈ H.data i, W.blk b = V.blk b) := by
  have hmax := h.max i
  simp only [maxFileDataBlocks] at hmax
  rw [h.nr i hi, onlyIf]
  by_cases hlt : keep < (G.data i).length
  · rw [if_pos hlt]
    refine (m.ensures_freeDataBlock_exact h (h.range i hi) hi (by omega) hlt (by omega)).mono fun r W hr => ?_
    have hkept : keptBlocks (G.data i) keep ((G.data i).length - keep) = (G.data i).take keep :=
      keptBlocks_tail (by omega)
    have hrel : releasedBlocks (G.data i) keep ((G.data i).length - keep) = (G.data i).drop keep := by
      rw [releasedBlocks, Nat.min_self, List.take_of_length_le (by rw [List.length_drop])]
    have hmem : ∀ b ∈ (G.data i).drop keep, b ∈ G.data i := fun b hb => List.mem_of_mem_drop hb
    have hdisj : ∀ b ∈ (G.data i).take keep, b ∉ (G.data i).drop keep := fun b hb hd => by
      have := h.data_nodup i
      rw [← List.take_append_drop keep (G.data i), List.nodup_append] at this
      exact this.2.2 b hb b hd rfl
    rw [hkept, hrel, List.length_take_of_le hlt.le, List.length_drop] at hr
    by_cases hroom : m.sb.canRelist V ((G.data i).length - keep) keep
    · rw [if_pos hroom] at hr
      obtain ⟨rfl, H, hR, hH, hslim⟩ := hr
      rw [if_neg fun hc => hc.2 hroom]
      refine ⟨rfl, H, hR.frame h hmem, hR.ibit, hH, fun _ he => hslim (hH ▸ he), hR.attrs.1, hR.attrs.2, fun b hb => ?_⟩
      have hb' : b ∈ (G.data i).take keep := hH ▸ hb
      exact hR.blk b (fun hn => h.node_ne_data hn (List.mem_of_mem_take hb') rfl)
        (fun hn => hR.wf.node_ne_data hn hb rfl) (hdisj b hb')
    · rw [if_neg hroom] at hr
      obtain ⟨rfl, hin, hib, hdb, hblk, hdrop⟩ := hr
      rw [if_pos ⟨hlt, hroom⟩]
      have hout : ∀ b, b ∉ G.data i → W.blk b = V.blk b := fun b hb => hblk b fun hr => hb (hmem b hr)
      refine ⟨rfl, ⟨h.congr hin hib hdb fun j b hb => hout b fun hd => h.node_ne_data hb hd rfl,
        fun j hj => ?_⟩, hib, hin, fun b hb => hblk b (hdisj b hb), hdrop⟩
      have hji : j ≠ i := by simpa using hj
      exact ⟨congrFun hib j, congrFun hin j, rfl, rfl, fun b hb => hout b fun hd =>
        h.owned_ne hji (h.mem_data hb) (h.mem_data hd) rfl⟩
  · rw [if_neg hlt]
    refine Ensures.pure ?_
    rw [if_neg fun hc => hlt hc.1]
    refine ⟨rfl, G, Frame.refl h _, rfl, ?_, fun hG => hG, SameAttrs.refl _, rfl, fun _ _ => rfl⟩
    rw [List.take_of_length_le (by omega)]

theorem ensures_shrinkInode_exact (m : Mount) (h : Wf m.sb V G) (hi : V.ibit i = true)
    (hs : (G.data i).length = m.sb.blocksFor (V.inode i).iSize.toNat) {len : Nat} (hlen : len < (V.inode i).iSize.toNat) :
    m.Ensures (shrinkInode m.sb i (V.inode i) len) V (fun r W =>
      if ShrinkStuck m.sb V G i len then r = .error .enospc ∧ Unshrunk m V W G i len
      else r = .ok () ∧ ∃ H, Resized m.sb V W G H i len) := by
  have hB := m.ok.blk_pos
  have hmono : m.sb.blocksFor len ≤ (G.data i).length := hs ▸ blocksFor_mono hB (by omega)
  have hmax := h.max i
  have hlt32 := (V.inode i).iSize.toNat_lt
  have hkeep : (if len = 0 then 0 else ceilBlks m.sb len) = m.sb.blocksFor len := by
    split
    · subst len
      exact (Nat.le_zero.mp ((blocksFor_le_iff hB).mpr (by omega))).symm
    · exact m.ceilBlks_eq (hmono.trans hmax)
  rw [shrinkInode]
  simp only [hkeep]
  refine Ensures.bind_ok (m.ensures_clearTail (h.fileAt hi) hmono) fun V₁ hV₁ => ?_
  obtain ⟨⟨n, buf, hF, hn⟩, hb₁, hz₁⟩ := hV₁
  have hfr₁ := hF.frame h (hn.trans hmono)
  have hi₁ : V₁.ibit i = true := by rw [hF.ibit]; exact hi
  have hin₁ : V₁.inode i = V.inode i := congrFun hF.inode i
  have hroom (a b : Nat) : m.sb.canRelist V₁ a b ↔ m.sb.canRelist V a b := by
    rw [Superblock.canRelist, Superblock.canRelist, freeData_congr hF.dbit]
  rw [← hin₁]
  refine Ensures.seq ((m.ensures_dropTail hfr₁.wf hi₁ (m.sb.blocksFor len)).mono fun r V₂ h₂ => ?_)
  simp only [hroom] at h₂
  by_cases hstuck : ShrinkStuck m.sb V G i len
  · rw [if_pos (And.intro hstuck.1 hstuck.2)] at h₂
    obtain ⟨rfl, hfr₂, hib₂, hin₂, htake, hdrop⟩ := h₂
    have hhead {q : Nat} (hq : q < m.sb.blocksFor len * m.sb.blkSize) :
        bytesOf m.sb.blkSize V₂.blk (G.data i) q = bytesOf m.sb.blkSize V₁.blk (G.data i) q := by
      have hq' : q / m.sb.blkSize < ((G.data i).take (m.sb.blocksFor len)).length := by
        rw [List.length_take_of_le hmono]
        exact (Nat.div_lt_iff_lt_mul hB).mpr hq
      rw [← bytesOf_take hq', ← bytesOf_take hq', bytesOf_congr htake hq']
    rw [After, if_pos hstuck]
    refine ⟨rfl, hfr₁.trans hfr₂, hib₂.trans hF.ibit, hin₂.trans hF.inode, fun q hq => ?_, fun q hq hql => ?_, fun b hb => ?_⟩
    · rw [hhead (lt_of_lt_of_le hq ((blocksFor_le_iff hB).mp (Nat.le_refl _))), hb₁ q hq]
    · rw [hhead hql, hz₁ q hq hql]
    · have hsame : V₁.blk b = V.blk b := hF.outside b fun j hj he => by
        have hlt : m.sb.blocksFor len - 1 + j < m.sb.blocksFor len := by omega
        have hmem : b ∈ (G.data i).take (m.sb.blocksFor len) := by
          rw [he, List.getD_eq_getElem _ _ (by omega)]
          exact List.mem_take_iff_getElem.mpr ⟨_, by omega, rfl⟩
        have hnd := h.data_nodup i
        rw [← List.take_append_drop (m.sb.blocksFor len) (G.data i), List.nodup_append] at hnd
        exact hnd.2.2 b hmem b hb rfl
      rw [← hsame]
      exact hdrop b hb
  · rw [if_neg fun hc : _ ∧ _ => hstuck hc] at h₂
    obtain ⟨rfl, H, hfr₂, hib₂, hH, hslim, hattrs, hsz, hblk₂⟩ := h₂
    have hi₂ : V₂.ibit i = true := by rw [hib₂]; exact hi₁
    refine Ensures.bind_reads (m.reads_mofsReadInode V₂ (hfr₂.wf.range i hi₂)) ?_
    refine m.ensures_setSize (hfr₂.wf.range i hi₂) fun t => ?_
    rw [if_neg hstuck]
    refine ⟨rfl, H, ?_⟩
    have hfr₃ := (hfr₁.trans hfr₂).trans (Frame.setInode hfr₂.wf (i := i)
      (x := Inode.stamp { V₂.inode i with iSize := .ofNat len } (timeMtime ||| timeCtime) t) rfl rfl)
    have hHlen : (H.data i).length = m.sb.blocksFor len := by rw [hH, List.length_take]; omega
    refine ⟨hfr₃, hib₂.trans hF.ibit, hHlen, hslim, ?_, ?_, fun q hq => ?_⟩
    · simp only [View.setInode, Function.update_self, Inode.stamp]
      exact Nat.mod_eq_of_lt (by omega)
    · rw [hin₁] at hattrs
      simp only [View.setInode, Function.update_self]
      exact ⟨hattrs.links, hattrs.mode, hattrs.uid, hattrs.gid⟩
    · have hq' : q / m.sb.blkSize < (H.data i).length := by rw [hHlen]; exact div_lt_of_lt hB hq
      rw [if_pos (by omega), ← hb₁ q hq]
      change bytesOf m.sb.blkSize V₂.blk (H.data i) q = _
      rw [bytesOf_congr hblk₂ hq', hH]
      exact bytesOf_take (by rw [← hH]; exact hq')

/-- The zero fill of a growing truncate, once the file has its blocks. -/
theorem ensures_zeroFileByteRange (m : Mount) (h : FileAt m.sb V i ns ds) {len : Nat}
    (hlt : (V.inode i).iSize.toNat < len) (hs : m.sb.blocksFor (V.inode i).iSize.toNat ≤ ds.length)
    (hroom : m.sb.blocksFor len ≤ ds.length) :
    m.Ensures (zeroFileByteRange m.sb i (V.inode i).iSize.toNat len) V (fun r W => r = .ok () ∧
      (∃ start n buf, Filled V W ds start n buf ∧ start + n ≤ ds.length) ∧
      ∀ q < len, bytesOf m.sb.blkSize W.blk ds q =
        if q < (V.inode i).iSize.toNat then bytesOf m.sb.blkSize V.blk ds q else 0) := by
  have hB := m.ok.blk_pos
  have hmax := h.max
  simp only [maxFileDataBlocks] at hmax
  have hdle : (V.inode i).iSize.toNat / m.sb.blkSize ≤ (len - 1) / m.sb.blkSize := Nat.div_le_div_right (by omega)
  have hlast : (len - 1) / m.sb.blkSize + 1 = m.sb.blocksFor len := by
    rw [Superblock.blocksFor, show len + m.sb.blkSize - 1 = len - 1 + m.sb.blkSize by omega, Nat.add_div_right _ hB]
  rw [zeroFileByteRange, if_neg (by omega)]
  refine Ensures.bind_reads (m.reads_mofsReadInode V h.range) ?_
  simp only [m.ceilBlks_eq (hs.trans h.max)]
  generalize hsz : (V.inode i).iSize.toNat = s at *
  generalize hreq : (len - 1) / m.sb.blkSize - s / m.sb.blkSize + 1 = req
  have hpre : m.Reads (preloadBlocks m.sb readOrEio i (s / m.sb.blkSize) (m.sb.blocksFor s) req 0 (fun _ => 0)) V _ :=
    m.reads_preloadBlocks h (fun b hb => m.reads_readOrEio V hb) hs (by omega)
  refine Ensures.bind_reads hpre ?_
  refine Ensures.bind_ok (m.ensures_writeFileDataBlock h (by omega) (by omega)) fun W hF => ?_
  refine Ensures.pure ⟨rfl, ⟨_, _, _, hF, by omega⟩, fun q hq => ?_⟩
  have hql := div_lt_of_lt hB hq
  rw [hF.bytes h (by omega) (by omega)]
  by_cases hin : s / m.sb.blkSize ≤ q / m.sb.blkSize ∧ q / m.sb.blkSize < s / m.sb.blkSize + req
  · obtain ⟨hpos, -, -⟩ := block_position hB hin.1
    rw [if_pos hin, blockAt, if_pos (Nat.mod_lt q hB), zeroRange_shift, hpos]
    by_cases hqs : q < s
    · rw [if_neg (by omega), if_pos hqs, Nat.zero_add, preloaded_at hB hin.1 hin.2,
        if_neg (by have := div_lt_of_lt hB hqs; omega)]
    · rw [if_pos (by omega), if_neg hqs]
  · have hqs : q < s := by
      by_contra hge
      exact hin ⟨Nat.div_le_div_right (by omega), by omega⟩
    rw [if_neg hin, if_pos hqs]

theorem ensures_growInode (m : Mount) (h : Wf m.sb V G) (hi : V.ibit i = true)
    (hs : (G.data i).length = m.sb.blocksFor (V.inode i).iSize.toNat) {len : Nat} (hlen : (V.inode i).iSize.toNat < len)
    (hmax : len ≤ mofsMaxFileBytes m.sb) :
    m.Ensures (growInode m.sb i (V.inode i) len) V (fun r W =>
      if (G.data i).length < m.sb.blocksFor len ∧
        ¬ m.sb.canGrow V (G.data i).length (m.sb.blocksFor len - (G.data i).length) then
        r = .error .enospc ∧ W = V
      else r = .ok () ∧ ∃ H, Resized m.sb V W G H i len) := by
  have hB := m.ok.blk_pos
  have hneed := m.blocksFor_le_max hmax
  have hle : mofsMaxFileBytes m.sb ≤ 1024 * 65536 := Nat.mul_le_mul_left 1024 m.ok.blk_le
  rw [growInode]
  simp only [h.nr i hi, m.ceilBlks_eq hneed]
  refine Ensures.bind (m.ensures_extend h hi hneed) (fun _ V₁ h1 => ?_) (fun e W he => ?_)
  swap
  · split at he
    · obtain ⟨he, rfl⟩ := he
      cases he
      rw [if_pos ‹_›]
      exact ⟨rfl, rfl⟩
    · exact absurd he.1 (by simp)
  split at h1
  · exact absurd h1.1 (by simp)
  rename_i hroom
  obtain ⟨-, hsame, H, hR, hHd⟩ := h1
  have hib : V₁.ibit i = true := by rw [hR.ibit]; exact hi
  have hfile := hR.wf.fileAt hib
  obtain ⟨hattrs, hsz⟩ := hR.attrs
  have hmono : (G.data i).length ≤ m.sb.blocksFor len := hs ▸ blocksFor_mono hB (by omega)
  have hlenH : (H.data i).length = m.sb.blocksFor len := by
    rw [hHd, List.length_append, length_abs, List.length_take]
    by_cases hlt : (G.data i).length < m.sb.blocksFor len
    · have hc : m.sb.canGrow V (G.data i).length (m.sb.blocksFor len - (G.data i).length) :=
        not_not.mp fun hc => hroom ⟨hlt, hc⟩
      have := hc.2
      omega
    · omega
  have hinode : m.Reads (if (G.data i).length < m.sb.blocksFor len then mofsReadInode m.sb i
      else pure (V.inode i) : M Inode) V₁ (.ok (V₁.inode i)) := by
    by_cases hlt : (G.data i).length < m.sb.blocksFor len
    · rw [if_pos hlt]
      exact m.reads_mofsReadInode V₁ hfile.range
    · rw [if_neg hlt, hsame (by omega)]
      exact Reads.pure _
  have hsz' : (V₁.inode i).iSize.toNat = (V.inode i).iSize.toNat := by rw [hsz]
  have hextend : m.Ensures (do
      let x ← (if (G.data i).length < m.sb.blocksFor len then mofsReadInode m.sb i else pure (V.inode i) : M Inode)
      zeroFileByteRange m.sb i (V.inode i).iSize.toNat len
      setSize m.sb i x len) V₁ (fun r W => r = .ok () ∧ Resized m.sb V W G H i len) := by
    refine Ensures.bind_reads hinode ?_
    rw [← hsz']
    refine Ensures.bind_ok (m.ensures_zeroFileByteRange hfile (by omega) (by rw [hsz', hlenH, ← hs]; exact hmono)
      (by omega)) fun U hU => ?_
    obtain ⟨⟨start, n, buf, hF, hn⟩, hbytes⟩ := hU
    have hfr := (hR.frame h (by simp)).trans (hF.frame hR.wf hn)
    refine m.ensures_setSize hfile.range fun t => ⟨rfl, ?_⟩
    have hfr' := hfr.trans (Frame.setInode hfr.wf (i := i)
      (x := Inode.stamp { V₁.inode i with iSize := .ofNat len } (timeMtime ||| timeCtime) t) (by rw [hF.inode]; rfl)
      (by rw [hF.inode]; rfl))
    have hpos := div_lt_of_lt hB hlen
    refine ⟨hfr', hF.ibit.trans hR.ibit, hlenH, fun _ he => ?_, ?_, ?_, fun q hq => ?_⟩
    · rw [← hlenH, he] at hpos
      exact absurd hpos (Nat.not_lt_zero _)
    · simp only [View.setInode, Function.update_self, Inode.stamp]
      exact Nat.mod_eq_of_lt (by omega)
    · simp only [View.setInode, Function.update_self]
      exact ⟨hattrs.links, hattrs.mode, hattrs.uid, hattrs.gid⟩
    · change bytesOf m.sb.blkSize U.blk (H.data i) q = _
      rw [hbytes q hq, hsz']
      by_cases hqs : q < (V.inode i).iSize.toNat
      · rw [if_pos hqs, if_pos hqs, bytesOf_congr (fun b hb => hR.blk_data h hHd hb) (by
          rw [hlenH]; exact div_lt_of_lt hB hq), hHd]
        exact bytesOf_append (by rw [hs]; exact div_lt_of_lt hB hqs)
      · rw [if_neg hqs, if_neg hqs]
  refine Ensures.bind_ok hextend.attempt_eq fun W hW => Ensures.pure ?_
  rw [if_neg hroom]
  exact ⟨rfl, H, hW⟩

theorem ensures_mofsTruncateCore_exact (m : Mount) (h : Wf m.sb V G) (hi : V.ibit i = true)
    (hs : (V.inode i).isDir = false → (G.data i).length = m.sb.blocksFor (V.inode i).iSize.toNat) (user : User)
    (length : Int) :
    m.Ensures (mofsTruncateCore m.sb user i length) V (fun r W =>
      (¬ MayTruncate m.sb user (V.inode i) length ∧ (∃ e, r = .error e) ∧ W = V) ∨
      (MayTruncate m.sb user (V.inode i) length ∧ TruncateStuck m.sb V G i length.toNat ∧ r = .error .enospc ∧
        if length.toNat < (V.inode i).iSize.toNat then Unshrunk m V W G i length.toNat else W = V) ∨
      (MayTruncate m.sb user (V.inode i) length ∧ ¬ TruncateStuck m.sb V G i length.toNat ∧ r = .ok () ∧
        ∃ H, Resized m.sb V W G H i length.toNat)) := by
  have hlt := h.range i hi
  rw [mofsTruncateCore, if_neg (m.not_isNeg' hlt)]
  by_cases h1 : length < 0
  · rw [if_pos h1]
    exact Ensures.throw (.inl ⟨fun hM => by have := hM.pos; omega, ⟨_, rfl⟩, rfl⟩)
  rw [if_neg h1]
  by_cases h2 : (mofsMaxFileBytes m.sb : Int) < length
  · rw [if_pos h2]
    exact Ensures.throw (.inl ⟨fun hM => by have := hM.max; omega, ⟨_, rfl⟩, rfl⟩)
  rw [if_neg h2, truncateInode]
  refine Ensures.bind_reads (m.reads_mofsReadInode V hlt) ?_
  cases h3 : (V.inode i).isDir with
  | true => exact Ensures.throw (.inl ⟨fun hM => by have := hM.file; simp [h3] at this, ⟨_, rfl⟩, rfl⟩)
  | false =>
    have hs := hs h3
    simp only [Bool.false_eq_true, if_false]
    have hnodir {α : Type} (k : M α) : (if (V.inode i).isDir then throw .eisdir else k) = k := by simp [h3]
    rw [← hnodir (if length.toNat = (V.inode i).iSize.toNat then pure ()
      else if length.toNat < (V.inode i).iSize.toNat then shrinkInode m.sb i (V.inode i) length.toNat
      else growInode m.sb i (V.inode i) length.toNat)]
    refine m.ensures_access (fun e he => .inl ⟨fun hM => (nomatch hM.access.symm.trans he), ⟨_, rfl⟩, rfl⟩)
      fun hacc => ?_
    have hM : MayTruncate m.sb user (V.inode i) length := ⟨by omega, by omega, h3, hacc⟩
    by_cases heq : length.toNat = (V.inode i).iSize.toNat
    · rw [if_pos heq]
      refine Ensures.pure (.inr (.inr ⟨hM, ?_, rfl, G, Frame.refl h _, rfl, by rw [hs, heq], fun hG => hG, heq.symm,
        SameAttrs.refl _, fun q hq => ?_⟩))
      · rw [TruncateStuck, if_neg (by omega), heq, hs]
        exact fun hc => absurd hc.1 (Nat.lt_irrefl _)
      · rw [if_pos (by omega)]
    rw [if_neg heq]
    by_cases hsh : length.toNat < (V.inode i).iSize.toNat
    · rw [if_pos hsh]
      refine (m.ensures_shrinkInode_exact h hi hs hsh).mono fun r W hr => ?_
      simp only [TruncateStuck, if_pos hsh]
      split at hr
      next hstuck => exact .inr (.inl ⟨hM, hstuck, hr.1, hr.2⟩)
      next hroom => exact .inr (.inr ⟨hM, hroom, hr.1, hr.2⟩)
    · rw [if_neg hsh]
      refine (m.ensures_growInode h hi hs (by omega) (by omega)).mono fun r W hr => ?_
      simp only [TruncateStuck, if_neg hsh]
      split at hr
      next hstuck => exact .inr (.inl ⟨hM, hstuck, hr.1, hr.2⟩)
      next hroom => exact .inr (.inr ⟨hM, hroom, hr.1, hr.2⟩)

/-- A truncate resizes the file or fails; a failure of one that does not shrink has changed nothing, and one that does
may have changed bytes of this file only. -/
theorem ensures_mofsTruncateCore (m : Mount) (h : Wf m.sb V G) (hi : V.ibit i = true)
    (hs : (V.inode i).isDir = false → (G.data i).length = m.sb.blocksFor (V.inode i).iSize.toNat) (user : User)
    (length : Int) :
    m.Ensures (mofsTruncateCore m.sb user i length) V (fun r W =>
      (r = .ok () ∧ 0 ≤ length ∧ (V.inode i).isDir = false ∧ accessCheck oflagWronly user (V.inode i) = .ok () ∧
        ∃ H, Resized m.sb V W G H i length.toNat) ∨
      ∃ e, r = .error e ∧ (W = V ∨ 0 ≤ length ∧ (V.inode i).isDir = false ∧ length.toNat < (V.inode i).iSize.toNat ∧
        Frame m.sb [i] V W G G ∧ W.ibit = V.ibit ∧ W.inode = V.inode)) := by
  refine (m.ensures_mofsTruncateCore_exact h hi hs user length).mono fun r W hr => ?_
  rcases hr with ⟨-, ⟨e, rfl⟩, hW⟩ | ⟨hM, -, rfl, hW⟩ | ⟨hM, -, rfl, hR⟩
  · exact .inr ⟨e, rfl, .inl hW⟩
  · refine .inr ⟨_, rfl, ?_⟩
    split at hW
    next hsh => exact .inr ⟨hM.pos, hM.file, hsh, hW.frame, hW.ibit, hW.inode⟩
    next => exact .inl hW
  · exact .inl ⟨rfl, hM.pos, hM.file, hM.access, hR⟩

end Mount

end Mofs
