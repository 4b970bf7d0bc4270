import Mofs.FileModel

namespace Mofs

open Effect Bytes Linked

variable {sb : Superblock} {V W : View} {G H : Owners} {i : Nat}

/-- What a caller finds again of file `i` after a call that failed: its size, its list of blocks and its bytes. -/
structure FileIntact (sb : Superblock) (V W : View) (G : Owners) (i : Nat) : Prop where
  size : (W.inode i).iSize = (V.inode i).iSize
  list : Chain sb W.blk (W.inode i).iDataHead.toNat (G.nodes i) (G.data i)
  nr : (W.inode i).iNrBlocks = (V.inode i).iNrBlocks
  bytes : ∀ q < (V.inode i).iSize.toNat, bytesOf sb.blkSize W.blk (G.data i) q = bytesOf sb.blkSize V.blk (G.data i) q

theorem FileIntact.refl (h : Wf sb V G) (hi : V.ibit i = true) : FileIntact sb V V G i := ⟨rfl, h.chain i hi, rfl, fun _ _ => rfl⟩

/-- The same volume behind another build: `cached` and `stale` say what dropping a cached copy does. -/
def Mount.build (m : Mount) (cached : Bool) (stale : Nat → Option Block) : Mount where
  sb := m.sb
  env := { m.env with cached, stale }
  ok := m.ok
  serves := ⟨m.serves.blk, m.serves.size⟩

/-- A failed truncate leaves the file intact in every build, if and only if it is not a permitted shrink whose shorter list
finds no room for its nodes. -/
theorem failed_truncate_intact_iff (m : Mount) {d : Disk} (h : FilesOk m.sb (m.sb.view d) G)
    (hi : (m.sb.view d).ibit i = true) (hfile : ((m.sb.view d).inode i).isDir = false) (user : User) (length : Int) :
    (∀ cached stale, ∃ r d', exec { m.env with cached, stale } (mofsTruncateCore m.sb user i length) d = some (r, d') ∧
      ∀ e, r = .error e → FileIntact m.sb (m.sb.view d) (m.sb.view d') G i) ↔
    ¬ (MayTruncate m.sb user ((m.sb.view d).inode i) length ∧ length.toNat < ((m.sb.view d).inode i).iSize.toNat ∧
      ShrinkStuck m.sb (m.sb.view d) G i length.toNat) := by
  have hcall (cached : Bool) (stale : Nat → Option Block) :=
    ((m.build cached stale).ensures_mofsTruncateCore_exact (i := i) h.wf hi (h.length hi) user length).exists rfl
  constructor
  · rintro hall ⟨hM, hsh, hstuck⟩
    have hB := m.ok.blk_pos
    -- the first block that is given back holds a byte of the file; a cache may bring another one back for it
    obtain ⟨b, hb⟩ : ∃ b, (G.data i).getD (m.sb.blocksFor length.toNat) 0 = b := ⟨_, rfl⟩
    obtain ⟨r, d', hexec, hpost⟩ := hcall true fun _ => some fun k => (m.sb.view d).blk b k + 1
    obtain ⟨r', d'', hexec', hintact⟩ := hall true fun _ => some fun k => (m.sb.view d).blk b k + 1
    obtain ⟨rfl, rfl⟩ := Prod.mk.inj (Option.some.inj (hexec.symm.trans hexec'))
    have hstuck' : TruncateStuck m.sb (m.sb.view d) G i length.toNat := by rwa [TruncateStuck, if_pos hsh]
    rcases hpost with ⟨hno, -⟩ | ⟨-, -, rfl, hW⟩ | ⟨-, hno, -⟩
    · exact hno hM
    · have hW : Unshrunk (m.build true _) (m.sb.view d) (m.sb.view d') G i length.toNat := (if_pos hsh).mp hW
      have hmem : b ∈ (G.data i).drop (m.sb.blocksFor length.toNat) := by
        rw [← hb, List.getD_eq_getElem _ _ hstuck.1]
        exact List.mem_drop_iff_getElem.mpr ⟨0, by rw [Nat.zero_add]; exact hstuck.1, by simp⟩
      have hdrop := hW.dropped b hmem
      have hq : m.sb.blocksFor length.toNat * m.sb.blkSize < ((m.sb.view d).inode i).iSize.toNat :=
        (lt_blocksFor_iff hB).mp (h.length hi hfile ▸ hstuck.1)
      have hbyte := (hintact _ rfl).bytes _ hq
      rw [bytesOf, bytesOf, Nat.mul_div_cancel _ hB, Nat.mul_mod_left, hb] at hbyte
      obtain ⟨n, hnew⟩ := hdrop
      have hnew : (m.sb.view d').blk b = fun k => (m.sb.view d).blk b k + 1 := hnew
      rw [hnew] at hbyte
      simp at hbyte
    · exact hno hstuck'
  · intro hno cached stale
    obtain ⟨r, d', hexec, hpost⟩ := hcall cached stale
    refine ⟨r, d', hexec, fun e he => ?_⟩
    rcases hpost with ⟨-, -, hW⟩ | ⟨hM, hstuck, -, hW⟩ | ⟨-, -, hr, -⟩
    · change m.sb.view d' = m.sb.view d at hW
      rw [hW]
      exact FileIntact.refl h.wf hi
    · by_cases hsh : length.toNat < ((m.sb.view d).inode i).iSize.toNat
      · rw [TruncateStuck, if_pos hsh] at hstuck
        exact absurd ⟨hM, hsh, hstuck⟩ hno
      · rw [if_neg hsh] at hW
        change m.sb.view d' = m.sb.view d at hW
        rw [hW]
        exact FileIntact.refl h.wf hi
    · rw [hr] at he
      cases he

/-- A permitted shrink succeeds, with just the blocks of the new size, if and only if the nodes of the shorter list find
room among the free blocks and those given back; otherwise it returns `ENOSPC`. -/
theorem shrink_succeeds_iff (m : Mount) {d : Disk} (h : FilesOk m.sb (m.sb.view d) G)
    (hi : (m.sb.view d).ibit i = true) (hfile : ((m.sb.view d).inode i).isDir = false) {user : User} {length : Int}
    (hacc : accessCheck oflagWronly user ((m.sb.view d).inode i) = .ok ()) (h0 : 0 ≤ length)
    (hlt : length.toNat < ((m.sb.view d).inode i).iSize.toNat) :
    ∃ r d', exec m.env (mofsTruncateCore m.sb user i length) d = some (r, d') ∧
      ((r ≠ .error .enospc ∧ r = .ok () ∧ ((m.sb.view d').inode i).iNrBlocks.toNat = m.sb.blocksFor length.toNat) ↔
        ¬ ShrinkStuck m.sb (m.sb.view d) G i length.toNat) ∧
      (ShrinkStuck m.sb (m.sb.view d) G i length.toNat → r = .error .enospc) := by
  obtain ⟨r, d', hexec, hpost⟩ := (m.ensures_mofsTruncateCore_exact h.wf hi (h.length hi) user length).exists rfl
  have hB := m.ok.blk_pos
  have hsize : ((m.sb.view d).inode i).iSize.toNat ≤ mofsMaxFileBytes m.sb := by
    have := (blocksFor_le_iff hB).mp (Nat.le_of_eq (h.length hi hfile).symm)
    exact this.trans (Nat.mul_le_mul_right _ (h.wf.max i))
  have hM : MayTruncate m.sb user ((m.sb.view d).inode i) length := ⟨h0, by omega, hfile, hacc⟩
  refine ⟨r, d', hexec, ?_⟩
  rw [TruncateStuck, if_pos hlt] at hpost
  rcases hpost with ⟨hno, -⟩ | ⟨-, hstuck, rfl, -⟩ | ⟨-, hroom, rfl, H, hR⟩
  · exact absurd hM hno
  · exact ⟨⟨fun hr => absurd rfl hr.1, fun hno => absurd hstuck hno⟩, fun _ => rfl⟩
  · refine ⟨⟨fun _ => hroom, fun _ => ⟨by simp, rfl, ?_⟩⟩, fun hs => absurd hs hroom⟩
    rw [hR.frame.wf.nr i (by rw [hR.ibit]; exact hi), hR.blocks]

section Full

/-- The nodes of a chain hold at most `listPtrsCap` pointers each. -/
theorem Chain.length_le {blk : Nat → Block} {head : Nat} {ns ds : List Nat} (h : Chain sb blk head ns ds) :
    ds.length ≤ ns.length * listPtrsCap sb := by
  induction ns generalizing head ds with
  | nil =>
    cases h.links
    exact Nat.zero_le _
  | cons b ns ih =>
    obtain ⟨-, -, hcap, ds', rfl, h'⟩ := Chain.cons_iff.mp h
    have := ih h'
    rw [List.length_append, length_nodePtrs, List.length_cons, Nat.add_mul]
    omega

def fullData : List UInt8 := List.replicate 65536 120

theorem length_fullData : fullData.length = 65536 := List.length_replicate

/-- A volume of 140 blocks that one file of 128 blocks, with its two list nodes, has filled. -/
structure FullFile (m : Mount) (d : Disk) (G : Owners) : Prop where
  blk : m.sb.blkSize = 512
  ok : FilesOk m.sb (m.sb.view d) G
  ibit : (m.sb.view d).ibit 3 = true
  file : ((m.sb.view d).inode 3).isDir = false
  access : accessCheck oflagWronly fileOwner ((m.sb.view d).inode 3) = .ok ()
  size : ((m.sb.view d).inode 3).iSize.toNat = 65536
  free : m.sb.freeData (m.sb.view d) = []
  bytes : ∀ q < 65536, bytesOf 512 (m.sb.view d).blk (G.data 3) q = 120

theorem exists_fullFile : ∃ m d G, FullFile m d G := by
  have hne : fullData ≠ [] := List.ne_nil_of_length_eq_add_one (n := 65535) length_fullData
  obtain ⟨m, d, d₁, H, hsb, hinode, hfree, hok, hi₁, hW⟩ :=
    exists_writtenFile (show 8 < 140 by decide) (by decide) (by decide) (by decide) (by decide) hne
      (by rw [length_fullData]; decide) (by rw [length_fullData]; decide)
  have hB : m.sb.blkSize = 512 := by rw [hsb]; rfl
  have hnum : m.sb.dataBlkNum = 132 := by rw [hsb]; decide
  have hattrs : SameAttrs emptyFile ((m.sb.view d₁).inode 3) := hinode ▸ hW.attrs
  have hsize : ((m.sb.view d₁).inode 3).iSize.toNat = 65536 := by
    rw [hW.size, hinode, length_fullData]
    rfl
  have hfile : ((m.sb.view d₁).inode 3).isDir = false := by rw [hattrs.isDir]; rfl
  have hlen : (H.data 3).length = 128 := by rw [hok.length hi₁ hfile, hsize, Superblock.blocksFor, hB]
  have hdata : H.data 3 = m.sb.abs (List.range' 2 128) := by
    have hneed : m.sb.blocksFor (0 + fullData.length) = 128 := by rw [length_fullData, Superblock.blocksFor, hB]
    have hnone : (freshOwners m.sb).data 3 = [] := rfl
    have hblocks := hW.blocks
    rw [hneed, hfree, hnum, hnone] at hblocks
    exact hblocks.trans (congrArg m.sb.abs (by decide +kernel))
  have hroot : (H.nodes rootInodeNum = [m.sb.dataRegionStart + 1]) ∧ H.data rootInodeNum = [m.sb.dataRegionStart] := by
    have hs := hW.frame.same rootInodeNum (by decide)
    exact ⟨hs.nodes, hs.data⟩
  -- the two blocks that are left hold the list nodes
  have hnodes : 2 ≤ (H.nodes 3).length := by
    have := (hW.frame.wf.chain 3 hi₁).length_le
    rw [hlen, show listPtrsCap m.sb = 126 by rw [listPtrsCap, hB]; rfl] at this
    omega
  have hin (b : Nat) (hb : b ∈ H.nodes 3) : b ∈ [m.sb.dataRegionStart + 130, m.sb.dataRegionStart + 131] := by
    obtain ⟨h1, h2⟩ := hW.frame.wf.inData 3 b (hW.frame.wf.mem_nodes hb)
    have hd : b ∉ H.data 3 := fun hd => hW.frame.wf.node_ne_data hb hd rfl
    have hr : b ∉ H.owned rootInodeNum := fun hr =>
      hW.frame.wf.owned_ne (by decide) hr (hW.frame.wf.mem_nodes hb) rfl
    rw [Owners.owned, hroot.1, hroot.2] at hr
    rw [hdata, mem_abs] at hd
    simp only [List.mem_append, List.mem_singleton, not_or] at hr
    have hk : ¬ (2 ≤ b - m.sb.dataRegionStart ∧ b - m.sb.dataRegionStart < 130) := fun hk =>
      hd ⟨b - m.sb.dataRegionStart, List.mem_range'_1.mpr ⟨hk.1, by omega⟩, by omega⟩
    simp only [List.mem_cons, List.not_mem_nil, or_false]
    omega
  have hboth := (List.subperm_of_subset (hW.frame.wf.nodes_nodup 3) hin).perm_of_length_le (by simpa using hnodes)
  refine ⟨m, d₁, H, hB, hok, hi₁, hfile, ?_, hsize, ?_, fun q hq => ?_⟩
  · rw [hattrs.accessCheck]
    rfl
  · rw [Superblock.freeData, List.filter_eq_nil_iff]
    intro k hk
    rw [List.mem_range, hnum] at hk
    have hused : (m.sb.view d₁).dbit k = true := by
      rw [hW.frame.wf.bits k (by omega)]
      by_cases hk2 : k < 2
      · refine ⟨rootInodeNum, ?_⟩
        rw [Owners.owned, hroot.1, hroot.2]
        simp only [List.cons_append, List.nil_append, List.mem_cons, List.not_mem_nil, or_false]
        omega
      · refine ⟨3, ?_⟩
        rw [Owners.owned, List.mem_append, hboth.mem_iff, hdata, add_mem_abs, List.mem_range'_1]
        simp only [List.mem_cons, List.not_mem_nil, or_false]
        omega
    simp [hused]
  · have hq' : q / m.sb.blkSize < (H.data 3).length := by
      rw [hlen, hB]
      omega
    have hbytes := hW.bytes q hq'
    rw [hB] at hbytes
    rw [hbytes, afterWrite, if_pos ⟨Nat.zero_le _, by rw [length_fullData]; omega⟩, fullData,
      List.getD_eq_getElem _ _ (by rw [List.length_replicate]; omega), List.getElem_replicate]

variable {m : Mount} {d : Disk}

/-- One block given back does not make room for the two nodes of a list of 127 blocks. -/
theorem FullFile.stuck (h : FullFile m d G) : ShrinkStuck m.sb (m.sb.view d) G 3 64924 := by
  have hkeep : m.sb.blocksFor 64924 = 127 := by rw [Superblock.blocksFor, h.blk]
  have hlen : (G.data 3).length = 128 := by rw [h.ok.length h.ibit h.file, h.size, Superblock.blocksFor, h.blk]
  have hcap : listPtrsCap m.sb = 126 := by rw [listPtrsCap, h.blk]; rfl
  refine ⟨by omega, ?_⟩
  rw [hkeep, hlen, Superblock.canRelist, h.free, listNodesForBlockCount, hcap]
  decide

theorem FullFile.mayTruncate (h : FullFile m d G) : MayTruncate m.sb fileOwner ((m.sb.view d).inode 3) 64924 := by
  refine ⟨by decide, ?_, h.file, h.access⟩
  rw [mofsMaxFileBytes, h.blk]
  decide

theorem FullFile.fails (h : FullFile m d G) : ∃ d', exec m.env (mofsTruncateCore m.sb fileOwner 3 64924) d =
    some (.error .enospc, d') ∧ Unshrunk m (m.sb.view d) (m.sb.view d') G 3 64924 := by
  obtain ⟨r, d', hexec, hpost⟩ :=
    (m.ensures_mofsTruncateCore_exact h.ok.wf h.ibit (h.ok.length h.ibit) fileOwner 64924).exists rfl
  have hlt : (64924 : Int).toNat < ((m.sb.view d).inode 3).iSize.toNat := by rw [h.size]; decide
  rw [TruncateStuck, if_pos hlt, if_pos hlt] at hpost
  rcases hpost with ⟨hno, -⟩ | ⟨-, -, rfl, hW⟩ | ⟨-, hno, -⟩
  · exact absurd h.mayTruncate hno
  · exact ⟨d', hexec, hW⟩
  · exact absurd h.stuck hno

theorem FullFile.build (h : FullFile m d G) (cached : Bool) (stale : Nat → Option Block) : FullFile (m.build cached stale) d G :=
  ⟨h.blk, h.ok, h.ibit, h.file, h.access, h.size, h.free, h.bytes⟩

/-- On a full volume the owner of a file of 128 blocks asks for 64924 bytes. The call fails and clears byte 64924, without
any cache. -/
theorem failed_truncate_clears : ∃ (m : Mount) (d d' : Disk) (G : Owners), FilesOk m.sb (m.sb.view d) G ∧
    (m.sb.view d).ibit 3 = true ∧ ((m.sb.view d).inode 3).isDir = false ∧ 64924 < ((m.sb.view d).inode 3).iSize.toNat ∧
    exec { m.env with cached := false, stale := fun _ => none } (mofsTruncateCore m.sb fileOwner 3 64924) d =
      some (.error .enospc, d') ∧
    bytesOf m.sb.blkSize (m.sb.view d).blk (G.data 3) 64924 = 120 ∧
    bytesOf m.sb.blkSize (m.sb.view d').blk (G.data 3) 64924 = 0 := by
  obtain ⟨m, d, G, h⟩ := exists_fullFile
  obtain ⟨d', hexec, hW⟩ := (h.build false fun _ => none).fails
  refine ⟨m, d, d', G, h.ok, h.ibit, h.file, by rw [h.size]; decide, hexec, ?_, hW.cleared 64924 (Nat.le_refl _) ?_⟩
  · rw [h.blk]
    exact h.bytes _ (by decide)
  · change 64924 < m.sb.blocksFor 64924 * m.sb.blkSize
    rw [Superblock.blocksFor, h.blk]
    decide

theorem failed_truncate_intact_iff_full : ∃ (m : Mount) (d : Disk) (G : Owners), FilesOk m.sb (m.sb.view d) G ∧
    (m.sb.view d).ibit 3 = true ∧ ((m.sb.view d).inode 3).isDir = false ∧
    ((∀ cached stale, ∃ r d', exec { m.env with cached, stale } (mofsTruncateCore m.sb fileOwner 3 64924) d = some (r, d') ∧
      ∀ e, r = .error e → FileIntact m.sb (m.sb.view d) (m.sb.view d') G 3) ↔
    ¬ (MayTruncate m.sb fileOwner ((m.sb.view d).inode 3) 64924 ∧
      (64924 : Int).toNat < ((m.sb.view d).inode 3).iSize.toNat ∧
      ShrinkStuck m.sb (m.sb.view d) G 3 (64924 : Int).toNat)) := by
  obtain ⟨m, d, G, h⟩ := exists_fullFile
  exact ⟨m, d, G, h.ok, h.ibit, h.file, failed_truncate_intact_iff m h.ok h.ibit h.file fileOwner 64924⟩

/-- The same call needs a block that is not there. -/
theorem shrink_needs_space : ∃ (m : Mount) (d d' : Disk) (G : Owners), FilesOk m.sb (m.sb.view d) G ∧
    (m.sb.view d).ibit 3 = true ∧ ((m.sb.view d).inode 3).isDir = false ∧
    accessCheck oflagWronly fileOwner ((m.sb.view d).inode 3) = .ok () ∧ 64924 < ((m.sb.view d).inode 3).iSize.toNat ∧
    exec m.env (mofsTruncateCore m.sb fileOwner 3 64924) d = some (.error .enospc, d') := by
  obtain ⟨m, d, G, h⟩ := exists_fullFile
  obtain ⟨d', hexec, -⟩ := h.fails
  exact ⟨m, d, d', G, h.ok, h.ibit, h.file, h.access, by rw [h.size]; decide, hexec⟩

/-- To length 0 the file of the full volume can be shrunk. -/
theorem shrink_succeeds_iff_full : ∃ (m : Mount) (d : Disk) (G : Owners), FilesOk m.sb (m.sb.view d) G ∧
    (m.sb.view d).ibit 3 = true ∧ ((m.sb.view d).inode 3).isDir = false ∧
    accessCheck oflagWronly fileOwner ((m.sb.view d).inode 3) = .ok () ∧
    (0 : Int).toNat < ((m.sb.view d).inode 3).iSize.toNat ∧
    ∃ r d', exec m.env (mofsTruncateCore m.sb fileOwner 3 0) d = some (r, d') ∧
      ((r ≠ .error .enospc ∧ r = .ok () ∧ ((m.sb.view d').inode 3).iNrBlocks.toNat = m.sb.blocksFor (0 : Int).toNat) ↔
        ¬ ShrinkStuck m.sb (m.sb.view d) G 3 (0 : Int).toNat) ∧
      (ShrinkStuck m.sb (m.sb.view d) G 3 (0 : Int).toNat → r = .error .enospc) := by
  obtain ⟨m, d, G, h⟩ := exists_fullFile
  have hlt : (0 : Int).toNat < ((m.sb.view d).inode 3).iSize.toNat := by rw [h.size]; decide
  exact ⟨m, d, G, h.ok, h.ibit, h.file, h.access, hlt, shrink_succeeds_iff m h.ok h.ibit h.file h.access (Int.le_refl 0) hlt⟩

end Full

end Mofs
