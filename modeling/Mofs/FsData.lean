import Mofs.FsMove

namespace Mofs

open Effect Bytes Slots

variable {sb : Superblock} {m : Mount} {V W : View} {G H : Owners} {T : Nat → List Slot} {up : Nat → Nat} {user : User}
  {i size : Nat} {offset length : Int} {hd : FileHandle} {data : List UInt8}

section Contents

theorem Fs.setBytes_self {fs : Fs} (hi : (fs i).isSome) (hd : fs.isDir i = false) : fs.setBytes i (fs.bytes i) = fs := by
  rw [setBytes, modify, bytes]
  cases ho : fs i with
  | none =>
    rw [ho] at hi
    cases hi
  | some o =>
    obtain ⟨a, body⟩ := o
    cases body with
    | file bytes => exact Function.update_eq_self_iff.mpr ho.symm
    | dir names =>
      rw [Fs.isDir, ho] at hd
      cases hd

/-- A call on the contents of file `i`. -/
theorem Ungrown.of_file (h : Ungrown sb V G T up) (hok : sb.Ok) (hF : Frame sb [i] V W G H) (hib : W.ibit = V.ibit)
    (hi : V.ibit i = true) (hd : (V.inode i).isDir = false) (hattrs : SameAttrs (V.inode i) (W.inode i))
    (hsized : (W.inode i).iNrBlocks.toNat = sb.blocksFor (W.inode i).iSize.toNat) (hslim : H.data i = [] → H.nodes i = []) :
    HoldsFs sb W fun fs' => fs' = (fsOf sb V G T up).setBytes i (fileBytes sb W H i) := by
  have hvol := h.vol.of_file hok hF hib hi hd hattrs hsized hslim
  refine ⟨H, T, up, h.of_sizes hvol fun j hj => ?_, ?_⟩
  · by_cases hji : j = i
    · rw [hji, hattrs.isDir, hd] at hj
      cases hj
    · rw [(hF.same j (by simpa using hji)).inode] at hj ⊢
      exact ⟨hj, rfl⟩
  · funext D
    rw [Fs.setBytes, Fs.modify]
    by_cases hD : D = i
    · subst hD
      rw [Function.update_self]
      exact fsOf_fill hi (by rw [hib]; exact hi) hd hattrs.samePerm
    · rw [Function.update_of_ne hD]
      exact fsOf_congr hok.blk_pos h.vol (hF.same D (by simpa using hD)) fun _ => rfl

theorem Ungrown.stamp (h : Ungrown sb V G T up) (hok : sb.Ok) (hi : V.ibit i = true) (hd : (V.inode i).isDir = false)
    (mask : Nat) (t : UInt64) :
    HoldsFs sb (V.setInode i ((V.inode i).stamp mask t)) fun fs' => fs' = fsOf sb V G T up := by
  have hx : (V.setInode i ((V.inode i).stamp mask t)).inode i = (V.inode i).stamp mask t := Function.update_self _ _ _
  have hsame : fileBytes sb (V.setInode i ((V.inode i).stamp mask t)) G i = fileBytes sb V G i := by
    rw [fileBytes, hx]
    rfl
  have hfile := h.of_file hok (W := V.setInode i ((V.inode i).stamp mask t)) (Frame.setInode h.vol.wf rfl rfl) rfl hi hd
    (by rw [hx]; exact ⟨rfl, rfl, rfl, rfl⟩) (by rw [hx]; exact (h.vol.node i).sized hi hd) (h.vol.node i).slim
  refine hfile.mono fun fs' hfs => ?_
  have hbytes : (fsOf sb V G T up).bytes i = fileBytes sb V G i := fs_bytes hi hd
  rw [hfs, hsame, ← hbytes]
  exact Fs.setBytes_self (by rw [fsOf_isSome]; exact hi) (by rw [h.vol.fs_isDir]; exact hd)

/-- What a write leaves of a file: outside the data everything that was there before. -/
theorem WrittenAt.overwrites {off : Nat} (hB : 0 < sb.blkSize) (h : WrittenAt sb V W G H i off data)
    (hs : (G.data i).length = sb.blocksFor (V.inode i).iSize.toNat) :
    Overwrites (Mofs.fileBytes sb V G i) off data (Mofs.fileBytes sb W H i) := by
  have hbyte {k : Nat} (hk : k < (W.inode i).iSize.toNat) : (Mofs.fileBytes sb W H i)[k]? =
      some (afterWrite sb (V.inode i).iSize.toNat off data (bytesOf sb.blkSize V.blk (H.data i)) k) := by
    have hkl : k / sb.blkSize < (H.data i).length := by
      rw [h.length hB hs]
      exact div_lt_of_lt hB hk
    rw [List.getElem?_eq_getElem (by rw [length_fileBytes]; exact hk), ← h.bytes k hkl]
    simp only [Mofs.fileBytes, getElem_slice, Nat.zero_add]
  have hsize := h.size
  refine ⟨by rw [length_fileBytes, length_fileBytes, hsize], fun k hk hout => ?_, fun k hk => ?_⟩
  · rw [length_fileBytes] at hk
    have hcur := div_lt_of_lt hB hk
    have hold : bytesOf sb.blkSize V.blk (H.data i) k = bytesOf sb.blkSize V.blk (G.data i) k := by
      rw [h.blocks]
      exact bytesOf_append (by rw [hs]; exact hcur)
    rw [hbyte (by omega), afterWrite, if_neg (by omega), if_neg (by omega), hold,
      List.getElem?_eq_getElem (by rw [length_fileBytes]; exact hk)]
    simp only [Mofs.fileBytes, getElem_slice, Nat.zero_add]
  · rw [hbyte (by omega), afterWrite, if_pos (by omega), Nat.add_sub_cancel_left, List.getD_eq_getElem _ _ hk,
      List.getElem?_eq_getElem hk]

theorem WrittenAt.fs {off : Nat} (h : Ungrown sb V G T up) (hok : sb.Ok) (hW : WrittenAt sb V W G H i off data)
    (hi : V.ibit i = true) (hd : (V.inode i).isDir = false) (hdata : 0 < data.length) :
    HoldsFs sb W fun fs' => ∃ new, Overwrites ((fsOf sb V G T up).bytes i) off data new ∧
      fs' = (fsOf sb V G T up).setBytes i new := by
  have hB := hok.blk_pos
  have hlen := h.vol.filesOk.length hi hd
  have hsized : (W.inode i).iNrBlocks.toNat = sb.blocksFor (W.inode i).iSize.toNat := by
    rw [hW.frame.wf.nr i (by rw [hW.ibit]; exact hi), hW.length hB hlen]
  have hslim : H.data i = [] → H.nodes i = [] := fun hnil => by
    have henough := hW.enough
    rw [hnil, List.length_nil, blocksFor_le_iff hB] at henough
    omega
  refine (h.of_file hok hW.frame hW.ibit hi hd hW.attrs hsized hslim).mono fun fs' hfs => ⟨_, ?_, hfs⟩
  rw [fs_bytes hi hd]
  exact hW.overwrites hB hlen

theorem Resized.fs {len : Nat} (h : Ungrown sb V G T up) (hok : sb.Ok) (hR : Resized sb V W G H i len)
    (hi : V.ibit i = true) (hd : (V.inode i).isDir = false) :
    HoldsFs sb W fun fs' => fs' = (fsOf sb V G T up).setBytes i (((fsOf sb V G T up).bytes i).take len ++
      List.replicate (len - ((fsOf sb V G T up).bytes i).length) 0) := by
  have hsized : (W.inode i).iNrBlocks.toNat = sb.blocksFor (W.inode i).iSize.toNat := by
    rw [hR.frame.wf.nr i (by rw [hR.ibit]; exact hi), hR.blocks, hR.size]
  refine (h.of_file hok hR.frame hR.ibit hi hd hR.attrs hsized (hR.slim (h.vol.node i).slim)).mono fun fs' hfs => ?_
  rw [hfs, hR.fileBytes, fs_bytes hi hd]

/-- A truncate that failed on the way has kept the length of the file and the bytes it was to keep. -/
theorem Unshrunk.fs {len : Nat} (h : Ungrown m.sb V G T up) (hU : Unshrunk m V W G i len) (hi : V.ibit i = true)
    (hd : (V.inode i).isDir = false) :
    HoldsFs m.sb W fun fs' => ∃ new : List UInt8, new.length = ((fsOf m.sb V G T up).bytes i).length ∧
      new.take len = ((fsOf m.sb V G T up).bytes i).take len ∧ fs' = (fsOf m.sb V G T up).setBytes i new := by
  have hin : W.inode i = V.inode i := congrFun hU.inode i
  have hattrs : SameAttrs (V.inode i) (W.inode i) := by
    rw [hin]
    exact .refl _
  have hsized : (W.inode i).iNrBlocks.toNat = m.sb.blocksFor (W.inode i).iSize.toNat := by
    rw [hin]
    exact (h.vol.node i).sized hi hd
  refine (h.of_file m.ok hU.frame hU.ibit hi hd hattrs hsized (h.vol.node i).slim).mono fun fs' hfs => ⟨_, ?_, ?_, hfs⟩
  · rw [fs_bytes hi hd, length_fileBytes, length_fileBytes, hin]
  · rw [fs_bytes hi hd]
    apply List.ext_getElem
    · rw [List.length_take, List.length_take, length_fileBytes, length_fileBytes, hin]
    · intro k hk hk'
      rw [List.length_take] at hk
      simp only [List.getElem_take, fileBytes, getElem_slice, Nat.zero_add]
      exact hU.head k (by omega)

end Contents

end Mofs
