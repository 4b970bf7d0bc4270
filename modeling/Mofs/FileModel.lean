import Mofs.InodeTable
import Mofs.Start
import Mofs.Truncate

namespace Mofs

open Effect Bytes

variable {sb : Superblock} {V W : View} {G H : Owners} {i : Nat}

/-- A consistent volume in which every regular file has as many blocks as its size takes. -/
structure FilesOk (sb : Superblock) (V : View) (G : Owners) : Prop where
  wf : Wf sb V G
  sized : ∀ i, V.ibit i = true → (V.inode i).isDir = false →
    (V.inode i).iNrBlocks.toNat = sb.blocksFor (V.inode i).iSize.toNat

theorem FilesOk.length (h : FilesOk sb V G) (hi : V.ibit i = true) (hd : (V.inode i).isDir = false) :
    (G.data i).length = sb.blocksFor (V.inode i).iSize.toNat :=
  (h.wf.nr i hi).symm.trans (h.sized i hi hd)

/-- Files as byte arrays, by inode number. -/
abbrev Files := Nat → List UInt8

/-- The volume holds the files `f`. -/
structure Stores (sb : Superblock) (V : View) (G : Owners) (f : Files) : Prop where
  ok : FilesOk sb V G
  bytes : ∀ i, V.ibit i = true → (V.inode i).isDir = false → fileBytes sb V G i = f i

inductive FileOp
  | read (user : User) (h : FileHandle) (size : Nat) (offset : Int) (updateOffset : Bool)
  | write (user : User) (h : FileHandle) (data : List UInt8) (offset : Int) (updateOffset : Bool)
  | truncate (user : User) (i : Nat) (length : Int)

inductive FileRet
  | bytes (bs : List UInt8)
  | count (n : Nat)
  | done
  deriving DecidableEq

namespace FileOp

/-- The inode an operation is about. -/
def inode : FileOp → Nat
  | .read _ h _ _ _ => h.inodeNum
  | .write _ h _ _ _ => h.inodeNum
  | .truncate _ i _ => i

/-- The call of the core, with what it returns. -/
def run (sb : Superblock) : FileOp → M FileRet
  | .read user h size offset upd => do
    let (r, _) ← mofsReadCore sb user h size offset upd
    ofExcept (r.map .bytes)
  | .write user h data offset upd => do
    let (r, _) ← mofsWriteCore sb user h data offset upd
    ofExcept (r.map .count)
  | .truncate user i length => do
    mofsTruncateCore sb user i length
    pure .done

/-- The requests under consideration: on an inode in use, of less than `2^31` bytes, and for a write that it does not
start behind the end of the file. -/
def Proper (V : View) : FileOp → Prop
  | .read _ h size _ _ => V.ibit h.inodeNum = true ∧ size < 2147483648
  | .write _ h data offset _ =>
    V.ibit h.inodeNum = true ∧ data.length < 2147483648 ∧ offset.toNat ≤ (V.inode h.inodeNum).iSize.toNat
  | .truncate _ i _ => V.ibit i = true

/-- The block number of a read offset is passed on in 32 bits. The read is not affected as long as the number fits, or
the block it wraps to lies behind the end of the file as well. -/
def NoWrap (sb : Superblock) (V : View) : FileOp → Prop
  | .read _ h _ offset _ => offset.toNat < 4294967296 * sb.blkSize ∨
      (V.inode h.inodeNum).iSize.toNat ≤ offset.toNat % (4294967296 * sb.blkSize)
  | _ => True

/-- A truncate that was to shrink its file and failed. -/
def FailedShrink (V : View) : FileOp → Except Errno FileRet → Prop
  | .truncate _ i length, .error _ => 0 ≤ length ∧ length.toNat < (V.inode i).iSize.toNat
  | _, _ => False

/-- The byte array model: what an operation with the outcome `r` makes of the files `f`, where `maxBytes` bounds
the length of a file. -/
def Spec (maxBytes : Nat) (f : Files) : FileOp → Except Errno FileRet → Files → Prop
  | .read _ h size offset _, .ok (.bytes bs), f' => bs = ((f h.inodeNum).drop offset.toNat).take size ∧ f' = f
  | .write _ h data offset _, .ok (.count n), f' =>
    n = min data.length (maxBytes - offset.toNat) ∧
    f' = Function.update f h.inodeNum ((f h.inodeNum).take offset.toNat ++ data.take n ++
      (f h.inodeNum).drop (offset.toNat + n))
  | .truncate _ i length, .ok .done, f' =>
    f' = Function.update f i ((f i).take length.toNat ++ List.replicate (length.toNat - (f i).length) 0)
  | _, .error _, f' => f' = f
  | _, .ok _, _ => False

end FileOp

theorem Same.fileBytes {j : Nat} (hB : 0 < sb.blkSize) (h : Same V W G H j)
    (hs : (G.data j).length = sb.blocksFor (V.inode j).iSize.toNat) : fileBytes sb W H j = fileBytes sb V G j := by
  rw [Mofs.fileBytes, Mofs.fileBytes, h.inode]
  refine slice_congr fun q hq => h.bytes ?_
  rw [hs, Nat.zero_add]
  exact div_lt_of_lt hB hq

/-- A write inside or at the end of a file replaces a stretch of its bytes. -/
theorem WrittenAt.fileBytes {off : Nat} {data : List UInt8} (hB : 0 < sb.blkSize) (h : WrittenAt sb V W G H i off data)
    (hs : (G.data i).length = sb.blocksFor (V.inode i).iSize.toNat) (hoff : off ≤ (V.inode i).iSize.toNat) :
    fileBytes sb W H i = (fileBytes sb V G i).take off ++ data ++ (fileBytes sb V G i).drop (off + data.length) := by
  apply List.ext_getElem
  · simp [h.size]
    omega
  · intro q hq hq'
    rw [length_fileBytes, h.size] at hq
    have hql : q / sb.blkSize < (H.data i).length := by
      rw [h.length hB hs, h.size]
      exact div_lt_of_lt hB hq
    simp only [Mofs.fileBytes, getElem_slice, Nat.zero_add]
    rw [h.bytes q hql, afterWrite]
    by_cases hin : off ≤ q ∧ q < off + data.length
    · rw [if_pos hin, List.getElem_append_left (by simp; omega), List.getElem_append_right (by simp; omega),
        List.getD_eq_getElem _ _ (by omega)]
      congr 1
      simp
      omega
    · have hqs : q < (V.inode i).iSize.toNat := by omega
      have hcur := div_lt_of_lt hB hqs
      have hold : bytesOf sb.blkSize V.blk (H.data i) q = bytesOf sb.blkSize V.blk (G.data i) q := by
        rw [h.blocks]
        exact bytesOf_append (by rw [hs]; exact hcur)
      rw [if_neg hin, if_neg (by omega), hold]
      by_cases hlo : q < off
      · rw [List.getElem_append_left (by simp; omega), List.getElem_append_left (by simp; omega)]
        simp
      · rw [List.getElem_append_right (by simp; omega)]
        simp only [List.getElem_drop, getElem_slice, Nat.zero_add]
        congr 1
        simp
        omega

theorem Resized.fileBytes {len : Nat} (h : Resized sb V W G H i len) :
    fileBytes sb W H i = (fileBytes sb V G i).take len ++ List.replicate (len - (fileBytes sb V G i).length) 0 := by
  apply List.ext_getElem
  · simp [h.size]
    omega
  · intro q hq hq'
    rw [length_fileBytes, h.size] at hq
    simp only [Mofs.fileBytes, getElem_slice, Nat.zero_add]
    rw [h.bytes q hq]
    by_cases hqs : q < (V.inode i).iSize.toNat
    · rw [if_pos hqs, List.getElem_append_left (by simp; omega)]
      simp
    · rw [if_neg hqs, List.getElem_append_right (by simp; omega), List.getElem_replicate]

/-- An operation on file `i` alone: the volume stores the new bytes of `i` and all other files as before. -/
theorem Stores.update {f : Files} (h : Stores sb V G f) (hB : 0 < sb.blkSize) (hfr : Frame sb [i] V W G H)
    (hib : W.ibit = V.ibit) (hattrs : SameAttrs (V.inode i) (W.inode i))
    (hlen : (H.data i).length = sb.blocksFor (W.inode i).iSize.toNat) :
    Stores sb W H (Function.update f i (fileBytes sb W H i)) := by
  have hother {j : Nat} (hj : j ≠ i) := hfr.same j (by simpa using hj)
  refine ⟨⟨hfr.wf, fun j hj hd => ?_⟩, fun j hj hd => ?_⟩
  · by_cases hji : j = i
    · subst hji
      rw [hfr.wf.nr j hj, hlen]
    · rw [hib] at hj
      rw [(hother hji).inode] at hd ⊢
      exact h.ok.sized j hj hd
  · by_cases hji : j = i
    · subst hji
      rw [Function.update_self]
    · rw [hib] at hj
      rw [(hother hji).inode] at hd
      rw [Function.update_of_ne hji, (hother hji).fileBytes hB (h.ok.length hj hd), h.bytes j hj hd]

theorem readChecks_ok {user : User} {hd : FileHandle} {size : Nat} {offset : Int} {x : Inode}
    (h : readChecks user hd size offset x = .ok ()) : accessCheck hd.openFlags user x = .ok () := by
  rw [readChecks] at h
  split at h
  · cases h
  · split at h
    · cases h
    · exact h

theorem writeChecks_ok {user : User} {hd : FileHandle} {len : Nat} {offset : Int} {x : Inode}
    (h : writeChecks sb user hd len offset x = .ok ()) :
    accessCheck (hd.openFlags &&& oflagAccmode) user x = .ok () ∧ offset.toNat < mofsMaxFileBytes sb := by
  rw [writeChecks] at h
  split at h
  · cases h
  · split at h
    · cases h
    · split at h
      · cases h
      · split at h
        · cases h
        · exact ⟨by assumption, by omega⟩

/-- A read that does not wrap returns the bytes at its offset. -/
theorem slice_noWrap {user : User} {hd : FileHandle} {size : Nat} {offset : Int} {upd : Bool}
    (hwrap : (FileOp.read user hd size offset upd).NoWrap sb V) :
    slice (bytesOf sb.blkSize V.blk (G.data hd.inodeNum)) (offset.toNat % (4294967296 * sb.blkSize))
      (min size ((V.inode hd.inodeNum).iSize.toNat - offset.toNat % (4294967296 * sb.blkSize))) =
      ((fileBytes sb V G hd.inodeNum).drop offset.toNat).take size := by
  rcases hwrap with hlt | hbehind
  · rw [Nat.mod_eq_of_lt hlt]
    apply List.ext_getElem
    · simp
    · intro q hq hq'
      simp [fileBytes]
  · have hle := Nat.mod_le offset.toNat (4294967296 * sb.blkSize)
    rw [Nat.sub_eq_zero_of_le hbehind, Nat.min_zero, List.drop_of_length_le (by simp; omega), List.take_nil]
    rfl

namespace Mount

variable {m : Mount} {f : Files}

theorem step_read {user : User} {hd : FileHandle} {size : Nat} {offset : Int} {upd : Bool}
    (h : Stores m.sb V G f) (hop : (FileOp.read user hd size offset upd).Proper V)
    (hwrap : (FileOp.read user hd size offset upd).NoWrap m.sb V) :
    m.Ensures ((FileOp.read user hd size offset upd).run m.sb) V (fun r W => ∃ f' H,
      (FileOp.read user hd size offset upd).Spec (mofsMaxFileBytes m.sb) f r f' ∧ Stores m.sb W H f') := by
  obtain ⟨hi, hsize⟩ := hop
  have hB := m.ok.blk_pos
  refine Ensures.bind (m.ensures_mofsReadCore user hd offset upd (h.ok.wf.fileAt hi) (h.ok.length hi) hsize) ?_ ?_
  · rintro ⟨r, hd'⟩ W hW
    cases hchk : readChecks user hd size offset (V.inode hd.inodeNum) with
    | error e =>
      rw [hchk] at hW
      cases hW.1
    | ok u =>
      rw [hchk] at hW
      obtain ⟨hr, hW⟩ := hW
      cases hr
      have hreg := isDir_of_accessCheck (readChecks_ok hchk)
      refine (Reads.ofExcept _).ensures ⟨f, G, ⟨?_, rfl⟩, ?_⟩
      · rw [← h.bytes _ hi hreg]
        exact slice_noWrap hwrap
      · rcases hW with rfl | ⟨t, rfl⟩
        · exact h
        · have := h.update hB (Frame.setInode h.ok.wf (i := hd.inodeNum)
            (x := (V.inode hd.inodeNum).stamp timeAtime t) rfl rfl) rfl
            (by simp only [View.setInode, Function.update_self]; exact ⟨rfl, rfl, rfl, rfl⟩)
            (by simp only [View.setInode, Function.update_self]; exact h.ok.length hi hreg)
          have hsame : fileBytes m.sb (V.setInode hd.inodeNum ((V.inode hd.inodeNum).stamp timeAtime t)) G hd.inodeNum =
              f hd.inodeNum := by
            rw [← h.bytes _ hi hreg, fileBytes, fileBytes]
            simp only [View.setInode, Function.update_self]
            rfl
          rwa [hsame, Function.update_eq_self] at this
  · intro e W hW
    split at hW
    · exact ⟨f, G, rfl, by rw [hW.2]; exact h⟩
    · cases hW.1

theorem step_write {user : User} {hd : FileHandle} {data : List UInt8} {offset : Int} {upd : Bool}
    (h : Stores m.sb V G f) (hop : (FileOp.write user hd data offset upd).Proper V) :
    m.Ensures ((FileOp.write user hd data offset upd).run m.sb) V (fun r W => ∃ f' H,
      (FileOp.write user hd data offset upd).Spec (mofsMaxFileBytes m.sb) f r f' ∧ Stores m.sb W H f') := by
  obtain ⟨hi, -, hoff⟩ := hop
  have hB := m.ok.blk_pos
  refine Ensures.bind (m.ensures_mofsWriteCore h.ok.wf hi (h.ok.length hi)) ?_ ?_
  · rintro ⟨r, hd'⟩ W hW
    cases hchk : writeChecks m.sb user hd data.length offset (V.inode hd.inodeNum) with
    | error e =>
      rw [hchk] at hW
      cases hW.1
    | ok u =>
      rw [hchk] at hW
      dsimp only at hW
      split at hW
      · cases hW.1
      obtain ⟨hr, H, hW⟩ := hW
      cases hr
      obtain ⟨hacc, hlt⟩ := writeChecks_ok hchk
      have hreg := isDir_of_accessCheck hacc
      have hlen := h.ok.length hi hreg
      refine (Reads.ofExcept _).ensures ⟨_, H, ⟨?_, ?_⟩, h.update hB hW.frame hW.ibit hW.attrs (hW.length hB hlen)⟩
      · rw [List.length_take, Nat.min_comm]
      · rw [hW.fileBytes hB hlen hoff, h.bytes _ hi hreg]
        congr 3
        rw [List.take_eq_take_iff, List.length_take]
        omega
  · intro e W hW
    split at hW
    · exact ⟨f, G, rfl, by rw [hW.2]; exact h⟩
    · dsimp only at hW
      split at hW
      · exact ⟨f, G, rfl, by rw [hW.2]; exact h⟩
      · cases hW.1

theorem step_truncate {user : User} {length : Int} (h : Stores m.sb V G f)
    (hop : (FileOp.truncate user i length).Proper V) :
    m.Ensures ((FileOp.truncate user i length).run m.sb) V (fun r W =>
      ¬ (FileOp.truncate user i length).FailedShrink V r → ∃ f' H,
        (FileOp.truncate user i length).Spec (mofsMaxFileBytes m.sb) f r f' ∧ Stores m.sb W H f') := by
  have hi : V.ibit i = true := hop
  have hB := m.ok.blk_pos
  refine Ensures.bind (m.ensures_mofsTruncateCore h.ok.wf hi (h.ok.length hi) user length) ?_ ?_
  · rintro u W (⟨-, -, hreg, -, H, hR⟩ | ⟨e, he, -⟩)
    · refine Ensures.pure fun _ => ⟨_, H, ?_, h.update hB hR.frame hR.ibit hR.attrs (by rw [hR.size, hR.blocks])⟩
      rw [hR.fileBytes, h.bytes i hi hreg]
      rfl
    · cases he
  · rintro e W (⟨hr, -⟩ | ⟨e, -, rfl | ⟨h0, -, hlt, -⟩⟩) hno
    · cases hr
    · exact ⟨f, G, rfl, h⟩
    · exact absurd ⟨h0, hlt⟩ hno

/-- One request: whatever it returns, it has done to the stored files what the byte arrays allow. -/
theorem step_file (h : Stores m.sb V G f) {op : FileOp} (hop : op.Proper V) (hwrap : op.NoWrap m.sb V) :
    m.Ensures (op.run m.sb) V (fun r W => ¬ op.FailedShrink V r → ∃ f' H,
      op.Spec (mofsMaxFileBytes m.sb) f r f' ∧ Stores m.sb W H f') := by
  cases op with
  | read user hd size offset upd => exact (step_read h hop hwrap).mono fun r W hr _ => hr
  | write user hd data offset upd => exact (step_write h hop).mono fun r W hr _ => hr
  | truncate user i length => exact step_truncate h hop

end Mount

/-- A run of requests from one disk to another, with what each of them returned. Every request is proper and meets `C`
in the state it is made in, and every shrinking truncate succeeds. -/
inductive FileRun (m : Mount) (C : View → FileOp → Prop) : Disk → List (FileOp × Except Errno FileRet) → Disk → Prop
  | nil (d : Disk) : FileRun m C d [] d
  | cons {d d₁ d₂ : Disk} {op : FileOp} {r : Except Errno FileRet} {tr : List (FileOp × Except Errno FileRet)}
      (hop : op.Proper (m.sb.view d)) (hC : C (m.sb.view d) op) (hstep : exec m.env (op.run m.sb) d = some (r, d₁))
      (hshrink : ¬ op.FailedShrink (m.sb.view d) r) (hrest : FileRun m C d₁ tr d₂) : FileRun m C d ((op, r) :: tr) d₂

/-- A run of the byte array model with the same outcomes. -/
inductive SpecRun (maxBytes : Nat) : Files → List (FileOp × Except Errno FileRet) → Files → Prop
  | nil (f : Files) : SpecRun maxBytes f [] f
  | cons {f f₁ f₂ : Files} {op : FileOp} {r : Except Errno FileRet} {tr : List (FileOp × Except Errno FileRet)}
      (hstep : op.Spec maxBytes f r f₁) (hrest : SpecRun maxBytes f₁ tr f₂) : SpecRun maxBytes f ((op, r) :: tr) f₂

theorem FileRun.refines {m : Mount} {d d' : Disk} {tr : List (FileOp × Except Errno FileRet)}
    (hrun : FileRun m (fun V op => op.NoWrap m.sb V) d tr d') {f : Files} (h : Stores m.sb (m.sb.view d) G f) :
    ∃ f' H, SpecRun (mofsMaxFileBytes m.sb) f tr f' ∧ Stores m.sb (m.sb.view d') H f' := by
  induction hrun generalizing f G with
  | nil d => exact ⟨f, G, .nil f, h⟩
  | cons hop hC hstep hshrink hrest ih =>
    obtain ⟨f₁, G₁, hspec, h₁⟩ := (Mount.step_file h hop hC).of_exec rfl hstep hshrink
    obtain ⟨f₂, G₂, hrun, h₂⟩ := ih h₁
    exact ⟨f₂, G₂, .cons hspec hrun, h₂⟩

/-- Regular files refine byte arrays: from every consistent volume, every run of reads, writes and truncates is a run
of the byte array model on the contents of its files, it ends in a consistent volume that holds the files of the model,
and every further request returns. -/
theorem files_refine_byteArrays (m : Mount) {d d' : Disk} (h : FilesOk m.sb (m.sb.view d) G)
    {tr : List (FileOp × Except Errno FileRet)} (hrun : FileRun m (fun V op => op.NoWrap m.sb V) d tr d') :
    ∃ f' H, SpecRun (mofsMaxFileBytes m.sb) (fileBytes m.sb (m.sb.view d) G) tr f' ∧ Stores m.sb (m.sb.view d') H f' ∧
      ∀ op : FileOp, op.Proper (m.sb.view d') → op.NoWrap m.sb (m.sb.view d') →
        ∃ r t, exec m.env (op.run m.sb) d' = some (r, t) := by
  obtain ⟨f', H, hspec, h'⟩ := hrun.refines ⟨h, fun _ _ _ => rfl⟩
  refine ⟨f', H, hspec, h', fun op hop hwrap => ?_⟩
  obtain ⟨r, t, hexec, -⟩ := (Mount.step_file h' hop hwrap).exists rfl
  exact ⟨r, t, hexec⟩

section

/-- An empty file that its owner may read and write. -/
def emptyFile : Inode := { Inode.zero with iLinks := 1, iMode := modeBits ftypeReg 0o666 }

def fileOwner : User := ⟨0, 0, [], true⟩

def fileHandle : FileHandle := ⟨true, 3, 0, oflagRdwr⟩

/-- A volume of 16 blocks with one empty file, whose first free block holds `x`. -/
structure OneFile (m : Mount) (d : Disk) (x : Block) : Prop where
  sb : m.sb = (geometry (16 * 512) 512).superblock 512
  ok : FilesOk m.sb (m.sb.view d) (freshOwners m.sb)
  ibit : (m.sb.view d).ibit fileHandle.inodeNum = true
  inode : (m.sb.view d).inode fileHandle.inodeNum = emptyFile
  free : m.sb.freeData (m.sb.view d) = List.range' 2 10
  blk : (m.sb.view d).blk (m.sb.dataRegionStart + 2) = x

/-- A volume of 512-byte blocks, just formatted, in which inode 3 is an empty file. -/
theorem exists_emptyFile {blocks : Nat} (h8 : 8 < blocks) (h32 : blocks ≤ 4294967295)
    (hnum : 3 < ((geometry (blocks * 512) 512).superblock 512).inodeNum)
    (h25 : ((geometry (blocks * 512) 512).superblock 512).inodeNum < 33554432)
    (hdata : 2 < ((geometry (blocks * 512) 512).superblock 512).dataBlkNum) (x : Block) :
    ∃ (m : Mount) (d : Disk), m.sb = (geometry (blocks * 512) 512).superblock 512 ∧
      FilesOk m.sb (m.sb.view d) (freshOwners m.sb) ∧ (m.sb.view d).ibit fileHandle.inodeNum = true ∧
      (m.sb.view d).inode fileHandle.inodeNum = emptyFile ∧
      m.sb.freeData (m.sb.view d) = (List.range m.sb.dataBlkNum).filter (fun k => !decide (k < 2)) ∧
      (m.sb.view d).blk (m.sb.dataRegionStart + 2) = x := by
  obtain ⟨env, t, hboot⟩ := booted_blankDev h8 h32
  obtain ⟨hok, hserves, hfresh⟩ := hboot.fresh (lt_trans (by decide) hnum) h25
  generalize hsb : (geometry (blocks * 512) 512).superblock 512 = sb at *
  have hin : sb.inData (sb.dataRegionStart + 2) := ⟨by omega, by omega⟩
  let m : Mount := ⟨sb, env, hok, hserves⟩
  have hbuild : m.Ensures (do
      setInodeBitmapBit sb 3 true
      mofsWriteInode sb 3 emptyFile
      writeFull (sb.dataRegionStart + 2) x) (sb.view t) (fun _ W =>
        W = ((sb.view t).enter 3 emptyFile).setBlk (sb.dataRegionStart + 2) x) :=
    Mount.Ensures.seq (m.ensures_setInodeBitmapBit (by decide) (show 3 < sb.inodeNum by omega) (Mount.Ensures.seq
      (m.ensures_mofsWriteInode (show 3 < sb.inodeNum by omega) (m.ensures_writeFull hin rfl))))
  obtain ⟨r, d, -, hd⟩ := hbuild.exists rfl
  have hd : m.sb.view d = ((sb.view t).enter 3 emptyFile).setBlk (sb.dataRegionStart + 2) x := hd
  have hfr := Frame.enter (i := 3) (x := emptyFile) (hfresh.wf hok) (by omega) (by rw [hfresh.ibit]; rfl) rfl rfl
  refine ⟨m, d, rfl, ⟨?_, fun i hi hdir => ?_⟩, ?_, ?_, ?_, ?_⟩ <;> rw [hd] at *
  · refine hfr.wf.congr rfl rfl rfl fun i b hb => ?_
    have hne : b ≠ sb.dataRegionStart + 2 := by
      by_cases hi : i = rootInodeNum
      · have : b = sb.dataRegionStart + 1 := by simpa [freshOwners, hi] using hb
        omega
      · simp [freshOwners, hi] at hb
    simp only [View.setBlk, Function.update_of_ne hne]
  · by_cases h3 : i = 3
    · subst h3
      simp only [View.setBlk, View.enter_inode, Function.update_self]
      have hB := hok.blk_pos
      exact (Nat.div_eq_of_lt (show 0 + sb.blkSize - 1 < sb.blkSize by omega)).symm
    · simp only [View.setBlk, View.enter_inode, View.enter_ibit, Function.update_of_ne h3, hfresh.ibit] at hi hdir
      obtain rfl : i = rootInodeNum := by simpa using hi
      rw [hfresh.isDir] at hdir
      cases hdir
  · exact Function.update_self 3 true (sb.view t).ibit
  · exact Function.update_self 3 emptyFile (sb.view t).inode
  · rw [Superblock.freeData]
    refine List.filter_congr fun k hk => ?_
    rw [← hfresh.dbit k (List.mem_range.mp hk)]
    rfl
  · simp [View.setBlk, m]

/-- The same file after a first write. -/
theorem exists_writtenFile {blocks : Nat} (h8 : 8 < blocks) (h32 : blocks ≤ 4294967295)
    (hnum : 3 < ((geometry (blocks * 512) 512).superblock 512).inodeNum)
    (h25 : ((geometry (blocks * 512) 512).superblock 512).inodeNum < 33554432)
    (hdata : 2 < ((geometry (blocks * 512) 512).superblock 512).dataBlkNum) {data : List UInt8} (h0 : data ≠ [])
    (hmax : data.length ≤ 524288)
    (hroom : (data.length + 511) / 512 +
      listNodesForBlockCount ((geometry (blocks * 512) 512).superblock 512) ((data.length + 511) / 512) + 2 ≤
        ((geometry (blocks * 512) 512).superblock 512).dataBlkNum) :
    ∃ (m : Mount) (d d₁ : Disk) (H : Owners), m.sb = (geometry (blocks * 512) 512).superblock 512 ∧
      (m.sb.view d).inode 3 = emptyFile ∧
      m.sb.freeData (m.sb.view d) = List.range' 2 (m.sb.dataBlkNum - 2) ∧
      FilesOk m.sb (m.sb.view d₁) H ∧ (m.sb.view d₁).ibit 3 = true ∧
      WrittenAt m.sb (m.sb.view d) (m.sb.view d₁) (freshOwners m.sb) H 3 0 data := by
  obtain ⟨m, d, hsb, hok, hi, hinode, hfree, -⟩ := exists_emptyFile h8 h32 hnum h25 hdata (fun _ => 0)
  rw [← hsb] at hroom hdata
  have hB : m.sb.blkSize = 512 := by rw [hsb]; rfl
  have hfree : m.sb.freeData (m.sb.view d) = List.range' 2 (m.sb.dataBlkNum - 2) := by
    obtain ⟨n, hn⟩ : ∃ n, m.sb.dataBlkNum = 2 + n := ⟨m.sb.dataBlkNum - 2, by omega⟩
    have hlow : (List.range' 0 2).filter (fun k => !decide (k < 2)) = [] := by decide
    have hhigh : (List.range' 2 n).filter (fun k => !decide (k < 2)) = List.range' 2 n :=
      List.filter_eq_self.mpr fun k hk => by
        rw [List.mem_range'_1] at hk
        rw [decide_eq_false (Nat.not_lt.mpr hk.1)]
        rfl
    rw [hfree, hn, List.range_eq_range', List.range'_append_1.symm, List.filter_append, Nat.zero_add, hlow, hhigh,
      List.nil_append, Nat.add_sub_cancel_left]
  have hreg : ((m.sb.view d).inode fileHandle.inodeNum).isDir = false := by rw [hinode]; rfl
  have hneed : m.sb.blocksFor ((0 : Int).toNat + data.length) = (data.length + 511) / 512 := by
    rw [Int.toNat_zero, Nat.zero_add, Superblock.blocksFor, hB]
    congr 1
  have hcap : mofsMaxFileBytes m.sb = 524288 := by rw [mofsMaxFileBytes, hB]; rfl
  have hchk : writeChecks m.sb fileOwner fileHandle data.length 0 emptyFile = .ok () := by
    have hacc : accessCheck (fileHandle.openFlags &&& oflagAccmode) fileOwner emptyFile = .ok () := rfl
    rw [writeChecks, if_neg (by simp [fileHandle, h0]), if_neg (by decide), hacc, hcap]
    rfl
  have hfit : data.take (mofsMaxFileBytes m.sb - (0 : Int).toNat) = data :=
    List.take_of_length_le (by rw [hcap, Int.toNat_zero]; omega)
  have hgrow : m.sb.canGrow (m.sb.view d) 0 ((data.length + 511) / 512) := by
    rw [Superblock.canGrow, hfree, List.length_range', Nat.zero_add]
    exact ⟨by have : maxFileDataBlocks = 1024 := rfl; omega, by omega⟩
  have hwrite := m.stores_mofsWriteCore fileOwner fileHandle 0 false hok.wf hi (hok.length hi hreg)
    (by rw [hinode]; exact hchk) hfit (fun _ => by rw [hneed]; exact hgrow)
  obtain ⟨r, d₁, -, -, H, hW⟩ := hwrite.exists rfl
  have hW : WrittenAt m.sb (m.sb.view d) (m.sb.view d₁) (freshOwners m.sb) H 3 0 data := hW
  refine ⟨m, d, d₁, H, hsb, hinode, hfree, ⟨hW.frame.wf, fun i hi hd => ?_⟩, by rw [hW.ibit]; exact hi, hW⟩
  by_cases h3 : i = 3
  · subst h3
    have hsize : (m.sb.view d).inode 3 = emptyFile := hinode
    rw [hW.frame.wf.nr 3 hi, hW.blocks, List.length_append, length_abs, List.length_take, hfree, List.length_range',
      hW.size, hsize, show emptyFile.iSize.toNat = 0 from rfl, Nat.max_eq_right (Nat.zero_le _)]
    rw [Int.toNat_zero] at hneed
    have hnone : ((freshOwners m.sb).data 3).length = 0 := rfl
    rw [hneed, hnone]
    omega
  · have hs := hW.frame.same i (by simpa using h3)
    rw [hs.inode]
    exact hok.sized i (hs.ibit ▸ hi) (hs.inode ▸ hd)

theorem exists_oneFile (x : Block) : ∃ m d, OneFile m d x := by
  obtain ⟨m, d, hsb, hok, hi, hinode, hfree, hblk⟩ :=
    exists_emptyFile (show 8 < 16 by decide) (by decide) (by decide) (by decide) (by decide) x
  refine ⟨m, d, hsb, hok, hi, hinode, ?_, hblk⟩
  rw [hfree, hsb]
  decide

/-- A write of one byte into one of the first two blocks of the empty file succeeds. -/
theorem OneFile.stores {m : Mount} {d : Disk} {x : Block} (h : OneFile m d x) {off : Nat} (hoff : off < 1024) : ∃ d₁ H,
    exec m.env (mofsWriteCore m.sb fileOwner fileHandle [120] off false) d = some (.ok (.ok 1, fileHandle), d₁) ∧
    WrittenAt m.sb (m.sb.view d) (m.sb.view d₁) (freshOwners m.sb) H fileHandle.inodeNum off [120] := by
  have hB : m.sb.blkSize = 512 := by rw [h.sb]; rfl
  have hmax : mofsMaxFileBytes m.sb = 524288 := by rw [mofsMaxFileBytes, hB]; rfl
  have hchk : writeChecks m.sb fileOwner fileHandle [120].length off emptyFile = .ok () := by
    have hacc : accessCheck (fileHandle.openFlags &&& oflagAccmode) fileOwner emptyFile = .ok () := rfl
    rw [writeChecks, if_neg (by simp [fileHandle]), if_neg (by decide), hacc, hmax, Int.toNat_natCast]
    exact if_neg (by omega)
  have hfit : [120].take (mofsMaxFileBytes m.sb - (off : Int).toNat) = [(120 : UInt8)] := by
    rw [hmax, Int.toNat_natCast]
    exact List.take_of_length_le (by simp; omega)
  have hneed : m.sb.blocksFor ((off : Int).toNat + [(120 : UInt8)].length) = 1 ∨
      m.sb.blocksFor ((off : Int).toNat + [(120 : UInt8)].length) = 2 := by
    rw [Superblock.blocksFor, hB, Int.toNat_natCast]
    simp only [List.length_singleton]
    omega
  have hroom : m.sb.canGrow (m.sb.view d) 0 1 ∧ m.sb.canGrow (m.sb.view d) 0 2 := by
    rw [Superblock.canGrow, Superblock.canGrow, h.free, h.sb]
    decide
  have hreg : ((m.sb.view d).inode fileHandle.inodeNum).isDir = false := by rw [h.inode]; rfl
  have hwrite := m.stores_mofsWriteCore fileOwner fileHandle off false h.ok.wf h.ibit (h.ok.length h.ibit hreg)
    (by rw [h.inode]; exact hchk) hfit (fun _ => by
      rcases hneed with hneed | hneed <;> rw [hneed]
      exacts [hroom.1, hroom.2])
  obtain ⟨r, d₁, hexec, rfl, H, hW⟩ := hwrite.exists rfl
  exact ⟨d₁, H, hexec, hW⟩

def writeByte : FileOp := .write fileOwner fileHandle [120] 0 false

theorem OneFile.writes {m : Mount} {d : Disk} {x : Block} (h : OneFile m d x) : ∃ d₁ H,
    exec m.env (writeByte.run m.sb) d = some (.ok (.count 1), d₁) ∧
    WrittenAt m.sb (m.sb.view d) (m.sb.view d₁) (freshOwners m.sb) H fileHandle.inodeNum 0 [120] := by
  obtain ⟨d₁, H, hexec, hW⟩ := h.stores (show 0 < 1024 by decide)
  refine ⟨d₁, H, ?_, hW⟩
  rw [writeByte, FileOp.run, exec]
  exact run_bind_ok hexec

theorem OneFile.proper_writeByte {m : Mount} {d : Disk} {x : Block} (h : OneFile m d x) :
    writeByte.Proper (m.sb.view d) := ⟨h.ibit, by decide, Nat.zero_le _⟩

theorem files_refine_byteArrays_write : ∃ (m : Mount) (d d' : Disk) (G : Owners),
    FilesOk m.sb (m.sb.view d) G ∧
    FileRun m (fun V op => op.NoWrap m.sb V) d [(writeByte, .ok (.count 1))] d' ∧
    ∃ f' H, SpecRun (mofsMaxFileBytes m.sb) (fileBytes m.sb (m.sb.view d) G) [(writeByte, .ok (.count 1))] f' ∧
      Stores m.sb (m.sb.view d') H f' ∧
      ∀ op : FileOp, op.Proper (m.sb.view d') → op.NoWrap m.sb (m.sb.view d') →
        ∃ r t, exec m.env (op.run m.sb) d' = some (r, t) := by
  obtain ⟨m, d, h⟩ := exists_oneFile (fun _ => 0)
  obtain ⟨d', H, hexec, -⟩ := h.writes
  have hrun : FileRun m (fun V op => op.NoWrap m.sb V) d [(writeByte, .ok (.count 1))] d' :=
    .cons h.proper_writeByte trivial hexec id (.nil d')
  exact ⟨m, d, d', _, h.ok, hrun, files_refine_byteArrays m h.ok hrun⟩

/-- `2^32` blocks of 512 bytes. -/
def farRead : FileOp := .read fileOwner fileHandle 1 2199023255552 false

/-- Without the bound on read offsets the refinement fails: a read of the one-byte file far behind its end returns
its byte. -/
theorem files_not_refine_byteArrays : ∃ (m : Mount) (d d' : Disk) (G : Owners) (tr : List (FileOp × Except Errno FileRet)),
    FilesOk m.sb (m.sb.view d) G ∧ FileRun m (fun _ _ => True) d tr d' ∧
    ¬ ∃ f', SpecRun (mofsMaxFileBytes m.sb) (fileBytes m.sb (m.sb.view d) G) tr f' := by
  obtain ⟨m, d, h⟩ := exists_oneFile (fun _ => 0)
  obtain ⟨d₁, H, hexec, hW⟩ := h.writes
  have hB : m.sb.blkSize = 512 := by rw [h.sb]; rfl
  have hi : (m.sb.view d₁).ibit fileHandle.inodeNum = true := by rw [hW.ibit]; exact h.ibit
  have hempty : ((m.sb.view d).inode fileHandle.inodeNum).iSize.toNat = 0 := by rw [h.inode]; rfl
  have hsize : ((m.sb.view d₁).inode fileHandle.inodeNum).iSize.toNat = 1 := by rw [hW.size, hempty]; rfl
  have hlen := hW.length m.ok.blk_pos (h.ok.length h.ibit (by rw [h.inode]; rfl))
  have hattrs : SameAttrs emptyFile ((m.sb.view d₁).inode fileHandle.inodeNum) := h.inode ▸ hW.attrs
  have hchk : readChecks fileOwner fileHandle 1 2199023255552 ((m.sb.view d₁).inode fileHandle.inodeNum) = .ok () := by
    rw [hattrs.readChecks]
    rfl
  have hbyte : bytesOf 512 (m.sb.view d₁).blk (H.data fileHandle.inodeNum) 0 = 120 := by
    have hone : 0 / m.sb.blkSize < (H.data fileHandle.inodeNum).length := by
      rw [hlen, hsize, Superblock.blocksFor, hB]
      decide
    have := hW.bytes 0 hone
    rw [hB] at this
    exact this
  obtain ⟨r, d₂, hexec₂, hpost⟩ := (m.ensures_mofsReadCore fileOwner fileHandle 2199023255552 false
    (hW.frame.wf.fileAt hi) (fun _ => hlen) (show 1 < 2147483648 by decide)).exists rfl
  rw [hchk, hsize, hB] at hpost
  obtain ⟨rfl, -⟩ := hpost
  have hfar : exec m.env (farRead.run m.sb) d₁ = some (.ok (.bytes [120]), d₂) := by
    rw [farRead, FileOp.run, exec, run_bind_ok hexec₂, ← hbyte]
    rfl
  refine ⟨m, d, d₂, _, [(writeByte, .ok (.count 1)), (farRead, .ok (.bytes [120]))], h.ok,
    .cons h.proper_writeByte trivial hexec id (.cons ⟨hi, by decide⟩ trivial hfar id (.nil d₂)), ?_⟩
  rintro ⟨f', hspec⟩
  cases hspec with
  | cons hw hspec =>
    cases hspec with
    | cons hr _ =>
      obtain ⟨-, rfl⟩ := hw
      have hnil : fileBytes m.sb (m.sb.view d) (freshOwners m.sb) fileHandle.inodeNum = [] :=
        List.eq_nil_of_length_eq_zero (by rw [length_fileBytes, hempty])
      have hr := hr.1
      rw [Function.update_self, hnil] at hr
      exact absurd hr (by decide)

end

end Mofs
