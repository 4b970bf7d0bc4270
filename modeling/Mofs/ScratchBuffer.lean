import Mofs.FileNotes

namespace Mofs

open Effect Bytes

/-- The buffer is as long as what is stored in it and as what is copied from or to it. -/
def Covers (l : List Note) : Prop :=
  ∀ n, .malloc n ∈ l → (∀ pos len, .store pos len ∈ l → pos + len ≤ n) ∧ ∀ pos len, .copy pos len ∈ l → pos + len ≤ n

theorem covers_of_sound {sb : Superblock} {n : Nat} {l : List Note} (h : ∀ u ∈ l, u.Sound sb n) : Covers l := by
  intro b hb
  obtain rfl : b = n := h _ hb
  exact ⟨fun pos len hu => h _ hu, fun pos len hu => h _ hu⟩

section Read

variable {m : Mount} {V : View} {d : Disk} {i : Nat} {ns ds : List Nat}

theorem notes_readBlocksFrom (hd : m.sb.view d = V) (h : FileAt m.sb V i ns ds) {start n k : Nat} {buf : List Block}
    (hk : start + k + n ≤ ds.length) : notes m.env.answer (Noted.readBlocksFrom m.sb i start n k buf) d =
      (List.range' k n).map fun j => .store (j * m.sb.blkSize) m.sb.blkSize := by
  have hmax := h.max
  simp only [maxFileDataBlocks] at hmax
  induction n generalizing k buf with
  | zero => rfl
  | succ n ih =>
    have hlt : start + k < ds.length := by omega
    have hres := (m.reads_resolveFileDataBlock h hlt).exec_eq hd
    have hread := (m.reads_readContinuousBlocks V (h.inData_get hlt)).exec_eq hd
    rw [Noted.readBlocksFrom, u32, Nat.mod_eq_of_lt (by omega), notes_lift_bind_of hres, notes_note,
      notes_lift_bind_of hread, if_neg (by simp), if_neg (by simp), ih (by omega), List.range'_succ, List.map_cons]

theorem notes_readFileDataBlock (hd : m.sb.view d = V) (h : FileAt m.sb V i ns ds)
    (hs : ds.length = m.sb.blocksFor (V.inode i).iSize.toNat) {start req : Nat} (hreq : req < 4294966272) :
    notes m.env.answer (Noted.readFileDataBlock m.sb i start req) d =
      (List.range (min req (ds.length - start))).map fun j => .store (j * m.sb.blkSize) m.sb.blkSize := by
  have hmax := h.max
  rw [Noted.readFileDataBlock, if_neg (m.not_isNeg' h.range)]
  by_cases h0 : req = 0
  · rw [if_pos h0, h0, Nat.zero_min]
    rfl
  rw [if_neg h0, notes_lift_bind_of ((m.reads_mofsReadInode V h.range).exec_eq hd)]
  simp only [m.ceilBlks_eq (hs ▸ hmax), ← hs, h.nr, or_self]
  by_cases hstart : ds.length ≤ start
  · rw [if_pos hstart, Nat.sub_eq_zero_of_le hstart, Nat.min_zero]
    rfl
  simp only [maxFileDataBlocks] at hmax
  rw [if_neg hstart, u32, Nat.mod_eq_of_lt (by omega)]
  have hn : (if ds.length < start + req then ds.length - start else req) = min req (ds.length - start) := by
    split <;> omega
  have hread : m.Reads (readBlocksFrom m.sb i start (min req (ds.length - start)) 0 []) V _ :=
    m.reads_readBlocksFrom h (by omega)
  have hrun := hread.exec_eq hd
  rw [← erase_readBlocksFrom] at hrun
  rw [hn, notes_bind_of hrun, notes_readBlocksFrom hd h (by omega), ← List.range_eq_range']
  simp only [notes_pure, apply_ite (fun p => notes m.env.answer p d), ite_self, List.append_nil]

theorem accessCheck_ok {flags : Nat} {user : User} {x : Inode} (h : accessCheck flags user x = .ok ()) :
    user.valid ≠ false ∧ mofsCheckOpenPermission flags user x = .ok () ∧ x.isDir = false := by
  refine ⟨?_, ?_, isDir_of_accessCheck h⟩
  · intro hv
    rw [accessCheck, if_pos hv] at h
    cases h
  · cases hp : mofsCheckOpenPermission flags user x with
    | ok u => rfl
    | error e =>
      rw [accessCheck, hp] at h
      split at h <;> cases h

/-- The number of whole blocks that `mofs_read_core` makes room for. -/
def readBlks (sb : Superblock) (off size : Nat) : Nat := (off % sb.blkSize + size + sb.blkSize - 1) / sb.blkSize

/-- The uses of its buffer that a read of `size` bytes at `off` makes. -/
theorem notes_mofsReadCore (hd : m.sb.view d = V) {user : User} {hh : FileHandle} {size off : Nat} (upd : Bool)
    (h : FileAt m.sb V hh.inodeNum ns ds) (hs : ds.length = m.sb.blocksFor (V.inode hh.inodeNum).iSize.toNat)
    (hchk : readChecks user hh size off (V.inode hh.inodeNum) = .ok ()) (hoff : off < 4294967296)
    (hsize : size < 4294967296) : notes m.env.answer (Noted.mofsReadCore m.sb user hh size off upd) d =
      .malloc (u32 (readBlks m.sb off size * m.sb.blkSize)) ::
        ((List.range (min (readBlks m.sb off size) (ds.length - off / m.sb.blkSize))).map fun j =>
          .store (j * m.sb.blkSize) m.sb.blkSize) ++
        [.copy (off % m.sb.blkSize) (min size ((V.inode hh.inodeNum).iSize.toNat - off))] := by
  rw [readChecks] at hchk
  by_cases h1 : hh.used = false ∨ size = 0 ∨ (off : Int) < 0
  · rw [if_pos h1] at hchk
    cases hchk
  rw [if_neg h1] at hchk
  by_cases h2 : hh.openFlags &&& oflagRdonly = 0
  · rw [if_pos h2] at hchk
    cases hchk
  rw [if_neg h2] at hchk
  obtain ⟨hv, hp, hreg⟩ := accessCheck_ok hchk
  have huser : exec m.env (requireUser user) d = some (.ok (), d) := by
    rw [requireUser, if_neg hv]
    rfl
  have hB := m.ok.blk_pos
  have hblk := m.ok.blk_ge
  have hmod := Nat.mod_lt off hB
  have hble := m.ok.blk_le
  have hreq : readBlks m.sb off size < 4294966272 := by
    refine lt_of_le_of_lt (Nat.div_le_div_left hblk (by decide)) ?_
    omega
  have hstart : u32 (off / m.sb.blkSize) = off / m.sb.blkSize := Nat.mod_eq_of_lt (lt_of_le_of_lt (Nat.div_le_self _ _) hoff)
  have hblks : u32 ((off % m.sb.blkSize + size + m.sb.blkSize - 1) / m.sb.blkSize) = readBlks m.sb off size :=
    Nat.mod_eq_of_lt (hreq.trans (by decide))
  have hread : m.Reads (readFileDataBlock m.sb hh.inodeNum (off / m.sb.blkSize) (readBlks m.sb off size)) V _ :=
    m.reads_readFileDataBlock h hs hreq
  have hrun := hread.exec_eq hd
  rw [← erase_readFileDataBlock] at hrun
  have hn : readSize m.sb size off (fileRead m.sb.blkSize (V.inode hh.inodeNum).iSize.toNat V.blk ds (off / m.sb.blkSize)
      (readBlks m.sb off size)) = min size ((V.inode hh.inodeNum).iSize.toNat - off) := readSize_fileRead hB hs (by omega)
  rw [Noted.mofsReadCore, if_neg h1, if_neg h2, notes_lift_bind_of ((m.reads_mofsReadInode V h.range).exec_eq hd),
    notes_lift_bind_of huser, notes_lift_bind_of (run_ofExcept _ |>.trans (by rw [hp])), if_neg (by simp [hreg])]
  simp only [Int.toNat_natCast, hblks, hstart]
  rw [notes_note, notes_bind_of hrun, notes_readFileDataBlock hd h hs hreq, notes_note]
  simp only [hn]
  rw [List.cons_append]
  congr 3
  -- the timestamp update that follows does not touch the buffer
  refine List.eq_nil_iff_forall_not_mem.mpr (NotesIn.notes (A := fun _ => False) ?_)
  refine .ite (fun _ => .bind (.lift _) fun r => ?_) fun _ => .pure _
  cases r with
  | ok u => exact .pure _
  | error e => exact .pure _

/-- The reads whose buffer is long enough. The rounded size of the buffer fits 32 bits, or, where it wraps around to no block
or one, the file ends before that. -/
def Roomy (sb : Superblock) (fileBlks off size : Nat) : Prop :=
  readBlks sb off size * sb.blkSize < 4294967296 ∨
    (fileBlks - off / sb.blkSize) * sb.blkSize ≤ readBlks sb off size * sb.blkSize - 4294967296 ∧
      off % sb.blkSize ≤ readBlks sb off size * sb.blkSize - 4294967296

theorem covers_uses_iff {n k pos len B : Nat} :
    Covers (.malloc n :: ((List.range k).map fun j => .store (j * B) B) ++ [.copy pos len]) ↔
      k * B ≤ n ∧ pos + len ≤ n := by
  constructor
  · intro h
    obtain ⟨hstore, hcopy⟩ := h n (by simp)
    refine ⟨?_, hcopy pos len (by simp)⟩
    cases k with
    | zero => rw [Nat.zero_mul]; exact Nat.zero_le n
    | succ k =>
      rw [Nat.succ_mul]
      exact hstore (k * B) B (by simp [List.range_succ])
  · rintro ⟨hk, hpos⟩ b hb
    obtain rfl : b = n := by simpa using hb
    refine ⟨fun p q hm => ?_, fun p q hm => ?_⟩
    · obtain ⟨j, hj, rfl, rfl⟩ : ∃ j, j < k ∧ j * B = p ∧ B = q := by simpa using hm
      calc j * B + B = (j + 1) * B := (Nat.succ_mul j B).symm
        _ ≤ k * B := Nat.mul_le_mul_right B hj
        _ ≤ b := hk
    · obtain ⟨rfl, rfl⟩ : p = pos ∧ q = len := by simpa using hm
      exact hpos

theorem roomy_iff {sb : Superblock} (hB : 512 ≤ sb.blkSize) (hle : sb.blkSize ≤ 65536) {fileSize off size : Nat}
    (hmax : sb.blocksFor fileSize ≤ maxFileDataBlocks) (hsize : size < 4294967296) :
    (min (readBlks sb off size) (sb.blocksFor fileSize - off / sb.blkSize) * sb.blkSize ≤
        u32 (readBlks sb off size * sb.blkSize) ∧
      off % sb.blkSize + min size (fileSize - off) ≤ u32 (readBlks sb off size * sb.blkSize)) ↔
    Roomy sb (sb.blocksFor fileSize) off size := by
  have hpos : 0 < sb.blkSize := by omega
  have hmod := Nat.mod_lt off hpos
  obtain ⟨hlo, hhi⟩ : off % sb.blkSize + size ≤ readBlks sb off size * sb.blkSize ∧
      readBlks sb off size * sb.blkSize < off % sb.blkSize + size + sb.blkSize := le_rounded hpos _
  rw [Roomy]
  generalize readBlks sb off size = q at *
  by_cases hfit : q * sb.blkSize < 4294967296
  · have hu : u32 (q * sb.blkSize) = q * sb.blkSize := Nat.mod_eq_of_lt hfit
    rw [hu]
    exact iff_of_true ⟨Nat.mul_le_mul_right _ (Nat.min_le_left _ _), by omega⟩ (.inl hfit)
  · have hu : u32 (q * sb.blkSize) = q * sb.blkSize - 4294967296 := by
      rw [u32]
      omega
    -- a request that wraps around is for more blocks than a file has
    have hq : sb.blocksFor fileSize - off / sb.blkSize ≤ q := by
      refine (Nat.sub_le _ _).trans (hmax.trans ?_)
      by_contra hlt
      have : q * sb.blkSize ≤ 1024 * 65536 := Nat.mul_le_mul (Nat.not_le.mp hlt).le hle
      omega
    rw [hu, Nat.min_eq_right hq, or_iff_right hfit]
    refine and_congr_right fun hblks => ⟨fun h => by omega, fun h => ?_⟩
    have hsz := (blocksFor_le_iff hpos (n := sb.blocksFor fileSize)).mp (Nat.le_refl _)
    have hoe := Nat.div_add_mod off sb.blkSize
    rw [Nat.sub_mul] at hblks
    rw [Nat.mul_comm] at hoe
    omega

end Read

section ReadAny

variable {sb : Superblock}

theorem notesIn_readBlocksFrom (i start : Nat) {req n k : Nat} (buf : List Block) (hk : k + n ≤ req) :
    NotesIn (Note.Sound sb (req * sb.blkSize)) (Noted.readBlocksFrom sb i start n k buf) := by
  induction n generalizing k buf with
  | zero => exact .pure _
  | succ n ih =>
    refine .bind (.lift _) fun _ => .bind (.note ?_) fun _ => .bind (.lift _) fun _ => .ite (fun _ => .pure _) fun _ =>
      .ite (fun _ => .fail _) fun _ => ih _ (by omega)
    calc k * sb.blkSize + sb.blkSize = (k + 1) * sb.blkSize := (Nat.succ_mul k sb.blkSize).symm
      _ ≤ req * sb.blkSize := Nat.mul_le_mul_right _ (by omega)

theorem notesIn_readFileDataBlock (i start req : Nat) :
    NotesIn (Note.Sound sb (req * sb.blkSize)) (Noted.readFileDataBlock sb i start req) := by
  refine .ite (fun _ => .fail _) fun _ => .ite (fun _ => .pure _) fun _ => .bind (.lift _) fun x => .ite (fun _ => .pure _) fun _ =>
    .bind (notesIn_readBlocksFrom _ _ _ ?_) fun _ => .ite (fun _ => .pure _) fun _ => .pure _
  have hle : u32 (start + req) ≤ start + req := Nat.mod_le _ _
  split <;> omega

/-- Where the rounded size fits 32 bits the buffer is long enough, whatever the device answers and the volume holds. -/
theorem covers_bufferedRead (hl : sb.Laid) {σ : Type} (H : (op : BlockOp) → σ → BlockAns op × σ) (s : σ) (user : User)
    (h : FileHandle) {size off : Nat} (updateOffset : Bool) (hfit : readBlks sb off size * sb.blkSize < 4294967296) :
    Covers (notes H (Noted.mofsReadCore sb user h size off updateOffset) s) := by
  have hB := hl.blk_pos
  obtain ⟨hlo, -⟩ : off % sb.blkSize + size ≤ readBlks sb off size * sb.blkSize ∧ _ := le_rounded hB _
  have hblks : u32 ((off % sb.blkSize + size + sb.blkSize - 1) / sb.blkSize) = readBlks sb off size :=
    Nat.mod_eq_of_lt (lt_of_le_of_lt (Nat.le_mul_of_pos_right _ hB) hfit)
  refine covers_of_sound (NotesIn.notes (A := Note.Sound sb (readBlks sb off size * sb.blkSize)) ?_)
  refine .ite (fun _ => .fail _) fun _ => .ite (fun _ => .fail _) fun _ => .bind (.lift _) fun x => .bind (.lift _) fun _ =>
    .bind (.lift _) fun _ => .ite (fun _ => .fail _) fun _ => ?_
  simp only [Int.toNat_natCast, hblks]
  refine .bind (.note (Nat.mod_eq_of_lt hfit)) fun _ => .bind (notesIn_readFileDataBlock _ _ _) fun r => .bind (.note ?_) fun _ =>
    .ite (fun _ => .bind (.lift _) fun r => ?_) fun _ => .pure _
  · have hle : readSize sb size off r ≤ size := by
      rw [readSize]
      split
      · exact Nat.zero_le size
      · exact Nat.min_le_left _ _
    exact (Nat.add_le_add_left hle _).trans hlo
  · cases r with
    | ok u => exact .pure _
    | error e => exact .pure _

end ReadAny

/-- The scratch buffers of a read and of writes, for a file of a well-formed volume. A write always makes enough room. A read
does so if and only if the size of its buffer does not wrap around, or there is too little of the file to tell. -/
theorem scratch_buffers_cover_iff (m : Mount) {d : Disk} {G : Owners} {user : User} {hd : FileHandle} {size off : Nat}
    (upd : Bool) (h : Wf m.sb (m.sb.view d) G) (hi : (m.sb.view d).ibit hd.inodeNum = true)
    (hs : (G.data hd.inodeNum).length = m.sb.blocksFor ((m.sb.view d).inode hd.inodeNum).iSize.toNat)
    (hchk : readChecks user hd size off ((m.sb.view d).inode hd.inodeNum) = .ok ()) (hoff : off < 4294967296)
    (hsize : size < 4294967296) :
    (∀ user hd size offset upd,
      erase (Noted.mofsReadCore m.sb user hd size offset upd) = mofsReadCore m.sb user hd size offset upd) ∧
    (∀ user hd data offset upd,
      erase (Noted.mofsWriteCore m.sb user hd data offset upd) = mofsWriteCore m.sb user hd data offset upd) ∧
    (readBlks m.sb off size * m.sb.blkSize < 4294967296 → ∀ (H : (op : BlockOp) → Disk → BlockAns op × Disk) t,
      Covers (notes H (Noted.mofsReadCore m.sb user hd size off upd) t)) ∧
    ((Covers (notes m.env.answer (Noted.mofsReadCore m.sb user hd size off upd) d) ∧
        ∀ (H : (op : BlockOp) → Disk → BlockAns op × Disk) t user hd data offset upd,
          Covers (notes H (Noted.mofsWriteCore m.sb user hd data offset upd) t)) ↔
      Roomy m.sb (G.data hd.inodeNum).length off size) := by
  have h32 : m.sb.dataRegionStart + m.sb.dataBlkNum < 4294967296 := lt_of_le_of_lt m.ok.hole m.ok.hole_lt
  have hwrite (H : (op : BlockOp) → Disk → BlockAns op × Disk) (t : Disk) (user : User) (hd : FileHandle) (data : List UInt8)
      (offset : Int) (upd : Bool) : Covers (notes H (Noted.mofsWriteCore m.sb user hd data offset upd) t) :=
    have ⟨_, hnotes⟩ := notesIn_mofsWriteCore m.ok.blk_pos m.ok.blk_le h32 user hd data offset upd
    covers_of_sound hnotes.notes
  refine ⟨erase_mofsReadCore m.sb, erase_mofsWriteCore m.sb,
    fun hfit H t => covers_bufferedRead m.ok.toLaid H t user hd upd hfit, ?_⟩
  have hmax := h.max hd.inodeNum
  rw [and_iff_left hwrite, notes_mofsReadCore rfl upd (h.fileAt hi) hs hchk hoff hsize, covers_uses_iff]
  rw [hs] at hmax ⊢
  exact roomy_iff m.ok.blk_ge m.ok.blk_le hmax hsize

/-- A file of one byte, on a volume of 512-byte blocks. -/
theorem exists_oneByteFile : ∃ (m : Mount) (d : Disk) (G : Owners), m.sb.blkSize = 512 ∧ Wf m.sb (m.sb.view d) G ∧
    (m.sb.view d).ibit fileHandle.inodeNum = true ∧ ((m.sb.view d).inode fileHandle.inodeNum).iSize.toNat = 1 ∧
    (G.data fileHandle.inodeNum).length = m.sb.blocksFor ((m.sb.view d).inode fileHandle.inodeNum).iSize.toNat ∧
    ∀ size, size ≠ 0 →
      readChecks fileOwner fileHandle size (0 : Nat) ((m.sb.view d).inode fileHandle.inodeNum) = .ok () := by
  obtain ⟨m, d, h⟩ := exists_oneFile (fun _ => 0)
  obtain ⟨d₁, H, -, hW⟩ := h.writes
  have hempty : ((m.sb.view d).inode fileHandle.inodeNum).iSize.toNat = 0 := by rw [h.inode]; rfl
  have hattrs : SameAttrs emptyFile ((m.sb.view d₁).inode fileHandle.inodeNum) := h.inode ▸ hW.attrs
  refine ⟨m, d₁, H, by rw [h.sb]; rfl, hW.frame.wf, by rw [hW.ibit]; exact h.ibit, by rw [hW.size, hempty]; rfl,
    hW.length m.ok.blk_pos (h.ok.length h.ibit (by rw [h.inode]; rfl)), fun size h0 => ?_⟩
  rw [hattrs.readChecks, readChecks, if_neg (by simp [fileHandle, h0]), if_neg (by decide)]
  rfl

theorem scratch_buffers_cover_iff_one : ∃ (m : Mount) (d : Disk) (G : Owners), Wf m.sb (m.sb.view d) G ∧
    (m.sb.view d).ibit fileHandle.inodeNum = true ∧
    (G.data fileHandle.inodeNum).length = m.sb.blocksFor ((m.sb.view d).inode fileHandle.inodeNum).iSize.toNat ∧
    readChecks fileOwner fileHandle 100 (0 : Nat) ((m.sb.view d).inode fileHandle.inodeNum) = .ok () ∧
    Covers (notes m.env.answer (Noted.mofsReadCore m.sb fileOwner fileHandle 100 (0 : Nat) true) d) := by
  obtain ⟨m, d, G, hB, hwf, hi, -, hs, hchk⟩ := exists_oneByteFile
  have hchk := hchk 100 (by decide)
  refine ⟨m, d, G, hwf, hi, hs, hchk, ?_⟩
  have hiff := (scratch_buffers_cover_iff m true hwf hi hs hchk (by decide) (by decide)).2.2.2
  refine (hiff.mpr (.inl ?_)).1
  rw [readBlks, hB]
  decide

/-- A read of `2 ^ 32 - 1` bytes of a file of one byte requests a buffer of no byte and stores a block of 512 bytes in it. -/
theorem read_overruns_buffer : ∃ (m : Mount) (d : Disk) (G : Owners), Wf m.sb (m.sb.view d) G ∧
    (m.sb.view d).ibit fileHandle.inodeNum = true ∧
    (G.data fileHandle.inodeNum).length = m.sb.blocksFor ((m.sb.view d).inode fileHandle.inodeNum).iSize.toNat ∧
    readChecks fileOwner fileHandle 4294967295 (0 : Nat) ((m.sb.view d).inode fileHandle.inodeNum) = .ok () ∧
    notes m.env.answer (Noted.mofsReadCore m.sb fileOwner fileHandle 4294967295 (0 : Nat) true) d =
      [.malloc 0, .store 0 512, .copy 0 1] ∧
    ¬ Covers (notes m.env.answer (Noted.mofsReadCore m.sb fileOwner fileHandle 4294967295 (0 : Nat) true) d) := by
  obtain ⟨m, d, G, hB, hwf, hi, hsize, hs, hchk⟩ := exists_oneByteFile
  have hchk := hchk 4294967295 (by decide)
  have hone : (G.data fileHandle.inodeNum).length = 1 := by
    rw [hs, hsize, Superblock.blocksFor, hB]
  have hnotes := notes_mofsReadCore rfl true (hwf.fileAt hi) hs hchk (by decide) (by decide)
  rw [readBlks, hsize, hone, hB] at hnotes
  refine ⟨m, d, G, hwf, hi, hs, hchk, hnotes, ?_⟩
  rw [hnotes]
  intro hcov
  exact absurd ((hcov 0 (by simp)).1 0 512 (by simp)) (by decide)

end Mofs
