import Mofs.Listing
import Mofs.ReadOnly

namespace Mofs

open Effect Bytes Slots Mount

variable {m : Mount} {d d' : Disk} {i b n j a : Nat} {buf buf' : Block}

/-- Block `b` of file `i` is block `a` of the device. -/
structure MappedTo (m : Mount) (d : Disk) (i b a : Nat) : Prop where
  resolve : exec m.env (resolveFileDataBlock m.sb i b) d = some (.ok a, d)
  onDevice : (a + 1) * m.sb.blkSize ≤ m.env.size

/-- How many blocks the size of file `i` claims, as the directory loops count them. -/
def claimedBlks (m : Mount) (d : Disk) (i : Nat) : Nat := ceilBlks m.sb ((m.sb.view d).inode i).iSize.toNat

def mappedBlks (m : Mount) (d : Disk) (i : Nat) : Nat := ((m.sb.view d).inode i).iNrBlocks.toNat

/-- How many slots of block `b` lie below the size of directory `i`. -/
def slotsBelow (m : Mount) (d : Disk) (i b : Nat) : Nat :=
  min (entriesPerBlk m.sb) ((((m.sb.view d).inode i).iSize.toNat - b * m.sb.blkSize) / direntBytes)

/-- No block of directory `i` below its size is mapped to one across the end of the device. -/
def OffEnd (m : Mount) (d : Disk) (i : Nat) : Prop :=
  ∀ b < claimedBlks m d i, ∀ a, exec m.env (resolveFileDataBlock m.sb i b) d = some (.ok a, d) →
    (a + 1) * m.sb.blkSize ≤ m.env.size ∨ m.env.size ≤ a * m.sb.blkSize

theorem lt_claimedBlks (hb : b < claimedBlks m d i) :
    b * m.sb.blkSize < ((m.sb.view d).inode i).iSize.toNat ∧ (b + 1) * m.sb.blkSize < 4294967296 + m.sb.blkSize ∧
      b < 4294967296 := by
  have hB := m.ok.blk_pos
  have hsize := ((m.sb.view d).inode i).iSize.toNat_lt
  rw [claimedBlks, ceilBlks] at hb
  have hmul := (Nat.le_div_iff_mul_le hB).mp hb
  rw [Nat.succ_mul] at hmul
  have hu := Nat.mod_le (((m.sb.view d).inode i).iSize.toNat + m.sb.blkSize - 1) 4294967296
  have hlt : u32 (((m.sb.view d).inode i).iSize.toNat + m.sb.blkSize - 1) < 4294967296 := Nat.mod_lt _ (by decide)
  have hle : b ≤ b * m.sb.blkSize := Nat.le_mul_of_pos_right b hB
  simp only [u32] at hmul hlt
  rw [Nat.succ_mul]
  omega

theorem u32_succ_of_lt (hb : b < claimedBlks m d i) : u32 (b + 1) = b + 1 := by
  have hlt := (lt_claimedBlks hb).2.1
  have hB : 2 ≤ m.sb.blkSize := by
    have := m.ok.entries_ge
    rw [m.ok.blk_eq, direntBytes]
    omega
  refine Nat.mod_eq_of_lt ?_
  have : b * 2 ≤ b * m.sb.blkSize := Nat.mul_le_mul_left _ hB
  rw [Nat.succ_mul] at hlt
  omega

theorem MappedTo.lt_mappedBlks (hi : i < m.sb.inodeNum) (h : MappedTo m d i b a) : b < mappedBlks m d i := by
  have hres := h.resolve
  rw [resolveFileDataBlock, if_neg (m.not_isNeg' hi), exec, run_bind_ok ((m.reads_mofsReadInode _ hi).exec_eq rfl)] at hres
  by_contra hle
  rw [if_pos (show ((m.sb.view d).inode i).iNrBlocks.toNat ≤ b from Nat.le_of_not_lt hle)] at hres
  cases hres

/-- Nothing is read of a block that is not mapped, and the buffer stays. -/
theorem exec_readDirBlock_unmapped (hi : i < m.sb.inodeNum) (hb : mappedBlks m d i ≤ b) :
    exec m.env (readDirBlock m.sb i b buf) d = some (.ok (⟨0, 0, []⟩, buf), d) := by
  have hread : exec m.env (readFileDataBlock m.sb i b 1) d = some (.ok ⟨0, 0, []⟩, d) := by
    rw [readFileDataBlock, if_neg (m.not_isNeg' hi), if_neg (by decide), exec,
      run_bind_ok ((m.reads_mofsReadInode _ hi).exec_eq rfl)]
    simp only [show ((m.sb.view d).inode i).iNrBlocks.toNat ≤ b from hb, true_or, if_true]
    rfl
  rw [readDirBlock, exec, run_bind_ok hread]
  rfl

/-- The slots a scan looks at in a mapped block are those below the size. -/
theorem direntNum_eq {size : Nat} (hsize : size = ((m.sb.view d).inode i).iSize.toNat) (hb : b < claimedBlks m d i) :
    direntNum m.sb (if size / m.sb.blkSize < b + 1 then size % m.sb.blkSize else 0) = slotsBelow m d i b := by
  have hB := m.ok.blk_pos
  have hE := m.ok.blk_eq
  have hlow := (lt_claimedBlks hb).1
  rw [← hsize] at hlow
  rw [slotsBelow, ← hsize, direntNum]
  have hdm := Nat.div_add_mod size m.sb.blkSize
  have hge : b ≤ size / m.sb.blkSize := (Nat.le_div_iff_mul_le hB).mpr (Nat.le_of_lt hlow)
  have hmod := Nat.mod_lt size hB
  split
  · -- the last block
    rename_i hlt
    obtain hq : size / m.sb.blkSize = b := by omega
    rw [hq, Nat.mul_comm] at hdm
    have hrest : size - b * m.sb.blkSize = size % m.sb.blkSize := by omega
    rw [if_pos (by omega), hrest, Nat.min_eq_right]
    refine Nat.div_le_of_le_mul ?_
    omega
  · rename_i hlt
    have hfull : (b + 1) * m.sb.blkSize ≤ size := (Nat.le_div_iff_mul_le hB).mp (by omega)
    rw [Nat.succ_mul] at hfull
    rw [if_neg (by decide), Nat.min_eq_left]
    rw [Nat.le_div_iff_mul_le (by decide), Nat.mul_comm, ← hE]
    omega

/-- A read of one block below the mapped and the claimed count. -/
theorem exec_readFileDataBlock_one (hi : i < m.sb.inodeNum) (hb : b < claimedBlks m d i) (hmapped : b < mappedBlks m d i) :
    exec m.env (readFileDataBlock m.sb i b 1) d = exec m.env (do
      let r ← readBlocksFrom m.sb i b 1 0 []
      if r.fraction = 0 ∧ ((m.sb.view d).inode i).iSize.toNat / m.sb.blkSize < u32 (b + r.readBlkNum) then
        pure ⟨u32 (r.readBlkNum + 4294967295), ((m.sb.view d).inode i).iSize.toNat % m.sb.blkSize, r.buf⟩
      else pure r) d := by
  have h32 := u32_succ_of_lt hb
  have hin : ¬ (((m.sb.view d).inode i).iNrBlocks.toNat ≤ b ∨ ceilBlks m.sb ((m.sb.view d).inode i).iSize.toNat ≤ b) := by
    rw [claimedBlks] at hb
    rw [mappedBlks] at hmapped
    omega
  have hreq : ¬ ceilBlks m.sb ((m.sb.view d).inode i).iSize.toNat < u32 (b + 1) := by
    rw [h32, ← claimedBlks]
    omega
  rw [readFileDataBlock, if_neg (m.not_isNeg' hi), if_neg (by decide), exec,
    run_bind_ok ((m.reads_mofsReadInode _ hi).exec_eq rfl)]
  simp only [if_neg hin, if_neg hreq]
  rfl

theorem exec_readDirBlock_mapped (buf : Block) (hi : i < m.sb.inodeNum) (hb : b < claimedBlks m d i) (h : MappedTo m d i b a) :
    ∃ r, exec m.env (readDirBlock m.sb i b buf) d = some (.ok (r, d.blk a), d) ∧ direntNum m.sb r.fraction = slotsBelow m d i b := by
  have hmapped := h.lt_mappedBlks hi
  have h32 := (lt_claimedBlks hb).2.2
  have hcontent : exec m.env (readContinuousBlocks a) d = some (.ok ⟨1, 0, d.blk a⟩, d) :=
    exec_readContinuousBlocks (by rw [m.serves.blk]; exact h.onDevice) d
  have hone : exec m.env (readBlocksFrom m.sb i b 1 0 []) d = some (.ok ⟨1, 0, [d.blk a]⟩, d) := by
    rw [readBlocksFrom, Nat.add_zero, show u32 b = b from Nat.mod_eq_of_lt h32, exec, run_bind_ok h.resolve, run_bind_ok hcontent]
    rfl
  have hnext : u32 (b + 1) = b + 1 := u32_succ_of_lt hb
  have hread : ∃ r, exec m.env (readFileDataBlock m.sb i b 1) d = some (.ok r, d) ∧ r.buf = [d.blk a] ∧ r.fraction =
      if ((m.sb.view d).inode i).iSize.toNat / m.sb.blkSize < b + 1 then ((m.sb.view d).inode i).iSize.toNat % m.sb.blkSize
      else 0 := by
    rw [exec_readFileDataBlock_one hi hb hmapped, exec, run_bind_ok hone]
    by_cases hlast : ((m.sb.view d).inode i).iSize.toNat / m.sb.blkSize < b + 1
    · rw [if_pos ⟨rfl, by rw [hnext]; exact hlast⟩, if_pos hlast]
      exact ⟨_, rfl, rfl, rfl⟩
    · rw [if_neg (fun hc => hlast (by rw [← hnext]; exact hc.2)), if_neg hlast]
      exact ⟨_, rfl, rfl, rfl⟩
  obtain ⟨r, hexec, hbuf, hfr⟩ := hread
  refine ⟨r, ?_, by rw [hfr, direntNum_eq rfl hb]⟩
  rw [readDirBlock, exec, run_bind_ok hexec, hbuf]
  rfl

/-- A mapped block that cannot be read ends the scan. -/
theorem mappedTo_of_readDirBlock (hi : i < m.sb.inodeNum) (hoff : OffEnd m d i) (hb : b < claimedBlks m d i)
    (hmapped : b < mappedBlks m d i) {r : FileRead × Block} (hread : exec m.env (readDirBlock m.sb i b buf) d = some (.ok r, d')) :
    ∃ a, MappedTo m d i b a := by
  have h32 := (lt_claimedBlks hb).2.2
  obtain ⟨r₁, t, hfile, -⟩ := run_bind_eq_ok hread
  have hfile : exec m.env (readFileDataBlock m.sb i b 1) d = some (.ok r₁, t) := hfile
  rw [exec_readFileDataBlock_one hi hb hmapped] at hfile
  obtain ⟨r₂, t₂, hfrom, -⟩ := run_bind_eq_ok hfile
  rw [readBlocksFrom, Nat.add_zero, show u32 b = b from Nat.mod_eq_of_lt h32] at hfrom
  obtain ⟨a, t₃, hres, hrest⟩ := run_bind_eq_ok hfrom
  obtain rfl := (readOnly_resolveFileDataBlock i b).exec_eq hres
  rcases hoff b hb a hres with hin | hout
  · exact ⟨a, hres, hin⟩
  · -- nothing of the block is on the device
    have hnone : exec m.env (readContinuousBlocks a) t₃ = some (.ok ⟨0, 0, t₃.blk a⟩, t₃) := by
      have hno : ¬ (a + 1) * m.env.blkSize ≤ m.env.size := by
        have hB := m.ok.blk_pos
        rw [m.serves.blk, Nat.succ_mul]
        omega
      have ha : m.env.answer (.read a) t₃ = (.ok ⟨0, 0, t₃.blk a⟩, t₃) := by
        rw [Env.answer, if_neg hno, m.serves.blk, Nat.sub_eq_zero_of_le hout]
      change run m.env.answer (ofExcept (m.env.answer (.read a) t₃).1) (m.env.answer (.read a) t₃).2 = _
      rw [ha]
      rfl
    rw [run_bind_ok hnone] at hrest
    cases hrest

section Scan

variable {p q : Nat → Block → Nat → Bool}

/-- The block loop of the directory scans: the first slot, from block `blkIdx` on, that satisfies `p`. -/
def scanFrom (sb : Superblock) (i : Nat) (p : Nat → Block → Nat → Bool) : (n blkIdx : Nat) → Block →
    M (Option (Nat × Block × Nat))
  | 0, _, _ => pure none
  | n + 1, blkIdx, buf => do
    let (r, buf) ← readDirBlock sb i blkIdx buf
    match firstSlot (p blkIdx buf) (direntNum sb r.fraction) with
    | some j => pure (some (blkIdx, buf, j))
    | none => scanFrom sb i p n (blkIdx + 1) buf

/-- What the scan holds in its buffer at a block that is not mapped, when it has started at block `b` with `buf`. -/
def StaleBuf (m : Mount) (d : Disk) (i b : Nat) (buf buf' : Block) : Prop :=
  if b < mappedBlks m d i then ∃ a, MappedTo m d i (mappedBlks m d i - 1) a ∧ buf' = d.blk a else buf' = buf

theorem StaleBuf.of_mapped (h : MappedTo m d i b a) (hb : b < mappedBlks m d i) (hs : StaleBuf m d i (b + 1) (d.blk a) buf') :
    StaleBuf m d i b buf buf' := by
  rw [StaleBuf, if_pos hb]
  rw [StaleBuf] at hs
  split at hs
  · exact hs
  · exact ⟨a, by rwa [show mappedBlks m d i - 1 = b by omega], hs⟩

theorem StaleBuf.of_unmapped (hb : mappedBlks m d i ≤ b) (hs : StaleBuf m d i (b + 1) buf buf') : StaleBuf m d i b buf buf' := by
  rw [StaleBuf, if_neg (by omega)] at hs ⊢
  exact hs

theorem firstSlot_some {t : Nat → Bool} (h : firstSlot t n = some j) : j < n ∧ t j = true ∧ ∀ k < j, t k = false := by
  obtain ⟨-, hlt, hj, hmin⟩ := firstIn_spec (a := 0) (show firstIn t 0 n = some j by
    rw [firstIn, ← List.range_eq_range']
    exact h)
  exact ⟨by omega, hj, fun k hk => hmin k (Nat.zero_le k) hk⟩

theorem firstSlot_none {t : Nat → Bool} (h : firstSlot t n = none) {k : Nat} (hk : k < n) : t k = false := by
  have := List.find?_eq_none.mp h k (List.mem_range.mpr hk)
  simpa using this

/-- What a scan has found, in slot `j` of the buffer at block `b'`. -/
structure Found (m : Mount) (d : Disk) (i : Nat) (p : Nat → Block → Nat → Bool) (b : Nat) (buf : Block) (b' : Nat)
    (buf' : Block) (j : Nat) : Prop where
  le : b ≤ b'
  hit : p b' buf' j = true
  first : ∀ k < j, p b' buf' k = false
  before : ∀ c, b ≤ c → c < b' → c < mappedBlks m d i →
    ∃ a, MappedTo m d i c a ∧ ∀ k < slotsBelow m d i c, p c (d.blk a) k = false
  source : (∃ a, MappedTo m d i b' a ∧ buf' = d.blk a ∧ j < slotsBelow m d i b') ∨
    (mappedBlks m d i ≤ b' ∧ j < entriesPerBlk m.sb ∧ StaleBuf m d i b buf buf')

/-- A scan that finds nothing in a mapped block goes on with the content of that block. -/
theorem exec_scanFrom_mapped (hi : i < m.sb.inodeNum) (hb : b < claimedBlks m d i) (h : MappedTo m d i b a) :
    exec m.env (scanFrom m.sb i p (n + 1) b buf) d =
      match firstSlot (p b (d.blk a)) (slotsBelow m d i b) with
      | some j => some (.ok (some (b, d.blk a, j)), d)
      | none => exec m.env (scanFrom m.sb i p n (b + 1) (d.blk a)) d := by
  obtain ⟨r, hread, hnum⟩ := exec_readDirBlock_mapped buf hi hb h
  rw [scanFrom, exec, run_bind_ok hread]
  dsimp only
  rw [hnum]
  cases firstSlot (p b (d.blk a)) (slotsBelow m d i b) <;> rfl

theorem exec_scanFrom_unmapped (hi : i < m.sb.inodeNum) (hb : mappedBlks m d i ≤ b) :
    exec m.env (scanFrom m.sb i p (n + 1) b buf) d =
      match firstSlot (p b buf) (entriesPerBlk m.sb) with
      | some j => some (.ok (some (b, buf, j)), d)
      | none => exec m.env (scanFrom m.sb i p n (b + 1) buf) d := by
  rw [scanFrom, exec, run_bind_ok (exec_readDirBlock_unmapped hi hb)]
  dsimp only
  rw [show direntNum m.sb 0 = entriesPerBlk m.sb from rfl]
  cases firstSlot (p b buf) (entriesPerBlk m.sb) <;> rfl

theorem found_of_scanFrom (hi : i < m.sb.inodeNum) (hoff : OffEnd m d i) (hn : b + n ≤ claimedBlks m d i) {b' : Nat}
    (hexec : exec m.env (scanFrom m.sb i p n b buf) d = some (.ok (some (b', buf', j)), d')) :
    Found m d i p b buf b' buf' j ∧ b' < b + n := by
  induction n generalizing b buf with
  | zero => cases hexec
  | succ n ih =>
    by_cases hb : b < mappedBlks m d i
    · obtain ⟨r, t, hread, -⟩ := run_bind_eq_ok hexec
      obtain ⟨a, ha⟩ := mappedTo_of_readDirBlock hi hoff (by omega) hb hread
      rw [exec_scanFrom_mapped hi (by omega) ha] at hexec
      cases hf : firstSlot (p b (d.blk a)) (slotsBelow m d i b) with
      | some k =>
        rw [hf] at hexec
        obtain ⟨⟨rfl, rfl, rfl⟩, -⟩ := by simpa using hexec
        obtain ⟨hlt, hhit, hfirst⟩ := firstSlot_some hf
        exact ⟨⟨Nat.le_refl _, hhit, hfirst, fun c h1 h2 => by omega, .inl ⟨a, ha, rfl, hlt⟩⟩, by omega⟩
      | none =>
        rw [hf] at hexec
        obtain ⟨hF, hlt⟩ := ih (by omega) hexec
        refine ⟨⟨by have := hF.le; omega, hF.hit, hF.first, fun c h1 h2 h3 => ?_, ?_⟩, by omega⟩
        · by_cases hc : c = b
          · subst hc
            exact ⟨a, ha, fun k hk => firstSlot_none hf hk⟩
          · exact hF.before c (by omega) h2 h3
        · exact hF.source.imp id fun ⟨h1, h2, h3⟩ => ⟨h1, h2, h3.of_mapped ha hb⟩
    · have hb : mappedBlks m d i ≤ b := by omega
      rw [exec_scanFrom_unmapped hi hb] at hexec
      cases hf : firstSlot (p b buf) (entriesPerBlk m.sb) with
      | some k =>
        rw [hf] at hexec
        obtain ⟨⟨rfl, rfl, rfl⟩, -⟩ := by simpa using hexec
        obtain ⟨hlt, hhit, hfirst⟩ := firstSlot_some hf
        exact ⟨⟨Nat.le_refl _, hhit, hfirst, fun c h1 h2 => by omega,
          .inr ⟨hb, hlt, by rw [StaleBuf, if_neg (by omega)]⟩⟩, by omega⟩
      | none =>
        rw [hf] at hexec
        obtain ⟨hF, hlt⟩ := ih (by omega) hexec
        refine ⟨⟨by have := hF.le; omega, hF.hit, hF.first, fun c h1 h2 h3 => by omega, ?_⟩, by omega⟩
        exact hF.source.imp id fun ⟨h1, h2, h3⟩ => ⟨h1, h2, h3.of_unmapped hb⟩

/-- A scan finds something, when there is a slot to find at block `c` and all blocks up to that can be read. -/
theorem scanFrom_finds (buf : Block) (hi : i < m.sb.inodeNum) (hn : b + n ≤ claimedBlks m d i) {c : Nat} (hbc : b ≤ c) (hcn : c < b + n)
    (hread : ∀ c', b ≤ c' → c' ≤ c → c' < mappedBlks m d i → ∃ a, MappedTo m d i c' a)
    (hmapped : c < mappedBlks m d i → ∃ a, MappedTo m d i c a ∧ ∃ k < slotsBelow m d i c, p c (d.blk a) k = true)
    (hstale : mappedBlks m d i ≤ c → ∀ buf', StaleBuf m d i b buf buf' → ∃ k < entriesPerBlk m.sb, p c buf' k = true) :
    ∃ x, exec m.env (scanFrom m.sb i p n b buf) d = some (.ok (some x), d) := by
  induction n generalizing b buf with
  | zero => omega
  | succ n ih =>
    by_cases hb : b < mappedBlks m d i
    · obtain ⟨a, ha⟩ := hread b (Nat.le_refl b) hbc hb
      rw [exec_scanFrom_mapped hi (by omega) ha]
      cases hf : firstSlot (p b (d.blk a)) (slotsBelow m d i b) with
      | some k => exact ⟨_, rfl⟩
      | none =>
        have hne : b ≠ c := by
          rintro rfl
          obtain ⟨a', ha', k, hk, hit⟩ := hmapped hb
          obtain rfl : a = a' := by simpa using ha.resolve.symm.trans ha'.resolve
          rw [firstSlot_none hf hk] at hit
          cases hit
        exact ih (d.blk a) (by omega) (by omega) (by omega) (fun c' h1 h2 h3 => hread c' (by omega) h2 h3)
          fun hc buf' hs => hstale hc buf' (hs.of_mapped ha hb)
    · have hb : mappedBlks m d i ≤ b := by omega
      rw [exec_scanFrom_unmapped hi hb]
      cases hf : firstSlot (p b buf) (entriesPerBlk m.sb) with
      | some k => exact ⟨_, rfl⟩
      | none =>
        have hne : b ≠ c := by
          rintro rfl
          obtain ⟨k, hk, hit⟩ := hstale hb buf (by rw [StaleBuf, if_neg (by omega)])
          rw [firstSlot_none hf hk] at hit
          cases hit
        exact ih buf (by omega) (by omega) (by omega) (fun c' h1 h2 h3 => hread c' (by omega) h2 h3)
          fun hc buf' hs => hstale hc buf' (hs.of_unmapped hb)

end Scan

section Calls

variable {heap : Block} {comp : Name} {c o : Nat} {user : User} {h h' : DirHandle}

theorem exec_findInBlocks (e : Env) (sb : Superblock) (comp : Name) (i n b : Nat) (buf : Block) (d : Disk) :
    exec e (findInBlocks sb comp i n b buf) d =
      exec e (scanFrom sb i (fun _ buf j => nameEq buf (direntBytes * j) comp) n b buf >>= fun x => match x with
        | some (_, buf, j) => pure (direntInode buf (direntBytes * j))
        | none => throw .enoent) d := by
  induction n generalizing b buf d with
  | zero => rfl
  | succ n ih =>
    rw [findInBlocks, scanFrom, exec, exec, run_bind, run_bind, run_bind]
    rcases run e.answer (readDirBlock sb i b buf) d with _ | ⟨_ | ⟨r, buf₁⟩, t⟩
    · rfl
    · rfl
    · dsimp only
      cases firstSlot (fun j => nameEq buf₁ (direntBytes * j) comp) (direntNum sb r.fraction) with
      | some j => rfl
      | none => exact (ih (b + 1) buf₁ t).trans (run_bind _ _ _)

/-- The slot at or behind global position `o`, and occupied. -/
def liveFrom (sb : Superblock) (o b : Nat) (buf : Block) (j : Nat) : Bool :=
  decide (o ≤ b * entriesPerBlk sb + j) && slotLive buf j

theorem exec_readdirFrom (e : Env) (sb : Superblock) (i n b st o : Nat) (buf : Block) (d : Disk)
    (hst : ∀ j, st ≤ j ↔ o ≤ b * entriesPerBlk sb + j) (ho : o ≤ (b + 1) * entriesPerBlk sb) :
    exec e (readdirFrom sb i n b st buf) d = exec e (scanFrom sb i (liveFrom sb o) n b buf) d := by
  induction n generalizing b st buf d with
  | zero => rfl
  | succ n ih =>
    have hp (buf : Block) : (fun j => decide (st ≤ j) && slotLive buf j) = liveFrom sb o b buf := by
      funext j
      rw [liveFrom, decide_eq_decide.mpr (hst j)]
    rw [readdirFrom, scanFrom, exec, exec, run_bind, run_bind]
    rcases run e.answer (readDirBlock sb i b buf) d with _ | ⟨_ | ⟨r, buf₁⟩, t⟩
    · rfl
    · rfl
    · dsimp only
      rw [hp]
      cases firstSlot (liveFrom sb o b buf₁) (direntNum sb r.fraction) with
      | some j => rfl
      | none => exact ih (b + 1) 0 buf₁ t (fun j => by omega) (by rw [Nat.succ_mul]; omega)

theorem exec_findDirEntryWith (hi : i < m.sb.inodeNum) :
    exec m.env (findDirEntryWith m.sb heap comp i) d =
      exec m.env (scanFrom m.sb i (fun _ buf j => nameEq buf (direntBytes * j) comp) (claimedBlks m d i) 0 heap >>= fun x =>
        match x with
        | some (_, buf, j) => pure (direntInode buf (direntBytes * j))
        | none => throw .enoent) d := by
  rw [findDirEntryWith, if_neg (m.not_isNeg' hi), exec, run_bind_ok ((m.reads_mofsReadInode _ hi).exec_eq rfl)]
  exact exec_findInBlocks _ _ _ _ _ _ _ _

/-- What a lookup that succeeds has found. -/
theorem found_of_findDirEntry (hi : i < m.sb.inodeNum) (hoff : OffEnd m d i)
    (hexec : exec m.env (findDirEntryWith m.sb heap comp i) d = some (.ok c, d')) :
    ∃ b buf j, Found m d i (fun _ buf j => nameEq buf (direntBytes * j) comp) 0 heap b buf j ∧ b < claimedBlks m d i ∧
      c = direntInode buf (direntBytes * j) := by
  rw [exec_findDirEntryWith hi] at hexec
  obtain ⟨x, t, hscan, hrest⟩ := run_bind_eq_ok hexec
  cases x with
  | none => cases hrest
  | some x =>
    obtain ⟨b, buf, j⟩ := x
    obtain ⟨hF, hlt⟩ := found_of_scanFrom hi hoff (by omega) hscan
    have hc : direntInode buf (direntBytes * j) = c ∧ t = d' := by simpa using hrest
    exact ⟨b, buf, j, hF, by omega, hc.1.symm⟩

/-- The caller may list the directory. -/
structure MayList (user : User) (x : Inode) : Prop where
  valid : user.valid = true
  isDir : x.isDir = true
  read : mofsCheckDirRead user x = .ok ()

/-- The handle after a scan. -/
def DirHandle.moved (sb : Superblock) (h : DirHandle) : Option (Nat × Block × Nat) → DirHandle
  | some (b, buf, j) => { h with
      direntOffset := u32 (b * entriesPerBlk sb + j + 1)
      direntName := slotName buf j
      direntInodeNum := direntInode buf (direntBytes * j) }
  | none => { h with direntName := [], direntInodeNum := 0 }

theorem exec_mofsReaddirCoreWith (hi : i < m.sb.inodeNum) (hused : h.used = true) (hin : h.inodeNum = i)
    (hmay : MayList user ((m.sb.view d).inode i)) :
    exec m.env (mofsReaddirCoreWith m.sb heap user h) d =
      exec m.env (scanFrom m.sb i (liveFrom m.sb h.direntOffset) (claimedBlks m d i - h.direntOffset / entriesPerBlk m.sb)
        (h.direntOffset / entriesPerBlk m.sb) heap >>= fun x => pure (h.moved m.sb x)) d := by
  obtain ⟨used, inode, o, name, num⟩ := h
  obtain rfl : used = true := hused
  obtain rfl : inode = i := hin
  have hE := m.ok.entries_ge
  have hdm := Nat.div_add_mod o (entriesPerBlk m.sb)
  have hmod := Nat.mod_lt o (show 0 < entriesPerBlk m.sb by omega)
  rw [Nat.mul_comm] at hdm
  have hfrom := exec_readdirFrom m.env m.sb inode (claimedBlks m d inode - o / entriesPerBlk m.sb)
    (o / entriesPerBlk m.sb) (o % entriesPerBlk m.sb) o heap d
    (fun j => by omega) (by rw [Nat.succ_mul]; omega)
  rw [mofsReaddirCoreWith, if_neg (by simp), exec, run_bind_ok ((m.reads_validUser hmay.valid).exec_eq rfl),
    run_bind_ok ((m.reads_mofsReadInode _ hi).exec_eq rfl), hmay.isDir, if_neg (by decide), hmay.read]
  change exec m.env (readdirFrom m.sb inode (claimedBlks m d inode - o / entriesPerBlk m.sb) _ _ heap >>= _) d = _
  rw [exec, exec, run_bind, run_bind, show run m.env.answer _ d = _ from hfrom, exec]
  rcases run m.env.answer (scanFrom m.sb inode (liveFrom m.sb o) _ _ heap) d with _ | ⟨_ | _ | ⟨b, buf, j⟩, t⟩ <;> rfl

/-- Only who may list the directory gets an answer. -/
theorem mayList_of_readdir (hin : h.inodeNum = i)
    (hexec : exec m.env (mofsReaddirCoreWith m.sb heap user h) d = some (.ok h', d')) :
    i < m.sb.inodeNum ∧ h.used = true ∧ MayList user ((m.sb.view d).inode i) := by
  rw [mofsReaddirCoreWith] at hexec
  split at hexec
  · cases hexec
  rename_i hused
  have huser := (m.reads_requireUser (m.sb.view d) user).exec_eq rfl
  cases hvalid : user.valid with
  | false =>
    rw [hvalid, if_pos rfl] at huser
    rw [exec, run_bind_error huser] at hexec
    cases hexec
  | true =>
  rw [hvalid, if_neg (by decide)] at huser
  rw [exec, run_bind_ok huser] at hexec
  have hi : i < m.sb.inodeNum := by
    by_contra hlt
    rw [hin, run_bind_error ((m.reads_mofsReadInode_einval _ (Nat.le_of_not_lt hlt)).exec_eq rfl)] at hexec
    cases hexec
  rw [hin, run_bind_ok ((m.reads_mofsReadInode _ hi).exec_eq rfl)] at hexec
  split at hexec
  · cases hexec
  rename_i hdir
  obtain ⟨u, t, hperm, -⟩ := run_bind_eq_ok hexec
  rw [run_ofExcept] at hperm
  have hperm : mofsCheckDirRead user ((m.sb.view d).inode i) = .ok u := (Prod.ext_iff.mp (Option.some.inj hperm)).1
  exact ⟨hi, by simpa using hused, hvalid, by simpa using hdir, hperm⟩

end Calls

end Mofs
