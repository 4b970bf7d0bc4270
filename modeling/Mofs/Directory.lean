import Mofs.Dirent

namespace Mofs

open Effect Bytes Slots

variable {sb : Superblock} {V W : View} {G H : Owners} {i b k : Nat} {ns ds : List Nat} {slots : List Slot} {comp : Name}

/-- Inode `i` is a directory with the given slots. -/
structure DirAt (sb : Superblock) (V : View) (i : Nat) (ns ds : List Nat) (slots : List Slot) : Prop where
  file : FileAt sb V i ns ds
  isDir : (V.inode i).isDir = true
  size : (V.inode i).iSize.toNat = direntBytes * slots.length
  blocks : ds.length = sb.blocksFor (direntBytes * slots.length)
  slot : ∀ k < slots.length,
    Holds (V.blk (ds.getD (k / entriesPerBlk sb) 0)) (direntBytes * (k % entriesPerBlk sb)) (slots.getD k none)

theorem Superblock.Ok.blk_eq (h : sb.Ok) : sb.blkSize = direntBytes * entriesPerBlk sb := by
  obtain ⟨q, hq⟩ := h.blk_dvd
  rw [entriesPerBlk, direntBytes]
  omega

theorem Superblock.Ok.entries_ge (h : sb.Ok) : 16 ≤ entriesPerBlk sb := by
  have := h.blk_ge
  rw [entriesPerBlk, direntBytes]
  omega

theorem Superblock.Ok.entries_le (h : sb.Ok) : entriesPerBlk sb ≤ 2048 := by
  have := h.blk_le
  rw [entriesPerBlk, direntBytes]
  omega

/-- Block numbers in terms of slots. -/
theorem lt_blocksFor_slots (hok : sb.Ok) {n : Nat} : b < sb.blocksFor (direntBytes * n) ↔ b * entriesPerBlk sb < n := by
  rw [lt_blocksFor_iff hok.blk_pos, hok.blk_eq, Nat.mul_left_comm]
  exact Nat.mul_lt_mul_left (by decide)

namespace DirAt

theorem congr (h : DirAt sb V i ns ds slots) (hin : W.inode i = V.inode i) (hblk : ∀ b ∈ ns ++ ds, W.blk b = V.blk b)
    (hok : sb.Ok) : DirAt sb W i ns ds slots where
  file := h.file.congr hin fun b hb => hblk b (List.mem_append_left _ hb)
  isDir := hin ▸ h.isDir
  size := hin ▸ h.size
  blocks := h.blocks
  slot k hk := by
    have hE := hok.entries_ge
    have hlt : k / entriesPerBlk sb < ds.length := by
      rw [h.blocks, lt_blocksFor_slots hok]
      exact lt_of_le_of_lt (Nat.div_mul_le_self _ _) hk
    rw [List.getD_eq_getElem _ _ hlt, hblk _ (List.mem_append_right _ (List.getElem_mem hlt)),
      ← List.getD_eq_getElem _ 0 hlt]
    exact h.slot k hk

theorem lt_blocks_iff (h : DirAt sb V i ns ds slots) (hok : sb.Ok) : b < ds.length ↔ b * entriesPerBlk sb < slots.length := by
  rw [h.blocks, lt_blocksFor_slots hok]

theorem div_lt (h : DirAt sb V i ns ds slots) (hok : sb.Ok) (hk : k < slots.length) : k / entriesPerBlk sb < ds.length :=
  (h.lt_blocks_iff hok).mpr (lt_of_le_of_lt (Nat.div_mul_le_self _ _) hk)

/-- The blocks of a directory whose last block is full. -/
theorem length_of_full (h : DirAt sb V i ns ds slots) (hok : sb.Ok) (hfull : slots.length % entriesPerBlk sb = 0) :
    ds.length = slots.length / entriesPerBlk sb := by
  have hE := hok.entries_ge
  have hslots : slots.length / entriesPerBlk sb * entriesPerBlk sb = slots.length :=
    Nat.div_mul_cancel (Nat.dvd_of_mod_eq_zero hfull)
  refine eq_of_forall_lt_iff fun c => ?_
  rw [h.lt_blocks_iff hok, ← hslots, Nat.mul_lt_mul_right (by omega), hslots]

/-- The slots of one block. -/
theorem slot_in (h : DirAt sb V i ns ds slots) {j : Nat} (hj : j < entriesPerBlk sb)
    (hk : b * entriesPerBlk sb + j < slots.length) :
    Holds (V.blk (ds.getD b 0)) (direntBytes * j) (slots.getD (b * entriesPerBlk sb + j) none) := by
  have := h.slot _ hk
  rwa [Nat.mul_comm b, Nat.mul_add_div (by omega), Nat.div_eq_of_lt hj, Nat.add_zero, Nat.mul_add_mod,
    Nat.mod_eq_of_lt hj, Nat.mul_comm _ b] at this

/-- A test on the slots of one block is a test on the slots of the directory. -/
theorem firstSlot_eq (h : DirAt sb V i ns ds slots) {q : Block → Nat → Bool} {p : Slot → Bool}
    (hqp : ∀ g j s, Holds g (direntBytes * j) s → q g j = p s) (b : Nat) :
    (firstSlot (q (V.blk (ds.getD b 0))) (min (entriesPerBlk sb) (slots.length - b * entriesPerBlk sb))).map
      (b * entriesPerBlk sb + ·) =
      firstIn (fun k => p (slots.getD k none)) (b * entriesPerBlk sb)
        (min (entriesPerBlk sb) (slots.length - b * entriesPerBlk sb)) := by
  rw [firstIn_shift, firstSlot]
  have hcongr := firstIn_congr (a := 0) (n := min (entriesPerBlk sb) (slots.length - b * entriesPerBlk sb))
    (p := q (V.blk (ds.getD b 0))) (q := fun j => p (slots.getD (b * entriesPerBlk sb + j) none)) fun j _ hj =>
      hqp _ _ _ (h.slot_in (by omega) (by omega))
  rw [firstIn, firstIn, ← List.range_eq_range'] at hcongr
  rw [hcongr]

theorem unique {ns' ds' : List Nat} {slots' : List Slot} (h : DirAt sb V i ns ds slots) (h' : DirAt sb V i ns' ds' slots') :
    slots = slots' := by
  obtain ⟨-, rfl⟩ := h.file.chain.links.unique h'.file.chain.links
  have hlen : slots.length = slots'.length := by
    have := h.size.symm.trans h'.size
    exact Nat.eq_of_mul_eq_mul_left (by decide) this
  refine List.ext_getElem hlen fun k hk hk' => ?_
  rw [← List.getD_eq_getElem _ none hk, ← List.getD_eq_getElem _ none hk']
  exact (h.slot k hk).unique (h'.slot k hk')

end DirAt

/-- What a read of one block of a directory returns: it is complete, and the scans look at the slots of that block. -/
theorem DirAt.fileRead_one (h : DirAt sb V i ns ds slots) (hok : sb.Ok) (hb : b < ds.length) {r : FileRead}
    (hr : fileRead sb.blkSize (V.inode i).iSize.toNat V.blk ds b 1 = r) :
    r.buf = [V.blk (ds.getD b 0)] ∧ fullOrTail r = true ∧
      direntNum sb r.fraction = min (entriesPerBlk sb) (slots.length - b * entriesPerBlk sb) := by
  have hE : 0 < entriesPerBlk sb := by have := hok.entries_ge; omega
  have hlt := (h.lt_blocks_iff hok).mp hb
  have hbuf : ((ds.drop b).take 1).map V.blk = [V.blk (ds.getD b 0)] := by
    rw [List.drop_eq_getElem_cons hb, List.getD_eq_getElem _ _ hb]
    rfl
  have hdm := Nat.div_add_mod slots.length (entriesPerBlk sb)
  have hmod := Nat.mod_lt slots.length hE
  rw [Nat.mul_comm] at hdm
  rw [fileRead, if_neg (by omega)] at hr
  dsimp only at hr
  rw [Nat.min_eq_left (show 1 ≤ ds.length - b by omega), hbuf, h.size, hok.blk_eq, Nat.mul_div_mul_left _ _ (by decide),
    Nat.mul_mod_mul_left] at hr
  by_cases hp : slots.length / entriesPerBlk sb < b + 1
  · -- the last block, with fewer slots than it has room for
    have hq : slots.length / entriesPerBlk sb = b := by
      have := (Nat.le_div_iff_mul_le hE).mpr hlt.le
      omega
    rw [hq] at hdm
    have hpos : 0 < slots.length % entriesPerBlk sb := by omega
    rw [if_pos hp] at hr
    subst hr
    refine ⟨rfl, by simp [fullOrTail, direntBytes]; omega, ?_⟩
    rw [direntNum, if_pos (by simp only [direntBytes]; omega), Nat.mul_div_cancel_left _ (by decide)]
    omega
  · rw [if_neg hp] at hr
    subst hr
    have hle := (Nat.le_div_iff_mul_le hE).mp (Nat.not_lt.mp hp)
    rw [Nat.add_mul] at hle
    refine ⟨rfl, rfl, ?_⟩
    rw [direntNum, if_neg (by simp)]
    omega

/-- The block loops end behind the last block, where no slot is left. -/
theorem DirAt.none_left (h : DirAt sb V i ns ds slots) (hok : sb.Ok) (hb : ds.length ≤ b) :
    slots.length - b * entriesPerBlk sb = 0 := by
  have := (h.lt_blocks_iff hok (b := b)).not.mp (by omega)
  omega

/-- The entries `is_directory_empty` counts. -/
def notDot : Slot → Bool
  | some e => !(e.1 = dot || e.1 = dotdot)
  | none => false

namespace Mount

theorem reads_readDirBlock (m : Mount) (h : DirAt m.sb V i ns ds slots) (hb : b < ds.length) (buf : Block) :
    ∃ r, m.Reads (readDirBlock m.sb i b buf) V (.ok (r, V.blk (ds.getD b 0))) ∧ fullOrTail r = true ∧
      direntNum m.sb r.fraction = min (entriesPerBlk m.sb) (slots.length - b * entriesPerBlk m.sb) := by
  have hs : ds.length = m.sb.blocksFor (V.inode i).iSize.toNat := by rw [h.size]; exact h.blocks
  have hread : m.Reads (readFileDataBlock m.sb i b 1) V _ := m.reads_readFileDataBlock h.file hs (by decide)
  generalize hr : fileRead m.sb.blkSize (V.inode i).iSize.toNat V.blk ds b 1 = r at hread
  obtain ⟨hbuf, hfull, hnum⟩ := h.fileRead_one m.ok hb hr
  refine ⟨r, Reads.bind hread ?_, hfull, hnum⟩
  rw [hbuf]
  exact Reads.pure _

theorem reads_readDirBlockChecked (m : Mount) (h : DirAt m.sb V i ns ds slots) (hb : b < ds.length) (buf : Block) :
    ∃ r, m.Reads (readDirBlockChecked m.sb i b buf) V (.ok (r, V.blk (ds.getD b 0))) ∧
      direntNum m.sb r.fraction = min (entriesPerBlk m.sb) (slots.length - b * entriesPerBlk m.sb) := by
  obtain ⟨r, hread, hfull, hnum⟩ := m.reads_readDirBlock h hb buf
  refine ⟨r, Reads.bind hread ?_, hnum⟩
  dsimp only
  rw [hfull, if_neg (by decide)]
  exact Reads.pure _

/-- `find_dir_entry` returns the inode number of the first slot with the name. -/
theorem reads_findInBlocks (m : Mount) (h : DirAt m.sb V i ns ds slots) (hne : comp ≠ []) (hnul : 0 ∉ comp) {n : Nat}
    (hb : b + n = ds.length) (buf : Block) :
    m.Reads (findInBlocks m.sb comp i n b buf) V
      (match firstIn (fun k => isKey comp (slots.getD k none)) (b * entriesPerBlk m.sb)
          (slots.length - b * entriesPerBlk m.sb) with
        | some k => .ok ((slots.getD k none).elim 0 Prod.snd)
        | none => .error .enoent) := by
  induction n generalizing b buf with
  | zero =>
    rw [h.none_left m.ok (by omega)]
    exact Reads.throw _
  | succ n ih =>
    have hlt : b < ds.length := by omega
    obtain ⟨r, hread, -, hnum⟩ := m.reads_readDirBlock h hlt buf
    rw [findInBlocks, firstIn_block]
    refine Reads.bind hread ?_
    dsimp only
    rw [hnum]
    have hfirst := h.firstSlot_eq (q := fun g j => nameEq g (direntBytes * j) comp) (p := isKey comp)
      (fun g j s hs => hs.nameEq hne hnul) b
    cases hf : firstSlot (fun j => nameEq (V.blk (ds.getD b 0)) (direntBytes * j) comp)
        (min (entriesPerBlk m.sb) (slots.length - b * entriesPerBlk m.sb)) with
    | none =>
      rw [hf] at hfirst
      rw [← hfirst]
      exact ih (by omega) _
    | some j =>
      rw [hf] at hfirst
      simp only [Option.map_some] at hfirst
      rw [← hfirst, Option.some_or]
      obtain ⟨-, hj, hkey, -⟩ := firstIn_spec hfirst.symm
      have hslot := h.slot_in (b := b) (j := j) (by omega) (by omega)
      dsimp only
      cases hs : slots.getD (b * entriesPerBlk m.sb + j) none with
      | none =>
        rw [hs] at hkey
        cases hkey
      | some e =>
        rw [hs] at hslot
        rw [hslot.inode_eq]
        exact Reads.pure _

theorem reads_findDirEntry (m : Mount) (h : DirAt m.sb V i ns ds slots) (hne : comp ≠ []) (hnul : 0 ∉ comp) :
    m.Reads (findDirEntry m.sb comp i) V
      (match lookup slots comp with
        | some c => .ok c
        | none => .error .enoent) := by
  rw [findDirEntry, findDirEntryWith, if_neg (m.not_isNeg' h.file.range)]
  refine Reads.bind (m.reads_mofsReadInode V h.file.range) ?_
  rw [m.ceilBlks_eq (by rw [h.size, ← h.blocks]; exact h.file.max), h.size, ← h.blocks]
  have hfind := m.reads_findInBlocks h hne hnul (Nat.zero_add ds.length) (fun _ => 0)
  rw [Nat.zero_mul, Nat.sub_zero] at hfind
  cases hf : firstIn (fun k => isKey comp (slots.getD k none)) 0 slots.length with
  | none =>
    rw [hf] at hfind
    rw [lookup_of_firstIn_none hf]
    exact hfind
  | some k =>
    obtain ⟨c, hk, hl⟩ := lookup_of_firstIn hf
    simp only [hf] at hfind
    rw [List.getD_eq_getElem?_getD, hk] at hfind
    rw [hl]
    exact hfind

theorem reads_emptyInBlocks (m : Mount) (h : DirAt m.sb V i ns ds slots) {n : Nat} (hb : b + n = ds.length) (buf : Block) :
    m.Reads (emptyInBlocks m.sb i n b buf) V (.ok (firstIn (fun k => notDot (slots.getD k none))
      (b * entriesPerBlk m.sb) (slots.length - b * entriesPerBlk m.sb)).isNone) := by
  induction n generalizing b buf with
  | zero =>
    rw [h.none_left m.ok (by omega)]
    exact Reads.pure _
  | succ n ih =>
    have hlt : b < ds.length := by omega
    obtain ⟨r, hread, hnum⟩ := m.reads_readDirBlockChecked h hlt buf
    rw [emptyInBlocks, firstIn_block]
    refine Reads.bind hread ?_
    dsimp only
    rw [hnum]
    have hfirst := h.firstSlot_eq (q := fun g j => slotLive g j && !isDotSlot g (direntBytes * j)) (p := notDot)
      (fun g j s hs => by
        rw [hs.slotLive, isDotSlot, hs.nameEq (by decide) (by decide), hs.nameEq (by decide) (by decide)]
        cases s <;> simp [notDot, isKey]) b
    cases hf : firstSlot (fun j => slotLive (V.blk (ds.getD b 0)) j && !isDotSlot (V.blk (ds.getD b 0)) (direntBytes * j))
        (min (entriesPerBlk m.sb) (slots.length - b * entriesPerBlk m.sb)) with
    | none =>
      rw [hf] at hfirst
      rw [← hfirst]
      exact ih (by omega) _
    | some j =>
      rw [hf] at hfirst
      rw [← hfirst]
      exact Reads.pure _

theorem reads_isDirectoryEmpty (m : Mount) (h : DirAt m.sb V i ns ds slots) :
    m.Reads (isDirectoryEmpty m.sb i) V (.ok (slots.all fun s => !notDot s)) := by
  rw [isDirectoryEmpty, if_neg (m.not_isNeg' h.file.range)]
  refine Reads.bind (m.reads_mofsReadInode V h.file.range) ?_
  rw [h.isDir, if_neg (by decide), m.ceilBlks_eq (by rw [h.size, ← h.blocks]; exact h.file.max), h.size, ← h.blocks]
  have hempty := m.reads_emptyInBlocks h (Nat.zero_add ds.length) (fun _ => 0)
  rw [Nat.zero_mul, Nat.sub_zero] at hempty
  have hall : (firstIn (fun k => notDot (slots.getD k none)) 0 slots.length).isNone = slots.all fun s => !notDot s := by
    rw [Bool.eq_iff_iff, Option.isNone_iff_eq_none, firstIn_eq_none, List.all_eq_true]
    constructor
    · intro hk s hs
      obtain ⟨k, hlt, rfl⟩ := List.getElem_of_mem hs
      have := hk k (Nat.zero_le k) (by omega)
      rw [List.getD_eq_getElem _ _ hlt] at this
      simp [this]
    · intro hs k _ hk
      have hlt : k < slots.length := by omega
      have := hs _ (List.getElem_mem hlt)
      rw [List.getD_eq_getElem _ _ hlt]
      simpa using this
  rwa [hall] at hempty

end Mount

end Mofs
