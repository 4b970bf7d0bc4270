import Mofs.Mkdir

namespace Mofs

open Effect Bytes Slots Mofs.Tree

variable {sb : Superblock} {V W : View} {G : Owners} {T : Nat → List Slot} {up : Nat → Nat} {i a b q : Nat}
  {ns ds : List Nat} {rest : List Slot}

/-- What `adjust_dir_nlink` writes. -/
def nlinkInode (x : Inode) (delta : Int) (now : UInt64) : Inode :=
  Inode.stamp { x with iLinks := .ofNat ((x.iLinks.toNat + delta) % 65536).toNat } (timeMtime ||| timeCtime) now

/-- The first block of a directory after `rewrite_dotdot`. -/
def dotdotBlock (g : Block) (q : Nat) : Block := splice g (direntBytes * 1 + filenameLen) (leBytes q 4)

theorem nlinkInode_samePerm (x : Inode) (delta : Int) (now : UInt64) : SamePerm x (nlinkInode x delta now) := ⟨rfl, rfl, rfl⟩

theorem toNat_nlinkInode_pred {x : Inode} (h : x.iLinks ≠ 0) (now : UInt64) :
    (nlinkInode x (-1) now).iLinks.toNat + 1 = x.iLinks.toNat := by
  have hlt := x.iLinks.toNat_lt
  have hpos : x.iLinks.toNat ≠ 0 := fun h0 => h (UInt16.toNat_inj.mp h0)
  have he : (((x.iLinks.toNat : Int) + -1) % 65536).toNat = x.iLinks.toNat - 1 := by omega
  simp only [nlinkInode, Inode.stamp, he]
  have : (UInt16.ofNat (x.iLinks.toNat - 1)).toNat = x.iLinks.toNat - 1 := Nat.mod_eq_of_lt (by omega)
  rw [this]
  omega

theorem toNat_nlinkInode_succ {x : Inode} (h : x.iLinks.toNat < 65535) (now : UInt64) :
    (nlinkInode x 1 now).iLinks.toNat = x.iLinks.toNat + 1 := by
  have he : (((x.iLinks.toNat : Int) + 1) % 65536).toNat = x.iLinks.toNat + 1 := by omega
  simp only [nlinkInode, Inode.stamp, he]
  exact Nat.mod_eq_of_lt (by omega)

/-- The slots of a directory that begins with the two dot entries. -/
structure Dotted (sb : Superblock) (V : View) (i : Nat) (ns ds : List Nat) (a b : Nat) (rest : List Slot) : Prop where
  dir : DirAt sb V i ns ds (some (dot, a) :: some (dotdot, b) :: rest)
  large : entriesPerBlk sb ≤ rest.length + 2

theorem Vol.dotted (h : Vol sb V G T up) (hd : (V.inode i).isDir = true) (hr : i ≠ rootInodeNum) :
    Dotted sb V i (G.nodes i) (G.data i) i (up i) (T i) := by
  obtain ⟨hdir, hlarge, -, -⟩ := (h.node i).dir hd
  rw [dirSlots, lead_of_ne hr] at hdir hlarge
  exact ⟨hdir, hlarge⟩

theorem Vol.climb_isDir (h : Vol sb V G T up) {l : List Nat} (hi : (V.inode i).isDir = true) (hl : Climb up rootInodeNum i l) :
    ∀ x ∈ l, (V.inode x).isDir = true := by
  induction hl with
  | root => simpa using hi
  | @step i l hr _ ih =>
    intro x hx
    rcases List.mem_cons.mp hx with rfl | hx
    · exact hi
    · exact ih (h.up_isDir (h.used_of_isDir hi) hr) x hx

/-- Behind an entry `.`, the entry `..` is the one that is found. -/
theorem dotdotSlot_of_holds (hok : sb.Ok) {g : Block} (h0 : Holds g (direntBytes * 0) (some (dot, a)))
    (h1 : Holds g (direntBytes * 1) (some (dotdot, b))) : dotdotSlot sb g = some 1 := by
  have hE := hok.entries_ge
  have hn0 := h0.nameEq (show dotdot ≠ [] by decide) (by decide)
  have hn1 := h1.nameEq (show dotdot ≠ [] by decide) (by decide)
  have hne : dot ≠ dotdot := by decide
  simp only [isKey, hne, decide_true, decide_false] at hn0 hn1
  have hi1 := h1.inode_ne rfl
  have hrange : List.range (entriesPerBlk sb) = 0 :: 1 :: List.range' 2 (entriesPerBlk sb - 2) := by
    obtain ⟨n, hn⟩ := Nat.exists_eq_add_of_le (show 2 ≤ entriesPerBlk sb by omega)
    rw [hn, Nat.add_comm, List.range_eq_range', List.range'_succ, List.range'_succ]
    simp
  rw [dotdotSlot, firstSlot, hrange, List.find?_cons, hn0, Bool.and_false]
  simp only [List.find?_cons, hn1, hi1, Bool.and_true]

namespace Dotted

theorem data_pos (h : Dotted sb V i ns ds a b rest) (hok : sb.Ok) : 0 < ds.length := by
  have := h.dir.div_lt hok (k := 0) (by simp)
  exact Nat.lt_of_le_of_lt (Nat.zero_le _) this

/-- The first two slots stand in the first block. -/
theorem first_two (h : Dotted sb V i ns ds a b rest) (hok : sb.Ok) :
    Holds (V.blk (ds.getD 0 0)) (direntBytes * 0) (some (dot, a)) ∧
      Holds (V.blk (ds.getD 0 0)) (direntBytes * 1) (some (dotdot, b)) := by
  have hE := hok.entries_ge
  have h0 := h.dir.slot_in (b := 0) (j := 0) (by omega) (by simp)
  have h1 := h.dir.slot_in (b := 0) (j := 1) (by omega) (by simp)
  simp only [Nat.zero_mul, Nat.zero_add] at h0 h1
  exact ⟨h0, h1⟩

theorem dotdotSlot (h : Dotted sb V i ns ds a b rest) (hok : sb.Ok) : dotdotSlot sb (V.blk (ds.getD 0 0)) = some 1 :=
  dotdotSlot_of_holds hok (h.first_two hok).1 (h.first_two hok).2

end Dotted

namespace Mount

theorem reads_readFirstBlock (m : Mount) (h : Dotted m.sb V i ns ds a b rest) :
    m.Reads (readFirstBlock m.sb i) V (.ok (V.blk (ds.getD 0 0))) := by
  have hE := m.ok.entries_ge
  have hpos := h.data_pos m.ok
  have hs : ds.length = m.sb.blocksFor (V.inode i).iSize.toNat := by rw [h.dir.size]; exact h.dir.blocks
  have hread : m.Reads (readFileDataBlock m.sb i 0 1) V _ := m.reads_readFileDataBlock h.dir.file hs (by decide)
  generalize hr : fileRead m.sb.blkSize (V.inode i).iSize.toNat V.blk ds 0 1 = r at hread
  obtain ⟨hbuf, -, -⟩ := h.dir.fileRead_one m.ok hpos hr
  -- the first block is full, so it is read as a whole block
  have hwhole : r.readBlkNum = 1 ∧ r.fraction = 0 := by
    have hfull : ¬ (V.inode i).iSize.toNat / m.sb.blkSize < 0 + 1 := by
      have hlarge := h.large
      rw [h.dir.size, m.ok.blk_eq, Nat.mul_div_mul_left _ _ (by decide), Nat.not_lt, Nat.le_div_iff_mul_le (by omega)]
      simp only [List.length_cons]
      omega
    rw [fileRead, if_neg (by omega)] at hr
    dsimp only at hr
    rw [Nat.min_eq_left (show 1 ≤ ds.length - 0 by omega), if_neg hfull] at hr
    subst hr
    exact ⟨rfl, rfl⟩
  refine Reads.bind hread ?_
  rw [if_neg (by omega), hbuf]
  exact Reads.pure _

theorem reads_readDotdotParent (m : Mount) (h : Dotted m.sb V i ns ds a b rest) :
    m.Reads (readDotdotParent m.sb i) V (.ok b) := by
  refine Reads.bind (m.reads_readFirstBlock h) ?_
  rw [h.dotdotSlot m.ok]
  dsimp only
  rw [(h.first_two m.ok).2.inode_eq]
  exact Reads.pure _

theorem ensures_rewriteDotdot (m : Mount) (h : Dotted m.sb V i ns ds a b rest) (q : Nat) :
    m.Ensures (rewriteDotdot m.sb i q) V (fun r W => r = .ok () ∧
      Filled V W ds 0 1 (fun _ => dotdotBlock (V.blk (ds.getD 0 0)) q)) := by
  refine Ensures.bind_reads (m.reads_readFirstBlock h) ?_
  rw [h.dotdotSlot m.ok]
  exact m.ensures_writeDirBlock h.dir.file (h.data_pos m.ok) _

theorem ensures_adjustDirNlink (m : Mount) (hi : i < m.sb.inodeNum) (delta : Int)
    (h : ¬ (delta < 0 ∧ (V.inode i).iLinks = 0)) :
    m.Ensures (adjustDirNlink m.sb i delta) V (fun r W => r = .ok () ∧
      ∃ t, W = V.setInode i (nlinkInode (V.inode i) delta t)) := by
  refine Ensures.bind_reads (m.reads_mofsReadInode V hi) ?_
  rw [if_neg h]
  exact m.ensures_stampWrite hi (by decide) fun t => ⟨rfl, t, rfl⟩

/-- The `..` walk follows the way up to the root, as long as the entries on the way can be read. -/
theorem reads_ancestorFrom_climb (m : Mount) {guard : Nat} {l : List Nat} (hl : Climb up rootInodeNum i l)
    (hread : ∀ x ∈ l, x ≠ rootInodeNum → m.Reads (readDotdotParent m.sb x) V (.ok (up x))) (hguard : l.length ≤ guard)
    (ancestor : Nat) : m.Reads (ancestorFrom m.sb ancestor guard i) V (.ok (decide (ancestor ∈ l))) := by
  induction hl generalizing guard with
  | root =>
    cases guard with
    | zero => simp at hguard
    | succ guard =>
      rw [ancestorFrom]
      by_cases ha : rootInodeNum = ancestor
      · rw [if_pos ha, ha]
        simpa using Reads.pure true
      · rw [if_neg ha, if_pos rfl, decide_eq_false (by simpa using Ne.symm ha)]
        exact Reads.pure _
  | @step i l hr hl ih =>
    cases guard with
    | zero => simp at hguard
    | succ guard =>
      rw [ancestorFrom]
      by_cases ha : i = ancestor
      · rw [if_pos ha, ha, decide_eq_true (by simp)]
        exact Reads.pure _
      · rw [if_neg ha, if_neg hr]
        refine Reads.bind (hread i List.mem_cons_self hr) ?_
        rw [if_neg ((Climb.step hr hl).up_ne hr)]
        have := @ih guard (fun x hx => hread x (List.mem_cons_of_mem _ hx)) (by simpa using hguard)
        have hmem : ancestor ∈ i :: l ↔ ancestor ∈ l := by simp [Ne.symm ha]
        simpa only [hmem] using this

theorem reads_directoryIsAncestor (m : Mount) (h : Vol m.sb V G T up) {l : List Nat} (hi : (V.inode i).isDir = true)
    (hl : Climb up rootInodeNum i l) (ancestor : Nat) :
    m.Reads (directoryIsAncestor m.sb ancestor i) V (.ok (decide (ancestor ∈ l))) := by
  refine m.reads_ancestorFrom_climb hl (fun x hx hr => m.reads_readDotdotParent (h.dotted (h.climb_isDir hi hl x hx) hr)) ?_
    ancestor
  -- the way up has no inode twice
  have hsub : l ⊆ List.range m.sb.inodeNum := fun x hx =>
    List.mem_range.mpr (h.wf.range x (h.tree.climb_used (h.used_of_isDir hi) hl x hx))
  simpa using (hl.nodup.subperm hsub).length_le

end Mount

end Mofs
