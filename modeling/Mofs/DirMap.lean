import Mofs.DirUpdate
import Mofs.Start

namespace Mofs

open Effect Bytes Slots

variable {sb : Superblock} {V W : View} {G H : Owners} {i child : Nat} {slots : List Slot} {name : Name}

/-- A well-formed directory in a consistent volume. -/
def DirOk (sb : Superblock) (V : View) (i : Nat) : Prop :=
  ∃ G slots, Wf sb V G ∧ V.ibit i = true ∧ DirAt sb V i (G.nodes i) (G.data i) slots

/-- The directory on disk `d'` is the finite map it was on `d` with one entry more. -/
structure Extends (m : Mount) (d d' : Disk) (i : Nat) (name : Name) (child : Nat) : Prop where
  ok : DirOk m.sb (m.sb.view d') i
  added : exec m.env (findDirEntry m.sb name i) d' = some (.ok child, d')
  others : ∀ comp : Name, comp ≠ [] → 0 ∉ comp → comp ≠ name →
    ∃ r, exec m.env (findDirEntry m.sb comp i) d = some (r, d) ∧ exec m.env (findDirEntry m.sb comp i) d' = some (r, d')

theorem DirSet.extends (m : Mount) {d d' : Disk} {slots' : List Slot} (hi : (m.sb.view d).ibit i = true)
    (h : DirAt m.sb (m.sb.view d) i (G.nodes i) (G.data i) slots) (hname : ValidName name)
    (hS : DirSet m.sb (m.sb.view d) (m.sb.view d') G i slots')
    (hl : ∀ comp, lookup slots' comp = if comp = name then some child else lookup slots comp) :
    Extends m d d' i name child := by
  refine ⟨⟨G, slots', hS.frame.wf, by rw [hS.ibit]; exact hi, hS.dir⟩, ?_, fun comp hne hnul hcomp => ?_⟩
  · have := (m.reads_findDirEntry hS.dir hname.ne hname.nul).exec_eq rfl
    rwa [hl, if_pos rfl] at this
  · have := (m.reads_findDirEntry hS.dir hne hnul).exec_eq rfl
    rw [hl, if_neg hcomp] at this
    exact ⟨_, (m.reads_findDirEntry h hne hnul).exec_eq rfl, this⟩

/-- A directory that has got a block without its inode knowing is not well-formed. -/
theorem Grown.not_dirOk (hok : sb.Ok) (h : DirAt sb V i (G.nodes i) (G.data i) slots)
    (hfull : slots.length % entriesPerBlk sb = 0) (hW : Grown sb V W G i) : ¬ DirOk sb W i := by
  rintro ⟨G', slots', -, -, h'⟩
  have hE := hok.entries_ge
  have hlen : slots'.length = slots.length + 1 := by
    have := hW.size
    rw [h'.size, h.size, ← Nat.mul_succ] at this
    exact Nat.eq_of_mul_eq_mul_left (by decide) this
  have hnr : (G'.data i).length = (G.data i).length := by
    rw [← h'.file.nr, hW.nr, h.file.nr]
  -- the new slot lies in a block of its own
  have hdm := Nat.div_add_mod slots.length (entriesPerBlk sb)
  rw [hfull, Nat.add_zero, Nat.mul_comm] at hdm
  have hin := (h'.lt_blocks_iff hok (b := slots.length / entriesPerBlk sb)).mpr (by omega)
  have hout := (h.lt_blocks_iff hok (b := slots.length / entriesPerBlk sb)).not.mpr (by omega)
  omega

/-- `add_dir_entry` extends the map, except when it has to append a block. -/
theorem addDirEntry_extends_iff (m : Mount) {d : Disk} (hV : Wf m.sb (m.sb.view d) G) (hi : (m.sb.view d).ibit i = true)
    (h : DirAt m.sb (m.sb.view d) i (G.nodes i) (G.data i) slots) (hname : ValidName name)
    (hnew : lookup slots name = none) (hc : child ≠ 0) (hlt : child < m.sb.inodeNum) :
    (∀ d', exec m.env (addDirEntry m.sb name i child) d = some (.ok (), d') → Extends m d d' i name child) ↔
    (none ∈ slots ∨ slots.length % entriesPerBlk m.sb ≠ 0 ∨ m.sb.maxSlots ≤ slots.length ∨
      ¬ m.sb.canGrow (m.sb.view d) (G.data i).length 1) := by
  have hadd := m.ensures_addDirEntry hV hi h hname hc hlt
  constructor
  · intro hall
    by_contra hno
    simp only [not_or, not_not, ne_eq, Nat.not_le] at hno
    obtain ⟨hocc, hmod, hmax, hgrow⟩ := hno
    obtain ⟨r, d', hexec, hpost⟩ := hadd.exists rfl
    rw [AddPost, if_neg (by omega), hnew, if_neg (by simp), vacant_eq_none.mpr hocc] at hpost
    simp only [hmod, ne_eq, not_true_eq_false, if_false, if_pos hgrow] at hpost
    obtain ⟨rfl, hW⟩ := hpost
    exact hW.not_dirOk m.ok h hmod (hall d' hexec).ok
  · intro hcond d' hexec
    have hpost := hadd.of_exec rfl hexec
    rw [AddPost] at hpost
    split at hpost
    · cases hpost.1
    · rw [hnew, if_neg (by simp)] at hpost
      cases hvac : vacant slots with
      | some k =>
        rw [hvac] at hpost
        exact hpost.2.extends m hi h hname fun comp => lookup_put hnew (vacant_spec hvac).2
      | none =>
        rw [hvac] at hpost
        dsimp only at hpost
        split at hpost
        · exact hpost.2.extends m hi h hname fun comp => lookup_append hnew
        · split at hpost
          · rename_i hmax hmod hgrow
            have := vacant_eq_none.mp hvac
            tauto
          · cases hpost.1

/-- The root directory of a fresh volume, once its block holds the given slots. -/
theorem Fresh.dirAt {x : Block} (hok : sb.Ok) (h : Fresh sb V) (hlen : slots.length = entriesPerBlk sb)
    (hx : ∀ k < slots.length, Holds x (direntBytes * k) (slots.getD k none)) :
    Wf sb (V.setBlk sb.dataRegionStart x) (freshOwners sb) ∧
    DirAt sb (V.setBlk sb.dataRegionStart x) rootInodeNum ((freshOwners sb).nodes rootInodeNum)
      ((freshOwners sb).data rootInodeNum) slots := by
  have hwf : Wf sb (V.setBlk sb.dataRegionStart x) (freshOwners sb) := by
    refine (h.wf hok).congr rfl rfl rfl fun i b hb => ?_
    have hne : b ≠ sb.dataRegionStart := by
      by_cases hi : i = rootInodeNum
      · have : b = sb.dataRegionStart + 1 := by simpa [freshOwners, hi] using hb
        omega
      · simp [freshOwners, hi] at hb
    simp only [View.setBlk, Function.update_of_ne hne]
  have hi : (V.setBlk sb.dataRegionStart x).ibit rootInodeNum = true := by
    change V.ibit rootInodeNum = true
    rw [h.ibit]
    rfl
  refine ⟨hwf, hwf.fileAt hi, h.isDir, ?_, ?_, fun k hk => ?_⟩
  · change (V.inode rootInodeNum).iSize.toNat = _
    rw [h.size, hlen, hok.blk_eq]
  · rw [hlen, ← hok.blk_eq, Superblock.blocksFor, show sb.blkSize + sb.blkSize - 1 = sb.blkSize + (sb.blkSize - 1) by
      have := hok.blk_pos; omega, Nat.add_div_left _ hok.blk_pos, Nat.div_eq_of_lt (by have := hok.blk_pos; omega)]
    rfl
  · rw [Nat.div_eq_of_lt (by omega), Nat.mod_eq_of_lt (by omega)]
    have : (V.setBlk sb.dataRegionStart x).blk ((freshOwners sb).data rootInodeNum |>.getD 0 0) = x := by
      simp [View.setBlk, freshOwners]
    rw [this]
    exact hx k hk

/-- A name of one letter. -/
def letter (k : Nat) : Name := [UInt8.ofNat (65 + k)]

theorem validName_letter {k : Nat} (hk : k < 64) : ValidName (letter k) := by
  refine ⟨by simp [letter], by simp [letter, filenameLen], ?_⟩
  simp only [letter, List.mem_singleton]
  intro h
  have := congrArg UInt8.toNat h
  rw [UInt8.toNat_ofNat_of_lt' (show 65 + k < 256 by omega), UInt8.toNat_zero] at this
  omega

/-- A directory block whose first `n` slots are taken. -/
def letterBlock : Nat → Block
  | 0 => fun _ => 0
  | n + 1 => putSlot (letterBlock n) n (letter n) rootInodeNum

def letterSlots (n total : Nat) : List Slot :=
  (List.range total).map fun k => if k < n then some (letter k, rootInodeNum) else none

theorem holds_letterBlock {n k : Nat} (hn : n ≤ 64) :
    Holds (letterBlock n) (direntBytes * k) (if k < n then some (letter k, rootInodeNum) else none) := by
  induction n with
  | zero => exact (rfl : (fun _ => (0 : UInt8)) (direntBytes * k) = 0)
  | succ n ih =>
    by_cases hk : k = n
    · subst hk
      rw [if_pos (by omega)]
      exact holds_putSlot _ _ (validName_letter (by omega)) (by decide) (by decide)
    · have := (ih (by omega)).putSlot_other hk (validName_letter (k := n) (by omega)).short rootInodeNum
      by_cases hlt : k < n
      · rw [if_pos hlt] at this
        rwa [if_pos (by omega)]
      · rw [if_neg hlt] at this
        rwa [if_neg (by omega)]

/-- A volume of 16 blocks whose root directory has `n` of its 16 slots taken. -/
theorem exists_letterDir {n : Nat} (hn : n ≤ 16) : ∃ (m : Mount) (d : Disk), m.sb.inodeNum = 4 ∧
    Wf m.sb (m.sb.view d) (freshOwners m.sb) ∧ (m.sb.view d).ibit rootInodeNum = true ∧
    DirAt m.sb (m.sb.view d) rootInodeNum ((freshOwners m.sb).nodes rootInodeNum)
      ((freshOwners m.sb).data rootInodeNum) (letterSlots n 16) ∧
    entriesPerBlk m.sb = 16 ∧ m.sb.canGrow (m.sb.view d) 1 1 := by
  obtain ⟨env, t, hboot⟩ := booted_blankDev (show 8 < 16 by decide) (by decide)
  obtain ⟨hok, hserves, hfresh⟩ := hboot.fresh (by decide) (by decide)
  generalize hsb : (geometry (16 * 512) 512).superblock 512 = sb at *
  have hnum : sb.inodeNum = 4 := by rw [← hsb]; decide
  have hdata : sb.dataBlkNum = 12 := by rw [← hsb]; decide
  have hent : entriesPerBlk sb = 16 := by rw [← hsb]; decide
  have hin : sb.inData sb.dataRegionStart := ⟨by omega, by omega⟩
  let m : Mount := ⟨sb, env, hok, hserves⟩
  have hbuild : m.Ensures (writeFull sb.dataRegionStart (letterBlock n)) (sb.view t) (fun _ W =>
      W = (sb.view t).setBlk sb.dataRegionStart (letterBlock n)) := m.ensures_writeFull hin rfl
  obtain ⟨r, d, -, hd⟩ := hbuild.exists rfl
  have hd : m.sb.view d = (sb.view t).setBlk sb.dataRegionStart (letterBlock n) := hd
  have hlen : (letterSlots n 16).length = entriesPerBlk sb := by rw [hent]; simp [letterSlots]
  obtain ⟨hwf, hdir⟩ := hfresh.dirAt hok hlen (x := letterBlock n) fun k hk => by
    have hget : (letterSlots n 16).getD k none = if k < n then some (letter k, rootInodeNum) else none := by
      rw [List.getD_eq_getElem _ _ hk]
      simp [letterSlots]
    rw [hget]
    exact holds_letterBlock (by omega)
  refine ⟨m, d, hnum, ?_, ?_, ?_, hent, ?_⟩ <;> rw [hd]
  · exact hwf
  · change (sb.view t).ibit rootInodeNum = true
    rw [hfresh.ibit]
    rfl
  · exact hdir
  · have hfree : sb.freeData ((sb.view t).setBlk sb.dataRegionStart (letterBlock n)) =
        (List.range 12).filter (fun k => !decide (k < 2)) := by
      rw [Superblock.freeData, hdata]
      refine List.filter_congr fun k hk => ?_
      rw [← hfresh.dbit k (by rw [hdata]; exact List.mem_range.mp hk)]
      rfl
    change sb.canGrow _ 1 1
    rw [Superblock.canGrow, hfree, ← hsb]
    decide

theorem lookup_letterSlots (n total k : Nat) (hk : k < 64) (hn : n ≤ k) (ht : n ≤ 64) :
    lookup (letterSlots n total) (letter k) = none := by
  rw [lookup_eq_none]
  intro c hm
  obtain ⟨j, -, hj⟩ := List.mem_map.mp hm
  split at hj
  · have hname := congrArg UInt8.toNat (List.singleton_inj.mp (Prod.mk.inj (Option.some.inj hj)).1)
    rw [UInt8.toNat_ofNat_of_lt' (show 65 + j < 256 by omega), UInt8.toNat_ofNat_of_lt' (show 65 + k < 256 by omega)] at hname
    omega
  · cases hj

theorem addDirEntry_extends_third : ∃ (m : Mount) (d : Disk), Wf m.sb (m.sb.view d) (freshOwners m.sb) ∧
    DirAt m.sb (m.sb.view d) rootInodeNum ((freshOwners m.sb).nodes rootInodeNum)
      ((freshOwners m.sb).data rootInodeNum) (letterSlots 3 16) ∧
    ((∀ d', exec m.env (addDirEntry m.sb (letter 3) rootInodeNum 3) d = some (.ok (), d') →
      Extends m d d' rootInodeNum (letter 3) 3) ↔
    (none ∈ letterSlots 3 16 ∨ (letterSlots 3 16).length % entriesPerBlk m.sb ≠ 0 ∨
      m.sb.maxSlots ≤ (letterSlots 3 16).length ∨
      ¬ m.sb.canGrow (m.sb.view d) ((freshOwners m.sb).data rootInodeNum).length 1)) := by
  obtain ⟨m, d, hnum, hwf, hi, hdir, -, -⟩ := exists_letterDir (show 3 ≤ 16 by decide)
  exact ⟨m, d, hwf, hdir, addDirEntry_extends_iff m hwf hi hdir (validName_letter (by decide))
    (lookup_letterSlots 3 16 3 (by decide) (by decide) (by decide)) (by decide) (by omega)⟩

/-- With all 16 slots of its block taken, the root directory is damaged by the next entry. -/
theorem addDirEntry_not_extends : ∃ (m : Mount) (d d' : Disk) (name : Name), DirOk m.sb (m.sb.view d) rootInodeNum ∧
    ValidName name ∧ exec m.env (findDirEntry m.sb name rootInodeNum) d = some (.error .enoent, d) ∧ 3 < m.sb.inodeNum ∧
    exec m.env (addDirEntry m.sb name rootInodeNum 3) d = some (.ok (), d') ∧ ¬ DirOk m.sb (m.sb.view d') rootInodeNum := by
  obtain ⟨m, d, hnum, hwf, hi, hdir, hent, hgrow⟩ := exists_letterDir (Nat.le_refl 16)
  have hname := validName_letter (show 16 < 64 by decide)
  have hnew := lookup_letterSlots 16 16 16 (by decide) (by decide) (by decide)
  have hlen : (letterSlots 16 16).length = 16 := by simp [letterSlots]
  have hfind := (m.reads_findDirEntry hdir hname.ne hname.nul).exec_eq rfl
  rw [hnew] at hfind
  obtain ⟨r, d', hexec, hpost⟩ := (m.ensures_addDirEntry hwf hi hdir hname (show 3 ≠ 0 by decide) (by omega)).exists rfl
  have hocc : none ∉ letterSlots 16 16 := by decide
  rw [AddPost, if_neg (by rw [Superblock.maxSlots, hent, hlen]; decide), hnew, if_neg (by simp), vacant_eq_none.mpr hocc] at hpost
  dsimp only at hpost
  rw [if_neg (by rw [hlen, hent]; decide), if_pos (show m.sb.canGrow (m.sb.view d) ((freshOwners m.sb).data rootInodeNum).length 1
    from hgrow)] at hpost
  obtain ⟨rfl, hW⟩ := hpost
  exact ⟨m, d, d', letter 16, ⟨_, _, hwf, hi, hdir⟩, hname, hfind, by omega, hexec,
    hW.not_dirOk m.ok hdir (by rw [hlen, hent])⟩

end Mofs
