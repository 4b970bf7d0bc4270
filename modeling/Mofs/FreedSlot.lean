import Mofs.DirMap
import Mofs.FileModel

namespace Mofs

open Effect Bytes Slots

variable {sb : Superblock} {V W : View} {G : Owners} {i k : Nat} {slots : List Slot} {name : Name}

/-- What a removal of `name` from directory `i` is to leave behind: the map without that name, in a table of the same size
that takes any new entry without growing. -/
structure Freed (m : Mount) (d d₁ : Disk) (i : Nat) (name : Name) : Prop where
  gone : exec m.env (findDirEntry m.sb name i) d₁ = some (.error .enoent, d₁)
  others : ∀ comp : Name, comp ≠ [] → 0 ∉ comp → comp ≠ name →
    ∃ r, exec m.env (findDirEntry m.sb comp i) d = some (r, d) ∧ exec m.env (findDirEntry m.sb comp i) d₁ = some (r, d₁)
  size : ((m.sb.view d₁).inode i).iSize = ((m.sb.view d).inode i).iSize
  refill : ∀ (new : Name) (child : Nat), ValidName new →
    exec m.env (findDirEntry m.sb new i) d₁ = some (.error .enoent, d₁) → child ≠ 0 → child < m.sb.inodeNum →
    ∃ d₂, exec m.env (addDirEntry m.sb new i child) d₁ = some (.ok (), d₂) ∧
      ((m.sb.view d₂).inode i).iSize = ((m.sb.view d₁).inode i).iSize ∧ (m.sb.view d₂).dbit = (m.sb.view d₁).dbit

theorem vacant_isSome (h : none ∈ slots) : ∃ k, vacant slots = some k := by
  cases hv : vacant slots with
  | some k => exact ⟨k, rfl⟩
  | none => exact absurd h (vacant_eq_none.mp hv)

/-- Tables of the same length take the same number of bytes. -/
theorem DirAt.iSize_eq {slots' : List Slot} {ns ds ns' ds' : List Nat} (h : DirAt sb V i ns ds slots)
    (h' : DirAt sb W i ns' ds' slots') (hlen : slots'.length = slots.length) : (W.inode i).iSize = (V.inode i).iSize := by
  apply UInt32.toNat_inj.mp
  rw [h'.size, h.size, hlen]

theorem findDirEntry_none_iff (m : Mount) {d : Disk} {ns ds : List Nat} (h : DirAt m.sb (m.sb.view d) i ns ds slots)
    (hname : ValidName name) :
    exec m.env (findDirEntry m.sb name i) d = some (.error .enoent, d) ↔ lookup slots name = none := by
  rw [(m.reads_findDirEntry h hname.ne hname.nul).exec_eq rfl]
  cases lookup slots name <;> simp

/-- A new name in a table with a vacant slot goes there, as long as the table is not as long as tables can be. -/
theorem addDirEntry_vacant (m : Mount) {d : Disk} (hV : Wf m.sb (m.sb.view d) G) (hi : (m.sb.view d).ibit i = true)
    (h : DirAt m.sb (m.sb.view d) i (G.nodes i) (G.data i) slots) (hname : ValidName name)
    (hnew : lookup slots name = none) {child : Nat} (hc : child ≠ 0) (hlt : child < m.sb.inodeNum) (hvac : none ∈ slots)
    (hmax : slots.length < m.sb.maxSlots) :
    ∃ k d₂, exec m.env (addDirEntry m.sb name i child) d = some (.ok (), d₂) ∧ slots[k]? = some none ∧
      DirSet m.sb (m.sb.view d) (m.sb.view d₂) G i (slots.set k (some (name, child))) := by
  obtain ⟨k, hk⟩ := vacant_isSome hvac
  obtain ⟨r, d₂, hexec, hpost⟩ := (m.ensures_addDirEntry hV hi h hname hc hlt).exists rfl
  rw [AddPost, if_neg (by omega), hnew, if_neg (by simp), hk] at hpost
  obtain ⟨rfl, hS⟩ := hpost
  exact ⟨k, d₂, hexec, (vacant_spec hk).2, hS⟩

/-- At the largest size no entry is taken in, vacant slots or not. -/
theorem addDirEntry_largest (m : Mount) {d : Disk} (hV : Wf m.sb (m.sb.view d) G) (hi : (m.sb.view d).ibit i = true)
    (h : DirAt m.sb (m.sb.view d) i (G.nodes i) (G.data i) slots) (hname : ValidName name) {child : Nat} (hc : child ≠ 0)
    (hlt : child < m.sb.inodeNum) (hmax : m.sb.maxSlots ≤ slots.length) :
    ∃ d₂, exec m.env (addDirEntry m.sb name i child) d = some (.error .efbig, d₂) := by
  obtain ⟨r, d₂, hexec, hpost⟩ := (m.ensures_addDirEntry hV hi h hname hc hlt).exists rfl
  rw [AddPost, if_pos hmax] at hpost
  exact ⟨d₂, by rw [hexec, hpost.1]⟩

/-- What a successful removal has done. -/
theorem removeDirEntry_ok (m : Mount) {d d₁ : Disk} (hV : Wf m.sb (m.sb.view d) G)
    (h : DirAt m.sb (m.sb.view d) i (G.nodes i) (G.data i) slots) (hne : name ≠ []) (hnul : 0 ∉ name)
    (hexec : exec m.env (removeDirEntry m.sb name i) d = some (.ok (), d₁)) :
    ∃ k c, slots[k]? = some (some (name, c)) ∧ DirSet m.sb (m.sb.view d) (m.sb.view d₁) G i (slots.set k none) := by
  have hpost := (m.ensures_removeDirEntry hV h hne hnul).of_exec rfl hexec
  cases hl : lookup slots name with
  | none =>
    rw [hl] at hpost
    cases hpost.1
  | some c =>
    rw [hl] at hpost
    obtain ⟨-, k, hk, hS⟩ := hpost
    exact ⟨k, c, hk, hS⟩

/-- The slot that a removal frees can be used again, if and only if the directory has not the largest size (or there is no
inode number to enter). -/
theorem freed_slot_reusable_iff (m : Mount) {d d₁ : Disk} (hV : Wf m.sb (m.sb.view d) G)
    (hi : (m.sb.view d).ibit i = true) (h : DirAt m.sb (m.sb.view d) i (G.nodes i) (G.data i) slots)
    (hdist : Distinct slots) (hname : ValidName name)
    (hrem : exec m.env (removeDirEntry m.sb name i) d = some (.ok (), d₁)) :
    Freed m d d₁ i name ↔ slots.length < m.sb.maxSlots ∨ m.sb.inodeNum ≤ 1 := by
  obtain ⟨k, c, hk, hS⟩ := removeDirEntry_ok m hV h hname.ne hname.nul hrem
  have hklt : k < slots.length := (List.getElem?_eq_some_iff.mp hk).1
  have hi₁ : (m.sb.view d₁).ibit i = true := by rw [hS.ibit]; exact hi
  have hlookup (comp : Name) : lookup (slots.set k none) comp = if comp = name then none else lookup slots comp :=
    hdist.lookup_clear hk
  have hgone : exec m.env (findDirEntry m.sb name i) d₁ = some (.error .enoent, d₁) :=
    (findDirEntry_none_iff m hS.dir hname).mpr (by rw [hlookup, if_pos rfl])
  have hvac : none ∈ slots.set k none := List.mem_set hklt none
  constructor
  · intro hF
    by_contra hmax
    rw [not_or, Nat.not_lt, Nat.not_le] at hmax
    obtain ⟨d₂, hok, -⟩ := hF.refill name 1 hname hgone (by decide) hmax.2
    obtain ⟨d₃, hbig⟩ := addDirEntry_largest m hS.frame.wf hi₁ hS.dir hname Nat.one_ne_zero hmax.2
      (by rw [List.length_set]; exact hmax.1)
    rw [hok] at hbig
    cases hbig
  · intro hmax
    refine ⟨hgone, fun comp hne hnul hcomp => ?_, h.iSize_eq hS.dir List.length_set, fun new child hnew hfree hc hlt => ?_⟩
    · have hafter := (m.reads_findDirEntry hS.dir hne hnul).exec_eq rfl
      rw [hlookup, if_neg hcomp] at hafter
      exact ⟨_, (m.reads_findDirEntry h hne hnul).exec_eq rfl, hafter⟩
    · obtain ⟨j, d₂, hexec, -, hS₂⟩ := addDirEntry_vacant m hS.frame.wf hi₁ hS.dir hnew
        ((findDirEntry_none_iff m hS.dir hnew).mp hfree) hc hlt hvac (by rw [List.length_set]; omega)
      exact ⟨d₂, hexec, hS.dir.iSize_eq hS₂.dir List.length_set, hS₂.dbit⟩

theorem freed_slot_reusable_iff_letter : ∃ (m : Mount) (d d₁ : Disk) (G : Owners) (slots : List Slot),
    Wf m.sb (m.sb.view d) G ∧ (m.sb.view d).ibit rootInodeNum = true ∧
    DirAt m.sb (m.sb.view d) rootInodeNum (G.nodes rootInodeNum) (G.data rootInodeNum) slots ∧ Distinct slots ∧
    ValidName (letter 0) ∧ exec m.env (removeDirEntry m.sb (letter 0) rootInodeNum) d = some (.ok (), d₁) ∧
    (Freed m d d₁ rootInodeNum (letter 0) ↔ slots.length < m.sb.maxSlots ∨ m.sb.inodeNum ≤ 1) := by
  obtain ⟨m, d, -, hV, hi, hdir, -, -⟩ := exists_letterDir (n := 1) (by decide)
  have hname : ValidName (letter 0) := validName_letter (by decide)
  have hdist : Distinct (letterSlots 1 16) := by
    unfold Distinct
    decide
  obtain ⟨r, d₁, hexec, hpost⟩ := (m.ensures_removeDirEntry hV hdir hname.ne hname.nul).exists rfl
  rw [show lookup (letterSlots 1 16) (letter 0) = some rootInodeNum by decide] at hpost
  obtain ⟨rfl, -⟩ := hpost
  exact ⟨m, d, d₁, _, _, hV, hi, hdir, hdist, hname, hexec, freed_slot_reusable_iff m hV hi hdir hdist hname hexec⟩

section Largest

def zeroData : List UInt8 := List.replicate 524288 0

theorem length_zeroData : zeroData.length = 524288 := List.length_replicate

/-- A directory of 1024 blocks, all of its slots vacant. -/
theorem exists_vacantDir : ∃ (m : Mount) (d : Disk) (G : Owners), rootInodeNum < m.sb.inodeNum ∧ m.sb.maxSlots = 16384 ∧
    Wf m.sb (m.sb.view d) G ∧ (m.sb.view d).ibit 3 = true ∧
    DirAt m.sb (m.sb.view d) 3 (G.nodes 3) (G.data 3) (List.replicate 16384 none) := by
  have hne : zeroData ≠ [] := List.ne_nil_of_length_eq_add_one (n := 524287) length_zeroData
  obtain ⟨m, d₀, d, G, hsb, hinode, -, hok, hi, hW⟩ :=
    exists_writtenFile (show 8 < 1100 by decide) (by decide) (by decide +kernel) (by decide +kernel) (by decide +kernel) hne
      (by rw [length_zeroData]) (by rw [length_zeroData]; decide +kernel)
  have hB : m.sb.blkSize = 512 := by rw [hsb]; rfl
  have hE : entriesPerBlk m.sb = 16 := by rw [entriesPerBlk, hB]; rfl
  have hnum : 3 < m.sb.inodeNum := (hok.wf.fileAt hi).range
  have hattrs : SameAttrs emptyFile ((m.sb.view d).inode 3) := hinode ▸ hW.attrs
  have hsize : ((m.sb.view d).inode 3).iSize.toNat = 524288 := by
    rw [hW.size, hinode, length_zeroData]
    rfl
  have hlen : (G.data 3).length = 1024 := by
    rw [hok.length hi (by rw [hattrs.isDir]; rfl), hsize, Superblock.blocksFor, hB]
  -- the file becomes a directory
  let x : Inode := { (m.sb.view d).inode 3 with iMode := modeBits ftypeDir 0o777 }
  have hturn : m.Ensures (mofsWriteInode m.sb 3 x) (m.sb.view d) (fun _ W => W = (m.sb.view d).setInode 3 x) :=
    m.ensures_mofsWriteInode hnum rfl
  obtain ⟨r, d₁, -, hd₁⟩ := hturn.exists rfl
  have hfr : Frame m.sb [3] (m.sb.view d) ((m.sb.view d).setInode 3 x) G G := Frame.setInode hok.wf rfl rfl
  rw [← hd₁] at hfr
  have hx : (m.sb.view d₁).inode 3 = x := by
    rw [hd₁]
    exact Function.update_self 3 x (m.sb.view d).inode
  have hi₁ : (m.sb.view d₁).ibit 3 = true := by rw [hd₁]; exact hi
  refine ⟨m, d₁, G, lt_trans (by decide) hnum, by rw [Superblock.maxSlots, hE]; rfl, hfr.wf, hi₁, hfr.wf.fileAt hi₁, ?_, ?_,
    ?_, fun k hk => ?_⟩
  · rw [hx]
    change (modeBits ftypeDir 0o777).toNat &&& ftypeDir != 0
    decide
  · rw [hx, List.length_replicate]
    exact hsize
  · rw [hlen, List.length_replicate, Superblock.blocksFor, hB]
    rfl
  · rw [List.length_replicate] at hk
    have hpos : (k / 16 * 512 + direntBytes * (k % 16)) / 512 = k / 16 ∧
        (k / 16 * 512 + direntBytes * (k % 16)) % 512 = direntBytes * (k % 16) := by
      rw [direntBytes]
      omega
    have hbytes := hW.bytes (k / 16 * 512 + direntBytes * (k % 16)) (by rw [hB, hpos.1, hlen]; omega)
    rw [afterWrite, if_pos ⟨Nat.zero_le _, by rw [length_zeroData, direntBytes]; omega⟩, zeroData, bytesOf, hB, hpos.1,
      hpos.2, List.getD_replicate _ (by rw [direntBytes]; omega)] at hbytes
    rw [hd₁, hE, List.getD_replicate _ hk]
    exact hbytes

theorem lookup_replicate_none (n : Nat) (name : Name) : lookup (List.replicate n (none : Slot)) name = none := by
  rw [lookup_eq_none]
  intro c hm
  cases List.eq_of_mem_replicate hm

/-- The same directory with one entry. -/
theorem exists_largestDir : ∃ (m : Mount) (d : Disk) (G : Owners), rootInodeNum < m.sb.inodeNum ∧ m.sb.maxSlots = 16384 ∧
    Wf m.sb (m.sb.view d) G ∧ (m.sb.view d).ibit 3 = true ∧
    DirAt m.sb (m.sb.view d) 3 (G.nodes 3) (G.data 3) ((List.replicate 16384 none).set 0 (some (letter 0, rootInodeNum))) := by
  obtain ⟨m, d, G, hnum, hmax, hV, hi, hdir⟩ := exists_vacantDir
  have hb : 0 / entriesPerBlk m.sb < (G.data 3).length := by
    rw [Nat.zero_div, hdir.lt_blocks_iff m.ok, List.length_replicate, Nat.zero_mul]
    decide
  obtain ⟨r, d₁, -, -, W, t, hF, hd₁⟩ := (m.ensures_linkSlot hdir.file hb (letter 0) rootInodeNum ((m.sb.view d).inode 3)
    (some 0) ((m.sb.view d).blk ((G.data 3).getD 0 0))).exists rfl
  have hname : ValidName (letter 0) := validName_letter (by decide)
  have hS := hdir.set_one (k := 0) (x := Inode.stamp ((m.sb.view d).inode 3) (timeMtime ||| timeCtime) t) hV m.ok
    (by rw [List.length_replicate]; decide) hF rfl rfl ⟨rfl, rfl, rfl, rfl⟩ rfl
    (by rw [Nat.zero_mod]; exact holds_putSlot _ _ hname (by decide) (by decide))
    (fun j s hj hs => by
      rw [Nat.zero_mod] at hj ⊢
      rw [Nat.zero_div] at hs
      exact hs.putSlot_other hj hname.short _)
  have hd₁ : m.sb.view d₁ = W.setInode 3 (Inode.stamp ((m.sb.view d).inode 3) (timeMtime ||| timeCtime) t) := hd₁
  rw [← hd₁] at hS
  exact ⟨m, d₁, G, hnum, hmax, hS.frame.wf, by rw [hS.ibit]; exact hi, hS.dir⟩

/-- In a directory of 1024 blocks the one entry is removed, and cannot be put back. -/
theorem removed_not_restored : ∃ (m : Mount) (d d₁ d₂ : Disk) (G : Owners) (slots : List Slot),
    Wf m.sb (m.sb.view d) G ∧ (m.sb.view d).ibit 3 = true ∧ DirAt m.sb (m.sb.view d) 3 (G.nodes 3) (G.data 3) slots ∧
    Distinct slots ∧ exec m.env (removeDirEntry m.sb (letter 0) 3) d = some (.ok (), d₁) ∧ rootInodeNum < m.sb.inodeNum ∧
    exec m.env (findDirEntry m.sb (letter 0) 3) d₁ = some (.error .enoent, d₁) ∧
    exec m.env (addDirEntry m.sb (letter 0) 3 rootInodeNum) d₁ = some (.error .efbig, d₂) := by
  obtain ⟨m, d, G, hnum, hmax, hV, hi, hdir⟩ := exists_largestDir
  have hname : ValidName (letter 0) := validName_letter (by decide)
  have hempty : Distinct (List.replicate 16384 (none : Slot)) := by
    rw [Distinct, entries, List.reduceOption_replicate_none]
    exact List.nodup_nil
  have hfirst : (List.replicate 16384 (none : Slot))[0]? = some none := by rw [List.getElem?_replicate, if_pos (by decide)]
  have hlookup : lookup ((List.replicate 16384 (none : Slot)).set 0 (some (letter 0, rootInodeNum))) (letter 0) =
      some rootInodeNum := by
    rw [lookup_put (lookup_replicate_none 16384 (letter 0)) hfirst, if_pos rfl]
  have hdist := hempty.put (v := rootInodeNum) (lookup_replicate_none 16384 (letter 0)) hfirst
  obtain ⟨r, d₁, hexec, hpost⟩ := (m.ensures_removeDirEntry hV hdir hname.ne hname.nul).exists rfl
  rw [hlookup] at hpost
  obtain ⟨rfl, k, hk, hS⟩ := hpost
  have hgone := (findDirEntry_none_iff m hS.dir hname).mpr (by rw [hdist.lookup_clear hk, if_pos rfl])
  obtain ⟨d₂, hbig⟩ := addDirEntry_largest m hS.frame.wf (by rw [hS.ibit]; exact hi) hS.dir hname (by decide) hnum
    (by rw [hmax, List.length_set, List.length_set, List.length_replicate])
  exact ⟨m, d, d₁, d₂, G, _, hV, hi, hdir, hdist, hexec, hnum, hgone, hbig⟩

end Largest

end Mofs
