import Mofs.Directory

namespace Mofs

open Effect Bytes Slots

variable {sb : Superblock} {V W : View} {G H : Owners} {i b k child : Nat} {ns ds : List Nat} {slots slots' : List Slot}
  {comp name : Name} {buf : Block}

/-- The first vacant slot. -/
def vacant (slots : List Slot) : Option Nat := firstIn (fun k => (slots.getD k none).isNone) 0 slots.length

theorem vacant_spec (h : vacant slots = some k) : k < slots.length ∧ slots[k]? = some none := by
  obtain ⟨-, hk, hnone, -⟩ := firstIn_spec h
  have hlt : k < slots.length := by omega
  rw [Option.isNone_iff_eq_none, List.getD_eq_getElem _ _ hlt] at hnone
  exact ⟨hlt, by rw [List.getElem?_eq_getElem hlt, hnone]⟩

theorem vacant_eq_none : vacant slots = none ↔ none ∉ slots := by
  rw [vacant, firstIn_eq_none]
  constructor
  · intro h hmem
    obtain ⟨k, hk, he⟩ := List.getElem_of_mem hmem
    have := h k (Nat.zero_le k) (by omega)
    rw [List.getD_eq_getElem _ _ hk, he] at this
    cases this
  · intro h k _ hk
    have hlt : k < slots.length := by omega
    rw [List.getD_eq_getElem _ _ hlt]
    cases hs : slots[k] with
    | none => exact absurd (hs ▸ List.getElem_mem hlt) h
    | some e => rfl

/-- The slot loop of `add_dir_entry`. -/
theorem scanSlots_eq (comp : Name) (buf : Block) (base n j : Nat) (reusable : Option Nat) :
    scanSlots comp buf base n j reusable =
      if (firstIn (fun j => slotLive buf j && nameEq buf (direntBytes * j) comp) j n).isSome then .error .eexist
      else .ok (reusable.or ((firstIn (fun j => !slotLive buf j) j n).map (base + ·))) := by
  induction n generalizing j reusable with
  | zero => simp [scanSlots]
  | succ n ih =>
    rw [scanSlots, firstIn_succ, firstIn_succ]
    by_cases hkey : slotLive buf j && nameEq buf (direntBytes * j) comp
    · simp [hkey]
    · rw [if_neg hkey, ih, if_neg hkey]
      congr 2
      cases hl : slotLive buf j <;> cases reusable <;> simp

/-- The slots of a directory after one of its blocks was written. -/
theorem DirAt.rewrite (h : DirAt sb V i ns ds slots) (hok : sb.Ok) (hb : b < ds.length)
    (hF : Filled V W ds b 1 (fun _ => buf))
    (hout : ∀ k < slots'.length, k / entriesPerBlk sb ≠ b → k < slots.length ∧ slots'.getD k none = slots.getD k none)
    (hin : ∀ j < entriesPerBlk sb, b * entriesPerBlk sb + j < slots'.length →
      Holds buf (direntBytes * j) (slots'.getD (b * entriesPerBlk sb + j) none)) :
    ∀ k < slots'.length,
      Holds (W.blk (ds.getD (k / entriesPerBlk sb) 0)) (direntBytes * (k % entriesPerBlk sb)) (slots'.getD k none) := by
  intro k hk
  have hE := hok.entries_ge
  by_cases hkb : k / entriesPerBlk sb = b
  · have hpos := Nat.div_add_mod k (entriesPerBlk sb)
    rw [hkb, Nat.mul_comm] at hpos
    have hblk : W.blk (ds.getD b 0) = buf := hF.inside 0 (by decide)
    have := hin (k % entriesPerBlk sb) (Nat.mod_lt _ (by omega)) (by omega)
    rw [hpos] at this
    rw [hkb, hblk]
    exact this
  · obtain ⟨hlt, he⟩ := hout k hk hkb
    rw [he, hF.outside]
    · exact h.slot k hlt
    · intro j hj heq
      obtain rfl : j = 0 := by omega
      exact hkb (h.file.get_inj (h.div_lt hok hlt) hb heq)

/-- What an update of directory `i` leaves: new slots, and nothing else but time stamps and the size. -/
structure DirSet (sb : Superblock) (V W : View) (G : Owners) (i : Nat) (slots : List Slot) : Prop where
  frame : Frame sb [i] V W G G
  ibit : W.ibit = V.ibit
  dbit : W.dbit = V.dbit
  attrs : SameAttrs (V.inode i) (W.inode i)
  dir : DirAt sb W i (G.nodes i) (G.data i) slots

/-- The directory itself, once one of its blocks and then its inode were written. -/
theorem DirAt.stored (h : DirAt sb V i ns ds slots) (hok : sb.Ok) (hb : b < ds.length)
    (hF : Filled V W ds b 1 (fun _ => buf)) {x : Inode} (hhead : x.iDataHead = (V.inode i).iDataHead)
    (hnr : x.iNrBlocks = (V.inode i).iNrBlocks) (hattrs : SameAttrs (V.inode i) x)
    (hsize : x.iSize.toNat = direntBytes * slots'.length) (hblocks : ds.length = sb.blocksFor (direntBytes * slots'.length))
    (hout : ∀ k < slots'.length, k / entriesPerBlk sb ≠ b → k < slots.length ∧ slots'.getD k none = slots.getD k none)
    (hin : ∀ j < entriesPerBlk sb, b * entriesPerBlk sb + j < slots'.length →
      Holds buf (direntBytes * j) (slots'.getD (b * entriesPerBlk sb + j) none)) :
    DirAt sb (W.setInode i x) i ns ds slots' := by
  have hx : (W.setInode i x).inode i = x := Function.update_self _ _ _
  have hfile := hF.fileAt h.file (by omega)
  have hslots := h.rewrite hok hb hF hout hin
  refine ⟨⟨hfile.range, ?_, ?_, hfile.max, hfile.nodup, hfile.inData⟩, ?_, ?_, hblocks, hslots⟩
  · rw [hx, hhead]
    have := hfile.chain
    rwa [hF.inode] at this
  · rw [hx, hnr]
    exact h.file.nr
  · rw [hx, hattrs.isDir]
    exact h.isDir
  · rw [hx]
    exact hsize

/-- The same for one slot of the directory. -/
theorem DirAt.stored_one (h : DirAt sb V i ns ds slots) (hok : sb.Ok) (hk : k < slots.length)
    (hF : Filled V W ds (k / entriesPerBlk sb) 1 (fun _ => buf)) {x : Inode} {s : Slot}
    (hhead : x.iDataHead = (V.inode i).iDataHead) (hnr : x.iNrBlocks = (V.inode i).iNrBlocks)
    (hattrs : SameAttrs (V.inode i) x) (hsize : x.iSize = (V.inode i).iSize)
    (hnew : Holds buf (direntBytes * (k % entriesPerBlk sb)) s)
    (hold : ∀ j s', j ≠ k % entriesPerBlk sb → Holds (V.blk (ds.getD (k / entriesPerBlk sb) 0)) (direntBytes * j) s' →
      Holds buf (direntBytes * j) s') :
    DirAt sb (W.setInode i x) i ns ds (slots.set k s) := by
  have hE := hok.entries_ge
  have hdm := Nat.div_add_mod k (entriesPerBlk sb)
  rw [Nat.mul_comm] at hdm
  refine h.stored hok (h.div_lt hok hk) hF hhead hnr hattrs ?_ ?_ (fun j hj hjb => ?_) (fun j hj hjk => ?_)
  · rw [hsize, h.size, List.length_set]
  · rw [List.length_set]
    exact h.blocks
  · rw [List.length_set] at hj
    have hne : k ≠ j := by rintro rfl; exact hjb rfl
    refine ⟨hj, ?_⟩
    rw [List.getD_eq_getElem?_getD, List.getElem?_set_ne hne, ← List.getD_eq_getElem?_getD]
  · rw [List.length_set] at hjk
    by_cases hjk' : j = k % entriesPerBlk sb
    · subst hjk'
      rw [hdm, List.getD_eq_getElem _ _ (by simpa using hk), List.getElem_set_self]
      exact hnew
    · have hne : k ≠ k / entriesPerBlk sb * entriesPerBlk sb + j := by omega
      rw [List.getD_eq_getElem?_getD, List.getElem?_set_ne hne, ← List.getD_eq_getElem?_getD]
      exact hold j _ hjk' (h.slot_in hj hjk)

/-- What such a write leaves of the volume. -/
theorem DirSet.of_stored (hV : Wf sb V G) (hb : b < (G.data i).length) (hF : Filled V W (G.data i) b 1 (fun _ => buf))
    {x : Inode} (hhead : x.iDataHead = (V.inode i).iDataHead) (hnr : x.iNrBlocks = (V.inode i).iNrBlocks)
    (hattrs : SameAttrs (V.inode i) x) (hdir : DirAt sb (W.setInode i x) i (G.nodes i) (G.data i) slots') :
    DirSet sb V (W.setInode i x) G i slots' := by
  have hfr := hF.frame hV (by omega)
  have hfr' := Frame.setInode hfr.wf (i := i) (x := x) (by rw [hF.inode]; exact hhead) (by rw [hF.inode]; exact hnr)
  have hx : (W.setInode i x).inode i = x := Function.update_self _ _ _
  exact ⟨hfr.trans hfr', hF.ibit, hF.dbit, hx.symm ▸ hattrs, hdir⟩

theorem DirAt.set (h : DirAt sb V i (G.nodes i) (G.data i) slots) (hV : Wf sb V G) (hok : sb.Ok)
    (hb : b < (G.data i).length) (hF : Filled V W (G.data i) b 1 (fun _ => buf)) {x : Inode}
    (hhead : x.iDataHead = (V.inode i).iDataHead) (hnr : x.iNrBlocks = (V.inode i).iNrBlocks)
    (hattrs : SameAttrs (V.inode i) x) (hsize : x.iSize.toNat = direntBytes * slots'.length)
    (hblocks : (G.data i).length = sb.blocksFor (direntBytes * slots'.length))
    (hout : ∀ k < slots'.length, k / entriesPerBlk sb ≠ b → k < slots.length ∧ slots'.getD k none = slots.getD k none)
    (hin : ∀ j < entriesPerBlk sb, b * entriesPerBlk sb + j < slots'.length →
      Holds buf (direntBytes * j) (slots'.getD (b * entriesPerBlk sb + j) none)) :
    DirSet sb V (W.setInode i x) G i slots' :=
  .of_stored hV hb hF hhead hnr hattrs (h.stored hok hb hF hhead hnr hattrs hsize hblocks hout hin)

theorem DirAt.set_one (h : DirAt sb V i (G.nodes i) (G.data i) slots) (hV : Wf sb V G) (hok : sb.Ok) (hk : k < slots.length)
    (hF : Filled V W (G.data i) (k / entriesPerBlk sb) 1 (fun _ => buf)) {x : Inode} {s : Slot}
    (hhead : x.iDataHead = (V.inode i).iDataHead) (hnr : x.iNrBlocks = (V.inode i).iNrBlocks)
    (hattrs : SameAttrs (V.inode i) x) (hsize : x.iSize = (V.inode i).iSize)
    (hnew : Holds buf (direntBytes * (k % entriesPerBlk sb)) s)
    (hold : ∀ j s', j ≠ k % entriesPerBlk sb → Holds (V.blk ((G.data i).getD (k / entriesPerBlk sb) 0)) (direntBytes * j) s' →
      Holds buf (direntBytes * j) s') :
    DirSet sb V (W.setInode i x) G i (slots.set k s) :=
  .of_stored hV (h.div_lt hok hk) hF hhead hnr hattrs (h.stored_one hok hk hF hhead hnr hattrs hsize hnew hold)

/-- How many slots a directory can have. -/
def Superblock.maxSlots (sb : Superblock) : Nat := maxFileDataBlocks * entriesPerBlk sb

/-- What `add_dir_entry` leaves when it appends a block: the inode of the directory still has the list it had before,
and the nodes of that list are free. -/
structure Grown (sb : Superblock) (V W : View) (G : Owners) (i : Nat) : Prop where
  ibit : W.ibit = V.ibit
  others : ∀ j, j ≠ i → W.inode j = V.inode j
  blks : ∀ j, j ≠ i → ∀ b ∈ G.owned j, W.blk b = V.blk b
  head : (W.inode i).iDataHead = (V.inode i).iDataHead
  nr : (W.inode i).iNrBlocks = (V.inode i).iNrBlocks
  size : (W.inode i).iSize.toNat = (V.inode i).iSize.toNat + direntBytes
  attrs : SameAttrs (V.inode i) (W.inode i)
  freed : ∀ b ∈ G.nodes i, W.dbit (b - sb.dataRegionStart) = false

theorem Grown.of_relisted {x : Inode} {V₁ : View} (hV : Wf sb V G) (hR : Relisted sb V V₁ G H i [])
    (hdrop : ∀ b ∈ G.nodes i, b ∉ H.owned i) (hb : b < (H.data i).length) (hF : Filled V₁ W (H.data i) b 1 (fun _ => buf))
    (hhead : x.iDataHead = (V.inode i).iDataHead) (hnr : x.iNrBlocks = (V.inode i).iNrBlocks)
    (hsize : x.iSize.toNat = (V.inode i).iSize.toNat + direntBytes) (hattrs : SameAttrs (V.inode i) x) :
    Grown sb V (W.setInode i x) G i := by
  have hx : (W.setInode i x).inode i = x := Function.update_self _ _ _
  refine ⟨hF.ibit.trans hR.ibit, fun j hj => ?_, fun j hj b' hb' => ?_, by rw [hx, hhead], by rw [hx, hnr], by rw [hx, hsize],
    by rw [hx]; exact hattrs, fun b' hb' => ?_⟩
  · simp only [View.setInode, Function.update_of_ne hj]
    rw [hF.inode]
    exact hR.inode_other j hj
  · -- the blocks of the others are neither list nodes nor data of this directory, before or after
    have hown : b' ∈ H.owned j := by
      rw [Owners.owned, (hR.others j hj).1, (hR.others j hj).2]
      exact hb'
    have hnot : b' ∉ H.owned i := fun hm => hR.wf.owned_ne hj hown hm rfl
    change W.blk b' = V.blk b'
    rw [hF.blk_of_not_mem (by omega) fun hm => hnot (hR.wf.mem_data hm)]
    exact hR.blk b' (fun hm => hV.owned_ne hj hb' (hV.mem_nodes hm) rfl) (fun hm => hnot (hR.wf.mem_nodes hm)) (by simp)
  · change W.dbit _ = false
    rw [hF.dbit]
    have hin := hV.inData i b' (hV.mem_nodes hb')
    have hlo := hin.1
    have hhi := hin.2
    have hbits := hR.wf.bits (b' - sb.dataRegionStart) (by omega)
    rw [Nat.add_sub_cancel' hlo] at hbits
    rw [Bool.eq_false_iff, Ne, hbits]
    rintro ⟨j, hj⟩
    by_cases hji : j = i
    · subst hji
      exact hdrop b' hb' hj
    · rw [Owners.owned, (hR.others j hji).1, (hR.others j hji).2] at hj
      exact hV.owned_ne hji hj (hV.mem_nodes hb') rfl

/-- What `add_dir_entry` does, by the state of the directory. -/
def AddPost (sb : Superblock) (V W : View) (G : Owners) (i : Nat) (slots : List Slot) (name : Name) (child : Nat)
    (r : Except Errno Unit) : Prop :=
  if sb.maxSlots ≤ slots.length then r = .error .efbig ∧ W = V
  else if (lookup slots name).isSome then r = .error .eexist ∧ W = V
  else
    match vacant slots with
    | some k => r = .ok () ∧ DirSet sb V W G i (slots.set k (some (name, child)))
    | none =>
      if slots.length % entriesPerBlk sb ≠ 0 then r = .ok () ∧ DirSet sb V W G i (slots ++ [some (name, child)])
      else if sb.canGrow V (G.data i).length 1 then r = .ok () ∧ Grown sb V W G i
      else r = .error .enospc ∧ W = V

/-- Appending to the last block of a directory. -/
theorem DirAt.append (h : DirAt sb V i (G.nodes i) (G.data i) slots) (hV : Wf sb V G) (hok : sb.Ok)
    (hlen : slots.length < sb.maxSlots) (hmod : slots.length % entriesPerBlk sb ≠ 0) (hname : ValidName name)
    (hc : child ≠ 0) (hc32 : child < 4294967296) (t : UInt64)
    (hF : Filled V W (G.data i) (slots.length / entriesPerBlk sb) 1 (fun _ =>
      putSlot (V.blk ((G.data i).getD (slots.length / entriesPerBlk sb) 0)) (slots.length % entriesPerBlk sb) name child)) :
    DirSet sb V (W.setInode i (Inode.stamp { V.inode i with iSize := .ofNat ((V.inode i).iSize.toNat + direntBytes) }
      (timeMtime ||| timeCtime) t)) G i (slots ++ [some (name, child)]) := by
  have hE := hok.entries_ge
  have hEle := hok.entries_le
  have hdm := Nat.div_add_mod slots.length (entriesPerBlk sb)
  rw [Nat.mul_comm] at hdm
  have hlen' : (slots ++ [some (name, child)]).length = slots.length + 1 := by simp
  have hmax : sb.maxSlots ≤ 1024 * 2048 := Nat.mul_le_mul_left 1024 hEle
  have hb : slots.length / entriesPerBlk sb < (G.data i).length := by
    rw [h.lt_blocks_iff hok]
    omega
  refine h.set hV hok hb hF rfl rfl ⟨rfl, rfl, rfl, rfl⟩ ?_ ?_ (fun k hk hkb => ?_) (fun j hj hjk => ?_)
  · simp only [Inode.stamp, hlen', h.size]
    rw [← Nat.mul_succ]
    exact Nat.mod_eq_of_lt (by simp only [direntBytes]; omega)
  · rw [hlen', h.blocks]
    refine eq_of_forall_lt_iff fun c => ?_
    rw [lt_blocksFor_slots hok, lt_blocksFor_slots hok]
    have hne : c * entriesPerBlk sb ≠ slots.length := fun he => hmod (by rw [← he, Nat.mul_mod_left])
    omega
  · have hlt : k < slots.length := by
      have hne : k ≠ slots.length := by rintro rfl; exact hkb rfl
      omega
    refine ⟨hlt, ?_⟩
    rw [List.getD_append _ _ _ _ hlt]
  · by_cases hjk' : j = slots.length % entriesPerBlk sb
    · subst hjk'
      rw [hdm, List.getD_append_right _ _ _ _ (Nat.le_refl _), Nat.sub_self]
      exact holds_putSlot _ _ hname hc hc32
    · have hlt : slots.length / entriesPerBlk sb * entriesPerBlk sb + j < slots.length := by omega
      rw [List.getD_append _ _ _ _ hlt]
      exact (h.slot_in hj hlt).putSlot_other hjk' hname.short child

namespace Mount

theorem reads_scanDirBlocks (m : Mount) (h : DirAt m.sb V i ns ds slots) (hne : comp ≠ []) (hnul : 0 ∉ comp) {n : Nat}
    (hb : b + n = ds.length) (buf : Block) (reusable : Option Nat) :
    m.Reads (scanDirBlocks m.sb comp i n b buf reusable) V
      (if (firstIn (fun k => isKey comp (slots.getD k none)) (b * entriesPerBlk m.sb)
          (slots.length - b * entriesPerBlk m.sb)).isSome then .error .eexist
        else .ok (reusable.or (firstIn (fun k => (slots.getD k none).isNone) (b * entriesPerBlk m.sb)
          (slots.length - b * entriesPerBlk m.sb)))) := by
  induction n generalizing b buf reusable with
  | zero =>
    rw [h.none_left m.ok (by omega)]
    simpa [scanDirBlocks] using Reads.pure reusable
  | succ n ih =>
    have hlt : b < ds.length := by omega
    obtain ⟨r, hread, hnum⟩ := m.reads_readDirBlockChecked h hlt buf
    rw [scanDirBlocks, firstIn_block (fun k => isKey comp (slots.getD k none)),
      firstIn_block (fun k => (slots.getD k none).isNone)]
    refine Reads.bind hread ?_
    dsimp only
    rw [hnum, scanSlots_eq]
    have hkey := h.firstSlot_eq (q := fun g j => slotLive g j && nameEq g (direntBytes * j) comp) (p := isKey comp)
      (fun g j s hs => by
        rw [hs.slotLive, hs.nameEq hne hnul]
        cases s <;> simp [isKey]) b
    have hvac := h.firstSlot_eq (q := fun g j => !slotLive g j) (p := Option.isNone)
      (fun g j s hs => by
        rw [hs.slotLive]
        cases s <;> rfl) b
    rw [firstSlot, List.range_eq_range', ← firstIn] at hkey hvac
    rw [← hkey, ← hvac]
    cases hf : firstIn (fun j => slotLive (V.blk (ds.getD b 0)) j && nameEq (V.blk (ds.getD b 0)) (direntBytes * j) comp) 0
        (min (entriesPerBlk m.sb) (slots.length - b * entriesPerBlk m.sb)) with
    | some j => exact Reads.bind_error (Reads.ofExcept _)
    | none =>
      refine Reads.bind (Reads.ofExcept _) ?_
      have := ih (b := b + 1) (by omega) (V.blk (ds.getD b 0)) (reusable.or ((firstIn (fun j =>
        !slotLive (V.blk (ds.getD b 0)) j) 0 (min (entriesPerBlk m.sb) (slots.length - b * entriesPerBlk m.sb))).map
        (b * entriesPerBlk m.sb + ·)))
      rwa [Option.or_assoc] at this

theorem ensures_writeDirBlock (m : Mount) (h : FileAt m.sb V i ns ds) (hb : b < ds.length) (buf : Block) :
    m.Ensures (writeDirBlock m.sb i b buf) V (fun r W => r = .ok () ∧ Filled V W ds b 1 (fun _ => buf)) :=
  Ensures.bind_ok (m.ensures_writeFileDataBlock h (by decide) hb) fun _ hW => Ensures.pure ⟨rfl, hW⟩

theorem ensures_removeInBlocks (m : Mount) (h : DirAt m.sb V i ns ds slots) (hne : comp ≠ []) (hnul : 0 ∉ comp) {n : Nat}
    (hb : b + n = ds.length) (buf : Block) :
    m.Ensures (removeInBlocks m.sb comp i n b buf) V (fun r W =>
      match firstIn (fun k => isKey comp (slots.getD k none)) (b * entriesPerBlk m.sb)
          (slots.length - b * entriesPerBlk m.sb) with
        | some k => r = .ok () ∧ Filled V W ds (k / entriesPerBlk m.sb) 1 (fun _ =>
          clearSlot (V.blk (ds.getD (k / entriesPerBlk m.sb) 0)) (k % entriesPerBlk m.sb))
        | none => r = .error .enoent ∧ W = V) := by
  induction n generalizing b buf with
  | zero =>
    rw [h.none_left m.ok (by omega)]
    exact Ensures.throw ⟨rfl, rfl⟩
  | succ n ih =>
    have hlt : b < ds.length := by omega
    obtain ⟨r, hread, hnum⟩ := m.reads_readDirBlockChecked h hlt buf
    rw [removeInBlocks, firstIn_block]
    refine Ensures.bind_reads hread ?_
    dsimp only
    rw [hnum]
    have hfirst := h.firstSlot_eq (q := fun g j => direntInode g (direntBytes * j) != 0 && nameEq g (direntBytes * j) comp)
      (p := isKey comp) (fun g j s hs => by
        rw [hs.nameEq hne hnul]
        cases s with
        | none => simp [isKey]
        | some e => simp [hs.inode_eq, hs.ne]) b
    cases hf : firstSlot (fun j => direntInode (V.blk (ds.getD b 0)) (direntBytes * j) != 0 &&
        nameEq (V.blk (ds.getD b 0)) (direntBytes * j) comp)
        (min (entriesPerBlk m.sb) (slots.length - b * entriesPerBlk m.sb)) with
    | none =>
      rw [hf] at hfirst
      rw [← hfirst]
      exact ih (by omega) _
    | some j =>
      rw [hf] at hfirst
      simp only [Option.map_some] at hfirst
      obtain ⟨-, hj, -, -⟩ := firstIn_spec hfirst.symm
      have hjE : j < entriesPerBlk m.sb := by omega
      rw [← hfirst, Option.some_or]
      dsimp only
      rw [Nat.mul_comm b, Nat.mul_add_div (by omega), Nat.div_eq_of_lt hjE, Nat.add_zero, Nat.mul_add_mod,
        Nat.mod_eq_of_lt hjE]
      exact m.ensures_writeDirBlock h.file hlt _

/-- `remove_dir_entry` clears the first slot with the name. -/
theorem ensures_removeDirEntry (m : Mount) (hV : Wf m.sb V G) (h : DirAt m.sb V i (G.nodes i) (G.data i) slots)
    (hne : comp ≠ []) (hnul : 0 ∉ comp) :
    m.Ensures (removeDirEntry m.sb comp i) V (fun r W =>
      match lookup slots comp with
      | some c => r = .ok () ∧ ∃ k, slots[k]? = some (some (comp, c)) ∧ DirSet m.sb V W G i (slots.set k none)
      | none => r = .error .enoent ∧ W = V) := by
  have hneg := m.not_isNeg' h.file.range
  rw [removeDirEntry, if_neg (by tauto)]
  refine Ensures.bind_reads (m.reads_mofsReadInode V h.file.range) ?_
  rw [h.isDir, if_neg (by decide), m.ceilBlks_eq (by rw [h.size, ← h.blocks]; exact h.file.max), h.size, ← h.blocks]
  have hrem := m.ensures_removeInBlocks h hne hnul (Nat.zero_add (G.data i).length) (fun _ => 0)
  rw [Nat.zero_mul, Nat.sub_zero] at hrem
  cases hf : firstIn (fun k => isKey comp (slots.getD k none)) 0 slots.length with
  | none =>
    simp only [hf] at hrem
    rw [lookup_of_firstIn_none hf]
    refine hrem.bind ?_ fun e W hr => hr
    rintro _ _ ⟨⟨⟩, -⟩
  | some k =>
    obtain ⟨c, hk, hl⟩ := lookup_of_firstIn hf
    obtain ⟨hlt, -⟩ := List.getElem?_eq_some_iff.mp hk
    simp only [hf] at hrem
    rw [hl]
    refine Ensures.bind_ok hrem fun W hF => ?_
    refine m.ensures_stampWrite h.file.range (by decide) fun t => ⟨rfl, k, hk, ?_⟩
    exact h.set_one hV m.ok hlt hF rfl rfl ⟨rfl, rfl, rfl, rfl⟩ rfl (holds_clearSlot _ _)
      fun j s' hj hs => hs.clearSlot_other hj

theorem ensures_linkSlot (m : Mount) (h : FileAt m.sb V i ns ds) {target : Nat} (hb : target / entriesPerBlk m.sb < ds.length)
    (name : Name) (child : Nat) (x : Inode) (reusable : Option Nat) (buf : Block) :
    m.Ensures (linkSlot m.sb name i child x reusable target buf) V (fun r W => r = .ok () ∧ ∃ W₁ t,
      Filled V W₁ ds (target / entriesPerBlk m.sb) 1 (fun _ => putSlot buf (target % entriesPerBlk m.sb) name child) ∧
      W = W₁.setInode i (Inode.stamp (if reusable.isNone then { x with iSize := .ofNat (x.iSize.toNat + direntBytes) } else x)
        (timeMtime ||| timeCtime) t)) :=
  Ensures.bind_ok (m.ensures_writeDirBlock h hb _) fun W hF =>
    m.ensures_stampWrite h.range (by decide) fun t => ⟨rfl, W, t, hF, rfl⟩

theorem ensures_addDirEntry (m : Mount) (hV : Wf m.sb V G) (hi : V.ibit i = true)
    (h : DirAt m.sb V i (G.nodes i) (G.data i) slots) (hname : ValidName name) (hc : child ≠ 0)
    (hlt : child < m.sb.inodeNum) :
    m.Ensures (addDirEntry m.sb name i child) V (fun r W => AddPost m.sb V W G i slots name child r) := by
  have hneg := m.not_isNeg' h.file.range
  have hneg' := m.not_isNeg hlt
  have hE := m.ok.entries_ge
  have hEle := m.ok.entries_le
  have hmax : m.sb.maxSlots ≤ 1024 * 2048 := Nat.mul_le_mul_left 1024 hEle
  have hu : u32 (maxFileDataBlocks * entriesPerBlk m.sb) = m.sb.maxSlots := Nat.mod_eq_of_lt (lt_of_le_of_lt hmax (by decide))
  have hc32 : child < 4294967296 := lt_trans hlt (lt_trans m.ok.inodes_lt (by decide))
  have hceil : ceilBlks m.sb (V.inode i).iSize.toNat = (G.data i).length := by
    rw [m.ceilBlks_eq (by rw [h.size, ← h.blocks]; exact h.file.max), h.size, ← h.blocks]
  have hdiv : (V.inode i).iSize.toNat / direntBytes = slots.length := by
    rw [h.size, Nat.mul_div_cancel_left _ (by decide)]
  have hmod : (V.inode i).iSize.toNat % direntBytes = 0 := by rw [h.size, Nat.mul_mod_right]
  have hshort := hname.short
  rw [addDirEntry, if_neg (by have := hname.ne; tauto), if_neg (by omega)]
  refine Ensures.bind_reads (m.reads_mofsReadInode V h.file.range) ?_
  simp only [h.isDir, hmod, hceil, hdiv, hu, Bool.true_eq_false, if_false, not_true_eq_false, ne_eq]
  by_cases hfull : m.sb.maxSlots ≤ slots.length
  · rw [if_pos hfull]
    refine Ensures.throw ?_
    rw [AddPost, if_pos hfull]
    exact ⟨rfl, rfl⟩
  rw [if_neg hfull]
  have hscan := m.reads_scanDirBlocks h hname.ne hname.nul (Nat.zero_add (G.data i).length) (fun _ => 0) none
  rw [Nat.zero_mul, Nat.sub_zero, Option.none_or, ← vacant] at hscan
  have hdm := Nat.div_add_mod slots.length (entriesPerBlk m.sb)
  rw [Nat.mul_comm] at hdm
  cases hkey : firstIn (fun k => isKey name (slots.getD k none)) 0 slots.length with
  | some k =>
    rw [hkey, if_pos (by rfl)] at hscan
    obtain ⟨c, -, hl⟩ := lookup_of_firstIn hkey
    refine (Reads.bind_error hscan).ensures ?_
    rw [AddPost, if_neg hfull, hl, if_pos (by rfl)]
    exact ⟨rfl, rfl⟩
  | none =>
    rw [hkey, if_neg (by simp)] at hscan
    have hl := lookup_of_firstIn_none hkey
    refine Ensures.bind_reads hscan ?_
    have hpost (r : Except Errno Unit) (W : View) : AddPost m.sb V W G i slots name child r ↔
        match vacant slots with
        | some k => r = .ok () ∧ DirSet m.sb V W G i (slots.set k (some (name, child)))
        | none =>
          if slots.length % entriesPerBlk m.sb ≠ 0 then
            r = .ok () ∧ DirSet m.sb V W G i (slots ++ [some (name, child)])
          else if m.sb.canGrow V (G.data i).length 1 then r = .ok () ∧ Grown m.sb V W G i
          else r = .error .enospc ∧ W = V := by
      rw [AddPost, if_neg hfull, hl, if_neg (by simp)]
    simp only [hpost]
    cases hvac : vacant slots with
    | some k =>
      obtain ⟨hk, hnone⟩ := vacant_spec hvac
      have hb := h.div_lt m.ok hk
      simp only [Option.getD_some]
      rw [if_neg (by omega)]
      obtain ⟨r, hread, -⟩ := m.reads_readDirBlockChecked h hb (fun _ => 0)
      refine Ensures.bind_reads hread ?_
      refine (m.ensures_linkSlot h.file hb name child (V.inode i) (some k) _).mono fun r W hr => ?_
      obtain ⟨rfl, W₁, t, hF, rfl⟩ := hr
      exact ⟨rfl, h.set_one hV m.ok hk hF rfl rfl ⟨rfl, rfl, rfl, rfl⟩ rfl (holds_putSlot _ _ hname hc hc32)
        fun j s' hj hs => hs.putSlot_other hj hshort child⟩
    | none =>
      simp only [Option.getD_none]
      by_cases hroom : slots.length % entriesPerBlk m.sb ≠ 0
      · have hb : slots.length / entriesPerBlk m.sb < (G.data i).length := by
          rw [h.lt_blocks_iff m.ok]
          omega
        rw [if_neg (by omega)]
        obtain ⟨r, hread, -⟩ := m.reads_readDirBlockChecked h hb (fun _ => 0)
        refine Ensures.bind_reads hread ?_
        refine (m.ensures_linkSlot h.file hb name child (V.inode i) none _).mono fun r W hr => ?_
        obtain ⟨rfl, W₁, t, hF, rfl⟩ := hr
        rw [if_pos hroom]
        exact ⟨rfl, h.append hV m.ok (Nat.not_le.mp hfull) hroom hname hc hc32 t hF⟩
      · -- every slot is taken: the directory needs a new block
        have hblk := h.length_of_full m.ok (not_not.mp hroom)
        have hfew : slots.length / entriesPerBlk m.sb < maxFileDataBlocks :=
          (Nat.div_lt_iff_lt_mul (by omega)).mpr (Nat.not_le.mp hfull)
        rw [if_pos (by omega), if_neg (by omega)]
        simp only [if_neg hroom]
        refine Ensures.bind (m.ensures_allocateDataBlock hV h.file.range hi (by decide) (by decide)) ?_ ?_
        · intro _ V₁ hr
          by_cases hgrow : m.sb.canGrow V (G.data i).length 1
          · rw [if_pos hgrow] at hr
            simp only [if_pos hgrow]
            obtain ⟨-, H, ⟨hR, hdrop⟩, hdata⟩ := hr
            have hfree : 0 < (m.sb.freeData V).length := by have := hgrow.2; omega
            have hb : slots.length / entriesPerBlk m.sb < (H.data i).length := by
              rw [hdata, List.length_append, length_abs, List.length_take]
              omega
            have hfile := hR.wf.fileAt (i := i) (by rw [hR.ibit]; exact hi)
            refine Ensures.bind_ok (m.ensures_linkSlot hfile hb name child (V.inode i) none _).attempt_eq ?_
            rintro W ⟨W₁, t, hF, rfl⟩
            refine Ensures.pure ⟨rfl, Grown.of_relisted hV hR hdrop hb hF rfl rfl ?_ ⟨rfl, rfl, rfl, rfl⟩⟩
            simp only [Option.isNone_none, if_true, Inode.stamp, h.size]
            rw [← Nat.mul_succ]
            exact Nat.mod_eq_of_lt (by simp only [direntBytes]; omega)
          · rw [if_neg hgrow] at hr
            cases hr.1
        · intro e W hr
          by_cases hgrow : m.sb.canGrow V (G.data i).length 1
          · rw [if_pos hgrow] at hr
            cases hr.1
          · rw [if_neg hgrow] at hr ⊢
            cases hr.1
            exact ⟨rfl, hr.2⟩

end Mount

end Mofs
