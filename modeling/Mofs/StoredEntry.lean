import Mofs.DirScan
import Mofs.DirMap
import Mofs.FileModel
import Mofs.ListingRun

namespace Mofs

open Effect Bytes Slots Mount

variable {m : Mount} {d d' : Disk} {i b n j a : Nat} {buf : Block}

/-- Entry `e` stands in slot `s.2` of block `s.1` of directory `i`, a mapped block, below the size. -/
structure StoredAt (m : Mount) (d : Disk) (i : Nat) (s : Nat × Nat) (e : Name × Nat) : Prop where
  inBlock : s.2 < entriesPerBlk m.sb
  below : s.1 * m.sb.blkSize + direntBytes * (s.2 + 1) ≤ ((m.sb.view d).inode i).iSize.toNat
  holds : ∃ a, MappedTo m d i s.1 a ∧ slotName (d.blk a) s.2 = e.1 ∧ direntInode (d.blk a) (direntBytes * s.2) = e.2

section Property

variable {user : User} {h h' : DirHandle} {out : List (Name × Nat)} {e : Name × Nat}

/-- Entries that calls of `mofs_readdir_core` on one handle return, one after the other. Every call has a buffer of its
own. -/
inductive Lists (m : Mount) (d : Disk) (user : User) : DirHandle → List (Name × Nat) → Prop
  | stop (h : DirHandle) : Lists m d user h []
  | next {h h' : DirHandle} {heap : Block} {e : Name × Nat} {out : List (Name × Nat)}
      (hcall : exec m.env (mofsReaddirCoreWith m.sb heap user h) d = some (.ok h', d)) (he : direntOf h' = some e)
      (rest : Lists m d user h' out) : Lists m d user h (e :: out)

/-- Lookup and listing report only what is stored in directory `i`, whatever their buffers hold at first. -/
structure Faithful (m : Mount) (d : Disk) (i : Nat) (user : User) : Prop where
  find : ∀ (heap : Block) (name : Name) (c : Nat) (d' : Disk), 0 ∉ name →
    exec m.env (findDirEntryWith m.sb heap name i) d = some (.ok c, d') → ∃ s, StoredAt m d i s (name, c)
  list : ∀ out, Lists m d user ⟨true, i, 0, [], 0⟩ out → ∃ ss : List (Nat × Nat), ss.Nodup ∧
    List.Forall₂ (StoredAt m d i) ss out

/-- The content of the device on which they do. -/
structure Orderly (m : Mount) (d : Disk) (i : Nat) (user : User) : Prop where
  /-- The names a lookup gets to see end within their fields. -/
  named : ∀ b a j (name : Name), b < claimedBlks m d i → (∀ c < b, ∃ a, MappedTo m d i c a) → MappedTo m d i b a →
    j < slotsBelow m d i b → 0 ∉ name → nameEq (d.blk a) (direntBytes * j) name = true → name.length ≤ filenameLen
  /-- The size claims no more blocks than are mapped; or a scan breaks off at a block that cannot be read; or the last
  mapped block, which is scanned again in place of those that are missing, has no entry. -/
  covered : claimedBlks m d i ≤ mappedBlks m d i ∨ (∃ b < mappedBlks m d i, ∀ a, ¬ MappedTo m d i b a) ∨
    (0 < mappedBlks m d i ∧ ∀ a, MappedTo m d i (mappedBlks m d i - 1) a → MayList user ((m.sb.view d).inode i) →
      ∀ j < entriesPerBlk m.sb, slotLive (d.blk a) j = false)

theorem slotsBelow_full (hb : b + 1 < claimedBlks m d i) : slotsBelow m d i b = entriesPerBlk m.sb := by
  have hlow := (lt_claimedBlks hb).1
  have hE := m.ok.blk_eq
  rw [Nat.succ_mul] at hlow
  rw [slotsBelow, Nat.min_eq_left]
  rw [Nat.le_div_iff_mul_le (by decide), Nat.mul_comm, ← hE]
  omega

theorem MappedTo.storedAt (ha : MappedTo m d i b a) (hb : b < claimedBlks m d i) (hj : j < slotsBelow m d i b) :
    StoredAt m d i (b, j) (slotName (d.blk a) j, direntInode (d.blk a) (direntBytes * j)) := by
  have hlow := (lt_claimedBlks hb).1
  rw [slotsBelow, Nat.lt_min] at hj
  have hmul := (Nat.le_div_iff_mul_le (show 0 < direntBytes by decide)).mp hj.2
  rw [Nat.mul_comm, Nat.succ_eq_add_one] at hmul
  refine ⟨hj.1, ?_, a, ha, rfl, rfl⟩
  change b * m.sb.blkSize + direntBytes * (j + 1) ≤ _
  omega

theorem Orderly.find (hO : Orderly m d i user) (hi : i < m.sb.inodeNum) (hoff : OffEnd m d i) {heap : Block} {name : Name}
    {c : Nat} (hnul : 0 ∉ name) (hexec : exec m.env (findDirEntryWith m.sb heap name i) d = some (.ok c, d')) :
    ∃ s, StoredAt m d i s (name, c) := by
  obtain ⟨b, buf, j, hF, hb, rfl⟩ := found_of_findDirEntry hi hoff hexec
  rcases hF.source with ⟨a, ha, rfl, hj⟩ | ⟨hmapped, hj, hstale⟩
  · have hbefore : ∀ c < b, ∃ a, MappedTo m d i c a := fun c hc => by
      have := ha.lt_mappedBlks hi
      obtain ⟨a', ha', -⟩ := hF.before c (Nat.zero_le c) hc (by omega)
      exact ⟨a', ha'⟩
    have hlen := hO.named b a j name hb hbefore ha hj hnul hF.hit
    have := ha.storedAt hb hj
    rw [slotName_of_nameEq hnul hlen hF.hit] at this
    exact ⟨_, this⟩
  · rw [StaleBuf] at hstale
    split at hstale
    · -- the last mapped block was scanned before, without success
      rename_i hpos
      obtain ⟨a, ha, rfl⟩ := hstale
      obtain ⟨a', ha', hnone⟩ := hF.before (mappedBlks m d i - 1) (Nat.zero_le _) (by omega) (by omega)
      obtain rfl : a = a' := by simpa using ha.resolve.symm.trans ha'.resolve
      have := hnone j (by rw [slotsBelow_full (by omega)]; exact hj)
      rw [hF.hit] at this
      cases this
    · exfalso
      rcases hO.covered with hle | ⟨c, hc, -⟩ | ⟨hpos, -⟩ <;> omega

theorem direntOf_some {h : DirHandle} (he : direntOf h = some e) :
    e = (h.direntName, h.direntInodeNum) ∧ h.direntName ≠ [] ∧ h.direntInodeNum ≠ 0 := by
  rw [direntOf] at he
  split at he
  · rename_i hc
    exact ⟨(Option.some.inj he).symm, hc.2, hc.1⟩
  · cases he

/-- A position a handle can have: the start, or behind an occupied slot that a scan can reach. -/
def Reached (m : Mount) (d : Disk) (i o : Nat) : Prop :=
  o = 0 ∨ ∃ b j a, (∀ c < b, ∃ a, MappedTo m d i c a) ∧ MappedTo m d i b a ∧ j < entriesPerBlk m.sb ∧
    slotLive (d.blk a) j = true ∧ o = b * entriesPerBlk m.sb + j + 1

/-- All blocks before the position can be read. -/
theorem Reached.mapped {o c : Nat} (h : Reached m d i o) (hc : c < o / entriesPerBlk m.sb) : ∃ a, MappedTo m d i c a := by
  have hE := m.ok.entries_ge
  rcases h with rfl | ⟨b, j, a, hbefore, ha, hj, -, rfl⟩
  · rw [Nat.zero_div] at hc
    omega
  · have hmul := (Nat.le_div_iff_mul_le (show 0 < entriesPerBlk m.sb by omega)).mp hc
    rw [Nat.succ_eq_add_one] at hmul
    have hle : c ≤ b := by
      by_contra hlt
      have := Nat.mul_le_mul_right (entriesPerBlk m.sb) (show b + 2 ≤ c + 1 by omega)
      rw [Nat.add_mul] at this
      omega
    by_cases heq : c = b
    · exact heq ▸ ⟨a, ha⟩
    · exact hbefore c (by omega)

theorem u32_slot (hb : b < claimedBlks m d i) (hj : j < entriesPerBlk m.sb) :
    u32 (b * entriesPerBlk m.sb + j + 1) = b * entriesPerBlk m.sb + j + 1 := by
  have hlow := (lt_claimedBlks hb).1
  have hsize := ((m.sb.view d).inode i).iSize.toNat_lt
  have hE := m.ok.entries_le
  rw [m.ok.blk_eq, Nat.mul_left_comm, direntBytes] at hlow
  refine Nat.mod_eq_of_lt ?_
  omega

/-- On such a device a call returns an entry behind the position of its handle, from a stored slot. -/
theorem Orderly.readdir (hO : Orderly m d i user) (hoff : OffEnd m d i) {heap : Block} (hin : h.inodeNum = i)
    (hR : Reached m d i h.direntOffset) (hexec : exec m.env (mofsReaddirCoreWith m.sb heap user h) d = some (.ok h', d'))
    (he : direntOf h' = some e) :
    ∃ b j, h.direntOffset ≤ b * entriesPerBlk m.sb + j ∧ h'.direntOffset = b * entriesPerBlk m.sb + j + 1 ∧
      h'.inodeNum = i ∧ StoredAt m d i (b, j) e ∧ Reached m d i h'.direntOffset := by
  have hE := m.ok.entries_ge
  obtain ⟨hi, hused, hmay⟩ := mayList_of_readdir hin hexec
  rw [exec_mofsReaddirCoreWith hi hused hin hmay] at hexec
  obtain ⟨x, t, hscan, hmoved⟩ := run_bind_eq_ok hexec
  obtain ⟨rfl, -⟩ : h.moved m.sb x = h' ∧ t = d' := by simpa using hmoved
  cases x with
  | none => simp [DirHandle.moved, direntOf] at he
  | some x =>
    obtain ⟨b, buf, j⟩ := x
    obtain ⟨rfl, -⟩ := direntOf_some he
    by_cases hstart : claimedBlks m d i ≤ h.direntOffset / entriesPerBlk m.sb
    · rw [Nat.sub_eq_zero_of_le hstart] at hscan
      cases hscan
    obtain ⟨hF, hlt⟩ := found_of_scanFrom hi hoff (by omega) hscan
    have hb : b < claimedBlks m d i := by omega
    have hhit := hF.hit
    rw [liveFrom, Bool.and_eq_true, decide_eq_true_eq] at hhit
    rcases hF.source with ⟨a, ha, rfl, hj⟩ | ⟨hmapped, hj, hstale⟩
    · have hjE : j < entriesPerBlk m.sb := Nat.lt_of_lt_of_le hj (Nat.min_le_left _ _)
      have hoffset : (h.moved m.sb (some (b, d.blk a, j))).direntOffset = b * entriesPerBlk m.sb + j + 1 := u32_slot hb hjE
      refine ⟨b, j, hhit.1, hoffset, hin, ha.storedAt hb hj, .inr ⟨b, j, a, fun c hc => ?_, ha, hjE, hhit.2, hoffset⟩⟩
      by_cases hlow : c < h.direntOffset / entriesPerBlk m.sb
      · exact hR.mapped hlow
      · have := ha.lt_mappedBlks hi
        obtain ⟨a', ha', -⟩ := hF.before c (by omega) hc (by omega)
        exact ⟨a', ha'⟩
    · exfalso
      rcases hO.covered with hle | ⟨c, hc, hno⟩ | ⟨hpos, hempty⟩
      · omega
      · by_cases hlow : c < h.direntOffset / entriesPerBlk m.sb
        · obtain ⟨a, ha⟩ := hR.mapped hlow
          exact hno a ha
        · obtain ⟨a, ha, -⟩ := hF.before c (by omega) (by omega) hc
          exact hno a ha
      · rw [StaleBuf] at hstale
        split at hstale
        · obtain ⟨a, ha, rfl⟩ := hstale
          rw [hempty a ha hmay j hj] at hhit
          cases hhit.2
        · -- the handle stands behind an entry of the last mapped block
          rename_i hge
          rcases hR with h0 | ⟨b₁, j₁, a, -, ha, hj₁, hlive, ho⟩
          · rw [h0, Nat.zero_div] at hge
            omega
          · have hb₁ := ha.lt_mappedBlks hi
            have hmul := (Nat.le_div_iff_mul_le (show 0 < entriesPerBlk m.sb by omega)).mp (Nat.le_of_not_lt hge)
            have hlast : b₁ = mappedBlks m d i - 1 := by
              by_contra hne
              have := Nat.mul_le_mul_right (entriesPerBlk m.sb) (show b₁ + 2 ≤ mappedBlks m d i by omega)
              rw [Nat.add_mul] at this
              omega
            rw [hempty a (hlast ▸ ha) hmay j₁ hj₁] at hlive
            cases hlive

/-- All that a listing returns is stored, slot after slot. -/
theorem Orderly.list (hO : Orderly m d i user) (hoff : OffEnd m d i) (hL : Lists m d user h out) (hin : h.inodeNum = i)
    (hR : Reached m d i h.direntOffset) :
    ∃ ss : List (Nat × Nat), List.Forall₂ (StoredAt m d i) ss out ∧
      (∀ s ∈ ss, h.direntOffset ≤ s.1 * entriesPerBlk m.sb + s.2) ∧
      (ss.map fun s => s.1 * entriesPerBlk m.sb + s.2).Pairwise (· < ·) := by
  induction hL with
  | stop => exact ⟨[], .nil, by simp, List.Pairwise.nil⟩
  | next hcall he rest ih =>
    obtain ⟨b, j, hle, hoffset, hin', hS, hR'⟩ := hO.readdir hoff hin hR hcall he
    obtain ⟨ss, hss, hge, hsorted⟩ := ih hin' hR'
    refine ⟨(b, j) :: ss, .cons hS hss, fun s hs => ?_, List.pairwise_cons.mpr ⟨fun k hk => ?_, hsorted⟩⟩
    · rcases List.mem_cons.mp hs with rfl | hs
      · exact hle
      · have := hge s hs
        omega
    · obtain ⟨s, hs, rfl⟩ := List.mem_map.mp hk
      have := hge s hs
      dsimp only
      omega

/-- A buffer with an entry that no block has. -/
def strayBlock : Block := putSlot (fun _ => 0) 0 (letter 0) rootInodeNum

theorem holds_strayBlock : Holds strayBlock (direntBytes * 0) (some (letter 0, rootInodeNum)) :=
  holds_putSlot _ 0 (validName_letter (by decide)) (by decide) (by decide)

theorem length_slotName_le (g : Block) (j : Nat) : (slotName g j).length ≤ filenameLen := by
  refine (List.takeWhile_prefix _).length_le.trans ?_
  simp [slice]

theorem slotLive_iff {g : Block} : slotLive g j = true ↔ slotName g j ≠ [] ∧ direntInode g (direntBytes * j) ≠ 0 := by
  have hname : slotName g j ≠ [] ↔ g (direntBytes * j) ≠ 0 := by
    rw [slotName, show filenameLen = 27 + 1 from rfl]
    simp [slice, List.range_succ_eq_map, List.takeWhile_cons]
  rw [slotLive, hname]
  simp [and_comm]

theorem findDirEntry_of_scan {heap : Block} {name : Name} (hi : i < m.sb.inodeNum) {x : Nat × Block × Nat}
    (hscan : exec m.env (scanFrom m.sb i (fun _ buf j => nameEq buf (direntBytes * j) name) (claimedBlks m d i) 0 heap) d =
      some (.ok (some x), d)) :
    exec m.env (findDirEntryWith m.sb heap name i) d = some (.ok (direntInode x.2.1 (direntBytes * x.2.2)), d) := by
  rw [exec_findDirEntryWith hi, exec, run_bind_ok hscan]
  rfl

/-- Where lookups are faithful, no name they get to see runs over its field. -/
theorem Faithful.named (hF : Faithful m d i user) (hi : i < m.sb.inodeNum) {name : Name} (hb : b < claimedBlks m d i)
    (hbefore : ∀ c < b, ∃ a, MappedTo m d i c a) (ha : MappedTo m d i b a) (hj : j < slotsBelow m d i b) (hnul : 0 ∉ name)
    (hname : nameEq (d.blk a) (direntBytes * j) name = true) : name.length ≤ filenameLen := by
  have hmapped := ha.lt_mappedBlks hi
  obtain ⟨x, hscan⟩ := scanFrom_finds (p := fun _ buf j => nameEq buf (direntBytes * j) name) (fun _ => 0) hi
    (Nat.le_of_eq (Nat.zero_add _)) (Nat.zero_le b) (by omega)
    (fun c _ hc _ => if h : c = b then h ▸ ⟨a, ha⟩ else hbefore c (by omega)) (fun _ => ⟨a, ha, j, hj, hname⟩)
    (fun hle => absurd hle (by omega))
  obtain ⟨s, hS⟩ := hF.find _ _ _ _ hnul (findDirEntry_of_scan hi hscan)
  obtain ⟨a', -, hslot, -⟩ := hS.holds
  have hslot : slotName (d.blk a') s.2 = name := hslot
  rw [← hslot]
  exact length_slotName_le _ _

/-- Where no block is mapped, lookups find what is in the buffer by chance. -/
theorem Faithful.mapped_pos (hF : Faithful m d i user) (hi : i < m.sb.inodeNum) (hclaim : 0 < claimedBlks m d i) :
    0 < mappedBlks m d i := by
  by_contra h0
  have hE := m.ok.entries_ge
  have hname : ValidName (letter 0) := validName_letter (by decide)
  obtain ⟨x, hscan⟩ := scanFrom_finds (p := fun _ buf j => nameEq buf (direntBytes * j) (letter 0)) strayBlock hi
    (Nat.le_of_eq (Nat.zero_add _)) (Nat.le_refl 0) (by omega) (fun c _ hc hlt => absurd hlt (by omega))
    (fun hlt => absurd hlt h0) (fun _ buf' hs => by
      rw [StaleBuf, if_neg h0] at hs
      refine ⟨0, by omega, ?_⟩
      rw [hs, holds_strayBlock.nameEq hname.ne hname.nul]
      rfl)
  obtain ⟨s, hS⟩ := hF.find _ _ _ _ hname.nul (findDirEntry_of_scan hi hscan)
  obtain ⟨a, ha, -⟩ := hS.holds
  have := ha.lt_mappedBlks hi
  omega

theorem length_filter_of_firstIn {t : Nat → Bool} {a n k : Nat} (h : firstIn t a n = some k) :
    ((List.range' a n).filter t).length = ((List.range' (k + 1) (a + n - (k + 1))).filter t).length + 1 := by
  obtain ⟨hle, hlt, hk, hmin⟩ := firstIn_spec h
  obtain ⟨c, rfl⟩ := Nat.exists_eq_add_of_le hle
  obtain ⟨r, rfl⟩ : ∃ r, n = c + (r + 1) := ⟨n - c - 1, by omega⟩
  have hnone : (List.range' a c).filter t = [] := by
    rw [List.filter_eq_nil_iff]
    intro j hj
    rw [List.mem_range'_1] at hj
    simp [hmin j hj.1 (by omega)]
  rw [show a + (c + (r + 1)) - (a + c + 1) = r by omega, ← List.range'_append_1, List.filter_append, hnone, List.nil_append,
    List.range'_succ, List.filter_cons_of_pos hk, List.length_cons]

/-- Is slot `k` occupied, counted through the blocks that `f` maps? -/
def cellLive (m : Mount) (d : Disk) (f : Nat → Nat) (k : Nat) : Bool :=
  slotLive (d.blk (f (k / entriesPerBlk m.sb))) (k % entriesPerBlk m.sb)

theorem readdir_of_scan {heap : Block} (hi : i < m.sb.inodeNum) (hused : h.used = true) (hin : h.inodeNum = i)
    (hmay : MayList user ((m.sb.view d).inode i)) {b : Nat}
    (hscan : exec m.env (scanFrom m.sb i (liveFrom m.sb h.direntOffset)
      (claimedBlks m d i - h.direntOffset / entriesPerBlk m.sb) (h.direntOffset / entriesPerBlk m.sb) heap) d =
        some (.ok (some (b, buf, j)), d)) (hlive : slotLive buf j = true) :
    exec m.env (mofsReaddirCoreWith m.sb heap user h) d = some (.ok (h.moved m.sb (some (b, buf, j))), d) ∧
      direntOf (h.moved m.sb (some (b, buf, j))) = some (slotName buf j, direntInode buf (direntBytes * j)) := by
  obtain ⟨hname, hinode⟩ := slotLive_iff.mp hlive
  refine ⟨?_, if_pos ⟨hinode, hname⟩⟩
  rw [exec_mofsReaddirCoreWith hi hused hin hmay, exec, run_bind_ok hscan]
  rfl

variable {f : Nat → Nat}

/-- A call on a handle before an occupied slot of the mapped blocks moves it over that slot. -/
theorem readdir_mapped (hi : i < m.sb.inodeNum) (hoff : OffEnd m d i) (hmay : MayList user ((m.sb.view d).inode i))
    (hclaim : mappedBlks m d i < claimedBlks m d i) (hf : ∀ b < mappedBlks m d i, MappedTo m d i b (f b))
    (hused : h.used = true) (hin : h.inodeNum = i) {k : Nat}
    (hk : firstIn (cellLive m d f) h.direntOffset (mappedBlks m d i * entriesPerBlk m.sb - h.direntOffset) = some k) :
    ∃ h' e, exec m.env (mofsReaddirCoreWith m.sb (fun _ => 0) user h) d = some (.ok h', d) ∧ direntOf h' = some e ∧
      h'.used = true ∧ h'.inodeNum = i ∧ h'.direntOffset = k + 1 := by
  have hE := m.ok.entries_ge
  have hE0 : 0 < entriesPerBlk m.sb := by omega
  obtain ⟨hle, hlt, hlive, hmin⟩ := firstIn_spec hk
  have hkb : k / entriesPerBlk m.sb < mappedBlks m d i := (Nat.div_lt_iff_lt_mul hE0).mpr (by omega)
  have hdm := Nat.div_add_mod k (entriesPerBlk m.sb)
  rw [Nat.mul_comm] at hdm
  have hmod := Nat.mod_lt k hE0
  have hstart : h.direntOffset / entriesPerBlk m.sb ≤ k / entriesPerBlk m.sb := Nat.div_le_div_right hle
  have hslots (c : Nat) (hc : c < mappedBlks m d i) : slotsBelow m d i c = entriesPerBlk m.sb := slotsBelow_full (by omega)
  have hhere : liveFrom m.sb h.direntOffset (k / entriesPerBlk m.sb) (d.blk (f (k / entriesPerBlk m.sb)))
      (k % entriesPerBlk m.sb) = true := by
    rw [liveFrom, hdm, Bool.and_eq_true, decide_eq_true_eq]
    exact ⟨hle, hlive⟩
  obtain ⟨⟨b, buf, j⟩, hscan⟩ := scanFrom_finds (p := liveFrom m.sb h.direntOffset) (fun _ => 0) hi
    (Nat.le_of_eq (Nat.add_sub_cancel' (show h.direntOffset / entriesPerBlk m.sb ≤ claimedBlks m d i by omega))) hstart
    (by omega) (fun c _ hc _ => ⟨_, hf c (by omega)⟩)
    (fun _ => ⟨_, hf _ hkb, k % entriesPerBlk m.sb, by rw [hslots _ hkb]; exact hmod, hhere⟩)
    (fun hge => absurd hge (by omega))
  obtain ⟨hF, -⟩ := found_of_scanFrom hi hoff (by omega) hscan
  -- nothing is found behind block `k / entriesPerBlk`
  have hbk : b ≤ k / entriesPerBlk m.sb := by
    by_contra hgt
    obtain ⟨a, ha, hnone⟩ := hF.before (k / entriesPerBlk m.sb) hstart (by omega) hkb
    obtain rfl : a = f (k / entriesPerBlk m.sb) := by simpa using ha.resolve.symm.trans (hf _ hkb).resolve
    have := hnone (k % entriesPerBlk m.sb) (by rw [hslots _ hkb]; exact hmod)
    rw [hhere] at this
    cases this
  rcases hF.source with ⟨a, ha, rfl, hj⟩ | ⟨hge, -, -⟩
  · obtain rfl : a = f b := by simpa using ha.resolve.symm.trans (hf b (by omega)).resolve
    rw [hslots b (by omega)] at hj
    have hhit := hF.hit
    rw [liveFrom, Bool.and_eq_true, decide_eq_true_eq] at hhit
    have hpos : (b * entriesPerBlk m.sb + j) / entriesPerBlk m.sb = b ∧ (b * entriesPerBlk m.sb + j) % entriesPerBlk m.sb = j := by
      rw [Nat.mul_comm, Nat.mul_add_div hE0, Nat.div_eq_of_lt hj, Nat.mul_add_mod, Nat.mod_eq_of_lt hj]
      exact ⟨rfl, rfl⟩
    have hcell : cellLive m d f (b * entriesPerBlk m.sb + j) = true := by
      rw [cellLive, hpos.1, hpos.2]
      exact hhit.2
    have hkle : k ≤ b * entriesPerBlk m.sb + j := by
      by_contra hlt'
      rw [hmin _ hhit.1 (by omega)] at hcell
      cases hcell
    have hkeq : b * entriesPerBlk m.sb + j = k := by
      have hb : b = k / entriesPerBlk m.sb := by
        by_contra hne
        have := Nat.mul_le_mul_right (entriesPerBlk m.sb) (show b + 1 ≤ k / entriesPerBlk m.sb by omega)
        rw [Nat.succ_mul] at this
        omega
      subst hb
      by_contra hne
      have := hF.first (k % entriesPerBlk m.sb) (by omega)
      rw [hhere] at this
      cases this
    obtain ⟨hexec, hdirent⟩ := readdir_of_scan hi hused hin hmay hscan hhit.2
    refine ⟨_, _, hexec, hdirent, hused, hin, ?_⟩
    change u32 (b * entriesPerBlk m.sb + j + 1) = _
    rw [u32_slot (d := d) (i := i) (by omega) hj, hkeq]
  · omega

/-- Behind the last entry of the mapped blocks there is one more: from the last of these blocks once again, or from the
buffer of the call. -/
theorem readdir_stray (hi : i < m.sb.inodeNum) (hmay : MayList user ((m.sb.view d).inode i))
    (hclaim : mappedBlks m d i < claimedBlks m d i) (hf : ∀ b < mappedBlks m d i, MappedTo m d i b (f b))
    (hlast : ∃ j < entriesPerBlk m.sb, slotLive (d.blk (f (mappedBlks m d i - 1))) j = true)
    (hoff : OffEnd m d i) (hused : h.used = true) (hin : h.inodeNum = i)
    (hle : h.direntOffset ≤ mappedBlks m d i * entriesPerBlk m.sb) :
    ∃ h' e, exec m.env (mofsReaddirCoreWith m.sb strayBlock user h) d = some (.ok h', d) ∧ direntOf h' = some e := by
  have hE := m.ok.entries_ge
  have hstart : h.direntOffset / entriesPerBlk m.sb ≤ mappedBlks m d i := Nat.div_le_of_le_mul (by rw [Nat.mul_comm]; exact hle)
  obtain ⟨⟨b, buf, j⟩, hscan⟩ := scanFrom_finds (p := liveFrom m.sb h.direntOffset) strayBlock hi
    (Nat.le_of_eq (Nat.add_sub_cancel' (show h.direntOffset / entriesPerBlk m.sb ≤ claimedBlks m d i by omega))) hstart
    (by omega) (fun c _ _ hc => ⟨_, hf c hc⟩) (fun hlt => absurd hlt (Nat.lt_irrefl _)) (fun _ buf' hs => by
      have hlive : ∃ j < entriesPerBlk m.sb, slotLive buf' j = true := by
        rw [StaleBuf] at hs
        split at hs
        · rename_i hpos
          obtain ⟨a, ha, rfl⟩ := hs
          obtain rfl : a = f (mappedBlks m d i - 1) := by
            simpa using ha.resolve.symm.trans (hf _ (Nat.sub_one_lt_of_lt hpos)).resolve
          exact hlast
        · exact ⟨0, by omega, by rw [hs, holds_strayBlock.slotLive]; rfl⟩
      obtain ⟨j, hj, hlive⟩ := hlive
      refine ⟨j, hj, ?_⟩
      rw [liveFrom, hlive, Bool.and_true, decide_eq_true_eq]
      omega)
  obtain ⟨hF, -⟩ := found_of_scanFrom hi hoff (by omega) hscan
  have hhit := hF.hit
  rw [liveFrom, Bool.and_eq_true] at hhit
  obtain ⟨hexec, hdirent⟩ := readdir_of_scan hi hused hin hmay hscan hhit.2
  exact ⟨_, _, hexec, hdirent⟩

/-- So a listing can return more entries than there are occupied slots. -/
theorem exists_longListing (hi : i < m.sb.inodeNum) (hmay : MayList user ((m.sb.view d).inode i))
    (hclaim : mappedBlks m d i < claimedBlks m d i) (hf : ∀ b < mappedBlks m d i, MappedTo m d i b (f b))
    (hlast : ∃ j < entriesPerBlk m.sb, slotLive (d.blk (f (mappedBlks m d i - 1))) j = true)
    (hoff : OffEnd m d i) (h : DirHandle) (hused : h.used = true) (hin : h.inodeNum = i)
    (hle : h.direntOffset ≤ mappedBlks m d i * entriesPerBlk m.sb) :
    ∃ out, Lists m d user h out ∧ out.length = ((List.range' h.direntOffset
      (mappedBlks m d i * entriesPerBlk m.sb - h.direntOffset)).filter (cellLive m d f)).length + 1 := by
  induction hn : mappedBlks m d i * entriesPerBlk m.sb - h.direntOffset using Nat.strong_induction_on generalizing h with
  | _ n ih =>
    rw [← hn]
    cases hk : firstIn (cellLive m d f) h.direntOffset (mappedBlks m d i * entriesPerBlk m.sb - h.direntOffset) with
    | some k =>
      obtain ⟨hge, hlt, -, -⟩ := firstIn_spec hk
      obtain ⟨h', e, hexec, he, hused', hin', hoffset⟩ := readdir_mapped hi hoff hmay hclaim hf hused hin hk
      obtain ⟨out, hout, hlen⟩ := ih _ (by omega) h' hused' hin' (by omega) rfl
      refine ⟨e :: out, .next hexec he hout, ?_⟩
      rw [length_filter_of_firstIn hk, List.length_cons, hlen, hoffset,
        Nat.add_sub_cancel' (show h.direntOffset ≤ mappedBlks m d i * entriesPerBlk m.sb by omega)]
    | none =>
      obtain ⟨h', e, hexec, he⟩ := readdir_stray hi hmay hclaim hf hlast hoff hused hin hle
      refine ⟨[e], .next hexec he (.stop _), ?_⟩
      rw [List.filter_eq_nil_iff.mpr fun k hk' => ?_]
      · rfl
      · rw [List.mem_range'_1] at hk'
        simp [firstIn_eq_none.mp hk k hk'.1 hk'.2]

theorem Lists.live (hL : Lists m d user h out) : ∀ e ∈ out, e.1 ≠ [] ∧ e.2 ≠ 0 := by
  induction hL with
  | stop => simp
  | next hcall he rest ih =>
    intro e' he'
    rcases List.mem_cons.mp he' with rfl | he'
    · obtain ⟨rfl, hname, hinode⟩ := direntOf_some he
      exact ⟨hname, hinode⟩
    · exact ih e' he'

/-- Distinct stored slots with entries are no more than there are occupied slots. -/
theorem length_le_of_stored (hi : i < m.sb.inodeNum) (hf : ∀ b < mappedBlks m d i, MappedTo m d i b (f b))
    {ss : List (Nat × Nat)} (hnodup : ss.Nodup) (hss : List.Forall₂ (StoredAt m d i) ss out)
    (hlive : ∀ e ∈ out, e.1 ≠ [] ∧ e.2 ≠ 0) :
    ss.length ≤ ((List.range' 0 (mappedBlks m d i * entriesPerBlk m.sb)).filter (cellLive m d f)).length := by
  have hE := m.ok.entries_ge
  have hE0 : 0 < entriesPerBlk m.sb := by omega
  have hstored : ∀ s ∈ ss, ∃ e, (e.1 ≠ [] ∧ e.2 ≠ 0) ∧ StoredAt m d i s e := by
    clear hnodup
    induction hss with
    | nil => simp
    | cons hS _ ih =>
      intro s hs
      rcases List.mem_cons.mp hs with rfl | hs
      · exact ⟨_, hlive _ List.mem_cons_self, hS⟩
      · exact ih (fun e he => hlive e (List.mem_cons_of_mem _ he)) s hs
  have hpos (s : Nat × Nat) (hs : s ∈ ss) : (s.1 * entriesPerBlk m.sb + s.2) / entriesPerBlk m.sb = s.1 ∧
      (s.1 * entriesPerBlk m.sb + s.2) % entriesPerBlk m.sb = s.2 := by
    obtain ⟨e, -, hS⟩ := hstored s hs
    have hj := hS.inBlock
    rw [Nat.mul_comm, Nat.mul_add_div hE0, Nat.div_eq_of_lt hj, Nat.mul_add_mod, Nat.mod_eq_of_lt hj]
    exact ⟨rfl, rfl⟩
  have hinj : (ss.map fun s => s.1 * entriesPerBlk m.sb + s.2).Nodup := by
    refine List.Nodup.map_on (fun s hs t ht heq => ?_) hnodup
    have h1 := hpos s hs
    rw [heq] at h1
    have h2 := hpos t ht
    exact Prod.ext (h1.1.symm.trans h2.1) (h1.2.symm.trans h2.2)
  have hsub : ∀ k ∈ ss.map (fun s => s.1 * entriesPerBlk m.sb + s.2),
      k ∈ (List.range' 0 (mappedBlks m d i * entriesPerBlk m.sb)).filter (cellLive m d f) := by
    intro k hk
    obtain ⟨s, hs, rfl⟩ := List.mem_map.mp hk
    obtain ⟨e, he, hS⟩ := hstored s hs
    obtain ⟨a, ha, hname, hinode⟩ := hS.holds
    have hb := ha.lt_mappedBlks hi
    have hj := hS.inBlock
    obtain rfl : a = f s.1 := by simpa using ha.resolve.symm.trans (hf _ hb).resolve
    refine List.mem_filter.mpr ⟨List.mem_range'_1.mpr ⟨Nat.zero_le _, ?_⟩, ?_⟩
    · have := Nat.mul_le_mul_right (entriesPerBlk m.sb) (show s.1 + 1 ≤ mappedBlks m d i from hb)
      rw [Nat.succ_mul] at this
      omega
    · rw [cellLive, (hpos s hs).1, (hpos s hs).2, slotLive_iff, hname, hinode]
      exact he
  have := (List.subperm_of_subset hinj hsub).length_le
  rwa [List.length_map] at this

theorem Faithful.covered (hF : Faithful m d i user) (hi : i < m.sb.inodeNum) (hoff : OffEnd m d i) :
    claimedBlks m d i ≤ mappedBlks m d i ∨ (∃ b < mappedBlks m d i, ∀ a, ¬ MappedTo m d i b a) ∨
    (0 < mappedBlks m d i ∧ ∀ a, MappedTo m d i (mappedBlks m d i - 1) a → MayList user ((m.sb.view d).inode i) →
      ∀ j < entriesPerBlk m.sb, slotLive (d.blk a) j = false) := by
  by_cases hclaim : claimedBlks m d i ≤ mappedBlks m d i
  · exact .inl hclaim
  by_cases hread : ∃ b < mappedBlks m d i, ∀ a, ¬ MappedTo m d i b a
  · exact .inr (.inl hread)
  refine .inr (.inr ⟨hF.mapped_pos hi (by omega), fun a ha hmay j hj => ?_⟩)
  have hall : ∀ b, ∃ a, b < mappedBlks m d i → MappedTo m d i b a := fun b => by
    by_contra hno
    simp only [not_exists, Classical.not_imp] at hno
    exact hread ⟨b, (hno 0).1, fun a => (hno a).2⟩
  choose f hf using hall
  by_contra hlive
  have hpos := ha.lt_mappedBlks hi
  obtain rfl : a = f (mappedBlks m d i - 1) := by simpa using ha.resolve.symm.trans (hf _ hpos).resolve
  obtain ⟨out, hL, hlen⟩ := exists_longListing hi hmay (by omega) (fun b hb => hf b hb) ⟨j, hj, by simpa using hlive⟩ hoff
    ⟨true, i, 0, [], 0⟩ rfl rfl (Nat.zero_le _)
  obtain ⟨ss, hnodup, hss⟩ := hF.list out hL
  have hle := length_le_of_stored hi (fun b hb => hf b hb) hnodup hss hL.live
  rw [hss.length_eq, hlen] at hle
  dsimp only at hle
  rw [Nat.sub_zero] at hle
  omega

/-- Lookup and listing report only what is stored, if and only if the names they get to see end within their fields and the
size of the directory does not send them over the mapped blocks to entries they have seen. -/
theorem reports_stored_iff (m : Mount) (d : Disk) (i : Nat) (user : User) (hoff : OffEnd m d i) :
    Faithful m d i user ↔ Orderly m d i user := by
  by_cases hi : i < m.sb.inodeNum
  · constructor
    · intro hF
      exact ⟨fun b a j name hb hbefore ha hj hnul hname => hF.named hi hb hbefore ha hj hnul hname, hF.covered hi hoff⟩
    · intro hO
      refine ⟨fun heap name c d' hnul hexec => hO.find hi hoff hnul hexec, fun out hL => ?_⟩
      obtain ⟨ss, hss, -, hsorted⟩ := hO.list hoff hL rfl (.inl rfl)
      have hnodup : (ss.map fun s => s.1 * entriesPerBlk m.sb + s.2).Nodup := hsorted.imp Nat.ne_of_lt
      exact ⟨ss, hnodup.of_map _, hss⟩
  · -- there is no such inode
    have hle := Nat.le_of_not_lt hi
    have hzero : claimedBlks m d i = 0 := by
      have hinode : (m.sb.view d).inode i = Inode.zero := if_neg hi
      have hB := m.ok.blk_pos
      have hb := m.ok.entries_le
      have hlt : m.sb.blkSize < 4294967296 := by rw [m.ok.blk_eq, direntBytes]; omega
      rw [claimedBlks, hinode, ceilBlks, show Inode.zero.iSize.toNat = 0 from rfl, Nat.zero_add,
        show u32 (m.sb.blkSize - 1) = m.sb.blkSize - 1 from Nat.mod_eq_of_lt (by omega)]
      exact Nat.div_eq_of_lt (by omega)
    refine iff_of_true ⟨fun heap name c d' _ hexec => ?_, fun out hL => ?_⟩ ⟨fun b a j name hb => ?_, .inl (by omega)⟩
    · rw [findDirEntryWith] at hexec
      split at hexec
      · cases hexec
      · rw [exec, run_bind_error ((m.reads_mofsReadInode_einval _ hle).exec_eq rfl)] at hexec
        cases hexec
    · cases hL with
      | stop => exact ⟨[], List.nodup_nil, .nil⟩
      | next hcall he rest => exact absurd (mayList_of_readdir rfl hcall).1 hi
    · omega

end Property

section Short

/-- The blocks of a well-formed file are where its list says. -/
theorem FileAt.mappedTo {ns ds : List Nat} (h : FileAt m.sb (m.sb.view d) i ns ds) (hb : b < ds.length) :
    MappedTo m d i b (ds.getD b 0) :=
  ⟨(m.reads_resolveFileDataBlock h hb).exec_eq rfl, by
    have := m.fits (m.inData_lt (h.inData_get hb))
    rwa [m.serves.blk] at this⟩

theorem FileAt.offEnd {ns ds : List Nat} (h : FileAt m.sb (m.sb.view d) i ns ds) : OffEnd m d i := by
  intro b _ a hres
  by_cases hb : b < ds.length
  · have ha := h.mappedTo hb
    obtain rfl : ds.getD b 0 = a := by simpa using ha.resolve.symm.trans hres
    exact .inl ha.onDevice
  · rw [resolveFileDataBlock, if_neg (m.not_isNeg' h.range), exec,
      run_bind_ok ((m.reads_mofsReadInode _ h.range).exec_eq rfl), h.nr, if_pos (by omega)] at hres
    cases hres

/-- A directory of two blocks by its size, of which one is mapped, with one entry. -/
structure ShortDir (m : Mount) (d : Disk) (a : Nat) : Prop where
  range : rootInodeNum < m.sb.inodeNum
  may : MayList fileOwner ((m.sb.view d).inode rootInodeNum)
  entries : entriesPerBlk m.sb = 16
  claimed : claimedBlks m d rootInodeNum = 2
  mapped : mappedBlks m d rootInodeNum = 1
  offEnd : OffEnd m d rootInodeNum
  block : MappedTo m d rootInodeNum 0 a
  slot : ∀ j < 16, Holds (d.blk a) (direntBytes * j) (if j < 1 then some (letter 0, rootInodeNum) else none)

theorem exists_shortDir : ∃ m d a, ShortDir m d a := by
  obtain ⟨m, d, hnum, hV, hi, hdir, hent, -⟩ := exists_letterDir (n := 1) (by decide)
  let x : Inode := { (m.sb.view d).inode rootInodeNum with
    iSize := 1024, iMode := modeBits ftypeDir 0o777, iUid := 0, iGid := 0 }
  have hturn : m.Ensures (mofsWriteInode m.sb rootInodeNum x) (m.sb.view d)
      (fun _ W => W = (m.sb.view d).setInode rootInodeNum x) := m.ensures_mofsWriteInode hdir.file.range rfl
  obtain ⟨r, d₁, -, hd₁⟩ := hturn.exists rfl
  have hfr : Frame m.sb [rootInodeNum] (m.sb.view d) ((m.sb.view d).setInode rootInodeNum x) (freshOwners m.sb)
      (freshOwners m.sb) := Frame.setInode hV rfl rfl
  rw [← hd₁] at hfr
  have hx : (m.sb.view d₁).inode rootInodeNum = x := by
    rw [hd₁]
    exact Function.update_self rootInodeNum x (m.sb.view d).inode
  have hi₁ : (m.sb.view d₁).ibit rootInodeNum = true := by rw [hd₁]; exact hi
  have hfile := hfr.wf.fileAt hi₁
  have hB : m.sb.blkSize = 512 := by rw [m.ok.blk_eq, hent]; rfl
  have hone : ((freshOwners m.sb).data rootInodeNum).length = 1 := rfl
  have hin := hfile.inData_get (k := 0) (by rw [hone]; decide)
  refine ⟨m, d₁, _, hfile.range, ?_, hent, ?_, ?_, hfile.offEnd, hfile.mappedTo (by rw [hone]; decide), fun j hj => ?_⟩
  · rw [hx]
    refine ⟨rfl, ?_, ?_⟩
    · change (modeBits ftypeDir 0o777).toNat &&& ftypeDir != 0
      decide
    · have hperm : SamePerm { Inode.zero with iMode := modeBits ftypeDir 0o777 } x := ⟨rfl, rfl, rfl⟩
      rw [hperm.checkDirRead]
      rfl
  · rw [claimedBlks, hx, ceilBlks, hB]
    change u32 ((1024 : UInt32).toNat + 512 - 1) / 512 = 2
    decide
  · rw [mappedBlks, hfile.nr, hone]
  · have hlen : (letterSlots 1 16).length = 16 := by simp [letterSlots]
    have hslot := hdir.slot j (by omega)
    have hget : (letterSlots 1 16).getD j none = if j < 1 then some (letter 0, rootInodeNum) else none := by
      rw [List.getD_eq_getElem _ _ (by omega)]
      by_cases h0 : j = 0
      · subst h0
        rfl
      · simp [letterSlots, h0]
    rw [hget, hent, Nat.div_eq_of_lt hj, Nat.mod_eq_of_lt hj] at hslot
    have hblk : (m.sb.view d₁).blk ((freshOwners m.sb).data rootInodeNum |>.getD 0 0) =
        d₁.blk ((freshOwners m.sb).data rootInodeNum |>.getD 0 0) := if_pos hin
    rw [← hblk, hd₁]
    exact hslot

theorem ShortDir.slotLive (hD : ShortDir m d a) (hj : j < 16) : slotLive (d.blk a) j = decide (j < 1) := by
  rw [(hD.slot j hj).slotLive]
  by_cases h0 : j < 1 <;> simp [h0]

/-- The same entry is returned twice, for the one slot that holds it. -/
theorem short_listing_repeats : ∃ (m : Mount) (d : Disk) (h₁ h₂ : DirHandle), OffEnd m d rootInodeNum ∧
    MayList fileOwner ((m.sb.view d).inode rootInodeNum) ∧ mappedBlks m d rootInodeNum < claimedBlks m d rootInodeNum ∧
    exec m.env (mofsReaddirCore m.sb fileOwner ⟨true, rootInodeNum, 0, [], 0⟩) d = some (.ok h₁, d) ∧
    direntOf h₁ = some (letter 0, rootInodeNum) ∧
    exec m.env (mofsReaddirCore m.sb fileOwner h₁) d = some (.ok h₂, d) ∧ direntOf h₂ = some (letter 0, rootInodeNum) ∧
    ∀ s, StoredAt m d rootInodeNum s (letter 0, rootInodeNum) → s = (0, 0) := by
  obtain ⟨m, d, a, hD⟩ := exists_shortDir
  have hslots : slotsBelow m d rootInodeNum 0 = 16 := by
    rw [slotsBelow_full (by rw [hD.claimed]; decide), hD.entries]
  have hlive (j : Nat) (hj : j < 16) := hD.slotLive hj
  have hentry : (slotName (d.blk a) 0, direntInode (d.blk a) (direntBytes * 0)) = (letter 0, rootInodeNum) :=
    Prod.ext (Holds.slotName (hD.slot 0 (by decide))) (Holds.inode_eq (hD.slot 0 (by decide)))
  have hzero {o b : Nat} (ho : o ≤ b * 16) : firstSlot (liveFrom m.sb o b (d.blk a)) 16 = some 0 := by
    rw [firstSlot, show 16 = 15 + 1 from rfl, List.range_succ_eq_map, List.find?_cons_of_pos]
    rw [liveFrom, hD.entries, hlive 0 (by decide)]
    simpa using ho
  have hnone : firstSlot (liveFrom m.sb 1 0 (d.blk a)) 16 = none := by
    rw [firstSlot, List.find?_eq_none]
    intro j hj
    rw [List.mem_range] at hj
    rw [liveFrom, hlive j hj]
    simp
    omega
  have hfirst : exec m.env (scanFrom m.sb rootInodeNum (liveFrom m.sb 0) 2 0 (fun _ => 0)) d =
      some (.ok (some (0, d.blk a, 0)), d) := by
    rw [exec_scanFrom_mapped hD.range (by rw [hD.claimed]; decide) hD.block, hslots, hzero (show 0 ≤ 0 * 16 from Nat.le_refl _)]
  have hsecond : exec m.env (scanFrom m.sb rootInodeNum (liveFrom m.sb 1) 2 0 (fun _ => 0)) d =
      some (.ok (some (1, d.blk a, 0)), d) := by
    rw [exec_scanFrom_mapped hD.range (by rw [hD.claimed]; decide) hD.block, hslots, hnone]
    dsimp only
    rw [exec_scanFrom_unmapped hD.range (by rw [hD.mapped]), hD.entries, hzero (show 1 ≤ (0 + 1) * 16 by decide)]
  have hfirstLive : slotLive (d.blk a) 0 = true := by rw [hlive 0 (by decide)]; rfl
  obtain ⟨hexec₁, hdirent₁⟩ := readdir_of_scan (h := ⟨true, rootInodeNum, 0, [], 0⟩) hD.range rfl rfl hD.may
    (by rw [hD.entries, hD.claimed]; exact hfirst) hfirstLive
  obtain ⟨hexec₂, hdirent₂⟩ := readdir_of_scan (h := DirHandle.moved m.sb ⟨true, rootInodeNum, 0, [], 0⟩ (some (0, d.blk a, 0)))
    hD.range rfl rfl hD.may (by
      rw [show (DirHandle.moved m.sb ⟨true, rootInodeNum, 0, [], 0⟩ (some (0, d.blk a, 0))).direntOffset = 1 by
        simp [DirHandle.moved, u32], hD.entries, hD.claimed]
      exact hsecond) hfirstLive
  rw [hentry] at hdirent₁ hdirent₂
  refine ⟨m, d, _, _, hD.offEnd, hD.may, by rw [hD.claimed, hD.mapped]; decide, hexec₁, hdirent₁, hexec₂, hdirent₂, fun s hS => ?_⟩
  -- the one mapped block has the entry in its first slot only
  obtain ⟨a', ha', hname, -⟩ := hS.holds
  have hb := ha'.lt_mappedBlks hD.range
  have hj := hS.inBlock
  rw [hD.mapped] at hb
  rw [hD.entries] at hj
  have hs1 : s.1 = 0 := by omega
  rw [hs1] at ha'
  obtain rfl : a' = a := by simpa using ha'.resolve.symm.trans hD.block.resolve
  by_contra hne
  have hs2 : ¬ s.2 < 1 := fun hlt => hne (Prod.ext hs1 (by omega))
  have hslot := hD.slot s.2 hj
  rw [if_neg hs2] at hslot
  have hfirst0 : d.blk a' (direntBytes * s.2) = 0 := hslot
  have hempty : slotName (d.blk a') s.2 = [] := by
    rw [slotName, show filenameLen = 27 + 1 from rfl]
    simp [slice, List.range_succ_eq_map, hfirst0]
  rw [hempty] at hname
  cases hname

theorem reports_stored_iff_short : ∃ (m : Mount) (d : Disk), OffEnd m d rootInodeNum ∧
    (Faithful m d rootInodeNum fileOwner ↔ Orderly m d rootInodeNum fileOwner) := by
  obtain ⟨m, d, a, hD⟩ := exists_shortDir
  exact ⟨m, d, hD.offEnd, reports_stored_iff m d rootInodeNum fileOwner hD.offEnd⟩

end Short

end Mofs
