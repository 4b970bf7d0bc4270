import Mofs.Calls

namespace Mofs

open Effect Bytes Slots Mofs.Tree

variable {sb : Superblock} {V : View} {G : Owners} {i b k : Nat} {ns ds : List Nat} {slots : List Slot} {user : User}

/-- The first occupied slot from `a` on. -/
def nextLive (slots : List Slot) (a : Nat) : Option Nat :=
  firstIn (fun k => (slots.getD k none).isSome) a (slots.length - a)

theorem firstIn_from (p : Nat → Bool) {a a' n : Nat} (h : a ≤ a') :
    firstIn (fun k => decide (a' ≤ k) && p k) a n = firstIn p a' (n - (a' - a)) := by
  by_cases hle : a' - a ≤ n
  · have hn : n = (a' - a) + (n - (a' - a)) := by omega
    conv_lhs => rw [hn, firstIn_add]
    have hnone : firstIn (fun k => decide (a' ≤ k) && p k) a (a' - a) = none :=
      firstIn_eq_none.mpr fun k _ hk => by
        rw [decide_eq_false (by omega)]
        rfl
    rw [hnone, Option.none_or, show a + (a' - a) = a' by omega]
    exact firstIn_congr fun k hk _ => by rw [decide_eq_true hk, Bool.true_and]
  · rw [show n - (a' - a) = 0 by omega, firstIn_zero]
    exact firstIn_eq_none.mpr fun k _ hk => by
      rw [decide_eq_false (by omega)]
      rfl

theorem firstSlot_shift {p q : Nat → Bool} {a n : Nat} (h : ∀ j < n, q j = p (a + j)) :
    (firstSlot q n).map (a + ·) = firstIn p a n := by
  rw [firstIn_shift, firstSlot]
  have hcongr := firstIn_congr (a := 0) (n := n) (p := q) (q := fun j => p (a + j)) fun j _ hj => h j (by omega)
  rw [firstIn, firstIn, ← List.range_eq_range'] at hcongr
  rw [hcongr]

/-- The entry of slot `k`, as `mofs_readdir_core` finds it: its block, the content of that block, its place there. -/
def foundAt (sb : Superblock) (V : View) (ds : List Nat) (k : Nat) : Nat × Block × Nat :=
  (k / entriesPerBlk sb, V.blk (ds.getD (k / entriesPerBlk sb) 0), k % entriesPerBlk sb)

/-- The directory handle after `mofs_readdir_core`. -/
def readdirHandle (slots : List Slot) (h : DirHandle) : DirHandle :=
  match nextLive slots h.direntOffset with
  | some k => { h with
      direntOffset := k + 1
      direntName := (slots.getD k none).elim [] Prod.fst
      direntInodeNum := (slots.getD k none).elim 0 Prod.snd }
  | none => { h with direntName := [], direntInodeNum := 0 }

/-- A name that fills its field or ends in it is the name of the slot. -/
theorem slotName_of_nameEq {g : Block} {j : Nat} {name : Name} (hnul : 0 ∉ name) (hlen : name.length ≤ filenameLen)
    (h : nameEq g (direntBytes * j) name = true) : slotName g j = name := by
  obtain ⟨hbytes, hend⟩ := nameEq_iff.mp h
  have hslice : slice g (direntBytes * j) filenameLen =
      name ++ slice g (direntBytes * j + name.length) (filenameLen - name.length) := by
    refine List.ext_getElem (by simp [slice]; omega) fun k hk hk' => ?_
    simp only [slice, List.getElem_map, List.getElem_range]
    by_cases hkn : k < name.length
    · rw [List.getElem_append_left hkn, hbytes k hkn, List.getD_eq_getElem _ _ hkn]
    · rw [List.getElem_append_right (by omega)]
      simp only [List.getElem_map, List.getElem_range]
      congr 1
      omega
  have htail : (slice g (direntBytes * j + name.length) (filenameLen - name.length)).takeWhile (· ≠ 0) = [] := by
    cases filenameLen - name.length with
    | zero => rfl
    | succ k => simp [slice, List.range_succ_eq_map, hend]
  rw [slotName, hslice, List.takeWhile_append_of_pos, htail, List.append_nil]
  intro x hx
  have hne : x ≠ 0 := fun h0 => hnul (h0 ▸ hx)
  simpa using hne

/-- The name in a slot as a C string. -/
theorem Holds.slotName {g : Block} {j c : Nat} {name : Name} (h : Holds g (direntBytes * j) (some (name, c))) :
    slotName g j = name :=
  slotName_of_nameEq h.name.nul (Nat.le_of_lt h.name.short) (nameEq_iff.mpr ⟨h.bytes, h.nul⟩)

namespace Mount

theorem reads_readdirFrom (m : Mount) (h : DirAt m.sb V i ns ds slots) {n : Nat} (st : Nat) (hst : st < entriesPerBlk m.sb)
    (hb : b + n = ds.length) (buf : Block) :
    m.Reads (readdirFrom m.sb i n b st buf) V (.ok ((firstIn (fun k => decide (b * entriesPerBlk m.sb + st ≤ k) &&
      (slots.getD k none).isSome) (b * entriesPerBlk m.sb) (slots.length - b * entriesPerBlk m.sb)).map (foundAt m.sb V ds))) := by
  induction n generalizing b st buf with
  | zero =>
    rw [h.none_left m.ok (by omega)]
    exact Reads.pure _
  | succ n ih =>
    have hlt : b < ds.length := by omega
    have hE := m.ok.entries_ge
    obtain ⟨r, hread, -, hnum⟩ := m.reads_readDirBlock h hlt buf
    rw [readdirFrom, firstIn_block]
    refine Reads.bind hread ?_
    dsimp only
    rw [hnum]
    have hfirst := firstSlot_shift (q := fun j => decide (st ≤ j) && slotLive (V.blk (ds.getD b 0)) j)
      (p := fun k => decide (b * entriesPerBlk m.sb + st ≤ k) && (slots.getD k none).isSome)
      (a := b * entriesPerBlk m.sb) (n := min (entriesPerBlk m.sb) (slots.length - b * entriesPerBlk m.sb)) fun j hj => by
        rw [(h.slot_in (b := b) (j := j) (by omega) (by omega)).slotLive]
        congr 1
        rw [decide_eq_decide]
        omega
    cases hf : firstSlot (fun j => decide (st ≤ j) && slotLive (V.blk (ds.getD b 0)) j)
        (min (entriesPerBlk m.sb) (slots.length - b * entriesPerBlk m.sb)) with
    | none =>
      rw [hf] at hfirst
      rw [← hfirst]
      -- behind this block every slot is from `st` on
      have hnext := ih (b := b + 1) 0 (by omega) (by omega) (V.blk (ds.getD b 0))
      have hcongr := firstIn_congr (a := (b + 1) * entriesPerBlk m.sb) (n := slots.length - (b + 1) * entriesPerBlk m.sb)
        (p := fun k => decide ((b + 1) * entriesPerBlk m.sb + 0 ≤ k) && (slots.getD k none).isSome)
        (q := fun k => decide (b * entriesPerBlk m.sb + st ≤ k) && (slots.getD k none).isSome) fun k hk _ => by
          rw [Nat.add_mul] at hk ⊢
          rw [decide_eq_true (by omega), decide_eq_true (by omega)]
      rw [hcongr] at hnext
      exact hnext
    | some j =>
      rw [hf, Option.map_some] at hfirst
      rw [← hfirst]
      obtain ⟨-, hj, -, -⟩ := firstIn_spec hfirst.symm
      have hjE : j < entriesPerBlk m.sb := by omega
      have hdiv : (b * entriesPerBlk m.sb + j) / entriesPerBlk m.sb = b := by
        rw [Nat.mul_comm, Nat.mul_add_div (by omega), Nat.div_eq_of_lt hjE, Nat.add_zero]
      have hmod : (b * entriesPerBlk m.sb + j) % entriesPerBlk m.sb = j := by
        rw [Nat.mul_comm, Nat.mul_add_mod, Nat.mod_eq_of_lt hjE]
      simp only [Option.some_or, Option.map_some, foundAt, hdiv, hmod]
      exact Reads.pure _

/-- `mofs_readdir_core` moves its handle to the next occupied slot. -/
theorem reads_mofsReaddirCore (m : Mount) (h : DirAt m.sb V i ns ds slots) {hd : DirHandle} (hused : hd.used = true)
    (hi : hd.inodeNum = i) (hvalid : user.valid = true) (hread : mofsCheckDirRead user (V.inode i) = .ok ())
    (hoff : hd.direntOffset ≤ slots.length) :
    m.Reads (mofsReaddirCore m.sb user hd) V (.ok (readdirHandle slots hd)) := by
  have hE := m.ok.entries_ge
  have hEle := m.ok.entries_le
  have hmax := h.file.max
  have hceil : ceilBlks m.sb (V.inode i).iSize.toNat = ds.length := by
    rw [m.ceilBlks_eq (by rw [h.size, ← h.blocks]; exact hmax), h.size, ← h.blocks]
  have hdm := Nat.div_add_mod hd.direntOffset (entriesPerBlk m.sb)
  rw [Nat.mul_comm] at hdm
  have hmod := Nat.mod_lt hd.direntOffset (show 0 < entriesPerBlk m.sb by omega)
  rw [mofsReaddirCore, mofsReaddirCoreWith, hused, if_neg (by decide)]
  refine Reads.bind (m.reads_validUser hvalid) ?_
  rw [hi]
  refine Reads.bind (m.reads_mofsReadInode V h.file.range) ?_
  rw [h.isDir, if_neg (by decide), hread]
  refine Reads.bind (Reads.pure ()) ?_
  rw [hceil]
  have hlast : slots.length ≤ ds.length * entriesPerBlk m.sb := by
    have := h.none_left m.ok (Nat.le_refl ds.length)
    omega
  have hble : hd.direntOffset / entriesPerBlk m.sb ≤ ds.length :=
    Nat.div_le_of_le_mul (by rw [Nat.mul_comm]; omega)
  have hfrom := m.reads_readdirFrom h _ hmod (Nat.add_sub_cancel' hble) fun _ => 0
  rw [firstIn_from _ (Nat.le_add_right _ _), hdm, show slots.length - hd.direntOffset / entriesPerBlk m.sb * entriesPerBlk m.sb -
    (hd.direntOffset - hd.direntOffset / entriesPerBlk m.sb * entriesPerBlk m.sb) = slots.length - hd.direntOffset by omega,
    ← nextLive] at hfrom
  refine Reads.bind hfrom ?_
  rw [readdirHandle, hused, hi]
  cases hn : nextLive slots hd.direntOffset with
  | none => exact Reads.pure _
  | some k =>
    dsimp only
    obtain ⟨-, hk, hlive, -⟩ := firstIn_spec hn
    have hklt : k < slots.length := by omega
    have hslot := h.slot k hklt
    have hkE := Nat.div_add_mod k (entriesPerBlk m.sb)
    rw [Nat.mul_comm] at hkE
    cases hs : slots.getD k none with
    | none =>
      rw [hs] at hlive
      cases hlive
    | some e =>
      rw [hs] at hslot
      have h32 : u32 (k + 1) = k + 1 := by
        refine Nat.mod_eq_of_lt ?_
        simp only [maxFileDataBlocks] at hmax
        have : ds.length * entriesPerBlk m.sb ≤ 1024 * 2048 := Nat.mul_le_mul hmax hEle
        omega
      simp only [Option.map_some, foundAt, hkE, h32, Holds.slotName (c := e.2) hslot, hslot.inode_eq, Option.elim_some]
      exact Reads.pure _

end Mount

end Mofs
