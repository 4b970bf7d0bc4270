import Mofs.DirEntry
import Mofs.Frame
import Mofs.Lib.Slots

namespace Mofs

open Effect Bytes Slots

/-- A directory slot: vacant, or a name and an inode number. -/
abbrev Slot := Option (Name × Nat)

structure ValidName (name : Name) : Prop where
  ne : name ≠ []
  short : name.length < filenameLen
  nul : 0 ∉ name

/-- The record at offset `o` of a block is the live entry `e`. -/
structure LiveAt (g : Block) (o : Nat) (e : Name × Nat) : Prop where
  name : ValidName e.1
  bytes : ∀ k < e.1.length, g (o + k) = e.1.getD k 0
  nul : g (o + e.1.length) = 0
  inode : direntInode g o = e.2
  ne : e.2 ≠ 0

/-- What the record at offset `o` of a block is. A slot is vacant when its name is empty. -/
def Holds (g : Block) (o : Nat) : Slot → Prop
  | none => g o = 0
  | some e => LiveAt g o e

variable {g g' : Block} {o o' j c : Nat} {s s' : Slot} {name comp : Name}

theorem nameEq_iff : nameEq g o comp = true ↔ (∀ k < comp.length, g (o + k) = comp.getD k 0) ∧ g (o + comp.length) = 0 := by
  simp [nameEq]

theorem getD_ne_zero (hn : 0 ∉ comp) {k : Nat} (hk : k < comp.length) : comp.getD k 0 ≠ 0 := by
  rw [List.getD_eq_getElem _ _ hk]
  exact fun h => hn (h ▸ List.getElem_mem hk)

namespace Holds

theorem first_ne (h : Holds g o (some (name, c))) : g o ≠ 0 := by
  have hpos := List.length_pos_iff.mpr h.name.ne
  have := h.bytes 0 hpos
  rw [Nat.add_zero] at this
  rw [this]
  exact getD_ne_zero h.name.nul hpos

/-- Comparing a C string with the name in a slot. -/
theorem nameEq (h : Holds g o s) (hne : comp ≠ []) (hn : 0 ∉ comp) : nameEq g o comp = isKey comp s := by
  have hpos := List.length_pos_iff.mpr hne
  rw [Bool.eq_iff_iff, nameEq_iff]
  cases s with
  | none =>
    refine iff_of_false (fun hc => ?_) (by simp [isKey])
    have h0 : g o = 0 := h
    have := hc.1 0 hpos
    rw [Nat.add_zero, h0] at this
    exact getD_ne_zero hn hpos this.symm
  | some e =>
    simp only [isKey, decide_eq_true_eq]
    constructor
    · rintro ⟨hbytes, hend⟩
      -- the terminators stand at the same place
      have hlen : comp.length = e.1.length := by
        rcases Nat.lt_trichotomy comp.length e.1.length with hlt | heq | hgt
        · exact absurd ((h.bytes _ hlt).symm.trans hend) (getD_ne_zero h.name.nul hlt)
        · exact heq
        · exact absurd ((hbytes _ hgt).symm.trans h.nul) (getD_ne_zero hn hgt)
      refine List.ext_getElem hlen.symm fun k hk hk' => ?_
      rw [← List.getD_eq_getElem _ 0 hk, ← List.getD_eq_getElem _ 0 hk', ← h.bytes k hk, hbytes k hk']
    · rintro rfl
      exact ⟨h.bytes, h.nul⟩

theorem slotLive (h : Holds g (direntBytes * j) s) : slotLive g j = s.isSome := by
  cases s with
  | none =>
    have h0 : g (direntBytes * j) = 0 := h
    simp [Mofs.slotLive, h0]
  | some e =>
    have := h.first_ne
    simp [Mofs.slotLive, h.inode, h.ne, this]

theorem inode_ne (h : Holds g o s) (hs : s.isSome = true) : (direntInode g o != 0) = true := by
  obtain ⟨e, rfl⟩ := Option.isSome_iff_exists.mp hs
  simp [h.inode, h.ne]

theorem inode_eq {e : Name × Nat} (h : Holds g o (some e)) : direntInode g o = e.2 := h.inode

theorem unique (h : Holds g o s) (h' : Holds g o s') : s = s' := by
  cases s with
  | none =>
    cases s' with
    | none => rfl
    | some e => exact absurd h h'.first_ne
  | some e =>
    cases s' with
    | none => exact absurd h' h.first_ne
    | some e' =>
      have hk := h'.nameEq h.name.ne h.name.nul
      rw [h.nameEq h.name.ne h.name.nul] at hk
      have hname : e'.1 = e.1 := by simpa [isKey] using hk
      rw [Prod.ext hname (h'.inode_eq.symm.trans h.inode_eq)]

/-- A slot is determined by its 32 bytes. -/
theorem congr (h : Holds g o s) (hg : ∀ t < direntBytes, g' (o' + t) = g (o + t)) : Holds g' o' s := by
  have h32 : direntBytes = 32 := rfl
  have h28 : filenameLen = 28 := rfl
  cases s with
  | none => exact (hg 0 (by omega)).trans h
  | some e =>
    have hlen := h.name.short
    refine ⟨h.name, fun k hk => ?_, ?_, ?_, h.ne⟩
    · rw [hg k (by omega), h.bytes k hk]
    · rw [hg _ (by omega), h.nul]
    · rw [← h.inode, direntInode, direntInode]
      refine leNat_congr fun t ht => ?_
      rw [Nat.add_assoc, Nat.add_assoc]
      exact hg _ (by omega)

end Holds

theorem length_encodeDirent (h : name.length < filenameLen) (c : Nat) : (encodeDirent name c).length = direntBytes := by
  have h32 : direntBytes = 32 := rfl
  have h28 : filenameLen = 28 := rfl
  simp [encodeDirent]
  omega

theorem holds_putSlot (g : Block) (j : Nat) (hname : ValidName name) (hc : c ≠ 0) (h32 : c < 4294967296) :
    Holds (putSlot g j name c) (direntBytes * j) (some (name, c)) := by
  have hshort := hname.short
  have hinside {k : Nat} (hk : k < direntBytes) : putSlot g j name c (direntBytes * j + k) =
      (encodeDirent name c).getD k 0 := by
    rw [putSlot, splice_inside (by rw [length_encodeDirent hshort]; exact hk)]
    exact (List.getD_eq_getElem _ _ _).symm
  have h28 : filenameLen = 28 := rfl
  have hd : direntBytes = 32 := rfl
  have hend : putSlot g j name c (direntBytes * j + name.length) = 0 := by
    rw [hinside (by omega), encodeDirent, List.append_assoc, List.getD_append_right _ _ _ _ (Nat.le_refl _), Nat.sub_self,
      List.getD_append _ _ _ _ (by simp; omega)]
    simp
  have hlen : (name ++ List.replicate (filenameLen - name.length) 0).length = filenameLen := by
    simp
    omega
  have hinode : direntInode (putSlot g j name c) (direntBytes * j) = c := by
    rw [direntInode, putSlot, encodeDirent, leNat_splice_tail _ _ _ _ _ _ (by rw [hlen]), hlen,
      ← List.append_nil (leBytes c 4), leNat_splice_head]
    exact Nat.mod_eq_of_lt h32
  refine ⟨hname, fun k hk => ?_, hend, hinode, hc⟩
  have hk : k < name.length := hk
  rw [hinside (by omega), encodeDirent, List.append_assoc, List.getD_append _ _ _ _ hk]

/-- Writing one slot of a block leaves the others alone. -/
theorem Holds.splice_other {bs : List UInt8} {i : Nat} (h : Holds g (direntBytes * i) s) (hij : i ≠ j)
    (ho : direntBytes * j ≤ o) (hbs : o + bs.length ≤ direntBytes * (j + 1)) :
    Holds (splice g o bs) (direntBytes * i) s := by
  refine h.congr fun t ht => splice_outside ?_
  simp only [direntBytes] at ht ho hbs ⊢
  omega

theorem Holds.putSlot_other {i : Nat} (h : Holds g (direntBytes * i) s) (hij : i ≠ j) (hname : name.length < filenameLen)
    (c : Nat) : Holds (putSlot g j name c) (direntBytes * i) s :=
  h.splice_other hij (Nat.le_refl _) (by rw [length_encodeDirent hname, Nat.mul_add, Nat.mul_one])

theorem holds_clearSlot (g : Block) (j : Nat) : Holds (clearSlot g j) (direntBytes * j) none := by
  change clearSlot g j (direntBytes * j + 0) = 0
  rw [clearSlot, splice_inside (by simp [direntBytes])]
  simp

theorem Holds.clearSlot_other {i : Nat} (h : Holds g (direntBytes * i) s) (hij : i ≠ j) :
    Holds (clearSlot g j) (direntBytes * i) s :=
  h.splice_other hij (Nat.le_refl _) (by rw [List.length_replicate, Nat.mul_add, Nat.mul_one])

/-- The inode number of a live slot can be replaced alone. -/
theorem Holds.setInode {name : Name} {old new : Nat} (h : Holds g (direntBytes * j) (some (name, old))) (hc : new ≠ 0)
    (h32 : new < 4294967296) :
    Holds (splice g (direntBytes * j + filenameLen) (leBytes new 4)) (direntBytes * j) (some (name, new)) := by
  have hshort := h.name.short
  refine ⟨h.name, fun k hk => ?_, ?_, ?_, hc⟩
  · rw [splice_outside (.inl (by simp only at hk hshort; omega))]
    exact h.bytes k hk
  · rw [splice_outside (.inl (by simp only at hshort ⊢; omega))]
    exact h.nul
  · rw [direntInode, ← List.append_nil (leBytes new 4), leNat_splice_head]
    exact Nat.mod_eq_of_lt h32

end Mofs
