import Mofs.Frame

namespace Mofs

open Effect Bytes

variable {sb : Superblock} {V W : View} {G H : Owners} {i : Nat}

/-- Put inode `i` into use as `x`. -/
def View.enter (V : View) (i : Nat) (x : Inode) : View := (V.setIbit i true).setInode i x

/-- Give inode `i` back. -/
def View.leave (V : View) (i : Nat) : View := (V.setIbit i false).setInode i Inode.zero

namespace View

@[simp] theorem enter_ibit (V : View) (i : Nat) (x : Inode) : (V.enter i x).ibit = Function.update V.ibit i true := rfl

@[simp] theorem enter_inode (V : View) (i : Nat) (x : Inode) : (V.enter i x).inode = Function.update V.inode i x := rfl

@[simp] theorem enter_dbit (V : View) (i : Nat) (x : Inode) : (V.enter i x).dbit = V.dbit := rfl

@[simp] theorem enter_blk (V : View) (i : Nat) (x : Inode) : (V.enter i x).blk = V.blk := rfl

@[simp] theorem leave_ibit (V : View) (i : Nat) : (V.leave i).ibit = Function.update V.ibit i false := rfl

@[simp] theorem leave_inode (V : View) (i : Nat) : (V.leave i).inode = Function.update V.inode i Inode.zero := rfl

@[simp] theorem leave_dbit (V : View) (i : Nat) : (V.leave i).dbit = V.dbit := rfl

@[simp] theorem leave_blk (V : View) (i : Nat) : (V.leave i).blk = V.blk := rfl

/-- An inode that was free and zero is so again once it is given back. -/
theorem leave_enter {V : View} {i : Nat} (hib : V.ibit i = false) (hz : V.inode i = Inode.zero) (x : Inode) :
    (V.enter i x).leave i = V := by
  refine View.ext ?_ ?_ rfl rfl
  · simp [← hz]
  · simp [← hib]

end View

/-- A free inode that comes into use without blocks leaves all other inodes alone. -/
theorem Frame.enter (h : Wf sb V G) (hlt : i < sb.inodeNum) (hfree : V.ibit i = false) {x : Inode}
    (hhead : x.iDataHead = 0) (hnr : x.iNrBlocks = 0) : Frame sb [i] V (V.enter i x) G G := by
  obtain ⟨hn, hd⟩ := h.free i hfree
  refine ⟨⟨fun j hj => ?_, fun j hj => ?_, fun j hj => ?_, h.max, fun j hj => ?_, h.nodup, h.disjoint, h.inData, h.bits⟩,
    fun j hj => ?_⟩
  · by_cases hji : j = i
    · exact hji ▸ hlt
    · exact h.range j (by simpa [hji] using hj)
  · by_cases hji : j = i
    · subst hji
      rw [hn, hd, View.enter_inode, Function.update_self, hhead]
      exact chain_nil _ _
    · simp only [View.enter_inode, Function.update_of_ne hji]
      exact h.chain j (by simpa [hji] using hj)
  · by_cases hji : j = i
    · subst hji
      rw [hd, View.enter_inode, Function.update_self, hnr]
      rfl
    · simp only [View.enter_inode, Function.update_of_ne hji]
      exact h.nr j (by simpa [hji] using hj)
  · have hji : j ≠ i := by
      rintro rfl
      simp at hj
    exact h.free j (by simpa [hji] using hj)
  · have hji : j ≠ i := by simpa using hj
    exact ⟨by simp [hji], by simp [hji], rfl, rfl, fun _ _ => rfl⟩

/-- An inode without blocks can be given back. -/
theorem Frame.leave (h : Wf sb V G) (hown : G.nodes i = [] ∧ G.data i = []) : Frame sb [i] V (V.leave i) G G := by
  have hne {j : Nat} (hj : (V.leave i).ibit j = true) : j ≠ i := by
    rintro rfl
    simp at hj
  refine ⟨⟨fun j hj => ?_, fun j hj => ?_, fun j hj => ?_, h.max, fun j hj => ?_, h.nodup, h.disjoint, h.inData, h.bits⟩,
    fun j hj => ?_⟩
  · exact h.range j (by simpa [hne hj] using hj)
  · simp only [View.leave_inode, Function.update_of_ne (hne hj)]
    exact h.chain j (by simpa [hne hj] using hj)
  · simp only [View.leave_inode, Function.update_of_ne (hne hj)]
    exact h.nr j (by simpa [hne hj] using hj)
  · by_cases hji : j = i
    · exact hji ▸ hown
    · exact h.free j (by simpa [hji] using hj)
  · have hji : j ≠ i := by simpa using hj
    exact ⟨by simp [hji], by simp [hji], rfl, rfl, fun _ _ => rfl⟩

namespace Mount

/-- `allocate_inode` takes the lowest free number from 3 on. -/
theorem ensures_allocateInode (m : Mount) (V : View) :
    m.Ensures (allocateInode m.sb) V (fun r W =>
      match m.sb.freeInodes V with
      | [] => r = .error .enospc ∧ W = V
      | i :: _ => r = .ok i ∧ W = V.setIbit i true) := by
  have hfind := m.reads_findFreeInodeIndices V 1
  cases hfree : m.sb.freeInodes V with
  | nil =>
    rw [hfree, if_pos (by decide)] at hfind
    exact (Reads.bind_error hfind).ensures ⟨rfl, rfl⟩
  | cons i is =>
    rw [hfree, if_neg (by simp)] at hfind
    refine Ensures.bind_reads hfind ?_
    obtain ⟨hlt, h3, -⟩ := mem_freeInodes.mp (hfree ▸ List.mem_cons_self : i ∈ m.sb.freeInodes V)
    have hset : m.Ensures (setInodeBitmapBit m.sb i true) V (fun r W => r = .ok () ∧ W = V.setIbit i true) :=
      m.ensures_setInodeBitmapBit h3 hlt ⟨rfl, rfl⟩
    exact Ensures.bind_ok hset.attempt_eq fun W hW => Ensures.pure ⟨rfl, hW⟩

theorem ensures_freeInode (m : Mount) (V : View) {i : Nat} (h3 : 3 ≤ i) (hlt : i < m.sb.inodeNum) :
    m.Ensures (freeInode m.sb i) V (fun r W => r = .ok () ∧ W = V.leave i) := by
  have hneg := m.not_isNeg hlt
  rw [freeInode, if_neg (by omega)]
  have hset : m.Ensures (setInodeBitmapBit m.sb i false) V (fun r W => r = .ok () ∧ W = V.setIbit i false) :=
    m.ensures_setInodeBitmapBit h3 hlt ⟨rfl, rfl⟩
  refine Ensures.bind_ok hset fun W hW => ?_
  have hwrite : m.Ensures (mofsWriteInode m.sb i Inode.zero) W (fun r W' => r = .ok () ∧ W' = W.setInode i Inode.zero) :=
    m.ensures_mofsWriteInode hlt ⟨rfl, rfl⟩
  refine Ensures.bind_ok hwrite.attempt_eq fun W' hW' => Ensures.pure ⟨rfl, ?_⟩
  rw [hW', hW]
  rfl

end Mount

end Mofs
