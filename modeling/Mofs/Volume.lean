import Mofs.DirUpdate
import Mofs.FileModel
import Mofs.Lib.Tree

namespace Mofs

open Effect Bytes Slots Mofs.Tree

/-- The slots every directory but the root begins with. -/
def lead (up : Nat → Nat) (i : Nat) : List Slot :=
  if i = rootInodeNum then [] else [some (dot, i), some (dotdot, up i)]

/-- All slots of directory `i`, where `T i` are the ordinary ones. -/
def dirSlots (up : Nat → Nat) (T : Nat → List Slot) (i : Nat) : List Slot := lead up i ++ T i

/-- The inodes that the ordinary entries of a directory name. -/
def kids (T : Nat → List Slot) (i : Nat) : List Nat := (entries (T i)).map Prod.snd

variable {sb : Superblock} {V W : View} {G H : Owners} {T T' : Nat → List Slot} {up up' : Nat → Nat} {i p c j k : Nat}
  {name : Name} {s : Slot} {slots : List Slot}

section Slots

@[simp] theorem lead_root : lead up rootInodeNum = [] := if_pos rfl

theorem lead_of_ne (h : i ≠ rootInodeNum) : lead up i = [some (dot, i), some (dotdot, up i)] := if_neg h

theorem mem_lead : s ∈ lead up i ↔ i ≠ rootInodeNum ∧ (s = some (dot, i) ∨ s = some (dotdot, up i)) := by
  by_cases h : i = rootInodeNum
  · subst h
    simp
  · simp [lead_of_ne h, h]

/-- A slot that is none of the two first is an ordinary one. -/
theorem dirSlots_get (hk : (dirSlots up T i)[k]? = some s) (hs : s ∉ lead up i) :
    ∃ j, k = (lead up i).length + j ∧ (T i)[j]? = some s := by
  rw [dirSlots, List.getElem?_append] at hk
  split at hk
  · exact absurd (List.mem_of_getElem? hk) hs
  · exact ⟨k - (lead up i).length, by omega, hk⟩

theorem dirSlots_getElem (h : (T i)[j]? = some s) : (dirSlots up T i)[(lead up i).length + j]? = some s := by
  rw [dirSlots, List.getElem?_append_right (Nat.le_add_right _ _), Nat.add_sub_cancel_left, h]

theorem none_not_mem_lead : none ∉ lead up i := by simp [mem_lead]

theorem dirSlots_set (s : Slot) : (dirSlots up T i).set ((lead up i).length + j) s = lead up i ++ (T i).set j s := by
  rw [dirSlots, List.set_append_right _ _ (Nat.le_add_right _ _), Nat.add_sub_cancel_left]

theorem lookup_root (T : Nat → List Slot) (name : Name) : lookup (dirSlots up T rootInodeNum) name = lookup (T rootInodeNum) name := by
  simp [dirSlots]

theorem lookup_dirSlots (h : i ≠ rootInodeNum) (T : Nat → List Slot) (name : Name) : lookup (dirSlots up T i) name =
    if name = dot then some i else if name = dotdot then some (up i) else lookup (T i) name := by
  simp only [dirSlots, lead_of_ne h, List.cons_append, List.nil_append, lookup, eq_comm (b := name)]

theorem mem_kids : c ∈ kids T i ↔ ∃ name, some (name, c) ∈ T i := by
  simp [kids, mem_entries]

theorem kids_nil (h : T i = []) : kids T i = [] := by simp [kids, h]

end Slots

/-- What a volume holds about directory `i`. -/
structure DirNode (sb : Superblock) (V : View) (G : Owners) (T : Nat → List Slot) (up : Nat → Nat) (i : Nat) : Prop where
  dirAt : DirAt sb V i (G.nodes i) (G.data i) (dirSlots up T i)
  large : entriesPerBlk sb ≤ (dirSlots up T i).length
  distinct : Distinct (dirSlots up T i)
  links : (V.inode i).iLinks.toNat = 2 + (kids T i).countP fun c => (V.inode c).isDir

/-- What a volume holds about inode `i`. -/
structure NodeOk (sb : Superblock) (V : View) (G : Owners) (T : Nat → List Slot) (up : Nat → Nat) (i : Nat) : Prop where
  zero : V.ibit i = false → V.inode i = Inode.zero
  low : V.ibit i = true → rootInodeNum ≤ i
  sized : V.ibit i = true → (V.inode i).isDir = false → (V.inode i).iNrBlocks.toNat = sb.blocksFor (V.inode i).iSize.toNat
  slim : G.data i = [] → G.nodes i = []
  flat : (V.inode i).isDir = false → T i = []
  dir : (V.inode i).isDir = true → DirNode sb V G T up i

/-- A well-formed volume: block ownership is consistent, and the directories with the ordinary entries `T` form a tree
in which `up` is the parent of every inode in use. -/
structure Vol (sb : Superblock) (V : View) (G : Owners) (T : Nat → List Slot) (up : Nat → Nat) : Prop where
  wf : Wf sb V G
  rootDir : (V.inode rootInodeNum).isDir = true
  tree : IsTree (fun i => V.ibit i = true) (kids T) up rootInodeNum
  node : ∀ i, NodeOk sb V G T up i

namespace Vol

theorem used_of_isDir (h : Vol sb V G T up) (hd : (V.inode i).isDir = true) : V.ibit i = true := by
  cases hi : V.ibit i with
  | true => rfl
  | false =>
    rw [(h.node i).zero hi] at hd
    cases hd

theorem filesOk (h : Vol sb V G T up) : FilesOk sb V G := ⟨h.wf, fun i => (h.node i).sized⟩

theorem dirAt (h : Vol sb V G T up) (hd : (V.inode i).isDir = true) :
    DirAt sb V i (G.nodes i) (G.data i) (dirSlots up T i) := ((h.node i).dir hd).dirAt

theorem up_isDir (h : Vol sb V G T up) (hc : V.ibit c = true) (hr : c ≠ rootInodeNum) : (V.inode (up c)).isDir = true := by
  obtain ⟨-, hkid⟩ := h.tree.parent c hc hr
  cases hd : (V.inode (up c)).isDir with
  | true => rfl
  | false =>
    rw [kids_nil ((h.node _).flat hd)] at hkid
    cases hkid

/-- What an ordinary entry says about the inode it names. -/
theorem kid (h : Vol sb V G T up) (hd : (V.inode p).isDir = true) (he : some (name, c) ∈ T p) :
    V.ibit c = true ∧ c ≠ rootInodeNum ∧ up c = p :=
  h.tree.kid p (h.used_of_isDir hd) c (mem_kids.mpr ⟨name, he⟩)

/-- Every entry names an inode in use. -/
theorem used_of_mem (h : Vol sb V G T up) (hd : (V.inode p).isDir = true) (he : some (name, c) ∈ dirSlots up T p) :
    V.ibit c = true := by
  have hp := h.used_of_isDir hd
  rcases List.mem_append.mp he with he | he
  · obtain ⟨hr, he | he⟩ := mem_lead.mp he
    · simp only [Option.some.injEq, Prod.mk.injEq] at he
      exact he.2 ▸ hp
    · simp only [Option.some.injEq, Prod.mk.injEq] at he
      exact he.2 ▸ (h.tree.parent p hp hr).1
  · exact (h.kid hd he).1

theorem three_le (h : Vol sb V G T up) (hi : V.ibit i = true) (hr : i ≠ rootInodeNum) : 3 ≤ i := by
  have := (h.node i).low hi
  simp only [rootInodeNum] at this hr
  omega

theorem rootUsed (h : Vol sb V G T up) : V.ibit rootInodeNum = true := h.used_of_isDir h.rootDir

end Vol

/-- A directory that has not changed. -/
theorem DirAt.of_same (h : DirAt sb V i (G.nodes i) (G.data i) slots) (hok : sb.Ok) (hW : Wf sb W H) (hs : Same V W G H i)
    (hi : V.ibit i = true) : DirAt sb W i (H.nodes i) (H.data i) slots where
  file := hW.fileAt (hs.ibit.trans hi)
  isDir := hs.inode ▸ h.isDir
  size := hs.inode ▸ h.size
  blocks := hs.data ▸ h.blocks
  slot k hk := by
    have hlt := h.div_lt hok hk
    rw [hs.data, List.getD_eq_getElem _ _ hlt, hs.blk _ (List.getElem_mem hlt), ← List.getD_eq_getElem _ 0 hlt]
    exact h.slot k hk

theorem DirAt.of_frame {S : List Nat} (h : DirAt sb V i (G.nodes i) (G.data i) slots) (hok : sb.Ok) (hF : Frame sb S V W G H)
    (hi : V.ibit i = true) (hS : i ∉ S) : DirAt sb W i (H.nodes i) (H.data i) slots :=
  h.of_same hok hF.wf (hF.same i hS) hi

/-- An inode that an operation has left alone. -/
theorem NodeOk.of_same (h : NodeOk sb V G T up i) (hok : sb.Ok) (hW : Wf sb W H) (hs : Same V W G H i)
    (hused : (V.inode i).isDir = true → V.ibit i = true) (hT : T' i = T i)
    (hup : V.ibit i = true → i ≠ rootInodeNum → up' i = up i)
    (hkids : ∀ c ∈ kids T i, (W.inode c).isDir = (V.inode c).isDir) : NodeOk sb W H T' up' i := by
  refine ⟨fun hi => ?_, fun hi => h.low (hs.ibit ▸ hi), fun hi hd => ?_, fun he => ?_, fun hd => ?_, fun hd => ?_⟩
  · rw [hs.inode]
    exact h.zero (hs.ibit ▸ hi)
  · rw [hs.inode] at hd ⊢
    exact h.sized (hs.ibit ▸ hi) hd
  · rw [hs.nodes]
    exact h.slim (hs.data ▸ he)
  · rw [hT]
    exact h.flat (hs.inode ▸ hd)
  · rw [hs.inode] at hd
    obtain ⟨hdir, hlarge, hdist, hlinks⟩ := h.dir hd
    have hi := hused hd
    have hslots : dirSlots up' T' i = dirSlots up T i := by
      rw [dirSlots, dirSlots, hT]
      congr 1
      by_cases hr : i = rootInodeNum
      · subst hr
        simp
      · rw [lead_of_ne hr, lead_of_ne hr, hup hi hr]
    have hcount : (kids T' i).countP (fun c => (W.inode c).isDir) = (kids T i).countP fun c => (V.inode c).isDir := by
      rw [kids, hT, ← kids]
      exact List.countP_congr fun c hc => by rw [hkids c hc]
    refine ⟨hslots ▸ hdir.of_same hok hW hs hi, hslots ▸ hlarge, hslots ▸ hdist, ?_⟩
    rw [hcount, hs.inode]
    exact hlinks

/-- A volume after an operation on the inodes `S`. -/
theorem Vol.rebuild {S : List Nat} (h : Vol sb V G T up) (hok : sb.Ok) (hF : Frame sb S V W G H)
    (hroot : (W.inode rootInodeNum).isDir = true) (htree : IsTree (fun i => W.ibit i = true) (kids T') up' rootInodeNum)
    (hT : ∀ i, i ∉ S → T' i = T i) (hup : ∀ i, i ∉ S → V.ibit i = true → i ≠ rootInodeNum → up' i = up i)
    (hkids : ∀ i, i ∉ S → ∀ c ∈ kids T i, (W.inode c).isDir = (V.inode c).isDir)
    (hS : ∀ i ∈ S, NodeOk sb W H T' up' i) : Vol sb W H T' up' := by
  refine ⟨hF.wf, hroot, htree, fun i => ?_⟩
  by_cases hi : i ∈ S
  · exact hS i hi
  · exact (h.node i).of_same hok hF.wf (hF.same i hi) h.used_of_isDir (hT i hi) (hup i hi) (hkids i hi)

/-- A regular file in use. -/
theorem NodeOk.of_file (hi : W.ibit i = true) (hlow : rootInodeNum ≤ i) (hd : (W.inode i).isDir = false)
    (hsize : (W.inode i).iNrBlocks.toNat = sb.blocksFor (W.inode i).iSize.toNat) (hslim : H.data i = [] → H.nodes i = [])
    (hT : T i = []) : NodeOk sb W H T up i := by
  refine ⟨fun hi' => ?_, fun _ => hlow, fun _ _ => hsize, hslim, fun _ => hT, fun hd' => ?_⟩
  · rw [hi] at hi'
    cases hi'
  · rw [hd] at hd'
    cases hd'

/-- Operations on the contents of a regular file. -/
theorem Vol.of_file (h : Vol sb V G T up) (hok : sb.Ok) (hF : Frame sb [i] V W G H) (hib : W.ibit = V.ibit)
    (hi : V.ibit i = true) (hd : (V.inode i).isDir = false) (hattrs : SameAttrs (V.inode i) (W.inode i))
    (hsized : (W.inode i).iNrBlocks.toNat = sb.blocksFor (W.inode i).iSize.toNat) (hslim : H.data i = [] → H.nodes i = []) :
    Vol sb W H T up := by
  have hdir (j : Nat) : (W.inode j).isDir = (V.inode j).isDir := by
    by_cases hj : j = i
    · exact hj ▸ hattrs.isDir
    · rw [(hF.same j (by simpa using hj)).inode]
  refine h.rebuild hok hF (by rw [hdir]; exact h.rootDir) (hib ▸ h.tree) (fun _ _ => rfl) (fun _ _ _ _ => rfl)
    (fun _ _ c _ => hdir c) fun j hj => ?_
  obtain rfl : j = i := by simpa using hj
  exact .of_file (by rw [hib, hi]) ((h.node j).low hi) (by rw [hdir, hd]) hsized hslim ((h.node j).flat hd)

end Mofs
