import Mathlib.Data.List.Perm.Subperm
import Mofs.Lib.Linked
import Mofs.Scan

namespace Mofs

open Effect Bytes Linked

variable {sb : Superblock} {V W : View}

/-- Which blocks an inode owns: its list nodes and its data blocks, in order. -/
structure Owners where
  nodes : Nat → List Nat
  data : Nat → List Nat

namespace Owners

variable (G : Owners)

def owned (i : Nat) : List Nat := G.nodes i ++ G.data i

def set (i : Nat) (ns ds : List Nat) : Owners := ⟨Function.update G.nodes i ns, Function.update G.data i ds⟩

@[simp] theorem set_nodes_self (i : Nat) (ns ds : List Nat) : (G.set i ns ds).nodes i = ns := by simp [set]

@[simp] theorem set_data_self (i : Nat) (ns ds : List Nat) : (G.set i ns ds).data i = ds := by simp [set]

@[simp] theorem set_owned_self (i : Nat) (ns ds : List Nat) : (G.set i ns ds).owned i = ns ++ ds := by simp [owned]

theorem set_nodes_of_ne {i j : Nat} (h : j ≠ i) (ns ds : List Nat) : (G.set i ns ds).nodes j = G.nodes j := by
  simp [set, h]

theorem set_data_of_ne {i j : Nat} (h : j ≠ i) (ns ds : List Nat) : (G.set i ns ds).data j = G.data j := by
  simp [set, h]

theorem set_owned_of_ne {i j : Nat} (h : j ≠ i) (ns ds : List Nat) : (G.set i ns ds).owned j = G.owned j := by
  rw [owned, owned, G.set_nodes_of_ne h, G.set_data_of_ne h]

end Owners

/-- The list of an inode: from `head` through the nodes `ns`, holding the pointers `ds`. -/
structure Chain (sb : Superblock) (blk : Nat → Block) (head : Nat) (ns ds : List Nat) : Prop where
  links : Links (fun b => nodeNext (blk b)) (fun b => nodePtrs (blk b) (nodeNrPtrs (blk b))) 0 head ns ds
  cap : ∀ b ∈ ns, nodeNrPtrs (blk b) ≤ listPtrsCap sb

/-- Block ownership is consistent: the lists of the inodes in use are chains, no block is used twice, and the
data bitmap marks the owned blocks and no others. -/
structure Wf (sb : Superblock) (V : View) (G : Owners) : Prop where
  range : ∀ i, V.ibit i = true → i < sb.inodeNum
  chain : ∀ i, V.ibit i = true → Chain sb V.blk (V.inode i).iDataHead.toNat (G.nodes i) (G.data i)
  nr : ∀ i, V.ibit i = true → (V.inode i).iNrBlocks.toNat = (G.data i).length
  max : ∀ i, (G.data i).length ≤ maxFileDataBlocks
  free : ∀ i, V.ibit i = false → G.nodes i = [] ∧ G.data i = []
  nodup : ∀ i, (G.owned i).Nodup
  disjoint : ∀ i j b, b ∈ G.owned i → b ∈ G.owned j → i = j
  inData : ∀ i b, b ∈ G.owned i → sb.inData b
  bits : ∀ k < sb.dataBlkNum, (V.dbit k = true ↔ ∃ i, sb.dataRegionStart + k ∈ G.owned i)

theorem Chain.congr {blk blk' : Nat → Block} {head : Nat} {ns ds : List Nat} (h : Chain sb blk head ns ds)
    (hb : ∀ b ∈ ns, blk b = blk' b) : Chain sb blk' head ns ds where
  links := h.links.congr (fun b hbn => by rw [hb b hbn]) (fun b hbn => by rw [hb b hbn])
  cap b hbn := by rw [← hb b hbn]; exact h.cap b hbn

theorem Chain.of_null {blk : Nat → Block} {ns ds : List Nat} (h : Chain sb blk 0 ns ds) : ns = [] ∧ ds = [] :=
  h.links.of_null

theorem chain_nil (sb : Superblock) (blk : Nat → Block) : Chain sb blk 0 [] [] := ⟨.nil, by simp⟩

theorem Chain.cons_iff {blk : Nat → Block} {head b : Nat} {ns ds : List Nat} :
    Chain sb blk head (b :: ns) ds ↔ head = b ∧ b ≠ 0 ∧ nodeNrPtrs (blk b) ≤ listPtrsCap sb ∧
      ∃ ds', ds = nodePtrs (blk b) (nodeNrPtrs (blk b)) ++ ds' ∧ Chain sb blk (nodeNext (blk b)) ns ds' := by
  constructor
  · rintro ⟨h, hc⟩
    cases h with
    | cons ha h => exact ⟨rfl, ha, hc _ (by simp), _, rfl, h, fun c hcn => hc c (by simp [hcn])⟩
  · rintro ⟨rfl, hb, hcap, ds', rfl, h⟩
    refine ⟨.cons hb h.links, fun c hcn => ?_⟩
    rcases List.mem_cons.mp hcn with rfl | hcn
    · exact hcap
    · exact h.cap c hcn

@[simp] theorem length_nodePtrs (f : Block) (n : Nat) : (nodePtrs f n).length = n := by simp [nodePtrs]

namespace Wf

variable {G : Owners}

theorem mem_nodes (_h : Wf sb V G) {i b : Nat} (hb : b ∈ G.nodes i) : b ∈ G.owned i := by simp [Owners.owned, hb]

theorem mem_data (_h : Wf sb V G) {i b : Nat} (hb : b ∈ G.data i) : b ∈ G.owned i := by simp [Owners.owned, hb]

theorem nodes_nodup (h : Wf sb V G) (i : Nat) : (G.nodes i).Nodup := (List.nodup_append.mp (h.nodup i)).1

theorem data_nodup (h : Wf sb V G) (i : Nat) : (G.data i).Nodup := (List.nodup_append.mp (h.nodup i)).2.1

theorem node_ne_data (h : Wf sb V G) {i j b c : Nat} (hb : b ∈ G.nodes i) (hc : c ∈ G.data j) : b ≠ c := by
  rintro rfl
  obtain rfl := h.disjoint i j b (h.mem_nodes hb) (h.mem_data hc)
  exact (List.nodup_append.mp (h.nodup i)).2.2 b hb b hc rfl

theorem owned_ne (h : Wf sb V G) {i j b c : Nat} (hij : i ≠ j) (hb : b ∈ G.owned i) (hc : c ∈ G.owned j) : b ≠ c := by
  rintro rfl
  exact hij (h.disjoint i j b hb hc)

theorem used (h : Wf sb V G) {i b : Nat} (hb : b ∈ G.owned i) : V.dbit (b - sb.dataRegionStart) = true := by
  have hd := h.inData i b hb
  rw [h.bits _ (by have := hd.1; have := hd.2; omega)]
  exact ⟨i, by rwa [Nat.add_sub_cancel' hd.1]⟩

theorem not_owned (h : Wf sb V G) {k i : Nat} (hk : k < sb.dataBlkNum) (hb : V.dbit k = false) :
    sb.dataRegionStart + k ∉ G.owned i := fun hm => by
  rw [(h.bits k hk).mpr ⟨i, hm⟩] at hb
  exact absurd hb (by decide)

theorem length_nodes_le (h : Wf sb V G) (i : Nat) : (G.nodes i).length ≤ sb.dataBlkNum := by
  have hsub : G.nodes i ⊆ List.range' sb.dataRegionStart sb.dataBlkNum := fun b hb => by
    have := h.inData i b (h.mem_nodes hb)
    exact List.mem_range'_1.mpr this
  have := ((h.nodes_nodup i).subperm hsub).length_le
  simpa using this

/-- Ownership survives when one inode gets a new list, provided its new blocks belong to nobody else. -/
theorem replace (h : Wf sb V G) {i : Nat} {ns ds : List Nat} (hi : V.ibit i = true) (hib : W.ibit = V.ibit)
    (hother : ∀ j, j ≠ i → W.inode j = V.inode j)
    (hblk : ∀ j, j ≠ i → ∀ b ∈ G.nodes j, W.blk b = V.blk b)
    (hchain : Chain sb W.blk (W.inode i).iDataHead.toNat ns ds)
    (hnr : (W.inode i).iNrBlocks.toNat = ds.length) (hmax : ds.length ≤ maxFileDataBlocks)
    (hnodup : (ns ++ ds).Nodup) (hdata : ∀ b ∈ ns ++ ds, sb.inData b)
    (hdisj : ∀ j, j ≠ i → ∀ b ∈ ns ++ ds, b ∉ G.owned j)
    (hbits : ∀ k < sb.dataBlkNum, (W.dbit k = true ↔
      sb.dataRegionStart + k ∈ ns ++ ds ∨ ∃ j, j ≠ i ∧ sb.dataRegionStart + k ∈ G.owned j)) :
    Wf sb W (G.set i ns ds) where
  range j hj := h.range j (by rwa [hib] at hj)
  chain j hj := by
    by_cases hji : j = i
    · subst hji; simpa using hchain
    · rw [G.set_nodes_of_ne hji, G.set_data_of_ne hji, hother j hji]
      exact (h.chain j (by rwa [hib] at hj)).congr fun b hb => (hblk j hji b hb).symm
  nr j hj := by
    by_cases hji : j = i
    · subst hji; simpa using hnr
    · rw [G.set_data_of_ne hji, hother j hji]
      exact h.nr j (by rwa [hib] at hj)
  max j := by
    by_cases hji : j = i
    · subst hji; simpa using hmax
    · rw [G.set_data_of_ne hji]; exact h.max j
  free j hj := by
    have hji : j ≠ i := by rintro rfl; rw [hib, hi] at hj; exact absurd hj (by decide)
    rw [G.set_nodes_of_ne hji, G.set_data_of_ne hji]
    exact h.free j (by rwa [hib] at hj)
  nodup j := by
    by_cases hji : j = i
    · subst hji; simpa using hnodup
    · rw [G.set_owned_of_ne hji]; exact h.nodup j
  disjoint j k b hj hk := by
    by_cases hji : j = i <;> by_cases hki : k = i
    · rw [hji, hki]
    · subst hji
      rw [G.set_owned_self] at hj
      rw [G.set_owned_of_ne hki] at hk
      exact absurd hk (hdisj k hki b hj)
    · subst hki
      rw [G.set_owned_self] at hk
      rw [G.set_owned_of_ne hji] at hj
      exact absurd hj (hdisj j hji b hk)
    · rw [G.set_owned_of_ne hji] at hj
      rw [G.set_owned_of_ne hki] at hk
      exact h.disjoint j k b hj hk
  inData j b hb := by
    by_cases hji : j = i
    · subst hji; exact hdata b (by simpa using hb)
    · exact h.inData j b (by rwa [G.set_owned_of_ne hji] at hb)
  bits k hk := by
    rw [hbits k hk]
    constructor
    · rintro (hm | ⟨j, hji, hm⟩)
      · exact ⟨i, by simpa using hm⟩
      · exact ⟨j, by rwa [G.set_owned_of_ne hji]⟩
    · rintro ⟨j, hm⟩
      by_cases hji : j = i
      · subst hji; exact .inl (by simpa using hm)
      · exact .inr ⟨j, hji, by rwa [G.set_owned_of_ne hji] at hm⟩

end Wf

end Mofs
