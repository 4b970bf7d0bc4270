import Mathlib.Data.List.Perm.Subperm
import Mofs.FormatLayout
import Mofs.Scan

namespace Mofs

open Effect Bytes

variable {sb : Superblock} {e : Env} {P : Nat → Prop} {k n : Nat} {l : List Nat}

/-- The `k` smallest numbers with the property `P`, in increasing order. -/
structure Smallest (P : Nat → Prop) (k : Nat) (l : List Nat) : Prop where
  length : l.length = k
  sorted : l.Pairwise (· < ·)
  mem : ∀ i ∈ l, P i
  least : ∀ i, P i → i ∉ l → ∀ j ∈ l, j < i

/-- What a search for `k` numbers with the property `P` is to return: the smallest ones if there are as many, and
`ENOSPC` otherwise. -/
def Finds (P : Nat → Prop) (k : Nat) : Except Errno (List Nat) → Prop
  | .ok l => Smallest P k l
  | .error e => e = .enospc ∧ ∀ l : List Nat, l.Nodup → (∀ i ∈ l, P i) → l.length < k

theorem smallest_take (hsort : l.Pairwise (· < ·)) (hl : ∀ i, i ∈ l ↔ P i) (hk : k ≤ l.length) : Smallest P k (l.take k) := by
  refine ⟨by rw [List.length_take, Nat.min_eq_left hk], hsort.sublist (List.take_sublist k l),
    fun i hi => (hl i).mp (List.mem_of_mem_take hi), ?_⟩
  intro i hi hnot j hj
  have hmem : i ∈ l.take k ++ l.drop k := by
    rw [List.take_append_drop]
    exact (hl i).mpr hi
  have hdrop := (List.mem_append.mp hmem).resolve_left hnot
  rw [← List.take_append_drop k l, List.pairwise_append] at hsort
  exact hsort.2.2 j hj i hdrop

theorem finds_of_sorted (hsort : l.Pairwise (· < ·)) (hl : ∀ i, i ∈ l ↔ P i) (k : Nat) :
    Finds P k (if l.length < k then .error .enospc else .ok (l.take k)) := by
  split
  · next hlt =>
    refine ⟨rfl, fun l' hnodup hP => lt_of_le_of_lt ?_ hlt⟩
    exact (hnodup.subperm fun i hi => (hl i).mpr (hP i hi)).length_le
  · next hge => exact smallest_take hsort hl (Nat.not_lt.mp hge)

/-- The bitmap at `start` has the bit `i` set to `u`, and no other bit of any block differs. -/
structure OneBit (sb : Superblock) (start i : Nat) (u : Bool) (t t' : Disk) : Prop where
  bit : bitmapBit t'.blk sb.blkSize start i = u
  others : ∀ b byte j, j < 8 →
    ¬ (b = bitBlk sb.blkSize start i ∧ byte = i % (sb.blkSize * 8) / 8 ∧ j = i % (sb.blkSize * 8) % 8) →
    testBit (t'.blk b byte) j = testBit (t.blk b byte) j

theorem oneBit_put (sb : Superblock) (start i : Nat) (u : Bool) (t : Disk) :
    OneBit sb start i u t (t.put (bitBlk sb.blkSize start i) (bitmapPut (t.blk (bitBlk sb.blkSize start i))
      (i % (sb.blkSize * 8) / 8) (i % (sb.blkSize * 8) % 8) u)) := by
  constructor
  · simp only [Disk.put, bitmapBit_put, if_true]
  · intro b byte j hj hne
    by_cases hb : b = bitBlk sb.blkSize start i
    · subst hb
      simp only [Disk.put, Function.update_self]
      rw [bitmapPut_bit _ _ (Nat.mod_lt _ (by decide)) hj, if_neg]
      exact fun h => hne ⟨rfl, h⟩
    · simp only [Disk.put, Function.update_of_ne hb]

/-- Bitmap scanning is exact, on every volume that `mofs_format` lays out and with any content of the bitmaps: a search
finds the smallest clear bits of its range, and an update changes one bit. -/
theorem bitmaps_exact (hsb : sb.FromFormat) (hs : e.Serves sb) (t : Disk) :
    (∀ k, 1 ≤ k → ∃ r, exec e (findFreeDataBlockIndices sb k) t = some (r, t) ∧
      Finds (fun i => i < sb.dataBlkNum ∧ bitmapBit t.blk sb.blkSize sb.dataBitmapStart i = false) k r) ∧
    (∀ k, 1 ≤ k → ∃ r, exec e (findFreeInodeIndices sb k) t = some (r, t) ∧
      Finds (fun i => 3 ≤ i ∧ i < sb.inodeNum ∧ bitmapBit t.blk sb.blkSize sb.inodeBitmapStart i = false) k r) ∧
    (∀ i u, i < sb.dataBlkNum → ∃ t', exec e (setDataBitmapBit sb i u) t = some (.ok (), t') ∧
      OneBit sb sb.dataBitmapStart i u t t') ∧
    (∀ i u, 3 ≤ i → i < sb.inodeNum → ∃ t', exec e (setInodeBitmapBit sb i u) t = some (.ok (), t') ∧
      OneBit sb sb.inodeBitmapStart i u t t') := by
  have hl := hsb.laid
  have hsort (n : Nat) (p : Nat → Bool) : ((List.range n).filter p).Pairwise (· < ·) := List.pairwise_lt_range.filter p
  refine ⟨fun k _ => ⟨_, exec_findFreeDataBlockIndices hl hs t k, finds_of_sorted (hsort _ _) (fun i => ?_) k⟩,
    fun k _ => ⟨_, exec_findFreeInodeIndices hl hs t k, finds_of_sorted (hsort _ _) (fun i => ?_) k⟩,
    fun i u hi => ⟨_, exec_setDataBitmapBit hl hs t hi u, oneBit_put _ _ _ _ _⟩,
    fun i u h3 hi => ⟨_, exec_setInodeBitmapBit hl hs t h3 hi u, oneBit_put _ _ _ _ _⟩⟩
  · rw [← Superblock.freeData, mem_freeData]
    constructor
    · rintro ⟨hi, hb⟩
      exact ⟨hi, by simpa [Superblock.view, hi] using hb⟩
    · rintro ⟨hi, hb⟩
      exact ⟨hi, by simp [Superblock.view, hb]⟩
  · rw [← Superblock.freeInodes, mem_freeInodes]
    constructor
    · rintro ⟨hi, h3, hb⟩
      exact ⟨h3, hi, by simpa [Superblock.view, hi] using hb⟩
    · rintro ⟨h3, hi, hb⟩
      exact ⟨hi, h3, by simp [Superblock.view, hb]⟩

theorem bitmaps_exact_sixteen : ((geometry (16 * 512) 512).superblock 512).FromFormat ∧
    Env.Serves ⟨512, 8192, false, fun _ => none, fun _ => 0⟩ ((geometry (16 * 512) 512).superblock 512) ∧
    ∃ r, exec ⟨512, 8192, false, fun _ => none, fun _ => 0⟩
        (findFreeDataBlockIndices ((geometry (16 * 512) 512).superblock 512) 3) ⟨fun _ _ => 0, 0, 0⟩ =
          some (r, ⟨fun _ _ => 0, 0, 0⟩) ∧
      Finds (fun i => i < 12 ∧ bitmapBit (fun _ _ => 0) 512 2 i = false) 3 r := by
  have hsb := fromFormat_blankDev (show 8 < 16 by decide) (by decide)
  have hs : Env.Serves ⟨512, 8192, false, fun _ => none, fun _ => 0⟩ ((geometry (16 * 512) 512).superblock 512) :=
    ⟨rfl, by decide⟩
  exact ⟨hsb, hs, (bitmaps_exact hsb hs ⟨fun _ _ => 0, 0, 0⟩).1 3 (by decide)⟩

end Mofs
