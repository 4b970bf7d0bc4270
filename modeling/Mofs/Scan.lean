import Mofs.Mount

namespace Mofs

open Effect Bytes

variable {lo bound base req : Nat} {acc : List Nat}

theorem take_append_take {α : Type} (xs ys : List α) (n : Nat) :
    (xs.take n ++ ys).take n = (xs ++ ys).take n := by
  rcases Nat.le_total xs.length n with h | h
  · rw [List.take_of_length_le h]
  · rw [List.take_append_of_le_length h, List.take_append_of_le_length (by simp [h]), List.take_take, Nat.min_self]

theorem take_append_full {α : Type} {xs : List α} {n : Nat} (ys : List α) (h : xs.length = n) :
    (xs ++ ys).take n = xs := by
  rw [List.take_append_of_le_length h.ge, List.take_of_length_le h.le]

theorem range'_filter_empty {p : Nat → Bool} {a n : Nat} (h : ∀ k, a ≤ k → p k = false) :
    (List.range' a n).filter p = [] := by
  rw [List.filter_eq_nil_iff]
  intro k hk
  rw [List.mem_range'_1] at hk
  simp [h k hk.1]

/-- The free indices of a bitmap byte, block or region among those a scan looks at. -/
def freeIn (lo bound : Nat) (used : Nat → Bool) (k : Nat) : Bool := lo ≤ k && k < bound && !used k

theorem freeIn_congr {used used' : Nat → Bool} {xs : List Nat} (h : ∀ k ∈ xs, used k = used' k) :
    xs.filter (freeIn lo bound used) = xs.filter (freeIn lo bound used') :=
  List.filter_congr fun k hk => by rw [freeIn, freeIn, h k hk]

theorem scanBits_eq (byte : UInt8) (n bit : Nat) (hacc : acc.length ≤ req) (h32 : base + bit + n ≤ 4294967296) :
    scanBits lo bound base req byte n bit acc =
      (acc ++ (List.range' (base + bit) n).filter (freeIn lo bound (fun k => testBit byte (k - base)))).take req := by
  induction n generalizing bit acc with
  | zero => simp [scanBits, List.take_of_length_le hacc]
  | succ n ih =>
    rw [scanBits]
    by_cases hfull : req ≤ acc.length
    · rw [if_pos hfull, take_append_full _ (by omega)]
    · have hidx : u32 (base + bit) = base + bit := Nat.mod_eq_of_lt (by omega)
      simp only [if_neg hfull, hidx]
      by_cases hb : bound ≤ base + bit
      · rw [if_pos hb, range'_filter_empty, List.append_nil, List.take_of_length_le hacc]
        intro k hk
        simp only [freeIn, Bool.and_eq_false_iff, decide_eq_false_iff_not]
        exact .inl (.inr (by omega))
      · rw [if_neg hb, List.range'_succ, List.filter_cons]
        have hsub : base + bit - base = bit := by omega
        by_cases hlo : base + bit < lo
        · have hp : freeIn lo bound (fun k => testBit byte (k - base)) (base + bit) = false := by
            simp [freeIn, hlo]
          rw [if_pos hlo, ih _ hacc (by omega), hp, if_neg (by decide), Nat.add_assoc]
        · have hp : freeIn lo bound (fun k => testBit byte (k - base)) (base + bit) = !testBit byte bit := by
            simp only [freeIn, hsub, decide_eq_true (Nat.le_of_not_lt hlo), decide_eq_true (Nat.lt_of_not_le hb),
              Bool.true_and]
          rw [if_neg hlo, hp]
          cases ht : testBit byte bit with
          | true => rw [if_neg (by simp), ih _ hacc (by omega), if_neg (by simp), Nat.add_assoc]
          | false =>
            rw [if_pos rfl, ih _ (by simp; omega) (by omega), if_pos (by simp), List.append_assoc,
              List.singleton_append, Nat.add_assoc]

theorem scanBytes_eq (buf : Block) (n byteIdx : Nat) (hacc : acc.length ≤ req)
    (h32 : base + (byteIdx + n) * 8 ≤ 4294967296) :
    scanBytes lo bound base req buf n byteIdx acc =
      (acc ++ (List.range' (base + byteIdx * 8) (n * 8)).filter
        (freeIn lo bound (fun k => testBit (buf ((k - base) / 8)) ((k - base) % 8)))).take req := by
  induction n generalizing byteIdx acc with
  | zero => simp [scanBytes, List.take_of_length_le hacc]
  | succ n ih =>
    rw [scanBytes]
    by_cases hfull : req ≤ acc.length
    · rw [if_pos hfull, take_append_full _ (by omega)]
    · have hbase : u32 (base + byteIdx * 8) = base + byteIdx * 8 := Nat.mod_eq_of_lt (by omega)
      have hsplit : List.range' (base + byteIdx * 8) ((n + 1) * 8) =
          List.range' (base + byteIdx * 8) 8 ++ List.range' (base + (byteIdx + 1) * 8) (n * 8) := by
        rw [show (n + 1) * 8 = 8 + n * 8 by omega, ← List.range'_append_1]
        congr 2
        omega
      rw [if_neg hfull, hbase, scanBits_eq _ _ _ hacc (by omega), ih _ (List.length_take_le _ _) (by omega),
        take_append_take, hsplit, List.filter_append, List.append_assoc, Nat.add_zero]
      congr 3
      apply freeIn_congr
      intro k hk
      rw [List.mem_range'_1] at hk
      have h8 : (k - base) / 8 = byteIdx := by omega
      have hm : (k - base) % 8 = k - (base + byteIdx * 8) := by omega
      rw [h8, hm]

section

variable {e : Env} {sb : Superblock} {start : Nat} {used : Nat → Bool}

theorem exec_scanBlocks (hl : sb.Laid) (hs : e.Serves sb) (d : Disk) (n blkIdx : Nat) (hacc : acc.length ≤ req)
    (hblk : start + (blkIdx + n) ≤ sb.inodeTableStart) (h32 : (blkIdx + n) * (sb.blkSize * 8) ≤ 4294967296)
    (hused : ∀ k, k < bound → bitmapBit d.blk sb.blkSize start k = used k) :
    exec e (scanBlocks sb lo bound start req n blkIdx acc) d =
      some (.ok ((acc ++ (List.range' (blkIdx * (sb.blkSize * 8)) (n * (sb.blkSize * 8))).filter
        (freeIn lo bound used)).take req), d) := by
  induction n generalizing blkIdx acc with
  | zero =>
    rw [scanBlocks, Nat.zero_mul, List.range'_zero, List.filter_nil, List.append_nil, List.take_of_length_le hacc]
    rfl
  | succ n ih =>
    rw [scanBlocks]
    have hpos := hl.blk_pos
    have hle := hl.blk_le
    have hge := hl.data_ge
    have hhole := hl.hole
    have hlt := hl.hole_lt
    by_cases hfull : req ≤ acc.length
    · rw [if_pos hfull, take_append_full _ (by omega)]
      rfl
    · rw [if_neg hfull]
      have h8 : u32 (sb.blkSize * 8) = sb.blkSize * 8 := Nat.mod_eq_of_lt (by omega)
      have hb : u32 (start + blkIdx) = start + blkIdx := Nat.mod_eq_of_lt (by omega)
      set w := sb.blkSize * 8 with hw
      have hmul : (blkIdx + (n + 1)) * w = blkIdx * w + w + n * w := by
        rw [Nat.add_mul, Nat.succ_mul]; omega
      have hbase : u32 (blkIdx * w) = blkIdx * w := Nat.mod_eq_of_lt (by omega)
      have hsplit : List.range' (blkIdx * w) ((n + 1) * w) =
          List.range' (blkIdx * w) w ++ List.range' ((blkIdx + 1) * w) (n * w) := by
        rw [Nat.succ_mul, Nat.add_comm (n * w), ← List.range'_append_1, Nat.succ_mul]
      rw [exec, run_bind_ok (exec_readFull (hs.fits (by omega)) d), h8, hbase, scanBytes_eq _ _ _ hacc (by omega), hb]
      refine (ih (blkIdx + 1) (List.length_take_le _ _) (by omega) (by rw [Nat.add_right_comm]; exact h32)).trans ?_
      rw [take_append_take, hsplit, List.filter_append, List.append_assoc, Nat.zero_mul, Nat.add_zero, ← hw]
      congr 6
      -- within the block just read, the bits of the buffer are the bits of the bitmap
      refine List.filter_congr fun k hk => ?_
      rw [List.mem_range'_1] at hk
      by_cases hk' : k < bound
      · have hdiv : k / w = blkIdx := by
          rw [Nat.div_eq_iff (by omega)]
          constructor <;> omega
        have hmod : k % w = k - blkIdx * w := by
          rw [Nat.mod_eq_sub_mul_div, hdiv, Nat.mul_comm]
        have hu := hused k hk'
        rw [bitmapBit, bitBlk, ← hw, hdiv, hmod] at hu
        rw [freeIn, freeIn, hu]
      · simp [freeIn, hk']

theorem exec_findFreeIndices (hl : sb.Laid) (hs : e.Serves sb) (d : Disk) {blkNum : Nat} (req : Nat)
    (hblk : start + blkNum ≤ sb.inodeTableStart) (h32 : blkNum * (sb.blkSize * 8) ≤ 4294967296)
    (hbound : bound ≤ blkNum * (sb.blkSize * 8))
    (hused : ∀ k, k < bound → bitmapBit d.blk sb.blkSize start k = used k) :
    exec e (findFreeIndices sb lo bound start blkNum req) d =
      some (if ((List.range bound).filter (freeIn lo bound used)).length < req then .error .enospc
        else .ok (((List.range bound).filter (freeIn lo bound used)).take req), d) := by
  rw [findFreeIndices]
  by_cases hreq : req = 0
  · subst hreq
    rw [if_pos rfl, if_neg (Nat.not_lt_zero _), List.take_zero]
    rfl
  · rw [if_neg hreq]
    have hscan : exec e (scanBlocks sb lo bound start req blkNum 0 []) d = some (.ok _, d) :=
      exec_scanBlocks hl hs d blkNum 0 (by simp) (by omega) (by simpa using h32) hused
    -- past `bound` the scan finds nothing
    have hcut : (List.range' (0 * (sb.blkSize * 8)) (blkNum * (sb.blkSize * 8))).filter (freeIn lo bound used) =
        (List.range bound).filter (freeIn lo bound used) := by
      obtain ⟨c, hc⟩ := Nat.exists_eq_add_of_le hbound
      rw [hc, Nat.zero_mul, ← List.range'_append_1, List.filter_append, range'_filter_empty (a := 0 + bound),
        List.append_nil, List.range_eq_range']
      intro k hk
      simp only [freeIn, Bool.and_eq_false_iff, decide_eq_false_iff_not]
      exact .inl (.inr (by omega))
    rw [hcut, List.nil_append] at hscan
    rw [exec, run_bind_ok hscan]
    generalize (List.range bound).filter (freeIn lo bound used) = free
    by_cases hlen : free.length < req
    · rw [if_pos hlen, if_pos (by simp; omega)]
      rfl
    · rw [if_neg hlen, if_neg (by simp; omega)]
      rfl

end

/-- The indices a search of the data bitmap and of the inode bitmap chooses from, in order. -/
def Superblock.freeData (sb : Superblock) (V : View) : List Nat :=
  (List.range sb.dataBlkNum).filter (fun k => !V.dbit k)

def Superblock.freeInodes (sb : Superblock) (V : View) : List Nat :=
  (List.range sb.inodeNum).filter (fun i => 3 ≤ i && !V.ibit i)

theorem mem_freeData {sb : Superblock} {V : View} {k : Nat} :
    k ∈ sb.freeData V ↔ k < sb.dataBlkNum ∧ V.dbit k = false := by
  simp [Superblock.freeData]

theorem mem_freeInodes {sb : Superblock} {V : View} {i : Nat} :
    i ∈ sb.freeInodes V ↔ i < sb.inodeNum ∧ 3 ≤ i ∧ V.ibit i = false := by
  simp [Superblock.freeInodes]

theorem nodup_freeData (sb : Superblock) (V : View) : (sb.freeData V).Nodup := List.nodup_range.filter _

theorem freeData_congr {sb : Superblock} {V W : View} (h : V.dbit = W.dbit) : sb.freeData V = sb.freeData W := by
  rw [Superblock.freeData, Superblock.freeData, h]

section

variable {e : Env} {sb : Superblock}

theorem exec_findFreeDataBlockIndices (hl : sb.Laid) (hs : e.Serves sb) (d : Disk) (req : Nat) :
    exec e (findFreeDataBlockIndices sb req) d =
      some (if (sb.freeData (sb.view d)).length < req then .error .enospc else .ok ((sb.freeData (sb.view d)).take req), d) := by
  have hge := hl.table_ge
  have hd := hl.data_ge
  have hh := hl.hole
  have hlt := hl.hole_lt
  have hsub : u32 (sb.inodeTableStart + 4294967296 - sb.dataBitmapStart) = sb.inodeTableStart - sb.dataBitmapStart := by
    rw [u32]; omega
  have hf : sb.freeData (sb.view d) = (List.range sb.dataBlkNum).filter (freeIn 0 sb.dataBlkNum (sb.view d).dbit) :=
    List.filter_congr fun k hk => by simp [freeIn, List.mem_range.mp hk]
  rw [hf, findFreeDataBlockIndices, hsub]
  refine exec_findFreeIndices hl hs d req (by omega) hl.dataBits hl.dataBitmap ?_
  intro k hk
  simp [Superblock.view, hk]

theorem exec_findFreeInodeIndices (hl : sb.Laid) (hs : e.Serves sb) (d : Disk) (req : Nat) :
    exec e (findFreeInodeIndices sb req) d =
      some (if (sb.freeInodes (sb.view d)).length < req then .error .enospc
        else .ok ((sb.freeInodes (sb.view d)).take req), d) := by
  have hb := hl.bitmaps
  have hge := hl.table_ge
  have hd := hl.data_ge
  have hh := hl.hole
  have hlt := hl.hole_lt
  have hsub : u32 (sb.dataBitmapStart + 4294967296 - sb.inodeBitmapStart) = sb.dataBitmapStart - sb.inodeBitmapStart := by
    rw [u32]; omega
  have hf : sb.freeInodes (sb.view d) = (List.range sb.inodeNum).filter (freeIn 3 sb.inodeNum (sb.view d).ibit) :=
    List.filter_congr fun k hk => by simp [freeIn, List.mem_range.mp hk]
  rw [hf, findFreeInodeIndices, hsub]
  refine exec_findFreeIndices hl hs d req (by omega) hl.inodeBits hl.inodeBitmap ?_
  intro k hk
  simp [Superblock.view, hk]

end

namespace Mount

theorem reads_findFreeDataBlockIndices (m : Mount) (V : View) (req : Nat) :
    m.Reads (findFreeDataBlockIndices m.sb req) V
      (if (m.sb.freeData V).length < req then .error .enospc else .ok ((m.sb.freeData V).take req)) :=
  Reads.of_exec fun d hd => hd ▸ exec_findFreeDataBlockIndices m.ok.toLaid m.serves d req

theorem reads_findFreeInodeIndices (m : Mount) (V : View) (req : Nat) :
    m.Reads (findFreeInodeIndices m.sb req) V
      (if (m.sb.freeInodes V).length < req then .error .enospc else .ok ((m.sb.freeInodes V).take req)) :=
  Reads.of_exec fun d hd => hd ▸ exec_findFreeInodeIndices m.ok.toLaid m.serves d req

end Mount

end Mofs
