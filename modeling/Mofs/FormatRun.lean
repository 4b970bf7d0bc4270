import Mofs.Geometry

namespace Mofs

open Effect Bytes

/-- The device `d'` is `d` after the writes `ws`, in order. -/
structure Wrote (d : Dev) (ws : List (Nat × List UInt8)) (d' : Dev) : Prop where
  bytes : d'.bytes = ws.foldl (fun f w => splice f w.1 w.2) d.bytes
  log : d'.log = d.log ++ ws.map (fun w => (w.1, w.2.length))
  size : (∀ w ∈ ws, w.1 + w.2.length ≤ d.size) → d'.size = d.size
  fits : d'.growable = false → ∀ w ∈ ws, w.1 + w.2.length ≤ d.size
  growable : d'.growable = d.growable

namespace Wrote

variable {d d' d'' : Dev} {ws ws' : List (Nat × List UInt8)}

theorem nil (d : Dev) : Wrote d [] d := ⟨rfl, by simp, fun _ => rfl, by simp, rfl⟩

theorem trans (h : Wrote d ws d') (h' : Wrote d' ws' d'') : Wrote d (ws ++ ws') d'' where
  bytes := by rw [List.foldl_append, ← h.bytes]; exact h'.bytes
  log := by rw [h'.log, h.log, List.map_append, List.append_assoc]
  size hs := by
    have h1 := h.size fun w hw => hs w (List.mem_append_left _ hw)
    rw [← h1]
    exact h'.size fun w hw => by rw [h1]; exact hs w (List.mem_append_right _ hw)
  fits hg w hw := by
    have hg' : d'.growable = false := h'.growable ▸ hg
    rcases List.mem_append.mp hw with hw | hw
    · exact h.fits hg' w hw
    · have := h'.fits hg w hw
      rwa [h.size (h.fits hg')] at this
  growable := h'.growable.trans h.growable

end Wrote

variable {d d' : Dev}

theorem wrote_seekWriteExact {off : Nat} {bs : List UInt8}
    (h : run Dev.answer (seekWriteExact off bs) d = some (.ok (), d')) : Wrote d [(off, bs)] d' := by
  change run Dev.answer (ofExcept (Dev.answer (.write off bs) d).1) (Dev.answer (.write off bs) d).2 = _ at h
  by_cases hg : off + bs.length ≤ d.size ∨ d.growable = true
  · have ha : Dev.answer (.write off bs) d = (.ok (), d.put off bs) := if_pos hg
    rw [ha] at h
    obtain rfl : d.put off bs = d' := by
      have h' : some ((Except.ok () : Except Errno Unit), d.put off bs) = some (.ok (), d') := h
      simpa using h'
    refine ⟨rfl, rfl, fun hs => ?_, fun hn => ?_, rfl⟩
    · have := hs _ (List.mem_singleton.mpr rfl)
      simp only at this
      simp [Dev.put, this]
    · have hgrow : d.growable = false := hn
      simpa [hgrow] using hg
  · have ha : Dev.answer (.write off bs) d =
        (.error .eio, { d with bytes := splice d.bytes off (bs.take (d.size - off)) }) := if_neg hg
    rw [ha] at h
    cases h

/-- The writes of the clearing loop. -/
def clearWrites (blk n block : Nat) : List (Nat × List UInt8) :=
  (List.range' block n).map (fun b => (b * blk, List.replicate blk 0))

theorem wrote_clearRange {blk n block : Nat} (h : run Dev.answer (clearRange blk n block) d = some (.ok (), d')) :
    Wrote d (clearWrites blk n block) d' := by
  induction n generalizing block d with
  | zero =>
    have h' : some ((Except.ok () : Except Errno Unit), d) = some (.ok (), d') := h
    obtain rfl : d = d' := by simpa using h'
    exact Wrote.nil d
  | succ n ih =>
    obtain ⟨_, u, h1, h2⟩ := run_bind_eq_ok h
    exact (wrote_seekWriteExact h1).trans (ih h2)

theorem foldl_clearWrites (blk n block : Nat) (f : Nat → UInt8) (k : Nat) :
    (clearWrites blk n block).foldl (fun f w => splice f w.1 w.2) f k =
      if block * blk ≤ k ∧ k < (block + n) * blk then 0 else f k := by
  induction n generalizing block f with
  | zero =>
    rw [Nat.add_zero, if_neg (by omega)]
    rfl
  | succ n ih =>
    have hs : clearWrites blk (n + 1) block = (block * blk, List.replicate blk 0) :: clearWrites blk n (block + 1) := rfl
    have h1 : (block + 1) * blk = block * blk + blk := Nat.succ_mul _ _
    have h2 : block + 1 + n = block + (n + 1) := by omega
    have h3 : (block + (n + 1)) * blk = block * blk + blk + n * blk := by
      rw [Nat.add_mul, Nat.succ_mul]; omega
    rw [hs, List.foldl_cons, ih, h2, h1]
    by_cases hk : block * blk + blk ≤ k ∧ k < (block + (n + 1)) * blk
    · rw [if_pos hk, if_pos (by omega)]
    · rw [if_neg hk]
      by_cases hin : block * blk ≤ k ∧ k < block * blk + blk
      · rw [if_pos (by omega), splice, if_pos (by simpa using hin)]
        rw [List.getD_eq_getElem _ _ (by simp; omega), List.getElem_replicate]
      · rw [if_neg (by omega), splice_outside (by simp; omega)]

/-- The writes after the clearing loop. -/
def rootWrites (sb : Superblock) (now : UInt64) : List (Nat × List UInt8) :=
  [(0, encodeSuperblock sb), (sb.inodeBitmapStart * sb.blkSize, [0x04]), (sb.dataBitmapStart * sb.blkSize, [0x03]),
    (sb.dataRegionStart * sb.blkSize, List.replicate sb.blkSize 0),
    ((sb.dataRegionStart + 1) * sb.blkSize, List.replicate sb.blkSize 0),
    ((sb.dataRegionStart + 1) * sb.blkSize, slice (encodeNode 0 [sb.dataRegionStart]) 0 sb.blkSize),
    (sb.inodeTableStart * sb.blkSize + 2 * inodeBytes, encodeInode (rootInode sb now))]

theorem wrote_formatRoot {sb : Superblock} (h : run Dev.answer (formatRoot sb) d = some (.ok (), d')) :
    ∃ now, Wrote d (rootWrites sb now).tail d' := by
  obtain ⟨_, d1, h1, h⟩ := run_bind_eq_ok h
  obtain ⟨_, d2, h2, h⟩ := run_bind_eq_ok h
  obtain ⟨_, d3, h3, h⟩ := run_bind_eq_ok h
  obtain ⟨_, d4, h4, h⟩ := run_bind_eq_ok h
  obtain ⟨_, d5, h5, h⟩ := run_bind_eq_ok h
  obtain ⟨now, d6, h6, h⟩ := run_bind_eq_ok h
  have hnow : Wrote d5 [] d6 := by
    have h' : some ((Except.ok (d5.clock d5.ticks) : Except Errno UInt64), { d5 with ticks := d5.ticks + 1 }) =
      some (.ok now, d6) := h6
    simp only [Option.some.injEq, Prod.mk.injEq] at h'
    obtain ⟨-, rfl⟩ := h'
    exact ⟨rfl, by simp, fun _ => rfl, by simp, rfl⟩
  refine ⟨now, ?_⟩
  have h123 := ((wrote_seekWriteExact h1).trans (wrote_seekWriteExact h2)).trans (wrote_seekWriteExact h3)
  have h45 := (wrote_seekWriteExact h4).trans (wrote_seekWriteExact h5)
  exact (h123.trans h45).trans (hnow.trans (wrote_seekWriteExact h))

/-- What a successful format has done: the arguments were acceptable, and these are the writes it made. -/
theorem wrote_mofsFormat {fsSize blkSize : Int} (h : run Dev.answer (mofsFormat fsSize blkSize) d = some (.ok (), d')) :
    ∃ blk bytes now, blk = (if 0 ≤ blkSize then blkSize.toNat else blkSizeDefault) ∧
      bytes = (if 0 < fsSize then fsSize.toNat * blk else d.size) ∧
      validateLogicalBlkSize blk = .ok () ∧
      (geometry bytes blk).metaReserved < (geometry bytes blk).holeBlkNum ∧
      (geometry bytes blk).holeBlkNum ≤ 4294967295 ∧
      Wrote d (clearWrites blk (geometry bytes blk).metaReserved 0 ++
        rootWrites ((geometry bytes blk).superblock blk) now) d' := by
  rw [mofsFormat] at h
  set blk := if 0 ≤ blkSize then blkSize.toNat else blkSizeDefault with hblk
  obtain ⟨_, d1, h1, h⟩ := run_bind_eq_ok h
  rw [run_ofExcept] at h1
  simp only [Option.some.injEq, Prod.mk.injEq] at h1
  obtain ⟨hval, rfl⟩ := h1
  obtain ⟨bytes, d1, h1, h⟩ := run_bind_eq_ok h
  obtain ⟨hbytes, rfl⟩ : bytes = (if 0 < fsSize then fsSize.toNat * blk else d.size) ∧ d = d1 := by
    by_cases hfs : 0 < fsSize
    · rw [if_pos hfs] at h1 ⊢
      have h' : some ((Except.ok (fsSize.toNat * blk) : Except Errno Nat), d) = some (.ok bytes, d1) := h1
      simp only [Option.some.injEq, Prod.mk.injEq, Except.ok.injEq] at h'
      exact ⟨h'.1.symm, h'.2⟩
    · rw [if_neg hfs] at h1 ⊢
      have h' : some ((Except.ok d.size : Except Errno Nat), d) = some (.ok bytes, d1) := h1
      simp only [Option.some.injEq, Prod.mk.injEq, Except.ok.injEq] at h'
      exact ⟨h'.1.symm, h'.2⟩
  refine ⟨blk, bytes, ?_⟩
  dsimp only at h
  by_cases hfit : (geometry bytes blk).holeBlkNum ≤ (geometry bytes blk).metaReserved
  · rw [if_pos hfit] at h
    cases h
  rw [if_neg hfit] at h
  obtain ⟨_, d1, h1, h⟩ := run_bind_eq_ok h
  by_cases h32 : 4294967295 < (geometry bytes blk).holeBlkNum
  · rw [if_pos h32] at h
    cases h
  rw [if_neg h32] at h
  obtain ⟨_, d2, h2, h⟩ := run_bind_eq_ok h
  obtain ⟨now, h3⟩ := wrote_formatRoot h
  exact ⟨now, rfl, hbytes, hval, by omega, by omega,
    (wrote_clearRange h1).trans ((wrote_seekWriteExact h2).trans h3)⟩

theorem returns_seekWriteExact {off : Nat} {bs : List UInt8} (h : off + bs.length ≤ d.size) :
    ∃ d', run Dev.answer (seekWriteExact off bs) d = some (.ok (), d') ∧ d'.size = d.size := by
  have ha : Dev.answer (.write off bs) d = (.ok (), d.put off bs) := if_pos (Or.inl h)
  refine ⟨d.put off bs, ?_, by simp [Dev.put, h]⟩
  change run Dev.answer (ofExcept (Dev.answer (.write off bs) d).1) (Dev.answer (.write off bs) d).2 = _
  rw [ha]; rfl

theorem returns_clearRange {blk n block : Nat} (h : ∀ w ∈ clearWrites blk n block, w.1 + w.2.length ≤ d.size) :
    ∃ d', run Dev.answer (clearRange blk n block) d = some (.ok (), d') ∧ d'.size = d.size := by
  induction n generalizing block d with
  | zero => exact ⟨d, rfl, rfl⟩
  | succ n ih =>
    rw [clearWrites, List.range'_succ, List.map_cons, List.forall_mem_cons] at h
    obtain ⟨d1, h1, hs1⟩ := returns_seekWriteExact h.1
    obtain ⟨d2, h2, hs2⟩ := ih (hs1.symm ▸ h.2 : ∀ w ∈ clearWrites blk n (block + 1), w.1 + w.2.length ≤ d1.size)
    exact ⟨d2, by rw [clearRange, clearBlocks, run_bind_ok h1]; exact h2, hs2.trans hs1⟩

theorem returns_formatRoot {sb : Superblock} (h : ∀ now, ∀ w ∈ (rootWrites sb now).tail, w.1 + w.2.length ≤ d.size) :
    ∃ d', run Dev.answer (formatRoot sb) d = some (.ok (), d') ∧ d'.size = d.size := by
  have hfirst := h 0
  simp only [rootWrites, List.tail_cons, List.forall_mem_cons] at hfirst
  obtain ⟨w1, w2, w3, w4, w5, -⟩ := hfirst
  obtain ⟨d1, h1, hs1⟩ := returns_seekWriteExact w1
  obtain ⟨d2, h2, hs2⟩ := returns_seekWriteExact (d := d1) (hs1 ▸ w2)
  obtain ⟨d3, h3, hs3⟩ := returns_seekWriteExact (d := d2) (hs2 ▸ hs1 ▸ w3)
  obtain ⟨d4, h4, hs4⟩ := returns_seekWriteExact (d := d3) (hs3 ▸ hs2 ▸ hs1 ▸ w4)
  obtain ⟨d5, h5, hs5⟩ := returns_seekWriteExact (d := d4) (hs4 ▸ hs3 ▸ hs2 ▸ hs1 ▸ w5)
  have hsize : d5.size = d.size := hs5.trans (hs4.trans (hs3.trans (hs2.trans hs1)))
  have hnow : run Dev.answer devNow d5 = some (.ok (d5.clock d5.ticks), { d5 with ticks := d5.ticks + 1 }) := rfl
  have w6 := h (d5.clock d5.ticks) _ (List.mem_of_getLast? (by simp [rootWrites]; rfl))
  obtain ⟨d6, h6, hs6⟩ := returns_seekWriteExact (d := { d5 with ticks := d5.ticks + 1 }) (by rw [hsize]; exact w6)
  refine ⟨d6, ?_, hs6.trans hsize⟩
  rw [formatRoot, run_bind_ok h1, run_bind_ok h2, clearBlocks, run_bind_ok h3, clearBlocks, run_bind_ok h4,
    run_bind_ok h5, run_bind_ok hnow]
  exact h6

/-- On a device that has room for what it writes, a format with acceptable arguments returns. -/
theorem returns_mofsFormat {fsSize blkSize : Int} {blk bytes : Nat}
    (hblk : blk = if 0 ≤ blkSize then blkSize.toNat else blkSizeDefault)
    (hbytes : bytes = if 0 < fsSize then fsSize.toNat * blk else d.size)
    (hval : validateLogicalBlkSize blk = .ok ())
    (hfit : (geometry bytes blk).metaReserved < (geometry bytes blk).holeBlkNum)
    (h32 : (geometry bytes blk).holeBlkNum ≤ 4294967295)
    (h : ∀ now, ∀ w ∈ clearWrites blk (geometry bytes blk).metaReserved 0 ++
      rootWrites ((geometry bytes blk).superblock blk) now, w.1 + w.2.length ≤ d.size) :
    ∃ d', run Dev.answer (mofsFormat fsSize blkSize) d = some (.ok (), d') ∧ d'.size = d.size := by
  have hget : run Dev.answer (if 0 < fsSize then pure (fsSize.toNat * blk) else devGetSize : F Nat) d =
      some (.ok bytes, d) := by
    rw [hbytes]
    by_cases hfs : 0 < fsSize
    · rw [if_pos hfs, if_pos hfs]; rfl
    · rw [if_neg hfs, if_neg hfs]; rfl
  obtain ⟨d1, h1, hs1⟩ := returns_clearRange fun w hw => h 0 w (List.mem_append_left _ hw)
  have hsuper := h 0 (0, encodeSuperblock ((geometry bytes blk).superblock blk))
    (List.mem_append_right _ List.mem_cons_self)
  obtain ⟨d2, h2, hs2⟩ := returns_seekWriteExact (d := d1) (hs1.symm ▸ hsuper)
  have hroot : ∀ now, ∀ w ∈ (rootWrites ((geometry bytes blk).superblock blk) now).tail, w.1 + w.2.length ≤ d2.size :=
    fun now w hw => by
      rw [hs2, hs1]
      exact h now w (List.mem_append_right _ (List.mem_of_mem_tail hw))
  obtain ⟨d3, h3, hs3⟩ := returns_formatRoot hroot
  refine ⟨d3, ?_, hs3.trans (hs2.trans hs1)⟩
  rw [mofsFormat, ← hblk, hval, run_bind_ok (run_ofExcept _), run_bind_ok hget]
  simp only [if_neg (Nat.not_le.mpr hfit), if_neg (Nat.not_lt.mpr h32)]
  rw [run_bind_ok h1, run_bind_ok h2]
  exact h3

end Mofs
