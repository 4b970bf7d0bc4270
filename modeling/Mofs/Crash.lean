import Mofs.Alloc
import Mofs.ReadOnly

namespace Mofs

open Effect Bytes

variable {α β : Type} {sb : Superblock}

section ReadOnly

theorem readOnly_exportFrom (nr fuel nodeAbs : Nat) (out : List Nat) : ReadOnly (exportFrom sb nr fuel nodeAbs out) := by
  induction fuel generalizing nodeAbs out with
  | zero => exact trivial
  | succ fuel ih =>
    rw [exportFrom]
    split
    · split
      · exact .throw _
      · exact .pure _
    refine (readOnly_readFull _).bind fun buf => ?_
    split
    · exact .throw _
    split
    · exact .throw _
    · exact ih _ _

theorem readOnly_exportDataBlockList (x : Inode) (absCap : Nat) : ReadOnly (exportDataBlockList sb x absCap) := by
  rw [exportDataBlockList]
  split
  · exact .pure _
  split
  · exact .throw _
  split
  · exact .throw _
  · exact readOnly_exportFrom _ _ _ _

theorem readOnly_scanBlocks (lo bound start req n blkIdx : Nat) (acc : List Nat) :
    ReadOnly (scanBlocks sb lo bound start req n blkIdx acc) := by
  induction n generalizing blkIdx acc with
  | zero => exact .pure _
  | succ n ih =>
    rw [scanBlocks]
    split
    · exact .pure _
    · exact (readOnly_readFull _).bind fun buf => ih _ _

theorem readOnly_findFreeDataBlockIndices (req : Nat) : ReadOnly (findFreeDataBlockIndices sb req) := by
  rw [findFreeDataBlockIndices, findFreeIndices]
  split
  · exact .pure _
  refine (readOnly_scanBlocks _ _ _ _ _ _ _).bind fun acc => ?_
  split
  · exact .throw _
  · exact .pure _

end ReadOnly

section Cut

variable {e : Env} {d d' : Disk} {b : Nat} {x : Block}

/-- A write of one block has happened or it has not. -/
theorem cut_writeFull (h : Cut e.answer (writeFull b x) d d') : d' = d ∨ d' = d.put b x := by
  have hput : (e.answer (.write b x) d).2 = d.put b x := by
    rw [Env.answer]
    split <;> rfl
  cases h with
  | here => exact .inl rfl
  | step h =>
    refine .inr (Eq.trans ?_ hput)
    refine ReadOnly.cut_eq ?_ h
    refine (ReadOnly.ofExcept _).bind fun r => ?_
    split
    · exact .throw _
    · exact .pure _

theorem cut_readWrite {c : Nat} {g : Block → Block} (hfit : (b + 1) * e.blkSize ≤ e.size)
    (h : Cut e.answer (do let buf ← readFull b; writeFull c (g buf) : M Unit) d d') :
    d' = d ∨ d' = d.put c (g (d.blk b)) := by
  rcases cut_bind h with h | ⟨buf, u, hr, h⟩
  · exact .inl ((readOnly_readFull b).cut_eq h)
  · rw [show run e.answer (readFull b) d = _ from exec_readFull hfit d] at hr
    cases hr
    exact cut_writeFull h

/-- Without a cache, an inode is written by one write of its block. -/
theorem cut_mofsWriteInode (hc : e.cached = false) {i : Nat} {y : Inode} (hfit : (inodeBlk sb i + 1) * e.blkSize ≤ e.size)
    (h : Cut e.answer (mofsWriteInode sb i y) d d') :
    d' = d ∨ d' = d.put (inodeBlk sb i) (splice (d.blk (inodeBlk sb i)) (inodeOffset sb i) (encodeInode y)) := by
  rw [mofsWriteInode] at h
  split at h
  · cases h
    exact .inl rfl
  have ha : e.answer (.modify (inodeBlk sb i) (inodeOffset sb i) (encodeInode y)) d = (.error .einval, d) :=
    if_pos (.inl hc)
  rcases cut_bind h with h | ⟨r, u, hr, h⟩
  · left
    cases cut_attempt h with
    | here => rfl
    | step h =>
      rw [ha] at h
      cases (show Cut e.answer (.fail .einval : M Unit) d d' from h)
      rfl
  · have hmod : run e.answer (bcacheModifyBlock (inodeBlk sb i) (inodeOffset sb i) (encodeInode y)) d =
        some (.error .einval, d) := by
      change run e.answer (ofExcept (e.answer (.modify _ _ _) d).1) (e.answer (.modify _ _ _) d).2 = _
      rw [ha]
      rfl
    rw [run_attempt_of hmod] at hr
    cases hr
    exact cut_readWrite hfit h

end Cut

namespace Mount

variable {m : Mount} {V W : View} {p : M α} {f : α → M β} {I J : View → Prop} {P : Except Errno α → View → Prop}

/-- From every disk that shows `V`, the volume satisfies `I` wherever the program is cut off. -/
def Crash (m : Mount) (p : M α) (V : View) (I : View → Prop) : Prop :=
  ∀ d, m.sb.view d = V → ∀ d', Cut m.env.answer p d d' → I (m.sb.view d')

theorem Crash.mono (h : m.Crash p V I) (hIJ : ∀ W, I W → J W) : m.Crash p V J := fun d hd d' hc => hIJ _ (h d hd d' hc)

theorem Crash.readOnly (hp : ReadOnly p) (hI : I V) : m.Crash p V I := fun d hd d' hc => by
  rw [hp.cut_eq hc, hd]
  exact hI

theorem Crash.pure (a : α) (hI : I V) : m.Crash (pure a) V I := .readOnly (.pure a) hI

theorem Crash.throw (e : Errno) (hI : I V) : m.Crash (throw e : M α) V I := .readOnly (.throw e) hI

/-- In a sequence, what holds where the second part starts need not be shown for the end of the first. -/
theorem Crash.bind (hc : m.Crash p V (fun W => I W ∨ ∃ a, P (.ok a) W)) (hp : m.Ensures p V P)
    (hf : ∀ a W, P (.ok a) W → m.Crash (f a) W I) : m.Crash (p >>= f) V I := fun d hd d' h => by
  rcases cut_bind h with h | ⟨a, u, hr, h⟩
  · rcases hc d hd d' h with hI | ⟨a, hP⟩
    · exact hI
    · exact hf a _ hP d' rfl d' (.here _ _)
  · exact hf a _ (hp.of_exec hd hr) u rfl d' h

theorem Crash.bind_reads {a : α} (hro : ReadOnly p) (hp : m.Reads p V (.ok a)) (hf : m.Crash (f a) V I) :
    m.Crash (p >>= f) V I := fun d hd d' h => by
  rcases cut_bind h with h | ⟨b, u, hr, h⟩
  · rw [hro.cut_eq h]
    exact hf d hd d (.here _ _)
  · rw [show run m.env.answer p d = _ from hp.exec_eq hd] at hr
    cases hr
    exact hf d hd d' h

theorem Crash.attempt (h : m.Crash p V I) : m.Crash (attempt p) V I := fun d hd d' hc => h d hd d' (cut_attempt hc)

theorem Crash.attempt_bind {f : Except Errno α → M β} (hc : m.Crash p V (fun W => I W ∨ ∃ r, P r W)) (hp : m.Ensures p V P)
    (hf : ∀ r W, P r W → m.Crash (f r) W I) : m.Crash (Effect.attempt p >>= f) V I := by
  refine Crash.bind (P := fun r W => ∃ r', r = .ok r' ∧ P r' W) (hc.attempt.mono fun W hW => ?_)
    (hp.attempt fun r W hr => ⟨r, rfl, hr⟩) ?_
  · exact hW.imp_right fun ⟨r, hr⟩ => ⟨r, r, rfl, hr⟩
  · rintro r W ⟨r', hr, hP⟩
    cases hr
    exact hf _ W hP

/-- A program is also cut off where it ends. -/
theorem Crash.bind_pure (h : m.Crash p V I) (b : β) : m.Crash (p >>= fun _ => Pure.pure b) V I := fun d hd d' hc => by
  rcases cut_bind hc with hc | ⟨a, u, hr, hc⟩
  · exact h d hd d' hc
  · cases hc
    exact h d hd _ (cut_of_run hr)

theorem crash_writeFull (m : Mount) {b : Nat} (h : m.sb.inData b) {x : Block} (hV : I V) (hW : I (V.setBlk b x)) :
    m.Crash (writeFull b x) V I := fun d hd d' hc => by
  rcases cut_writeFull hc with rfl | rfl
  · rwa [hd]
  · rwa [view_put_data m.ok.toLaid d h, hd]

theorem crash_setDataBitmapBit (m : Mount) {k : Nat} (hk : k < m.sb.dataBlkNum) {u : Bool} (hV : I V)
    (hW : I (V.setDbit k u)) : m.Crash (setDataBitmapBit m.sb k u) V I := fun d hd d' hc => by
  have hbit := m.ok.dbitBlk_lt hk
  have hdata := m.ok.data_ge
  have hhole := m.ok.hole
  have hlt := m.ok.hole_lt
  have hle := m.ok.blk_le
  have h8 : u32 (m.sb.blkSize * 8) = m.sb.blkSize * 8 := Nat.mod_eq_of_lt (by omega)
  have hb : u32 (m.sb.dataBitmapStart + k / (m.sb.blkSize * 8)) = bitBlk m.sb.blkSize m.sb.dataBitmapStart k :=
    Nat.mod_eq_of_lt (by rw [bitBlk] at hbit; omega)
  rw [setDataBitmapBit, if_neg (by omega)] at hc
  simp only [setBitmapBit, h8, hb] at hc
  rcases cut_readWrite (m.fits (by omega)) hc with rfl | rfl
  · rwa [hd]
  · rwa [view_put_dbit m.ok.toLaid d hk u, hd]

theorem crash_mofsWriteInode (m : Mount) (hcache : m.env.cached = false) {i : Nat} (hi : i < m.sb.inodeNum) {x : Inode}
    (hV : I V) (hW : I (V.setInode i x)) : m.Crash (mofsWriteInode m.sb i x) V I := fun d hd d' hc => by
  have hblk := m.ok.inodeBlk_eq hi
  have hfit : (inodeBlk m.sb i + 1) * m.env.blkSize ≤ m.env.size := by
    rw [hblk]
    exact m.fits (m.inodeBlk_lt hi)
  rcases cut_mofsWriteInode hcache hfit hc with rfl | rfl
  · rwa [hd]
  · rwa [hblk, m.ok.inodeOffset_eq hi, view_put_inode m.ok.toLaid d hi x, hd]

theorem crash_bcacheInvalidate (m : Mount) (hcache : m.env.cached = false) (b : Nat) (hV : I V) :
    m.Crash (bcacheInvalidate b) V I := fun d hd d' hc => by
  have ha : (m.env.answer (.invalidate b) d).2 = d := by
    rw [Env.answer, hcache]
    rfl
  cases hc with
  | here => rwa [hd]
  | step h =>
    cases h
    rwa [ha, hd]

theorem reads_bcacheInvalidate (m : Mount) (hcache : m.env.cached = false) (V : View) (b : Nat) :
    m.Reads (bcacheInvalidate b) V (.ok ()) := Reads.of_exec fun d _ => by
  have ha : (m.env.answer (.invalidate b) d).2 = d := by
    rw [Env.answer, hcache]
    rfl
  change some ((Except.ok () : Except Errno Unit), (m.env.answer (.invalidate b) d).2) = _
  rw [ha]

/-- Only the bits of the blocks `marks` and the contents of the blocks `bs` differ. -/
structure Near (sb : Superblock) (V W : View) (marks bs : List Nat) : Prop where
  inode : W.inode = V.inode
  ibit : W.ibit = V.ibit
  dbit : ∀ k, sb.dataRegionStart + k ∉ marks → W.dbit k = V.dbit k
  blk : ∀ b, b ∉ bs → W.blk b = V.blk b

theorem Near.refl (sb : Superblock) (V : View) (marks bs : List Nat) : Near sb V V marks bs :=
  ⟨rfl, rfl, fun _ _ => rfl, fun _ _ => rfl⟩

theorem Near.trans {U : View} {marks marks' bs bs' : List Nat} (h : Near sb U V marks bs) (h' : Near sb V W marks' bs') :
    Near sb U W (marks ++ marks') (bs ++ bs') where
  inode := h'.inode.trans h.inode
  ibit := h'.ibit.trans h.ibit
  dbit k hk := by
    rw [List.mem_append, not_or] at hk
    exact (h'.dbit k hk.2).trans (h.dbit k hk.1)
  blk b hb := by
    rw [List.mem_append, not_or] at hb
    exact (h'.blk b hb.2).trans (h.blk b hb.1)

theorem Near.mono {marks marks' bs bs' : List Nat} (h : Near sb V W marks bs) (hm : ∀ b, b ∈ marks → b ∈ marks')
    (hb : ∀ b, b ∈ bs → b ∈ bs') : Near sb V W marks' bs' :=
  ⟨h.inode, h.ibit, fun k hk => h.dbit k fun hk' => hk (hm _ hk'), fun b hbn => h.blk b fun hb' => hbn (hb b hb')⟩

theorem near_setDbit (sb : Superblock) (V : View) (k : Nat) (u : Bool) :
    Near sb V (V.setDbit k u) [sb.dataRegionStart + k] [] := by
  refine ⟨rfl, rfl, fun j hj => ?_, fun _ _ => rfl⟩
  have hjk : j ≠ k := by
    rintro rfl
    simp at hj
  simp [View.setDbit, hjk]

theorem near_setDbits (sb : Superblock) (V : View) (ks : List Nat) (u : Bool) :
    Near sb V (V.setDbits ks u) (sb.abs ks) [] := by
  refine ⟨rfl, rfl, fun j hj => ?_, fun _ _ => rfl⟩
  have hjk : j ∉ ks := fun h => hj (add_mem_abs.mpr h)
  simp [View.setDbits, hjk]

/-- A bit is set or cleared before the rest of the program. -/
theorem Crash.bit_bind (m : Mount) {u : Bool} {k : Nat} (hk : k < m.sb.dataBlkNum) {f : Except Errno Unit → M β}
    (hV : I V) (hf : m.Crash (f (.ok ())) (V.setDbit k u) I) :
    m.Crash (Effect.attempt (setDataBitmapBit m.sb k u) >>= f) V I := by
  refine Crash.bind (P := fun r W => r = .ok (.ok ()) ∧ W = V.setDbit k u) ?_ ?_ ?_
  · exact (m.crash_setDataBitmapBit hk (.inl hV) (.inr ⟨.ok (), rfl, rfl⟩)).attempt
  · exact Ensures.attempt_eq (m.ensures_setDataBitmapBit hk ⟨rfl, rfl⟩)
  · rintro a W ⟨ha, rfl⟩
    cases ha
    exact hf

theorem crash_updateDataBitmapBits (m : Mount) {u : Bool} {ks : List Nat} (hk : ∀ k ∈ ks, k < m.sb.dataBlkNum)
    (hI : ∀ W, Near m.sb V W (m.sb.abs ks) [] → I W) : m.Crash (updateDataBitmapBits m.sb u ks) V I := by
  induction ks generalizing V with
  | nil => exact Crash.pure _ (hI V (.refl _ _ _ _))
  | cons k ks ih =>
    refine Crash.bit_bind m (hk k (by simp)) (hI V (.refl _ _ _ _)) (ih (fun j hj => hk j (by simp [hj])) fun W hW => ?_)
    exact hI W ((near_setDbit m.sb V k u).trans hW)

theorem crash_markUsed (m : Mount) {marked ks : List Nat} (hk : ∀ k ∈ ks, k < m.sb.dataBlkNum)
    (hI : ∀ W, Near m.sb V W (m.sb.abs ks) [] → I W) : m.Crash (markUsed m.sb marked ks) V I := by
  induction ks generalizing V marked with
  | nil => exact Crash.pure _ (hI V (.refl _ _ _ _))
  | cons k ks ih =>
    refine Crash.bit_bind m (hk k (by simp)) (hI V (.refl _ _ _ _)) (ih (fun j hj => hk j (by simp [hj])) fun W hW => ?_)
    exact hI W ((near_setDbit m.sb V k true).trans hW)

theorem crash_writeListNodes (m : Mount) {idx ds : List Nat} (hidx : ∀ k ∈ idx, k < m.sb.dataBlkNum)
    (hI : ∀ W, Near m.sb V W [] (m.sb.abs idx) → I W) : m.Crash (writeListNodes m.sb idx ds) V I := by
  induction idx generalizing V ds with
  | nil => exact Crash.pure _ (hI V (.refl _ _ _ _))
  | cons k ks ih =>
    have hk : m.sb.inData (m.sb.dataRegionStart + k) := m.inData_add (hidx k (by simp))
    have hput (x : Block) : Near m.sb V (V.setBlk (m.sb.dataRegionStart + k) x) [] [m.sb.dataRegionStart + k] := by
      refine ⟨rfl, rfl, fun _ _ => rfl, fun b hb => ?_⟩
      rw [List.mem_singleton] at hb
      simp [View.setBlk, hb]
    rw [writeListNodes, m.inData_u32 (hidx k (by simp)), writeListNode]
    generalize encodeNode (nextAbs m.sb ks) (ds.take (listPtrsCap m.sb)) = x
    refine Crash.bind (P := fun r W => r = .ok () ∧ W = V.setBlk (m.sb.dataRegionStart + k) x) ?_ ?_ ?_
    · exact m.crash_writeFull hk (.inl (hI V (.refl _ _ _ _))) (.inr ⟨(), rfl, rfl⟩)
    · exact m.ensures_writeFull hk ⟨rfl, rfl⟩
    · rintro _ W ⟨-, rfl⟩
      exact ih (fun j hj => hidx j (by simp [hj])) fun W hW => hI W ((hput _).trans hW)

/-- Without a cache, dropping a list only clears the bits of its nodes. -/
theorem crash_freeListChainFrom (m : Mount) (hcache : m.env.cached = false) {fuel head : Nat} {ns ds : List Nat}
    (h : Chain m.sb V.blk head ns ds) (hd : ∀ b ∈ ns, m.sb.inData b) (hf : ns.length < fuel)
    (hI : ∀ W, Near m.sb V W ns [] → I W) : m.Crash (freeListChainFrom m.sb fuel head) V I := by
  induction ns generalizing head ds fuel V with
  | nil =>
    obtain ⟨fuel, rfl⟩ := Nat.exists_eq_add_of_lt hf
    obtain ⟨rfl, rfl⟩ : head = 0 ∧ ds = [] := by cases h.links; exact ⟨rfl, rfl⟩
    exact Crash.pure _ (hI V (.refl _ _ _ _))
  | cons b ns ih =>
    obtain ⟨fuel, rfl⟩ := Nat.exists_eq_add_of_lt hf
    obtain ⟨rfl, hb, hcap, ds, rfl, ht⟩ := Chain.cons_iff.mp h
    have hdat : m.sb.inData head := hd _ (by simp)
    have hlt : head - m.sb.dataRegionStart < m.sb.dataBlkNum := hdat.idx_lt
    have hV := hI V (.refl _ _ _ _)
    have hnear := near_setDbit m.sb V (head - m.sb.dataRegionStart) false
    rw [Nat.add_sub_cancel' hdat.1] at hnear
    rw [freeListChainFrom, if_neg hb]
    refine Crash.bind_reads (readOnly_readFull _) (m.reads_readFull V hdat) ?_
    rw [m.absToDataIdx_ok hdat]
    refine Crash.bind_reads (.ofExcept _) (Reads.ofExcept _) ?_
    refine Crash.bind (P := fun r W => r = .ok () ∧ W = V.setDbit (head - m.sb.dataRegionStart) false) ?_ ?_ ?_
    · exact m.crash_setDataBitmapBit hlt (.inl hV) (.inr ⟨(), rfl, rfl⟩)
    · exact m.ensures_setDataBitmapBit hlt ⟨rfl, rfl⟩
    · rintro _ _ ⟨-, rfl⟩
      refine Crash.bind (P := fun r W => r = .ok () ∧ W = V.setDbit (head - m.sb.dataRegionStart) false) ?_ ?_ ?_
      · exact m.crash_bcacheInvalidate hcache head (.inl (hI _ (hnear.mono (by simp) (by simp))))
      · exact (m.reads_bcacheInvalidate hcache _ head).ensures ⟨rfl, rfl⟩
      · rintro _ _ ⟨-, rfl⟩
        refine ih (ht.congr fun c _ => rfl) (fun c hc => hd c (by simp [hc])) ?_ fun W hW => hI W (hnear.trans hW)
        simp only [List.length_cons] at hf ⊢
        omega

theorem crash_freeOldList (m : Mount) (hcache : m.env.cached = false) {head : Nat} {ns ds : List Nat}
    (h : Chain m.sb V.blk head ns ds) (hd : ∀ b ∈ ns, m.sb.inData b) (hlen : ns.length ≤ m.sb.dataBlkNum)
    (hI : ∀ W, Near m.sb V W ns [] → I W) :
    m.Crash (if head ≠ 0 then do
        let _ ← Effect.attempt (freeListChain m.sb head)
        Pure.pure ()
      else Pure.pure () : M Unit) V I := by
  by_cases h0 : head = 0
  · rw [if_neg (by simpa using h0)]
    exact Crash.pure _ (hI V (.refl _ _ _ _))
  · rw [if_pos h0]
    exact (m.crash_freeListChainFrom hcache h hd (length_walk_lt m.ok hlen) hI).attempt.bind_pure ()

/-- A new list is built in free blocks. -/
theorem crash_rebuildDataBlockList (m : Mount) (x : Inode) {ds : List Nat} (hds : ∀ p ∈ ds, p < 4294967296)
    (hmax : ds.length ≤ 2 * maxFileDataBlocks)
    (hI : ∀ W, Near m.sb V W (m.sb.abs (m.sb.freeData V)) (m.sb.abs (m.sb.freeData V)) → I W) :
    m.Crash (rebuildDataBlockList m.sb x ds) V I := by
  have hV := hI V (.refl _ _ _ _)
  rw [rebuildDataBlockList]
  by_cases h0 : ds.length = 0
  · rw [if_pos h0]
    exact Crash.pure _ hV
  have hle := m.le_listNodes hmax
  rw [if_neg h0, if_neg (m.listNodes_ne_zero hmax h0)]
  generalize listNodesForBlockCount m.sb ds.length = c at *
  have hfind := m.reads_findFreeDataBlockIndices V c
  by_cases hlt : (m.sb.freeData V).length < c
  · rw [if_pos hlt] at hfind
    refine Crash.bind (P := fun r W => r = .error .enospc) (Crash.readOnly (readOnly_findFreeDataBlockIndices c) (.inl hV))
      (hfind.ensures rfl) ?_
    rintro _ _ ⟨⟩
  · rw [if_neg hlt] at hfind
    refine Crash.bind_reads (readOnly_findFreeDataBlockIndices c) hfind ?_
    have hmem : ∀ k ∈ (m.sb.freeData V).take c, k < m.sb.dataBlkNum := fun k hk =>
      (mem_freeData.mp (List.mem_of_mem_take hk)).1
    have hsub : ∀ b, b ∈ m.sb.abs ((m.sb.freeData V).take c) → b ∈ m.sb.abs (m.sb.freeData V) := fun b hb => by
      obtain ⟨k, hk, rfl⟩ := mem_abs.mp hb
      exact add_mem_abs.mpr (List.mem_of_mem_take hk)
    have hlen : ((m.sb.freeData V).take c).length = c := List.length_take_of_le (Nat.not_lt.mp hlt)
    have hnd : ((m.sb.freeData V).take c).Nodup := (nodup_freeData m.sb V).take
    generalize (m.sb.freeData V).take c = idx at *
    refine Crash.bind (P := fun r W => r = .ok () ∧ W = V.setDbits idx true) ?_ (m.ensures_markUsed hmem ⟨rfl, rfl⟩) ?_
    · exact m.crash_markUsed hmem fun W hW => .inl (hI W (hW.mono hsub (by simp)))
    · rintro _ _ ⟨-, rfl⟩
      have hbuilt : ∀ W, Near m.sb (V.setDbits idx true) W [] (m.sb.abs idx) → I W := fun W hW =>
        hI W (((near_setDbits m.sb V idx true).trans hW).mono (by simpa using hsub) (by simpa using hsub))
      refine Crash.bind (P := fun r W => r = .ok (.ok ()) ∧ Listed m.sb (V.setDbits idx true) W idx ds)
        (m.crash_writeListNodes hmem fun W hW => .inl (hbuilt W hW)).attempt
        (m.ensures_writeListNodes hmem hnd hds (by rw [hlen]; exact hle)).attempt_eq ?_
      rintro _ W ⟨hr, hW⟩
      cases hr
      exact Crash.pure _ (hbuilt W ⟨hW.inode, hW.ibit, fun k _ => congrFun hW.dbit k, hW.blk⟩)

end Mount

end Mofs
