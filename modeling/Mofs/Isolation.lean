import Mofs.Confined
import Mofs.ReadOnly
import Mofs.Remove

namespace Mofs

open Effect Bytes

variable {sb : Superblock} {V W : View} {G H : Owners} {a j p : Nat} {ns ds : List Nat} {name : Name}

/-- Inode `j` is in use with the same record, the same list and the same data as before. -/
structure Intact (sb : Superblock) (V W : View) (G : Owners) (j : Nat) : Prop where
  ibit : W.ibit j = true
  inode : W.inode j = V.inode j
  file : FileAt sb W j (G.nodes j) (G.data j)
  blk : ∀ b ∈ G.data j, W.blk b = V.blk b

/-- Directory `p` is as before except for its times and one slot, which named `a` and is now empty. -/
structure EntryCleared (sb : Superblock) (V W : View) (G : Owners) (p a : Nat) : Prop where
  ibit : W.ibit p = true
  inode : ∃ t, W.inode p = (V.inode p).stamp (timeMtime ||| timeCtime) t
  file : FileAt sb W p (G.nodes p) (G.data p)
  slot : ∃ k s, k < (G.data p).length ∧ s < entriesPerBlk sb ∧
    direntInode (V.blk ((G.data p).getD k 0)) (direntBytes * s) = a ∧
    W.blk ((G.data p).getD k 0) = clearSlot (V.blk ((G.data p).getD k 0)) s ∧
    ∀ b ∈ G.data p, b ≠ (G.data p).getD k 0 → W.blk b = V.blk b

theorem Intact.of_same (h : Same V W G H j) (hW : Wf sb W H) (hj : V.ibit j = true) : Intact sb V W G j := by
  have hjW : W.ibit j = true := by rw [h.ibit]; exact hj
  have hfile := hW.fileAt hjW
  rw [h.nodes, h.data] at hfile
  exact ⟨hjW, h.inode, hfile, h.blk⟩

/-- The removal of another inode keeps it. -/
theorem Intact.leave (h : Intact sb V W G j) (hja : j ≠ a) : Intact sb V (W.leave a) G j where
  ibit := (Function.update_of_ne hja _ _).trans h.ibit
  inode := (Function.update_of_ne hja _ _).trans h.inode
  file := h.file.congr (Function.update_of_ne hja _ _) fun _ _ => rfl
  blk := h.blk

namespace Mount

/-- What the file layer reads of inode `j` is the same on both volumes. -/
def ReadsAlike (m : Mount) (V W : View) (j : Nat) : Prop :=
  ∀ start req, ∃ r, m.Reads (readFileDataBlock m.sb j start req) V r ∧ m.Reads (readFileDataBlock m.sb j start req) W r

variable {m : Mount}

theorem readsAlike_readBlocksFrom (hV : FileAt m.sb V j ns ds) (hW : FileAt m.sb W j ns ds)
    (hblk : ∀ b ∈ ds, W.blk b = V.blk b) (start n k : Nat) (buf : List Block) :
    ∃ r, m.Reads (readBlocksFrom m.sb j start n k buf) V r ∧ m.Reads (readBlocksFrom m.sb j start n k buf) W r := by
  induction n generalizing k buf with
  | zero => exact ⟨_, Reads.pure _, Reads.pure _⟩
  | succ n ih =>
    simp only [readBlocksFrom]
    have hrV := m.reads_resolve hV (u32 (start + k))
    have hrW := m.reads_resolve hW (u32 (start + k))
    split at hrV
    · next hk =>
      rw [if_pos hk] at hrW
      obtain ⟨r, hV', hW'⟩ := ih (k + 1) (buf ++ [V.blk (ds.getD (u32 (start + k)) 0)])
      have hin := hV.inData_get hk
      have hread := m.reads_readContinuousBlocks W hin
      rw [hblk _ (getD_mem hk)] at hread
      exact ⟨r, hrV.bind ((m.reads_readContinuousBlocks V hin).bind hV'), hrW.bind (hread.bind hW')⟩
    · next hk =>
      rw [if_neg hk] at hrW
      exact ⟨_, Reads.bind_error hrV, Reads.bind_error hrW⟩

theorem readsAlike (hV : FileAt m.sb V j ns ds) (hW : FileAt m.sb W j ns ds)
    (hin : W.inode j = V.inode j) (hblk : ∀ b ∈ ds, W.blk b = V.blk b) : m.ReadsAlike V W j := fun start req => by
  rw [readFileDataBlock, if_neg (m.not_isNeg' hV.range)]
  split
  · exact ⟨_, Reads.pure _, Reads.pure _⟩
  have hrW := m.reads_mofsReadInode W hV.range
  rw [hin] at hrW
  have hbind {α : Type} {f : Inode → M α} (h : ∃ r, m.Reads (f (V.inode j)) V r ∧ m.Reads (f (V.inode j)) W r) :
      ∃ r, m.Reads (mofsReadInode m.sb j >>= f) V r ∧ m.Reads (mofsReadInode m.sb j >>= f) W r := by
    obtain ⟨r, hV', hW'⟩ := h
    exact ⟨r, (m.reads_mofsReadInode V hV.range).bind hV', hrW.bind hW'⟩
  refine hbind ?_
  dsimp only
  split
  · exact ⟨_, Reads.pure _, Reads.pure _⟩
  obtain ⟨_ | r, hV', hW'⟩ := readsAlike_readBlocksFrom hV hW hblk start
    (if ceilBlks m.sb (V.inode j).iSize.toNat < u32 (start + req) then ceilBlks m.sb (V.inode j).iSize.toNat - start else req)
    0 []
  · exact ⟨_, Reads.bind_error hV', Reads.bind_error hW'⟩
  · have hrest {c : Prop} [Decidable c] (x y : FileRead) (U : View) :
        m.Reads (if c then pure x else pure y : M FileRead) U (.ok (if c then x else y)) := by
      split <;> exact Reads.pure _
    exact ⟨_, hV'.bind (hrest _ _ V), hW'.bind (hrest _ _ W)⟩

end Mount

theorem Intact.readsAlike {m : Mount} (h : Intact m.sb V W G j) (hV : Wf m.sb V G) (hj : V.ibit j = true) :
    m.ReadsAlike V W j :=
  Mount.readsAlike (hV.fileAt hj) h.file h.inode h.blk

/-- One block of a directory has changed: a slot that named `a` is now empty. -/
structure SlotCleared (sb : Superblock) (V W : View) (ds : List Nat) (a : Nat) : Prop where
  inode : W.inode = V.inode
  ibit : W.ibit = V.ibit
  dbit : W.dbit = V.dbit
  slot : ∃ k s, k < ds.length ∧ s < entriesPerBlk sb ∧ direntInode (V.blk (ds.getD k 0)) (direntBytes * s) = a ∧
    W.blk (ds.getD k 0) = clearSlot (V.blk (ds.getD k 0)) s ∧ ∀ b, b ≠ ds.getD k 0 → W.blk b = V.blk b

theorem SlotCleared.patched (h : SlotCleared sb V W ds a) : Patched V W ds := by
  obtain ⟨k, s, hk, -, -, -, hout⟩ := h.slot
  refine ⟨h.inode, h.ibit, h.dbit, fun b hb => hout b ?_⟩
  rintro rfl
  exact hb (Mount.getD_mem hk)

/-- A stricter test finds the same slot if it accepts it. -/
theorem firstSlot_and {q t : Nat → Bool} {n s : Nat} (h : firstSlot t n = some s) (hs : q s = true) :
    firstSlot (fun s => q s && t s) n = some s := by
  rw [firstSlot, List.find?_eq_some_iff_append] at h ⊢
  obtain ⟨ht, as, bs, hl, hno⟩ := h
  refine ⟨by rw [hs, ht]; rfl, as, bs, hl, fun c hc => ?_⟩
  have := hno c hc
  simp only [Bool.not_eq_eq_eq_not, Bool.not_true] at this ⊢
  rw [this, Bool.and_false]

theorem firstSlot_and_none {q t : Nat → Bool} {n : Nat} (h : firstSlot t n = none) : firstSlot (fun s => q s && t s) n = none := by
  rw [firstSlot, List.find?_eq_none] at h ⊢
  exact fun c hc hq => h c hc (by simpa using (Bool.and_eq_true _ _ ▸ hq).2)

theorem lt_of_firstSlot {t : Nat → Bool} {n s : Nat} (h : firstSlot t n = some s) : s < n :=
  List.mem_range.mp (List.mem_of_find?_eq_some h)

namespace Mount

/-- A directory block as the scans see it: one block of the directory, or nothing. -/
theorem reads_scanned (m : Mount) (h : FileAt m.sb V p ns ds) (k : Nat) : ∃ r : FileRead,
    (∀ buf, m.Reads (readDirBlock m.sb p k buf) V (.ok (r, r.buf.headD buf))) ∧ r.fraction < m.sb.blkSize ∧
    (fullOrTail r = true → k < ds.length ∧ r.buf = [V.blk (ds.getD k 0)]) := by
  have hB := m.ok.blk_pos
  have hmax := h.max
  simp only [maxFileDataBlocks] at hmax
  have hread {r : FileRead} (hr : m.Reads (readFileDataBlock m.sb p k 1) V (.ok r)) (buf : Block) :
      m.Reads (readDirBlock m.sb p k buf) V (.ok (r, r.buf.headD buf)) := hr.bind (Reads.pure _)
  by_cases hout : (V.inode p).iNrBlocks.toNat ≤ k ∨ ceilBlks m.sb (V.inode p).iSize.toNat ≤ k
  · refine ⟨⟨0, 0, []⟩, hread ?_, hB, fun hf => absurd hf (by decide)⟩
    rw [readFileDataBlock, if_neg (m.not_isNeg' h.range), if_neg (by decide)]
    refine Reads.bind (m.reads_mofsReadInode V h.range) ?_
    rw [if_pos hout]
    exact Reads.pure _
  · have hk : k < ds.length := by rw [h.nr] at hout; omega
    have hcount : (if ceilBlks m.sb (V.inode p).iSize.toNat < u32 (k + 1) then ceilBlks m.sb (V.inode p).iSize.toNat - k
        else 1) = 1 := by
      rw [u32, Nat.mod_eq_of_lt (by omega), if_neg (by omega)]
    have hone : m.Reads (readBlocksFrom m.sb p k 1 0 []) V (.ok ⟨1, 0, [V.blk (ds.getD k 0)]⟩) := by
      have hread : m.Reads (readBlocksFrom m.sb p k 1 0 []) V _ := m.reads_readBlocksFrom h (by omega)
      have hdrop : (ds.drop (k + 0)).take 1 = [ds.getD k 0] := by
        rw [Nat.add_zero, List.drop_eq_getElem_cons hk, List.getD_eq_getElem _ _ hk]
        rfl
      rw [hdrop] at hread
      exact hread
    refine ⟨if (V.inode p).iSize.toNat / m.sb.blkSize < u32 (k + 1) then
      ⟨u32 (1 + 4294967295), (V.inode p).iSize.toNat % m.sb.blkSize, [V.blk (ds.getD k 0)]⟩
      else ⟨1, 0, [V.blk (ds.getD k 0)]⟩, hread ?_, ?_, fun _ => ⟨hk, ?_⟩⟩
    · rw [readFileDataBlock, if_neg (m.not_isNeg' h.range), if_neg (by decide)]
      refine Reads.bind (m.reads_mofsReadInode V h.range) ?_
      dsimp only
      rw [if_neg hout, hcount]
      refine Reads.bind hone ?_
      by_cases hlast : (V.inode p).iSize.toNat / m.sb.blkSize < u32 (k + 1)
      · rw [if_pos ⟨rfl, hlast⟩, if_pos hlast]
        exact Reads.pure _
      · rw [if_neg fun hc => hlast hc.2, if_neg hlast]
        exact Reads.pure _
    · split
      · exact Nat.mod_lt _ hB
      · exact hB
    · split <;> rfl

theorem reads_checked {m : Mount} {k : Nat} {r : FileRead} {buf : Block}
    (hr : m.Reads (readDirBlock m.sb p k buf) V (.ok (r, r.buf.headD buf))) :
    m.Reads (readDirBlockChecked m.sb p k buf) V
      (if fullOrTail r = true then .ok (r, r.buf.headD buf) else .error .eio) := by
  refine Reads.bind hr ?_
  dsimp only
  by_cases hok : fullOrTail r = true
  · rw [if_neg (by simp [hok]), if_pos hok]
    exact Reads.pure _
  · rw [if_pos (by simpa using hok), if_neg hok]
    exact Reads.throw _

/-- The entry that the lookup finds is the one that is removed, unless the directory cannot be read. -/
theorem ensures_removeFound (m : Mount) (h : FileAt m.sb V p ns ds) (ha : a ≠ 0) {d : Disk} (hd : m.sb.view d = V)
    {n k : Nat} {buf buf' : Block}
    (hfind : exec m.env (findInBlocks m.sb name p n k buf) d = some (.ok a, d)) :
    m.Ensures (removeInBlocks m.sb name p n k buf') V (fun r W =>
      (W = V ∧ ∃ e, r = .error e) ∨ (r = .ok () ∧ SlotCleared m.sb V W ds a)) := by
  induction n generalizing k buf buf' with
  | zero => cases hfind
  | succ n ih =>
    obtain ⟨r, hr, hfrac, hfull⟩ := m.reads_scanned h k
    rw [findInBlocks, exec, run_bind_ok ((hr buf).exec_eq hd)] at hfind
    rw [removeInBlocks]
    have hchecked := reads_checked (hr buf')
    by_cases hok : fullOrTail r = true
    · obtain ⟨hk, hbuf⟩ := hfull hok
      have hnum : direntNum m.sb r.fraction ≤ entriesPerBlk m.sb := by
        rw [direntNum]
        split
        · exact Nat.div_le_div_right hfrac.le
        · exact Nat.le_refl _
      rw [if_pos hok, hbuf] at hchecked
      refine Ensures.bind_reads hchecked ?_
      rw [hbuf] at hfind
      simp only [List.headD_cons] at hfind ⊢
      split at hfind
      · next s hs =>
        -- the first slot of the name is live
        cases hfind
        rw [firstSlot_and hs (by simpa using ha)]
        refine (m.ensures_writeDirBlock h hk _).mono fun r W hW => .inr ?_
        obtain ⟨rfl, hF⟩ := hW
        refine ⟨rfl, hF.inode, hF.ibit, hF.dbit, k, s, hk, lt_of_lt_of_le (lt_of_firstSlot hs) hnum, rfl,
          hF.inside 0 (by decide), fun b hb => hF.outside b fun j hj => ?_⟩
        obtain rfl : j = 0 := by omega
        exact hb
      · next hs =>
        rw [firstSlot_and_none hs]
        exact ih hfind
    · rw [if_neg hok] at hchecked
      exact (Reads.bind_error hchecked).ensures (.inl ⟨rfl, _, rfl⟩)

theorem ensures_removeDirEntry_found (m : Mount) (hV : Wf m.sb V G) (hp : V.ibit p = true) (ha : a ≠ 0) {d : Disk}
    (hd : m.sb.view d = V) (hfind : exec m.env (findDirEntry m.sb name p) d = some (.ok a, d)) :
    m.Ensures (removeDirEntry m.sb name p) V (fun r W => (W = V ∧ ∃ e, r = .error e) ∨
      (r = .ok () ∧ (V.inode p).isDir = true ∧ Frame m.sb [p] V W G G ∧ W.ibit = V.ibit ∧
        EntryCleared m.sb V W G p a)) := by
  have hlt := hV.range p hp
  rw [removeDirEntry]
  split
  · exact Ensures.throw (.inl ⟨rfl, _, rfl⟩)
  refine Ensures.bind_reads (m.reads_mofsReadInode V hlt) ?_
  split
  · exact Ensures.throw (.inl ⟨rfl, _, rfl⟩)
  next hdir =>
  rw [findDirEntry, findDirEntryWith, if_neg (m.not_isNeg' hlt), exec, run_bind_ok ((m.reads_mofsReadInode V hlt).exec_eq hd)] at hfind
  refine (m.ensures_removeFound (hV.fileAt hp) ha hd hfind).bind (fun _ U hU => ?_) fun e W hW => ?_
  · rcases hU with ⟨-, e, he⟩ | ⟨-, hU⟩
    · cases he
    have hfr := hU.patched.frame hV
    refine m.ensures_stampWrite hlt (by decide) fun t => .inr ?_
    have hfr' : Frame m.sb [p] U (U.setInode p ((V.inode p).stamp (timeMtime ||| timeCtime) t)) G G :=
      Frame.setInode hfr.wf (by rw [hU.inode]; rfl) (by rw [hU.inode]; rfl)
    have hpU : U.ibit p = true := by rw [hU.ibit]; exact hp
    refine ⟨rfl, by simpa using hdir, hfr.trans hfr', hU.ibit, hpU, ⟨t, Function.update_self _ _ _⟩, hfr'.wf.fileAt hpU, ?_⟩
    obtain ⟨k, s, hk, hs, hname, hcleared, hout⟩ := hU.slot
    exact ⟨k, s, hk, hs, hname, hcleared, fun b _ hb => hout b hb⟩
  · rcases hW with ⟨rfl, -⟩ | ⟨he, -⟩
    · exact .inl ⟨rfl, e, rfl⟩
    · cases he

end Mount

/-- Every inode in use but `a` is as it was, apart from the cleared entry in the directory `dir`. -/
def Isolated (sb : Superblock) (V W : View) (G : Owners) (a : Nat) (dir : Option Nat) : Prop :=
  ∀ b, V.ibit b = true → b ≠ a → Intact sb V W G b ∨ (dir = some b ∧ EntryCleared sb V W G b a)

theorem Isolated.of_frame {dir : Option Nat} (h : Frame sb [a] V W G H) : Isolated sb V W G a dir := fun b hb hba =>
  .inl (.of_same (h.same b (by simpa using hba)) h.wf hb)

theorem Isolated.leave {dir : Option Nat} (h : Isolated sb V W G a dir) : Isolated sb V (W.leave a) G a dir := fun b hb hba => by
  refine (h b hb hba).imp (fun hI => hI.leave hba) fun ⟨hdir, hE⟩ => ⟨hdir, ?_⟩
  exact ⟨(Function.update_of_ne hba _ _).trans hE.ibit,
    hE.inode.imp fun t ht => (Function.update_of_ne hba _ _).trans ht,
    hE.file.congr (Function.update_of_ne hba _ _) fun _ _ => rfl, hE.slot⟩

/-- A part that stays within `a` after the entry of `a` was cleared. -/
theorem EntryCleared.isolated {U : View} (hE : EntryCleared sb V W G p a) (hp : V.ibit p = true) (hpa : p ≠ a)
    (hfr : Frame sb [p] V W G G) (hfr' : Frame sb [a] W U G H) : Isolated sb V U G a (some p) := fun b hb hba => by
  have hsame := hfr'.same b (by simpa using hba)
  by_cases hbp : b = p
  · subst hbp
    have hI := Intact.of_same hsame hfr'.wf hE.ibit
    obtain ⟨k, s, hk, hs, hname, hcleared, hout⟩ := hE.slot
    refine .inr ⟨rfl, hI.ibit, hE.inode.imp fun t ht => hI.inode.trans ht, hI.file, k, s, hk, hs, hname, ?_, fun c hc hck => ?_⟩
    · rw [hI.blk _ (Mount.getD_mem hk), hcleared]
    · rw [hI.blk c hc, hout c hc hck]
  · exact .inl (.of_same ((hfr.same b (by simpa using hbp)).trans hsame) hfr'.wf hb)

namespace Mount

theorem ensures_dropEntry_found (m : Mount) (hV : Wf m.sb V G) (hp : V.ibit p = true) (hai : V.ibit a = true) (ha : a ≠ 0)
    (hreg : (V.inode a).isDir = false) {d : Disk} (hd : m.sb.view d = V)
    (hfind : exec m.env (findDirEntry m.sb name p) d = some (.ok a, d)) :
    m.Ensures (dropEntry m.sb name p a (V.inode a)) V (fun _ W => Isolated m.sb V W G a (some p)) := by
  rw [dropEntry]
  refine (m.ensures_removeDirEntry_found hV hp ha hd hfind).bind (fun _ W hW => ?_) fun e W hW => ?_
  · rcases hW with ⟨-, e, he⟩ | ⟨-, hdir, hfr, hib, hE⟩
    · cases he
    have hpa : p ≠ a := by
      rintro rfl
      rw [hdir] at hreg
      cases hreg
    have haW : W.ibit a = true := by rw [hib]; exact hai
    have hfree : m.Confined a (onlyIf (0 < (V.inode a).iNrBlocks.toNat) (freeDataBlock m.sb a 0 (V.inode a).iNrBlocks.toNat)) :=
      Confined.onlyIf fun _ => m.confined_freeDataBlock a (by have := (V.inode a).iNrBlocks.toNat_lt; omega)
    refine (hfree W G hfr.wf haW).bind (fun _ U hU => ?_) fun e U hU => ?_
    · obtain ⟨H, hfr', -⟩ := hU
      have hiso := hE.isolated hp hpa hfr hfr'
      by_cases h3 : 3 ≤ a
      · refine (m.ensures_freeInode U h3 (hV.range a hai)).mono fun r X hX => ?_
        rw [hX.2]
        exact hiso.leave
      · rw [freeInode, if_pos (.inl (by omega))]
        exact Ensures.throw hiso
    · obtain ⟨H, hfr', -⟩ := hU
      exact hE.isolated hp hpa hfr hfr'
  · rcases hW with ⟨rfl, -⟩ | ⟨he, -⟩
    · exact .of_frame (Frame.refl hV _)
    · cases he

end Mount

/-- The calls that change one file. -/
inductive FileCall
  | write (user : User) (h : FileHandle) (data : List UInt8) (offset : Int) (updateOffset : Bool)
  | truncate (user : User) (i : Nat) (length : Int)
  | unlink (user : User) (path : Path)

namespace FileCall

def run (sb : Superblock) : FileCall → M Unit
  | .write user h data offset upd => do
    let _ ← mofsWriteCore sb user h data offset upd
    pure ()
  | .truncate user i length => mofsTruncateCore sb user i length
  | .unlink user path => mofsUnlinkCore sb user path

/-- On the disk `d`, the call is about inode `a`: through a handle, by its number, or by a path with a live entry for `a`
in the directory `dir`. -/
def On (m : Mount) (d : Disk) (a : Nat) : FileCall → Option Nat → Prop
  | .write _ h _ _ _, none => h.inodeNum = a
  | .truncate _ i _, none => i = a
  | .unlink user path, some p => a ≠ 0 ∧ (m.sb.view d).ibit p = true ∧ ∃ name,
      exec m.env (mofsResolvePath m.sb user path resolveExisting) d = some (.ok ⟨p, a, true, name⟩, d)
  | _, _ => False

end FileCall

theorem FileCall.isolated {m : Mount} {d d' : Disk} (hV : Wf m.sb (m.sb.view d) G) (ha : (m.sb.view d).ibit a = true)
    (hreg : ((m.sb.view d).inode a).isDir = false) {op : FileCall} {dir : Option Nat} (hop : op.On m d a dir)
    {r : Except Errno Unit} (hexec : exec m.env (op.run m.sb) d = some (r, d')) :
    Isolated m.sb (m.sb.view d) (m.sb.view d') G a dir := by
  have hframe {α : Type} {q : M α} {r : Except Errno α} (hq : m.Confined a q) (hr : exec m.env q d = some (r, d')) :
      Isolated m.sb (m.sb.view d) (m.sb.view d') G a dir := by
    obtain ⟨H, hfr, -⟩ := (hq _ G hV ha).of_exec rfl hr
    exact .of_frame hfr
  cases op with
  | write user h data offset upd =>
    cases dir with
    | some p => exact absurd hop id
    | none =>
      obtain rfl := hop
      exact hframe ((m.confined_mofsWriteCore user h data offset upd).bind fun _ => (Mount.Patches.pure _).confined) hexec
  | truncate user i length =>
    cases dir with
    | some p => exact absurd hop id
    | none =>
      obtain rfl := hop
      exact hframe (m.confined_mofsTruncateCore user i length) hexec
  | unlink user path =>
    cases dir with
    | none => exact absurd hop id
    | some p =>
      obtain ⟨ha0, hp, name, hres⟩ := hop
      have hrefl : Isolated m.sb (m.sb.view d) (m.sb.view d) G a (some p) := .of_frame (Frame.refl hV _)
      have hcall : exec m.env (do
          requireUser user
          let _ ← requireDirWrite m.sb user p
          let x ← mofsReadInode m.sb a
          if x.isDir then throw .eisdir else dropEntry m.sb name p a x) d = some (r, d') := by
        rw [← hexec, FileCall.run, mofsUnlinkCore, exec, exec, run_bind_ok hres]
      refine Mount.Ensures.of_exec (Q := fun _ W => Isolated m.sb (m.sb.view d) W G a (some p)) ?_ rfl hcall
      refine (m.reads_requireUser _ user).peeks.ensures_bind (fun _ => hrefl) fun _ => ?_
      refine Mount.Peeks.ensures_bind ?_ (fun _ => hrefl) fun _ => ?_
      · exact ⟨_, m.reads_requireDirWrite user (hV.range p hp)⟩
      refine Mount.Ensures.bind_reads (m.reads_mofsReadInode _ (hV.range a ha)) ?_
      rw [hreg]
      exact m.ensures_dropEntry_found hV hp ha ha0 hreg rfl (exec_mofsResolvePath hres)

/-- Files are isolated from each other: whatever a write, a truncate or an unlink of the regular file `a` returns, every
other inode in use keeps its record, its list and its data, and reads as before; only the directory that held the entry
of an unlinked file has new times and one slot less. -/
theorem files_isolated (m : Mount) {d d' : Disk} (hV : Wf m.sb (m.sb.view d) G) (ha : (m.sb.view d).ibit a = true)
    (hreg : ((m.sb.view d).inode a).isDir = false) {op : FileCall} {dir : Option Nat} (hop : op.On m d a dir)
    {r : Except Errno Unit} (hexec : exec m.env (op.run m.sb) d = some (r, d')) {b : Nat}
    (hb : (m.sb.view d).ibit b = true) (hba : b ≠ a) :
    (Intact m.sb (m.sb.view d) (m.sb.view d') G b ∧ m.ReadsAlike (m.sb.view d) (m.sb.view d') b) ∨
    (dir = some b ∧ EntryCleared m.sb (m.sb.view d) (m.sb.view d') G b a) :=
  (FileCall.isolated hV ha hreg hop hexec b hb hba).imp (fun h => ⟨h, h.readsAlike hV hb⟩) id

theorem OneFile.rootUsed {m : Mount} {d : Disk} {x : Block} (h : OneFile m d x) : (m.sb.view d).ibit rootInodeNum = true := by
  cases hi : (m.sb.view d).ibit rootInodeNum with
  | true => rfl
  | false =>
    have hnil := (h.ok.wf.free rootInodeNum hi).2
    simp [freshOwners] at hnil

theorem files_isolated_write : ∃ (m : Mount) (d d' : Disk) (G : Owners),
    Wf m.sb (m.sb.view d) G ∧ (m.sb.view d).ibit 3 = true ∧ ((m.sb.view d).inode 3).isDir = false ∧
    (FileCall.write fileOwner fileHandle [120] 0 false).On m d 3 none ∧
    exec m.env ((FileCall.write fileOwner fileHandle [120] 0 false).run m.sb) d = some (.ok (), d') ∧
    (m.sb.view d).ibit rootInodeNum = true ∧ rootInodeNum ≠ 3 ∧
    ((Intact m.sb (m.sb.view d) (m.sb.view d') G rootInodeNum ∧ m.ReadsAlike (m.sb.view d) (m.sb.view d') rootInodeNum) ∨
      (none = some rootInodeNum ∧ EntryCleared m.sb (m.sb.view d) (m.sb.view d') G rootInodeNum 3)) := by
  obtain ⟨m, d, h⟩ := exists_oneFile (fun _ => 0)
  obtain ⟨d', -, hstore, -⟩ := h.stores (show 0 < 1024 by decide)
  have hreg : ((m.sb.view d).inode 3).isDir = false := congrArg Inode.isDir h.inode
  have hexec : exec m.env ((FileCall.write fileOwner fileHandle [120] 0 false).run m.sb) d = some (.ok (), d') := by
    rw [FileCall.run, exec]
    exact run_bind_ok hstore
  have hop : (FileCall.write fileOwner fileHandle [120] 0 false).On m d 3 none := rfl
  exact ⟨m, d, d', _, h.ok.wf, h.ibit, hreg, hop, hexec, h.rootUsed, by decide,
    files_isolated m h.ok.wf h.ibit hreg hop hexec h.rootUsed (by decide)⟩

end Mofs
