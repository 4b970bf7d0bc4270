import Mofs.Ancestor
import Mofs.DotEntries
import Mofs.ReadOnly
import Mofs.WalkEnd

namespace Mofs

open Effect Bytes Slots Loop Linked Mofs.Tree

variable {sb : Superblock} {e : Env} {d : Disk} {V : View} {G : Owners} {T : Nat → List Slot} {up : Nat → Nat} {a b c i k p : Nat}

/-- An inode in use that is a directory. -/
def View.Directory (V : View) (i : Nat) : Prop := V.ibit i = true ∧ (V.inode i).isDir = true

/-- The list with the first node `c` has the first pointer `b`. -/
inductive FirstPtr (sb : Superblock) (blk : Nat → Block) : Nat → Nat → Prop
  | here {c : Nat} (hc : sb.inData c) (hcap : nodeNrPtrs (blk c) ≤ listPtrsCap sb) (hpos : 0 < nodeNrPtrs (blk c)) :
      FirstPtr sb blk c (leNat (blk c) 8 4)
  | next {c b : Nat} (hc : sb.inData c) (hzero : nodeNrPtrs (blk c) = 0) (h : FirstPtr sb blk (nodeNext (blk c)) b) :
      FirstPtr sb blk c b

/-- A directory with a full first block that begins as `mofs_mkdir_core` writes it, with `..` denoting `p`. -/
structure HasDotdot (sb : Superblock) (V : View) (i p : Nat) : Prop where
  full : sb.blkSize ≤ (V.inode i).iSize.toNat
  counted : 0 < (V.inode i).iNrBlocks.toNat
  first : ∃ b, FirstPtr sb V.blk (V.inode i).iDataHead.toNat b ∧ sb.inData b ∧
    Holds (V.blk b) (direntBytes * 0) (some (dot, i)) ∧ Holds (V.blk b) (direntBytes * 1) (some (dotdot, p))

/-- The size of file `i` can be rounded up to whole blocks in 32 bits. -/
def RoundsUp (sb : Superblock) (V : View) (i : Nat) : Prop := (V.inode i).iSize.toNat + sb.blkSize ≤ 4294967296

/-- The directories of a volume form a tree with the root directory as its root, `up` is the parent of a directory, and
the `..` entries say so. -/
structure DotdotTree (sb : Superblock) (V : View) (up : Nat → Nat) : Prop where
  root : V.Directory rootInodeNum
  parent : ∀ i, V.Directory i → i ≠ rootInodeNum → V.Directory (up i)
  rooted : ∀ i, V.Directory i → ∃ l, Climb up rootInodeNum i l
  dotdot : ∀ i, V.Directory i → i ≠ rootInodeNum → HasDotdot sb V i (up i)

section Tree

theorem view_blk (hb : sb.inData b) : (sb.view d).blk b = d.blk b := if_pos hb

theorem View.Directory.lt (h : (sb.view d).Directory i) : i < sb.inodeNum := by
  have h1 := h.1
  simp only [Superblock.view, Bool.and_eq_true, decide_eq_true_eq] at h1
  exact h1.1

/-- A lookup of the first pointer does not return anything else. -/
theorem FirstPtr.exec_resolveFrom (hl : sb.Laid) (hs : e.Serves sb) (h : FirstPtr sb (sb.view d).blk c b) (fuel : Nat) :
    exec e (resolveFrom sb fuel c 0) d = none ∨ exec e (resolveFrom sb fuel c 0) d = some (.ok b, d) := by
  have haccepts {c : Nat} (hc : sb.inData c) (hcap : nodeNrPtrs ((sb.view d).blk c) ≤ listPtrsCap sb) :
      e.Accepts sb d.blk c :=
    ⟨hl.data_pos hc, hs.fits (hc.2.trans_le hl.hole), view_blk (d := d) hc ▸ hcap⟩
  induction h generalizing fuel with
  | @here c hc hcap hpos =>
    cases fuel with
    | zero => exact .inl rfl
    | succ fuel =>
      rw [exec_resolveFrom_accepted d (haccepts hc hcap), ← view_blk (d := d) hc, if_pos hpos]
      exact .inr rfl
  | @next c b hc hzero h ih =>
    cases fuel with
    | zero => exact .inl rfl
    | succ fuel =>
      rw [exec_resolveFrom_accepted d (haccepts hc (hzero ▸ Nat.zero_le _)), ← view_blk (d := d) hc, hzero,
        if_neg (Nat.not_lt_zero 0)]
      exact ih fuel

/-- A list with a first pointer is not a loop of nodes without pointers. -/
theorem FirstPtr.not_cycles (h : FirstPtr sb (sb.view d).blk c b) : ¬ Cycles (advance d.blk) (e.Passes sb d.blk 0) (c, 0) := by
  intro hc
  have hgo := hc.goes
  clear hc
  induction h with
  | here hc hcap hpos =>
    have := (hgo 0).2
    rw [view_blk hc] at hpos
    simp only [Function.iterate_zero, id_eq] at this
    omega
  | @next c b hc hzero h ih =>
    rw [view_blk hc] at hzero
    refine ih fun k => ?_
    have := hgo (k + 1)
    rwa [Function.iterate_succ_apply, advance, hzero, Nat.add_zero, ← view_blk (d := d) hc] at this

theorem FirstPtr.inData (h : FirstPtr sb V.blk c b) : sb.inData c := by
  cases h with
  | here hc _ _ => exact hc
  | next hc _ _ => exact hc

namespace Mount

theorem reads_firstPtr (m : Mount) (h : FirstPtr m.sb V.blk c b) : m.Reads (resolveFrom m.sb walkFuel c 0) V (.ok b) := by
  refine Reads.of_exec fun d hd => ?_
  subst hd
  rcases h.exec_resolveFrom m.ok.toLaid m.serves walkFuel with hnone | hok
  · exact absurd ((exec_resolveFrom_walkFuel_none d c).mp hnone) h.not_cycles
  · exact hok

theorem reads_firstBlock (m : Mount) (hi : i < m.sb.inodeNum) (hnr : 0 < (V.inode i).iNrBlocks.toNat)
    (h : FirstPtr m.sb V.blk (V.inode i).iDataHead.toNat b) : m.Reads (resolveFileDataBlock m.sb i 0) V (.ok b) := by
  have hhead := m.ok.toLaid.data_pos h.inData
  rw [resolveFileDataBlock, if_neg fun hneg => m.not_isNeg hi (.inl hneg)]
  refine Reads.bind (m.reads_mofsReadInode V hi) ?_
  rw [if_neg (Nat.not_le.mpr hnr), if_neg hhead]
  exact m.reads_firstPtr h

/-- The `..` entry of a directory is found in its first block. -/
theorem reads_dotdot (m : Mount) (hi : i < m.sb.inodeNum) (h : HasDotdot m.sb V i p) (hmax : RoundsUp m.sb V i) :
    m.Reads (readDotdotParent m.sb i) V (.ok p) := by
  obtain ⟨b, hfirst, hb, hdot, hdotdot⟩ := h.first
  have hblk := m.ok.blk_ge
  have hfull := h.full
  have hread : m.Reads (readFileDataBlock m.sb i 0 1) V (.ok ⟨1, 0, [V.blk b]⟩) := by
    have hsize : 1 ≤ ceilBlks m.sb (V.inode i).iSize.toNat := by
      -- rounding up to whole blocks does not wrap
      rw [RoundsUp] at hmax
      rw [ceilBlks, u32, Nat.mod_eq_of_lt (by omega), Nat.le_div_iff_mul_le (by omega)]
      omega
    have hwhole : ¬ (V.inode i).iSize.toNat / m.sb.blkSize < 1 := by
      rw [Nat.not_lt, Nat.le_div_iff_mul_le (by omega)]
      omega
    rw [readFileDataBlock, if_neg fun hneg => m.not_isNeg hi (.inl hneg), if_neg (by decide)]
    refine Reads.bind (m.reads_mofsReadInode V hi) ?_
    dsimp only
    have hcounted := h.counted
    rw [if_neg (by omega), if_neg (show ¬ ceilBlks m.sb (V.inode i).iSize.toNat < u32 (0 + 1) by exact Nat.not_lt.mpr hsize)]
    refine Reads.bind (a := ⟨1, 0, [V.blk b]⟩) ?_ ?_
    · rw [readBlocksFrom]
      refine Reads.bind (m.reads_firstBlock hi h.counted hfirst) ?_
      refine Reads.bind (m.reads_readContinuousBlocks V hb) ?_
      exact Reads.pure _
    · rw [if_neg fun hc => hwhole hc.2]
      exact Reads.pure _
  have hslot := dotdotSlot_of_holds m.ok hdot hdotdot
  refine Reads.bind (a := V.blk b) ?_ ?_
  · refine Reads.bind hread ?_
    exact Reads.pure _
  · rw [hslot]
    dsimp only
    rw [hdotdot.inode_eq]
    exact Reads.pure _

end Mount

theorem Chain.firstPtr {blk : Nat → Block} {head : Nat} {ns ds : List Nat} (h : Chain sb blk head ns ds)
    (hin : ∀ x ∈ ns, sb.inData x) (hds : ds ≠ []) : FirstPtr sb blk head (ds.getD 0 0) := by
  obtain ⟨hlinks, hcap⟩ := h
  induction hlinks with
  | nil => exact absurd rfl hds
  | @cons c ns vs _ _ ih =>
    have hc := hin c List.mem_cons_self
    by_cases hzero : nodeNrPtrs (blk c) = 0
    · rw [hzero] at hds ⊢
      exact .next hc hzero (ih (fun x hx => hin x (List.mem_cons_of_mem _ hx)) hds fun x hx => hcap x (List.mem_cons_of_mem _ hx))
    · have hptr : (nodePtrs (blk c) (nodeNrPtrs (blk c)) ++ vs).getD 0 0 = leNat (blk c) 8 4 := by
        obtain ⟨n, hn⟩ := Nat.exists_eq_succ_of_ne_zero hzero
        simp [hn, nodePtrs, List.range_succ_eq_map]
      rw [hptr]
      exact .here hc (hcap c List.mem_cons_self) (Nat.pos_of_ne_zero hzero)

theorem Dotted.hasDotdot {ns ds : List Nat} {rest : List Slot} (h : Dotted sb V i ns ds i p rest) (hok : sb.Ok) :
    HasDotdot sb V i p := by
  have hpos := h.data_pos hok
  have hsize := h.dir.size
  simp only [List.length_cons] at hsize
  refine ⟨?_, ?_, _, h.dir.file.chain.firstPtr (fun x hx => h.dir.file.inData x (List.mem_append_left _ hx))
    (List.ne_nil_of_length_pos hpos), ?_, h.first_two hok⟩
  · have hlarge := h.large
    rw [hsize, hok.blk_eq]
    exact Nat.mul_le_mul_left _ hlarge
  · rw [h.dir.file.nr]
    exact hpos
  · rw [List.getD_eq_getElem _ _ hpos]
    exact h.dir.file.inData _ (List.mem_append_right _ (List.getElem_mem hpos))

/-- No directory that the file system has made gets close to 32 bits. -/
theorem DirAt.roundsUp {ns ds : List Nat} {slots : List Slot} (h : DirAt sb V i ns ds slots) (hok : sb.Ok) : RoundsUp sb V i := by
  have hmax := h.file.max
  rw [h.blocks] at hmax
  have hB := hok.blk_ge
  have hbytes := (blocksFor_le_iff (by omega)).mp hmax
  have hle := hok.blk_le
  have hall : maxFileDataBlocks * sb.blkSize ≤ 1024 * 65536 := Nat.mul_le_mul_left 1024 hle
  rw [RoundsUp, h.size]
  omega

/-- The directories of a well-formed volume are such a tree. -/
theorem Vol.dotdotTree (h : Vol sb V G T up) (hok : sb.Ok) : DotdotTree sb V up :=
  ⟨⟨h.tree.root_used, h.rootDir⟩, fun i hi hr => ⟨(h.tree.parent i hi.1 hr).1, h.up_isDir hi.1 hr⟩,
    fun i hi => h.tree.rooted i hi.1, fun _ hi hr => (h.dotted hi.2 hr).hasDotdot hok⟩

theorem DotdotTree.climb_directory (h : DotdotTree sb V up) (hi : V.Directory i) {l : List Nat} (hl : Climb up rootInodeNum i l) :
    ∀ x ∈ l, V.Directory x := by
  induction hl with
  | root => simpa using hi
  | @step i l hr _ ih =>
    intro x hx
    rcases List.mem_cons.mp hx with rfl | hx
    · exact hi
    · exact ih (h.parent i hi hr) x hx

/-- The guard does not cut a way to the root short: there is no directory twice on it. -/
theorem DotdotTree.exec_directoryIsAncestor (h : DotdotTree sb (sb.view d) up) (hok : sb.Ok) (hs : e.Serves sb)
    (hi : (sb.view d).Directory i) {l : List Nat} (hl : Climb up rootInodeNum i l)
    (hmax : ∀ x ∈ l, x ≠ rootInodeNum → RoundsUp sb (sb.view d) x) (a : Nat) :
    exec e (directoryIsAncestor sb a i) d = some (.ok (decide (a ∈ l)), d) := by
  have hdir := h.climb_directory hi hl
  have hsub : l ⊆ List.range sb.inodeNum := fun x hx => List.mem_range.mpr (hdir x hx).lt
  have hguard : l.length ≤ sb.inodeNum := by simpa using (hl.nodup.subperm hsub).length_le
  let m : Mount := ⟨sb, e, hok, hs⟩
  exact (m.reads_ancestorFrom_climb hl (fun x hx hr => m.reads_dotdot (hdir x hx).lt (h.dotdot x (hdir x hx) hr) (hmax x hx hr))
    hguard a).exec_eq rfl

end Tree

/-- In `k` rounds of its loop the walk for `a` gets from `c` to `c'`, along the `..` entries that it reads. -/
inductive Trail (e : Env) (sb : Superblock) (d : Disk) (a : Nat) : Nat → Nat → Nat → Prop
  | here (c : Nat) : Trail e sb d a 0 c c
  | step {k c p c' : Nat} (ha : c ≠ a) (hr : c ≠ rootInodeNum) (hread : exec e (readDotdotParent sb c) d = some (.ok p, d))
      (hp : p ≠ c) (h : Trail e sb d a k p c') : Trail e sb d a (k + 1) c c'

/-- How the walk for `a` ends when it is at `c` after `k` of at most `n` rounds, and what it returns. -/
inductive Stops (e : Env) (sb : Superblock) (d : Disk) (a n : Nat) : Nat → Nat → Except Errno Bool → Prop
  | guard (c : Nat) : Stops e sb d a n n c (.ok false)
  | found {k : Nat} (hk : k < n) : Stops e sb d a n k a (.ok true)
  | root {k : Nat} (hk : k < n) (ha : rootInodeNum ≠ a) : Stops e sb d a n k rootInodeNum (.ok false)
  | self {k c : Nat} (hk : k < n) (ha : c ≠ a) (hread : exec e (readDotdotParent sb c) d = some (.ok c, d)) :
      Stops e sb d a n k c (.ok false)
  | error {k c : Nat} {err : Errno} (hk : k < n) (ha : c ≠ a)
      (hread : exec e (readDotdotParent sb c) d = some (.error err, d)) : Stops e sb d a n k c (.error err)

/-- The list of inode `c` is to be searched for its first block, and is a loop of nodes without pointers. -/
def EmptyLoop (e : Env) (sb : Superblock) (d : Disk) (c : Nat) : Prop :=
  ∃ x, exec e (mofsReadInode sb c) d = some (.ok x, d) ∧ 0 < x.iNrBlocks.toNat ∧ 0 < ceilBlks sb x.iSize.toNat ∧
    Cycles (advance d.blk) (e.Passes sb d.blk 0) (x.iDataHead.toNat, 0)

section Bound

theorem exec_mofsReadInode_some (e : Env) (sb : Superblock) (d : Disk) (c : Nat) :
    ∃ r, exec e (mofsReadInode sb c) d = some (r, d) := by
  rw [mofsReadInode]
  split
  · exact ⟨_, rfl⟩
  · by_cases hfit : (inodeBlk sb c + 1) * e.blkSize ≤ e.size
    · exact ⟨_, by rw [exec, run_bind_ok (exec_readFull hfit d)]; rfl⟩
    · exact ⟨_, by rw [exec, run_bind_error (exec_readFull_short hfit d)]⟩

theorem exec_readContinuousBlocks_ne_none (b : Nat) (d : Disk) : exec e (readContinuousBlocks b) d ≠ none := by
  by_cases hfit : (b + 1) * e.blkSize ≤ e.size
  · rw [exec_readContinuousBlocks hfit]
    exact Option.some_ne_none _
  · rw [exec_readContinuousBlocks_short hfit]
    exact Option.some_ne_none _

/-- A sequence whose second part always returns does so if the first one does. -/
theorem exec_bind_none {α β : Type} {q : M α} {f : α → M β} (hf : ∀ x t, exec e (f x) t ≠ none) :
    exec e (q >>= f) d = none ↔ exec e q d = none := by
  rw [exec, run_bind_eq_none]
  refine or_iff_left ?_
  rintro ⟨x, t, -, h⟩
  exact hf x t h

theorem exec_resolveFirst_none {x : Inode} (hx : exec e (mofsReadInode sb c) d = some (.ok x, d))
    (hneg : ¬ isNeg c) (hnr : 0 < x.iNrBlocks.toNat) : exec e (resolveFileDataBlock sb c 0) d = none ↔
      Cycles (advance d.blk) (e.Passes sb d.blk 0) (x.iDataHead.toNat, 0) := by
  rw [resolveFileDataBlock, if_neg hneg, exec, run_bind_ok hx, if_neg (Nat.not_le.mpr hnr)]
  by_cases h0 : x.iDataHead.toNat = 0
  · rw [if_pos h0]
    exact iff_of_false (Option.some_ne_none _) fun hc => (hc.goes 0).1.1 h0
  · rw [if_neg h0]
    exact exec_resolveFrom_walkFuel_none d _

/-- A first block is looked for without end in a loop of nodes without pointers only. -/
theorem exec_readFirst_none : exec e (readFileDataBlock sb c 0 1) d = none ↔ EmptyLoop e sb d c := by
  rw [readFileDataBlock]
  by_cases hneg : isNeg c
  · rw [if_pos hneg]
    refine iff_of_false (Option.some_ne_none _) ?_
    rintro ⟨x, hx, -⟩
    rw [mofsReadInode, if_pos (.inl hneg)] at hx
    cases hx
  rw [if_neg hneg, if_neg (by decide)]
  obtain ⟨r, hr⟩ := exec_mofsReadInode_some e sb d c
  cases r with
  | error err =>
    rw [exec, run_bind_error hr]
    refine iff_of_false (Option.some_ne_none _) ?_
    rintro ⟨x, hx, -⟩
    rw [hr] at hx
    cases hx
  | ok x =>
    have hloop : EmptyLoop e sb d c ↔ 0 < x.iNrBlocks.toNat ∧ 0 < ceilBlks sb x.iSize.toNat ∧
        Cycles (advance d.blk) (e.Passes sb d.blk 0) (x.iDataHead.toNat, 0) := by
      constructor
      · rintro ⟨y, hy, h⟩
        rw [hr] at hy
        cases hy
        exact h
      · exact fun h => ⟨x, hr, h⟩
    rw [exec, run_bind_ok hr, hloop]
    dsimp only
    by_cases hempty : x.iNrBlocks.toNat ≤ 0 ∨ ceilBlks sb x.iSize.toNat ≤ 0
    · rw [if_pos hempty]
      exact iff_of_false (Option.some_ne_none _) fun h => by omega
    rw [if_neg hempty, if_neg (show ¬ ceilBlks sb x.iSize.toNat < u32 (0 + 1) from fun h => hempty (.inr (Nat.lt_succ_iff.mp h)))]
    have hnr : 0 < x.iNrBlocks.toNat := by omega
    have hceil : 0 < ceilBlks sb x.iSize.toNat := by omega
    rw [and_iff_right hnr, and_iff_right hceil, ← exec_resolveFirst_none hr hneg hnr]
    have hrest (r : FileRead) (t : Disk) : exec e (if r.fraction = 0 ∧ x.iSize.toNat / sb.blkSize < u32 (0 + r.readBlkNum) then
        pure ⟨u32 (r.readBlkNum + 4294967295), x.iSize.toNat % sb.blkSize, r.buf⟩ else pure r : M FileRead) t ≠ none := by
      split <;> exact Option.some_ne_none _
    refine (exec_bind_none hrest).trans ?_
    rw [readBlocksFrom]
    refine exec_bind_none fun b t => ?_
    rw [ne_eq, exec_bind_none fun r t => ?_]
    · exact exec_readContinuousBlocks_ne_none b t
    · split
      · exact Option.some_ne_none _
      split
      · exact Option.some_ne_none _
      · exact Option.some_ne_none _

theorem exec_readDotdotParent_none : exec e (readDotdotParent sb c) d = none ↔ EmptyLoop e sb d c := by
  rw [← exec_readFirst_none, readDotdotParent, exec_bind_none fun buf t => ?_, readFirstBlock, exec_bind_none fun r t => ?_]
  · split <;> exact Option.some_ne_none _
  · split <;> exact Option.some_ne_none _

theorem readOnly_readDotdotParent (c : Nat) : ReadOnly (readDotdotParent sb c) := by
  rw [readDotdotParent, readFirstBlock]
  refine ReadOnly.bind ((readOnly_readFileDataBlock c 0 1).bind fun r => ?_) fun buf => ?_
  · split
    · exact .throw _
    · exact .pure _
  · split
    · exact .pure _
    · exact .throw _

theorem Stops.succ {n : Nat} {r : Except Errno Bool} (h : Stops e sb d a n k c r) : Stops e sb d a (n + 1) (k + 1) c r := by
  cases h with
  | guard => exact .guard c
  | found hk => exact .found (Nat.succ_lt_succ hk)
  | root hk ha => exact .root (Nat.succ_lt_succ hk) ha
  | self hk ha hread => exact .self (Nat.succ_lt_succ hk) ha hread
  | error hk ha hread => exact .error (Nat.succ_lt_succ hk) ha hread

/-- What the walk does on any content of the device: it follows the `..` entries for at most as many rounds as the guard
allows and stops, or it gets to a directory whose first block it looks for without end. -/
theorem ancestorFrom_outcome (e : Env) (sb : Superblock) (d : Disk) (a n c : Nat) :
    (∃ k ≤ n, ∃ c' r, Trail e sb d a k c c' ∧ Stops e sb d a n k c' r ∧ exec e (ancestorFrom sb a n c) d = some (r, d)) ∨
      ∃ k < n, ∃ c', Trail e sb d a k c c' ∧ c' ≠ a ∧ c' ≠ rootInodeNum ∧ EmptyLoop e sb d c' := by
  induction n generalizing c with
  | zero => exact .inl ⟨0, Nat.le_refl 0, c, _, .here c, .guard c, rfl⟩
  | succ n ih =>
    rw [ancestorFrom]
    by_cases ha : c = a
    · rw [if_pos ha]
      exact .inl ⟨0, Nat.zero_le _, c, _, .here c, ha ▸ .found (Nat.succ_pos n), rfl⟩
    rw [if_neg ha]
    by_cases hr : c = rootInodeNum
    · rw [if_pos hr]
      exact .inl ⟨0, Nat.zero_le _, c, _, .here c, hr ▸ .root (Nat.succ_pos n) (hr ▸ ha), rfl⟩
    rw [if_neg hr]
    rcases hread : exec e (readDotdotParent sb c) d with _ | ⟨r, d'⟩
    · exact .inr ⟨0, Nat.succ_pos n, c, .here c, ha, hr, exec_readDotdotParent_none.mp hread⟩
    obtain rfl := (readOnly_readDotdotParent c).exec_eq hread
    cases r with
    | error err =>
      exact .inl ⟨0, Nat.zero_le _, c, _, .here c, .error (Nat.succ_pos n) ha hread, run_bind_error hread⟩
    | ok p =>
      rw [exec, run_bind_ok hread]
      by_cases hp : p = c
      · rw [if_pos hp]
        exact .inl ⟨0, Nat.zero_le _, c, _, .here c, .self (Nat.succ_pos n) ha (hp ▸ hread), rfl⟩
      rw [if_neg hp]
      rcases ih p with ⟨k, hk, c', r, htrail, hstop, hrun⟩ | ⟨k, hk, c', htrail, hend⟩
      · exact .inl ⟨k + 1, Nat.succ_le_succ hk, c', r, .step ha hr hread hp htrail, hstop.succ, hrun⟩
      · exact .inr ⟨k + 1, Nat.succ_lt_succ hk, c', .step ha hr hread hp htrail, hend⟩

theorem Trail.ancestorFrom_none {n c' : Nat} (h : Trail e sb d a k c c') (hk : k < n) (ha : c' ≠ a) (hr : c' ≠ rootInodeNum)
    (hloop : EmptyLoop e sb d c') : exec e (ancestorFrom sb a n c) d = none := by
  induction h generalizing n with
  | here c =>
    obtain ⟨n, rfl⟩ := Nat.exists_eq_succ_of_ne_zero (Nat.ne_of_gt hk)
    rw [ancestorFrom, if_neg ha, if_neg hr, exec, run_bind_eq_none]
    exact .inl (exec_readDotdotParent_none.mpr hloop)
  | step ha' hr' hread hp _ ih =>
    obtain ⟨n, rfl⟩ := Nat.exists_eq_succ_of_ne_zero (Nat.ne_of_gt (Nat.zero_lt_of_lt hk))
    rw [ancestorFrom, if_neg ha', if_neg hr', exec, run_bind_ok hread, if_neg hp]
    exact ih (Nat.lt_of_succ_lt_succ hk) ha hr hloop

end Bound

/-- `directory_is_ancestor` is exact where the directories form a tree and those on the way up are not too large to be rounded up
to blocks. On any content it stops after at most `inode_num` rounds, unless it gets to a directory whose block list is a loop of nodes without pointers. -/
theorem directory_is_ancestor_exact (sb : Superblock) (e : Env) (d : Disk) (a start : Nat) :
    (sb.Ok → e.Serves sb → ∀ up, DotdotTree sb (sb.view d) up → (sb.view d).Directory start →
      ∃ l, Climb up rootInodeNum start l ∧ ((∀ x ∈ l, x ≠ rootInodeNum → RoundsUp sb (sb.view d) x) →
        exec e (directoryIsAncestor sb a start) d = some (.ok (decide (a ∈ l)), d))) ∧
    ((∃ k ≤ sb.inodeNum, ∃ c r, Trail e sb d a k start c ∧ Stops e sb d a sb.inodeNum k c r ∧
        exec e (directoryIsAncestor sb a start) d = some (r, d)) ↔
      ¬ ∃ k < sb.inodeNum, ∃ c, Trail e sb d a k start c ∧ c ≠ a ∧ c ≠ rootInodeNum ∧ EmptyLoop e sb d c) := by
  refine ⟨fun hok hs up htree hdir => ?_, ?_, (ancestorFrom_outcome e sb d a sb.inodeNum start).resolve_right⟩
  · obtain ⟨l, hl⟩ := htree.rooted start hdir
    exact ⟨l, hl, fun hmax => htree.exec_directoryIsAncestor hok hs hdir hl hmax a⟩
  · rintro ⟨-, -, -, r, -, -, hrun⟩ ⟨k, hk, c, htrail, ha, hr, hloop⟩
    have hnone : exec e (directoryIsAncestor sb a start) d = none := htrail.ancestorFrom_none hk ha hr hloop
    rw [hnone] at hrun
    cases hrun

/-- The walk from a directory in the root finds the root. -/
theorem directory_is_ancestor_exact_dirA : ∃ (sb : Superblock) (e : Env) (d : Disk) (up : Nat → Nat), sb.Ok ∧ e.Serves sb ∧
    DotdotTree sb (sb.view d) up ∧ (sb.view d).Directory 3 ∧
    exec e (directoryIsAncestor sb rootInodeNum 3) d = some (.ok true, d) ∧
    (¬ ∃ k < sb.inodeNum, ∃ c, Trail e sb d rootInodeNum k 3 c ∧ c ≠ rootInodeNum ∧ c ≠ rootInodeNum ∧ EmptyLoop e sb d c) ∧
    ∃ k ≤ sb.inodeNum, ∃ c r, Trail e sb d rootInodeNum k 3 c ∧ Stops e sb d rootInodeNum sb.inodeNum k c r ∧
      exec e (directoryIsAncestor sb rootInodeNum 3) d = some (r, d) := by
  obtain ⟨m, t, d, user, hboot, hnum, hrun, -, -, hd⟩ := exists_dirA
  obtain ⟨hok, hserves, hfresh⟩ := hboot.fresh (by rw [hnum]; decide) (by rw [hnum]; decide)
  obtain ⟨G, T, up, ⟨hvol, -⟩, -⟩ := hrun.dotless hok hserves hfresh
  have hdir : (m.sb.view d).Directory 3 := ⟨hvol.used_of_isDir hd, hd⟩
  have htree := hvol.dotdotTree hok
  obtain ⟨hexact, hbound⟩ := directory_is_ancestor_exact m.sb m.env d rootInodeNum 3
  obtain ⟨l, hl, hfound⟩ := hexact hok hserves up htree hdir
  have hfound := hfound fun x hx _ => (hvol.dirAt (htree.climb_directory hdir hl x hx).2).roundsUp hok
  rw [decide_eq_true hl.root_mem] at hfound
  have hno : ¬ ∃ k < m.sb.inodeNum, ∃ c, Trail m.env m.sb d rootInodeNum k 3 c ∧ c ≠ rootInodeNum ∧ c ≠ rootInodeNum ∧
      EmptyLoop m.env m.sb d c := by
    rintro ⟨k, hk, c, htrail, ha, hr, hloop⟩
    have hnone : exec m.env (directoryIsAncestor m.sb rootInodeNum 3) d = none := htrail.ancestorFrom_none hk ha hr hloop
    rw [hnone] at hfound
    cases hfound
  exact ⟨m.sb, m.env, d, up, hok, hserves, htree, hdir, hfound, hno, hbound.mpr hno⟩

/-- A directory with one block, whose list starts at block 4. -/
def loopInode : Inode := { Inode.zero with iMode := .ofNat ftypeDir, iSize := 512, iDataHead := 4, iNrBlocks := 1 }

/-- A formatted volume of 16 blocks with this directory as inode 3 and a node at block 4 that links to itself. -/
def loopDisk : Disk := selfLink.put 3 (splice (fun _ => 0) 192 (encodeInode loopInode))

/-- The walk from a directory whose block list is a loop without pointers does not return, for any number of list nodes
it may look at. -/
theorem directory_is_ancestor_hangs : ∃ (sb : Superblock) (e : Env), sb.FromFormat ∧ e.Serves sb ∧ sb.inodeNum = 4 ∧
    exec e (directoryIsAncestor sb rootInodeNum 3) loopDisk = none ∧
    exec e (mofsReadInode sb 3) loopDisk = some (.ok loopInode, loopDisk) ∧
    ∀ fuel, exec e (resolveFrom sb fuel loopInode.iDataHead.toNat 0) loopDisk = none := by
  have hsb := fromFormat_blankDev (show 8 < 16 by decide) (by decide)
  have hs : Env.Serves ⟨512, 8192, false, fun _ => none, fun _ => 0⟩ ((geometry (16 * 512) 512).superblock 512) :=
    ⟨rfl, by decide⟩
  generalize hg : (geometry (16 * 512) 512).superblock 512 = sb at hsb hs
  have hnum : sb.inodeNum = 4 := by rw [← hg]; decide
  have hread : exec ⟨512, 8192, false, fun _ => none, fun _ => 0⟩ (mofsReadInode sb 3) loopDisk =
      some (.ok loopInode, loopDisk) := by
    have hblk : inodeBlk sb 3 = 3 := by rw [← hg]; decide
    have hoff : inodeOffset sb 3 = 192 := by rw [← hg]; decide
    have hthree : loopDisk.blk 3 = splice (fun _ => 0) 192 (encodeInode loopInode) := rfl
    rw [exec_mofsReadInode (by rw [hnum]; decide) (by rw [hblk]; decide), hblk, hoff, hthree, decodeInode_splice]
  have hfour : loopDisk.blk 4 = encodeNode 4 [] := rfl
  have hnext : nodeNext (loopDisk.blk 4) = 4 := hfour ▸ nodeNext_encodeNode (by decide) []
  have hnr : nodeNrPtrs (loopDisk.blk 4) = 0 :=
    hfour ▸ nodeNrPtrs_encodeNode 4 (show ([] : List Nat).length < 4294967296 by decide)
  have hfix : advance loopDisk.blk (4, 0) = (4, 0) := by rw [advance, hnext, hnr]
  have hpass (k : Nat) : Env.Passes ⟨512, 8192, false, fun _ => none, fun _ => 0⟩ sb loopDisk.blk 0
      ((advance loopDisk.blk)^[k] (4, 0)) := by
    rw [Function.iterate_fixed hfix]
    exact ⟨⟨by decide, by decide, by rw [hnr]; exact Nat.zero_le _⟩, by rw [hnr]⟩
  have hloop : EmptyLoop ⟨512, 8192, false, fun _ => none, fun _ => 0⟩ sb loopDisk 3 :=
    ⟨loopInode, hread, by decide, by rw [← hg]; decide, 0, 1, Nat.zero_lt_one, hfix.symm, fun k _ => hpass k⟩
  refine ⟨sb, _, hsb, hs, hnum, ?_, hread, fun fuel => ?_⟩
  · exact (Trail.here 3).ancestorFrom_none (by rw [hnum]; decide) (by decide) (by decide) hloop
  · exact (exec_resolveFrom_none loopDisk (Nat.le_refl 0)).mpr fun k _ => hpass k

end Mofs
