import Mofs.CallStep
import Mofs.Confined
import Mofs.Fault

namespace Mofs

open Effect Bytes Slots

variable {α β : Type} {sb : Superblock} {V W : View} {G H : Owners} {T : Nat → List Slot} {up : Nat → Nat} {user : User}
  {path : Path} {i : Nat}

section Quiet

theorem readOnly_requireUser (user : User) : ReadOnly (requireUser user) := by
  rw [requireUser]
  split
  · exact .throw _
  · exact .pure _

theorem readOnly_resolveLeaf (flags : ResolveFlags) (user : User) (parent : Nat) (leaf : Name) :
    ReadOnly (resolveLeaf sb flags user parent leaf) := by
  rw [resolveLeaf]
  split
  · exact .throw _
  dsimp only
  split
  · exact .pure _
  refine (readOnly_checkParentTraverse _ _ _).bind fun _ => (readOnly_findDirEntry _ _).attempt.bind fun r => ?_
  split
  · split
    · split
      · exact .pure _
      · exact .throw _
    · exact .pure _
  · split
    · exact .pure _
    · exact .throw _

theorem readOnly_walkComponents (flags : ResolveFlags) (user : User) (parent : Nat) (current : Name) (rest : List Name) :
    ReadOnly (walkComponents sb flags user parent current rest) := by
  induction rest generalizing parent current with
  | nil => exact readOnly_resolveLeaf flags user parent current
  | cons next rest ih =>
    rw [walkComponents]
    refine (readOnly_checkParentTraverse _ _ _).bind fun _ => (readOnly_findDirEntry _ _).attempt.bind fun r => ?_
    split
    · split
      · exact .throw _
      · exact ih _ _
    · exact .throw _

theorem readOnly_mofsResolvePath (user : User) (path : Path) (flags : ResolveFlags) :
    ReadOnly (mofsResolvePath sb user path flags) := by
  rw [mofsResolvePath]
  split
  · exact .throw _
  split
  · exact .throw _
  split
  · exact .throw _
  split
  · exact .throw _
  split
  · split
    · exact .throw _
    · exact .pure _
  split
  · exact .throw _
  · exact readOnly_walkComponents flags user _ _ _

theorem readOnly_mofsPathToInodeNum (user : User) (path : Path) : ReadOnly (mofsPathToInodeNum sb user path) :=
  (readOnly_mofsResolvePath user path resolveInode).bind fun _ => .pure _

theorem readOnly_mofsStatCore (user : User) (path : Path) : ReadOnly (mofsStatCore sb user path) := by
  refine (readOnly_requireUser user).bind fun _ => (readOnly_mofsPathToInodeNum user path).bind fun i => ?_
  exact (readOnly_mofsReadInode i).bind fun x => (ReadOnly.ofExcept _).bind fun _ => .pure _

theorem readOnly_mofsOpendirCore (user : User) (pool : Nat → DirHandle) (path : Path) :
    ReadOnly (mofsOpendirCore sb user pool path) := by
  refine (readOnly_requireUser user).bind fun _ => (readOnly_mofsPathToInodeNum user path).bind fun i => ?_
  refine (readOnly_mofsReadInode i).bind fun x => ?_
  split
  · exact .throw _
  refine (ReadOnly.ofExcept _).bind fun _ => ?_
  split
  · exact .throw _
  · exact .pure _

theorem readOnly_readdirFrom (i n blkIdx startIdx : Nat) (buf : Block) : ReadOnly (readdirFrom sb i n blkIdx startIdx buf) := by
  induction n generalizing blkIdx startIdx buf with
  | zero => exact .pure _
  | succ n ih =>
    rw [readdirFrom]
    refine (readOnly_readDirBlock i blkIdx buf).bind ?_
    rintro ⟨r, buf'⟩
    dsimp only
    split
    · exact .pure _
    · exact ih _ _ _

theorem readOnly_mofsReaddirCore (user : User) (h : DirHandle) : ReadOnly (mofsReaddirCore sb user h) := by
  rw [mofsReaddirCore, mofsReaddirCoreWith]
  split
  · exact .throw _
  refine (readOnly_requireUser user).bind fun _ => (readOnly_mofsReadInode _).bind fun x => ?_
  split
  · exact .throw _
  refine (ReadOnly.ofExcept _).bind fun _ => (readOnly_readdirFrom _ _ _ _ _).bind fun r => ?_
  split
  · exact .pure _
  · exact .pure _

theorem readOnly_mofsLseek (P : Pools) (k : Nat) (offset : Int) (whence : Whence) : ReadOnly (mofsLseek sb P k offset whence) := by
  unfold mofsLseek
  dsimp only
  split
  · exact .throw _
  refine ReadOnly.bind ?_ fun base => ?_
  · cases whence with
    | set => exact .pure _
    | cur => exact .pure _
    | «end» => exact (readOnly_mofsReadInode _).bind fun x => .pure _
    | other => exact .throw _
  · split
    · exact .throw _
    · exact .pure _

end Quiet

namespace Mount

variable {m : Mount} {p : M α} {f : α → M β} {P : Except Errno α → View → Prop} {Q : Except Errno β → View → Prop}

theorem Runs.mono {P' : Except Errno α → View → Prop} (h : m.Runs p V P) (hP : ∀ r W, P r W → P' r W) : m.Runs p V P' :=
  fun d hd r d' hr => hP r _ (h d hd r d' hr)

theorem Runs.pure {a : α} (h : P (.ok a) V) : m.Runs (pure a) V P := (Ensures.pure h).runs

theorem Runs.throw {e : Errno} (h : P (.error e) V) : m.Runs (throw e) V P := (Ensures.throw h).runs

theorem Runs.bind (hp : m.Runs p V P) (hf : ∀ a W, P (.ok a) W → m.Runs (f a) W Q) (he : ∀ e W, P (.error e) W → Q (.error e) W) :
    m.Runs (p >>= f) V Q := fun d hd r d' h => by
  cases r with
  | ok b =>
    obtain ⟨a, u, hu, hb⟩ := run_bind_eq_ok h
    exact hf a _ (hp d hd _ _ hu) u rfl _ _ hb
  | error e =>
    rcases run_bind_eq_error h with hu | ⟨a, u, hu, hb⟩
    · exact he e _ (hp d hd _ _ hu)
    · exact hf a _ (hp d hd _ _ hu) u rfl _ _ hb

theorem Runs.attempt {R : Except Errno (Except Errno α) → View → Prop} (h : m.Runs p V P) (hR : ∀ r W, P r W → R (.ok r) W) :
    m.Runs (attempt p) V R := fun d hd r d' hr => by
  rw [exec, run_attempt, Option.map_eq_some_iff] at hr
  obtain ⟨x, hx, he⟩ := hr
  cases he
  exact hR _ _ (h d hd _ _ hx)

/-- A part of a call that only reads leaves the volume to the rest of it. -/
theorem runs_readOnly (hp : ReadOnly p) : m.Runs p V (fun _ W => W = V) := fun d hd r d' hr => by
  rw [hp.exec_eq hr, hd]

theorem Runs.after_readOnly (hp : ReadOnly p) (he : ∀ e, Q (.error e) V) (hf : ∀ a, m.Runs (f a) V Q) :
    m.Runs (p >>= f) V Q := by
  refine (runs_readOnly hp).bind ?_ ?_
  · rintro a W rfl
    exact hf a
  · rintro e W rfl
    exact he e

end Mount

section Data

/-- No access is granted to a record without mode bits. -/
theorem checkOpenPermission_zero (flags : Nat) (user : User) : ∃ e, mofsCheckOpenPermission flags user Inode.zero = .error e := by
  have hmode : ∀ a < 16, a ≠ 0 → openPermFlags a ≠ .ok none := by decide
  have hbits : openPermFlags flags = openPermFlags (flags &&& oflagAccmode) := by
    simp only [openPermFlags, oflagAccmode, oflagExec, oflagSearch, oflagRdonly, oflagWronly, Nat.and_assoc]
    rfl
  rw [mofsCheckOpenPermission]
  split
  · exact ⟨_, rfl⟩
  next hacc =>
  rw [hbits]
  cases hp : openPermFlags (flags &&& oflagAccmode) with
  | error e => exact ⟨e, rfl⟩
  | ok mode =>
    cases mode with
    | none =>
      refine absurd hp (hmode _ ?_ hacc)
      exact lt_of_le_of_lt Nat.and_le_right (by decide)
    | some mode =>
      have hzero (n : Nat) : Inode.zero.iMode.toNat &&& n = 0 := Nat.zero_and n
      change ∃ e, (if mode = oflagRdonly then _ else _) = _
      simp only [hzero, ne_eq, not_true_eq_false, if_false, and_self]
      split
      · exact ⟨_, rfl⟩
      split
      · exact ⟨_, rfl⟩
      split
      · exact ⟨_, rfl⟩
      split
      · exact ⟨_, rfl⟩
      · exact ⟨_, rfl⟩

/-- A call that has worked on the data of the file `i` and on nothing else. -/
structure OnFile (sb : Superblock) (V W : View) (G : Owners) (T : Nat → List Slot) (up : Nat → Nat) (i : Nat) : Prop where
  used : V.ibit i = true
  file : (V.inode i).isDir = false
  attrs : SameAttrs (V.inode i) (W.inode i)
  ibit : W.ibit = V.ibit
  vol : ∃ H, Frame sb [i] V W G H ∧ Vol sb W H T up

/-- What a call on the data of inode `i` may do: fail without an effect, or work on this file. -/
def DataPost (sb : Superblock) (V W : View) (G : Owners) (T : Nat → List Slot) (up : Nat → Nat) (i : Nat)
    (r : Except Errno α) : Prop := ((∃ e, r = .error e) ∧ W = V) ∨ OnFile sb V W G T up i

theorem DataPost.onFile {a : α} (h : DataPost sb V W G T up i (.ok a : Except Errno α)) : OnFile sb V W G T up i := by
  rcases h with ⟨⟨e, he⟩, -⟩ | hF
  · cases he
  · exact hF

theorem DataPost.of_error {r : Except Errno α} {e : Errno} (h : DataPost sb V W G T up i r) :
    DataPost sb V W G T up i (.error e : Except Errno β) :=
  h.imp_left fun hfail => ⟨⟨e, rfl⟩, hfail.2⟩

theorem OnFile.refl (h : Vol sb V G T up) (hi : V.ibit i = true) (hd : (V.inode i).isDir = false) : OnFile sb V V G T up i :=
  ⟨hi, hd, .refl _, rfl, G, Frame.refl h.wf _, h⟩

theorem OnFile.stamp (h : Vol sb V G T up) (hok : sb.Ok) (hi : V.ibit i = true) (hd : (V.inode i).isDir = false) (mask : Nat)
    (t : UInt64) : OnFile sb V (V.setInode i ((V.inode i).stamp mask t)) G T up i := by
  have hx : (V.setInode i ((V.inode i).stamp mask t)).inode i = (V.inode i).stamp mask t := Function.update_self _ _ _
  have hF : Frame sb [i] V (V.setInode i ((V.inode i).stamp mask t)) G G := Frame.setInode h.wf rfl rfl
  have hattrs : SameAttrs (V.inode i) ((V.setInode i ((V.inode i).stamp mask t)).inode i) := by
    rw [hx]
    exact ⟨rfl, rfl, rfl, rfl⟩
  refine ⟨hi, hd, hattrs, rfl, G, hF, h.of_file hok hF rfl hi hd hattrs ?_ (h.node i).slim⟩
  rw [hx]
  exact (h.node i).sized hi hd

theorem WrittenAt.onFile {off : Nat} {data : List UInt8} (hW : WrittenAt sb V W G H i off data) (h : Vol sb V G T up)
    (hok : sb.Ok) (hi : V.ibit i = true) (hd : (V.inode i).isDir = false) (hdata : 0 < data.length) :
    OnFile sb V W G T up i := by
  have hB := hok.blk_pos
  refine ⟨hi, hd, hW.attrs, hW.ibit, H, hW.frame, h.of_file hok hW.frame hW.ibit hi hd hW.attrs ?_ fun hnil => ?_⟩
  · rw [hW.frame.wf.nr i (by rw [hW.ibit]; exact hi), hW.length hB (h.filesOk.length hi hd)]
  · have henough := hW.enough
    rw [hnil, List.length_nil, blocksFor_le_iff hB] at henough
    omega

theorem Resized.onFile {len : Nat} (hR : Resized sb V W G H i len) (h : Vol sb V G T up) (hok : sb.Ok) (hi : V.ibit i = true)
    (hd : (V.inode i).isDir = false) : OnFile sb V W G T up i := by
  refine ⟨hi, hd, hR.attrs, hR.ibit, H, hR.frame,
    h.of_file hok hR.frame hR.ibit hi hd hR.attrs ?_ (hR.slim (h.node i).slim)⟩
  rw [hR.frame.wf.nr i (by rw [hR.ibit]; exact hi), hR.blocks, hR.size]

namespace Mount

/-- The record of an inode that is not in use cannot be read, or is empty. -/
theorem reads_unused (m : Mount) (h : Vol m.sb V G T up) (hi : V.ibit i = false) :
    m.Reads (mofsReadInode m.sb i) V (.error .einval) ∨ m.Reads (mofsReadInode m.sb i) V (.ok Inode.zero) := by
  by_cases hlt : i < m.sb.inodeNum
  · right
    have hread := m.reads_mofsReadInode V hlt
    rwa [(h.node i).zero hi] at hread
  · left
    rw [mofsReadInode, if_pos (.inr (Nat.not_lt.mp hlt))]
    exact Reads.throw _

/-- The checks in front of a call on the data of an inode that is not in use. -/
theorem ensures_refused (m : Mount) {k : M α} (flags : Nat) (user : User) :
    m.Ensures (do
      requireUser user
      ofExcept (mofsCheckOpenPermission flags user Inode.zero)
      k) V (fun r W => (∃ e, r = .error e) ∧ W = V) := by
  obtain ⟨e, he⟩ := checkOpenPermission_zero flags user
  refine (m.reads_requireUser V user).peeks.ensures_bind (fun e' => ⟨⟨e', rfl⟩, rfl⟩) fun _ => ?_
  rw [he]
  exact (Reads.bind_error (Reads.ofExcept _)).ensures ⟨⟨e, rfl⟩, rfl⟩

theorem ensures_unused (m : Mount) {f : Inode → M α} (h : Vol m.sb V G T up) (hi : V.ibit i = false)
    (hf : m.Ensures (f Inode.zero) V (fun r W => (∃ e, r = .error e) ∧ W = V)) :
    m.Ensures (mofsReadInode m.sb i >>= f) V (fun r W => (∃ e, r = .error e) ∧ W = V) := by
  rcases m.reads_unused h hi with hread | hread
  · exact (Reads.bind_error hread).ensures ⟨⟨_, rfl⟩, rfl⟩
  · exact Ensures.bind_reads hread hf

theorem runs_mofsWriteCore (m : Mount) (h : Vol m.sb V G T up) (user : User) (hd : FileHandle) (data : List UInt8)
    (offset : Int) (upd : Bool) : m.Runs (mofsWriteCore m.sb user hd data offset upd) V (fun r W =>
      DataPost m.sb V W G T up hd.inodeNum r) := by
  cases hi : V.ibit hd.inodeNum with
  | false =>
    rw [mofsWriteCore]
    split
    · exact Runs.throw (.inl ⟨⟨_, rfl⟩, rfl⟩)
    split
    · exact Runs.throw (.inl ⟨⟨_, rfl⟩, rfl⟩)
    exact (m.ensures_unused h hi (m.ensures_refused _ _)).runs.mono fun _ _ => .inl
  | true =>
    refine (m.ensures_mofsWriteCore h.wf hi (h.filesOk.length hi)).runs.mono fun r W hr => ?_
    cases hc : writeChecks m.sb user hd data.length offset (V.inode hd.inodeNum) with
    | error e =>
      rw [hc] at hr
      exact .inl ⟨⟨e, hr.1⟩, hr.2⟩
    | ok u =>
      rw [hc] at hr
      dsimp only at hr
      split at hr
      · exact .inl ⟨⟨_, hr.1⟩, hr.2⟩
      obtain ⟨-, H, hW⟩ := hr
      obtain ⟨hacc, hlt⟩ := writeChecks_ok hc
      refine .inr (hW.onFile h m.ok hi (isDir_of_accessCheck hacc) ?_)
      have hpos : data.length ≠ 0 := by
        intro h0
        rw [writeChecks, if_pos (.inr (.inl h0))] at hc
        cases hc
      rw [List.length_take]
      omega

theorem runs_mofsTruncateCore (m : Mount) (h : Vol m.sb V G T up) (user : User) (i : Nat) (length : Int) :
    m.Runs (mofsTruncateCore m.sb user i length) V (fun r W => DataPost m.sb V W G T up i r) := by
  cases hi : V.ibit i with
  | false =>
    rw [mofsTruncateCore]
    split
    · exact Runs.throw (.inl ⟨⟨_, rfl⟩, rfl⟩)
    split
    · exact Runs.throw (.inl ⟨⟨_, rfl⟩, rfl⟩)
    split
    · exact Runs.throw (.inl ⟨⟨_, rfl⟩, rfl⟩)
    rw [truncateInode]
    exact (m.ensures_unused h hi (m.ensures_refused _ _)).runs.mono fun _ _ => .inl
  | true =>
    refine (m.ensures_mofsTruncateCore h.wf hi (h.filesOk.length hi) user length).runs.mono fun r W hr => ?_
    obtain ⟨-, -, hd, -, H, hR⟩ | ⟨e, he, hfail⟩ := hr
    · exact .inr (hR.onFile h m.ok hi hd)
    · rcases hfail with hW | ⟨-, hd, -, hF, hib, hin⟩
      · exact .inl ⟨⟨e, he⟩, hW⟩
      · have hattrs : SameAttrs (V.inode i) (W.inode i) := by
          rw [hin]
          exact .refl _
        refine .inr ⟨hi, hd, hattrs, hib, G, hF, h.of_file m.ok hF hib hi hd hattrs ?_ (h.node i).slim⟩
        rw [hin]
        exact (h.node i).sized hi hd

theorem runs_mofsReadCore (m : Mount) (h : Vol m.sb V G T up) (user : User) (hd : FileHandle) (size : Nat)
    (offset : Int) (upd : Bool) : m.Runs (mofsReadCore m.sb user hd size offset upd) V (fun r W =>
      DataPost m.sb V W G T up hd.inodeNum r) := by
  have hfail {β : Type} (e : Errno) : DataPost m.sb V V G T up hd.inodeNum (.error e : Except Errno β) :=
    .inl ⟨⟨e, rfl⟩, rfl⟩
  rw [mofsReadCore]
  split
  · exact Runs.throw (hfail _)
  split
  · exact Runs.throw (hfail _)
  cases hi : V.ibit hd.inodeNum with
  | false => exact (m.ensures_unused h hi (m.ensures_refused _ _)).runs.mono fun _ _ => .inl
  | true =>
    have hlt := h.wf.range _ hi
    refine (m.reads_mofsReadInode V hlt).runs (P := fun r W => r = .ok (V.inode hd.inodeNum) ∧ W = V)
      ⟨rfl, rfl⟩ |>.bind ?_ ?_
    · rintro x W ⟨hx, rfl⟩
      cases hx
      refine Runs.after_readOnly (readOnly_requireUser user) hfail fun _ => ?_
      refine Runs.after_readOnly (.ofExcept _) hfail fun _ => ?_
      split
      · exact Runs.throw (hfail _)
      next hdir =>
      have hdir : (W.inode hd.inodeNum).isDir = false := by simpa using hdir
      refine Runs.after_readOnly (readOnly_readFileDataBlock _ _ _) hfail fun r => ?_
      dsimp only
      have hnum (o : Nat) : (if upd = true then { hd with fileOffset := o } else hd).inodeNum = hd.inodeNum := by
        split <;> rfl
      rw [hnum]
      split
      · have hstamp : m.Runs (mofsInodeStampPersist m.sb hd.inodeNum timeAtime) W (fun _ U =>
            OnFile m.sb W U G T up hd.inodeNum) :=
          (m.ensures_mofsInodeStampPersist hlt (by decide) fun t => OnFile.stamp h m.ok hi hdir timeAtime t).runs
        refine (hstamp.attempt (R := fun _ U => OnFile m.sb W U G T up hd.inodeNum) fun _ _ hU => hU).bind
          (fun r U hU => ?_) fun _ _ => .inr
        cases r with
        | error e => exact Runs.pure (.inr hU)
        | ok u => exact Runs.pure (.inr hU)
      · exact Runs.pure (.inr (.refl h hi hdir))
    · rintro e W ⟨he, -⟩
      cases he

end Mount

end Data

end Mofs
