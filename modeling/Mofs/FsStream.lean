import Mofs.FsAccess

namespace Mofs

open Effect Bytes Slots Mofs.Tree Simulation

variable {sb : Superblock} {env : Env} {t d d' : Disk} {user : User} {P P' : Pools} {op : PosixOp} {fs fs' : Fs}
  {res : Except Errno Ret} {i maxBytes : Nat} {k : Fin 64} {bytes : List UInt8}

section Handles

/-- The file handle that a call is made on. -/
def PosixOp.onHandle : PosixOp → Handle
  | .close h => h
  | .read h _ => h
  | .write h _ => h
  | .pread h _ _ => h
  | .pwrite h _ _ => h
  | .lseek h _ _ => h
  | .ftruncate h _ => h
  | .fsync h => h
  | _ => none

theorem outcome_cases {α β : Type} {f : α → β × Pools} {r : Except Errno α} {res : Except Errno β} (h : (res, P') = outcome P f r) :
    (∃ e, r = .error e ∧ res = .error e ∧ P' = P) ∨ ∃ a, r = .ok a ∧ res = .ok (f a).1 ∧ P' = (f a).2 := by
  cases r with
  | error e =>
    cases h
    exact .inl ⟨e, rfl, rfl, rfl⟩
  | ok a =>
    cases h
    exact .inr ⟨a, rfl, rfl, rfl⟩

theorem outcome_files {α : Type} {f : α → Ret × Pools} {r : Except Errno α} (h : (res, P') = outcome P f r) {j : Nat}
    (hf : ∀ a, r = .ok a → (f a).2.files j = P.files j) : P'.files j = P.files j := by
  obtain ⟨e, -, -, rfl⟩ | ⟨a, ha, -, rfl⟩ := outcome_cases h
  · rfl
  · exact hf a ha

theorem setFile_files_of_ne {j : Nat} {h : FileHandle} (hj : j ≠ k) : (P.setFile k h).files j = P.files j :=
  Function.update_of_ne hj _ _

@[simp] theorem setFile_files_self {h : FileHandle} : (P.setFile k h).files k = h := Function.update_self _ _ _

theorem takeHandle_ok {a : Option Nat} {x : Nat × Nat} (h : takeHandle a i = .ok x) : a = some x.1 ∧ x.2 = i := by
  cases a with
  | none => cases h
  | some j =>
    cases h
    exact ⟨rfl, rfl⟩

/-- A handle in use is changed by calls on it only. -/
theorem Fs.Step.handle_kept (h : fs.Step maxBytes P user op res fs' P') (hused : (P.files k).used = true)
    (hk : op.onHandle ≠ some k) : P'.files k = P.files k := by
  have hsame {x : Except Errno Ret} (ho : (res, P') = (x, P)) : P'.files k = P.files k := by
    cases ho
    rfl
  -- a call on another handle
  have hother {j : Fin 64} (hj : some j ≠ some k) (x : FileHandle) : (P.setFile j x).files k = P.files k :=
    setFile_files_of_ne fun hkj => hj (by rw [Fin.ext hkj])
  match op, h, hk with
  | .closedir none, h, _ | .readdir none, h, _ | .close none, h, _ | .read none _, h, _ | .pread none _ _, h, _
  | .write none _, h, _ | .pwrite none _ _, h, _ | .lseek none _ _, h, _ | .ftruncate none _, h, _ | .fsync none, h, _
  | .fsync (some _), h, _ =>
    exact hsame h.2
  | .stat _, h, _ | .readdir (some _), h, _ =>
    obtain ⟨-, r, -, ho⟩ := h
    exact outcome_files ho fun _ _ => rfl
  | .opendir _, h, _ => exact outcome_files h.2 fun _ _ => rfl
  | .closedir (some _), h, _ =>
    obtain ⟨-, ho⟩ := h
    split at ho
    · exact hsame ho
    · cases ho
      rfl
  | .open path flags mode, h, _ =>
    obtain ⟨r, -, ho⟩ := h
    refine outcome_files ho fun x hx => Function.update_of_ne ?_ _ _
    cases r with
    | error e => cases hx
    | ok c =>
      -- the new handle was not in use
      intro hkx
      have hfree := (takeHandle_ok hx).1
      have hnot := List.find?_some hfree
      rw [← hkx, hused] at hnot
      cases hnot
  | .close (some _), h, hk =>
    obtain ⟨-, ho⟩ := h
    split at ho
    · exact hsame ho
    · cases ho
      exact hother hk _
  | .read (some _) _, h, hk | .pread (some _) _ _, h, hk | .lseek (some _) _ _, h, hk =>
    obtain ⟨-, r, -, ho⟩ := h
    exact outcome_files ho fun _ _ => hother hk _
  | .write (some _) _, h, hk | .pwrite (some _) _ _, h, hk =>
    obtain ⟨r, -, ho⟩ := h
    exact outcome_files ho fun _ _ => hother hk _
  | .ftruncate (some _) _, h, _ | .truncate _ _, h, _ | .unlink _, h, _ | .mkdir _ _, h, _ | .rmdir _, h, _ | .rename _ _, h, _ =>
    obtain ⟨r, -, ho⟩ := h
    exact outcome_files ho fun _ _ => rfl

/-- A read or a write that has not failed is made on the handle of a file. -/
theorem Carries.file_of_transfer {r : Ret} (hfs : Carries sb (d, P) (fs, P)) (h : fs.Step maxBytes P user op (.ok r) fs' P')
    (hop : (∃ data, op = .write (some k) data) ∨ ∃ size, op = .read (some k) size) :
    (P.files k).used = true ∧ ∃ a bytes, fs (P.files k).inodeNum = some ⟨a, .file bytes⟩ := by
  suffices hcheck : (P.files k).used = true ∧ ∃ flags, accessCheck flags user (fs.record (P.files k).inodeNum) = .ok () by
    obtain ⟨hused, flags, haccess⟩ := hcheck
    refine ⟨hused, ?_⟩
    obtain ⟨⟨G, T, up, hU, rfl⟩, -⟩ := hfs
    rw [(hU.vol.record _).accessCheck] at haccess
    cases hi : (sb.view d).ibit (P.files k).inodeNum with
    | false => exact absurd haccess (hU.vol.no_access hi)
    | true => exact ⟨_, _, fsOf_of_file hi (isDir_of_accessCheck haccess)⟩
  obtain ⟨data, rfl⟩ | ⟨size, rfl⟩ := hop
  · obtain ⟨r', hr, ho⟩ := h
    obtain ⟨e, -, he, -⟩ | ⟨x, rfl, -, -⟩ := outcome_cases ho
    · cases he
    split at hr
    · cases hr.1
    rw [Fs.Writes] at hr
    cases hc : fs.writeCheck user maxBytes (P.files k) data.length (P.files k).fileOffset with
    | error e =>
      rw [hc] at hr
      obtain ⟨⟨e', he, -⟩, -⟩ := hr
      cases he
    | ok u =>
      obtain ⟨⟨hused, -⟩, -, haccess⟩ := Fs.writeCheck_ok hc
      exact ⟨hused, _, haccess⟩
  · obtain ⟨-, r', hr, ho⟩ := h
    obtain ⟨e, -, he, -⟩ | ⟨x, rfl, -, -⟩ := outcome_cases ho
    · cases he
    split at hr
    · cases hr
    rw [Fs.Delivers] at hr
    split at hr
    · obtain ⟨e, he, -⟩ := hr
      cases he
    · rename_i hc
      have haccess := readChecks_ok hc
      rw [readChecks] at hc
      split at hc
      · cases hc
      rename_i hpos
      exact ⟨by simpa using fun hused => hpos (.inl hused), _, haccess⟩

end Handles

/-- A call while the file `i` is used through handle `k` only: it is one of `mine`, or it is made on something else by
somebody who may not change the file. -/
def Alone (sb : Superblock) (env : Env) (k : Fin 64) (i : Nat) (mine : PosixOp → Prop) (x : Disk × Pools) (e : Event)
    (y : Disk × Pools) : Prop :=
  VolCall sb env x e y ∧ (mine e.op ∨ e.op.onHandle ≠ some k ∧ ∀ z, Carries sb x z → ¬ z.1.MayChange e.user i)

/-- An invariant of what has been done through a handle, of the file behind it and of the handle. -/
theorem Carries.alone {mine : PosixOp → Prop} {I : List Event → Option Obj → FileHandle → Prop} {tr : List Event}
    {x x' : Disk × Pools} {y : Fs × Pools} (hxy : Carries sb x y) (hok : sb.Ok) (hserves : env.Serves sb)
    (hrun : Runs (Alone sb env k i mine) x tr x') (hstart : I [] (y.1 i) (y.2.files k))
    (hlive : ∀ tr o h, I tr o h → h.used = true ∧ o ≠ none)
    (hmine : ∀ tr e (y y' : Fs × Pools), I tr (y.1 i) (y.2.files k) → mine e.op → FsCall (mofsMaxFileBytes sb) y e y' →
      I (tr ++ [e]) (y'.1 i) (y'.2.files k))
    (hother : ∀ tr e o h, I tr o h → e.op.onHandle ≠ some k → I (tr ++ [e]) o h) :
    ∃ y', Carries sb x' y' ∧ I tr (y'.1 i) (y'.2.files k) := by
  induction hrun with
  | start => exact ⟨y, hxy, hstart⟩
  | next _ hcall ih =>
    obtain ⟨y₁, hy₁, hI⟩ := ih
    obtain ⟨hvol, hwho⟩ := hcall
    obtain ⟨y₂, hstep, hy₂⟩ := VolCall.simulated hok hserves _ _ _ _ hy₁ hvol
    refine ⟨y₂, hy₂, ?_⟩
    rcases hwho with hmy | ⟨hhandle, hnot⟩
    · exact hmine _ _ _ _ hI hmy hstep
    · -- neither the handle nor the file changes
      obtain ⟨hused, hsome⟩ := hlive _ _ _ hI
      rw [Fs.Step.handle_kept hstep hused hhandle, (Fs.Step.changes hy₁.dotsAreDirs hstep hsome).resolve_right (hnot _ hy₁)]
      exact hother _ _ _ _ hI hhandle

section Writes

theorem flatMap_snoc (f : Event → List UInt8) (tr : List Event) (e : Event) : (tr ++ [e]).flatMap f = tr.flatMap f ++ f e := by
  rw [List.flatMap_append, List.flatMap_singleton]

theorem bytes_of_file {a : Access} (h : fs i = some ⟨a, .file bytes⟩) : fs.bytes i = bytes := by rw [Fs.bytes, h]

/-- What a call has written through handle `k`. -/
def Event.bytesWritten (k : Fin 64) (e : Event) : List UInt8 :=
  match e.op, e.res with
  | .write (some j) data, .ok (.count n) => if j = k then data.take n else []
  | _, _ => []

theorem bytesWritten_of_ne {e : Event} (h : e.op.onHandle ≠ some k) : e.bytesWritten k = [] := by
  obtain ⟨user, op, res⟩ := e
  rw [Event.bytesWritten]
  dsimp only
  split
  · rename_i j data n
    exact if_neg fun hjk => h (congrArg some hjk)
  · rfl

/-- Two writes, the second where the first ends, are one. -/
theorem Overwrites.append {old mid new data data' : List UInt8} {off : Nat} (h : Overwrites old off data mid)
    (h' : Overwrites mid (off + data.length) data' new) : Overwrites old off (data ++ data') new where
  length := by
    rw [h'.length, h.length, List.length_append]
    omega
  kept j hj hout := by
    rw [List.length_append] at hout
    have hmid := h.length
    rw [h'.kept j (by omega) (by omega), h.kept j hj (by omega)]
  stored j hj := by
    rw [List.length_append] at hj
    by_cases hlt : j < data.length
    · have hmid := h.length
      rw [h'.kept (off + j) (by omega) (.inl (by omega)), h.stored j hlt, List.getElem?_append_left hlt]
    · rw [List.getElem?_append_right (by omega), ← h'.stored (j - data.length) (by omega)]
      congr 1
      omega

/-- A write through a handle stores a beginning of its data where the handle is, and moves the handle behind it. Or it
fails and does nothing. -/
theorem Fs.Step.write_next {data : List UInt8} (h : fs.Step maxBytes P user (.write (some k) data) res fs' P') :
    fs' = fs ∧ P' = P ∧ (∃ e, res = .error e) ∨
      ∃ n new, n ≠ 0 ∧ n ≤ data.length ∧ res = .ok (.count n) ∧
        Overwrites (fs.bytes (P.files k).inodeNum) (P.files k).fileOffset (data.take n) new ∧
        fs' = fs.setBytes (P.files k).inodeNum new ∧
        P' = P.setFile k { P.files k with fileOffset := (P.files k).fileOffset + n } := by
  obtain ⟨r, hr, ho⟩ := h
  have hfail {e : Errno} (hre : r = .error e) (hfs : fs' = fs) : fs' = fs ∧ P' = P ∧ ∃ e, res = .error e := by
    rw [hre] at ho
    cases ho
    exact ⟨hfs, rfl, e, rfl⟩
  split at hr
  · exact .inl (hfail hr.1 hr.2)
  rw [Writes] at hr
  cases hc : fs.writeCheck user maxBytes (P.files k) data.length (P.files k).fileOffset with
  | error e =>
    rw [hc] at hr
    obtain ⟨⟨e', hre, -⟩, hfs⟩ := hr
    exact .inl (hfail hre hfs)
  | ok u =>
    rw [hc] at hr
    obtain ⟨hre, hfs⟩ | ⟨hre, new, hover, hfs⟩ := hr
    · exact .inl (hfail hre hfs)
    rw [Int.toNat_natCast] at hre hover
    generalize hfit : data.take (maxBytes - (P.files k).fileOffset) = fit at hre hover
    have htake : data.take fit.length = fit := by
      rw [← hfit, List.length_take, ← List.take_take, List.take_length]
    rw [hre] at ho
    cases ho
    refine .inr ⟨fit.length, new, ?_, ?_, rfl, ?_, hfs, rfl⟩
    · -- the checks let no empty write through, and none behind the end of the largest file
      obtain ⟨⟨-, hpos, hmax⟩, -⟩ := writeCheck_ok hc
      rw [← hfit, List.length_take]
      rw [Int.toNat_natCast] at hmax
      omega
    · rw [← hfit]
      exact List.length_take_le' _ _
    · rw [htake]
      exact hover

theorem setBytes_of_file {a : Access} (h : fs i = some ⟨a, .file bytes⟩) (new : List UInt8) :
    fs.setBytes i new i = some ⟨a, .file new⟩ := by
  rw [Fs.setBytes, Fs.modify, Function.update_self, h]
  rfl

/-- The file that had the bytes `old` has got `data` at `off`, if that is anything. -/
def Stored (old : List UInt8) (off : Nat) (data new : List UInt8) : Prop :=
  if data = [] then new = old else Overwrites old off data new

theorem Stored.nil (old : List UInt8) (off : Nat) : Stored old off [] old := by rw [Stored, if_pos rfl]

theorem Stored.append {old mid new data data' : List UInt8} {off : Nat} (h : Stored old off data mid) (hne : data' ≠ [])
    (h' : Overwrites mid (off + data.length) data' new) : Stored old off (data ++ data') new := by
  rw [Stored, if_neg (List.append_ne_nil_of_right_ne_nil _ hne)]
  rw [Stored] at h
  split at h
  · rename_i hnil
    subst hnil h
    exact h'
  · exact h.append h'

/-- After the calls `tr`, the handle `h` has taken what the file now has from `off` to the handle's offset. -/
structure WrittenUpTo (k : Fin 64) (i : Nat) (a : Access) (old : List UInt8) (off : Nat) (tr : List Event) (o : Option Obj)
    (h : FileHandle) : Prop where
  file : ∃ new, o = some ⟨a, .file new⟩ ∧ Stored old off (tr.flatMap (Event.bytesWritten k)) new
  used : h.used = true
  inode : h.inodeNum = i
  pos : h.fileOffset = off + (tr.flatMap (Event.bytesWritten k)).length

namespace WrittenUpTo

variable {a : Access} {old data : List UInt8} {off : Nat} {tr : List Event} {e : Event} {o : Option Obj} {h : FileHandle}

theorem other (hW : WrittenUpTo k i a old off tr o h) (hwritten : e.bytesWritten k = []) :
    WrittenUpTo k i a old off (tr ++ [e]) o h where
  file := by
    rw [flatMap_snoc, hwritten, List.append_nil]
    exact hW.file
  used := hW.used
  inode := hW.inode
  pos := by
    rw [flatMap_snoc, hwritten, List.append_nil]
    exact hW.pos

theorem write (hW : WrittenUpTo k i a old off tr (fs i) (P.files k))
    (hstep : fs.Step maxBytes P user (.write (some k) data) res fs' P') :
    WrittenUpTo k i a old off (tr ++ [⟨user, .write (some k) data, res⟩]) (fs' i) (P'.files k) := by
  obtain ⟨rfl, rfl, e, rfl⟩ | ⟨n, new, hn, hle, rfl, hover, rfl, rfl⟩ := hstep.write_next
  · exact hW.other rfl
  obtain ⟨mid, hmid, hstored⟩ := hW.file
  have hwritten : Event.bytesWritten k ⟨user, .write (some k) data, .ok (.count n)⟩ = data.take n := if_pos rfl
  have hne : data.take n ≠ [] := by
    rw [← List.length_pos_iff, List.length_take]
    omega
  rw [hW.inode, bytes_of_file hmid, hW.pos] at hover
  refine ⟨⟨new, ?_, ?_⟩, ?_, ?_, ?_⟩
  · rw [hW.inode]
    exact setBytes_of_file hmid new
  · rw [flatMap_snoc, hwritten]
    exact hstored.append hne hover
  · rw [setFile_files_self]
    exact hW.used
  · rw [setFile_files_self]
    exact hW.inode
  · rw [setFile_files_self, flatMap_snoc, hwritten, List.length_append, List.length_take, Nat.min_eq_left hle, ← Nat.add_assoc,
      ← hW.pos]

end WrittenUpTo

theorem Carries.writtenUpTo {x x' : Disk × Pools} {y : Fs × Pools} {tr : List Event} {a : Access} (hxy : Carries sb x y)
    (hok : sb.Ok) (hserves : env.Serves sb) (hused : (y.2.files k).used = true)
    (hfile : y.1 (y.2.files k).inodeNum = some ⟨a, .file bytes⟩)
    (hwrites : Runs (Alone sb env k (y.2.files k).inodeNum fun op => ∃ data, op = .write (some k) data) x tr x') :
    ∃ y', Carries sb x' y' ∧ WrittenUpTo k (y.2.files k).inodeNum a bytes (y.2.files k).fileOffset tr
      (y'.1 (y.2.files k).inodeNum) (y'.2.files k) := by
  refine hxy.alone hok hserves hwrites ⟨⟨bytes, hfile, .nil _ _⟩, hused, rfl, rfl⟩ (fun tr o h hW => ?_) ?_ fun tr e o h hW hhandle => ?_
  · obtain ⟨new, rfl, -⟩ := hW.file
    exact ⟨hW.used, Option.some_ne_none _⟩
  · rintro tr ⟨user, op, res⟩ y y' hW ⟨data, rfl⟩ hcall
    exact hW.write hcall
  · exact hW.other (bytesWritten_of_ne hhandle)

/-- The writes through a handle store what they report, one behind the other from the handle's offset on, whatever else
is done on the volume by those who may not change the file. The rest of the file stays. -/
theorem writes_in_sequence {tr : List Event} {a : Access} (hok : sb.Ok) (hserves : env.Serves sb)
    (hfs : Carries sb (d, P) (fs, P)) (hused : (P.files k).used = true) (hfile : fs (P.files k).inodeNum = some ⟨a, .file bytes⟩)
    (hwrites : Runs (Alone sb env k (P.files k).inodeNum fun op => ∃ data, op = .write (some k) data) (d, P) tr (d', P')) :
    ∃ fs' new, Carries sb (d', P') (fs', P') ∧ fs' (P.files k).inodeNum = some ⟨a, .file new⟩ ∧
      Stored bytes (P.files k).fileOffset (tr.flatMap (Event.bytesWritten k)) new ∧
      (P'.files k).fileOffset = (P.files k).fileOffset + (tr.flatMap (Event.bytesWritten k)).length := by
  obtain ⟨⟨fs', P₂⟩, hcarries, hW⟩ := hfs.writtenUpTo hok hserves hused hfile hwrites
  obtain rfl : P' = P₂ := hcarries.2
  obtain ⟨new, hnew, hstored⟩ := hW.file
  exact ⟨fs', new, hcarries, hnew, hstored, hW.pos⟩

/-- The file of the session is written in two calls. -/
theorem writes_in_sequence_session : ∃ (sb : Superblock) (env : Env) (d d' : Disk) (P P' : Pools) (fs : Fs) (tr : List Event)
    (a : Access) (bytes : List UInt8), sb.Ok ∧ env.Serves sb ∧ Carries sb (d, P) (fs, P) ∧ (P.files 0).used = true ∧
    fs (P.files 0).inodeNum = some ⟨a, .file bytes⟩ ∧
    Runs (Alone sb env 0 (P.files 0).inodeNum fun op => ∃ data, op = .write (some 0) data) (d, P) tr (d', P') ∧
    tr.flatMap (Event.bytesWritten 0) = [72, 105, 33] ∧
    ∃ fs' new, Carries sb (d', P') (fs', P') ∧ fs' (P.files 0).inodeNum = some ⟨a, .file new⟩ ∧
      Stored bytes (P.files 0).fileOffset (tr.flatMap (Event.bytesWritten 0)) new ∧
      (P'.files 0).fileOffset = (P.files 0).fileOffset + (tr.flatMap (Event.bytesWritten 0)).length := by
  obtain ⟨m, x, -, -, -, -, hcalls, hcarries⟩ := exists_fileSession
  obtain ⟨fs, hfs⟩ := hcarries 1 (by decide)
  obtain ⟨y, hstep, -⟩ := VolCall.simulated m.ok m.serves _ _ _ _ hfs (hcalls 1 _ rfl)
  obtain ⟨hused, a, bytes, hfile⟩ := hfs.file_of_transfer (k := 0) hstep (.inl ⟨_, rfl⟩)
  have hrun : Runs (Alone m.sb m.env 0 ((x 1).2.files 0).inodeNum fun op => ∃ data, op = .write (some 0) data) (x 1) _ (x 3) :=
    .next (.next .start ⟨hcalls 1 _ rfl, .inl ⟨_, rfl⟩⟩) ⟨hcalls 2 _ rfl, .inl ⟨_, rfl⟩⟩
  exact ⟨m.sb, m.env, _, _, _, _, fs, _, a, bytes, m.ok, m.serves, hfs, hused, hfile, hrun, rfl,
    writes_in_sequence m.ok m.serves hfs hused hfile hrun⟩

end Writes

section Reads

/-- What a call has read through handle `k`. -/
def Event.bytesRead (k : Fin 64) (e : Event) : List UInt8 :=
  match e.op, e.res with
  | .read (some j) _, .ok (.bytes bs) => if j = k then bs else []
  | _, _ => []

/-- How much a call that has not failed has asked for through handle `k`. -/
def Event.bytesAsked (k : Fin 64) (e : Event) : Nat :=
  match e.op, e.res with
  | .read (some j) size, .ok (.bytes _) => if j = k then size else 0
  | _, _ => 0

theorem bytesRead_of_ne {e : Event} (h : e.op.onHandle ≠ some k) : e.bytesRead k = [] ∧ e.bytesAsked k = 0 := by
  obtain ⟨user, op, res⟩ := e
  rw [Event.bytesRead, Event.bytesAsked]
  dsimp only
  split
  · rename_i j size bs
    have hj : j ≠ k := fun hjk => h (congrArg some hjk)
    exact ⟨if_neg hj, if_neg hj⟩
  · exact ⟨rfl, rfl⟩

theorem map_sum_snoc (f : Event → Nat) (tr : List Event) (e : Event) : ((tr ++ [e]).map f).sum = (tr.map f).sum + f e := by
  rw [List.map_append, List.sum_append, List.map_singleton, List.sum_singleton]

/-- A read through a handle delivers what comes next in the file and moves the handle behind it, or does nothing. -/
theorem Fs.Step.read_next {size : Nat} (h : fs.Step maxBytes P user (.read (some k) size) res fs' P') :
    fs' = fs ∧ ((∃ e, res = .error e ∧ P' = P) ∨
      ∃ bs, bs = ((fs.bytes (P.files k).inodeNum).drop (P.files k).fileOffset).take size ∧ res = .ok (.bytes bs) ∧
        P' = P.setFile k { P.files k with fileOffset := (P.files k).fileOffset + bs.length }) := by
  obtain ⟨rfl, r, hr, ho⟩ := h
  refine ⟨rfl, ?_⟩
  obtain ⟨e, -, hres, hP⟩ | ⟨x, rfl, hres, hP⟩ := outcome_cases ho
  · exact .inl ⟨e, hres, hP⟩
  right
  split at hr
  · cases hr
  rw [Delivers] at hr
  split at hr
  · obtain ⟨e, he, -⟩ := hr
    cases he
  · obtain ⟨bs, h'⟩ := x
    obtain ⟨rfl, rfl⟩ := Prod.mk.inj (Except.ok.inj hr)
    exact ⟨_, rfl, hres, hP⟩

/-- After the calls `tr`, the handle `h` of the file has delivered what there is from `off` to its offset. -/
structure ReadUpTo (k : Fin 64) (i : Nat) (a : Access) (bytes : List UInt8) (off : Nat) (tr : List Event) (o : Option Obj)
    (h : FileHandle) : Prop where
  file : o = some ⟨a, .file bytes⟩
  used : h.used = true
  inode : h.inodeNum = i
  stream : tr.flatMap (Event.bytesRead k) = (bytes.drop off).take (tr.map (Event.bytesAsked k)).sum
  pos : h.fileOffset = off + (tr.flatMap (Event.bytesRead k)).length

namespace ReadUpTo

variable {a : Access} {off size : Nat} {tr : List Event} {e : Event} {o : Option Obj} {h : FileHandle}

theorem other (hR : ReadUpTo k i a bytes off tr o h) (hread : e.bytesRead k = []) (hasked : e.bytesAsked k = 0) :
    ReadUpTo k i a bytes off (tr ++ [e]) o h where
  file := hR.file
  used := hR.used
  inode := hR.inode
  stream := by
    rw [flatMap_snoc, map_sum_snoc, hread, hasked, List.append_nil, Nat.add_zero]
    exact hR.stream
  pos := by
    rw [flatMap_snoc, hread, List.append_nil]
    exact hR.pos

theorem read (hR : ReadUpTo k i a bytes off tr (fs i) (P.files k))
    (hstep : fs.Step maxBytes P user (.read (some k) size) res fs' P') :
    ReadUpTo k i a bytes off (tr ++ [⟨user, .read (some k) size, res⟩]) (fs' i) (P'.files k) := by
  obtain ⟨rfl, ⟨e, rfl, rfl⟩ | ⟨bs, hbs, rfl, rfl⟩⟩ := hstep.read_next
  · exact hR.other rfl rfl
  have hread : Event.bytesRead k ⟨user, .read (some k) size, .ok (.bytes bs)⟩ = bs := if_pos rfl
  have hasked : Event.bytesAsked k ⟨user, .read (some k) size, .ok (.bytes bs)⟩ = size := if_pos rfl
  rw [hR.inode, hR.pos, bytes_of_file hR.file, hR.stream, ← List.drop_drop] at hbs
  refine ⟨hR.file, ?_, ?_, ?_, ?_⟩
  · rw [setFile_files_self]
    exact hR.used
  · rw [setFile_files_self]
    exact hR.inode
  · rw [flatMap_snoc, map_sum_snoc, hread, hasked, hR.stream, hbs, List.take_add]
    congr 2
    -- a read that comes short has reached the end
    rw [List.length_take]
    rcases Nat.le_total (tr.map (Event.bytesAsked k)).sum (bytes.drop off).length with hle | hle
    · rw [Nat.min_eq_left hle]
    · rw [Nat.min_eq_right hle, List.drop_length, List.drop_eq_nil_of_le hle]
  · rw [setFile_files_self, flatMap_snoc, hread, List.length_append, ← Nat.add_assoc, ← hR.pos]

end ReadUpTo

/-- The reads through a handle deliver the file from the handle's offset on, each byte once and in order, whatever else
is done on the volume by those who may not change the file. -/
theorem reads_in_sequence {tr : List Event} {a : Access} (hok : sb.Ok) (hserves : env.Serves sb)
    (hfs : Carries sb (d, P) (fs, P)) (hused : (P.files k).used = true) (hfile : fs (P.files k).inodeNum = some ⟨a, .file bytes⟩)
    (hreads : Runs (Alone sb env k (P.files k).inodeNum fun op => ∃ size, op = .read (some k) size) (d, P) tr (d', P')) :
    tr.flatMap (Event.bytesRead k) = (bytes.drop (P.files k).fileOffset).take (tr.map (Event.bytesAsked k)).sum ∧
      (P'.files k).fileOffset = (P.files k).fileOffset + (tr.flatMap (Event.bytesRead k)).length := by
  obtain ⟨⟨fs', P₂⟩, ⟨-, hP⟩, hR⟩ := hfs.alone (I := ReadUpTo k (P.files k).inodeNum a bytes (P.files k).fileOffset) hok hserves
    hreads ⟨hfile, hused, rfl, rfl, rfl⟩ (fun tr o h hR => ⟨hR.used, fun hnone => by cases hnone.symm.trans hR.file⟩)
    (by
      rintro tr ⟨user, op, res⟩ y y' hR ⟨size, rfl⟩ hcall
      exact hR.read hcall)
    (fun tr e o h hR hhandle => hR.other (bytesRead_of_ne hhandle).1 (bytesRead_of_ne hhandle).2)
  obtain rfl : P' = P₂ := hP
  exact ⟨hR.stream, hR.pos⟩

/-- The file of the session is read in two calls. -/
theorem reads_in_sequence_session : ∃ (sb : Superblock) (env : Env) (d d' : Disk) (P P' : Pools) (fs : Fs) (tr : List Event)
    (a : Access) (bytes : List UInt8), sb.Ok ∧ env.Serves sb ∧ Carries sb (d, P) (fs, P) ∧ (P.files 0).used = true ∧
    fs (P.files 0).inodeNum = some ⟨a, .file bytes⟩ ∧
    Runs (Alone sb env 0 (P.files 0).inodeNum fun op => ∃ size, op = .read (some 0) size) (d, P) tr (d', P') ∧
    tr.flatMap (Event.bytesRead 0) = [72, 105, 33] ∧
    tr.flatMap (Event.bytesRead 0) = (bytes.drop (P.files 0).fileOffset).take (tr.map (Event.bytesAsked 0)).sum ∧
      (P'.files 0).fileOffset = (P.files 0).fileOffset + (tr.flatMap (Event.bytesRead 0)).length := by
  obtain ⟨m, x, -, -, -, -, hcalls, hcarries⟩ := exists_fileSession
  obtain ⟨fs, hfs⟩ := hcarries 4 (by decide)
  obtain ⟨y, hstep, -⟩ := VolCall.simulated m.ok m.serves _ _ _ _ hfs (hcalls 4 _ rfl)
  obtain ⟨hused, a, bytes, hfile⟩ := hfs.file_of_transfer (k := 0) hstep (.inr ⟨_, rfl⟩)
  have hrun : Runs (Alone m.sb m.env 0 ((x 4).2.files 0).inodeNum fun op => ∃ size, op = .read (some 0) size) (x 4) _ (x 6) :=
    .next (.next .start ⟨hcalls 4 _ rfl, .inl ⟨_, rfl⟩⟩) ⟨hcalls 5 _ rfl, .inl ⟨_, rfl⟩⟩
  exact ⟨m.sb, m.env, _, _, _, _, fs, _, a, bytes, m.ok, m.serves, hfs, hused, hfile, hrun, rfl,
    reads_in_sequence m.ok m.serves hfs hused hfile hrun⟩

end Reads

end Mofs
