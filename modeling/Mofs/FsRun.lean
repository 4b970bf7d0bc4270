import Mofs.FsCalls
import Mofs.Lib.Simulation
import Mofs.Unmount

namespace Mofs

open Effect Bytes Slots Mofs.Tree Simulation

variable {sb : Superblock} {env : Env} {m : Mount} {t d d' : Disk} {G : Owners} {T : Nat → List Slot} {up : Nat → Nat}
  {user : User} {P P' : Pools} {op : PosixOp}

/-- How many bytes a call asks for. -/
def PosixOp.wanted : PosixOp → Nat
  | .read _ size => size
  | .pread _ size _ => size
  | _ => 0

/-- No directory has to grow for the call, and it asks for less than `2^31` bytes. -/
def Modest (sb : Superblock) (env : Env) (d : Disk) (user : User) (op : PosixOp) : Prop :=
  Fits sb env d user op ∧ op.wanted < 2147483648

namespace Mount

theorem reads_bcacheFlush (m : Mount) (V : View) : m.Reads bcacheFlush V (.ok ()) := Reads.of_exec fun _ _ => rfl

/-- Every call of the POSIX layer is a call on the file system that the volume holds. -/
theorem refines_posixBody (h : Ungrown m.sb (m.sb.view d) G T up) (P : Pools) (hmodest : Modest m.sb m.env d user op) :
    m.Refines (m.sb.view d) G T up user P op := by
  obtain ⟨hfits, hsize⟩ := hmodest
  -- a new entry finds its slot
  have htake {path : Path} (hnew : op.newPath = some path) (hno : ∀ q, ¬ op.RenamesFrom m.sb m.env d user q)
      (info : PathInfo) (hres : resolve (m.sb.view d) up T resolveTarget user path = .ok info)
      (hmiss : info.leafFound = false) : TakesEntry m.sb (m.sb.view d) info.parentInodeNum :=
    (hfits path hnew _ _ (m.missingAt_of_resolve h.vol hres hmiss)).resolve_right (hno _)
  cases op with
  | stat path =>
    obtain ⟨r, hread, hstats⟩ := m.reads_mofsStatCore h.vol user path
    refine refines_of_reads (r := r) (f := fun s => (.stat s, P)) h ?_ fun res P' ho => ⟨rfl, r, hstats, ho⟩
    cases r with
    | error e => exact Reads.bind_error hread
    | ok s => exact Reads.bind hread (Reads.pure _)
  | opendir path =>
    have hread := m.reads_openDir h.vol user path P.dirs
    refine refines_of_reads (f := fun x : Nat × Nat => (.handle x.1, P.setDir x.1 ⟨true, x.2, 0, [], 0⟩)) h ?_
      fun res P' ho => ⟨rfl, ho⟩
    generalize _ >>= takeHandle _ = r at hread ⊢
    cases r with
    | error e => exact Reads.bind_error hread
    | ok x => exact Reads.bind hread (Reads.pure _)
  | closedir k =>
    cases k with
    | none => exact refines_of_throw h rfl ⟨rfl, rfl⟩
    | some k =>
      refine refines_of_done_if (B := (P.dirs k).used = false) h (fun hused => ?_) (fun hused => ?_)
        fun x ho => ⟨rfl, ho⟩
      · rw [posixBody, mofsClosedirCore, if_pos hused]
        exact Reads.bind_error (Reads.throw _)
      · rw [posixBody, mofsClosedirCore, if_neg hused]
        exact Reads.bind (Reads.pure _) (Reads.pure _)
  | readdir k =>
    cases k with
    | none => exact refines_of_throw h rfl ⟨rfl, rfl⟩
    | some k =>
      obtain ⟨r, hread, hlists⟩ := reads_lists h user (P.dirs k)
      refine refines_of_reads (r := r.map fun h' => (shown h', h')) (f := fun x => (.entry x.1, P.setDir k x.2)) h ?_
        fun res P' ho => ⟨rfl, _, hlists, ho⟩
      cases r with
      | error e => exact Reads.bind_error hread
      | ok h' => exact Reads.bind hread (Reads.pure _)
  | close k =>
    cases k with
    | none => exact refines_of_throw h rfl ⟨rfl, rfl⟩
    | some k =>
      refine refines_of_done_if (B := (P.files k).used = false) h (fun hused => ?_) (fun hused => ?_)
        fun x ho => ⟨rfl, ho⟩
      · rw [posixBody, mofsCloseCore, if_pos hused]
        exact Reads.bind_error (Reads.throw _)
      · rw [posixBody, mofsCloseCore, if_neg hused]
        exact Reads.bind (Reads.pure _) (Reads.pure _)
  | lseek k offset whence =>
    cases k with
    | none => exact refines_of_throw h rfl ⟨rfl, rfl⟩
    | some k =>
      obtain ⟨r, hread, hseeks⟩ := reads_mofsLseek h.vol P k offset whence
      exact refines_of_reads (r := r)
        (f := fun n => (.count n, P.setFile k { P.files k with fileOffset := n })) h hread
        fun res P' ho => ⟨rfl, r, hseeks, ho⟩
  | fsync k =>
    cases k with
    | none => exact refines_of_throw h rfl ⟨rfl, rfl⟩
    | some k =>
      by_cases hused : (P.files k).used = false
      · refine refines_of_throw (e := .ebadf) h (by rw [posixBody, if_pos hused]) ⟨rfl, by rw [if_pos hused]⟩
      · refine refines_of_reads (r := (.ok () : Except Errno Unit)) (f := fun _ => (.done, P)) h ?_
          fun res P' ho => ⟨rfl, by rw [ho, if_neg hused]; rfl⟩
        rw [posixBody, if_neg hused]
        exact Reads.bind (m.reads_bcacheFlush _) (Reads.pure _)
  | read k size | pread k size offset =>
    cases k with
    | none => exact refines_of_throw h rfl ⟨rfl, rfl⟩
    | some k => exact refines_pread h hsize rfl fun res P' hstep => ⟨rfl, hstep⟩
  | write k data | pwrite k data offset =>
    cases k with
    | none => exact refines_of_throw h rfl ⟨rfl, rfl⟩
    | some k => exact refines_pwrite h rfl fun res fs' P' hstep => hstep
  | ftruncate k length =>
    cases k with
    | none => exact refines_of_throw h rfl ⟨rfl, rfl⟩
    | some k =>
      by_cases hbad : (P.files k).used = false ∨ (P.files k).openFlags &&& oflagWronly = 0
      · refine refines_of_throw (e := .ebadf) h ?_ ⟨.error .ebadf, by rw [if_pos hbad]; exact ⟨rfl, rfl⟩, rfl⟩
        rw [posixBody]
        unfold mofsFtruncate
        dsimp only
        rcases hbad with hused | hro
        · rw [if_pos hused]
        · rw [if_pos hro, ite_self]
      · refine refines_of_done ?_ (ensures_truncates h user (P.files k).inodeNum length)
          fun r fs' res P' hT ho => ⟨r, by rw [if_neg hbad]; exact hT, ho⟩
        rw [not_or] at hbad
        rw [posixBody]
        unfold mofsFtruncate
        dsimp only
        rw [if_neg hbad.1, if_neg hbad.2]
  | truncate path length =>
    have hread := m.reads_find h.vol user path
    cases hfind : (fsOf m.sb (m.sb.view d) G T up).find user path with
    | error e =>
      rw [hfind] at hread
      refine refines_of_reads (r := (.error e : Except Errno Unit)) (f := fun _ => (.done, P)) h
        (Reads.bind_error hread) fun res P' ho => ⟨.error e, ?_, ho⟩
      rw [hfind]
      exact ⟨rfl, rfl⟩
    | ok i =>
      rw [hfind] at hread
      rw [Refines]
      refine Ensures.bind_reads hread ((m.ensures_done (ensures_truncates h user i length) P).mono ?_)
      rintro r W ⟨r', hr', rfl⟩
      refine hr'.mono fun fs' hT => ⟨r', ?_, ?_⟩
      · rw [hfind]
        exact hT
      · cases r' with
        | error e => rfl
        | ok u => rfl
  | unlink path =>
    exact refines_of_done rfl ((m.ensures_mofsUnlinkCore h.vol user path).mono fun r W hr => hr.yields h m.ok)
      fun r fs' res P' hY ho => ⟨r, hY, ho⟩
  | rmdir path =>
    exact refines_of_done rfl ((m.ensures_mofsRmdirCore h.vol user path).mono fun r W hr => hr.yields h m.ok)
      fun r fs' res P' hY ho => ⟨r, hY, ho⟩
  | mkdir path mode =>
    refine (m.ensures_done (m.ensures_mofsMkdirCore h.vol user path mode) P).mono ?_
    rintro r W ⟨r', hr', rfl⟩
    obtain ⟨r'', rfl, hfs⟩ := hr'.makes h (htake rfl fun _ => id)
    refine hfs.mono fun fs' hM => ⟨r'', hM, ?_⟩
    cases r'' with
    | error e => rfl
    | ok c => rfl
  | «open» path flags mode =>
    refine (m.ensures_posixBody_open h.vol user P path flags mode).mono ?_
    rintro r W ⟨r', hr', rfl⟩
    refine (hr'.opens h fun hcreat => htake (if_pos hcreat) fun _ => id).mono fun fs' hO => ⟨r', hO, ?_⟩
    cases r' with
    | error e => rfl
    | ok i =>
      rw [openRet]
      cases getFreeFilehandleIndex P.files with
      | none => rfl
      | some k => rfl
  | rename oldPath newPath =>
    refine refines_of_done rfl ((m.ensures_mofsRenameCore h.vol user oldPath newPath).mono fun r W hr => hr.renames h ?_)
      fun r fs' res P' hR ho => ⟨r, hR, ho⟩
    intro old new hpaths hmiss
    rcases hfits newPath rfl _ _ (m.missingAt_of_resolve h.vol hpaths.atNew hmiss) with htakes | ⟨info, d', hexec, hp⟩
    · exact .inr htakes
    · have hread := m.reads_mofsResolvePath h.vol resolveExisting rfl rfl user oldPath
      rw [hpaths.atOld] at hread
      cases (hread.exec_eq rfl).symm.trans hexec
      exact .inl hp

/-- A call returns, and what it returns and leaves is a step of the file system that the volume holds. -/
theorem posixCall_step (m : Mount) (h : Ungrown m.sb (m.sb.view d) G T up) (P : Pools)
    (hmodest : Modest m.sb m.env d user op) : ∃ res P' d', exec m.env (posixCall m.sb user P op) d = some (.ok (res, P'), d') ∧
      HoldsFs m.sb (m.sb.view d') fun fs' =>
        (fsOf m.sb (m.sb.view d) G T up).Step (mofsMaxFileBytes m.sb) P user op res fs' P' := by
  obtain ⟨r, d', hexec, r', hstep, rfl⟩ := (m.ensures_posixCall op (refines_posixBody h P hmodest)).exists rfl
  exact ⟨_, _, d', hexec, hstep⟩

end Mount

/-- One modest call on a mounted volume. -/
abbrev VolCall (sb : Superblock) (env : Env) : Disk × Pools → Event → Disk × Pools → Prop :=
  CallIn sb env fun d _ user op => Modest sb env d user op

/-- One call on a file system. -/
def FsCall (maxBytes : Nat) (x : Fs × Pools) (e : Event) (y : Fs × Pools) : Prop :=
  x.1.Step maxBytes x.2 e.user e.op e.res y.1 y.2

/-- A volume and a file system that it holds, with the same open handles. -/
def Carries (sb : Superblock) (x : Disk × Pools) (y : Fs × Pools) : Prop :=
  HoldsFs sb (sb.view x.1) (fun fs => fs = y.1) ∧ x.2 = y.2

theorem VolCall.simulated (hok : sb.Ok) (hserves : env.Serves sb) (x : Disk × Pools) (y : Fs × Pools) (e : Event)
    (x' : Disk × Pools) (hxy : Carries sb x y) (hcall : VolCall sb env x e x') :
    ∃ y', FsCall (mofsMaxFileBytes sb) y e y' ∧ Carries sb x' y' := by
  obtain ⟨d, P⟩ := x
  obtain ⟨fs, Q⟩ := y
  obtain ⟨⟨G, T, up, hU, rfl⟩, rfl⟩ := hxy
  obtain ⟨hmodest, hexec⟩ := hcall
  obtain ⟨res, P', d', hexec', H, T', up', hU', hstep⟩ := (Mount.mk sb env hok hserves).posixCall_step hU P hmodest
  cases hexec.symm.trans hexec'
  exact ⟨(_, _), hstep, ⟨H, T', up', hU', rfl⟩, rfl⟩

/-- A fresh volume holds a file system with an empty root. -/
theorem Fresh.carries (hfresh : Fresh sb (sb.view t)) (hok : sb.Ok) :
    Carries sb (t, .closed) (Fs.fresh ((sb.view t).inode rootInodeNum).access, .closed) := by
  have hscene := hfresh.scene hok fun _ => rootInodeNum
  refine ⟨⟨_, _, _, ⟨hscene.vol, hscene.one⟩, ?_⟩, rfl⟩
  funext i
  dsimp only
  by_cases hi : i = rootInodeNum
  · subst hi
    rw [fsOf_of_dir (by rw [hfresh.ibit]; exact decide_eq_true rfl) hfresh.isDir, Fs.fresh, Function.update_self]
    congr 3
    funext name
    exact Fresh.lookup_eq_none name
  · rw [fsOf_of_free (by rw [hfresh.ibit]; exact decide_eq_false hi), Fs.fresh, Function.update_of_ne hi]

section Session

variable {calls : List (User × PosixOp)} {rs : List (Except Errno Ret)}

/-- The states that the calls of `callAll` go through. -/
theorem states_of_callAll (h : exec env (callAll sb P calls) d = some (.ok rs, d')) :
    ∃ x : Nat → Disk × Pools, x 0 = (d, P) ∧ ∀ j c r, calls[j]? = some c → rs[j]? = some r →
      exec env (posixCall sb c.1 (x j).2 c.2) (x j).1 = some (.ok (r, (x (j + 1)).2), (x (j + 1)).1) := by
  induction calls generalizing P d rs with
  | nil =>
    refine ⟨fun _ => (d, P), rfl, fun j c r hc => ?_⟩
    rw [List.getElem?_nil] at hc
    cases hc
  | cons c calls ih =>
    obtain ⟨user, op⟩ := c
    rw [callAll] at h
    obtain ⟨⟨r, P₁⟩, d₁, hcall, h⟩ := run_bind_eq_ok h
    obtain ⟨rs', d₂, hrest, h⟩ := run_bind_eq_ok h
    cases h
    obtain ⟨x, hx, hcalls⟩ := ih hrest
    refine ⟨fun j => if j = 0 then (d, P) else x (j - 1), if_pos rfl, fun j c' r' hc hr => ?_⟩
    cases j with
    | zero =>
      cases hc
      cases hr
      dsimp only
      rw [if_pos rfl, if_neg (by omega), hx]
      exact hcall
    | succ j =>
      dsimp only
      rw [if_neg (by omega), if_neg (by omega), Nat.add_sub_cancel, Nat.add_sub_cancel]
      exact hcalls j c' r' hc hr

/-- What the build without a cache returns after a format and a mount, it returns on a booted volume. -/
theorem booted_of_results {fsSize blkSize : Int} {clock : Nat → UInt64} {d : Dev}
    (h : Build.plain.results fsSize blkSize clock none calls d = some (.ok rs)) :
    ∃ sb env t d' d'', run Dev.answer (mofsFormat fsSize blkSize) d = some (.ok (), d') ∧ loadSuperblock d'.size d'.bytes = .ok sb ∧
      Booted sb env t ∧ exec env (callAll sb .closed calls) t = some (.ok rs, d'') := by
  obtain ⟨d', sb, d₁, hformat, hload, hrun⟩ := Build.results_ok h
  refine ⟨sb, Build.plainEnv sb d'.size clock, _, d', d₁, hformat, hload,
    ⟨d, d', fsSize, blkSize, false, fun _ => none, clock, none, hformat, ?_⟩, hrun⟩
  rw [mofsInitCore, hload]
  rfl

/-- On a fresh volume there is a slot for a file in the root. -/
theorem Fresh.modest_open {m : Mount} (hfresh : Fresh m.sb (m.sb.view t)) (hvalid : user.valid = true) (k : Fin 64)
    (flags mode : Nat) : Modest m.sb m.env t user (.open (letterPath k) flags mode) := by
  refine ⟨fun path hpath q name hmiss => ?_, show 0 < 2147483648 by decide⟩
  obtain rfl : letterPath k = path := by
    simp only [PosixOp.newPath, PosixOp.makes] at hpath
    split at hpath
    · exact Option.some.inj hpath
    · cases hpath
  have hscene := hfresh.scene m.ok fun _ => rootInodeNum
  obtain ⟨info, d', hres, -, rfl, -⟩ := hmiss
  have hread := m.reads_mofsResolvePath hscene.vol resolveTarget rfl rfl user (letterPath k)
  have hlen : (letter k).length < filenameLen := show 1 < filenameLen by decide
  rw [resolve_one hvalid rfl (components_letterPath k), leafIn_eq hlen (if_pos rfl), Fresh.lookup_eq_none] at hread
  cases (hread.exec_eq rfl).symm.trans hres
  refine .inl (.inl ((hasVacancy_iff hscene.vol hscene.vol.rootDir).mpr (List.mem_append_right _ (hscene.vacant hscene.vol.rootDir ?_))))
  have := m.ok.entries_ge
  rw [lead_root, List.length_nil]
  omega

theorem modest_of_quiet (hnew : op.newPath = none) (hsize : op.wanted < 2147483648) : Modest sb env d user op := by
  refine ⟨fun path hpath => ?_, hsize⟩
  rw [hnew] at hpath
  cases hpath

/-- The calls of a session on a file: it is created, written in two calls and read in two. -/
def fileSession (path : Path) (h : Handle) : List (PosixOp × Ret) :=
  [(.open path (oflagCreat ||| oflagRdwr) 0o644, .handle 0), (.write h [72, 105], .count 2), (.write h [33], .count 1),
    (.lseek h 0 .set, .count 0), (.read h 2, .bytes [72, 105]), (.read h 5, .bytes [33])]

def sessionUser : User := ⟨0, 0, [], true⟩

/-- The session takes place on a formatted device of 16 blocks. -/
theorem exists_fileSession : ∃ (m : Mount) (x : Nat → Disk × Pools), Booted m.sb m.env (x 0).1 ∧ rootInodeNum < m.sb.inodeNum ∧
    m.sb.inodeNum < 33554432 ∧ (x 0).2 = .closed ∧
    (∀ j c, (fileSession (letterPath 0) (some 0))[j]? = some c →
      VolCall m.sb m.env (x j) ⟨sessionUser, c.1, .ok c.2⟩ (x (j + 1))) ∧
    ∀ j, j ≤ (fileSession (letterPath 0) (some 0)).length → ∃ fs, Carries m.sb (x j) (fs, (x j).2) := by
  generalize hs : fileSession (letterPath 0) (some 0) = s
  have hresults : Build.plain.results 16 512 (fun _ => 0) none (s.map fun c => (sessionUser, c.1)) (blankDev 16) =
      some (.ok (s.map fun c => .ok c.2)) := by
    rw [← hs]
    simp only [Build.results, plain_mountAndCall]
    decide +kernel
  obtain ⟨sb, env, t, d', d'', hformat, hload, hboot, hcalls⟩ := booted_of_results hresults
  have hnum : (run Dev.answer (mofsFormat 16 512) (blankDev 16)).map
      (fun x => (loadSuperblock x.2.size x.2.bytes).map Superblock.inodeNum) = some (.ok 4) := by decide +kernel
  rw [hformat, Option.map_some, hload] at hnum
  have h4 : sb.inodeNum = 4 := Except.ok.inj (Option.some.inj hnum)
  have h3 : rootInodeNum < sb.inodeNum := by rw [h4]; decide
  have h25 : sb.inodeNum < 33554432 := by rw [h4]; decide
  obtain ⟨hok, hserves, hfresh⟩ := hboot.fresh h3 h25
  obtain ⟨x, hx, hstates⟩ := states_of_callAll hcalls
  have hvol : ∀ j c, s[j]? = some c → VolCall sb env (x j) ⟨sessionUser, c.1, .ok c.2⟩ (x (j + 1)) := by
    intro j c hc
    refine ⟨?_, hstates j _ _ (by rw [List.getElem?_map, hc]; rfl) (by rw [List.getElem?_map, hc]; rfl)⟩
    subst hs
    cases j with
    | zero =>
      cases hc
      rw [hx]
      exact Fresh.modest_open (m := ⟨sb, env, hok, hserves⟩) hfresh rfl 0 _ _
    | succ j =>
      have hquiet : ∀ c ∈ (fileSession (letterPath 0) (some 0)).tail, c.1.newPath = none ∧ c.1.wanted < 2147483648 := by decide
      obtain ⟨hnew, hsize⟩ := hquiet c (List.mem_of_getElem? hc)
      exact modest_of_quiet hnew hsize
  refine ⟨⟨sb, env, hok, hserves⟩, x, by rw [hx]; exact hboot, h3, h25, by rw [hx], hvol, fun j hj => ?_⟩
  induction j with
  | zero =>
    rw [hx]
    exact ⟨_, hfresh.carries hok⟩
  | succ j ih =>
    obtain ⟨fs, hfs⟩ := ih (Nat.le_of_succ_le hj)
    obtain ⟨⟨fs', P⟩, -, hfs'⟩ := VolCall.simulated hok hserves _ _ _ _ hfs (hvol j _ (List.getElem?_eq_getElem hj))
    obtain rfl : (x (j + 1)).2 = P := hfs'.2
    exact ⟨fs', hfs'⟩

end Session

/-- The POSIX layer is a file system: from `mofs_format` and `mofs_init_core` on, whatever calls are made by whatever
users, each call returns, and what the calls return and leave is what some run of the file system returns and leaves. -/
theorem posix_refines_fs {tr : List Event} (hboot : Booted sb env t) (h3 : rootInodeNum < sb.inodeNum)
    (h25 : sb.inodeNum < 33554432) (hrun : Runs (VolCall sb env) (t, .closed) tr (d, P)) :
    ∃ a fs, a.mode = .ofNat (ftypeDir ||| 0o755) ∧
      Runs (FsCall (mofsMaxFileBytes sb)) (Fs.fresh a, .closed) tr (fs, P) ∧ Carries sb (d, P) (fs, P) ∧
      ∀ user op, Modest sb env d user op → ∃ e y, e.user = user ∧ e.op = op ∧ VolCall sb env (d, P) e y := by
  obtain ⟨hok, hserves, hfresh⟩ := hboot.fresh h3 h25
  obtain ⟨⟨fs, Q⟩, hruns, hcarries⟩ := hrun.simulates (VolCall.simulated hok hserves) (hfresh.carries hok)
  obtain ⟨⟨G, T, up, hU, hfs⟩, rfl⟩ := hcarries
  refine ⟨_, fs, hfresh.mode, hruns, ⟨⟨G, T, up, hU, hfs⟩, rfl⟩, fun user op hmodest => ?_⟩
  obtain ⟨res, P', d', hexec, -⟩ := (Mount.mk sb env hok hserves).posixCall_step hU P hmodest
  exact ⟨⟨user, op, res⟩, (d', P'), rfl, rfl, hmodest, hexec⟩

/-- A file is created, written and read. -/
theorem posix_refines_fs_session : ∃ (sb : Superblock) (env : Env) (t d : Disk) (P : Pools) (tr : List Event),
    tr = (fileSession (letterPath 0) (some 0)).map (fun c => ⟨sessionUser, c.1, .ok c.2⟩) ∧ Booted sb env t ∧
    rootInodeNum < sb.inodeNum ∧ sb.inodeNum < 33554432 ∧ Runs (VolCall sb env) (t, .closed) tr (d, P) ∧
    ∃ a fs, a.mode = .ofNat (ftypeDir ||| 0o755) ∧ Runs (FsCall (mofsMaxFileBytes sb)) (Fs.fresh a, .closed) tr (fs, P) ∧
      Carries sb (d, P) (fs, P) ∧
      ∀ user op, Modest sb env d user op → ∃ e y, e.user = user ∧ e.op = op ∧ VolCall sb env (d, P) e y := by
  obtain ⟨m, x, hboot, h3, h25, hclosed, hcalls, -⟩ := exists_fileSession
  have hrun := ((((((Runs.start (s := x 0)).next (hcalls 0 _ rfl)).next (hcalls 1 _ rfl)).next (hcalls 2 _ rfl)).next
    (hcalls 3 _ rfl)).next (hcalls 4 _ rfl)).next (hcalls 5 _ rfl)
  have hx : x 0 = ((x 0).1, .closed) := by rw [← hclosed]
  rw [hx] at hrun
  exact ⟨m.sb, m.env, _, (x 6).1, (x 6).2, _, rfl, hboot, h3, h25, hrun, posix_refines_fs hboot h3 h25 hrun⟩

end Mofs
