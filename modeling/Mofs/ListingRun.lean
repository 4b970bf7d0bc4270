import Mathlib.Logic.Relation
import Mofs.Listing

namespace Mofs

open Effect Bytes Slots Mofs.Tree

variable {sb : Superblock} {V W : View} {G : Owners} {T : Nat → List Slot} {up : Nat → Nat} {D cursor offset room : Nat}
  {slots t : List Slot} {user : User} {path : Path} {P : Pools} {x : Name} {es l : List (Name × Nat)} {e : Name × Nat}
  {m : Mount} {d d' : Disk}

section Cookies

/-- How many live entries stand in slots before that of `x`. -/
def ahead (x : Name) (t : List Slot) : Nat := (entries (t.takeWhile fun s => !isKey x s)).length

/-- The cookie of the name `x` in a directory that has it. -/
def cookie (x : Name) (t : List Slot) : Nat := if x = dot then 1 else if x = dotdot then 2 else ahead x t + 3

@[simp] theorem ahead_none : ahead x (none :: t) = ahead x t := by simp [ahead, isKey]

theorem ahead_some (x : Name) (e : Name × Nat) (t : List Slot) :
    ahead x (some e :: t) = if e.1 = x then 0 else ahead x t + 1 := by
  by_cases h : e.1 = x
  · simp [ahead, isKey, h]
  · simp [ahead, isKey, h]

theorem cookie_pos (x : Name) (t : List Slot) : 0 < cookie x t := by
  rw [cookie]
  split
  · decide
  · split
    · decide
    · omega

theorem lt_of_mem_numbered (h : e ∈ numbered cursor es) : cursor < e.2 := by
  induction es generalizing cursor with
  | nil => cases h
  | cons e' es ih =>
    rw [numbered] at h
    split at h
    · have := ih h
      omega
    · rcases List.mem_cons.mp h with rfl | h
      · exact Nat.lt_succ_self _
      · have := ih h
        omega

theorem pairwise_numbered (cursor : Nat) (es : List (Name × Nat)) : (numbered cursor es).Pairwise fun e f => e.2 < f.2 := by
  induction es generalizing cursor with
  | nil => exact .nil
  | cons e es ih =>
    rw [numbered]
    split
    · exact ih _
    · exact .cons (fun f hf => lt_of_mem_numbered hf) (ih _)

theorem pairwise_deliverable (es : List (Name × Nat)) : (deliverable es).Pairwise fun e f => e.2 < f.2 := by
  have hlt {f : Name × Nat} (hf : f ∈ numbered 2 es) : 2 < f.2 := lt_of_mem_numbered hf
  refine .cons (fun f hf => ?_) (.cons (fun f hf => hlt hf) (pairwise_numbered 2 es))
  rcases List.mem_cons.mp hf with rfl | hf
  · decide
  · exact lt_trans (by decide) (hlt hf)

theorem fst_of_mem_numbered (h : e ∈ numbered cursor es) : isDotOrDotdotName e.1 = false ∧ e.1 ∈ es.map Prod.fst := by
  induction es generalizing cursor with
  | nil => cases h
  | cons e' es ih =>
    rw [numbered] at h
    split at h
    · exact ⟨(ih h).1, List.mem_cons_of_mem _ (ih h).2⟩
    · next hdot =>
      rcases List.mem_cons.mp h with rfl | h
      · exact ⟨by simpa using hdot, List.mem_cons_self⟩
      · exact ⟨(ih h).1, List.mem_cons_of_mem _ (ih h).2⟩

/-- A name has one cookie, counted from the start of the table. -/
theorem mem_numbered (hx : isDotOrDotdotName x = false) (hd : Distinct t) (hl : (lookup t x).isSome = true) (cursor n : Nat) :
    (x, n) ∈ numbered cursor (entries t) ↔ n = cursor + ahead x t + 1 := by
  induction t generalizing cursor with
  | nil => cases hl
  | cons s t ih =>
    cases s with
    | none =>
      rw [entries_cons_none, ahead_none]
      exact ih hd hl cursor
    | some e =>
      rw [Distinct, entries_cons_some, List.map_cons, List.nodup_cons] at hd
      rw [entries_cons_some, numbered, ahead_some]
      by_cases he : e.1 = x
      · subst he
        rw [if_neg (by simp [hx]), if_pos rfl, List.mem_cons, Prod.mk.injEq]
        refine ⟨?_, fun h => .inl ⟨rfl, by omega⟩⟩
        rintro (h | h)
        · exact h.2
        · exact absurd (fst_of_mem_numbered h).2 hd.1
      · rw [lookup, if_neg he] at hl
        have hrest := ih hd.2 hl (cursor + 1)
        rw [if_neg he]
        split
        · rw [hrest]
          omega
        · rw [List.mem_cons, Prod.mk.injEq, hrest]
          have hne : x ≠ e.1 := fun h => he h.symm
          constructor
          · rintro (h | h)
            · exact absurd h.1 hne
            · omega
          · intro h
            exact .inr (by omega)

theorem mem_deliverable (hd : Distinct t) (hl : (lookup t x).isSome = true) (n : Nat) :
    (x, n) ∈ deliverable (entries t) ↔ n = cookie x t := by
  have hdd : dot ≠ dotdot := by decide
  rw [deliverable, List.mem_cons, List.mem_cons, Prod.mk.injEq, Prod.mk.injEq, cookie]
  by_cases hdot : x = dot
  · subst hdot
    have hno : (dot, n) ∉ numbered 2 (entries t) := fun h =>
      absurd (fst_of_mem_numbered h).1 (show ¬ isDotOrDotdotName dot = false by decide)
    simp [hdd, hno]
  · by_cases hdotdot : x = dotdot
    · subst hdotdot
      have hno : (dotdot, n) ∉ numbered 2 (entries t) := fun h =>
        absurd (fst_of_mem_numbered h).1 (show ¬ isDotOrDotdotName dotdot = false by decide)
      simp [hdd.symm, hno]
    · rw [mem_numbered (by simp [isDotOrDotdotName, hdot, hdotdot]) hd hl]
      simp only [hdot, hdotdot, false_and, false_or, if_false]
      omega

end Cookies

section Pages

/-- The page ends with the last entry the filler took, and has all entries up to that. -/
theorem mem_page {pg : List (Name × Nat)} {f : Name × Nat} (hl : l.Pairwise fun e f => e.2 < f.2)
    (hpg : page offset room l = pg ++ [e]) (hf : f ∈ l) : f ∈ page offset room l ↔ offset < f.2 ∧ f.2 ≤ e.2 := by
  have hsort : (l.filter fun e => decide (offset < e.2)).Pairwise fun e f => e.2 < f.2 := hl.filter _
  rw [← List.take_append_drop room (l.filter _), ← page, hpg, List.pairwise_append] at hsort
  obtain ⟨hpage, -, hrest⟩ := hsort
  rw [List.pairwise_append] at hpage
  constructor
  · intro hm
    have hoff := (List.mem_filter.mp (List.mem_of_mem_take hm)).2
    refine ⟨by simpa using hoff, ?_⟩
    rw [hpg] at hm
    rcases List.mem_append.mp hm with hm | hm
    · exact Nat.le_of_lt (hpage.2.2 f hm e List.mem_cons_self)
    · rw [List.mem_singleton.mp hm]
  · rintro ⟨hoff, hle⟩
    have hmem : f ∈ l.filter fun e => decide (offset < e.2) := List.mem_filter.mpr ⟨hf, by simpa using hoff⟩
    rw [← List.take_append_drop room (l.filter _), List.mem_append] at hmem
    refine hmem.resolve_right fun hm => ?_
    have := hrest e (List.mem_append_right _ List.mem_cons_self) f hm
    omega

/-- A page is empty when nothing is left to deliver. -/
theorem le_of_page_eq_nil (hroom : 1 ≤ room) (h : page offset room l = []) (hf : e ∈ l) : e.2 ≤ offset := by
  rw [page, List.take_eq_nil_iff] at h
  by_contra hlt
  have hmem : e ∈ l.filter fun e => decide (offset < e.2) := List.mem_filter.mpr ⟨hf, by simpa using hlt⟩
  rcases h with h | h
  · omega
  · rw [h] at hmem
    cases hmem

/-- How often a page has a name whose only cookie is `n`. -/
theorem count_page {n : Nat} (offset room : Nat) (hl : l.Pairwise fun e f => e.2 < f.2) (hx : ∀ k, (x, k) ∈ l ↔ k = n) :
    ((page offset room l).map Prod.fst).count x = if (x, n) ∈ page offset room l then 1 else 0 := by
  have hsub : (page offset room l).Sublist l := (List.take_sublist _ _).trans List.filter_sublist
  have hnodup : (page offset room l).Nodup := (hl.sublist hsub).imp fun h he => by
    rw [he] at h
    exact absurd h (lt_irrefl _)
  rw [← hnodup.count, List.count, List.countP_map, List.count]
  refine List.countP_congr fun e he => ?_
  obtain ⟨y, k⟩ := e
  have hmem := hsub.subset he
  simp only [Function.comp_apply, beq_iff_eq, Prod.mk.injEq]
  refine ⟨fun h => ⟨h, ?_⟩, fun h => h.1⟩
  subst h
  exact (hx k).mp hmem

end Pages

/-- A call that changes names: a removal, or a creation that finds room in the slots there are. -/
inductive Edit (m : Mount) (d d' : Disk) : Prop
  | create {user : User} {path : Path} {mode : Nat} {r : Except Errno Nat}
      (hcall : exec m.env (mofsCreateCore m.sb user path mode) d = some (r, d'))
      (hsize : ∀ i, ((m.sb.view d').inode i).iSize = ((m.sb.view d).inode i).iSize)
  | unlink {user : User} {path : Path} {r : Except Errno Unit} (hcall : exec m.env (mofsUnlinkCore m.sb user path) d = some (r, d'))
  | rmdir {user : User} {path : Path} {r : Except Errno Unit} (hcall : exec m.env (mofsRmdirCore m.sb user path) d = some (r, d'))

theorem Edit.vol (hE : Edit m d d') (h : Vol m.sb (m.sb.view d) G T up) : ∃ G' T' up', Vol m.sb (m.sb.view d') G' T' up' := by
  cases hE with
  | create hcall hsize =>
    obtain ⟨r, d₁, hexec, hP⟩ := (m.ensures_mofsCreateCore h _ _ _).exists rfl
    rw [hexec] at hcall
    cases hcall
    obtain ⟨hsame, -⟩ | ⟨info, c, j, -, -, hC⟩ := hP.created h m.ok hsize
    · exact ⟨G, T, up, hsame ▸ h⟩
    · exact ⟨_, _, _, hC.vol⟩
  | unlink hcall =>
    obtain ⟨r, d₁, hexec, hP⟩ := (m.ensures_mofsUnlinkCore h _ _).exists rfl
    rw [hexec] at hcall
    cases hcall
    obtain ⟨hsame, -⟩ | ⟨-, info, H, hR⟩ := hP.cases h
    · exact ⟨G, T, up, hsame ▸ h⟩
    · obtain ⟨j, -, hvol⟩ := hR.vol h m.ok
      exact ⟨_, _, _, hvol⟩
  | rmdir hcall =>
    obtain ⟨r, d₁, hexec, hP⟩ := (m.ensures_mofsRmdirCore h _ _).exists rfl
    rw [hexec] at hcall
    cases hcall
    obtain ⟨hsame, -⟩ | ⟨-, info, H, hR⟩ := hP.cases
    · exact ⟨G, T, up, hsame ▸ h⟩
    · obtain ⟨j, -, hvol⟩ := hR.vol h m.ok
      exact ⟨_, _, _, hvol⟩

/-- Directory `D` has an entry named `x`. -/
def HasName (sb : Superblock) (D : Nat) (x : Name) (V : View) : Prop :=
  ∃ ns ds slots, DirAt sb V D ns ds slots ∧ (lookup slots x).isSome = true

/-- The name `x` of directory `D` is on the same side of the cookie `offset` in both volumes. -/
def SameSide (sb : Superblock) (D : Nat) (x : Name) (offset : Nat) (V W : View) : Prop :=
  ∀ ns ds slots ns' ds' slots', DirAt sb V D ns ds slots → DirAt sb W D ns' ds' slots' →
    (cookie x slots ≤ offset ↔ cookie x slots' ≤ offset)

/-- A listing of the directory `D` at `path` from the cookie `offset` on, and the names it delivers: calls of
`mofs_readdir_fuse`, each from the cookie of the last entry delivered, until one adds nothing. Between two calls names may
be changed. `I` holds in every state, and `C` relates the states around every gap. -/
inductive Listing (m : Mount) (user : User) (path : Path) (D : Nat) (I : View → Prop) (C : Nat → View → View → Prop) :
    Disk → Nat → List Name → Prop
  | last {d d₁ : Disk} {P P' : Pools} {offset room : Nat} (hI : I (m.sb.view d))
      (hD : exec m.env (mofsPathToInodeNum m.sb user path) d = some (.ok D, d)) (hroom : 1 ≤ room)
      (hcall : exec m.env (mofsReaddirFuse m.sb user P path offset room) d = some (.ok (.ok [], P'), d₁)) :
      Listing m user path D I C d offset []
  | next {d d₁ d₂ : Disk} {P P' : Pools} {offset room n : Nat} {pg : List (Name × Nat)} {name : Name} {names : List Name}
      (hI : I (m.sb.view d)) (hD : exec m.env (mofsPathToInodeNum m.sb user path) d = some (.ok D, d)) (hroom : 1 ≤ room)
      (hcall : exec m.env (mofsReaddirFuse m.sb user P path offset room) d = some (.ok (.ok (pg ++ [(name, n)]), P'), d₁))
      (hedits : Relation.ReflTransGen (fun d d' => Edit m d d' ∧ I (m.sb.view d')) d₁ d₂)
      (hC : C n (m.sb.view d₁) (m.sb.view d₂)) (rest : Listing m user path D I C d₂ n names) :
      Listing m user path D I C d offset (pg.map Prod.fst ++ name :: names)

/-- What a call on directory `D` delivers, by the table of the directory. -/
theorem page_of_call {pg : List (Name × Nat)} {P' : Pools} (h : Vol m.sb (m.sb.view d) G T up)
    (hD : exec m.env (mofsPathToInodeNum m.sb user path) d = some (.ok D, d))
    (hcall : exec m.env (mofsReaddirFuse m.sb user P path offset room) d = some (.ok (.ok pg, P'), d')) :
    d' = d ∧ DirNode m.sb (m.sb.view d) G T up D ∧ pg = page offset room (deliverable (entries (dirSlots up T D))) := by
  obtain ⟨info, hres, hdir, hd, hpg⟩ := m.page_of_readdir h hcall
  have hpath := (m.reads_mofsPathToInodeNum h user path).exec_eq rfl
  rw [hres, hD] at hpath
  cases hpath
  exact ⟨hd, (h.node _).dir hdir, hpg⟩

theorem HasName.lookup (hx : HasName sb D x V) (hdir : DirNode sb V G T up D) :
    (Slots.lookup (dirSlots up T D) x).isSome = true := by
  obtain ⟨ns, ds, slots, hslots, hl⟩ := hx
  rwa [hslots.unique hdir.dirAt] at hl

/-- From the cookie `offset` on, a listing still delivers `x` if and only if its cookie is greater. -/
theorem Listing.count_eq {names : List Name} (hL : Listing m user path D (HasName m.sb D x) (SameSide m.sb D x) d offset names)
    (h : Vol m.sb (m.sb.view d) G T up) :
    ∃ ns ds slots, DirAt m.sb (m.sb.view d) D ns ds slots ∧ names.count x = if cookie x slots ≤ offset then 0 else 1 := by
  induction hL generalizing G T up with
  | last hI hD hroom hcall =>
    obtain ⟨-, hdir, hpg⟩ := page_of_call h hD hcall
    refine ⟨_, _, _, hdir.dirAt, ?_⟩
    have hmem := (mem_deliverable hdir.distinct (hI.lookup hdir) _).mpr rfl
    rw [if_pos (le_of_page_eq_nil hroom hpg.symm hmem)]
    rfl
  | @next d d₁ d₂ P P' offset room n pg name names hI hD hroom hcall hedits hC rest ih =>
    obtain ⟨rfl, hdir, hpg⟩ := page_of_call h hD hcall
    have hvol : ∃ G' T' up', Vol m.sb (m.sb.view d₂) G' T' up' := by
      clear hC rest ih
      induction hedits with
      | refl => exact ⟨_, _, _, h⟩
      | tail _ hE ih =>
        obtain ⟨G', T', up', hvol⟩ := ih
        exact hE.1.vol hvol
    obtain ⟨G', T', up', hvol⟩ := hvol
    obtain ⟨ns, ds, slots, hslots, hcount⟩ := ih hvol
    have hside := hC _ _ _ _ _ _ hdir.dirAt hslots
    have hsort := pairwise_deliverable (entries (dirSlots up T D))
    have hcookie := mem_deliverable hdir.distinct (hI.lookup hdir)
    have hhere := count_page offset room hsort hcookie
    have hmem := mem_page hsort hpg.symm ((hcookie _).mpr rfl)
    have hlast := (mem_page hsort hpg.symm (f := (name, n))
      (List.mem_of_mem_filter (List.mem_of_mem_take (hpg ▸ List.mem_append_right _ List.mem_cons_self)))).mp
      (hpg ▸ List.mem_append_right _ List.mem_cons_self)
    refine ⟨_, _, _, hdir.dirAt, ?_⟩
    have hsplit : (pg.map Prod.fst ++ name :: names).count x = ((pg ++ [(name, n)]).map Prod.fst).count x + names.count x := by
      rw [← List.count_append, List.map_append, List.append_assoc]
      rfl
    rw [hsplit, hpg, hhere, hcount]
    simp only [hmem]
    -- delivered before, in this page, or later
    split <;> split <;> split <;> omega

/-- Every name that stays in a directory is delivered once, if the changes between the calls keep it on its side of the
cookie. -/
theorem listing_delivers_once {names : List Name} (h : Vol m.sb (m.sb.view d) G T up)
    (hL : Listing m user path D (HasName m.sb D x) (SameSide m.sb D x) d 0 names) : names.count x = 1 := by
  obtain ⟨ns, ds, slots, -, hcount⟩ := hL.count_eq h
  rw [hcount, if_neg (Nat.not_le.mpr (cookie_pos x slots))]

section Letters

/-- A volume whose root holds the files `A` and `B` in this order. -/
structure LettersAB (m : Mount) (d : Disk) (G : Owners) (T : Nat → List Slot) (up : Nat → Nat) (user : User) : Prop where
  vol : Vol m.sb (m.sb.view d) G T up
  valid : user.valid = true
  write : mofsCheckDirWrite user ((m.sb.view d).inode rootInodeNum) = .ok ()
  read : mofsCheckDirRead user ((m.sb.view d).inode rootInodeNum) = .ok ()
  slots : dirSlots up T rootInodeNum = some (letter 0, 3) :: some (letter 1, 4) :: List.replicate 14 none
  plain : ∀ c ∈ [3, 4], ((m.sb.view d).inode c).isDir = false

theorem SamePerm.checkDirRead {y z : Inode} (h : SamePerm y z) (user : User) : mofsCheckDirRead user z = mofsCheckDirRead user y :=
  h.checkOpen oflagRdonly user

theorem Fresh.rootReadable (h : Fresh sb V) (hW : SamePerm (V.inode rootInodeNum) (W.inode rootInodeNum)) :
    mofsCheckDirRead (rootUser V) (W.inode rootInodeNum) = .ok () := by
  have hcheck (y : Inode) : mofsCheckDirRead ⟨y.iUid.toNat, y.iGid.toNat, [], true⟩ y =
      if y.iMode.toNat &&& (4 * if y.iUid.toNat = y.iUid.toNat then 64 else if isCallerInGroup _ y.iGid.toNat then 8 else 1) ≠ 0
      then .ok () else .error .eacces := rfl
  rw [hW.checkDirRead, rootUser, hcheck, if_pos rfl, h.mode]
  decide

theorem exists_lettersAB : ∃ m d G T up user, LettersAB m d G T up user := by
  obtain ⟨m, d₀, -, hfresh, hnum, hent, -⟩ := exists_fresh
  have hscene := hfresh.scene m.ok fun _ => rootInodeNum
  have hM := hfresh.mayEnter m.ok (by omega) rfl (show components pathA = [letter 0] by decide) (by decide) fun _ => rootInodeNum
  obtain ⟨r, d₁, -, hpost⟩ := (m.ensures_mofsCreateCore hscene.vol (rootUser (m.sb.view d₀)) pathA 0).exists rfl
  obtain ⟨rfl, j, hC⟩ := hpost.succeeds hscene.vol m.ok hM
  obtain ⟨t, ht⟩ := hC.inode
  have hj : j = 0 := by
    have := hC.vacancy
    rw [freshSlots, if_pos rfl, hent] at this
    exact Option.some.inj (this.symm.trans (by decide))
  subst hj
  have hfile : ((m.sb.view d₁).inode 3).isDir = false := by
    rw [ht]
    exact newInode_isDir 1 (by decide) _ _ _
  have hS₁ := hscene.entered hC.vol (by decide) hC.ibit hC.perm fun hd => by
    rw [hfile] at hd
    cases hd
  have hroot₁ := hC.perm rootInodeNum (by decide)
  have hM₁ := hS₁.mayEnter m.ok (show resolve _ _ _ resolveTarget (rootUser (m.sb.view d₀)) pathB =
    .ok ⟨rootInodeNum, noInode, false, letter 1⟩ by
      rw [resolve_one rfl rfl (show components pathB = [letter 1] by decide), leafIn_eq (by decide) (if_pos rfl),
        lookup_entered hC.vacancy (Fresh.lookup_eq_none _) (by decide) (by decide), if_neg (by decide), Fresh.lookup_eq_none]
      rfl) rfl (hfresh.rootWritable hroot₁) (by decide) (by omega) (by rw [hent, lead_root]; decide)
  obtain ⟨r, d₂, -, hpost₂⟩ := (m.ensures_mofsCreateCore hS₁.vol (rootUser (m.sb.view d₀)) pathB 0).exists rfl
  obtain ⟨rfl, j, hC₂⟩ := hpost₂.succeeds hS₁.vol m.ok hM₁
  obtain ⟨t₂, ht₂⟩ := hC₂.inode
  have hroot : Function.update (Function.update (freshSlots m.sb) rootInodeNum
      ((freshSlots m.sb rootInodeNum).set 0 (some (letter 0, 3)))) 3 [] rootInodeNum =
      some (letter 0, 3) :: List.replicate 15 none := by
    rw [Function.update_of_ne (by decide), Function.update_self, freshSlots, if_pos rfl, hent]
    rfl
  have hj : j = 1 := by
    have := hC₂.vacancy
    rw [hroot] at this
    exact Option.some.inj (this.symm.trans (by decide))
  subst hj
  have hperm := hroot₁.trans (hC₂.perm rootInodeNum (by decide))
  refine ⟨m, d₂, _, _, _, rootUser (m.sb.view d₀), hC₂.vol, rfl, hfresh.rootWritable hperm, hfresh.rootReadable hperm, ?_, ?_⟩
  · rw [dirSlots, lead_root, List.nil_append, Function.update_of_ne (by decide), Function.update_self, hroot]
    rfl
  · intro c hc
    rcases List.mem_cons.mp hc with rfl | hc
    · rw [(hC₂.perm 3 (by decide)).isDir]
      exact hfile
    · rw [List.mem_singleton.mp hc, ht₂]
      exact newInode_isDir 1 (by decide) _ _ _

/-- Whoever may read the root directory can list it. -/
theorem lists_root (h : Vol m.sb (m.sb.view d) G T up) (hvalid : user.valid = true)
    (hread : mofsCheckDirRead user ((m.sb.view d).inode rootInodeNum) = .ok ()) (offset room : Nat) :
    exec m.env (mofsPathToInodeNum m.sb user pathRoot) d = some (.ok rootInodeNum, d) ∧
    ∃ P', exec m.env (mofsReaddirFuse m.sb user ⟨fun _ => .closed, fun _ => .closed⟩ pathRoot offset room) d =
      some (.ok (.ok (page offset room (deliverable (entries (dirSlots up T rootInodeNum)))), P'), d) := by
  have hres : resolve (m.sb.view d) up T resolveInode user pathRoot = .ok ⟨noInode, rootInodeNum, true, []⟩ := by
    rw [resolve, if_neg (by decide), hvalid, if_neg (by decide), if_pos (show pathRoot.1 = [slash] from rfl)]
    rfl
  have hpath := (m.reads_mofsPathToInodeNum h user pathRoot).exec_eq rfl
  rw [hres] at hpath
  have hopen : Mount.openedDir (m.sb.view d) T up user (fun _ => .closed) pathRoot =
      .ok (0, Function.update (fun _ => .closed) 0 ⟨true, rootInodeNum, 0, [], 0⟩) := by
    rw [Mount.openedDir, hvalid, if_neg (by decide), hres]
    dsimp only
    rw [h.rootDir, if_neg (by decide), hread]
    rfl
  obtain ⟨P', hreads⟩ := m.reads_mofsReaddirFuse (P := ⟨fun _ => .closed, fun _ => .closed⟩) h hres hopen offset room
  exact ⟨hpath, P', hreads.exec_eq rfl⟩

/-- One of the two files is removed. -/
theorem LettersAB.unlinks (h : LettersAB m d G T up user) (path : Path) {name : Name} {c : Nat}
    (hhead : path.1.head? = some slash) (hc : components path = [name]) (hlen : name.length < filenameLen) (hmem : c ∈ [3, 4])
    (hl : Slots.lookup (dirSlots up T rootInodeNum) name = some c) :
    ∃ d' H T' j, Edit m d d' ∧ Vol m.sb (m.sb.view d') H T' up ∧
      mofsCheckDirRead user ((m.sb.view d').inode rootInodeNum) = .ok () ∧
      (dirSlots up T rootInodeNum)[j]? = some (some (name, c)) ∧
      dirSlots up T' rootInodeNum = (dirSlots up T rootInodeNum).set j none ∧
      ((name, c) :: entries (dirSlots up T' rootInodeNum)).Perm [(letter 0, 3), (letter 1, 4)] := by
  obtain ⟨r, d', hexec, hP⟩ := (m.ensures_mofsUnlinkCore h.vol user path).exists rfl
  have hres : resolve (m.sb.view d) up T resolveExisting user path = .ok ⟨rootInodeNum, c, true, name⟩ := by
    rw [resolve_one h.valid hhead hc, leafIn_eq hlen (if_pos rfl), hl]
    rfl
  unfold UnlinkPost at hP
  simp only [hres, h.write, h.plain c hmem, Bool.false_eq_true, if_false] at hP
  obtain ⟨-, H, hU⟩ := hP
  obtain ⟨j, hj, hvol⟩ := hU.vol h.vol m.ok h.vol.rootDir (kids_nil ((h.vol.node c).flat (h.plain c hmem)))
  have hcr : rootInodeNum ≠ c := by
    rintro rfl
    exact absurd hmem (by decide)
  have hj' : (dirSlots up T rootInodeNum)[j]? = some (some (name, c)) := by
    rw [dirSlots, lead_root]
    exact hj
  have hset : dirSlots up (Function.update (Function.update T rootInodeNum ((T rootInodeNum).set j none)) c []) rootInodeNum =
      (dirSlots up T rootInodeNum).set j none := by
    rw [dirSlots, dirSlots, lead_root, Function.update_of_ne hcr, Function.update_self]
    rfl
  refine ⟨d', H, _, j, .unlink hexec, hvol, ?_, hj', hset, ?_⟩
  · rw [hU.perm.checkDirRead]
    exact h.read
  · rw [hset]
    refine (entries_clear hj').trans ?_
    rw [h.slots]
    exact .refl _

theorem hasName_root (h : Vol m.sb (m.sb.view d) G T up) (hl : (Slots.lookup (dirSlots up T rootInodeNum) x).isSome = true) :
    HasName m.sb rootInodeNum x (m.sb.view d) :=
  ⟨_, _, _, h.dirAt h.rootDir, hl⟩

/-- `B` is removed once both names were listed. -/
theorem listing_delivers_once_letter : ∃ (m : Mount) (d : Disk) (G : Owners) (T : Nat → List Slot) (up : Nat → Nat) (user : User)
    (names : List Name), Vol m.sb (m.sb.view d) G T up ∧
    Listing m user pathRoot rootInodeNum (HasName m.sb rootInodeNum (letter 0)) (SameSide m.sb rootInodeNum (letter 0)) d 0 names ∧
    names.count (letter 0) = 1 := by
  obtain ⟨m, d, G, T, up, user, h⟩ := exists_lettersAB
  obtain ⟨d', H, T', j, hedit, hvol, hread, hj, hslots, hperm⟩ := h.unlinks pathB rfl
    (show components pathB = [letter 1] by decide) (by decide) (show 4 ∈ [3, 4] by decide) (by rw [h.slots]; decide)
  -- the slot of `B` is not the first
  obtain ⟨j, rfl⟩ : ∃ i, j = i + 1 := by
    cases j with
    | zero =>
      rw [h.slots] at hj
      exact absurd hj (by decide)
    | succ i => exact ⟨i, rfl⟩
  rw [h.slots, List.set_cons_succ] at hslots
  have hname : HasName m.sb rootInodeNum (letter 0) (m.sb.view d) := hasName_root h.vol (by rw [h.slots]; decide)
  have hname' : HasName m.sb rootInodeNum (letter 0) (m.sb.view d') := hasName_root hvol (by rw [hslots]; rfl)
  obtain ⟨hroot, P', hcall⟩ := lists_root h.vol h.valid h.read 0 4
  obtain ⟨hroot', P'', hcall'⟩ := lists_root hvol h.valid hread 4 1
  have hpage : page 0 4 (deliverable (entries (dirSlots up T rootInodeNum))) =
      [(dot, 1), (dotdot, 2), (letter 0, 3)] ++ [(letter 1, 4)] := by
    rw [h.slots]
    decide
  have hside : SameSide m.sb rootInodeNum (letter 0) 4 (m.sb.view d) (m.sb.view d') := by
    intro ns ds slots ns' ds' slots' hdir hdir'
    rw [hdir.unique (h.vol.dirAt h.vol.rootDir), hdir'.unique (hvol.dirAt hvol.rootDir), h.slots, hslots]
    exact Iff.rfl
  have hpage' : page 4 1 (deliverable (entries (dirSlots up T' rootInodeNum))) = [] := by
    rw [List.perm_singleton.mp (hperm.trans (.swap _ _ _)).cons_inv]
    decide
  have hL := Listing.next hname hroot (by decide) (hpage ▸ hcall) (.single ⟨hedit, hname'⟩) hside
    (.last hname' hroot' (by decide) (hpage' ▸ hcall'))
  exact ⟨m, d, G, T, up, user, _, h.vol, hL, listing_delivers_once h.vol hL⟩

/-- The cookie counts live entries: once `A` is gone, `B` stands where `A` was and is never delivered. -/
theorem listing_misses_name : ∃ (m : Mount) (d : Disk) (G : Owners) (T : Nat → List Slot) (up : Nat → Nat) (user : User)
    (names : List Name), Vol m.sb (m.sb.view d) G T up ∧
    Listing m user pathRoot rootInodeNum (HasName m.sb rootInodeNum (letter 1)) (fun _ _ _ => True) d 0 names ∧
    names.count (letter 1) = 0 := by
  obtain ⟨m, d, G, T, up, user, h⟩ := exists_lettersAB
  obtain ⟨d', H, T', j, hedit, hvol, hread, -, -, hperm⟩ := h.unlinks pathA rfl
    (show components pathA = [letter 0] by decide) (by decide) (show 3 ∈ [3, 4] by decide) (by rw [h.slots]; decide)
  have hrest : entries (dirSlots up T' rootInodeNum) = [(letter 1, 4)] := List.perm_singleton.mp hperm.cons_inv
  have hname : HasName m.sb rootInodeNum (letter 1) (m.sb.view d) := hasName_root h.vol (by rw [h.slots]; decide)
  have hname' : HasName m.sb rootInodeNum (letter 1) (m.sb.view d') := by
    refine hasName_root hvol (Option.ne_none_iff_isSome.mp fun hno => Slots.lookup_eq_none.mp hno 4 ?_)
    rw [← mem_entries, hrest]
    exact List.mem_cons_self
  obtain ⟨hroot, P', hcall⟩ := lists_root h.vol h.valid h.read 0 3
  obtain ⟨hroot', P'', hcall'⟩ := lists_root hvol h.valid hread 3 1
  have hpage : page 0 3 (deliverable (entries (dirSlots up T rootInodeNum))) =
      [(dot, 1), (dotdot, 2)] ++ [(letter 0, 3)] := by
    rw [h.slots]
    decide
  have hpage' : page 3 1 (deliverable (entries (dirSlots up T' rootInodeNum))) = [] := by
    rw [hrest]
    decide
  have hL := Listing.next (C := fun _ _ _ => True) hname hroot (by decide) (hpage ▸ hcall) (.single ⟨hedit, hname'⟩) trivial
    (.last hname' hroot' (by decide) (hpage' ▸ hcall'))
  exact ⟨m, d, G, T, up, user, _, h.vol, hL, by decide⟩

end Letters

end Mofs
