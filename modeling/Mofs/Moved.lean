import Mofs.FreshVolume
import Mofs.Rename

namespace Mofs

open Effect Bytes Slots Mofs.Tree

variable {sb : Superblock} {U V W : View} {F G H : Owners} {T : Nat → List Slot} {up : Nat → Nat} {i p q s c k j : Nat}
  {user : User} {oldPath newPath : Path} {old new : PathInfo} {n nn name : Name} {slots t : List Slot} {S : List Nat}

/-- A successful `add_dir_entry` that found room in the blocks the directory has. -/
theorem AddPost.added (h : AddPost sb V W G q slots name c (.ok ())) (hroom : none ∈ slots ∨ slots.length % entriesPerBlk sb ≠ 0) :
    lookup slots name = none ∧ ∃ slots', Added slots name c slots' ∧ DirSet sb V W G q slots' := by
  unfold AddPost at h
  split at h
  · cases h.1
  · split at h
    · cases h.1
    · next hl =>
      have hl : lookup slots name = none := by simpa using hl
      refine ⟨hl, ?_⟩
      split at h
      · next k hk => exact ⟨_, .put (vacant_spec hk).2, h.2⟩
      · next hv =>
        rw [vacant_eq_none] at hv
        rw [if_pos (hroom.resolve_left hv)] at h
        exact ⟨_, .append, h.2⟩

/-- An entry of an ordinary slot, cleared. -/
theorem slotsWithout_eq (hp : (dirSlots up T p)[k]? = some (some (n, s))) (hlead : some (n, s) ∉ lead up p) :
    ∃ j, (T p)[j]? = some (some (n, s)) ∧ (dirSlots up T p).set k none = lead up p ++ (T p).set j none := by
  obtain ⟨j, rfl, hj⟩ := dirSlots_get hp hlead
  exact ⟨j, hj, dirSlots_set none⟩

/-- An entry taken out of a directory and entered there again, under a new name or under its own. -/
theorem Vol.reenter {V₁ : View} (h : Vol sb V G T up) (hok : sb.Ok) (hp : (V.inode p).isDir = true)
    (hlead : some (n, s) ∉ lead up p) (hk : (dirSlots up T p)[k]? = some (some (n, s)))
    (hset : DirSet sb V V₁ G p ((dirSlots up T p).set k none))
    (hadd : AddPost sb V₁ W G p ((dirSlots up T p).set k none) nn s (.ok ())) :
    ∃ j t, (T p)[j]? = some (some (n, s)) ∧ lookup (lead up p ++ (T p).set j none) nn = none ∧
      Added ((T p).set j none) nn s t ∧ Vol sb W G (Function.update T p t) up ∧ Frame sb [p] V W G G ∧
      W.ibit = V.ibit ∧ ∀ x, SamePerm (V.inode x) (W.inode x) := by
  obtain ⟨j, hj, hslots⟩ := slotsWithout_eq hk hlead
  rw [hslots] at hadd
  have hlt : j < (T p).length := (List.getElem?_eq_some_iff.mp hj).1
  have hnone : none ∈ lead up p ++ (T p).set j none :=
    List.mem_append_right _ (List.mem_iff_getElem.mpr ⟨j, by simpa using hlt, by simp⟩)
  obtain ⟨hl, slots', hA, hset'⟩ := hadd.added (.inl hnone)
  obtain ⟨t, rfl, hA'⟩ := hA.of_append none_not_mem_lead
  have hdist : Distinct (lead up p ++ (T p).set j none) := by
    rw [← hslots]
    exact ((h.node p).dir hp).distinct.clear hk
  have hperm : ((entries t).map Prod.snd).Perm (kids T p) :=
    (hA'.perm.map Prod.snd).trans ((entries_clear hj).map Prod.snd)
  have hF := hset.frame.trans hset'.frame
  have hib := hset'.ibit.trans hset.ibit
  have hvol := h.relabel hok hF hp hib hset'.dir
    (by have := hA'.length_le; rw [List.length_set] at this; exact this) (hA.distinct hdist hl) hperm
    (by rw [hset'.attrs.links, hset.attrs.links])
  exact ⟨j, t, hj, hl, hA', hvol, hF, hib, fun x => (hset.samePerm x).trans (hset'.samePerm x)⟩

/-- The tree after a move within one directory. -/
theorem MovePost.vol_same (h : Vol sb V G T up) (hok : sb.Ok) (hp : (V.inode p).isDir = true)
    (hlead : some (n, s) ∉ lead up p) (hM : MovePost sb V W G T up p n s p nn (.ok ())) :
    ∃ j t, (T p)[j]? = some (some (n, s)) ∧ lookup (lead up p ++ (T p).set j none) nn = none ∧
      Added ((T p).set j none) nn s t ∧ Vol sb W G (Function.update T p t) up ∧ Frame sb [p, s] V W G G ∧
      W.ibit = V.ibit ∧ ∀ x, SamePerm (V.inode x) (W.inode x) := by
  obtain ⟨k, V₁, r₁, W₁, hk, hset, hadd, hr₁⟩ := hM
  cases r₁ with
  | error e => cases hr₁.1
  | ok u =>
    obtain ⟨-, V', hV', t', rfl⟩ := hr₁
    rw [if_neg (fun hc => hc.2 rfl)] at hV'
    subst hV'
    rw [slotsWithout, if_pos rfl] at hadd
    obtain ⟨j, t, hj, hl, hA, hvol, hF, hib, hperm⟩ := h.reenter hok hp hlead hk hset hadd
    obtain ⟨hsu, -, -⟩ := h.kid hp (List.mem_of_getElem? hj)
    have hsW : V'.ibit s = true := by rw [hib]; exact hsu
    refine ⟨j, t, hj, hl, hA, hvol.setInode hok rfl rfl rfl ⟨rfl, rfl, rfl, rfl⟩ hsW, ?_, hib, fun x => ?_⟩
    · have hstamp := Frame.setInode hvol.wf (i := s) (x := (V'.inode s).stamp timeCtime t') rfl rfl
      exact (hF.mono (by simp)).trans (hstamp.mono (by simp))
    · by_cases hx : x = s
      · subst hx
        exact (hperm x).trans (by simp only [View.setInode, Function.update_self]; exact ⟨rfl, rfl, rfl⟩)
      · simp only [View.setInode, Function.update_of_ne hx]
        exact hperm x

/-- The `..` entry of a directory, rewritten in place. -/
theorem Dotted.rewritten_dirAt {a b : Nat} {ns ds : List Nat} {rest : List Slot} (h : Dotted sb V s ns ds a b rest)
    (hok : sb.Ok) (hq : q ≠ 0) (hq32 : q < 4294967296)
    (hF : Filled V W ds 0 1 (fun _ => dotdotBlock (V.blk (ds.getD 0 0)) q)) :
    DirAt sb W s ns ds (some (dot, a) :: some (dotdot, q) :: rest) := by
  have hE := hok.entries_ge
  have h1 : 1 / entriesPerBlk sb = 0 := Nat.div_eq_of_lt (by omega)
  have h2 : 1 % entriesPerBlk sb = 1 := Nat.mod_eq_of_lt (by omega)
  have hset := h.dir.stored_one (k := 1) (x := V.inode s) (s := some (dotdot, q)) hok (by simp) (by rw [h1]; exact hF)
    rfl rfl (SameAttrs.refl _) rfl
    (by rw [h2]; exact (h.first_two hok).2.setInode hq hq32)
    (fun j s' hj hs => by
      rw [h1] at hs
      rw [h2] at hj
      exact hs.splice_other hj (by simp [direntBytes]) (by simp [direntBytes, filenameLen]))
  have hself : W.setInode s (V.inode s) = W := by
    refine View.ext ?_ rfl rfl rfl
    rw [← hF.inode]
    exact Function.update_eq_self _ _
  rwa [hself] at hset

theorem Dotted.rewritten {a b : Nat} {rest : List Slot} (h : Dotted sb V s (G.nodes s) (G.data s) a b rest) (hV : Wf sb V G)
    (hok : sb.Ok) (hq : q ≠ 0) (hq32 : q < 4294967296)
    (hF : Filled V W (G.data s) 0 1 (fun _ => dotdotBlock (V.blk ((G.data s).getD 0 0)) q)) :
    DirSet sb V W G s (some (dot, a) :: some (dotdot, q) :: rest) := by
  have hin := congrFun hF.inode s
  exact ⟨hF.frame hV (h.data_pos hok), hF.ibit, hF.dbit, hin ▸ SameAttrs.refl _, h.rewritten_dirAt hok hq hq32 hF⟩

/-- The link counts of both parents and the time stamp of the moved directory, after its `..` entry. -/
def reparented (U W : View) (p q s : Nat) (a b t : UInt64) : View :=
  ((U.setInode p (nlinkInode (W.inode p) (-1) a)).setInode q (nlinkInode (W.inode q) 1 b)).setInode s
    ((((U.setInode p (nlinkInode (W.inode p) (-1) a)).setInode q (nlinkInode (W.inode q) 1 b)).inode s).stamp timeCtime t)

theorem reparented_inode {U Z : View} {a b t : UInt64} (hin : U.inode = W.inode) (hpq : p ≠ q) (hps : p ≠ s) (hqs : q ≠ s)
    (hZ : Z = reparented U W p q s a b t) :
    Z.inode p = nlinkInode (W.inode p) (-1) a ∧ Z.inode q = nlinkInode (W.inode q) 1 b ∧
      Z.inode s = (W.inode s).stamp timeCtime t ∧ ∀ x, x ≠ p → x ≠ q → x ≠ s → Z.inode x = W.inode x := by
  subst hZ
  refine ⟨?_, ?_, ?_, fun x hxp hxq hxs => ?_⟩
  · exact (Function.update_of_ne hps _ _).trans ((Function.update_of_ne hpq _ _).trans (Function.update_self _ _ _))
  · exact (Function.update_of_ne hqs _ _).trans (Function.update_self _ _ _)
  · refine (Function.update_self _ _ _).trans ?_
    rw [← hin]
    exact congrArg (Inode.stamp · timeCtime t) ((Function.update_of_ne hqs.symm _ _).trans (Function.update_of_ne hps.symm _ _))
  · rw [← hin]
    exact (Function.update_of_ne hxs _ _).trans ((Function.update_of_ne hxq _ _).trans (Function.update_of_ne hxp _ _))

/-- The entry of `s` has been carried from slot `j` of `p` to the slots `t` of `q`, and nothing else has happened yet. -/
structure Carried (sb : Superblock) (V W : View) (G : Owners) (T : Nat → List Slot) (up : Nat → Nat) (p : Nat) (n : Name) (j s q : Nat)
    (nn : Name) (t : List Slot) : Prop where
  slot : (T p)[j]? = some (some (n, s))
  fresh : lookup (dirSlots up T q) nn = none
  added : Added (T q) nn s t
  distinct : Distinct (lead up q ++ t)
  frame : Frame sb [p, q] V W G G
  ibit : W.ibit = V.ibit
  source : DirAt sb W p (G.nodes p) (G.data p) (lead up p ++ (T p).set j none)
  target : DirAt sb W q (G.nodes q) (G.data q) (lead up q ++ t)
  sourceLinks : (W.inode p).iLinks = (V.inode p).iLinks
  targetLinks : (W.inode q).iLinks = (V.inode q).iLinks
  perm : ∀ x, SamePerm (V.inode x) (W.inode x)

/-- Taking the entry out of `p` and adding it to `q` carries it. -/
theorem Carried.of_add {k : Nat} {V₁ : View} (h : Vol sb V G T up) (hok : sb.Ok) (hp : (V.inode p).isDir = true)
    (hq : (V.inode q).isDir = true) (hpq : p ≠ q) (hlead : some (n, s) ∉ lead up p)
    (hroom : none ∈ dirSlots up T q ∨ (dirSlots up T q).length % entriesPerBlk sb ≠ 0)
    (hk : (dirSlots up T p)[k]? = some (some (n, s))) (hset : DirSet sb V V₁ G p ((dirSlots up T p).set k none))
    (hadd : AddPost sb V₁ W G q (dirSlots up T q) nn s (.ok ())) : ∃ j t, Carried sb V W G T up p n j s q nn t := by
  obtain ⟨j, hj, hslots⟩ := slotsWithout_eq hk hlead
  obtain ⟨hnone, slots', hA, hset'⟩ := hadd.added hroom
  obtain ⟨t, rfl, hA'⟩ := hA.of_append none_not_mem_lead
  have hother := hset'.frame.same p (by simpa using hpq)
  have hother' := hset.frame.same q (by simpa using Ne.symm hpq)
  refine ⟨j, t, hj, hnone, hA', hA.distinct ((h.node q).dir hq).distinct hnone,
    (hset.frame.mono (by simp)).trans (hset'.frame.mono (by simp)), hset'.ibit.trans hset.ibit, ?_, hset'.dir, ?_, ?_,
    fun x => (hset.samePerm x).trans (hset'.samePerm x)⟩
  · rw [← hslots]
    exact hset.dir.of_frame hok hset'.frame (by rw [hset.ibit]; exact h.used_of_isDir hp) (by simpa using hpq)
  · rw [hother.inode, hset.attrs.links]
  · rw [hset'.attrs.links, hother'.inode]

section Carried

variable {t : List Slot} {l : List Nat} (h : Vol sb V G T up) (hok : sb.Ok) (hp : (V.inode p).isDir = true)
  (hq : (V.inode q).isDir = true) (hpq : p ≠ q) (hl : Climb up rootInodeNum q l) (hsl : s ∉ l)
  (hC : Carried sb V W G T up p n j s q nn t)

include h hp hC in
theorem Carried.kid : V.ibit s = true ∧ s ≠ rootInodeNum ∧ p ≠ s := by
  obtain ⟨hsu, hsr, hup⟩ := h.kid hp (List.mem_of_getElem? hC.slot)
  refine ⟨hsu, hsr, ?_⟩
  rw [← hup]
  exact h.tree.up_ne hsu hsr

include h hok hp hq hpq hl hsl hC

/-- A file needs nothing more than its time stamp. -/
theorem Carried.vol_file (hnd : (V.inode s).isDir = false) (t' : UInt64) :
    Vol sb (W.setInode s ((W.inode s).stamp timeCtime t')) G (Function.update (Function.update T p ((T p).set j none)) q t)
        (Function.update up s q) ∧
      Frame sb [p, q, s] V (W.setInode s ((W.inode s).stamp timeCtime t')) G G ∧
      ∀ x, SamePerm (V.inode x) ((W.setInode s ((W.inode s).stamp timeCtime t')).inode x) := by
  obtain ⟨hsu, hsr, hps⟩ := hC.kid h hp
  have hqs : q ≠ s := ne_of_mem_of_not_mem hl.mem_self hsl
  have hsame := hC.frame.same s (by simp [hps.symm, hqs.symm])
  have hib {x : Nat} (hx : V.ibit x = true) : W.ibit x = true := by rw [hC.ibit]; exact hx
  have hstamp := Frame.setInode hC.frame.wf (i := s) (x := (W.inode s).stamp timeCtime t') rfl rfl
  have hF : Frame sb [p, q, s] V _ G G := (hC.frame.mono (by simp)).trans (hstamp.mono (by simp))
  have hZ {x : Nat} (hx : x ≠ s) : (W.setInode s ((W.inode s).stamp timeCtime t')).inode x = W.inode x :=
    Function.update_of_ne hx _ _
  have hZs : (W.setInode s ((W.inode s).stamp timeCtime t')).inode s = (W.inode s).stamp timeCtime t' :=
    Function.update_self _ _ _
  have hperm (x : Nat) : SamePerm (V.inode x) ((W.setInode s ((W.inode s).stamp timeCtime t')).inode x) := by
    refine (hC.perm x).trans ?_
    by_cases hx : x = s
    · rw [hx, hZs]
      exact ⟨rfl, rfl, rfl⟩
    · rw [hZ hx]
      exact SamePerm.refl _
  refine ⟨h.move hok hF hp hq hpq hC.slot hl hsl hC.ibit (fun x => (hperm x).isDir) (hC.added.perm.map Prod.snd)
    hC.added.length_le hC.distinct (hC.source.of_frame hok hstamp (hib (h.used_of_isDir hp)) (by simpa using hps))
    (hC.target.of_frame hok hstamp (hib (h.used_of_isDir hq)) (by simpa using hqs))
    (fun hd => by rw [hnd] at hd; cases hd) (fun _ => ?_) ⟨rfl, rfl⟩ ?_ ?_ ?_, hF, hperm⟩
  · rw [hZs]
    have := (h.node s).sized hsu hnd
    rw [← hsame.inode] at this
    exact this
  · rw [hZ hps, hC.sourceLinks, hnd]
    rfl
  · rw [hZ hqs, hC.targetLinks, hnd]
    rfl
  · rw [hZs, ← hsame.inode]
    rfl

/-- A directory also gets a new `..` entry, and its two parents new link counts. -/
theorem Carried.vol_dir (hd : (V.inode s).isDir = true) (hfew : (V.inode q).iLinks.toNat < 65535) {U Z : View} {a b t' : UInt64}
    (hfill : Filled W U (G.data s) 0 1 (fun _ => dotdotBlock (W.blk ((G.data s).getD 0 0)) q))
    (hZ : Z = reparented U W p q s a b t') :
    Vol sb Z G (Function.update (Function.update T p ((T p).set j none)) q t) (Function.update up s q) ∧
      Frame sb [p, q, s] V Z G G ∧ Z.ibit = V.ibit ∧ ∀ x, SamePerm (V.inode x) (Z.inode x) := by
  obtain ⟨hsu, hsr, hps⟩ := hC.kid h hp
  have hqs : q ≠ s := ne_of_mem_of_not_mem hl.mem_self hsl
  have hpu := h.used_of_isDir hp
  have hqu := h.used_of_isDir hq
  have hsame := hC.frame.same s (by simp [hps.symm, hqs.symm])
  have hibW {x : Nat} (hx : V.ibit x = true) : W.ibit x = true := by rw [hC.ibit]; exact hx
  have hibU : U.ibit = V.ibit := hfill.ibit.trans hC.ibit
  have hib {x : Nat} (hx : V.ibit x = true) : U.ibit x = true := by rw [hibU]; exact hx
  -- the new `..` entry
  have hdot : Dotted sb W s (G.nodes s) (G.data s) s (up s) (T s) :=
    ⟨(h.dotted hd hsr).dir.of_same hok hC.frame.wf hsame hsu, (h.dotted hd hsr).large⟩
  have hq2 := (h.node q).low hqu
  have hq32 := lt_trans (h.wf.range q hqu) (lt_trans hok.inodes_lt (by decide : 33554432 < 4294967296))
  have hre := hdot.rewritten hC.frame.wf hok (by simp only [rootInodeNum] at hq2; omega) hq32 hfill
  -- the two link counts, then the time stamp
  have hin := hfill.inode
  have hinq : (U.setInode p (nlinkInode (W.inode p) (-1) a)).inode q = W.inode q := by
    rw [← hin]
    exact Function.update_of_ne hpq.symm _ _
  have hF₂ := Frame.setInode hre.frame.wf (i := p) (x := nlinkInode (W.inode p) (-1) a) (by rw [hin]; rfl) (by rw [hin]; rfl)
  have hF₃ := Frame.setInode hF₂.wf (i := q) (x := nlinkInode (W.inode q) 1 b) (by rw [hinq]; rfl) (by rw [hinq]; rfl)
  have hF₄ := Frame.setInode hF₃.wf (i := s) (x := (((U.setInode p (nlinkInode (W.inode p) (-1) a)).setInode q
    (nlinkInode (W.inode q) 1 b)).inode s).stamp timeCtime t') rfl rfl
  rw [← reparented, ← hZ] at hF₄
  have hF : Frame sb [p, q, s] V Z G G := ((((hC.frame.mono (by simp)).trans (hre.frame.mono (by simp))).trans
    (hF₂.mono (by simp))).trans (hF₃.mono (by simp))).trans (hF₄.mono (by simp))
  obtain ⟨hZp, hZq, hZs, hZo⟩ := reparented_inode hin hpq hps hqs hZ
  have hibZ : Z.ibit = V.ibit := by
    rw [hZ]
    exact hibU
  have hperm (x : Nat) : SamePerm (V.inode x) (Z.inode x) := by
    refine (hC.perm x).trans ?_
    by_cases hxp : x = p
    · rw [hxp, hZp]
      exact nlinkInode_samePerm _ _ _
    · by_cases hxq : x = q
      · rw [hxq, hZq]
        exact nlinkInode_samePerm _ _ _
      · by_cases hxs : x = s
        · rw [hxs, hZs]
          exact ⟨rfl, rfl, rfl⟩
        · rw [hZo x hxp hxq hxs]
          exact SamePerm.refl _
  have hpd : DirAt sb Z p (G.nodes p) (G.data p) (lead up p ++ (T p).set j none) := by
    have hU := hC.source.of_frame hok hre.frame (hibW hpu) (by simpa using hps)
    have hU₂ := hU.setInode (x := nlinkInode (W.inode p) (-1) a) (by rw [hin]; rfl) (by rw [hin]; rfl) (by rw [hin]; rfl)
      (by rw [hin]; rfl)
    exact (hU₂.of_frame hok hF₃ (hib hpu) (by simpa using hpq)).of_frame hok hF₄ (hib hpu) (by simpa using hps)
  have hqd : DirAt sb Z q (G.nodes q) (G.data q) (lead up q ++ t) := by
    have hU := hC.target.of_frame hok hre.frame (hibW hqu) (by simpa using hqs)
    have hU₂ := (hU.of_frame hok hF₂ (hib hqu) (by simpa using Ne.symm hpq)).setInode
      (x := nlinkInode (W.inode q) 1 b) (by rw [hinq]; rfl) (by rw [hinq]; rfl) (by rw [hinq]; rfl) (by rw [hinq]; rfl)
    exact hU₂.of_frame hok hF₄ (hib hqu) (by simpa using hqs)
  have hsd : DirAt sb Z s (G.nodes s) (G.data s) (lead (Function.update up s q) s ++ T s) := by
    have hU₂ := (hre.dir.of_frame hok hF₂ (hib hsu) (by simpa using Ne.symm hps)).of_frame hok hF₃ (hib hsu)
      (by simpa using Ne.symm hqs)
    rw [lead_of_ne hsr, Function.update_self, hZ]
    exact hU₂.setInode rfl rfl rfl rfl
  have hpos : (W.inode p).iLinks ≠ 0 := fun h0 => by
    have := ((h.node p).dir hp).links
    rw [← hC.sourceLinks, h0, UInt16.toNat_zero] at this
    omega
  refine ⟨h.move hok hF hp hq hpq hC.slot hl hsl hibZ (fun x => (hperm x).isDir) (hC.added.perm.map Prod.snd)
    hC.added.length_le hC.distinct hpd hqd (fun _ => hsd) (fun hnd => by rw [hd] at hnd; cases hnd) ⟨rfl, rfl⟩ ?_ ?_ ?_,
    hF, hibZ, hperm⟩
  · rw [hd, if_pos rfl, hZp, toNat_nlinkInode_pred hpos, hC.sourceLinks]
  · rw [hd, if_pos rfl, hZq, toNat_nlinkInode_succ (by rw [hC.targetLinks]; exact hfew), hC.targetLinks]
  · rw [hZs, ← hsame.inode]
    rfl

end Carried

/-- The tree after a move to another directory. -/
theorem MovePost.vol_cross {l : List Nat} (h : Vol sb V G T up) (hok : sb.Ok) (hp : (V.inode p).isDir = true)
    (hq : (V.inode q).isDir = true) (hpq : p ≠ q) (hlead : some (n, s) ∉ lead up p) (hl : Climb up rootInodeNum q l)
    (hcyc : ¬ ((V.inode s).isDir = true ∧ s ∈ l))
    (hroom : none ∈ dirSlots up T q ∨ (dirSlots up T q).length % entriesPerBlk sb ≠ 0)
    (hfew : (V.inode s).isDir = true → (V.inode q).iLinks.toNat < 65535)
    (hM : MovePost sb V W G T up p n s q nn (.ok ())) :
    ∃ j t, (T p)[j]? = some (some (n, s)) ∧ lookup (dirSlots up T q) nn = none ∧ Added (T q) nn s t ∧
      Vol sb W G (Function.update (Function.update T p ((T p).set j none)) q t) (Function.update up s q) ∧
      Frame sb [p, q, s] V W G G ∧ W.ibit = V.ibit ∧ ∀ x, SamePerm (V.inode x) (W.inode x) := by
  obtain ⟨k, V₁, r₁, W₁, hk, hset, hadd, hr₁⟩ := hM
  cases r₁ with
  | error e => cases hr₁.1
  | ok u =>
  obtain ⟨-, V', hV', t', rfl⟩ := hr₁
  rw [slotsWithout, if_neg hpq] at hadd
  obtain ⟨j, t, hC⟩ := Carried.of_add h hok hp hq hpq hlead hroom hk hset hadd
  obtain ⟨-, hsr, -⟩ := hC.kid h hp
  refine ⟨j, t, hC.slot, hC.fresh, hC.added, ?_⟩
  cases hd : (V.inode s).isDir with
  | true =>
    have hsl : s ∉ l := fun hm => hcyc ⟨hd, hm⟩
    rw [if_pos ⟨hd, hpq⟩] at hV'
    obtain ⟨U, a, b, hfill, rfl⟩ := hV'
    exact hC.vol_dir h hok hp hq hpq hl hsl hd (hfew hd) hfill rfl
  | false =>
    have hqs : q ≠ s := by
      rintro rfl
      rw [hq] at hd
      cases hd
    have hsl : s ∉ l := h.tree.not_mem_climb (kids_nil ((h.node s).flat hd)) (h.used_of_isDir hq) hqs hl hsr
    rw [hd, if_neg (by rintro ⟨⟨⟩, -⟩)] at hV'
    subst hV'
    obtain ⟨hvol, hF, hperm⟩ := hC.vol_file h hok hp hq hpq hl hsl hd t'
    exact ⟨hvol, hF, hC.ibit, hperm⟩

/-- What the names of directory `D` denote once `s` has moved from `n` in `p` to `nn` in `q`. -/
def movedLookup (T : Nat → List Slot) (up : Nat → Nat) (p : Nat) (n : Name) (q : Nat) (nn : Name) (s D : Nat) (x : Name) :
    Option Nat :=
  if D = q ∧ x = nn then some s
  else if D = p ∧ x = n then none
  else if D = s ∧ x = dotdot then some q
  else lookup (dirSlots up T D) x

/-- A directory other than the root holds its two dot names. -/
theorem lookup_dotdot (hr : i ≠ rootInodeNum) : lookup (dirSlots up T i) dotdot = some (up i) := by
  rw [lookup_dirSlots hr, if_neg (by decide), if_pos rfl]

theorem lookup_without_slot (h : Vol sb V G T up) (hp : (V.inode p).isDir = true) (hj : (T p)[j]? = some (some (n, s)))
    (x : Name) : lookup (lead up p ++ (T p).set j none) x = if x = n then none else lookup (dirSlots up T p) x := by
  rw [← dirSlots_set]
  exact ((h.node p).dir hp).distinct.lookup_clear (dirSlots_getElem hj)

/-- A successful move: the tree is well formed again, and one entry has moved. -/
theorem MovePost.moved {l : List Nat} (h : Vol sb V G T up) (hok : sb.Ok) (hp : (V.inode p).isDir = true)
    (hq : (V.inode q).isDir = true) (hdot : isDotOrDotdotName n = false) (hdot' : isDotOrDotdotName nn = false)
    (hl : Climb up rootInodeNum q l) (hcyc : ¬ ((V.inode s).isDir = true ∧ s ∈ l))
    (hroom : p = q ∨ none ∈ dirSlots up T q ∨ (dirSlots up T q).length % entriesPerBlk sb ≠ 0)
    (hfew : (V.inode s).isDir = true → (V.inode q).iLinks.toNat < 65535) (hM : MovePost sb V W G T up p n s q nn (.ok ())) :
    ∃ T', Vol sb W G T' (Function.update up s q) ∧ Frame sb [p, q, s] V W G G ∧ W.ibit = V.ibit ∧
      (∀ x, SamePerm (V.inode x) (W.inode x)) ∧ ∀ D, (V.inode D).isDir = true → ∀ x,
        lookup (dirSlots (Function.update up s q) T' D) x = movedLookup T up p n q nn s D x := by
  have hlead : some (n, s) ∉ lead up p := not_mem_lead_of_name hdot _ _
  have hnd : n ≠ dotdot ∧ nn ≠ dotdot := by
    simp only [isDotOrDotdotName, Bool.or_eq_false_iff, decide_eq_false_iff_not] at hdot hdot'
    exact ⟨hdot.2, hdot'.2⟩
  by_cases hpq : p = q
  · subst hpq
    obtain ⟨j, t, hj, hnone, hA, hvol, hF, hib, hperm⟩ := MovePost.vol_same h hok hp hlead hM
    obtain ⟨hsu, hsr, hup⟩ := h.kid hp (List.mem_of_getElem? hj)
    have hups : Function.update up s p = up := by
      rw [← hup]
      exact Function.update_eq_self _ _
    rw [hups]
    refine ⟨_, hvol, hF.mono (by simp), hib, hperm, fun D hD x => ?_⟩
    rw [movedLookup]
    by_cases hDp : D = p
    · subst hDp
      rw [dirSlots_update_self, (hA.prepend _).lookup hnone, lookup_without_slot h hp hj]
      have hDs : D ≠ s := by
        rw [← hup]
        exact h.tree.up_ne hsu hsr
      simp only [true_and, hDs, false_and, if_false]
    · rw [dirSlots, Function.update_of_ne hDp, ← dirSlots]
      simp only [hDp, false_and, if_false]
      split
      · next he => rw [he.1, he.2, lookup_dotdot hsr, hup]
      · rfl
  · obtain ⟨j, t, hj, hnone, hA, hvol, hF, hib, hperm⟩ :=
      MovePost.vol_cross h hok hp hq hpq hlead hl hcyc (hroom.resolve_left hpq) hfew hM
    obtain ⟨hsu, hsr, hup⟩ := h.kid hp (List.mem_of_getElem? hj)
    have hps : p ≠ s := by
      rw [← hup]
      exact h.tree.up_ne hsu hsr
    have hqs : q ≠ s := by
      rintro rfl
      exact hcyc ⟨hq, hl.mem_self⟩
    refine ⟨_, hvol, hF, hib, hperm, fun D hD x => ?_⟩
    rw [movedLookup, dirSlots]
    by_cases hDq : D = q
    · subst hDq
      rw [Function.update_self, lead_update_of_ne hqs, (hA.prepend _).lookup hnone, ← dirSlots]
      simp only [true_and, Ne.symm hpq, hqs, false_and, if_false]
    · rw [Function.update_of_ne hDq]
      by_cases hDp : D = p
      · subst hDp
        rw [Function.update_self, lead_update_of_ne hps, lookup_without_slot h hp hj]
        simp only [hDq, hps, true_and, false_and, if_false]
      · rw [Function.update_of_ne hDp]
        simp only [hDq, hDp, false_and, if_false]
        by_cases hDs : D = s
        · subst hDs
          rw [← dirSlots, lookup_dirSlots hsr, lookup_dirSlots hsr, Function.update_self]
          by_cases hx : x = dotdot
          · subst hx
            simp [show dotdot ≠ dot by decide]
          · simp [hx]
        · rw [lead_update_of_ne hDs, ← dirSlots]
          simp only [hDs, false_and, if_false]

theorem not_cycle_of_moveChecks {l : List Nat} (h : moveChecks V user p s q l = .ok ()) :
    ¬ ((V.inode s).isDir = true ∧ s ∈ l) := fun hc => by
  rw [moveChecks, if_pos hc] at h
  cases h

/-- The inodes in use after a rename that replaced the destination, if there was one. -/
def renamedBits (V : View) (new : PathInfo) : Nat → Bool :=
  if new.leafFound = true then Function.update V.ibit new.leafInodeNum false else V.ibit

/-- Inode `D` is not the destination that the rename removes. -/
def remains (new : PathInfo) (D : Nat) : Prop := new.leafFound = true → D ≠ new.leafInodeNum

theorem movedLookup_without {t D : Nat} (h : Vol sb V G T up) (hq : (V.inode q).isDir = true)
    (hj : (T q)[j]? = some (some (nn, t))) (hD : D ≠ t) (x : Name) :
    movedLookup (without T q j t) up p n q nn s D x = movedLookup T up p n q nn s D x := by
  rw [movedLookup, movedLookup]
  by_cases hDx : D = q ∧ x = nn
  · rw [if_pos hDx, if_pos hDx]
  · have hlook : lookup (dirSlots up (without T q j t) D) x = lookup (dirSlots up T D) x := by
      rw [dirSlots, without, Function.update_of_ne hD]
      by_cases hDq : D = q
      · subst hDq
        rw [Function.update_self, lookup_without_slot h hq hj, if_neg fun he => hDx ⟨rfl, he⟩]
      · rw [Function.update_of_ne hDq, ← dirSlots]
    rw [hlook]

/-- The tree after a rename that succeeded and found room in the blocks of the new parent. -/
theorem RenameStage.moved (h : Vol sb V G T up) (hok : sb.Ok) (hP : RenamePaths V T up user oldPath newPath old new)
    (hne : ¬ (new.leafFound = true ∧ new.leafInodeNum = old.leafInodeNum))
    (hroom : new.leafFound = true ∨ old.parentInodeNum = new.parentInodeNum ∨ none ∈ dirSlots up T new.parentInodeNum ∨
      (dirSlots up T new.parentInodeNum).length % entriesPerBlk sb ≠ 0)
    (hfew : (V.inode old.leafInodeNum).isDir = true → (V.inode new.parentInodeNum).iLinks.toNat < 65535)
    (hR : RenameStage sb V W G T up user old new (.ok ())) :
    ∃ H T', Vol sb W H T' (Function.update up old.leafInodeNum new.parentInodeNum) ∧ W.ibit = renamedBits V new ∧
      (∀ x, remains new x → SamePerm (V.inode x) (W.inode x)) ∧ ∀ D, (V.inode D).isDir = true → remains new D → ∀ x,
        lookup (dirSlots (Function.update up old.leafInodeNum new.parentInodeNum) T' D) x =
          movedLookup T up old.parentInodeNum old.leafName new.parentInodeNum new.leafName old.leafInodeNum D x := by
  obtain ⟨hold, hnew, hvalid, hsrc⟩ := hP.located h
  unfold RenameStage at hR
  rw [renamedBits]
  by_cases hf : new.leafFound = true
  · rw [if_pos hf] at hR ⊢
    have hst : old.leafInodeNum ≠ new.leafInodeNum := fun he => hne ⟨hf, he.symm⟩
    cases hc : destChecks V T user old.leafInodeNum new.parentInodeNum new.leafInodeNum with
    | error e =>
      rw [hc] at hR
      cases hR.1
    | ok u =>
      rw [hc] at hR
      obtain ⟨V₁, H, j, hD, hj, hV₁, l, hl, hstage⟩ := hR
      obtain ⟨hperm, hpt, hqt, -⟩ := hD.source hV₁ hj hold.dir (kids_of_destChecks h hc) hsrc hst
      cases hm : moveChecks V₁ user old.parentInodeNum old.leafInodeNum new.parentInodeNum l with
      | error e =>
        rw [hm] at hstage
        cases hstage.1
      | ok u =>
        rw [hm] at hstage
        have hvac : none ∈ dirSlots up (without T new.parentInodeNum j new.leafInodeNum) new.parentInodeNum := by
          have hlt := (List.getElem?_eq_some_iff.mp hj).1
          rw [dirSlots, without, Function.update_of_ne hqt, Function.update_self]
          exact List.mem_append_right _ (List.mem_iff_getElem.mpr ⟨j, by simpa using hlt, by simp⟩)
        have hlinks : (V₁.inode old.leafInodeNum).isDir = true → (V₁.inode new.parentInodeNum).iLinks.toNat < 65535 := by
          intro hd
          have := hfew ((hperm _ hst).isDir.symm.trans hd)
          have := hD.links
          omega
        obtain ⟨T', hvol, -, hib, hperm', hlook⟩ := MovePost.moved hV₁ hok ((hperm _ hpt).isDir.trans hold.dir)
          ((hperm _ hqt).isDir.trans hnew.dir) hP.oldName hP.newName hl (not_cycle_of_moveChecks hm) (.inr (.inl hvac))
          hlinks hstage
        refine ⟨H, T', hvol, hib.trans hD.ibit, fun x hrem => (hperm x (hrem hf)).trans (hperm' x), fun D hDd hrem x => ?_⟩
        rw [hlook D ((hperm D (hrem hf)).isDir.trans hDd), movedLookup_without h hnew.dir hj (hrem hf)]
  · rw [if_neg hf] at hR ⊢
    obtain ⟨l, hl, hstage⟩ := hR
    cases hm : moveChecks V user old.parentInodeNum old.leafInodeNum new.parentInodeNum l with
    | error e =>
      rw [hm] at hstage
      cases hstage.1
    | ok u =>
      rw [hm] at hstage
      obtain ⟨T', hvol, -, hib, hperm, hlook⟩ := MovePost.moved h hok hold.dir hnew.dir hP.oldName hP.newName hl
        (not_cycle_of_moveChecks hm) (hroom.resolve_left hf) hfew hstage
      exact ⟨G, T', hvol, hib, fun x _ => hperm x, fun D hDd _ => hlook D hDd⟩

/-- The entry for a move from directory `p` finds no place in directory `q`. -/
def NoPlace (sb : Superblock) (V : View) (G : Owners) (T : Nat → List Slot) (up : Nat → Nat) (p q : Nat) : Prop :=
  sb.maxSlots ≤ (dirSlots up T q).length ∨
    (p ≠ q ∧ none ∉ dirSlots up T q ∧ (dirSlots up T q).length % entriesPerBlk sb = 0 ∧
      ¬ sb.canGrow V (G.data q).length 1)

/-- When `add_dir_entry` of a new name fails. -/
def NoRoom (sb : Superblock) (V : View) (G : Owners) (q : Nat) (slots : List Slot) : Prop :=
  sb.maxSlots ≤ slots.length ∨
    (none ∉ slots ∧ slots.length % entriesPerBlk sb = 0 ∧ ¬ sb.canGrow V (G.data q).length 1)

theorem AddPost.error_iff {r : Except Errno Unit} (h : AddPost sb V W G q slots name c r)
    (hl : lookup slots name = none) : (∃ e, r = .error e) ↔ NoRoom sb V G q slots := by
  unfold AddPost at h
  rw [NoRoom]
  by_cases hmax : sb.maxSlots ≤ slots.length
  · rw [if_pos hmax] at h
    exact iff_of_true ⟨_, h.1⟩ (.inl hmax)
  · rw [if_neg hmax, hl, if_neg (by simp)] at h
    cases hv : vacant slots with
    | some k =>
      rw [hv] at h
      refine iff_of_false (fun ⟨e, he⟩ => by rw [h.1] at he; cases he) ?_
      rintro (hc | ⟨hc, -⟩)
      · exact hmax hc
      · exact hc (List.mem_of_getElem? (vacant_spec hv).2)
    | none =>
      rw [hv] at h
      rw [vacant_eq_none] at hv
      dsimp only at h
      by_cases hmod : slots.length % entriesPerBlk sb ≠ 0
      · rw [if_pos hmod] at h
        refine iff_of_false (fun ⟨e, he⟩ => by rw [h.1] at he; cases he) ?_
        rintro (hc | ⟨-, hc, -⟩)
        · exact hmax hc
        · exact hmod hc
      · rw [if_neg hmod] at h
        by_cases hg : sb.canGrow V (G.data q).length 1
        · rw [if_pos hg] at h
          refine iff_of_false (fun ⟨e, he⟩ => by rw [h.1] at he; cases he) ?_
          rintro (hc | ⟨-, -, hc⟩)
          · exact hmax hc
          · exact hc hg
        · rw [if_neg hg] at h
          exact iff_of_true ⟨_, h.1⟩ (.inr ⟨hv, not_not.mp hmod, hg⟩)

theorem MovePost.error_iff {r : Except Errno Unit} (h : Vol sb V G T up) (hp : (V.inode p).isDir = true)
    (hfree : lookup (dirSlots up T q) nn = none) (hM : MovePost sb V W G T up p n s q nn r) :
    (∃ e, r = .error e) ↔ NoPlace sb V G T up p q := by
  obtain ⟨k, V₁, r₁, W₁, hk, hset, hadd, hr₁⟩ := hM
  have hfree₁ : lookup (slotsWithout up T p q k) nn = none := by
    rw [slotsWithout]
    split
    · rename_i hpq
      rw [((h.node p).dir hp).distinct.lookup_clear hk, hpq, hfree, ite_self]
    · exact hfree
  have hr : (∃ e, r = .error e) ↔ ∃ e, r₁ = .error e := by
    cases r₁ with
    | error e => exact iff_of_true ⟨e, hr₁.1⟩ ⟨e, rfl⟩
    | ok u => rw [hr₁.1]
  rw [hr, hadd.error_iff hfree₁, NoRoom, NoPlace, slotsWithout, Superblock.canGrow, Superblock.canGrow, Superblock.freeData,
    Superblock.freeData, hset.dbit]
  by_cases hpq : p = q
  · subst hpq
    have hvac : none ∈ (dirSlots up T p).set k none :=
      List.mem_iff_getElem.mpr ⟨k, by simpa using (List.getElem?_eq_some_iff.mp hk).1, by simp⟩
    simp [hvac]
  · simp [hpq]

end Mofs
