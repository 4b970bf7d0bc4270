import Mofs.Volume

namespace Mofs

open Effect Bytes Slots Mofs.Tree

variable {sb : Superblock} {V W : View} {G H : Owners} {T : Nat → List Slot} {up : Nat → Nat} {i p q c s j : Nat}
  {name : Name} {t tc tq : List Slot}

theorem kids_update_self (T : Nat → List Slot) (i : Nat) (t : List Slot) :
    kids (Function.update T i t) i = (entries t).map Prod.snd := by simp [kids]

theorem kids_update_of_ne (T : Nat → List Slot) (h : j ≠ i) (t : List Slot) : kids (Function.update T i t) j = kids T j := by
  simp [kids, h]

theorem dirSlots_update_self (T : Nat → List Slot) (i : Nat) (t : List Slot) :
    dirSlots up (Function.update T i t) i = lead up i ++ t := by simp [dirSlots]

theorem DirNode.data_ne (hok : sb.Ok) (h : DirNode sb W H T up i) : H.data i ≠ [] := fun he => by
  have hE := hok.entries_ge
  have hlt := h.dirAt.div_lt hok (show 0 < (dirSlots up T i).length by have := h.large; omega)
  rw [he] at hlt
  exact Nat.not_lt_zero _ hlt

/-- A directory in use. -/
theorem NodeOk.of_dir (hok : sb.Ok) (hi : W.ibit i = true) (hlow : rootInodeNum ≤ i) (hd : (W.inode i).isDir = true)
    (h : DirNode sb W H T up i) : NodeOk sb W H T up i := by
  refine ⟨fun hi' => ?_, fun _ => hlow, fun _ hd' => ?_, fun he => absurd he (h.data_ne hok), fun hd' => ?_, fun _ => h⟩
  · rw [hi] at hi'
    cases hi'
  · rw [hd] at hd'
    cases hd'
  · rw [hd] at hd'
    cases hd'

/-- A free inode. -/
theorem NodeOk.of_free (hW : Wf sb W H) (hi : W.ibit i = false) (hz : W.inode i = Inode.zero) (hT : T i = []) :
    NodeOk sb W H T up i := by
  have hd : (W.inode i).isDir = false := by rw [hz]; rfl
  refine ⟨fun _ => hz, fun hi' => ?_, fun hi' _ => ?_, fun _ => (hW.free i hi).1, fun _ => hT, fun hd' => ?_⟩
  · rw [hi] at hi'
    cases hi'
  · rw [hi] at hi'
    cases hi'
  · rw [hd] at hd'
    cases hd'

/-- A new entry for a new inode. -/
theorem Vol.link (h : Vol sb V G T up) (hok : sb.Ok) (hF : Frame sb [p, c] V W G H) (hp : (V.inode p).isDir = true)
    (hc : V.ibit c = false) (hib : W.ibit = Function.update V.ibit c true) (hj : (T p)[j]? = some none)
    (hname : lookup (dirSlots up T p) name = none) (htc : entries tc = [])
    (hpd : DirAt sb W p (H.nodes p) (H.data p) (lead up p ++ (T p).set j (some (name, c))))
    (hlinks : (W.inode p).iLinks.toNat = (V.inode p).iLinks.toNat + if (W.inode c).isDir then 1 else 0)
    (hnode : NodeOk sb W H (Function.update (Function.update T p ((T p).set j (some (name, c)))) c tc)
      (Function.update up c p) c) :
    Vol sb W H (Function.update (Function.update T p ((T p).set j (some (name, c)))) c tc) (Function.update up c p) := by
  have hpu := h.used_of_isDir hp
  have hpc : p ≠ c := by
    rintro rfl
    rw [hpu] at hc
    cases hc
  have hdir {x : Nat} (hx : x ≠ c) : (W.inode x).isDir = (V.inode x).isDir := by
    by_cases hxp : x = p
    · rw [hxp, hpd.isDir, hp]
    · rw [(hF.same x (by simp [hxp, hx])).inode]
  have hkc : kids (Function.update (Function.update T p ((T p).set j (some (name, c)))) c tc) c = [] := by
    rw [kids_update_self, htc]
    rfl
  have hkp : (kids (Function.update (Function.update T p ((T p).set j (some (name, c)))) c tc) p).Perm (c :: kids T p) := by
    rw [kids_update_of_ne _ hpc, kids_update_self]
    exact (entries_put (e := (name, c)) hj).map Prod.snd
  have hko (x : Nat) (hxc : x ≠ c) (hxp : x ≠ p) :
      kids (Function.update (Function.update T p ((T p).set j (some (name, c)))) c tc) x = kids T x := by
    rw [kids_update_of_ne _ hxc, kids_update_of_ne _ hxp]
  have hnew {x : Nat} (hx : V.ibit x = true) : c ∉ kids T x := fun hm => by
    have := (h.tree.kid x hx c hm).1
    rw [hc] at this
    cases this
  have hcr : c ≠ rootInodeNum := fun he => by
    have := h.rootUsed
    rw [← he, hc] at this
    cases this
  have hused (x : Nat) : W.ibit x = true ↔ V.ibit x = true ∨ x = c := by
    rw [hib]
    by_cases hx : x = c <;> simp [hx]
  refine h.rebuild hok hF (by rw [hdir hcr.symm]; exact h.rootDir) ?_ (fun x hx => ?_) (fun x hx _ _ => ?_)
    (fun x hx y hy => ?_) fun x hx => ?_
  · exact h.tree.insert_perm hpu (by rw [hc]; decide) hused hkc hkp hko
  · simp only [List.mem_cons, List.not_mem_nil, or_false, not_or] at hx
    rw [Function.update_of_ne hx.2, Function.update_of_ne hx.1]
  · simp only [List.mem_cons, List.not_mem_nil, or_false, not_or] at hx
    exact Function.update_of_ne hx.2 _ _
  · by_cases hx : V.ibit x = true
    · exact hdir fun he => hnew hx (he ▸ hy)
    · rw [kids_nil ((h.node x).flat (by rw [(h.node x).zero (by simpa using hx)]; rfl))] at hy
      cases hy
  · simp only [List.mem_cons, List.not_mem_nil, or_false] at hx
    rcases hx with rfl | rfl
    · obtain ⟨hdir', hlarge, hdist, hln⟩ := (h.node x).dir hp
      have hslots : dirSlots (Function.update up c x) (Function.update (Function.update T x ((T x).set j (some (name, c)))) c tc) x =
          (dirSlots up T x).set ((lead up x).length + j) (some (name, c)) := by
        rw [dirSlots_set, dirSlots, Function.update_of_ne hpc, Function.update_self]
        congr 1
        by_cases hr : x = rootInodeNum
        · subst hr
          simp
        · rw [lead_of_ne hr, lead_of_ne hr, Function.update_of_ne hpc]
      refine .of_dir hok ((hused x).mpr (.inl hpu)) ((h.node x).low hpu) hpd.isDir ⟨?_, ?_, ?_, ?_⟩
      · rw [hslots, dirSlots_set]
        exact hpd
      · rw [hslots, List.length_set]
        exact hlarge
      · rw [hslots]
        exact hdist.put hname (dirSlots_getElem hj)
      · rw [hlinks, hln, hkp.countP_eq, List.countP_cons, Nat.add_assoc]
        congr 2
        exact List.countP_congr fun y hy => by rw [hdir fun he => hnew hpu (he ▸ hy)]
    · exact hnode

theorem mem_pair {x : Nat} : x ∉ [p, c] ↔ x ≠ p ∧ x ≠ c := by simp

/-- The children of inodes that are not in use. -/
theorem Vol.kids_of_free (h : Vol sb V G T up) (hi : V.ibit i = false) : kids T i = [] :=
  kids_nil ((h.node i).flat (by rw [(h.node i).zero hi]; rfl))

/-- Only its parent lists an inode. -/
theorem Vol.not_mem_kids (h : Vol sb V G T up) (hi : up c ≠ i) : c ∉ kids T i := fun hm => by
  cases hu : V.ibit i with
  | true => exact hi (h.tree.kid i hu c hm).2.2
  | false =>
    rw [h.kids_of_free hu] at hm
    cases hm

/-- An entry and its inode gone. -/
theorem Vol.unlink (h : Vol sb V G T up) (hok : sb.Ok) (hF : Frame sb [p, c] V W G H) (hp : (V.inode p).isDir = true)
    (hj : (T p)[j]? = some (some (name, c))) (hleaf : kids T c = []) (hib : W.ibit = Function.update V.ibit c false)
    (hz : W.inode c = Inode.zero) (hpd : DirAt sb W p (H.nodes p) (H.data p) (lead up p ++ (T p).set j none))
    (hlinks : (W.inode p).iLinks.toNat + (if (V.inode c).isDir then 1 else 0) = (V.inode p).iLinks.toNat) :
    Vol sb W H (Function.update (Function.update T p ((T p).set j none)) c []) up := by
  have hpu := h.used_of_isDir hp
  obtain ⟨hcu, hcr, hup⟩ := h.kid hp (List.mem_of_getElem? hj)
  have hpc : p ≠ c := by
    rintro rfl
    have := mem_kids.mpr ⟨name, List.mem_of_getElem? hj⟩
    rw [hleaf] at this
    cases this
  have hdir {x : Nat} (hx : x ≠ c) : (W.inode x).isDir = (V.inode x).isDir := by
    by_cases hxp : x = p
    · rw [hxp, hpd.isDir, hp]
    · rw [(hF.same x (mem_pair.mpr ⟨hxp, hx⟩)).inode]
  have hkc : kids (Function.update (Function.update T p ((T p).set j none)) c []) c = [] := by
    rw [kids_update_self]
    rfl
  have hkp : (c :: kids (Function.update (Function.update T p ((T p).set j none)) c []) p).Perm (kids T p) := by
    rw [kids_update_of_ne _ hpc, kids_update_self]
    exact (entries_clear hj).map Prod.snd
  have hko (x : Nat) (hxc : x ≠ c) (hxp : x ≠ p) :
      kids (Function.update (Function.update T p ((T p).set j none)) c []) x = kids T x := by
    rw [kids_update_of_ne _ hxc, kids_update_of_ne _ hxp]
  have hused (x : Nat) : W.ibit x = true ↔ V.ibit x = true ∧ x ≠ c := by
    rw [hib]
    by_cases hx : x = c <;> simp [hx]
  have hnot := (List.nodup_cons.mp (hkp.nodup_iff.mpr (h.tree.nodup p hpu))).1
  refine h.rebuild hok hF (by rw [hdir hcr.symm]; exact h.rootDir) ?_ (fun x hx => ?_) (fun _ _ _ _ => rfl)
    (fun x hx y hy => ?_) fun x hx => ?_
  · exact h.tree.remove_perm hcu hcr hleaf hup hused hkp hko
  · obtain ⟨hxp, hxc⟩ := mem_pair.mp hx
    rw [Function.update_of_ne hxc, Function.update_of_ne hxp]
  · obtain ⟨hxp, hxc⟩ := mem_pair.mp hx
    exact hdir fun he => h.not_mem_kids (c := c) (i := x) (by rw [hup]; exact Ne.symm hxp) (he ▸ hy)
  · simp only [List.mem_cons, List.not_mem_nil, or_false] at hx
    rcases hx with rfl | rfl
    · obtain ⟨-, hlarge, hdist, hln⟩ := (h.node x).dir hp
      have hslots : dirSlots up (Function.update (Function.update T x ((T x).set j none)) c []) x =
          (dirSlots up T x).set ((lead up x).length + j) none := by
        rw [dirSlots_set, dirSlots, Function.update_of_ne hpc, Function.update_self]
      refine .of_dir hok ((hused x).mpr ⟨hpu, hpc⟩) ((h.node x).low hpu) hpd.isDir ⟨?_, ?_, ?_, ?_⟩
      · rw [hslots, dirSlots_set]
        exact hpd
      · rw [hslots, List.length_set]
        exact hlarge
      · rw [hslots]
        exact hdist.clear (dirSlots_getElem hj)
      · have hcount := hkp.countP_eq fun y => (V.inode y).isDir
        rw [List.countP_cons] at hcount
        have hsame := List.countP_congr (p := fun y => (W.inode y).isDir) (q := fun y => (V.inode y).isDir)
          (l := kids (Function.update (Function.update T x ((T x).set j none)) c []) x)
          fun y hy => by rw [hdir (ne_of_mem_of_not_mem hy hnot)]
        rw [hsame]
        omega
    · exact .of_free hF.wf (by simp [hib]) hz (Function.update_self _ _ _)

/-- New slots for the same children of one directory. -/
theorem Vol.relabel (h : Vol sb V G T up) (hok : sb.Ok) (hF : Frame sb [p] V W G H) (hp : (V.inode p).isDir = true)
    (hib : W.ibit = V.ibit) (hpd : DirAt sb W p (H.nodes p) (H.data p) (lead up p ++ t))
    (hlen : (T p).length ≤ t.length) (hdist : Distinct (lead up p ++ t))
    (hkids : ((entries t).map Prod.snd).Perm (kids T p)) (hlinks : (W.inode p).iLinks = (V.inode p).iLinks) :
    Vol sb W H (Function.update T p t) up := by
  have hpu := h.used_of_isDir hp
  have hdir (x : Nat) : (W.inode x).isDir = (V.inode x).isDir := by
    by_cases hxp : x = p
    · rw [hxp, hpd.isDir, hp]
    · rw [(hF.same x (by simpa using hxp)).inode]
  have hk (x : Nat) : (kids (Function.update T p t) x).Perm (kids T x) := by
    by_cases hxp : x = p
    · subst hxp
      rw [kids_update_self]
      exact hkids
    · rw [kids_update_of_ne _ hxp]
  refine h.rebuild hok hF (by rw [hdir]; exact h.rootDir) ?_ (fun x hx => ?_) (fun _ _ _ _ => rfl)
    (fun x _ y _ => hdir y) fun x hx => ?_
  · rw [hib]
    exact ⟨h.rootUsed, fun x hx y hy => h.tree.kid x hx y ((hk x).mem_iff.mp hy),
      fun x hx hr => ⟨(h.tree.parent x hx hr).1, (hk _).mem_iff.mpr (h.tree.parent x hx hr).2⟩,
      fun x hx => (hk x).nodup_iff.mpr (h.tree.nodup x hx), h.tree.rooted⟩
  · exact Function.update_of_ne (by simpa using hx) _ _
  · obtain rfl : x = p := by simpa using hx
    obtain ⟨-, hlarge, -, hln⟩ := (h.node x).dir hp
    refine .of_dir hok (by rw [hib]; exact hpu) ((h.node x).low hpu) hpd.isDir ⟨?_, ?_, ?_, ?_⟩
    · rw [dirSlots_update_self]
      exact hpd
    · rw [dirSlots_update_self, List.length_append]
      rw [dirSlots, List.length_append] at hlarge
      omega
    · rw [dirSlots_update_self]
      exact hdist
    · rw [hlinks, hln, (hk x).countP_eq]
      congr 1
      exact List.countP_congr fun y _ => by rw [hdir]

/-- The names of a directory do not depend on its parent. -/
theorem distinct_lead (up up' : Nat → Nat) (i : Nat) (t : List Slot) : Distinct (lead up i ++ t) ↔ Distinct (lead up' i ++ t) := by
  by_cases hr : i = rootInodeNum
  · subst hr
    simp
  · simp [Distinct, lead_of_ne hr]

theorem lead_update_of_ne (h : i ≠ s) (q : Nat) : lead (Function.update up s q) i = lead up i := by
  by_cases hr : i = rootInodeNum
  · subst hr
    simp
  · rw [lead_of_ne hr, lead_of_ne hr, Function.update_of_ne h]

/-- An entry moved to another directory, where its inode becomes a child. -/
theorem Vol.move {l : List Nat} (h : Vol sb V G T up) (hok : sb.Ok) (hF : Frame sb [p, q, s] V W G H)
    (hp : (V.inode p).isDir = true) (hq : (V.inode q).isDir = true) (hpq : p ≠ q) (hj : (T p)[j]? = some (some (name, s)))
    (hl : Climb up rootInodeNum q l) (hsl : s ∉ l) (hib : W.ibit = V.ibit)
    (hdir : ∀ x, (W.inode x).isDir = (V.inode x).isDir) (htq : ((entries tq).map Prod.snd).Perm (s :: kids T q))
    (hlen : (T q).length ≤ tq.length) (hdist : Distinct (lead up q ++ tq))
    (hpd : DirAt sb W p (H.nodes p) (H.data p) (lead up p ++ (T p).set j none))
    (hqd : DirAt sb W q (H.nodes q) (H.data q) (lead up q ++ tq))
    (hsd : (V.inode s).isDir = true → DirAt sb W s (H.nodes s) (H.data s) (lead (Function.update up s q) s ++ T s))
    (hsf : (V.inode s).isDir = false → (W.inode s).iNrBlocks.toNat = sb.blocksFor (W.inode s).iSize.toNat)
    (hsn : H.nodes s = G.nodes s ∧ H.data s = G.data s)
    (hlp : (W.inode p).iLinks.toNat + (if (V.inode s).isDir then 1 else 0) = (V.inode p).iLinks.toNat)
    (hlq : (W.inode q).iLinks.toNat = (V.inode q).iLinks.toNat + if (V.inode s).isDir then 1 else 0)
    (hls : (W.inode s).iLinks = (V.inode s).iLinks) :
    Vol sb W H (Function.update (Function.update T p ((T p).set j none)) q tq) (Function.update up s q) := by
  have hpu := h.used_of_isDir hp
  have hqu := h.used_of_isDir hq
  obtain ⟨hsu, hsr, hup⟩ := h.kid hp (List.mem_of_getElem? hj)
  have hps : p ≠ s := by
    rw [← hup]
    exact h.tree.up_ne hsu hsr
  have hqs : q ≠ s := ne_of_mem_of_not_mem hl.mem_self hsl
  have hkp : (s :: kids (Function.update (Function.update T p ((T p).set j none)) q tq) p).Perm (kids T p) := by
    rw [kids_update_of_ne _ hpq, kids_update_self]
    exact (entries_clear hj).map Prod.snd
  have hkq : (kids (Function.update (Function.update T p ((T p).set j none)) q tq) q).Perm (s :: kids T q) := by
    rw [kids_update_self]
    exact htq
  have hko (x : Nat) (hxp : x ≠ p) (hxq : x ≠ q) :
      kids (Function.update (Function.update T p ((T p).set j none)) q tq) x = kids T x := by
    rw [kids_update_of_ne _ hxq, kids_update_of_ne _ hxp]
  have hcount (l : List Nat) : l.countP (fun y => (W.inode y).isDir) = l.countP fun y => (V.inode y).isDir :=
    List.countP_congr fun y _ => by rw [hdir]
  refine h.rebuild hok hF (by rw [hdir]; exact h.rootDir) ?_ (fun x hx => ?_) (fun x hx _ _ => ?_)
    (fun x _ y _ => hdir y) fun x hx => ?_
  · rw [hib]
    exact h.tree.move_perm hsu hsr hqu hl hsl hup hpq hkp hkq hko
  · simp only [List.mem_cons, List.not_mem_nil, or_false, not_or] at hx
    rw [Function.update_of_ne hx.2.1, Function.update_of_ne hx.1]
  · simp only [List.mem_cons, List.not_mem_nil, or_false, not_or] at hx
    exact Function.update_of_ne hx.2.2 _ _
  · simp only [List.mem_cons, List.not_mem_nil, or_false] at hx
    have hibx (x : Nat) (hx : V.ibit x = true) : W.ibit x = true := by rw [hib]; exact hx
    rcases hx with rfl | rfl | rfl
    · obtain ⟨-, hlarge, hdist', hln⟩ := (h.node x).dir hp
      have hslots : dirSlots (Function.update up s q) (Function.update (Function.update T x ((T x).set j none)) q tq) x =
          (dirSlots up T x).set ((lead up x).length + j) none := by
        rw [dirSlots_set, dirSlots, Function.update_of_ne hpq, Function.update_self, lead_update_of_ne hps]
      refine .of_dir hok (hibx x hpu) ((h.node x).low hpu) hpd.isDir ⟨?_, ?_, ?_, ?_⟩
      · rw [hslots, dirSlots_set]
        exact hpd
      · rw [hslots, List.length_set]
        exact hlarge
      · rw [hslots]
        exact hdist'.clear (dirSlots_getElem hj)
      · have := hkp.countP_eq fun y => (V.inode y).isDir
        rw [List.countP_cons] at this
        rw [hcount]
        omega
    · obtain ⟨-, hlarge, -, hln⟩ := (h.node x).dir hq
      have hslots : dirSlots (Function.update up s x) (Function.update (Function.update T p ((T p).set j none)) x tq) x =
          lead up x ++ tq := by
        rw [dirSlots, Function.update_self, lead_update_of_ne hqs]
      refine .of_dir hok (hibx x hqu) ((h.node x).low hqu) hqd.isDir ⟨?_, ?_, ?_, ?_⟩
      · rw [hslots]
        exact hqd
      · rw [hslots, List.length_append]
        rw [dirSlots, List.length_append] at hlarge
        omega
      · rw [hslots]
        exact hdist
      · have := hkq.countP_eq fun y => (V.inode y).isDir
        rw [List.countP_cons] at this
        rw [hcount]
        omega
    · have hT : Function.update (Function.update T p ((T p).set j none)) q tq x = T x := by
        rw [Function.update_of_ne hqs.symm, Function.update_of_ne hps.symm]
      cases hd : (V.inode x).isDir with
      | true =>
        obtain ⟨-, hlarge, hdist', hln⟩ := (h.node x).dir hd
        refine .of_dir hok (hibx x hsu) ((h.node x).low hsu) (by rw [hdir, hd]) ⟨?_, ?_, ?_, ?_⟩
        · rw [dirSlots, hT]
          exact hsd hd
        · rw [dirSlots, hT, lead_of_ne hsr]
          rw [dirSlots, lead_of_ne hsr] at hlarge
          exact hlarge
        · rw [dirSlots, hT]
          exact (distinct_lead _ _ _ _).mp hdist'
        · rw [hcount, hls, kids, hT]
          exact hln
      | false =>
        refine .of_file (hibx x hsu) ((h.node x).low hsu) (by rw [hdir, hd]) (hsf hd) ?_ ?_
        · rw [hsn.1, hsn.2]
          exact (h.node x).slim
        · rw [hT]
          exact (h.node x).flat hd

/-- Changes to an inode that only concern its times. -/
theorem Vol.setInode (h : Vol sb V G T up) (hok : sb.Ok) {x : Inode} (hhead : x.iDataHead = (V.inode i).iDataHead)
    (hnr : x.iNrBlocks = (V.inode i).iNrBlocks) (hsize : x.iSize = (V.inode i).iSize) (hattrs : SameAttrs (V.inode i) x)
    (hi : V.ibit i = true) : Vol sb (V.setInode i x) G T up := by
  have hF := Frame.setInode h.wf hhead hnr
  have hx : (V.setInode i x).inode i = x := Function.update_self _ _ _
  cases hd : (V.inode i).isDir with
  | true =>
    obtain ⟨hdir, hlarge, hdist, hln⟩ := (h.node i).dir hd
    have := h.relabel hok hF hd rfl (t := T i) ⟨hF.wf.fileAt (i := i) hi, by rw [hx, hattrs.isDir, hd], ?_, hdir.blocks, hdir.slot⟩
      (Nat.le_refl _) hdist (List.Perm.refl _) (by rw [hx, hattrs.links])
    · rwa [Function.update_eq_self] at this
    · rw [hx, hsize]
      exact hdir.size
  | false =>
    refine h.of_file hok hF rfl hi hd (by rw [hx]; exact hattrs) ?_ (h.node i).slim
    rw [hx, hnr, hsize]
    exact (h.node i).sized hi hd

end Mofs
