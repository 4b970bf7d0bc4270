import Mofs.FreedSlot
import Mofs.ListingRun
import Mofs.ReadOnly
import Mofs.Lib.Cursor

namespace Mofs

open Effect Bytes Slots Mount

variable {sb : Superblock} {m : Mount} {V W : View} {G : Owners} {i k : Nat} {slots : List Slot} {d d₁ d' : Disk}
  {h h' : DirHandle}

/-- A call on directory `i` that changes its entries and not its size: any removal, and an addition that finds a slot to
use again (or fails). -/
inductive SlotEdit (m : Mount) (i : Nat) (d d' : Disk) : Prop
  | remove {name : Name} {r : Except Errno Unit} (hnul : 0 ∉ name)
      (hcall : exec m.env (removeDirEntry m.sb name i) d = some (r, d'))
  | add {name : Name} {child : Nat} {r : Except Errno Unit} (hnul : 0 ∉ name)
      (hcall : exec m.env (addDirEntry m.sb name i child) d = some (r, d'))
      (hsize : ((m.sb.view d').inode i).iSize = ((m.sb.view d).inode i).iSize)

/-- A directory without repeated names in a consistent volume. -/
structure Table (m : Mount) (d : Disk) (G : Owners) (i : Nat) (slots : List Slot) : Prop where
  wf : Wf m.sb (m.sb.view d) G
  ibit : (m.sb.view d).ibit i = true
  dir : DirAt m.sb (m.sb.view d) i (G.nodes i) (G.data i) slots
  distinct : Distinct slots

theorem Table.edit {slots' : List Slot} (h : Table m d G i slots) (hE : Edited slots slots')
    (hS : DirSet m.sb (m.sb.view d) (m.sb.view d') G i slots') : Table m d' G i slots' :=
  ⟨hS.frame.wf, by rw [hS.ibit]; exact h.ibit, hS.dir, hE.distinct h.distinct⟩

/-- Arguments that `add_dir_entry` rejects at once. -/
theorem addDirEntry_invalid {name : Name} {child : Nat} {r : Except Errno Unit}
    (hbad : ¬ (name ≠ [] ∧ name.length < filenameLen ∧ child ≠ 0 ∧ child < m.sb.inodeNum))
    (hcall : exec m.env (addDirEntry m.sb name i child) d = some (r, d')) : d' = d := by
  have hthrow : ∃ e, addDirEntry m.sb name i child = throw e := by
    rw [addDirEntry]
    by_cases harg : name = [] ∨ isNeg i ∨ child = 0 ∨ isNeg child ∨ m.sb.inodeNum ≤ child
    · exact ⟨_, if_pos harg⟩
    · rw [if_neg harg]
      refine ⟨_, if_pos ?_⟩
      by_contra hlen
      exact hbad ⟨fun hn => harg (.inl hn), by omega, fun hc => harg (by simp [hc]), by omega⟩
  obtain ⟨e, he⟩ := hthrow
  rw [he] at hcall
  exact (ReadOnly.throw e).exec_eq hcall

/-- What such a call does to the table. -/
theorem SlotEdit.edited (hE : SlotEdit m i d d') (h : Table m d G i slots) :
    ∃ slots', Edited slots slots' ∧ Table m d' G i slots' := by
  cases hE with
  | @remove name r hnul hcall =>
    by_cases hne : name = []
    · rw [removeDirEntry, if_pos (.inl hne)] at hcall
      obtain rfl := (ReadOnly.throw _).exec_eq hcall
      exact ⟨slots, .same, h⟩
    · have hpost := (m.ensures_removeDirEntry h.wf h.dir hne hnul).of_exec rfl hcall
      cases hl : lookup slots name with
      | none =>
        rw [hl] at hpost
        obtain ⟨-, hW⟩ := hpost
        exact ⟨slots, .same, hW ▸ h.wf, hW ▸ h.ibit, hW ▸ h.dir, h.distinct⟩
      | some c =>
        rw [hl] at hpost
        obtain ⟨-, k, hk, hS⟩ := hpost
        exact ⟨_, .clear hk, h.edit (.clear hk) hS⟩
  | @add name child r hnul hcall hsize =>
    by_cases hok : name ≠ [] ∧ name.length < filenameLen ∧ child ≠ 0 ∧ child < m.sb.inodeNum
    · have hpost := (m.ensures_addDirEntry h.wf h.ibit h.dir ⟨hok.1, hok.2.1, hnul⟩ hok.2.2.1 hok.2.2.2).of_exec rfl hcall
      have hunchanged (hW : m.sb.view d' = m.sb.view d) : ∃ slots', Edited slots slots' ∧ Table m d' G i slots' :=
        ⟨slots, .same, hW ▸ h.wf, hW ▸ h.ibit, hW ▸ h.dir, h.distinct⟩
      rw [AddPost] at hpost
      split at hpost
      · exact hunchanged hpost.2
      split at hpost
      · exact hunchanged hpost.2
      rename_i hnew
      have hnew : lookup slots name = none := by simpa using hnew
      cases hv : vacant slots with
      | some k =>
        rw [hv] at hpost
        have hk := (vacant_spec hv).2
        exact ⟨_, .put hk hnew, h.edit (.put hk hnew) hpost.2⟩
      | none =>
        -- every other success makes the directory longer
        rw [hv] at hpost
        dsimp only at hpost
        split at hpost
        · have hlen := hpost.2.dir.size
          rw [hsize, h.dir.size, List.length_append] at hlen
          simp [direntBytes] at hlen
        · split at hpost
          · have hlen := hpost.2.size
            rw [hsize] at hlen
            simp [direntBytes] at hlen
          · exact hunchanged hpost.2
    · obtain rfl := addDirEntry_invalid hok hcall
      exact ⟨slots, .same, h⟩

/-- Entry `e` stands in slot `k` of directory `i`. -/
def LiveIn (sb : Superblock) (V : View) (i k : Nat) (e : Name × Nat) : Prop :=
  ∃ ns ds slots, DirAt sb V i ns ds slots ∧ slots[k]? = some (some e)

/-- An entry a call has returned: the state of the call, the slot the handle was moved over, and the entry. -/
structure Reported where
  disk : Disk
  slot : Nat
  entry : Name × Nat

/-- Calls of `mofs_readdir_core` on one handle that return entries, with changes of the directory before, between and after
them. Whoever calls may read the directory. `seen` are the states of the run. -/
inductive Browse (m : Mount) (i : Nat) : Disk → DirHandle → (seen : List Disk) → (out : List Reported) → Disk → DirHandle → Prop
  | done (d : Disk) (h : DirHandle) : Browse m i d h [d] [] d h
  | edit {d d₁ d' : Disk} {h h' : DirHandle} {seen : List Disk} {out : List Reported} (hE : SlotEdit m i d d₁)
      (rest : Browse m i d₁ h seen out d' h') : Browse m i d h (d :: seen) out d' h'
  | next {d d₁ d' : Disk} {h h₁ h' : DirHandle} {user : User} {e : Name × Nat} {seen : List Disk} {out : List Reported}
      (hvalid : user.valid = true) (hread : mofsCheckDirRead user ((m.sb.view d).inode i) = .ok ())
      (hcall : exec m.env (mofsReaddirCore m.sb user h) d = some (.ok h₁, d₁)) (he : direntOf h₁ = some e)
      (rest : Browse m i d₁ h₁ seen out d' h') : Browse m i d h (d :: seen) (⟨d, h₁.direntOffset - 1, e⟩ :: out) d' h'

theorem readdirHandle_of_next {e : Name × Nat} {j : Nat} (hn : nextLive slots h.direntOffset = some j)
    (hs : slots.getD j none = some e) :
    readdirHandle slots h = { h with direntOffset := j + 1, direntName := e.1, direntInodeNum := e.2 } := by
  rw [readdirHandle, hn]
  simp only [hs, Option.elim_some]

/-- A call that returns entry `e` moves the handle over the first occupied slot, which holds `e`. -/
theorem DirAt.readdir_some {ns ds : List Nat} {e : Name × Nat} (hdir : DirAt sb V i ns ds slots)
    (he : direntOf (readdirHandle slots h) = some e) : ∃ j, h.direntOffset ≤ j ∧ slots[j]? = some (some e) ∧
      (∀ k, h.direntOffset ≤ k → k < j → slots[k]? = some none) ∧
      readdirHandle slots h = { h with direntOffset := j + 1, direntName := e.1, direntInodeNum := e.2 } := by
  cases hn : nextLive slots h.direntOffset with
  | none =>
    rw [readdirHandle, hn] at he
    simp [direntOf] at he
  | some j =>
    obtain ⟨hle, hj, hlive, hmin⟩ := firstIn_spec hn
    have hlt : j < slots.length := by omega
    obtain ⟨e', hs⟩ := Option.isSome_iff_exists.mp hlive
    obtain ⟨hname, hinode⟩ := hdir.live hlt hs
    have hhandle := readdirHandle_of_next hn hs
    obtain rfl : e' = e := by
      rw [hhandle, direntOf, if_pos ⟨hinode, hname⟩] at he
      exact Option.some.inj he
    refine ⟨j, hle, ?_, fun k hk hkj => ?_, hhandle⟩
    · rw [← hs, List.getD_eq_getElem _ _ hlt, List.getElem?_eq_getElem hlt]
    · have := hmin k hk hkj
      rw [List.getD_eq_getElem _ _ (by omega), Option.isSome_eq_false_iff, Option.isNone_iff_eq_none] at this
      rw [List.getElem?_eq_getElem (by omega), this]

/-- A call that reports the end has found no occupied slot from the handle on. -/
theorem DirAt.readdir_none {ns ds : List Nat} {e : Name × Nat} (hdir : DirAt sb V i ns ds slots)
    (he : direntOf (readdirHandle slots h) = none) (hk : slots[k]? = some (some e)) : k < h.direntOffset := by
  obtain ⟨hlt, hget⟩ := List.getElem?_eq_some_iff.mp hk
  by_contra hge
  have hlive : (slots.getD k none).isSome = true := by rw [List.getD_eq_getElem _ _ hlt, hget]; rfl
  cases hn : nextLive slots h.direntOffset with
  | none =>
    have := firstIn_eq_none.mp hn k (by omega) (by omega)
    rw [hlive] at this
    cases this
  | some j =>
    obtain ⟨-, hj, hsome, -⟩ := firstIn_spec hn
    obtain ⟨e', hs⟩ := Option.isSome_iff_exists.mp hsome
    obtain ⟨hname, hinode⟩ := hdir.live (by omega) hs
    rw [readdirHandle_of_next hn hs, direntOf, if_pos ⟨hinode, hname⟩] at he
    cases he

theorem Table.readdir (hT : Table m d G i slots) {user : User} (hused : h.used = true) (hin : h.inodeNum = i)
    (hoff : h.direntOffset ≤ slots.length) (hvalid : user.valid = true)
    (hread : mofsCheckDirRead user ((m.sb.view d).inode i) = .ok ()) :
    exec m.env (mofsReaddirCore m.sb user h) d = some (.ok (readdirHandle slots h), d) :=
  (m.reads_mofsReaddirCore hT.dir hused hin hvalid hread hoff).exec_eq rfl

/-- Calls on a handle are a pass over the table of the directory, with the offset of the handle as cursor. -/
theorem Browse.pass {seen : List Disk} {out : List Reported} (hB : Browse m i d h seen out d' h') (hT : Table m d G i slots)
    (hused : h.used = true) (hin : h.inodeNum = i) (hoff : h.direntOffset ≤ slots.length) :
    ∃ tables slots', Pass slots h.direntOffset tables (out.map fun r => (r.slot, r.entry)) slots' h'.direntOffset ∧
      (∀ t ∈ tables, ∃ d ∈ seen, Table m d G i t) ∧ Table m d' G i slots' ∧ h'.used = true ∧ h'.inodeNum = i ∧
      ∀ r ∈ out, LiveIn m.sb (m.sb.view r.disk) i r.slot r.entry := by
  induction hB generalizing slots with
  | done d h =>
    refine ⟨[slots], slots, .done _ _, fun t ht => ?_, hT, hused, hin, by simp⟩
    obtain rfl := List.mem_singleton.mp ht
    exact ⟨d, List.mem_singleton_self d, hT⟩
  | @edit d d₁ d' h h' seen out hE rest ih =>
    obtain ⟨slots₁, hEd, hT₁⟩ := hE.edited hT
    obtain ⟨tables, slots', hpass, htables, hrest⟩ := ih hT₁ hused hin (by rw [hEd.length]; exact hoff)
    refine ⟨slots :: tables, slots', .edit hEd hpass, fun t ht => ?_, hrest⟩
    rcases List.mem_cons.mp ht with rfl | ht
    · exact ⟨d, List.mem_cons_self, hT⟩
    · obtain ⟨s, hs, hTs⟩ := htables t ht
      exact ⟨s, List.mem_cons_of_mem _ hs, hTs⟩
  | @next d d₁ d' h h₁ h' user e seen out hvalid hread hcall he rest ih =>
    rw [hT.readdir hused hin hoff hvalid hread] at hcall
    obtain ⟨rfl, rfl⟩ : readdirHandle slots h = h₁ ∧ d = d₁ := by simpa using hcall
    obtain ⟨j, hle, hj, hskip, hh⟩ := hT.dir.readdir_some he
    have hlt := (List.getElem?_eq_some_iff.mp hj).1
    rw [hh] at ih ⊢
    obtain ⟨tables, slots', hpass, htables, hT', hused', hin', hlive⟩ := ih hT hused hin hlt
    refine ⟨slots :: tables, slots', .next hle hj hskip hpass, fun t ht => ?_, hT', hused', hin', fun r hr => ?_⟩
    · rcases List.mem_cons.mp ht with rfl | ht
      · exact ⟨d, List.mem_cons_self, hT⟩
      · obtain ⟨s, hs, hTs⟩ := htables t ht
        exact ⟨s, List.mem_cons_of_mem _ hs, hTs⟩
    · rcases List.mem_cons.mp hr with rfl | hr
      · exact ⟨_, _, slots, hT.dir, hj⟩
      · exact hlive r hr

/-- A directory listed by a handle, from the start and with changes in between: no slot is returned twice, what is returned
is live at that time, there are no more calls than slots before the one that reports the end, the next call never fails, and
when it reports the end, every entry that was there all the time has been returned once. -/
theorem iteration_stable (m : Mount) (hV : Wf m.sb (m.sb.view d) G) (hi : (m.sb.view d).ibit i = true)
    (hdir : DirAt m.sb (m.sb.view d) i (G.nodes i) (G.data i) slots) (hdist : Distinct slots) (hused : h.used = true)
    (hin : h.inodeNum = i) (hstart : h.direntOffset = 0) {seen : List Disk} {out : List Reported}
    (hB : Browse m i d h seen out d' h') :
    (out.map Reported.slot).Nodup ∧ (∀ r ∈ out, LiveIn m.sb (m.sb.view r.disk) i r.slot r.entry) ∧
    out.length ≤ slots.length ∧
    ∀ user : User, user.valid = true → mofsCheckDirRead user ((m.sb.view d').inode i) = .ok () →
      ∃ h'', exec m.env (mofsReaddirCore m.sb user h') d' = some (.ok h'', d') ∧
        (direntOf h'' = none → ∀ e, (∀ t ∈ seen, ∃ k, LiveIn m.sb (m.sb.view t) i k e) →
          (out.map Reported.entry).count e = 1) := by
  obtain ⟨tables, slots', hpass, htables, hT', hused', hin', hlive⟩ :=
    hB.pass ⟨hV, hi, hdir, hdist⟩ hused hin (by omega)
  obtain ⟨hlen, hend⟩ := hpass.cursor_le_length (by omega)
  have hle := hpass.cursor_le
  have hslots : (out.map fun r => (r.slot, r.entry)).map Prod.fst = out.map Reported.slot := by rw [List.map_map]; rfl
  have hentries : (out.map fun r => (r.slot, r.entry)).map Prod.snd = out.map Reported.entry := by rw [List.map_map]; rfl
  refine ⟨hslots ▸ hpass.slots.2.imp Nat.ne_of_lt, hlive, ?_, fun user hvalid hread => ?_⟩
  · rw [List.length_map] at hle
    omega
  · refine ⟨_, hT'.readdir hused' hin' (by omega) hvalid hread, fun hnone e hall => ?_⟩
    have hmem (t : List Slot) (ht : t ∈ tables) : some e ∈ t := by
      obtain ⟨s, hs, hTs⟩ := htables t ht
      obtain ⟨k, ns, ds, t', hdir', hk⟩ := hall s hs
      rw [hdir'.unique hTs.dir] at hk
      exact List.mem_of_getElem? hk
    obtain ⟨k, hk⟩ := List.mem_iff_getElem?.mp (hmem slots hpass.mem_seen)
    obtain ⟨hk', hcount⟩ := hpass.count hdist hk hmem
    rw [← hentries, hcount, if_pos ⟨by omega, hT'.dir.readdir_none hnone hk'⟩]

def rootHandle : DirHandle := ⟨true, rootInodeNum, 0, [], 0⟩

/-- `A` is returned, then `B` is removed. -/
theorem iteration_stable_letters : ∃ (m : Mount) (d d' : Disk) (G : Owners) (slots : List Slot) (h' : DirHandle) (seen : List Disk)
    (out : List Reported), Wf m.sb (m.sb.view d) G ∧ (m.sb.view d).ibit rootInodeNum = true ∧
    DirAt m.sb (m.sb.view d) rootInodeNum (G.nodes rootInodeNum) (G.data rootInodeNum) slots ∧ Distinct slots ∧
    Browse m rootInodeNum d rootHandle seen out d' h' ∧ out.map Reported.entry = [(letter 0, 3)] ∧
    ((out.map Reported.slot).Nodup ∧ (∀ r ∈ out, LiveIn m.sb (m.sb.view r.disk) rootInodeNum r.slot r.entry) ∧
    out.length ≤ slots.length ∧
    ∀ user : User, user.valid = true → mofsCheckDirRead user ((m.sb.view d').inode rootInodeNum) = .ok () →
      ∃ h'', exec m.env (mofsReaddirCore m.sb user h') d' = some (.ok h'', d') ∧
        (direntOf h'' = none → ∀ e, (∀ t ∈ seen, ∃ k, LiveIn m.sb (m.sb.view t) rootInodeNum k e) →
          (out.map Reported.entry).count e = 1)) := by
  obtain ⟨m, d, G, T, up, user, h⟩ := exists_lettersAB
  have hdir := h.vol.dirAt h.vol.rootDir
  have hdist := ((h.vol.node rootInodeNum).dir h.vol.rootDir).distinct
  have hi := h.vol.rootUsed
  rw [h.slots] at hdir hdist
  have hname : ValidName (letter 1) := validName_letter (by decide)
  obtain ⟨r, d₁, hrem, -⟩ := (m.ensures_removeDirEntry h.vol.wf hdir hname.ne hname.nul).exists rfl
  have hcall : exec m.env (mofsReaddirCore m.sb user rootHandle) d =
      some (.ok ⟨true, rootInodeNum, 1, letter 0, 3⟩, d) :=
    Table.readdir ⟨h.vol.wf, hi, hdir, hdist⟩ rfl rfl (Nat.zero_le _) h.valid h.read
  have hB : Browse m rootInodeNum d rootHandle [d, d, d₁] [⟨d, 0, (letter 0, 3)⟩] d₁ ⟨true, rootInodeNum, 1, letter 0, 3⟩ :=
    .next h.valid h.read hcall rfl (.edit (.remove hname.nul hrem) (.done _ _))
  exact ⟨m, d, d₁, G, _, _, _, _, h.vol.wf, hi, hdir, hdist, hB, rfl,
    iteration_stable m h.vol.wf hi hdir hdist rfl rfl rfl hB⟩

end Mofs
