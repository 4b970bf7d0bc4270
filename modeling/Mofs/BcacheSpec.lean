import Mofs.Bcache
import Mofs.Lib.WriteBack

namespace Mofs

open Bytes WriteBack

variable {e : RawEnv} {n : Nat} {P Q : Pool n} {s t u : Pool n × RawDev} {i : Fin n} {b : Nat} {x : Block}
  {R E : Nat → Prop} {L : Nat → Block} {l : Line Nat Block} {d : RawDev}

/-- What a slot holds. -/
def Entry.line (x : Entry) : Option (Line Nat Block) := if x.valid then some ⟨x.blkNum, x.data, x.dirty⟩ else none

namespace Pool

def hold (P : Pool n) (i : Fin n) : Option (Line Nat Block) := (P.entries i).line

/-- Some slot holds block `b`. -/
def Holds (P : Pool n) (b : Nat) : Prop := ∃ i l, P.hold i = some l ∧ l.key = b

/-- Some slot holds a content of block `b` that is ahead of the device. -/
def Ahead (P : Pool n) (b : Nat) : Prop := ∃ i l, P.hold i = some l ∧ l.key = b ∧ l.dirty = true

theorem hold_of_valid (h : (P.entries i).valid = true) :
    P.hold i = some ⟨(P.entries i).blkNum, (P.entries i).data, (P.entries i).dirty⟩ := if_pos h

theorem hold_set (P : Pool n) (i : Fin n) (x : Entry) : (P.set i x).hold = Function.update P.hold i x.line := by
  funext j
  by_cases hj : j = i
  · subst hj
    simp [hold, set]
  · simp [hold, set, hj]

@[simp] theorem hold_touch (P : Pool n) (i : Fin n) : (P.touch i).hold = P.hold := by
  funext j
  by_cases hj : j = i
  · subst hj
    simp [hold, touch, Entry.line]
  · simp [hold, touch, hj]

theorem hold_release (P : Pool n) (i : Fin n) : (P.release i).hold = Function.update P.hold i none := hold_set P i _

theorem hold_install (P : Pool n) (i : Fin n) (b : Nat) :
    (P.install i b).hold = Function.update P.hold i (some ⟨b, (P.entries i).data, false⟩) := hold_set P i _

theorem hold_store (h : (P.entries i).valid = true) (x : Block) :
    (P.store i x).hold = Function.update P.hold i (some ⟨(P.entries i).blkNum, x, true⟩) := by
  rw [store, hold_touch, hold_set, Entry.line, if_pos h]

theorem find_some (h : P.find b = some i) : (P.entries i).valid = true ∧ (P.entries i).blkNum = b := by
  have := List.find?_some h
  simpa using this

theorem find_none (h : P.find b = none) : ¬ P.Holds b := by
  rintro ⟨i, l, hl, hk⟩
  have hno := List.find?_eq_none.mp h i (List.mem_finRange i)
  rw [hold, Entry.line] at hl
  split at hl
  · next hv =>
    cases hl
    exact hno (by simpa [hv] using hk)
  · cases hl

/-- The pool and the device make up the store `L`; off `E`, no block has changed on the device that was not ahead of it, and
none has come to be ahead of it. -/
structure Kept (R E : Nat → Prop) (L : Nat → Block) (s t : Pool n × RawDev) : Prop where
  coherent : Coherent R t.1.hold t.2.blk L
  steady : ∀ b, ¬ E b → ¬ s.1.Ahead b → t.2.blk b = s.2.blk b ∧ ¬ t.1.Ahead b

theorem Kept.refl (h : Coherent R s.1.hold s.2.blk L) : Kept R E L s s := ⟨h, fun _ _ hb => ⟨rfl, hb⟩⟩

theorem Kept.trans {L' : Nat → Block} (h : Kept R (fun _ => False) L s t) (h' : Kept R E L' t u) : Kept R E L' s u where
  coherent := h'.coherent
  steady b hE hb := by
    obtain ⟨heq, hno⟩ := h.steady b (fun h => h) hb
    obtain ⟨heq', hno'⟩ := h'.steady b hE hno
    exact ⟨heq'.trans heq, hno'⟩

/-- A slot changes in a way that puts no further block ahead of the device, except for those of `E`. -/
theorem Kept.of_hold {o : Option (Line Nat Block)} {d : RawDev} (h : Coherent R Q.hold d.blk L) (hd : d.blk = s.2.blk)
    (hQ : Q.hold = Function.update s.1.hold i o) (ho : ∀ l, o = some l → l.dirty = true → E l.key ∨ s.1.Ahead l.key) :
    Kept R E L s (Q, d) := by
  refine ⟨h, fun b hE hb => ⟨by rw [hd], ?_⟩⟩
  rintro ⟨j, l, hl, rfl, hdirty⟩
  have hl : Q.hold j = some l := hl
  rw [hQ] at hl
  rcases update_eq_some hl with ⟨-, hl⟩ | ⟨-, hl⟩
  · exact (ho l hl hdirty).elim hE hb
  · exact hb ⟨j, l, hl, rfl, hdirty⟩

end Pool

/-- No raw operation goes wrong. -/
def RawEnv.Faultless (e : RawEnv) : Prop := ∀ k, e.fault k = none

namespace Pool

/-- A raw read leaves the device alone; a full one gives the block. -/
theorem readRaw_cases {d d' : RawDev} {ret : Except Errno (Nat × Nat)} {buf : Block}
    (hr : e.readRaw b d = ((ret, buf), d')) : d'.blk = d.blk ∧ (ret = .ok (1, 0) → buf = d.blk b) := by
  rw [RawEnv.readRaw] at hr
  rcases hf : e.fault d.ops with _ | _ | _ <;> simp only [hf] at hr <;> cases hr
  · exact ⟨rfl, fun _ => rfl⟩
  · exact ⟨rfl, fun h => by cases h⟩
  · exact ⟨rfl, fun h => by cases h⟩

/-- A slot is written back and is clean, or the write goes wrong and its block on the device is lost. -/
theorem flushEntry_cases {r : Except Errno Unit} (hr : flushEntry e i s = (r, t)) :
    (r = .ok () ∧ t.1 = s.1.set i { s.1.entries i with dirty := false } ∧
      t.2.blk = Function.update s.2.blk (s.1.entries i).blkNum (s.1.entries i).data) ∨
    ((∃ err, r = .error err) ∧ ¬ (e.Faultless ∧ e.inRange (s.1.entries i).blkNum) ∧ t.1 = s.1 ∧
      ∃ junk, t.2.blk = Function.update s.2.blk (s.1.entries i).blkNum junk) := by
  rw [flushEntry, RawEnv.writeRaw] at hr
  rcases hf : e.fault s.2.ops with _ | _ | _ <;> simp only [hf] at hr
  · by_cases hin : e.inRange (s.1.entries i).blkNum
    · rw [if_pos hin] at hr
      cases hr
      exact .inl ⟨rfl, rfl, rfl⟩
    · rw [if_neg hin] at hr
      cases hr
      exact .inr ⟨⟨_, rfl⟩, fun h => hin h.2, rfl, _, rfl⟩
  · cases hr
    exact .inr ⟨⟨_, rfl⟩, fun h => by simp [h.1 s.2.ops] at hf, rfl, _, rfl⟩
  · cases hr
    exact .inr ⟨⟨_, rfl⟩, fun h => by simp [h.1 s.2.ops] at hf, rfl, _, rfl⟩

/-- Writing back a dirty slot keeps the store, whether or not it goes wrong. -/
theorem kept_flushEntry {r : Except Errno Unit} (h : Coherent R s.1.hold s.2.blk L) (hv : (s.1.entries i).valid = true)
    (hd : (s.1.entries i).dirty = true) (hr : flushEntry e i s = (r, t)) : Kept R (fun _ => False) L s t := by
  have hl := hold_of_valid hv
  have hahead : s.1.Ahead (s.1.entries i).blkNum := ⟨i, _, hl, rfl, hd⟩
  have hdev {b : Nat} {y : Block} (hb : ¬ s.1.Ahead b) : Function.update s.2.blk (s.1.entries i).blkNum y b = s.2.blk b := by
    refine Function.update_of_ne ?_ _ _
    rintro rfl
    exact hb hahead
  rcases flushEntry_cases hr with ⟨-, ht, hblk⟩ | ⟨-, -, ht, junk, hblk⟩
  · have hhold : t.1.hold = Function.update s.1.hold i (some ⟨(s.1.entries i).blkNum, (s.1.entries i).data, false⟩) := by
      rw [ht, hold_set, Entry.line, if_pos hv]
    refine ⟨by rw [hhold, hblk]; exact h.writeBack hl, fun b _ hb => ⟨by rw [hblk]; exact hdev hb, ?_⟩⟩
    rintro ⟨j, l, hj, rfl, hdirty⟩
    rw [hhold] at hj
    rcases update_eq_some hj with ⟨-, hj⟩ | ⟨-, hj⟩
    · cases hj
      cases hdirty
    · exact hb ⟨j, l, hj, rfl, hdirty⟩
  · refine ⟨by rw [ht, hblk]; exact h.spoil hl hd junk, fun b _ hb => ⟨by rw [hblk]; exact hdev hb, ?_⟩⟩
    rw [ht]
    exact hb

/-- No slot is filled, and no time stamp is set. -/
structure Quiet (P Q : Pool n) : Prop where
  holds : ∀ b, Q.Holds b → P.Holds b
  tick : Q.tick = P.tick
  lru : ∀ i, (Q.entries i).lruTick = (P.entries i).lruTick

theorem Quiet.refl (P : Pool n) : Quiet P P := ⟨fun _ h => h, rfl, fun _ => rfl⟩

theorem Quiet.trans {P Q O : Pool n} (h : Quiet P Q) (h' : Quiet Q O) : Quiet P O :=
  ⟨fun b hb => h.holds b (h'.holds b hb), h'.tick.trans h.tick, fun i => (h'.lru i).trans (h.lru i)⟩

theorem Quiet.set {y : Entry} (htick : y.lruTick = (P.entries i).lruTick)
    (hline : ∀ l, y.line = some l → P.Holds l.key) : Quiet P (P.set i y) := by
  refine ⟨?_, rfl, fun j => ?_⟩
  · rintro b ⟨j, l, hl, rfl⟩
    rw [hold_set] at hl
    rcases update_eq_some hl with ⟨-, hl⟩ | ⟨-, hl⟩
    · exact hline l hl
    · exact ⟨j, l, hl, rfl⟩
  · by_cases hj : j = i
    · subst hj
      simp [Pool.set, htick]
    · simp [Pool.set, hj]

theorem Quiet.release (P : Pool n) (i : Fin n) : Quiet P (P.release i) :=
  Quiet.set rfl fun l hl => by cases hl

theorem quiet_flushEntry {r : Except Errno Unit} (hv : (s.1.entries i).valid = true) (hr : flushEntry e i s = (r, t)) :
    Quiet s.1 t.1 := by
  rcases flushEntry_cases hr with ⟨-, ht, -⟩ | ⟨-, -, ht, -⟩
  · rw [ht]
    refine Quiet.set rfl fun l hl => ?_
    rw [Entry.line, if_pos hv] at hl
    cases hl
    exact ⟨i, _, hold_of_valid hv, rfl⟩
  · rw [ht]
    exact .refl _

theorem evictable {s : Pool n × RawDev} (h : ¬ ((s.1.entries i).valid && (s.1.entries i).dirty) = true)
    (hl : s.1.hold i = some l) : l.dirty = false := by
  rw [hold, Entry.line] at hl
  split at hl
  · next hv =>
    cases hl
    simpa [hv] using h
  · cases hl

/-- A slot that is not ahead of the device is emptied. -/
theorem kept_release (h : Coherent R s.1.hold s.2.blk L) (hc : ∀ l, s.1.hold i = some l → l.dirty = false) :
    Kept R (fun _ => False) L s (s.1.release i, s.2) :=
  Kept.of_hold (by rw [hold_release]; exact h.evict hc) rfl (hold_release _ _) fun l hl => by cases hl

/-- The slot found for reuse is empty. -/
theorem getVictim_spec {r : Except Errno (Fin n)} (h : Coherent R s.1.hold s.2.blk L) (hr : getVictim e s = (r, t)) :
    Kept R (fun _ => False) L s t ∧ Quiet s.1 t.1 ∧ ∀ i, r = .ok i → t.1.hold i = none := by
  rw [getVictim] at hr
  split at hr
  · cases hr
    exact ⟨.refl h, .refl _, fun i hi => by cases hi⟩
  · next i _ =>
    split at hr
    · next hvd =>
      obtain ⟨hv, hd⟩ : (s.1.entries i).valid = true ∧ (s.1.entries i).dirty = true := by simpa using hvd
      split at hr
      · next err u hu =>
        cases hr
        exact ⟨kept_flushEntry h hv hd hu, quiet_flushEntry hv hu, fun i hi => by cases hi⟩
      · next u hu =>
        cases hr
        have hk := kept_flushEntry h hv hd hu
        have hclean : ∀ l, u.1.hold i = some l → l.dirty = false := by
          intro l hl
          rcases flushEntry_cases hu with ⟨-, ht, -⟩ | ⟨⟨_, h⟩, -⟩
          · rw [ht, hold_set, Function.update_self, Entry.line, if_pos hv] at hl
            cases hl
            rfl
          · cases h
        refine ⟨hk.trans (kept_release hk.coherent hclean), (quiet_flushEntry hv hu).trans (.release _ _), ?_⟩
        rintro j ⟨⟩
        rw [hold_release, Function.update_self]
    · next hvd =>
      cases hr
      refine ⟨kept_release h fun l hl => evictable hvd hl, .release _ _, ?_⟩
      rintro j ⟨⟩
      rw [hold_release, Function.update_self]

/-- A block is loaded into an empty slot, and the slot is left empty. -/
theorem load_spec {r : Except Errno (Fin n × Nat × Nat)} (h : Coherent R s.1.hold s.2.blk L) (hr : load e b s = (r, t)) :
    Kept R (fun _ => False) L s t ∧ Quiet s.1 t.1 ∧
      ∀ i c, r = .ok (i, c) → t.1.hold i = none ∧ (c = (1, 0) → (t.1.entries i).data = t.2.blk b) := by
  rw [load] at hr
  split at hr
  · next err u hu =>
    cases hr
    obtain ⟨hk, hq, -⟩ := getVictim_spec h hu
    exact ⟨hk, hq, fun i c hi => by cases hi⟩
  · next i Q d hu =>
    obtain ⟨hk, hq, hnone⟩ := getVictim_spec h hu
    have hi : Q.hold i = none := hnone i rfl
    rcases hread : e.readRaw b d with ⟨⟨ret, buf⟩, d'⟩
    obtain ⟨hblk, hfull⟩ := readRaw_cases hread
    rw [hread] at hr
    cases hr
    have hline : ({ Q.entries i with data := buf } : Entry).line = none := by
      rw [hold, Entry.line] at hi
      rw [Entry.line]
      split at hi
      · cases hi
      · next hv => exact if_neg hv
    have hhold : (Q.set i { Q.entries i with data := buf }).hold = Function.update Q.hold i none := by
      rw [hold_set, hline]
    have hsame : Function.update Q.hold i none = Q.hold := by rw [← hi, Function.update_eq_self]
    refine ⟨hk.trans (Kept.of_hold ?_ hblk hhold fun l hl => by cases hl), hq.trans (Quiet.set rfl ?_), ?_⟩
    · rw [hhold, hsame, hblk]
      exact hk.coherent
    · intro l hl
      rw [hline] at hl
      cases hl
    · intro j c hjc
      obtain ⟨c', rfl, hc⟩ : ∃ c', ret = .ok c' ∧ (i, c') = (j, c) := by
        cases ret with
        | error err => cases hjc
        | ok c' => exact ⟨c', rfl, by injection hjc⟩
      cases hc
      refine ⟨by rw [hhold, Function.update_self], ?_⟩
      rintro rfl
      rw [hblk, ← hfull rfl]
      simp [Pool.set]

/-- Block `b` is put into a slot that is empty or holds it already. -/
theorem kept_put (h : Coherent R s.1.hold s.2.blk L) (hb : R b) {x : Block} {dirty : Bool}
    (hi : s.1.hold i = none ∧ ¬ s.1.Holds b ∨ ∃ l, s.1.hold i = some l ∧ l.key = b)
    (hQ : Q.hold = Function.update s.1.hold i (some ⟨b, x, dirty⟩)) (hx : dirty = false → s.2.blk b = x)
    (hE : dirty = true → E b) : Kept R E (Function.update L b x) s (Q, s.2) := by
  refine Kept.of_hold ?_ rfl hQ fun l hl hd => ?_
  · rw [hQ]
    refine h.put hb (fun l hl => ?_) (fun j l hl hk => ?_) hx
    · rcases hi with ⟨hi, -⟩ | ⟨l', hi, hk⟩ <;> rw [hi] at hl <;> cases hl
      exact hk
    · rcases hi with ⟨-, hno⟩ | ⟨l', hi, hk'⟩
      · exact absurd ⟨j, l, hl, hk⟩ hno
      · exact h.unique j i l l' hl hi (hk.trans hk'.symm)
  · cases hl
    exact .inl (hE hd)

theorem find_held (h : P.find b = some i) : ∃ l, P.hold i = some l ∧ l.key = b :=
  ⟨_, hold_of_valid (find_some h).1, (find_some h).2⟩

theorem find_data (h : Coherent R P.hold d.blk L) (hf : P.find b = some i) : (P.entries i).data = L b := by
  have := h.data i _ (hold_of_valid (find_some hf).1)
  rwa [(find_some hf).2] at this

/-- A block that is loaded fully is the block of the store. -/
theorem kept_install {r : Fin n × Nat × Nat} (h : Coherent R s.1.hold s.2.blk L) (hb : R b) (hf : s.1.find b = none)
    (hr : load e b s = (.ok r, t)) (hc : r.2 = (1, 0)) :
    (t.1.entries r.1).data = L b ∧ Kept R (fun _ => False) L s (t.1.install r.1 b, t.2) := by
  obtain ⟨hk, hq, hok⟩ := load_spec h hr
  obtain ⟨hnone, hdata⟩ := hok r.1 r.2 rfl
  have hno : ¬ t.1.Holds b := fun hh => find_none hf (hq.holds b hh)
  have hL : t.2.blk b = L b := hk.coherent.absent b hb fun j l hl hkey => hno ⟨j, l, hl, hkey⟩
  have hx : (t.1.entries r.1).data = L b := by rw [hdata hc, hL]
  refine ⟨hx, hk.trans ?_⟩
  have := kept_put (E := fun _ => False) hk.coherent hb (.inl ⟨hnone, hno⟩) (hold_install t.1 r.1 b)
    (fun _ => by rw [hx, hL]) (fun h => by cases h)
  rwa [hx, Function.update_eq_self] at this

theorem Kept.touch (h : Kept R E L s t) (i : Fin n) : Kept R E L s (t.1.touch i, t.2) := by
  refine ⟨?_, fun b hE hb => ?_⟩
  · rw [hold_touch]
    exact h.coherent
  · have := h.steady b hE hb
    rwa [Ahead, ← hold_touch t.1 i] at this

theorem readBlock_spec {r : Fetched} (h : Coherent R s.1.hold s.2.blk L) (hb : R b) (hr : readBlock e b s = (r, t)) :
    Kept R (fun _ => False) L s t ∧ ∀ x, r = .block x → x = L b := by
  rw [readBlock] at hr
  split at hr
  · next i hf =>
    cases hr
    refine ⟨(Kept.refl h).touch i, ?_⟩
    rintro x ⟨⟩
    exact find_data h hf
  · next hf =>
    split at hr
    · next err u hu =>
      cases hr
      exact ⟨(load_spec h hu).1, fun x hx => by cases hx⟩
    · next i one frac Q d hu =>
      split at hr
      · cases hr
        exact ⟨(load_spec h hu).1, fun x hx => by cases hx⟩
      · next hfrac =>
        split at hr
        · cases hr
          exact ⟨(load_spec h hu).1, fun x hx => by cases hx⟩
        · next hone =>
          cases hr
          obtain ⟨hx, hk⟩ := kept_install h hb hf hu (by simp_all)
          refine ⟨hk.touch i, ?_⟩
          rintro x ⟨⟩
          exact hx

/-- A slot that is empty or holds block `b` takes a new content of it. -/
theorem kept_store (h : Coherent R s.1.hold s.2.blk L) (hb : R b)
    (hi : s.1.hold i = none ∧ ¬ s.1.Holds b ∨ ∃ l, s.1.hold i = some l ∧ l.key = b) {y : Entry} (hy : y.valid = true)
    (hkey : y.blkNum = b) (x : Block) :
    Kept R (· = b) (Function.update L b x) s ((s.1.set i y).store i x, s.2) := by
  have hval : ((s.1.set i y).entries i).valid = true ∧ ((s.1.set i y).entries i).blkNum = b := by simp [Pool.set, hy, hkey]
  have hQ : ((s.1.set i y).store i x).hold = Function.update s.1.hold i (some ⟨b, x, true⟩) := by
    rw [hold_store hval.1, hold_set, Function.update_idem, hval.2]
  exact kept_put h hb hi hQ (fun h => nomatch h) fun _ => rfl

theorem set_entries_self (P : Pool n) (i : Fin n) : P.set i (P.entries i) = P := by
  rw [Pool.set, Function.update_eq_self]

theorem kept_store_found (h : Coherent R s.1.hold s.2.blk L) (hb : R b) (hf : s.1.find b = some i) (x : Block) :
    Kept R (· = b) (Function.update L b x) s (s.1.store i x, s.2) := by
  have := kept_store h hb (.inr (find_held hf)) (find_some hf).1 (find_some hf).2 x
  rwa [set_entries_self] at this

theorem writeBlock_spec {r : Except Errno Unit} (h : Coherent R s.1.hold s.2.blk L) (hb : R b)
    (hr : writeBlock e b x s = (r, t)) :
    (r = .ok () ∧ Kept R (· = b) (Function.update L b x) s t) ∨
      ((∃ err, r = .error err) ∧ Kept R (fun _ => False) L s t) := by
  rw [writeBlock] at hr
  split at hr
  · next i hf =>
    cases hr
    exact .inl ⟨rfl, kept_store_found h hb hf x⟩
  · next hf =>
    split at hr
    · next err u hu =>
      cases hr
      exact .inr ⟨⟨_, rfl⟩, (getVictim_spec h hu).1⟩
    · next i Q d hu =>
      cases hr
      obtain ⟨hk, hq, hnone⟩ := getVictim_spec h hu
      refine .inl ⟨rfl, hk.trans (kept_store hk.coherent hb (.inl ⟨hnone i rfl, ?_⟩) ?_ ?_ x)⟩
      · exact fun hh => find_none hf (hq.holds b hh)
      · rfl
      · rfl

theorem modifyBlock_spec {off : Nat} {patch : List UInt8} {r : Except Errno Unit} (h : Coherent R s.1.hold s.2.blk L)
    (hb : R b) (hr : modifyBlock e b off patch s = (r, t)) :
    (r = .ok () ∧ Kept R (· = b) (Function.update L b (splice (L b) off patch)) s t) ∨
      ((∃ err, r = .error err) ∧ Kept R (fun _ => False) L s t) := by
  rw [modifyBlock] at hr
  split at hr
  · next i hf =>
    cases hr
    rw [find_data h hf]
    exact .inl ⟨rfl, kept_store_found h hb hf _⟩
  · next hf =>
    split at hr
    · next err u hu =>
      cases hr
      exact .inr ⟨⟨_, rfl⟩, (load_spec h hu).1⟩
    · next i one frac Q d hu =>
      split at hr
      · cases hr
        exact .inr ⟨⟨_, rfl⟩, (load_spec h hu).1⟩
      · next hc =>
        cases hr
        obtain ⟨hx, hk⟩ := kept_install h hb hf hu (by simp_all)
        have hdata : ((Q.install i b).entries i).data = L b := by
          rw [← hx]
          simp [install, Pool.set]
        have hent : (((Q.install i b).entries i).valid = true) ∧ ((Q.install i b).entries i).blkNum = b := by
          simp [install, Pool.set]
        have hst := kept_store hk.coherent hb (.inr ⟨_, hold_of_valid hent.1, hent.2⟩) hent.1 hent.2
          (splice (L b) off patch)
        rw [set_entries_self] at hst
        rw [hdata]
        exact .inl ⟨rfl, hk.trans hst⟩

/-- Slots that are not ahead of the device stay so. -/
theorem flushFrom_spec {is : List (Fin n)} {r : Except Errno Unit} (h : Coherent R s.1.hold s.2.blk L)
    (hr : flushFrom e is s = (r, t)) :
    Kept R (fun _ => False) L s t ∧ Quiet s.1 t.1 ∧
      (r = .ok () → (∀ i, i ∈ is → (∀ l, t.1.hold i = some l → l.dirty = false))) ∧
      ∀ i, (∀ l, s.1.hold i = some l → l.dirty = false) → ∀ l, t.1.hold i = some l → l.dirty = false := by
  induction is generalizing s with
  | nil =>
    cases hr
    exact ⟨.refl h, .refl _, fun _ i hi => by simp at hi, fun i hi => hi⟩
  | cons i is ih =>
    rw [flushFrom] at hr
    split at hr
    · next hvd =>
      obtain ⟨hv, hd⟩ : (s.1.entries i).valid = true ∧ (s.1.entries i).dirty = true := by simpa using hvd
      split at hr
      · next err u hu =>
        cases hr
        refine ⟨kept_flushEntry h hv hd hu, quiet_flushEntry hv hu, fun h => (nomatch h), ?_⟩
        rcases flushEntry_cases hu with ⟨h, -⟩ | ⟨-, -, ht, -⟩
        · cases h
        · rw [ht]
          exact fun i hi => hi
      · next u hu =>
        have hk := kept_flushEntry h hv hd hu
        obtain ⟨hk', hq, hall, hstay⟩ := ih hk.coherent hr
        have hclean : ∀ j, (∀ l, s.1.hold j = some l → l.dirty = false) ∨ j = i →
            ∀ l, u.1.hold j = some l → l.dirty = false := by
          intro j hj l hl
          rcases flushEntry_cases hu with ⟨-, ht, -⟩ | ⟨⟨_, h⟩, -⟩
          · rw [ht, hold_set, Entry.line, if_pos hv] at hl
            rcases update_eq_some hl with ⟨-, hl⟩ | ⟨hne, hl⟩
            · cases hl
              rfl
            · exact hj.elim (fun h => h l hl) fun h => absurd h hne
          · cases h
        refine ⟨hk.trans hk', (quiet_flushEntry hv hu).trans hq, fun hok j hj => ?_, fun j hj => hstay j (hclean j (.inl hj))⟩
        rcases List.mem_cons.mp hj with hj | hj
        · exact hstay j (hclean j (.inr hj))
        · exact hall hok j hj
    · next hvd =>
      obtain ⟨hk, hq, hall, hstay⟩ := ih h hr
      refine ⟨hk, hq, fun hok j hj => ?_, hstay⟩
      rcases List.mem_cons.mp hj with rfl | hj
      · exact hstay j fun l hl => evictable hvd hl
      · exact hall hok j hj

theorem flushAll_spec {r : Except Errno Unit} (h : Coherent R s.1.hold s.2.blk L) (hr : flushAll e s = (r, t)) :
    Kept R (fun _ => False) L s t ∧ Quiet s.1 t.1 ∧ (r = .ok () → ∀ b, R b → t.2.blk b = L b) := by
  obtain ⟨hk, hq, hall, -⟩ := flushFrom_spec h hr
  exact ⟨hk, hq, fun hok b hb => hk.coherent.written (fun i => hall hok i (List.mem_finRange i)) hb⟩

/-- An invalidated block counts as what the device holds, and it is not ahead of the device. -/
theorem invalidate_spec (h : Coherent R s.1.hold s.2.blk L) (b : Nat) :
    ∃ y, Kept R (fun _ => False) (Function.update L b y) s (s.1.invalidate b, s.2) ∧ ¬ (s.1.invalidate b).Ahead b := by
  rw [invalidate]
  split
  · next i hf =>
    obtain ⟨l, hl, rfl⟩ := find_held hf
    refine ⟨s.2.blk l.key, Kept.of_hold ?_ rfl (hold_release s.1 i) fun l hl => (nomatch hl), ?_⟩
    · rw [hold_release]
      exact h.drop hl
    · rintro ⟨j, l', hj, hk, -⟩
      rw [hold_release] at hj
      rcases update_eq_some hj with ⟨-, hj⟩ | ⟨hne, hj⟩
      · cases hj
      · exact hne (h.unique j i l' l hj hl hk)
  · next hf =>
    refine ⟨L b, ?_, fun ⟨j, l, hl, hk, _⟩ => find_none hf ⟨j, l, hl, hk⟩⟩
    rw [Function.update_eq_self]
    exact .refl h

end Pool

end Mofs
