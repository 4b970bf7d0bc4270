import Mofs.CacheRun

namespace Mofs

open Bytes WriteBack

variable {e : RawEnv} {n m k : Nat} {P Q : Pool n} {s t : Pool n × RawDev} {i : Fin n} {b : Nat} {R E : Nat → Prop}
  {L L' : Nat → Block}

namespace Pool

/-- The clock of the pool is good for `k` further accesses. -/
structure Room (k : Nat) (P : Pool n) : Prop where
  stamped : ∀ i, (P.entries i).lruTick ≤ P.tick
  below : P.tick.toNat + k < 18446744073709551615

theorem Room.quiet (h : Room k P) (hq : Quiet P Q) : Room k Q where
  stamped i := by
    rw [hq.lru, hq.tick]
    exact h.stamped i
  below := by
    rw [hq.tick]
    exact h.below

theorem Room.set (h : Room k P) {y : Entry} (hy : y.lruTick = (P.entries i).lruTick) : Room k (P.set i y) where
  stamped j := by
    by_cases hj : j = i
    · subst hj
      simpa [Pool.set, hy] using h.stamped j
    · simpa [Pool.set, hj] using h.stamped j
  below := h.below

theorem Room.touch (h : Room (k + 1) P) (i : Fin n) : Room k (P.touch i) := by
  have hb := h.below
  have htick : (P.tick + 1).toNat = P.tick.toNat + 1 := by
    rw [UInt64.toNat_add]
    exact Nat.mod_eq_of_lt (by simp; omega)
  have hlt : P.tick ≤ P.tick + 1 := by
    rw [UInt64.le_iff_toNat_le, htick]
    omega
  refine ⟨fun j => ?_, ?_⟩
  · by_cases hj : j = i
    · subst hj
      simp [Pool.touch]
    · simpa [Pool.touch, hj] using UInt64.le_trans (h.stamped j) hlt
  · show (P.tick + 1).toNat + k < 18446744073709551615
    omega

theorem Room.store (h : Room (k + 1) P) (i : Fin n) (x : Block) : Room k (P.store i x) :=
  (h.set (y := { P.entries i with data := x, dirty := true }) rfl).touch i

theorem Room.mono {k' : Nat} (h : Room k P) (hk : k' ≤ k) : Room k' P := ⟨h.stamped, by have := h.below; omega⟩

theorem room_init (n : Nat) (hk : k < 18446744073709551615) : Room k (Pool.init n) :=
  ⟨fun _ => UInt64.le_refl _, by simpa [Pool.init] using hk⟩

theorem lruFrom_isSome (P : Pool n) (is : List (Fin n)) (best : UInt64) (i : Fin n) :
    ∃ j, P.lruFrom is best (some i) = some j := by
  induction is generalizing best i with
  | nil => exact ⟨i, rfl⟩
  | cons j is ih =>
    rw [lruFrom]
    split
    · exact ih _ _
    · exact ih _ _

/-- Every pool has a slot to reuse, as long as no slot carries the last stamp of the clock. -/
theorem victimIndex_isSome (hn : 0 < n) (h : Room k P) : ∃ i, P.victimIndex = some i := by
  rw [victimIndex]
  split
  · exact ⟨_, rfl⟩
  · obtain ⟨m, rfl⟩ : ∃ m, n = m + 1 := ⟨n - 1, by omega⟩
    have hlt : (P.entries 0).lruTick < 18446744073709551615 := by
      have hb := h.below
      have hle := UInt64.le_iff_toNat_le.mp (h.stamped 0)
      rw [UInt64.lt_iff_toNat_lt]
      show (P.entries 0).lruTick.toNat < 18446744073709551615
      omega
    rw [List.finRange_succ, lruFrom, if_pos hlt]
    exact lruFrom_isSome _ _ _ _

section Faultless

variable (he : e.Faultless) (hR : ∀ b, R b → e.inRange b) (hn : 0 < n)
include he hR

theorem flushEntry_ok {r : Except Errno Unit} (h : Coherent R s.1.hold s.2.blk L) (hv : (s.1.entries i).valid = true)
    (hr : flushEntry e i s = (r, t)) : r = .ok () := by
  rcases flushEntry_cases hr with ⟨h, -⟩ | ⟨-, hno, -⟩
  · exact h
  · exact absurd ⟨he, hR _ (h.inside i _ (hold_of_valid hv))⟩ hno

theorem flushFrom_ok {is : List (Fin n)} {r : Except Errno Unit} (h : Coherent R s.1.hold s.2.blk L)
    (hr : flushFrom e is s = (r, t)) : r = .ok () := by
  induction is generalizing s with
  | nil =>
    cases hr
    rfl
  | cons i is ih =>
    rw [flushFrom] at hr
    split at hr
    · next hvd =>
      obtain ⟨hv, hd⟩ : (s.1.entries i).valid = true ∧ (s.1.entries i).dirty = true := by simpa using hvd
      split at hr
      · next err u hu => cases flushEntry_ok he hR h hv hu
      · next u hu => exact ih (kept_flushEntry h hv hd hu).coherent hr
    · exact ih h hr

include hn

theorem getVictim_ok {r : Except Errno (Fin n)} (h : Coherent R s.1.hold s.2.blk L) (hroom : Room k s.1)
    (hr : getVictim e s = (r, t)) : ∃ i, r = .ok i := by
  obtain ⟨i, hi⟩ := victimIndex_isSome hn hroom
  rw [getVictim, hi] at hr
  dsimp only at hr
  split at hr
  · next hvd =>
    obtain ⟨hv, -⟩ : (s.1.entries i).valid = true ∧ (s.1.entries i).dirty = true := by simpa using hvd
    split at hr
    · next err u hu => cases flushEntry_ok he hR h hv hu
    · cases hr
      exact ⟨i, rfl⟩
  · cases hr
    exact ⟨i, rfl⟩

theorem load_ok {r : Except Errno (Fin n × Nat × Nat)} (h : Coherent R s.1.hold s.2.blk L) (hb : R b)
    (hroom : Room k s.1) (hr : load e b s = (r, t)) : ∃ i, r = .ok (i, 1, 0) := by
  rw [load] at hr
  split at hr
  · next err u hu =>
    obtain ⟨i, hi⟩ := getVictim_ok he hR hn h hroom hu
    cases hi
  · next i Q d hu =>
    simp only [RawEnv.readRaw, he d.ops, if_pos (hR b hb)] at hr
    cases hr
    exact ⟨i, rfl⟩

theorem readBlock_ok {r : Fetched} (h : Coherent R s.1.hold s.2.blk L) (hb : R b) (hroom : Room (k + 1) s.1)
    (hr : readBlock e b s = (r, t)) : (∃ x, r = .block x) ∧ Room k t.1 := by
  rw [readBlock] at hr
  split at hr
  · next i hf =>
    cases hr
    exact ⟨⟨_, rfl⟩, hroom.touch i⟩
  · split at hr
    · next err u hu =>
      obtain ⟨i, hi⟩ := load_ok he hR hn h hb hroom hu
      cases hi
    · next i one frac Q d hu =>
      obtain ⟨j, hj⟩ := load_ok he hR hn h hb hroom hu
      cases hj
      cases hr
      have hQ : Room (k + 1) Q := hroom.quiet (load_spec h hu).2.1
      exact ⟨⟨_, rfl⟩, (hQ.set (y := { Q.entries i with blkNum := b, valid := true, dirty := false }) rfl).touch i⟩

theorem writeBlock_ok {x : Block} {r : Except Errno Unit} (h : Coherent R s.1.hold s.2.blk L)
    (hroom : Room (k + 1) s.1) (hr : writeBlock e b x s = (r, t)) : r = .ok () ∧ Room k t.1 := by
  rw [writeBlock] at hr
  split at hr
  · next i hf =>
    cases hr
    exact ⟨rfl, hroom.store i x⟩
  · split at hr
    · next err u hu =>
      obtain ⟨i, hi⟩ := getVictim_ok he hR hn h hroom hu
      cases hi
    · next i Q d hu =>
      cases hr
      have hQ : Room (k + 1) Q := hroom.quiet (getVictim_spec h hu).2.1
      exact ⟨rfl, (hQ.set (y := { Q.entries i with blkNum := b, valid := true }) rfl).store i x⟩

theorem modifyBlock_ok {off : Nat} {patch : List UInt8} {r : Except Errno Unit} (h : Coherent R s.1.hold s.2.blk L)
    (hb : R b) (hroom : Room (k + 1) s.1) (hr : modifyBlock e b off patch s = (r, t)) : r = .ok () ∧ Room k t.1 := by
  rw [modifyBlock] at hr
  split at hr
  · next i hf =>
    cases hr
    exact ⟨rfl, hroom.store i _⟩
  · split at hr
    · next err u hu =>
      obtain ⟨i, hi⟩ := load_ok he hR hn h hb hroom hu
      cases hi
    · next i one frac Q d hu =>
      obtain ⟨j, hj⟩ := load_ok he hR hn h hb hroom hu
      cases hj
      cases hr
      have hQ : Room (k + 1) Q := hroom.quiet (load_spec h hu).2.1
      exact ⟨rfl, (hQ.set (y := { Q.entries i with blkNum := b, valid := true, dirty := false }) rfl).store i _⟩

end Faultless

theorem Room.invalidate (h : Room k P) (b : Nat) : Room k (P.invalidate b) := by
  rw [Pool.invalidate]
  split
  · exact h.quiet (.release _ _)
  · exact h

/-- Two pools for different parts of a device: what one of them does to its own part, the other one does not notice. -/
theorem Kept.beside (h : Kept R E L' s t) (hs : Coherent R s.1.hold s.2.blk L) {R' : Nat → Prop} {O : Pool m}
    (hO : Coherent R' O.hold s.2.blk L) (hdisj : ∀ b, R' b → ¬ R b) (hE : ∀ b, E b → R b)
    (hL : ∀ b, ¬ R b → L' b = L b) :
    Coherent R t.1.hold t.2.blk L' ∧ Coherent R' O.hold t.2.blk L' ∧
      ∀ b, ¬ E b → ¬ s.1.Ahead b → ¬ O.Ahead b → t.2.blk b = s.2.blk b ∧ ¬ t.1.Ahead b ∧ ¬ O.Ahead b := by
  refine ⟨h.coherent, hO.congr (fun b hb => ?_) fun b hb => hL b (hdisj b hb), fun b hb hno hno' => ?_⟩
  · refine (h.steady b (fun h => hdisj b hb (hE b h)) ?_).1
    rintro ⟨i, l, hl, rfl, -⟩
    exact hdisj _ hb (hs.inside i l hl)
  · obtain ⟨heq, hahead⟩ := h.steady b hb hno
    exact ⟨heq, hahead, hno'⟩

/-- A block that a pool stores or fails to store, seen from the cache that the pool is part of. -/
theorem Kept.stored {K : (Nat → Prop) → (Nat → Block) → Prop}
    (hK : ∀ {E L'}, Kept R E L' s t → (∀ b, E b → R b) → (∀ b, ¬ R b → L' b = L b) → K E L') (hb : R b) {x : Block}
    {r : Except Errno Unit} (hr : (r = .ok () ∧ Kept R (· = b) (Function.update L b x) s t) ∨
      ((∃ err, r = .error err) ∧ Kept R (fun _ => False) L s t)) :
    (r = .ok () ∧ K (· = b) (Function.update L b x)) ∨ ((∃ err, r = .error err) ∧ K (fun _ => False) L) := by
  refine hr.imp (fun ⟨hok, hk⟩ => ⟨hok, hK hk (fun c hc => hc ▸ hb) fun c hc => ?_⟩)
    fun ⟨herr, hk⟩ => ⟨herr, hK hk (fun _ h => h.elim) fun _ _ => rfl⟩
  exact Function.update_of_ne (by rintro rfl; exact hc hb) _ _

end Pool

namespace SplitState

variable {start : Nat}

/-- Each pool caches its own part of the device. -/
structure Stores (e : RawEnv) (start : Nat) (s : SplitState n k) (L : Nat → Block) : Prop where
  onMeta : Coherent (fun b => e.inRange b ∧ b < start) s.metaPool.hold s.device.blk L
  onData : Coherent (fun b => e.inRange b ∧ start ≤ b) s.dataPool.hold s.device.blk L

def Ahead (s : SplitState n k) (b : Nat) : Prop := s.metaPool.Ahead b ∨ s.dataPool.Ahead b

variable {s : SplitState n k} {d : RawDev}

theorem Stores.kept_meta (h : Stores e start s L) {P : Pool n}
    (hk : Pool.Kept (fun b => e.inRange b ∧ b < start) E L' (s.metaPool, s.device) (P, d))
    (hE : ∀ b, E b → e.inRange b ∧ b < start) (hL : ∀ b, ¬ (e.inRange b ∧ b < start) → L' b = L b) :
    (splitCache e start n k).Kept (Stores e start) Ahead E L' s ⟨P, s.dataPool, d⟩ := by
  obtain ⟨hm, hd, hst⟩ := hk.beside h.onMeta h.onData (fun b hb hb' => absurd hb'.2 (Nat.not_lt.mpr hb.2)) hE hL
  exact ⟨⟨hm, hd⟩, fun b hb hno => (hst b hb (mt .inl hno) (mt .inr hno)).imp_right fun h => not_or.mpr h⟩

theorem Stores.kept_data (h : Stores e start s L) {P : Pool k}
    (hk : Pool.Kept (fun b => e.inRange b ∧ start ≤ b) E L' (s.dataPool, s.device) (P, d))
    (hE : ∀ b, E b → e.inRange b ∧ start ≤ b) (hL : ∀ b, ¬ (e.inRange b ∧ start ≤ b) → L' b = L b) :
    (splitCache e start n k).Kept (Stores e start) Ahead E L' s ⟨s.metaPool, P, d⟩ := by
  obtain ⟨hd, hm, hst⟩ := hk.beside h.onData h.onMeta (fun b hb hb' => absurd hb.2 (Nat.not_lt.mpr hb'.2)) hE hL
  exact ⟨⟨hm, hd⟩, fun b hb hno => (hst b hb (mt .inr hno) (mt .inl hno)).imp_right fun h => not_or.mpr h.symm⟩

end SplitState

/-- The split cache acts as a plain device. -/
theorem splitCache_lawful (e : RawEnv) (start n k : Nat) :
    (splitCache e start n k).Lawful (SplitState.Stores e start) SplitState.Ahead e.inRange (start ≤ ·) where
  read {s t L b r} h hb hr := by
    dsimp only [splitCache] at hr
    split at hr
    · next hlt =>
      cases hr
      obtain ⟨hk, hx⟩ := Pool.readBlock_spec (s := (s.metaPool, s.device)) h.onMeta ⟨hb, hlt⟩ rfl
      exact ⟨h.kept_meta hk (fun _ h => h.elim) fun _ _ => rfl, hx⟩
    · next hge =>
      cases hr
      obtain ⟨hk, hx⟩ := Pool.readBlock_spec (s := (s.dataPool, s.device)) h.onData ⟨hb, Nat.not_lt.mp hge⟩ rfl
      exact ⟨h.kept_data hk (fun _ h => h.elim) fun _ _ => rfl, hx⟩
  write {s t L b x r} h hb hr := by
    dsimp only [splitCache] at hr
    split at hr
    · next hlt =>
      cases hr
      exact Pool.Kept.stored h.kept_meta ⟨hb, hlt⟩ (Pool.writeBlock_spec (s := (s.metaPool, s.device)) h.onMeta ⟨hb, hlt⟩ rfl)
    · next hge =>
      cases hr
      have hge := Nat.not_lt.mp hge
      exact Pool.Kept.stored h.kept_data ⟨hb, hge⟩ (Pool.writeBlock_spec (s := (s.dataPool, s.device)) h.onData ⟨hb, hge⟩ rfl)
  modify {s t L b off patch r} h hb hr := by
    dsimp only [splitCache] at hr
    split at hr
    · next hlt =>
      cases hr
      exact Pool.Kept.stored h.kept_meta ⟨hb, hlt⟩ (Pool.modifyBlock_spec (s := (s.metaPool, s.device)) h.onMeta ⟨hb, hlt⟩ rfl)
    · next hge =>
      cases hr
      have hge := Nat.not_lt.mp hge
      exact Pool.Kept.stored h.kept_data ⟨hb, hge⟩ (Pool.modifyBlock_spec (s := (s.dataPool, s.device)) h.onData ⟨hb, hge⟩ rfl)
  flush {s t L r} h hr := by
    dsimp only [splitCache, SplitState.onMeta, SplitState.onData] at hr
    rcases hf : Pool.flushAll e (s.metaPool, s.device) with ⟨r₁, P, d₁⟩
    obtain ⟨hk, -, hdev⟩ := Pool.flushAll_spec (s := (s.metaPool, s.device)) h.onMeta hf
    have hk := h.kept_meta hk (fun _ h => h.elim) fun _ _ => rfl
    rw [hf] at hr
    cases r₁ with
    | error err =>
      cases hr
      exact ⟨hk, fun h => (nomatch h)⟩
    | ok _ =>
      dsimp only at hr
      rcases hf' : Pool.flushAll e (s.dataPool, d₁) with ⟨r₂, Q, d₂⟩
      obtain ⟨hk', -, hdev'⟩ := Pool.flushAll_spec (s := (s.dataPool, d₁)) hk.stores.onData hf'
      have hmeta : ∀ b, e.inRange b ∧ b < start → d₂.blk b = L b := fun b hb => by
        refine (hk'.steady b (fun h => h) ?_).1.trans (hdev rfl b hb)
        rintro ⟨i, l, hl, rfl, -⟩
        exact absurd (hk.stores.onData.inside i l hl).2 (Nat.not_le.mpr hb.2)
      have hk' := hk.stores.kept_data hk' (fun _ h => h.elim) fun _ _ => rfl
      have hk : (splitCache e start n k).Kept (SplitState.Stores e start) SplitState.Ahead (fun _ => False) L s ⟨P, Q, d₂⟩ :=
        (hk.trans hk').mono fun b h => h.elim id id
      rw [hf'] at hr
      cases r₂ with
      | error err =>
        cases hr
        exact ⟨hk, fun h => (nomatch h)⟩
      | ok _ =>
        cases hr
        have hblk := e.devFsync_blk d₂
        refine ⟨⟨⟨?_, ?_⟩, ?_⟩, fun _ b hb => ?_⟩
        · rw [hblk]
          exact hk.stores.onMeta
        · rw [hblk]
          exact hk.stores.onData
        · intro b hE hb
          obtain ⟨heq, hno⟩ := hk.steady b hE hb
          exact ⟨(congrFun hblk b).trans heq, hno⟩
        · refine (congrFun hblk b).trans ?_
          by_cases hlt : b < start
          · exact hmeta b ⟨hb, hlt⟩
          · exact hdev' rfl b ⟨hb, Nat.not_lt.mp hlt⟩
  invalidate {s L b} h hin hb := by
    obtain ⟨y, hk, hno⟩ := Pool.invalidate_spec (s := (s.dataPool, s.device)) h.onData b
    refine ⟨y, h.kept_data hk (fun _ h => h.elim) fun c hc => ?_, ?_⟩
    · exact Function.update_of_ne (by rintro rfl; exact hc ⟨hin, hb⟩) _ _
    · rintro (⟨i, l, hl, rfl, -⟩ | hd)
      · exact absurd (h.onMeta.inside i l hl).2 (Nat.not_lt.mpr hb)
      · exact hno hd

end Mofs
