import Mofs.SplitCache

namespace Mofs

open Bytes WriteBack

namespace CacheCall

/-- The number of blocks a call looks up. -/
def accesses : CacheCall → Nat
  | .read _ req => req
  | .write _ blocks => blocks.length
  | .modify _ _ _ => 1
  | _ => 0

/-- What a call returns when nothing goes wrong, but for the blocks that are read. -/
def Succeeds (blkSize : Nat) : CacheCall → CacheRet → Prop
  | .read _ req, .read r => r.ret = .ok () ∧ r.readBlkNum = req ∧ r.fraction = 0
  | .write _ blocks, .write ret written => ret = .ok () ∧ written = blocks.length
  | .modify _ off patch, .done ret =>
    ret = if patch = [] ∨ blkSize < off + patch.length then .error .einval else .ok ()
  | .flush, .done ret => ret = .ok ()
  | .invalidate _, .done ret => ret = .ok ()
  | _, _ => False

/-- The blocks with a known content after a call: those that were not invalidated, and those that were written. -/
def known (K : Nat → Prop) : CacheCall → CacheRet → Nat → Prop
  | .invalidate b, _ => fun c => K c ∧ c ≠ b
  | .write start _, .write _ written => fun c => K c ∨ ∃ j < written, c = u32 (start + j)
  | _, _ => K

/-- The blocks that were invalidated and have not been stored to since. -/
def resting (Q : Nat → Prop) (c : CacheCall) (ret : CacheRet) (b : Nat) : Prop :=
  (Q b ∧ ¬ c.Stored ret b) ∨ c.Invalidates b

end CacheCall

/-- The code and the counts of an answer. -/
def CacheRet.code : CacheRet → Except Errno Unit × Nat × Nat
  | .read r => (r.ret, r.readBlkNum, r.fraction)
  | .write ret written => (ret, written, 0)
  | .done ret => (ret, 0, 0)

variable {S S' : Type} {C : CacheImpl S} {Stores : S → (Nat → Block) → Prop} {Ahead : S → Nat → Prop}
  {Room : Nat → S → Prop} {R F : Nat → Prop} {L : Nat → Block} {s t : S} {start k blkSize : Nat}

namespace CacheImpl

/-- No round of the cache fails, as long as there is room on its clocks. -/
structure Serving (C : CacheImpl S) (Stores : S → (Nat → Block) → Prop) (Room : Nat → S → Prop) (R : Nat → Prop) :
    Prop where
  mono : ∀ {s k}, Room (k + 1) s → Room k s
  read : ∀ {s t L b r k}, Stores s L → R b → Room (k + 1) s → C.readBlock b s = (r, t) →
    (∃ x, r = .block x) ∧ Room k t
  write : ∀ {s t L b x r k}, Stores s L → R b → Room (k + 1) s → C.writeBlock b x s = (r, t) → r = .ok () ∧ Room k t
  modify : ∀ {s t L b off patch r k}, Stores s L → R b → Room (k + 1) s → C.modifyBlock b off patch s = (r, t) →
    r = .ok () ∧ Room k t
  flush : ∀ {s t L r k}, Stores s L → Room k s → C.flush s = (r, t) → r = .ok () ∧ Room k t
  invalidate : ∀ {s b k}, Room k s → Room k (C.invalidate b s)

namespace Serving

variable (hS : C.Serving Stores Room R) (hC : C.Lawful Stores Ahead R F)
include hS hC

theorem readFrom_ok {req i : Nat} {blocks : List Block} {r : ReadRes} (h : Stores s L)
    (hR : ∀ j, j < req → R (u32 (start + (i + j)))) (hroom : Room (k + req) s)
    (hr : C.readFrom start req i blocks s = (r, t)) :
    r.ret = .ok () ∧ r.readBlkNum = i + req ∧ r.fraction = 0 ∧ Room k t := by
  induction req generalizing i blocks s with
  | zero =>
    cases hr
    exact ⟨rfl, rfl, rfl, hroom⟩
  | succ req ih =>
    rw [readFrom] at hr
    have h0 : R (u32 (start + i)) := hR 0 (by omega)
    rcases hf : C.readBlock (u32 (start + i)) s with ⟨r₀, u⟩
    obtain ⟨⟨x, rfl⟩, hroom'⟩ := hS.read h h0 hroom hf
    rw [hf] at hr
    have hR' : ∀ j, j < req → R (u32 (start + (i + 1 + j))) := fun j hj => by
      have := hR (j + 1) (by omega)
      rwa [show i + (j + 1) = i + 1 + j by omega] at this
    obtain ⟨hret, hnum, hfrac, hk⟩ := ih (hC.read h h0 hf).1.stores hR' hroom' hr
    exact ⟨hret, by omega, hfrac, hk⟩

theorem writeFrom_ok {xs : List Block} {i w : Nat} {ret : Except Errno Unit} (h : Stores s L)
    (hR : ∀ j, j < xs.length → R (u32 (start + (i + j)))) (hroom : Room (k + xs.length) s)
    (hr : C.writeFrom start xs i s = ((ret, w), t)) : ret = .ok () ∧ w = i + xs.length ∧ Room k t := by
  induction xs generalizing i s L with
  | nil =>
    cases hr
    exact ⟨rfl, rfl, hroom⟩
  | cons x xs ih =>
    rw [writeFrom] at hr
    have h0 : R (u32 (start + i)) := hR 0 (by simp)
    rcases hf : C.writeBlock (u32 (start + i)) x s with ⟨r₀, u⟩
    obtain ⟨rfl, hroom'⟩ := hS.write h h0 hroom hf
    rw [hf] at hr
    have hR' : ∀ j, j < xs.length → R (u32 (start + (i + 1 + j))) := fun j hj => by
      have := hR (j + 1) (by simpa using hj)
      rwa [show i + (j + 1) = i + 1 + j by omega] at this
    rcases hC.write h h0 hf with ⟨-, hk⟩ | ⟨⟨_, h⟩, -⟩
    · obtain ⟨hret, hw, hk⟩ := ih hk.stores hR' hroom' hr
      refine ⟨hret, ?_, hk⟩
      rw [hw, List.length_cons]
      omega
    · cases h

theorem call_ok {c : CacheCall} {ret : CacheRet} (h : Stores s L) (hc : c.InRange R F) (hroom : Room (k + c.accesses) s)
    (hr : C.call blkSize c s = (ret, t)) : c.Succeeds blkSize ret ∧ Room k t := by
  cases c with
  | read start req =>
    rcases hf : C.readFrom start req 0 [] s with ⟨r, u⟩
    rw [call, hf] at hr
    cases hr
    have hroom : Room (k + req) s := hroom
    obtain ⟨hret, hnum, hfrac, hk⟩ := hS.readFrom_ok hC h (by simpa [CacheCall.InRange] using hc) hroom hf
    exact ⟨⟨hret, by simpa using hnum, hfrac⟩, hk⟩
  | write start blocks =>
    rcases hf : C.writeFrom start blocks 0 s with ⟨⟨r, w⟩, u⟩
    rw [call, hf] at hr
    cases hr
    have hroom : Room (k + blocks.length) s := hroom
    obtain ⟨hret, hw, hk⟩ := hS.writeFrom_ok hC h (by simpa [CacheCall.InRange] using hc) hroom hf
    exact ⟨⟨hret, by simpa using hw⟩, hk⟩
  | modify b off patch =>
    rw [call] at hr
    split at hr
    · next hbad =>
      cases hr
      exact ⟨(if_pos hbad).symm, hS.mono hroom⟩
    · next hgood =>
      rcases hf : C.modifyBlock b off patch s with ⟨r, u⟩
      rw [hf] at hr
      cases hr
      obtain ⟨rfl, hk⟩ := hS.modify h hc hroom hf
      exact ⟨(if_neg hgood).symm, hk⟩
  | flush =>
    rcases hf : C.flush s with ⟨r, u⟩
    rw [call, hf] at hr
    cases hr
    obtain ⟨rfl, hk⟩ := hS.flush h hroom hf
    exact ⟨rfl, hk⟩
  | invalidate b =>
    cases hr
    exact ⟨rfl, hS.invalidate hroom⟩

end Serving

/-- A run of calls, with the answers to them. -/
def run (C : CacheImpl S) (blkSize : Nat) : List CacheCall → S → List (CacheCall × CacheRet) × S
  | [], s => ([], s)
  | c :: cs, s =>
    let (ret, s) := C.call blkSize c s
    let (h, s) := C.run blkSize cs s
    ((c, ret) :: h, s)

end CacheImpl

/-- The blocks with a known content after the calls of a history. -/
def Known (h : List (CacheCall × CacheRet)) : Nat → Prop := h.foldl (fun K x => x.1.known K x.2) fun _ => True

/-- The blocks that rest after the calls of a history. -/
def Resting (h : List (CacheCall × CacheRet)) : Nat → Prop := h.foldl (fun Q x => x.1.resting Q x.2) fun _ => False

theorem storeFrom_agree {xs : List Block} {i : Nat} {L L' : Nat → Block} {K : Nat → Prop} (h : ∀ b, K b → L b = L' b)
    {b : Nat} (hb : K b ∨ ∃ j < xs.length, b = u32 (start + (i + j))) :
    storeFrom start xs i L b = storeFrom start xs i L' b := by
  induction xs generalizing i L L' K with
  | nil =>
    rcases hb with hb | ⟨j, hj, -⟩
    · exact h b hb
    · exact absurd hj (Nat.not_lt_zero j)
  | cons x xs ih =>
    -- the block that is written first is known from then on
    refine ih (K := fun c => K c ∨ c = u32 (start + i)) (fun c hc => ?_) ?_
    · by_cases hci : c = u32 (start + i)
      · rw [hci, Function.update_self, Function.update_self]
      · rw [Function.update_of_ne hci, Function.update_of_ne hci]
        exact h c (hc.resolve_right hci)
    · rcases hb with hb | ⟨j, hj, rfl⟩
      · exact .inl (.inl hb)
      · cases j with
        | zero => exact .inl (.inr rfl)
        | succ j => exact .inr ⟨j, by simpa using hj, by rw [show i + (j + 1) = i + 1 + j by omega]⟩

/-- Two answers to a call that succeeds differ at most in the blocks that are read. -/
theorem CacheCall.Succeeds.code_eq {c : CacheCall} {ret ret' : CacheRet} (h : c.Succeeds blkSize ret)
    (h' : c.Succeeds blkSize ret') : ret.code = ret'.code := by
  cases c <;> cases ret <;> cases ret' <;> simp_all [CacheCall.Succeeds, CacheRet.code]

/-- Two stores that agree on the known blocks do so after a call that succeeds. -/
theorem CacheCall.Succeeds.logical_agree {c : CacheCall} {ret ret' : CacheRet} {L L' : Nat → Block} {K : Nat → Prop}
    (hret : c.Succeeds blkSize ret) (hret' : c.Succeeds blkSize ret') (h : ∀ b, K b → L b = L' b) {b : Nat}
    (hb : c.known K ret b) : c.logical L ret b = c.logical L' ret' b := by
  cases c with
  | read start req => exact h b hb
  | write start blocks =>
    cases ret with
    | read r => cases hret
    | done r => cases hret
    | write r w =>
      cases ret' with
      | read r => cases hret'
      | done r => cases hret'
      | write r' w' =>
        obtain ⟨-, rfl⟩ := hret
        obtain ⟨-, rfl⟩ := hret'
        refine storeFrom_agree h ?_
        simpa [CacheCall.known] using hb
  | modify a off patch =>
    cases ret with
    | read r => cases hret
    | write r w => cases hret
    | done r =>
      cases ret' with
      | read r => cases hret'
      | write r w => cases hret'
      | done r' =>
        obtain rfl : r = r' := Eq.trans hret (Eq.symm hret')
        cases r with
        | error err => exact h b hb
        | ok _ =>
          show Function.update L a _ b = Function.update L' a _ b
          by_cases hba : b = a
          · subst hba
            rw [Function.update_self, Function.update_self, h b hb]
          · rw [Function.update_of_ne hba, Function.update_of_ne hba]
            exact h b hb
  | flush => exact h b hb
  | invalidate a => exact h b hb.1

/-- The cache makes up the store `L`, no block of `Q` is ahead of the device, and there is room for `k` accesses. -/
structure CacheSound (Stores : S → (Nat → Block) → Prop) (Ahead : S → Nat → Prop) (Room : Nat → S → Prop) (k : Nat)
    (Q : Nat → Prop) (L : Nat → Block) (s : S) : Prop where
  stores : Stores s L
  resting : ∀ b, Q b → ¬ Ahead s b
  room : Room k s

theorem CacheSound.call {Q : Nat → Prop} {c : CacheCall} {ret : CacheRet} (hS : C.Serving Stores Room R)
    (hC : C.Lawful Stores Ahead R F) (h : CacheSound Stores Ahead Room (k + c.accesses) Q L s) (hc : c.InRange R F)
    (hr : C.call blkSize c s = (ret, t)) :
    c.Succeeds blkSize ret ∧ c.Answers R L (C.dev t).blk ret ∧
      (∀ b, Q b → ¬ c.Stored ret b → (C.dev t).blk b = (C.dev s).blk b) ∧
      ∃ L', CacheSound Stores Ahead Room k (c.resting Q ret) L' t ∧ ∀ b, ¬ c.Invalidates b → L' b = c.logical L ret b := by
  obtain ⟨hret, hroom⟩ := hS.call_ok hC h.stores hc h.room hr
  obtain ⟨L', hk, hL', hinv, hans⟩ := hC.call_spec h.stores hc hr
  refine ⟨hret, hans, fun b hb hno => (hk.steady b hno (h.resting b hb)).1, L', ⟨hk.stores, ?_, hroom⟩, hL'⟩
  rintro b (⟨hb, hno⟩ | hb)
  · exact (hk.steady b hno (h.resting b hb)).2
  · exact hinv b hb

section Agree

variable {C' : CacheImpl S'} {Stores' : S' → (Nat → Block) → Prop} {Ahead' : S' → Nat → Prop} {Room' : Nat → S' → Prop}
  {s' t' : S'} {K Q Q' : Nat → Prop}

/-- Two caches whose stores agree on the blocks of `K`. -/
def Agree (Stores : S → (Nat → Block) → Prop) (Ahead : S → Nat → Prop) (Room : Nat → S → Prop)
    (Stores' : S' → (Nat → Block) → Prop) (Ahead' : S' → Nat → Prop) (Room' : Nat → S' → Prop) (k : Nat)
    (K Q Q' : Nat → Prop) (s : S) (s' : S') : Prop :=
  ∃ L L', CacheSound Stores Ahead Room k Q L s ∧ CacheSound Stores' Ahead' Room' k Q' L' s' ∧ ∀ b, K b → L b = L' b

variable (hS : C.Serving Stores Room R) (hC : C.Lawful Stores Ahead R F) (hS' : C'.Serving Stores' Room' R)
  (hC' : C'.Lawful Stores' Ahead' R F)
include hS hC hS' hC'

theorem Agree.call {c : CacheCall} {ret ret' : CacheRet}
    (h : Agree Stores Ahead Room Stores' Ahead' Room' (k + c.accesses) K Q Q' s s') (hc : c.InRange R F)
    (hr : C.call blkSize c s = (ret, t)) (hr' : C'.call blkSize c s' = (ret', t')) :
    Agree Stores Ahead Room Stores' Ahead' Room' k (c.known K ret) (c.resting Q ret) (c.resting Q' ret') t t' := by
  obtain ⟨L, L', hs, hs', hL⟩ := h
  obtain ⟨hret, -, -, M, hM, hMeq⟩ := hs.call hS hC hc hr
  obtain ⟨hret', -, -, M', hM', hMeq'⟩ := hs'.call hS' hC' hc hr'
  refine ⟨M, M', hM, hM', fun b hb => ?_⟩
  have hno : ¬ c.Invalidates b := by
    rintro rfl
    exact hb.2 rfl
  rw [hMeq b hno, hMeq' b hno]
  exact hret.logical_agree hret' hL hb

theorem Agree.run {calls : List CacheCall} {h h' : List (CacheCall × CacheRet)}
    (ha : Agree Stores Ahead Room Stores' Ahead' Room' (k + (calls.map CacheCall.accesses).sum) K Q Q' s s')
    (hin : ∀ c, c ∈ calls → c.InRange R F) (hr : C.run blkSize calls s = (h, t)) (hr' : C'.run blkSize calls s' = (h', t')) :
    Agree Stores Ahead Room Stores' Ahead' Room' k (h.foldl (fun K x => x.1.known K x.2) K)
      (h.foldl (fun Q x => x.1.resting Q x.2) Q) (h'.foldl (fun Q x => x.1.resting Q x.2) Q') t t' := by
  induction calls generalizing s s' K Q Q' h h' with
  | nil =>
    cases hr
    cases hr'
    exact ha
  | cons c cs ih =>
    obtain ⟨hc, hcs⟩ := List.forall_mem_cons.mp hin
    rcases h₁ : C.call blkSize c s with ⟨ret, u⟩
    rcases h₂ : C.run blkSize cs u with ⟨g, v⟩
    rcases h₁' : C'.call blkSize c s' with ⟨ret', u'⟩
    rcases h₂' : C'.run blkSize cs u' with ⟨g', v'⟩
    rw [CacheImpl.run, h₁] at hr
    rw [CacheImpl.run, h₁'] at hr'
    simp only [h₂, h₂'] at hr hr'
    cases hr
    cases hr'
    have hsum : k + ((c :: cs).map CacheCall.accesses).sum = k + (cs.map CacheCall.accesses).sum + c.accesses := by
      rw [List.map_cons, List.sum_cons]
      omega
    rw [hsum] at ha
    have hnext := Agree.call hS hC hS' hC' ha hc h₁ h₁'
    simp only [List.foldl_cons]
    exact ih hnext hcs h₂ h₂'

end Agree

theorem unifiedCache_serving {e : RawEnv} (he : e.Faultless) {n : Nat} (hn : 0 < n) :
    (unifiedCache e n).Serving (fun s L => Coherent e.inRange s.1.hold s.2.blk L) (fun k s => s.1.Room k) e.inRange where
  mono h := h.mono (Nat.le_succ _)
  read h hb hroom hr := Pool.readBlock_ok he (fun _ h => h) hn h hb hroom hr
  write h _ hroom hr := Pool.writeBlock_ok he (fun _ h => h) hn h hroom hr
  modify h hb hroom hr := Pool.modifyBlock_ok he (fun _ h => h) hn h hb hroom hr
  flush {s t L r k} h hroom hr := by
    rcases hf : Pool.flushAll e s with ⟨r₁, P, d⟩
    obtain rfl := Pool.flushFrom_ok he (fun _ h => h) h hf
    dsimp only [unifiedCache] at hr
    rw [hf] at hr
    cases hr
    refine ⟨?_, hroom.quiet (Pool.flushAll_spec h hf).2.1⟩
    rw [RawEnv.devFsync, he]
  invalidate h := h.invalidate _

theorem splitCache_serving {e : RawEnv} (he : e.Faultless) (start : Nat) {n k : Nat} (hn : 0 < n) (hk : 0 < k) :
    (splitCache e start n k).Serving (SplitState.Stores e start) (fun j s => s.metaPool.Room j ∧ s.dataPool.Room j)
      e.inRange where
  mono h := ⟨h.1.mono (Nat.le_succ _), h.2.mono (Nat.le_succ _)⟩
  read {s t L b r j} h hb hroom hr := by
    dsimp only [splitCache] at hr
    split at hr
    · next hlt =>
      cases hr
      obtain ⟨hx, hj⟩ := Pool.readBlock_ok (s := (s.metaPool, s.device)) he (fun _ h => h.1) hn h.onMeta ⟨hb, hlt⟩ hroom.1 rfl
      exact ⟨hx, hj, hroom.2.mono (Nat.le_succ _)⟩
    · next hge =>
      cases hr
      obtain ⟨hx, hj⟩ := Pool.readBlock_ok (s := (s.dataPool, s.device)) he (fun _ h => h.1) hk h.onData
        ⟨hb, Nat.not_lt.mp hge⟩ hroom.2 rfl
      exact ⟨hx, hroom.1.mono (Nat.le_succ _), hj⟩
  write {s t L b x r j} h hb hroom hr := by
    dsimp only [splitCache] at hr
    split at hr
    · cases hr
      obtain ⟨hx, hj⟩ := Pool.writeBlock_ok (s := (s.metaPool, s.device)) he (fun _ h => h.1) hn h.onMeta hroom.1 rfl
      exact ⟨hx, hj, hroom.2.mono (Nat.le_succ _)⟩
    · cases hr
      obtain ⟨hx, hj⟩ := Pool.writeBlock_ok (s := (s.dataPool, s.device)) he (fun _ h => h.1) hk h.onData hroom.2 rfl
      exact ⟨hx, hroom.1.mono (Nat.le_succ _), hj⟩
  modify {s t L b off patch r j} h hb hroom hr := by
    dsimp only [splitCache] at hr
    split at hr
    · next hlt =>
      cases hr
      obtain ⟨hx, hj⟩ := Pool.modifyBlock_ok (s := (s.metaPool, s.device)) he (fun _ h => h.1) hn h.onMeta ⟨hb, hlt⟩ hroom.1 rfl
      exact ⟨hx, hj, hroom.2.mono (Nat.le_succ _)⟩
    · next hge =>
      cases hr
      obtain ⟨hx, hj⟩ := Pool.modifyBlock_ok (s := (s.dataPool, s.device)) he (fun _ h => h.1) hk h.onData
        ⟨hb, Nat.not_lt.mp hge⟩ hroom.2 rfl
      exact ⟨hx, hroom.1.mono (Nat.le_succ _), hj⟩
  flush {s t L r j} h hroom hr := by
    rcases hf : Pool.flushAll e (s.metaPool, s.device) with ⟨r₁, P, d⟩
    obtain rfl := Pool.flushFrom_ok (s := (s.metaPool, s.device)) he (fun _ h => h.1) h.onMeta hf
    obtain ⟨hk₁, hq, -⟩ := Pool.flushAll_spec (s := (s.metaPool, s.device)) h.onMeta hf
    have h' := (h.kept_meta hk₁ (fun _ h => h.elim) fun _ _ => rfl).stores
    rcases hf' : Pool.flushAll e (s.dataPool, d) with ⟨r₂, Q, d'⟩
    obtain rfl := Pool.flushFrom_ok (s := (s.dataPool, d)) he (fun _ h => h.1) h'.onData hf'
    have hq' := (Pool.flushAll_spec (s := (s.dataPool, d)) h'.onData hf').2.1
    dsimp only [splitCache, SplitState.onMeta, SplitState.onData] at hr
    rw [hf] at hr
    dsimp only at hr
    rw [hf'] at hr
    cases hr
    refine ⟨?_, hroom.1.quiet hq, hroom.2.quiet hq'⟩
    rw [RawEnv.devFsync, he]
  invalidate h := ⟨h.1, h.2.invalidate _⟩

/-- What two answers to a call and the two devices after it have in common: the code and the counts, the known blocks that
are read, and after a flush the known blocks of the devices. -/
structure SameAnswer (R K : Nat → Prop) (c : CacheCall) (ret ret' : CacheRet) (dev dev' : Nat → Block) : Prop where
  code : ret.code = ret'.code
  blocks : ∀ start req r r', c = .read start req → ret = .read r → ret' = .read r' →
    ∀ j, K (u32 (start + j)) → r.blocks[j]? = r'.blocks[j]?
  flushed : c = .flush → ∀ b, R b → K b → dev b = dev' b

theorem sameAnswer_of_agree {c : CacheCall} {ret ret' : CacheRet} {dev dev' L L' : Nat → Block} {K : Nat → Prop}
    (hret : c.Succeeds blkSize ret) (hret' : c.Succeeds blkSize ret') (hans : c.Answers R L dev ret)
    (hans' : c.Answers R L' dev' ret') (hL : ∀ b, K b → L b = L' b) : SameAnswer R K c ret ret' dev dev' := by
  refine ⟨hret.code_eq hret', ?_, ?_⟩
  · rintro start req r r' rfl rfl rfl j hj
    obtain ⟨hlen, -, hx⟩ := hans
    obtain ⟨hlen', -, hx'⟩ := hans'
    have heq : r.blocks.length = r'.blocks.length := by rw [hlen, hlen', hret.2.1, hret'.2.1]
    by_cases hlt : j < r.blocks.length
    · have h₁ : r.blocks[j]? = some r.blocks[j] := List.getElem?_eq_getElem hlt
      have h₂ : r'.blocks[j]? = some (r'.blocks.get ⟨j, heq ▸ hlt⟩) := List.getElem?_eq_getElem (heq ▸ hlt)
      rw [h₁, h₂, hx j _ h₁, hx' j _ h₂, hL _ hj]
    · rw [List.getElem?_eq_none (Nat.not_lt.mp hlt), List.getElem?_eq_none (heq ▸ Nat.not_lt.mp hlt)]
  · rintro rfl b hb hK
    cases ret with
    | read r => cases hret
    | write r w => cases hret
    | done r =>
      cases ret' with
      | read r => cases hret'
      | write r w => cases hret'
      | done r' =>
        obtain rfl : r = .ok () := hret
        obtain rfl : r' = .ok () := hret'
        rw [hans b hb, hans' b hb, hL b hK]

/-- In every run of fewer than `2 ^ 64 - 1` block accesses, the split cache and the unified cache answer alike, and neither
writes a block to the device that was invalidated and not stored to since. -/
theorem split_cache_agrees (e : RawEnv) (he : e.Faultless) (start n m k : Nat) (hn : 0 < n) (hm : 0 < m) (hk : 0 < k)
    (d : RawDev) (calls : List CacheCall) (c : CacheCall)
    (hcalls : ∀ c', c' ∈ calls → c'.InRange e.inRange (start ≤ ·)) (hc : c.InRange e.inRange (start ≤ ·))
    (hroom : (calls.map CacheCall.accesses).sum + c.accesses < 18446744073709551615) :
    let u := (unifiedCache e n).run e.blkSize calls (Pool.init n, d)
    let v := (splitCache e start m k).run e.blkSize calls ⟨Pool.init m, Pool.init k, d⟩
    let x := (unifiedCache e n).call e.blkSize c u.2
    let y := (splitCache e start m k).call e.blkSize c v.2
    SameAnswer e.inRange (Known u.1) c x.1 y.1 x.2.2.blk y.2.device.blk ∧
      (∀ b, Resting u.1 b → ¬ c.Stored x.1 b → x.2.2.blk b = u.2.2.blk b) ∧
      ∀ b, Resting v.1 b → ¬ c.Stored y.1 b → y.2.device.blk b = v.2.device.blk b := by
  intro u v x y
  have hS := unifiedCache_serving he hn
  have hC := unifiedCache_lawful e n (start ≤ ·)
  have hS' := splitCache_serving he start hm hk
  have hC' := splitCache_lawful e start m k
  have hinit : Agree (fun s L => Coherent e.inRange s.1.hold s.2.blk L) (fun s => s.1.Ahead) (fun j s => s.1.Room j)
      (SplitState.Stores e start) SplitState.Ahead (fun j s => s.metaPool.Room j ∧ s.dataPool.Room j)
      (0 + c.accesses + (calls.map CacheCall.accesses).sum) (fun _ => True) (fun _ => False) (fun _ => False)
      (Pool.init n, d) ⟨Pool.init m, Pool.init k, d⟩ := by
    refine ⟨d.blk, d.blk, ⟨Pool.coherent_init _ n d, fun _ h => h.elim, Pool.room_init n (by omega)⟩,
      ⟨⟨Pool.coherent_init _ m d, Pool.coherent_init _ k d⟩, fun _ h => h.elim, Pool.room_init m (by omega),
        Pool.room_init k (by omega)⟩, fun _ _ => rfl⟩
  obtain ⟨L, L', hs, hs', hL⟩ := Agree.run hS hC hS' hC' hinit hcalls rfl rfl
  have hx : (unifiedCache e n).call e.blkSize c u.2 = (x.1, x.2) := rfl
  have hy : (splitCache e start m k).call e.blkSize c v.2 = (y.1, y.2) := rfl
  obtain ⟨hret, hans, hrest, -⟩ := hs.call hS hC hc hx
  obtain ⟨hret', hans', hrest', -⟩ := hs'.call hS' hC' hc hy
  exact ⟨sameAnswer_of_agree hret hret' hans hans' hL, hrest, hrest'⟩

/-- A metadata block and a data block are written, the data block is invalidated, and both are read in one call. -/
theorem split_cache_agrees_boundary :
    let e : RawEnv := ⟨4, 8, fun _ => none⟩
    let calls : List CacheCall := [.write 0 [fun _ => 5, fun _ => 6], .invalidate 1]
    let u := (unifiedCache e 2).run e.blkSize calls (Pool.init 2, ⟨fun _ _ => 0, 0⟩)
    let v := (splitCache e 1 1 1).run e.blkSize calls ⟨Pool.init 1, Pool.init 1, ⟨fun _ _ => 0, 0⟩⟩
    let x := (unifiedCache e 2).call e.blkSize (.read 0 2) u.2
    let y := (splitCache e 1 1 1).call e.blkSize (.read 0 2) v.2
    e.Faultless ∧ (∀ c, c ∈ calls → c.InRange e.inRange (1 ≤ ·)) ∧ (CacheCall.read 0 2).InRange e.inRange (1 ≤ ·) ∧
      (calls.map CacheCall.accesses).sum + (CacheCall.read 0 2).accesses < 18446744073709551615 ∧
      SameAnswer e.inRange (Known u.1) (.read 0 2) x.1 y.1 x.2.2.blk y.2.device.blk ∧
      (∀ b, Resting u.1 b → ¬ (CacheCall.read 0 2).Stored x.1 b → x.2.2.blk b = u.2.2.blk b) ∧
      ∀ b, Resting v.1 b → ¬ (CacheCall.read 0 2).Stored y.1 b → y.2.device.blk b = v.2.device.blk b := by
  intro e calls u v x y
  have he : e.Faultless := fun _ => rfl
  have hcalls : ∀ c, c ∈ calls → c.InRange e.inRange (1 ≤ ·) := by
    intro c hc
    rcases List.mem_cons.mp hc with rfl | hc
    · show ∀ i, i < 2 → e.inRange (u32 (0 + i))
      decide
    · obtain rfl := List.mem_singleton.mp hc
      show e.inRange 1 ∧ 1 ≤ 1
      decide
  have hread : (CacheCall.read 0 2).InRange e.inRange (1 ≤ ·) := by
    show ∀ i, i < 2 → e.inRange (u32 (0 + i))
    decide
  have hroom : (calls.map CacheCall.accesses).sum + (CacheCall.read 0 2).accesses < 18446744073709551615 := by
    show 2 + (0 + 0) + 2 < 18446744073709551615
    omega
  exact ⟨he, hcalls, hread, hroom, split_cache_agrees e he 1 2 1 1 (by decide) (by decide) (by decide)
    ⟨fun _ _ => 0, 0⟩ calls (.read 0 2) hcalls hread hroom⟩

/-! ### A clock that is used up -/

theorem CacheImpl.run_replicate {I : Nat → S → Prop} {c : CacheCall}
    (hI : ∀ k s, I k s → I (k + 1) (C.call blkSize c s).2) (j : Nat) (h : I k s) :
    I (k + j) (C.run blkSize (List.replicate j c) s).2 := by
  induction j generalizing k s with
  | zero => exact h
  | succ j ih =>
    have := ih (hI k s h)
    rwa [show k + 1 + j = k + (j + 1) by omega] at this

/-- A read of one block is one round. -/
theorem CacheImpl.call_read_one (b : Nat) (s : S) :
    (C.call blkSize (.read b 1) s).2 = (C.readBlock (u32 b) s).2 ∧
      (C.call blkSize (.read b 1) s).1.code =
        match (C.readBlock (u32 b) s).1 with
        | .block _ => (.ok (), 1, 0)
        | .short fraction _ => (.ok (), 0, fraction)
        | .fail err => (.error err, 0, 0) := by
  rcases hf : C.readBlock (u32 b) s with ⟨r, t⟩
  cases r <;> simp [call, readFrom, hf, CacheRet.code]

/-- The only slot of the pool holds block 0, stamped with the clock. -/
structure OnlySlot (k : Nat) (s : Pool 1 × RawDev) : Prop where
  valid : (s.1.entries 0).valid = true
  blkNum : (s.1.entries 0).blkNum = 0
  stamp : (s.1.entries 0).lruTick = s.1.tick
  tick : s.1.tick = UInt64.ofNat k

namespace OnlySlot

variable {s : Pool 1 × RawDev} {e : RawEnv}

theorem find_zero (h : OnlySlot k s) : s.1.find 0 = some 0 := by
  have := h.valid
  have := h.blkNum
  simp_all [Pool.find, List.finRange_succ]

theorem readBlock (h : OnlySlot k s) : OnlySlot (k + 1) (Pool.readBlock e 0 s).2 := by
  rw [Pool.readBlock, h.find_zero]
  refine ⟨?_, ?_, ?_, ?_⟩
  · simpa [Pool.touch] using h.valid
  · simpa [Pool.touch] using h.blkNum
  · simp [Pool.touch]
  · simp [Pool.touch, h.tick, UInt64.ofNat_add]

theorem first_read (he : e.Faultless) (h0 : e.inRange 0) (d : RawDev) : OnlySlot 1 (Pool.readBlock e 0 (Pool.init 1, d)).2 := by
  have hload : (Pool.readBlock e 0 (Pool.init 1, d)).2.1.tick = 1 ∧
      (Pool.readBlock e 0 (Pool.init 1, d)).2.1.entries 0 = ⟨true, false, 0, 1, d.blk 0⟩ := by
    simp [Pool.readBlock, Pool.find, Pool.init, List.finRange_succ, Pool.load, Pool.getVictim, Pool.victimIndex,
      RawEnv.readRaw, he d.ops, h0, Pool.set, Pool.release, Pool.install, Pool.touch, Except.map]
  exact ⟨by rw [hload.2], by rw [hload.2], by rw [hload.1, hload.2], by rw [hload.1]; rfl⟩

/-- When the slot carries the last stamp of the clock, no slot is found for another block. -/
theorem readBlock_one (h : OnlySlot k s) (hk : UInt64.ofNat k = 18446744073709551615) :
    (Pool.readBlock e 1 s).1 = .fail .eio := by
  have hstamp : (s.1.entries 0).lruTick = 18446744073709551615 := by rw [h.stamp, h.tick, hk]
  have hfind : s.1.find 1 = none := by simp [Pool.find, List.finRange_succ, h.blkNum]
  have hvictim : s.1.victimIndex = none := by
    simp [Pool.victimIndex, Pool.lruFrom, List.finRange_succ, h.valid, hstamp]
  rw [Pool.readBlock, hfind]
  dsimp only
  rw [Pool.load, Pool.getVictim, hvictim]

/-- The pool after `k` reads of block 0. -/
def After (d : RawDev) (k : Nat) (s : Pool 1 × RawDev) : Prop := k = 0 ∧ s = (Pool.init 1, d) ∨ 0 < k ∧ OnlySlot k s

theorem After.readBlock (he : e.Faultless) (h0 : e.inRange 0) {d : RawDev} (h : After d k s) :
    After d (k + 1) (Pool.readBlock e 0 s).2 := by
  rcases h with ⟨rfl, rfl⟩ | ⟨-, h⟩
  · exact .inr ⟨by omega, first_read he h0 d⟩
  · exact .inr ⟨by omega, h.readBlock⟩

end OnlySlot

/-- After `N` reads of block 0, the unified cache finds no slot for block 1, if this uses up the clock. -/
theorem unified_read_one {e : RawEnv} (he : e.Faultless) (h0 : e.inRange 0) (d : RawDev) {N : Nat} (hpos : 0 < N)
    (hN : UInt64.ofNat N = 18446744073709551615) :
    ((unifiedCache e 1).call blkSize (.read 1 1)
      ((unifiedCache e 1).run blkSize (List.replicate N (.read 0 1)) (Pool.init 1, d)).2).1.code = (.error .eio, 0, 0) := by
  have hu : OnlySlot.After d (0 + N) ((unifiedCache e 1).run blkSize (List.replicate N (.read 0 1)) (Pool.init 1, d)).2 := by
    refine CacheImpl.run_replicate (fun k s hs => ?_) N (.inl ⟨rfl, rfl⟩)
    rw [(CacheImpl.call_read_one 0 s).1]
    exact hs.readBlock he h0
  rcases hu with ⟨h, -⟩ | ⟨-, hu⟩
  · omega
  · rw [Nat.zero_add] at hu
    have hfail := hu.readBlock_one (e := e) hN
    rw [(CacheImpl.call_read_one 1 _).2]
    show (match (Pool.readBlock e 1 _).1 with | .block _ => _ | .short _ _ => _ | .fail _ => _) = _
    rw [hfail]

/-- Reads of metadata leave the data pool of the split cache as it was. -/
theorem split_read_one {e : RawEnv} (he : e.Faultless) (h1 : e.inRange 1) (d : RawDev) (N : Nat) :
    ((splitCache e 1 1 1).call blkSize (.read 1 1)
      ((splitCache e 1 1 1).run blkSize (List.replicate N (.read 0 1)) ⟨Pool.init 1, Pool.init 1, d⟩).2).1.code =
        (.ok (), 1, 0) := by
  generalize hv : ((splitCache e 1 1 1).run blkSize (List.replicate N (.read 0 1)) ⟨Pool.init 1, Pool.init 1, d⟩).2 = v
  have hdata : v.dataPool = Pool.init 1 := by
    rw [← hv]
    refine CacheImpl.run_replicate (I := fun _ (s : SplitState 1 1) => s.dataPool = Pool.init 1) (k := 0) (fun k s hs => ?_) N rfl
    rw [(CacheImpl.call_read_one 0 s).1]
    exact hs
  have hcoh : Coherent e.inRange v.dataPool.hold v.device.blk v.device.blk := by
    rw [hdata]
    exact Pool.coherent_init _ _ _
  have hroom : Pool.Room 1 v.dataPool := by
    rw [hdata]
    exact Pool.room_init 1 (by omega)
  obtain ⟨x, hx⟩ := (Pool.readBlock_ok (k := 0) (s := (v.dataPool, v.device)) he (fun _ h => h) (by decide) hcoh h1 hroom rfl).1
  have hblock : ((splitCache e 1 1 1).readBlock (u32 1) v).1 = .block x := hx
  rw [(CacheImpl.call_read_one 1 v).2, hblock]

/-- After `2 ^ 64 - 1` accesses to the one slot of a pool, the unified cache has no slot for another block; the split cache
still serves it from its other pool. -/
theorem split_cache_disagrees :
    let e : RawEnv := ⟨4, 8, fun _ => none⟩
    let d : RawDev := ⟨fun _ _ => 0, 0⟩
    let calls := List.replicate 18446744073709551615 (CacheCall.read 0 1)
    e.Faultless ∧ (∀ c, c ∈ calls → c.InRange e.inRange (1 ≤ ·)) ∧ (CacheCall.read 1 1).InRange e.inRange (1 ≤ ·) ∧
      ((unifiedCache e 1).call e.blkSize (.read 1 1)
        ((unifiedCache e 1).run e.blkSize calls (Pool.init 1, d)).2).1.code = (.error .eio, 0, 0) ∧
      ((splitCache e 1 1 1).call e.blkSize (.read 1 1)
        ((splitCache e 1 1 1).run e.blkSize calls ⟨Pool.init 1, Pool.init 1, d⟩).2).1.code = (.ok (), 1, 0) := by
  have h0 : (⟨4, 8, fun _ => none⟩ : RawEnv).inRange 0 := by decide
  have h1 : (⟨4, 8, fun _ => none⟩ : RawEnv).inRange 1 := by decide
  refine ⟨fun _ => rfl, fun c hc => ?_, ?_, unified_read_one (fun _ => rfl) h0 _ (by omega) rfl,
    split_read_one (fun _ => rfl) h1 _ _⟩
  · rw [List.eq_of_mem_replicate hc]
    show ∀ i, i < 1 → (⟨4, 8, fun _ => none⟩ : RawEnv).inRange (u32 (0 + i))
    decide
  · show ∀ i, i < 1 → (⟨4, 8, fun _ => none⟩ : RawEnv).inRange (u32 (1 + i))
    decide

end Mofs
