import Mofs.CacheAgree
import Mofs.Lib.Lru

namespace Mofs

open Bytes WriteBack

variable {e : RawEnv} {n k b : Nat} {P Q : Pool n} {s t : Pool n × RawDev} {i : Fin n} {is : List (Fin n)} {l : List Nat}
  {R : Nat → Prop}

namespace Pool

/-- The slots in use, from the latest time stamp to the earliest. -/
structure Order (P : Pool n) (is : List (Fin n)) : Prop where
  mem : ∀ i, i ∈ is ↔ (P.entries i).valid = true
  sorted : is.Pairwise fun i j => (P.entries j).lruTick.toNat < (P.entries i).lruTick.toNat

/-- The blocks in the pool are those of `l`, the last one used first. -/
def Recent (P : Pool n) (l : List Nat) : Prop := ∃ is, P.Order is ∧ is.map (fun i => (P.entries i).blkNum) = l

theorem Order.length_le (h : P.Order is) : is.length ≤ n := by
  have hnodup : is.Nodup := h.sorted.imp fun hlt heq => by
    rw [heq] at hlt
    exact lt_irrefl _ hlt
  simpa using (List.subperm_of_subset hnodup fun i _ => List.mem_finRange i).length_le

theorem Recent.mem_iff (h : P.Recent l) (b : Nat) : b ∈ l ↔ P.Holds b := by
  obtain ⟨is, his, rfl⟩ := h
  constructor
  · intro hb
    obtain ⟨i, hi, rfl⟩ := List.mem_map.mp hb
    exact ⟨i, _, hold_of_valid ((his.mem i).mp hi), rfl⟩
  · rintro ⟨i, x, hx, rfl⟩
    rw [hold, Entry.line] at hx
    split at hx
    · next hv =>
      cases hx
      exact List.mem_map.mpr ⟨i, (his.mem i).mpr hv, rfl⟩
    · cases hx

theorem Recent.filter_eq (h : P.Recent l) (hf : P.find b = none) : l.filter (· ≠ b) = l := by
  apply List.filter_eq_self.mpr
  intro c hc
  apply decide_eq_true
  rintro rfl
  exact find_none hf ((h.mem_iff c).mp hc)

/-- What the slots other than `i` say about the order is the same in a pool that differs in slot `i` only. -/
theorem Order.off (h : P.Order is) (hoff : ∀ j, j ≠ i → Q.entries j = P.entries j) :
    ((is.filter (· ≠ i)).Pairwise fun i j => (Q.entries j).lruTick.toNat < (Q.entries i).lruTick.toNat) ∧
      (is.filter (· ≠ i)).map (fun i => (Q.entries i).blkNum) = (is.filter (· ≠ i)).map fun i => (P.entries i).blkNum := by
  have hne {j : Fin n} (hj : j ∈ is.filter (· ≠ i)) : Q.entries j = P.entries j :=
    hoff j (by simpa using (List.mem_filter.mp hj).2)
  constructor
  · apply (h.sorted.filter _).imp_of_mem
    intro j j' hj hj' hlt
    rwa [hne hj, hne hj']
  · apply List.map_congr_left
    intro j hj
    rw [hne hj]

/-- Only slot `i` has changed: it holds block `b` and carries the next time stamp. -/
structure Uses (P Q : Pool n) (b : Nat) (i : Fin n) : Prop where
  others : ∀ j, j ≠ i → Q.entries j = P.entries j
  valid : (Q.entries i).valid = true
  blkNum : (Q.entries i).blkNum = b
  stamp : (Q.entries i).lruTick = P.tick + 1

theorem Order.use (h : P.Order is) (hroom : P.Room (k + 1)) (hu : P.Uses Q b i) : Q.Order (i :: is.filter (· ≠ i)) := by
  constructor
  · intro j
    by_cases hj : j = i
    · simp [hj, hu.valid]
    · simp [hj, hu.others j hj, h.mem]
  · apply List.pairwise_cons.mpr
    constructor
    · intro j hj
      have hne : j ≠ i := by simpa using (List.mem_filter.mp hj).2
      have hstamp := UInt64.le_iff_toNat_le.mp (hroom.stamped j)
      have htick : (P.tick + 1).toNat = P.tick.toNat + 1 := by
        rw [UInt64.toNat_add]
        exact Nat.mod_eq_of_lt (by have := hroom.below; simp; omega)
      rw [hu.others j hne, hu.stamp, htick]
      omega
    · exact (h.off hu.others).1

/-- The other blocks, in the slots other than that of block `b`. -/
theorem Order.map_filter {dev L : Nat → Block} (h : P.Order is) (hc : Coherent R P.hold dev L) (hf : P.find b = some i) :
    (is.map fun i => (P.entries i).blkNum).filter (· ≠ b) = (is.filter (· ≠ i)).map fun i => (P.entries i).blkNum := by
  obtain ⟨hv, hb⟩ := find_some hf
  rw [List.filter_map]
  congr 1
  apply List.filter_congr
  intro j hj
  have hiff : (P.entries j).blkNum = b ↔ j = i := by
    constructor
    · intro hjb
      exact hc.unique j i _ _ (hold_of_valid ((h.mem j).mp hj)) (hold_of_valid hv) (hjb.trans hb.symm)
    · rintro rfl
      exact hb
  simp [hiff]

theorem lruFrom_least {best : UInt64} {idx : Option (Fin n)} (h : P.lruFrom is best idx = some i)
    (hidx : ∀ j, idx = some j → (P.entries j).lruTick ≤ best) :
    (P.entries i).lruTick ≤ best ∧ ∀ j, j ∈ is → (P.entries i).lruTick ≤ (P.entries j).lruTick := by
  induction is generalizing best idx with
  | nil => exact ⟨hidx i h, fun j hj => by cases hj⟩
  | cons j js ih =>
    rw [lruFrom] at h
    split at h
    · next hlt =>
      obtain ⟨hle, hall⟩ := ih h fun k hk => by
        cases hk
        exact UInt64.le_refl _
      exact ⟨UInt64.le_trans hle (UInt64.le_of_lt hlt), List.forall_mem_cons.mpr ⟨hle, hall⟩⟩
    · next hge =>
      obtain ⟨hle, hall⟩ := ih h hidx
      exact ⟨hle, List.forall_mem_cons.mpr ⟨UInt64.le_trans hle (UInt64.not_lt.mp hge), hall⟩⟩

/-- The slot to reuse is empty, or all slots are in use and none has an earlier time stamp. -/
theorem victimIndex_cases (h : P.victimIndex = some i) :
    (P.entries i).valid = false ∨
      (∀ j, (P.entries j).valid = true) ∧ ∀ j, (P.entries i).lruTick ≤ (P.entries j).lruTick := by
  rw [victimIndex] at h
  split at h
  · next j hj =>
    cases h
    have := List.find?_some hj
    exact .inl (by simpa using this)
  · next hnone =>
    right
    constructor
    · intro j
      simpa using List.find?_eq_none.mp hnone j (List.mem_finRange j)
    · intro j
      exact (lruFrom_least h fun k hk => by cases hk).2 j (List.mem_finRange j)

/-- The slot for block `b`: the one that holds it, or else the one to reuse. -/
def Chosen (P : Pool n) (b : Nat) (i : Fin n) : Prop := P.find b = some i ∨ P.find b = none ∧ P.victimIndex = some i

theorem Recent.use {dev L : Nat → Block} (h : P.Recent l) (hc : Coherent R P.hold dev L) (hroom : P.Room (k + 1))
    (hi : P.Chosen b i) (hu : P.Uses Q b i) : Q.Recent (Lru.step n l (.use b)) := by
  obtain ⟨is, his, rfl⟩ := h
  have hQ := his.use hroom hu
  refine ⟨_, hQ, ?_⟩
  have hlen := hQ.length_le
  rw [List.map_cons, (his.off hu.others).2, hu.blkNum, Lru.step]
  rcases hi with hf | ⟨hf, hv⟩
  · rw [his.map_filter hc hf, List.take_of_length_le (by simpa using hlen)]
  · rw [Recent.filter_eq ⟨is, his, rfl⟩ hf]
    rcases victimIndex_cases hv with hfree | ⟨hall, hmin⟩
    · have hsame : is.filter (· ≠ i) = is := by
        apply List.filter_eq_self.mpr
        intro j hj
        apply decide_eq_true
        rintro rfl
        rw [(his.mem j).mp hj] at hfree
        cases hfree
      rw [hsame] at hlen ⊢
      rw [List.take_of_length_le (by simpa using hlen)]
    · -- the pool is full, and the last block of the list goes
      have hsplit := Lru.last_of_least his.sorted ((his.mem i).mpr (hall i)) fun j _ =>
        UInt64.le_iff_toNat_le.mp (hmin j)
      have hfull : n ≤ is.length := by
        have hsub : List.finRange n ⊆ is := fun j _ => (his.mem j).mpr (hall j)
        simpa using (List.subperm_of_subset (List.nodup_finRange n) hsub).length_le
      have hcount := congrArg List.length hsplit
      conv_rhs => rw [← hsplit, List.map_append, ← List.cons_append]
      rw [List.length_append, List.length_singleton] at hcount
      rw [List.length_cons] at hlen
      exact (List.take_left' (by rw [List.length_cons, List.length_map]; omega)).symm

theorem Recent.invalidate {dev L : Nat → Block} (h : P.Recent l) (hc : Coherent R P.hold dev L) (b : Nat) :
    (P.invalidate b).Recent (Lru.step n l (.drop b)) := by
  obtain ⟨is, his, rfl⟩ := h
  rw [Pool.invalidate, Lru.step]
  cases hf : P.find b with
  | none => exact ⟨is, his, (Recent.filter_eq ⟨is, his, rfl⟩ hf).symm⟩
  | some i =>
    have hoff : ∀ j, j ≠ i → (P.release i).entries j = P.entries j := fun j hj => Function.update_of_ne hj _ _
    rw [his.map_filter hc hf]
    refine ⟨is.filter (· ≠ i), ⟨?_, (his.off hoff).1⟩, (his.off hoff).2⟩
    intro j
    by_cases hj : j = i
    · simp [hj, release, Pool.set]
    · simp [hj, hoff j hj, his.mem]

/-- A slot is written, and its time stamp is set. -/
theorem Uses.touch {y : Entry} (htick : Q.tick = P.tick) (hoff : ∀ j, j ≠ i → Q.entries j = P.entries j)
    (hv : y.valid = true) (hb : y.blkNum = b) : P.Uses ((Q.set i y).touch i) b i where
  others j hj := by simpa [Pool.touch, Pool.set, hj] using hoff j hj
  valid := by simp [Pool.touch, Pool.set, hv]
  blkNum := by simp [Pool.touch, Pool.set, hb]
  stamp := by simp [Pool.touch, Pool.set, htick]

theorem Uses.found (hf : P.find b = some i) {y : Entry} (hy : y.valid = (P.entries i).valid ∧ y.blkNum = (P.entries i).blkNum) :
    P.Uses ((P.set i y).touch i) b i :=
  .touch rfl (fun _ _ => rfl) (hy.1.trans (find_some hf).1) (hy.2.trans (find_some hf).2)

/-- Only the slot found for reuse has changed. -/
theorem getVictim_off (h : getVictim e s = (.ok i, t)) :
    s.1.victimIndex = some i ∧ t.1.tick = s.1.tick ∧ ∀ j, j ≠ i → t.1.entries j = s.1.entries j := by
  have hset (P : Pool n) (y y' : Entry) (j : Fin n) (hj : j ≠ i) : ((P.set i y).set i y').entries j = P.entries j := by
    simp [Pool.set, hj]
  rw [getVictim] at h
  cases hv : s.1.victimIndex with
  | none =>
    rw [hv] at h
    cases h
  | some i' =>
    rw [hv] at h
    dsimp only at h
    split at h
    · split at h
      · cases h
      · next u hu =>
        cases h
        rcases flushEntry_cases hu with ⟨-, hu, -⟩ | ⟨⟨_, hno⟩, -⟩
        · refine ⟨rfl, by rw [hu]; rfl, ?_⟩
          rw [hu]
          exact hset _ _ _
        · cases hno
    · cases h
      exact ⟨rfl, rfl, fun j hj => Function.update_of_ne hj _ _⟩

theorem load_off {c : Nat × Nat} (h : load e b s = (.ok (i, c), t)) :
    s.1.victimIndex = some i ∧ t.1.tick = s.1.tick ∧ ∀ j, j ≠ i → t.1.entries j = s.1.entries j := by
  rw [load] at h
  split at h
  · cases h
  · next i' Q d hv =>
    rcases hread : e.readRaw b d with ⟨⟨ret, buf⟩, d'⟩
    rw [hread] at h
    cases ret with
    | error err => cases h
    | ok c' =>
      cases h
      obtain ⟨hi, htick, hoff⟩ := getVictim_off hv
      exact ⟨hi, htick, fun j hj => (Function.update_of_ne hj _ _).trans (hoff j hj)⟩

theorem readBlock_uses {x : Block} (h : readBlock e b s = (.block x, t)) : ∃ i, s.1.Chosen b i ∧ s.1.Uses t.1 b i := by
  rw [readBlock] at h
  split at h
  · next i hf =>
    cases h
    have hu := Uses.found hf ⟨rfl, rfl⟩
    rw [set_entries_self] at hu
    exact ⟨i, .inl hf, hu⟩
  · next hf =>
    split at h
    · cases h
    · next i one frac Q d hl =>
      obtain ⟨hv, htick, hoff⟩ := load_off hl
      split at h
      · cases h
      · split at h
        · cases h
        · cases h
          exact ⟨i, .inr ⟨hf, hv⟩, .touch htick hoff rfl rfl⟩

/-- The content of the slot that a store finds does not matter. -/
theorem Uses.store {y : Entry} (htick : Q.tick = P.tick) (hoff : ∀ j, j ≠ i → Q.entries j = P.entries j)
    (hv : y.valid = true) (hb : y.blkNum = b) (x : Block) : P.Uses ((Q.set i y).store i x) b i :=
  .touch (Q := Q.set i y) htick (fun j hj => (Function.update_of_ne hj _ _).trans (hoff j hj))
    (by simpa [Pool.set] using hv) (by simpa [Pool.set] using hb)

theorem writeBlock_uses {x : Block} (h : writeBlock e b x s = (.ok (), t)) : ∃ i, s.1.Chosen b i ∧ s.1.Uses t.1 b i := by
  rw [writeBlock] at h
  split at h
  · next i hf =>
    cases h
    exact ⟨i, .inl hf, .found hf ⟨rfl, rfl⟩⟩
  · next hf =>
    split at h
    · cases h
    · next i Q d hg =>
      cases h
      obtain ⟨hv, htick, hoff⟩ := getVictim_off hg
      exact ⟨i, .inr ⟨hf, hv⟩, .store htick hoff rfl rfl x⟩

theorem modifyBlock_uses {off : Nat} {patch : List UInt8} (h : modifyBlock e b off patch s = (.ok (), t)) :
    ∃ i, s.1.Chosen b i ∧ s.1.Uses t.1 b i := by
  rw [modifyBlock] at h
  split at h
  · next i hf =>
    cases h
    exact ⟨i, .inl hf, .found hf ⟨rfl, rfl⟩⟩
  · next hf =>
    split at h
    · cases h
    · next i one frac Q d hl =>
      obtain ⟨hv, htick, hoff⟩ := load_off hl
      split at h
      · cases h
      · cases h
        exact ⟨i, .inr ⟨hf, hv⟩, .store htick hoff rfl rfl _⟩

theorem Recent.flushEntry {r : Except Errno Unit} (h : s.1.Recent l) (hr : flushEntry e i s = (r, t)) : t.1.Recent l := by
  rcases flushEntry_cases hr with ⟨-, ht, -⟩ | ⟨-, -, ht, -⟩
  · obtain ⟨is, his, rfl⟩ := h
    have hsame j : (t.1.entries j).valid = (s.1.entries j).valid ∧ (t.1.entries j).blkNum = (s.1.entries j).blkNum ∧
        (t.1.entries j).lruTick = (s.1.entries j).lruTick := by
      rw [ht]
      by_cases hj : j = i
      · simp [Pool.set, hj]
      · simp [Pool.set, hj]
    refine ⟨is, ⟨?_, ?_⟩, ?_⟩
    · simpa only [hsame] using his.mem
    · simpa only [hsame] using his.sorted
    · simp only [hsame]
  · rwa [ht]

theorem Recent.flushFrom {r : Except Errno Unit} (h : s.1.Recent l) (hr : flushFrom e is s = (r, t)) : t.1.Recent l := by
  induction is generalizing s with
  | nil =>
    cases hr
    exact h
  | cons i is ih =>
    rw [Pool.flushFrom] at hr
    split at hr
    · split at hr
      · next hu =>
        cases hr
        exact h.flushEntry hu
      · next hu => exact ih (h.flushEntry hu) hr
    · exact ih h hr

/-- The pool caches the device, has room for `k` accesses on its clock, and holds the blocks of `l`. -/
structure Ranked (e : RawEnv) (k : Nat) (l : List Nat) (s : Pool n × RawDev) : Prop where
  coherent : ∃ L, Coherent e.inRange s.1.hold s.2.blk L
  room : s.1.Room k
  recent : s.1.Recent l

theorem Ranked.use (h : Ranked e (k + 1) l s) (hc : ∃ L, Coherent e.inRange t.1.hold t.2.blk L) (hroom : t.1.Room k)
    (hu : ∃ i, s.1.Chosen b i ∧ s.1.Uses t.1 b i) : Ranked e k (Lru.step n l (.use b)) t := by
  obtain ⟨L, hL⟩ := h.coherent
  obtain ⟨i, hi, hu⟩ := hu
  exact ⟨hc, hroom, h.recent.use hL h.room hi hu⟩

end Pool

/-- What a call does to the blocks of a cache. -/
def CacheCall.actions (blkSize : Nat) : CacheCall → List (Lru.Action Nat)
  | .read start req => (List.range' 0 req).map fun i => .use (u32 (start + i))
  | .write start blocks => (List.range' 0 blocks.length).map fun i => .use (u32 (start + i))
  | .modify b off patch => if patch = [] ∨ blkSize < off + patch.length then [] else [.use b]
  | .flush => []
  | .invalidate b => [.drop b]

namespace Pool.Ranked

variable (he : e.Faultless) (hn : 0 < n)
include he hn

theorem readFrom {start req i : Nat} {blocks : List Block} {r : ReadRes} (h : Ranked e (k + req) l s)
    (hR : ∀ j, i ≤ j → j < i + req → e.inRange (u32 (start + j)))
    (hr : (unifiedCache e n).readFrom start req i blocks s = (r, t)) :
    Ranked e k (Lru.run n l ((List.range' i req).map fun j => .use (u32 (start + j)))) t := by
  induction req generalizing i blocks s l with
  | zero =>
    cases hr
    exact h
  | succ req ih =>
    rcases hf : Pool.readBlock e (u32 (start + i)) s with ⟨r₀, u⟩
    obtain ⟨L, hL⟩ := h.coherent
    have h0 := hR i (Nat.le_refl i) (by omega)
    obtain ⟨⟨x, rfl⟩, hroom⟩ := readBlock_ok he (fun _ h => h) hn hL h0 h.room hf
    rw [CacheImpl.readFrom, show (unifiedCache e n).readBlock _ s = _ from hf] at hr
    have hu := h.use ⟨L, (readBlock_spec hL h0 hf).1.coherent⟩ hroom (readBlock_uses hf)
    exact ih hu (fun j hj hlt => hR j (by omega) (by omega)) hr

theorem writeFrom {start i w : Nat} {xs : List Block} {ret : Except Errno Unit} (h : Ranked e (k + xs.length) l s)
    (hR : ∀ j, i ≤ j → j < i + xs.length → e.inRange (u32 (start + j)))
    (hr : (unifiedCache e n).writeFrom start xs i s = ((ret, w), t)) :
    Ranked e k (Lru.run n l ((List.range' i xs.length).map fun j => .use (u32 (start + j)))) t := by
  induction xs generalizing i s l with
  | nil =>
    cases hr
    exact h
  | cons x xs ih =>
    rw [List.length_cons] at hR
    rcases hf : Pool.writeBlock e (u32 (start + i)) x s with ⟨r₀, u⟩
    obtain ⟨L, hL⟩ := h.coherent
    have h0 := hR i (Nat.le_refl i) (by omega)
    obtain ⟨rfl, hroom⟩ := writeBlock_ok he (fun _ h => h) hn hL h.room hf
    rw [CacheImpl.writeFrom, show (unifiedCache e n).writeBlock _ x s = _ from hf] at hr
    rcases writeBlock_spec hL h0 hf with ⟨-, hk⟩ | ⟨⟨_, hno⟩, -⟩
    · have hu := h.use ⟨_, hk.coherent⟩ hroom (writeBlock_uses hf)
      exact ih hu (fun j hj hlt => hR j (by omega) (by omega)) hr
    · cases hno

theorem call {F : Nat → Prop} {c : CacheCall} {ret : CacheRet} (h : Ranked e (k + c.accesses) l s)
    (hc : c.InRange e.inRange F) (hr : (unifiedCache e n).call e.blkSize c s = (ret, t)) :
    Ranked e k (Lru.run n l (c.actions e.blkSize)) t := by
  obtain ⟨L, hL⟩ := h.coherent
  have hS := unifiedCache_serving he hn
  have hC := unifiedCache_lawful e n F
  have hroom := (hS.call_ok hC hL hc h.room hr).2
  obtain ⟨M, hM, -⟩ := hC.call_spec hL hc hr
  refine ⟨⟨M, hM.stores⟩, hroom, ?_⟩
  cases c with
  | read start req =>
    rcases hf : (unifiedCache e n).readFrom start req 0 [] s with ⟨r, u⟩
    rw [CacheImpl.call, hf] at hr
    cases hr
    exact (readFrom (k := k) he hn h (fun j _ hj => hc j (by simpa [CacheCall.accesses] using hj)) hf).recent
  | write start blocks =>
    rcases hf : (unifiedCache e n).writeFrom start blocks 0 s with ⟨⟨r, w⟩, u⟩
    rw [CacheImpl.call, hf] at hr
    cases hr
    exact (writeFrom (k := k) he hn h (fun j _ hj => hc j (by simpa using hj)) hf).recent
  | modify b off patch =>
    rw [CacheImpl.call] at hr
    rw [CacheCall.actions]
    split at hr
    · next hbad =>
      cases hr
      rw [if_pos hbad]
      exact h.recent
    · next hgood =>
      rcases hf : Pool.modifyBlock e b off patch s with ⟨r, u⟩
      rw [show (unifiedCache e n).modifyBlock b off patch s = _ from hf] at hr
      cases hr
      obtain ⟨rfl, -⟩ := modifyBlock_ok he (fun _ h => h) hn hL hc h.room hf
      rw [if_neg hgood]
      exact (h.use ⟨M, hM.stores⟩ hroom (modifyBlock_uses hf)).recent
  | flush =>
    rcases hf : Pool.flushAll e s with ⟨r, P, d⟩
    have hrec := h.recent.flushFrom hf
    dsimp only [CacheImpl.call, unifiedCache] at hr
    rw [hf] at hr
    cases r with
    | error err =>
      cases hr
      exact hrec
    | ok _ =>
      cases hr
      exact hrec
  | invalidate b =>
    cases hr
    exact h.recent.invalidate hL b

theorem run {F : Nat → Prop} {calls : List CacheCall} (h : Ranked e (k + (calls.map CacheCall.accesses).sum) l s)
    (hin : ∀ c, c ∈ calls → c.InRange e.inRange F) :
    Ranked e k (Lru.run n l (calls.flatMap (CacheCall.actions e.blkSize))) ((unifiedCache e n).run e.blkSize calls s).2 := by
  induction calls generalizing s l with
  | nil => exact h
  | cons c cs ih =>
    obtain ⟨hc, hcs⟩ := List.forall_mem_cons.mp hin
    have hsum : k + ((c :: cs).map CacheCall.accesses).sum = k + (cs.map CacheCall.accesses).sum + c.accesses := by
      rw [List.map_cons, List.sum_cons]
      omega
    rw [hsum] at h
    rw [List.flatMap_cons, Lru.run, List.foldl_append]
    exact ih (h.call he hn hc rfl) hcs

end Pool.Ranked

/-- In every run of fewer than `2 ^ 64 - 1` block accesses on a device without faults, the unified cache of `n` slots holds
the `n` blocks last used, those that were invalidated apart, and their time stamps are in the order of use. -/
theorem unified_cache_is_lru (e : RawEnv) (he : e.Faultless) (n : Nat) (hn : 0 < n) (d : RawDev) (calls : List CacheCall)
    (hcalls : ∀ c, c ∈ calls → c.InRange e.inRange fun _ => True)
    (hroom : (calls.map CacheCall.accesses).sum < 18446744073709551615) :
    ((unifiedCache e n).run e.blkSize calls (Pool.init n, d)).2.1.Recent
      (Lru.run n [] (calls.flatMap (CacheCall.actions e.blkSize))) := by
  have hempty : Pool.Ranked e (0 + (calls.map CacheCall.accesses).sum) [] (Pool.init n, d) := by
    refine ⟨⟨_, Pool.coherent_init _ n d⟩, Pool.room_init n (by omega), [], ⟨?_, List.Pairwise.nil⟩, rfl⟩
    intro i
    simp [Pool.init]
  exact (hempty.run he hn hcalls).recent

/-- Calls that use block 0 once more before a third block comes. -/
def thirdBlock : List CacheCall := [.read 0 2, .read 0 1, .write 2 [fun _ => 7]]

/-- With two slots, block 1 makes room for block 2. -/
theorem unified_cache_is_lru_third :
    let e : RawEnv := ⟨4, 12, fun _ => none⟩
    e.Faultless ∧ (∀ c, c ∈ thirdBlock → c.InRange e.inRange fun _ => True) ∧
      (thirdBlock.map CacheCall.accesses).sum < 18446744073709551615 ∧
      ((unifiedCache e 2).run e.blkSize thirdBlock (Pool.init 2, ⟨fun _ _ => 0, 0⟩)).2.1.Recent [2, 0] := by
  intro e
  have he : e.Faultless := fun _ => rfl
  have hcalls : ∀ c, c ∈ thirdBlock → c.InRange e.inRange fun _ => True := by
    simp only [thirdBlock, List.forall_mem_cons, CacheCall.InRange]
    exact ⟨by decide, by decide, by decide, List.forall_mem_nil _⟩
  have hroom : (thirdBlock.map CacheCall.accesses).sum < 18446744073709551615 := by decide
  exact ⟨he, hcalls, hroom, unified_cache_is_lru e he 2 (by decide) _ thirdBlock hcalls hroom⟩

end Mofs
