import Mofs.BcacheSpec

namespace Mofs

open Bytes WriteBack

variable {S : Type} {C : CacheImpl S} {Stores : S → (Nat → Block) → Prop} {Ahead : S → Nat → Prop} {R F E : Nat → Prop}
  {L L' : Nat → Block} {s t u : S} {start b : Nat}

namespace CacheImpl

/-- The cache makes up the store `L` in state `t`; off `E`, no block has changed on the device that was not ahead of it in
state `s`, and none has come to be ahead of it. -/
structure Kept (C : CacheImpl S) (Stores : S → (Nat → Block) → Prop) (Ahead : S → Nat → Prop) (E : Nat → Prop)
    (L : Nat → Block) (s t : S) : Prop where
  stores : Stores t L
  steady : ∀ b, ¬ E b → ¬ Ahead s b → (C.dev t).blk b = (C.dev s).blk b ∧ ¬ Ahead t b

theorem Kept.refl (h : Stores s L) : C.Kept Stores Ahead E L s s := ⟨h, fun _ _ hb => ⟨rfl, hb⟩⟩

theorem Kept.trans {E' : Nat → Prop} (h : C.Kept Stores Ahead E L s t) (h' : C.Kept Stores Ahead E' L' t u) :
    C.Kept Stores Ahead (fun b => E b ∨ E' b) L' s u where
  stores := h'.stores
  steady b hE hb := by
    obtain ⟨heq, hno⟩ := h.steady b (fun h => hE (.inl h)) hb
    obtain ⟨heq', hno'⟩ := h'.steady b (fun h => hE (.inr h)) hno
    exact ⟨heq'.trans heq, hno'⟩

theorem Kept.mono {E' : Nat → Prop} (h : C.Kept Stores Ahead E L s t) (hE : ∀ b, E b → E' b) :
    C.Kept Stores Ahead E' L s t := ⟨h.stores, fun b hb => h.steady b fun hE' => hb (hE b hE')⟩

/-- The rounds of a cache act as on a plain device with the blocks of `R`, of which those of `F` may be invalidated.
Either a store takes place, or it fails and nothing happens. -/
structure Lawful (C : CacheImpl S) (Stores : S → (Nat → Block) → Prop) (Ahead : S → Nat → Prop) (R F : Nat → Prop) :
    Prop where
  read : ∀ {s t L b r}, Stores s L → R b → C.readBlock b s = (r, t) →
    C.Kept Stores Ahead (fun _ => False) L s t ∧ ∀ x, r = .block x → x = L b
  write : ∀ {s t L b x r}, Stores s L → R b → C.writeBlock b x s = (r, t) →
    (r = .ok () ∧ C.Kept Stores Ahead (· = b) (Function.update L b x) s t) ∨
      ((∃ err, r = .error err) ∧ C.Kept Stores Ahead (fun _ => False) L s t)
  modify : ∀ {s t L b off patch r}, Stores s L → R b → C.modifyBlock b off patch s = (r, t) →
    (r = .ok () ∧ C.Kept Stores Ahead (· = b) (Function.update L b (splice (L b) off patch)) s t) ∨
      ((∃ err, r = .error err) ∧ C.Kept Stores Ahead (fun _ => False) L s t)
  flush : ∀ {s t L r}, Stores s L → C.flush s = (r, t) →
    C.Kept Stores Ahead (fun _ => False) L s t ∧ (r = .ok () → ∀ b, R b → (C.dev t).blk b = L b)
  invalidate : ∀ {s L b}, Stores s L → R b → F b →
    ∃ y, C.Kept Stores Ahead (fun _ => False) (Function.update L b y) s (C.invalidate b s) ∧ ¬ Ahead (C.invalidate b s) b

end CacheImpl

/-- The store after blocks have been written from block `start + i` on. -/
def storeFrom (start : Nat) : List Block → Nat → (Nat → Block) → Nat → Block
  | [], _, L => L
  | x :: xs, i, L => storeFrom start xs (i + 1) (Function.update L (u32 (start + i)) x)

namespace CacheCall

/-- The blocks a call stores to, given what it returns. -/
def Stored : CacheCall → CacheRet → Nat → Prop
  | .write start _, .write _ written => fun b => ∃ j < written, b = u32 (start + j)
  | .modify b _ _, .done (.ok ()) => (· = b)
  | _, _ => fun _ => False

/-- The content of a plain device after a call, given what it returns. -/
def logical (L : Nat → Block) : CacheCall → CacheRet → Nat → Block
  | .write start blocks, .write _ written => storeFrom start (blocks.take written) 0 L
  | .modify b off patch, .done (.ok ()) => Function.update L b (splice (L b) off patch)
  | _, _ => L

/-- The blocks of a call lie in `R`; a block of `F` may be invalidated. -/
def InRange (R F : Nat → Prop) : CacheCall → Prop
  | .read start req => ∀ i, i < req → R (u32 (start + i))
  | .write start blocks => ∀ i, i < blocks.length → R (u32 (start + i))
  | .modify b _ _ => R b
  | .flush => True
  | .invalidate b => R b ∧ F b

def Invalidates (c : CacheCall) (b : Nat) : Prop := c = .invalidate b

/-- A read returns blocks of the store, a write that succeeds has stored all its blocks, and a flush brings the store to the
device. -/
def Answers (R : Nat → Prop) (L dev : Nat → Block) : CacheCall → CacheRet → Prop
  | .read start req, .read r =>
    r.blocks.length = r.readBlkNum ∧ r.readBlkNum ≤ req ∧ ∀ j x, r.blocks[j]? = some x → x = L (u32 (start + j))
  | .write _ blocks, .write ret written => written ≤ blocks.length ∧ (ret = .ok () → written = blocks.length)
  | .flush, .done (.ok ()) => ∀ b, R b → dev b = L b
  | _, _ => True

end CacheCall

namespace CacheImpl.Lawful

variable (hC : C.Lawful Stores Ahead R F)
include hC

theorem readFrom_spec {req i : Nat} {blocks : List Block} {r : ReadRes} (h : Stores s L)
    (hR : ∀ j, j < req → R (u32 (start + (i + j)))) (hr : C.readFrom start req i blocks s = (r, t)) :
    C.Kept Stores Ahead (fun _ => False) L s t ∧ ∃ xs, r.blocks = blocks ++ xs ∧ r.readBlkNum = i + xs.length ∧
      xs.length ≤ req ∧ ∀ j x, xs[j]? = some x → x = L (u32 (start + (i + j))) := by
  induction req generalizing i blocks s with
  | zero =>
    cases hr
    exact ⟨.refl h, [], by simp⟩
  | succ req ih =>
    rw [readFrom] at hr
    have h0 : R (u32 (start + i)) := hR 0 (by omega)
    split at hr
    · next x u hu =>
      obtain ⟨hk, hx⟩ := hC.read h h0 hu
      have hR' : ∀ j, j < req → R (u32 (start + (i + 1 + j))) := fun j hj => by
        have := hR (j + 1) (by omega)
        rwa [show i + (j + 1) = i + 1 + j by omega] at this
      obtain ⟨hk', xs, hbl, hnum, hlen, hxs⟩ := ih hk.stores hR' hr
      refine ⟨(hk.trans hk').mono fun b hb => hb.elim id id, x :: xs, ?_, ?_, by simpa using hlen, fun j y hj => ?_⟩
      · rw [hbl, List.append_assoc, List.singleton_append]
      · rw [hnum, List.length_cons]
        omega
      · cases j with
        | zero =>
          cases hj
          exact hx x rfl
        | succ j =>
          have := hxs j y hj
          rwa [show i + 1 + j = i + (j + 1) by omega] at this
    · next u hu =>
      cases hr
      exact ⟨(hC.read h h0 hu).1, [], by simp⟩
    · next u hu =>
      cases hr
      exact ⟨(hC.read h h0 hu).1, [], by simp⟩

theorem writeFrom_spec {xs : List Block} {i k : Nat} {ret : Except Errno Unit} (h : Stores s L)
    (hR : ∀ j, j < xs.length → R (u32 (start + (i + j)))) (hr : C.writeFrom start xs i s = ((ret, k), t)) :
    ∃ w, k = i + w ∧ w ≤ xs.length ∧ (ret = .ok () → w = xs.length) ∧
      C.Kept Stores Ahead (fun b => ∃ j < w, b = u32 (start + (i + j))) (storeFrom start (xs.take w) i L) s t := by
  induction xs generalizing i s L with
  | nil =>
    cases hr
    exact ⟨0, rfl, by simp, fun _ => rfl, .refl h⟩
  | cons x xs ih =>
    rw [writeFrom] at hr
    have h0 : R (u32 (start + i)) := hR 0 (by simp)
    split at hr
    · next u hu =>
      rcases hC.write h h0 hu with ⟨-, hk⟩ | ⟨⟨_, h⟩, -⟩
      · have hR' : ∀ j, j < xs.length → R (u32 (start + (i + 1 + j))) := fun j hj => by
          have := hR (j + 1) (by simpa using hj)
          rwa [show i + (j + 1) = i + 1 + j by omega] at this
        obtain ⟨w, rfl, hw, hok, hk'⟩ := ih hk.stores hR' hr
        refine ⟨w + 1, by omega, by simpa using hw, fun h => by simp [hok h], (hk.trans hk').mono fun b hb => ?_⟩
        rcases hb with rfl | ⟨j, hj, rfl⟩
        · exact ⟨0, by omega, rfl⟩
        · exact ⟨j + 1, by omega, by rw [show i + 1 + j = i + (j + 1) by omega]⟩
      · cases h
    · next err u hu =>
      cases hr
      rcases hC.write h h0 hu with ⟨h, -⟩ | ⟨-, hk⟩
      · cases h
      · exact ⟨0, rfl, by simp, fun h => (nomatch h), hk.mono fun b hb => hb.elim⟩

/-- What a call does to the store; an invalidated block has some content afterwards. -/
theorem call_spec {blkSize : Nat} {c : CacheCall} {ret : CacheRet} (h : Stores s L) (hc : c.InRange R F)
    (hr : C.call blkSize c s = (ret, t)) :
    ∃ L', C.Kept Stores Ahead (c.Stored ret) L' s t ∧ (∀ b, ¬ c.Invalidates b → L' b = c.logical L ret b) ∧
      (∀ b, c.Invalidates b → ¬ Ahead t b) ∧ c.Answers R L (C.dev t).blk ret := by
  cases c with
  | read start req =>
    rcases hf : C.readFrom start req 0 [] s with ⟨r, u⟩
    rw [call, hf] at hr
    cases hr
    obtain ⟨hk, xs, hbl, hnum, hlen, hxs⟩ := hC.readFrom_spec h (by simpa [CacheCall.InRange] using hc) hf
    refine ⟨L, hk, fun _ _ => rfl, fun b hb => (nomatch hb), ?_, ?_, fun j x hj => ?_⟩
    · rw [hbl, hnum]
      simp
    · rw [hnum]
      simpa using hlen
    · rw [hbl, List.nil_append] at hj
      simpa using hxs j x hj
  | write start blocks =>
    rcases hf : C.writeFrom start blocks 0 s with ⟨⟨r, k⟩, u⟩
    rw [call, hf] at hr
    cases hr
    obtain ⟨w, hw, hle, hall, hk⟩ := hC.writeFrom_spec h (by simpa [CacheCall.InRange] using hc) hf
    rw [Nat.zero_add] at hw
    subst hw
    refine ⟨_, hk.mono fun b hb => ?_, fun _ _ => rfl, fun b hb => (nomatch hb), hle, hall⟩
    simpa [CacheCall.Stored] using hb
  | modify b off patch =>
    rw [call] at hr
    split at hr
    · cases hr
      exact ⟨L, .refl h, fun _ _ => rfl, fun b hb => (nomatch hb), trivial⟩
    · rcases hf : C.modifyBlock b off patch s with ⟨r, u⟩
      rw [hf] at hr
      cases hr
      rcases hC.modify h hc hf with ⟨rfl, hk⟩ | ⟨⟨err, rfl⟩, hk⟩
      · exact ⟨_, hk, fun _ _ => rfl, fun b hb => (nomatch hb), trivial⟩
      · exact ⟨_, hk, fun _ _ => rfl, fun b hb => (nomatch hb), trivial⟩
  | flush =>
    rcases hf : C.flush s with ⟨r, u⟩
    rw [call, hf] at hr
    cases hr
    obtain ⟨hk, hdev⟩ := hC.flush h hf
    refine ⟨L, hk, fun _ _ => rfl, fun b hb => (nomatch hb), ?_⟩
    cases r with
    | ok _ => exact hdev rfl
    | error err => trivial
  | invalidate b =>
    cases hr
    obtain ⟨y, hk, hno⟩ := hC.invalidate h hc.1 hc.2
    refine ⟨_, hk, fun c hne => ?_, ?_, trivial⟩
    · exact Function.update_of_ne (fun hcb => hne (by rw [hcb]; rfl)) _ _
    · rintro c ⟨⟩
      exact hno

end CacheImpl.Lawful

namespace CacheImpl

/-- A run of calls, with the content a plain device would have after them. -/
def track (C : CacheImpl S) (blkSize : Nat) : List CacheCall → S × (Nat → Block) → S × (Nat → Block)
  | [], x => x
  | c :: cs, (s, L) =>
    let (ret, s) := C.call blkSize c s
    C.track blkSize cs (s, c.logical L ret)

theorem Lawful.track_spec (hC : C.Lawful Stores Ahead R (fun _ => False)) {blkSize : Nat} {calls : List CacheCall}
    (h : Stores s L) (hin : ∀ c, c ∈ calls → c.InRange R (fun _ => False))
    (hr : C.track blkSize calls (s, L) = (t, L')) : Stores t L' := by
  induction calls generalizing s L with
  | nil =>
    cases hr
    exact h
  | cons c cs ih =>
    rcases hcall : C.call blkSize c s with ⟨ret, u⟩
    rw [track, hcall] at hr
    obtain ⟨hin, hins⟩ := List.forall_mem_cons.mp hin
    obtain ⟨M, hk, hM, -⟩ := hC.call_spec h hin hcall
    have hM : M = c.logical L ret := by
      funext b
      refine hM b ?_
      rintro rfl
      exact hin.2
    subst hM
    exact ih hk.stores hins hr

end CacheImpl

namespace Pool

variable {n : Nat}

theorem Kept.of_blk {P : Pool n} {d d' : RawDev} {s : Pool n × RawDev} (h : Kept R E L s (P, d)) (hd : d'.blk = d.blk) :
    Kept R E L s (P, d') := by
  refine ⟨?_, ?_⟩
  · have := h.coherent
    rwa [show (P, d).2.blk = d'.blk from hd.symm] at this
  · have := h.steady
    rwa [show (P, d).2.blk = d'.blk from hd.symm] at this

end Pool

theorem RawEnv.devFsync_blk (e : RawEnv) (d : RawDev) : (e.devFsync d).2.blk = d.blk := by
  rw [RawEnv.devFsync]
  split <;> rfl

/-- The unified cache acts as a plain device. -/
theorem unifiedCache_lawful (e : RawEnv) (n : Nat) (F : Nat → Prop) :
    (unifiedCache e n).Lawful (fun s L => Coherent e.inRange s.1.hold s.2.blk L) (fun s => s.1.Ahead) e.inRange F where
  read h hb hr := by
    obtain ⟨hk, hx⟩ := Pool.readBlock_spec h hb hr
    exact ⟨⟨hk.coherent, hk.steady⟩, hx⟩
  write h hb hr := (Pool.writeBlock_spec h hb hr).imp (fun ⟨hok, hk⟩ => ⟨hok, hk.coherent, hk.steady⟩)
    fun ⟨herr, hk⟩ => ⟨herr, hk.coherent, hk.steady⟩
  modify h hb hr := (Pool.modifyBlock_spec h hb hr).imp (fun ⟨hok, hk⟩ => ⟨hok, hk.coherent, hk.steady⟩)
    fun ⟨herr, hk⟩ => ⟨herr, hk.coherent, hk.steady⟩
  flush {s t L r} h hr := by
    rw [unifiedCache] at hr
    dsimp only at hr
    split at hr
    · next err u hu =>
      cases hr
      obtain ⟨hk, -, -⟩ := Pool.flushAll_spec h hu
      exact ⟨⟨hk.coherent, hk.steady⟩, fun h => (nomatch h)⟩
    · next P d hu =>
      cases hr
      obtain ⟨hk, -, hdev⟩ := Pool.flushAll_spec h hu
      have hk := hk.of_blk (e.devFsync_blk d)
      exact ⟨⟨hk.coherent, hk.steady⟩, fun _ b hb => (congrFun (e.devFsync_blk d) b).trans (hdev rfl b hb)⟩
  invalidate h _ _ := by
    obtain ⟨y, hk, hno⟩ := Pool.invalidate_spec h _
    exact ⟨y, ⟨hk.coherent, hk.steady⟩, hno⟩

/-- What the pool and the device below it hold of a block. -/
def Pool.content {n : Nat} (s : Pool n × RawDev) (b : Nat) : Block :=
  match s.1.find b with
  | some i => (s.1.entries i).data
  | none => s.2.blk b

theorem Pool.content_eq {n : Nat} {s : Pool n × RawDev} (h : Coherent R s.1.hold s.2.blk L) (hb : R b) :
    Pool.content s b = L b := by
  rw [content]
  split
  · next i hf => exact find_data h hf
  · next hf => exact h.absent b hb fun j l hl hk => find_none hf ⟨j, l, hl, hk⟩

theorem Pool.coherent_init (R : Nat → Prop) (n : Nat) (d : RawDev) : Coherent R (Pool.init n).hold d.blk d.blk :=
  Coherent.empty _ fun _ => rfl

/-- A call takes a cache that holds the content of a plain device to one that holds its content after the call. -/
structure Pool.DeviceStep {n : Nat} (e : RawEnv) (L : Nat → Block) (c : CacheCall) (ret : CacheRet)
    (s t : Pool n × RawDev) : Prop where
  unique : ∀ i j, (s.1.entries i).valid = true → (s.1.entries j).valid = true →
    (s.1.entries i).blkNum = (s.1.entries j).blkNum → i = j
  before : ∀ b, e.inRange b → Pool.content s b = L b
  after : ∀ b, e.inRange b → Pool.content t b = c.logical L ret b
  answers : c.Answers e.inRange L t.2.blk ret

/-- In every run of the unified cache over a device whose raw operations may fail, each call acts as on a plain device. -/
theorem unified_cache_refines_device (e : RawEnv) (n : Nat) (d : RawDev) (calls : List CacheCall) (c : CacheCall)
    (hcalls : ∀ c', c' ∈ calls → c'.InRange e.inRange (fun _ => False)) (hc : c.InRange e.inRange (fun _ => False)) :
    Pool.DeviceStep e ((unifiedCache e n).track e.blkSize calls ((Pool.init n, d), d.blk)).2 c
      ((unifiedCache e n).call e.blkSize c ((unifiedCache e n).track e.blkSize calls ((Pool.init n, d), d.blk)).1).1
      ((unifiedCache e n).track e.blkSize calls ((Pool.init n, d), d.blk)).1
      ((unifiedCache e n).call e.blkSize c ((unifiedCache e n).track e.blkSize calls ((Pool.init n, d), d.blk)).1).2 := by
  have hC := unifiedCache_lawful e n fun _ => False
  generalize hrun : (unifiedCache e n).track e.blkSize calls ((Pool.init n, d), d.blk) = x
  obtain ⟨s, L⟩ := x
  have hs : Coherent e.inRange s.1.hold s.2.blk L := hC.track_spec (Pool.coherent_init e.inRange n d) hcalls hrun
  generalize hcall : (unifiedCache e n).call e.blkSize c s = y
  obtain ⟨ret, t⟩ := y
  obtain ⟨M, hk, hM, -, hans⟩ := hC.call_spec hs hc hcall
  refine ⟨fun i j hi hj hij => ?_, fun b hb => Pool.content_eq hs hb, fun b hb => ?_, hans⟩
  · exact hs.unique i j _ _ (Pool.hold_of_valid hi) (Pool.hold_of_valid hj) hij
  · rw [Pool.content_eq hk.stores hb, hM b]
    rintro rfl
    exact hc.2

/-- A block is still there after its eviction has failed. -/
theorem unified_cache_refines_device_fault :
    let e : RawEnv := ⟨4, 8, fun k => if k = 0 then some (.fail .eio fun _ => 9) else none⟩
    let calls : List CacheCall := [.write 0 [fun _ => 7]]
    let x := (unifiedCache e 1).track e.blkSize calls ((Pool.init 1, ⟨fun _ _ => 0, 0⟩), fun _ _ => 0)
    let y := (unifiedCache e 1).call e.blkSize (.read 1 1) x.1
    (∀ c, c ∈ calls → c.InRange e.inRange (fun _ => False)) ∧ (CacheCall.read 1 1).InRange e.inRange (fun _ => False) ∧
      Pool.DeviceStep e x.2 (.read 1 1) y.1 x.1 y.2 := by
  intro e calls x y
  have hcalls : ∀ c, c ∈ calls → c.InRange e.inRange (fun _ => False) := by
    intro c hc
    obtain rfl := List.mem_singleton.mp hc
    show ∀ i, i < 1 → e.inRange (u32 (0 + i))
    decide
  have hread : (CacheCall.read 1 1).InRange e.inRange (fun _ => False) := by
    show ∀ i, i < 1 → e.inRange (u32 (1 + i))
    decide
  exact ⟨hcalls, hread, unified_cache_refines_device e 1 ⟨fun _ _ => 0, 0⟩ calls (.read 1 1) hcalls hread⟩

end Mofs
