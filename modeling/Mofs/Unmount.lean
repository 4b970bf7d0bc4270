import Mofs.BuildsAgree

namespace Mofs

open Effect Bytes

variable {S : Type} {C : CacheImpl S} {Stores : S → (Nat → Block) → Prop} {Ahead : S → Nat → Prop} {Room : Nat → S → Prop}
  {sb : Superblock} {size : Nat} {clock : Nat → UInt64} {rootOwner : Option (Nat × Nat)} {calls : List (User × PosixOp)} {t : Disk}
  {rs : List (Except Errno Ret)}

/-- What `mofs_fini_core` does to the device. The build without a cache has nothing to write back. -/
def mofsFiniCore : M Unit := bcacheFlush

/-- The end of a mount, the calls, and the unmount. -/
def untilUnmount (sb : Superblock) (rootOwner : Option (Nat × Nat)) (calls : List (User × PosixOp)) :
    M (List (Except Errno Ret)) := do
  let rs ← session sb rootOwner calls
  mofsFiniCore
  pure rs

/-- What is on the device below the core. -/
def Build.device : (B : Build) → B.State → Nat → Block
  | .plain, d => d.blk
  | .unified _, s => s.store.2.blk
  | .split _ _, s => s.store.device.blk

/-- What the build without a cache returns after a format and a mount, the session on the formatted device returns. -/
theorem Build.results_ok {fsSize blkSize : Int} {d : Dev}
    (h : Build.plain.results fsSize blkSize clock rootOwner calls d = some (.ok rs)) :
    ∃ d' sb t, run Dev.answer (mofsFormat fsSize blkSize) d = some (.ok (), d') ∧ loadSuperblock d'.size d'.bytes = .ok sb ∧
      run (Build.plain.answer sb d'.size clock) (session sb rootOwner calls) (diskOf sb.blkSize d'.bytes) = some (.ok rs, t) := by
  rw [Build.results] at h
  split at h
  · cases h
  · cases h
  rename_i d' hformat
  rw [Build.mountAndCall] at h
  split at h
  · cases h
  rename_i sb hload
  obtain ⟨⟨r, t⟩, hrun, rfl⟩ := Option.map_eq_some_iff.mp h
  exact ⟨d', sb, t, hformat, hload, hrun⟩

theorem run_untilUnmount {σ : Type} {H : (op : BlockOp) → σ → BlockAns op × σ} {s u v : σ}
    (hsession : run H (session sb rootOwner calls) s = some (.ok rs, u)) (hflush : H .flush u = (.ok (), v)) :
    run H (untilUnmount sb rootOwner calls) s = some (.ok rs, v) := by
  rw [untilUnmount, run_bind_ok hsession]
  refine run_bind_ok (a := ()) ?_
  show run H (Effect.ofExcept (H .flush u).1) (H .flush u).2 = _
  rw [hflush]
  rfl

/-- An unmount brings the blocks that the cache makes up to the device. -/
theorem unmount_device (hS : C.Serving Stores Room (Build.rawEnv sb size).inRange)
    (hC : C.Lawful Stores Ahead (Build.rawEnv sb size).inRange (sb.dataRegionStart ≤ ·))
    (h32 : ∀ b, (Build.rawEnv sb size).inRange b → u32 b = b) {k : Nat} {d : Disk} {s : Behind S}
    (hstart : Tracks Stores Ahead Room ([], k) d s)
    (hops : Follows (Ledger.Allows sb size) Ledger.after ([], k) (plainOps sb size clock rootOwner calls d))
    (hrun : run (Build.plainEnv sb size clock).answer (session sb rootOwner calls) d = some (.ok rs, t)) :
    ∃ v, run (C.answer sb.blkSize clock) (untilUnmount sb rootOwner calls) s = some (.ok rs, v) ∧
      ∀ b, (Build.rawEnv sb size).inRange b → b ∉ (plainOps sb size clock rootOwner calls d).foldl BlockOp.freed [] →
        (C.dev v.store).blk b = t.blk b := by
  obtain ⟨u, hrun', -, L, hL, hK⟩ := (patches_session _ _ _).run_related (cache_matches hS hC h32) hstart hops hrun
  rcases hf : C.flush u.store with ⟨ret, v⟩
  obtain ⟨rfl, -⟩ := hS.flush hL.stores hL.room hf
  have hdev := (hC.flush hL.stores hf).2 rfl
  refine ⟨{ u with store := v }, run_untilUnmount hrun' ?_, fun b hb hfreed => (hdev b hb).trans (hK b ?_)⟩
  · simp only [CacheImpl.answer, hf]
  · -- the ledger's first part is the list of freed blocks
    have hfirst (ops : List BlockOp) (g : Ledger) : (ops.foldl Ledger.after g).1 = ops.foldl BlockOp.freed g.1 := by
      induction ops generalizing g with
      | nil => rfl
      | cons op ops ih => exact ih (g.after op)
    rw [hfirst]
    exact hfreed

/-- The calls before an unmount return the same in every build, and after it every block that was not freed is on the device
as the build without a cache has left it. -/
theorem unmount_persists (B : Build) (hB : B.Pooled) {d : Dev} (hload : loadSuperblock d.size d.bytes = .ok sb)
    (horder : OrderlyCalls clock rootOwner calls d)
    (hplain : run (Build.plain.answer sb d.size clock) (untilUnmount sb rootOwner calls) (diskOf sb.blkSize d.bytes) =
      some (.ok rs, t)) :
    ∃ s, run (B.answer sb d.size clock) (untilUnmount sb rootOwner calls) (B.start (diskOf sb.blkSize d.bytes)) = some (.ok rs, s) ∧
      ∀ b, (Build.rawEnv sb d.size).inRange b →
        b ∉ (plainOps sb d.size clock rootOwner calls (diskOf sb.blkSize d.bytes)).foldl BlockOp.freed [] →
        B.device s b = t.blk b := by
  rw [OrderlyCalls, hload] at horder
  obtain ⟨hops, hcount⟩ := horder
  have hfollows := follows_allows hops (le_refl _)
  have h32 := u32_of_inRange hload
  -- without a cache the unmount changes nothing
  obtain ⟨rs', u, hsession, hrest⟩ := run_bind_eq_ok hplain
  obtain ⟨_, v, hfini, hret⟩ := run_bind_eq_ok hrest
  cases hret
  cases hfini
  cases B with
  | plain => exact ⟨_, hplain, fun _ _ _ => rfl⟩
  | unified n =>
    have hS := unifiedCache_serving (e := Build.rawEnv sb d.size) (fun _ => rfl) hB
    have hC := unifiedCache_lawful (Build.rawEnv sb d.size) n (sb.dataRegionStart ≤ ·)
    exact unmount_device hS hC h32 ⟨rfl, (diskOf sb.blkSize d.bytes).blk,
      ⟨Pool.coherent_init _ n ⟨_, 0⟩, fun _ hf => hf.elim, Pool.room_init n hcount⟩, fun _ _ => rfl⟩ hfollows hsession
  | split n k =>
    have hS := splitCache_serving (e := Build.rawEnv sb d.size) (fun _ => rfl) sb.dataRegionStart hB.1 hB.2
    have hC := splitCache_lawful (Build.rawEnv sb d.size) sb.dataRegionStart n k
    exact unmount_device hS hC h32 ⟨rfl, (diskOf sb.blkSize d.bytes).blk,
      ⟨⟨Pool.coherent_init _ n ⟨_, 0⟩, Pool.coherent_init _ k ⟨_, 0⟩⟩, fun _ hf => hf.elim, Pool.room_init n hcount,
        Pool.room_init k hcount⟩, fun _ _ => rfl⟩ hfollows hsession

/-- A file is written, emptied and written again under the smallest cache. -/
theorem unmount_persists_reuse : ∃ (sb : Superblock) (d : Dev) (t : Disk) (rs : List (Except Errno Ret)),
    (Build.unified 1).Pooled ∧ loadSuperblock d.size d.bytes = .ok sb ∧
    OrderlyCalls (fun _ => 0) none (reuseCalls (some 0) 0) d ∧
    run (Build.plain.answer sb d.size fun _ => 0) (untilUnmount sb none (reuseCalls (some 0) 0)) (diskOf sb.blkSize d.bytes) =
      some (.ok rs, t) ∧
    ∃ s, run ((Build.unified 1).answer sb d.size fun _ => 0) (untilUnmount sb none (reuseCalls (some 0) 0))
        ((Build.unified 1).start (diskOf sb.blkSize d.bytes)) = some (.ok rs, s) ∧
      ∀ b, (Build.rawEnv sb d.size).inRange b →
        b ∉ (plainOps sb d.size (fun _ => 0) none (reuseCalls (some 0) 0) (diskOf sb.blkSize d.bytes)).foldl BlockOp.freed [] →
        (Build.unified 1).device s b = t.blk b := by
  have horder : OrderlyFrom 16 512 (fun _ => 0) none (reuseCalls (some 0) 0) (blankDev 16) := by decide +kernel
  have hresults : Build.plain.results 16 512 (fun _ => 0) none (reuseCalls (some 0) 0) (blankDev 16) =
      some (.ok [.ok (.handle 0), .ok (.count 1), .ok .done, .ok (.count 1), .ok (.bytes [1])]) := by
    simp only [Build.results, plain_mountAndCall]
    decide +kernel
  obtain ⟨d, sb, t, hformat, hload, hrun⟩ := Build.results_ok hresults
  rw [OrderlyFrom, hformat] at horder
  have hplain := run_untilUnmount (H := Build.plain.answer sb d.size fun _ => 0) hrun rfl
  exact ⟨sb, d, t, _, Nat.one_pos, hload, horder, hplain, unmount_persists (.unified 1) Nat.one_pos hload horder hplain⟩

end Mofs
