import Mofs.Zephyr

namespace Mofs

open Effect Bytes

/-- The disk behind a slot, as the port sees it: `failed` records that a sector access was answered with an error, and
`strayed` that one went beyond the last sector. -/
structure SectorDisk where
  bytes : Nat → UInt8
  ticks : Nat
  failed : Bool
  strayed : Bool

/-- An array of sectors. At any access `fault` may give an error instead, and leave any content; `synced` answers the
requests to flush. -/
structure SectorEnv where
  sectorSize : Nat
  sectorCount : Nat
  fault : Nat → Option (Errno × (Nat → UInt8))
  synced : Nat → Except Errno Unit

namespace SectorEnv

variable (e : SectorEnv)

def touch (start count : Nat) (s : SectorDisk) : SectorDisk :=
  { s with ticks := s.ticks + 1, strayed := s.strayed || decide (e.sectorCount < start + count) }

def answer : (op : SectorOp) → SectorDisk → SectorAns op × SectorDisk
  | .read start count, s =>
    match e.fault s.ticks with
    | some (err, bytes) => (.error err, { e.touch start count s with bytes, failed := true })
    | none => (.ok (fun k => s.bytes (start * e.sectorSize + k)), e.touch start count s)
  | .write start count data, s =>
    match e.fault s.ticks with
    | some (err, bytes) => (.error err, { e.touch start count s with bytes, failed := true })
    | none => (.ok (), { e.touch start count s with
        bytes := splice s.bytes (start * e.sectorSize) (data.take (count * e.sectorSize)) })
  | .sync, s => (e.synced s.ticks, { s with ticks := s.ticks + 1 })

end SectorEnv

variable {e : SectorEnv} {slot : DevSlot} {isWrite : Bool} {c : Cursor} {s : SectorDisk} {a n p : Nat} {f g : Nat → UInt8}

theorem i64_natCast {x : Nat} (h : x < 9223372036854775808) : i64 (x : Int) = x := by
  rw [i64, Int.bmod_def]
  omega

theorem u64_natCast {x : Nat} (h : x < 9223372036854775808) : u64 (x : Int) = x := by
  rw [u64]
  omega

/-- An open slot of a device of `sectorCount` sectors, with its offset on the device. -/
structure DevSlot.Ok (slot : DevSlot) : Prop where
  used : slot.used = true
  size_pos : 0 < slot.sectorSize
  size_lt : slot.sectorSize < 4294967296
  count_lt : slot.sectorCount < 4294967296
  bytes_lt : slot.sectorCount * slot.sectorSize < 9223372036854775808
  offset_nonneg : 0 ≤ slot.offset
  offset_le : slot.offset ≤ ((slot.sectorCount * slot.sectorSize : Nat) : Int)

/-- The device is the one the slot was opened on. -/
structure SectorEnv.Backs (e : SectorEnv) (slot : DevSlot) : Prop where
  size : e.sectorSize = slot.sectorSize
  count : e.sectorCount = slot.sectorCount

theorem DevSlot.Ok.byteSize (h : slot.Ok) : devSlotByteSize slot = ((slot.sectorCount * slot.sectorSize : Nat) : Int) := by
  rw [devSlotByteSize]
  exact i64_natCast h.bytes_lt

section Accesses

variable {Q : Except Errno (Nat → UInt8) → SectorDisk → Prop} {R : Except Errno Unit → SectorDisk → Prop} {start count : Nat}
  {data : List UInt8}

theorem run_diskAccessRead : run e.answer (diskAccessRead start count) s = some (e.answer (.read start count) s) :=
  run_ofExcept (H := e.answer) (e.answer (.read start count) s).1

theorem run_diskAccessWrite :
    run e.answer (diskAccessWrite start count data) s = some (e.answer (.write start count data) s) :=
  run_ofExcept (H := e.answer) (e.answer (.write start count data) s).1

theorem run_diskAccessSync : run e.answer diskAccessSync s = some (e.answer .sync s) :=
  run_ofExcept (H := e.answer) (e.answer .sync s).1

theorem touch_eq (hin : start + count ≤ e.sectorCount) (s : SectorDisk) :
    e.touch start count s = { s with ticks := s.ticks + 1 } := by
  rw [SectorEnv.touch, decide_eq_false (Nat.not_lt.mpr hin), Bool.or_false]

theorem wp_diskAccessRead (hin : start + count ≤ e.sectorCount)
    (hok : Q (.ok fun k => s.bytes (start * e.sectorSize + k)) { s with ticks := s.ticks + 1 })
    (herr : ∀ err bytes, Q (.error err) ⟨bytes, s.ticks + 1, true, s.strayed⟩) : wp e.answer (diskAccessRead start count) Q s := by
  refine ⟨_, _, run_diskAccessRead, ?_⟩
  rw [touch_eq hin]
  cases e.fault s.ticks with
  | none => exact hok
  | some x => exact herr x.1 x.2

theorem wp_diskAccessWrite (hin : start + count ≤ e.sectorCount) (hlen : data.length = count * e.sectorSize)
    (hok : R (.ok ()) { s with bytes := splice s.bytes (start * e.sectorSize) data, ticks := s.ticks + 1 })
    (herr : ∀ err bytes, R (.error err) ⟨bytes, s.ticks + 1, true, s.strayed⟩) :
    wp e.answer (diskAccessWrite start count data) R s := by
  refine ⟨_, _, run_diskAccessWrite, ?_⟩
  rw [touch_eq hin, ← hlen, List.take_length]
  cases e.fault s.ticks with
  | none => exact hok
  | some x => exact herr x.1 x.2

end Accesses

/-- A round at position `p` of a device with sectors of `u` bytes, in plain arithmetic. -/
def plainRound (u p : Nat) (isWrite : Bool) (c : Cursor) : Z Cursor :=
  let bulk := c.remaining / u * u
  let part := min c.remaining (u - p % u)
  if p % u = 0 ∧ u ≤ c.remaining then
    if isWrite then do
      diskAccessWrite (p / u) (c.remaining / u) (slice c.buf c.transferred bulk)
      pure (c.advance bulk c.buf)
    else do
      let data ← diskAccessRead (p / u) (c.remaining / u)
      pure (c.advance bulk (splice c.buf c.transferred (slice data 0 bulk)))
  else do
    let sectorBuf ← diskAccessRead (p / u) 1
    if isWrite then do
      diskAccessWrite (p / u) 1 (slice (splice sectorBuf (p % u) (slice c.buf c.transferred part)) 0 u)
      pure (c.advance part c.buf)
    else pure (c.advance part (splice c.buf c.transferred (slice sectorBuf (p % u) part)))

/-- No computation of a round wraps around. -/
theorem transferRound_eq (h : slot.Ok) (hcur : c.cur = (p : Int)) (hfit : p + c.remaining ≤ slot.sectorCount * slot.sectorSize)
    (hpos : 0 < c.remaining) (h32 : c.remaining < 4294967296) :
    transferRound slot isWrite c = plainRound slot.sectorSize p isWrite c := by
  have hss := h.size_pos
  have hss32 := h.size_lt
  have hsc32 := h.count_lt
  have hmod := Nat.mod_lt p hss
  have hidx : p / slot.sectorSize < slot.sectorCount := by
    rw [Nat.div_lt_iff_lt_mul hss]
    omega
  have hu : u64 c.cur = p := by
    rw [hcur]
    exact u64_natCast (by have := h.bytes_lt; omega)
  have hwhole : u32 (slot.sectorSize + 4294967296 - p % slot.sectorSize) = slot.sectorSize - p % slot.sectorSize := by
    rw [u32]
    omega
  have hchunk : (if c.remaining < slot.sectorSize - p % slot.sectorSize then c.remaining
      else slot.sectorSize - p % slot.sectorSize) = min c.remaining (slot.sectorSize - p % slot.sectorSize) := by
    split <;> omega
  have hcond : (p % slot.sectorSize = 0 ∧ min c.remaining (slot.sectorSize - p % slot.sectorSize) = slot.sectorSize) ↔
      (p % slot.sectorSize = 0 ∧ slot.sectorSize ≤ c.remaining) := by
    omega
  rw [transferRound, plainRound]
  simp only [hu, u32, Nat.mod_eq_of_lt (lt_trans hidx hsc32), Nat.mod_eq_of_lt (lt_trans hmod hss32)]
  rw [← u32, hwhole, hchunk]
  by_cases hfull : p % slot.sectorSize = 0 ∧ slot.sectorSize ≤ c.remaining
  · rw [if_pos (hcond.mpr hfull), if_pos hfull]
    have hle : c.remaining / slot.sectorSize * slot.sectorSize ≤ c.remaining := Nat.div_mul_le_self _ _
    have hsectors : c.remaining / slot.sectorSize ≤ slot.sectorCount - p / slot.sectorSize := by
      have hp : p = p / slot.sectorSize * slot.sectorSize := by
        have := Nat.div_add_mod' p slot.sectorSize
        omega
      rw [Nat.le_sub_iff_add_le (Nat.le_of_lt hidx), ← Nat.mul_le_mul_right_iff hss, Nat.add_mul]
      omega
    have hmax : (slot.sectorCount + 4294967296 - p / slot.sectorSize) % 4294967296 = slot.sectorCount - p / slot.sectorSize := by
      generalize p / slot.sectorSize = q at *
      omega
    rw [hmax, if_neg (Nat.not_lt.mpr hsectors), Nat.mod_eq_of_lt (lt_of_le_of_lt hle h32)]
  · rw [if_neg (fun hc => hfull (hcond.mp hc)), if_neg hfull]

/-- What one round does at position `p`: a sector access fails, or the next bytes are copied. -/
def RoundPost (isWrite : Bool) (p : Nat) (c : Cursor) (s : SectorDisk) (r : Except Errno Cursor) (t : SectorDisk) : Prop :=
  t.strayed = s.strayed ∧
    match r with
    | .error _ => t.failed = true
    | .ok c' => t.failed = s.failed ∧ ∃ chunk, 0 < chunk ∧ chunk ≤ c.remaining ∧
        t.bytes = (if isWrite then splice s.bytes p (slice c.buf c.transferred chunk) else s.bytes) ∧
        c' = c.advance chunk (if isWrite then c.buf else splice c.buf c.transferred (slice s.bytes p chunk))

theorem wp_plainRound (hu : 0 < e.sectorSize) (hfit : p + c.remaining ≤ e.sectorCount * e.sectorSize) (hpos : 0 < c.remaining) :
    wp e.answer (plainRound e.sectorSize p isWrite c) (RoundPost isWrite p c s) s := by
  have hmod := Nat.mod_lt p hu
  have hdm := Nat.div_add_mod' p e.sectorSize
  rw [plainRound]
  by_cases hfull : p % e.sectorSize = 0 ∧ e.sectorSize ≤ c.remaining
  · -- whole sectors
    have hp : p / e.sectorSize * e.sectorSize = p := by omega
    have hle : c.remaining / e.sectorSize * e.sectorSize ≤ c.remaining := Nat.div_mul_le_self _ _
    have hchunk : 0 < c.remaining / e.sectorSize * e.sectorSize := Nat.mul_pos (Nat.div_pos hfull.2 hu) hu
    have hin : p / e.sectorSize + c.remaining / e.sectorSize ≤ e.sectorCount := by
      rw [← Nat.mul_le_mul_right_iff hu, Nat.add_mul]
      omega
    rw [if_pos hfull]
    cases isWrite with
    | true =>
      rw [if_pos rfl, wp_bind]
      refine wp_diskAccessWrite hin (length_slice _ _ _) ?_ fun err bytes => ⟨rfl, rfl⟩
      rw [andThen_ok, wp_pure, hp]
      exact ⟨rfl, rfl, _, hchunk, hle, rfl, rfl⟩
    | false =>
      rw [if_neg (by decide), wp_bind]
      refine wp_diskAccessRead hin ?_ fun err bytes => ⟨rfl, rfl⟩
      rw [andThen_ok, wp_pure, hp]
      refine ⟨rfl, rfl, _, hchunk, hle, rfl, ?_⟩
      rw [if_neg (by decide), slice_congr (g := s.bytes) (p := p) fun i _ => by rw [Nat.zero_add]]
  · -- part of one sector
    have hin : p / e.sectorSize + 1 ≤ e.sectorCount := by
      rw [Nat.succ_le_iff, Nat.div_lt_iff_lt_mul hu]
      omega
    have hchunk : 0 < min c.remaining (e.sectorSize - p % e.sectorSize) := by omega
    have hle : min c.remaining (e.sectorSize - p % e.sectorSize) ≤ c.remaining := Nat.min_le_left _ _
    rw [if_neg hfull, wp_bind]
    refine wp_diskAccessRead hin ?_ fun err bytes => ⟨rfl, rfl⟩
    rw [andThen_ok]
    cases isWrite with
    | true =>
      rw [if_pos rfl, wp_bind]
      refine wp_diskAccessWrite hin (by simp) ?_ fun err bytes => ⟨rfl, rfl⟩
      rw [andThen_ok, wp_pure]
      refine ⟨rfl, rfl, _, hchunk, hle, ?_, rfl⟩
      rw [if_pos rfl, splice_unit (by rw [length_slice]; omega), hdm]
    | false =>
      rw [if_neg (by decide), wp_pure]
      refine ⟨rfl, rfl, _, hchunk, hle, rfl, ?_⟩
      rw [if_neg (by decide), slice_congr (g := s.bytes) (p := p) fun i _ => by rw [← Nat.add_assoc, hdm]]

/-- The loop has copied the first `c.transferred` of `n` bytes, between position `a` of a device that held `f` and a buffer
that held `g`. -/
structure Midway (isWrite : Bool) (a n : Nat) (f g : Nat → UInt8) (c : Cursor) (s : SectorDisk) : Prop where
  cur : c.cur = ((a + c.transferred : Nat) : Int)
  total : c.transferred + c.remaining = n
  bytes : s.bytes = if isWrite then splice f a (slice g 0 c.transferred) else f
  buf : c.buf = if isWrite then g else splice g 0 (slice f a c.transferred)
  strayed : s.strayed = false
  failed : s.failed = false

/-- What the loop, or a part of it, leaves: a failed sector access, or a cursor in `P`. -/
def LoopPost (P : Cursor → SectorDisk → Prop) (r : Except Errno Cursor) (t : SectorDisk) : Prop :=
  t.strayed = false ∧
    match r with
    | .error _ => t.failed = true
    | .ok c' => P c' t

theorem advance_eq {chunk : Nat} {buf : Nat → UInt8} (hcur : c.cur = ((a + c.transferred : Nat) : Int))
    (hn : c.transferred + c.remaining < 4294967296) (ha : a + (c.transferred + c.remaining) < 9223372036854775808)
    (hle : chunk ≤ c.remaining) :
    c.advance chunk buf = ⟨((a + (c.transferred + chunk) : Nat) : Int), c.remaining - chunk, c.transferred + chunk, buf⟩ := by
  have hpos : c.cur + (chunk : Int) = ((a + (c.transferred + chunk) : Nat) : Int) := by omega
  have hrem : u32 (c.remaining + 4294967296 - chunk) = c.remaining - chunk := by
    rw [u32]
    omega
  have htr : u32 (c.transferred + chunk) = c.transferred + chunk := Nat.mod_eq_of_lt (by omega)
  rw [Cursor.advance, hpos, i64_natCast (by omega), hrem, htr]

theorem Midway.round (h : Midway isWrite a n f g c s) (hn : n < 4294967296) (ha : a + n < 9223372036854775808)
    {r : Except Errno Cursor} {t : SectorDisk} (hr : RoundPost isWrite (a + c.transferred) c s r t) :
    LoopPost (fun c' t => Midway isWrite a n f g c' t ∧ c'.remaining < c.remaining) r t := by
  obtain ⟨hstray, hr⟩ := hr
  refine ⟨hstray.trans h.strayed, ?_⟩
  cases r with
  | error err => exact hr
  | ok c' =>
    obtain ⟨hfail, chunk, hpos, hle, hbytes, hc'⟩ := hr
    have htotal := h.total
    rw [advance_eq h.cur (by omega) (by omega) hle] at hc'
    subst hc'
    refine ⟨⟨rfl, by simp only; omega, ?_, ?_, hstray.trans h.strayed, hfail.trans h.failed⟩, by simp only; omega⟩
    · rw [hbytes, h.bytes, h.buf]
      cases isWrite with
      | true =>
        have := splice_splice_slice f g a c.transferred chunk 0
        rw [Nat.zero_add] at this
        exact this
      | false => rfl
    · rw [h.bytes, h.buf]
      cases isWrite with
      | true => rfl
      | false =>
        have := splice_splice_slice g f 0 c.transferred chunk a
        rw [Nat.zero_add] at this
        exact this

/-- The loop copies all bytes, one round at a time. -/
theorem wp_transferLoop (hslot : slot.Ok) (hb : e.Backs slot) (hn : n < 4294967296)
    (hfit : a + n ≤ slot.sectorCount * slot.sectorSize) {fuel : Nat} (h : Midway isWrite a n f g c s) (hfuel : c.remaining < fuel) :
    wp e.answer (transferLoop slot isWrite fuel c)
      (LoopPost fun c' t => Midway isWrite a n f g c' t ∧ c'.remaining = 0) s := by
  have hbytes := hslot.bytes_lt
  induction fuel generalizing c s with
  | zero => exact absurd hfuel (Nat.not_lt_zero _)
  | succ fuel ih =>
    rw [transferLoop]
    by_cases h0 : c.remaining = 0
    · rw [if_pos h0, wp_pure]
      exact ⟨h.strayed, h, h0⟩
    · have htotal := h.total
      rw [if_neg h0, wp_bind, transferRound_eq hslot h.cur (by omega) (by omega) (by omega), ← hb.size]
      refine wp_mono (wp_plainRound (by rw [hb.size]; exact hslot.size_pos) (by rw [hb.size, hb.count]; omega) (by omega))
        fun r t hr => ?_
      obtain ⟨hstray, hr⟩ := h.round hn (by omega) hr
      cases r with
      | error err => exact ⟨hstray, hr⟩
      | ok c' => exact ih hr.1 (by omega)

/-- What `dev_transfer` leaves on a device that held `f`: after a failed sector access the slot as it was, otherwise the `n`
bytes at offset `a` copied. -/
def TransferPost (slot : DevSlot) (isWrite : Bool) (a n : Nat) (f g : Nat → UInt8) (r : Except Errno Transfer) (t : SectorDisk) :
    Prop :=
  t.strayed = false ∧ ∃ x, r = .ok x ∧ (t.failed = true → x.slot = slot) ∧
    (t.failed = false → x.count = n ∧ x.slot = { slot with offset := ((a + n : Nat) : Int) } ∧
      t.bytes = (if isWrite then splice f a (slice g 0 n) else f) ∧
      x.buf = (if isWrite then g else splice g 0 (slice f a n)) ∧
      (x.ret = .ok () ∨ isWrite = true ∧ slot.openFlags &&& ioOpenFlagSync ≠ 0))

theorem wp_devTransfer (hslot : slot.Ok) (hb : e.Backs slot) {count : Nat} (hcount : count < 4294967296)
    (ha : slot.offset = (a : Int)) (hn : n = min count (slot.sectorCount * slot.sectorSize - a)) (hs : s.failed = false)
    (hstray : s.strayed = false) (buf : Nat → UInt8) (isWrite : Bool) :
    wp e.answer (devTransfer slot buf count isWrite) (TransferPost slot isWrite a n s.bytes buf) s := by
  have hss := hslot.size_pos
  have hle := hslot.offset_le
  rw [ha] at hle
  have hsame : slot = { slot with offset := ((a + 0 : Nat) : Int) } := by
    rw [Nat.add_zero, ← ha]
  rw [devTransfer, if_neg (by omega), hslot.byteSize, ha]
  by_cases hdone : ((slot.sectorCount * slot.sectorSize : Nat) : Int) ≤ (a : Int) ∨ count = 0
  · obtain rfl : n = 0 := by omega
    rw [if_pos hdone, wp_pure]
    exact ⟨hstray, _, rfl, fun _ => rfl, fun _ => ⟨rfl, hsame, by simp [slice, splice_nil], by simp [slice, splice_nil], .inl rfl⟩⟩
  · have hbytes := hslot.bytes_lt
    have hremaining : (if ((slot.sectorCount * slot.sectorSize : Nat) : Int) - (a : Int) < (count : Int) then
        u32 (u64 (((slot.sectorCount * slot.sectorSize : Nat) : Int) - (a : Int))) else count) = n := by
      have hsub : ((slot.sectorCount * slot.sectorSize : Nat) : Int) - (a : Int) =
          ((slot.sectorCount * slot.sectorSize - a : Nat) : Int) := by omega
      rw [hsub, u64_natCast (by omega), u32]
      split <;> omega
    have hstart : Midway isWrite a n s.bytes buf ⟨(a : Int), n, 0, buf⟩ s :=
      ⟨rfl, Nat.zero_add n, by simp [slice, splice_nil], by simp [slice, splice_nil], hstray, hs⟩
    rw [if_neg hdone]
    simp only [hremaining]
    rw [wp_bind, wp_attempt]
    refine wp_mono (wp_transferLoop hslot hb (by omega) (by omega) hstart (Nat.lt_succ_self n)) fun r t hr => ?_
    obtain ⟨hstray', hr⟩ := hr
    cases r with
    | error err =>
      rw [andThen_ok, wp_pure]
      exact ⟨hstray', _, rfl, fun _ => rfl, fun hf => absurd (hr.symm.trans hf) (by decide)⟩
    | ok c =>
      obtain ⟨hmid, h0⟩ := hr
      have htr : c.transferred = n := by
        have := hmid.total
        omega
      have hcur := hmid.cur
      have hdev := hmid.bytes
      have hbuf := hmid.buf
      rw [htr] at hcur hdev hbuf
      rw [andThen_ok]
      dsimp only
      by_cases hsync : isWrite = true ∧ slot.openFlags &&& ioOpenFlagSync ≠ 0
      · rw [if_pos hsync, wp_bind, wp_attempt]
        refine ⟨_, _, run_diskAccessSync, ?_⟩
        dsimp only
        rw [andThen_ok, wp_pure]
        exact ⟨hstray', _, rfl, fun hf => absurd (hmid.failed.symm.trans hf) (by decide),
          fun _ => ⟨htr, by rw [hcur], hdev, hbuf, .inr hsync⟩⟩
      · rw [if_neg hsync, wp_pure]
        exact ⟨hstray', _, rfl, fun hf => absurd (hmid.failed.symm.trans hf) (by decide),
          fun _ => ⟨htr, by rw [hcur], hdev, hbuf, .inl rfl⟩⟩

theorem devSlotGet_eq {slots : Nat → DevSlot} {k : Nat} (hk : k < devSlotMax) (hused : (slots k).used = true) :
    devSlotGet slots (k : Int) = .ok k := by
  rw [devSlotGet, Int.toNat_natCast, hused, if_neg]
  rintro (h | h | h)
  · omega
  · omega
  · cases h

/-- The offsets that `dev_lseek` reaches are on the device. -/
theorem devLseek_ok {slots : Nat → DevSlot} {k : Nat} (hk : k < devSlotMax) (h : (slots k).Ok) (offset : Int) (whence : Whence) :
    ((devLseek slots k offset whence).2 k).Ok ∧ ((devLseek slots k offset whence).2 k).sectorSize = (slots k).sectorSize ∧
      ((devLseek slots k offset whence).2 k).sectorCount = (slots k).sectorCount := by
  rw [devLseek, devSlotGet_eq hk h.used]
  dsimp only
  split
  · exact ⟨h, rfl, rfl⟩
  · next pos _ =>
    split
    · exact ⟨h, rfl, rfl⟩
    next hin =>
    rw [h.byteSize, not_or] at hin
    dsimp only
    rw [Function.update_self]
    exact ⟨⟨h.used, h.size_pos, h.size_lt, h.count_lt, h.bytes_lt, by simp only; omega, by simp only; omega⟩, rfl, rfl⟩

/-- The port implements a flat array of bytes. With `n` the bytes from the offset `a` of the handle up to the end of the device, or
`count` if that is less: a write that meets no failing sector access stores the first `n` bytes of the buffer at `a`
and nothing else, a read returns the `n` bytes at `a`, both advance the offset by `n`; after a failing access the handle is as it
was. No access goes beyond the last sector, and seeking keeps the offset on the device. -/
theorem device_is_flat_array {e : SectorEnv} (slots : Nat → DevSlot) {k a count : Nat} (hk : k < devSlotMax) (h : (slots k).Ok)
    (hb : e.Backs (slots k)) (ha : (slots k).offset = (a : Int)) (hcount : count < 4294967296) (buf : Nat → UInt8)
    (s : SectorDisk) (hs : s.failed = false) (hstray : s.strayed = false) :
    ((slots k).openFlags &&& ioOpenFlagWronly ≠ 0 → ∃ ret written slots' t,
      run e.answer (devWrite slots k buf count) s = some (.ok (ret, written, slots'), t) ∧ t.strayed = false ∧
      (t.failed = true → slots' = slots) ∧
      (t.failed = false → written = min count ((slots k).sectorCount * (slots k).sectorSize - a) ∧
        (∀ i, t.bytes i = if a ≤ i ∧ i < a + written then buf (i - a) else s.bytes i) ∧
        slots' = Function.update slots k { slots k with offset := ((a + written : Nat) : Int) } ∧
        ((slots k).openFlags &&& ioOpenFlagSync = 0 → ret = .ok ()))) ∧
    ((slots k).openFlags &&& ioOpenFlagRdonly ≠ 0 → ∃ ret readSize buf' slots' t,
      run e.answer (devRead slots k buf count) s = some (.ok (ret, readSize, buf', slots'), t) ∧ t.strayed = false ∧
      (t.failed = true → slots' = slots) ∧
      (t.failed = false → readSize = min count ((slots k).sectorCount * (slots k).sectorSize - a) ∧
        (∀ i, buf' i = if i < readSize then s.bytes (a + i) else buf i) ∧ t.bytes = s.bytes ∧
        slots' = Function.update slots k { slots k with offset := ((a + readSize : Nat) : Int) } ∧ ret = .ok ())) ∧
    ∀ offset whence, ((devLseek slots k offset whence).2 k).Ok ∧ e.Backs ((devLseek slots k offset whence).2 k) := by
  have hself (x : DevSlot) (hx : x = slots k) : Function.update slots k x = slots := by
    rw [hx, Function.update_eq_self]
  refine ⟨fun hflag => ?_, fun hflag => ?_, fun offset whence => ?_⟩
  · obtain ⟨r, t, hrun, hstray', x, rfl, hfail, hok⟩ :=
      wp_devTransfer h hb hcount ha rfl hs hstray buf true
    refine ⟨x.ret, x.count, Function.update slots k x.slot, t, ?_, hstray', fun hf => hself _ (hfail hf), fun hf => ?_⟩
    · rw [devWrite, devSlotGet_eq hk h.used]
      dsimp only
      rw [if_neg hflag, run_bind_ok hrun]
      rfl
    · obtain ⟨hcnt, hslot, hbytes, -, hret⟩ := hok hf
      refine ⟨hcnt, fun i => ?_, by rw [hslot, hcnt], fun hsync => hret.resolve_right fun hc => hc.2 hsync⟩
      rw [hbytes, if_pos rfl, ← hcnt]
      by_cases hi : a ≤ i ∧ i < a + x.count
      · obtain ⟨j, rfl⟩ : ∃ j, i = a + j := ⟨i - a, by omega⟩
        rw [if_pos hi, splice_inside (by simp; omega), getElem_slice, Nat.zero_add, Nat.add_sub_cancel_left]
      · rw [if_neg hi, splice_outside (by simp; omega)]
  · obtain ⟨r, t, hrun, hstray', x, rfl, hfail, hok⟩ :=
      wp_devTransfer h hb hcount ha rfl hs hstray buf false
    refine ⟨x.ret, x.count, x.buf, Function.update slots k x.slot, t, ?_, hstray', fun hf => hself _ (hfail hf), fun hf => ?_⟩
    · rw [devRead, devSlotGet_eq hk h.used]
      dsimp only
      rw [if_neg hflag, run_bind_ok hrun]
      rfl
    · obtain ⟨hcnt, hslot, hbytes, hbuf, hret⟩ := hok hf
      refine ⟨hcnt, fun i => ?_, hbytes, by rw [hslot, hcnt], hret.resolve_right fun hc => absurd hc.1 (by decide)⟩
      rw [hbuf, if_neg (by decide), ← hcnt]
      by_cases hi : i < x.count
      · have := splice_inside (f := buf) (o := 0) (show i < (slice s.bytes a x.count).length by simpa using hi)
        rw [Nat.zero_add] at this
        rw [if_pos hi, this, getElem_slice]
      · rw [if_neg hi, splice_outside (by simp; omega)]
  · obtain ⟨hok, hsize, hcnt⟩ := devLseek_ok hk h offset whence
    exact ⟨hok, hb.size.trans hsize.symm, hb.count.trans hcnt.symm⟩

/-- A slot on eight sectors of 512 bytes, at an unaligned offset. -/
def slotAt700 : DevSlot := ⟨true, 700, 512, 8, 0b0011⟩

theorem device_is_flat_array_unaligned : slotAt700.Ok ∧ ∃ ret written slots' t,
    run (SectorEnv.answer ⟨512, 8, fun _ => none, fun _ => .ok ()⟩) (devWrite (fun _ => slotAt700) (3 : Nat) (fun _ => 7) 5000)
      ⟨fun _ => 0, 0, false, false⟩ = some (.ok (ret, written, slots'), t) ∧ t.strayed = false ∧
    (t.failed = true → slots' = fun _ => slotAt700) ∧
    (t.failed = false → written = min 5000 (8 * 512 - 700) ∧ (∀ i, t.bytes i = if 700 ≤ i ∧ i < 700 + written then 7 else 0) ∧
      slots' = Function.update (fun _ => slotAt700) 3 { slotAt700 with offset := ((700 + written : Nat) : Int) } ∧
      (slotAt700.openFlags &&& ioOpenFlagSync = 0 → ret = .ok ())) := by
  have hok : slotAt700.Ok := ⟨rfl, by decide, by decide, by decide, by decide, by decide, by decide⟩
  have hflat := device_is_flat_array (fun _ => slotAt700) (k := 3) (a := 700) (by decide) hok (e := ⟨512, 8, fun _ => none, fun _ => .ok ()⟩)
    ⟨rfl, rfl⟩ rfl (show 5000 < 4294967296 by decide) (fun _ => 7) ⟨fun _ => 0, 0, false, false⟩ rfl rfl
  exact ⟨hok, hflat.1 (by decide)⟩

end Mofs
