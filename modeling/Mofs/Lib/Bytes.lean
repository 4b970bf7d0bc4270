import Mathlib.Data.Nat.Bitwise
import Mathlib.Data.List.GetD

namespace Mofs.Bytes

/-- The little-endian number in the `w` bytes from offset `o` on. -/
def leNat (f : Nat → UInt8) (o : Nat) : Nat → Nat
  | 0 => 0
  | w + 1 => (f o).toNat + 256 * leNat f (o + 1) w

def leBytes (n : Nat) : Nat → List UInt8
  | 0 => []
  | w + 1 => UInt8.ofNat n :: leBytes (n / 256) w

/-- Overwrite the bytes from offset `o` on with `bs`, as a copy into a buffer does. -/
def splice (f : Nat → UInt8) (o : Nat) (bs : List UInt8) : Nat → UInt8 :=
  fun k => if o ≤ k ∧ k < o + bs.length then bs.getD (k - o) 0 else f k

def slice (f : Nat → UInt8) (o n : Nat) : List UInt8 := (List.range n).map (fun i => f (o + i))

@[simp] theorem length_leBytes (n w : Nat) : (leBytes n w).length = w := by
  induction w generalizing n with
  | zero => rfl
  | succ w ih => simp [leBytes, ih]

theorem leNat_lt (f : Nat → UInt8) (o w : Nat) : leNat f o w < 256 ^ w := by
  induction w generalizing o with
  | zero => simp [leNat]
  | succ w ih =>
    have h := ih (o + 1)
    have hb := (f o).toNat_lt
    simp only [leNat, Nat.pow_succ]
    omega

theorem leNat_congr {f g : Nat → UInt8} {o p w : Nat} (h : ∀ i < w, f (o + i) = g (p + i)) :
    leNat f o w = leNat g p w := by
  induction w generalizing o p with
  | zero => rfl
  | succ w ih =>
    have h0 : f o = g p := by simpa using h 0 (by omega)
    rw [leNat, leNat, h0, ih]
    intro i hi
    simpa only [Nat.add_assoc, Nat.add_comm 1 i] using h (i + 1) (by omega)

theorem leNat_of_getElem {f : Nat → UInt8} {o n w : Nat}
    (h : ∀ i < w, (leBytes n w)[i]? = some (f (o + i))) : leNat f o w = n % 256 ^ w := by
  induction w generalizing o n with
  | zero => simp [leNat, Nat.mod_one]
  | succ w ih =>
    have h0 : UInt8.ofNat n = f o := by simpa [leBytes] using h 0 (by omega)
    have ht : leNat f (o + 1) w = n / 256 % 256 ^ w := by
      apply ih
      intro i hi
      have := h (i + 1) (by omega)
      simpa [leBytes, Nat.add_assoc, Nat.add_comm 1 i] using this
    have hb : (f o).toNat = n % 256 := by simp [← h0]
    rw [leNat, ht, hb, Nat.pow_succ, Nat.mul_comm (256 ^ w) 256, Nat.mod_mul]

theorem splice_inside {f : Nat → UInt8} {o i : Nat} {bs : List UInt8} (h : i < bs.length) :
    splice f o bs (o + i) = bs[i] := by
  simp [splice, h]

theorem splice_outside {f : Nat → UInt8} {o k : Nat} {bs : List UInt8}
    (h : k < o ∨ o + bs.length ≤ k) : splice f o bs k = f k := by
  rw [splice, if_neg (by omega)]

/-- Reading back the first field of a record that was written whole. -/
theorem leNat_splice_head (f : Nat → UInt8) (o n w : Nat) (rest : List UInt8) :
    leNat (splice f o (leBytes n w ++ rest)) o w = n % 256 ^ w := by
  apply leNat_of_getElem
  intro i hi
  rw [splice_inside (by simp; omega), List.getElem_append_left (by simp; omega)]
  simp

/-- The later fields are those of the rest of the record. -/
theorem leNat_splice_tail (f : Nat → UInt8) (o p w : Nat) (first rest : List UInt8) (h : o + first.length ≤ p) :
    leNat (splice f o (first ++ rest)) p w = leNat (splice f (o + first.length) rest) p w := by
  apply leNat_congr
  intro i hi
  by_cases hr : p + i < o + first.length + rest.length
  · obtain ⟨j, hj⟩ : ∃ j, p + i = o + (first.length + j) := ⟨p + i - o - first.length, by omega⟩
    have hb : first.length + j < (first ++ rest).length := by simp; omega
    rw [hj, splice_inside hb, ← Nat.add_assoc, splice_inside (by omega), List.getElem_append_right (by omega)]
    simp
  · rw [splice_outside (by simp; omega), splice_outside (by omega)]

@[simp] theorem length_slice (f : Nat → UInt8) (o n : Nat) : (slice f o n).length = n := by simp [slice]

@[simp] theorem getElem_slice (f : Nat → UInt8) (o n i : Nat) (h : i < (slice f o n).length) :
    (slice f o n)[i] = f (o + i) := by simp [slice]

theorem slice_congr {f g : Nat → UInt8} {o p n : Nat} (h : ∀ i < n, f (o + i) = g (p + i)) :
    slice f o n = slice g p n := by
  apply List.ext_getElem <;> simp_all

theorem splice_nil (f : Nat → UInt8) (o : Nat) : splice f o [] = f := by
  funext k
  exact splice_outside (by simp; omega)

/-- Two copies from one source, the second behind the first. -/
theorem splice_splice_slice (f g : Nat → UInt8) (o t n p : Nat) :
    splice (splice f o (slice g p t)) (o + t) (slice g (p + t) n) = splice f o (slice g p (t + n)) := by
  funext k
  by_cases hlo : k < o
  · rw [splice_outside (by omega), splice_outside (by omega), splice_outside (by omega)]
  by_cases ht : k < o + t
  · obtain ⟨i, rfl⟩ : ∃ i, k = o + i := ⟨k - o, by omega⟩
    rw [splice_outside (by omega), splice_inside (by simp; omega), splice_inside (by simp; omega), getElem_slice, getElem_slice]
  by_cases hn : k < o + t + n
  · obtain ⟨i, rfl⟩ : ∃ i, k = o + t + i := ⟨k - o - t, by omega⟩
    rw [splice_inside (by simp; omega), Nat.add_assoc, splice_inside (by simp; omega), getElem_slice, getElem_slice,
      Nat.add_assoc]
  · rw [splice_outside (by simp; omega), splice_outside (by simp; omega), splice_outside (by simp; omega)]

/-- Part of a unit is changed by writing the whole unit back. -/
theorem splice_unit {f : Nat → UInt8} {a o u : Nat} {bs : List UInt8} (h : o + bs.length ≤ u) :
    splice f a (slice (splice (fun k => f (a + k)) o bs) 0 u) = splice f (a + o) bs := by
  funext k
  by_cases hlo : k < a
  · rw [splice_outside (by omega), splice_outside (by omega)]
  by_cases hu : k < a + u
  · obtain ⟨i, rfl⟩ : ∃ i, k = a + i := ⟨k - a, by omega⟩
    rw [splice_inside (by simp; omega), getElem_slice, Nat.zero_add]
    by_cases ho : i < o
    · rw [splice_outside (by omega), splice_outside (by omega)]
    by_cases hb : i < o + bs.length
    · obtain ⟨j, rfl⟩ : ∃ j, i = o + j := ⟨i - o, by omega⟩
      rw [splice_inside (by omega), ← Nat.add_assoc, splice_inside (by omega)]
    · rw [splice_outside (by omega), splice_outside (by omega)]
  · rw [splice_outside (by simp; omega), splice_outside (by omega)]

/-- Rounding a quotient up: the units cover the amount and one unit less does not. -/
theorem le_ceil_mul (n : Nat) {w : Nat} (hw : 0 < w) : n ≤ (n + w - 1) / w * w := by
  have h1 := Nat.div_add_mod (n + w - 1) w
  have h2 := Nat.mod_lt (n + w - 1) hw
  rw [Nat.mul_comm]
  omega

theorem ceil_le_of_le_mul {n c w : Nat} (hw : 0 < w) (h : n ≤ c * w) : (n + w - 1) / w ≤ c := by
  have hc : c.succ * w = c * w + w := Nat.succ_mul c w
  exact Nat.le_of_lt_succ ((Nat.div_lt_iff_lt_mul hw).mpr (by omega))

theorem ceil_pos {n w : Nat} (hw : 0 < w) (hn : 0 < n) : 0 < (n + w - 1) / w :=
  Nat.div_pos (by omega) hw

def testBit (x : UInt8) (j : Nat) : Bool := x &&& UInt8.ofNat (1 <<< j) != 0

def setBit (x : UInt8) (j : Nat) : UInt8 := x ||| UInt8.ofNat (1 <<< j)

def clearBit (x : UInt8) (j : Nat) : UInt8 := x &&& ~~~UInt8.ofNat (1 <<< j)

theorem bitMask_toBitVec (j : Nat) : (UInt8.ofNat (1 <<< j)).toBitVec = BitVec.twoPow 8 j := by
  apply BitVec.eq_of_toNat_eq
  simp [BitVec.toNat_twoPow, Nat.shiftLeft_eq]

theorem testBit_eq_getLsbD (x : UInt8) {j : Nat} (hj : j < 8) : testBit x j = x.toBitVec.getLsbD j := by
  have h : (x &&& UInt8.ofNat (1 <<< j)).toBitVec = if x.toBitVec.getLsbD j then BitVec.twoPow 8 j else 0#8 := by
    rw [UInt8.toBitVec_and, bitMask_toBitVec, BitVec.and_twoPow]
  have hne : BitVec.twoPow 8 j ≠ 0#8 := by
    intro h0
    have := congrArg (fun v => BitVec.getLsbD v j) h0
    simp [hj] at this
  rw [testBit, bne, ← Bool.not_not (x.toBitVec.getLsbD j)]
  congr 1
  cases hb : x.toBitVec.getLsbD j <;> simp [← UInt8.toBitVec_inj, h, hb, hne]

theorem testBit_setBit (x : UInt8) {j k : Nat} (hj : j < 8) (hk : k < 8) :
    testBit (setBit x j) k = (decide (k = j) || testBit x k) := by
  rw [testBit_eq_getLsbD _ hk, testBit_eq_getLsbD _ hk, setBit, UInt8.toBitVec_or, bitMask_toBitVec,
    BitVec.getLsbD_or, BitVec.getLsbD_twoPow, Bool.or_comm]
  simp [hj, eq_comm]

theorem testBit_clearBit (x : UInt8) {j k : Nat} (hj : j < 8) (hk : k < 8) :
    testBit (clearBit x j) k = (!decide (k = j) && testBit x k) := by
  rw [testBit_eq_getLsbD _ hk, testBit_eq_getLsbD _ hk, clearBit, UInt8.toBitVec_and, UInt8.toBitVec_not,
    bitMask_toBitVec, BitVec.getLsbD_and, BitVec.getLsbD_not, BitVec.getLsbD_twoPow, Bool.and_comm]
  simp [hj, hk, eq_comm]

end Mofs.Bytes
