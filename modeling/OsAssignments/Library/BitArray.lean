import Mathlib.Data.Nat.Bitwise
import OsAssignments.Library.Bits
import OsAssignments.Library.Bytes

/-!
# Arrays of bits in byte memory

Bit `i` of an array is bit `i % 8` of byte `i / 8`. Besides the bit operations there is
the first clear bit, which is where a bitmap allocator looks.
-/

namespace OsAssignments

namespace Memory

/-- Bit `i` of the array at address `base`. -/
def bit (m : Memory) (base i : Nat) : Bool := (m (base + i / 8)).toNat.testBit (i % 8)

/-- Set bit `k` of the byte at address `a`. -/
def orBit (m : Memory) (a k : Nat) : Memory :=
  m.write a [UInt8.ofNat ((m a).toNat ||| 1 <<< k)]

theorem orBit_apply_of_ne {m : Memory} {a k i : Nat} (h : i ≠ a) : m.orBit a k i = m i :=
  write_apply_of_outside (by simp only [List.length_singleton]; omega)

theorem orBit_apply_same (m : Memory) {a k : Nat} (hk : k < 8) :
    (m.orBit a k a).toNat = (m a).toNat ||| 1 <<< k := by
  have hval : m.orBit a k a = UInt8.ofNat ((m a).toNat ||| 1 <<< k) :=
    write_apply_of_inside (m := m) (a := a) (i := 0) (by simp)
  have hmask : 1 <<< k < 2 ^ 8 := by
    rw [Nat.one_shiftLeft]
    exact Nat.pow_lt_pow_right (by decide) hk
  rw [hval, UInt8.toNat_ofNat']
  exact Nat.mod_eq_of_lt (Nat.or_lt_two_pow (m a).toNat_lt hmask)

/-- Setting a bit changes that bit only. -/
theorem bit_orBit (m : Memory) (base i j : Nat) :
    (m.orBit (base + i / 8) (i % 8)).bit base j = (m.bit base j || decide (i = j)) := by
  by_cases hbyte : j / 8 = i / 8
  · have heq : i % 8 = j % 8 ↔ i = j := by omega
    rw [bit, bit, hbyte, orBit_apply_same m (by omega), Nat.testBit_or, Nat.one_shiftLeft,
      Nat.testBit_two_pow]
    simp only [heq]
  · have hne : ¬ i = j := by omega
    rw [bit, bit, orBit_apply_of_ne (by omega)]
    simp only [hne, decide_false, Bool.or_false]

/-- Clear bit `k` of the byte at address `a`. -/
def clearBit (m : Memory) (a k : Nat) : Memory :=
  m.write a [⟨(m a).toBitVec &&& ~~~(1#8 <<< k)⟩]

theorem clearBit_apply_of_ne {m : Memory} {a k i : Nat} (h : i ≠ a) : m.clearBit a k i = m i :=
  write_apply_of_outside (by simp only [List.length_singleton]; omega)

/-- The bytes after a bit is cleared depend on those bytes before. -/
theorem clearBit_congr {m m' : Memory} {a k i : Nat} (ha : m' a = m a) (hi : m' i = m i) :
    m'.clearBit a k i = m.clearBit a k i := by
  simp only [clearBit, write, ha, hi]

/-- Clearing a bit changes that bit only. -/
theorem bit_clearBit (m : Memory) (base i j : Nat) :
    (m.clearBit (base + i / 8) (i % 8)).bit base j = (m.bit base j && decide (i ≠ j)) := by
  by_cases hbyte : j / 8 = i / 8
  · have hval : m.clearBit (base + i / 8) (i % 8) (base + i / 8) =
        ⟨(m (base + i / 8)).toBitVec &&& ~~~(1#8 <<< (i % 8))⟩ :=
      write_apply_of_inside (m := m) (a := base + i / 8) (i := 0) (by simp)
    have heq : i % 8 ≠ j % 8 ↔ i ≠ j := by omega
    have hbit : ∀ b : UInt8, b.toNat.testBit (j % 8) = b.toBitVec.getLsbD (j % 8) := fun _ => rfl
    rw [bit, bit, hbyte, hval, hbit, hbit, Bits.getLsbD_and_not_mask (by omega)]
    simp only [heq]
  · have hne : i ≠ j := fun h => hbyte (h ▸ rfl)
    rw [bit, bit, clearBit_apply_of_ne (by omega)]
    simp only [ne_eq, hne, not_false_eq_true, decide_true, Bool.and_true]

/-- A masked byte is zero exactly when its bit is clear. -/
theorem and_mask_eq_zero_iff {m : Memory} {base i : Nat} :
    m.load (base + i / 8) 1 &&& 1 <<< (i % 8) = 0 ↔ m.bit base i = false := by
  rw [load_one, bit, Nat.one_shiftLeft, Nat.and_two_pow]
  cases (m (base + i / 8)).toNat.testBit (i % 8) <;> simp

theorem bit_congr {m m' : Memory} {base i : Nat} (h : m' (base + i / 8) = m (base + i / 8)) :
    m'.bit base i = m.bit base i := by
  rw [bit, bit, h]

end Memory

/-! ## The first clear bit -/

/-- The first index below `n` that is not used. -/
def firstClear (used : Nat → Bool) (n : Nat) : Option Nat :=
  (List.range n).find? fun i => !used i

/-- The first clear index is clear, and every index before it is used. -/
theorem firstClear_eq_some_iff {used : Nat → Bool} {n i : Nat} :
    firstClear used n = some i ↔ used i = false ∧ i < n ∧ ∀ j < i, used j = true := by
  rw [firstClear, List.find?_range_eq_some]
  simp only [Bool.not_eq_true', List.mem_range, Bool.not_not]

theorem firstClear_eq_none_iff {used : Nat → Bool} {n : Nat} :
    firstClear used n = none ↔ ∀ i < n, used i = true := by
  rw [firstClear, List.find?_eq_none]
  simp only [List.mem_range, Bool.not_eq_true', Bool.not_eq_false]

theorem firstClear_congr {used used' : Nat → Bool} {n : Nat} (h : ∀ i < n, used i = used' i) :
    firstClear used n = firstClear used' n := by
  apply Option.ext
  intro i
  rw [firstClear_eq_some_iff, firstClear_eq_some_iff]
  constructor
  · rintro ⟨hi, hn, hall⟩
    exact ⟨(h i hn).symm.trans hi, hn, fun j hj => (h j (by omega)).symm.trans (hall j hj)⟩
  · rintro ⟨hi, hn, hall⟩
    exact ⟨(h i hn).trans hi, hn, fun j hj => (h j (by omega)).trans (hall j hj)⟩

/-- After the first clear index is used, the next one comes later. -/
theorem lt_of_firstClear_update {used : Nat → Bool} {n i j : Nat}
    (hi : firstClear used n = some i) (hj : firstClear (Function.update used i true) n = some j) :
    i < j := by
  obtain ⟨-, -, hall⟩ := firstClear_eq_some_iff.mp hi
  obtain ⟨hclear, -, -⟩ := firstClear_eq_some_iff.mp hj
  rcases Nat.lt_trichotomy i j with h | h | h
  · exact h
  · rw [h, Function.update_self] at hclear
    cases hclear
  · rw [Function.update_of_ne (by omega), hall j h] at hclear
    cases hclear

/-! ## Counting clear bits -/

/-- The number of indices below `n` that are not used. -/
def countClear (used : Nat → Bool) (n : Nat) : Nat := (List.range n).countP fun i => !used i

theorem countClear_succ (used : Nat → Bool) (n : Nat) :
    countClear used (n + 1) = countClear used n + if used n then 0 else 1 := by
  rw [countClear, List.range_succ, List.countP_append, List.countP_singleton, countClear]
  cases used n <;> rfl

theorem countClear_le (used : Nat → Bool) (n : Nat) : countClear used n ≤ n :=
  List.countP_le_length.trans_eq List.length_range

theorem countClear_congr {used used' : Nat → Bool} {n : Nat} (h : ∀ i < n, used i = used' i) :
    countClear used n = countClear used' n :=
  List.countP_congr fun i hi => by rw [h i (List.mem_range.mp hi)]

/-- Clearing a used index counts one more. -/
theorem countClear_update_false {used : Nat → Bool} {n i : Nat} (hi : i < n)
    (hused : used i = true) :
    countClear (Function.update used i false) n = countClear used n + 1 := by
  induction n with
  | zero => omega
  | succ n ih =>
    rw [countClear_succ, countClear_succ]
    by_cases hin : i = n
    · subst hin
      have hbelow : countClear (Function.update used i false) i = countClear used i :=
        countClear_congr fun j hj => Function.update_of_ne (by omega) ..
      rw [hbelow, Function.update_self, hused]
      rfl
    · rw [ih (by omega), Function.update_of_ne (Ne.symm hin)]
      omega

/-- Using a clear index counts one less. -/
theorem countClear_update_true {used : Nat → Bool} {n i : Nat} (hi : i < n)
    (hclear : used i = false) :
    countClear (Function.update used i true) n + 1 = countClear used n := by
  have hback : Function.update (Function.update used i true) i false = used := by
    rw [Function.update_idem, ← hclear, Function.update_eq_self]
  rw [← countClear_update_false hi (Function.update_self ..), hback]

/-- Clearing different used indices counts one more for each. -/
theorem countClear_clear {used : Nat → Bool} {n : Nat} {is : List Nat} (hnodup : is.Nodup)
    (h : ∀ i ∈ is, i < n ∧ used i = true) :
    countClear (fun i => used i && !decide (i ∈ is)) n = countClear used n + is.length := by
  induction is with
  | nil => simp
  | cons i is ih =>
    obtain ⟨hi, hnodup⟩ := List.nodup_cons.mp hnodup
    have hsplit : (fun j => used j && !decide (j ∈ i :: is)) =
        Function.update (fun j => used j && !decide (j ∈ is)) i false := by
      funext j
      by_cases hj : j = i
      · rw [hj, Function.update_self]
        simp
      · rw [Function.update_of_ne hj]
        simp [hj]
    obtain ⟨hin, hused⟩ := h i List.mem_cons_self
    rw [hsplit, countClear_update_false hin (by simp [hused, hi]),
      ih hnodup fun j hj => h j (List.mem_cons_of_mem i hj), List.length_cons]
    omega

end OsAssignments
