import Mathlib.Data.BitVec

/-!
# Single-bit masks on machine words

A word is tested, set and cleared at one bit with the mask `1 << k`. These lemmas
reduce the three operations to the bit at each position.
-/

namespace OsAssignments.Bits

variable {w : Nat}

/-- The mask of bit `k` has exactly that bit. -/
theorem getLsbD_mask {k : Nat} (hk : k < w) (i : Nat) :
    ((1#w) <<< k).getLsbD i = decide (k = i) := by
  rw [← BitVec.twoPow_eq, BitVec.getLsbD_twoPow]
  simp only [hk, decide_true, Bool.true_and]

/-- A masked word is zero exactly when the bit is clear. -/
theorem and_mask_eq_zero_iff {x : BitVec w} {k : Nat} (hk : k < w) :
    x &&& ((1#w) <<< k) = 0#w ↔ x.getLsbD k = false := by
  rw [← BitVec.twoPow_eq, BitVec.and_twoPow]
  have hne : BitVec.twoPow w k ≠ 0#w := by
    intro h
    have hbit := congrArg (fun y => y.getLsbD k) h
    simp [hk] at hbit
  cases x.getLsbD k <;> simp [hne]

/-- Setting a bit by its mask. -/
theorem getLsbD_or_mask {x : BitVec w} {k i : Nat} (hk : k < w) :
    (x ||| ((1#w) <<< k)).getLsbD i = (x.getLsbD i || decide (k = i)) := by
  rw [BitVec.getLsbD_or, getLsbD_mask hk]

/-- Clearing a bit by the complement of its mask. -/
theorem getLsbD_and_not_mask {x : BitVec w} {k : Nat} (hk : k < w) (i : Nat) :
    (x &&& ~~~(1#w <<< k)).getLsbD i = (x.getLsbD i && decide (k ≠ i)) := by
  rw [BitVec.getLsbD_and, BitVec.getLsbD_not, getLsbD_mask hk]
  by_cases hi : i < w
  · simp [hi]
  · simp [BitVec.getLsbD_of_ge x i (by omega)]

/-- Setting a low bit leaves the bits above it where they are. -/
theorem or_mask_shift {x : BitVec w} {k n : Nat} (hk : k < w) (hn : k < n) :
    (x ||| 1#w <<< k) >>> n = x >>> n := by
  apply BitVec.eq_of_getLsbD_eq
  intro i _
  have hne : k ≠ n + i := by omega
  simp only [BitVec.getLsbD_ushiftRight, getLsbD_or_mask hk, hne, decide_false, Bool.or_false]

end OsAssignments.Bits
