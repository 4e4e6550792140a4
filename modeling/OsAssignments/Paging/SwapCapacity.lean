import OsAssignments.Paging.Simulator
import OsAssignments.Paging.SlotSet

/-!
# The capacity of the swap space

A bitmap for `swapsize` slots gives out as many slots, each once, and has a word for each of them,
as long as the number of words is computed without a wrap. For the last 31 sizes `DIVROUNDUP` wraps
to zero words.
-/

namespace OsAssignments.Paging

open Bitmap

variable {σ : Type} {swapsize : BitVec 32} {s : Sim σ} {n k : Nat}

/-! ## Allocating until the map is full -/

theorem firstClear_range (h : k < n) : firstClear (fun i => i ∈ Finset.range k) n = some k := by
  refine firstClear_eq_some_iff.mpr ⟨by simp, h, fun j hj => ?_⟩
  exact decide_eq_true (Finset.mem_range.mpr hj)

theorem firstClear_range_self : firstClear (fun i => i ∈ Finset.range n) n = none :=
  firstClear_eq_none_iff.mpr fun _ hi => decide_eq_true (Finset.mem_range.mpr hi)

/-- With the first `k` slots taken, the others are given out in order before an allocation fails. -/
theorem slotRun_allocs (m k : Nat) : slotRun (k + m) (Finset.range k)
    (List.replicate (m + 1) .alloc) =
      some ((List.range' k m).map Reply.slot ++ [.full], Finset.range (k + m)) := by
  induction m generalizing k with
  | zero =>
    have hstep : slotStep k (Finset.range k) .alloc = some (.full, Finset.range k) := by
      rw [slotStep, firstClear_range_self]
    rw [Nat.add_zero, List.replicate_one, slotRun, hstep]
    rfl
  | succ m ih =>
    have hstep : slotStep (k + (m + 1)) (Finset.range k) .alloc =
        some (.slot k, Finset.range (k + 1)) := by
      rw [slotStep, firstClear_range (by omega), Finset.range_add_one]
    have hrest := ih (k + 1)
    rw [Nat.add_right_comm k 1 m] at hrest
    rw [List.replicate_succ, slotRun, hstep, List.range'_succ]
    change (slotRun (k + m + 1) (Finset.range (k + 1)) _).bind _ = _
    rw [hrest]
    rfl

/-! ## The capacity -/

/-- After `swap_init`, `swapsize` allocations succeed with the slots below `swapsize` before one
fails, and each of these slots has its bit in a word of the array. -/
def CapacityExact (swapsize : BitVec 32) (s : Sim σ) : Prop :=
  ∃ t, swapInit swapsize s = .ok () t ∧
    (∃ b, bitmapSteps t.swapmap (List.replicate (swapsize.toNat + 1) .alloc) =
      .ok ((List.range swapsize.toNat).map Reply.slot ++ [.full], b)) ∧
    ∀ index : BitVec 32, index < swapsize →
      (bitmapTranslate index).1.toNat < t.swapmap.v.length

/-- The rounding wraps to zero words. -/
theorem divRoundUp_wraps (h : 2 ^ 32 - 32 < swapsize.toNat) :
    divRoundUp swapsize bitsPerWord = 0#32 := by
  have hlt := swapsize.isLt
  apply BitVec.eq_of_toNat_eq
  simp only [divRoundUp, bitsPerWord, BitVec.toNat_udiv, BitVec.toNat_sub, BitVec.toNat_add,
    BitVec.toNat_ofNat, Nat.reducePow, Nat.reduceMod]
  omega

/-- `bitmap_create` returns for every size. -/
theorem bitmapCreate_returns (nbits : BitVec 32) : ∃ b, bitmapCreate nbits = .ok b := by
  by_cases h : nbits.toNat ≤ 2 ^ 32 - 32
  · exact ⟨_, bitmapCreate_eq h⟩
  · have hnone : ¬ nbits / bitsPerWord < 0#32 := by
      rw [BitVec.lt_def]
      exact Nat.not_lt_zero _
    simp only [bitmapCreate, divRoundUp_wraps (Nat.lt_of_not_le h), if_neg hnone]
    exact ⟨_, rfl⟩

/-- For a size whose rounding wraps there is no word for the first slot. -/
theorem not_capacityExact_of_lt (h : 2 ^ 32 - 32 < swapsize.toNat) :
    ¬ CapacityExact swapsize s := by
  rintro ⟨t, hinit, -, hwords⟩
  obtain ⟨b, hcreate, rfl⟩ := swapInit_ok hinit
  obtain ⟨hnbits, hsized, -⟩ := bitmapCreate_spec hcreate
  have hword := hwords 0#32 (by rw [BitVec.lt_def]; change 0 < swapsize.toNat; omega)
  rw [Sized, hnbits, divRoundUp_wraps h] at hsized
  change _ < b.v.length at hword
  rw [hsized] at hword
  exact Nat.not_lt_zero _ hword

/-- The capacity is exact for every size whose rounding does not wrap, and for no other. -/
theorem capacityExact_iff : CapacityExact swapsize s ↔ swapsize.toNat ≤ 2 ^ 32 - 32 := by
  constructor
  · intro h
    by_contra hlt
    exact not_capacityExact_of_lt (Nat.lt_of_not_le hlt) h
  · intro hle
    obtain ⟨b, hcreate, rfl, hempty⟩ := bitmapCreate_represents hle
    have hrun := slotRun_allocs b.nbits.toNat 0
    rw [Nat.zero_add, Finset.range_zero, ← List.range_eq_range'] at hrun
    obtain ⟨b', hsteps, -, -⟩ := hempty.steps hrun
    refine ⟨_, swapInit_of_create hcreate, ⟨b', hsteps⟩, fun index hindex => ?_⟩
    have hlength := hempty.sized
    rw [Sized, divRoundUp_toNat hle] at hlength
    rw [BitVec.lt_def] at hindex
    rw [toNat_div]
    change index.toNat / 32 < b.v.length
    omega

/-- The size that `-s 4294967295` asks for. -/
theorem not_capacityExact : ¬ CapacityExact 4294967295#32 (Sim.start 1 (fun _ => 0) ()) :=
  not_capacityExact_of_lt (by decide)

end OsAssignments.Paging
