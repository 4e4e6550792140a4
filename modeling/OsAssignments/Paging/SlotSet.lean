import OsAssignments.Paging.Bitmap
import OsAssignments.Library.BitArray

/-!
# The bitmap as a set

A set of slots below a bound, from which the least free slot is taken. The bitmap keeps such a
set in its bits below `nbits`; the bits from `nbits` to the end of the last word stay set, so
that no word with a clear bit is met in vain.
-/

namespace OsAssignments.Paging

/-! ## Sets of slots -/

/-- The operations of the bitmap. -/
inductive BitmapOp
  | alloc
  | mark (index : BitVec 32)
  | unmark (index : BitVec 32)
  | isset (index : BitVec 32)

/-- What an operation returns. -/
inductive Reply
  | slot (i : Nat)
  | full
  | done
  | test (b : Bool)
  deriving DecidableEq

/-- An operation on a set of slots below `n`: an allocation takes the least slot that is not in the
set. A slot is marked only when it is not in the set, unmarked only when it is, and tested only
below `n`. -/
def slotStep (n : Nat) (S : Finset Nat) : BitmapOp → Option (Reply × Finset Nat)
  | .alloc =>
    match firstClear (fun i => i ∈ S) n with
    | some i => some (.slot i, insert i S)
    | none => some (.full, S)
  | .mark index =>
    if index.toNat < n ∧ index.toNat ∉ S then some (.done, insert index.toNat S) else none
  | .unmark index =>
    if index.toNat < n ∧ index.toNat ∈ S then some (.done, S.erase index.toNat) else none
  | .isset index => if index.toNat < n then some (.test (index.toNat ∈ S), S) else none

/-- Operations one after another; their results and the set they leave. -/
def slotRun (n : Nat) : Finset Nat → List BitmapOp → Option (List Reply × Finset Nat)
  | S, [] => some ([], S)
  | S, op :: ops => do
    let (reply, S) ← slotStep n S op
    let (replies, S) ← slotRun n S ops
    return (reply :: replies, S)

/-! ## Operations on the bitmap -/

/-- An operation of the code. -/
def bitmapStep (b : Bitmap) : BitmapOp → Except Stop (Reply × Bitmap)
  | .alloc => do
    match ← bitmapAlloc b with
    | some (b, index) => return (.slot index.toNat, b)
    | none => return (.full, b)
  | .mark index => return (.done, ← bitmapMark b index)
  | .unmark index => return (.done, ← bitmapUnmark b index)
  | .isset index => return (.test (bitmapIsset b index ≠ 0#32), b)

/-- Operations of the code one after another. -/
def bitmapSteps : Bitmap → List BitmapOp → Except Stop (List Reply × Bitmap)
  | b, [] => return ([], b)
  | b, op :: ops => do
    let (reply, b) ← bitmapStep b op
    let (replies, b) ← bitmapSteps b ops
    return (reply :: replies, b)

/-- Operations after `bitmap_create`. -/
def bitmapRun (nbits : BitVec 32) (ops : List BitmapOp) : Except Stop (List Reply × Bitmap) := do
  bitmapSteps (← bitmapCreate nbits) ops

/-- The bitmap keeps a set of slots below `nbits` and has every bit from there on set. -/
structure Bitmap.Represents (b : Bitmap) (S : Finset Nat) : Prop where
  bound : b.nbits.toNat ≤ 2 ^ 32 - 32
  sized : b.Sized
  below : ∀ i ∈ S, i < b.nbits.toNat
  bit : ∀ i < 32 * b.v.length, b.bit i = true ↔ i ∈ S ∨ b.nbits.toNat ≤ i

namespace Bitmap

/-! ## Creation -/

/-- Marking the leftover bits sets all of them. -/
theorem getLsbD_markLeftover_of_le {v : List (BitVec 32)} {ix overbits k : Nat}
    (hix : ix < v.length) (hover : overbits ≤ k) (hk : k < 32) :
    ((markLeftover v ix overbits).getD ix 0#32).getLsbD k = true := by
  have hgen : ∀ (js : List Nat) (u : List (BitVec 32)), ix < u.length → (∀ j ∈ js, j < 32) →
      ((js.foldl (fun v j => orWord v ix (1#32 <<< j)) u).getD ix 0#32).getLsbD k =
        ((u.getD ix 0#32).getLsbD k || decide (k ∈ js)) := by
    intro js
    induction js with
    | nil => intro u _ _; simp
    | cons j js ih =>
      intro u hu hjs
      rw [List.foldl_cons, ih _ (by rwa [length_orWord])
          fun j' hj' => hjs j' (List.mem_cons_of_mem _ hj'),
        getLsbD_orWord_mask (hjs j List.mem_cons_self)]
      simp [hu, Bool.or_assoc, eq_comm]
  rw [markLeftover, hgen _ _ hix fun j hj => by have hmem := List.mem_range'_1.mp hj; omega]
  simp only [List.mem_range'_1]
  have hmem : overbits ≤ k ∧ k < overbits + (32 - overbits) := by omega
  simp [hmem]

/-- The asserts of `bitmap_create` hold; a word that is not used up has its leftover bits
marked. -/
theorem bitmapCreate_eq {nbits : BitVec 32} (h : nbits.toNat ≤ 2 ^ 32 - 32) :
    bitmapCreate nbits = .ok ⟨nbits,
      if nbits.toNat % 32 = 0 then List.replicate ((nbits.toNat + 31) / 32) 0#32
      else markLeftover (List.replicate ((nbits.toNat + 31) / 32) 0#32) (nbits.toNat / 32)
        (nbits.toNat % 32)⟩ := by
  have hwords := divRoundUp_toNat h
  have hfull : (nbits / bitsPerWord).toNat = nbits.toNat / 32 := by simp [bitsPerWord]
  simp only [bitmapCreate]
  by_cases hmod : nbits.toNat % 32 = 0
  · have hle : ¬ nbits / bitsPerWord < divRoundUp nbits bitsPerWord := by
      rw [BitVec.lt_def]
      omega
    rw [if_neg hle, if_pos hmod, hwords]
  · have hlt : nbits / bitsPerWord < divRoundUp nbits bitsPerWord := by
      rw [BitVec.lt_def]
      omega
    have hix : (divRoundUp nbits bitsPerWord - 1#32).toNat = nbits.toNat / 32 := by
      rw [BitVec.toNat_sub, hwords]
      simp only [BitVec.toNat_ofNat, Nat.reducePow, Nat.reduceMod]
      omega
    have hover : (nbits - (divRoundUp nbits bitsPerWord - 1#32) * bitsPerWord).toNat =
        nbits.toNat % 32 := by
      rw [BitVec.toNat_sub, BitVec.toNat_mul, hix]
      simp only [bitsPerWord, BitVec.toNat_ofNat, Nat.reducePow, Nat.reduceMod]
      omega
    have hlast : nbits / bitsPerWord = divRoundUp nbits bitsPerWord - 1#32 :=
      BitVec.eq_of_toNat_eq (hfull.trans hix.symm)
    have hrange : 0#32 < nbits - (divRoundUp nbits bitsPerWord - 1#32) * bitsPerWord ∧
        nbits - (divRoundUp nbits bitsPerWord - 1#32) * bitsPerWord < bitsPerWord := by
      rw [BitVec.lt_def, BitVec.lt_def, hover]
      simp only [bitsPerWord, BitVec.toNat_ofNat, Nat.reducePow, Nat.reduceMod]
      omega
    rw [if_pos hlt, if_neg (not_not.mpr hlast), if_neg (not_not.mpr hrange), if_neg hmod, hix,
      hover, hwords]

/-- `bitmap_create` makes the bitmap of the empty set. -/
theorem bitmapCreate_represents {nbits : BitVec 32} (h : nbits.toNat ≤ 2 ^ 32 - 32) :
    ∃ b, bitmapCreate nbits = .ok b ∧ b.nbits = nbits ∧ b.Represents ∅ := by
  have hcreate := bitmapCreate_eq h
  obtain ⟨-, hsized, hclear⟩ := bitmapCreate_spec hcreate
  refine ⟨_, hcreate, rfl, h, hsized, fun i hi => absurd hi (Finset.notMem_empty i), ?_⟩
  intro i hi
  rw [hsized, divRoundUp_toNat h] at hi
  by_cases hlt : i < nbits.toNat
  · simp [hclear i hlt, hlt]
  · have hmod : nbits.toNat % 32 ≠ 0 := by omega
    have hword : i / 32 = nbits.toNat / 32 := by omega
    have hset : bit ⟨nbits, markLeftover (List.replicate ((nbits.toNat + 31) / 32) 0#32)
        (nbits.toNat / 32) (nbits.toNat % 32)⟩ i = true := by
      rw [bit, hword]
      exact getLsbD_markLeftover_of_le (by rw [List.length_replicate]; omega) (by omega)
        (Nat.mod_lt _ (by decide))
    rw [if_neg hmod, hset]
    exact iff_of_true rfl (.inr (Nat.le_of_not_lt hlt))

/-! ## Single operations -/

variable {b : Bitmap} {S : Finset Nat} {index : BitVec 32}

/-- A word that is not full has a clear bit. -/
theorem exists_getLsbD_eq_false {word : BitVec 32} (h : word ≠ wordAllbits) :
    ∃ k < 32, word.getLsbD k = false := by
  by_contra hnone
  refine h (BitVec.eq_of_getLsbD_eq fun k hk => ?_)
  rw [getLsbD_of_full rfl hk]
  by_contra hclear
  exact hnone ⟨k, hk, Bool.eq_false_iff.mpr hclear⟩

/-- The asserts of `bitmap_alloc` hold. -/
theorem Represents.exists_alloc (h : b.Represents S) : ∃ r, bitmapAlloc b = .ok r := by
  simp only [bitmapAlloc]
  cases hix : (List.range (divRoundUp b.nbits bitsPerWord).toNat).find?
      fun ix => b.v.getD ix 0#32 != wordAllbits with
  | none => exact ⟨none, rfl⟩
  | some ix =>
    obtain ⟨hword, hmem, -⟩ := List.find?_range_eq_some.mp hix
    have hlt : ix < b.v.length := by
      rw [h.sized]
      exact List.mem_range.mp hmem
    obtain ⟨k, hk, hclear⟩ := exists_getLsbD_eq_false (bne_iff_ne.mp hword)
    cases hoffset : (List.range 32).find?
        fun offset => b.v.getD ix 0#32 &&& (1#32 <<< offset) == 0#32 with
    | none =>
      have hset := List.find?_range_eq_none.mp hoffset k hk
      rw [(Bits.and_mask_eq_zero_iff hk).mpr hclear] at hset
      exact absurd hset (by decide)
    | some offset =>
      obtain ⟨hzero, hmem', -⟩ := List.find?_range_eq_some.mp hoffset
      have hoff := List.mem_range.mp hmem'
      have hbit : b.bit (32 * ix + offset) = false := by
        rw [bit_at b hoff]
        exact (Bits.and_mask_eq_zero_iff hoff).mp (by simpa using hzero)
      -- The bits from `nbits` on are set, so that the clear one is below.
      have hbelow : 32 * ix + offset < b.nbits.toNat := by
        by_contra hge
        have hset := (h.bit (32 * ix + offset) (by omega)).mpr (.inr (by omega))
        rw [hbit] at hset
        cases hset
      have hbound := divRoundUp_lt b.nbits
      have hindex : (BitVec.ofNat 32 ix * bitsPerWord + BitVec.ofNat 32 offset).toNat =
          32 * ix + offset := by
        rw [h.sized] at hlt
        simp only [bitsPerWord, BitVec.toNat_add, BitVec.toNat_mul, BitVec.toNat_ofNat]
        omega
      have hindexlt : BitVec.ofNat 32 ix * bitsPerWord + BitVec.ofNat 32 offset < b.nbits := by
        rw [BitVec.lt_def, hindex]
        exact hbelow
      simp only [hoffset, if_pos hindexlt]
      exact ⟨_, rfl⟩

/-- `bitmap_alloc` takes the least free slot, or finds that there is none. -/
theorem Represents.alloc (h : b.Represents S) :
    (∃ b' index, bitmapAlloc b = .ok (some (b', index)) ∧
      firstClear (fun i => i ∈ S) b.nbits.toNat = some index.toNat ∧
      b'.nbits = b.nbits ∧ b'.Represents (insert index.toNat S)) ∨
    (bitmapAlloc b = .ok none ∧ firstClear (fun i => i ∈ S) b.nbits.toNat = none) := by
  have hwords := divRoundUp_toNat h.bound
  have hlength := h.sized
  rw [Sized, hwords] at hlength
  have hmem : ∀ i < b.nbits.toNat, b.bit i = true ↔ i ∈ S := fun i hi => by
    rw [h.bit i (by omega)]
    exact or_iff_left (by omega)
  obtain ⟨r, hr⟩ := h.exists_alloc
  cases r with
  | none =>
    refine .inr ⟨hr, firstClear_eq_none_iff.mpr fun i hi => decide_eq_true ((hmem i hi).mp ?_)⟩
    exact bitmapAlloc_none hr (by omega)
  | some pair =>
    obtain ⟨b', index⟩ := pair
    obtain ⟨hlt, hclear, hlower, hnbits, hsized, hbits⟩ := bitmapAlloc_some h.sized hr
    rw [BitVec.lt_def] at hlt
    refine .inl ⟨b', index, hr, firstClear_eq_some_iff.mpr ⟨?_, hlt, fun j hj => ?_⟩, hnbits, ?_⟩
    · rw [decide_eq_false_iff_not, ← hmem _ hlt, hclear]
      exact Bool.false_ne_true
    · exact decide_eq_true ((hmem j (by omega)).mp (hlower j hj))
    · have hlength' : b'.v.length = b.v.length := by
        rw [hsized, hnbits]
        exact h.sized.symm
      refine ⟨hnbits ▸ h.bound, hsized, fun i hi => ?_, fun i hi => ?_⟩
      · rw [hnbits]
        rcases Finset.mem_insert.mp hi with rfl | hi
        · exact hlt
        · exact h.below i hi
      · rw [hlength'] at hi
        rw [hbits, Bool.or_eq_true, h.bit i hi, decide_eq_true_eq, Finset.mem_insert, hnbits]
        tauto

theorem getLsbD_clearWord_mask {v : List (BitVec 32)} {ix j : Nat} (hj : j < 32) (i k : Nat) :
    ((clearWord v ix (1#32 <<< j)).getD i 0#32).getLsbD k =
      ((v.getD i 0#32).getLsbD k && !decide (ix = i ∧ j = k)) := by
  rw [clearWord, List.getD_eq_getElem?_getD, List.getD_eq_getElem?_getD, List.getElem?_modify]
  by_cases hi : i < v.length
  · simp only [List.getElem?_eq_getElem hi, Option.map_eq_map, Option.map_some, Option.getD_some]
    by_cases hix : ix = i
    · simp only [hix, ite_true, Bits.getLsbD_and_not_mask hj, true_and, ne_eq, decide_not]
    · simp only [hix, ite_false, false_and, decide_false, Bool.not_false, Bool.and_true]
  · simp [hi]

/-- The mask of an index tests the bit at the index. -/
theorem translate_eq_zero_iff (b : Bitmap) (index : BitVec 32) :
    b.v.getD (bitmapTranslate index).1.toNat 0#32 &&& (bitmapTranslate index).2 = 0#32 ↔
      b.bit index.toNat = false := by
  rw [← Bool.not_eq_true, ← bitmapIsset_ne_zero_iff, not_not]
  rfl

theorem toNat_div (index : BitVec 32) : (bitmapTranslate index).1.toNat = index.toNat / 32 := by
  simp [bitmapTranslate, bitsPerWord]

theorem mask_eq (index : BitVec 32) :
    (bitmapTranslate index).2 = 1#32 <<< (index.toNat % 32) := by
  simp [bitmapTranslate, bitsPerWord]

/-- `bitmap_mark` puts a free slot into the set. -/
theorem Represents.mark (h : b.Represents S) (hlt : index.toNat < b.nbits.toNat)
    (hS : index.toNat ∉ S) : ∃ b', bitmapMark b index = .ok b' ∧ b'.nbits = b.nbits ∧
      b'.Represents (insert index.toNat S) := by
  have hlength := h.sized
  rw [Sized, divRoundUp_toNat h.bound] at hlength
  have hclear : b.bit index.toNat = false := by
    rw [← Bool.not_eq_true, h.bit _ (by omega)]
    exact fun hor => hor.elim hS (by omega)
  have hmark : bitmapMark b index = .ok { b with
      v := orWord b.v (index.toNat / 32) (1#32 <<< (index.toNat % 32)) } := by
    have hzero := (translate_eq_zero_iff b index).mpr hclear
    simp only [bitmapMark, if_neg (not_not.mpr (BitVec.lt_def.mpr hlt))]
    rw [if_neg (not_not.mpr hzero), toNat_div, mask_eq]
  refine ⟨_, hmark, rfl, h.bound, ?_, fun i hi => ?_, fun i hi => ?_⟩
  · simpa [Sized] using h.sized
  · rcases Finset.mem_insert.mp hi with rfl | hi
    · exact hlt
    · exact h.below i hi
  · rw [length_orWord] at hi
    have hpos : (index.toNat / 32 = i / 32 ∧ index.toNat % 32 = i % 32) ↔ i = index.toNat := by
      omega
    have hword : i / 32 < b.v.length := by omega
    rw [Bitmap.bit, getLsbD_orWord_mask (Nat.mod_lt _ (by decide)), decide_eq_true hword,
      Bool.true_and, Bool.or_eq_true, decide_eq_true_eq, hpos, Finset.mem_insert]
    have hbit := h.bit i hi
    rw [Bitmap.bit] at hbit
    rw [hbit]
    tauto

/-- `bitmap_unmark` takes a slot out of the set. -/
theorem Represents.unmark (h : b.Represents S) (hlt : index.toNat < b.nbits.toNat)
    (hS : index.toNat ∈ S) : ∃ b', bitmapUnmark b index = .ok b' ∧ b'.nbits = b.nbits ∧
      b'.Represents (S.erase index.toNat) := by
  have hlength := h.sized
  rw [Sized, divRoundUp_toNat h.bound] at hlength
  have hset : b.bit index.toNat = true := (h.bit _ (by omega)).mpr (.inl hS)
  have hunmark : bitmapUnmark b index = .ok { b with
      v := clearWord b.v (index.toNat / 32) (1#32 <<< (index.toNat % 32)) } := by
    have hzero := (translate_eq_zero_iff b index).not.mpr (by rw [hset]; exact Bool.noConfusion)
    simp only [bitmapUnmark, if_neg (not_not.mpr (BitVec.lt_def.mpr hlt))]
    rw [if_neg hzero, toNat_div, mask_eq]
  refine ⟨_, hunmark, rfl, h.bound, ?_, fun i hi => ?_, fun i hi => ?_⟩
  · simpa [Sized, clearWord] using h.sized
  · exact h.below i (Finset.mem_of_mem_erase hi)
  · have hi : i < 32 * b.v.length := by simpa [clearWord] using hi
    have hpos : (index.toNat / 32 = i / 32 ∧ index.toNat % 32 = i % 32) ↔ i = index.toNat := by
      omega
    rw [Bitmap.bit, getLsbD_clearWord_mask (Nat.mod_lt _ (by decide)), Bool.and_eq_true,
      Bool.not_eq_true', decide_eq_false_iff_not, hpos, Finset.mem_erase]
    have hbit := h.bit i hi
    rw [Bitmap.bit] at hbit
    rw [hbit]
    constructor
    · rintro ⟨hor, hne⟩
      exact hor.imp_left fun hi => ⟨hne, hi⟩
    · rintro (⟨hne, hi⟩ | hge)
      · exact ⟨.inl hi, hne⟩
      · exact ⟨.inr hge, fun heq => Nat.not_lt.mpr hge (heq ▸ hlt)⟩

end Bitmap

/-! ## Sequences of operations -/

open Bitmap

variable {b : Bitmap} {S S' : Finset Nat} {op : BitmapOp} {ops : List BitmapOp} {reply : Reply}
  {replies : List Reply}

/-- An operation of the code does to the bitmap what it does to the set. -/
theorem Bitmap.Represents.step (h : b.Represents S)
    (hstep : slotStep b.nbits.toNat S op = some (reply, S')) :
    ∃ b', bitmapStep b op = .ok (reply, b') ∧ b'.nbits = b.nbits ∧ b'.Represents S' := by
  cases op with
  | alloc =>
    rcases h.alloc with ⟨b', index, hcode, hfirst, hnbits, hb'⟩ | ⟨hcode, hfirst⟩
    · simp only [slotStep, hfirst, Option.some.injEq, Prod.mk.injEq] at hstep
      obtain ⟨rfl, rfl⟩ := hstep
      refine ⟨b', ?_, hnbits, hb'⟩
      rw [bitmapStep, hcode]
      rfl
    · simp only [slotStep, hfirst, Option.some.injEq, Prod.mk.injEq] at hstep
      obtain ⟨rfl, rfl⟩ := hstep
      refine ⟨b, ?_, rfl, h⟩
      rw [bitmapStep, hcode]
      rfl
  | mark index =>
    rw [slotStep] at hstep
    split at hstep
    · next hfree =>
      obtain ⟨rfl, rfl⟩ := Prod.mk.inj (Option.some.inj hstep)
      obtain ⟨b', hcode, hnbits, hb'⟩ := h.mark hfree.1 hfree.2
      refine ⟨b', ?_, hnbits, hb'⟩
      rw [bitmapStep, hcode]
      rfl
    · cases hstep
  | unmark index =>
    rw [slotStep] at hstep
    split at hstep
    · next hused =>
      obtain ⟨rfl, rfl⟩ := Prod.mk.inj (Option.some.inj hstep)
      obtain ⟨b', hcode, hnbits, hb'⟩ := h.unmark hused.1 hused.2
      refine ⟨b', ?_, hnbits, hb'⟩
      rw [bitmapStep, hcode]
      rfl
    · cases hstep
  | isset index =>
    rw [slotStep] at hstep
    split at hstep
    · next hlt =>
      obtain ⟨rfl, rfl⟩ := Prod.mk.inj (Option.some.inj hstep)
      have hlength := h.sized
      rw [Sized, divRoundUp_toNat h.bound] at hlength
      have htest : bitmapIsset b index ≠ 0#32 ↔ index.toNat ∈ S := by
        rw [bitmapIsset_ne_zero_iff, h.bit _ (by omega)]
        exact or_iff_left (by omega)
      refine ⟨b, ?_, rfl, h⟩
      simp only [bitmapStep, htest]
      rfl
    · cases hstep

/-- Operations of the code do to the bitmap what they do to the set. -/
theorem Bitmap.Represents.steps (h : b.Represents S)
    (hrun : slotRun b.nbits.toNat S ops = some (replies, S')) :
    ∃ b', bitmapSteps b ops = .ok (replies, b') ∧ b'.nbits = b.nbits ∧ b'.Represents S' := by
  induction ops generalizing b S replies with
  | nil =>
    obtain ⟨rfl, rfl⟩ := Prod.mk.inj (Option.some.inj hrun)
    exact ⟨b, rfl, rfl, h⟩
  | cons op ops ih =>
    obtain ⟨⟨reply, S₁⟩, hstep, hrun₁⟩ := Option.bind_eq_some_iff.mp hrun
    obtain ⟨⟨rest, S₂⟩, hrest, hlast⟩ := Option.bind_eq_some_iff.mp hrun₁
    obtain ⟨rfl, rfl⟩ := Prod.mk.inj (Option.some.inj hlast)
    obtain ⟨b₁, hcode, hnbits, hb₁⟩ := h.step hstep
    obtain ⟨b₂, hcodes, hnbits', hb₂⟩ := ih hb₁ (by rw [hnbits]; exact hrest)
    refine ⟨b₂, ?_, hnbits'.trans hnbits, hb₂⟩
    simp only [bitmapSteps, hcode, hcodes, bind, Except.bind, pure, Except.pure]

/-- Operations on a bitmap that was just created return what they return on a set of slots that is
empty at first, and no assert fails. -/
theorem bitmapRun_eq {nbits : BitVec 32} (hn : nbits.toNat ≤ 2 ^ 32 - 32)
    (hrun : slotRun nbits.toNat ∅ ops = some (replies, S)) :
    ∃ b, bitmapRun nbits ops = .ok (replies, b) ∧ b.nbits = nbits ∧ b.Represents S := by
  obtain ⟨b, hcreate, rfl, hb⟩ := bitmapCreate_represents hn
  obtain ⟨b', hsteps, hnbits, hb'⟩ := hb.steps hrun
  refine ⟨b', ?_, hnbits, hb'⟩
  rw [bitmapRun, hcreate]
  exact hsteps

/-- A bitmap of 33 slots, of which the last word has one. -/
theorem bitmapRun_sample : ∃ b, bitmapRun 33#32 [.mark 1#32, .alloc, .alloc, .isset 32#32,
    .unmark 1#32, .alloc] = .ok ([.done, .slot 0, .slot 2, .test false, .done, .slot 1], b) ∧
      b.nbits = 33#32 ∧ b.Represents {0, 1, 2} :=
  bitmapRun_eq (by decide) (by decide)

end OsAssignments.Paging
