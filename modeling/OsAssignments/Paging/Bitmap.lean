import OsAssignments.Library.Program
import OsAssignments.Library.Bits

/-!
# The swap bitmap

The bitmap packs one bit per swap slot into 32-bit words, with the unused bits of
the last word set when it is created. Allocation scans words and then the bits of
the first word that is not full. Every fact is stated for the bit at an index.
-/

namespace OsAssignments.Paging

open Bits

def bitsPerWord : BitVec 32 := 32#32

def wordAllbits : BitVec 32 := 0xffffffff#32

/-- `DIVROUNDUP` in unsigned 32-bit arithmetic, which wraps near the top of the range. -/
def divRoundUp (a b : BitVec 32) : BitVec 32 := (a + b - 1#32) / b

structure Bitmap where
  nbits : BitVec 32
  v : List (BitVec 32)

/-- `v[ix] |= mask`. -/
def orWord (v : List (BitVec 32)) (ix : Nat) (mask : BitVec 32) : List (BitVec 32) :=
  v.modify ix (· ||| mask)

/-- Mark the bits from `overbits` on of word `ix` in use. -/
def markLeftover (v : List (BitVec 32)) (ix overbits : Nat) : List (BitVec 32) :=
  (List.range' overbits (32 - overbits)).foldl (fun v j => orWord v ix (1#32 <<< j)) v

def bitmapCreate (nbits : BitVec 32) : Except Stop Bitmap :=
  let words := divRoundUp nbits bitsPerWord
  let v := List.replicate words.toNat 0#32
  if nbits / bitsPerWord < words then
    let ix := words - 1#32
    let overbits := nbits - ix * bitsPerWord
    if nbits / bitsPerWord ≠ words - 1#32 then .error .abort
    else if ¬ (0#32 < overbits ∧ overbits < bitsPerWord) then .error .abort
    else .ok ⟨nbits, markLeftover v ix.toNat overbits.toNat⟩
  else .ok ⟨nbits, v⟩

/-- The lowest clear bit becomes set and its index is returned; `none` when every word is full. -/
def bitmapAlloc (b : Bitmap) : Except Stop (Option (Bitmap × BitVec 32)) :=
  let maxix := divRoundUp b.nbits bitsPerWord
  match (List.range maxix.toNat).find? fun ix => b.v.getD ix 0#32 != wordAllbits with
  | none => .ok none
  | some ix =>
    match (List.range 32).find? fun offset => b.v.getD ix 0#32 &&& (1#32 <<< offset) == 0#32 with
    | none => .error .abort
    | some offset =>
      let index := BitVec.ofNat 32 ix * bitsPerWord + BitVec.ofNat 32 offset
      if index < b.nbits then
        .ok (some (⟨b.nbits, orWord b.v ix (1#32 <<< offset)⟩, index))
      else .error .abort

/-- The word index and the mask of a bit number. -/
def bitmapTranslate (bitno : BitVec 32) : BitVec 32 × BitVec 32 :=
  (bitno / bitsPerWord, 1#32 <<< (bitno % bitsPerWord).toNat)

/-- `v[ix] &= ~mask`. -/
def clearWord (v : List (BitVec 32)) (ix : Nat) (mask : BitVec 32) : List (BitVec 32) :=
  v.modify ix (· &&& ~~~mask)

def bitmapMark (b : Bitmap) (index : BitVec 32) : Except Stop Bitmap :=
  if ¬ index < b.nbits then .error .abort
  else
    let (ix, mask) := bitmapTranslate index
    if b.v.getD ix.toNat 0#32 &&& mask ≠ 0#32 then .error .abort
    else .ok { b with v := orWord b.v ix.toNat mask }

def bitmapUnmark (b : Bitmap) (index : BitVec 32) : Except Stop Bitmap :=
  if ¬ index < b.nbits then .error .abort
  else
    let (ix, mask) := bitmapTranslate index
    if b.v.getD ix.toNat 0#32 &&& mask = 0#32 then .error .abort
    else .ok { b with v := clearWord b.v ix.toNat mask }

def bitmapIsset (b : Bitmap) (index : BitVec 32) : BitVec 32 :=
  b.v.getD (bitmapTranslate index).1.toNat 0#32 &&& (bitmapTranslate index).2

/-! ## The bit at an index -/

namespace Bitmap

/-- The bit at an index, as a truth value. -/
def bit (b : Bitmap) (i : Nat) : Bool := (b.v.getD (i / 32) 0#32).getLsbD (i % 32)

/-- `bitmap_isset` tests the bit at its index. -/
theorem bitmapIsset_ne_zero_iff (b : Bitmap) (index : BitVec 32) :
    bitmapIsset b index ≠ 0#32 ↔ b.bit index.toNat = true := by
  have hdiv : (index / bitsPerWord).toNat = index.toNat / 32 := by simp [bitsPerWord]
  have hmod : (index % bitsPerWord).toNat = index.toNat % 32 := by simp [bitsPerWord]
  have hlt : index.toNat % 32 < 32 := Nat.mod_lt _ (by decide)
  rw [bitmapIsset, bitmapTranslate, hdiv, hmod, bit, ne_eq, and_mask_eq_zero_iff hlt,
    Bool.not_eq_false]

theorem getLsbD_orWord_mask {v : List (BitVec 32)} {ix j : Nat} (hj : j < 32) (i k : Nat) :
    ((orWord v ix (1#32 <<< j)).getD i 0#32).getLsbD k =
      ((v.getD i 0#32).getLsbD k || (decide (i < v.length) && decide (ix = i ∧ j = k))) := by
  rw [orWord, List.getD_eq_getElem?_getD, List.getD_eq_getElem?_getD, List.getElem?_modify]
  by_cases hi : i < v.length
  · simp only [List.getElem?_eq_getElem hi, Option.map_eq_map, Option.map_some, Option.getD_some]
    by_cases hix : ix = i
    · simp only [hix, ite_true, getLsbD_or_mask hj, hi, decide_true, Bool.true_and, true_and]
    · simp only [hix, ite_false, false_and, decide_false, Bool.and_false, Bool.or_false]
  · simp [hi]

@[simp] theorem length_orWord (v : List (BitVec 32)) (ix : Nat) (mask : BitVec 32) :
    (orWord v ix mask).length = v.length := List.length_modify ..

/-- Marking the leftover bits changes no bit below them. -/
theorem getLsbD_markLeftover {v : List (BitVec 32)} {ix overbits i k : Nat}
    (h : ix = i → k < overbits) :
    ((markLeftover v ix overbits).getD i 0#32).getLsbD k = (v.getD i 0#32).getLsbD k := by
  have hgen : ∀ (js : List Nat) (u : List (BitVec 32)), (∀ j ∈ js, overbits ≤ j ∧ j < 32) →
      ((js.foldl (fun v j => orWord v ix (1#32 <<< j)) u).getD i 0#32).getLsbD k =
        (u.getD i 0#32).getLsbD k := by
    intro js
    induction js with
    | nil => intro u _; rfl
    | cons j js ih =>
      intro u hjs
      have hj := hjs j (List.mem_cons_self ..)
      have hne : ¬ (ix = i ∧ j = k) := fun he => by
        have := h he.1
        omega
      rw [List.foldl_cons, ih _ fun j' hj' => hjs j' (List.mem_cons_of_mem _ hj'),
        getLsbD_orWord_mask hj.2]
      simp only [hne, decide_false, Bool.and_false, Bool.or_false]
  apply hgen
  intro j hj
  have hmem := List.mem_range'_1.mp hj
  omega

@[simp] theorem length_markLeftover (v : List (BitVec 32)) (ix overbits : Nat) :
    (markLeftover v ix overbits).length = v.length := by
  unfold markLeftover
  generalize List.range' overbits (32 - overbits) = js
  induction js generalizing v with
  | nil => rfl
  | cons j js ih => rw [List.foldl_cons, ih, length_orWord]

/-! ## Creation -/

/-- A bitmap as `bitmap_create` lays it out: one word per started group of 32 bits. -/
def Sized (b : Bitmap) : Prop := b.v.length = (divRoundUp b.nbits bitsPerWord).toNat

/-- A bitmap that was just created has no bit set below `nbits`. -/
theorem bitmapCreate_spec {nbits : BitVec 32} {b : Bitmap} (h : bitmapCreate nbits = .ok b) :
    b.nbits = nbits ∧ b.Sized ∧ ∀ i, i < nbits.toNat → b.bit i = false := by
  have hzero (n i k : Nat) : ((List.replicate n 0#32).getD i 0#32).getLsbD k = false := by
    rw [List.getD_eq_getElem?_getD, List.getElem?_replicate]
    split <;> simp
  unfold bitmapCreate at h
  simp only at h
  split at h
  · rename_i hlt
    split at h
    · cases h
    split at h
    · cases h
    · rename_i hlast hover
      cases h
      refine ⟨rfl, ?_, fun i hi => ?_⟩
      · simp [Sized]
      · rw [bit, getLsbD_markLeftover, hzero]
        intro hix
        simp only [Decidable.not_not] at hover
        rw [BitVec.lt_def, BitVec.lt_def] at hover
        simp only [bitsPerWord, BitVec.toNat_sub, BitVec.toNat_mul, BitVec.toNat_ofNat]
          at hix hover ⊢
        omega
  · cases h
    exact ⟨rfl, by simp [Sized], fun i _ => hzero _ _ _⟩

/-! ## Allocation -/

theorem divRoundUp_toNat {nbits : BitVec 32} (h : nbits.toNat ≤ 2 ^ 32 - 32) :
    (divRoundUp nbits bitsPerWord).toNat = (nbits.toNat + 31) / 32 := by
  simp only [divRoundUp, bitsPerWord, BitVec.toNat_udiv, BitVec.toNat_sub, BitVec.toNat_add,
    BitVec.toNat_ofNat, Nat.reducePow, Nat.reduceMod]
  omega

theorem divRoundUp_lt (nbits : BitVec 32) : (divRoundUp nbits bitsPerWord).toNat < 2 ^ 27 := by
  have hdiv : (divRoundUp nbits bitsPerWord).toNat = (nbits + 32#32 - 1#32).toNat / 32 := by
    simp [divRoundUp, bitsPerWord]
  have hlt := (nbits + 32#32 - 1#32).isLt
  omega

theorem bit_at (b : Bitmap) {ix offset : Nat} (h : offset < 32) :
    b.bit (32 * ix + offset) = (b.v.getD ix 0#32).getLsbD offset := by
  have hdiv : (32 * ix + offset) / 32 = ix := by omega
  have hmod : (32 * ix + offset) % 32 = offset := by omega
  rw [bit, hdiv, hmod]

theorem getLsbD_of_full {word : BitVec 32} (h : word = wordAllbits) {k : Nat} (hk : k < 32) :
    word.getLsbD k = true := by
  have hall : wordAllbits = BitVec.allOnes 32 := by decide
  rw [h, hall, BitVec.getLsbD_allOnes]
  exact decide_eq_true hk

/-- A successful allocation takes the lowest clear index, which is below `nbits`. -/
theorem bitmapAlloc_some {b b' : Bitmap} {index : BitVec 32} (hb : b.Sized)
    (h : bitmapAlloc b = .ok (some (b', index))) :
    index < b.nbits ∧ b.bit index.toNat = false ∧ (∀ j, j < index.toNat → b.bit j = true) ∧
      b'.nbits = b.nbits ∧ b'.Sized ∧
      ∀ j, b'.bit j = (b.bit j || decide (index.toNat = j)) := by
  unfold bitmapAlloc at h
  simp only at h
  split at h
  · cases h
  rename_i ix hix
  split at h
  · cases h
  rename_i offset hoffset
  split at h
  · rename_i hlt
    cases h
    rw [List.find?_range_eq_some] at hix hoffset
    obtain ⟨_, hmem, hfull⟩ := hix
    obtain ⟨hclear, hoff, hset⟩ := hoffset
    have hix := List.mem_range.mp hmem
    have hoff := List.mem_range.mp hoff
    have hbound := divRoundUp_lt b.nbits
    have hindex : (BitVec.ofNat 32 ix * bitsPerWord + BitVec.ofNat 32 offset).toNat =
        32 * ix + offset := by
      simp only [bitsPerWord, BitVec.toNat_add, BitVec.toNat_mul, BitVec.toNat_ofNat]
      omega
    have hzero : (b.v.getD ix 0#32).getLsbD offset = false :=
      (and_mask_eq_zero_iff hoff).mp (by simpa using hclear)
    rw [hindex]
    refine ⟨hlt, by rw [bit_at b hoff, hzero], fun j hj => ?_, rfl, ?_, fun j => ?_⟩
    · -- A lower index lies in an earlier word, which is full, or below `offset` in this one.
      have hsplit : j = 32 * (j / 32) + j % 32 := by omega
      have hmod : j % 32 < 32 := Nat.mod_lt _ (by decide)
      rw [hsplit, bit_at b hmod]
      by_cases hword : j / 32 < ix
      · exact getLsbD_of_full (by simpa using hfull _ hword) hmod
      · have heq : j / 32 = ix := by omega
        have hbit := hset (j % 32) (by omega)
        rw [heq]
        cases hv : (b.v.getD ix 0#32).getLsbD (j % 32) with
        | true => rfl
        | false =>
          rw [(and_mask_eq_zero_iff hmod).mpr hv] at hbit
          exact hbit
    · simpa [Sized] using hb
    · rw [bit, getLsbD_orWord_mask hoff, bit]
      congr 1
      by_cases heq : 32 * ix + offset = j
      · have hpos : ix = j / 32 ∧ offset = j % 32 := by omega
        have hlen : j / 32 < b.v.length := by rw [hb]; omega
        simp [heq, hpos.1.symm, hpos.2.symm, hpos.1 ▸ hlen]
      · have hpos : ¬ (ix = j / 32 ∧ offset = j % 32) := by omega
        simp only [heq, hpos, decide_false, Bool.and_false]
  · cases h

/-- Allocation reports a full map only when every word is full. -/
theorem bitmapAlloc_none {b : Bitmap} (h : bitmapAlloc b = .ok none) {i : Nat}
    (hi : i < 32 * (divRoundUp b.nbits bitsPerWord).toNat) : b.bit i = true := by
  unfold bitmapAlloc at h
  simp only at h
  split at h
  · rename_i hnone
    have hword := List.find?_range_eq_none.mp hnone (i / 32) (by omega)
    exact getLsbD_of_full (by simpa using hword) (Nat.mod_lt _ (by decide))
  split at h
  · cases h
  split at h <;> cases h

end Bitmap

end OsAssignments.Paging
