import Mathlib.Data.List.Basic

/-!
# Listings with collapsed runs

A loop over an array prints a line for each element that is shown and one line for each run of
elements that are not. It keeps the first and the last index of the run it is in, or `-1`. The
lines name every index once, in order.
-/

namespace OsAssignments.Listing

variable {α β ε : Type}

/-- A line of a listing. -/
inductive Line (β : Type)
  /-- The elements from one index to another are not shown. -/
  | run (first last : Int)
  /-- What is shown for the element at an index. -/
  | item (i : Nat) (b : β)

/-- The line for the run that the loop is in, if it is in one. -/
def flush (first last : Int) : List (Line β) :=
  if first ≠ -1 then [.run first last] else []

/-- The loop from index `i` on. -/
def listFrom (hidden : α → Bool) (describe : α → Except ε β) :
    Int → Int → Nat → List α → Except ε (List (Line β))
  | first, last, _, [] => .ok (flush first last)
  | first, last, i, x :: xs =>
    if hidden x then listFrom hidden describe (if first = -1 then i else first) i (i + 1) xs
    else do
      let b ← describe x
      let lines ← listFrom hidden describe (-1) (-1) (i + 1) xs
      return flush first last ++ .item i b :: lines

def list (hidden : α → Bool) (describe : α → Except ε β) (xs : List α) :
    Except ε (List (Line β)) :=
  listFrom hidden describe (-1) (-1) 0 xs

/-! ## What the lines say -/

/-- The indices that a line names, with what is shown for them. -/
def Line.positions : Line β → List (Int × Option β)
  | .run first last => (List.range (last + 1 - first).toNat).map fun k : Nat => (first + k, none)
  | .item i b => [(i, some b)]

/-- The indices that a line names. -/
def Line.indices (line : Line β) : List Int := line.positions.map Prod.fst

/-- The index and the text of a line that shows an element. -/
def Line.entry : Line β → Option (Nat × β)
  | .run _ _ => none
  | .item i b => some (i, b)

theorem filterMap_entry (lines : List (Line β)) : lines.filterMap Line.entry =
    (lines.flatMap Line.positions).filterMap fun x => x.2.map fun b => (x.1.toNat, b) := by
  induction lines with
  | nil => rfl
  | cons line lines ih =>
    rw [List.flatMap_cons, List.filterMap_append, ← ih]
    cases line with
    | run first last =>
      rw [Line.positions, List.filterMap_map]
      have hnone : (List.range (last + 1 - first).toNat).filterMap ((fun x : Int × Option β =>
          x.2.map fun b => (x.1.toNat, b)) ∘ fun k : Nat => (first + k, none)) = [] :=
        List.filterMap_eq_nil_iff.mpr fun _ _ => rfl
      rw [hnone]
      rfl
    | item i b => rfl

/-- The loop is in no run, or in one that ends before index `i`. -/
def Pending (first last : Int) (i : Nat) : Prop :=
  first = -1 ∨ 0 ≤ first ∧ first ≤ last ∧ last + 1 = i

/-- An element that is not shown makes the run longer by one. -/
theorem positions_flush_grow {first last : Int} {i : Nat} (h : Pending first last i) :
    (flush (if first = -1 then i else first) i : List (Line β)).flatMap Line.positions =
      (flush first last : List (Line β)).flatMap Line.positions ++ [((i : Int), none)] := by
  by_cases hfirst : first = -1
  · have hne : (i : Int) ≠ -1 := by omega
    simp [flush, hfirst, hne, Line.positions]
  · obtain ⟨hzero, hle, hlast⟩ := h.resolve_left hfirst
    have hlen : ((i : Int) + 1 - first).toNat = (last + 1 - first).toNat + 1 := by omega
    simp [flush, hfirst, Line.positions, hlen, List.range_succ]
    omega

theorem Pending.grow {first last : Int} {i : Nat} (h : Pending first last i) :
    Pending (if first = -1 then i else first) i (i + 1) := by
  rcases h with rfl | ⟨hzero, hle, hlast⟩
  · exact .inr ⟨by simp, by simp, by simp⟩
  · rw [if_neg (by omega)]
    exact .inr ⟨hzero, by omega, by omega⟩

/-- When everything that is shown can be described, the lines name the indices in order, with the
descriptions of the elements that are shown. -/
theorem listFrom_positions {hidden : α → Bool} {describe : α → Except ε β} {g : α → β}
    {xs : List α} (hg : ∀ x ∈ xs, hidden x = false → describe x = .ok (g x)) {first last : Int}
    {i : Nat} (h : Pending first last i) :
    ∃ lines, listFrom hidden describe first last i xs = .ok lines ∧
      lines.flatMap Line.positions = (flush first last : List (Line β)).flatMap Line.positions ++
        (xs.zipIdx i).map fun x =>
          ((x.2 : Int), if hidden x.1 then none else some (g x.1)) := by
  induction xs generalizing first last i with
  | nil => exact ⟨_, rfl, (List.append_nil _).symm⟩
  | cons x xs ih =>
    have hxs : ∀ y ∈ xs, hidden y = false → describe y = .ok (g y) := fun y hy =>
      hg y (List.mem_cons_of_mem x hy)
    rw [List.zipIdx_cons, List.map_cons]
    cases hx : hidden x with
    | true =>
      obtain ⟨lines, hlines, hpositions⟩ := ih hxs h.grow
      refine ⟨lines, ?_, ?_⟩
      · rw [listFrom, if_pos hx]
        exact hlines
      · rw [hpositions, positions_flush_grow h, List.append_assoc]
        rfl
    | false =>
      have hnone : Pending (-1) (-1) (i + 1) := .inl rfl
      obtain ⟨lines, hlines, hpositions⟩ := ih hxs hnone
      refine ⟨flush first last ++ .item i (g x) :: lines, ?_, ?_⟩
      · rw [listFrom, hx, if_neg Bool.false_ne_true, hg x List.mem_cons_self hx]
        simp only [bind, Except.bind, hlines]
        rfl
      · rw [List.flatMap_append, List.flatMap_cons, hpositions]
        rfl

variable {hidden : α → Bool} {describe : α → Except ε β} {g : α → β} {xs : List α}

/-- The loop ends, names every index once and in order, and shows what is not hidden. -/
theorem list_spec (hg : ∀ x ∈ xs, hidden x = false → describe x = .ok (g x)) :
    ∃ lines, list hidden describe xs = .ok lines ∧
      lines.flatMap Line.indices = (List.range xs.length).map Nat.cast ∧
      lines.filterMap Line.entry = xs.zipIdx.filterMap fun x =>
        if hidden x.1 then none else some (x.2, g x.1) := by
  have hnone : Pending (-1) (-1) 0 := .inl rfl
  obtain ⟨lines, hlines, hpositions⟩ := listFrom_positions hg hnone
  have hpositions : lines.flatMap Line.positions = xs.zipIdx.map fun x =>
      ((x.2 : Int), if hidden x.1 then none else some (g x.1)) := hpositions
  refine ⟨lines, hlines, ?_, ?_⟩
  · have hindices : lines.flatMap Line.indices = (lines.flatMap Line.positions).map Prod.fst := by
      rw [List.map_flatMap]
      rfl
    rw [hindices, hpositions, List.map_map, List.range_eq_range', ← List.zipIdx_map_snd 0 xs,
      List.map_map]
    rfl
  · rw [filterMap_entry, hpositions, List.filterMap_map]
    refine List.filterMap_congr fun x _ => ?_
    simp only [Function.comp_apply]
    split <;> rfl

end OsAssignments.Listing
