import OsAssignments.Ext2.Helper

/-!
# Paths that end in a name

`generate_position` splits a path at its last slash. For a path `parent/name` the last
component is `name`, from the index after that slash to the end.
-/

namespace OsAssignments.Ext2

namespace CString

variable {path : CString}

theorem char_natCast (i : Nat) : path.char i = (path.bytes ++ [0])[i]? := by
  rw [char, if_pos (Int.natCast_nonneg i), Int.toNat_natCast]

end CString

/-- A path is a parent, a slash and a name without slashes that is not empty. -/
structure Names (path : CString) (parent name : List UInt8) : Prop where
  split : path.bytes = parent ++ slash :: name
  nonempty : name ≠ []
  noSlash : slash ∉ name

namespace Names

variable {path : CString} {parent name : List UInt8}

theorem length (h : Names path parent name) :
    path.bytes.length = parent.length + 1 + name.length := by
  rw [h.split, List.length_append, List.length_cons]
  omega

theorem length_pos (h : Names path parent name) : 1 ≤ name.length :=
  List.length_pos_iff.mpr h.nonempty

/-- The bytes of the name are not NUL. -/
theorem noNul (h : Names path parent name) : 0 ∉ name := fun h0 =>
  path.noNul (h.split ▸ List.mem_append_right parent (List.mem_cons_of_mem slash h0))

theorem char_slash (h : Names path parent name) : path.char parent.length = some slash := by
  rw [CString.char_natCast, h.split, List.append_assoc, List.getElem?_append_right (Nat.le_refl _),
    Nat.sub_self]
  rfl

theorem char_name (h : Names path parent name) {i : Nat} (hi : i < name.length) :
    path.char (parent.length + 1 + i : Nat) = some name[i] := by
  rw [CString.char_natCast, h.split, List.append_assoc, List.getElem?_append_right (by omega),
    show parent.length + 1 + i - parent.length = i + 1 by omega, List.cons_append,
    List.getElem?_cons_succ, List.getElem?_append_left hi, List.getElem?_eq_getElem hi]

/-- The loop that goes back to the last slash stops before the name. -/
theorem slashBefore (h : Names path parent name) {j : Nat} (hj : j ≤ name.length) :
    slashBefore path (parent.length + j) = some parent.length := by
  induction j with
  | zero =>
    have hslash := h.char_slash
    rw [Nat.add_zero]
    cases hp : parent.length with
    | zero =>
      rw [hp] at hslash
      exact if_pos hslash
    | succ n =>
      rw [hp] at hslash
      exact if_pos hslash
  | succ j ih =>
    have hchar := h.char_name (i := j) hj
    rw [Nat.add_right_comm] at hchar
    rw [← Nat.add_assoc, Ext2.slashBefore, if_neg, ih (by omega)]
    rw [hchar]
    exact fun heq => h.noSlash (Option.some.inj heq ▸ List.getElem_mem hj)

theorem generatePosition (h : Names path parent name) : generatePosition path =
    some ⟨1, (parent.length + name.length : Nat), (parent.length + 1 : Nat)⟩ := by
  have hpos := h.length_pos
  have hend : (path.bytes.length : Int) - 1 = (parent.length + name.length : Nat) := by
    rw [h.length]
    omega
  have hlast := h.char_name (i := name.length - 1) (by omega)
  rw [show parent.length + 1 + (name.length - 1) = parent.length + name.length by omega] at hlast
  have hne : name[name.length - 1] ≠ slash := fun heq => h.noSlash (heq ▸ List.getElem_mem _)
  simp only [Ext2.generatePosition, hend, hlast, Option.bind_eq_bind, Option.bind_some,
    if_neg hne, Int.toNat_natCast, h.slashBefore (Nat.le_refl _)]
  rw [if_neg (by omega)]
  rfl

/-- The last component is the name. -/
theorem slice (h : Names path parent name) :
    path.slice (parent.length + 1 : Nat) (name.length : Nat) = some name := by
  rw [CString.slice, if_pos ⟨by omega, by omega, by rw [h.length]; omega⟩, Int.toNat_natCast,
    Int.toNat_natCast, h.split, List.drop_append, List.take_of_length_le (by simp)]
  simp

end Names

end OsAssignments.Ext2
