import OsAssignments.Ext2.Paths

/-!
# The last component of a path

`generate_position` drops one slash from the end of a path and takes what lies behind the slash
before it. That is the last component when there is a slash before the component and at most one
after it. Without a slash the loop runs out of the string, and after two slashes nothing is left
of the component.
-/

namespace OsAssignments.Ext2

variable {path : CString} {before name : List UInt8} {trailing i j : Nat}

/-- A path ends with a component that is not empty, and slashes. -/
structure LastComponent (path : CString) (before name : List UInt8) (trailing : Nat) : Prop where
  bytes : path.bytes = before ++ name ++ List.replicate trailing slash
  nonempty : name ≠ []
  noSlash : slash ∉ name
  start : ∀ b ∈ before.getLast?, b = slash

/-- `generate_position` stays in the string and delimits the last component; for a path of slashes
it returns the root special case. -/
def DelimitsLast (path : CString) : Prop :=
  ∃ r, generatePosition path = some r ∧
    (∀ before name trailing, LastComponent path before name trailing →
      r.lastDir = before.length ∧
        path.slice r.lastDir (r.lastChar - r.lastDir + 1) = some name) ∧
    ((∀ b ∈ path.bytes, b = slash) → r = ⟨-1, -1, -1⟩)

/-- The path is a single slash, or its last component comes after a slash and is followed by at most
one. -/
def SlashesAround (path : CString) : Prop :=
  path.bytes = [slash] ∨ ∃ before name trailing, LastComponent path before name trailing ∧
    before ≠ [] ∧ trailing ≤ 1

/-! ## The two scans -/

theorem slashBefore_eq_some (hle : j ≤ i) (hj : path.char j = some slash)
    (hafter : ∀ k : Nat, j < k → k ≤ i → path.char k ≠ some slash) :
    slashBefore path i = some j := by
  induction i with
  | zero =>
    obtain rfl : j = 0 := by omega
    exact if_pos hj
  | succ i ih =>
    by_cases hi : j = i + 1
    · subst hi
      exact if_pos hj
    · rw [slashBefore, if_neg (hafter (i + 1) (by omega) (Nat.le_refl _))]
      exact ih (by omega) fun k hlt hk => hafter k hlt (by omega)

theorem slashBefore_eq_none (h : ∀ k : Nat, k ≤ i → path.char k ≠ some slash) :
    slashBefore path i = none := by
  induction i with
  | zero => exact if_neg (h 0 (Nat.le_refl _))
  | succ i ih =>
    rw [slashBefore, if_neg (h (i + 1) (Nat.le_refl _))]
    exact ih fun k hk => h k (by omega)

theorem generatePosition_slash (hlength : path.bytes.length = i + 2)
    (hlast : path.char (i + 1 : Nat) = some slash) :
    generatePosition path = (slashBefore path i).map fun j => ⟨1, i, j + 1⟩ := by
  have hend : (path.bytes.length : Int) - 1 = (i + 1 : Nat) := by omega
  have hkept : ((i + 1 : Nat) : Int) - 1 = (i : Nat) := by omega
  simp only [generatePosition, hend, hlast, Option.bind_eq_bind, Option.bind_some, if_true, hkept,
    Int.toNat_natCast]
  rw [if_neg (by omega)]
  cases slashBefore path i <;> rfl

theorem generatePosition_noSlash (hlength : path.bytes.length = i + 1) {b : UInt8}
    (hlast : path.char i = some b) (hb : b ≠ slash) :
    generatePosition path = (slashBefore path i).map fun j => ⟨1, i, j + 1⟩ := by
  have hend : (path.bytes.length : Int) - 1 = (i : Nat) := by omega
  simp only [generatePosition, hend, hlast, Option.bind_eq_bind, Option.bind_some, if_neg hb,
    Int.toNat_natCast]
  rw [if_neg (by omega)]
  cases slashBefore path i <;> rfl

/-! ## Paths with a component -/

/-- A path is slashes, or it has a last component. -/
theorem exists_lastComponent (path : CString) :
    (∀ b ∈ path.bytes, b = slash) ∨
      ∃ before name trailing, LastComponent path before name trailing := by
  have hgen : ∀ bytes : List UInt8, (∀ b ∈ bytes, b = slash) ∨ ∃ before name trailing,
      bytes = before ++ name ++ List.replicate trailing slash ∧ name ≠ [] ∧ slash ∉ name ∧
        ∀ b ∈ before.getLast?, b = slash := by
    intro bytes
    induction bytes using List.reverseRecOn with
    | nil => exact .inl fun b hb => by cases hb
    | append_singleton bytes b ih =>
      by_cases hb : b = slash
      · rcases ih with hall | ⟨before, name, trailing, rfl, hname⟩
        · exact .inl (List.forall_mem_append.mpr ⟨hall, List.forall_mem_singleton.mpr hb⟩)
        · refine .inr ⟨before, name, trailing + 1, ?_, hname⟩
          rw [hb, List.replicate_succ', List.append_assoc (before ++ name)]
      · have hnoSlash : slash ∉ [b] := fun h => hb (List.mem_singleton.mp h).symm
        refine .inr ?_
        by_cases hlast : ∀ c ∈ bytes.getLast?, c = slash
        · exact ⟨bytes, [b], 0, (List.append_nil _).symm, List.cons_ne_nil _ _, hnoSlash, hlast⟩
        · rcases ih with hall | ⟨before, name, trailing, rfl, hne, hno, hstart⟩
          · exact absurd (fun c hc => hall c (List.mem_of_getLast? hc)) hlast
          · cases trailing with
            | succ k =>
              refine absurd (fun c hc => ?_) hlast
              rw [List.replicate_succ', ← List.append_assoc, List.getLast?_concat] at hc
              exact (Option.some.inj hc).symm
            | zero =>
              refine ⟨before, name ++ [b], 0, ?_, by simp, ?_, hstart⟩
              · simp
              · rw [List.mem_append]
                exact fun h => h.elim hno hnoSlash
  rcases hgen path.bytes with hall | ⟨before, name, trailing, hbytes, hne, hno, hstart⟩
  · exact .inl hall
  · exact .inr ⟨before, name, trailing, hbytes, hne, hno, hstart⟩

namespace LastComponent

variable (h : LastComponent path before name trailing)

include h

theorem length : path.bytes.length = before.length + name.length + trailing := by
  rw [h.bytes]
  simp [Nat.add_assoc]

theorem length_name : 1 ≤ name.length := List.length_pos_iff.mpr h.nonempty

theorem char_name (hi : i < name.length) :
    ∃ b, path.char (before.length + i : Nat) = some b ∧ b ≠ slash := by
  refine ⟨name[i], ?_, fun heq => h.noSlash (heq ▸ List.getElem_mem hi)⟩
  rw [CString.char_natCast, h.bytes, List.append_assoc, List.append_assoc,
    List.getElem?_append_right (by omega), Nat.add_sub_cancel_left, List.getElem?_append_left hi,
    List.getElem?_eq_getElem hi]

theorem char_trailing (hi : i < trailing) :
    path.char (before.length + name.length + i : Nat) = some slash := by
  rw [CString.char_natCast, h.bytes, List.append_assoc,
    List.getElem?_append_right (by rw [List.length_append]; omega), List.length_append,
    Nat.add_sub_cancel_left, List.getElem?_append_left (by rwa [List.length_replicate]),
    List.getElem?_replicate, if_pos hi]

theorem char_before (hbefore : before ≠ []) :
    path.char (before.length - 1 : Nat) = some slash := by
  obtain ⟨before, b, rfl⟩ := (List.eq_nil_or_concat' before).resolve_left hbefore
  obtain rfl := h.start b List.getLast?_concat
  rw [CString.char_natCast, h.bytes]
  simp

theorem slice : path.slice (before.length : Nat) (name.length : Nat) = some name := by
  rw [CString.slice, if_pos ⟨by omega, by omega, by rw [h.length]; omega⟩, Int.toNat_natCast,
    Int.toNat_natCast, h.bytes, List.append_assoc, List.drop_left, List.take_left]

/-- The component is found after a slash and before at most one. -/
theorem generatePosition (hbefore : before ≠ []) (htrailing : trailing ≤ 1) :
    generatePosition path =
      some ⟨1, (before.length + name.length - 1 : Nat), (before.length : Nat)⟩ := by
  have hpos := h.length_name
  have hlt := List.length_pos_iff.mpr hbefore
  have hscan : slashBefore path (before.length + name.length - 1) = some (before.length - 1) := by
    refine slashBefore_eq_some (by omega) (h.char_before hbefore) fun k hlo hhi hk => ?_
    obtain ⟨b, hb, hne⟩ := h.char_name (i := k - before.length) (by omega)
    rw [show before.length + (k - before.length) = k by omega, hk] at hb
    exact hne (Option.some.inj hb).symm
  have hback : ((before.length - 1 : Nat) : Int) + 1 = (before.length : Nat) := by omega
  have hlength := h.length
  rcases Nat.le_one_iff_eq_zero_or_eq_one.mp htrailing with rfl | rfl
  · obtain ⟨b, hb, hne⟩ := h.char_name (i := name.length - 1) (by omega)
    rw [generatePosition_noSlash (i := before.length + name.length - 1) (by omega)
      (by rw [← hb]; congr; omega) hne, hscan, Option.map_some, hback]
  · have hslash := h.char_trailing (i := 0) (by omega)
    rw [generatePosition_slash (i := before.length + name.length - 1) (by omega)
      (by rw [← hslash]; congr 1; omega), hscan, Option.map_some, hback]

/-- Without a slash before the component the scan leaves the string. -/
theorem generatePosition_nil (hbefore : before = []) (htrailing : trailing ≤ 1) :
    Ext2.generatePosition path = none := by
  subst hbefore
  have hpos := h.length_name
  have hscan : slashBefore path (name.length - 1) = none := by
    refine slashBefore_eq_none fun k hk hslash => ?_
    obtain ⟨b, hb, hne⟩ := h.char_name (i := k) (by omega)
    rw [List.length_nil, Nat.zero_add, hslash] at hb
    exact hne (Option.some.inj hb).symm
  have hlength := h.length
  rw [List.length_nil, Nat.zero_add] at hlength
  rcases Nat.le_one_iff_eq_zero_or_eq_one.mp htrailing with rfl | rfl
  · obtain ⟨b, hb, hne⟩ := h.char_name (i := name.length - 1) (by omega)
    rw [List.length_nil, Nat.zero_add] at hb
    rw [generatePosition_noSlash (i := name.length - 1) (by omega) hb hne, hscan, Option.map_none]
  · have hslash := h.char_trailing (i := 0) (by omega)
    rw [List.length_nil] at hslash
    rw [generatePosition_slash (i := name.length - 1) (by omega)
      (by rw [← hslash]; congr 1; omega), hscan, Option.map_none]

/-- Not all bytes are slashes. -/
theorem not_slashes : ¬ ∀ b ∈ path.bytes, b = slash := by
  intro hall
  obtain ⟨b, hb⟩ := List.exists_mem_of_ne_nil name h.nonempty
  have hslash := hall b (by
    rw [h.bytes]
    exact List.mem_append_left _ (List.mem_append_right _ hb))
  exact h.noSlash (hslash ▸ hb)

theorem trailing_le {before' name' : List UInt8} {trailing' : Nat}
    (h' : LastComponent path before' name' trailing') : trailing' ≤ trailing := by
  by_contra hlt
  have hlength := h.length
  have hlength' := h'.length
  have hpos := h.length_name
  -- The last byte of the name is one of the slashes after the other name.
  obtain ⟨b, hb, hne⟩ := h.char_name (i := name.length - 1) (by omega)
  have hslash := h'.char_trailing (i := trailing' - trailing - 1) (by omega)
  rw [show before'.length + name'.length + (trailing' - trailing - 1) =
    before.length + (name.length - 1) by omega, hb] at hslash
  exact hne (Option.some.inj hslash)

theorem length_before_le {before' name' : List UInt8} {trailing' : Nat}
    (h' : LastComponent path before' name' trailing') : before'.length ≤ before.length := by
  by_contra hlt
  have htrailing := Nat.le_antisymm (h.trailing_le h') (h'.trailing_le h)
  have hlength := h.length
  have hlength' := h'.length
  have hpos := h'.length_name
  -- The slash before the other name lies in the name.
  have hslash := h'.char_before (List.length_pos_iff.mp (by omega))
  obtain ⟨b, hb, hne⟩ := h.char_name (i := before'.length - 1 - before.length) (by omega)
  rw [show before.length + (before'.length - 1 - before.length) = before'.length - 1 by omega,
    hslash] at hb
  exact hne (Option.some.inj hb).symm

/-- A path has one last component. -/
theorem unique {before' name' : List UInt8} {trailing' : Nat}
    (h' : LastComponent path before' name' trailing') :
    before'.length = before.length ∧ name' = name := by
  have htrailing := Nat.le_antisymm (h.trailing_le h') (h'.trailing_le h)
  have hbefore := Nat.le_antisymm (h.length_before_le h') (h'.length_before_le h)
  have hlength := h.length
  have hlength' := h'.length
  have hslice := h'.slice
  rw [hbefore, show name'.length = name.length by omega, h.slice] at hslice
  exact ⟨hbefore, (Option.some.inj hslice).symm⟩

end LastComponent

/-- After two slashes an empty component is found, just before the second one. -/
theorem generatePosition_slashes (hlength : path.bytes.length = i + 2)
    (hlast : path.char (i + 1 : Nat) = some slash) (hprev : path.char i = some slash) :
    generatePosition path = some ⟨1, i, i + 1⟩ := by
  rw [generatePosition_slash hlength hlast,
    slashBefore_eq_some (Nat.le_refl i) hprev fun k hlt hle => absurd hle (by omega),
    Option.map_some]

/-! ## Which paths are delimited -/

theorem delimitsLast_of_component (h : LastComponent path before name trailing)
    (hbefore : before ≠ []) (htrailing : trailing ≤ 1) : DelimitsLast path := by
  refine ⟨_, h.generatePosition hbefore htrailing, fun before' name' trailing' h' => ?_,
    fun hall => absurd hall h.not_slashes⟩
  obtain ⟨hlength, rfl⟩ := h.unique h'
  have hpos := h.length_name
  have hcount : ((before.length + name'.length - 1 : Nat) : Int) - (before.length : Nat) + 1 =
      (name'.length : Nat) := by omega
  rw [hcount]
  exact ⟨by rw [hlength], h.slice⟩

theorem not_delimitsLast_of_slashes (hlength : path.bytes.length = i + 2)
    (hlast : path.char (i + 1 : Nat) = some slash) (hprev : path.char i = some slash) :
    ¬ DelimitsLast path := by
  rintro ⟨r, hr, hcomponent, hroot⟩
  obtain rfl := Option.some.inj ((generatePosition_slashes hlength hlast hprev).symm.trans hr)
  rcases exists_lastComponent path with hall | ⟨before, name, trailing, h⟩
  · have hspecial : (1 : Int) = -1 := congrArg ThreeIndices.anchor (hroot hall)
    exact absurd hspecial (by decide)
  · -- The index returned lies in the slashes after the component.
    obtain ⟨hfirst, -⟩ := hcomponent before name trailing h
    have hpos := h.length_name
    have hlength' := h.length
    simp only at hfirst
    obtain ⟨b, hb, hne⟩ := h.char_name (i := 0) hpos
    rw [Nat.add_zero, show before.length = i + 1 by omega, hlast] at hb
    exact hne (Option.some.inj hb).symm

/-- The last component is delimited exactly when there is a slash before it and at most one after
it; of the paths that are slashes, the root alone is told from the others. -/
theorem delimitsLast_iff (hpath : path.bytes ≠ []) : DelimitsLast path ↔ SlashesAround path := by
  constructor
  · intro hdelimits
    rcases exists_lastComponent path with hall | ⟨before, name, trailing, h⟩
    · refine .inl ?_
      have hchar : ∀ k < path.bytes.length, path.char (k : Nat) = some slash := fun k hk => by
        rw [CString.char_natCast, List.getElem?_append_left hk, List.getElem?_eq_getElem hk,
          hall _ (List.getElem_mem hk)]
      obtain ⟨n, hn⟩ := Nat.exists_eq_add_of_le' (List.length_pos_iff.mpr hpath)
      cases n with
      | zero =>
        obtain ⟨b, hb⟩ := List.length_eq_one_iff.mp hn
        rw [hb, hall b (hb ▸ List.mem_singleton_self b)]
      | succ n =>
        exact absurd hdelimits
          (not_delimitsLast_of_slashes hn (hchar _ (by omega)) (hchar n (by omega)))
    · have hlength := h.length
      have htrailing : trailing ≤ 1 := by
        by_contra hmany
        obtain ⟨k, rfl⟩ := Nat.exists_eq_add_of_le' (show 2 ≤ trailing by omega)
        exact not_delimitsLast_of_slashes (i := before.length + name.length + k) (by omega)
          (h.char_trailing (i := k + 1) (by omega)) (h.char_trailing (i := k) (by omega)) hdelimits
      refine .inr ⟨before, name, trailing, h, fun hnil => ?_, htrailing⟩
      obtain ⟨r, hr, -⟩ := hdelimits
      rw [h.generatePosition_nil hnil htrailing] at hr
      cases hr
  · rintro (hroot | ⟨before, name, trailing, h, hbefore, htrailing⟩)
    · refine ⟨⟨-1, -1, -1⟩, ?_, fun before name trailing h => ?_, fun _ => rfl⟩
      · simp [generatePosition, CString.char, hroot]
      · refine absurd (fun b hb => ?_) h.not_slashes
        rw [hroot] at hb
        exact List.mem_singleton.mp hb
    · exact delimitsLast_of_component h hbefore htrailing

/-- The path `/a/`. -/
def trailingPath : CString := ⟨[0x2f, 0x61, 0x2f], by decide⟩

theorem delimitsLast_trailing : DelimitsLast trailingPath := by
  have hlast : LastComponent trailingPath [slash] [0x61] 1 :=
    ⟨rfl, by decide, by decide, fun b hb => (Option.some.inj hb).symm⟩
  exact (delimitsLast_iff (by decide)).mpr
    (.inr ⟨[slash], [0x61], 1, hlast, by decide, Nat.le_refl 1⟩)

/-- For `/a//` an empty component is returned, and for `a` the scan leaves the string. -/
theorem not_delimitsLast : ¬ DelimitsLast ⟨[0x2f, 0x61, 0x2f, 0x2f], by decide⟩ ∧
    ¬ DelimitsLast ⟨[0x61], by decide⟩ := by
  constructor
  · exact not_delimitsLast_of_slashes (i := 2) rfl rfl rfl
  · rintro ⟨r, hr, -⟩
    cases hr

end OsAssignments.Ext2
