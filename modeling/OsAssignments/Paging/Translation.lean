import OsAssignments.Paging.Contents

/-!
# Which entry an address leads to

`find_physpage` splits the address into a directory index, which is shifted and narrowed to 32
bits but not masked, and a table index, which is masked. The directory index is in range when the
bits 36 to 55 of the address are zero; the bits above them are cut off.
-/

namespace OsAssignments.Paging

variable {σ : Type} {env : Env} {s : Sim σ} {p : PtePtr} {vaddr v w : BitVec 64}

/-! ## The walk -/

/-- The walk returns when the directory index is in range and the table exists or can be made. -/
theorem walk_returns_iff : (∃ t, walk env vaddr s = .ok p t) ↔
    (pgdirIndex vaddr).toNat < ptrsPerPgdir ∧ p = pteOf vaddr ∧
      ((s.pgdir p.dir).isSome ∨ (env.tables p.dir).isSome) := by
  rw [walk]
  by_cases hlt : (pgdirIndex vaddr).toNat < ptrsPerPgdir
  · have hdir : (⟨(pgdirIndex vaddr).toNat, hlt⟩ : Fin ptrsPerPgdir) = (pteOf vaddr).dir :=
      Fin.ext (Nat.mod_eq_of_lt hlt).symm
    rw [dif_pos hlt]
    simp only [hdir]
    cases hdirectory : s.pgdir (pteOf vaddr).dir with
    | some table =>
      constructor
      · rintro ⟨t, h⟩
        cases h
        exact ⟨hlt, rfl, .inl (Option.isSome_iff_exists.mpr ⟨table, hdirectory⟩)⟩
      · rintro ⟨-, rfl, -⟩
        exact ⟨s, rfl⟩
    | none =>
      constructor
      · rintro ⟨t, h⟩
        rw [Program.bind_ok] at h
        obtain ⟨_, u, hinit, h⟩ := h
        cases h
        refine ⟨hlt, rfl, .inr ?_⟩
        rw [initSecondLevel] at hinit
        change (env.tables (pteOf vaddr).dir).isSome = true
        cases htable : env.tables (pteOf vaddr).dir with
        | some vaddrs => rfl
        | none =>
          rw [htable] at hinit
          cases hinit
      · rintro ⟨-, rfl, htable⟩
        rw [hdirectory] at htable
        obtain ⟨vaddrs, htable⟩ := Option.isSome_iff_exists.mp (htable.resolve_left (by decide))
        have hinit : ∃ u, (initSecondLevel env (pteOf vaddr).dir : SimM σ Unit) s = .ok () u := by
          rw [initSecondLevel, htable]
          exact ⟨_, rfl⟩
        obtain ⟨u, hu⟩ := hinit
        exact ⟨u, Program.bind_of_ok hu⟩
  · rw [dif_neg hlt]
    constructor
    · rintro ⟨t, h⟩
      cases h
    · rintro ⟨hlt', -⟩
      exact absurd hlt' hlt

/-- In every state in which the table can be made, the walk leads from the address to the entry. -/
def Reaches (vaddr : BitVec 64) (p : PtePtr) : Prop :=
  ∀ (σ : Type) (env : Env) (s : Sim σ), (env.tables p.dir).isSome →
    ∃ t, walk env vaddr s = .ok p t

theorem reaches_iff : Reaches vaddr p ↔
    (pgdirIndex vaddr).toNat < ptrsPerPgdir ∧ p = pteOf vaddr := by
  constructor
  · intro h
    have hreturns := h Unit ⟨fun _ => ⟨true, simPageSize⟩, fun _ => some fun _ => 0#64⟩
      (Sim.start 0 (fun _ => 0) ()) rfl
    obtain ⟨hlt, hp, -⟩ := walk_returns_iff.mp hreturns
    exact ⟨hlt, hp⟩
  · rintro ⟨hlt, rfl⟩ σ env s htable
    exact walk_returns_iff.mpr ⟨hlt, rfl, .inr htable⟩

/-! ## The indices -/

/-- Both indices of two addresses are in range, and the addresses lead to one entry exactly when
they lie in one page. -/
structure Translates (v w : BitVec 64) : Prop where
  dir : (pgdirIndex v).toNat < ptrsPerPgdir ∧ (pgdirIndex w).toNat < ptrsPerPgdir
  tbl : (pgtblIndex v).toNat < ptrsPerPgtbl ∧ (pgtblIndex w).toNat < ptrsPerPgtbl
  same : (∃ p, Reaches v p ∧ Reaches w p) ↔ pageOf v = pageOf w

/-- The bits 36 to 55 of both addresses are zero, and the bits above differ at most where the bits
12 to 35 differ. -/
def InTables (v w : BitVec 64) : Prop :=
  v.toNat / 2 ^ 36 % 2 ^ 20 = 0 ∧ w.toNat / 2 ^ 36 % 2 ^ 20 = 0 ∧
    (v.toNat / 2 ^ 12 % 2 ^ 24 = w.toNat / 2 ^ 12 % 2 ^ 24 → v.toNat / 2 ^ 56 = w.toNat / 2 ^ 56)

theorem pgtblIndex_lt (vaddr : BitVec 64) : (pgtblIndex vaddr).toNat < ptrsPerPgtbl := by
  rw [toNat_pgtblIndex]
  exact Nat.mod_lt _ (by decide)

theorem pgdirIndex_lt_iff (vaddr : BitVec 64) : (pgdirIndex vaddr).toNat < ptrsPerPgdir ↔
    vaddr.toNat / 2 ^ 36 % 2 ^ 20 = 0 := by
  rw [toNat_pgdirIndex, ptrsPerPgdir]
  omega

/-- The tables are made for addresses of 36 bits. -/
theorem inTables_of_lt (hv : v.toNat < 2 ^ 36) (hw : w.toNat < 2 ^ 36) : InTables v w := by
  rw [InTables]
  omega

/-- Translation is in range and tells the pages apart exactly for addresses in the tables. -/
theorem translates_iff (v w : BitVec 64) : Translates v w ↔ InTables v w := by
  have hsame (hv : (pgdirIndex v).toNat < ptrsPerPgdir)
      (hw : (pgdirIndex w).toNat < ptrsPerPgdir) : (∃ p, Reaches v p ∧ Reaches w p) ↔
        v.toNat / 2 ^ 12 % 2 ^ 24 = w.toNat / 2 ^ 12 % 2 ^ 24 := by
    rw [← pteOf_eq_iff_mod]
    constructor
    · rintro ⟨p, hp, hp'⟩
      exact (reaches_iff.mp hp).2.symm.trans (reaches_iff.mp hp').2
    · intro heq
      exact ⟨pteOf v, reaches_iff.mpr ⟨hv, rfl⟩, reaches_iff.mpr ⟨hw, heq⟩⟩
  constructor
  · rintro ⟨⟨hv, hw⟩, -, hpages⟩
    rw [hsame hv hw, pageOf_eq_iff] at hpages
    refine ⟨(pgdirIndex_lt_iff v).mp hv, (pgdirIndex_lt_iff w).mp hw, fun heq => ?_⟩
    have hpage := hpages.mp heq
    omega
  · rintro ⟨hv, hw, htop⟩
    have hv' := (pgdirIndex_lt_iff v).mpr hv
    have hw' := (pgdirIndex_lt_iff w).mpr hw
    refine ⟨⟨hv', hw'⟩, ⟨pgtblIndex_lt v, pgtblIndex_lt w⟩, ?_⟩
    rw [hsame hv' hw', pageOf_eq_iff]
    omega

/-- The address `1000000000` (hexadecimal) has a directory index behind the last one. -/
theorem not_translates : ¬ Translates 0x1000000000#64 0x1000000000#64 := fun h =>
  absurd h.dir.1 (by decide)

end OsAssignments.Paging
