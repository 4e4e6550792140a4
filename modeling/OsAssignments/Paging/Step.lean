import OsAssignments.Paging.Serve

/-!
# One step of a simulation

`find_physpage` walks the page tables, serves the access and tells the replacement
algorithm; `access_mem` then checks and updates the page. This file states what one
access does to a state that satisfies the invariant.
-/

namespace OsAssignments.Paging

open Pager (Move)

variable {σ : Type} {env : Env} {P : Policy σ} {s t u : Sim σ} {p : PtePtr}
  {vaddr : BitVec 64} {type : Char}

/-! ## Walking the page tables -/

/-- The entry that the indices of an address name. -/
def pteOf (vaddr : BitVec 64) : PtePtr :=
  ⟨Fin.ofNat ptrsPerPgdir (pgdirIndex vaddr).toNat, Fin.ofNat ptrsPerPgtbl (pgtblIndex vaddr).toNat⟩

/-- Between two states only unused second-level tables were added. -/
structure Tabled (s t : Sim σ) : Prop where
  old : ∀ x e, s.entry x = some e → t.entry x = some e
  new : ∀ x e, t.entry x = some e →
    s.entry x = some e ∨ s.entry x = none ∧ e.frame = 0#32 ∧ e.swapOff = invalidSwap
  rest : t = { s with pgdir := t.pgdir }

theorem Tabled.refl (s : Sim σ) : Tabled s s := ⟨fun _ _ h => h, fun _ _ h => .inl h, rfl⟩

theorem Tabled.status_eq (h : Tabled s t) : t.status = s.status := by
  funext x
  cases he : t.entry x with
  | some e =>
    rw [Sim.status_of_entry he]
    rcases h.new x e he with hs | ⟨hs, hframe, hoff⟩
    · rw [Sim.status_of_entry hs]
    · simp [Sim.status, hs, PgtblEntry.status, PgtblEntry.valid, PgtblEntry.dirty,
        PgtblEntry.onswap, PgtblEntry.slot, hframe, hoff]
  | none =>
    cases hs : s.entry x with
    | none => simp only [Sim.status, he, hs]
    | some e =>
      rw [h.old x e hs] at he
      cases he

theorem Tabled.pager_eq (h : Tabled s t) : t.pager = s.pager := by
  have hst := h.status_eq
  rw [h.rest] at hst ⊢
  exact Pager.ext hst rfl rfl rfl rfl

theorem Tabled.good (hs : Good s) (h : Tabled s t) : Good t := by
  refine ⟨hs.toBooked.congr (by rw [h.rest]) (by rw [h.rest]) (fun x => by rw [h.status_eq]) ?_,
    h.pager_eq ▸ hs.inv, ?_, ?_⟩
  · intro x e he
    rcases h.new x e he with hx | ⟨_, _, hoff⟩
    · exact .inr ⟨e, hx, rfl⟩
    · exact .inl hoff
  · rw [h.rest]; exact hs.used
  · rw [h.rest]; exact hs.pte

theorem initSecondLevel_ok {dir : Fin ptrsPerPgdir} (hdir : s.pgdir dir = none)
    (h : initSecondLevel env dir s = .ok () t) :
    Tabled s t ∧ ∀ x : PtePtr, x.dir = dir → ∃ e, t.entry x = some e := by
  unfold initSecondLevel at h
  cases htab : env.tables dir with
  | none =>
    rw [htab] at h
    cases h
  | some vaddrs =>
    rw [htab] at h
    cases h
    refine ⟨⟨?_, ?_, rfl⟩, ?_⟩
    · intro x e he
      have hx : x.dir ≠ dir := by
        rintro rfl
        simp [Sim.entry, hdir] at he
      simpa [Sim.entry, Function.update_of_ne hx] using he
    · intro x e he
      by_cases hx : x.dir = dir
      · right
        subst hx
        simp only [Sim.entry, Function.update_self, Option.map_some, Option.some.injEq] at he
        subst he
        exact ⟨by simp [Sim.entry, hdir], rfl, rfl⟩
      · left
        simpa [Sim.entry, Function.update_of_ne hx] using he
    · rintro x rfl
      exact ⟨_, by simp [Sim.entry]; rfl⟩

/-- The walk finds the entry of the address in a table that exists afterwards. -/
theorem walk_ok (h : walk env vaddr s = .ok p t) :
    (pgdirIndex vaddr).toNat < ptrsPerPgdir ∧ p = pteOf vaddr ∧ (∃ e, t.entry p = some e) ∧
      Tabled s t := by
  unfold walk at h
  split at h
  · rename_i hlt
    have hdir : (⟨(pgdirIndex vaddr).toNat, hlt⟩ : Fin ptrsPerPgdir) = (pteOf vaddr).dir :=
      Fin.ext (Nat.mod_eq_of_lt hlt).symm
    simp only [hdir] at h
    refine ⟨hlt, ?_⟩
    split at h
    · rename_i tab htab
      cases h
      refine ⟨rfl, ⟨tab (pteOf vaddr).tbl, ?_⟩, .refl s⟩
      simp only [Sim.entry, htab, Option.map_some]
      rfl
    · rename_i hnone
      rw [Program.bind_ok] at h
      obtain ⟨_, v, hinit, h⟩ := h
      cases h
      obtain ⟨htabled, hentry⟩ := initSecondLevel_ok hnone hinit
      exact ⟨rfl, hentry _ rfl, htabled⟩
  · cases h

/-! ## Finding the page -/

/-- An access found its page valid, or had to bring it in. -/
theorem Good.makeResident (hs : Good s) (hP : P.OnlyRef) {e : PgtblEntry}
    (he : s.entry p = some e) (h : makeResident env P p vaddr s = .ok () u)
    (ht : markAccessed p vaddr type u = .ok () t) :
    ∃ m c, Served env s p vaddr type m c t ∧ Consulted P s m t := by
  rw [Paging.makeResident, readPte_bind he] at h
  by_cases hv : e.frame &&& pgValid = 0#32
  · rw [if_neg (not_not.mpr hv)] at h
    obtain ⟨m, c, _, hserved⟩ :=
      hs.served_miss hP he (PgtblEntry.and_pgValid_eq_zero_iff.mp hv) h ht
    exact ⟨m, c, hserved⟩
  · rw [if_pos hv] at h
    cases h
    rw [PgtblEntry.and_pgValid_eq_zero_iff, Bool.not_eq_false] at hv
    obtain rfl := markAccessed_ok (s := { s with hitCount := countUp s.hitCount }) he ht
    exact ⟨.hit e.number, [], served_hit hs he hv [], .kept rfl (fun _ => ⟨_, rfl⟩) rfl⟩

/-- Counting a reference. -/
def Sim.counted (s : Sim σ) : Sim σ := { s with refCount := countUp s.refCount }

theorem Good.counted (hs : Good s) : Good s.counted :=
  ⟨⟨hs.sized, hs.offset, hs.owned, hs.stored⟩, hs.inv, hs.used, hs.pte⟩

/-- New tables before an access do not show in its effect. -/
theorem Served.of_tabled {m : Move PtePtr} {c : List UInt8} (h : Tabled s u)
    (hu : Served env u p vaddr type m c t) : Served env s p vaddr type m c t := by
  have hstatus := h.status_eq
  have hpager := h.pager_eq
  have hpages : u.pages = s.pages := by rw [h.rest]; rfl
  refine ⟨hpager ▸ hu.enabled, hu.good, hpager ▸ hu.pager, ?_, ?_, hstatus ▸ hu.fresh,
    hstatus ▸ hpager ▸ hu.paged, ?_, ?_, ?_⟩
  · rw [hu.counters, h.rest]
    rfl
  · rw [hu.history]
    have harr : u.arrivals p c m = s.arrivals p c m := by
      cases m <;> simp only [Sim.arrivals, hstatus]
    have hev : u.evictions m = s.evictions m := by
      rw [Sim.evictions, Sim.evictions, Sim.pageouts_congr hpager, hpages]
    have hhist : u.history = s.history := by rw [h.rest]
    rw [harr, hev, hhist]
  · rw [hu.nbits, h.rest]
  · rw [hu.memsize, h.rest]
  · rw [hu.refCount, h.rest]

/-- The replacement algorithm's bookkeeping after an access does not show in its effect. -/
theorem Served.of_changesOnlyRef {m : Move PtePtr} {c : List UInt8}
    (hu : Served env s p vaddr type m c u) (h : ChangesOnlyRef u t) :
    Served env s p vaddr type m c t where
  enabled := hu.enabled
  good := hu.good.of_changesOnlyRef h
  pager := h.pager_eq.trans hu.pager
  counters := by
    rw [← hu.counters, h.rest]
    rfl
  history := h.history_eq.trans hu.history
  fresh := hu.fresh
  paged := hu.paged
  nbits := by rw [← hu.nbits, h.rest]
  memsize := h.memsize_eq.trans hu.memsize
  refCount := by rw [← hu.refCount, h.rest]

/-- The page of a served access is in the frame of the move. -/
theorem Served.home {m : Move PtePtr} {c : List UInt8} (h : Served env s p vaddr type m c t) :
    (t.status p).home = some m.frame := by
  have hst := congrArg (fun A => (A.status p).home) h.pager
  refine hst.trans ?_
  simp only [Pager.status_touch, ite_true]
  exact Pager.home_serve h.enabled c

/-- The part of `find_physpage` before the call of `ref_fcn`, with the entry of that call. -/
def beforeRef (env : Env) (P : Policy σ) (vaddr : BitVec 64) (type : Char) : SimM σ PtePtr := do
  modify fun s => { s with refCount := countUp s.refCount }
  let p ← walk env vaddr
  makeResident env P p vaddr
  markAccessed p vaddr type
  pure p

theorem findPhyspage_eq (env : Env) (P : Policy σ) (vaddr : BitVec 64) (type : Char) :
    findPhyspage env P vaddr type = (do
      let p ← beforeRef env P vaddr type
      P.ref p
      let e ← readPte p
      pure ((e.frame >>> pageShift).toNat * simPageSize)) := by
  simp only [findPhyspage, beforeRef, bind_assoc, pure_bind]

theorem beforeRef_ok : beforeRef env P vaddr type s = .ok p t ↔
    ∃ u v, walk env vaddr s.counted = .ok p u ∧ makeResident env P p vaddr u = .ok () v ∧
      markAccessed p vaddr type v = .ok () t := by
  rw [beforeRef, Program.modify_bind, Program.bind_ok]
  constructor
  · rintro ⟨q, u, hwalk, h⟩
    rw [Program.bind_ok] at h
    obtain ⟨_, v, hresident, h⟩ := h
    rw [Program.bind_ok] at h
    obtain ⟨_, w, hmark, h⟩ := h
    cases h
    exact ⟨u, v, hwalk, hresident, hmark⟩
  · rintro ⟨u, v, hwalk, hresident, hmark⟩
    refine ⟨p, u, hwalk, ?_⟩
    rw [Program.bind_of_ok hresident, Program.bind_of_ok hmark]
    rfl

/-- When the replacement algorithm is told of the access, its page is in the frame of the move. -/
theorem Good.beforeRef (hs : Good s) (hP : P.OnlyRef)
    (h : beforeRef env P vaddr type s = .ok p t) :
    (pgdirIndex vaddr).toNat < ptrsPerPgdir ∧ p = pteOf vaddr ∧ ∃ m c,
      Served env s.counted (pteOf vaddr) vaddr type m c t ∧ Consulted P s m t ∧
        (t.status (pteOf vaddr)).home = some m.frame := by
  obtain ⟨s₁, s₂, hwalk, hresident, hmark⟩ := beforeRef_ok.mp h
  obtain ⟨hlt, rfl, ⟨e, he⟩, htabled⟩ := walk_ok hwalk
  have hs₁ : Good s₁ := htabled.good hs.counted
  obtain ⟨m, c, hserved, hcons⟩ := hs₁.makeResident hP he hresident hmark
  have hcons₀ : Consulted P s m t :=
    hcons.of_start (by rw [htabled.rest]; rfl) (by rw [htabled.rest]; rfl)
      (by rw [htabled.rest]; rfl)
  exact ⟨hlt, rfl, m, c, hserved.of_tabled htabled, hcons₀, hserved.home⟩

/-- A successful `find_physpage` serves the access and returns the frame of its page. -/
theorem Good.findPhyspage (hs : Good s) (hP : P.OnlyRef) {memptr : Nat}
    (h : findPhyspage env P vaddr type s = .ok memptr t) :
    (pgdirIndex vaddr).toNat < ptrsPerPgdir ∧ ∃ m c v, memptr = m.frame * simPageSize ∧
      Served env s.counted (pteOf vaddr) vaddr type m c t ∧ Consulted P s m v ∧
        (v.status (pteOf vaddr)).home = some m.frame ∧ P.ref (pteOf vaddr) v = .ok () t := by
  rw [findPhyspage_eq, Program.bind_ok] at h
  obtain ⟨p, s₃, hbefore, h⟩ := h
  obtain ⟨hlt, rfl, m, c, hserved, hcons₀, hhome₃⟩ := hs.beforeRef hP hbefore
  rw [Program.bind_ok] at h
  obtain ⟨_, s₄, href, h⟩ := h
  rw [Program.bind_ok] at h
  obtain ⟨e', s₅, hread, h⟩ := h
  obtain ⟨hentry, rfl⟩ := readPte_ok.mp hread
  cases h
  have hserved := hserved.of_changesOnlyRef ((hP.ref _).of_ok href)
  refine ⟨hlt, m, c, s₃, ?_, hserved, hcons₀, hhome₃, href⟩
  -- The entry read at the end is valid and names the frame of the move.
  have hhome : (t.status (pteOf vaddr)).home = some m.frame := hserved.home
  rw [← Sim.number_of_home hentry hhome]
  rfl

/-! ## The whole access -/

/-- The effect of one access: it is served, its page is checked and then perhaps written. -/
structure Accessed (env : Env) (s : Sim σ) (a : Access) (m : Move PtePtr) (c : List UInt8)
    (u t : Sim σ) : Prop where
  served : Served env s.counted (pteOf a.vaddr) a.vaddr a.type m c u
  good : Good t
  pager : t.pager = if isWrite a.type then u.pager.put m.frame (bump (u.pager.frame m.frame))
    else u.pager
  history : t.history = (if address (u.pager.frame m.frame) = a.vaddr.toNat then []
    else [.wrongContent a.vaddr]) ++ u.history
  rest : t = { u with physmem := t.physmem, history := t.history }

theorem checkContent_ok {memptr : Nat} (h : checkContent memptr vaddr s = .ok () t) :
    t.history = (if s.physmem.load (memptr + 4) 8 = vaddr.toNat then []
      else [.wrongContent vaddr]) ++ s.history ∧ t = { s with history := t.history } := by
  rw [checkContent, Program.get_bind] at h
  by_cases hload : s.physmem.load (memptr + 4) 8 = vaddr.toNat
  · rw [if_neg (not_not.mpr hload)] at h
    cases h
    exact ⟨by rw [if_pos hload]; rfl, rfl⟩
  · rw [if_pos hload] at h
    cases h
    exact ⟨by rw [if_neg hload]; rfl, rfl⟩

/-- One successful access from a state that satisfies the invariant. -/
theorem Good.accessMem (hs : Good s) (hP : P.OnlyRef) {a : Access}
    (h : accessMem env P a s = .ok () t) :
    (pgdirIndex a.vaddr).toNat < ptrsPerPgdir ∧ ∃ m c u,
      Paging.findPhyspage env P a.vaddr a.type s = .ok (m.frame * simPageSize) u ∧
      Accessed env s a m c u t := by
  rw [Paging.accessMem, Program.bind_ok] at h
  obtain ⟨memptr, u, hfind, h⟩ := h
  obtain ⟨hlt, m, c, _, rfl, hserved, _⟩ := hs.findPhyspage hP hfind
  rw [Program.get_bind] at h
  by_cases hroom : m.frame * simPageSize + simPageSize ≤ u.physmemSize
  · rw [if_pos hroom, Program.bind_ok] at h
    obtain ⟨_, v, hcheck, h⟩ := h
    obtain ⟨hhist, hv⟩ := checkContent_ok hcheck
    rw [load_address] at hhist
    refine ⟨hlt, m, c, u, hfind, ?_⟩
    unfold countWrite at h
    by_cases hw : isWrite a.type
    · rw [if_pos hw] at h
      cases h
      have hpager : Sim.pager { v with
          physmem := v.physmem.store (m.frame * simPageSize) 4
            (v.physmem.load (m.frame * simPageSize) 4 + 1) } =
            u.pager.put m.frame (bump (u.pager.frame m.frame)) := by
        rw [hv]
        refine Pager.ext rfl rfl ?_ rfl rfl
        change (fun g => Memory.bytes _ (g * simPageSize) simPageSize) = Function.update _ _ _
        rw [frame_eq_update (f := m.frame) (m := u.physmem)]
        · rw [bytes_countWrite]
          rfl
        · intro i hi
          exact Memory.store_apply_of_outside (by simp only [simPageSize] at hi ⊢; omega)
      refine ⟨hserved, ?_, ?_, hhist, ?_⟩
      · have hg := hserved.good
        refine ⟨?_, ?_, ?_, ?_⟩
        · rw [hv]; exact ⟨hg.sized, hg.offset, hg.owned, hg.stored⟩
        · exact hpager ▸ hg.inv.put _ _
        · rw [hv]; exact hg.used
        · rw [hv]; exact hg.pte
      · rw [if_pos hw]
        exact hpager
      · rw [hv]
    · rw [if_neg hw] at h
      cases h
      refine ⟨hserved, ?_, ?_, hhist, ?_⟩
      · have hg := hserved.good
        rw [hv]
        exact ⟨⟨hg.sized, hg.offset, hg.owned, hg.stored⟩, hg.inv, hg.used, hg.pte⟩
      · rw [if_neg hw, hv]
        rfl
      · rw [hv]
  · rw [if_neg hroom] at h
    cases h

end OsAssignments.Paging
