import Mathlib.Order.Interval.Set.Basic
import OsAssignments.Paging.Coremap

/-!
# Clock replacement

Translation of `clock.c`. The hand sweeps over the frames, takes the reference bit from
the pages it passes and stops at the first page without one. At the end of memory the
hand is reset and advanced in the same round, so frame 0 is passed over after a wrap.
-/

namespace OsAssignments.Paging

variable {σ : Type} {env : Env} {swapsize : BitVec 32} {memsize : Nat} {physmem : Memory}
  {s t u : Sim Nat} {v : Nat}

/-- The rounds of the loop of `clock_evict`; the data is the hand `clock`. -/
def clockSweep : Nat → SimM Nat Nat
  | 0 => Program.stop .loop
  | fuel + 1 => do
    let s ← get
    if s.alg < s.memsize then
      let p ← Program.require .undefined (s.coremap s.alg).pte
      let e ← readPte p
      if e.frame &&& pgRef ≠ 0#32 then
        writePte p { e with frame := e.frame &&& ~~~pgRef }
        modify fun s => s.withAlg (s.alg + 1)
        clockSweep fuel
      else pure s.alg
    else
      modify fun s => s.withAlg 0
      modify fun s => s.withAlg (s.alg + 1)
      clockSweep fuel

/-- A sweep that has not ended after `memsize + 2` rounds never ends. -/
def clockEvict : SimM Nat Nat := fun s => clockSweep (s.memsize + 2) s

def clockRef (p : PtePtr) : SimM Nat Unit := do
  let e ← readPte p
  writePte p { e with frame := e.frame ||| pgRef }

def clockInit : SimM Nat Unit := modify fun s => s.withAlg 0

def clock : Policy Nat := ⟨clockInit, clockRef, clockEvict⟩

/-! ## Reference bits -/

namespace PgtblEntry

def referenced (e : PgtblEntry) : Bool := e.frame.getLsbD 2

/-- The entry without its reference bit. -/
def unreferenced (e : PgtblEntry) : PgtblEntry := { e with frame := e.frame &&& ~~~pgRef }

theorem and_pgRef_eq_zero_iff {e : PgtblEntry} :
    e.frame &&& pgRef = 0#32 ↔ e.referenced = false := by
  rw [pgRef_eq, Bits.and_mask_eq_zero_iff (by decide), referenced]

@[simp] theorem referenced_unreferenced (e : PgtblEntry) : e.unreferenced.referenced = false := by
  simp [unreferenced, referenced, pgRef_eq]

@[simp] theorem unreferenced_unreferenced (e : PgtblEntry) :
    e.unreferenced.unreferenced = e.unreferenced := by
  have hframe : (e.frame &&& ~~~pgRef) &&& ~~~pgRef = e.frame &&& ~~~pgRef := by
    rw [BitVec.and_assoc, BitVec.and_self]
  simp only [unreferenced, hframe]

/-- Setting or clearing the reference bit changes nothing else. -/
theorem sameButRef_unreferenced (e : PgtblEntry) : e.SameButRef e.unreferenced := by
  refine ⟨?_, rfl, rfl⟩
  apply BitVec.eq_of_getLsbD_eq
  intro i _
  simp only [unreferenced, pgRef_eq, Bits.getLsbD_or_mask (show 2 < 32 by decide),
    Bits.getLsbD_and_not_mask (show 2 < 32 by decide)]
  by_cases hi : 2 = i <;> simp [hi]

theorem sameButRef_referenced (e : PgtblEntry) :
    e.SameButRef { e with frame := e.frame ||| pgRef } := by
  refine ⟨?_, rfl, rfl⟩
  rw [BitVec.or_assoc, BitVec.or_self]

end PgtblEntry

theorem readPte_error {s : Sim σ} {p : PtePtr} (he : s.entry p = none) :
    readPte p s = .error .undefined s := by
  rw [readPte, he]

/-- Replacing an entry by one that differs in the reference bit. -/
theorem ChangesOnlyRef.setEntry {s : Sim σ} {p : PtePtr} {e e' : PgtblEntry}
    (he : s.entry p = some e) (h : e.SameButRef e') : ChangesOnlyRef s (s.setEntry p e') where
  entry q := by
    by_cases hq : q = p
    · subst hq
      rw [he, Sim.entry_setEntry_same he]
      exact .some h
    · rw [Sim.entry_setEntry_ne hq]
      exact (ChangesOnlyRef.refl s).entry q
  frame _ := ⟨rfl, rfl⟩
  rest := rfl

/-! ## The rounds of the loop -/

/-- The entry of the page in a frame. -/
def Sim.entryAt (s : Sim σ) (i : Nat) : Option PgtblEntry := (s.coremap i).pte.bind s.entry

/-- Whether the page in a frame has its reference bit set. -/
def Sim.referenced (s : Sim σ) (i : Nat) : Bool := (s.entryAt i).any PgtblEntry.referenced

/-- A round that finds the hand past the end of memory. -/
theorem clockSweep_wrap (h : s.memsize ≤ s.alg) (fuel : Nat) :
    clockSweep (fuel + 1) s = clockSweep fuel (s.withAlg 1) := by
  rw [clockSweep, Program.get_bind, if_neg (by omega), Program.modify_bind, Program.modify_bind]
  rfl

/-- A round that looks at the page of a frame. -/
theorem clockSweep_look {p : PtePtr} {e : PgtblEntry} (h : s.alg < s.memsize)
    (hp : (s.coremap s.alg).pte = some p) (he : s.entry p = some e) (fuel : Nat) :
    clockSweep (fuel + 1) s =
      if e.referenced then clockSweep fuel ((s.setEntry p e.unreferenced).withAlg (s.alg + 1))
      else .ok s.alg s := by
  rw [clockSweep, Program.get_bind, if_pos h, Program.require_bind hp, readPte_bind he]
  cases hr : e.referenced with
  | true =>
    rw [if_pos (by rw [ne_eq, PgtblEntry.and_pgRef_eq_zero_iff, hr]; decide), writePte_bind,
      Program.modify_bind]
    rfl
  | false =>
    rw [if_neg (by rw [ne_eq, not_not, PgtblEntry.and_pgRef_eq_zero_iff, hr])]
    rfl

/-- A round stops at a missing page, returns the hand, or moves on. -/
theorem clockSweep_cases (s : Sim Nat) :
    (∀ fuel, clockSweep (fuel + 1) s = .error .undefined s) ∨
      (∀ fuel, clockSweep (fuel + 1) s = .ok s.alg s) ∨
      ∃ t, ChangesOnlyRef s t ∧ ∀ fuel, clockSweep (fuel + 1) s = clockSweep fuel t := by
  by_cases h : s.alg < s.memsize
  · cases hp : (s.coremap s.alg).pte with
    | none =>
      refine .inl fun fuel => ?_
      rw [clockSweep, Program.get_bind, if_pos h, hp]
      rfl
    | some p =>
      cases he : s.entry p with
      | none =>
        refine .inl fun fuel => ?_
        rw [clockSweep, Program.get_bind, if_pos h, Program.require_bind hp,
          Program.bind_error.mpr (.inl (readPte_error he))]
      | some e =>
        simp only [clockSweep_look h hp he]
        split
        · exact .inr (.inr ⟨_, (ChangesOnlyRef.setEntry he e.sameButRef_unreferenced).trans
            (.of_alg _ _), fun _ => rfl⟩)
        · exact .inr (.inl fun _ => rfl)
  · exact .inr (.inr ⟨_, .of_alg s 1, clockSweep_wrap (by omega)⟩)

theorem ownData_clockSweep (fuel : Nat) : OwnData (clockSweep fuel) := by
  induction fuel with
  | zero => exact fun s => .refl s
  | succ fuel ih =>
    intro s
    rcases clockSweep_cases s with h | h | ⟨t, ht, h⟩
    · rw [h]
      exact .refl s
    · rw [h]
      exact .refl s
    · rw [h]
      exact ht.trans (ih t)

theorem clock_onlyRef : clock.OnlyRef where
  init s := .of_alg s 0
  ref p s := by
    change ChangesOnlyRef s (Program.final (clockRef p s))
    cases he : s.entry p with
    | none =>
      rw [clockRef, Program.bind_error.mpr (.inl (readPte_error he))]
      exact .refl s
    | some e =>
      rw [clockRef, readPte_bind he]
      exact .setEntry he e.sameButRef_referenced
  evict s := ownData_clockSweep (s.memsize + 2) s

/-- A sweep that ends is not changed by more fuel. -/
theorem clockSweep_add {fuel : Nat} (h : clockSweep fuel s = .ok v t) (k : Nat) :
    clockSweep (fuel + k) s = .ok v t := by
  induction fuel generalizing s with
  | zero => cases h
  | succ fuel ih =>
    rw [Nat.add_right_comm]
    rcases clockSweep_cases s with hround | hround | ⟨u, _, hround⟩
    · rw [hround] at h
      cases h
    · rw [hround] at h ⊢
      exact h
    · rw [hround] at h ⊢
      exact ih h

/-- Two sweeps that end do so alike. -/
theorem clockSweep_unique {fuel fuel' v' : Nat} {t' : Sim Nat} (h : clockSweep fuel s = .ok v t)
    (h' : clockSweep fuel' s = .ok v' t') : v = v' ∧ t = t' := by
  have hadd := clockSweep_add h' fuel
  rw [Nat.add_comm, clockSweep_add h fuel'] at hadd
  exact EStateM.Result.ok.inj hadd

/-! ## Frames that lose their reference bit -/

/-- Every frame is in use and holds a page, and different frames hold different pages. -/
structure FullMemory (s : Sim σ) : Prop where
  page : ∀ i, i < s.memsize → (s.coremap i).inUse = true ∧
    ∃ p e, (s.coremap i).pte = some p ∧ s.entry p = some e
  inj : ∀ i j, i < s.memsize → j < s.memsize → (s.coremap i).pte = (s.coremap j).pte → i = j

/-- With no free frame the memory of a simulation is full. -/
theorem Good.fullMemory {s : Sim σ} (hs : Good s) (hfull : s.freeFrame = none) :
    FullMemory s where
  page i hi := by
    have hin := Good.inUse_of_freeFrame_none hfull hi
    obtain ⟨p, hp, hholder⟩ := hs.holder_of_inUse hin
    obtain ⟨e, he, _⟩ := hs.entry_of_holder hholder
    exact ⟨hin, p, e, hp, he⟩
  inj i j hi hj hij := by
    obtain ⟨p, hp, hholder⟩ := hs.holder_of_inUse (Good.inUse_of_freeFrame_none hfull hi)
    obtain ⟨q, hq, hholder'⟩ := hs.holder_of_inUse (Good.inUse_of_freeFrame_none hfull hj)
    obtain rfl : p = q := by
      rw [hp, hq] at hij
      exact Option.some.inj hij
    exact Option.some.inj (((hs.inv.home_iff p i).mpr hholder).symm.trans
      ((hs.inv.home_iff p j).mpr hholder'))

theorem FullMemory.entryAt {s : Sim σ} (hs : FullMemory s) {i : Nat} (hi : i < s.memsize) :
    ∃ p e, (s.coremap i).pte = some p ∧ s.entry p = some e ∧ s.referenced i = e.referenced := by
  obtain ⟨_, p, e, hp, he⟩ := hs.page i hi
  refine ⟨p, e, hp, he, ?_⟩
  simp only [Sim.referenced, Sim.entryAt, hp, Option.bind_some, he, Option.any_some]

/-- From one state to the next the pages of these frames lose their reference bit and
no other entry changes. -/
structure Swept (A : Set Nat) (s t : Sim σ) : Prop where
  rest : t = { s with pgdir := t.pgdir, alg := t.alg }
  lost : ∀ i p e, i < s.memsize → i ∈ A → (s.coremap i).pte = some p → s.entry p = some e →
    t.entry p = some e.unreferenced
  kept : ∀ p, (∀ i, i < s.memsize → i ∈ A → (s.coremap i).pte ≠ some p) → t.entry p = s.entry p

namespace Swept

variable {s t u : Sim σ} {A B : Set Nat}

theorem coremap_eq (h : Swept A s t) : t.coremap = s.coremap := by rw [h.rest]

theorem memsize_eq (h : Swept A s t) : t.memsize = s.memsize := by rw [h.rest]

theorem congr (h : Swept A s t) (hAB : ∀ i, i < s.memsize → (i ∈ A ↔ i ∈ B)) : Swept B s t where
  rest := h.rest
  lost i p e hi hB := h.lost i p e hi ((hAB i hi).mpr hB)
  kept p hp := h.kept p fun i hi hA => hp i hi ((hAB i hi).mp hA)

/-- The hand moves. -/
theorem of_alg (s : Sim σ) (alg : σ) : Swept ∅ s (s.withAlg alg) where
  rest := rfl
  lost _ _ _ _ h := h.elim
  kept _ _ := rfl

/-- The page of one frame loses its reference bit. -/
theorem setEntry {i : Nat} {p : PtePtr} {e : PgtblEntry} (hi : i < s.memsize)
    (hp : (s.coremap i).pte = some p) (he : s.entry p = some e) :
    Swept {i} s (s.setEntry p e.unreferenced) where
  rest := rfl
  lost j q e' _ hj hq he' := by
    obtain rfl : j = i := hj
    obtain rfl : p = q := Option.some.inj (hp.symm.trans hq)
    obtain rfl : e = e' := Option.some.inj (he.symm.trans he')
    exact Sim.entry_setEntry_same he
  kept q hq := Sim.entry_setEntry_ne fun hqp => hq i hi rfl (by rw [hp, hqp])

theorem trans (h : Swept A s t) (h' : Swept B t u) : Swept (A ∪ B) s u where
  rest := by
    have hrest := h'.rest
    rw [h.rest] at hrest
    exact hrest
  lost i p e hi hAB hp he := by
    have hlater : ∀ e', t.entry p = some e' → e'.unreferenced = e.unreferenced →
        (∃ j, j < s.memsize ∧ j ∈ B ∧ (s.coremap j).pte = some p) →
        u.entry p = some e.unreferenced := by
      rintro e' he' heq ⟨j, hj, hB, hpj⟩
      rw [h'.lost j p e' (by rwa [h.memsize_eq]) hB (by rwa [h.coremap_eq]) he', heq]
    by_cases hA : ∃ j, j < s.memsize ∧ j ∈ A ∧ (s.coremap j).pte = some p
    · obtain ⟨j, hj, hA, hpj⟩ := hA
      have ht := h.lost j p e hj hA hpj he
      by_cases hB : ∃ j, j < s.memsize ∧ j ∈ B ∧ (s.coremap j).pte = some p
      · exact hlater _ ht e.unreferenced_unreferenced hB
      · rw [h'.kept p ?_, ht]
        rintro k hk hkB hpk
        rw [h.memsize_eq] at hk
        rw [h.coremap_eq] at hpk
        exact hB ⟨k, hk, hkB, hpk⟩
    · have ht := h.kept p fun j hj hjA hpj => hA ⟨j, hj, hjA, hpj⟩
      refine hlater e (ht.trans he) rfl ⟨i, hi, ?_, hp⟩
      exact hAB.resolve_left fun hiA => hA ⟨i, hi, hiA, hp⟩
  kept p hp := by
    rw [h'.kept p, h.kept p]
    · exact fun i hi hA => hp i hi (.inl hA)
    · intro i hi hB
      rw [h.memsize_eq] at hi
      rw [h.coremap_eq]
      exact hp i hi (.inr hB)

theorem fullMemory (h : Swept A s t) (hs : FullMemory s) : FullMemory t where
  page i hi := by
    rw [h.memsize_eq] at hi
    obtain ⟨hin, p, e, hp, he⟩ := hs.page i hi
    rw [h.coremap_eq]
    refine ⟨hin, p, ?_⟩
    by_cases hA : ∃ j, j < s.memsize ∧ j ∈ A ∧ (s.coremap j).pte = some p
    · obtain ⟨j, hj, hjA, hpj⟩ := hA
      exact ⟨_, hp, h.lost j p e hj hjA hpj he⟩
    · exact ⟨e, hp, (h.kept p fun j hj hjA hpj => hA ⟨j, hj, hjA, hpj⟩).trans he⟩
  inj := by
    rw [h.memsize_eq, h.coremap_eq]
    exact hs.inj

theorem referenced_of_mem (h : Swept A s t) (hs : FullMemory s) {i : Nat} (hi : i < s.memsize)
    (hA : i ∈ A) : t.referenced i = false := by
  obtain ⟨p, e, hp, he, _⟩ := hs.entryAt hi
  simp only [Sim.referenced, Sim.entryAt, h.coremap_eq, hp, Option.bind_some,
    h.lost i p e hi hA hp he, Option.any_some, PgtblEntry.referenced_unreferenced]

theorem referenced_of_notMem (h : Swept A s t) (hs : FullMemory s) {i : Nat} (hi : i < s.memsize)
    (hA : i ∉ A) : t.referenced i = s.referenced i := by
  obtain ⟨p, e, hp, he, _⟩ := hs.entryAt hi
  have hkept : t.entry p = s.entry p := by
    refine h.kept p fun j hj hjA hpj => hA ?_
    rwa [hs.inj i j hi hj (hp.trans hpj.symm)]
  simp only [Sim.referenced, Sim.entryAt, h.coremap_eq, hp, Option.bind_some, hkept]

end Swept

/-! ## One pass to the end of memory -/

/-- The sweep stops at a frame before the hand reaches the end of memory. -/
structure StopsAt (s : Sim Nat) (v : Nat) (t : Sim Nat) : Prop where
  low : s.alg ≤ v
  lt : v < s.memsize
  clear : s.referenced v = false
  passed : ∀ i, s.alg ≤ i → i < v → s.referenced i = true
  swept : Swept (Set.Ico s.alg v) s t
  hand : t.alg = v
  returns : clockSweep (v - s.alg + 1) s = .ok v t

/-- The hand reaches the end of memory and is put on frame 1. -/
structure Wraps (s t : Sim Nat) : Prop where
  passed : ∀ i, s.alg ≤ i → i < s.memsize → s.referenced i = true
  swept : Swept (Set.Ico s.alg s.memsize) s t
  hand : t.alg = 1
  rounds : ∀ fuel, clockSweep (fuel + (s.memsize - s.alg + 1)) s = clockSweep fuel t

/-- A hand inside memory stops at the first page without reference bit, if there is one. -/
theorem FullMemory.pass (hs : FullMemory s) (h : s.alg ≤ s.memsize) :
    (∃ v t, StopsAt s v t) ∨ ∃ t, Wraps s t := by
  induction hn : s.memsize - s.alg generalizing s with
  | zero =>
    have heq : s.alg = s.memsize := by omega
    refine .inr ⟨s.withAlg 1, fun i _ _ => by omega, ?_, rfl, fun fuel => ?_⟩
    · rw [heq, Set.Ico_self]
      exact .of_alg s 1
    · rw [hn]
      exact clockSweep_wrap (by omega) fuel
  | succ n ih =>
    have hlt : s.alg < s.memsize := by omega
    obtain ⟨p, e, hp, he, href⟩ := hs.entryAt hlt
    cases hr : e.referenced with
    | false =>
      refine .inl ⟨s.alg, s, Nat.le_refl _, hlt, href.trans hr, fun i _ _ => by omega, ?_, rfl, ?_⟩
      · rw [Set.Ico_self]
        exact .of_alg s s.alg
      · rw [Nat.sub_self, clockSweep_look hlt hp he, hr]
        rfl
    | true =>
      -- The page in the frame under the hand loses its bit and the hand moves on.
      have hlook : ∀ fuel, clockSweep (fuel + 1) s =
          clockSweep fuel ((s.setEntry p e.unreferenced).withAlg (s.alg + 1)) := by
        intro fuel
        rw [clockSweep_look hlt hp he, hr]
        rfl
      have hstep : Swept {s.alg} s ((s.setEntry p e.unreferenced).withAlg (s.alg + 1)) := by
        rw [← Set.union_empty {s.alg}]
        exact (Swept.setEntry hlt hp he).trans (.of_alg _ _)
      have hhand : ((s.setEntry p e.unreferenced).withAlg (s.alg + 1)).alg = s.alg + 1 := rfl
      generalize (s.setEntry p e.unreferenced).withAlg (s.alg + 1) = u at hlook hstep hhand
      have hsize := hstep.memsize_eq
      have hpassed : ∀ b, b ≤ s.memsize → (∀ i, u.alg ≤ i → i < b → u.referenced i = true) →
          ∀ i, s.alg ≤ i → i < b → s.referenced i = true := by
        intro b hb hu i hlow hi
        by_cases heq : i = s.alg
        · rw [heq, href, hr]
        · rw [← hstep.referenced_of_notMem hs (by omega) heq]
          exact hu i (by omega) hi
      have hIco : ∀ b, s.alg < b → {s.alg} ∪ Set.Ico u.alg b = Set.Ico s.alg b := by
        intro b hb
        ext i
        simp only [Set.mem_union, Set.mem_singleton_iff, Set.mem_Ico]
        omega
      rcases ih (hstep.fullMemory hs) (by omega) (by omega) with ⟨v, t, hstop⟩ | ⟨t, hwrap⟩
      · have hlow := hstop.low
        have hv := hstop.lt
        refine .inl ⟨v, t, by omega, by omega, ?_, hpassed v (by omega) hstop.passed, ?_,
          hstop.hand, ?_⟩
        · rw [← hstep.referenced_of_notMem hs (by omega) (by change ¬ v = s.alg; omega)]
          exact hstop.clear
        · rw [← hIco v (by omega)]
          exact hstep.trans hstop.swept
        · rw [hlook, show v - s.alg = v - u.alg + 1 by omega]
          exact hstop.returns
      · refine .inr ⟨t, hpassed _ (by omega) (hsize ▸ hwrap.passed), ?_, hwrap.hand, fun fuel => ?_⟩
        · have hswept := hwrap.swept
          rw [hsize] at hswept
          rw [← hIco _ hlt]
          exact hstep.trans hswept
        · rw [← hwrap.rounds fuel, ← hlook]
          congr 1
          omega

/-! ## Whether a sweep ends -/

/-- After a wrap the sweep ends on its second pass, unless frame 0 is the only frame. -/
theorem Wraps.stopsAt (h : Wraps s u) (hs : FullMemory s) (hmem : 2 ≤ s.memsize)
    (hhand : s.alg < s.memsize) :
    ∃ v t, StopsAt u v t ∧ clockSweep (s.memsize + 2) s = .ok v t := by
  have hsize := h.swept.memsize_eq
  have hone := h.hand
  rcases (h.swept.fullMemory hs).pass (by omega) with ⟨v, t, hstop⟩ | ⟨t, hwrap⟩
  · refine ⟨v, t, hstop, ?_⟩
    -- The page in the frame under the first hand lost its bit in the first pass.
    have hv : v ≤ max s.alg 1 := by
      by_contra hlt
      have hset := hstop.passed (max s.alg 1) (by omega) (by omega)
      rw [h.swept.referenced_of_mem hs (by omega) (by constructor <;> omega)] at hset
      cases hset
    have hlow := hstop.low
    have hsweep := h.rounds (v - u.alg + 1)
    rw [hstop.returns] at hsweep
    have hadd := clockSweep_add hsweep
      (s.memsize + 2 - (v - u.alg + 1 + (s.memsize - s.alg + 1)))
    rwa [Nat.add_sub_cancel' (by omega)] at hadd
  · have hset := hwrap.passed (max s.alg 1) (by omega) (by omega)
    rw [h.swept.referenced_of_mem hs (by omega) (by constructor <;> omega)] at hset
    cases hset

theorem StopsAt.sweep (h : StopsAt s v t) : clockSweep (s.memsize + 2) s = .ok v t := by
  have hlt := h.lt
  have hadd := clockSweep_add h.returns (s.memsize + 2 - (v - s.alg + 1))
  rwa [Nat.add_sub_cancel' (by omega)] at hadd

/-- With a hand past a single frame every round wraps. -/
theorem clockSweep_single (hmem : s.memsize = 1) (hhand : s.alg = 1) (fuel : Nat) :
    clockSweep fuel s = .error .loop s := by
  induction fuel with
  | zero => rfl
  | succ fuel ih =>
    rw [clockSweep_wrap (by omega), show s.withAlg 1 = s by rw [← hhand]; rfl]
    exact ih

/-- With more than one frame, or one that holds a page without reference bit, the rounds
suffice. -/
theorem clockEvict_ok (hs : FullMemory s) (hhand : s.alg < s.memsize)
    (h : 2 ≤ s.memsize ∨ s.referenced 0 = false) :
    ∃ v t, clockEvict s = .ok v t ∧ v < s.memsize := by
  rcases hs.pass (by omega) with ⟨v, t, hstop⟩ | ⟨u, hwrap⟩
  · exact ⟨v, t, hstop.sweep, hstop.lt⟩
  · have htwo : 2 ≤ s.memsize := by
      by_contra hone
      have hclear := h.resolve_left hone
      rw [hwrap.passed 0 (by omega) (by omega)] at hclear
      cases hclear
    obtain ⟨v, t, hstop, hsweep⟩ := hwrap.stopsAt hs htwo hhand
    refine ⟨v, t, hsweep, ?_⟩
    rw [← hwrap.swept.memsize_eq]
    exact hstop.lt

/-- With a single frame whose page has its reference bit set no number of rounds suffices. -/
theorem clockSweep_never (hs : FullMemory s) (hhand : s.alg < s.memsize) (hmem : s.memsize = 1)
    (hset : s.referenced 0 = true) (fuel : Nat) : clockSweep fuel s ≠ .ok v t := by
  intro h
  rcases hs.pass (by omega) with ⟨v', t', hstop⟩ | ⟨u, hwrap⟩
  · have hlt := hstop.lt
    obtain rfl : v' = 0 := by omega
    rw [hstop.clear] at hset
    cases hset
  · have hadd := clockSweep_add h (s.memsize - s.alg + 1)
    rw [hwrap.rounds, clockSweep_single (by rw [hwrap.swept.memsize_eq, hmem]) hwrap.hand] at hadd
    cases hadd

/-- `clock_evict` returns whatever its loop returns. -/
theorem clockEvict_of_sweep (hs : FullMemory s) (hhand : s.alg < s.memsize) {fuel : Nat}
    (h : clockSweep fuel s = .ok v t) : clockEvict s = .ok v t := by
  have hends : 2 ≤ s.memsize ∨ s.referenced 0 = false := by
    by_contra hnot
    rw [not_or, Bool.not_eq_false] at hnot
    exact clockSweep_never hs hhand (by omega) hnot.2 fuel h
  obtain ⟨v', t', hevict, _⟩ := clockEvict_ok hs hhand hends
  obtain ⟨rfl, rfl⟩ := clockSweep_unique h hevict
  exact hevict

/-- The loop of `clock_evict` ends with a frame of the machine unless there is a single frame
and its page has its reference bit set. -/
theorem clockSweep_ends_iff (hs : FullMemory s) (hmem : 1 ≤ s.memsize)
    (hhand : s.alg < s.memsize) :
    (∃ fuel v t, clockSweep fuel s = .ok v t ∧ v < s.memsize) ↔
      2 ≤ s.memsize ∨ s.referenced 0 = false := by
  constructor
  · rintro ⟨fuel, v, t, h, _⟩
    by_contra hnot
    rw [not_or, Bool.not_eq_false] at hnot
    exact clockSweep_never hs hhand (by omega) hnot.2 fuel h
  · intro h
    obtain ⟨v, t, hevict, hv⟩ := clockEvict_ok hs hhand h
    exact ⟨_, v, t, hevict, hv⟩

/-- After a simulation that filled the memory. -/
theorem fullMemory_of_simulate {trace : List Access} {alg : Nat}
    (h : simulate env clock swapsize trace (Sim.start memsize physmem alg) = .ok () s)
    (hfull : s.freeFrame = none) : FullMemory s :=
  (good_of_simulate clock_onlyRef h).fullMemory hfull

/-- Whether the memory is full, with the hand on one of its frames. -/
def handInFull (_ : Unit) (s : Sim Nat) : Bool :=
  s.freeFrame.isNone && decide (1 ≤ s.memsize ∧ s.alg < s.memsize)

/-- Loads from as many pages. -/
def loads (n : Nat) : List Access :=
  (List.range n).map fun i => ⟨'L', BitVec.ofNat 64 ((i + 1) * 0x1000)⟩

theorem clockSweep_ends_of_loads :
    ∃ s, simulate calmEnv clock 4#32 (loads 2) (Sim.start 2 (fun _ => 0) 0) = .ok () s ∧
      ((∃ fuel v t, clockSweep fuel s = .ok v t ∧ v < s.memsize) ↔
        2 ≤ s.memsize ∨ s.referenced 0 = false) := by
  obtain ⟨_, s, hs, hhand⟩ := Program.exists_of_holds (show Program.holds
    (simulate calmEnv clock 4#32 (loads 2) (Sim.start 2 (fun _ => 0) 0)) handInFull = true
    by decide +kernel)
  rw [handInFull, Bool.and_eq_true, Option.isNone_iff_eq_none, decide_eq_true_eq] at hhand
  obtain ⟨hfull, hmem, hlt⟩ := hhand
  exact ⟨s, hs, clockSweep_ends_iff (fullMemory_of_simulate hs hfull) hmem hlt⟩

/-- With one frame the sweep for the second page never ends. -/
theorem not_clockSweep_ends :
    ∃ s, simulate calmEnv clock 4#32 (loads 1) (Sim.start 1 (fun _ => 0) 0) = .ok () s ∧
      FullMemory s ∧ 1 ≤ s.memsize ∧ s.alg < s.memsize ∧
      ¬ ∃ fuel v t, clockSweep fuel s = .ok v t ∧ v < s.memsize := by
  obtain ⟨_, s, hs, hstate⟩ := Program.exists_of_holds (show Program.holds
    (simulate calmEnv clock 4#32 (loads 1) (Sim.start 1 (fun _ => 0) 0))
      (fun _ s => handInFull () s && s.referenced 0) = true by decide +kernel)
  rw [Bool.and_eq_true, handInFull, Bool.and_eq_true, Option.isNone_iff_eq_none,
    decide_eq_true_eq] at hstate
  obtain ⟨⟨hfull, hmem, hlt⟩, hset⟩ := hstate
  have hsize := memsize_of_simulate clock_onlyRef hs
  have hmemory := fullMemory_of_simulate hs hfull
  refine ⟨s, hs, hmemory, hmem, hlt, ?_⟩
  rintro ⟨fuel, v, t, h, _⟩
  exact clockSweep_never hmemory hlt hsize hset fuel h

/-! ## Whose turn it is -/

/-- The `k`th frame in circular order from the hand. -/
def Sim.turn (s : Sim Nat) (k : Nat) : Nat := (s.alg + k) % s.memsize

/-- The frames before the first one in circular order whose page has no reference bit; all
of them when there is no such page. -/
def Sim.beforeClear (s : Sim Nat) : Set Nat :=
  { i | ∃ k, k < s.memsize ∧ i = s.turn k ∧ ∀ j, j ≤ k → s.referenced (s.turn j) = true }

/-- A sweep that ends at `v` gave every frame its turn. -/
structure TakesTurns (s : Sim Nat) (v : Nat) (t : Sim Nat) : Prop where
  first : ∀ k, k < s.memsize → s.referenced (s.turn k) = false →
    (∀ j, j < k → s.referenced (s.turn j) = true) → v = s.turn k
  round : (∀ i, i < s.memsize → s.referenced i = true) → v = s.alg
  swept : Swept s.beforeClear s t
  hand : t.alg = v

theorem Sim.turn_of_lt {k : Nat} (h : s.alg + k < s.memsize) : s.turn k = s.alg + k :=
  Nat.mod_eq_of_lt h

/-- After the last frame it is the turn of frame 0. -/
theorem Sim.turn_end (h : s.alg < s.memsize) : s.turn (s.memsize - s.alg) = 0 := by
  rw [turn, Nat.add_sub_cancel' (by omega), Nat.mod_self]

/-- Without a wrap the turns are taken. -/
theorem StopsAt.takesTurns (h : StopsAt s v t) : TakesTurns s v t := by
  have hlow := h.low
  have hlt := h.lt
  have hv : s.turn (v - s.alg) = v := by
    rw [Sim.turn_of_lt (by omega)]
    omega
  have hset : ∀ j, j < v - s.alg → s.referenced (s.turn j) = true := by
    intro j hj
    rw [Sim.turn_of_lt (by omega)]
    exact h.passed _ (by omega) (by omega)
  refine ⟨fun k hk hclear hbefore => ?_, fun hall => ?_, h.swept.congr fun i hi => ?_, h.hand⟩
  · have hle : ¬ k < v - s.alg := by
      intro hlt
      rw [hset k hlt] at hclear
      cases hclear
    have hge : ¬ v - s.alg < k := by
      intro hgt
      have hbit := hbefore _ hgt
      rw [hv, h.clear] at hbit
      cases hbit
    rw [show k = v - s.alg by omega, hv]
  · have hbit := hall v hlt
    rw [h.clear] at hbit
    cases hbit
  · constructor
    · rintro ⟨hil, hiv⟩
      refine ⟨i - s.alg, by omega, ?_, fun j hj => hset j (by omega)⟩
      rw [Sim.turn_of_lt (by omega)]
      omega
    · rintro ⟨k, hk, rfl, hbefore⟩
      have hkv : k < v - s.alg := by
        by_contra hge
        have hbit := hbefore (v - s.alg) (by omega)
        rw [hv, h.clear] at hbit
        cases hbit
      rw [Sim.turn_of_lt (by omega)]
      constructor <;> omega

/-- After a wrap frame 0 missed its turn. -/
theorem Wraps.turns_missed (h : Wraps s u) (hs : FullMemory s) (hhand : s.alg < s.memsize)
    (hstop : StopsAt u v t) : ¬ TakesTurns s v t := by
  intro hturns
  have hone := h.hand
  have hlow := hstop.low
  have hset : ∀ j, j < s.memsize - s.alg → s.referenced (s.turn j) = true := by
    intro j hj
    rw [Sim.turn_of_lt (by omega)]
    exact h.passed _ (by omega) (by omega)
  by_cases hzero : s.alg = 0
  · have := hturns.round fun i hi => h.passed i (by omega) hi
    omega
  cases hr : s.referenced 0 with
  | false =>
    have := hturns.first (s.memsize - s.alg) (by omega) (by rw [Sim.turn_end hhand, hr]) hset
    rw [Sim.turn_end hhand] at this
    omega
  | true =>
    -- The page in frame 0 should have lost its bit but keeps it.
    have hmem : 0 ∈ s.beforeClear := by
      refine ⟨s.memsize - s.alg, by omega, (Sim.turn_end hhand).symm, fun j hj => ?_⟩
      rcases Nat.lt_or_eq_of_le hj with hj | rfl
      · exact hset j hj
      · rw [Sim.turn_end hhand, hr]
    have hlost := hturns.swept.referenced_of_mem hs (by omega) hmem
    have hkept := (h.swept.trans hstop.swept).referenced_of_notMem hs (i := 0) (by omega) (by
      rintro (⟨hlow', _⟩ | ⟨hlow', _⟩) <;> omega)
    rw [hlost, hr] at hkept
    cases hkept

/-- A sweep that ends gave every frame its turn exactly when the hand met a page without
reference bit before the end of memory. -/
theorem takesTurns_iff (hs : FullMemory s) (hmem : 2 ≤ s.memsize) (hhand : s.alg < s.memsize)
    {fuel : Nat} (h : clockSweep fuel s = .ok v t) :
    TakesTurns s v t ↔ ∃ i, s.alg ≤ i ∧ i < s.memsize ∧ s.referenced i = false := by
  rcases hs.pass (by omega) with ⟨v', t', hstop⟩ | ⟨u, hwrap⟩
  · obtain ⟨rfl, rfl⟩ := clockSweep_unique h hstop.returns
    exact ⟨fun _ => ⟨v, hstop.low, hstop.lt, hstop.clear⟩, fun _ => hstop.takesTurns⟩
  · obtain ⟨v', t', hstop, hsweep⟩ := hwrap.stopsAt hs hmem hhand
    obtain ⟨rfl, rfl⟩ := clockSweep_unique h hsweep
    refine ⟨fun hturns => absurd hturns (hwrap.turns_missed hs hhand hstop), ?_⟩
    rintro ⟨i, hlow, hi, hclear⟩
    rw [hwrap.passed i hlow hi] at hclear
    cases hclear

/-- In the third frame of three the hand finds a page without reference bit. -/
theorem takesTurns_of_loads :
    ∃ s v t, simulate calmEnv clock 4#32 (loads 4) (Sim.start 3 (fun _ => 0) 0) = .ok () s ∧
      clockEvict s = .ok v t ∧
      (TakesTurns s v t ↔ ∃ i, s.alg ≤ i ∧ i < s.memsize ∧ s.referenced i = false) := by
  obtain ⟨_, s, hs, hhand⟩ := Program.exists_of_holds (show Program.holds
    (simulate calmEnv clock 4#32 (loads 4) (Sim.start 3 (fun _ => 0) 0)) handInFull = true
    by decide +kernel)
  rw [handInFull, Bool.and_eq_true, Option.isNone_iff_eq_none, decide_eq_true_eq] at hhand
  obtain ⟨hfull, _, hlt⟩ := hhand
  have hsize := memsize_of_simulate clock_onlyRef hs
  have hmemory := fullMemory_of_simulate hs hfull
  obtain ⟨v, t, hevict, _⟩ := clockEvict_ok hmemory hlt (.inl (by omega))
  exact ⟨s, v, t, hs, hevict, takesTurns_iff hmemory (by omega) hlt hevict⟩

/-- With two frames, both referenced, the sweep passes over frame 0 and evicts frame 1. -/
theorem not_takesTurns :
    ∃ s v t, simulate calmEnv clock 4#32 (loads 2) (Sim.start 2 (fun _ => 0) 0) = .ok () s ∧
      FullMemory s ∧ 2 ≤ s.memsize ∧ s.alg < s.memsize ∧ clockEvict s = .ok v t ∧
      ¬ TakesTurns s v t := by
  obtain ⟨_, s, hs, hstate⟩ := Program.exists_of_holds (show Program.holds
    (simulate calmEnv clock 4#32 (loads 2) (Sim.start 2 (fun _ => 0) 0))
      (fun _ s => handInFull () s && (decide (s.alg = 0) && (s.referenced 0 && s.referenced 1)))
      = true by decide +kernel)
  simp only [Bool.and_eq_true, handInFull, Option.isNone_iff_eq_none, decide_eq_true_eq] at hstate
  obtain ⟨⟨hfull, _, hlt⟩, hhand, hzero, hone⟩ := hstate
  have hsize : s.memsize = 2 := memsize_of_simulate clock_onlyRef hs
  have hmemory := fullMemory_of_simulate hs hfull
  have hset : ∀ i, i < s.memsize → s.referenced i = true := by
    intro i hi
    obtain rfl | rfl : i = 0 ∨ i = 1 := by omega
    · exact hzero
    · exact hone
  rcases hmemory.pass (by omega) with ⟨v, t, hstop⟩ | ⟨u, hwrap⟩
  · have hclear := hstop.clear
    rw [hset v hstop.lt] at hclear
    cases hclear
  · obtain ⟨v, t, hstop, hsweep⟩ := hwrap.stopsAt hmemory (by omega) hlt
    exact ⟨s, v, t, hs, hmemory, by omega, hlt, hsweep, hwrap.turns_missed hmemory hlt hstop⟩

end OsAssignments.Paging
