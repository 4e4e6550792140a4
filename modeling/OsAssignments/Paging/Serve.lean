import OsAssignments.Paging.Evict
import OsAssignments.Paging.Page

/-!
# Serving one access

A successful call of `find_physpage` makes one move of the abstract pager. The frame is
filled after room was made, then the entry is mapped, marked and shown to the replacement
algorithm. What an access counts and records depends on its move only.
-/

namespace OsAssignments.Paging

open Pager (Move)

variable {σ : Type} {env : Env} {P : Policy σ} {s t : Sim σ} {p : PtePtr} {f : Nat}
  {vaddr : BitVec 64} {type : Char}

/-! ## Filling a frame -/

/-- The effect of filling frame `f` for page `p`, whose content becomes `c`. -/
structure Filled (env : Env) (s : Sim σ) (p : PtePtr) (f : Nat) (vaddr : BitVec 64)
    (c : List UInt8) (t : Sim σ) : Prop where
  frame : t.pager.frame = Function.update s.pager.frame f c
  fresh : (s.status p).swapped = false → c = freshPage vaddr
  paged : (∀ n, (env.io n).Succeeds) → (s.status p).swapped = true →
    ∀ i, (s.status p).slot = some i → c = s.pager.store i
  history : t.history = (if (s.status p).swapped then [.pagein p c] else []) ++ s.history
  rest : t = { s with physmem := t.physmem, swapCalls := t.swapCalls, history := t.history }

/-- Filling a frame reads the page's slot or creates a fresh page. -/
theorem Booked.fillFrame (hs : Booked s) {e : PgtblEntry} (he : s.entry p = some e)
    (h : fillFrame env p f vaddr s = .ok () t) :
    ∃ c, Filled env s p f vaddr c t := by
  simp only [Paging.fillFrame, readPte_bind he] at h
  have hswapped : (s.status p).swapped = e.onswap := by rw [Sim.status_of_entry he]; rfl
  by_cases honswap : e.frame &&& pgOnswap = 0#32
  · rw [if_neg (not_not.mpr honswap), initFrame, Program.bind_ok] at h
    rw [PgtblEntry.and_pgOnswap_eq_zero_iff] at honswap
    obtain ⟨a, u, hframe, h⟩ := h
    obtain ⟨_, rfl, rfl⟩ := frameAddr_ok.mp hframe
    cases h
    refine ⟨freshPage vaddr, ?_, fun _ => rfl, ?_, ?_, rfl⟩
    · rw [← bytes_initFrame s.physmem (f * simPageSize) vaddr]
      apply frame_eq_update
      intro i hi
      change (s.physmem.fill (f * simPageSize) simPageSize 0).store _ 8 vaddr.toNat i = _
      rw [Memory.store_apply_of_outside (by simp only [simPageSize] at hi ⊢; omega),
        Memory.fill_apply_of_outside hi]
    · intro _ hw
      rw [hswapped, honswap] at hw
      cases hw
    · rw [hswapped, honswap]
      rfl
  · rw [if_pos honswap, Program.bind_ok] at h
    rw [PgtblEntry.and_pgOnswap_eq_zero_iff, Bool.not_eq_false] at honswap
    obtain ⟨failed, u, hin, h⟩ := h
    by_cases hfailed : failed = 0
    · subst hfailed
      rw [if_neg (by decide)] at h
      obtain rfl := (EStateM.Result.ok.inj h).2
      rw [hs.asInt_swapOff he] at hin
      obtain ⟨_, n, hn, hfull, rfl⟩ := swapPagein_ok hin
      refine ⟨_, frame_eq_update (m := s.physmem) ?_, ?_, ?_, ?_, rfl⟩
      · intro i hi
        refine Memory.write_apply_of_outside ?_
        rw [Memory.length_bytes]
        simp only [simPageSize] at hi hn ⊢
        omega
      · intro hw
        rw [hswapped, honswap] at hw
        cases hw
      · intro hio _ i hi
        rw [Sim.status_of_entry he] at hi
        have hoff := hs.swapOff_of_slot he hi
        have hsize := hs.stored p i (by rw [Sim.status_of_entry he]; exact hi)
        have hn16 := hfull (hio _) (by rw [hoff, Int.toNat_natCast]; exact hsize)
        have hsame := Memory.bytes_write_same s.physmem (f * simPageSize)
          (s.swapfile.bytes (i * simPageSize) simPageSize)
        rw [Memory.length_bytes] at hsame
        simp only [hn16, hoff, Int.toNat_natCast]
        exact hsame
      · rw [hswapped, honswap]
        rfl
    · rw [if_pos hfailed] at h
      cases h

/-! ## Mapping and marking the entry -/

theorem mapFrame_ok {e : PgtblEntry} (he : s.entry p = some e) (h : mapFrame p f s = .ok () t) :
    f < 2 ^ 19 ∧ t = (s.setEntry p (e.mapped f)).note (.load p f) := by
  unfold mapFrame at h
  by_cases hf : f < 2 ^ 19
  · rw [if_pos hf, readPte_bind he, writePte_bind] at h
    cases h
    exact ⟨hf, rfl⟩
  · rw [if_neg hf] at h
    cases h

theorem markAccessed_ok {e : PgtblEntry} (he : s.entry p = some e)
    (h : markAccessed p vaddr type s = .ok () t) :
    t = (s.setEntry p (e.marked (isWrite type))).note (.access type vaddr p) := by
  unfold markAccessed at h
  rw [readPte_bind he, writePte_bind] at h
  cases h
  unfold PgtblEntry.marked
  cases isWrite type <;> rfl

/-- The state once the entry of a page is mapped to its frame and marked. -/
def Sim.mapped (s : Sim σ) (p : PtePtr) (e : PgtblEntry) (f : Nat) (vaddr : BitVec 64)
    (type : Char) : Sim σ :=
  (((s.setEntry p (e.mapped f)).note (.load p f)).setEntry p
    ((e.mapped f).marked (isWrite type))).note (.access type vaddr p)

/-- Mapping an entry and marking it, one after the other. -/
theorem mapped_ok {e : PgtblEntry} (he : s.entry p = some e) {u : Sim σ}
    (hmap : mapFrame p f s = .ok () u) (ht : markAccessed p vaddr type u = .ok () t) :
    f < 2 ^ 19 ∧ t = s.mapped p e f vaddr type := by
  obtain ⟨hf, rfl⟩ := mapFrame_ok he hmap
  have hmapped : ((s.setEntry p (e.mapped f)).note (.load p f)).entry p = some (e.mapped f) :=
    Sim.entry_setEntry_same he
  exact ⟨hf, markAccessed_ok hmapped ht⟩

theorem Booked.mapped (hs : Booked s) {e : PgtblEntry} (he : s.entry p = some e) :
    Booked (s.mapped p e f vaddr type) := by
  have hbooked := (hs.setEntry (e := e.mapped f) he rfl).setEntry
    (e := (e.mapped f).marked (isWrite type)) (Sim.entry_setEntry_same he) rfl
  exact ⟨hbooked.sized, hbooked.offset, hbooked.owned, hbooked.stored⟩

/-- Counting a miss. -/
def Sim.missed (s : Sim σ) : Sim σ := { s with missCount := countUp s.missCount }

theorem Good.missed (hs : Good s) : Good s.missed :=
  ⟨⟨hs.sized, hs.offset, hs.owned, hs.stored⟩, hs.inv, hs.used, hs.pte⟩

/-- A miss takes a frame, claims it for the page, fills it and maps the entry. -/
theorem handleMiss_ok : handleMiss env P p vaddr s = .ok () t ↔
    ∃ f u v, takeFrame env P s.missed = .ok f u ∧
      fillFrame env p f vaddr (u.setFrame f ⟨true, some p, (u.coremap f).evic⟩) = .ok () v ∧
        mapFrame p f v = .ok () t := by
  rw [handleMiss, Program.modify_bind, Program.bind_ok]
  constructor
  · rintro ⟨f, u₂, halloc, h⟩
    rw [allocateFrame, Program.bind_ok] at halloc
    obtain ⟨f', u₁, htake, halloc⟩ := halloc
    cases halloc
    rw [Program.bind_ok] at h
    obtain ⟨_, v, hfill, hmap⟩ := h
    exact ⟨f, u₁, v, htake, hfill, hmap⟩
  · rintro ⟨f, u, v, htake, hfill, hmap⟩
    refine ⟨f, u.setFrame f ⟨true, some p, (u.coremap f).evic⟩, ?_, ?_⟩
    · exact Program.bind_ok.mpr ⟨f, u, htake, rfl⟩
    · exact Program.bind_ok.mpr ⟨(), v, hfill, hmap⟩

/-! ## A page in its frame -/

section

variable {u v : Sim σ} {c : List UInt8}
  (hc : Filled env (u.setFrame f ⟨true, some p, (u.coremap f).evic⟩) p f vaddr c v)
include hc

theorem Filled.entry_eq : v.entry = u.entry := by
  funext x
  unfold Sim.entry
  rw [hc.rest]
  rfl

theorem Filled.coremap_eq :
    v.coremap = Function.update u.coremap f ⟨true, some p, (u.coremap f).evic⟩ := by
  rw [hc.rest]
  rfl

theorem Filled.booked (hu : Booked u) : Booked v := by
  rw [hc.rest]
  exact ⟨hu.sized, hu.offset, hu.owned, hu.stored⟩

/-- The replacement algorithm is not consulted. -/
theorem Filled.bookkeeping_eq : v.bookkeeping = u.bookkeeping := by
  have halg : v.alg = u.alg := by
    rw [hc.rest]
    rfl
  have hevic : ∀ g, (v.coremap g).evic = (u.coremap g).evic := by
    intro g
    rw [hc.coremap_eq, Function.update_apply]
    split
    · rename_i hg
      rw [hg]
    · rfl
  simp only [Sim.bookkeeping, halg, hevic]

/-- The two writes of the entry amount to one: the page is brought and touched. -/
theorem Filled.pager_eq {e : PgtblEntry} (he : u.entry p = some e) (hf : f < 2 ^ 19) :
    (v.mapped p e f vaddr type).pager = (u.pager.bring p f c).touch p (isWrite type) := by
  have hv : v.entry p = some e := by rw [hc.entry_eq, he]
  rw [Pager.touch_bring]
  apply Pager.ext
  · change ((v.setEntry p (e.mapped f)).setEntry p _).status = _
    rw [Sim.status_setEntry (Sim.entry_setEntry_same hv), Sim.status_setEntry hv,
      Function.update_idem, PgtblEntry.status_marked_mapped e (by omega),
      Sim.status_congr hc.entry_eq]
    change _ = Function.update u.status p ⟨_, _, _, (u.status p).slot⟩
    rw [Sim.status_of_entry he]
    rfl
  · change v.holder = _
    rw [hc.rest]
    exact Sim.holder_setFrame u f p _
  · exact hc.frame
  · change v.pager.store = _
    rw [hc.rest]
    rfl
  · change v.swapmap.bit = _
    rw [hc.rest]
    rfl

/-- The frames in use stay the first ones, with one more where `f` was the next. -/
theorem Filled.inUse_iff {k : Nat} (hused : ∀ g, g = f ∨ (u.coremap g).inUse = true ↔ g < k)
    (g : Nat) : (v.coremap g).inUse = true ↔ g < k := by
  rw [← hused, hc.coremap_eq, Function.update_apply]
  by_cases hg : g = f
  · simp [hg]
  · simp only [hg, ite_false, false_or]

theorem Filled.pte (hpte : ∀ g, (u.coremap g).inUse = true → (u.coremap g).pte ≠ none) (g : Nat)
    (hg : (v.coremap g).inUse = true) : (v.coremap g).pte ≠ none := by
  rw [hc.coremap_eq, Function.update_apply] at hg ⊢
  by_cases hgf : g = f
  · simp [hgf]
  · simp only [hgf, ite_false] at hg ⊢
    exact hpte g hg

end

/-- What the simulator records when a page arrives in its frame. -/
def Sim.arrivals (s : Sim σ) (p : PtePtr) (c : List UInt8) : Move PtePtr → List Event
  | .hit _ => []
  | m => .load p m.frame :: if (s.status p).swapped then [.pagein p c] else []

/-- The effect of an access on everything but the replacement algorithm's data. -/
structure Served (env : Env) (s : Sim σ) (p : PtePtr) (vaddr : BitVec 64) (type : Char)
    (m : Move PtePtr) (c : List UInt8) (t : Sim σ) : Prop where
  enabled : s.pager.Enabled p m
  good : Good t
  pager : t.pager = (s.pager.serve p c m).touch p (isWrite type)
  counters : t.counters = s.counters.tally m
  history : t.history =
    .access type vaddr p :: (s.arrivals p c m ++ (s.evictions m ++ s.history))
  fresh : (∀ f, m ≠ .hit f) → (s.status p).swapped = false → c = freshPage vaddr
  paged : (∀ n, (env.io n).Succeeds) → (∀ f, m ≠ .hit f) → (s.status p).swapped = true →
    ∀ i, (s.status p).slot = some i → c = (s.pager.vacate m).store i
  nbits : t.swapmap.nbits = s.swapmap.nbits
  memsize : t.memsize = s.memsize
  refCount : t.refCount = s.refCount

/-- Marking the entry of a resident page serves an access by a hit. -/
theorem served_hit (hs : Good s) {e : PgtblEntry} (he : s.entry p = some e) (hv : e.valid = true)
    (c : List UInt8) :
    Served env s p vaddr type (.hit e.number) c
      (({ s with hitCount := countUp s.hitCount }.setEntry p (e.marked (isWrite type))).note
        (.access type vaddr p)) := by
  have hstatus : (s.setEntry p (e.marked (isWrite type))).status =
      Function.update s.status p
        { s.status p with dirty := (s.status p).dirty || isWrite type } := by
    rw [Sim.status_setEntry he, PgtblEntry.status_marked, Sim.status_of_entry he]
    simp only [PgtblEntry.status, hv, ite_true]
  have hhome : (s.status p).home = some e.number := Sim.home_of_valid he hv
  have hpager : (({ s with hitCount := countUp s.hitCount }.setEntry p
      (e.marked (isWrite type))).note (.access type vaddr p)).pager =
        s.pager.touch p (isWrite type) := by
    apply Pager.ext
    · exact hstatus
    all_goals rfl
  have hbooked := hs.toBooked.setEntry (e := e.marked (isWrite type)) he rfl
  refine ⟨hhome, ⟨⟨hbooked.sized, hbooked.offset, hbooked.owned, hbooked.stored⟩, ?_, hs.used,
    hs.pte⟩, hpager, rfl, rfl, fun h => absurd rfl (h _),
    fun _ h => absurd rfl (h _), rfl, rfl, rfl⟩
  rw [hpager]
  exact hs.inv.touch hhome _

/-! ## A miss -/

section

variable {m : Move PtePtr} {u v : Sim σ} {c : List UInt8} {e : PgtblEntry}
  (hmiss : ∀ g, m ≠ .hit g) (hmf : m.frame = f)
  (hvac : Vacated s.missed m (s.missed.evictions m) u)
  (hc : Filled env (u.setFrame f ⟨true, some p, (u.coremap f).evic⟩) p f vaddr c v)
include hmiss hmf hvac hc

/-- Room, content and entry together are the move of the abstract pager. -/
theorem Filled.pager_mapped (he : u.entry p = some e) (hf : f < 2 ^ 19) :
    (v.mapped p e f vaddr type).pager = (s.pager.serve p c m).touch p (isWrite type) := by
  have hvacate : u.pager = s.pager.vacate m := hvac.pager
  rw [hc.pager_eq he hf, Pager.serve_of_ne_hit _ _ _ hmiss, hmf, ← hvacate]

theorem Filled.good_mapped (hs : Good s) (hm : s.pager.Enabled p m) (he : u.entry p = some e)
    (hf : f < 2 ^ 19)
    (hused : ∃ k, k ≤ s.memsize ∧ ∀ g, g = f ∨ (s.coremap g).inUse = true ↔ g < k) :
    Good (v.mapped p e f vaddr type) := by
  have hinUse : ∀ g, (u.coremap g).inUse = (s.coremap g).inUse := fun g => (hvac.frame g).1
  have hmemsize : v.memsize = s.memsize := by
    rw [hc.rest]
    change u.memsize = _
    rw [hvac.rest]
    rfl
  have hv : v.entry p = some e := by rw [hc.entry_eq, he]
  obtain ⟨k, hk, hused⟩ := hused
  refine ⟨(hc.booked hvac.booked).mapped hv, ?_, ⟨k, hmemsize.symm ▸ hk, ?_⟩, ?_⟩
  · rw [hc.pager_mapped hmiss hmf hvac he hf]
    exact (hs.inv.serve hm c).touch (Pager.home_serve hm c) _
  · exact hc.inUse_iff fun g => by
      rw [hinUse]
      exact hused g
  · exact hc.pte fun g => by
      rw [hinUse, (hvac.frame g).2]
      exact hs.pte g

theorem Filled.counters_mapped :
    (v.mapped p e f vaddr type).counters = s.counters.tally m := by
  change v.counters = _
  rw [hc.rest]
  change u.counters = _
  rw [hvac.counters]
  cases m with
  | hit g => exact absurd rfl (hmiss g)
  | fill g => rfl
  | dropped g q => rfl
  | wroteBack g q i => rfl

theorem Filled.history_mapped (hstatus : u.status p = s.status p) :
    (v.mapped p e f vaddr type).history =
      .access type vaddr p :: (s.arrivals p c m ++ (s.evictions m ++ s.history)) := by
  change Event.access type vaddr p :: Event.load p f :: v.history = _
  rw [hc.history, show (u.setFrame f ⟨true, some p, (u.coremap f).evic⟩).status p = s.status p
    from hstatus]
  change _ :: _ :: (_ ++ u.history) = _
  rw [hvac.history, ← hmf]
  cases m with
  | hit g => exact absurd rfl (hmiss g)
  | fill g => rfl
  | dropped g q => rfl
  | wroteBack g q i => rfl

end

/-- The branch for an invalid entry serves an access by one of the other moves. -/
theorem Good.served_miss (hs : Good s) (hP : P.OnlyRef) {e : PgtblEntry} (he : s.entry p = some e)
    (hv : e.valid = false) {u : Sim σ} (h : handleMiss env P p vaddr s = .ok () u)
    (ht : markAccessed p vaddr type u = .ok () t) :
    ∃ m c, (∀ f, m ≠ .hit f) ∧ Served env s p vaddr type m c t ∧ Consulted P s m t := by
  have hp : (s.status p).home = none := Sim.home_of_invalid he hv
  -- `u₁` has room for the page, `u₃` its content.
  obtain ⟨f, u₁, u₃, htake, hfill, hmap⟩ := handleMiss_ok.mp h
  obtain ⟨m, hmf, hm, hmiss, hused, hvac, hcons⟩ := hs.missed.takeFrame hP hp htake
  obtain ⟨e₁, he₁⟩ := hvac.exists_entry he
  have hstatus : u₁.status p = s.status p :=
    (congrArg (fun A => A.status p) hvac.pager).trans (hs.inv.status_vacate hm)
  obtain ⟨c, hc⟩ := (hvac.booked.setFrame ..).fillFrame (e := e₁) he₁ hfill
  have he₃ : u₃.entry p = some e₁ := by rw [hc.entry_eq, he₁]
  obtain ⟨hf, rfl⟩ := mapped_ok he₃ hmap ht
  refine ⟨m, c, hmiss, ⟨hm, hc.good_mapped hmiss hmf hvac hs hm he₁ hf hused,
    hc.pager_mapped hmiss hmf hvac he₁ hf, hc.counters_mapped hmiss hmf hvac,
    hc.history_mapped hmiss hmf hvac hstatus, fun _ hw => hc.fresh (hstatus ▸ hw),
    fun hio _ hw i hi => ?_, ?_, ?_, ?_⟩,
    .of_start (hcons.of_bookkeeping hc.bookkeeping_eq) rfl rfl rfl⟩
  · have hstore := hc.paged hio (hstatus ▸ hw) i (hstatus ▸ hi)
    rw [hstore]
    exact congrArg (fun A => A.store i) hvac.pager
  · change u₃.swapmap.nbits = _
    rw [hc.rest]
    exact hvac.nbits
  · change u₃.memsize = _
    rw [hc.rest]
    change u₁.memsize = _
    rw [hvac.rest]
    rfl
  · change u₃.refCount = _
    rw [hc.rest]
    change u₁.refCount = _
    rw [hvac.rest]
    rfl

end OsAssignments.Paging
