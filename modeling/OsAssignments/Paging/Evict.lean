import OsAssignments.Paging.Abstraction

/-!
# Making room for a page

A page that is not in memory gets a free frame or that of a victim. Either way the
abstract pager makes one move as far as the victim is concerned; the frame still names
the victim until the new page is entered.
-/

namespace OsAssignments.Paging

open Pager (Move)

variable {σ : Type} {env : Env} {P : Policy σ} {s t : Sim σ} {p q : PtePtr} {f : Nat}

/-! ## Counters -/

/-- The event counters that depend on how an access is served. -/
@[ext] structure Counters where
  hit : Int
  miss : Int
  clean : Int
  dirty : Int

def Sim.counters (s : Sim σ) : Counters :=
  ⟨s.hitCount, s.missCount, s.evictCleanCount, s.evictDirtyCount⟩

/-- The counters after the eviction a move needs, if any. -/
def Counters.evict (c : Counters) : Move PtePtr → Counters
  | .hit _ | .fill _ => c
  | .dropped _ _ => { c with clean := countUp c.clean }
  | .wroteBack _ _ _ => { c with dirty := countUp c.dirty }

/-- The counters after an access served by a move. -/
def Counters.tally (c : Counters) : Move PtePtr → Counters
  | .hit _ => { c with hit := countUp c.hit }
  | m => { c with miss := countUp c.miss }.evict m

/-! ## Consulting the replacement algorithm -/

/-- The data of the replacement algorithm, with its field of the coremap. -/
def Sim.bookkeeping (s : Sim σ) : σ × (Nat → Int) := (s.alg, fun f => (s.coremap f).evic)

/-- In a state whose frames are all in use the replacement algorithm chooses a frame; the
state it sees has the same coremap and the same data. -/
structure Chooses (P : Policy σ) (s : Sim σ) (f : Nat) (w : Sim σ) : Prop where
  full : s.freeFrame = none
  call : ∃ v, v.bookkeeping = s.bookkeeping ∧ v.coremap = s.coremap ∧ v.memsize = s.memsize ∧
    P.evict v = .ok f w

/-- The replacement algorithm stops when it is asked for a victim in such a state. -/
def Refuses (P : Policy σ) (s : Sim σ) : Prop :=
  ∃ v e w, v.bookkeeping = s.bookkeeping ∧ v.coremap = s.coremap ∧ v.memsize = s.memsize ∧
    P.evict v = .error e w

/-- Nothing but the choice of the move's victim, if there is one, changed the data of the
replacement algorithm; a page brought in while all frames are in use has a victim. -/
inductive Consulted (P : Policy σ) (s : Sim σ) (m : Move PtePtr) (t : Sim σ) : Prop
  | kept (victim : m.victim = none) (hit : s.freeFrame = none → ∃ f, m = .hit f)
      (bookkeeping : t.bookkeeping = s.bookkeeping)
  | chose (w : Sim σ) (victim : m.victim ≠ none) (chooses : Chooses P s m.frame w)
      (bookkeeping : t.bookkeeping = w.bookkeeping)

theorem Consulted.of_bookkeeping {m : Move PtePtr} {u : Sim σ} (h : Consulted P s m t)
    (hu : u.bookkeeping = t.bookkeeping) : Consulted P s m u := by
  cases h with
  | kept hm hhit ht => exact .kept hm hhit (hu.trans ht)
  | chose w hm hw ht => exact .chose w hm hw (hu.trans ht)

theorem Sim.freeFrame_congr {u : Sim σ} (hcore : u.coremap = s.coremap)
    (hsize : u.memsize = s.memsize) : u.freeFrame = s.freeFrame := by
  simp only [Sim.freeFrame, hcore, hsize]

/-- Counters and page tables do not matter to a choice. -/
theorem Chooses.of_start {f : Nat} {u w : Sim σ} (h : Chooses P u f w)
    (hbook : u.bookkeeping = s.bookkeeping) (hcore : u.coremap = s.coremap)
    (hsize : u.memsize = s.memsize) : Chooses P s f w := by
  obtain ⟨hfull, v, hv₁, hv₂, hv₃, hcall⟩ := h
  exact ⟨Sim.freeFrame_congr hcore hsize ▸ hfull, v, hv₁.trans hbook, hv₂.trans hcore,
    hv₃.trans hsize, hcall⟩

theorem Refuses.of_start {u : Sim σ} (h : Refuses P u) (hbook : u.bookkeeping = s.bookkeeping)
    (hcore : u.coremap = s.coremap) (hsize : u.memsize = s.memsize) : Refuses P s := by
  obtain ⟨v, e, w, hv₁, hv₂, hv₃, hcall⟩ := h
  exact ⟨v, e, w, hv₁.trans hbook, hv₂.trans hcore, hv₃.trans hsize, hcall⟩

theorem Consulted.of_start {m : Move PtePtr} {u : Sim σ} (h : Consulted P u m t)
    (hbook : u.bookkeeping = s.bookkeeping) (hcore : u.coremap = s.coremap)
    (hsize : u.memsize = s.memsize) : Consulted P s m t := by
  cases h with
  | kept hm hhit ht =>
    exact .kept hm (Sim.freeFrame_congr hcore hsize ▸ hhit) (ht.trans hbook)
  | chose w hm hw ht => exact .chose w hm (hw.of_start hbook hcore hsize) ht

/-! ## Evicting a victim -/

/-- The victim's entry and the counters after the victim was written to swap. -/
def Sim.wroteVictim (u : Sim σ) (q : PtePtr) (e : PgtblEntry) (f : Nat) (off : Int) : Sim σ :=
  ({ u.setEntry q (e.swappedOut off) with evictDirtyCount := countUp u.evictDirtyCount }).note
    (.pageout q (u.physmem.bytes (f * simPageSize) simPageSize))

/-- The victim's entry is invalidated, after a write to swap if the page is dirty. -/
theorem evictVictim_eq {e : PgtblEntry} (hq : (s.coremap f).pte = some q)
    (he : s.entry q = some e) (hsw : e.onswap = false) :
    evictVictim env f s = if e.dirty then
      ((swapPageout env f (asInt e.swapOff) >>= fun off =>
        if off = invalidSwap then Program.stop (.exit (-1))
        else modify fun u => u.wroteVictim q e f off : SimM σ Unit)) (s.setEntry q e.cleared)
    else .ok () { s.setEntry q e.cleared with evictCleanCount := countUp s.evictCleanCount } := by
  simp only [evictVictim, Program.get_bind, hq, readPte_bind he, writePte_bind]
  change (if e.cleared.frame &&& pgOnswap = 0#32 then
    if e.cleared.frame &&& pgDirty ≠ 0#32 then _ else _ else _ : SimM σ Unit) _ = _
  have honswap : e.cleared.frame &&& pgOnswap = 0#32 :=
    PgtblEntry.and_pgOnswap_eq_zero_iff.mpr (by rw [PgtblEntry.onswap_cleared, hsw])
  have hdirty : e.cleared.frame &&& pgDirty = 0#32 ↔ e.dirty = false := by
    rw [PgtblEntry.and_pgDirty_eq_zero_iff, PgtblEntry.dirty_cleared]
  rw [if_pos honswap]
  cases hd : e.dirty with
  | false =>
    rw [if_neg (not_not.mpr (hdirty.mpr hd)), if_neg (by decide)]
    rfl
  | true =>
    rw [if_pos (by rw [ne_eq, hdirty, hd]; decide), if_pos rfl]
    rfl

theorem evictVictim_ok {e : PgtblEntry} (hq : (s.coremap f).pte = some q)
    (he : s.entry q = some e) (hsw : e.onswap = false) (h : evictVictim env f s = .ok () t) :
    (e.dirty = false ∧
      t = { s.setEntry q e.cleared with evictCleanCount := countUp s.evictCleanCount }) ∨
    (e.dirty = true ∧ ∃ off u,
      swapPageout env f (asInt e.swapOff) (s.setEntry q e.cleared) = .ok off u ∧
      off ≠ invalidSwap ∧ t = u.wroteVictim q e f off) := by
  rw [evictVictim_eq hq he hsw] at h
  cases hd : e.dirty with
  | false =>
    rw [hd, if_neg (by decide)] at h
    cases h
    exact .inl ⟨rfl, rfl⟩
  | true =>
    rw [hd, if_pos rfl, Program.bind_ok] at h
    obtain ⟨off, u, hout, h⟩ := h
    by_cases hoff : off = invalidSwap
    · rw [if_pos hoff] at h
      cases h
    · rw [if_neg hoff] at h
      cases h
      exact .inr ⟨rfl, off, u, hout, hoff, rfl⟩

/-- The effect of making room for a page: the victim has left its frame, if there is one,
and the frame still points back to it. -/
structure Vacated (s : Sim σ) (m : Move PtePtr) (evs : List Event) (t : Sim σ) : Prop where
  booked : Booked t
  pager : t.pager = s.pager.vacate m
  frame : ∀ g, (t.coremap g).inUse = (s.coremap g).inUse ∧ (t.coremap g).pte = (s.coremap g).pte
  entry : ∀ x, (t.entry x).isSome = (s.entry x).isSome
  counters : t.counters = s.counters.evict m
  nbits : t.swapmap.nbits = s.swapmap.nbits
  history : t.history = evs ++ s.history
  rest : t = { s with
    pgdir := t.pgdir, coremap := t.coremap, swapmap := t.swapmap, swapfile := t.swapfile
    swapfileSize := t.swapfileSize, evictCleanCount := t.evictCleanCount
    evictDirtyCount := t.evictDirtyCount, alg := t.alg, swapCalls := t.swapCalls
    history := t.history }

theorem Vacated.exists_entry {m : Move PtePtr} {evs : List Event} {p : PtePtr} {e : PgtblEntry}
    (h : Vacated s m evs t) (he : s.entry p = some e) : ∃ e', t.entry p = some e' := by
  rw [← Option.isSome_iff_exists, h.entry, he]
  rfl

theorem isSome_entry_setEntry (s : Sim σ) (q x : PtePtr) (e : PgtblEntry) :
    ((s.setEntry q e).entry x).isSome = (s.entry x).isSome := by
  unfold Sim.entry Sim.setEntry
  by_cases hx : x.dir = q.dir
  · rw [hx]
    simp
  · simp [Function.update_of_ne hx]

/-- A clean victim is dropped. -/
theorem vacated_drop (hs : Good s) {e : PgtblEntry} (he : s.entry q = some e) :
    Vacated s (.dropped f q) []
      { s.setEntry q e.cleared with evictCleanCount := countUp s.evictCleanCount } where
  booked :=
    have h := hs.toBooked.setEntry (e := e.cleared) he rfl
    ⟨h.sized, h.offset, h.owned, h.stored⟩
  pager := by
    apply Pager.ext
    · change (s.setEntry q e.cleared).status = _
      rw [Sim.status_setEntry he, PgtblEntry.status_cleared, ← Sim.status_of_entry he]
      rfl
    all_goals rfl
  frame _ := ⟨rfl, rfl⟩
  entry x := isSome_entry_setEntry s q x _
  counters := rfl
  nbits := rfl
  history := rfl
  rest := rfl

/-- The slot a page is written to: its own, or the lowest slot that is not taken. -/
theorem Booked.slotOffset_ok (hs : Booked s) {e : PgtblEntry} (he : s.entry q = some e)
    (htaken : ∀ i, e.slot = some i → s.swapmap.bit i = true) {v u : Sim σ}
    (hmap : v.swapmap = s.swapmap) {off : Int}
    (h : slotOffset f (asInt e.swapOff) v = .ok (some off) u) :
    ∃ i m, i < 2 ^ 24 ∧ i < s.swapmap.nbits.toNat ∧ off = (i * simPageSize : Nat) ∧
      (e.slot = some i ∨ e.slot = none ∧ s.swapmap.bit i = false) ∧
      m.nbits = s.swapmap.nbits ∧ m.Sized ∧ m.bit = Function.update s.swapmap.bit i true ∧
      u = { v with swapmap := m } := by
  rw [hs.asInt_swapOff he] at h
  rcases Paging.slotOffset_ok h with ⟨hne, rfl, rfl⟩ | ⟨heq, m, idx, halloc, rfl, rfl⟩
  · rcases hs.offset q e he with hinvalid | ⟨i, hi, hn, hoff⟩
    · exact absurd hinvalid hne
    · have hslot := PgtblEntry.slot_of_swapOff hoff
      refine ⟨i, s.swapmap, hi, hn, hoff, .inl hslot, rfl, hs.sized, ?_, by rw [← hmap]⟩
      rw [← htaken i hslot, Function.update_eq_self]
  · rw [hmap] at halloc
    obtain ⟨hlt, hclear, hbelow, hnbits, hsized, hbits⟩ := Bitmap.bitmapAlloc_some hs.sized halloc
    have hnone : e.slot = none := by rw [PgtblEntry.slot, if_pos heq]
    have hidx : idx.toNat < 2 ^ 24 := by
      apply hs.slot_lt (q := q) _ hlt hbelow
      rw [Sim.status_of_entry he]
      exact hnone
    refine ⟨idx.toNat, m, hidx, hlt, ?_, .inr ⟨hnone, hclear⟩, hnbits, hsized, ?_, rfl⟩
    · have hmul : (idx * 16#32).toNat = idx.toNat * simPageSize := by
        rw [BitVec.toNat_mul]
        simp only [BitVec.toNat_ofNat, simPageSize]
        omega
      rw [BitVec.toInt_eq_toNat_of_lt (by rw [hmul]; simp only [simPageSize]; omega), hmul]
    · funext j
      rw [hbits, Function.update_apply]
      by_cases hj : j = idx.toNat
      · simp [hj]
      · simp [hj, Ne.symm hj]

/-- Memory that changes inside one frame or one slot only. -/
theorem frame_eq_update {m m' : Memory} {f : Nat}
    (h : ∀ i, i < f * simPageSize ∨ f * simPageSize + simPageSize ≤ i → m' i = m i) :
    (fun g => m'.bytes (g * simPageSize) simPageSize) =
      Function.update (fun g => m.bytes (g * simPageSize) simPageSize) f
        (m'.bytes (f * simPageSize) simPageSize) := by
  funext g
  rw [Function.update_apply]
  by_cases hg : g = f
  · rw [if_pos hg, hg]
  · rw [if_neg hg]
    refine Memory.bytes_congr fun i hi => h _ ?_
    simp only [simPageSize] at hi ⊢
    omega

/-- When a page gets the slot `i` and the others keep theirs, entries and bitmap still agree. -/
theorem Booked.of_swappedOut (hs : Booked s) {e : PgtblEntry} (he : s.entry q = some e) {i : Nat}
    (hi : i < 2 ^ 24) (hn : i < s.swapmap.nbits.toNat)
    (hown : e.slot = some i ∨ e.slot = none ∧ s.swapmap.bit i = false)
    (hself : t.entry q = some (e.swappedOut (i * simPageSize : Nat)))
    (hentry : ∀ x, x ≠ q → t.entry x = s.entry x)
    (hstatus : t.status = Function.update s.status q ⟨none, false, true, some i⟩)
    (hnbits : t.swapmap.nbits = s.swapmap.nbits) (hsized : t.swapmap.Sized)
    (hbit : t.swapmap.bit = Function.update s.swapmap.bit i true)
    (hsize : t.swapfileSize = max s.swapfileSize (i * simPageSize + simPageSize)) : Booked t where
  sized := hsized
  offset x ex hx := by
    rw [hnbits]
    by_cases hxq : x = q
    · subst hxq
      obtain rfl := Option.some.inj (hself.symm.trans hx)
      exact .inr ⟨i, hi, hn, rfl⟩
    · exact hs.offset x ex ((hentry x hxq).symm.trans hx)
  owned j hj hset := by
    rw [hnbits] at hj
    rw [hbit, Function.update_apply] at hset
    rw [hstatus]
    by_cases hji : j = i
    · exact ⟨q, by rw [Function.update_self, hji]⟩
    · rw [if_neg hji] at hset
      obtain ⟨x, hx⟩ := hs.owned j hj hset
      refine ⟨x, ?_⟩
      have hxq : x ≠ q := by
        rintro rfl
        rw [Sim.status_of_entry he] at hx
        change e.slot = _ at hx
        rcases hown with h | ⟨h, _⟩
        · exact hji (Option.some.inj (hx.symm.trans h))
        · rw [h] at hx
          cases hx
      rw [Function.update_of_ne hxq, hx]
  stored x j hx := by
    rw [hsize]
    rw [hstatus, Function.update_apply] at hx
    split at hx
    · obtain rfl := Option.some.inj hx
      exact Nat.le_max_right ..
    · exact (hs.stored x j hx).trans (Nat.le_max_left ..)

/-- A dirty victim is written back. -/
theorem vacated_writeBack (hs : Good s) {e : PgtblEntry} (he : s.entry q = some e) {off : Int}
    {u : Sim σ} (hoff : off ≠ invalidSwap)
    (hout : swapPageout env f (asInt e.swapOff) (s.setEntry q e.cleared) = .ok off u) :
    ∃ i, (e.slot = some i ∨ e.slot = none ∧ s.swapmap.bit i = false) ∧
      Vacated s (.wroteBack f q i) [.pageout q (s.pager.frame f)] (u.wroteVictim q e f off) ∧
      u.bookkeeping = s.bookkeeping := by
  have htaken : ∀ i, e.slot = some i → s.swapmap.bit i = true := by
    intro i hi
    refine hs.inv.slot_taken q i ?_
    change (s.status q).slot = _
    rw [Sim.status_of_entry he]
    exact hi
  obtain ⟨u', hslot, _, rfl⟩ := swapPageout_ok hout hoff
  obtain ⟨i, m, hi, hn, rfl, hown, hnbits, hsized, hbit, rfl⟩ :=
    hs.toBooked.slotOffset_ok (v := s.setEntry q e.cleared) he htaken rfl hslot
  have hentry : ∀ x, x ≠ q → ((s.setEntry q e.cleared).setEntry q
      (e.swappedOut (i * simPageSize : Nat))).entry x = s.entry x := fun x hx => by
    rw [Sim.entry_setEntry_ne hx, Sim.entry_setEntry_ne hx]
  have hself : ((s.setEntry q e.cleared).setEntry q (e.swappedOut (i * simPageSize : Nat))).entry
      q = some (e.swappedOut (i * simPageSize : Nat)) :=
    Sim.entry_setEntry_same (Sim.entry_setEntry_same he)
  have hstatus : ((s.setEntry q e.cleared).setEntry q
      (e.swappedOut (i * simPageSize : Nat))).status =
      Function.update s.status q ⟨none, false, true, some i⟩ := by
    rw [Sim.status_setEntry (Sim.entry_setEntry_same he), Sim.status_setEntry he,
      Function.update_idem, PgtblEntry.status_swappedOut]
  refine ⟨i, hown, ?_, rfl⟩
  constructor
  · exact hs.toBooked.of_swappedOut he hi hn hown hself hentry hstatus hnbits hsized hbit rfl
  · apply Pager.ext
    · exact hstatus
    · rfl
    · rfl
    · change (fun j => (s.swapfile.write (i * simPageSize : Int).toNat
        (s.physmem.bytes (f * simPageSize) simPageSize)).bytes (j * simPageSize) simPageSize) = _
      have hsame := Memory.bytes_write_same s.swapfile (i * simPageSize)
        (s.physmem.bytes (f * simPageSize) simPageSize)
      rw [Memory.length_bytes] at hsame
      rw [frame_eq_update (f := i) (m := s.swapfile) fun a ha => ?_]
      · exact congrArg (Function.update s.pager.store i) hsame
      · refine Memory.write_apply_of_outside ?_
        rw [Memory.length_bytes]
        exact ha
    · exact hbit
  · exact fun _ => ⟨rfl, rfl⟩
  · intro x
    by_cases hxq : x = q
    · subst hxq
      exact (congrArg Option.isSome hself).trans (by rw [he]; rfl)
    · exact congrArg Option.isSome (hentry x hxq)
  · rfl
  · exact hnbits
  · rfl
  · rfl

/-- What the simulator records when a page leaves its frame for a move. -/
def Sim.pageouts (s : Sim σ) : Move PtePtr → List Event
  | .hit _ | .fill _ | .dropped _ _ => []
  | .wroteBack f q _ => [.pageout q (s.pager.frame f)]

theorem Sim.pageouts_congr {v : Sim σ} (h : v.pager = s.pager) (m : Move PtePtr) :
    v.pageouts m = s.pageouts m := by
  cases m <;> simp only [Sim.pageouts, h]

/-- A page in a frame has a valid entry that is not on swap. -/
theorem Good.entry_of_holder (hs : Good s) (hq : s.holder f = some q) :
    ∃ e, s.entry q = some e ∧ e.valid = true ∧ e.number = f ∧ e.onswap = false := by
  have hhome : (s.status q).home = some f := (hs.inv.home_iff q f).mpr hq
  cases he : s.entry q with
  | none => simp [Sim.status, he] at hhome
  | some e =>
    rw [Sim.status_of_entry he] at hhome
    have hswapped : (s.status q).swapped = false := by
      cases hw : (s.status q).swapped with
      | false => rfl
      | true =>
        have hnone : (s.status q).home = none := hs.inv.home_of_swapped q hw
        rw [Sim.status_of_entry he, hhome] at hnone
        cases hnone
    rw [Sim.status_of_entry he] at hswapped
    cases hv : e.valid with
    | false => simp [PgtblEntry.status, hv] at hhome
    | true => exact ⟨e, rfl, hv, by simpa [PgtblEntry.status, hv] using hhome, hswapped⟩

/-- Evicting the page of a frame in use drops the page or writes it back. -/
theorem Good.evictVictim (hs : Good s) (hin : (s.coremap f).inUse = true)
    (hp : (s.status p).home = none) (h : evictVictim env f s = .ok () t) :
    ∃ m, m.frame = f ∧ s.pager.Enabled p m ∧ m.victim = s.holder f ∧
      Vacated s m (s.pageouts m) t ∧ t.bookkeeping = s.bookkeeping := by
  obtain ⟨q, hq, hholder⟩ := hs.holder_of_inUse hin
  obtain ⟨e, he, _, _, honswap⟩ := hs.entry_of_holder hholder
  rcases evictVictim_ok hq he honswap h with ⟨hd, rfl⟩ | ⟨hd, off, u, hout, hoff, rfl⟩
  · refine ⟨.dropped f q, rfl, ⟨hp, hholder, ?_⟩, hholder.symm, vacated_drop hs he, rfl⟩
    change (s.status q).dirty = false
    rw [Sim.status_of_entry he]
    exact hd
  · obtain ⟨i, hi, hvac, hbook⟩ := vacated_writeBack hs he hoff hout
    refine ⟨.wroteBack f q i, rfl, ⟨hp, hholder, ?_, ?_⟩, hholder.symm, hvac, hbook⟩
    · change (s.status q).dirty = true
      rw [Sim.status_of_entry he]
      exact hd
    · change (s.status q).slot = some i ∨ (s.status q).slot = none ∧ s.swapmap.bit i = false
      rw [Sim.status_of_entry he]
      exact hi

/-! ## Choosing a frame -/

/-- What the simulator records when it makes room for a move. -/
def Sim.evictions (s : Sim σ) (m : Move PtePtr) : List Event :=
  s.pageouts m ++ if m.victim = none then [] else [.evict m.frame s.pages]

/-- The replacement algorithm and the record of its choice are invisible in the effect of
making room. -/
theorem Vacated.of_changesOnlyRef {v : Sim σ} (h : ChangesOnlyRef s v) {m : Move PtePtr}
    {ev : Event} {evs : List Event} (hv : Vacated (v.note ev) m evs t) :
    Vacated s m (evs ++ [ev]) t where
  booked := hv.booked
  pager := hv.pager.trans
    (congrArg (Pager.vacate · m) (show (v.note ev).pager = s.pager from h.pager_eq))
  frame g := ⟨(hv.frame g).1.trans (h.frame g).1, (hv.frame g).2.trans (h.frame g).2⟩
  entry x := by
    refine (hv.entry x).trans ?_
    have hx := h.entry x
    change (v.entry x).isSome = _
    revert hx
    generalize s.entry x = a
    generalize v.entry x = b
    rintro (_ | _) <;> rfl
  counters := by
    rw [hv.counters]
    change v.counters.evict m = _
    rw [h.rest]
    rfl
  nbits := by
    rw [hv.nbits]
    change v.swapmap.nbits = _
    rw [h.rest]
  history := by
    rw [hv.history]
    change _ ++ ev :: v.history = _
    rw [h.history_eq, List.append_assoc]
    rfl
  rest := by
    have hrest := hv.rest
    rw [h.rest] at hrest
    exact hrest

theorem Vacated.fill (hs : Booked s) : Vacated s (.fill f) [] s where
  booked := hs
  pager := rfl
  frame _ := ⟨rfl, rfl⟩
  entry _ := rfl
  counters := rfl
  nbits := rfl
  history := rfl
  rest := rfl

/-- The victim that the algorithm chooses when no frame is free is a frame in use. -/
theorem Good.chooseVictim_ok (hs : Good s) (hP : P.OnlyRef) (hfree : s.freeFrame = none) {g : Nat}
    (h : chooseVictim P s = .ok g t) : ∃ w, P.evict s = .ok g w ∧ ChangesOnlyRef s w ∧
      g < s.memsize ∧ (w.coremap g).inUse = true ∧ Good (w.note (.evict g w.pages)) ∧
      t = w.note (.evict g w.pages) := by
  rw [chooseVictim, Program.bind_ok] at h
  obtain ⟨g', w, hevict, h⟩ := h
  rw [Program.modify_bind, Program.get_bind] at h
  have href : ChangesOnlyRef s w := hP.evict.of_ok hevict
  split at h
  · rename_i hlt
    cases h
    change g < w.memsize at hlt
    rw [href.memsize_eq] at hlt
    refine ⟨w, hevict, href, hlt, ?_, (hs.of_changesOnlyRef href).note _, rfl⟩
    rw [(href.frame g).1]
    exact Good.inUse_of_freeFrame_none hfree hlt
  · cases h

/-- Choosing a frame for a page that is not in memory makes a move possible. -/
theorem Good.takeFrame (hs : Good s) (hP : P.OnlyRef) (hp : (s.status p).home = none)
    (h : takeFrame env P s = .ok f t) :
    ∃ m, m.frame = f ∧ s.pager.Enabled p m ∧ (∀ g, m ≠ .hit g) ∧
      (∃ k, k ≤ s.memsize ∧ ∀ g, g = f ∨ (s.coremap g).inUse = true ↔ g < k) ∧
      Vacated s m (s.evictions m) t ∧ Consulted P s m t := by
  simp only [Paging.takeFrame, Program.get_bind] at h
  cases hfree : s.freeFrame with
  | some i =>
    simp only [hfree] at h
    cases h
    obtain ⟨hlt, hnone, hused⟩ := hs.freeFrame_eq_some hfree
    refine ⟨.fill f, rfl, ⟨hp, hnone⟩, fun _ => nofun, ⟨f + 1, hlt, fun g => ?_⟩,
      .fill hs.toBooked, .kept rfl (fun h => ?_) rfl⟩
    · rw [hused]
      omega
    · rw [hfree] at h
      cases h
  | none =>
    simp only [hfree] at h
    rw [Program.bind_ok] at h
    obtain ⟨g, v, hchoose, h⟩ := h
    rw [Program.bind_ok] at h
    obtain ⟨_, _, hevict, h⟩ := h
    cases h
    obtain ⟨w, hg, href, hlt, hin, hgood, rfl⟩ := hs.chooseVictim_ok hP hfree hchoose
    have hw : (w.note (.evict f w.pages)).pager = s.pager := href.pager_eq
    have hstatus : (w.note (.evict f w.pages)).status = s.status := href.status_eq
    obtain ⟨m, rfl, hm, hvictim, hvac, hbook⟩ :=
      hgood.evictVictim (p := p) hin (hstatus ▸ hp) hevict
    obtain ⟨q, _, hq⟩ := hgood.holder_of_inUse hin
    have hne : m.victim ≠ none := by
      rw [hvictim, hq]
      exact nofun
    refine ⟨m, rfl, hw ▸ hm, ?_, ?_, ?_, .chose w hne ⟨hfree, s, rfl, rfl, rfl, hg⟩ hbook⟩
    · rintro g rfl
      exact hne rfl
    · obtain ⟨k, hk, hused⟩ := hs.used
      refine ⟨k, hk, fun g => ?_⟩
      rw [← hused]
      refine or_iff_right_of_imp ?_
      rintro rfl
      exact Good.inUse_of_freeFrame_none hfree hlt
    · have hevs : s.evictions m = (w.note (.evict m.frame w.pages)).pageouts m ++
          [.evict m.frame w.pages] := by
        rw [Sim.evictions, if_neg hne, Sim.pageouts_congr hw, href.pages_eq]
      rw [hevs]
      exact hvac.of_changesOnlyRef href

end OsAssignments.Paging
