import OsAssignments.Library.History
import OsAssignments.Paging.Run

/-!
# Accesses that do not finish

A swap call may fail, the swap space may run out and a replacement algorithm may stop.
This file says what an access has recorded when it ends early, so that statements about
calls cover the last access of a simulation that stops.
-/

namespace OsAssignments.Paging

open Pager (Move)

variable {σ : Type} {env : Env} {P : Policy σ} {s t u : Sim σ} {p : PtePtr} {f : Nat}
  {vaddr : BitVec 64} {type : Char}

/-! ## Functions that record nothing -/

/-- The program leaves the history as it is, however it ends. -/
def Quiet {α : Type} (x : SimM σ α) : Prop := Program.Relates (fun s t => t.history = s.history) x

theorem Quiet.bind {α β : Type} {x : SimM σ α} {k : α → SimM σ β} (hx : Quiet x)
    (hk : ∀ a, Quiet (k a)) : Quiet (x >>= k) :=
  Program.Relates.bind (fun h h' => h'.trans h) hx hk

theorem Quiet.pure {α : Type} (a : α) : Quiet (Pure.pure a : SimM σ α) := fun _ => rfl

theorem Quiet.stop {α : Type} (e : Stop) : Quiet (Program.stop e : SimM σ α) := fun _ => rfl

theorem Quiet.of_changesOnlyRef {α : Type} {x : SimM σ α}
    (hx : Program.Relates ChangesOnlyRef x) : Quiet x := fun s => (hx s).history_eq

theorem quiet_readPte (p : PtePtr) : Quiet (readPte p : SimM σ PgtblEntry) := by
  intro s
  unfold readPte
  split <;> rfl

theorem quiet_frameAddr (f : Nat) : Quiet (frameAddr f : SimM σ Nat) := by
  intro s
  unfold frameAddr
  split <;> rfl

theorem quiet_walk (env : Env) (vaddr : BitVec 64) : Quiet (walk env vaddr : SimM σ PtePtr) := by
  intro s
  unfold walk
  split
  · dsimp only
    split
    · rfl
    · refine Quiet.bind ?_ (fun _ => .pure _) s
      intro u
      unfold initSecondLevel
      split <;> rfl
  · rfl

theorem quiet_swapPagein (env : Env) (f : Nat) (off : Int) :
    Quiet (swapPagein env f off : SimM σ Int) := by
  unfold swapPagein
  split
  · exact .stop _
  refine (quiet_frameAddr f).bind fun _ => .bind (fun _ => rfl) fun io => ?_
  dsimp only
  split
  · exact .pure _
  intro u
  rw [Program.get_bind, Program.set_bind]
  split <;> rfl

/-- The search for a slot records only that there is none. -/
theorem slotOffset_history (off : Int) :
    (∀ e t, slotOffset f off s = .error e t → t.history = s.history) ∧
    (∀ i t, slotOffset f off s = .ok (some i) t → t.history = s.history) ∧
    ∀ t, slotOffset f off s = .ok none t → off = invalidSwap ∧
      bitmapAlloc s.swapmap = .ok none ∧ t.history = .swapFull (s.coremap f).pte :: s.history := by
  unfold slotOffset
  by_cases hoff : off = invalidSwap
  · simp only [if_pos hoff, Program.get_bind]
    cases halloc : bitmapAlloc s.swapmap with
    | error e =>
      refine ⟨?_, ?_, ?_⟩
      · intro e' t h
        cases h
        rfl
      · intro i t h
        cases h
      · intro t h
        cases h
    | ok slot =>
      have hbind : ∀ k : Option (Bitmap × BitVec 32) → SimM σ (Option Int),
          (Program.ofExcept (.ok slot) >>= k) s = k slot s := fun k => rfl
      rw [hbind]
      cases slot with
      | none =>
        refine ⟨?_, ?_, ?_⟩
        · intro e t h
          cases h
        · intro i t h
          cases h
        · intro t h
          cases h
          exact ⟨hoff, rfl, rfl⟩
      | some pair =>
        refine ⟨?_, ?_, ?_⟩
        · intro e t h
          cases h
        · intro i t h
          cases h
          rfl
        · intro t h
          cases h
  · simp only [if_neg hoff]
    refine ⟨?_, ?_, ?_⟩
    · intro e t h
      cases h
    · intro i t h
      cases h
      rfl
    · intro t h
      cases h

/-- Writing a page out records only that no slot is left for it. -/
theorem swapPageout_history (env : Env) (f : Nat) (off : Int) (s : Sim σ) :
    (Program.final (swapPageout env f off s)).history = s.history ∨
      off = invalidSwap ∧ bitmapAlloc s.swapmap = .ok none ∧
        (Program.final (swapPageout env f off s)).history =
          .swapFull (s.coremap f).pte :: s.history := by
  obtain ⟨herror, hsome, hnone⟩ := slotOffset_history (f := f) (s := s) off
  unfold swapPageout
  refine Program.final_bind (Q := fun t => t.history = s.history ∨ off = invalidSwap ∧
    bitmapAlloc s.swapmap = .ok none ∧ t.history = .swapFull (s.coremap f).pte :: s.history)
    (fun e t h => .inl (herror e t h)) fun slot t h => ?_
  cases slot with
  | none => exact .inr (hnone t h)
  | some i =>
    left
    rw [← hsome i t h]
    dsimp only
    split
    · rfl
    refine Quiet.bind (quiet_frameAddr f) (fun a => .bind (fun _ => rfl) fun io => ?_) t
    split
    · exact .pure _
    intro u
    rw [Program.get_bind, Program.set_bind]
    split <;> rfl

/-! ## Accesses that end early -/

/-- What an access to the page `p`, not in memory, may have recorded before it ended early. -/
inductive Unfinished (P : Policy σ) (s : Sim σ) (p : PtePtr) : List Event → Prop
  /-- A victim was needed but not chosen. -/
  | refused : Refuses P s → Unfinished P s p []
  /-- The victim was chosen but its page did not leave. -/
  | chosen {f : Nat} {w : Sim σ} : Chooses P s f w → Unfinished P s p [.evict f s.pages]
  /-- There was no slot for the page of the victim. -/
  | full {f : Nat} {w : Sim σ} {q : PtePtr} : Chooses P s f w → s.holder f = some q →
      (s.status q).slot = none → bitmapAlloc s.swapmap = .ok none →
      Unfinished P s p [.swapFull (some q), .evict f s.pages]
  /-- Room was made for the page. -/
  | vacated {m : Move PtePtr} {t : Sim σ} : s.pager.Enabled p m → (∀ f, m ≠ .hit f) →
      Consulted P s m t → Unfinished P s p (s.evictions m)
  /-- The page's content arrived in a frame whose number does not fit into an entry. -/
  | unmapped {m : Move PtePtr} {t : Sim σ} (c : List UInt8) : 2 ^ 19 < s.memsize →
      s.pager.Enabled p m → (∀ f, m ≠ .hit f) → Consulted P s m t →
      Unfinished P s p ((if (s.status p).swapped then [.pagein p c] else []) ++ s.evictions m)

theorem Good.evictVictim_error (hs : Good s) (hin : (s.coremap f).inUse = true) {e : Stop}
    (h : Paging.evictVictim env f s = .error e t) :
    t.history = s.history ∨ ∃ q, s.holder f = some q ∧ (s.status q).slot = none ∧
      bitmapAlloc s.swapmap = .ok none ∧ t.history = .swapFull (some q) :: s.history := by
  obtain ⟨q, hq, hholder⟩ := hs.holder_of_inUse hin
  obtain ⟨en, he, _, _, honswap⟩ := hs.entry_of_holder hholder
  rw [evictVictim_eq hq he honswap] at h
  have hpageout := swapPageout_history env f (asInt en.swapOff) (s.setEntry q en.cleared)
  have hpage : ((s.setEntry q en.cleared).coremap f).pte = some q := hq
  rw [hpage, hs.asInt_swapOff he] at hpageout
  have hend : t.history = s.history ∨ en.swapOff = invalidSwap ∧
      bitmapAlloc s.swapmap = .ok none ∧ t.history = .swapFull (some q) :: s.history := by
    split at h
    · rw [hs.asInt_swapOff he] at h
      rcases Program.bind_error.mp h with hstop | ⟨off, u, hout, hstop⟩
      · rw [hstop] at hpageout
        exact hpageout
      · split at hstop
        · cases hstop
          rw [hout] at hpageout
          exact hpageout
        · cases hstop
    · cases h
  refine hend.imp_right fun ⟨hoff, halloc, hhist⟩ => ⟨q, hholder, ?_, halloc, hhist⟩
  rw [Sim.status_of_entry he]
  change en.slot = none
  rw [PgtblEntry.slot, if_pos hoff]

theorem Good.takeFrame_error (hs : Good s) (hP : P.OnlyRef) {e : Stop}
    (h : Paging.takeFrame env P s = .error e t) :
    ∃ evs, t.history = evs ++ s.history ∧ Unfinished P s p evs := by
  simp only [Paging.takeFrame, Program.get_bind] at h
  cases hfree : s.freeFrame with
  | some i =>
    simp only [hfree] at h
    cases h
  | none =>
    simp only [hfree] at h
    rcases Program.bind_error.mp h with hchoose | ⟨g, v, hchoose, hrest⟩
    · rcases Program.bind_error.mp hchoose with hevict | ⟨g, w, hevict, hrange⟩
      · have hhist := (hP.evict s).history_eq
        rw [hevict] at hhist
        exact ⟨[], hhist, .refused ⟨s, _, _, rfl, rfl, rfl, hevict⟩⟩
      · have href : ChangesOnlyRef s w := hP.evict.of_ok hevict
        rw [Program.modify_bind, Program.get_bind] at hrange
        split at hrange
        · cases hrange
        · cases hrange
          refine ⟨[.evict g s.pages], ?_, .chosen ⟨hfree, s, rfl, rfl, rfl, hevict⟩⟩
          change .evict g w.pages :: w.history = _
          rw [href.pages_eq, href.history_eq]
          rfl
    · obtain ⟨w, hevict, href, -, hin, hgood, rfl⟩ := hs.chooseVictim_ok hP hfree hchoose
      have hchooses : Chooses P s g w := ⟨hfree, s, rfl, rfl, rfl, hevict⟩
      have hnoted : (w.note (.evict g w.pages)).history = .evict g s.pages :: s.history := by
        change .evict g w.pages :: w.history = _
        rw [href.pages_eq, href.history_eq]
      have herror : Paging.evictVictim env g (w.note (.evict g w.pages)) = .error e t := by
        rcases Program.bind_error.mp hrest with herror | ⟨_, _, _, hpure⟩
        · exact herror
        · cases hpure
      rcases hgood.evictVictim_error hin herror with hhist | ⟨q, hq, hslot, halloc, hhist⟩
      · exact ⟨[.evict g s.pages], hhist.trans hnoted, .chosen hchooses⟩
      · refine ⟨[.swapFull (some q), .evict g s.pages], ?_, .full hchooses ?_ ?_ ?_⟩
        · rw [hhist, hnoted]
          rfl
        · exact (congrFun (congrArg Pager.holder href.pager_eq) g).symm.trans hq
        · exact (congrArg (fun st => (st q).slot) href.status_eq).symm.trans hslot
        · rw [← halloc]
          change _ = bitmapAlloc w.swapmap
          rw [href.rest]

theorem fillFrame_error {e : Stop} (h : fillFrame env p f vaddr s = .error e t) :
    t.history = s.history := by
  rcases Program.bind_error.mp h with hread | ⟨en, u, hread, h⟩
  · have hquiet := quiet_readPte p s
    rwa [hread] at hquiet
  obtain ⟨_, rfl⟩ := readPte_ok.mp hread
  split at h
  · rcases Program.bind_error.mp h with hin | ⟨failed, u, hin, h⟩
    · have hquiet := quiet_swapPagein env f (asInt en.swapOff) s
      rwa [hin] at hquiet
    · have hquiet := quiet_swapPagein env f (asInt en.swapOff) s
      rw [hin] at hquiet
      split at h
      · cases h
        exact hquiet
      · cases h
  · rcases Program.bind_error.mp h with haddr | ⟨_, _, _, h⟩
    · have hquiet := quiet_frameAddr f s
      rwa [haddr] at hquiet
    · cases h

theorem mapFrame_entry (h : mapFrame p f s = .ok () t) : ∃ e, t.entry p = some e := by
  unfold mapFrame at h
  split at h
  · rw [Program.bind_ok] at h
    obtain ⟨e, _, hread, h⟩ := h
    obtain ⟨he, rfl⟩ := readPte_ok.mp hread
    cases h
    exact ⟨_, Sim.entry_setEntry_same he⟩
  · cases h

theorem makeResident_entry (h : makeResident env P p vaddr s = .ok () t) :
    ∃ e, t.entry p = some e := by
  rw [Paging.makeResident, Program.bind_ok] at h
  obtain ⟨e, u, hread, h⟩ := h
  obtain ⟨he, rfl⟩ := readPte_ok.mp hread
  split at h
  · cases h
    exact ⟨e, he⟩
  · obtain ⟨_, _, _, _, _, hmap⟩ := handleMiss_ok.mp h
    exact mapFrame_entry hmap

theorem Unfinished.of_start {evs : List Event} (h : Unfinished P u p evs)
    (hpager : u.pager = s.pager) (hbook : u.bookkeeping = s.bookkeeping)
    (hcore : u.coremap = s.coremap) (hsize : u.memsize = s.memsize)
    (hmap : u.swapmap = s.swapmap) : Unfinished P s p evs := by
  have hpages : u.pages = s.pages := by simp only [Sim.pages, hcore, hsize]
  cases h with
  | refused hrefuses => exact .refused (hrefuses.of_start hbook hcore hsize)
  | chosen hchooses =>
    rw [hpages]
    exact .chosen (hchooses.of_start hbook hcore hsize)
  | full hchooses hq hslot halloc =>
    rw [hpages]
    refine .full (hchooses.of_start hbook hcore hsize) ?_ ?_ (hmap ▸ halloc)
    · exact (congrFun (congrArg Pager.holder hpager) _).symm.trans hq
    · exact (congrArg (fun A : Pager _ _ => (A.status _).slot) hpager).symm.trans hslot
  | vacated hm hmiss hcons =>
    rename_i m t
    have hev : u.evictions m = s.evictions m := by
      rw [Sim.evictions, Sim.evictions, Sim.pageouts_congr hpager, hpages]
    rw [hev]
    exact .vacated (hpager ▸ hm) hmiss (hcons.of_start hbook hcore hsize)
  | unmapped c hlarge hm hmiss hcons =>
    rename_i m t
    have hev : u.evictions m = s.evictions m := by
      rw [Sim.evictions, Sim.evictions, Sim.pageouts_congr hpager, hpages]
    have hst : u.status p = s.status p := congrArg (fun A : Pager _ _ => A.status p) hpager
    rw [hev, hst]
    exact .unmapped c (hsize ▸ hlarge) (hpager ▸ hm) hmiss (hcons.of_start hbook hcore hsize)

/-- A page that was not brought in. -/
theorem Good.handleMiss_error (hs : Good s) (hP : P.OnlyRef) {en : PgtblEntry}
    (he : s.entry p = some en) (hv : en.valid = false) {e : Stop}
    (h : handleMiss env P p vaddr s = .error e t) :
    ∃ evs, t.history = evs ++ s.history ∧ Unfinished P s p evs := by
  have hp : (s.status p).home = none := Sim.home_of_invalid he hv
  rw [handleMiss, Program.modify_bind] at h
  rcases Program.bind_error.mp h with halloc | ⟨f, u₂, halloc, hrest⟩
  · rcases Program.bind_error.mp halloc with htake | ⟨_, _, _, hset⟩
    · obtain ⟨evs, hhist, hevs⟩ := hs.missed.takeFrame_error (p := p) hP htake
      exact ⟨evs, hhist, hevs.of_start rfl rfl rfl rfl rfl⟩
    · cases hset
  · rw [allocateFrame, Program.bind_ok] at halloc
    obtain ⟨f', u₁, htake, halloc⟩ := halloc
    obtain ⟨m, rfl, hm, hmiss, ⟨k, hk, hused⟩, hvac, hcons⟩ := hs.missed.takeFrame hP hp htake
    cases halloc
    have hcons' : Consulted P s m u₁ := hcons.of_start rfl rfl rfl
    rcases Program.bind_error.mp hrest with hfill | ⟨_, u₃, hfill, hmap⟩
    · exact ⟨s.evictions m, (fillFrame_error hfill).trans hvac.history, .vacated hm hmiss hcons'⟩
    · obtain ⟨e₁, he₁⟩ := hvac.exists_entry he
      obtain ⟨c, hc⟩ := (hvac.booked.setFrame ..).fillFrame (e := e₁) he₁ hfill
      have he₃ : u₃.entry p = some e₁ := by rw [hc.entry_eq, he₁]
      unfold mapFrame at hmap
      by_cases hf : m.frame < 2 ^ 19
      · rw [if_pos hf, readPte_bind he₃] at hmap
        cases hmap
      · rw [if_neg hf] at hmap
        cases hmap
        have hlt := (hused m.frame).mp (.inl rfl)
        have hlarge : 2 ^ 19 < s.memsize := by
          change k ≤ s.memsize at hk
          omega
        have hstatus : u₁.status p = s.status p :=
          (congrArg (fun A : Pager _ _ => A.status p) hvac.pager).trans
            (hs.missed.inv.status_vacate hm)
        refine ⟨_, ?_, .unmapped c hlarge hm hmiss hcons'⟩
        rw [hc.history, List.append_assoc]
        change (if (u₁.status p).swapped = true then _ else _) ++ u₁.history = _
        rw [hstatus, hvac.history]
        rfl

/-- The access has an entry for its address: its table exists or can be created. -/
def Walks (env : Env) (s : Sim σ) (vaddr : BitVec 64) : Prop :=
  ∃ u, walk env vaddr s.counted = .ok (pteOf vaddr) u

/-- The events of an access that found no entry, that ended before its page was in memory, or
that served its page. -/
inductive Recorded (env : Env) (P : Policy σ) (s : Sim σ) (vaddr : BitVec 64) (type : Char) :
    List Event → Prop
  | lost : ¬ Walks env s vaddr → Recorded env P s vaddr type []
  | unfinished {evs : List Event} : Walks env s vaddr → (s.status (pteOf vaddr)).home = none →
      Unfinished P s (pteOf vaddr) evs → Recorded env P s vaddr type evs
  | served {m : Move PtePtr} {c : List UInt8} {u v : Sim σ} : Walks env s vaddr →
      Served env s.counted (pteOf vaddr) vaddr type m c u → Consulted P s m v →
      Recorded env P s vaddr type
        (.access type vaddr (pteOf vaddr) :: (s.arrivals (pteOf vaddr) c m ++ s.evictions m))

/-- Between two states an access recorded its events. -/
def Records (env : Env) (P : Policy σ) (s : Sim σ) (vaddr : BitVec 64) (type : Char)
    (t : Sim σ) : Prop :=
  ∃ evs, t.history = evs ++ s.history ∧ Recorded env P s vaddr type evs

/-- What a call of `find_physpage` records, however it ends. -/
theorem Good.findPhyspage_records (hs : Good s) (hP : P.OnlyRef) :
    Records env P s vaddr type (Program.final (Paging.findPhyspage env P vaddr type s)) := by
  rw [Paging.findPhyspage, Program.modify_bind]
  apply Program.final_bind (Q := Records env P s vaddr type)
  · intro e t h
    have hquiet := quiet_walk env vaddr s.counted
    rw [show walk env vaddr s.counted = _ from h] at hquiet
    refine ⟨[], hquiet, .lost ?_⟩
    rintro ⟨u, hu⟩
    cases (show walk env vaddr s.counted = _ from h).symm.trans hu
  intro p s₁ hwalk
  obtain ⟨_, rfl, ⟨en, he⟩, htabled⟩ := walk_ok hwalk
  have hs₁ : Good s₁ := htabled.good hs.counted
  have hhist₁ : s₁.history = s.history := by rw [htabled.rest]
  apply Program.final_bind (Q := Records env P s vaddr type)
  · intro e t h
    rw [Paging.makeResident, readPte_bind he] at h
    split at h
    · cases h
    · rename_i hv
      rw [ne_eq, not_not, PgtblEntry.and_pgValid_eq_zero_iff] at hv
      obtain ⟨evs, hhist, hevs⟩ := hs₁.handleMiss_error hP he hv h
      have hhome : (s.status (pteOf vaddr)).home = none := by
        have hstatus : s₁.status = s.status := htabled.status_eq
        rw [← hstatus]
        exact Sim.home_of_invalid he hv
      refine ⟨evs, hhist₁ ▸ hhist, .unfinished ⟨s₁, hwalk⟩ hhome
        (hevs.of_start htabled.pager_eq ?_ ?_ ?_ ?_)⟩
      all_goals
        rw [htabled.rest]
        try rfl
  intro _ s₂ hresident
  obtain ⟨e₂, he₂⟩ := makeResident_entry hresident
  apply Program.final_bind (Q := Records env P s vaddr type)
  · intro e t h
    rw [markAccessed, readPte_bind he₂] at h
    cases h
  intro _ s₃ hmark
  obtain ⟨m, c, hserved, hcons⟩ := hs₁.makeResident hP he hresident hmark
  have hserved' := hserved.of_tabled htabled
  have hcons' : Consulted P s m s₃ :=
    hcons.of_start (by rw [htabled.rest]; rfl) (by rw [htabled.rest]) (by rw [htabled.rest])
  refine ⟨_, ?_, .served ⟨s₁, hwalk⟩ hserved' hcons'⟩
  have hquiet : Quiet (P.ref (pteOf vaddr) >>= fun _ => readPte (pteOf vaddr) >>= fun e =>
      pure ((e.frame >>> pageShift).toNat * simPageSize)) :=
    (Quiet.of_changesOnlyRef (hP.ref _)).bind fun _ => (quiet_readPte _).bind fun _ => .pure _
  rw [hquiet s₃, hserved'.history]
  rw [List.cons_append, List.append_assoc]
  rfl

/-- The events of an access, with the complaint about a page that holds another address. -/
def AccessRecorded (env : Env) (P : Policy σ) (s : Sim σ) (a : Access) (evs : List Event) : Prop :=
  ∃ evs', Recorded env P s a.vaddr a.type evs' ∧
    (evs = evs' ∨ evs = .wrongContent a.vaddr :: evs')

/-- What an access records, however it ends. -/
theorem Good.accessMem_records (hs : Good s) (hP : P.OnlyRef) (env : Env) (a : Access) :
    ∃ evs, (Program.final (Paging.accessMem env P a s)).history = evs ++ s.history ∧
      AccessRecorded env P s a evs := by
  have hfind : Records env P s a.vaddr a.type _ := hs.findPhyspage_records hP
  unfold Paging.accessMem
  refine Program.final_bind (Q := fun t : Sim σ => ∃ evs, t.history = evs ++ s.history ∧
    AccessRecorded env P s a evs) ?_ ?_
  · intro e t h
    rw [h] at hfind
    obtain ⟨evs, hhist, hevs⟩ := hfind
    exact ⟨evs, hhist, evs, hevs, .inl rfl⟩
  · intro memptr u h
    rw [h] at hfind
    obtain ⟨evs, hhist, hevs⟩ := hfind
    rw [Program.get_bind]
    split
    · refine Program.final_bind (Q := fun t : Sim σ => ∃ evs, t.history = evs ++ s.history ∧
        AccessRecorded env P s a evs) ?_ ?_
      · intro e t hcheck
        rw [checkContent, Program.get_bind] at hcheck
        split at hcheck <;> cases hcheck
      · intro _ t hcheck
        have hcount : Quiet (countWrite memptr a.type : SimM σ Unit) := by
          intro v
          unfold countWrite
          split <;> rfl
        rw [hcount t, (checkContent_ok hcheck).1]
        split
        · exact ⟨evs, hhist, evs, hevs, .inl rfl⟩
        · exact ⟨.wrongContent a.vaddr :: evs, congrArg _ hhist, evs, hevs, .inr rfl⟩
    · exact ⟨evs, hhist, evs, hevs, .inl rfl⟩

/-! ## Events of a simulation -/

variable {swapsize : BitVec 32} {memsize : Nat} {physmem : Memory} {alg : σ}

theorem quiet_setup (hP : P.OnlyRef) (swapsize : BitVec 32) : Quiet (setup P swapsize) := by
  have hswap : Quiet (swapInit swapsize : SimM σ Unit) := by
    intro s
    unfold swapInit
    cases bitmapCreate swapsize <;> rfl
  exact hswap.bind fun _ => .bind (fun _ => rfl) fun _ => .of_changesOnlyRef hP.init

/-- What holds of every event that an access records holds of every event of a simulation,
however it ends. -/
theorem each_of_simulate (hP : P.OnlyRef) {trace : List Access}
    (Φ : Event → List Event → Prop)
    (hstep : ∀ pre a post s evs, trace = pre ++ a :: post →
      simulate env P swapsize pre (Sim.start memsize physmem alg) = .ok () s → Good s →
      AccessRecorded env P s a evs → Each Φ s.history → Each Φ (evs ++ s.history)) :
    Each Φ
      (Program.final (simulate env P swapsize trace (Sim.start memsize physmem alg))).history := by
  have hrun : ∀ pre s, simulate env P swapsize pre (Sim.start memsize physmem alg) = .ok () s →
      Good s ∧ ((∃ post, trace = pre ++ post) → Each Φ s.history) := by
    refine simulate_induction hP (fun pre s => (∃ post, trace = pre ++ post) →
      Each Φ s.history) ?_ ?_
    · intro s _ hs _
      rw [hs.history]
      exact .nil
    · rintro pre s a m c u t hpre hs ih ha _ _ ⟨post, hpost⟩
      have hsplit : trace = pre ++ a :: post := by rw [hpost, List.append_assoc]; rfl
      obtain ⟨evs, hhist, hevs⟩ := hs.accessMem_records hP env a
      rw [ha, Program.final_ok] at hhist
      rw [hhist]
      exact hstep pre a post s evs hsplit hpre hs hevs (ih ⟨a :: post, hsplit⟩)
  rw [simulate]
  apply Program.final_bind (Q := fun t : Sim σ => Each Φ t.history)
  · intro e t h
    have hquiet := quiet_setup hP swapsize (Sim.start memsize physmem alg)
    rw [h] at hquiet
    rw [show t.history = [] from hquiet]
    exact .nil
  · intro _ s₀ hsetup
    have hsimulate : ∀ xs s, Program.runAll (accessMem env P) xs s₀ = .ok () s →
        simulate env P swapsize xs (Sim.start memsize physmem alg) = .ok () s :=
      fun xs s h => simulate_ok.mpr ⟨s₀, hsetup, h⟩
    apply Program.runAll_final (Q := fun t : Sim σ => Each Φ t.history)
    · exact fun t ht => (hrun trace t (hsimulate trace t ht)).2 ⟨[], (List.append_nil _).symm⟩
    · intro pre a post s e t hsplit hpre ha
      obtain ⟨hs, heach⟩ := hrun pre s (hsimulate pre s hpre)
      obtain ⟨evs, hhist, hevs⟩ := hs.accessMem_records hP env a
      rw [ha, Program.final_error] at hhist
      rw [hhist]
      exact hstep pre a post s evs hsplit (hsimulate pre s hpre) hs hevs
        (heach ⟨a :: post, hsplit⟩)

end OsAssignments.Paging
