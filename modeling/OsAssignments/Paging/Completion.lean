import OsAssignments.Paging.Clock
import OsAssignments.Paging.LruList
import OsAssignments.Paging.Queue

/-!
# Simulations that return

A simulation stops early when an address lies outside the tables, when a system call or an
allocation fails, when no slot is left for a dirty page, or when its replacement algorithm does
not answer. Without these it returns: no assert fails and nothing undefined is done.
-/

namespace OsAssignments.Paging

open Pager (Move)

variable {σ : Type} {env : Env} {P : Policy σ} {memsize : Nat} {J : σ × (Nat → Int) → Prop}
  {s t u : Sim σ} {p q : PtePtr} {f : Nat} {vaddr : BitVec 64} {type : Char}

/-! ## Algorithms that answer -/

/-- From data with the property `J`, which `init` establishes, the algorithm returns from every
call, with a frame of the machine when it is asked for a victim. -/
structure Policy.Answers (P : Policy σ) (memsize : Nat) (J : σ × (Nat → Int) → Prop) : Prop where
  init : ∀ s : Sim σ, s.memsize = memsize → ∃ t, P.init s = .ok () t ∧ J t.bookkeeping
  ref : ∀ (s : Sim σ) p f, s.memsize = memsize → J s.bookkeeping →
    (s.status p).home = some f → ∃ t, P.ref p s = .ok () t ∧ J t.bookkeeping
  evict : ∀ s : Sim σ, Good s → s.memsize = memsize → s.freeFrame = none → J s.bookkeeping →
    ∃ f t, P.evict s = .ok f t ∧ f < memsize ∧ J t.bookkeeping

theorem fifo_answers (hmem : 1 ≤ memsize) : fifo.Answers memsize fun data => data.1 < memsize where
  init s _ := ⟨_, rfl, hmem⟩
  ref s _ _ _ hJ _ := ⟨s, rfl, hJ⟩
  evict s _ hsize _ hJ := by
    have hcall : fifo.evict s = .ok s.alg { s with alg := (s.alg + 1) % s.memsize } := by
      change fifoEvict s = _
      rw [fifoEvict, if_neg (by omega)]
    refine ⟨_, _, hcall, hJ, ?_⟩
    change (s.alg + 1) % s.memsize < memsize
    rw [hsize]
    exact Nat.mod_lt _ hmem

theorem rand_answers (hmem : 1 ≤ memsize) : rand.Answers memsize fun _ => True where
  init s _ := ⟨s, rfl, trivial⟩
  ref s _ _ _ _ _ := ⟨s, rfl, trivial⟩
  evict s _ hsize _ _ := by
    have hcall : rand.evict s = .ok (s.alg.headD 0 % s.memsize) { s with alg := s.alg.tail } := by
      change randEvict s = _
      rw [randEvict, if_neg (by omega)]
    refine ⟨_, _, hcall, ?_, trivial⟩
    rw [hsize]
    exact Nat.mod_lt _ hmem

/-- With more than one frame a sweep ends with the hand on the frame returned. -/
theorem clock_answers (hmem : 2 ≤ memsize) :
    clock.Answers memsize fun data => data.1 < memsize where
  init s _ := by
    refine ⟨_, rfl, ?_⟩
    change 0 < memsize
    omega
  ref s p f _ hJ hhome := by
    cases he : s.entry p with
    | none =>
      rw [Sim.status, he] at hhome
      cases hhome
    | some e =>
      refine ⟨s.setEntry p { e with frame := e.frame ||| pgRef }, ?_, hJ⟩
      change clockRef p s = _
      rw [clockRef, readPte_bind he]
      rfl
  evict s hs hsize hfull hJ := by
    have hmemory := hs.fullMemory hfull
    have hhand : s.alg < s.memsize := hsize ▸ hJ
    rcases hmemory.pass hhand.le with ⟨v, t, hstop⟩ | ⟨u, hwrap⟩
    · have hlt := hstop.lt
      refine ⟨v, t, hstop.sweep, hsize ▸ hlt, ?_⟩
      change t.alg < memsize
      rw [hstop.hand, ← hsize]
      exact hlt
    · obtain ⟨v, t, hstop, hsweep⟩ := hwrap.stopsAt hmemory (hsize ▸ hmem) hhand
      have hlt : v < memsize := by
        rw [← hsize, ← hwrap.swept.memsize_eq]
        exact hstop.lt
      refine ⟨v, t, hsweep, hlt, ?_⟩
      change t.alg < memsize
      rw [hstop.hand]
      exact hlt

/-! ## Swap calls that succeed -/

theorem swapPageout_returns {off r : Int} (hio : ∀ n, (env.io n).Succeeds)
    (hslot : slotOffset f off s = .ok (some r) u) (hr : 0 ≤ r)
    (hroom : f * simPageSize + simPageSize ≤ u.physmemSize) :
    ∃ t, swapPageout env f off s = .ok r t := by
  have hne : r ≠ invalidSwap := by
    simp only [invalidSwap]
    omega
  have haddr : frameAddr f u = .ok (f * simPageSize) u := frameAddr_ok.mpr ⟨hroom, rfl, rfl⟩
  have hnext : nextSwapIo env u =
      .ok (env.io u.swapCalls) { u with swapCalls := u.swapCalls + 1 } := rfl
  have hseek : (env.io u.swapCalls).lseek r = r := if_pos ⟨(hio _).1, hr⟩
  have hwrite : (env.io u.swapCalls).write = simPageSize := by
    rw [SwapIo.write, (hio _).2]
    rfl
  rw [swapPageout, Program.bind_of_ok hslot]
  simp only [if_neg hne]
  rw [Program.bind_of_ok haddr, Program.bind_of_ok hnext]
  simp only [hseek, hwrite, ne_eq, not_true_eq_false, ite_false]
  exact ⟨_, rfl⟩

theorem swapPagein_returns {off : Int} (hio : ∀ n, (env.io n).Succeeds) (hoff : 0 ≤ off)
    (hroom : f * simPageSize + simPageSize ≤ s.physmemSize)
    (hstored : off.toNat + simPageSize ≤ s.swapfileSize) :
    ∃ t, swapPagein env f off s = .ok 0 t := by
  have hne : off ≠ invalidSwap := by
    simp only [invalidSwap]
    omega
  have haddr : frameAddr f s = .ok (f * simPageSize) s := frameAddr_ok.mpr ⟨hroom, rfl, rfl⟩
  have hnext : nextSwapIo env s =
      .ok (env.io s.swapCalls) { s with swapCalls := s.swapCalls + 1 } := rfl
  have hseek : (env.io s.swapCalls).lseek off = off := if_pos ⟨(hio _).1, hoff⟩
  have hread : (env.io s.swapCalls).read off.toNat s.swapfileSize = simPageSize := by
    simp only [SwapIo.read, (hio _).2, simPageSize] at hstored ⊢
    omega
  rw [swapPagein, if_neg hne, Program.bind_of_ok haddr, Program.bind_of_ok hnext]
  simp only [hseek, ne_eq, not_true_eq_false, ite_false, Program.get_bind, Program.set_bind, hread]
  exact ⟨_, rfl⟩

/-! ## States from which an access returns -/

/-- Every frame lies inside `physmem` and has a number that fits into an entry, and a dirty page
without a slot could be given one. -/
structure Supplied (s : Sim σ) : Prop where
  good : Good s
  frames : s.memsize ≤ 2 ^ 19
  room : s.physmemSize = s.memsize * simPageSize
  slots : ∀ q, (s.status q).dirty = true → (s.status q).slot = none →
    ∃ b index, bitmapAlloc s.swapmap = .ok (some (b, index))

theorem Supplied.congr (hs : Supplied s) (ht : Good t) (hsize : t.memsize = s.memsize)
    (hroom : t.physmemSize = s.physmemSize) (hmap : t.swapmap = s.swapmap)
    (hstatus : t.status = s.status) : Supplied t where
  good := ht
  frames := hsize ▸ hs.frames
  room := by rw [hroom, hsize, hs.room]
  slots := by
    rw [hmap, hstatus]
    exact hs.slots

theorem Supplied.frame_lt (hs : Supplied s) (hf : f < s.memsize) :
    f * simPageSize + simPageSize ≤ s.physmemSize := by
  rw [hs.room]
  simp only [simPageSize]
  omega

/-- The page of a frame in use can leave it. -/
theorem Supplied.evictVictim (hs : Supplied s) (hio : ∀ n, (env.io n).Succeeds)
    (hf : f < s.memsize) (hin : (s.coremap f).inUse = true) :
    ∃ t, evictVictim env f s = .ok () t := by
  obtain ⟨q, hq, hholder⟩ := hs.good.holder_of_inUse hin
  obtain ⟨e, he, -, -, honswap⟩ := hs.good.entry_of_holder hholder
  rw [evictVictim_eq hq he honswap]
  cases hdirty : e.dirty with
  | false => exact ⟨_, rfl⟩
  | true =>
    have hslot : ∃ r u, slotOffset f (asInt e.swapOff) (s.setEntry q e.cleared) =
        .ok (some r) u := by
      rw [hs.good.asInt_swapOff he, slotOffset]
      by_cases hoff : e.swapOff = invalidSwap
      · have hstatus := Sim.status_of_entry he
        obtain ⟨b, index, halloc⟩ := hs.slots q (hstatus ▸ hdirty) (by
          rw [hstatus]
          exact if_pos hoff)
        have hmap : Program.ofExcept (bitmapAlloc (s.setEntry q e.cleared).swapmap)
            (s.setEntry q e.cleared) = .ok (some (b, index)) (s.setEntry q e.cleared) :=
          (Program.ofExcept_ok ..).mpr ⟨halloc, rfl⟩
        rw [if_pos hoff, Program.get_bind, Program.bind_of_ok hmap]
        exact ⟨_, _, rfl⟩
      · rw [if_neg hoff]
        exact ⟨_, _, rfl⟩
    obtain ⟨r, u, hslot⟩ := hslot
    have htaken : ∀ i, e.slot = some i → s.swapmap.bit i = true := fun i hi =>
      hs.good.inv.slot_taken q i ((congrArg PageStatus.slot (Sim.status_of_entry he)).trans hi)
    obtain ⟨i, b, -, -, rfl, -, -, -, -, rfl⟩ :=
      hs.good.slotOffset_ok (v := s.setEntry q e.cleared) he htaken rfl hslot
    obtain ⟨t, hout⟩ := swapPageout_returns hio hslot (by omega) (hs.frame_lt hf)
    have hne : ((i * simPageSize : Nat) : Int) ≠ invalidSwap := by
      simp only [invalidSwap]
      omega
    rw [if_pos rfl, Program.bind_of_ok hout, if_neg hne]
    exact ⟨_, rfl⟩

/-- A frame can be had for a page that is not in memory. -/
theorem Supplied.takeFrame (hs : Supplied s) (hP : P.OnlyRef) (hA : P.Answers memsize J)
    (hio : ∀ n, (env.io n).Succeeds) (hsize : s.memsize = memsize) (hJ : J s.bookkeeping)
    (hp : (s.status p).home = none) :
    ∃ f t, takeFrame env P s = .ok f t ∧ J t.bookkeeping := by
  rw [Paging.takeFrame, Program.get_bind]
  cases hfree : s.freeFrame with
  | some i => exact ⟨i, s, rfl, hJ⟩
  | none =>
    obtain ⟨f, w, hevict, hf, hw⟩ := hA.evict s hs.good hsize hfree hJ
    have href : ChangesOnlyRef s w := hP.evict.of_ok hevict
    have hlt : (w.note (.evict f w.pages)).memsize = memsize := href.memsize_eq.trans hsize
    have hchoose : chooseVictim P s = .ok f (w.note (.evict f w.pages)) := by
      rw [chooseVictim, Program.bind_of_ok hevict, Program.modify_bind, Program.get_bind,
        if_pos (hlt ▸ hf)]
      rfl
    have hgood : Good (w.note (.evict f w.pages)) := (hs.good.of_changesOnlyRef href).note _
    have hnoted : Supplied (w.note (.evict f w.pages)) := by
      refine hs.congr hgood href.memsize_eq ?_ ?_ href.status_eq
      · change w.physmemSize = _
        rw [href.rest]
      · change w.swapmap = _
        rw [href.rest]
    have hin : ((w.note (.evict f w.pages)).coremap f).inUse = true :=
      (href.frame f).1.trans (Good.inUse_of_freeFrame_none hfree (hsize ▸ hf))
    obtain ⟨t, hleave⟩ := hnoted.evictVictim hio (hlt ▸ hf) hin
    have habsent : ((w.note (.evict f w.pages)).status p).home = none := by
      rw [show (w.note (.evict f w.pages)).status = s.status from href.status_eq]
      exact hp
    obtain ⟨-, -, -, -, -, hbook⟩ := hgood.evictVictim hin habsent hleave
    refine ⟨f, t, ?_, hbook ▸ hw⟩
    dsimp only
    rw [Program.bind_of_ok hchoose, Program.bind_of_ok hleave]
    rfl

/-- A frame can be filled for a page whose slot lies inside the swap file. -/
theorem Booked.fillFrame_returns (hs : Booked s) (hio : ∀ n, (env.io n).Succeeds) {e : PgtblEntry}
    (he : s.entry p = some e) (hslot : e.onswap = true → e.slot ≠ none)
    (hroom : f * simPageSize + simPageSize ≤ s.physmemSize) (vaddr : BitVec 64) :
    ∃ t, Paging.fillFrame env p f vaddr s = .ok () t := by
  rw [Paging.fillFrame, readPte_bind he]
  by_cases honswap : e.frame &&& pgOnswap = 0#32
  · have haddr : frameAddr f s = .ok (f * simPageSize) s := frameAddr_ok.mpr ⟨hroom, rfl, rfl⟩
    rw [if_neg (not_not.mpr honswap), initFrame, Program.bind_of_ok haddr]
    exact ⟨_, rfl⟩
  · rw [if_pos honswap]
    rw [PgtblEntry.and_pgOnswap_eq_zero_iff, Bool.not_eq_false] at honswap
    obtain ⟨i, hi⟩ := Option.ne_none_iff_exists'.mp (hslot honswap)
    have hoff := hs.swapOff_of_slot he hi
    have hstored := hs.stored p i ((congrArg PageStatus.slot (Sim.status_of_entry he)).trans hi)
    obtain ⟨t, hin⟩ : ∃ t, swapPagein env f (i * simPageSize : Nat) s = .ok 0 t :=
      swapPagein_returns hio (by omega) hroom (by rwa [Int.toNat_natCast])
    rw [hs.asInt_swapOff he, hoff, Program.bind_of_ok hin]
    exact ⟨_, rfl⟩

/-- A page whose entry exists is brought into memory if it is not there. -/
theorem Supplied.makeResident (hs : Supplied s) (hP : P.OnlyRef) (hA : P.Answers memsize J)
    (hio : ∀ n, (env.io n).Succeeds) (hsize : s.memsize = memsize) (hJ : J s.bookkeeping)
    {e : PgtblEntry} (he : s.entry p = some e) (vaddr : BitVec 64) :
    ∃ t, makeResident env P p vaddr s = .ok () t ∧ J t.bookkeeping ∧
      t.physmemSize = s.physmemSize := by
  rw [Paging.makeResident, readPte_bind he]
  by_cases hvalid : e.frame &&& pgValid = 0#32
  · rw [if_neg (not_not.mpr hvalid)]
    rw [PgtblEntry.and_pgValid_eq_zero_iff] at hvalid
    have hp : (s.status p).home = none := Sim.home_of_invalid he hvalid
    have hmissed : Supplied s.missed := hs.congr hs.good.missed rfl rfl rfl rfl
    obtain ⟨f, u, htake, hu⟩ := hmissed.takeFrame (p := p) hP hA hio hsize hJ hp
    obtain ⟨m, rfl, hm, -, ⟨k, hk, hused⟩, hvac, -⟩ := hs.good.missed.takeFrame hP hp htake
    have hlt : m.frame < s.memsize := by
      have hfirst := (hused m.frame).mp (.inl rfl)
      exact hfirst.trans_le hk
    have hroom : u.physmemSize = s.physmemSize := by
      rw [hvac.rest]
      rfl
    obtain ⟨e₁, he₁⟩ := hvac.exists_entry he
    have hstatus : u.status p = s.status p :=
      (congrArg (fun A => A.status p) hvac.pager).trans (hs.good.inv.status_vacate hm)
    have hslot : e₁.onswap = true → e₁.slot ≠ none := by
      intro honswap
      rw [Sim.status_of_entry he₁] at hstatus
      have hswapped : (s.status p).swapped = true := hstatus ▸ honswap
      change e₁.status.slot ≠ none
      rw [hstatus]
      exact hs.good.inv.slot_of_swapped p hswapped
    have hbooked := hvac.booked.setFrame m.frame ⟨true, some p, (u.coremap m.frame).evic⟩
    obtain ⟨v, hfill⟩ := hbooked.fillFrame_returns hio (e := e₁) he₁ hslot (by
      change _ ≤ u.physmemSize
      rw [hroom]
      exact hs.frame_lt hlt) vaddr
    obtain ⟨c, hc⟩ := hbooked.fillFrame (e := e₁) he₁ hfill
    have hev : v.entry p = some e₁ := by rw [hc.entry_eq, he₁]
    obtain ⟨t, hmap⟩ := mapFrame_returns hev (hlt.trans_le hs.frames)
    refine ⟨t, handleMiss_ok.mpr ⟨_, u, v, htake, hfill, hmap⟩, ?_, ?_⟩
    · obtain ⟨-, rfl⟩ := mapFrame_ok hev hmap
      have hbook : v.bookkeeping = u.bookkeeping := hc.bookkeeping_eq
      exact hbook ▸ hu
    · obtain ⟨-, rfl⟩ := mapFrame_ok hev hmap
      change v.physmemSize = _
      rw [hc.rest]
      exact hroom
  · rw [if_pos hvalid]
    exact ⟨_, rfl, hJ, rfl⟩

/-- The frame of the page of an address is found when the directory index is in range and the
table can be made. -/
theorem Supplied.findPhyspage (hs : Supplied s) (hP : P.OnlyRef) (hA : P.Answers memsize J)
    (hio : ∀ n, (env.io n).Succeeds) (htables : ∀ dir, (env.tables dir).isSome)
    (hsize : s.memsize = memsize) (hJ : J s.bookkeeping)
    (hdir : (pgdirIndex vaddr).toNat < ptrsPerPgdir) (type : Char) :
    ∃ f t, findPhyspage env P vaddr type s = .ok (f * simPageSize) t ∧ f < s.memsize ∧
      J t.bookkeeping ∧ t.physmemSize = s.physmemSize := by
  obtain ⟨s₁, hwalk⟩ : ∃ u, walk env vaddr s.counted = .ok (pteOf vaddr) u :=
    walk_returns_iff.mpr ⟨hdir, rfl, .inr (htables _)⟩
  obtain ⟨-, -, ⟨e, he⟩, htabled⟩ := walk_ok hwalk
  have hrest := htabled.rest
  have hs₁ : Supplied s₁ := by
    refine hs.congr (htabled.good hs.good.counted) ?_ ?_ ?_ htabled.status_eq
    all_goals
      rw [hrest]
      rfl
  obtain ⟨s₂, hresident, hJ₂, hroom₂⟩ := hs₁.makeResident hP hA hio
    (by rw [hrest]; exact hsize) (by rw [hrest]; exact hJ) he vaddr
  obtain ⟨e₂, he₂⟩ := makeResident_entry hresident
  obtain ⟨s₃, hmark⟩ : ∃ t, markAccessed (pteOf vaddr) vaddr type s₂ = .ok () t :=
    markAccessed_returns he₂
  have hmarked := markAccessed_ok he₂ hmark
  have hbefore : beforeRef env P vaddr type s = .ok (pteOf vaddr) s₃ :=
    beforeRef_ok.mpr ⟨s₁, s₂, hwalk, hresident, hmark⟩
  obtain ⟨-, -, m, c, hserved, -, hhome⟩ := hs.good.beforeRef hP hbefore
  have hsize₃ : s₃.memsize = s.memsize := hserved.memsize
  obtain ⟨t, href, hJt⟩ := hA.ref s₃ (pteOf vaddr) m.frame (hsize₃.trans hsize)
    (by rw [hmarked]; exact hJ₂) hhome
  have hchanges : ChangesOnlyRef s₃ t := (hP.ref _).of_ok href
  have hgood : Good t := hserved.good.of_changesOnlyRef hchanges
  have hhome' : (t.status (pteOf vaddr)).home = some m.frame := by
    rw [hchanges.status_eq]
    exact hhome
  obtain ⟨e', he', -⟩ := hgood.entry_of_holder ((hgood.inv.home_iff _ _).mp hhome')
  refine ⟨m.frame, t, ?_, ?_, hJt, ?_⟩
  · rw [findPhyspage_eq, Program.bind_of_ok hbefore, Program.bind_of_ok href, readPte_bind he',
      ← Sim.number_of_home he' hhome']
    rfl
  · rw [← hsize₃]
    exact hserved.good.home_lt hhome
  · have hroom₁ : s₁.physmemSize = s.physmemSize := by
      rw [hrest]
      rfl
    rw [hchanges.rest, ← hroom₁, ← hroom₂, hmarked]
    rfl

theorem Supplied.accessMem (hs : Supplied s) (hP : P.OnlyRef) (hA : P.Answers memsize J)
    (hio : ∀ n, (env.io n).Succeeds) (htables : ∀ dir, (env.tables dir).isSome)
    (hsize : s.memsize = memsize) (hJ : J s.bookkeeping) {a : Access}
    (ha : (pgdirIndex a.vaddr).toNat < ptrsPerPgdir) :
    ∃ t, accessMem env P a s = .ok () t ∧ J t.bookkeeping ∧ t.physmemSize = s.physmemSize := by
  obtain ⟨f, u, hfind, hf, hJu, hroom⟩ :=
    hs.findPhyspage hP hA hio htables hsize hJ ha a.type
  have hwrite : ∀ v : Sim σ, v.physmemSize = u.physmemSize → v.bookkeeping = u.bookkeeping →
      ∃ t, countWrite (f * simPageSize) a.type v = .ok () t ∧ J t.bookkeeping ∧
        t.physmemSize = s.physmemSize := by
    intro v hv hbook
    rw [countWrite]
    split
    · exact ⟨_, rfl, hbook ▸ hJu, hv.trans hroom⟩
    · exact ⟨v, rfl, hbook ▸ hJu, hv.trans hroom⟩
  rw [Paging.accessMem, Program.bind_of_ok hfind, Program.get_bind,
    if_pos (hroom ▸ hs.frame_lt hf), checkContent, bind_assoc, Program.get_bind]
  split
  · exact hwrite (u.note (.wrongContent a.vaddr)) rfl rfl
  · exact hwrite u rfl rfl

/-! ## Swap space for the pages that are written -/

/-- The pages that a trace writes. -/
def writtenPages (trace : List Access) : Finset PtePtr :=
  ((trace.filter fun a => isWrite a.type).map fun a => pteOf a.vaddr).toFinset

theorem mem_writtenPages {trace : List Access} {a : Access} (ha : a ∈ trace)
    (hw : isWrite a.type = true) : pteOf a.vaddr ∈ writtenPages trace :=
  List.mem_toFinset.mpr (List.mem_map.mpr ⟨a, List.mem_filter.mpr ⟨ha, hw⟩, rfl⟩)

/-- Between two accesses only pages among `written` have or need a slot, and the bits of the
bitmap behind the last slot are set. -/
structure Ready (memsize : Nat) (swapsize : BitVec 32) (written : Finset PtePtr)
    (J : σ × (Nat → Int) → Prop) (s : Sim σ) : Prop where
  good : Good s
  size : s.memsize = memsize
  room : s.physmemSize = memsize * simPageSize
  nbits : s.swapmap.nbits = swapsize
  leftover : ∀ i, swapsize.toNat ≤ i → i < 32 * (divRoundUp swapsize bitsPerWord).toNat →
    s.swapmap.bit i = true
  answers : J s.bookkeeping
  stained : ∀ x, s.pager.Stained x → x ∈ written

variable {swapsize : BitVec 32} {written : Finset PtePtr}

/-- The bitmap keeps the set of the slots of the pages. -/
theorem Ready.represents (hs : Ready memsize swapsize written J s)
    (hswap : swapsize.toNat ≤ 2 ^ 32 - 32) : s.swapmap.Represents
      ((Finset.range swapsize.toNat).filter fun i => s.swapmap.bit i = true) where
  bound := hs.nbits ▸ hswap
  sized := hs.good.sized
  below i hi := hs.nbits ▸ Finset.mem_range.mp (Finset.mem_filter.mp hi).1
  bit i hi := by
    have hwords := hs.good.sized
    rw [Bitmap.Sized, hs.nbits] at hwords
    rw [Finset.mem_filter, Finset.mem_range, hs.nbits]
    rw [hwords] at hi
    constructor
    · intro hbit
      by_cases hlt : i < swapsize.toNat
      · exact .inl ⟨hlt, hbit⟩
      · exact .inr (Nat.le_of_not_lt hlt)
    · rintro (⟨-, hbit⟩ | hle)
      · exact hbit
      · exact hs.leftover i hle hi

/-- With all slots taken the dirty page that needs another one would be one page too many. -/
theorem Ready.supplied (hs : Ready memsize swapsize written J s) (hmem : memsize ≤ 2 ^ 19)
    (hswap : swapsize.toNat ≤ 2 ^ 32 - 32) (hwritten : written.card ≤ swapsize.toNat) :
    Supplied s where
  good := hs.good
  frames := hs.size ▸ hmem
  room := by rw [hs.room, hs.size]
  slots q hdirty hnone := by
    rcases (hs.represents hswap).alloc with ⟨b, index, halloc, -⟩ | ⟨-, hfull⟩
    · exact ⟨b, index, halloc⟩
    rw [hs.nbits, firstClear_eq_none_iff] at hfull
    have howner : ∀ i : Fin swapsize.toNat, ∃ x, (s.status x).slot = some i.val := by
      intro i
      have hbit := (Finset.mem_filter.mp (of_decide_eq_true (hfull i i.isLt))).2
      exact hs.good.owned i (hs.nbits ▸ i.isLt) hbit
    choose owner howner using howner
    have hinj : Function.Injective owner := by
      intro i j hij
      have hslot := (howner i).symm.trans
        ((congrArg (fun x => (s.status x).slot) hij).trans (howner j))
      exact Fin.ext (Option.some.inj hslot)
    have hfresh : q ∉ Finset.univ.image owner := by
      intro hmem
      obtain ⟨i, -, rfl⟩ := Finset.mem_image.mp hmem
      cases hnone.symm.trans (howner i)
    have hsubset : insert q (Finset.univ.image owner) ⊆ written := by
      intro x hx
      rcases Finset.mem_insert.mp hx with rfl | hx
      · exact hs.stained x (.inl hdirty)
      · obtain ⟨i, -, rfl⟩ := Finset.mem_image.mp hx
        refine hs.stained _ (.inr ?_)
        exact ne_of_eq_of_ne (howner i) (Option.some_ne_none _)
    have hcard := Finset.card_le_card hsubset
    rw [Finset.card_insert_of_notMem hfresh, Finset.card_image_of_injective _ hinj,
      Finset.card_univ, Fintype.card_fin] at hcard
    omega

/-- An access leaves nothing but its own page to be written. -/
theorem Accessed.stained {a : Access} {m : Move PtePtr} {c : List UInt8}
    (h : Accessed env s a m c u t) {x : PtePtr} (hx : t.pager.Stained x) :
    s.pager.Stained x ∨ x = pteOf a.vaddr ∧ isWrite a.type = true := by
  have hstatus : t.pager.status = u.pager.status := by
    rw [h.rest]
    rfl
  have hu : u.pager.Stained x := by
    rw [Pager.Stained, ← hstatus]
    exact hx
  rw [h.served.pager, Pager.stained_touch_iff] at hu
  exact hu.imp_left (Pager.stained_of_serve h.served.enabled)

/-- An access only takes slots. -/
theorem Accessed.bit {a : Access} {m : Move PtePtr} {c : List UInt8}
    (h : Accessed env s a m c u t) {i : Nat} (hi : s.swapmap.bit i = true) :
    t.swapmap.bit i = true := by
  have htaken : t.swapmap.bit = (s.pager.serve (pteOf a.vaddr) c m).taken := by
    have hu := congrArg Pager.taken h.served.pager
    rw [h.rest]
    exact hu
  rw [htaken]
  cases m with
  | hit f | fill f | dropped f q => exact hi
  | wroteBack f q j =>
    change Function.update s.swapmap.bit j true i = true
    rw [Function.update_apply]
    split
    · rfl
    · exact hi

theorem Ready.accessMem (hs : Ready memsize swapsize written J s) (hP : P.OnlyRef)
    (hA : P.Answers memsize J) (hmem : memsize ≤ 2 ^ 19) (hswap : swapsize.toNat ≤ 2 ^ 32 - 32)
    (hwritten : written.card ≤ swapsize.toNat) (hio : ∀ n, (env.io n).Succeeds)
    (htables : ∀ dir, (env.tables dir).isSome) {a : Access}
    (ha : (pgdirIndex a.vaddr).toNat < ptrsPerPgdir)
    (hpage : isWrite a.type = true → pteOf a.vaddr ∈ written) :
    ∃ t, accessMem env P a s = .ok () t ∧ Ready memsize swapsize written J t := by
  obtain ⟨t, haccess, hJ, hroom⟩ :=
    (hs.supplied hmem hswap hwritten).accessMem hP hA hio htables hs.size hs.answers ha
  obtain ⟨-, m, c, u, -, hacc⟩ := hs.good.accessMem hP haccess
  refine ⟨t, haccess, hacc.good, ?_, hroom.trans hs.room, ?_, fun i hle hlt => ?_, hJ,
    fun x hx => ?_⟩
  · rw [hacc.rest]
    exact hacc.served.memsize.trans hs.size
  · rw [hacc.rest]
    exact hacc.served.nbits.trans hs.nbits
  · exact hacc.bit (hs.leftover i hle hlt)
  · rcases hacc.stained hx with hbefore | ⟨rfl, hw⟩
    · exact hs.stained x hbefore
    · exact hpage hw

/-! ## Whole simulations -/

variable {physmem : Memory} {alg : σ} {trace : List Access}

theorem setup_returns (hP : P.OnlyRef) (hA : P.Answers memsize J) (hmem : memsize ≤ 2 ^ 19)
    (hswap : swapsize.toNat ≤ 2 ^ 32 - 32) :
    ∃ s, setup P swapsize (Sim.start memsize physmem alg) = .ok () s ∧
      Ready memsize swapsize ∅ J s := by
  obtain ⟨b, hcreate, hnbits, hempty⟩ := Bitmap.bitmapCreate_represents hswap
  obtain ⟨s, hinit, hJ⟩ := hA.init
    { Sim.start memsize physmem alg with swapmap := b, pgdir := fun _ => none } rfl
  have hsetup : setup P swapsize (Sim.start memsize physmem alg) = .ok () s := by
    rw [setup, Program.bind_of_ok (swapInit_of_create hcreate)]
    exact hinit
  have hfresh := setup_ok hP hsetup
  have hchanges := hP.init.of_ok hinit
  have hmap : s.swapmap = b := by rw [hchanges.rest]
  refine ⟨s, hsetup, hfresh.good, hfresh.memsize, ?_, hfresh.nbits, fun i hle hlt => ?_, hJ,
    fun x hx => ?_⟩
  · rw [hchanges.rest]
    change memsize * simPageSize % 2 ^ 32 = _
    simp only [simPageSize]
    omega
  · have hsized := hempty.sized
    rw [Bitmap.Sized, hnbits] at hsized
    rw [hmap, hempty.bit i (by rwa [hsized]), hnbits]
    exact .inr hle
  · have hstatus : s.pager.status x = ⟨none, false, false, none⟩ := hfresh.status x
    rw [Pager.Stained, hstatus] at hx
    rcases hx with hdirty | hslot
    · cases hdirty
    · exact absurd rfl hslot

/-- Every access of a simulation is made from a state that is ready for it. -/
theorem exists_ready (hP : P.OnlyRef) (hA : P.Answers memsize J) (hmem : memsize ≤ 2 ^ 19)
    (hswap : swapsize.toNat ≤ 2 ^ 32 - 32) (hio : ∀ n, (env.io n).Succeeds)
    (htables : ∀ dir, (env.tables dir).isSome)
    (haddr : ∀ a ∈ trace, (pgdirIndex a.vaddr).toNat < ptrsPerPgdir)
    (hwritten : (writtenPages trace).card ≤ swapsize.toNat) :
    ∃ s, simulate env P swapsize trace (Sim.start memsize physmem alg) = .ok () s ∧
      Ready memsize swapsize (writtenPages trace) J s := by
  obtain ⟨s, hsetup, hs⟩ : ∃ s, setup P swapsize (Sim.start memsize physmem alg) = .ok () s ∧
      Ready memsize swapsize ∅ J s := setup_returns hP hA hmem hswap
  have hready : Ready memsize swapsize (writtenPages trace) J s :=
    { hs with stained := fun x hx => absurd (hs.stained x hx) (Finset.notMem_empty x) }
  obtain ⟨t, hrun, ht⟩ := Program.runAll_returns
    (fun a (ha : a ∈ trace) u (hu : Ready memsize swapsize (writtenPages trace) J u) =>
      hu.accessMem hP hA hmem hswap hwritten hio htables (haddr a ha) (mem_writtenPages ha)) hready
  exact ⟨t, simulate_ok.mpr ⟨s, hsetup, hrun⟩, ht⟩

/-- A simulation returns, whatever the algorithm that answers, when the addresses lie in the
tables, no allocation or system call fails, the frames can be numbered and the swap space has a
slot for every page that is written. Only such pages get one. -/
theorem simulate_returns (hP : P.OnlyRef) (hA : P.Answers memsize J) (hmem : memsize ≤ 2 ^ 19)
    (hswap : swapsize.toNat ≤ 2 ^ 32 - 32) (hio : ∀ n, (env.io n).Succeeds)
    (htables : ∀ dir, (env.tables dir).isSome)
    (haddr : ∀ a ∈ trace, (pgdirIndex a.vaddr).toNat < ptrsPerPgdir)
    (hwritten : (writtenPages trace).card ≤ swapsize.toNat) :
    ∃ s, simulate env P swapsize trace (Sim.start memsize physmem alg) = .ok () s ∧
      ∀ p e, s.entry p = some e → e.swapOff ≠ invalidSwap → p ∈ writtenPages trace := by
  obtain ⟨s, hs, hready⟩ : ∃ s, simulate env P swapsize trace (Sim.start memsize physmem alg) =
      .ok () s ∧ Ready memsize swapsize (writtenPages trace) J s :=
    exists_ready hP hA hmem hswap hio htables haddr hwritten
  refine ⟨s, hs, fun p e he hoff => hready.stained p (.inr ?_)⟩
  change (s.status p).slot ≠ none
  rw [Sim.status_of_entry he]
  change e.slot ≠ none
  rw [PgtblEntry.slot, if_neg hoff]
  exact Option.some_ne_none _

/-- A page that is written alternates with another one in a single frame, and there is a single
slot. -/
theorem simulate_returns_of_alternation :
    ∃ s, simulate calmEnv fifo 1#32 alternation (Sim.start 1 (fun _ => 0) 0) = .ok () s ∧
      ∀ p e, s.entry p = some e → e.swapOff ≠ invalidSwap → p ∈ writtenPages alternation :=
  simulate_returns fifo_onlyRef (fifo_answers (Nat.le_refl 1)) (by decide) (by decide)
    (fun _ => ⟨rfl, rfl⟩) (fun _ => rfl) (by decide) (by decide)

end OsAssignments.Paging
