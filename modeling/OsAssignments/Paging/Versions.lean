import OsAssignments.Paging.Contents
import OsAssignments.Paging.Coremap

/-!
# Stored addresses and version counters

A page keeps the address it was created for as long as it exists. Its version counter is
the number of writes to it, unless the page was dropped from memory without a copy on
swap and created again: a page that was read back from swap and evicted clean is lost.
-/

namespace OsAssignments.Paging

open Pager (Move)

variable {σ : Type} {env : Env} {P : Policy σ} {swapsize : BitVec 32} {memsize : Nat}
  {physmem : Memory} {alg : σ} {s t : Sim σ}

/-- In the simulation of a trace, `find_physpage` is called for access `a` after the accesses
`pre`, in state `s`, and returns `memptr` and state `t`. -/
structure Performs (env : Env) (P : Policy σ) (swapsize : BitVec 32) (start : Sim σ)
    (trace pre : List Access) (a : Access) (s : Sim σ) (memptr : Nat) (t : Sim σ) : Prop where
  split : ∃ post, trace = pre ++ a :: post
  before : simulate env P swapsize pre start = .ok () s
  found : findPhyspage env P a.vaddr a.type s = .ok memptr t

/-! ## Stored addresses -/

/-- Every page is accessed through a single address below `2 ^ 36`. -/
structure OneAddressPerPage (trace : List Access) : Prop where
  below : ∀ a ∈ trace, a.vaddr.toNat < 2 ^ 36
  unique : ∀ a ∈ trace, ∀ b ∈ trace, pageOf a.vaddr = pageOf b.vaddr → a.vaddr = b.vaddr

/-- Every page with a content holds the address of an earlier access to it. -/
def StoresAddresses (pre : List Access) (s : Sim σ) : Prop :=
  ∀ x c, s.pager.content x = some c → ∃ b ∈ pre, pteOf b.vaddr = x ∧ address c = b.vaddr.toNat

/-- The page found for an access holds the address of that access. -/
theorem StoresAddresses.address_frame {trace pre : List Access} (htrace : OneAddressPerPage trace)
    {a : Access} (hpre : ∀ b ∈ pre, b ∈ trace) (ha : a ∈ trace) (hs : Good s)
    (hio : ∀ n, (env.io n).Succeeds) (haddr : StoresAddresses pre s) {m : Move PtePtr}
    {c : List UInt8} (h : Served env s.counted (pteOf a.vaddr) a.vaddr a.type m c t) :
    address (t.pager.frame m.frame) = a.vaddr.toNat := by
  rcases h.content_cases hs.counted hio with hcontent | ⟨_, hfresh⟩
  · obtain ⟨b, hb, hbx, hstored⟩ := haddr _ _ hcontent
    rw [pteOf_eq_iff (htrace.below b (hpre b hb)) (htrace.below a ha)] at hbx
    rw [hstored, htrace.unique b (hpre b hb) a ha hbx]
  · rw [hfresh, address_freshPage]

theorem storesAddresses_of_simulate (hP : P.OnlyRef)
    (hio : ∀ n, (env.io n).Succeeds) {trace : List Access} (htrace : OneAddressPerPage trace) :
    ∀ pre s, simulate env P swapsize pre (Sim.start memsize physmem alg) = .ok () s →
      Good s ∧ ((∀ b ∈ pre, b ∈ trace) →
        StoresAddresses pre s ∧ ∀ v, Event.wrongContent v ∉ s.history) := by
  apply simulate_induction hP fun pre s => (∀ b ∈ pre, b ∈ trace) →
    StoresAddresses pre s ∧ ∀ v, Event.wrongContent v ∉ s.history
  · intro s _ hs _
    refine ⟨fun x c hc => ?_, fun v => ?_⟩
    · rw [hs.content] at hc
      cases hc
    · rw [hs.history]
      exact List.not_mem_nil
  · intro pre s a m c u t _ hs ih _ _ hacc hmem
    have hpre : ∀ b ∈ pre, b ∈ trace := fun b hb => hmem b (List.mem_append_left _ hb)
    have ha : a ∈ trace := hmem a (by simp)
    obtain ⟨haddr, hhist⟩ := ih hpre
    have hframe := haddr.address_frame htrace hpre ha hs hio hacc.served
    refine ⟨fun x d hd => ?_, fun v hv => ?_⟩
    · by_cases hx : x = pteOf a.vaddr
      · subst hx
        rw [hacc.content_self, Option.some.injEq] at hd
        refine ⟨a, by simp, rfl, ?_⟩
        rw [← hd, ← hframe]
        split
        · exact address_bump _
        · rfl
      · obtain ⟨b, hb, hbx, hstored⟩ := haddr x d (hacc.content_of_ne hs hx hd)
        exact ⟨b, List.mem_append_left _ hb, hbx, hstored⟩
    · rw [hacc.history, if_pos hframe, List.nil_append, hacc.served.history] at hv
      simp only [List.mem_cons, List.mem_append, reduceCtorEq, false_or] at hv
      rcases hv with harr | hev | hold
      · cases m <;> simp [Sim.arrivals] at harr
      · cases m <;> simp [Sim.evictions, Sim.pageouts, Move.victim] at hev
      · exact hhist v hold

/-- Every access finds its own address stored in its page, and no access is reported to
find anything else. -/
theorem address_found (hP : P.OnlyRef)
    (hio : ∀ n, (env.io n).Succeeds) {trace : List Access} (htrace : OneAddressPerPage trace) :
    (∀ pre a s memptr t,
      Performs env P swapsize (Sim.start memsize physmem alg) trace pre a s memptr t →
        t.physmem.load (memptr + 4) 8 = a.vaddr.toNat) ∧
    ∀ s, simulate env P swapsize trace (Sim.start memsize physmem alg) = .ok () s →
      ∀ v, Event.wrongContent v ∉ s.history := by
  have hrun : ∀ pre s, simulate env P swapsize pre (Sim.start memsize physmem alg) = .ok () s → _ :=
    storesAddresses_of_simulate hP hio htrace
  constructor
  · intro pre a s memptr t h
    obtain ⟨post, rfl⟩ := h.split
    obtain ⟨hs, hinv⟩ := hrun pre s h.before
    have hpre : ∀ b ∈ pre, b ∈ pre ++ a :: post := fun b hb => List.mem_append_left _ hb
    obtain ⟨_, m, c, _, rfl, hserved, _⟩ := hs.findPhyspage hP h.found
    rw [load_address]
    exact (hinv hpre).1.address_frame htrace hpre (by simp) hs hio hserved
  · intro s h
    exact ((hrun trace s h).2 fun _ hb => hb).2

/-- The third access of the alternation reads its page back from swap. -/
theorem address_found_of_alternation : ∃ s memptr t,
    Performs calmEnv fifo 4#32 (Sim.start 1 (fun _ => 0) 0) alternation (alternation.take 2)
      ⟨'L', 0x1000#64⟩ s memptr t ∧ t.physmem.load (memptr + 4) 8 = 0x1000 := by
  obtain ⟨_, s, hs, hrest⟩ := Program.exists_of_holds (show Program.holds
    (simulate calmEnv fifo 4#32 (alternation.take 2) (Sim.start 1 (fun _ => 0) 0)) (fun _ s =>
      Program.holds (findPhyspage calmEnv fifo 0x1000#64 'L' s) fun _ _ => true) = true
    by decide +kernel)
  obtain ⟨memptr, t, ht, _⟩ := Program.exists_of_holds hrest
  have hperforms : Performs calmEnv fifo 4#32 (Sim.start 1 (fun _ => 0) 0) alternation
      (alternation.take 2) ⟨'L', 0x1000#64⟩ s memptr t := ⟨⟨[], rfl⟩, hs, ht⟩
  exact ⟨s, memptr, t, hperforms, (address_found fifo_onlyRef (fun _ => ⟨rfl, rfl⟩)
    ⟨by decide, by decide⟩).1 _ _ _ _ _ hperforms⟩

/-! ## Version counters -/

/-- The number of writes to the page of an address. -/
def writes (trace : List Access) (vaddr : BitVec 64) : Nat :=
  trace.countP fun b => isWrite b.type && pageOf b.vaddr == pageOf vaddr

/-- Every address of the trace is page-aligned and below `2 ^ 36`. -/
def Aligned (trace : List Access) : Prop :=
  ∀ a ∈ trace, a.vaddr.toNat < 2 ^ 36 ∧ a.vaddr.toNat % 4096 = 0

instance (trace : List Access) : Decidable (Aligned trace) :=
  inferInstanceAs (Decidable (∀ a ∈ trace, _))

/-- Every access finds the number of earlier writes in the version counter of its page. -/
def VersionsKept (env : Env) (P : Policy σ) (swapsize : BitVec 32) (start : Sim σ)
    (trace : List Access) : Prop :=
  ∀ pre a s memptr t, Performs env P swapsize start trace pre a s memptr t →
    t.physmem.load memptr 4 = writes pre a.vaddr % 2 ^ 32

/-- The entry of a page says that the page is neither in memory nor on swap. -/
def NotHeld (s : Sim σ) (vaddr : BitVec 64) : Prop :=
  ∀ e, s.entry (pteOf vaddr) = some e →
    e.frame &&& pgValid = 0#32 ∧ e.frame &&& pgOnswap = 0#32

/-- No access finds a page that was written before neither in memory nor on swap. -/
def NoneForgotten (env : Env) (P : Policy σ) (swapsize : BitVec 32) (start : Sim σ)
    (trace : List Access) : Prop :=
  ∀ pre a s memptr t, Performs env P swapsize start trace pre a s memptr t →
    NotHeld s a.vaddr → writes pre a.vaddr % 2 ^ 32 = 0

theorem notHeld_iff (hs : Good s) {vaddr : BitVec 64} :
    NotHeld s vaddr ↔ s.pager.content (pteOf vaddr) = none := by
  rw [Pager.content_eq_none_iff hs.inv]
  change _ ↔ (s.status _).home = none ∧ (s.status _).swapped = false
  unfold NotHeld
  cases he : s.entry (pteOf vaddr) with
  | none => simp [Sim.status, he]
  | some e =>
    simp only [Option.some.injEq, forall_eq', Sim.status_of_entry he,
      PgtblEntry.and_pgValid_eq_zero_iff, PgtblEntry.and_pgOnswap_eq_zero_iff, PgtblEntry.status]
    cases e.valid <;> simp

/-- Pages with a content have counted the writes to them. -/
def CountsWrites (pre : List Access) (s : Sim σ) : Prop :=
  ∀ v c, s.pager.content (pteOf v) = some c → v.toNat < 2 ^ 36 →
    version c = writes pre v % 2 ^ 32

theorem writes_snoc (pre : List Access) (a : Access) (v : BitVec 64) :
    writes (pre ++ [a]) v =
      writes pre v + if isWrite a.type && pageOf a.vaddr == pageOf v then 1 else 0 := by
  rw [writes, List.countP_append, List.countP_singleton, writes]

/-- The version found for an access counts the earlier writes, if a page without content
has none. -/
theorem CountsWrites.version_frame {pre : List Access} {a : Access} (hs : Good s)
    (hio : ∀ n, (env.io n).Succeeds) (ha : a.vaddr.toNat < 2 ^ 36) (hcount : CountsWrites pre s)
    (hforgot : NotHeld s a.vaddr → writes pre a.vaddr % 2 ^ 32 = 0) {m : Move PtePtr}
    {c : List UInt8} (h : Served env s.counted (pteOf a.vaddr) a.vaddr a.type m c t) :
    version (t.pager.frame m.frame) = writes pre a.vaddr % 2 ^ 32 := by
  rcases h.content_cases hs.counted hio with hcontent | ⟨hnone, hfresh⟩
  · exact hcount a.vaddr _ hcontent ha
  · rw [hfresh, version_freshPage, hforgot ((notHeld_iff hs).mpr hnone)]

theorem countsWrites_of_simulate (hP : P.OnlyRef)
    (hio : ∀ n, (env.io n).Succeeds) {trace : List Access} (htrace : Aligned trace)
    (hforgot : NoneForgotten env P swapsize (Sim.start memsize physmem alg) trace) :
    ∀ pre s, simulate env P swapsize pre (Sim.start memsize physmem alg) = .ok () s →
      Good s ∧ ((∃ post, trace = pre ++ post) → CountsWrites pre s) := by
  apply simulate_induction hP fun pre s => (∃ post, trace = pre ++ post) → CountsWrites pre s
  · intro s _ hs _ v c hc _
    rw [hs.content] at hc
    cases hc
  · rintro pre s a m c u t hrun hs ih _ hfind hacc ⟨post, hpost⟩
    have hsplit : trace = pre ++ a :: post := by rw [hpost, List.append_assoc]; rfl
    have hcount := ih ⟨a :: post, hsplit⟩
    have ha : a.vaddr.toNat < 2 ^ 36 := (htrace a (by simp [hsplit])).1
    have hversion := hcount.version_frame hs hio ha
      (hforgot pre a s _ u ⟨⟨post, hsplit⟩, hrun, hfind⟩) hacc.served
    intro v d hd hv
    by_cases hx : pteOf v = pteOf a.vaddr
    · have hpage : pageOf a.vaddr = pageOf v := ((pteOf_eq_iff hv ha).mp hx).symm
      have hwrites : writes pre v = writes pre a.vaddr := by rw [writes, writes, hpage]
      rw [hx, hacc.content_self, Option.some.injEq] at hd
      rw [← hd, writes_snoc, hpage, hwrites]
      cases isWrite a.type with
      | true =>
        simp only [ite_true, version_bump, hversion, Bool.true_and, beq_self_eq_true]
        omega
      | false => simpa using hversion
    · have hpage : ¬ pageOf a.vaddr = pageOf v := fun h => hx ((pteOf_eq_iff hv ha).mpr h.symm)
      rw [writes_snoc, hcount v d (hacc.content_of_ne hs hx hd) hv]
      simp [hpage]

/-- Version counters count the writes exactly when no written page is forgotten. -/
theorem versionsKept_iff (hP : P.OnlyRef) (hio : ∀ n, (env.io n).Succeeds) {trace : List Access}
    (htrace : Aligned trace) :
    VersionsKept env P swapsize (Sim.start memsize physmem alg) trace ↔
      NoneForgotten env P swapsize (Sim.start memsize physmem alg) trace := by
  constructor
  · intro hkept pre a s memptr t h hnot
    have hs := good_of_simulate hP h.before
    obtain ⟨_, m, c, _, rfl, hserved, _⟩ := hs.findPhyspage hP h.found
    have hload := hkept pre a s _ t h
    rw [load_version] at hload
    rcases hserved.content_cases hs.counted hio with hcontent | ⟨_, hfresh⟩
    · rw [notHeld_iff hs] at hnot
      cases hnot.symm.trans hcontent
    · rw [← hload]
      exact congrArg version hfresh
  · intro hforgot pre a s memptr t h
    obtain ⟨post, hpost⟩ := h.split
    obtain ⟨hs, hinv⟩ := countsWrites_of_simulate hP hio htrace hforgot pre s h.before
    obtain ⟨_, m, c, _, rfl, hserved, _⟩ := hs.findPhyspage hP h.found
    rw [load_version]
    exact (hinv ⟨a :: post, hpost⟩).version_frame hs hio (htrace a (by simp [hpost])).1
      (hforgot pre a s _ t h) hserved

/-- No page is forgotten when each access finds its page in memory or on swap, or not written. -/
theorem noneForgotten_of_prefixes {start : Sim σ} {accesses : List Access}
    (h : ∀ k < accesses.length, ∀ a ∈ accesses[k]?, writes (accesses.take k) a.vaddr % 2 ^ 32 = 0 ∨
      Program.holds (simulate env P swapsize (accesses.take k) start) (fun _ s =>
        (s.entry (pteOf a.vaddr)).any fun e =>
          e.frame &&& pgValid ≠ 0#32 || e.frame &&& pgOnswap ≠ 0#32) = true) :
    NoneForgotten env P swapsize start accesses := by
  rintro pre a s memptr t ⟨⟨post, rfl⟩, hrun, -⟩ hnot
  have hnext : (pre ++ a :: post)[pre.length]? = some a := by
    rw [List.getElem?_append_right (Nat.le_refl _), Nat.sub_self]
    rfl
  have hprefix := h pre.length (by simp) a hnext
  rw [List.take_left] at hprefix
  refine hprefix.resolve_right fun hheld => ?_
  rw [hrun, Program.holds] at hheld
  cases he : s.entry (pteOf a.vaddr) with
  | none =>
    rw [he] at hheld
    cases hheld
  | some e =>
    obtain ⟨hvalid, honswap⟩ := hnot e he
    rw [he, Option.any_some, hvalid, honswap] at hheld
    cases hheld

/-- A page that is written again each time that it is read back from swap. -/
def rewritten : List Access :=
  [⟨'S', 0x1000#64⟩, ⟨'L', 0x2000#64⟩, ⟨'S', 0x1000#64⟩, ⟨'L', 0x2000#64⟩, ⟨'L', 0x1000#64⟩]

/-- The last access of that trace finds version two. -/
theorem versionsKept_of_rewritten :
    VersionsKept calmEnv fifo 4#32 (Sim.start 1 (fun _ => 0) 0) rewritten ∧
      ∃ s, simulate calmEnv fifo 4#32 rewritten (Sim.start 1 (fun _ => 0) 0) = .ok () s ∧
        s.physmem.load 0 4 = 2 := by
  refine ⟨(versionsKept_iff fifo_onlyRef (fun _ => ⟨rfl, rfl⟩) (by decide)).mpr
    (noneForgotten_of_prefixes (by decide +kernel)), ?_⟩
  obtain ⟨_, s, hs, hload⟩ := Program.exists_of_holds (show Program.holds
    (simulate calmEnv fifo 4#32 rewritten (Sim.start 1 (fun _ => 0) 0)) (fun _ s =>
      s.physmem.load 0 4 = 2) = true by decide +kernel)
  exact ⟨s, hs, of_decide_eq_true hload⟩

/-- A written page that is read back from swap, evicted clean and read again. -/
def forgottenWrite : List Access :=
  [⟨'S', 0x1000#64⟩, ⟨'L', 0x2000#64⟩, ⟨'L', 0x1000#64⟩, ⟨'L', 0x2000#64⟩, ⟨'L', 0x1000#64⟩]

/-- The last access of that trace finds version zero after one write. -/
theorem not_versionsKept : fifo.OnlyRef ∧ (∀ n, (calmEnv.io n).Succeeds) ∧
    Aligned forgottenWrite ∧
    ¬ VersionsKept calmEnv fifo 4#32 (Sim.start 1 (fun _ => 0) 0) forgottenWrite := by
  refine ⟨fifo_onlyRef, fun _ => ⟨rfl, rfl⟩, by decide, fun hkept => ?_⟩
  obtain ⟨_, s, hs, hrest⟩ := Program.exists_of_holds (show Program.holds
    (simulate calmEnv fifo 4#32 (forgottenWrite.take 4) (Sim.start 1 (fun _ => 0) 0)) (fun _ s =>
      Program.holds (findPhyspage calmEnv fifo 0x1000#64 'L' s) fun memptr t =>
        t.physmem.load memptr 4 == 0) = true by decide +kernel)
  obtain ⟨memptr, t, ht, hload⟩ := Program.exists_of_holds hrest
  have hzero : t.physmem.load memptr 4 = 0 := by simpa using hload
  have hone := hkept (forgottenWrite.take 4) ⟨'L', 0x1000#64⟩ s memptr t ⟨⟨[], rfl⟩, hs, ht⟩
  have hwrites : writes (forgottenWrite.take 4) 0x1000#64 % 2 ^ 32 = 1 := by decide
  rw [hzero] at hone
  exact absurd (hone.trans hwrites) (by decide)

end OsAssignments.Paging
