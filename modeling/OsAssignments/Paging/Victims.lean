import OsAssignments.Paging.Outcome

/-!
# Accesses that need a victim

A simulation asks its replacement algorithm for a victim exactly when an access finds its
page absent and all frames in use. A statement about the chosen victims is therefore one
about the states in which such an access begins.
-/

namespace OsAssignments.Paging

open Pager (Move)

variable {σ : Type} {env : Env} {P : Policy σ} {swapsize : BitVec 32} {memsize : Nat}
  {physmem : Memory} {alg : σ} {s t u : Sim σ} {a : Access} {m : Move PtePtr} {c : List UInt8}
  {vaddr : BitVec 64} {type : Char}

/-- The access gets as far as `allocate_frame`, which finds every frame in use. -/
structure NeedsVictim (env : Env) (s : Sim σ) (vaddr : BitVec 64) : Prop where
  walks : Walks env s vaddr
  absent : (s.status (pteOf vaddr)).home = none
  full : s.freeFrame = none

/-- The same as a test of the state. -/
def needsVictim (env : Env) (vaddr : BitVec 64) (_ : Unit) (s : Sim σ) : Bool :=
  Program.holds (walk env vaddr s.counted) (fun p _ => p = pteOf vaddr) &&
    (s.status (pteOf vaddr)).home = none && s.freeFrame = none

theorem needsVictim_iff : needsVictim env vaddr () s = true ↔ NeedsVictim env s vaddr := by
  simp only [needsVictim, Bool.and_eq_true, decide_eq_true_eq]
  constructor
  · rintro ⟨⟨hwalk, habsent⟩, hfull⟩
    obtain ⟨p, u, hp, heq⟩ := Program.exists_of_holds hwalk
    obtain rfl : p = pteOf vaddr := by simpa using heq
    exact ⟨⟨u, hp⟩, habsent, hfull⟩
  · rintro ⟨⟨u, hu⟩, habsent, hfull⟩
    refine ⟨⟨?_, habsent⟩, hfull⟩
    simp [hu, Program.holds]

/-- In the simulation of a trace, access `a` needs a victim in state `s`, after the accesses
`pre` and before the accesses `post`. -/
structure Evicting (env : Env) (P : Policy σ) (swapsize : BitVec 32) (start : Sim σ)
    (trace pre : List Access) (a : Access) (post : List Access) (s : Sim σ) : Prop where
  split : trace = pre ++ a :: post
  before : simulate env P swapsize pre start = .ok () s
  needs : NeedsVictim env s a.vaddr

/-- The choice of a victim has a property that may depend on the pages of the frames and on
the history. -/
def Chose (Φ : Nat → List (Option PtePtr) → List Event → Prop) (ev : Event)
    (older : List Event) : Prop :=
  ∀ f pages, ev = .evict f pages → Φ f pages older

/-- With all frames in use, each of them holds a page, and different frames different ones. -/
theorem Good.pages_of_full (hs : Good s) (hfull : s.freeFrame = none)
    {f : Nat} (hf : f < s.memsize) :
    ∃ q, s.pages[f]? = some (some q) ∧ (s.status q).home = some f := by
  obtain ⟨q, hpte, hholder⟩ := hs.holder_of_inUse (Good.inUse_of_freeFrame_none hfull hf)
  refine ⟨q, ?_, (hs.inv.home_iff q f).mpr hholder⟩
  simp only [Sim.pages, List.getElem?_map, List.getElem?_range hf, Option.map_some, hpte]

/-! ## The pages accessed so far -/

def Event.accessed : Event → Option PtePtr
  | .access _ _ p => some p
  | _ => none

/-- The pages that were accessed, most recent access first. -/
def accessedPages (history : List Event) : List PtePtr := history.filterMap Event.accessed

/-- An access adds its page to the accessed ones. -/
theorem Accessed.accessedPages (h : Accessed env s a m c u t) :
    accessedPages t.history = pteOf a.vaddr :: accessedPages s.history := by
  have harrivals : (s.counted.arrivals (pteOf a.vaddr) c m).filterMap Event.accessed = [] := by
    cases m <;> simp only [Sim.arrivals] <;> first | rfl | (split <;> rfl)
  have hevictions : (s.counted.evictions m).filterMap Event.accessed = [] := by
    cases m <;> rfl
  rw [h.history, h.served.history]
  simp only [Paging.accessedPages, List.filterMap_append, List.filterMap_cons, Event.accessed,
    harrivals, hevictions, List.nil_append]
  split <;> rfl

/-! ## Choices in the history of one access -/

/-- The event is not the choice of a victim. -/
def Event.NoChoice (ev : Event) : Prop := ∀ f pages, ev ≠ .evict f pages

theorem each_chose_append {Φ : Nat → List (Option PtePtr) → List Event → Prop}
    {newer older : List Event} (hnewer : ∀ ev ∈ newer, ev.NoChoice) :
    Each (Chose Φ) (newer ++ older) ↔ Each (Chose Φ) older := by
  induction newer with
  | nil => rfl
  | cons ev newer ih =>
    obtain ⟨hev, hrest⟩ := List.forall_mem_cons.mp hnewer
    rw [← ih hrest, List.cons_append, each_cons]
    exact and_iff_right fun f pages h => absurd h (hev f pages)

theorem noChoice_pageouts (s : Sim σ) (m : Move PtePtr) : ∀ ev ∈ s.pageouts m, ev.NoChoice := by
  cases m with
  | hit f | fill f | dropped f q => simp [Sim.pageouts]
  | wroteBack f q i => simp [Sim.pageouts, Event.NoChoice]

theorem noChoice_arrivals (s : Sim σ) (p : PtePtr) (m : Move PtePtr) :
    ∀ ev ∈ s.arrivals p c m, ev.NoChoice := by
  have hrest : ∀ ev ∈ Event.load p m.frame ::
      (if (s.status p).swapped then [.pagein p c] else []), ev.NoChoice := by
    split <;> simp [Event.NoChoice]
  cases m with
  | hit f => simp [Sim.arrivals]
  | fill f | dropped f q | wroteBack f q i => exact hrest

/-- What an access records about the choice of a victim: nothing, when it needs none or the
algorithm refuses one, and otherwise the choice of the algorithm. -/
inductive ChoiceRecorded (env : Env) (P : Policy σ) (s : Sim σ) (vaddr : BitVec 64)
    (evs : List Event) : Prop
  | without (none : ∀ ev ∈ evs, ev.NoChoice) (refused : NeedsVictim env s vaddr → Refuses P s)
  | victim (f : Nat) (w : Sim σ) (newer : List Event) (needs : NeedsVictim env s vaddr)
      (chooses : Chooses P s f w) (none : ∀ ev ∈ newer, ev.NoChoice)
      (split : evs = newer ++ [.evict f s.pages])

theorem ChoiceRecorded.append {evs newer : List Event} (h : ChoiceRecorded env P s vaddr evs)
    (hnewer : ∀ ev ∈ newer, ev.NoChoice) : ChoiceRecorded env P s vaddr (newer ++ evs) := by
  cases h with
  | without hnone hrefused =>
    exact .without (List.forall_mem_append.mpr ⟨hnewer, hnone⟩) hrefused
  | victim f w evs' hneeds hchooses hnone hsplit =>
    refine .victim f w (newer ++ evs') hneeds hchooses
      (List.forall_mem_append.mpr ⟨hnewer, hnone⟩) ?_
    rw [hsplit, List.append_assoc]

/-- Making room records a choice exactly when there is a victim. -/
theorem choiceRecorded_evictions {v : Sim σ} (hwalks : Walks env s vaddr)
    (hm : s.pager.Enabled (pteOf vaddr) m) (hmiss : ∀ f, m ≠ .hit f)
    (hcons : Consulted P s m v) : ChoiceRecorded env P s vaddr (s.evictions m) := by
  cases hcons with
  | kept hvictim hhit _ =>
    refine .without ?_ fun hneeds => ?_
    · rw [Sim.evictions, if_pos hvictim, List.append_nil]
      exact noChoice_pageouts s m
    · obtain ⟨f, hf⟩ := hhit hneeds.full
      exact absurd hf (hmiss f)
  | chose w hvictim hchooses _ =>
    have habsent : (s.status (pteOf vaddr)).home = none := by
      cases m with
      | hit f => exact absurd rfl (hmiss f)
      | fill f | dropped f q | wroteBack f q i => exact hm.1
    refine .victim m.frame w (s.pageouts m) ⟨hwalks, habsent, hchooses.full⟩ hchooses
      (noChoice_pageouts s m) ?_
    rw [Sim.evictions, if_neg hvictim]

theorem Recorded.choice {evs : List Event} (h : Recorded env P s vaddr type evs) :
    ChoiceRecorded env P s vaddr evs := by
  cases h with
  | lost hlost => exact .without (List.forall_mem_nil _) fun hneeds => absurd hneeds.walks hlost
  | unfinished hwalks habsent hunfinished =>
    cases hunfinished with
    | refused hrefuses => exact .without (List.forall_mem_nil _) fun _ => hrefuses
    | chosen hchooses =>
      exact .victim _ _ [] ⟨hwalks, habsent, hchooses.full⟩ hchooses (List.forall_mem_nil _) rfl
    | full hchooses _ _ _ =>
      refine .victim _ _ [_] ⟨hwalks, habsent, hchooses.full⟩ hchooses ?_ rfl
      simp [Event.NoChoice]
    | vacated hm hmiss hcons => exact choiceRecorded_evictions hwalks hm hmiss hcons
    | unmapped c _ hm hmiss hcons =>
      refine (choiceRecorded_evictions hwalks hm hmiss hcons).append ?_
      split <;> simp [Event.NoChoice]
  | @served m c u v hwalks hserved hcons =>
    have hm : s.pager.Enabled (pteOf vaddr) m := hserved.enabled
    rw [← List.cons_append]
    by_cases hhit : ∃ f, m = .hit f
    · obtain ⟨f, rfl⟩ := hhit
      refine .without (by simp [Sim.arrivals, Sim.evictions, Sim.pageouts, Move.victim,
        Event.NoChoice]) fun hneeds => ?_
      have hhome : (s.status (pteOf vaddr)).home = some f := hm
      cases hneeds.absent.symm.trans hhome
    · refine (choiceRecorded_evictions hwalks hm (fun f hf => hhit ⟨f, hf⟩) hcons).append ?_
      exact List.forall_mem_cons.mpr ⟨by simp [Event.NoChoice], noChoice_arrivals s _ m⟩

theorem AccessRecorded.choice {evs : List Event} (h : AccessRecorded env P s a evs) :
    ChoiceRecorded env P s a.vaddr evs := by
  obtain ⟨evs', hevs, rfl | rfl⟩ := h
  · exact hevs.choice
  · exact hevs.choice.append (show ∀ ev ∈ [Event.wrongContent a.vaddr], ev.NoChoice by
      simp [Event.NoChoice])

/-! ## Choices in the history of a simulation -/

/-- Histories only grow. -/
theorem Good.suffix_runAll (hs : Good s) (hP : P.OnlyRef) (env : Env) (trace : List Access) :
    s.history <:+
      (Program.final (Program.runAll (Paging.accessMem env P) trace s)).history := by
  induction trace generalizing s with
  | nil => exact List.suffix_rfl
  | cons a trace ih =>
    obtain ⟨evs, hhist, _⟩ := hs.accessMem_records hP env a
    rw [Program.runAll]
    refine Program.final_bind (Q := fun t : Sim σ => s.history <:+ t.history) ?_ ?_
    · intro e t h
      rw [h] at hhist
      exact ⟨evs, hhist.symm⟩
    · intro _ t h
      rw [h] at hhist
      obtain ⟨_, m, c, u, _, hacc⟩ := hs.accessMem hP h
      exact .trans ⟨evs, hhist.symm⟩ (ih hacc.good)

/-- What an access of a simulation records is part of the history of the whole simulation. -/
theorem suffix_simulate (hP : P.OnlyRef) {trace pre post : List Access} (hs : Good s)
    (hsplit : trace = pre ++ a :: post)
    (h : simulate env P swapsize pre (Sim.start memsize physmem alg) = .ok () s) :
    (Program.final (accessMem env P a s)).history <:+ (Program.final
      (simulate env P swapsize trace (Sim.start memsize physmem alg))).history := by
  obtain ⟨s₀, hsetup, hpre⟩ := simulate_ok.mp h
  rw [simulate, Program.bind_of_ok hsetup, hsplit, Program.runAll_append_of_ok _ hpre,
    Program.runAll]
  refine Program.final_bind (Q := fun t : Sim σ =>
    (Program.final (accessMem env P a s)).history <:+ t.history) ?_ ?_
  · intro e t h
    rw [h]
    exact List.suffix_rfl
  · intro _ t h
    rw [h]
    obtain ⟨_, m, c, u, _, hacc⟩ := hs.accessMem hP h
    exact hacc.good.suffix_runAll hP env post

/-- In states with the given bookkeeping and coremap the algorithm chooses frame `f`. -/
def ChoosesFrame (P : Policy σ) (s : Sim σ) (f : Nat) : Prop :=
  ∀ v : Sim σ, v.bookkeeping = s.bookkeeping → v.coremap = s.coremap → v.memsize = s.memsize →
    ∃ w, P.evict v = .ok f w

/-- For an algorithm whose choices are known, a statement holds of all choices of a simulation
exactly when it holds in all states in which an access needs a victim. -/
theorem each_chose_iff (hP : P.OnlyRef) {trace : List Access}
    (Φ : Nat → List (Option PtePtr) → List Event → Prop) (choice : Sim σ → Nat)
    (hchoice : ∀ pre s, simulate env P swapsize pre (Sim.start memsize physmem alg) = .ok () s →
      s.freeFrame = none → ChoosesFrame P s (choice s)) :
    Each (Chose Φ) (Program.final
      (simulate env P swapsize trace (Sim.start memsize physmem alg))).history ↔
    ∀ pre a post s,
      Evicting env P swapsize (Sim.start memsize physmem alg) trace pre a post s →
      Φ (choice s) s.pages s.history := by
  constructor
  · intro heach pre a post s hevicting
    have hs := good_of_simulate hP hevicting.before
    obtain ⟨evs, hhist, hevs⟩ := hs.accessMem_records hP env a
    have hchooses := hchoice pre s hevicting.before hevicting.needs.full
    have heach' := heach.of_suffix (suffix_simulate hP hs hevicting.split hevicting.before)
    rw [hhist] at heach'
    cases hevs.choice with
    | without _ hrefused =>
      obtain ⟨v, e, w, hbook, hcore, hsize, herror⟩ := hrefused hevicting.needs
      obtain ⟨w', hw'⟩ := hchooses v hbook hcore hsize
      rw [herror] at hw'
      cases hw'
    | victim f w newer _ hf hnewer hsplit =>
      obtain ⟨_, v, hbook, hcore, hsize, hcall⟩ := hf
      obtain ⟨w', hw'⟩ := hchooses v hbook hcore hsize
      rw [hcall] at hw'
      obtain rfl : f = choice s := (EStateM.Result.ok.inj hw').1
      rw [hsplit, List.append_assoc, each_chose_append hnewer] at heach'
      exact (each_cons.mp heach').1 _ _ rfl
  · intro hΦ
    refine each_of_simulate hP (Chose Φ) ?_
    intro pre a post s evs hsplit hpre hs hevs heach
    cases hevs.choice with
    | without hnone _ => exact (each_chose_append hnone).mpr heach
    | victim f w newer hneeds hf hnewer hevs' =>
      obtain ⟨hfull, v, hbook, hcore, hsize, hcall⟩ := hf
      obtain ⟨w', hw'⟩ := hchoice pre s hpre hfull v hbook hcore hsize
      rw [hcall] at hw'
      obtain rfl : f = choice s := (EStateM.Result.ok.inj hw').1
      rw [hevs', List.append_assoc, each_chose_append hnewer]
      refine .cons ?_ heach
      rintro g pages ⟨rfl, rfl⟩
      exact hΦ pre a post s ⟨hsplit, hpre, hneeds⟩

end OsAssignments.Paging
