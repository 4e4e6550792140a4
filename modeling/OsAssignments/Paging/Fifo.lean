import OsAssignments.Paging.Coremap
import OsAssignments.Paging.Victims

/-!
# Which page first-in first-out replacement evicts

Frames fill from the lowest and are then replaced in the same order, so the `n`th page
brought into memory goes to frame `n` modulo the number of frames. The index that
`fifo_evict` keeps is therefore that of the page that has been in memory longest.
-/

namespace OsAssignments.Paging

open Pager (Move)

variable {env : Env} {swapsize : BitVec 32} {memsize : Nat} {physmem : Memory} {alg : Nat}
  {m : Move PtePtr} {c : List UInt8}

/-! ## The pages brought into memory -/

def Event.loaded : Event → Option PtePtr
  | .load p _ => some p
  | _ => none

/-- The pages that were brought into memory, most recent one first. -/
def loadedPages (history : List Event) : List PtePtr := history.filterMap Event.loaded

section

variable {σ : Type} {s t u : Sim σ} {p : PtePtr} {a : Access} {vaddr : BitVec 64} {type : Char}

theorem loadedPages_evictions (s : Sim σ) (m : Move PtePtr) :
    loadedPages (s.evictions m) = [] := by
  cases m <;> rfl

/-- An access to a page in memory brings in no page. -/
theorem Served.loadedPages_hit {f : Nat} (h : Served env s p vaddr type (.hit f) c t) :
    loadedPages t.history = loadedPages s.history := by
  rw [h.history]
  rfl

/-- An access to any other page brings it in. -/
theorem Served.loadedPages_miss (h : Served env s p vaddr type m c t) (hm : ∀ f, m ≠ .hit f) :
    loadedPages t.history = p :: loadedPages s.history := by
  have hevictions := loadedPages_evictions s m
  have harrivals : loadedPages (s.arrivals p c m) = [p] := by
    cases m with
    | hit f => exact absurd rfl (hm f)
    | fill f | dropped f q | wroteBack f q i =>
      simp only [Sim.arrivals, loadedPages]
      split <;> rfl
  rw [h.history]
  simp only [loadedPages, List.filterMap_append, List.filterMap_cons, Event.loaded]
    at hevictions harrivals ⊢
  rw [hevictions, harrivals]
  rfl

/-- Checking and writing the page brings in no page. -/
theorem Accessed.loadedPages_eq (h : Accessed env s a m c u t) :
    loadedPages t.history = loadedPages u.history := by
  rw [h.history]
  split <;> rfl

/-- After a miss the page holds the frame of the move. -/
theorem Served.holder_miss (h : Served env s p vaddr type m c t) (hm : ∀ f, m ≠ .hit f) :
    t.holder = Function.update s.holder m.frame (some p) := by
  have hpager := congrArg Pager.holder h.pager
  rw [Pager.serve_of_ne_hit _ _ _ hm, Pager.touch_bring] at hpager
  have hvacate : (s.pager.vacate m).holder = s.holder := by cases m <;> rfl
  rw [← hvacate]
  exact hpager

theorem Served.holder_hit {f : Nat} (h : Served env s p vaddr type (.hit f) c t) :
    t.holder = s.holder := congrArg Pager.holder h.pager

theorem Accessed.holder_eq (h : Accessed env s a m c u t) : t.holder = u.holder := by
  have hpager := congrArg Pager.holder h.pager
  split at hpager <;> exact hpager

theorem Good.isSome_holder_iff (hs : Good s) {f : Nat} :
    (s.holder f).isSome = true ↔ (s.coremap f).inUse = true := by
  constructor
  · intro h
    unfold Sim.holder at h
    split at h
    · assumption
    · cases h
  · intro h
    obtain ⟨p, _, hp⟩ := hs.holder_of_inUse h
    rw [hp]
    rfl

end

/-! ## The index between two accesses -/

variable {s t u v : Sim Nat} {p : PtePtr} {a : Access} {vaddr : BitVec 64} {type : Char}

/-- How many pages were brought into memory. -/
def Sim.loads (s : Sim Nat) : Nat := (loadedPages s.history).length

/-- Pages were brought into the frames in turn, and the index is that of the next turn. -/
structure Rotating (s : Sim Nat) : Prop where
  ind : s.alg = if s.loads < s.memsize then 0 else s.loads % s.memsize
  used : ∀ f, (s.holder f).isSome = true ↔ f < s.loads ∧ f < s.memsize
  held : ∀ i p, i < s.memsize → (loadedPages s.history)[i]? = some p →
    s.holder ((s.loads - 1 - i) % s.memsize) = some p

theorem Rotating.congr (h : Rotating s) (halg : t.alg = s.alg) (hsize : t.memsize = s.memsize)
    (hloaded : loadedPages t.history = loadedPages s.history) (hholder : t.holder = s.holder) :
    Rotating t := by
  have hloads : t.loads = s.loads := congrArg List.length hloaded
  refine ⟨?_, ?_, ?_⟩
  · rw [halg, hloads, hsize]
    exact h.ind
  · rw [hloads, hsize, hholder]
    exact h.used
  · rw [hloads, hsize, hloaded, hholder]
    exact h.held

/-- Fewer turns than there are frames lead to different frames. -/
theorem mod_ne_mod {x y n : Nat} (hlt : x < y) (hn : y - x < n) : x % n ≠ y % n := by
  intro heq
  have hdvd : n ∣ y - x := (Nat.modEq_iff_dvd' (by omega)).mp heq
  have := Nat.le_of_dvd (by omega) hdvd
  omega

/-- A page goes to the frame whose turn it is. -/
theorem Rotating.step (h : Rotating s) (hmem : 1 ≤ s.memsize) (hsize : t.memsize = s.memsize)
    (hloaded : loadedPages t.history = p :: loadedPages s.history)
    (hholder : t.holder = Function.update s.holder (s.loads % s.memsize) (some p))
    (halg : t.alg = if s.loads + 1 < s.memsize then 0 else (s.loads + 1) % s.memsize) :
    Rotating t := by
  have hloads : t.loads = s.loads + 1 := congrArg List.length hloaded
  have hmod := Nat.mod_lt s.loads (show s.memsize > 0 by omega)
  refine ⟨?_, fun f => ?_, fun i q hi hq => ?_⟩
  · rw [halg, hloads, hsize]
  · rw [hholder, hloads, hsize, Function.update_apply]
    split
    · rename_i hf
      subst hf
      refine iff_of_true rfl ⟨?_, hmod⟩
      exact Nat.lt_succ_of_le (Nat.mod_le _ _)
    · rename_i hf
      rw [h.used f]
      constructor
      · exact fun ⟨hn, hm⟩ => ⟨by omega, hm⟩
      · rintro ⟨hn, hm⟩
        refine ⟨?_, hm⟩
        rcases Nat.lt_or_eq_of_le (Nat.le_of_lt_succ hn) with hlt | rfl
        · exact hlt
        · exact absurd (Nat.mod_eq_of_lt hm).symm hf
  · rw [hsize] at hi ⊢
    rw [hloaded] at hq
    rw [hloads, hholder]
    cases i with
    | zero =>
      cases hq
      exact Function.update_self _ _ _
    | succ j =>
      rw [List.getElem?_cons_succ] at hq
      have hj : j < s.loads := (List.getElem?_eq_some_iff.mp hq).1
      rw [show s.loads + 1 - 1 - (j + 1) = s.loads - 1 - j by omega, Function.update_of_ne]
      · exact h.held j q (by omega) hq
      · exact mod_ne_mod (by omega) (by omega)

/-- All frames are in use only when as many pages have been brought in. -/
theorem Rotating.memsize_le_loads (h : Rotating s) (hs : Good s) (hmem : 1 ≤ s.memsize)
    (hfull : s.freeFrame = none) : s.memsize ≤ s.loads := by
  have hin := Good.inUse_of_freeFrame_none hfull (f := s.memsize - 1) (by omega)
  have := ((h.used _).mp (hs.isSome_holder_iff.mpr hin)).1
  omega

theorem fifoEvict_eq (hmem : 1 ≤ v.memsize) :
    fifo.evict v = .ok v.alg { v with alg := (v.alg + 1) % v.memsize } := by
  change fifoEvict v = _
  rw [fifoEvict, if_neg (by omega)]

/-- A free frame is given to a page only while frames are free, and in order. -/
theorem Rotating.fill (hs : Good s) (h : Rotating s) {f : Nat}
    (hserved : Served env s.counted p vaddr type (.fill f) c u) :
    f = s.loads ∧ s.loads < s.memsize := by
  obtain ⟨k, hk, hused⟩ := hs.used
  obtain ⟨k', hk', hused'⟩ := hserved.good.used
  have hholder : u.holder = Function.update s.holder f (some p) :=
    hserved.holder_miss fun g hg => by cases hg
  have hbefore : ∀ g, g < s.loads ∧ g < s.memsize ↔ g < k := by
    intro g
    rw [← h.used, hs.isSome_holder_iff, hused]
  have hafter : ∀ g, g = f ∨ g < k ↔ g < k' := by
    intro g
    rw [← hused', ← hserved.good.isSome_holder_iff, hholder, Function.update_apply, ← hused,
      ← hs.isSome_holder_iff]
    by_cases hg : g = f
    · simp [hg]
    · simp [hg]
  have hfree : ¬ f < k := by
    have hnone : s.holder f = none := hserved.enabled.2
    rw [← hused, ← hs.isSome_holder_iff, hnone]
    exact Bool.false_ne_true
  have hsize : u.memsize = s.memsize := hserved.memsize
  have hf := (hafter f).mp (.inl rfl)
  have hkf := (hafter k).mpr
  have hkk := hbefore k
  have hkl := hbefore s.loads
  have hkp := hbefore (k - 1)
  omega

/-- Serving an access keeps the turns. -/
theorem Rotating.served (hs : Good s) (h : Rotating s) (hmem : 1 ≤ s.memsize)
    (hserved : Served env s.counted p vaddr type m c u) (hcons : Consulted fifo s m v)
    (halg : u.alg = v.alg) : Rotating u := by
  have hsize : u.memsize = s.memsize := hserved.memsize
  cases hcons with
  | kept hvictim _ hbook =>
    have hkept : u.alg = s.alg := halg.trans (Prod.mk.inj hbook).1
    cases m with
    | hit f => exact h.congr hkept hsize hserved.loadedPages_hit hserved.holder_hit
    | fill f =>
      have hmiss : ∀ g, (.fill f : Move PtePtr) ≠ .hit g := by
        intro g hg
        cases hg
      obtain ⟨rfl, hlt⟩ := h.fill hs hserved
      refine h.step hmem hsize (hserved.loadedPages_miss hmiss) ?_ ?_
      · rw [Nat.mod_eq_of_lt hlt]
        exact hserved.holder_miss hmiss
      · rw [hkept, h.ind, if_pos hlt]
        split
        · rfl
        · rw [show s.loads + 1 = s.memsize by omega, Nat.mod_self]
    | dropped f q | wroteBack f q i => cases hvictim
  | chose w hvictim hchooses hbook =>
    have hmiss : ∀ f, m ≠ .hit f := by
      rintro f rfl
      exact hvictim rfl
    obtain ⟨hfull, v', hbook', _, hsize', hcall⟩ := hchooses
    have hle := h.memsize_le_loads hs hmem hfull
    rw [fifoEvict_eq (by omega)] at hcall
    obtain ⟨hframe, hw⟩ := EStateM.Result.ok.inj hcall
    have hind : v'.alg = s.loads % s.memsize := by
      rw [show v'.alg = s.alg from (Prod.mk.inj hbook').1, h.ind, if_neg (by omega)]
    have hnext : v.alg = (v'.alg + 1) % v'.memsize := by
      rw [show v.alg = w.alg from (Prod.mk.inj hbook).1, ← hw]
    refine h.step hmem hsize (hserved.loadedPages_miss hmiss) ?_ ?_
    · rw [← hind, hframe]
      exact hserved.holder_miss hmiss
    · rw [halg, hnext, hind, hsize', Nat.mod_add_mod, if_neg (by omega)]

theorem rotating_of_simulate (hmem : 1 ≤ memsize) : ∀ trace s,
    simulate env fifo swapsize trace (Sim.start memsize physmem alg) = .ok () s →
      Good s ∧ Rotating s := by
  refine simulate_induction fifo_onlyRef (fun _ s => Rotating s) ?_ ?_
  · intro s hsetup hfresh
    obtain ⟨v, _, hinit⟩ := setup_init hsetup
    cases hinit
    have hloads : loadedPages v.history = [] := congrArg loadedPages hfresh.history
    have hsize : v.memsize = memsize := hfresh.memsize
    refine ⟨?_, fun f => ?_, fun i p _ hp => ?_⟩
    · change 0 = if (loadedPages v.history).length < v.memsize then 0 else _
      rw [hloads, if_pos (by rw [hsize]; exact hmem)]
    · rw [hfresh.holder f]
      change _ ↔ f < (loadedPages v.history).length ∧ _
      rw [hloads]
      exact iff_of_false Bool.false_ne_true fun h => Nat.not_lt_zero f h.1
    · change (loadedPages v.history)[i]? = some p at hp
      rw [hloads] at hp
      cases hp
  · intro pre s a m c u t hpre hs h _ hfind hacc
    have hsize : s.memsize = memsize := memsize_of_simulate fifo_onlyRef hpre
    obtain ⟨_, m', _, v, _, hserved, hcons, _, href⟩ := hs.findPhyspage fifo_onlyRef hfind
    cases href
    refine (h.served hs (by omega) hserved hcons rfl).congr ?_ ?_ hacc.loadedPages_eq hacc.holder_eq
    · rw [hacc.rest]
    · rw [hacc.rest]

/-! ## The pages evicted -/

/-- The frame holds the page that was brought into memory first among the pages in memory. -/
def Oldest (f : Nat) (pages : List (Option PtePtr)) (history : List Event) : Prop :=
  ∃ p, pages[f]? = some (some p) ∧ p ∈ loadedPages history ∧ ∀ q, some q ∈ pages → q ≠ p →
    (loadedPages history).idxOf q < (loadedPages history).idxOf p

theorem idxOf_le {α : Type} [DecidableEq α] {xs : List α} {x : α} {i : Nat}
    (h : xs[i]? = some x) : xs.idxOf x ≤ i := by
  obtain ⟨hi, rfl⟩ := List.getElem?_eq_some_iff.mp h
  by_contra hlt
  have hne := List.not_of_lt_findIdx (Nat.lt_of_not_le hlt)
  simp at hne

/-- With all frames in use, the page at index `i` of those brought in is in a frame that
depends on `i`. -/
theorem Rotating.exists_loaded (h : Rotating s) (hle : s.memsize ≤ s.loads) {f : Nat}
    (hf : s.holder f = some p) (hlt : f < s.memsize) :
    ∃ i, i < s.memsize ∧ (s.loads - 1 - i) % s.memsize = f ∧
      (loadedPages s.history)[i]? = some p := by
  have hi : (s.loads - 1 - f) % s.memsize < s.memsize := Nat.mod_lt _ (by omega)
  have hdiv := Nat.div_add_mod (s.loads - 1 - f) s.memsize
  generalize (s.loads - 1 - f) % s.memsize = i at hi hdiv
  have hframe : (s.loads - 1 - i) % s.memsize = f := by
    rw [show s.loads - 1 - i = s.memsize * ((s.loads - 1 - f) / s.memsize) + f by omega,
      Nat.mul_add_mod, Nat.mod_eq_of_lt hlt]
  have hlen : i < (loadedPages s.history).length := Nat.lt_of_lt_of_le hi hle
  refine ⟨i, hi, hframe, ?_⟩
  have hheld := h.held i _ hi (List.getElem?_eq_getElem hlen)
  rw [hframe, hf] at hheld
  rw [List.getElem?_eq_getElem hlen, Option.some.inj hheld]

/-- The index is that of the frame whose page has been in memory longest. -/
theorem Rotating.oldest (hs : Good s) (h : Rotating s) (hmem : 1 ≤ s.memsize)
    (hfull : s.freeFrame = none) : s.alg < s.memsize ∧ Oldest s.alg s.pages s.history := by
  have hle := h.memsize_le_loads hs hmem hfull
  have hind : s.alg = s.loads % s.memsize := by rw [h.ind, if_neg (by omega)]
  have hlt : s.alg < s.memsize := hind ▸ Nat.mod_lt _ (by omega)
  have hframe : ∀ i, i < s.memsize → (s.loads - 1 - i) % s.memsize = s.alg →
      i = s.memsize - 1 := by
    intro i hi hframe
    by_contra hne
    refine mod_ne_mod (x := s.loads - s.memsize) (y := s.loads - 1 - i) (n := s.memsize)
      (by omega) (by omega) ?_
    rw [hframe, hind, ← Nat.mod_eq_sub_mod hle]
  obtain ⟨p, hp, hhome⟩ := hs.pages_of_full hfull hlt
  have hholder : s.holder s.alg = some p := (hs.inv.home_iff p _).mp hhome
  obtain ⟨i, hi, hif, hip⟩ := h.exists_loaded hle hholder hlt
  obtain rfl := hframe i hi hif
  refine ⟨hlt, p, hp, List.mem_of_getElem? hip, fun q hq hqp => ?_⟩
  -- The page `q` of another frame was brought in after `p`.
  obtain ⟨g, hg, hpte⟩ := List.mem_map.mp hq
  rw [List.mem_range] at hg
  have hgholder : s.holder g = some q := by
    simp only [Sim.holder, Good.inUse_of_freeFrame_none hfull hg, ite_true, hpte]
  obtain ⟨j, hj, hjg, hjq⟩ := h.exists_loaded hle hgholder hg
  have hjne : j ≠ s.memsize - 1 := by
    rintro rfl
    rw [hip] at hjq
    exact hqp (Option.some.inj hjq).symm
  -- No later load is one of `p`, which is in no other frame.
  have hfirst : s.memsize - 1 ≤ (loadedPages s.history).idxOf p := by
    by_contra hless
    have hmem' : p ∈ loadedPages s.history := List.mem_of_getElem? hip
    have hget : (loadedPages s.history)[(loadedPages s.history).idxOf p]? = some p := by
      rw [List.getElem?_eq_getElem (List.idxOf_lt_length_of_mem hmem'), List.getElem_idxOf]
    have hheld := (hs.inv.home_iff p _).mpr (h.held _ p (by omega) hget)
    have := hframe _ (by omega) (Option.some.inj (hheld.symm.trans hhome))
    omega
  have hsecond := idxOf_le hjq
  omega

/-- Every call of `fifo_evict` returns the frame whose page was brought into memory first. -/
theorem evictsOldest (hmem : 1 ≤ memsize) (trace : List Access) :
    Each (Chose Oldest) (Program.final
      (simulate env fifo swapsize trace (Sim.start memsize physmem alg))).history ∧
    ∀ pre a post s, Evicting env fifo swapsize (Sim.start memsize physmem alg) trace pre a post s →
      ∃ f, ChoosesFrame fifo s f ∧ Oldest f s.pages s.history := by
  have hchoice : ∀ s : Sim Nat, s.memsize = memsize → ChoosesFrame fifo s s.alg := by
    intro s hs v hbook _ hsize
    rw [← show v.alg = s.alg from (Prod.mk.inj hbook).1]
    exact ⟨_, fifoEvict_eq (by omega)⟩
  have hevicting : ∀ pre a post s, Evicting env fifo swapsize (Sim.start memsize physmem alg)
      trace pre a post s → s.memsize = memsize ∧ Oldest s.alg s.pages s.history := by
    intro pre a post s h
    obtain ⟨hs, hrotating⟩ := rotating_of_simulate hmem pre s h.before
    have hsize := memsize_of_simulate fifo_onlyRef h.before
    exact ⟨hsize, (hrotating.oldest hs (by omega) h.needs.full).2⟩
  constructor
  · refine (each_chose_iff fifo_onlyRef Oldest (fun s => s.alg) fun pre s hpre _ => ?_).mpr ?_
    · exact hchoice s (memsize_of_simulate fifo_onlyRef hpre)
    · exact fun pre a post s h => (hevicting pre a post s h).2
  · intro pre a post s h
    obtain ⟨hsize, holdest⟩ := hevicting pre a post s h
    exact ⟨s.alg, hchoice s hsize, holdest⟩

/-- Three pages in two frames; the oldest one is used just before a third one comes. -/
def usedOldest : List Access :=
  [⟨'S', 0x1000#64⟩, ⟨'L', 0x2000#64⟩, ⟨'L', 0x1000#64⟩, ⟨'L', 0x3000#64⟩, ⟨'L', 0x1000#64⟩]

theorem evictsOldest_of_usedOldest :
    Each (Chose Oldest) (Program.final
      (simulate calmEnv fifo 4#32 usedOldest (Sim.start 2 (fun _ => 0) 0))).history ∧
    ∀ pre a post s, Evicting calmEnv fifo 4#32 (Sim.start 2 (fun _ => 0) 0) usedOldest pre a post
      s → ∃ f, ChoosesFrame fifo s f ∧ Oldest f s.pages s.history :=
  evictsOldest (by decide) usedOldest

end OsAssignments.Paging
