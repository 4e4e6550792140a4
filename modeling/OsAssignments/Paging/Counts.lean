import OsAssignments.Paging.Versions

/-!
# The event counters

Every reference is a hit or a miss, every miss fills a free frame or evicts a page, and an
eviction is counted dirty when the victim was written since it was last brought in. The
last fact is stated over the history of the run, which the counters do not look at.
-/

namespace OsAssignments.Paging

open Pager (Move)

variable {σ : Type} {env : Env} {P : Policy σ} {swapsize : BitVec 32} {memsize : Nat}
  {physmem : Memory} {alg : σ} {s t u : Sim σ} {a : Access} {m : Move PtePtr} {c : List UInt8}

/-! ## Dirty evictions in a history -/

/-- Whether a page was written after it was last brought into memory, in a history that
lists the newest event first. -/
def writtenSinceLoad : List Event → PtePtr → Bool
  | [], _ => false
  | .access type _ p :: older, x => p = x && isWrite type || writtenSinceLoad older x
  | .load p _ :: older, x => p ≠ x && writtenSinceLoad older x
  | _ :: older, x => writtenSinceLoad older x

/-- The page evicted when a frame is chosen. -/
def victimOf (frame : Nat) (pages : List (Option PtePtr)) : Option PtePtr := pages[frame]?.join

/-- The number of evictions whose victim was written since it was last brought in. -/
def dirtyEvictions : List Event → Nat
  | [] => 0
  | .evict frame pages :: older =>
    dirtyEvictions older + if (victimOf frame pages).any (writtenSinceLoad older) then 1 else 0
  | _ :: older => dirtyEvictions older

/-- The number of frames in use. -/
def Sim.usedFrames (s : Sim σ) : Nat := (List.range s.memsize).countP fun f => (s.coremap f).inUse

theorem usedFrames_eq {k : Nat} (hk : k ≤ s.memsize)
    (hused : ∀ f, (s.coremap f).inUse = true ↔ f < k) : s.usedFrames = k := by
  obtain ⟨n, hn⟩ := Nat.exists_eq_add_of_le hk
  have hfirst : (List.range k).countP (fun f => (s.coremap f).inUse) = k := by
    rw [List.countP_eq_length.mpr fun f hf => (hused f).mpr (List.mem_range.mp hf),
      List.length_range]
  rw [Sim.usedFrames, hn, List.range_add, List.countP_append, hfirst, Nat.add_eq_left,
    List.countP_eq_zero]
  intro f hf
  obtain ⟨i, _, rfl⟩ := List.mem_map.mp hf
  rw [hused]
  omega

/-- The victim of a frame in use is the page the frame holds. -/
theorem victimOf_pages (hs : Good s) {f : Nat} {q : PtePtr} (hq : s.holder f = some q) :
    victimOf f s.pages = some q := by
  unfold Sim.holder at hq
  split at hq
  · rename_i hin
    obtain ⟨k, hk, hused⟩ := hs.used
    have hlt : f < s.memsize := by
      have := (hused f).mp hin
      omega
    simp only [victimOf, Sim.pages, List.getElem?_map, List.getElem?_range hlt, Option.map_some,
      hq, Option.join_some]
  · cases hq

/-! ## The invariant -/

/-- The counters of a run of `pre` agree with its length, the frames in use and its history. -/
structure Tallied (pre : List Access) (s : Sim σ) : Prop where
  nonneg : 0 ≤ s.hitCount ∧ 0 ≤ s.missCount ∧ 0 ≤ s.evictCleanCount ∧ 0 ≤ s.evictDirtyCount
  refs : s.refCount = pre.length
  served : s.hitCount + s.missCount = pre.length
  misses : s.missCount = s.usedFrames + s.evictCleanCount + s.evictDirtyCount
  dirty : ∀ x f, (s.status x).home = some f →
    (s.status x).dirty = writtenSinceLoad s.history x
  evictions : s.evictDirtyCount = dirtyEvictions s.history

theorem countUp_eq {n : Int} (h₀ : 0 ≤ n) (h : n + 1 < 2 ^ 31) : countUp n = n + 1 := by
  rw [countUp, Int.bmod_def]
  omega

theorem writtenSinceLoad_wrongContent (v : BitVec 64) (b : Prop) [Decidable b] (h : List Event) :
    writtenSinceLoad ((if b then [] else [.wrongContent v]) ++ h) = writtenSinceLoad h := by
  split <;> rfl

theorem dirtyEvictions_wrongContent (v : BitVec 64) (b : Prop) [Decidable b] (h : List Event) :
    dirtyEvictions ((if b then [] else [.wrongContent v]) ++ h) = dirtyEvictions h := by
  split <;> rfl

theorem writtenSinceLoad_evictions (s : Sim σ) (m : Move PtePtr) (h : List Event) :
    writtenSinceLoad (s.evictions m ++ h) = writtenSinceLoad h := by
  cases m <;> rfl

/-- An access to a page that was moved in: only the access itself can have written it. -/
theorem writtenSinceLoad_arrivals (s : Sim σ) (p : PtePtr) (hm : ∀ f, m ≠ .hit f) (h : List Event) :
    writtenSinceLoad (s.arrivals p c m ++ h) = fun x => p ≠ x && writtenSinceLoad h x := by
  funext x
  have hrest : writtenSinceLoad ((if (s.status p).swapped then [Event.pagein p c] else []) ++ h) x =
      writtenSinceLoad h x := by
    split <;> rfl
  cases m with
  | hit f => exact absurd rfl (hm f)
  | fill f => exact congrArg (p ≠ x && ·) hrest
  | dropped f q => exact congrArg (p ≠ x && ·) hrest
  | wroteBack f q i => exact congrArg (p ≠ x && ·) hrest

theorem dirtyEvictions_arrivals (s : Sim σ) (p : PtePtr) (h : List Event) :
    dirtyEvictions (s.arrivals p c m ++ h) = dirtyEvictions h := by
  have hrest : dirtyEvictions ((if (s.status p).swapped then [Event.pagein p c] else []) ++ h) =
      dirtyEvictions h := by
    split <;> rfl
  cases m with
  | hit f => rfl
  | fill f => exact hrest
  | dropped f q => exact hrest
  | wroteBack f q i => exact hrest

theorem Good.inUse_iff (hs : Good s) (f : Nat) :
    (s.coremap f).inUse = true ↔ s.holder f ≠ none := by
  constructor
  · intro hin
    obtain ⟨p, _, hp⟩ := hs.holder_of_inUse hin
    rw [hp]
    exact nofun
  · intro hne
    unfold Sim.holder at hne
    split at hne
    · assumption
    · exact absurd rfl hne

/-- How many more frames are in use after a move. -/
def framesAdded : Move PtePtr → Nat
  | .fill _ => 1
  | .hit _ | .dropped _ _ | .wroteBack _ _ _ => 0

/-- One more frame is in use after a free frame was filled, and as many after other moves. -/
theorem usedFrames_served (hs : Good s) (ht : Good t)
    (hholder : t.holder = (s.pager.serve (pteOf a.vaddr) c m).holder)
    (hm : s.pager.Enabled (pteOf a.vaddr) m) :
    t.usedFrames = s.usedFrames + framesAdded m := by
  obtain ⟨k, hk, hused⟩ := hs.used
  obtain ⟨k', hk', hused'⟩ := ht.used
  rw [usedFrames_eq hk hused, usedFrames_eq hk' hused']
  have hiff : ∀ g, g < k' ↔ (s.pager.serve (pteOf a.vaddr) c m).holder g ≠ none := fun g => by
    rw [← hused', ht.inUse_iff, hholder]
  have hold : ∀ g, g < k ↔ s.pager.holder g ≠ none := fun g => by
    rw [← hused, hs.inUse_iff]
    rfl
  have hsame : ∀ f q, s.pager.holder f = some q → (∀ g, g < k' ↔
      Function.update s.pager.holder f (some (pteOf a.vaddr)) g ≠ none) → k' = k := by
    intro f q hq hup
    have hg : ∀ g, g < k' ↔ g < k := by
      intro g
      rw [hup, hold, Function.update_apply]
      split
      · rename_i hgf
        simp [hgf, hq]
      · rfl
    have h₁ := hg k
    have h₂ := hg k'
    omega
  cases m with
  | hit f =>
    have h₁ := (hiff k).trans (hold k).symm
    have h₂ := (hiff k').trans (hold k').symm
    change k' = k + 0
    omega
  | fill f =>
    have hup : ∀ g, g < k' ↔ g = f ∨ g < k := by
      intro g
      rw [hiff, hold]
      change Function.update s.pager.holder f _ g ≠ none ↔ _
      rw [Function.update_apply]
      split
      · rename_i hgf
        simp [hgf]
      · rename_i hgf
        simp [hgf]
    have hf : ¬ f < k := by
      rw [hold, hm.2]
      simp
    have h₁ := hup f
    have h₂ := hup k
    have h₃ := hup (k + 1)
    change k' = k + 1
    omega
  | dropped f q =>
    exact hsame f q hm.2.1 hiff
  | wroteBack f q i =>
    exact hsame f q hm.2.1 hiff

/-- The page of a frame was written since it was brought in exactly when it is dirty. -/
theorem Tallied.dirty_served {pre : List Access} (htally : Tallied pre s)
    (hacc : Accessed env s a m c u t) (x : PtePtr) (f : Nat) (hx : (t.status x).home = some f) :
    (t.status x).dirty = writtenSinceLoad t.history x := by
  have hstatus : t.status = u.status := by rw [hacc.rest]; rfl
  have hserved : u.status = ((s.pager.serve (pteOf a.vaddr) c m).touch (pteOf a.vaddr)
      (isWrite a.type)).status := congrArg Pager.status hacc.served.pager
  rw [hacc.history, writtenSinceLoad_wrongContent, hacc.served.history]
  change _ = (pteOf a.vaddr = x && isWrite a.type || writtenSinceLoad _ x)
  rw [hstatus] at hx ⊢
  rw [hserved, Pager.status_touch] at hx ⊢
  have hdirty := htally.dirty
  by_cases hhit : ∃ g, m = .hit g
  · obtain ⟨g, rfl⟩ := hhit
    have hhome : (s.status (pteOf a.vaddr)).home = some g := hacc.served.enabled
    change _ = (_ || writtenSinceLoad s.history x)
    by_cases hxp : x = pteOf a.vaddr
    · subst hxp
      simp only [ite_true, decide_true, Bool.true_and]
      rw [← hdirty _ g hhome, Bool.or_comm]
      rfl
    · rw [if_neg hxp] at hx ⊢
      simp only [Ne.symm hxp, decide_false, Bool.false_and, Bool.false_or]
      exact hdirty x f hx
  · have hmiss : ∀ g, m ≠ .hit g := fun g hg => hhit ⟨g, hg⟩
    rw [writtenSinceLoad_arrivals _ _ hmiss, writtenSinceLoad_evictions]
    rw [Pager.serve_of_ne_hit _ _ _ hmiss, Pager.status_bring] at hx ⊢
    by_cases hxp : x = pteOf a.vaddr
    · subst hxp
      simp
    · rw [if_neg hxp, Pager.status_bring, if_neg hxp] at hx ⊢
      simp only [ne_eq, Ne.symm hxp, not_false_eq_true, decide_true, Bool.true_and, decide_false,
        Bool.false_and, Bool.false_or]
      have hstay := Pager.status_vacate_of_home hx
      rw [hstay] at hx ⊢
      exact hdirty x f hx

/-- How many pages a move writes back. -/
def writeBacks : Move PtePtr → Nat
  | .wroteBack _ _ _ => 1
  | .hit _ | .fill _ | .dropped _ _ => 0

/-- An access adds a dirty eviction to the history when it writes a page back. -/
theorem Tallied.evictions_served {pre : List Access} (hs : Good s) (htally : Tallied pre s)
    (hacc : Accessed env s a m c u t) :
    dirtyEvictions t.history = dirtyEvictions s.history + writeBacks m := by
  rw [hacc.history, dirtyEvictions_wrongContent, hacc.served.history]
  change dirtyEvictions (_ ++ _) = _
  rw [dirtyEvictions_arrivals]
  have hwritten : ∀ f q, s.pager.holder f = some q →
      (victimOf f s.pages).any (writtenSinceLoad s.history) = (s.status q).dirty := by
    intro f q hq
    rw [victimOf_pages hs hq, Option.any_some]
    exact (htally.dirty q f ((hs.inv.home_iff q f).mpr hq)).symm
  have hm := hacc.served.enabled
  cases m with
  | hit f => rfl
  | fill f => rfl
  | dropped f q =>
    change dirtyEvictions s.history +
      (if (victimOf f s.pages).any (writtenSinceLoad s.history) then 1 else 0) = _
    rw [hwritten f q hm.2.1, show (s.status q).dirty = false from hm.2.2]
    rfl
  | wroteBack f q i =>
    change dirtyEvictions s.history +
      (if (victimOf f s.pages).any (writtenSinceLoad s.history) then 1 else 0) = _
    rw [hwritten f q hm.2.1, show (s.status q).dirty = true from hm.2.2.1]
    rfl

/-- One access keeps the counters exact as long as they do not wrap. -/
theorem Tallied.accessed {pre : List Access} (hs : Good s) (htally : Tallied pre s)
    (hlen : (pre ++ [a]).length < 2 ^ 31) (hacc : Accessed env s a m c u t) :
    Tallied (pre ++ [a]) t := by
  have hcounters : t.counters = s.counters.tally m := by
    rw [hacc.rest]
    exact hacc.served.counters
  have hhit : t.hitCount = (s.counters.tally m).hit := congrArg Counters.hit hcounters
  have hmiss : t.missCount = (s.counters.tally m).miss := congrArg Counters.miss hcounters
  have hclean : t.evictCleanCount = (s.counters.tally m).clean := congrArg Counters.clean hcounters
  have hdirty : t.evictDirtyCount = (s.counters.tally m).dirty := congrArg Counters.dirty hcounters
  have hrefs : t.refCount = countUp s.refCount := by
    rw [hacc.rest]
    exact hacc.served.refCount
  have hused := usedFrames_served (a := a) (c := c) hs hacc.good
    (by rw [hacc.rest]; exact congrArg Pager.holder hacc.served.pager) hacc.served.enabled
  have hevict := htally.evictions_served hs hacc
  obtain ⟨h₁, h₂, h₃, h₄⟩ := htally.nonneg
  have hservedCount := htally.served
  have hmisses := htally.misses
  rw [List.length_append, List.length_singleton] at hlen
  have hlength : ((pre ++ [a]).length : Int) = pre.length + 1 := by simp
  have hup : ∀ n : Int, 0 ≤ n → n ≤ pre.length → countUp n = n + 1 := fun n h₀ hn =>
    countUp_eq h₀ (by omega)
  have hrefs' : t.refCount = pre.length + 1 := by
    rw [hrefs, htally.refs, hup _ (by omega) le_rfl]
  have hevictions := htally.evictions
  -- Each move raises the same counters on both sides of every equation.
  have hall : (0 ≤ t.hitCount ∧ 0 ≤ t.missCount ∧ 0 ≤ t.evictCleanCount ∧ 0 ≤ t.evictDirtyCount) ∧
      t.hitCount + t.missCount = pre.length + 1 ∧
      t.missCount = t.usedFrames + t.evictCleanCount + t.evictDirtyCount ∧
      t.evictDirtyCount = dirtyEvictions t.history := by
    rw [hevict, hused, hhit, hmiss, hclean, hdirty]
    cases m with
    | hit f =>
      simp only [Counters.tally, Sim.counters, framesAdded, writeBacks,
        hup s.hitCount h₁ (by omega)]
      omega
    | fill f =>
      simp only [Counters.tally, Counters.evict, Sim.counters, framesAdded, writeBacks,
        hup s.missCount h₂ (by omega)]
      omega
    | dropped f q =>
      simp only [Counters.tally, Counters.evict, Sim.counters, framesAdded, writeBacks,
        hup s.missCount h₂ (by omega), hup s.evictCleanCount h₃ (by omega)]
      omega
    | wroteBack f q i =>
      simp only [Counters.tally, Counters.evict, Sim.counters, framesAdded, writeBacks,
        hup s.missCount h₂ (by omega), hup s.evictDirtyCount h₄ (by omega)]
      omega
  exact ⟨hall.1, by rw [hrefs', hlength], by rw [hlength]; exact hall.2.1, hall.2.2.1,
    htally.dirty_served hacc, hall.2.2.2⟩

theorem Fresh.tallied (hs : Fresh memsize swapsize s) : Tallied [] s := by
  have hhit : s.hitCount = 0 := congrArg Counters.hit hs.counters
  have hmiss : s.missCount = 0 := congrArg Counters.miss hs.counters
  have hclean : s.evictCleanCount = 0 := congrArg Counters.clean hs.counters
  have hdirty : s.evictDirtyCount = 0 := congrArg Counters.dirty hs.counters
  have hused : s.usedFrames = 0 := usedFrames_eq (Nat.zero_le _) fun f => by simp [hs.inUse]
  refine ⟨by omega, hs.refCount, by rw [hhit, hmiss]; rfl,
    by rw [hmiss, hused, hclean, hdirty]; rfl, ?_, by rw [hdirty, hs.history]; rfl⟩
  intro x f hx
  rw [hs.status] at hx
  cases hx

theorem tallied_of_simulate (hP : P.OnlyRef) :
    ∀ trace s, simulate env P swapsize trace (Sim.start memsize physmem alg) = .ok () s →
      Good s ∧ (trace.length < 2 ^ 31 → Tallied trace s) :=
  simulate_induction hP (fun trace s => trace.length < 2 ^ 31 → Tallied trace s)
    (fun _ _ hs _ => hs.tallied) fun pre _ _ _ _ _ _ _ hs ih _ _ hacc hlen =>
      (ih (by rw [List.length_append] at hlen; omega)).accessed hs hlen hacc

/-- After every sequence of accesses each of them was counted once, and so was each eviction, in
the right class. -/
theorem counters_exact (hP : P.OnlyRef) {trace : List Access} (hlen : trace.length < 2 ^ 31)
    (h : simulate env P swapsize trace (Sim.start memsize physmem alg) = .ok () s) :
    s.refCount = trace.length ∧ s.refCount = s.hitCount + s.missCount ∧
      s.missCount = s.usedFrames + s.evictCleanCount + s.evictDirtyCount ∧
      s.evictDirtyCount = dirtyEvictions s.history := by
  have htally := (tallied_of_simulate hP trace s h).2 hlen
  exact ⟨htally.refs, htally.refs.trans htally.served.symm, htally.misses, htally.evictions⟩

theorem counters_exact_of_alternation :
    ∃ s, simulate calmEnv fifo 4#32 alternation (Sim.start 1 (fun _ => 0) 0) = .ok () s ∧
      s.refCount = alternation.length ∧ s.refCount = s.hitCount + s.missCount ∧
      s.missCount = s.usedFrames + s.evictCleanCount + s.evictDirtyCount ∧
      s.evictDirtyCount = dirtyEvictions s.history := by
  obtain ⟨_, s, hs, _⟩ := Program.exists_of_holds (show Program.holds
    (simulate calmEnv fifo 4#32 alternation (Sim.start 1 (fun _ => 0) 0)) (fun _ _ => true) = true
    by decide +kernel)
  exact ⟨s, hs, counters_exact fifo_onlyRef (by decide) hs⟩

end OsAssignments.Paging
