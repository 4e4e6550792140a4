import Mathlib.Data.Fintype.Prod
import OsAssignments.Paging.Entry
import OsAssignments.Paging.Simulator

/-!
# The simulator as a demand pager

The abstract pager of a simulator state has the page table entries as its pages and
blocks of sixteen bytes as its contents. `Good` is the invariant of the states between
two accesses. A replacement algorithm may change its own data and the `PG_REF` bits;
such a change is invisible in the abstract pager.
-/

namespace OsAssignments.Paging

variable {σ : Type}

namespace Sim

/-! ## The abstract pager -/

/-- The status of a page; a page whose table does not exist yet has never been used. -/
def status (s : Sim σ) (p : PtePtr) : PageStatus :=
  match s.entry p with
  | some e => e.status
  | none => ⟨none, false, false, none⟩

/-- The page a coremap entry in use points back to. -/
def holder (s : Sim σ) (f : Nat) : Option PtePtr :=
  if (s.coremap f).inUse then (s.coremap f).pte else none

/-- The pager a simulator state stands for. -/
def pager (s : Sim σ) : Pager PtePtr (List UInt8) where
  status := s.status
  holder := s.holder
  frame := fun f => s.physmem.bytes (f * simPageSize) simPageSize
  store := fun i => s.swapfile.bytes (i * simPageSize) simPageSize
  taken := s.swapmap.bit

theorem status_of_entry {s : Sim σ} {p : PtePtr} {e : PgtblEntry} (h : s.entry p = some e) :
    s.status p = e.status := by
  simp only [status, h]

/-- A valid entry's page is at home in the frame the entry names. -/
theorem home_of_valid {s : Sim σ} {p : PtePtr} {e : PgtblEntry} (he : s.entry p = some e)
    (hv : e.valid = true) : (s.status p).home = some e.number := by
  rw [status_of_entry he]
  simp only [PgtblEntry.status, hv, ite_true]

theorem home_of_invalid {s : Sim σ} {p : PtePtr} {e : PgtblEntry} (he : s.entry p = some e)
    (hv : e.valid = false) : (s.status p).home = none := by
  rw [status_of_entry he]
  simp only [PgtblEntry.status, hv, Bool.false_eq_true, ite_false]

/-- The entry of a page in a frame names this frame. -/
theorem number_of_home {s : Sim σ} {p : PtePtr} {e : PgtblEntry} {f : Nat}
    (he : s.entry p = some e) (hhome : (s.status p).home = some f) : e.number = f := by
  cases hv : e.valid with
  | true => exact Option.some.inj ((home_of_valid he hv).symm.trans hhome)
  | false =>
    rw [home_of_invalid he hv] at hhome
    cases hhome

theorem status_congr {s t : Sim σ} (h : t.entry = s.entry) : t.status = s.status := by
  funext p
  simp only [status, h]

/-- Writing an existing entry changes the status of its page only. -/
theorem status_setEntry {s : Sim σ} {p : PtePtr} {e e₀ : PgtblEntry} (h : s.entry p = some e₀) :
    (s.setEntry p e).status = Function.update s.status p e.status := by
  funext q
  by_cases hq : q = p
  · subst hq
    rw [status_of_entry (entry_setEntry_same h), Function.update_self]
  · rw [Function.update_of_ne hq, status, entry_setEntry_ne hq, status]

theorem holder_setFrame (s : Sim σ) (f : Nat) (p : PtePtr) (evic : Int) :
    (s.setFrame f ⟨true, some p, evic⟩).holder = Function.update s.holder f (some p) := by
  funext g
  by_cases hg : g = f
  · simp [hg, holder, setFrame]
  · simp [holder, setFrame, Function.update_of_ne hg]

end Sim

/-! ## What a replacement algorithm may change -/

/-- Between two states only `PG_REF` bits, the `evic` fields and the algorithm's own data
may differ. -/
structure ChangesOnlyRef (s t : Sim σ) : Prop where
  entry : ∀ p, Option.Rel PgtblEntry.SameButRef (s.entry p) (t.entry p)
  frame : ∀ f, (t.coremap f).inUse = (s.coremap f).inUse ∧ (t.coremap f).pte = (s.coremap f).pte
  rest : t = { s with pgdir := t.pgdir, coremap := t.coremap, alg := t.alg }

/-- A replacement algorithm whose functions change at most `PG_REF` bits of the page tables. -/
structure Policy.OnlyRef (P : Policy σ) : Prop where
  init : Program.Relates ChangesOnlyRef P.init
  ref : ∀ p, Program.Relates ChangesOnlyRef (P.ref p)
  evict : Program.Relates ChangesOnlyRef P.evict

namespace ChangesOnlyRef

theorem refl (s : Sim σ) : ChangesOnlyRef s s where
  entry p := by
    cases s.entry p with
    | none => exact .none
    | some e => exact .some (.refl e)
  frame _ := ⟨rfl, rfl⟩
  rest := rfl

theorem trans {s t u : Sim σ} (h : ChangesOnlyRef s t) (h' : ChangesOnlyRef t u) :
    ChangesOnlyRef s u where
  entry p := by
    have hs := h.entry p
    have ht := h'.entry p
    revert hs ht
    generalize s.entry p = x
    generalize t.entry p = y
    generalize u.entry p = z
    rintro (he | _) (he' | _)
    · exact .some (he.trans he')
    · exact .none
  frame f := ⟨(h'.frame f).1.trans (h.frame f).1, (h'.frame f).2.trans (h.frame f).2⟩
  rest := by
    have h₁ := h'.rest
    rw [h.rest] at h₁
    exact h₁

/-- A change of the algorithm's own data. -/
theorem of_alg (s : Sim σ) (alg : σ) : ChangesOnlyRef s (s.withAlg alg) where
  entry := (refl s).entry
  frame _ := ⟨rfl, rfl⟩
  rest := rfl

/-- A change of `evic` fields. -/
theorem of_evic (s : Sim σ) (coremap : Nat → Frame)
    (h : ∀ f, (coremap f).inUse = (s.coremap f).inUse ∧ (coremap f).pte = (s.coremap f).pte) :
    ChangesOnlyRef s { s with coremap := coremap } where
  entry := (refl s).entry
  frame := h
  rest := rfl

variable {s t : Sim σ}

/-- An entry on either side has a counterpart on the other. -/
theorem exists_entry (h : ChangesOnlyRef s t) {p : PtePtr} {e : PgtblEntry}
    (he : t.entry p = some e) : ∃ e₀, s.entry p = some e₀ ∧ e₀.SameButRef e := by
  have hp := h.entry p
  rw [he] at hp
  cases hs : s.entry p with
  | none =>
    rw [hs] at hp
    cases hp
  | some e₀ =>
    rw [hs] at hp
    cases hp with
    | some hr => exact ⟨e₀, rfl, hr⟩

theorem status_eq (h : ChangesOnlyRef s t) : t.status = s.status := by
  funext p
  have hp := h.entry p
  unfold Sim.status
  revert hp
  generalize s.entry p = x
  generalize t.entry p = y
  rintro (he | _)
  · exact he.status_eq
  · rfl

/-- The replacement algorithm cannot be seen in the abstract pager. -/
theorem pager_eq (h : ChangesOnlyRef s t) : t.pager = s.pager := by
  have hholder : t.holder = s.holder := by
    funext f
    simp only [Sim.holder, (h.frame f).1, (h.frame f).2]
  have hphys : t.physmem = s.physmem := by rw [h.rest]
  have hswap : t.swapfile = s.swapfile := by rw [h.rest]
  have hmap : t.swapmap = s.swapmap := by rw [h.rest]
  simp only [Sim.pager, h.status_eq, hholder, hphys, hswap, hmap]

theorem history_eq (h : ChangesOnlyRef s t) : t.history = s.history := by rw [h.rest]

theorem memsize_eq (h : ChangesOnlyRef s t) : t.memsize = s.memsize := by rw [h.rest]

theorem pages_eq (h : ChangesOnlyRef s t) : t.pages = s.pages := by
  simp only [Sim.pages, h.memsize_eq, (h.frame _).2]

end ChangesOnlyRef

/-- However it ends, the program changes at most what a replacement algorithm may change. -/
def OwnData {α : Type} (x : SimM σ α) : Prop := Program.Relates ChangesOnlyRef x

namespace OwnData

variable {α β : Type}

theorem bind {x : SimM σ α} {k : α → SimM σ β} (hx : OwnData x) (hk : ∀ a, OwnData (k a)) :
    OwnData (x >>= k) :=
  Program.Relates.bind (fun h h' => h.trans h') hx hk

theorem pure (a : α) : OwnData (Pure.pure a : SimM σ α) := fun s => .refl s

theorem get : OwnData (MonadState.get : SimM σ (Sim σ)) := fun s => .refl s

theorem require (e : Stop) (x : Option α) : OwnData (Program.require e x : SimM σ α) :=
  Program.Relates.require .refl e x

theorem readPte (p : PtePtr) : OwnData (Paging.readPte p : SimM σ PgtblEntry) := by
  intro s
  unfold Paging.readPte
  split <;> exact .refl s

end OwnData

/-! ## The invariant between two accesses -/

/-- The page table entries and the swap bitmap agree on the slots. -/
structure Booked (s : Sim σ) : Prop where
  sized : s.swapmap.Sized
  /-- A swap offset is unset or that of one of as many slots as there can be pages. -/
  offset : ∀ p e, s.entry p = some e → e.swapOff = invalidSwap ∨
    ∃ i, i < 2 ^ 24 ∧ i < s.swapmap.nbits.toNat ∧ e.swapOff = (i * simPageSize : Nat)
  /-- A slot marked in the bitmap belongs to some page. -/
  owned : ∀ i, i < s.swapmap.nbits.toNat → s.swapmap.bit i = true →
    ∃ p, (s.status p).slot = some i
  /-- The slot of a page lies inside the swap file. -/
  stored : ∀ p i, (s.status p).slot = some i → i * simPageSize + simPageSize ≤ s.swapfileSize

/-- Page tables, coremap and swap bitmap agree. -/
structure Good (s : Sim σ) : Prop extends Booked s where
  inv : s.pager.Inv
  /-- The frames in use come first. -/
  used : ∃ k, k ≤ s.memsize ∧ ∀ f, (s.coremap f).inUse = true ↔ f < k
  pte : ∀ f, (s.coremap f).inUse = true → (s.coremap f).pte ≠ none

namespace PgtblEntry

/-- The slot of an entry whose offset is that of a slot. -/
theorem slot_of_swapOff {e : PgtblEntry} {i : Nat} (hi : e.swapOff = (i * simPageSize : Nat)) :
    e.slot = some i := by
  have hne : e.swapOff ≠ invalidSwap := by
    rw [hi]
    simp only [invalidSwap]
    omega
  rw [slot, if_neg hne, hi, Int.toNat_natCast, Nat.mul_div_cancel _ (by decide)]

end PgtblEntry

namespace Booked

variable {s t : Sim σ}

/-- Entries may change as long as they keep their offsets; new entries have none. -/
theorem congr (hs : Booked s) (hmap : t.swapmap = s.swapmap)
    (hsize : t.swapfileSize = s.swapfileSize) (hslot : ∀ x, (t.status x).slot = (s.status x).slot)
    (hoff : ∀ x e, t.entry x = some e → e.swapOff = invalidSwap ∨
      ∃ e₀, s.entry x = some e₀ ∧ e.swapOff = e₀.swapOff) : Booked t where
  sized := by rw [hmap]; exact hs.sized
  offset x e he := by
    rcases hoff x e he with h | ⟨e₀, he₀, h⟩
    · exact .inl h
    · rw [h, hmap]
      exact hs.offset x e₀ he₀
  owned := by
    simp only [hmap, hslot]
    exact hs.owned
  stored := by
    simp only [hsize, hslot]
    exact hs.stored

/-- The replacement algorithm does not touch the slots. -/
theorem of_changesOnlyRef (hs : Booked s) (h : ChangesOnlyRef s t) : Booked t := by
  refine hs.congr (by rw [h.rest]) (by rw [h.rest]) (fun x => by rw [h.status_eq]) ?_
  intro x e he
  obtain ⟨e₀, he₀, hr⟩ := h.exists_entry he
  exact .inr ⟨e₀, he₀, hr.2.1⟩

/-- An entry may be overwritten by one with the same offset. -/
theorem setEntry (hs : Booked s) {p : PtePtr} {e e₀ : PgtblEntry} (he₀ : s.entry p = some e₀)
    (hoff : e.swapOff = e₀.swapOff) : Booked (s.setEntry p e) := by
  refine hs.congr rfl rfl (fun x => ?_) ?_
  · rw [Sim.status_setEntry he₀, Function.update_apply]
    split
    · rename_i hx
      rw [hx, Sim.status_of_entry he₀]
      change e.slot = e₀.slot
      rw [PgtblEntry.slot, hoff, PgtblEntry.slot]
    · rfl
  · intro x ex hx
    by_cases hxp : x = p
    · subst hxp
      obtain rfl := Option.some.inj ((Sim.entry_setEntry_same he₀).symm.trans hx)
      exact .inr ⟨e₀, he₀, hoff⟩
    · exact .inr ⟨ex, (Sim.entry_setEntry_ne hxp).symm.trans hx, rfl⟩

/-- The slots do not depend on the coremap. -/
theorem setFrame (hs : Booked s) (f : Nat) (fr : Frame) : Booked (s.setFrame f fr) :=
  ⟨hs.sized, hs.offset, hs.owned, hs.stored⟩

/-- The offset of an entry with a slot. -/
theorem swapOff_of_slot (hs : Booked s) {p : PtePtr} {e : PgtblEntry} (he : s.entry p = some e)
    {i : Nat} (hi : e.slot = some i) : e.swapOff = (i * simPageSize : Nat) := by
  rcases hs.offset p e he with hoff | ⟨j, _, _, hoff⟩
  · simp [PgtblEntry.slot, hoff] at hi
  · rw [PgtblEntry.slot_of_swapOff hoff] at hi
    rw [hoff, Option.some.inj hi]

/-- A swap offset survives the conversion to `int`. -/
theorem asInt_swapOff (hs : Booked s) {p : PtePtr} {e : PgtblEntry} (he : s.entry p = some e) :
    asInt e.swapOff = e.swapOff := by
  rcases hs.offset p e he with hoff | ⟨j, hj, _, hoff⟩
  · rw [hoff]
    decide
  · rw [hoff]
    simp only [asInt, simPageSize, Int.bmod_def]
    omega

/-- The slot allocated for a page without one is among the first `2 ^ 24`, because the
slots below it belong to different other pages. -/
theorem slot_lt (hs : Booked s) {q : PtePtr} (hq : (s.status q).slot = none) {i : Nat}
    (hi : i < s.swapmap.nbits.toNat) (hset : ∀ j, j < i → s.swapmap.bit j = true) :
    i < 2 ^ 24 := by
  have howner : ∀ j : Fin (i + 1), ∃ p, (s.status p).slot = if j < i then some j.val else none := by
    intro j
    by_cases hj : j.val < i
    · obtain ⟨p, hp⟩ := hs.owned j (by omega) (hset j hj)
      exact ⟨p, by rw [hp, if_pos hj]⟩
    · exact ⟨q, by rw [hq, if_neg hj]⟩
  choose owner howner using howner
  have hinj : Function.Injective fun j => ((owner j).dir, (owner j).tbl) := by
    intro j k hjk
    have heq : owner j = owner k := by
      obtain ⟨hdir, htbl⟩ := Prod.mk.inj hjk
      cases hj : owner j
      cases hk : owner k
      simp_all
    have hslot := (howner j).symm.trans
      ((congrArg (fun p => (s.status p).slot) heq).trans (howner k))
    apply Fin.ext
    have hj := j.isLt
    have hk := k.isLt
    split at hslot <;> split at hslot <;> simp_all; omega
  have hcard := Fintype.card_le_of_injective _ hinj
  simp only [Fintype.card_fin, Fintype.card_prod, ptrsPerPgdir, ptrsPerPgtbl] at hcard
  omega

end Booked

namespace Good

variable {s t : Sim σ}

/-- The replacement algorithm preserves the invariant. -/
theorem of_changesOnlyRef (hs : Good s) (h : ChangesOnlyRef s t) : Good t where
  toBooked := hs.toBooked.of_changesOnlyRef h
  inv := h.pager_eq ▸ hs.inv
  used := by
    simp only [h.memsize_eq, (h.frame _).1]
    exact hs.used
  pte f := by
    rw [(h.frame f).1, (h.frame f).2]
    exact hs.pte f

/-- The record of what happened is not part of the invariant. -/
theorem note (hs : Good s) (ev : Event) : Good (s.note ev) where
  toBooked := ⟨hs.sized, hs.offset, hs.owned, hs.stored⟩
  inv := hs.inv
  used := hs.used
  pte := hs.pte

theorem holder_of_inUse (hs : Good s) {f : Nat} (hf : (s.coremap f).inUse = true) :
    ∃ p, (s.coremap f).pte = some p ∧ s.holder f = some p := by
  obtain ⟨p, hp⟩ := Option.ne_none_iff_exists'.mp (hs.pte f hf)
  exact ⟨p, hp, by simp only [Sim.holder, hf, ite_true, hp]⟩

/-- The search for a free frame returns the least frame that is not in use. -/
theorem freeFrame_eq_some (hs : Good s) {f : Nat} (hf : s.freeFrame = some f) :
    f < s.memsize ∧ s.holder f = none ∧ ∀ g, (s.coremap g).inUse = true ↔ g < f := by
  obtain ⟨k, _, hk⟩ := hs.used
  obtain ⟨hfree, hmem, hmin⟩ := List.find?_range_eq_some.mp hf
  have hlt := List.mem_range.mp hmem
  have hnot : (s.coremap f).inUse = false := by simpa using hfree
  have hkf : ¬ f < k := by
    rw [← hk, hnot]
    exact Bool.false_ne_true
  have hfk : k = f := by
    rcases Nat.lt_or_ge k f with hlt' | hge
    · have hin := (hk k).mp (by simpa using hmin k hlt')
      omega
    · omega
  refine ⟨hlt, by simp [Sim.holder, hnot], fun g => ?_⟩
  rw [hk, hfk]

theorem inUse_of_freeFrame_none (hf : s.freeFrame = none) {f : Nat} (hlt : f < s.memsize) :
    (s.coremap f).inUse = true := by
  have hall := List.find?_range_eq_none.mp hf f hlt
  simpa using hall

/-- A page in a frame is in one of the machine's frames. -/
theorem home_lt (hs : Good s) {p : PtePtr} {f : Nat} (hp : (s.status p).home = some f) :
    f < s.memsize := by
  have hh : s.holder f = some p := (hs.inv.home_iff p f).mp hp
  obtain ⟨k, hk, hused⟩ := hs.used
  have hin : (s.coremap f).inUse = true := by
    cases hu : (s.coremap f).inUse with
    | true => rfl
    | false => simp [Sim.holder, hu] at hh
  have := (hused f).mp hin
  omega

end Good

end OsAssignments.Paging
