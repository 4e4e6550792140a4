import Mathlib.Data.Fintype.Card
import Mathlib.Logic.Function.Basic

/-!
# Demand paging over arbitrary pages and contents

A paged memory keeps each page in at most one frame and at most one swap slot. One
access either finds its page in a frame or moves it into one, possibly after another
page has left that frame. The invariant says that frames and pages point at each other
and that no slot has two owners; the contents form a flat map from pages, and one access
changes that map at its own page and at a page that is dropped without a copy.
-/

namespace OsAssignments

/-- What a page table knows about a page. -/
@[ext] structure PageStatus where
  /-- The frame that holds the page, when it is resident. -/
  home : Option Nat
  dirty : Bool
  /-- Whether the copy on swap is the page's current content. -/
  swapped : Bool
  slot : Option Nat

/-- The state of a paged memory. -/
@[ext] structure Pager (Page Content : Type) where
  status : Page → PageStatus
  holder : Nat → Option Page
  frame : Nat → Content
  store : Nat → Content
  taken : Nat → Bool

namespace Pager

variable {Page Content : Type}

/-! ## Operations -/

section Operations

variable [DecidableEq Page]

/-- A page that leaves its frame without being written back. -/
def drop (A : Pager Page Content) (q : Page) : Pager Page Content :=
  { A with status := Function.update A.status q { A.status q with home := none } }

/-- A page that leaves frame `f` and is written to slot `i`. -/
def writeBack (A : Pager Page Content) (q : Page) (f i : Nat) : Pager Page Content :=
  { A with
    status := Function.update A.status q
      { home := none, dirty := false, swapped := true, slot := some i }
    store := Function.update A.store i (A.frame f)
    taken := Function.update A.taken i true }

/-- A page that enters frame `f` with content `c`. -/
def bring (A : Pager Page Content) (p : Page) (f : Nat) (c : Content) : Pager Page Content :=
  { A with
    status := Function.update A.status p
      { home := some f, dirty := false, swapped := false, slot := (A.status p).slot }
    holder := Function.update A.holder f (some p)
    frame := Function.update A.frame f c }

/-- An access of a resident page that may write it. -/
def touch (A : Pager Page Content) (p : Page) (w : Bool) : Pager Page Content :=
  { A with
    status := Function.update A.status p { A.status p with dirty := (A.status p).dirty || w } }

/-- New content in a frame. -/
def put (A : Pager Page Content) (f : Nat) (c : Content) : Pager Page Content :=
  { A with frame := Function.update A.frame f c }

/-- How an access obtains the frame of its page. -/
inductive Move (Page : Type)
  /-- The page is already in frame `f`. -/
  | hit (f : Nat)
  /-- Frame `f` was free. -/
  | fill (f : Nat)
  /-- Page `q` was dropped from frame `f`. -/
  | dropped (f : Nat) (q : Page)
  /-- Page `q` was written from frame `f` to slot `i`. -/
  | wroteBack (f : Nat) (q : Page) (i : Nat)
  deriving DecidableEq

/-- The frame the page ends up in. -/
def Move.frame : Move Page → Nat
  | .hit f | .fill f | .dropped f _ | .wroteBack f _ _ => f

/-- The page that had to leave, if any. -/
def Move.victim : Move Page → Option Page
  | .hit _ | .fill _ => none
  | .dropped _ q | .wroteBack _ q _ => some q

/-- The memory once no page other than the accessed one needs the frame of the move. -/
def vacate (A : Pager Page Content) : Move Page → Pager Page Content
  | .hit _ | .fill _ => A
  | .dropped _ q => A.drop q
  | .wroteBack f q i => A.writeBack q f i

/-- The memory once page `p` is in its frame; `c` is its content if it was moved in. -/
def serve (A : Pager Page Content) (p : Page) (c : Content) : Move Page → Pager Page Content
  | .hit _ => A
  | m => (A.vacate m).bring p m.frame c

/-- A page that was moved in and then accessed. -/
theorem touch_bring (A : Pager Page Content) (p : Page) (f : Nat) (c : Content) (w : Bool) :
    (A.bring p f c).touch p w =
      { A with
        status := Function.update A.status p ⟨some f, w, false, (A.status p).slot⟩
        holder := Function.update A.holder f (some p)
        frame := Function.update A.frame f c } := by
  simp only [touch, bring, Function.update_self, Function.update_idem, Bool.false_or]

theorem serve_of_ne_hit (A : Pager Page Content) (p : Page) (c : Content) {m : Move Page}
    (hm : ∀ f, m ≠ .hit f) : A.serve p c m = (A.vacate m).bring p m.frame c := by
  cases m with
  | hit f => exact absurd rfl (hm f)
  | fill f => rfl
  | dropped f q => rfl
  | wroteBack f q i => rfl

end Operations

/-- When a move is possible. -/
def Enabled (A : Pager Page Content) (p : Page) : Move Page → Prop
  | .hit f => (A.status p).home = some f
  | .fill f => (A.status p).home = none ∧ A.holder f = none
  | .dropped f q => (A.status p).home = none ∧ A.holder f = some q ∧ (A.status q).dirty = false
  | .wroteBack f q i => (A.status p).home = none ∧ A.holder f = some q ∧
      (A.status q).dirty = true ∧
      ((A.status q).slot = some i ∨ (A.status q).slot = none ∧ A.taken i = false)

/-! ## The invariant -/

/-- Pages and frames point at each other and slots have at most one owner. -/
structure Inv (A : Pager Page Content) : Prop where
  home_iff : ∀ p f, (A.status p).home = some f ↔ A.holder f = some p
  home_of_dirty : ∀ p, (A.status p).dirty = true → (A.status p).home ≠ none
  home_of_swapped : ∀ p, (A.status p).swapped = true → (A.status p).home = none
  slot_of_swapped : ∀ p, (A.status p).swapped = true → (A.status p).slot ≠ none
  slot_inj : ∀ p q i, (A.status p).slot = some i → (A.status q).slot = some i → p = q
  slot_taken : ∀ p i, (A.status p).slot = some i → A.taken i = true

/-- A memory with no page anywhere. -/
def empty (frame store : Nat → Content) (taken : Nat → Bool) : Pager Page Content where
  status := fun _ => ⟨none, false, false, none⟩
  holder := fun _ => none
  frame := frame
  store := store
  taken := taken

theorem inv_empty (frame store : Nat → Content) (taken : Nat → Bool) :
    (empty frame store taken : Pager Page Content).Inv := by
  constructor <;> simp [empty]

variable {A : Pager Page Content} {p q : Page} {f i : Nat} {c : Content}

/-- The invariant of a memory from which the page in frame `f` has left while the frame
still names it; a move ends in such a state before its page enters. -/
structure Vacant (A : Pager Page Content) (f : Nat) : Prop where
  home_iff : ∀ p g, (A.status p).home = some g ↔ A.holder g = some p ∧ g ≠ f
  home_of_dirty : ∀ p, (A.status p).dirty = true → (A.status p).home ≠ none
  home_of_swapped : ∀ p, (A.status p).swapped = true → (A.status p).home = none
  slot_of_swapped : ∀ p, (A.status p).swapped = true → (A.status p).slot ≠ none
  slot_inj : ∀ p q i, (A.status p).slot = some i → (A.status q).slot = some i → p = q
  slot_taken : ∀ p i, (A.status p).slot = some i → A.taken i = true

theorem Inv.vacant_of_free (hA : A.Inv) (hf : A.holder f = none) : A.Vacant f where
  home_iff x g := by
    rw [hA.home_iff]
    constructor
    · intro h
      exact ⟨h, fun hg => by simp [hg, hf] at h⟩
    · exact fun h => h.1
  home_of_dirty := hA.home_of_dirty
  home_of_swapped := hA.home_of_swapped
  slot_of_swapped := hA.slot_of_swapped
  slot_inj := hA.slot_inj
  slot_taken := hA.slot_taken

/-- The frame of the victim is the only one that loses its page. -/
theorem Inv.home_of_holder (hA : A.Inv) (hf : A.holder f = some q) {x : Page} (hx : x ≠ q)
    (g : Nat) : (A.status x).home = some g ↔ A.holder g = some x ∧ g ≠ f := by
  rw [hA.home_iff]
  constructor
  · intro h
    refine ⟨h, fun hg => hx ?_⟩
    rw [hg, hf] at h
    exact (Option.some.inj h).symm
  · exact fun h => h.1

theorem Inv.holder_ne (hA : A.Inv) (hf : A.holder f = some q) {g : Nat}
    (hg : A.holder g = some q) : g = f := by
  have h₁ := (hA.home_iff q f).mpr hf
  have h₂ := (hA.home_iff q g).mpr hg
  exact (Option.some.inj (h₁.symm.trans h₂)).symm

theorem Inv.put (hA : A.Inv) (f : Nat) (c : Content) : (A.put f c).Inv :=
  ⟨hA.home_iff, hA.home_of_dirty, hA.home_of_swapped, hA.slot_of_swapped, hA.slot_inj,
    hA.slot_taken⟩

/-! ## Preservation -/

variable [DecidableEq Page]

/-- Status of every page after it is brought in. -/
theorem status_bring (x : Page) : ((A.bring p f c).status x) =
    if x = p then ⟨some f, false, false, (A.status p).slot⟩ else A.status x := by
  simp only [bring, Function.update_apply]

theorem status_drop (x : Page) : ((A.drop q).status x) =
    if x = q then { A.status q with home := none } else A.status x := by
  simp only [drop, Function.update_apply]

theorem status_writeBack (x : Page) : ((A.writeBack q f i).status x) =
    if x = q then ⟨none, false, true, some i⟩ else A.status x := by
  simp only [writeBack, Function.update_apply]

theorem status_touch (w : Bool) (x : Page) : ((A.touch p w).status x) =
    if x = p then { A.status p with dirty := (A.status p).dirty || w } else A.status x := by
  simp only [touch, Function.update_apply]

theorem Inv.vacant_drop (hA : A.Inv) (hf : A.holder f = some q)
    (hd : (A.status q).dirty = false) : (A.drop q).Vacant f where
  home_iff x g := by
    rw [status_drop]
    by_cases hx : x = q
    · subst hx
      simp only [ite_true, reduceCtorEq, false_iff, not_and, not_not]
      exact hA.holder_ne hf
    · rw [if_neg hx]
      exact hA.home_of_holder hf hx g
  home_of_dirty x := by
    rw [status_drop]
    by_cases hx : x = q
    · subst hx
      simp [hd]
    · rw [if_neg hx]
      exact hA.home_of_dirty x
  home_of_swapped x := by
    rw [status_drop]
    split
    · exact fun _ => rfl
    · exact hA.home_of_swapped x
  slot_of_swapped x := by
    rw [status_drop]
    split
    · exact hA.slot_of_swapped q
    · exact hA.slot_of_swapped x
  slot_inj x y j := by
    rw [status_drop, status_drop]
    have h := hA.slot_inj x y j
    split <;> split <;> simp_all
  slot_taken x j := by
    rw [status_drop]
    have h := hA.slot_taken x j
    split <;> simp_all [drop]

theorem Inv.vacant_writeBack (hA : A.Inv) (hf : A.holder f = some q)
    (hi : (A.status q).slot = some i ∨ (A.status q).slot = none ∧ A.taken i = false) :
    (A.writeBack q f i).Vacant f := by
  have hfresh : ∀ x, x ≠ q → (A.status x).slot ≠ some i := by
    intro x hx hs
    rcases hi with hi | ⟨_, hi⟩
    · exact hx (hA.slot_inj x q i hs hi)
    · rw [hA.slot_taken x i hs] at hi
      cases hi
  constructor
  · intro x g
    rw [status_writeBack]
    by_cases hx : x = q
    · subst hx
      simp only [ite_true, reduceCtorEq, false_iff, not_and, not_not]
      exact hA.holder_ne hf
    · rw [if_neg hx]
      exact hA.home_of_holder hf hx g
  · intro x
    rw [status_writeBack]
    split
    · simp
    · exact hA.home_of_dirty x
  · intro x
    rw [status_writeBack]
    split
    · exact fun _ => rfl
    · exact hA.home_of_swapped x
  · intro x
    rw [status_writeBack]
    split
    · simp
    · exact hA.slot_of_swapped x
  · intro x y j
    rw [status_writeBack, status_writeBack]
    by_cases hx : x = q <;> by_cases hy : y = q
    · exact fun _ _ => hx.trans hy.symm
    · simp only [hx, hy, ite_true, ite_false]
      rintro ⟨rfl⟩ h
      exact absurd h (hfresh y hy)
    · simp only [hx, hy, ite_true, ite_false]
      rintro h ⟨rfl⟩
      exact absurd h (hfresh x hx)
    · simp only [hx, hy, ite_false]
      exact hA.slot_inj x y j
  · intro x j
    rw [status_writeBack]
    simp only [writeBack, Function.update_apply]
    by_cases hj : j = i
    · simp [hj]
    · simp only [hj, ite_false]
      split
      · rintro ⟨rfl⟩
        exact absurd rfl hj
      · exact hA.slot_taken x j

/-- Once the page is in the vacant frame the invariant holds again. -/
theorem Vacant.inv_bring (hA : A.Vacant f) (hp : (A.status p).home = none) (c : Content) :
    (A.bring p f c).Inv := by
  constructor
  · intro x g
    rw [status_bring]
    simp only [bring, Function.update_apply]
    by_cases hx : x = p
    · subst hx
      by_cases hg : g = f
      · simp [hg]
      · have hn := hA.home_iff x g
        simp only [hp, reduceCtorEq, false_iff, not_and, not_not] at hn
        simp only [ite_true, Option.some.injEq, hg, ite_false]
        exact ⟨fun h => absurd h.symm hg, fun h => absurd (hn h) hg⟩
    · rw [if_neg hx, hA.home_iff]
      by_cases hg : g = f
      · simp [hg, Ne.symm hx]
      · simp [hg]
  · intro x
    rw [status_bring]
    split
    · simp
    · exact hA.home_of_dirty x
  · intro x
    rw [status_bring]
    split
    · simp
    · exact hA.home_of_swapped x
  · intro x
    rw [status_bring]
    split
    · simp
    · exact hA.slot_of_swapped x
  · intro x y j
    rw [status_bring, status_bring]
    have h := hA.slot_inj x y j
    split <;> split <;> simp_all
  · intro x j
    rw [status_bring]
    have h := hA.slot_taken x j
    split <;> simp_all [bring]

/-- Serving an access preserves the invariant, whichever move serves it. -/
theorem Inv.serve (hA : A.Inv) {m : Move Page} (hm : A.Enabled p m) (c : Content) :
    (A.serve p c m).Inv := by
  cases m with
  | hit f => exact hA
  | fill f => exact (hA.vacant_of_free hm.2).inv_bring hm.1 c
  | dropped f q =>
    obtain ⟨hp, hq, hd⟩ := hm
    refine (hA.vacant_drop hq hd).inv_bring ?_ c
    rw [status_drop]
    split
    · rfl
    · exact hp
  | wroteBack f q i =>
    obtain ⟨hp, hq, _, hi⟩ := hm
    refine (hA.vacant_writeBack hq hi).inv_bring ?_ c
    rw [status_writeBack]
    split
    · rfl
    · exact hp

/-- The served page is in the frame of the move. -/
theorem home_serve {m : Move Page} (hm : A.Enabled p m) (c : Content) :
    ((A.serve p c m).status p).home = some m.frame := by
  cases m with
  | hit f => exact hm
  | fill f => simp [Pager.serve, status_bring]
  | dropped f q => simp [Pager.serve, status_bring]
  | wroteBack f q i => simp [Pager.serve, status_bring]

theorem Inv.touch (hA : A.Inv) (hp : (A.status p).home = some f) (w : Bool) :
    (A.touch p w).Inv := by
  have hne : (A.status p).home ≠ none := by simp [hp]
  constructor
  · intro x g
    rw [status_touch]
    split
    · rename_i hx
      subst hx
      exact hA.home_iff x g
    · exact hA.home_iff x g
  · intro x
    rw [status_touch]
    split
    · exact fun _ => hne
    · exact hA.home_of_dirty x
  · intro x
    rw [status_touch]
    split
    · exact hA.home_of_swapped p
    · exact hA.home_of_swapped x
  · intro x
    rw [status_touch]
    split
    · exact hA.slot_of_swapped p
    · exact hA.slot_of_swapped x
  · intro x y j
    rw [status_touch, status_touch]
    have h := hA.slot_inj x y j
    split <;> split <;> simp_all
  · intro x j
    rw [status_touch]
    have h := hA.slot_taken x j
    split <;> simp_all [Pager.touch]

/-- Making room does not change the status of a page that stays in memory. -/
theorem status_vacate_of_home {m : Move Page} {x : Page}
    (hx : ((A.vacate m).status x).home = some f) : (A.vacate m).status x = A.status x := by
  cases m with
  | hit g => rfl
  | fill g => rfl
  | dropped g q =>
    simp only [vacate, status_drop] at hx ⊢
    split at hx
    · cases hx
    · rename_i hxq
      rw [if_neg hxq]
  | wroteBack g q i =>
    simp only [vacate, status_writeBack] at hx ⊢
    split at hx
    · cases hx
    · rename_i hxq
      rw [if_neg hxq]

/-- Every page in memory but the served one was there before. -/
theorem home_of_home_serve {m : Move Page} {c : Content} {x : Page} (hx : x ≠ p)
    (h : ((A.serve p c m).status x).home = some f) : (A.status x).home = some f := by
  cases m with
  | hit g => exact h
  | fill g | dropped g q | wroteBack g q i =>
    simp only [Pager.serve, status_bring, if_neg hx] at h
    rw [← status_vacate_of_home h]
    exact h

/-- Moving a page in does not change any slot. -/
theorem slot_serve (m : Move Page) (c : Content) (x : Page) :
    ((A.serve p c m).status x).slot = ((A.vacate m).status x).slot := by
  cases m with
  | hit f => rfl
  | fill f | dropped f q | wroteBack f q i =>
    simp only [Pager.serve, status_bring]
    split
    · rename_i hx
      rw [hx]
    · rfl

theorem slot_touch (w : Bool) (x : Page) :
    ((A.touch p w).status x).slot = (A.status x).slot := by
  rw [status_touch]
  split
  · rename_i hx
    rw [hx]
  · rfl

theorem store_serve (m : Move Page) (c : Content) : (A.serve p c m).store = (A.vacate m).store := by
  cases m <;> rfl

/-! ## Contents -/

omit [DecidableEq Page] in
/-- The current content of a page: in its frame, or on swap if that copy is current. -/
def content (A : Pager Page Content) (p : Page) : Option Content :=
  match (A.status p).home with
  | some f => some (A.frame f)
  | none => if (A.status p).swapped then (A.status p).slot.map A.store else none

omit [DecidableEq Page] in
theorem content_of_home (h : (A.status p).home = some f) : A.content p = some (A.frame f) := by
  simp only [content, h]

omit [DecidableEq Page] in
theorem content_of_swapped (hh : (A.status p).home = none) (hw : (A.status p).swapped = true)
    (hs : (A.status p).slot = some i) : A.content p = some (A.store i) := by
  simp only [content, hh, hw, hs, ite_true, Option.map_some]

omit [DecidableEq Page] in
theorem content_eq_none_iff (hA : A.Inv) :
    A.content p = none ↔ (A.status p).home = none ∧ (A.status p).swapped = false := by
  unfold content
  cases hh : (A.status p).home with
  | some f => simp
  | none =>
    cases hw : (A.status p).swapped with
    | false => simp
    | true =>
      have hs := hA.slot_of_swapped p hw
      simpa using hs

omit [DecidableEq Page] in
/-- The page that has to leave is not the one being served. -/
theorem Inv.victim_ne (hA : A.Inv) {m : Move Page} (hm : A.Enabled p m) (hq : m.victim = some q) :
    p ≠ q := by
  rintro rfl
  cases m with
  | hit f => cases hq
  | fill f => cases hq
  | dropped f q =>
    cases hq
    have hhome := (hA.home_iff p f).mpr hm.2.1
    rw [hm.1] at hhome
    cases hhome
  | wroteBack f q i =>
    cases hq
    have hhome := (hA.home_iff p f).mpr hm.2.1
    rw [hm.1] at hhome
    cases hhome

/-- Making room does not change the status of the page being served. -/
theorem Inv.status_vacate (hA : A.Inv) {m : Move Page} (hm : A.Enabled p m) :
    (A.vacate m).status p = A.status p := by
  cases m with
  | hit f => rfl
  | fill f => rfl
  | dropped f q => simp only [vacate, status_drop, if_neg (hA.victim_ne hm rfl)]
  | wroteBack f q i => simp only [vacate, status_writeBack, if_neg (hA.victim_ne hm rfl)]

/-- Making room does not overwrite the slot of a page that stays out of memory. -/
theorem Inv.store_vacate (hA : A.Inv) {m : Move Page} (hm : A.Enabled p m) {x : Page}
    (hx : m.victim ≠ some x) (hs : (A.status x).slot = some i) :
    (A.vacate m).store i = A.store i := by
  cases m with
  | hit f => rfl
  | fill f => rfl
  | dropped f q => rfl
  | wroteBack f q j =>
    have hij : i ≠ j := by
      rintro rfl
      rcases hm.2.2.2 with hj | ⟨_, hj⟩
      · exact hx (congrArg some (hA.slot_inj x q i hs hj).symm)
      · rw [hA.slot_taken x i hs] at hj
        cases hj
    simp only [vacate, writeBack, Function.update_of_ne hij]

theorem content_bring_of_ne {x : Page} (hx : x ≠ p) (hf : (A.status x).home ≠ some f)
    (c : Content) :
    (A.bring p f c).content x = A.content x := by
  unfold content
  rw [status_bring, if_neg hx]
  cases hh : (A.status x).home with
  | none => rfl
  | some g =>
    have hg : g ≠ f := fun hg => hf (hg ▸ hh)
    simp only [bring, Function.update_of_ne hg]

theorem Inv.content_drop (hA : A.Inv) (hf : A.holder f = some q) (x : Page) :
    (A.drop q).content x = if x = q then none else A.content x := by
  have hhome := (hA.home_iff q f).mpr hf
  have hsw : (A.status q).swapped = false := by
    cases hw : (A.status q).swapped with
    | false => rfl
    | true =>
      rw [hA.home_of_swapped q hw] at hhome
      cases hhome
  unfold content
  rw [status_drop]
  by_cases hx : x = q
  · simp [hx, hsw]
  · simp only [if_neg hx, drop]

theorem Inv.content_writeBack (hA : A.Inv) (hf : A.holder f = some q)
    (hi : (A.status q).slot = some i ∨ (A.status q).slot = none ∧ A.taken i = false) (x : Page) :
    (A.writeBack q f i).content x = A.content x := by
  have hhome := (hA.home_iff q f).mpr hf
  by_cases hx : x = q
  · subst hx
    rw [content_of_home hhome]
    simp [content, writeBack]
  · unfold content
    rw [status_writeBack, if_neg hx]
    cases hh : (A.status x).home with
    | some g => rfl
    | none =>
      cases hs : (A.status x).slot with
      | none => rfl
      | some j =>
        have hij : j ≠ i := by
          rintro rfl
          rcases hi with hi | ⟨_, hi⟩
          · exact hx (hA.slot_inj x q j hs hi)
          · rw [hA.slot_taken x j hs] at hi
            cases hi
        simp only [writeBack, Option.map_some, Function.update_of_ne hij]

/-- Serving an access changes the content of no other page, except that a page dropped
from its frame has none any more. -/
theorem Inv.content_serve_of_ne (hA : A.Inv) {m : Move Page} (hm : A.Enabled p m) {x : Page}
    (hx : x ≠ p) (c : Content) :
    (A.serve p c m).content x = if m = .dropped m.frame x then none else A.content x := by
  cases m with
  | hit f => rfl
  | fill f =>
    have hhome : (A.status x).home ≠ some f := by
      rw [ne_eq, hA.home_iff, hm.2]
      exact nofun
    simp only [Pager.serve, Pager.vacate, Move.frame, content_bring_of_ne hx hhome, reduceCtorEq,
      ite_false]
  | dropped f q =>
    obtain ⟨_, hq, hd⟩ := hm
    have hhome : ((A.drop q).status x).home ≠ some f := by
      rw [ne_eq, (hA.vacant_drop hq hd).home_iff]
      exact fun h => h.2 rfl
    simp only [Pager.serve, Pager.vacate, Move.frame, content_bring_of_ne hx hhome,
      hA.content_drop hq, Move.dropped.injEq, true_and, eq_comm]
  | wroteBack f q i =>
    obtain ⟨_, hq, _, hi⟩ := hm
    have hhome : ((A.writeBack q f i).status x).home ≠ some f := by
      rw [ne_eq, (hA.vacant_writeBack hq hi).home_iff]
      exact fun h => h.2 rfl
    simp only [Pager.serve, Pager.vacate, Move.frame, content_bring_of_ne hx hhome,
      hA.content_writeBack hq hi, reduceCtorEq, ite_false]

theorem content_touch (w : Bool) (x : Page) : (A.touch p w).content x = A.content x := by
  unfold content
  rw [status_touch]
  by_cases hx : x = p
  · simp only [hx, ite_true, touch]
  · rw [if_neg hx]
    rfl

/-- Overwriting the frame of a page changes the content of that page only. -/
theorem Inv.content_put (hA : A.Inv) (hp : (A.status p).home = some f) (c : Content) (x : Page) :
    (A.put f c).content x = if x = p then some c else A.content x := by
  unfold content
  by_cases hx : x = p
  · subst hx
    simp [Pager.put, hp]
  · rw [if_neg hx]
    simp only [Pager.put]
    cases hh : (A.status x).home with
    | none => rfl
    | some g =>
      have hg : g ≠ f := by
        rintro rfl
        have h₁ := (hA.home_iff x g).mp hh
        have h₂ := (hA.home_iff p g).mp hp
        exact hx (Option.some.inj (h₁.symm.trans h₂))
      simp only [Function.update_of_ne hg]

/-! ## Pages that need room on swap -/

omit [DecidableEq Page] in
/-- A page that has a slot, or needs one when it leaves its frame. -/
def Stained (A : Pager Page Content) (x : Page) : Prop :=
  (A.status x).dirty = true ∨ (A.status x).slot ≠ none

/-- The page that leaves is given a slot only when it needs one. -/
theorem stained_of_vacate {m : Move Page} (hm : A.Enabled p m) {x : Page}
    (h : (A.vacate m).Stained x) : A.Stained x := by
  unfold Stained at h ⊢
  cases m with
  | hit f | fill f => exact h
  | dropped f q =>
    rw [vacate, status_drop] at h
    split at h
    · rename_i hx
      exact hx ▸ h
    · exact h
  | wroteBack f q i =>
    rw [vacate, status_writeBack] at h
    split at h
    · rename_i hx
      exact hx ▸ .inl hm.2.2.1
    · exact h

/-- A page that is moved in is clean. -/
theorem stained_of_serve {m : Move Page} (hm : A.Enabled p m) {x : Page}
    (h : (A.serve p c m).Stained x) : A.Stained x := by
  refine stained_of_vacate hm ?_
  have hslot := slot_serve (A := A) (p := p) m c x
  cases m with
  | hit f => exact h
  | fill f | dropped f q | wroteBack f q i =>
    refine h.imp (fun hdirty => ?_) fun hnone => hslot ▸ hnone
    simp only [serve, status_bring] at hdirty
    split at hdirty
    · cases hdirty
    · exact hdirty

/-- Only a write stains the page accessed. -/
theorem stained_touch_iff (w : Bool) (x : Page) :
    (A.touch p w).Stained x ↔ A.Stained x ∨ x = p ∧ w = true := by
  unfold Stained
  rw [status_touch]
  by_cases hx : x = p
  · rw [if_pos hx, hx, Bool.or_eq_true]
    tauto
  · rw [if_neg hx]
    tauto

end Pager

end OsAssignments
