import Mathlib.Logic.Relation
import OsAssignments.Library.LockOrder

/-!
# What holds while a lock is free

Tasks that run interleaved agree on a protocol: how a task that holds given locks may change the
shared state, and what holds of the state while a lock is free. Code follows the protocol when
it makes such changes only, and leaves what a lock promises where it gives the lock up, whatever
the other tasks do in between. Then every run keeps the promises.
-/

namespace OsAssignments

namespace Code

variable {ι σ α ε : Type}

/-! ## Protocols -/

/-- How a task that holds a set of locks may change the state, and what holds of the state while
a lock is free. A task that does not hold the lock leaves that alone. -/
structure Protocol (ι σ : Type) where
  may : Set ι → σ → σ → Prop
  inv : ι → σ → Prop
  keeps : ∀ {l H s s'}, l ∉ H → may H s s' → inv l s → inv l s'

namespace Protocol

variable {P : Protocol ι σ} {H : Set ι} {s s' : σ}

/-- A change by a task that holds none of the locks `H`. -/
def Other (P : Protocol ι σ) (H : Set ι) (s s' : σ) : Prop :=
  ∃ H', (∀ l ∈ H, l ∉ H') ∧ P.may H' s s'

/-- What tasks that hold none of the locks `H` preserve. -/
def Stable (P : Protocol ι σ) (H : Set ι) (A : σ → Prop) : Prop :=
  ∀ s s', P.Other H s s' → A s → A s'

/-- The promise of a lock is stable for the task that holds the lock. -/
theorem stable_inv {l : ι} (hl : l ∈ H) : P.Stable H (P.inv l) := by
  rintro s s' ⟨H', hdisjoint, hmay⟩ hs
  exact P.keeps (hdisjoint l hl) hmay hs

theorem Stable.and {A B : σ → Prop} (hA : P.Stable H A) (hB : P.Stable H B) :
    P.Stable H fun s => A s ∧ B s :=
  fun s s' hother h => ⟨hA s s' hother h.1, hB s s' hother h.2⟩

end Protocol

/-- Code that follows a protocol from the locks `H` on, in the state `s` and all that other tasks
make of it. -/
def Follows (P : Protocol ι σ) : Set ι → Code ι σ α → σ → Prop
  | H, ret _, _ => H = ∅
  | H, lock l c, s =>
    ∀ s', Relation.ReflTransGen (P.Other H) s s' → P.inv l s' → c.Follows P (insert l H) s'
  | H, unlock l c, s =>
    l ∈ H ∧ ∀ s', Relation.ReflTransGen (P.Other H) s s' →
      P.inv l s' ∧ c.Follows P (H \ {l}) s'
  | H, read c, s =>
    ∀ s', Relation.ReflTransGen (P.Other H) s s' → (c s').Follows P H s'
  | H, write g c, s =>
    ∀ s', Relation.ReflTransGen (P.Other H) s s' → P.may H s' (g s') ∧ c.Follows P H (g s')

variable {P : Protocol ι σ} {H : Set ι} {s s' : σ} {l : ι}

/-- Code goes on to follow the protocol when another task changes the state. -/
theorem Follows.other {c : Code ι σ α} (h : c.Follows P H s) (hother : P.Other H s s') :
    c.Follows P H s' := by
  cases c with
  | ret a => exact h
  | lock l c => exact fun t ht => h t (.head hother ht)
  | unlock l c => exact ⟨h.1, fun t ht => h.2 t (.head hother ht)⟩
  | read c => exact fun t ht => h t (.head hother ht)
  | write g c => exact fun t ht => h t (.head hother ht)

/-- What the code returns does not matter. -/
theorem Follows.void {c : Code ι σ α} (h : c.Follows P H s) : c.void.Follows P H s := by
  induction c generalizing H s with
  | ret a => exact h
  | lock l c ih => exact fun t ht hinv => ih (h t ht hinv)
  | unlock l c ih => exact ⟨h.1, fun t ht => ⟨(h.2 t ht).1, ih (h.2 t ht).2⟩⟩
  | read c ih => exact fun t ht => ih t (h t ht)
  | write g c ih => exact fun t ht => ⟨(h t ht).1, ih (h t ht).2⟩

/-! ## Rules

Each rule takes a stable assertion that holds before the operation. -/

section

variable {A : σ → Prop} {f : Unit → Code ι σ α}

/-- A stable assertion holds after all that other tasks do. -/
theorem Protocol.Stable.around (hA : P.Stable H A) (hs : A s)
    (h : Relation.ReflTransGen (P.Other H) s s') : A s' := by
  induction h with
  | refl => exact hs
  | tail _ hother ih => exact hA _ _ hother ih

theorem follows_pure {a : α} : (pure a : Code ι σ α).Follows P H s ↔ H = ∅ := Iff.rfl

theorem follows_acquire (hA : P.Stable H A) (hs : A s)
    (h : ∀ s', A s' → P.inv l s' → (f ()).Follows P (insert l H) s') :
    (acquire l >>= f).Follows P H s :=
  fun _ haround hinv => h _ (hA.around hs haround) hinv

theorem follows_release (hA : P.Stable H A) (hs : A s) (hl : l ∈ H)
    (h : ∀ s', A s' → P.inv l s' ∧ (f ()).Follows P (H \ {l}) s') :
    (release l >>= f).Follows P H s :=
  ⟨hl, fun _ haround => h _ (hA.around hs haround)⟩

theorem follows_get (hA : P.Stable H A) (hs : A s) {c : σ → Code ι σ α}
    (h : ∀ s', A s' → (c s').Follows P H s') : (get >>= c).Follows P H s :=
  fun _ haround => h _ (hA.around hs haround)

theorem follows_modify (hA : P.Stable H A) (hs : A s) {g : σ → σ}
    (h : ∀ s', A s' → P.may H s' (g s') ∧ (f ()).Follows P H (g s')) :
    (modify g >>= f).Follows P H s :=
  fun _ haround => h _ (hA.around hs haround)

end

/-! ## Runs -/

namespace Machine

variable [DecidableEq ι] {body : ε → Code ι σ Unit} {M M' : Machine ι σ} {move : Move ε}

/-- The locks that a task holds. -/
def held (M : Machine ι σ) (t : Nat) : Set ι := {l | M.owner l = some t}

omit [DecidableEq ι] in
/-- No lock has two owners. -/
theorem disjoint_held {t u : Nat} (h : t ≠ u) : ∀ l ∈ M.held t, l ∉ M.held u :=
  fun _ ht hu => h (Option.some.inj (Eq.trans (Eq.symm ht) hu))

/-- Every task follows the protocol, and what a free lock promises holds. -/
structure Obeys (P : Protocol ι σ) (M : Machine ι σ) : Prop where
  follows : ∀ t, (M.code t).Follows P (M.held t) M.state
  free : ∀ l, M.owner l = none → P.inv l M.state

omit [DecidableEq ι] in
/-- A task that changes the state, if at all, as it may leaves the other tasks following the
protocol. -/
theorem Obeys.update (h : M.Obeys P) {t : Nat} {c : Code ι σ Unit} {owner : ι → Option Nat} {s : σ}
    (hstate : s = M.state ∨ P.may (M.held t) M.state s)
    (hfollows : c.Follows P {l | owner l = some t} s)
    (hothers : ∀ u, u ≠ t → {l | owner l = some u} = M.held u)
    (hfree : ∀ l, owner l = none → P.inv l s) :
    Obeys P ⟨Function.update M.code t c, owner, s⟩ := by
  refine ⟨fun u => ?_, hfree⟩
  by_cases hu : u = t
  · subst hu
    simp only [Function.update_self]
    exact hfollows
  · simp only [Function.update_of_ne hu, held, hothers u hu]
    rcases hstate with rfl | hmay
    · exact h.follows u
    · exact (h.follows u).other ⟨_, disjoint_held hu, hmay⟩

/-- A move keeps the protocol, and changes the state only as the task that moves may. -/
theorem Obeys.step (h : M.Obeys P)
    (hstart : ∀ t e, move = .start t e → (body e).Follows P ∅ M.state)
    (hstep : M.step body move = some M') : M'.Obeys P ∧
      (M'.state = M.state ∨ ∃ t, move = .advance t ∧ P.may (M.held t) M.state M'.state) := by
  cases move with
  | start t e =>
    obtain ⟨⟨a, ha⟩, rfl⟩ := start_eq_some hstep
    have hnone := h.follows t
    rw [ha] at hnone
    refine ⟨h.update (.inl rfl) ?_ (fun _ _ => rfl) h.free, .inl rfl⟩
    rw [show {l | M.owner l = some t} = ∅ from hnone]
    exact hstart t e rfl
  | advance t =>
    have ht := h.follows t
    rcases advance_eq_some hstep with ⟨l, c, hc, hnone, rfl⟩ | ⟨l, c, hc, rfl⟩ | ⟨c, hc, rfl⟩ |
      ⟨g, c, hc, rfl⟩
    · rw [hc] at ht
      refine ⟨h.update (.inl rfl) ?_ (fun u hu => ?_) fun l' hl' => ?_, .inl rfl⟩
      · rw [owned_take]
        exact ht _ .refl (h.free l hnone)
      · exact owned_other (by simp [hnone]) (by simpa using Ne.symm hu)
      · by_cases hl : l' = l
        · simp [hl] at hl'
        · exact h.free l' (by rwa [Function.update_of_ne hl] at hl')
    · rw [hc] at ht
      obtain ⟨hmem, hrest⟩ := ht
      refine ⟨h.update (.inl rfl) ?_ (fun u hu => ?_) fun l' hl' => ?_, .inl rfl⟩
      · rw [owned_give]
        exact (hrest _ .refl).2
      · have hown : M.owner l = some t := hmem
        exact owned_other (by simpa [hown] using Ne.symm hu) (by simp)
      · by_cases hl : l' = l
        · exact hl ▸ (hrest _ .refl).1
        · exact h.free l' (by rwa [Function.update_of_ne hl] at hl')
    · rw [hc] at ht
      exact ⟨h.update (.inl rfl) (ht _ .refl) (fun _ _ => rfl) h.free, .inl rfl⟩
    · rw [hc] at ht
      obtain ⟨hmay, hrest⟩ := ht _ .refl
      refine ⟨h.update (.inr hmay) hrest (fun _ _ => rfl) fun l hl => ?_, .inr ⟨t, rfl, hmay⟩⟩
      have hnot : l ∉ M.held t := fun hmem => Option.some_ne_none t (Eq.trans (Eq.symm hmem) hl)
      exact P.keeps hnot hmay (h.free l hl)

/-- Moves that can be made and meet the condition in every state continue a run. -/
theorem Runs.replay {C : Machine ι σ → Move ε → Prop} {M₁ M₂ : Machine ι σ}
    {moves moves' : List (Move ε)} (h : Runs body C M moves M₁)
    (hC : ∀ move ∈ moves', ∀ M, C M move) (hmoves : M₁.stepAll body moves' = some M₂) :
    Runs body C M (moves ++ moves') M₂ := by
  induction moves' generalizing moves M₁ with
  | nil =>
    obtain rfl := Option.some.inj hmoves
    rwa [List.append_nil]
  | cons move moves' ih =>
    obtain ⟨M', hmove, hrest⟩ := Option.bind_eq_some_iff.mp hmoves
    rw [List.append_cons]
    exact ih (h.snoc (hC move List.mem_cons_self M₁) hmove)
      (fun move hmem => hC move (List.mem_cons_of_mem _ hmem)) hrest

/-- A run keeps the protocol, and a property of the state that every change keeps. -/
theorem Obeys.run {C : Machine ι σ → Move ε → Prop} {moves : List (Move ε)} {A : σ → Prop}
    (hA : ∀ H s s', P.may H s s' → A s → A s')
    (hstart : ∀ M t e, C M (.start t e) → A M.state → (body e).Follows P ∅ M.state)
    (hrun : Runs body C M moves M') (h : M.Obeys P) (hM : A M.state) :
    M'.Obeys P ∧ A M'.state := by
  have hkept : ∀ (M₁ : Machine ι σ) move M₂, C M₁ move → M₁.step body move = some M₂ →
      M₁.Obeys P ∧ A M₁.state → M₂.Obeys P ∧ A M₂.state := by
    rintro M₁ move M₂ hC hmove ⟨h₁, hA₁⟩
    obtain ⟨h₂, hchange⟩ := h₁.step (fun t e he => hstart M₁ t e (he ▸ hC) hA₁) hmove
    refine ⟨h₂, ?_⟩
    rcases hchange with heq | ⟨t, -, hmay⟩
    · exact heq ▸ hA₁
    · exact hA _ _ _ hmay hA₁
  exact hrun.induction hkept ⟨h, hM⟩

end Machine

end Code

end OsAssignments
