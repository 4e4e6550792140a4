import Mathlib.Data.Set.Insert
import OsAssignments.Library.LockedCode

/-!
# The order in which locks are taken

Tasks run codes one operation at a time, and a lock has one owner. In a deadlock every task
holds a lock and waits for one that another holds. Tasks that take locks in increasing order
are never in a deadlock. Where two locks are taken in both orders, there is none as long as no
task is between the two locks in one order while another is in the other order.
-/

namespace OsAssignments

namespace Code

variable {ι σ α β τ : Type}

/-! ## Owners of locks -/

/-- Tasks that run codes, the owner of each lock, and the shared state. -/
structure Machine (ι σ : Type) where
  code : Nat → Code ι σ Unit
  owner : ι → Option Nat
  state : σ

/-- A task that runs nothing starts a new code, or a task does its next operation. -/
inductive Move (ε : Type)
  | start (task : Nat) (entry : ε)
  | advance (task : Nat)

namespace Machine

variable {ε : Type} [DecidableEq ι]

/-- The next operation of a task, where it has one and does not have to wait. -/
def advance (M : Machine ι σ) (t : Nat) : Option (Machine ι σ) :=
  match M.code t with
  | ret _ => none
  | lock l c => if M.owner l = none then
      some ⟨Function.update M.code t c, Function.update M.owner l (some t), M.state⟩ else none
  | unlock l c => some ⟨Function.update M.code t c, Function.update M.owner l none, M.state⟩
  | read c => some ⟨Function.update M.code t (c M.state), M.owner, M.state⟩
  | write g c => some ⟨Function.update M.code t c, M.owner, g M.state⟩

def step (body : ε → Code ι σ Unit) (M : Machine ι σ) : Move ε → Option (Machine ι σ)
  | .advance t => M.advance t
  | .start t entry =>
    match M.code t with
    | ret _ => some { M with code := Function.update M.code t (body entry) }
    | _ => none

/-- A run of moves each of which meets a condition. -/
inductive Runs (body : ε → Code ι σ Unit) (C : Machine ι σ → Move ε → Prop) (M : Machine ι σ) :
    List (Move ε) → Machine ι σ → Prop
  | nil : Runs body C M [] M
  | snoc {moves : List (Move ε)} {move : Move ε} {M₁ M₂ : Machine ι σ} :
      Runs body C M moves M₁ → C M₁ move → M₁.step body move = some M₂ →
        Runs body C M (moves ++ [move]) M₂

/-- What every move that meets the condition preserves holds after the run. -/
theorem Runs.induction {body : ε → Code ι σ Unit} {C : Machine ι σ → Move ε → Prop}
    {M M' : Machine ι σ} {moves : List (Move ε)} {Inv : Machine ι σ → Prop}
    (hstep : ∀ M₁ move M₂, C M₁ move → M₁.step body move = some M₂ → Inv M₁ → Inv M₂)
    (h : Runs body C M moves M') (hM : Inv M) : Inv M' := by
  induction h with
  | nil => exact hM
  | snoc _ hC hs ih => exact hstep _ _ _ hC hs ih

/-- Make moves one after another. -/
def stepAll (body : ε → Code ι σ Unit) : Machine ι σ → List (Move ε) → Option (Machine ι σ)
  | M, [] => some M
  | M, move :: moves => (M.step body move).bind fun M₁ => M₁.stepAll body moves

/-- Moves that can be made continue a run. -/
theorem Runs.append {body : ε → Code ι σ Unit} {M M₁ M₂ : Machine ι σ}
    {moves moves' : List (Move ε)} (h : Runs body (fun _ _ => True) M moves M₁)
    (hmoves : M₁.stepAll body moves' = some M₂) :
    Runs body (fun _ _ => True) M (moves ++ moves') M₂ := by
  induction moves' generalizing moves M₁ with
  | nil =>
    obtain rfl := Option.some.inj hmoves
    rwa [List.append_nil]
  | cons move moves' ih =>
    obtain ⟨M', hmove, hrest⟩ := Option.bind_eq_some_iff.mp hmoves
    rw [List.append_cons]
    exact ih (h.snoc trivial hmove) hrest

/-- A task waits for a lock. -/
def Waits (M : Machine ι σ) (t : Nat) (l : ι) : Prop := ∃ c, M.code t = lock l c

/-- The lock that a task waits for. -/
def wanted (M : Machine ι σ) (t : Nat) : Option ι :=
  match M.code t with
  | lock l _ => some l
  | _ => none

omit [DecidableEq ι] in
theorem waits_of_wanted {M : Machine ι σ} {t : Nat} {l : ι} (h : M.wanted t = some l) :
    M.Waits t l := by
  rw [wanted] at h
  split at h
  · next l' c hc =>
    obtain rfl := Option.some.inj h
    exact ⟨c, hc⟩
  · cases h

/-- Every task of `T` holds a lock and waits for one that another task of `T` holds. -/
structure Deadlocked (M : Machine ι σ) (T : Set Nat) : Prop where
  nonempty : T.Nonempty
  holds : ∀ t ∈ T, ∃ l, M.owner l = some t
  waits : ∀ t ∈ T, ∃ l, M.Waits t l ∧ ∃ u ∈ T, u ≠ t ∧ M.owner l = some u

omit [DecidableEq ι] in
/-- Two tasks that wait for each other are in a deadlock. -/
theorem deadlocked_pair {M : Machine ι σ} {t u : Nat} {a b : ι} (htu : t ≠ u)
    (ha : M.owner a = some t) (hb : M.owner b = some u) (ht : M.Waits t b) (hu : M.Waits u a) :
    M.Deadlocked {t, u} := by
  refine ⟨⟨t, .inl rfl⟩, ?_, ?_⟩
  · rintro v (rfl | rfl)
    · exact ⟨a, ha⟩
    · exact ⟨b, hb⟩
  · rintro v (rfl | rfl)
    · exact ⟨b, ht, u, .inr rfl, htu.symm, hb⟩
    · exact ⟨a, hu, t, .inl rfl, htu, ha⟩

omit [DecidableEq ι] in
/-- Tasks that only wait for locks above those they hold are not in a deadlock. -/
theorem not_deadlocked_of_rank {M : Machine ι σ} (rank : ι → Nat) {bound : Nat}
    (hbound : ∀ l, rank l ≤ bound)
    (hrank : ∀ t l l', M.owner l = some t → M.Waits t l' → rank l < rank l') (T : Set Nat) :
    ¬ M.Deadlocked T := by
  intro h
  -- A task of `T` that waits leads to one that waits for a higher lock.
  have hclimb : ∀ n, ∀ t ∈ T, ∀ l, M.Waits t l → bound - rank l ≠ n := by
    intro n
    induction n using Nat.strong_induction_on with
    | _ n ih =>
      rintro t ht l ⟨c, hc⟩ hn
      obtain ⟨l', ⟨c', hc'⟩, u, hu, -, howner⟩ := h.waits t ht
      obtain rfl : l' = l := by
        rw [hc] at hc'
        exact (lock.inj hc').1.symm
      obtain ⟨l'', hwaits, -⟩ := h.waits u hu
      have hlt := hrank u l' l'' howner hwaits
      have hle := hbound l''
      exact ih (bound - rank l'') (by omega) u hu l'' hwaits rfl
  obtain ⟨t, ht⟩ := h.nonempty
  obtain ⟨l, hwaits, -⟩ := h.waits t ht
  exact hclimb _ t ht l hwaits rfl

end Machine

/-! ## Two-phase sections -/

/-- The next operation on a lock may be to take `l`. -/
def Seeks (l : ι) : Code ι σ α → Prop
  | ret _ => False
  | lock l' _ => l' = l
  | unlock _ _ => False
  | read c => ∃ s, (c s).Seeks l
  | write _ c => c.Seeks l

/-- Code that starts with the locks `H`, takes a lock only where `R` allows it on top of those
held, gives up what it holds, and takes no lock between the releases of a section. -/
def TwoPhase (R : Set ι → ι → Prop) (H : Set ι) : Code ι σ α → Prop
  | ret _ => H = ∅
  | lock l c => R H l ∧ c.TwoPhase R (insert l H)
  | unlock l c => l ∈ H ∧ (H \ {l} = ∅ ∨ ∀ l', ¬ c.Seeks l') ∧ c.TwoPhase R (H \ {l})
  | read c => ∀ s, (c s).TwoPhase R H
  | write _ c => c.TwoPhase R H


section

variable {R : Set ι → ι → Prop} {H : Set ι} {l l' : ι} {f : Unit → Code ι σ α}

@[simp] theorem twoPhase_pure (a : α) : (pure a : Code ι σ α).TwoPhase R H ↔ H = ∅ := Iff.rfl

@[simp] theorem twoPhase_acquire :
    (acquire l >>= f).TwoPhase R H ↔ R H l ∧ (f ()).TwoPhase R (insert l H) := Iff.rfl

@[simp] theorem twoPhase_release : (release l >>= f).TwoPhase R H ↔
    l ∈ H ∧ (H \ {l} = ∅ ∨ ∀ l', ¬ (f ()).Seeks l') ∧ (f ()).TwoPhase R (H \ {l}) := Iff.rfl

@[simp] theorem twoPhase_release_last :
    (release l : Code ι σ Unit).TwoPhase R H ↔ l ∈ H ∧ H \ {l} = ∅ :=
  and_congr_right fun _ => ⟨fun h => h.2, fun h => ⟨.inl h, h⟩⟩

@[simp] theorem twoPhase_get (c : σ → Code ι σ α) :
    (get >>= c).TwoPhase R H ↔ ∀ s, (c s).TwoPhase R H := Iff.rfl

@[simp] theorem twoPhase_modify (g : σ → σ) :
    (modify g >>= f).TwoPhase R H ↔ (f ()).TwoPhase R H := Iff.rfl

@[simp] theorem seeks_release : ¬ (release l >>= f).Seeks l' := id

end

/-- Run code for its effect. -/
def void (c : Code ι σ α) : Code ι σ Unit := c >>= fun _ => pure ()

theorem seeks_void {l : ι} {c : Code ι σ α} : c.void.Seeks l ↔ c.Seeks l := by
  induction c with
  | ret a => exact Iff.rfl
  | lock l' c ih => exact Iff.rfl
  | unlock l' c ih => exact Iff.rfl
  | read c ih => exact exists_congr fun s => ih s
  | write g c ih => exact ih

/-- What the code returns does not matter for its locks. -/
theorem TwoPhase.void {R : Set ι → ι → Prop} {H : Set ι} {c : Code ι σ α} (h : c.TwoPhase R H) :
    c.void.TwoPhase R H := by
  induction c generalizing H with
  | ret a => exact h
  | lock l c ih => exact ⟨h.1, ih h.2⟩
  | unlock l c ih =>
    exact ⟨h.1, h.2.1.imp_right fun hno l' => fun hs => hno l' (seeks_void.mp hs), ih h.2.2⟩
  | read c ih => exact fun s => ih s (h s)
  | write g c ih => exact ih h

theorem TwoPhase.seeks {R : Set ι → ι → Prop} {H : Set ι} {c : Code ι σ α} {l : ι}
    (h : c.TwoPhase R H) (hl : c.Seeks l) : R H l := by
  induction c with
  | ret a => exact hl.elim
  | lock l' c ih => exact hl ▸ h.1
  | unlock l' c ih => exact hl.elim
  | read c ih =>
    obtain ⟨s, hs⟩ := hl
    exact ih s (h s) hs
  | write g c ih => exact ih h hl

/-! ## Paths -/

/-- An operation on a lock. -/
inductive LockOp (ι : Type)
  | acquire (l : ι)
  | release (l : ι)

/-- The operations on locks along a path through the code, where every read may find any
state. -/
inductive Path : Code ι σ α → List (LockOp ι) → Prop
  | ret {a : α} : Path (ret a) []
  | lock {l : ι} {c : Code ι σ α} {ops : List (LockOp ι)} :
      Path c ops → Path (lock l c) (.acquire l :: ops)
  | unlock {l : ι} {c : Code ι σ α} {ops : List (LockOp ι)} :
      Path c ops → Path (unlock l c) (.release l :: ops)
  | read {c : σ → Code ι σ α} {ops : List (LockOp ι)} (s : σ) : Path (c s) ops → Path (read c) ops
  | write {g : σ → σ} {c : Code ι σ α} {ops : List (LockOp ι)} : Path c ops → Path (write g c) ops

/-- Operations of a task that holds the locks `H`: it takes only a lock that it does not hold,
gives up only a lock that it holds, and holds none in the end. -/
def Balanced : Set ι → List (LockOp ι) → Prop
  | H, [] => H = ∅
  | H, .acquire l :: ops => l ∉ H ∧ Balanced (insert l H) ops
  | H, .release l :: ops => l ∈ H ∧ Balanced (H \ {l}) ops

/-- Two-phase code that takes no lock twice is balanced on every path. -/
theorem TwoPhase.balanced {R : Set ι → ι → Prop} (hR : ∀ H l, R H l → l ∉ H) {H : Set ι}
    {c : Code ι σ α} {ops : List (LockOp ι)} (h : c.TwoPhase R H) (hpath : c.Path ops) :
    Balanced H ops := by
  induction hpath generalizing H with
  | ret => exact h
  | lock _ ih => exact ⟨hR H _ h.1, ih h.2⟩
  | unlock _ ih => exact ⟨h.1, ih h.2.2⟩
  | read s _ ih => exact ih (h s)
  | write _ ih => exact ih h

namespace Machine

variable {ε : Type} [DecidableEq ι] {R : Set ι → ι → Prop} {body : ε → Code ι σ Unit}
  {M M' : Machine ι σ} {move : Move ε}

/-- Every task runs two-phase code from the locks that it owns. -/
def Disciplined (R : Set ι → ι → Prop) (M : Machine ι σ) : Prop :=
  ∀ t, (M.code t).TwoPhase R {l | M.owner l = some t}

/-- A task holds `a` and is on its way to `b`. -/
def Nested (M : Machine ι σ) (t : Nat) (a b : ι) : Prop :=
  M.owner a = some t ∧ (M.code t).Seeks b

/-- What an advance does, one case for each operation. -/
theorem advance_eq_some {t : Nat} (h : M.advance t = some M') :
    (∃ l c, M.code t = lock l c ∧ M.owner l = none ∧
      M' = ⟨Function.update M.code t c, Function.update M.owner l (some t), M.state⟩) ∨
    (∃ l c, M.code t = unlock l c ∧
      M' = ⟨Function.update M.code t c, Function.update M.owner l none, M.state⟩) ∨
    (∃ c, M.code t = read c ∧
      M' = ⟨Function.update M.code t (c M.state), M.owner, M.state⟩) ∨
    ∃ g c, M.code t = write g c ∧ M' = ⟨Function.update M.code t c, M.owner, g M.state⟩ := by
  rw [advance] at h
  cases hc : M.code t with
  | ret a =>
    rw [hc] at h
    cases h
  | lock l c =>
    rw [hc] at h
    by_cases hfree : M.owner l = none
    · simp only [if_pos hfree, Option.some.injEq] at h
      exact .inl ⟨l, c, rfl, hfree, h.symm⟩
    · simp only [if_neg hfree, reduceCtorEq] at h
  | unlock l c =>
    rw [hc] at h
    cases h
    exact .inr (.inl ⟨l, c, rfl, rfl⟩)
  | read c =>
    rw [hc] at h
    cases h
    exact .inr (.inr (.inl ⟨c, rfl, rfl⟩))
  | write g c =>
    rw [hc] at h
    cases h
    exact .inr (.inr (.inr ⟨g, c, rfl, rfl⟩))

/-- What a start does. -/
theorem start_eq_some {t : Nat} {e : ε} (h : M.step body (.start t e) = some M') :
    (∃ a, M.code t = ret a) ∧ M' = { M with code := Function.update M.code t (body e) } := by
  rw [step] at h
  cases hc : M.code t with
  | ret a =>
    rw [hc] at h
    cases h
    exact ⟨⟨a, rfl⟩, rfl⟩
  | lock l c => rw [hc] at h; cases h
  | unlock l c => rw [hc] at h; cases h
  | read c => rw [hc] at h; cases h
  | write g c => rw [hc] at h; cases h

/-- The locks of a task that takes one more. -/
theorem owned_take (owner : ι → Option Nat) (l : ι) (t : Nat) :
    {l' | Function.update owner l (some t) l' = some t} = insert l {l' | owner l' = some t} := by
  ext l'
  by_cases hl : l' = l
  · simp [hl]
  · simp [hl]

/-- The locks of a task that gives one up. -/
theorem owned_give (owner : ι → Option Nat) (l : ι) (t : Nat) :
    {l' | Function.update owner l none l' = some t} = {l' | owner l' = some t} \ {l} := by
  ext l'
  by_cases hl : l' = l
  · simp [hl]
  · simp [hl]

/-- The locks of a task that is neither the old nor the new owner. -/
theorem owned_other {owner : ι → Option Nat} {l : ι} {x : Option Nat} {t : Nat}
    (hold : owner l ≠ some t) (hnew : x ≠ some t) :
    {l' | Function.update owner l x l' = some t} = {l' | owner l' = some t} := by
  ext l'
  by_cases hl : l' = l
  · simp [hl, hold, hnew]
  · simp [hl]

/-- Codes that are two-phase from no lock on keep every task disciplined. -/
theorem Disciplined.step (hbody : ∀ e, (body e).TwoPhase R ∅) (hM : M.Disciplined R)
    (h : M.step body move = some M') : M'.Disciplined R := by
  intro u
  have hu := hM u
  cases move with
  | start t e =>
    obtain ⟨⟨a, ha⟩, rfl⟩ := start_eq_some h
    by_cases hut : u = t
    · subst hut
      rw [ha] at hu
      have hnone : {l | M.owner l = some u} = ∅ := hu
      simp only [Function.update_self, hnone, hbody e]
    · simp only [Function.update_of_ne hut, hu]
  | advance t =>
    have ht := hM t
    have hne : u ≠ t → some t ≠ some u := fun hut h => hut (Option.some.inj h).symm
    rcases advance_eq_some h with ⟨l, c, hc, hfree, rfl⟩ | ⟨l, c, hc, rfl⟩ | ⟨c, hc, rfl⟩ |
      ⟨g, c, hc, rfl⟩
    · rw [hc] at ht
      by_cases hut : u = t
      · subst hut
        simp only [Function.update_self, owned_take, ht.2]
      · have hfree' : M.owner l ≠ some u := by simp [hfree]
        simp only [Function.update_of_ne hut, owned_other hfree' (hne hut), hu]
    · rw [hc] at ht
      obtain ⟨hmem, -, hrest⟩ := ht
      by_cases hut : u = t
      · subst hut
        simp only [Function.update_self, owned_give, hrest]
      · have hother : M.owner l ≠ some u := fun h => hne hut (Eq.trans (Eq.symm hmem) h)
        simp only [Function.update_of_ne hut, owned_other hother (Option.some_ne_none u).symm, hu]
    · by_cases hut : u = t
      · subst hut
        rw [hc] at hu
        simp only [Function.update_self, hu M.state]
      · simp only [Function.update_of_ne hut, hu]
    · by_cases hut : u = t
      · subst hut
        rw [hc] at hu
        simp only [Function.update_self]
        exact hu
      · simp only [Function.update_of_ne hut, hu]

/-! ## Two locks in both orders -/

/-- One of two locks may be taken by a task that holds nothing or just the other one. -/
def Pair (a b : ι) (H : Set ι) (l : ι) : Prop := H = ∅ ∨ H = {a} ∧ l = b ∨ H = {b} ∧ l = a

/-- No task is on its way from `a` to `b` while another is on its way from `b` to `a`. -/
def Apart (a b : ι) (M : Machine ι σ) : Prop := ∀ t u, M.Nested t a b → ¬ M.Nested u b a

/-- A task takes one of the locks, on its way to the other, only while no task is on its way in
the opposite order. -/
def Orderly (a b : ι) (M : Machine ι σ) : Move ε → Prop
  | .start _ _ => True
  | .advance t => ∀ c,
    (M.code t = lock a c → c.Seeks b → ∀ u, ¬ M.Nested u b a) ∧
      (M.code t = lock b c → c.Seeks a → ∀ u, ¬ M.Nested u a b)

/-- No other task holds one of the locks. -/
def Alone (a b : ι) (M : Machine ι σ) (t : Nat) : Prop :=
  (∀ u ∈ M.owner a, u = t) ∧ ∀ u ∈ M.owner b, u = t

instance (a b : ι) (M : Machine ι σ) (t : Nat) : Decidable (M.Alone a b t) :=
  inferInstanceAs (Decidable (_ ∧ _))

omit [DecidableEq ι] in
/-- A task does not come into the way of others that hold no lock. -/
theorem orderly_of_alone {a b : ι} (hR : ∀ H l, R H l → l ∉ H) (hM : M.Disciplined R) {t : Nat}
    (h : M.Alone a b t) : M.Orderly (ε := ε) a b (.advance t) := by
  have hnested : ∀ {x y : ι} {c : Code ι σ Unit}, M.code t = lock x c → c.Seeks y →
      (∀ u ∈ M.owner y, u = t) → ∀ u, ¬ M.Nested u y x := by
    rintro x y c hc hseeks hy u ⟨hown, -⟩
    obtain rfl := hy u hown
    have hphase := hM u
    rw [hc] at hphase
    exact hR _ _ (hphase.2.seeks hseeks) (Set.mem_insert_of_mem x hown)
  exact fun c => ⟨fun hc hseeks => hnested hc hseeks h.2, fun hc hseeks => hnested hc hseeks h.1⟩

/-- Make moves one after another, each while no other task holds one of the locks. -/
def stepAlone (a b : ι) (body : ε → Code ι σ Unit) :
    Machine ι σ → List (Move ε) → Option (Machine ι σ)
  | M, [] => some M
  | M, .start t e :: moves => (M.step body (.start t e)).bind fun M₁ => M₁.stepAlone a b body moves
  | M, .advance t :: moves =>
    if M.Alone a b t then
      (M.step body (.advance t)).bind fun M₁ => M₁.stepAlone a b body moves
    else none

/-- Such moves continue an orderly run. -/
theorem Runs.append_alone {a b : ι} {M₁ M₂ : Machine ι σ} {moves moves' : List (Move ε)}
    (hR : ∀ H l, R H l → l ∉ H) (hbody : ∀ e, (body e).TwoPhase R ∅) (hM₁ : M₁.Disciplined R)
    (h : Runs body (Orderly a b) M moves M₁) (hmoves : M₁.stepAlone a b body moves' = some M₂) :
    Runs body (Orderly a b) M (moves ++ moves') M₂ := by
  induction moves' generalizing moves M₁ with
  | nil =>
    obtain rfl := Option.some.inj hmoves
    rwa [List.append_nil]
  | cons move moves' ih =>
    rw [List.append_cons]
    cases move with
    | start t e =>
      obtain ⟨M', hmove, hrest⟩ := Option.bind_eq_some_iff.mp hmoves
      exact ih (hM₁.step hbody hmove) (h.snoc trivial hmove) hrest
    | advance t =>
      rw [stepAlone] at hmoves
      split at hmoves
      · next halone =>
        obtain ⟨M', hmove, hrest⟩ := Option.bind_eq_some_iff.mp hmoves
        exact ih (hM₁.step hbody hmove) (h.snoc (orderly_of_alone hR hM₁ halone) hmove) hrest
      · cases hmoves

/-- An advance leaves the code of another task alone and gives it no lock. -/
theorem advance_other {t u : Nat} (h : M.advance u = some M') (htu : t ≠ u) :
    M'.code t = M.code t ∧ ∀ a, M'.owner a = some t → M.owner a = some t := by
  rcases advance_eq_some h with ⟨l, c, -, -, rfl⟩ | ⟨l, c, -, rfl⟩ | ⟨c, -, rfl⟩ | ⟨g, c, -, rfl⟩
  · refine ⟨Function.update_of_ne htu _ _, fun a hown => ?_⟩
    by_cases hl : a = l
    · subst hl
      simp only [Function.update_self, Option.some.injEq] at hown
      exact absurd hown.symm htu
    · simpa only [Function.update_of_ne hl] using hown
  · refine ⟨Function.update_of_ne htu _ _, fun a hown => ?_⟩
    by_cases hl : a = l
    · simp only [hl, Function.update_self, reduceCtorEq] at hown
    · simpa only [Function.update_of_ne hl] using hown
  · exact ⟨Function.update_of_ne htu _ _, fun _ hown => hown⟩
  · exact ⟨Function.update_of_ne htu _ _, fun _ hown => hown⟩

/-- The task that advances is on its way from `a` to `b` if it was so before, or takes `a`. -/
theorem nested_of_advance {a b : ι} (hR : ∀ H l, R H l → H.Subsingleton) (hM : M.Disciplined R)
    {t : Nat} (h : M.advance t = some M') (ht : M'.Nested t a b) :
    M.Nested t a b ∨ ∃ c, M.code t = lock a c ∧ c.Seeks b := by
  obtain ⟨hown, hseeks⟩ := ht
  have hdisciplined := hM t
  rcases advance_eq_some h with ⟨l, c, hc, -, rfl⟩ | ⟨l, c, hc, rfl⟩ | ⟨c, hc, rfl⟩ |
    ⟨g, c, hc, rfl⟩
  all_goals
    rw [hc] at hdisciplined
    simp only [Function.update_self] at hseeks
  · by_cases hl : a = l
    · subst hl
      exact .inr ⟨c, hc, hseeks⟩
    · -- A task that holds two locks takes no third.
      simp only [Function.update_of_ne hl] at hown
      have hsub := hR _ _ (hdisciplined.2.seeks hseeks)
      exact absurd (hsub (Set.mem_insert_of_mem l hown) (Set.mem_insert l _)) hl
  · -- A task that has released one of two locks seeks none.
    have hl : a ≠ l := fun hl => by
      simp only [hl, Function.update_self, reduceCtorEq] at hown
    simp only [Function.update_of_ne hl] at hown
    rcases hdisciplined.2.1 with hempty | hnone
    · have hmem : a ∈ {l | M.owner l = some t} \ {l} := ⟨hown, hl⟩
      rw [hempty] at hmem
      exact hmem.elim
    · exact absurd hseeks (hnone b)
  · refine .inl ⟨hown, ?_⟩
    rw [hc]
    exact ⟨M.state, hseeks⟩
  · refine .inl ⟨hown, ?_⟩
    rw [hc]
    exact hseeks

/-- A task that is on its way from `a` to `b` was so before, or takes `a` now. -/
theorem nested_of_step {a b : ι} (hR : ∀ H l, R H l → H.Subsingleton) (hM : M.Disciplined R)
    (h : M.step body move = some M') {t : Nat} (ht : M'.Nested t a b) : M.Nested t a b ∨
      move = .advance t ∧ ∃ c, M.code t = lock a c ∧ c.Seeks b := by
  cases move with
  | start u e =>
    obtain ⟨hown, hseeks⟩ := ht
    obtain ⟨⟨x, hx⟩, rfl⟩ := start_eq_some h
    by_cases htu : t = u
    · subst htu
      have hnone := hM t
      rw [hx] at hnone
      have hmem : a ∈ {l | M.owner l = some t} := hown
      rw [show {l | M.owner l = some t} = ∅ from hnone] at hmem
      exact hmem.elim
    · simp only [Function.update_of_ne htu] at hseeks
      exact .inl ⟨hown, hseeks⟩
  | advance u =>
    by_cases htu : t = u
    · subst htu
      exact (nested_of_advance hR hM h ht).imp_right fun htakes => ⟨rfl, htakes⟩
    · obtain ⟨hcode, howner⟩ := advance_other h htu
      exact .inl ⟨howner a ht.1, hcode ▸ ht.2⟩

/-- Orderly moves keep the two orders apart. -/
theorem Apart.step {a b : ι} (hab : a ≠ b) (hR : ∀ H l, R H l → H.Subsingleton)
    (hM : M.Disciplined R) (hapart : M.Apart a b) (hmove : M.Orderly a b move)
    (h : M.step body move = some M') : M'.Apart a b := by
  intro t u ht hu
  rcases nested_of_step hR hM h ht with ht | ⟨rfl, c, hc, hseeks⟩
  · rcases nested_of_step hR hM h hu with hu | ⟨rfl, c, hc, hseeks⟩
    · exact hapart t u ht hu
    · exact (hmove c).2 hc hseeks t ht
  · rcases nested_of_step hR hM h hu with hu | ⟨heq, c', hc', -⟩
    · exact (hmove c).1 hc hseeks u hu
    · obtain rfl := Move.advance.inj heq
      exact hab (lock.inj (hc.symm.trans hc')).1

omit [DecidableEq ι] in
/-- Where the two orders are apart, no tasks are in a deadlock. -/
theorem Apart.not_deadlocked {a b : ι} (hab : a ≠ b) (hM : M.Disciplined (Pair a b))
    (hapart : M.Apart a b) (T : Set Nat) : ¬ M.Deadlocked T := by
  classical
  -- A task that holds one of the locks and waits is on its way to the other.
  have hways : ∀ t l l', M.owner l = some t → M.Waits t l' →
      l = a ∧ l' = b ∧ M.Nested t a b ∨ l = b ∧ l' = a ∧ M.Nested t b a := by
    rintro t l l' hown ⟨c, hc⟩
    have ht := hM t
    rw [hc] at ht
    have hmem : l ∈ {l | M.owner l = some t} := hown
    have hseeks : (M.code t).Seeks l' := by rw [hc]; rfl
    rcases ht.1 with hH | ⟨hH, rfl⟩ | ⟨hH, rfl⟩
    · rw [hH] at hmem
      exact hmem.elim
    · rw [hH] at hmem
      obtain rfl : l = a := hmem
      exact .inl ⟨rfl, rfl, hown, hseeks⟩
    · rw [hH] at hmem
      obtain rfl : l = b := hmem
      exact .inr ⟨rfl, rfl, hown, hseeks⟩
  by_cases hex : ∃ t, M.Nested t a b
  · obtain ⟨t₀, ht₀⟩ := hex
    refine not_deadlocked_of_rank (fun l => if l = a then 0 else 1)
      (fun l => show _ ≤ 1 by split <;> omega) (fun t l l' hown hwaits => ?_) T
    rcases hways t l l' hown hwaits with ⟨rfl, rfl, -⟩ | ⟨-, -, ht⟩
    · simp [Ne.symm hab]
    · exact absurd ht (hapart t₀ t ht₀)
  · refine not_deadlocked_of_rank (fun l => if l = b then 0 else 1)
      (fun l => show _ ≤ 1 by split <;> omega) (fun t l l' hown hwaits => ?_) T
    rcases hways t l l' hown hwaits with ⟨-, -, ht⟩ | ⟨rfl, rfl, -⟩
    · exact absurd ⟨t, ht⟩ hex
    · simp [hab]

end Machine

end Code

end OsAssignments
