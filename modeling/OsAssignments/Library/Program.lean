import Mathlib.Data.List.Induction

/-!
# Stateful programs that may stop early

A C program is read as a state transformer that either returns a value or stops,
keeping the state reached in both cases. This file has the inversion rules for
sequencing, the relational rule for facts that every outcome satisfies, and the
induction principle for a command run once per element of a list.
-/

namespace OsAssignments

/-- How a C program ends before returning from the function being modelled. -/
inductive Stop
  /-- A call of `exit` with the given status. -/
  | exit (status : Int)
  /-- A failed `assert`. -/
  | abort
  /-- A step whose behaviour the C standard leaves undefined. -/
  | undefined
  /-- A loop that never ends. -/
  | loop
  deriving DecidableEq, Repr

/-- A program over the state `σ` that returns an `α` or stops with an `ε`. -/
abbrev Program (ε σ α : Type) := EStateM ε σ α

namespace Program

open EStateM (Result)

variable {ε σ α β : Type}

/-- The state a run ends in, whether it returns or stops. -/
def final : Result ε σ α → σ
  | .ok _ s => s
  | .error _ s => s

@[simp] theorem final_ok (a : α) (s : σ) : final (.ok a s : Result ε σ α) = s := rfl

@[simp] theorem final_error (e : ε) (s : σ) : final (.error e s : Result ε σ α) = s := rfl

/-- Whether a run returns a value and a state with a decidable property. -/
def holds (r : Result ε σ α) (q : α → σ → Bool) : Bool :=
  match r with
  | .ok a s => q a s
  | .error _ _ => false

theorem exists_of_holds {r : Result ε σ α} {q : α → σ → Bool} (h : holds r q = true) :
    ∃ a s, r = .ok a s ∧ q a s = true := by
  cases r with
  | ok a s => exact ⟨a, s, rfl, h⟩
  | error e s => cases h

/-- Stop the run with `e`, keeping the state. -/
def stop (e : ε) : Program ε σ α := fun s => .error e s

/-- Turn a pure computation that may fail into a program that leaves the state alone. -/
def ofExcept : Except ε α → Program ε σ α
  | .ok a => pure a
  | .error e => stop e

/-- Go on with a value that must be there, or stop with `e`. -/
def require (e : ε) : Option α → Program ε σ α
  | some a => pure a
  | none => stop e

/-- Stop with `e` unless a condition holds. -/
def ensure (e : ε) (c : Prop) [Decidable c] : Program ε σ Unit := if c then pure () else stop e

/-- A sequence returns exactly when both of its parts do. -/
theorem bind_ok {x : Program ε σ α} {f : α → Program ε σ β} {s t : σ} {b : β} :
    (x >>= f) s = .ok b t ↔ ∃ a u, x s = .ok a u ∧ f a u = .ok b t := by
  change (match x s with
    | .ok a u => f a u
    | .error e u => .error e u) = .ok b t ↔ _
  cases x s with
  | ok a u => simp
  | error e u => simp

/-- A sequence stops either in its first part or in its second. -/
theorem bind_error {x : Program ε σ α} {f : α → Program ε σ β} {s t : σ} {e : ε} :
    (x >>= f) s = .error e t ↔
      x s = .error e t ∨ ∃ a u, x s = .ok a u ∧ f a u = .error e t := by
  change (match x s with
    | .ok a u => f a u
    | .error e u => .error e u) = .error e t ↔ _
  cases x s with
  | ok a u => simp
  | error e' u => simp

/-- After a first part that returns, a sequence goes on as its second part. -/
theorem bind_of_ok {x : Program ε σ α} {f : α → Program ε σ β} {s u : σ} {a : α}
    (h : x s = .ok a u) : (x >>= f) s = f a u := by
  change (match x s with
    | .ok a u => f a u
    | .error e u => .error e u) = _
  rw [h]

/-- Nothing follows a first part that stops. -/
theorem bind_of_error {x : Program ε σ α} {f : α → Program ε σ β} {s u : σ} {e : ε}
    (h : x s = .error e u) : (x >>= f) s = .error e u := bind_error.mpr (.inl h)

@[simp] theorem pure_apply (a : α) (s : σ) : (pure a : Program ε σ α) s = .ok a s := rfl

@[simp] theorem get_apply (s : σ) : (get : Program ε σ σ) s = .ok s s := rfl

@[simp] theorem set_apply (s t : σ) : (set t : Program ε σ PUnit) s = .ok ⟨⟩ t := rfl

@[simp] theorem modify_apply (g : σ → σ) (s : σ) :
    (modify g : Program ε σ PUnit) s = .ok ⟨⟩ (g s) := rfl

@[simp] theorem stop_apply (e : ε) (s : σ) : (stop e : Program ε σ α) s = .error e s := rfl

theorem get_bind (f : σ → Program ε σ β) (s : σ) : (get >>= f) s = f s s := rfl

theorem set_bind (t : σ) (f : PUnit → Program ε σ β) (s : σ) : (set t >>= f) s = f ⟨⟩ t := rfl

theorem modify_bind (g : σ → σ) (f : PUnit → Program ε σ β) (s : σ) :
    (modify g >>= f) s = f ⟨⟩ (g s) := rfl

@[simp] theorem ofExcept_ok (x : Except ε α) (s t : σ) (a : α) :
    ofExcept x s = .ok a t ↔ x = .ok a ∧ s = t := by
  cases x with
  | ok b => simp [ofExcept]
  | error e => simp [ofExcept]

@[simp] theorem require_ok {e : ε} {x : Option α} {s t : σ} {a : α} :
    require e x s = .ok a t ↔ x = some a ∧ s = t := by
  cases x with
  | some b => simp [require]
  | none => simp [require]

@[simp] theorem ensure_ok {e : ε} {c : Prop} [Decidable c] {s t : σ} {a : Unit} :
    ensure e c s = .ok a t ↔ c ∧ s = t := by
  by_cases h : c
  · simp [ensure, h]
  · simp [ensure, h]

theorem require_bind {e : ε} {x : Option α} {a : α} (hx : x = some a) (f : α → Program ε σ β)
    (s : σ) : (require e x >>= f) s = f a s := by
  subst hx
  rfl

/-! ## Facts about every outcome -/

/-- Every run of `x`, returning or stopping, ends in a state related to its start. -/
def Relates (R : σ → σ → Prop) (x : Program ε σ α) : Prop := ∀ s, R s (final (x s))

theorem Relates.of_ok {R : σ → σ → Prop} {x : Program ε σ α} (h : Relates R x) {s t : σ} {a : α}
    (hx : x s = .ok a t) : R s t := by
  simpa only [hx, final_ok] using h s

/-- Sequencing respects a transitive relation. -/
theorem Relates.bind {R : σ → σ → Prop} (htrans : ∀ {a b c}, R a b → R b c → R a c)
    {x : Program ε σ α} {f : α → Program ε σ β} (hx : Relates R x) (hf : ∀ a, Relates R (f a)) :
    Relates R (x >>= f) := by
  intro s
  have h := hx s
  cases hr : x s with
  | ok a u =>
    rw [hr] at h
    rw [bind_of_ok hr]
    exact htrans h (hf a u)
  | error e u =>
    rw [hr] at h
    have he : (x >>= f) s = .error e u := bind_error.mpr (Or.inl hr)
    rw [he]
    exact h

theorem Relates.pure {R : σ → σ → Prop} (hrefl : ∀ s, R s s) (a : α) :
    Relates R (Pure.pure a : Program ε σ α) := fun s => hrefl s

theorem Relates.require {R : σ → σ → Prop} (hrefl : ∀ s, R s s) (e : ε) (x : Option α) :
    Relates R (Program.require e x : Program ε σ α) := by
  cases x with
  | some a => exact .pure hrefl a
  | none => exact fun s => hrefl s

theorem Relates.stop {R : σ → σ → Prop} (hrefl : ∀ s, R s s) (e : ε) :
    Relates R (Program.stop e : Program ε σ α) := fun s => hrefl s

/-! ## Facts about every stop -/

/-- Every stop of `x` has the property `P`. -/
def Stops (P : ε → Prop) (x : Program ε σ α) : Prop := ∀ s e t, x s = .error e t → P e

namespace Stops

variable {P : ε → Prop}

theorem bind {x : Program ε σ α} {f : α → Program ε σ β} (hx : Stops P x)
    (hf : ∀ a, Stops P (f a)) : Stops P (x >>= f) := by
  intro s e t h
  rcases bind_error.mp h with h | ⟨a, u, -, h⟩
  · exact hx s e t h
  · exact hf a u e t h

theorem of_ok {x : Program ε σ α} (hx : ∀ s, ∃ a t, x s = .ok a t) : Stops P x := by
  intro s e t h
  obtain ⟨a, u, hok⟩ := hx s
  rw [hok] at h
  cases h

theorem pure (a : α) : Stops P (Pure.pure a : Program ε σ α) := of_ok fun s => ⟨a, s, rfl⟩

theorem stop {e : ε} (he : P e) : Stops P (Program.stop e : Program ε σ α) := by
  intro s e' t h
  cases h
  exact he

theorem require {e : ε} (he : P e) (x : Option α) :
    Stops P (Program.require e x : Program ε σ α) := by
  cases x with
  | some a => exact .pure a
  | none => exact .stop he

theorem ite {c : Prop} [Decidable c] {x y : Program ε σ α} (hx : Stops P x) (hy : Stops P y) :
    Stops P (if c then x else y) := by
  split
  · exact hx
  · exact hy

end Stops

/-- Where a sequence ends: where its first part stops, or where its second part ends. -/
theorem final_bind {Q : σ → Prop} {x : Program ε σ α} {f : α → Program ε σ β} {s : σ}
    (herror : ∀ e t, x s = .error e t → Q t) (hok : ∀ a t, x s = .ok a t → Q (final (f a t))) :
    Q (final ((x >>= f) s)) := by
  cases h : x s with
  | ok a t =>
    rw [bind_of_ok h]
    exact hok a t h
  | error e t =>
    have he : (x >>= f) s = .error e t := bind_error.mpr (.inl h)
    rw [he]
    exact herror e t h

/-! ## Programs that return less often -/

/-- Where `x` returns, `y` returns the same. -/
def Below (x y : Program ε σ α) : Prop := ∀ s a t, x s = .ok a t → y s = .ok a t

namespace Below

theorem refl (x : Program ε σ α) : Below x x := fun _ _ _ h => h

theorem bind {x y : Program ε σ α} {f g : α → Program ε σ β} (hx : Below x y)
    (hf : ∀ a, Below (f a) (g a)) : Below (x >>= f) (y >>= g) := by
  intro s b t h
  obtain ⟨a, u, ha, hb⟩ := bind_ok.mp h
  rw [bind_of_ok (hx s a u ha)]
  exact hf a u b t hb

theorem ite {c : Prop} [Decidable c] {x x' y y' : Program ε σ α} (hx : Below x x')
    (hy : Below y y') : Below (if c then x else y) (if c then x' else y') := by
  split
  · exact hx
  · exact hy

end Below

/-! ## One command per list element -/

/-- Run `f` on each element of a list, in order. -/
def runAll (f : β → Program ε σ Unit) : List β → Program ε σ Unit
  | [] => Pure.pure ()
  | b :: bs => do
    f b
    runAll f bs

theorem Stops.runAll {P : ε → Prop} {f : β → Program ε σ Unit} (hf : ∀ b, Stops P (f b))
    (bs : List β) : Stops P (Program.runAll f bs) := by
  induction bs with
  | nil => exact .pure ()
  | cons b bs ih => exact .bind (hf b) fun _ => ih

theorem runAll_cons_ok {f : β → Program ε σ Unit} {b : β} {bs : List β} {s t : σ} :
    runAll f (b :: bs) s = .ok () t ↔ ∃ u, f b s = .ok () u ∧ runAll f bs u = .ok () t := by
  rw [runAll, bind_ok]
  exact ⟨fun ⟨_, u, h⟩ => ⟨u, h⟩, fun ⟨u, h⟩ => ⟨(), u, h⟩⟩

/-- A run over a concatenation is a run over the first part and then over the second. -/
theorem runAll_append_ok {f : β → Program ε σ Unit} {xs ys : List β} {s t : σ} :
    runAll f (xs ++ ys) s = .ok () t ↔
      ∃ u, runAll f xs s = .ok () u ∧ runAll f ys u = .ok () t := by
  induction xs generalizing s with
  | nil => simp [runAll]
  | cons x xs ih =>
    rw [List.cons_append, runAll_cons_ok]
    constructor
    · rintro ⟨v, hv, h⟩
      obtain ⟨u, hu, ht⟩ := ih.mp h
      exact ⟨u, runAll_cons_ok.mpr ⟨v, hv, hu⟩, ht⟩
    · rintro ⟨u, hu, ht⟩
      obtain ⟨v, hv, h⟩ := runAll_cons_ok.mp hu
      exact ⟨v, hv, ih.mpr ⟨u, h, ht⟩⟩

/-- After a first part that returns, a run over a concatenation goes on with the second. -/
theorem runAll_append_of_ok {f : β → Program ε σ Unit} {xs : List β} (ys : List β) {s t : σ}
    (h : runAll f xs s = .ok () t) : runAll f (xs ++ ys) s = runAll f ys t := by
  induction xs generalizing s with
  | nil =>
    obtain rfl : s = t := by simpa [runAll] using h
    rfl
  | cons x xs ih =>
    obtain ⟨u, hu, h⟩ := runAll_cons_ok.mp h
    rw [List.cons_append, runAll, bind_of_ok hu]
    exact ih h

theorem runAll_snoc_ok {f : β → Program ε σ Unit} {xs : List β} {x : β} {s t : σ} :
    runAll f (xs ++ [x]) s = .ok () t ↔ ∃ u, runAll f xs s = .ok () u ∧ f x u = .ok () t := by
  rw [runAll_append_ok]
  constructor
  · rintro ⟨u, hu, h⟩
    obtain ⟨v, hv, h⟩ := runAll_cons_ok.mp h
    obtain rfl : v = t := by simpa [runAll] using h
    exact ⟨u, hu, hv⟩
  · rintro ⟨u, hu, h⟩
    exact ⟨u, hu, runAll_cons_ok.mpr ⟨t, h, rfl⟩⟩

/-- A run returns when every command does, from every state with an invariant. -/
theorem runAll_returns {f : β → Program ε σ Unit} {Inv : σ → Prop} {xs : List β}
    (hstep : ∀ x ∈ xs, ∀ s, Inv s → ∃ t, f x s = .ok () t ∧ Inv t) {s : σ} (hs : Inv s) :
    ∃ t, runAll f xs s = .ok () t ∧ Inv t := by
  induction xs generalizing s with
  | nil => exact ⟨s, rfl, hs⟩
  | cons x xs ih =>
    obtain ⟨u, hu, hinv⟩ := hstep x List.mem_cons_self s hs
    obtain ⟨t, ht, hend⟩ := ih (fun y hy => hstep y (List.mem_cons_of_mem x hy)) hinv
    exact ⟨t, runAll_cons_ok.mpr ⟨u, hu, ht⟩, hend⟩

/-- What holds at the start and is preserved by one more command holds after every run.
The invariant may speak of the commands already run. -/
theorem runAll_induction {f : β → Program ε σ Unit} (Inv : List β → σ → Prop) {s₀ : σ}
    (hstart : Inv [] s₀)
    (hstep : ∀ xs s x t, runAll f xs s₀ = .ok () s → Inv xs s → f x s = .ok () t →
      Inv (xs ++ [x]) t) :
    ∀ xs t, runAll f xs s₀ = .ok () t → Inv xs t := by
  intro xs
  induction xs using List.reverseRecOn with
  | nil =>
    intro t ht
    obtain rfl : s₀ = t := by simpa [runAll] using ht
    exact hstart
  | append_singleton xs x ih =>
    intro t ht
    obtain ⟨u, hu, hx⟩ := runAll_snoc_ok.mp ht
    exact hstep xs u x t hu (ih u hu) hx

/-- Where a run over a list ends: after the last element, or in the command that stops. -/
theorem runAll_final {Q : σ → Prop} {f : β → Program ε σ Unit} {xs : List β} {s₀ : σ}
    (hdone : ∀ t, runAll f xs s₀ = .ok () t → Q t)
    (hstop : ∀ pre x post s e t, xs = pre ++ x :: post → runAll f pre s₀ = .ok () s →
      f x s = .error e t → Q t) : Q (final (runAll f xs s₀)) := by
  induction xs generalizing s₀ with
  | nil => exact hdone s₀ rfl
  | cons x xs ih =>
    rw [runAll]
    refine final_bind (fun e t h => hstop [] x xs s₀ e t rfl rfl h) fun _ u hu => ih ?_ ?_
    · exact fun t ht => hdone t (runAll_cons_ok.mpr ⟨u, hu, ht⟩)
    · intro pre y post s e t hsplit hpre hy
      refine hstop (x :: pre) y post s e t ?_ (runAll_cons_ok.mpr ⟨u, hu, hpre⟩) hy
      rw [hsplit, List.cons_append]

/-! ## Runs whose steps meet a condition -/

/-- Every command of the list returns, and meets `P` in the state it starts in. -/
inductive Guarded (f : β → Program ε σ Unit) (P : β → σ → Prop) : List β → σ → σ → Prop
  | nil {s : σ} : Guarded f P [] s s
  | cons {b : β} {bs : List β} {s t u : σ} :
      P b s → f b s = .ok () t → Guarded f P bs t u → Guarded f P (b :: bs) s u

/-- A weaker condition is met too. -/
theorem Guarded.mono {f : β → Program ε σ Unit} {P Q : β → σ → Prop} (h : ∀ b s, P b s → Q b s)
    {bs : List β} {s t : σ} (hruns : Guarded f P bs s t) : Guarded f Q bs s t := by
  induction hruns with
  | nil => exact .nil
  | cons hP hf _ ih => exact .cons (h _ _ hP) hf ih

/-- What every command that meets the condition preserves holds after the run. -/
theorem Guarded.induction {f : β → Program ε σ Unit} {P : β → σ → Prop} {Inv : σ → Prop}
    (hstep : ∀ b s t, P b s → f b s = .ok () t → Inv s → Inv t) {bs : List β} {s t : σ}
    (h : Guarded f P bs s t) (hs : Inv s) : Inv t := by
  induction h with
  | nil => exact hs
  | cons hP hf _ ih => exact ih (hstep _ _ _ hP hf hs)

end Program

end OsAssignments
