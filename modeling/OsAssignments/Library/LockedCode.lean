import Mathlib.Data.Fin.Basic
import Mathlib.Data.List.FinRange
import Mathlib.Data.List.Induction
import Mathlib.Logic.Function.Basic

/-!
# Code that takes locks

Code over a shared state that acquires and releases locks. It can be run alone, or interleaved
with other codes so that every maximal locked section is one step. The results of an
interleaving are serialisable when some order of running the codes alone has them too.
-/

namespace OsAssignments

/-- Code over the locks `ι` and the shared state `σ` that returns an `α`. -/
inductive Code (ι σ α : Type) where
  | ret (a : α)
  | lock (l : ι) (next : Code ι σ α)
  | unlock (l : ι) (next : Code ι σ α)
  | read (next : σ → Code ι σ α)
  | write (g : σ → σ) (next : Code ι σ α)

namespace Code

variable {ι σ α β τ : Type}

def bind : Code ι σ α → (α → Code ι σ β) → Code ι σ β
  | ret a, k => k a
  | lock l c, k => lock l (c.bind k)
  | unlock l c, k => unlock l (c.bind k)
  | read c, k => read fun s => (c s).bind k
  | write g c, k => write g (c.bind k)

instance : Monad (Code ι σ) where
  pure := ret
  bind := bind

/-- Acquire a lock. -/
def acquire (l : ι) : Code ι σ Unit := lock l (ret ())

/-- Release a lock. -/
def release (l : ι) : Code ι σ Unit := unlock l (ret ())

/-- Read the shared state. -/
def get : Code ι σ σ := read ret

/-- Change the shared state. -/
def modify (g : σ → σ) : Code ι σ Unit := write g (ret ())

/-! ## Code that runs alone -/

/-- The result and the state when nothing else runs. -/
def exec : Code ι σ α → σ → α × σ
  | ret a, s => (a, s)
  | lock _ c, s => c.exec s
  | unlock _ c, s => c.exec s
  | read c, s => (c s).exec s
  | write g c, s => c.exec (g s)

theorem exec_bind (c : Code ι σ α) (k : α → Code ι σ β) (s : σ) :
    (c >>= k).exec s = (k (c.exec s).1).exec (c.exec s).2 := by
  change (c.bind k).exec s = _
  induction c generalizing s with
  | ret a => rfl
  | lock l c ih => exact ih s
  | unlock l c ih => exact ih s
  | read c ih => exact ih s s
  | write g c ih => exact ih (g s)

@[simp] theorem exec_pure (a : α) (s : σ) : (pure a : Code ι σ α).exec s = (a, s) := rfl

@[simp] theorem exec_acquire (l : ι) (s : σ) : (acquire l : Code ι σ Unit).exec s = ((), s) := rfl

@[simp] theorem exec_release (l : ι) (s : σ) : (release l : Code ι σ Unit).exec s = ((), s) := rfl

@[simp] theorem exec_get (s : σ) : (get : Code ι σ σ).exec s = (s, s) := rfl

@[simp] theorem exec_modify (g : σ → σ) (s : σ) :
    (modify g : Code ι σ Unit).exec s = ((), g s) := rfl

/-- The results and the state when codes run one after another. -/
def serialRun (code : τ → Code ι σ α) : List τ → σ → List α × σ
  | [], s => ([], s)
  | i :: is, s =>
    let first := (code i).exec s
    let rest := serialRun code is first.2
    (first.1 :: rest.1, rest.2)

theorem serialRun_append (code : τ → Code ι σ α) (is js : List τ) (s : σ) :
    serialRun code (is ++ js) s =
      ((serialRun code is s).1 ++ (serialRun code js (serialRun code is s).2).1,
        (serialRun code js (serialRun code is s).2).2) := by
  induction is generalizing s with
  | nil => rfl
  | cons j is ih => simp only [List.cons_append, serialRun, ih]

/-- Codes that leave the state alone. -/
theorem serialRun_of_unchanged {code : τ → Code ι σ α} {is : List τ} {s : σ} {result : τ → α}
    (h : ∀ i ∈ is, (code i).exec s = (result i, s)) : serialRun code is s = (is.map result, s) := by
  induction is with
  | nil => rfl
  | cons i is ih =>
    have hrest := ih fun j hj => h j (List.mem_cons_of_mem i hj)
    simp only [serialRun, h i List.mem_cons_self, hrest, List.map_cons]

/-- The results and the final state are those of some order in which the same codes run one
after another. -/
def Serialisable {n : Nat} (code : Fin n → Code ι σ α) (s : σ) (result : Fin n → α) (t : σ) :
    Prop :=
  ∃ order : List (Fin n), order.Perm (List.finRange n) ∧
    serialRun code order s = (order.map result, t)

/-! ## Sections -/

/-- Run to the end of the next section in which locks are held, `held` of them at the start;
what is left to run. -/
def runSection : Nat → Code ι σ α → σ → Code ι σ α × σ
  | _, ret a, s => (ret a, s)
  | held, lock _ c, s => runSection (held + 1) c s
  | held, unlock _ c, s => if held ≤ 1 then (c, s) else runSection (held - 1) c s
  | held, read c, s => runSection held (c s) s
  | held, write g c, s => runSection held c (g s)

/-- A section and then the rest are the whole. -/
theorem exec_runSection (held : Nat) (c : Code ι σ α) (s : σ) :
    (c.runSection held s).1.exec (c.runSection held s).2 = c.exec s := by
  induction c generalizing held s with
  | ret a => rfl
  | lock l c ih => exact ih (held + 1) s
  | unlock l c ih =>
    by_cases h : held ≤ 1
    · simp only [runSection, if_pos h, exec]
    · simp only [runSection, if_neg h, exec, ih]
  | read c ih => exact ih s held s
  | write g c ih => exact ih held (g s)

/-- Codes that run interleaved, and the state they share. -/
structure Pool (ι σ α : Type) (n : Nat) where
  code : Fin n → Code ι σ α
  state : σ

/-- One of the codes runs its next section. -/
def Pool.step {n : Nat} (p : Pool ι σ α n) (i : Fin n) : Pool ι σ α n :=
  let next := (p.code i).runSection 0 p.state
  ⟨Function.update p.code i next.1, next.2⟩

/-- The pool after the codes have run sections in the order of the list, where every step meets
a condition. -/
inductive Pool.Runs {n : Nat} (C : Pool ι σ α n → Fin n → Prop) (p : Pool ι σ α n) :
    List (Fin n) → Pool ι σ α n → Prop
  | nil : Runs C p [] p
  | snoc {is : List (Fin n)} {i : Fin n} {q : Pool ι σ α n} :
      Runs C p is q → C q i → Runs C p (is ++ [i]) (q.step i)

/-- Every list of steps is a run. -/
theorem Pool.Runs.foldl {n : Nat} (p : Pool ι σ α n) (is : List (Fin n)) :
    Pool.Runs (fun _ _ => True) p is (is.foldl Pool.step p) := by
  induction is using List.reverseRecOn with
  | nil => exact .nil
  | append_singleton is i ih =>
    rw [List.foldl_append]
    exact ih.snoc trivial

/-- What every step that meets the condition preserves holds after the run. -/
theorem Pool.Runs.induction {n : Nat} {C : Pool ι σ α n → Fin n → Prop} {p q : Pool ι σ α n}
    {is : List (Fin n)} {Inv : Pool ι σ α n → Prop}
    (hstep : ∀ q i, C q i → Inv q → Inv (q.step i)) (h : Pool.Runs C p is q) (hp : Inv p) :
    Inv q := by
  induction h with
  | nil => exact hp
  | snoc _ hC ih => exact hstep _ _ hC ih

end Code

end OsAssignments
