import Mathlib.Data.List.Basic
import Mathlib.Data.List.Nodup
import Mathlib.Logic.Function.Basic
import Mathlib.Order.Basic

/-!
# Chains

In a chain every element leads to at most one next element, up to a stop that leads nowhere.
What is visited from an element on is determined, and nothing is visited twice. Redirecting one
link leaves what is visited up to it alone; the visit goes on where the link now leads. A loop
that follows links returns when a chain leads from its start to where it is done.
-/

namespace OsAssignments

variable {α : Type*} {next next' : α → Option α} {stop x y z r : α} {xs ys : List α}

/-- The elements visited from the given one on, up to the stop. -/
def Chain (next : α → Option α) (stop : α) : α → List α → Prop
  | x, [] => x = stop
  | x, y :: ys => y = x ∧ ∃ z, next x = some z ∧ Chain next stop z ys

/-- A chain through `y` leads to `y`, and on from there. -/
theorem chain_append : Chain next stop x (xs ++ y :: ys) ↔
    Chain next y x xs ∧ Chain next stop y (y :: ys) := by
  induction xs generalizing x with
  | nil =>
    constructor
    · rintro ⟨rfl, h⟩
      exact ⟨rfl, rfl, h⟩
    · rintro ⟨rfl, h⟩
      exact h
  | cons w xs ih =>
    constructor
    · rintro ⟨hw, z, hz, h⟩
      obtain ⟨hfirst, hrest⟩ := ih.mp h
      exact ⟨⟨hw, z, hz, hfirst⟩, hrest⟩
    · rintro ⟨⟨hw, z, hz, hfirst⟩, hrest⟩
      exact ⟨hw, z, hz, ih.mpr ⟨hfirst, hrest⟩⟩

namespace Chain

theorem congr (h : Chain next stop x xs) (hsame : ∀ y ∈ xs, next' y = next y) :
    Chain next' stop x xs := by
  induction xs generalizing x with
  | nil => exact h
  | cons y xs ih =>
    obtain ⟨rfl, z, hz, h⟩ := h
    exact ⟨rfl, z, (hsame y List.mem_cons_self).trans hz,
      ih h fun w hw => hsame w (List.mem_cons_of_mem y hw)⟩

/-- A chain that leads through the elements `xs` to `y` goes on after `y`. -/
theorem resume (hstop : next stop = none) (hy : next y = some z) (h : Chain next y x xs)
    (h' : Chain next stop x ys) : ∃ rest, ys = xs ++ y :: rest ∧ Chain next stop z rest := by
  induction xs generalizing x ys with
  | nil =>
    obtain rfl : x = y := h
    cases ys with
    | nil =>
      obtain rfl : x = stop := h'
      cases hstop.symm.trans hy
    | cons w ys =>
      obtain ⟨rfl, z', hz', h'⟩ := h'
      obtain rfl : z' = z := Option.some.inj (hz'.symm.trans hy)
      exact ⟨ys, rfl, h'⟩
  | cons w xs ih =>
    obtain ⟨rfl, z', hz', h⟩ := h
    cases ys with
    | nil =>
      obtain rfl : w = stop := h'
      cases hstop.symm.trans hz'
    | cons v ys =>
      obtain ⟨rfl, u, hu, h'⟩ := h'
      obtain rfl : z' = u := Option.some.inj (hz'.symm.trans hu)
      obtain ⟨rest, rfl, hrest⟩ := ih h h'
      exact ⟨rest, rfl, hrest⟩

/-- What is visited is determined. -/
theorem unique (hstop : next stop = none) (h : Chain next stop x xs) (h' : Chain next stop x ys) :
    xs = ys := by
  induction xs generalizing x ys with
  | nil =>
    obtain rfl : x = stop := h
    cases ys with
    | nil => rfl
    | cons w ys =>
      obtain ⟨-, z, hz, -⟩ := h'
      cases hstop.symm.trans hz
  | cons w xs ih =>
    obtain ⟨rfl, z, hz, h⟩ := h
    have hfirst : Chain next w w [] := rfl
    obtain ⟨rest, rfl, hrest⟩ := hfirst.resume hstop hz h'
    rw [List.nil_append, ih h hrest]

/-- Nothing is visited twice. -/
theorem nodup (hstop : next stop = none) (h : Chain next stop x xs) : xs.Nodup := by
  induction xs generalizing x with
  | nil => exact List.nodup_nil
  | cons y xs ih =>
    have hall := h
    obtain ⟨rfl, z, -, h⟩ := h
    refine List.nodup_cons.mpr ⟨fun hy => ?_, ih h⟩
    obtain ⟨before, after, rfl⟩ := List.append_of_mem hy
    have hsplit : Chain next stop y ((y :: before) ++ y :: after) := hall
    have hagain := (chain_append.mp hsplit).2
    have hlength := congrArg List.length (hall.unique hstop hagain)
    simp only [List.length_cons, List.length_append] at hlength
    omega

/-- Redirecting the link of `r` to `z` changes what is visited after `r`. -/
theorem redirect_iff [DecidableEq α] {before after : List α} (hstop : next stop = none)
    (h : Chain next stop x (before ++ r :: after)) :
    Chain (Function.update next r (some z)) stop x xs ↔
      ∃ rest, xs = before ++ r :: rest ∧ r ∉ rest ∧ Chain next stop z rest := by
  have hnodup := h.nodup hstop
  obtain ⟨hbefore, -, w, hw, -⟩ := chain_append.mp h
  have hne : r ≠ stop := fun heq => by
    rw [heq, hstop] at hw
    cases hw
  have hsame : ∀ ys : List α, r ∉ ys → ∀ y ∈ ys, Function.update next r (some z) y = next y :=
    fun ys hr y hy => Function.update_of_ne (ne_of_mem_of_not_mem hy hr) _ _
  have hr : r ∉ before := fun hr => (List.nodup_append.mp hnodup).2.2 r hr r List.mem_cons_self rfl
  have hbefore' := hbefore.congr (hsame before hr)
  have hr' : Function.update next r (some z) r = some z := Function.update_self _ _ _
  constructor
  · intro h'
    have hstop' : Function.update next r (some z) stop = none :=
      (Function.update_of_ne hne.symm _ _).trans hstop
    have hnodup' := h'.nodup hstop'
    obtain ⟨rest, rfl, hrest⟩ := hbefore'.resume hstop' hr' h'
    have hout := (List.nodup_cons.mp (List.nodup_append.mp hnodup').2.1).1
    exact ⟨rest, rfl, hout, hrest.congr fun y hy => (hsame rest hout y hy).symm⟩
  · rintro ⟨rest, rfl, hout, hrest⟩
    exact chain_append.mpr ⟨hbefore', rfl, z, hr', hrest.congr (hsame rest hout)⟩

section Increasing

variable [Preorder α]

/-- Where links lead upwards a chain visits what is above its start, in order. -/
theorem pairwise (hlt : ∀ x z, next x = some z → x < z) (h : Chain next stop x xs) :
    (∀ y ∈ xs, x ≤ y) ∧ xs.Pairwise (· < ·) := by
  induction xs generalizing x with
  | nil => exact ⟨fun y hy => absurd hy List.not_mem_nil, .nil⟩
  | cons y xs ih =>
    obtain ⟨rfl, z, hz, h⟩ := h
    obtain ⟨hle, hpairwise⟩ := ih h
    have habove : ∀ w ∈ xs, y < w := fun w hw => (hlt y z hz).trans_le (hle w hw)
    refine ⟨fun w hw => ?_, List.pairwise_cons.mpr ⟨habove, hpairwise⟩⟩
    rcases List.mem_cons.mp hw with rfl | hw
    · exact le_refl w
    · exact (habove w hw).le

/-- An element leads to the least one above it. -/
theorem exists_next (hlt : ∀ x z, next x = some z → x < z) (h : Chain next stop x xs)
    (hy : y ∈ xs) : ∃ z, next y = some z ∧ ∀ w ∈ xs, y < w → z ≤ w := by
  obtain ⟨before, after, rfl⟩ := List.append_of_mem hy
  obtain ⟨-, -, z, hz, hafter⟩ := chain_append.mp h
  have hpairwise := (h.pairwise hlt).2
  refine ⟨z, hz, fun w hw hyw => ?_⟩
  rcases List.mem_append.mp hw with hw | hw
  · have hbelow := (List.pairwise_append.mp hpairwise).2.2 w hw y List.mem_cons_self
    exact absurd hyw hbelow.not_gt
  · rcases List.mem_cons.mp hw with rfl | hw
    · exact absurd hyw (lt_irrefl w)
    · exact (hafter.pairwise hlt).1 w hw

end Increasing

end Chain

/-! ## Loops -/

/-- Where the links lead to in the end from the given element on. -/
def ChainsTo (next : α → Option α) (done : α → Prop) (x : α) : Prop :=
  ∃ stop xs, done stop ∧ Chain next stop x xs

section Loops

variable {done : α → Prop} {returns : Nat → α → Prop}

/-- A loop returns in the given number of rounds when a shorter chain leads to where it is done. -/
theorem returns_iff_chain (hnone : ∀ x, ¬ returns 0 x)
    (hround : ∀ rounds x, returns (rounds + 1) x ↔
      done x ∨ ∃ z, next x = some z ∧ returns rounds z) (rounds : Nat) :
    returns rounds x ↔ ∃ stop xs, done stop ∧ Chain next stop x xs ∧ xs.length < rounds := by
  induction rounds generalizing x with
  | zero =>
    refine iff_of_false (hnone x) ?_
    rintro ⟨_, _, _, _, hlength⟩
    exact Nat.not_lt_zero _ hlength
  | succ rounds ih =>
    rw [hround]
    constructor
    · rintro (hdone | ⟨z, hz, hreturns⟩)
      · exact ⟨x, [], hdone, rfl, Nat.succ_pos rounds⟩
      · obtain ⟨stop, xs, hdone, hchain, hlength⟩ := ih.mp hreturns
        exact ⟨stop, x :: xs, hdone, ⟨rfl, z, hz, hchain⟩, Nat.succ_lt_succ hlength⟩
    · rintro ⟨stop, xs, hdone, hchain, hlength⟩
      cases xs with
      | nil =>
        obtain rfl : x = stop := hchain
        exact .inl hdone
      | cons y xs =>
        obtain ⟨rfl, z, hz, hchain⟩ := hchain
        exact .inr ⟨z, hz, ih.mpr ⟨stop, xs, hdone, hchain, Nat.lt_of_succ_lt_succ hlength⟩⟩

theorem Chain.exists_of_mem (h : Chain next stop x xs) (hy : y ∈ xs) : ∃ z, next y = some z := by
  induction xs generalizing x with
  | nil => cases hy
  | cons w xs ih =>
    obtain ⟨rfl, z, hz, h⟩ := h
    rcases List.mem_cons.mp hy with rfl | hy
    · exact ⟨z, hz⟩
    · exact ih h hy

/-- Links that are only at numbers below `limit` cannot be followed more often. -/
theorem Chain.length_le {next : Nat → Option Nat} {stop x limit : Nat} {xs : List Nat}
    (hstop : next stop = none) (h : Chain next stop x xs)
    (hlimit : ∀ y z, next y = some z → y < limit) : xs.length ≤ limit := by
  have hsubset : xs ⊆ List.range limit := fun y hy => by
    obtain ⟨z, hz⟩ := h.exists_of_mem hy
    exact List.mem_range.mpr (hlimit y z hz)
  have hle := (h.nodup hstop).length_le_of_subset hsubset
  rwa [List.length_range] at hle

/-- With enough rounds a loop over numbers below `limit` returns exactly when its links lead to
where it is done. -/
theorem returns_iff_chainsTo {next : Nat → Option Nat} {done : Nat → Prop}
    {returns : Nat → Nat → Prop} {x limit rounds : Nat} (hnone : ∀ x, ¬ returns 0 x)
    (hround : ∀ rounds x, returns (rounds + 1) x ↔
      done x ∨ ∃ z, next x = some z ∧ returns rounds z)
    (hdone : ∀ x, done x → next x = none) (hlimit : ∀ y z, next y = some z → y < limit)
    (hrounds : limit < rounds) : returns rounds x ↔ ChainsTo next done x := by
  rw [returns_iff_chain hnone hround]
  constructor
  · rintro ⟨stop, xs, hstop, hchain, -⟩
    exact ⟨stop, xs, hstop, hchain⟩
  · rintro ⟨stop, xs, hstop, hchain⟩
    have hlength := hchain.length_le (hdone stop hstop) hlimit
    exact ⟨stop, xs, hstop, hchain, by omega⟩

end Loops

end OsAssignments
