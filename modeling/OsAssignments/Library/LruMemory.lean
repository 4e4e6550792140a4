import Mathlib.Data.List.Nodup
import Mathlib.Data.List.Induction

/-!
# Memories with least-recently-used replacement

A memory of `m` frames keeps the pages that were used last. The list of all pages by their last
use does not depend on `m`; the memory is its first part. Two lists that differ only in the order
of recently used pages hit the same among the other pages.
-/

namespace OsAssignments.LruMemory

variable {α : Type} [DecidableEq α]

/-- The pages in a memory of `m` frames after an access, the last used page first. -/
def access (m : Nat) (memory : List α) (p : α) : List α :=
  if p ∈ memory then p :: memory.erase p else (p :: memory).take m

/-- The number of accesses that miss. -/
def misses (m : Nat) : List α → List α → Nat
  | _, [] => 0
  | memory, p :: ps => (if p ∈ memory then 0 else 1) + misses m (access m memory p) ps

/-- All pages by their last use after one more use. -/
def use (s : List α) (p : α) : List α := p :: s.erase p

/-- All pages by their last use after more uses. -/
def uses (s : List α) (ps : List α) : List α := ps.foldl use s

variable {m : Nat} {s t ps memory : List α} {p q : α}

/-! ## The order of last use -/

theorem uses_append (s ps qs : List α) : uses s (ps ++ qs) = uses (uses s ps) qs :=
  List.foldl_append

theorem uses_concat (s ps : List α) (p : α) : uses s (ps ++ [p]) = use (uses s ps) p :=
  uses_append s ps [p]

theorem nodup_use (hs : s.Nodup) (p : α) : (use s p).Nodup :=
  List.nodup_cons.mpr ⟨hs.not_mem_erase, hs.erase p⟩

theorem nodup_uses (hs : s.Nodup) (ps : List α) : (uses s ps).Nodup := by
  induction ps generalizing s with
  | nil => exact hs
  | cons p ps ih => exact ih (nodup_use hs p)

theorem mem_use : q ∈ use s p ↔ q = p ∨ q ∈ s := by
  rw [use, List.mem_cons]
  by_cases hq : q = p
  · simp only [hq, true_or]
  · rw [List.mem_erase_of_ne hq]

/-- The pages are those that were used. -/
theorem mem_uses : q ∈ uses s ps ↔ q ∈ ps ∨ q ∈ s := by
  induction ps using List.reverseRecOn with
  | nil => simp [uses]
  | append_singleton ps p ih =>
    rw [uses_concat, mem_use, ih, List.mem_append, List.mem_singleton, or_left_comm, or_assoc]

/-- Pages that are used make no fewer pages. -/
theorem length_le_uses (s ps : List α) : s.length ≤ (uses s ps).length := by
  induction ps generalizing s with
  | nil => exact Nat.le_refl _
  | cons p ps ih =>
    refine Nat.le_trans ?_ (ih (use s p))
    have hlength : s.length - 1 ≤ (s.erase p).length := List.le_length_erase
    rw [use, List.length_cons]
    omega

/-- A page that is used leaves the pages that were not used. -/
theorem filter_erase (hs : s.Nodup) (ps : List α) (p : α) :
    (s.filter (· ∉ ps)).erase p = s.filter (· ∉ ps ++ [p]) := by
  rw [(hs.filter _).erase_eq_filter, List.filter_filter]
  refine List.filter_congr fun q _ => ?_
  by_cases hq : q = p
  · simp [hq]
  · simp [hq]

/-- The pages that are used come first, and the others keep their order. -/
theorem uses_eq_append (hs : s.Nodup) (hps : ps.Nodup) :
    uses s ps = ps.reverse ++ s.filter (· ∉ ps) := by
  induction ps using List.reverseRecOn with
  | nil => simp [uses]
  | append_singleton ps p ih =>
    obtain ⟨hps, -, hdisjoint⟩ := List.nodup_append.mp hps
    have hnot : p ∉ ps.reverse := fun h =>
      hdisjoint p (List.mem_reverse.mp h) p List.mem_cons_self rfl
    rw [uses_concat, ih hps, use, List.erase_append_right _ hnot, filter_erase hs,
      List.reverse_append]
    rfl

/-- Among the first pages one more use changes these only. -/
theorem use_append_of_mem (hp : p ∈ s) : use (s ++ t) p = use s p ++ t := by
  rw [use, List.erase_append_left _ hp]
  rfl

/-- A page that is not among the first ones joins them. -/
theorem use_append_of_not_mem (ht : t.Nodup) (hp : p ∉ s) :
    use (s ++ t.filter (· ∉ ps)) p = use s p ++ t.filter (· ∉ ps ++ [p]) := by
  rw [use, List.erase_append_right _ hp, filter_erase ht, use, List.erase_of_not_mem hp]
  rfl

/-! ## The memory is the first part -/

theorem erase_take_of_mem {n : Nat} (h : p ∈ s.take (n + 1)) :
    (s.take (n + 1)).erase p = (s.erase p).take n := by
  induction s generalizing n with
  | nil => exact absurd h List.not_mem_nil
  | cons x s ih =>
    rw [List.take_succ_cons] at h ⊢
    by_cases hx : x = p
    · rw [hx, List.erase_cons_head, List.erase_cons_head]
    · have hmem := (List.mem_cons.mp h).resolve_left (Ne.symm hx)
      rw [List.erase_cons_tail (by simpa using hx), List.erase_cons_tail (by simpa using hx)]
      cases n with
      | zero => exact absurd hmem List.not_mem_nil
      | succ n => rw [ih hmem, List.take_succ_cons]

theorem take_erase_of_not_mem {n : Nat} (h : p ∉ s.take n) : (s.erase p).take n = s.take n := by
  induction s generalizing n with
  | nil => rfl
  | cons x s ih =>
    cases n with
    | zero => rfl
    | succ n =>
      rw [List.take_succ_cons, List.mem_cons, not_or] at h
      rw [List.erase_cons_tail (by simpa using Ne.symm h.1), List.take_succ_cons,
        List.take_succ_cons, ih h.2]

/-- The memory holds the first `m` of all pages. -/
theorem access_take (hm : 1 ≤ m) (p : α) : access m (s.take m) p = (use s p).take m := by
  obtain ⟨n, rfl⟩ : ∃ n, m = n + 1 := ⟨m - 1, by omega⟩
  rw [access, use]
  by_cases hp : p ∈ s.take (n + 1)
  · rw [if_pos hp, erase_take_of_mem hp, List.take_succ_cons]
  · have hp' : p ∉ s.take n := fun h =>
      hp (List.take_subset_take_left s (Nat.le_succ n) h)
    rw [if_neg hp, List.take_succ_cons, List.take_succ_cons, List.take_take,
      Nat.min_eq_left (Nat.le_succ n), take_erase_of_not_mem hp']

theorem misses_cons (hm : 1 ≤ m) (s : List α) (p : α) (ps : List α) :
    misses m (s.take m) (p :: ps) =
      (if p ∈ s.take m then 0 else 1) + misses m ((use s p).take m) ps := by
  rw [misses, access_take hm]

theorem misses_append (hm : 1 ≤ m) (s ps qs : List α) :
    misses m (s.take m) (ps ++ qs) =
      misses m (s.take m) ps + misses m ((uses s ps).take m) qs := by
  induction ps generalizing s with
  | nil => simp [misses, uses]
  | cons p ps ih =>
    rw [List.cons_append, misses_cons hm, misses_cons hm, ih, Nat.add_assoc]
    rfl

/-- In a memory with frames for all pages, each page misses once. -/
theorem misses_of_length_le (h : (uses s ps).length ≤ m) :
    misses m s ps + s.length = (uses s ps).length := by
  induction ps generalizing s with
  | nil => exact Nat.zero_add _
  | cons p ps ih =>
    have huses : uses s (p :: ps) = uses (use s p) ps := rfl
    have hle := length_le_uses (use s p) ps
    rw [huses] at h ⊢
    rw [misses, ← ih h]
    by_cases hp : p ∈ s
    · have hlength := List.length_erase_of_mem hp
      have hpos := List.length_pos_of_mem hp
      rw [if_pos hp, access, if_pos hp, use, List.length_cons, hlength]
      omega
    · have huse : use s p = p :: s := by rw [use, List.erase_of_not_mem hp]
      have hin : (p :: s).take m = p :: s := List.take_of_length_le (by
        rw [← huse]
        exact Nat.le_trans hle h)
      rw [if_neg hp, access, if_neg hp, hin, huse, List.length_cons]
      omega

/-- No access misses exactly when all pages are there. -/
theorem misses_eq_zero_iff : misses m memory ps = 0 ↔ ∀ p ∈ ps, p ∈ memory := by
  induction ps generalizing memory with
  | nil => exact iff_of_true rfl fun _ h => absurd h List.not_mem_nil
  | cons p ps ih =>
    rw [misses, List.forall_mem_cons]
    by_cases hp : p ∈ memory
    · have hmem : ∀ q, q ∈ access m memory p ↔ q ∈ memory := fun q => by
        rw [access, if_pos hp]
        exact (List.perm_cons_erase hp).mem_iff.symm
      rw [if_pos hp, Nat.zero_add, ih, and_iff_right hp]
      simp only [hmem]
    · rw [if_neg hp]
      exact iff_of_false (by omega) fun h => hp h.1

omit [DecidableEq α] in
/-- A page that is not among the first ones hits whatever their order is. -/
theorem mem_take_append_iff {front front' : List α} (hperm : front.Perm front') (hp : p ∉ front) :
    p ∈ (front ++ t).take m ↔ p ∈ (front' ++ t).take m := by
  have hp' : p ∉ front' := fun h => hp (hperm.mem_iff.mpr h)
  rw [List.take_append, List.take_append, hperm.length_eq, List.mem_append, List.mem_append]
  exact or_congr (iff_of_false (fun h => hp (List.mem_of_mem_take h))
    fun h => hp' (List.mem_of_mem_take h)) Iff.rfl

omit [DecidableEq α] in
/-- A page among the first `m` hits. -/
theorem mem_take_append_left {front : List α} (hp : p ∈ front) (hlen : front.length ≤ m) :
    p ∈ (front ++ t).take m := by
  rw [List.take_append, List.take_of_length_le hlen]
  exact List.mem_append_left _ hp

end OsAssignments.LruMemory
