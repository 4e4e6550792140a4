import Mathlib.Logic.Function.Basic

/-!
# Exclusive ownership

Owners hold at most one resource each. Ownership is exclusive when no resource has two
owners and only granted resources are held. Handing a fresh granted resource to an owner
keeps it exclusive, whatever that owner held before.
-/

namespace OsAssignments

variable {ι β : Type}

/-- No resource has two owners, and every resource that is held is granted. -/
structure Exclusive (granted : β → Prop) (held : ι → Option β) : Prop where
  unique : ∀ {i j b}, held i = some b → held j = some b → i = j
  granted : ∀ {i b}, held i = some b → granted b

namespace Exclusive

variable {granted granted' : β → Prop} {held : ι → Option β}

/-- Granting more resources disturbs nobody. -/
theorem mono (h : Exclusive granted held) (hsub : ∀ b, granted b → granted' b) :
    Exclusive granted' held :=
  ⟨h.unique, fun hi => hsub _ (h.granted hi)⟩

/-- Owners may give resources back. -/
theorem restrict {held' : ι → Option β} (h : Exclusive granted held)
    (hsub : ∀ i b, held' i = some b → held i = some b ∧ granted' b) :
    Exclusive granted' held' :=
  ⟨fun hi hj => h.unique (hsub _ _ hi).1 (hsub _ _ hj).1, fun hi => (hsub _ _ hi).2⟩

/-- A granted resource that nobody holds may be handed to anybody. -/
theorem assign [DecidableEq ι] (h : Exclusive granted held) {i : ι} {b : β} (hb : granted b)
    (hfree : ∀ j, held j ≠ some b) : Exclusive granted (Function.update held i (some b)) := by
  have hother : ∀ {j c}, j ≠ i → Function.update held i (some b) j = some c → held j = some c :=
    fun hj hc => by rwa [Function.update_of_ne hj] at hc
  have hself : ∀ {c}, Function.update held i (some b) i = some c → c = b :=
    fun hc => by rw [Function.update_self] at hc; exact (Option.some.inj hc).symm
  constructor
  · intro j k c hj hk
    by_cases hji : j = i
    · subst hji
      by_cases hki : k = j
      · exact hki.symm
      · obtain rfl := hself hj
        exact absurd (hother hki hk) (hfree k)
    · by_cases hki : k = i
      · subst hki
        obtain rfl := hself hk
        exact absurd (hother hji hj) (hfree j)
      · exact h.unique (hother hji hj) (hother hki hk)
  · intro j c hj
    by_cases hji : j = i
    · subst hji
      rw [hself hj]
      exact hb
    · exact h.granted (hother hji hj)

/-- Ownership may be read off a list of owners that holds nothing twice. -/
theorem of_nodup [DecidableEq ι] (owners : List ι) (hall : ∀ i b, held i = some b → i ∈ owners)
    (hnodup : (owners.filterMap held).Nodup) (hgranted : ∀ b ∈ owners.filterMap held, granted b) :
    Exclusive granted held := by
  have hmem : ∀ {i b}, held i = some b → b ∈ owners.filterMap held :=
    fun hi => List.mem_filterMap.mpr ⟨_, hall _ _ hi, hi⟩
  refine ⟨fun {i j b} hi hj => ?_, fun hi => hgranted _ (hmem hi)⟩
  have hi' := hall i b hi
  have hj' := hall j b hj
  clear hall hgranted hmem
  induction owners with
  | nil => cases hi'
  | cons k ks ih =>
    cases hk : held k with
    | none =>
      have hki : i ≠ k := fun h => by rw [h, hk] at hi; cases hi
      have hkj : j ≠ k := fun h => by rw [h, hk] at hj; cases hj
      rw [List.filterMap_cons_none hk] at hnodup
      exact ih hnodup (List.mem_of_ne_of_mem hki hi') (List.mem_of_ne_of_mem hkj hj')
    | some c =>
      rw [List.filterMap_cons_some hk, List.nodup_cons] at hnodup
      have hlater : ∀ {l}, held l = some b → l ∈ ks → b ∈ ks.filterMap held :=
        fun hl hmem => List.mem_filterMap.mpr ⟨_, hmem, hl⟩
      rcases List.mem_cons.mp hi' with rfl | hik
      · obtain rfl : c = b := Option.some.inj (hk.symm.trans hi)
        rcases List.mem_cons.mp hj' with rfl | hjk
        · rfl
        · exact absurd (hlater hj hjk) hnodup.1
      · rcases List.mem_cons.mp hj' with rfl | hjk
        · obtain rfl : c = b := Option.some.inj (hk.symm.trans hj)
          exact absurd (hlater hi hik) hnodup.1
        · exact ih hnodup.2 hik hjk

end Exclusive

end OsAssignments
