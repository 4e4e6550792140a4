import Mathlib.Data.Finset.Card
import Mathlib.Data.List.Dedup
import Mathlib.Data.List.Induction
import Mathlib.Data.List.Rotate

/-!
# Page replacement

Requests to a memory with room for `m` pages, in which a page leaves only when a new one
needs its place. A run counts the requests that miss and may restrict the choice of the page
that leaves. Runs of the same requests are compared request by request: evicting the page
that is needed last is best, and where a list of the pages decides who leaves, more room holds
more pages.
-/

namespace OsAssignments.Replacement

variable {α : Type} [DecidableEq α]

/-- A request of page `p` to a memory that holds `S`: the page that leaves, if any, and the
pages held afterwards. -/
inductive Serves (m : ℕ) (S : Finset α) (p : α) : Option α → Finset α → Prop
  | hit (present : p ∈ S) : Serves m S p none S
  | fill (absent : p ∉ S) (room : S.card < m) : Serves m S p none (insert p S)
  | replace (q : α) (absent : p ∉ S) (full : S.card = m) (held : q ∈ S) :
      Serves m S p (some q) (insert p (S.erase q))

/-- What a request adds to the misses. -/
def missed (S : Finset α) (p : α) : ℕ := if p ∈ S then 0 else 1

/-- The pages held and the number of misses after requests to an empty memory. Every page that
leaves has the property `Φ`, which may depend on the earlier requests and on the pages held. -/
inductive Run (m : ℕ) (Φ : List α → Finset α → α → Prop) : List α → Finset α → ℕ → Prop
  | nil : Run m Φ [] ∅ 0
  | concat {ps : List α} {S T : Finset α} {n : ℕ} {p : α} {v : Option α} (run : Run m Φ ps S n)
      (serves : Serves m S p v T) (choice : ∀ q, v = some q → Φ ps S q) :
      Run m Φ (ps ++ [p]) T (n + missed S p)

variable {m n : ℕ} {Φ : List α → Finset α → α → Prop} {S T : Finset α} {ps : List α} {p : α}
  {v : Option α}

/-! ## One request -/

namespace Serves

theorem card_le (h : Serves m S p v T) (hS : S.card ≤ m) : T.card ≤ m := by
  cases h with
  | hit => exact hS
  | fill absent room =>
    rw [Finset.card_insert_of_notMem absent]
    exact room
  | replace q absent full held =>
    rw [Finset.card_insert_of_notMem fun h => absent (Finset.mem_of_mem_erase h),
      Finset.card_erase_of_mem held]
    have := Finset.card_pos.mpr ⟨q, held⟩
    omega

theorem mem (h : Serves m S p v T) : p ∈ T := by
  cases h with
  | hit present => exact present
  | fill => exact Finset.mem_insert_self _ _
  | replace => exact Finset.mem_insert_self _ _

/-- No page but the requested one enters. -/
theorem subset_insert (h : Serves m S p v T) : T ⊆ insert p S := by
  cases h with
  | hit => exact Finset.subset_insert _ _
  | fill => exact Finset.Subset.refl _
  | replace q => exact Finset.insert_subset_insert _ (Finset.erase_subset _ _)

/-- Whatever leaves, the other pages held are among those that were held. -/
theorem erase_subset (h : Serves m S p v T) : T.erase p ⊆ S.erase p := by
  intro x hx
  obtain ⟨hne, hT⟩ := Finset.mem_erase.mp hx
  exact Finset.mem_erase.mpr ⟨hne, (Finset.mem_insert.mp (h.subset_insert hT)).resolve_left hne⟩

end Serves

theorem missed_of_mem (h : p ∈ S) : missed S p = 0 := if_pos h

theorem missed_of_notMem (h : p ∉ S) : missed S p = 1 := if_neg h

theorem card_insert_eq (S : Finset α) (p : α) : (insert p S).card = S.card + missed S p := by
  rw [Finset.card_insert_eq_ite, missed]
  split <;> rfl

/-! ## Runs -/

namespace Run

theorem card_le (h : Run m Φ ps S n) : S.card ≤ m := by
  induction h with
  | nil => exact Nat.zero_le _
  | concat _ serves _ ih => exact serves.card_le ih

theorem of_concat (h : Run m Φ (ps ++ [p]) T n) : ∃ S k v, Run m Φ ps S k ∧ Serves m S p v T ∧
    (∀ q, v = some q → Φ ps S q) ∧ n = k + missed S p := by
  generalize hqs : ps ++ [p] = qs at h
  cases h with
  | nil => exact absurd hqs (by simp)
  | @concat ps' S _ k p' v run serves choice =>
    obtain ⟨rfl, hp⟩ := List.append_inj' hqs rfl
    obtain rfl := (List.cons.inj hp).1
    exact ⟨S, k, v, run, serves, choice, rfl⟩

theorem eq_nil (h : Run m Φ [] S n) : S = ∅ ∧ n = 0 := by
  generalize hqs : ([] : List α) = qs at h
  cases h with
  | nil => exact ⟨rfl, rfl⟩
  | concat => exact absurd hqs (by simp)

theorem toFinset_concat (ps : List α) (p : α) :
    (ps ++ [p]).toFinset = insert p ps.toFinset := by
  ext x
  simp

/-- Only requested pages are held. -/
theorem subset (h : Run m Φ ps S n) : S ⊆ ps.toFinset := by
  induction h with
  | nil => exact Finset.Subset.refl _
  | @concat ps S T k p v _ serves _ ih =>
    rw [toFinset_concat]
    exact serves.subset_insert.trans (Finset.insert_subset_insert _ ih)

/-- Every page misses when it is first requested. -/
theorem card_toFinset_le (h : Run m Φ ps S n) : ps.toFinset.card ≤ n := by
  induction h with
  | nil => exact Nat.zero_le _
  | @concat ps S T k p v run serves _ ih =>
    rw [toFinset_concat, card_insert_eq]
    have hmissed : missed ps.toFinset p ≤ missed S p := by
      by_cases hp : p ∈ S
      · rw [missed_of_mem (run.subset hp)]
        exact Nat.zero_le _
      · rw [missed_of_notMem hp, missed]
        split <;> omega
    omega

/-- If the requested pages fit, they all stay. -/
theorem eq_toFinset (h : Run m Φ ps S n) (hfits : ps.toFinset.card ≤ m) :
    S = ps.toFinset ∧ n = ps.toFinset.card := by
  induction h with
  | nil => exact ⟨rfl, rfl⟩
  | @concat ps S T k p v run serves _ ih =>
    rw [toFinset_concat] at hfits ⊢
    have hsubset := Finset.card_le_card (Finset.subset_insert p ps.toFinset)
    obtain ⟨rfl, rfl⟩ := ih (by omega)
    refine ⟨?_, (card_insert_eq _ _).symm⟩
    cases serves with
    | hit present => exact (Finset.insert_eq_of_mem present).symm
    | fill => rfl
    | replace q absent full held =>
      rw [Finset.card_insert_of_notMem absent] at hfits
      omega

end Run

/-! ## Evicting the page that is needed last -/

/-- Whenever the page is among the next requests, all pages held are. -/
def NeededLast (rest : List α) (S : Finset α) (q : α) : Prop :=
  ∀ t, q ∈ rest.take t → ∀ x ∈ S, x ∈ rest.take t

/-- How many of the pages are among the next `t` requests. -/
def soon (rest : List α) (t : ℕ) (S : Finset α) : ℕ := (S.filter (· ∈ rest.take t)).card

theorem soon_mono (rest : List α) (t : ℕ) (h : S ⊆ T) : soon rest t S ≤ soon rest t T :=
  Finset.card_le_card (Finset.filter_subset_filter _ h)

theorem soon_le_card (rest : List α) (t : ℕ) (S : Finset α) : soon rest t S ≤ S.card :=
  Finset.card_filter_le _ _

/-- A page that is held, and the other pages. -/
theorem soon_of_mem {rest : List α} {t : ℕ} (hp : p ∈ S) :
    soon rest t S = (if p ∈ rest.take t then 1 else 0) + soon rest t (S.erase p) := by
  conv_lhs => rw [soon, ← Finset.insert_erase hp, Finset.filter_insert]
  split
  · rw [Finset.card_insert_of_notMem (by simp), Nat.add_comm]
    rfl
  · rw [Nat.zero_add]
    rfl

/-- The next request and those after it. -/
theorem soon_cons (rest : List α) (t : ℕ) (S : Finset α) (p : α) :
    soon (p :: rest) (t + 1) S + missed S p = 1 + soon rest t (S.erase p) := by
  by_cases hp : p ∈ S
  · have hself : p ∈ (p :: rest).take (t + 1) := List.mem_cons_self
    rw [soon_of_mem hp, if_pos hself, missed_of_mem hp, Nat.add_zero]
    refine congrArg (1 + ·) (congrArg Finset.card (Finset.filter_congr fun x hx => ?_))
    rw [List.take_succ_cons, List.mem_cons, or_iff_right (Finset.ne_of_mem_erase hx)]
  · rw [missed_of_notMem hp, Finset.erase_eq_of_notMem hp, Nat.add_comm]
    refine congrArg (1 + ·) (congrArg Finset.card (Finset.filter_congr fun x hx => ?_))
    have hne : x ≠ p := fun h => hp (h ▸ hx)
    rw [List.take_succ_cons, List.mem_cons, or_iff_right hne]

/-- When the page that is needed last leaves, either none that is needed soon does or all the
pages that stay are needed soon. -/
theorem Serves.soon_erase {rest : List α} (h : Serves m S p v T)
    (hlast : ∀ q, v = some q → NeededLast rest S q) (t : ℕ) :
    soon rest t (S.erase p) ≤ soon rest t (T.erase p) ∨ m ≤ soon rest t (T.erase p) + 1 := by
  cases h with
  | hit => exact .inl le_rfl
  | fill absent =>
    rw [Finset.erase_insert absent]
    exact .inl (soon_mono rest t (Finset.erase_subset _ _))
  | replace q absent full held =>
    rw [Finset.erase_insert fun h => absent (Finset.mem_of_mem_erase h)]
    by_cases hq : q ∈ rest.take t
    · right
      have hall : (S.erase q).filter (· ∈ rest.take t) = S.erase q :=
        Finset.filter_true_of_mem fun x hx =>
          hlast q rfl t hq x (Finset.mem_of_mem_erase hx)
      rw [soon, hall, Finset.card_erase_of_mem held, full]
      omega
    · left
      refine Finset.card_le_card fun x hx => ?_
      obtain ⟨hxS, hx⟩ := Finset.mem_filter.mp hx
      refine Finset.mem_filter.mpr ⟨Finset.mem_erase.mpr ⟨?_, Finset.mem_of_mem_erase hxS⟩, hx⟩
      rintro rfl
      exact hq hx

namespace Run

variable {trace rest : List α} {m' a b : ℕ}

/-- At every point of the requests, a run that evicts the page needed last lags behind another
run with at most as many frames in the pages needed soon by no more than it is ahead in misses. -/
theorem soon_le (hsplit : trace = ps ++ rest) (hle : m' ≤ m)
    (hlast : Run m (fun ps S q => NeededLast (trace.drop (ps.length + 1)) S q) ps S a)
    (h : Run m' Φ ps T b) (t : ℕ) : soon rest t T + a ≤ soon rest t S + b := by
  induction ps using List.reverseRecOn generalizing S T a b rest t with
  | nil =>
    obtain ⟨rfl, rfl⟩ := hlast.eq_nil
    obtain ⟨rfl, rfl⟩ := h.eq_nil
    exact le_rfl
  | append_singleton ps p ih =>
    obtain ⟨S', a', v, hrun, hS, hchoice, rfl⟩ := hlast.of_concat
    obtain ⟨T', b', w, hother, hT, -, rfl⟩ := h.of_concat
    have hrest : trace.drop (ps.length + 1) = rest := by
      rw [hsplit, List.drop_left' (by simp)]
    rw [hrest] at hchoice
    rw [List.append_assoc, List.singleton_append] at hsplit
    have hprev := fun t => ih hsplit hrun hother (t + 1)
    simp only [soon_of_mem hS.mem, soon_of_mem hT.mem]
    have hself := soon_cons rest t S' p
    have hothers := soon_cons rest t T' p
    have hsame := hprev t
    have hT' := soon_mono rest t hT.erase_subset
    -- The run that evicts the page needed last has never missed more often.
    have hzero := hprev 0
    have hself₀ := soon_cons rest 0 S' p
    have hothers₀ := soon_cons rest 0 T' p
    have hempty : ∀ U : Finset α, soon rest 0 U = 0 := fun U => by simp [soon]
    rw [hempty] at hself₀ hothers₀
    rcases hS.soon_erase hchoice t with hkept | hall
    · omega
    · have hcard := h.card_le
      have hsoon := soon_le_card rest t (T.erase p)
      rw [Finset.card_erase_of_mem hT.mem] at hsoon
      omega

/-- No run of the same requests with at most as many frames has fewer misses than one that
evicts the page needed last. -/
theorem neededLast_le (hle : m' ≤ m)
    (hlast : Run m (fun qs S q => NeededLast (ps.drop (qs.length + 1)) S q) ps S a)
    (h : Run m' Φ ps T b) : a ≤ b := by
  have hsoon := soon_le (List.append_nil ps).symm hle hlast h 0
  simpa [soon] using hsoon

end Run

/-! ## Evicting by a list of the pages -/

/-- No page held stands behind the page in a list that depends on the requests only. -/
def Hindmost (order : List α → List α) (ps : List α) (S : Finset α) (q : α) : Prop :=
  ∀ x ∈ S, (order ps).idxOf x ≤ (order ps).idxOf q

namespace Run

variable {order : List α → List α} {m' a b : ℕ}

/-- As many pages are held as were requested, or as there is room for. -/
theorem card_eq (h : Run m Φ ps S n) : S.card = min m ps.toFinset.card := by
  induction h with
  | nil => exact (Nat.min_zero m).symm
  | @concat ps S T k p v run serves _ ih =>
    rw [toFinset_concat]
    have hgrows := Finset.card_le_card (Finset.subset_insert p ps.toFinset)
    cases serves with
    | hit present => rw [Finset.insert_eq_of_mem (run.subset present), ih]
    | fill absent room =>
      obtain ⟨rfl, -⟩ := run.eq_toFinset (by omega)
      rw [Finset.card_insert_of_notMem absent]
      omega
    | replace q absent full held =>
      rw [Finset.card_insert_of_notMem fun h => absent (Finset.mem_of_mem_erase h),
        Finset.card_erase_of_mem held]
      have := Finset.card_pos.mpr ⟨q, held⟩
      omega

/-- Where the list alone decides who leaves, more room holds more pages. -/
theorem subset_of_hindmost (hall : ∀ ps, ∀ x ∈ ps, x ∈ order ps) (hle : m ≤ m')
    (run : Run m (Hindmost order) ps S a) (run' : Run m' (Hindmost order) ps T b) : S ⊆ T := by
  induction ps using List.reverseRecOn generalizing S T a b with
  | nil => exact run.eq_nil.1 ▸ Finset.empty_subset _
  | append_singleton ps p ih =>
    obtain ⟨S', a', v, hrun, hS, hchoice, -⟩ := run.of_concat
    obtain ⟨T', b', w, hrun', hT, hchoice', -⟩ := run'.of_concat
    have hsub : S' ⊆ T' := ih hrun hrun'
    cases hT with
    | hit present =>
      exact hS.subset_insert.trans (Finset.insert_subset present hsub)
    | fill => exact hS.subset_insert.trans (Finset.insert_subset_insert _ hsub)
    | replace q' absent full held =>
      cases hS with
      | hit present => exact absurd (hsub present) absent
      | fill _ room =>
        have hcard := hrun.card_eq
        have hcard' := hrun'.card_eq
        omega
      | replace q _ _ hq =>
        refine Finset.insert_subset_insert _ fun x hx => ?_
        obtain ⟨hne, hx⟩ := Finset.mem_erase.mp hx
        refine Finset.mem_erase.mpr ⟨?_, hsub hx⟩
        -- A page that both hold and one of them gives up is given up by the other as well.
        rintro rfl
        have hbefore := hchoice q rfl x hx
        have hbehind := hchoice' x rfl q (hsub hq)
        have hmem : x ∈ order ps := hall ps x (List.mem_toFinset.mp (hrun.subset hx))
        exact hne ((List.idxOf_inj hmem).mp (le_antisymm hbefore hbehind))

/-- More room then misses no more often. -/
theorem le_of_hindmost (hall : ∀ ps, ∀ x ∈ ps, x ∈ order ps) (hle : m ≤ m')
    (run : Run m (Hindmost order) ps S a) (run' : Run m' (Hindmost order) ps T b) : b ≤ a := by
  induction ps using List.reverseRecOn generalizing S T a b with
  | nil => exact run'.eq_nil.2 ▸ Nat.zero_le a
  | append_singleton ps p ih =>
    obtain ⟨S', a', _, hS, -, -, rfl⟩ := run.of_concat
    obtain ⟨T', b', _, hT, -, -, rfl⟩ := run'.of_concat
    have hmisses := ih hS hT
    have hmissed : missed T' p ≤ missed S' p := by
      by_cases hp : p ∈ S'
      · rw [missed_of_mem (subset_of_hindmost hall hle hS hT hp)]
        exact Nat.zero_le _
      · rw [missed_of_notMem hp, missed]
        split <;> omega
    omega

end Run

/-! ## Lists of the pages -/

/-- The page used last is the hindmost in the order of last use. -/
theorem idxOf_dedup_le {ps : List α} {x q : α} (hq : ps.getLast? = some q) (hx : x ∈ ps) :
    ps.dedup.idxOf x ≤ ps.dedup.idxOf q := by
  induction ps with
  | nil => exact absurd hx List.not_mem_nil
  | cons y ps ih =>
    by_cases hnil : ps = []
    · subst hnil
      obtain rfl := Option.some.inj hq
      obtain rfl := List.mem_singleton.mp hx
      exact le_rfl
    · rw [List.getLast?_cons_of_ne_nil hnil] at hq
      by_cases hy : y ∈ ps
      · rw [List.dedup_cons_of_mem hy]
        exact ih hq ((List.mem_cons.mp hx).elim (fun h => h ▸ hy) id)
      · rw [List.dedup_cons_of_notMem hy]
        by_cases hxy : y = x
        · rw [hxy, List.idxOf_cons_self]
          exact Nat.zero_le _
        · have hqy : y ≠ q := fun h => hy (h ▸ List.mem_of_getLast? hq)
          rw [List.idxOf_cons_ne _ hxy, List.idxOf_cons_ne _ hqy]
          exact Nat.succ_le_succ (ih hq ((List.mem_cons.mp hx).resolve_left (Ne.symm hxy)))

/-- The pages in the order of their first use. -/
def firstUses (ps : List α) : List α := ps.reverse.dedup.reverse

theorem firstUses_concat_of_mem (h : p ∈ ps) : firstUses (ps ++ [p]) = firstUses ps := by
  rw [firstUses, firstUses, List.reverse_append, List.reverse_singleton, List.singleton_append,
    List.dedup_cons_of_mem (List.mem_reverse.mpr h)]

theorem firstUses_concat_of_notMem (h : p ∉ ps) : firstUses (ps ++ [p]) = firstUses ps ++ [p] := by
  rw [firstUses, firstUses, List.reverse_append, List.reverse_singleton, List.singleton_append,
    List.dedup_cons_of_notMem (mt List.mem_reverse.mp h), List.reverse_cons]

theorem mem_firstUses : p ∈ firstUses ps ↔ p ∈ ps := by
  rw [firstUses, List.mem_reverse, List.mem_dedup, List.mem_reverse]

theorem nodup_firstUses (ps : List α) : (firstUses ps).Nodup :=
  List.nodup_reverse.mpr (List.nodup_dedup _)

theorem length_firstUses (ps : List α) : (firstUses ps).length = ps.toFinset.card := by
  rw [firstUses, List.length_reverse, ← List.card_toFinset, List.toFinset_reverse]

/-- Later requests add to the end. -/
theorem firstUses_prefix (ps qs : List α) : firstUses ps <+: firstUses (ps ++ qs) := by
  induction qs using List.reverseRecOn with
  | nil => rw [List.append_nil]
  | append_singleton qs p ih =>
    rw [← List.append_assoc]
    refine ih.trans ?_
    by_cases hp : p ∈ ps ++ qs
    · rw [firstUses_concat_of_mem hp]
    · rw [firstUses_concat_of_notMem hp]
      exact List.prefix_append _ _

theorem getElem?_firstUses_append {i : ℕ} (hi : i < (firstUses ps).length) (qs : List α) :
    (firstUses (ps ++ qs))[i]? = (firstUses ps)[i]? := by
  obtain ⟨l, hl⟩ := firstUses_prefix ps qs
  rw [← hl, List.getElem?_append_left hi]

/-- When the first element is put last, an element stands behind those between it and the
first. -/
theorem idxOf_rotate_le {l : List α} (hl : l.Nodup) {i k : ℕ} {x q : α} (hi : 1 ≤ i)
    (hx : l[i]? = some x) (hq : l[k]? = some q) (h : k = 0 ∨ i ≤ k) :
    (l.rotate 1).idxOf x ≤ (l.rotate 1).idxOf q := by
  cases l with
  | nil => cases hx
  | cons y l =>
    obtain ⟨j, rfl⟩ := Nat.exists_eq_add_of_le' hi
    rw [List.getElem?_cons_succ] at hx
    obtain ⟨hj, rfl⟩ := List.getElem?_eq_some_iff.mp hx
    obtain ⟨hy, hl⟩ := List.nodup_cons.mp hl
    rw [List.rotate_cons_succ, List.rotate_zero,
      List.idxOf_append_of_mem (List.getElem_mem hj), hl.idxOf_getElem]
    cases k with
    | zero =>
      obtain rfl := Option.some.inj hq
      rw [List.idxOf_append_of_notMem hy]
      omega
    | succ k =>
      rw [List.getElem?_cons_succ] at hq
      obtain ⟨hk, rfl⟩ := List.getElem?_eq_some_iff.mp hq
      rw [List.idxOf_append_of_mem (List.getElem_mem hk), hl.idxOf_getElem]
      omega

end OsAssignments.Replacement
