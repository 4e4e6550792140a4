import Mathlib.Tactic.Linarith
import Mathlib.Tactic.Ring
import OsAssignments.Library.Replacement

/-!
# First-in first-out replacement

A queue of pages against other replacements of the same requests. It is competitive with each
of them that has at most as much room, and where two pages are requested in turn it misses once,
while evicting the page that was used last misses with every request.
-/

namespace OsAssignments.Replacement

variable {α : Type} [DecidableEq α] {m n : ℕ} {Φ : List α → Finset α → α → Prop} {S T : Finset α}
  {ps : List α} {p : α} {v : Option α}

/-! ## First in, first out -/

/-- The pages in memory after a request, the one brought in last first. -/
def enqueue (m : ℕ) (queue : List α) (p : α) : List α :=
  if p ∈ queue then queue else (p :: queue).take m

/-- The pages in memory and the number of misses after requests to an empty memory. -/
def fifo (m : ℕ) (ps : List α) : List α × ℕ :=
  ps.foldl (fun s p => (enqueue m s.1 p, s.2 + missed s.1.toFinset p)) ([], 0)

theorem fifo_concat (m : ℕ) (ps : List α) (p : α) : fifo m (ps ++ [p]) =
    (enqueue m (fifo m ps).1 p, (fifo m ps).2 + missed (fifo m ps).1.toFinset p) := by
  rw [fifo, List.foldl_append]
  rfl

-- In a queue more room can miss more often.
example : (fifo 3 [1, 2, 3, 4, 1, 2, 5, 1, 2, 3, 4, 5]).2 = 9 ∧
    (fifo 4 [1, 2, 3, 4, 1, 2, 5, 1, 2, 3, 4, 5]).2 = 10 := by decide

/-- The misses of a queue of `k` pages, counted in rounds of `k`. During the current round the
pages `recent` were brought in, and another memory, which held `start`, has missed `extra`. -/
structure Round (k h : ℕ) (queue : List α) (f : ℕ) (S : Finset α) (n : ℕ) (recent : List α)
    (start extra : Finset α) (rounds : ℕ) : Prop where
  prefix_queue : recent <+: queue
  nodup : recent.Nodup
  pos : 1 ≤ recent.length
  le : recent.length ≤ k
  misses : f = rounds * k + recent.length
  card : start.card ≤ h
  held : S ⊆ start ∪ extra
  requested : ∀ x ∈ recent, x ∈ start ∪ extra
  others : 1 + rounds * (k - h + 1) + extra.card ≤ n

namespace Round

variable {k h f rounds : ℕ} {queue recent : List α} {start extra : Finset α}

/-- A round goes on while it has fewer than `k` misses. -/
theorem request (hr : Round k h queue f S n recent start extra rounds)
    (hroom : p ∈ queue ∨ recent.length < k) (hS : Serves h S p v T) :
    ∃ recent' extra', Round k h (enqueue k queue p) (f + missed queue.toFinset p) T
      (n + missed S p) recent' start extra' rounds := by
  -- The page is held by the other memory or missed by it.
  have hextra : ∃ extra', extra ⊆ extra' ∧ extra'.card ≤ extra.card + missed S p ∧
      insert p S ⊆ start ∪ extra' := by
    by_cases hp : p ∈ S
    · refine ⟨extra, Finset.Subset.refl _, Nat.le_add_right _ _, ?_⟩
      rw [Finset.insert_eq_of_mem hp]
      exact hr.held
    · refine ⟨insert p extra, Finset.subset_insert _ _, ?_, ?_⟩
      · rw [missed_of_notMem hp]
        exact Finset.card_insert_le _ _
      · rw [Finset.union_insert]
        exact Finset.insert_subset_insert _ hr.held
  obtain ⟨extra', hsub, hcard, hheld⟩ := hextra
  have hunion := Finset.union_subset_union (Finset.Subset.refl start) hsub
  have hothers := hr.others
  by_cases hq : p ∈ queue
  · refine ⟨recent, extra', ?_⟩
    rw [enqueue, if_pos hq, missed_of_mem (List.mem_toFinset.mpr hq)]
    exact ⟨hr.prefix_queue, hr.nodup, hr.pos, hr.le, hr.misses, hr.card,
      hS.subset_insert.trans hheld, fun x hx => hunion (hr.requested x hx), by omega⟩
  · have hlt := hroom.resolve_left hq
    obtain ⟨older, rfl⟩ := hr.prefix_queue
    have hmisses := hr.misses
    refine ⟨p :: recent, extra', ?_⟩
    rw [enqueue, if_neg hq, missed_of_notMem fun hmem => hq (List.mem_toFinset.mp hmem)]
    refine ⟨?_, ?_, ?_, hlt, ?_, hr.card, hS.subset_insert.trans hheld, ?_, by omega⟩
    · exact List.prefix_take_iff.mpr ⟨List.prefix_append (p :: recent) older, hlt⟩
    · exact List.nodup_cons.mpr ⟨fun hmem => hq (List.mem_append_left _ hmem), hr.nodup⟩
    · exact Nat.le_add_left 1 _
    · rw [List.length_cons]
      omega
    · rintro x (_ | ⟨_, hx⟩)
      · exact hheld (Finset.mem_insert_self _ _)
      · exact hunion (hr.requested x hx)

/-- After `k` misses of the queue the other memory has missed `k - h + 1` pages more. -/
theorem next (hr : Round k h queue f S n recent start extra rounds) (hq : p ∉ queue)
    (hfull : recent.length = k) (hk : 1 ≤ k) (hle : h ≤ k) (hS : Serves h S p v T)
    (hT : T.card ≤ h) :
    Round k h (enqueue k queue p) (f + missed queue.toFinset p) T (n + missed S p) [p] T ∅
      (rounds + 1) := by
  obtain ⟨older, rfl⟩ := hr.prefix_queue
  have hothers := hr.others
  have hmisses := hr.misses
  -- The pages of the round and the new one were held at its start or missed since.
  have hround : k + 1 ≤ h + (extra.card + missed S p) := by
    have hsub : (p :: recent).toFinset ⊆ start ∪ (if p ∈ S then extra else insert p extra) := by
      intro x hx
      rcases List.mem_cons.mp (List.mem_toFinset.mp hx) with rfl | hmem
      · split
        · rename_i hp
          exact hr.held hp
        · exact Finset.mem_union_right _ (Finset.mem_insert_self _ _)
      · refine Finset.union_subset_union (Finset.Subset.refl _) ?_ (hr.requested x hmem)
        split
        · exact Finset.Subset.refl _
        · exact Finset.subset_insert _ _
    have hcard := Finset.card_le_card hsub
    have hnodup : (p :: recent).Nodup :=
      List.nodup_cons.mpr ⟨fun hmem => hq (List.mem_append_left _ hmem), hr.nodup⟩
    rw [List.toFinset_card_of_nodup hnodup, List.length_cons, hfull] at hcard
    have hextra : (if p ∈ S then extra else insert p extra).card ≤ extra.card + missed S p := by
      rw [missed]
      split
      · exact le_rfl
      · exact Finset.card_insert_le _ _
    have hunion := Finset.card_union_le start (if p ∈ S then extra else insert p extra)
    have hstart := hr.card
    omega
  rw [enqueue, if_neg hq, missed_of_notMem fun hmem => hq (List.mem_toFinset.mp hmem)]
  refine ⟨List.prefix_take_iff.mpr ⟨List.prefix_append [p] _, hk⟩, List.nodup_singleton p, le_rfl,
    hk, ?_, hT, Finset.subset_union_left, ?_, ?_⟩
  · rw [List.length_singleton, Nat.add_mul, hmisses, hfull, Nat.one_mul]
  · intro x hx
    rw [List.mem_singleton.mp hx]
    exact Finset.mem_union_left _ hS.mem
  · rw [Nat.add_mul, Nat.one_mul, Finset.card_empty]
    omega

/-- The misses of the queue against those of the other memory. -/
theorem le_misses (hr : Round k h queue f S n recent start extra rounds) (hh : 1 ≤ h)
    (hk : h ≤ k) : (k - h + 1) * f ≤ k * n + (h - 1) * (k - h) := by
  have hrecent : recent.length ≤ h + extra.card := by
    have hsub : recent.toFinset ⊆ start ∪ extra := fun x hx =>
      hr.requested x (List.mem_toFinset.mp hx)
    have hcard := (Finset.card_le_card hsub).trans (Finset.card_union_le _ _)
    rw [List.toFinset_card_of_nodup hr.nodup] at hcard
    have hstart := hr.card
    omega
  have hle := hr.le
  have hothers := hr.others
  rw [hr.misses]
  obtain ⟨d, rfl⟩ := Nat.exists_eq_add_of_le hk
  obtain ⟨g, rfl⟩ := Nat.exists_eq_add_of_le hh
  have hd : 1 + g + d - (1 + g) = d := by omega
  have hg : 1 + g - 1 = g := by omega
  rw [hd] at hothers ⊢
  rw [hg]
  have hn := Nat.mul_le_mul_left (1 + g + d) hothers
  generalize recent.length = r at *
  generalize extra.card = e at *
  rcases Nat.le_total d e with hde | hed
  · nlinarith
  · nlinarith

end Round

/-- Between two requests a round is under way, unless there was no request yet. -/
theorem Run.round {k h : ℕ} (run : Run h Φ ps S n) (hh : 1 ≤ h) (hk : h ≤ k) :
    ps = [] ∨ ∃ recent start extra rounds,
      Round k h (fifo k ps).1 (fifo k ps).2 S n recent start extra rounds := by
  induction run with
  | nil => exact .inl rfl
  | @concat ps S T n p v run serves _ ih =>
    right
    have hcard := serves.card_le run.card_le
    rw [fifo_concat]
    rcases ih with rfl | ⟨recent, start, extra, rounds, hr⟩
    · obtain ⟨rfl, rfl⟩ := run.eq_nil
      have hpos : [p].length ≤ k := hh.trans hk
      refine ⟨[p], T, ∅, 0, ?_, List.nodup_singleton p, le_rfl, hpos, ?_, hcard,
        Finset.subset_union_left, ?_, ?_⟩
      · exact List.prefix_take_iff.mpr ⟨List.prefix_refl [p], hpos⟩
      · simp [fifo, missed]
      · intro x hx
        rw [List.mem_singleton.mp hx]
        exact Finset.mem_union_left _ serves.mem
      · simp [missed]
    · by_cases hroom : p ∈ (fifo k ps).1 ∨ recent.length < k
      · obtain ⟨recent', extra', hr'⟩ := hr.request hroom serves
        exact ⟨recent', start, extra', rounds, hr'⟩
      · rw [not_or] at hroom
        have hle := hr.le
        exact ⟨[p], T, ∅, rounds + 1, hr.next hroom.1 (by omega) (by omega) hk serves hcard⟩

/-- First-in first-out replacement with `k` frames is competitive with every other replacement
with at most as many frames. -/
theorem Run.fifo_misses_le {k h : ℕ} (run : Run h Φ ps S n) (hh : 1 ≤ h) (hk : h ≤ k) :
    (k - h + 1) * (fifo k ps).2 ≤ k * n + (h - 1) * (k - h) := by
  rcases run.round hh hk with rfl | ⟨recent, start, extra, rounds, hr⟩
  · exact Nat.zero_le _
  · exact hr.le_misses hh hk

/-! ## Evicting the page that was used last -/

/-- The page is that of the last request. -/
def UsedLast (ps : List α) (_ : Finset α) (q : α) : Prop := ps.getLast? = some q

/-- The requests of two pages in turn. -/
def inTurn (x y : α) (n : ℕ) : List α := (List.replicate n [x, y]).flatten

omit [DecidableEq α] in
theorem inTurn_succ (x y : α) (n : ℕ) : inTurn x y (n + 1) = inTurn x y n ++ [x] ++ [y] := by
  rw [inTurn, List.replicate_succ', List.flatten_append]
  simp [inTurn]

omit [DecidableEq α] in
theorem getLast?_inTurn (ps : List α) (x y : α) (n : ℕ) :
    (ps ++ [y] ++ inTurn x y n).getLast? = some y := by
  cases n with
  | zero => simp [inTurn]
  | succ n => rw [inTurn_succ, ← List.append_assoc, List.getLast?_concat]

variable {x y : α}

/-- If the last page of a full memory and a new one are requested in turn, every request misses. -/
theorem Run.misses_inTurn (hnodup : (ps ++ [y]).Nodup) (hlen : (ps ++ [y]).length = m)
    (hx : x ∉ ps ++ [y]) (k : ℕ) (run : Run m UsedLast (ps ++ [y] ++ inTurn x y k) S n) :
    S = (ps ++ [y]).toFinset ∧ n = m + 2 * k := by
  have hcard : (ps ++ [y]).toFinset.card = m := by rw [List.toFinset_card_of_nodup hnodup, hlen]
  induction k generalizing S n with
  | zero =>
    rw [inTurn, List.replicate_zero, List.flatten_nil, List.append_nil] at run
    obtain ⟨hS, hn⟩ := run.eq_toFinset hcard.le
    exact ⟨hS, by omega⟩
  | succ k ih =>
    rw [inTurn_succ, ← List.append_assoc, ← List.append_assoc] at run
    obtain ⟨S₁, n₁, v₁, run₁, serves₁, choice₁, rfl⟩ := run.of_concat
    obtain ⟨S₀, n₀, v₀, run₀, serves₀, choice₀, rfl⟩ := run₁.of_concat
    obtain ⟨rfl, rfl⟩ := ih run₀
    have hy : y ∈ (ps ++ [y]).toFinset := by simp
    have hxS : x ∉ (ps ++ [y]).toFinset := fun h => hx (List.mem_toFinset.mp h)
    have hne : y ≠ x := fun h => hxS (h ▸ hy)
    -- The new page takes the place of the last one, and conversely.
    have hS₁ : S₁ = insert x ((ps ++ [y]).toFinset.erase y) := by
      cases serves₀ with
      | hit present => exact absurd present hxS
      | fill _ room => exact absurd room (by omega)
      | replace q _ _ _ =>
        have hq := choice₀ q rfl
        rw [UsedLast, getLast?_inTurn] at hq
        rw [Option.some.inj hq]
    have hyS : y ∉ S₁ := by
      rw [hS₁]
      simp [hne]
    have hcard₁ : S₁.card = m := by
      rw [hS₁, Finset.card_insert_of_notMem fun h => hxS (Finset.mem_of_mem_erase h),
        Finset.card_erase_of_mem hy, hcard]
      have := Finset.card_pos.mpr ⟨y, hy⟩
      omega
    rw [missed_of_notMem hxS, missed_of_notMem hyS]
    refine ⟨?_, by omega⟩
    cases serves₁ with
    | hit present => exact absurd present hyS
    | fill _ room => exact absurd room (by omega)
    | replace q _ _ _ =>
      have hq := choice₁ q rfl
      rw [UsedLast, List.getLast?_concat] at hq
      rw [← Option.some.inj hq, hS₁, Finset.erase_insert fun h => hxS (Finset.mem_of_mem_erase h),
        Finset.insert_erase hy]

theorem fifo_of_nodup (hnodup : ps.Nodup) (hlen : ps.length ≤ m) :
    fifo m ps = (ps.reverse, ps.length) := by
  induction ps using List.reverseRecOn with
  | nil => rfl
  | append_singleton ps p ih =>
    rw [List.length_append, List.length_singleton] at hlen
    obtain ⟨hps, -, hdisjoint⟩ := List.nodup_append.mp hnodup
    have hp : p ∉ ps.reverse := fun h =>
      hdisjoint p (List.mem_reverse.mp h) p List.mem_cons_self rfl
    rw [fifo_concat, ih hps (by omega), enqueue, if_neg hp, List.take_of_length_le (by simpa),
      missed_of_notMem fun h => hp (List.mem_toFinset.mp h)]
    simp

/-- A queue of at least two pages misses the new page once. -/
theorem fifo_misses_inTurn (hm : 2 ≤ m) (hnodup : (ps ++ [y]).Nodup)
    (hlen : (ps ++ [y]).length = m) (hx : x ∉ ps ++ [y]) (k : ℕ) :
    (fifo m (ps ++ [y] ++ inTurn x y (k + 1))).2 = m + 1 := by
  have hfull : fifo m (ps ++ [y] ++ [x]) = ((x :: (ps ++ [y]).reverse).take m, m + 1) := by
    have hx' : x ∉ (ps ++ [y]).reverse := fun h => hx (List.mem_reverse.mp h)
    rw [fifo_concat, fifo_of_nodup hnodup hlen.le, enqueue, if_neg hx',
      missed_of_notMem fun h => hx' (List.mem_toFinset.mp h), hlen]
  have hboth : x ∈ (x :: (ps ++ [y]).reverse).take m ∧ y ∈ (x :: (ps ++ [y]).reverse).take m := by
    obtain ⟨j, rfl⟩ := Nat.exists_eq_add_of_le' hm
    simp
  have hstays : ∀ j, fifo m (ps ++ [y] ++ inTurn x y (j + 1)) =
      ((x :: (ps ++ [y]).reverse).take m, m + 1) := by
    intro j
    induction j with
    | zero =>
      rw [inTurn_succ, inTurn, List.replicate_zero, List.flatten_nil, List.nil_append,
        ← List.append_assoc, fifo_concat, hfull, enqueue, if_pos hboth.2,
        missed_of_mem (List.mem_toFinset.mpr hboth.2)]
    | succ j ih =>
      rw [inTurn_succ, ← List.append_assoc, ← List.append_assoc, fifo_concat, fifo_concat, ih]
      simp only [enqueue, if_pos hboth.1, if_pos hboth.2,
        missed_of_mem (List.mem_toFinset.mpr hboth.1),
        missed_of_mem (List.mem_toFinset.mpr hboth.2)]
  rw [hstays]

end OsAssignments.Replacement
