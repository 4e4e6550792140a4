import Mathlib.Data.List.Dedup
import Mathlib.Data.List.Perm.Subperm
import OsAssignments.Library.LruMemory

/-!
# The trace reduction

Translation of the main loop of `fastslim.py`. A buffer holds the pages of a window of the trace;
when another page comes and the buffer is full, the first references of the window are printed.
A page that is referenced again is marked on a new object that nothing else refers to, so that
no last reference is ever printed, and neither is the window in which the trace ends.
-/

namespace OsAssignments.Paging

open LruMemory

/-- The kinds of references of a trace. -/
inductive RefType
  | I
  | L
  | S
  | M
  deriving DecidableEq

/-- What a well-formed line says: the kind and the address of a reference. -/
structure Reference where
  reftype : RefType
  addr : Nat
  deriving DecidableEq

structure TraceItem where
  reftype : RefType
  pg : Nat
  tstamp : Nat
  marked : Bool
  deriving DecidableEq

/-- `TraceItem.__init__` -/
def TraceItem.new (reftype : RefType) (pg tstamp : Nat) : TraceItem := ⟨reftype, pg, tstamp, false⟩

/-- `TraceItem.__eq__`, by which an item is found in the buffer. -/
def TraceItem.same (ti other : TraceItem) : Bool := ti.pg = other.pg

/-- `TraceItem.__repr__`: the reference that is printed. -/
def TraceItem.repr (ti : TraceItem) : Reference := ⟨ti.reftype, ti.pg * 4096⟩

/-- The variables of the script, and what it has printed. -/
structure Slim where
  ts : Nat
  tracebuffer : List TraceItem
  toprint : List TraceItem
  printed : List Reference

/-- `emit_marked_in_ts_order` -/
def Slim.emit (s : Slim) : Slim :=
  let toprint := (s.toprint ++ s.tracebuffer.filter TraceItem.marked).mergeSort
    fun ti ti' => ti.tstamp ≤ ti'.tstamp
  { s with tracebuffer := [], toprint := [], printed := s.printed ++ toprint.map TraceItem.repr }

/-- The body of the loop for a reference that is not skipped. The marks of a page that is in the
buffer are set on the new item, which is dropped. -/
def Slim.step (buffersize : Nat) (s : Slim) (r : Reference) : Slim :=
  let ti := TraceItem.new r.reftype (r.addr / 4096) s.ts
  let s :=
    if s.tracebuffer.any ti.same then s
    else
      let s := if s.tracebuffer.length = buffersize then s.emit else s
      { s with toprint := s.toprint ++ [ti], tracebuffer := s.tracebuffer ++ [ti] }
  { s with ts := s.ts + 1 }

/-- The references that are not skipped. -/
def kept (keepcode : Bool) (trace : List Reference) : List Reference :=
  trace.filter fun r => !(r.reftype = .I && keepcode = false)

/-- The script on a trace. -/
def fastslim (keepcode : Bool) (buffersize : Nat) (trace : List Reference) : Slim :=
  (kept keepcode trace).foldl (Slim.step buffersize) ⟨0, [], [], []⟩

/-- The pages that are used when a trace is replayed. -/
def pagesOf (trace : List Reference) : List Nat := trace.map fun r => r.addr / 4096

/-- Replaying what is printed misses as often as replaying the references that are not skipped. -/
def PreservesMisses (keepcode : Bool) (buffersize frames : Nat) (trace : List Reference) : Prop :=
  misses frames [] (pagesOf (fastslim keepcode buffersize trace).printed) =
    misses frames [] (pagesOf (kept keepcode trace))

/-! ## What is printed -/

/-- The pages that are printed, and those that wait when the trace ends, from a window in which
`cur` were referenced. -/
def slim (b : Nat) : List Nat → List Nat → List Nat × List Nat
  | cur, [] => ([], cur)
  | cur, p :: ps =>
    if p ∈ cur then slim b cur ps
    else if cur.length = b then (cur ++ (slim b [p] ps).1, (slim b [p] ps).2)
    else slim b (cur ++ [p]) ps

/-- The references before the last window of a trace, and those of the window, from a window with
the references `window`. A window ends before the reference to one more than `b` pages. -/
def cut (b : Nat) : List Nat → List Nat → List Nat × List Nat
  | window, [] => ([], window)
  | window, p :: ps =>
    if p ∈ window then cut b (window ++ [p]) ps
    else if window.dedup.length = b then (window ++ (cut b [p] ps).1, (cut b [p] ps).2)
    else cut b (window ++ [p]) ps

/-- In every window that is complete, the pages are last referenced in the order in which they are
first referenced. `cur` are the pages of the window by their first and `recent` by their last
reference. -/
def InOrder (b : Nat) : List Nat → List Nat → List Nat → Prop
  | _, _, [] => True
  | cur, recent, p :: ps =>
    if p ∈ cur then InOrder b cur (use recent p) ps
    else if cur.length = b then recent = cur.reverse ∧ InOrder b [p] [p] ps
    else InOrder b (cur ++ [p]) (use recent p) ps

instance (b : Nat) (cur recent ps : List Nat) : Decidable (InOrder b cur recent ps) :=
  match ps with
  | [] => isTrue trivial
  | p :: ps =>
    have _again := instDecidableInOrder b cur (use recent p) ps
    have _next := instDecidableInOrder b [p] [p] ps
    have _joined := instDecidableInOrder b (cur ++ [p]) (use recent p) ps
    inferInstanceAs (Decidable (if p ∈ cur then InOrder b cur (use recent p) ps
      else if cur.length = b then recent = cur.reverse ∧ InOrder b [p] [p] ps
      else InOrder b (cur ++ [p]) (use recent p) ps))

/-- The condition on the pages of a trace: all complete windows are in order, or there is a frame
for every page; and each page of the last window is among the `m` that were used last before it. -/
structure Slimmable (b m : Nat) (ps : List Nat) : Prop where
  windows : InOrder b [] [] ps ∨ (uses [] ps).length ≤ m
  last : ∀ p ∈ (cut b [] ps).2, p ∈ (uses [] (cut b [] ps).1).take m

variable {s : Slim} {b m p : Nat} {cur recent window old ps : List Nat} {keepcode : Bool}
  {trace : List Reference}

/-- The buffer and the waiting list hold the first references of a window, unmarked and by their
timestamps. -/
structure Slim.Holds (s : Slim) (cur : List Nat) : Prop where
  buffer : s.tracebuffer = s.toprint
  pages : s.toprint.map TraceItem.pg = cur
  unmarked : ∀ ti ∈ s.toprint, ti.marked = false
  order : s.toprint.Pairwise fun ti ti' => ti.tstamp ≤ ti'.tstamp
  past : ∀ ti ∈ s.toprint, ti.tstamp < s.ts

namespace Slim

theorem holds_empty (ts : Nat) (printed : List Reference) :
    Holds ⟨ts, [], [], printed⟩ [] :=
  ⟨rfl, rfl, fun _ h => absurd h List.not_mem_nil, List.Pairwise.nil,
    fun _ h => absurd h List.not_mem_nil⟩

theorem Holds.any_same (h : s.Holds cur) (reftype : RefType) (pg : Nat) :
    s.tracebuffer.any (TraceItem.new reftype pg s.ts).same = true ↔ pg ∈ cur := by
  rw [List.any_eq_true, h.buffer, ← h.pages, List.mem_map]
  refine exists_congr fun ti => and_congr_right fun _ => ?_
  simp only [TraceItem.same, TraceItem.new]
  exact decide_eq_true_iff.trans eq_comm

/-- What is emitted are the waiting items as they stand. -/
theorem Holds.emit (h : s.Holds cur) : s.emit =
    { s with
      tracebuffer := [], toprint := [],
      printed := s.printed ++ s.toprint.map TraceItem.repr } := by
  have hnone : s.tracebuffer.filter TraceItem.marked = [] := by
    rw [h.buffer]
    exact List.filter_eq_nil_iff.mpr fun ti hti => by simp [h.unmarked ti hti]
  have hsorted : s.toprint.mergeSort (fun ti ti' => ti.tstamp ≤ ti'.tstamp) = s.toprint :=
    List.mergeSort_of_pairwise (h.order.imp fun hle => decide_eq_true hle)
  simp only [Slim.emit, hnone, List.append_nil, hsorted]

/-- A page that is not in the window joins it. -/
theorem Holds.join (h : s.Holds cur) (reftype : RefType) (pg : Nat) :
    Holds { s with
      ts := s.ts + 1
      toprint := s.toprint ++ [TraceItem.new reftype pg s.ts]
      tracebuffer := s.tracebuffer ++ [TraceItem.new reftype pg s.ts] } (cur ++ [pg]) where
  buffer := by rw [h.buffer]
  pages := by rw [List.map_append, h.pages]; rfl
  unmarked := List.forall_mem_append.mpr ⟨h.unmarked, List.forall_mem_singleton.mpr rfl⟩
  order := by
    refine List.pairwise_append.mpr
      ⟨h.order, List.pairwise_singleton _ _, fun ti hti ti' hti' => ?_⟩
    rw [List.mem_singleton.mp hti']
    exact Nat.le_of_lt (h.past ti hti)
  past := List.forall_mem_append.mpr ⟨fun ti hti => Nat.lt_succ_of_lt (h.past ti hti),
    List.forall_mem_singleton.mpr (Nat.lt_succ_self _)⟩

theorem pagesOf_repr (h : s.Holds cur) : pagesOf (s.toprint.map TraceItem.repr) = cur := by
  rw [← h.pages, pagesOf, List.map_map]
  refine List.map_congr_left fun ti _ => ?_
  exact Nat.mul_div_cancel ti.pg (by decide)

/-- The script prints and keeps the pages that `slim` gives. -/
theorem Holds.foldl (h : s.Holds cur) (trace : List Reference) :
    pagesOf (trace.foldl (Slim.step b) s).printed =
        pagesOf s.printed ++ (slim b cur (pagesOf trace)).1 ∧
      (trace.foldl (Slim.step b) s).Holds (slim b cur (pagesOf trace)).2 := by
  induction trace generalizing s cur with
  | nil => exact ⟨(List.append_nil _).symm, h⟩
  | cons r trace ih =>
    have hsame := h.any_same r.reftype (r.addr / 4096)
    have hpages : pagesOf (r :: trace) = r.addr / 4096 :: pagesOf trace := rfl
    rw [List.foldl_cons, hpages, slim, Slim.step]
    by_cases hcur : r.addr / 4096 ∈ cur
    · rw [if_pos (hsame.mpr hcur), if_pos hcur]
      exact ih ⟨h.buffer, h.pages, h.unmarked, h.order,
        fun ti hti => Nat.lt_succ_of_lt (h.past ti hti)⟩
    · have hlen : s.tracebuffer.length = cur.length := by
        rw [h.buffer, ← h.pages, List.length_map]
      simp only [if_neg (hsame.not.mpr hcur), if_neg hcur, hlen]
      by_cases hfull : cur.length = b
      · simp only [if_pos hfull, h.emit]
        have hempty := holds_empty s.ts (s.printed ++ s.toprint.map TraceItem.repr)
        obtain ⟨hprinted, hholds⟩ := ih (hempty.join r.reftype (r.addr / 4096))
        refine ⟨?_, hholds⟩
        rw [hprinted, pagesOf, List.map_append, List.append_assoc, ← pagesOf, ← pagesOf,
          pagesOf_repr h]
        rfl
      · simp only [if_neg hfull]
        exact ih (h.join r.reftype (r.addr / 4096))

end Slim

/-- The pages that the script prints. -/
theorem pagesOf_printed (keepcode : Bool) (b : Nat) (trace : List Reference) :
    pagesOf (fastslim keepcode b trace).printed = (slim b [] (pagesOf (kept keepcode trace))).1 :=
  ((Slim.holds_empty 0 []).foldl (kept keepcode trace)).1

/-! ## Buffers of one page -/

/-- With one page in the buffer and one frame, the misses of a trace after a page are those of what
is printed, in a memory that does not have the page. -/
theorem misses_slim_one {q : Nat} {memory : List Nat} (hq : q ∉ memory) (ps : List Nat) :
    misses 1 memory (slim 1 [q] ps).1 = misses 1 [q] ps := by
  induction ps generalizing q memory with
  | nil => rfl
  | cons p ps ih =>
    rw [slim, misses]
    by_cases hp : p = q
    · rw [if_pos (List.mem_singleton.mpr hp), if_pos (List.mem_singleton.mpr hp), ih hq, access,
        if_pos (List.mem_singleton.mpr hp), hp, List.erase_cons_head, Nat.zero_add]
    · have hpq : p ∉ [q] := fun h => hp (List.mem_singleton.mp h)
      have hqp : p ∉ access 1 memory q := by
        rw [access, if_neg hq]
        exact hpq
      rw [if_neg hpq, if_neg hpq, if_pos List.length_singleton, List.singleton_append, misses,
        if_neg hq, ih hqp, access, if_neg hpq]
      rfl

/-- With one page in the buffer and one frame, the last window is missed. -/
theorem preservesMisses_one (h : PreservesMisses keepcode 1 1 trace) :
    kept keepcode trace = [] := by
  rw [PreservesMisses, pagesOf_printed] at h
  cases hkept : kept keepcode trace with
  | nil => rfl
  | cons r rest =>
    have hpages : pagesOf (r :: rest) = r.addr / 4096 :: pagesOf rest := rfl
    have hone := misses_slim_one (q := r.addr / 4096) List.not_mem_nil (pagesOf rest)
    rw [hkept, hpages, slim, if_neg List.not_mem_nil, if_neg (by decide), List.nil_append, hone,
      misses, if_neg List.not_mem_nil, access, if_neg List.not_mem_nil] at h
    have hne : misses 1 [r.addr / 4096] (pagesOf rest) ≠
        1 + misses 1 [r.addr / 4096] (pagesOf rest) := by omega
    exact absurd h hne

/-! ## Windows -/

/-- The references of a window: `cur` are its pages by their first and `recent` by their last
reference. -/
structure IsWindow (cur recent window : List Nat) : Prop where
  nodup : cur.Nodup
  perm : recent.Perm cur
  mem : ∀ p, p ∈ window ↔ p ∈ cur
  uses_eq : ∀ old : List Nat, old.Nodup → uses old window = recent ++ old.filter (· ∉ cur)

namespace IsWindow

theorem empty : IsWindow [] [] [] :=
  ⟨List.nodup_nil, List.Perm.refl _, fun _ => Iff.rfl, fun old _ => by simp [uses]⟩

/-- A page of the window is referenced again. -/
theorem again (h : IsWindow cur recent window) (hp : p ∈ cur) :
    IsWindow cur (use recent p) (window ++ [p]) := by
  have hmem : p ∈ recent := h.perm.mem_iff.mpr hp
  refine ⟨h.nodup, (List.perm_cons_erase hmem).symm.trans h.perm, fun q => ?_, fun old hold => ?_⟩
  · rw [List.mem_append, List.mem_singleton, h.mem]
    exact ⟨fun hq => hq.elim id fun heq => heq ▸ hp, .inl⟩
  · rw [uses_concat, h.uses_eq old hold, use_append_of_mem hmem]

/-- Another page joins the window. -/
theorem join (h : IsWindow cur recent window) (hp : p ∉ cur) :
    IsWindow (cur ++ [p]) (use recent p) (window ++ [p]) := by
  have hnot : p ∉ recent := fun hmem => hp (h.perm.mem_iff.mp hmem)
  refine ⟨?_, ?_, fun q => ?_, fun old hold => ?_⟩
  · rw [List.nodup_append_comm]
    exact List.nodup_cons.mpr ⟨hp, h.nodup⟩
  · rw [use, List.erase_of_not_mem hnot]
    exact (List.Perm.cons p h.perm).trans (List.perm_append_singleton p cur).symm
  · rw [List.mem_append, List.mem_append, h.mem]
  · rw [uses_concat, h.uses_eq old hold, use_append_of_not_mem hold hnot]

theorem single (p : Nat) : IsWindow [p] [p] [p] := empty.join List.not_mem_nil

theorem length_dedup (h : IsWindow cur recent window) : window.dedup.length = cur.length :=
  ((List.perm_ext_iff_of_nodup (List.nodup_dedup window) h.nodup).mpr fun q => by
    rw [List.mem_dedup, h.mem]).length_eq

/-- In order, the references of a window leave what the first ones leave. -/
theorem uses_cur (h : IsWindow cur recent window) (horder : recent = cur.reverse)
    (hold : old.Nodup) : uses old window = uses old cur := by
  rw [h.uses_eq old hold, uses_eq_append hold h.nodup, horder]

end IsWindow

/-- The trace is cut in two. -/
theorem cut_append (b : Nat) (window ps : List Nat) :
    (cut b window ps).1 ++ (cut b window ps).2 = window ++ ps := by
  induction ps generalizing window with
  | nil => exact (List.append_nil window).symm
  | cons p ps ih =>
    rw [cut]
    split
    · rw [ih, List.append_assoc, List.singleton_append]
    · split
      · rw [List.append_assoc, ih, List.singleton_append]
      · rw [ih, List.append_assoc, List.singleton_append]

/-- The pages that are printed are those before the last window, and its pages wait in the end. -/
theorem mem_slim (hw : IsWindow cur recent window) (q : Nat) :
    (q ∈ (slim b cur ps).1 ↔ q ∈ (cut b window ps).1) ∧
      (q ∈ (slim b cur ps).2 ↔ q ∈ (cut b window ps).2) := by
  induction ps generalizing cur recent window with
  | nil => exact ⟨Iff.rfl, (hw.mem q).symm⟩
  | cons p ps ih =>
    rw [slim, cut, hw.length_dedup]
    simp only [hw.mem p]
    by_cases hp : p ∈ cur
    · rw [if_pos hp, if_pos hp]
      exact ih (hw.again hp)
    · rw [if_neg hp, if_neg hp]
      by_cases hfull : cur.length = b
      · obtain ⟨hprinted, hwaiting⟩ := ih (.single p)
        rw [if_pos hfull, if_pos hfull, List.mem_append, List.mem_append, hw.mem, hprinted]
        exact ⟨Iff.rfl, hwaiting⟩
      · rw [if_neg hfull, if_neg hfull]
        exact ih (hw.join hp)

/-! ## Windows in order -/

/-- What is printed leaves the pages in the order of the references before the last window. -/
theorem uses_slim (hold : old.Nodup) (hw : IsWindow cur recent window)
    (h : InOrder b cur recent ps) :
    uses old (slim b cur ps).1 = uses old (cut b window ps).1 := by
  induction ps generalizing cur recent window old with
  | nil => rfl
  | cons p ps ih =>
    rw [slim, cut, hw.length_dedup]
    rw [InOrder] at h
    simp only [hw.mem p]
    by_cases hp : p ∈ cur
    · rw [if_pos hp] at h ⊢
      rw [if_pos hp]
      exact ih hold (hw.again hp) h
    · rw [if_neg hp] at h ⊢
      rw [if_neg hp]
      by_cases hfull : cur.length = b
      · rw [if_pos hfull] at h ⊢
        obtain ⟨horder, h⟩ := h
        rw [if_pos hfull, uses_append, uses_append, hw.uses_cur horder hold]
        exact ih (nodup_uses hold cur) (.single p) h
      · rw [if_neg hfull] at h ⊢
        rw [if_neg hfull]
        exact ih hold (hw.join hp) h

/-- The misses of a trace, from a window in which `cur` were referenced, are those of what is
printed and of the pages that wait in the end. -/
theorem misses_slim (hb : 1 ≤ b) (hbm : b ≤ m) (hold : old.Nodup)
    (hw : IsWindow cur recent window) (hlen : cur.length ≤ b) (h : InOrder b cur recent ps) :
    misses m (old.take m) cur + misses m ((uses old window).take m) ps =
      misses m (old.take m) (slim b cur ps).1 +
        misses m ((uses old (slim b cur ps).1).take m) (slim b cur ps).2 := by
  have hm : 1 ≤ m := Nat.le_trans hb hbm
  induction ps generalizing cur recent window old with
  | nil => simp [slim, misses, uses]
  | cons p ps ih =>
    rw [slim]
    rw [InOrder] at h
    rw [misses_cons hm, ← uses_concat]
    by_cases hp : p ∈ cur
    · rw [if_pos hp] at h ⊢
      have hhit : p ∈ (uses old window).take m := by
        rw [hw.uses_eq old hold]
        exact mem_take_append_left (hw.perm.mem_iff.mpr hp) (by rw [hw.perm.length_eq]; omega)
      rw [if_pos hhit, Nat.zero_add]
      exact ih hold (hw.again hp) hlen h
    · rw [if_neg hp] at h ⊢
      by_cases hfull : cur.length = b
      · rw [if_pos hfull] at h ⊢
        obtain ⟨horder, h⟩ := h
        -- The pages of the window are in the same order for both, and so are all pages.
        have hrest := ih (nodup_uses hold cur) (.single p) hb h
        rw [misses_cons hm, misses, Nat.add_zero] at hrest
        rw [uses_append, hw.uses_cur horder hold, misses_append hm, uses_append, Nat.add_assoc,
          ← hrest]
      · rw [if_neg hfull] at h ⊢
        have hnot : p ∉ recent := fun hmem => hp (hw.perm.mem_iff.mp hmem)
        have hrest := ih hold (hw.join hp)
          (by rw [List.length_append, List.length_singleton]; omega) h
        have hhit := mem_take_append_iff (m := m) (t := old.filter (· ∉ cur))
          (hw.perm.trans (List.reverse_perm cur).symm) hnot
        rw [← hw.uses_eq old hold, ← uses_eq_append hold hw.nodup] at hhit
        rw [misses_append hm, misses_cons hm, misses, Nat.add_zero] at hrest
        simp only [hhit]
        omega

/-! ## When the misses are preserved -/

/-- Where all complete windows are in order, the misses of the last window are lost. -/
theorem preservesMisses_of_inOrder (hb : 1 ≤ b) (hbm : b ≤ m)
    (h : InOrder b [] [] (pagesOf (kept keepcode trace))) : PreservesMisses keepcode b m trace ↔
      ∀ p ∈ (cut b [] (pagesOf (kept keepcode trace))).2,
        p ∈ (uses [] (cut b [] (pagesOf (kept keepcode trace))).1).take m := by
  have hcount := misses_slim hb hbm List.nodup_nil .empty (Nat.zero_le b) h
  simp only [misses, uses, List.foldl_nil, List.take_nil, Nat.zero_add] at hcount
  have hpages : ∀ q, q ∈ (slim b [] (pagesOf (kept keepcode trace))).2 ↔
      q ∈ (cut b [] (pagesOf (kept keepcode trace))).2 := fun q => (mem_slim .empty q).2
  rw [PreservesMisses, pagesOf_printed, hcount, Nat.left_eq_add, misses_eq_zero_iff,
    ← uses_slim List.nodup_nil .empty h]
  exact forall_congr' fun q => by rw [hpages]; rfl

/-- Where every page has a frame, so are the pages that are in the last window only. -/
theorem preservesMisses_of_length_le
    (h : (uses [] (pagesOf (kept keepcode trace))).length ≤ m) :
    PreservesMisses keepcode b m trace ↔
      ∀ p ∈ (cut b [] (pagesOf (kept keepcode trace))).2,
        p ∈ (uses [] (cut b [] (pagesOf (kept keepcode trace))).1).take m := by
  rw [PreservesMisses, pagesOf_printed]
  generalize pagesOf (kept keepcode trace) = ps at h
  have hcut := cut_append b [] ps
  rw [List.nil_append] at hcut
  have hbefore : (uses [] (cut b [] ps).1).length ≤ m := by
    refine Nat.le_trans ?_ h
    rw [← hcut, uses_append, hcut]
    exact length_le_uses _ _
  have hprinted : ∀ q, q ∈ uses [] (slim b [] ps).1 ↔ q ∈ (cut b [] ps).1 := fun q => by
    rw [mem_uses, (mem_slim .empty q).1, or_iff_left List.not_mem_nil]
  have hpages : ∀ q, q ∈ uses [] ps ↔ q ∈ (cut b [] ps).1 ∨ q ∈ (cut b [] ps).2 := fun q => by
    rw [mem_uses, or_iff_left List.not_mem_nil, ← List.mem_append, hcut]
  have hsub : (uses [] (slim b [] ps).1).Subperm (uses [] ps) :=
    List.subperm_of_subset (nodup_uses List.nodup_nil _) fun q hq =>
      (hpages q).mpr (.inl ((hprinted q).mp hq))
  have hmisses := misses_of_length_le (Nat.le_trans hsub.length_le h)
  have hmisses' := misses_of_length_le h
  rw [List.length_nil, Nat.add_zero] at hmisses hmisses'
  rw [hmisses, hmisses', List.take_of_length_le hbefore]
  constructor
  · intro hlength q hq
    have hperm := hsub.perm_of_length_le (Nat.le_of_eq hlength.symm)
    have hmem := (hprinted q).mp (hperm.mem_iff.mpr ((hpages q).mpr (.inr hq)))
    exact mem_uses.mpr (.inl hmem)
  · intro hlast
    refine Nat.le_antisymm hsub.length_le ?_
    refine (List.subperm_of_subset (nodup_uses List.nodup_nil _) fun q hq => ?_).length_le
    rw [hprinted]
    rcases (hpages q).mp hq with hq | hq
    · exact hq
    · exact (mem_uses.mp (hlast q hq)).resolve_right List.not_mem_nil

/-- The misses are preserved where the windows are in order or every page has a frame, and no page
of the last window would miss. Under the first condition, the second one is necessary. -/
theorem preservesMisses_of_slimmable (keepcode : Bool) (trace : List Reference) (hb : 1 ≤ b)
    (hbm : b ≤ m) :
    (Slimmable b m (pagesOf (kept keepcode trace)) → PreservesMisses keepcode b m trace) ∧
      (InOrder b [] [] (pagesOf (kept keepcode trace)) ∨
          (uses [] (pagesOf (kept keepcode trace))).length ≤ m →
        PreservesMisses keepcode b m trace → Slimmable b m (pagesOf (kept keepcode trace))) := by
  have hiff : InOrder b [] [] (pagesOf (kept keepcode trace)) ∨
      (uses [] (pagesOf (kept keepcode trace))).length ≤ m →
        (PreservesMisses keepcode b m trace ↔
          ∀ p ∈ (cut b [] (pagesOf (kept keepcode trace))).2,
            p ∈ (uses [] (cut b [] (pagesOf (kept keepcode trace))).1).take m) := fun h =>
    h.elim (preservesMisses_of_inOrder hb hbm) preservesMisses_of_length_le
  exact ⟨fun h => (hiff h.windows).mpr h.last, fun h hpreserves => ⟨h, (hiff h).mp hpreserves⟩⟩

/-- For all buffers and all memories they are preserved only when no reference is kept. -/
theorem preservesMisses_all_iff (keepcode : Bool) (trace : List Reference) :
    (∀ b m, 1 ≤ b → b ≤ m → PreservesMisses keepcode b m trace) ↔ kept keepcode trace = [] := by
  refine ⟨fun h => preservesMisses_one (h 1 1 (Nat.le_refl 1) (Nat.le_refl 1)), fun h b m _ _ => ?_⟩
  rw [PreservesMisses, pagesOf_printed, h]
  rfl

/-- A trace whose last window is in a memory of four frames, with a reference to code that is
skipped. -/
theorem preservesMisses_of_slimmable_sample : PreservesMisses false 2 4
    [⟨.S, 0x1000⟩, ⟨.I, 0x9000⟩, ⟨.L, 0x2000⟩, ⟨.M, 0x3000⟩, ⟨.L, 0x4000⟩, ⟨.L, 0x1008⟩,
      ⟨.S, 0x2000⟩] :=
  (preservesMisses_of_slimmable false _ (by decide) (by decide)).1 ⟨.inl (by decide), by decide⟩

/-- A trace of one reference is reduced to nothing. -/
theorem not_preservesMisses : ¬ PreservesMisses false 4 4 [⟨.S, 0x1000⟩] := by
  rw [PreservesMisses]
  decide

end OsAssignments.Paging
