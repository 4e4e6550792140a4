import OsAssignments.Paging.TraceText

/-!
# The lines of a trace

A text line ends with a newline or with the file. `fgets` cuts a long line into pieces, and
`replay_trace` takes every piece for a line; where `sscanf` finds no address, it makes an access
all the same. A trace is replayed as it is written exactly when neither happens.
-/

namespace OsAssignments.Paging

/-- The lines of a text, with their newlines. -/
def textLines : List UInt8 → List (List UInt8)
  | [] => []
  | c :: file =>
    if c = 0x0a then [c] :: textLines file
    else match textLines file with
      | [] => [[c]]
      | line :: lines => (c :: line) :: lines

/-- The type and the address on a line that matches `%c %lx`. -/
def matched (line : List UInt8) : Option Access :=
  match line.takeWhile (· ≠ 0) with
  | [] => none
  | c :: text => (scanHex text).map fun vaddr => ⟨Char.ofNat c.toNat, vaddr⟩

/-- The access that a line asks for. -/
def requested (line : List UInt8) : Option Access :=
  if isComment line then none else matched line

/-- The accesses that a trace asks for. -/
def requestedOf (file : List UInt8) : List Access := (textLines file).filterMap requested

/-- A line that is replayed as it is written: it starts with `=` or matches the format, and every
later piece that `fgets` cuts from it starts with `=`. -/
structure Replayable (line : List UInt8) : Prop where
  matched : isComment line = false → (Paging.matched line).isSome
  pieces : ∀ k, (maxLine - 1) * (k + 1) < line.length →
    (line)[(maxLine - 1) * (k + 1)]? = some 0x3d

/-! ## Pieces of lines -/

/-- A line with its newline, unless nothing comes after it. -/
def IsLine : List UInt8 → List UInt8 → Prop
  | [], rest => rest = []
  | c :: line, rest => if c = 0x0a then line = [] else IsLine line rest

variable {line rest file : List UInt8} {n : Nat}

theorem IsLine.alone (h : IsLine line rest) : IsLine line [] := by
  induction line with
  | nil => rfl
  | cons c line ih =>
    rw [IsLine] at h ⊢
    split at h
    · next hc =>
      rw [if_pos hc]
      exact h
    · next hc =>
      rw [if_neg hc]
      exact ih h

theorem IsLine.drop (h : IsLine line rest) (hne : line.drop n ≠ []) :
    IsLine (line.drop n) rest := by
  induction n generalizing line with
  | zero => exact h
  | succ n ih =>
    cases line with
    | nil => exact absurd rfl hne
    | cons c line =>
      rw [IsLine] at h
      split at h
      · rw [h, List.drop_succ_cons, List.drop_nil] at hne
        exact absurd rfl hne
      · exact ih h hne

theorem IsLine.drop_alone (h : IsLine line []) : IsLine (line.drop n) [] := by
  by_cases hne : line.drop n = []
  · rw [hne]
    rfl
  · exact h.drop hne

/-- `fgets` takes no more than its buffer holds from a line. -/
theorem fgets_append (h : IsLine line rest) (n : Nat) :
    fgets n (line ++ rest) = (line.take n, line.drop n ++ rest) := by
  induction n generalizing line with
  | zero => rfl
  | succ n ih =>
    cases line with
    | nil =>
      rw [IsLine] at h
      rw [h]
      rfl
    | cons c line =>
      rw [IsLine] at h
      rw [List.cons_append, fgets]
      split at h
      · next hc =>
        rw [if_pos hc, h, List.take_succ_cons, List.take_nil, List.drop_succ_cons, List.drop_nil]
      · next hc =>
        rw [if_neg hc, ih h]
        rfl

/-- A call of `fgets` leaves less of a file than there was. -/
theorem length_fgets_snd (h : file ≠ []) : (fgets (n + 1) file).2.length < file.length := by
  have hle : ∀ (n : Nat) (file : List UInt8), (fgets n file).2.length ≤ file.length := by
    intro n
    induction n with
    | zero => exact fun _ => Nat.le_refl _
    | succ n ih =>
      intro file
      cases file with
      | nil => exact Nat.le_refl _
      | cons c file =>
        rw [fgets]
        split
        · exact Nat.le_succ _
        · exact Nat.le_succ_of_le (ih file)
  cases file with
  | nil => exact absurd rfl h
  | cons c file =>
    rw [fgets]
    split
    · exact Nat.lt_succ_self _
    · exact Nat.lt_succ_of_le (hle n file)

theorem readLines_succ {fuel : Nat} (h : file ≠ []) : readLines (fuel + 1) file =
    (fgets (maxLine - 1) file).1 :: readLines fuel (fgets (maxLine - 1) file).2 := by
  cases file with
  | nil => exact absurd rfl h
  | cons c file => rfl

/-- More calls than there are bytes return nothing new. -/
theorem readLines_of_le {fuel : Nat} (h : file.length ≤ fuel) :
    readLines fuel file = linesOf file := by
  have hfuel : ∀ (a b : Nat) (file : List UInt8), file.length ≤ a → file.length ≤ b →
      readLines a file = readLines b file := by
    intro a
    induction a with
    | zero =>
      intro b file ha _
      rw [List.length_eq_zero_iff.mp (Nat.le_zero.mp ha)]
      cases b <;> rfl
    | succ a ih =>
      intro b file ha hb
      cases file with
      | nil => cases b <;> rfl
      | cons c file =>
        cases b with
        | zero => exact absurd hb (Nat.not_succ_le_zero _)
        | succ b =>
          have hlt : (fgets (maxLine - 1) (c :: file)).2.length < (c :: file).length :=
            length_fgets_snd (List.cons_ne_nil c file)
          rw [readLines_succ (List.cons_ne_nil c file), readLines_succ (List.cons_ne_nil c file),
            ih b _ (by omega) (by omega)]
  exact hfuel _ _ file h (Nat.le_refl _)

theorem linesOf_eq (h : file ≠ []) :
    linesOf file = (fgets (maxLine - 1) file).1 :: linesOf (fgets (maxLine - 1) file).2 := by
  have hlt : (fgets (maxLine - 1) file).2.length < file.length := length_fgets_snd h
  obtain ⟨m, hm⟩ : ∃ m, file.length = m + 1 := ⟨file.length - 1, by omega⟩
  rw [linesOf, hm, readLines_succ h, readLines_of_le (by omega)]

/-- The pieces of a line. -/
theorem linesOf_line (h : IsLine line rest) (hne : line ≠ []) :
    linesOf line = line.take (maxLine - 1) :: linesOf (line.drop (maxLine - 1)) := by
  have hpiece := fgets_append h.alone (maxLine - 1)
  rw [List.append_nil, List.append_nil] at hpiece
  rw [linesOf_eq hne, hpiece]

/-- The pieces of a file are those of its lines. -/
theorem linesOf_append (h : IsLine line rest) :
    linesOf (line ++ rest) = linesOf line ++ linesOf rest := by
  induction hlen : line.length using Nat.strong_induction_on generalizing line with
  | _ m ih =>
    by_cases hne : line = []
    · rw [hne] at h ⊢
      rfl
    · have hpos := List.length_pos_of_ne_nil hne
      have hnil : line ++ rest ≠ [] := fun h => hne (List.append_eq_nil_iff.mp h).1
      rw [linesOf_eq hnil, fgets_append h, linesOf_line h hne, List.cons_append]
      congr 1
      by_cases hdrop : line.drop (maxLine - 1) = []
      · rw [hdrop]
        rfl
      · have hlt : (line.drop (maxLine - 1)).length < m := by
          rw [List.length_drop, ← hlen]
          exact Nat.sub_lt hpos (by decide)
        exact ih _ hlt (h.drop hdrop) rfl

theorem textLines_append (h : IsLine line rest) (hne : line ≠ []) :
    textLines (line ++ rest) = line :: textLines rest := by
  induction line with
  | nil => exact absurd rfl hne
  | cons c line ih =>
    rw [IsLine] at h
    rw [List.cons_append, textLines]
    split at h
    · next hc =>
      rw [if_pos hc, h, List.nil_append]
    · next hc =>
      rw [if_neg hc]
      by_cases hline : line = []
      · rw [hline] at h ⊢
        rw [IsLine] at h
        rw [h]
        rfl
      · rw [ih h hline]

/-- A file has a first line. -/
theorem exists_line (h : file ≠ []) :
    ∃ line rest, line ≠ [] ∧ IsLine line rest ∧ file = line ++ rest := by
  induction file with
  | nil => exact absurd rfl h
  | cons c file ih =>
    by_cases hc : c = 0x0a
    · exact ⟨[c], file, List.cons_ne_nil _ _, by rw [IsLine, if_pos hc], rfl⟩
    · by_cases hfile : file = []
      · exact ⟨[c], [], List.cons_ne_nil _ _, by rw [IsLine, if_neg hc, IsLine], by rw [hfile]; rfl⟩
      · obtain ⟨line, rest, -, hline, happend⟩ := ih hfile
        refine ⟨c :: line, rest, List.cons_ne_nil _ _, by rwa [IsLine, if_neg hc], ?_⟩
        rw [happend, List.cons_append]

/-- Induction on the lines of a file. -/
theorem lines_induction {P : List UInt8 → Prop} (nil : P [])
    (line : ∀ line rest, line ≠ [] → IsLine line rest → P rest → P (line ++ rest))
    (file : List UInt8) : P file := by
  induction hlen : file.length using Nat.strong_induction_on generalizing file with
  | _ m ih =>
    by_cases hne : file = []
    · rw [hne]
      exact nil
    · obtain ⟨first, rest, hfirst, hline, happend⟩ := exists_line hne
      have hpos := List.length_pos_of_ne_nil hfirst
      rw [happend, List.length_append] at hlen
      rw [happend]
      exact line first rest hfirst hline (ih _ (by omega) rest rfl)

/-! ## Scanning a piece -/

/-- A number ends before a byte that is no digit, sign or white space. -/
theorem hexDigits_append (text rest : List UInt8) :
    hexDigits (text ++ 0x3d :: rest) = hexDigits text := by
  induction text with
  | nil => rfl
  | cons c text ih =>
    rw [List.cons_append, hexDigits, hexDigits]
    cases hexDigit c with
    | none => rfl
    | some d => rw [ih]

theorem dropHexPrefix_append (text rest : List UInt8) :
    dropHexPrefix (text ++ 0x3d :: rest) = dropHexPrefix text ++ 0x3d :: rest := by
  rcases text with _ | ⟨c, _ | ⟨d, text⟩⟩
  · rfl
  · by_cases hc : c = 0x30
    · rw [hc]
      rfl
    · simp [dropHexPrefix]
  · rw [List.cons_append, List.cons_append, dropHexPrefix.eq_def, dropHexPrefix.eq_def]
    grind

theorem scanHex_append (text rest : List UInt8) :
    scanHex (text ++ 0x3d :: rest) = scanHex text := by
  have hspace : (text ++ 0x3d :: rest).dropWhile isSpace =
      text.dropWhile isSpace ++ 0x3d :: rest := by
    rw [List.dropWhile_append]
    split
    · next h =>
      rw [List.isEmpty_iff.mp h]
      rfl
    · rfl
  rw [scanHex, scanHex, hspace]
  generalize text.dropWhile isSpace = text
  cases text with
  | nil => rfl
  | cons c text =>
    simp only [List.cons_append, List.head?_cons, Option.some.injEq, List.tail_cons]
    by_cases hsign : c = 0x2d ∨ c = 0x2b
    · simp only [if_pos hsign, dropHexPrefix_append, hexDigits_append]
    · rw [if_neg hsign, if_neg hsign, ← List.cons_append, dropHexPrefix_append, hexDigits_append]

/-- A piece that ends before `=` matches what the whole line matches. -/
theorem matched_append {text rest : List UInt8} (hne : text ≠ []) :
    matched (text ++ 0x3d :: rest) = matched text := by
  cases text with
  | nil => exact absurd rfl hne
  | cons c text =>
    rw [List.cons_append, matched, matched, List.takeWhile_cons, List.takeWhile_cons]
    by_cases hc : decide (c ≠ 0) = true
    · simp only [if_pos hc]
      rw [List.takeWhile_append]
      split
      · next hall =>
        rw [List.takeWhile_cons, if_pos (by decide), scanHex_append,
          List.IsPrefix.eq_of_length (List.takeWhile_prefix _) hall]
      · rfl
    · simp only [if_neg hc]

/-- The first piece of a line matches what the line matches. -/
theorem Replayable.matched_take (h : Replayable line) :
    Paging.matched (line.take (maxLine - 1)) = Paging.matched line := by
  by_cases hlen : maxLine - 1 < line.length
  · have hbyte := h.pieces 0 hlen
    rw [Nat.zero_add, Nat.mul_one] at hbyte
    obtain ⟨hlt, hget⟩ := List.getElem?_eq_some_iff.mp hbyte
    have hsplit : line = line.take (maxLine - 1) ++ 0x3d :: line.drop (maxLine - 1 + 1) := by
      rw [← hget, List.getElem_cons_drop, List.take_append_drop]
    have hne : line.take (maxLine - 1) ≠ [] :=
      List.ne_nil_of_length_pos (by
        rw [List.length_take]
        exact Nat.lt_min.mpr ⟨by decide, by omega⟩)
    conv_rhs => rw [hsplit]
    exact (matched_append hne).symm
  · rw [List.take_of_length_le (by omega)]

theorem sscanf_of_matched {buf : List UInt8} {x : Access} (h : matched buf = some x)
    (a : Access) : sscanf buf a = x := by
  rw [matched] at h
  rw [sscanf]
  cases hbuf : buf.takeWhile (· ≠ 0) with
  | nil =>
    rw [hbuf] at h
    cases h
  | cons c text =>
    rw [hbuf] at h
    obtain ⟨vaddr, hscan, rfl⟩ := Option.map_eq_some_iff.mp h
    simp only [hscan]

/-! ## Counting accesses -/

theorem isComment_take (line : List UInt8) {n : Nat} (hn : n ≠ 0) :
    isComment (line.take n) = isComment line := by
  rw [isComment, isComment, List.head?_take, if_neg hn]

/-- Every `n`th byte of what is left of a line. -/
theorem forall_drop_iff (line : List UInt8) (n : Nat) (c : UInt8) :
    (∀ k, n * k < (line.drop n).length → (line.drop n)[n * k]? = some c) ↔
      ∀ k, n * (k + 1) < line.length → (line)[n * (k + 1)]? = some c := by
  refine forall_congr' fun k => ?_
  rw [List.length_drop, List.getElem?_drop, Nat.mul_succ, Nat.add_comm n, Nat.lt_sub_iff_add_lt]

/-- The pieces of a line all start with `=` when every byte at the start of a piece is `=`. -/
theorem isComment_pieces_iff (h : IsLine line []) :
    (∀ piece ∈ linesOf line, isComment piece = true) ↔
      ∀ k, (maxLine - 1) * k < line.length → (line)[(maxLine - 1) * k]? = some 0x3d := by
  induction hlen : line.length using Nat.strong_induction_on generalizing line with
  | _ m ih =>
    by_cases hne : line = []
    · rw [hne] at hlen ⊢
      rw [← hlen]
      exact iff_of_true (fun _ hp => absurd hp List.not_mem_nil)
        fun _ hk => absurd hk (Nat.not_lt_zero _)
    · have hpos := List.length_pos_of_ne_nil hne
      have hlt : (line.drop (maxLine - 1)).length < m := by
        rw [List.length_drop, ← hlen]
        exact Nat.sub_lt hpos (by decide)
      have hhead : isComment (line.take (maxLine - 1)) = true ↔ (line)[0]? = some 0x3d := by
        rw [isComment_take line (by decide), isComment, List.head?_eq_getElem?, decide_eq_true_iff]
      rw [linesOf_line h hne, List.forall_mem_cons, hhead, ih _ hlt h.drop_alone rfl,
        forall_drop_iff, ← hlen]
      constructor
      · rintro ⟨hzero, hsucc⟩ k hk
        cases k with
        | zero => exact hzero
        | succ k => exact hsucc k hk
      · intro hall
        exact ⟨hall 0 hpos, fun k => hall (k + 1)⟩

/-- The later pieces of a replayable line start with `=`. -/
theorem Replayable.later (h : Replayable line) (hline : IsLine line []) :
    ∀ piece ∈ linesOf (line.drop (maxLine - 1)), isComment piece = true :=
  (isComment_pieces_iff hline.drop_alone).mpr ((forall_drop_iff ..).mpr h.pieces)

theorem length_accessesOf (lines : List (List UInt8)) (a : Access) :
    (accessesOf lines a).length = lines.countP fun buf => !isComment buf := by
  induction lines generalizing a with
  | nil => rfl
  | cons buf lines ih =>
    rw [accessesOf, List.countP_cons]
    cases isComment buf with
    | true => simp [ih]
    | false => simp [ih]

/-- The accesses of a line are those of its first piece and of its later pieces. -/
theorem countP_line (h : IsLine line rest) (hne : line ≠ []) :
    ((linesOf line).countP fun buf => !isComment buf) =
      ((linesOf (line.drop (maxLine - 1))).countP fun buf => !isComment buf) +
        if isComment line then 0 else 1 := by
  rw [linesOf_line h hne, List.countP_cons, isComment_take line (by decide)]
  cases isComment line <;> rfl

/-- A file makes no fewer accesses than it asks for, and as many only when every line can be
replayed. -/
theorem length_requestedOf (file : List UInt8) :
    (requestedOf file).length ≤ (linesOf file).countP (fun buf => !isComment buf) ∧
      ((requestedOf file).length = (linesOf file).countP (fun buf => !isComment buf) →
        ∀ line ∈ textLines file, Replayable line) := by
  induction file using lines_induction with
  | nil => exact ⟨Nat.le_refl _, fun _ _ h => absurd h List.not_mem_nil⟩
  | line line rest hne hline ih =>
    obtain ⟨hle, heq⟩ := ih
    have hrest := countP_line hline hne
    have hrequested : (requestedOf (line ++ rest)).length =
        (requestedOf rest).length + if (requested line).isSome then 1 else 0 := by
      rw [requestedOf, textLines_append hline hne, List.filterMap_cons]
      cases requested line <;> rfl
    rw [hrequested, linesOf_append hline, List.countP_append, hrest, textLines_append hline hne,
      List.forall_mem_cons]
    have hone : (if (requested line).isSome = true then 1 else 0) ≤
        if isComment line = true then 0 else 1 := by
      rw [requested]
      cases isComment line with
      | true => exact Nat.le_refl _
      | false => cases matched line <;> simp
    refine ⟨by omega, fun hsum => ⟨⟨fun hcomment => ?_, ?_⟩, heq (by omega)⟩⟩
    · have hsome : (if (requested line).isSome = true then 1 else 0) = 1 := by
        rw [if_neg (Bool.eq_false_iff.mp hcomment)] at hsum hone
        omega
      rw [requested, hcomment] at hsome
      by_contra hnone
      simp [hnone] at hsome
    · have hzero : (linesOf (line.drop (maxLine - 1))).countP (fun buf => !isComment buf) = 0 := by
        omega
      refine (forall_drop_iff ..).mp ((isComment_pieces_iff hline.alone.drop_alone).mp ?_)
      intro piece hpiece
      simpa using List.countP_eq_zero.mp hzero piece hpiece

/-- Pieces that start with `=` make no access. -/
theorem accessesOf_append {pieces : List (List UInt8)} (lines : List (List UInt8)) (a : Access)
    (h : ∀ piece ∈ pieces, isComment piece = true) :
    accessesOf (pieces ++ lines) a = accessesOf lines a := by
  induction pieces with
  | nil => rfl
  | cons piece pieces ih =>
    rw [List.cons_append, accessesOf, if_pos (h piece List.mem_cons_self)]
    exact ih fun piece hpiece => h piece (List.mem_cons_of_mem _ hpiece)

/-- A file whose lines can be replayed makes the accesses that it asks for. -/
theorem accessesOf_of_replayable (h : ∀ line ∈ textLines file, Replayable line) (a : Access) :
    accessesOf (linesOf file) a = requestedOf file := by
  induction file using lines_induction generalizing a with
  | nil => rfl
  | line line rest hne hline ih =>
    rw [textLines_append hline hne, List.forall_mem_cons] at h
    obtain ⟨hfirst, hrest⟩ := h
    have hlater := hfirst.later hline.alone
    rw [requestedOf, textLines_append hline hne, List.filterMap_cons, requested,
      linesOf_append hline, linesOf_line hline hne, List.cons_append, accessesOf,
      isComment_take line (by decide), accessesOf_append _ _ hlater, accessesOf_append _ _ hlater]
    cases hcomment : isComment line with
    | true => exact ih hrest a
    | false =>
      obtain ⟨x, hx⟩ := Option.isSome_iff_exists.mp (hfirst.matched hcomment)
      have hscan := sscanf_of_matched (hfirst.matched_take.trans hx) a
      simp only [hscan, hx, Bool.false_eq_true, if_false]
      rw [ih hrest]
      rfl

/-- The calls of `access_mem` are those that the lines of the trace ask for exactly when every line
that does not start with `=` matches the format and every piece that `fgets` cuts from a long
line after the first starts with `=`. -/
theorem traceOf_eq_iff (type : Char) (file : List UInt8) :
    traceOf type file = requestedOf file ↔ ∀ line ∈ textLines file, Replayable line := by
  constructor
  · intro heq
    refine (length_requestedOf file).2 ?_
    rw [← heq, traceOf, length_accessesOf]
  · intro h
    exact accessesOf_of_replayable h _

/-- A blank line after an access makes another one, with the newline as its type. -/
theorem traceOf_blank :
    traceOf 'x' [0x49, 0x20, 0x34, 0x30, 0x0a, 0x0a] ≠
      requestedOf [0x49, 0x20, 0x34, 0x30, 0x0a, 0x0a] := by decide

end OsAssignments.Paging
