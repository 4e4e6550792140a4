import OsAssignments.Paging.Simulator

/-!
# Trace files

Translation of `replay_trace`. A trace file is a list of bytes that is read in pieces of at
most `MAXLINE - 1` bytes. The two variables that `sscanf` fills keep their values when a
line does not match the format, so a file stands for a list of accesses.
-/

namespace OsAssignments.Paging

variable {σ : Type}

abbrev maxLine : Nat := 256

/-! ## The C library -/

/-- What `fgets` puts into a buffer with room for `size` bytes, and what it leaves. -/
def fgets : Nat → List UInt8 → List UInt8 × List UInt8
  | 0, file => ([], file)
  | _ + 1, [] => ([], [])
  | size + 1, c :: file =>
    if c = 0x0a then ([c], file)
    else (c :: (fgets size file).1, (fgets size file).2)

/-- The pieces that repeated calls of `fgets` return; every call consumes at least one byte. -/
def readLines : Nat → List UInt8 → List (List UInt8)
  | 0, _ => []
  | _ + 1, [] => []
  | fuel + 1, file => (fgets (maxLine - 1) file).1 :: readLines fuel (fgets (maxLine - 1) file).2

def linesOf (file : List UInt8) : List (List UInt8) := readLines file.length file

/-- `isspace` in the C locale. -/
def isSpace (c : UInt8) : Bool := c = 0x20 || 0x09 ≤ c && c ≤ 0x0d

/-- The value of a hexadecimal digit. -/
def hexDigit (c : UInt8) : Option Nat :=
  if 0x30 ≤ c ∧ c ≤ 0x39 then some (c.toNat - 0x30)
  else if 0x41 ≤ c ∧ c ≤ 0x46 then some (c.toNat - 0x41 + 10)
  else if 0x61 ≤ c ∧ c ≤ 0x66 then some (c.toNat - 0x61 + 10)
  else none

/-- The digits at the start of a text. -/
def hexDigits : List UInt8 → List Nat
  | [] => []
  | c :: text =>
    match hexDigit c with
    | some d => d :: hexDigits text
    | none => []

/-- A text without an optional `0x` in front. -/
def dropHexPrefix : List UInt8 → List UInt8
  | 0x30 :: 0x78 :: text => text
  | 0x30 :: 0x58 :: text => text
  | text => text

/-- `%lx`: white space, an optional sign and a hexadecimal number, which becomes `ULONG_MAX`
when it does not fit. -/
def scanHex (text : List UInt8) : Option (BitVec 64) :=
  let text := text.dropWhile isSpace
  let negative := text.head? = some 0x2d
  let text := if negative ∨ text.head? = some 0x2b then text.tail else text
  match hexDigits (dropHexPrefix text) with
  | [] => none
  | digits =>
    let value := digits.foldl (fun v d => v * 16 + d) 0
    if 2 ^ 64 ≤ value then some (BitVec.allOnes 64)
    else if negative then some (-BitVec.ofNat 64 value)
    else some (BitVec.ofNat 64 value)

/-- `sscanf(buf, "%c %lx", &type, &vaddr)`: what does not match keeps its value. -/
def sscanf (buf : List UInt8) (a : Access) : Access :=
  match buf.takeWhile (· ≠ 0) with
  | [] => a
  | c :: text =>
    match scanHex text with
    | none => { a with type := Char.ofNat c.toNat }
    | some vaddr => ⟨Char.ofNat c.toNat, vaddr⟩

/-! ## `replay_trace` -/

/-- A line that starts with `=` is skipped. -/
def isComment (buf : List UInt8) : Bool := buf.head? = some 0x3d

def replayLines (env : Env) (P : Policy σ) : List (List UInt8) → Access → SimM σ Unit
  | [], _ => pure ()
  | buf :: lines, a =>
    if isComment buf then replayLines env P lines a
    else do
      accessMem env P (sscanf buf a)
      replayLines env P lines (sscanf buf a)

/-- The variable `type` is not initialised: it starts as some character. -/
def replayTrace (env : Env) (P : Policy σ) (type : Char) (file : List UInt8) : SimM σ Unit :=
  replayLines env P (linesOf file) ⟨type, 0⟩

/-- The simulation that `main` runs on a trace file. -/
def simulateFile (env : Env) (P : Policy σ) (swapsize : BitVec 32) (type : Char)
    (file : List UInt8) : SimM σ Unit := do
  setup P swapsize
  replayTrace env P type file

/-! ## The accesses of a file -/

/-- The accesses that the lines stand for. -/
def accessesOf : List (List UInt8) → Access → List Access
  | [], _ => []
  | buf :: lines, a =>
    if isComment buf then accessesOf lines a
    else sscanf buf a :: accessesOf lines (sscanf buf a)

def traceOf (type : Char) (file : List UInt8) : List Access := accessesOf (linesOf file) ⟨type, 0⟩

theorem replayLines_eq (env : Env) (P : Policy σ) (lines : List (List UInt8)) (a : Access) :
    replayLines env P lines a = Program.runAll (accessMem env P) (accessesOf lines a) := by
  induction lines generalizing a with
  | nil => rfl
  | cons buf lines ih =>
    rw [replayLines, accessesOf]
    split
    · exact ih a
    · rw [ih]
      rfl

/-- Replaying a file performs its accesses in order. -/
theorem simulateFile_eq (env : Env) (P : Policy σ) (swapsize : BitVec 32) (type : Char)
    (file : List UInt8) :
    simulateFile env P swapsize type file = simulate env P swapsize (traceOf type file) := by
  rw [simulateFile, replayTrace, replayLines_eq]
  rfl

end OsAssignments.Paging
