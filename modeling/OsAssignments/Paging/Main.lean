import OsAssignments.Paging.Comparison
import OsAssignments.Paging.Completion
import OsAssignments.Paging.Opt
import OsAssignments.Paging.Report
import OsAssignments.Paging.TraceLines

/-!
# The simulator as a program

Translation of `main` in `sim.c`, from the options that `getopt` returns to the counters that are
printed at the end. The hit and miss rates, which are floating point numbers, are left out.
-/

namespace OsAssignments.Paging

/-! ## Options -/

/-- What `getopt` returns, with its argument. -/
inductive Flag
  | f (optarg : String)
  | m (optarg : List UInt8)
  | a (optarg : String)
  | s (optarg : List UInt8)
  | other

/-- The variables that the options set. -/
structure Settings where
  tracefile : Option String := none
  memsize : BitVec 32 := 0#32
  replacementAlg : Option String := none
  swapsize : BitVec 32 := 4096#32

/-- The value of the digits at the start of a text. -/
def decDigits : List UInt8 → Nat → Nat
  | [], value => value
  | c :: text, value =>
    if 0x30 ≤ c ∧ c ≤ 0x39 then decDigits text (value * 10 + (c.toNat - 0x30)) else value

/-- `strtoul` to the base 10: white space, an optional sign and a number, which becomes
`ULONG_MAX` when it does not fit. -/
def strtoul (text : List UInt8) : BitVec 64 :=
  let text := text.dropWhile isSpace
  let negative := text.head? = some 0x2d
  let text := if negative ∨ text.head? = some 0x2b then text.tail else text
  let value := decDigits text 0
  if 2 ^ 64 ≤ value then BitVec.allOnes 64
  else if negative then -BitVec.ofNat 64 value
  else BitVec.ofNat 64 value

example : strtoul [0x20, 0x34, 0x30, 0x39, 0x36] = 4096#64 := by decide

def readOption (o : Settings) : Flag → Except Stop Settings
  | .f optarg => .ok { o with tracefile := some optarg }
  | .m optarg => .ok { o with memsize := (strtoul optarg).setWidth 32 }
  | .a optarg => .ok { o with replacementAlg := some optarg }
  | .s optarg => .ok { o with swapsize := (strtoul optarg).setWidth 32 }
  | .other => .error (.exit 1)

def readOptions (flags : List Flag) : Except Stop Settings := flags.foldlM readOption {}

/-! ## Replacement algorithms -/

/-- What `main` gets from outside: the outcome of the swap calls and of the allocations, the text
on standard input and in the files that can be opened, the values `random` will return, and what
uninitialised memory and variables happen to hold. -/
structure World where
  env : Env
  stdin : List UInt8
  fopen : String → Option (List UInt8)
  physmem : Memory
  random : Random
  nodes : NodeMemory
  mallocs : Mallocs
  type : Char

/-- A replacement algorithm with its global variables as they are at the start. -/
structure Algorithm where
  data : Type
  start : data
  functions : Policy data

def algs (w : World) (tracefile : Option String) : List (String × Algorithm) :=
  [("rand", ⟨Random, w.random, rand⟩),
    ("lru", ⟨Lru, ⟨.empty, none, none⟩, lru w.nodes⟩),
    ("fifo", ⟨Nat, 0, fifo⟩),
    ("clock", ⟨Nat, 0, clock⟩),
    ("opt", ⟨Opt, ⟨.empty, none⟩, opt w.mallocs (tracefile.bind w.fopen) w.type⟩)]

/-! ## `main` -/

/-- What is printed after the trace was replayed. -/
structure Printed where
  directory : Report
  hitCount : Int
  missCount : Int
  evictCleanCount : Int
  evictDirtyCount : Int
  refCount : Int

/-- `main` from the set-up on, for the algorithm that was found under the name given. -/
def replay (w : World) (o : Settings) (file : List UInt8) : Option Algorithm → Except Stop Printed
  | some alg =>
    match simulateFile w.env alg.functions o.swapsize w.type file
        (Sim.start o.memsize.toNat w.physmem alg.start) with
    | .ok _ s => do
      let directory ← printPagedirectory s
      return ⟨directory, s.hitCount, s.missCount, s.evictCleanCount, s.evictDirtyCount, s.refCount⟩
    | .error e _ => .error e
  | none =>
    match (do swapInit o.swapsize; initPagetable : SimM Unit Unit)
        (Sim.start o.memsize.toNat w.physmem ()) with
    | .ok _ _ => .error (.exit 1)
    | .error e _ => .error e

/-- The text of the trace. -/
def openTrace (w : World) : Option String → Except Stop (List UInt8)
  | none => .ok w.stdin
  | some name =>
    match w.fopen name with
    | some file => .ok file
    | none => .error (.exit 1)

/-- The program; it returns 0 when it has printed. -/
def main (w : World) (flags : List Flag) : Except Stop Printed := do
  let o ← readOptions flags
  let file ← openTrace w o.tracefile
  replay w o file (o.replacementAlg.bind fun name => (algs w o.tracefile).lookup name)

variable {w : World} {flags : List Flag} {o : Settings} {file : List UInt8} {name : String}
  {alg : Algorithm} {out : Printed}

theorem algs_onlyRef {tracefile : Option String} (h : (name, alg) ∈ algs w tracefile) :
    alg.functions.OnlyRef := by
  simp only [algs, List.mem_cons, Prod.mk.injEq, List.not_mem_nil, or_false] at h
  rcases h with ⟨-, rfl⟩ | ⟨-, rfl⟩ | ⟨-, rfl⟩ | ⟨-, rfl⟩ | ⟨-, rfl⟩
  · exact rand_onlyRef
  · exact lru_onlyRef _
  · exact fifo_onlyRef
  · exact clock_onlyRef
  · exact opt_onlyRef _ _ _

/-- The simulation that a command line asks for. -/
structure Asks (w : World) (flags : List Flag) (o : Settings) (file : List UInt8)
    (alg : Algorithm) : Prop where
  options : readOptions flags = .ok o
  trace : openTrace w o.tracefile = .ok file
  algorithm : (o.replacementAlg.bind fun name => (algs w o.tracefile).lookup name) = some alg

theorem Asks.onlyRef (h : Asks w flags o file alg) : alg.functions.OnlyRef := by
  obtain ⟨name, -, hlookup⟩ := Option.bind_eq_some_iff.mp h.algorithm
  obtain ⟨before, after, hsplit, -⟩ := List.lookup_eq_some_iff.mp hlookup
  have hmem : (name, alg) ∈ algs w o.tracefile := by
    rw [hsplit]
    exact List.mem_append_right _ List.mem_cons_self
  exact algs_onlyRef hmem

/-- The program prints what the simulation leaves. -/
theorem Asks.main_eq (h : Asks w flags o file alg) {s : Sim alg.data}
    (hs : simulate w.env alg.functions o.swapsize (traceOf w.type file)
      (Sim.start o.memsize.toNat w.physmem alg.start) = .ok () s) :
    ∃ directory, printPagedirectory s = .ok directory ∧ main w flags = .ok
      ⟨directory, s.hitCount, s.missCount, s.evictCleanCount, s.evictDirtyCount, s.refCount⟩ := by
  obtain ⟨directory, hprint, -⟩ := (good_of_simulate h.onlyRef hs).printPagedirectory
  refine ⟨directory, hprint, ?_⟩
  rw [← simulateFile_eq] at hs
  simp only [main, h.options, h.trace, h.algorithm, bind, Except.bind, replay, hs, hprint]
  rfl

/-- When the program prints, a simulation returned. -/
theorem main_ok (h : main w flags = .ok out) : ∃ o file alg, Asks w flags o file alg ∧
    ∃ s, simulate w.env alg.functions o.swapsize (traceOf w.type file)
      (Sim.start o.memsize.toNat w.physmem alg.start) = .ok () s := by
  cases hoptions : readOptions flags with
  | error e =>
    rw [main, hoptions] at h
    cases h
  | ok o =>
    cases htrace : openTrace w o.tracefile with
    | error e =>
      simp only [main, hoptions, htrace, bind, Except.bind] at h
      cases h
    | ok file =>
      simp only [main, hoptions, htrace, bind, Except.bind] at h
      generalize hfound : (o.replacementAlg.bind fun name =>
        (algs w o.tracefile).lookup name) = found at h
      cases found with
      | none =>
        rw [replay] at h
        split at h <;> cases h
      | some alg =>
        rw [replay] at h
        split at h
        · rename_i s hs
          rw [simulateFile_eq] at hs
          exact ⟨o, file, alg, ⟨hoptions, htrace, hfound⟩, s, hs⟩
        · cases h

/-! ## Runs that print -/

/-- What a run of the program with enough of everything needs: the frames can be numbered, no
allocation or system call fails, the addresses lie in the tables and the swap space has a slot for
every page that is written. -/
structure Affordable (w : World) (o : Settings) (trace : List Access) : Prop where
  frames : o.memsize.toNat ≤ 2 ^ 19
  slots : o.swapsize.toNat ≤ 2 ^ 32 - 32
  io : ∀ n, (w.env.io n).Succeeds
  tables : ∀ dir, (w.env.tables dir).isSome
  addresses : ∀ a ∈ trace, (pgdirIndex a.vaddr).toNat < ptrsPerPgdir
  written : (writtenPages trace).card ≤ o.swapsize.toNat

theorem Asks.exists_simulate (h : Asks w flags o file alg)
    (hafford : Affordable w o (traceOf w.type file)) {J : alg.data × (Nat → Int) → Prop}
    (hA : alg.functions.Answers o.memsize.toNat J) :
    ∃ s, simulate w.env alg.functions o.swapsize (traceOf w.type file)
      (Sim.start o.memsize.toNat w.physmem alg.start) = .ok () s :=
  have ⟨s, hs, _⟩ := exists_ready h.onlyRef hA hafford.frames hafford.slots hafford.io
    hafford.tables hafford.addresses hafford.written
  ⟨s, hs⟩

/-! ## A sample run -/

/-- A page is stored to between loads from another one. -/
def sampleTrace : List UInt8 :=
  [0x53, 0x20, 0x31, 0x30, 0x30, 0x30, 0x0a, 0x4c, 0x20, 0x32, 0x30, 0x30, 0x30, 0x0a,
    0x4c, 0x20, 0x31, 0x30, 0x30, 0x30, 0x0a]

def sampleWorld : World where
  env := calmEnv
  stdin := []
  fopen name := if name = "tr" then some sampleTrace else none
  physmem := fun _ => 0
  random := []
  nodes := cleanMemory
  mallocs := fun _ => true
  type := 'x'

/-- `sim -f tr -m 1 -s 1 -a fifo` -/
def sampleFlags : List Flag := [.f "tr", .m [0x31], .s [0x31], .a "fifo"]

def sampleSettings : Settings := ⟨some "tr", 1#32, some "fifo", 1#32⟩

theorem sample_replayable : ∀ line ∈ textLines sampleTrace, Replayable line := by
  have hlines : ∀ line ∈ textLines sampleTrace,
      (isComment line = false → (matched line).isSome) ∧ line.length ≤ 255 := by decide
  intro line hline
  obtain ⟨hmatched, hshort⟩ := hlines line hline
  exact ⟨hmatched, fun k hk => by simp only [maxLine] at hk; omega⟩

theorem sample_affordable : Affordable sampleWorld sampleSettings (requestedOf sampleTrace) where
  frames := by decide
  slots := by decide
  io _ := ⟨rfl, rfl⟩
  tables _ := rfl
  addresses := by decide
  written := by decide

/-! ## The numbers that are printed -/

/-- What is printed agrees with itself and with the trace: every access is a hit or a miss, the
directory names as many frames as there were misses without an eviction, each of them once, and no
slot twice. -/
structure Printed.Balanced (out : Printed) (memsize : Nat) (trace : List Access) : Prop where
  refs : out.refCount = trace.length
  served : out.hitCount + out.missCount = trace.length
  frames : ∃ n ≤ memsize, (n : Int) = out.missCount - out.evictCleanCount - out.evictDirtyCount ∧
    out.directory.frames.Perm (List.range n)
  offsets : out.directory.offsets.Nodup

theorem Asks.balanced (h : Asks w flags o file alg)
    (hlen : (traceOf w.type file).length < 2 ^ 31) {s : Sim alg.data}
    (hs : simulate w.env alg.functions o.swapsize (traceOf w.type file)
      (Sim.start o.memsize.toNat w.physmem alg.start) = .ok () s) (hout : main w flags = .ok out) :
    out.Balanced o.memsize.toNat (traceOf w.type file) := by
  obtain ⟨hgood, htally⟩ := tallied_of_simulate h.onlyRef _ s hs
  obtain ⟨directory, hprint, hmain⟩ := h.main_eq hs
  obtain ⟨r, hr, hreport⟩ := hgood.printPagedirectory
  obtain rfl : directory = r := Except.ok.inj (hprint.symm.trans hr)
  obtain rfl := Except.ok.inj (hmain.symm.trans hout)
  have hmisses := (htally hlen).misses
  have hused : s.usedFrames ≤ o.memsize.toNat := by
    rw [← memsize_of_simulate h.onlyRef hs]
    exact List.countP_le_length.trans_eq List.length_range
  have hframes : (s.usedFrames : Int) =
      s.missCount - s.evictCleanCount - s.evictDirtyCount := by omega
  exact ⟨(htally hlen).refs, (htally hlen).served,
    ⟨s.usedFrames, hused, hframes, hreport.frames hgood⟩, (hreport.offsets hgood).1⟩

/-- Whatever the command line and the trace, the numbers that the program prints agree. -/
theorem main_balanced (h : main w flags = .ok out) : ∃ o file, readOptions flags = .ok o ∧
    openTrace w o.tracefile = .ok file ∧ ((traceOf w.type file).length < 2 ^ 31 →
      out.Balanced o.memsize.toNat (traceOf w.type file)) := by
  obtain ⟨o, file, alg, hasks, s, hs⟩ := main_ok h
  exact ⟨o, file, hasks.options, hasks.trace, fun hlen => hasks.balanced hlen hs h⟩

theorem main_balanced_of_sample : ∃ out, main sampleWorld sampleFlags = .ok out ∧
    ∃ o file, readOptions sampleFlags = .ok o ∧ openTrace sampleWorld o.tracefile = .ok file ∧
      ((traceOf sampleWorld.type file).length < 2 ^ 31 →
        out.Balanced o.memsize.toNat (traceOf sampleWorld.type file)) := by
  have hasks : Asks sampleWorld sampleFlags sampleSettings sampleTrace ⟨Nat, 0, fifo⟩ :=
    ⟨rfl, rfl, rfl⟩
  have hafford := sample_affordable
  rw [← accessesOf_of_replayable sample_replayable ⟨sampleWorld.type, 0⟩] at hafford
  obtain ⟨s, hs⟩ := hasks.exists_simulate hafford (fifo_answers (Nat.le_refl 1))
  obtain ⟨_, -, hmain⟩ := hasks.main_eq hs
  exact ⟨_, hmain, main_balanced hmain⟩

/-- With `-a fifo` the program prints the misses of a queue for the accesses that the lines of the
trace ask for. -/
theorem main_fifo (hoptions : readOptions flags = .ok o)
    (htrace : openTrace w o.tracefile = .ok file) (halg : o.replacementAlg = some "fifo")
    (hmem : 1 ≤ o.memsize.toNat) (hlines : ∀ line ∈ textLines file, Replayable line)
    (hlen : (requestedOf file).length < 2 ^ 31) (hafford : Affordable w o (requestedOf file)) :
    ∃ out, main w flags = .ok out ∧ out.Balanced o.memsize.toNat (requestedOf file) ∧
      out.missCount = (Replacement.fifo o.memsize.toNat (requests (requestedOf file))).2 := by
  have heq : traceOf w.type file = requestedOf file := accessesOf_of_replayable hlines _
  have hasks : Asks w flags o file ⟨Nat, 0, fifo⟩ := ⟨hoptions, htrace, by rw [halg]; rfl⟩
  rw [← heq] at hlen hafford ⊢
  obtain ⟨s, hs⟩ := hasks.exists_simulate hafford (fifo_answers hmem)
  obtain ⟨directory, -, hmain⟩ := hasks.main_eq hs
  obtain ⟨-, -, hcount⟩ := fifo_of_simulate hmem _ s hs
  exact ⟨_, hmain, hasks.balanced hlen hs hmain, (hcount hlen).1⟩

theorem main_fifo_of_sample : ∃ out, main sampleWorld sampleFlags = .ok out ∧
    out.Balanced 1 (requestedOf sampleTrace) ∧
    out.missCount = (Replacement.fifo 1 (requests (requestedOf sampleTrace))).2 :=
  main_fifo (o := sampleSettings) rfl rfl rfl (by decide) sample_replayable (by decide)
    sample_affordable

end OsAssignments.Paging
