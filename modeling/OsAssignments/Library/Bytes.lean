import Mathlib.Algebra.Ring.Nat
import Mathlib.Data.List.Basic

/-!
# Byte memory with little-endian fields

Memory is a function from addresses to bytes. Integers are stored little-endian;
a load after a store gives the stored value reduced to the width of the field, and
a store is invisible at every address outside its field.
-/

namespace OsAssignments

/-- Memory as the byte at each address. -/
abbrev Memory := Nat → UInt8

/-! ## Little-endian integers -/

/-- The `n` low-order bytes of `v`, least significant first. -/
def leBytes : Nat → Nat → List UInt8
  | 0, _ => []
  | n + 1, v => UInt8.ofNat v :: leBytes n (v / 256)

/-- The integer that a list of bytes spells, least significant first. -/
def ofLeBytes : List UInt8 → Nat
  | [] => 0
  | b :: bs => b.toNat + 256 * ofLeBytes bs

@[simp] theorem length_leBytes (n v : Nat) : (leBytes n v).length = n := by
  induction n generalizing v with
  | zero => rfl
  | succ n ih => simp [leBytes, ih]

/-- Reading back what was spelled gives the value reduced to the width. -/
theorem ofLeBytes_leBytes (n v : Nat) : ofLeBytes (leBytes n v) = v % 256 ^ n := by
  induction n generalizing v with
  | zero => simp [leBytes, ofLeBytes, Nat.mod_one]
  | succ n ih =>
    have hlow : (UInt8.ofNat v).toNat = v % 256 := by simp
    rw [leBytes, ofLeBytes, ih, hlow, Nat.pow_succ, Nat.mul_comm (256 ^ n), Nat.mod_mul]

theorem ofLeBytes_lt (bs : List UInt8) : ofLeBytes bs < 256 ^ bs.length := by
  induction bs with
  | nil => simp [ofLeBytes]
  | cons b bs ih =>
    have hb := b.toNat_lt
    rw [ofLeBytes, List.length_cons, Nat.pow_succ]
    omega

namespace Memory

/-! ## Ranges of bytes -/

/-- The `n` bytes from address `a` on. -/
def bytes (m : Memory) (a n : Nat) : List UInt8 := (List.range n).map fun i => m (a + i)

/-- Overwrite memory with `bs` from address `a` on. -/
def write (m : Memory) (a : Nat) (bs : List UInt8) : Memory := fun i =>
  if a ≤ i ∧ i < a + bs.length then bs.getD (i - a) 0 else m i

/-- Set the `n` bytes from address `a` on to `b`, as `memset` does. -/
def fill (m : Memory) (a n : Nat) (b : UInt8) : Memory := fun i =>
  if a ≤ i ∧ i < a + n then b else m i

/-- The integer in the `n` bytes at `a`. -/
def load (m : Memory) (a n : Nat) : Nat := ofLeBytes (m.bytes a n)

/-- Store the integer `v` in the `n` bytes at `a`. -/
def store (m : Memory) (a n v : Nat) : Memory := m.write a (leBytes n v)

@[simp] theorem length_bytes (m : Memory) (a n : Nat) : (m.bytes a n).length = n := by
  simp [bytes]

theorem getElem?_bytes {m : Memory} {a n i : Nat} (hi : i < n) :
    (m.bytes a n)[i]? = some (m (a + i)) := by
  simp [bytes, hi]

/-- Two memories have the same range of bytes when they agree on it. -/
theorem bytes_congr {m m' : Memory} {a b n : Nat} (h : ∀ i, i < n → m (a + i) = m' (b + i)) :
    m.bytes a n = m'.bytes b n := by
  unfold bytes
  apply List.map_congr_left
  intro i hi
  exact h i (List.mem_range.mp hi)

/-- A range is the concatenation of its first `k` bytes and the rest. -/
theorem bytes_add (m : Memory) (a k n : Nat) :
    m.bytes a (k + n) = m.bytes a k ++ m.bytes (a + k) n := by
  unfold bytes
  rw [List.range_add, List.map_append, List.map_map]
  congr 1
  apply List.map_congr_left
  intro i _
  simp only [Function.comp_apply, Nat.add_assoc]

theorem bytes_succ (m : Memory) (a n : Nat) : m.bytes a (n + 1) = m a :: m.bytes (a + 1) n := by
  rw [Nat.add_comm, bytes_add]
  rfl

/-- A field is its first `k` bytes and, above them, the rest. -/
theorem load_add (m : Memory) (a k n : Nat) :
    m.load a (k + n) = m.load a k + 256 ^ k * m.load (a + k) n := by
  have happend : ∀ bs cs : List UInt8,
      ofLeBytes (bs ++ cs) = ofLeBytes bs + 256 ^ bs.length * ofLeBytes cs := by
    intro bs cs
    induction bs with
    | nil => simp [ofLeBytes]
    | cons b bs ih =>
      rw [List.cons_append, ofLeBytes, ofLeBytes, ih, List.length_cons, Nat.pow_succ, Nat.mul_add,
        Nat.mul_comm (256 ^ bs.length) 256, Nat.mul_assoc, Nat.add_assoc]
  rw [load, bytes_add, happend, length_bytes]
  rfl

theorem load_one (m : Memory) (a : Nat) : m.load a 1 = (m a).toNat := by
  simp [load, bytes, ofLeBytes]

theorem load_lt (m : Memory) (a n : Nat) : m.load a n < 256 ^ n := by
  simpa only [load, length_bytes] using ofLeBytes_lt (m.bytes a n)

theorem load_congr {m m' : Memory} {a b n : Nat} (h : ∀ i, i < n → m (a + i) = m' (b + i)) :
    m.load a n = m'.load b n := congrArg ofLeBytes (bytes_congr h)

/-! ## What a write changes -/

/-- A write is invisible outside its range. -/
theorem write_apply_of_outside {m : Memory} {a i : Nat} {bs : List UInt8}
    (h : i < a ∨ a + bs.length ≤ i) : m.write a bs i = m i := by
  have hout : ¬ (a ≤ i ∧ i < a + bs.length) := by omega
  simp only [write, hout, ite_false]

theorem write_apply_of_inside {m : Memory} {a i : Nat} {bs : List UInt8} (hi : i < bs.length) :
    m.write a bs (a + i) = bs[i] := by
  have hin : a ≤ a + i ∧ a + i < a + bs.length := by omega
  simp only [write, hin, and_self, ite_true, Nat.add_sub_cancel_left]
  exact List.getElem_eq_getD 0 |>.symm

theorem fill_apply_of_outside {m : Memory} {a n i : Nat} {b : UInt8} (h : i < a ∨ a + n ≤ i) :
    m.fill a n b i = m i := by
  have hout : ¬ (a ≤ i ∧ i < a + n) := by omega
  simp only [fill, hout, ite_false]

theorem fill_apply_of_inside {m : Memory} {a n i : Nat} {b : UInt8} (h : a ≤ i ∧ i < a + n) :
    m.fill a n b i = b := by
  simp only [fill, h, and_self, ite_true]

/-- The range just written holds what was written. -/
theorem bytes_write_same (m : Memory) (a : Nat) (bs : List UInt8) :
    (m.write a bs).bytes a bs.length = bs := by
  apply List.ext_getElem
  · simp
  · intro i hi hib
    have hget := getElem?_bytes (m := m.write a bs) (a := a) (n := bs.length) hib
    rw [List.getElem?_eq_getElem hi, write_apply_of_inside hib] at hget
    exact Option.some.inj hget

theorem bytes_write_of_disjoint {m : Memory} {a b n : Nat} {bs : List UInt8}
    (h : b + n ≤ a ∨ a + bs.length ≤ b) : (m.write a bs).bytes b n = m.bytes b n :=
  bytes_congr fun i hi => write_apply_of_outside (by omega)

theorem bytes_fill_of_inside {m : Memory} {a k b n : Nat} {v : UInt8}
    (h : a ≤ b ∧ b + n ≤ a + k) : (m.fill a k v).bytes b n = List.replicate n v := by
  apply List.ext_getElem
  · simp
  · intro i hi hir
    have hlt : i < n := by simpa using hi
    have hget := getElem?_bytes (m := m.fill a k v) (a := b) hlt
    rw [List.getElem?_eq_getElem hi, fill_apply_of_inside (by omega)] at hget
    simpa using hget

/-- A load of a field just stored gives the value reduced to the field's width. -/
@[simp] theorem load_store_same (m : Memory) (a n v : Nat) :
    (m.store a n v).load a n = v % 256 ^ n := by
  have h := bytes_write_same m a (leBytes n v)
  rw [length_leBytes] at h
  rw [load, store, h, ofLeBytes_leBytes]

theorem store_apply_of_outside {m : Memory} {a n v i : Nat} (h : i < a ∨ a + n ≤ i) :
    m.store a n v i = m i :=
  write_apply_of_outside (by simpa only [length_leBytes] using h)

/-- The bytes after a write depend on those bytes before. -/
theorem write_congr {m m' : Memory} {a i : Nat} {bs : List UInt8} (h : m' i = m i) :
    m'.write a bs i = m.write a bs i := by
  simp only [write, h]

theorem store_congr {m m' : Memory} {a n v i : Nat} (h : m' i = m i) :
    m'.store a n v i = m.store a n v i :=
  write_congr h

theorem load_store_of_disjoint {m : Memory} {a n v b k : Nat} (h : b + k ≤ a ∨ a + n ≤ b) :
    (m.store a n v).load b k = m.load b k :=
  load_congr fun i hi => store_apply_of_outside (by omega)

theorem load_write_of_disjoint {m : Memory} {a b k : Nat} {bs : List UInt8}
    (h : b + k ≤ a ∨ a + bs.length ≤ b) : (m.write a bs).load b k = m.load b k :=
  load_congr fun i hi => write_apply_of_outside (by omega)

/-- A field inside a zeroed range reads as zero. -/
theorem load_fill_zero {m : Memory} {a n b k : Nat} (h : a ≤ b ∧ b + k ≤ a + n) :
    (m.fill a n 0).load b k = 0 := by
  rw [load, bytes_fill_of_inside h]
  clear h
  induction k with
  | zero => rfl
  | succ k ih => simp [List.replicate_succ, ofLeBytes, ih]

end Memory

end OsAssignments
