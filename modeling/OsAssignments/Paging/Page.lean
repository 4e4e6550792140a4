import OsAssignments.Library.Bytes
import OsAssignments.Paging.Machine

/-!
# The content of a page

A page holds a version counter of four bytes, the address it was created for in eight
bytes, and four more bytes. The lemmas read these fields from the block of sixteen bytes
and say what the writes of `init_frame` and `access_mem` make of the block.
-/

namespace OsAssignments.Paging

/-- The version counter of a page. -/
def version (c : List UInt8) : Nat := ofLeBytes (c.take 4)

/-- The address stored in a page. -/
def address (c : List UInt8) : Nat := ofLeBytes ((c.drop 4).take 8)

/-- A page as `init_frame` creates it. -/
def freshPage (vaddr : BitVec 64) : List UInt8 :=
  List.replicate 4 0 ++ (leBytes 8 vaddr.toNat ++ List.replicate 4 0)

/-- A page after its version counter was incremented. -/
def bump (c : List UInt8) : List UInt8 := leBytes 4 (version c + 1) ++ c.drop 4

@[simp] theorem version_freshPage (vaddr : BitVec 64) : version (freshPage vaddr) = 0 := rfl

@[simp] theorem address_freshPage (vaddr : BitVec 64) :
    address (freshPage vaddr) = vaddr.toNat := by
  have htake : ((freshPage vaddr).drop 4).take 8 = leBytes 8 vaddr.toNat := by
    simp [freshPage]
  have hlt := vaddr.isLt
  rw [address, htake, ofLeBytes_leBytes, Nat.mod_eq_of_lt (by omega)]

@[simp] theorem version_bump (c : List UInt8) : version (bump c) = (version c + 1) % 2 ^ 32 := by
  have htake : (bump c).take 4 = leBytes 4 (version c + 1) := by
    simp [bump]
  rw [version, htake, ofLeBytes_leBytes]
  rfl

@[simp] theorem address_bump (c : List UInt8) : address (bump c) = address c := by
  have hdrop : (bump c).drop 4 = c.drop 4 := by
    simp [bump]
  rw [address, hdrop, address]

/-! ## Pages in memory -/

theorem bytes_page (m : Memory) (a : Nat) :
    m.bytes a simPageSize = m.bytes a 4 ++ (m.bytes (a + 4) 8 ++ m.bytes (a + 12) 4) := by
  rw [simPageSize, show (16 : Nat) = 4 + (8 + 4) from rfl, Memory.bytes_add, Memory.bytes_add]

/-- The version counter read from memory. -/
theorem load_version (m : Memory) (a : Nat) : m.load a 4 = version (m.bytes a simPageSize) := by
  have htake : (m.bytes a simPageSize).take 4 = m.bytes a 4 := by
    rw [bytes_page, List.take_left' (Memory.length_bytes ..)]
  rw [version, htake, Memory.load]

/-- The stored address read from memory. -/
theorem load_address (m : Memory) (a : Nat) :
    m.load (a + 4) 8 = address (m.bytes a simPageSize) := by
  have htake : ((m.bytes a simPageSize).drop 4).take 8 = m.bytes (a + 4) 8 := by
    rw [bytes_page, List.drop_left' (Memory.length_bytes ..),
      List.take_left' (Memory.length_bytes ..)]
  rw [address, htake, Memory.load]

theorem bytes_initFrame (m : Memory) (a : Nat) (vaddr : BitVec 64) :
    ((m.fill a simPageSize 0).store (a + 4) 8 vaddr.toNat).bytes a simPageSize =
      freshPage vaddr := by
  have hmid := Memory.bytes_write_same (m.fill a simPageSize 0) (a + 4) (leBytes 8 vaddr.toNat)
  rw [length_leBytes] at hmid
  rw [bytes_page, Memory.store, hmid, Memory.bytes_write_of_disjoint (by omega),
    Memory.bytes_write_of_disjoint (by rw [length_leBytes]; omega),
    Memory.bytes_fill_of_inside (by simp only [simPageSize]; omega),
    Memory.bytes_fill_of_inside (by simp only [simPageSize]; omega), freshPage]

theorem bytes_countWrite (m : Memory) (a : Nat) :
    (m.store a 4 (m.load a 4 + 1)).bytes a simPageSize = bump (m.bytes a simPageSize) := by
  have hlow := Memory.bytes_write_same m a (leBytes 4 (m.load a 4 + 1))
  rw [length_leBytes] at hlow
  have hdrop : (m.bytes a simPageSize).drop 4 = m.bytes (a + 4) 8 ++ m.bytes (a + 12) 4 := by
    rw [bytes_page, List.drop_left' (Memory.length_bytes ..)]
  rw [bytes_page, Memory.store, hlow,
    Memory.bytes_write_of_disjoint (by rw [length_leBytes]; omega),
    Memory.bytes_write_of_disjoint (by rw [length_leBytes]; omega), bump, hdrop, ← load_version]

end OsAssignments.Paging
