import Accumulator.Width

/-!
# Memory

64K bytes, kept as a perfect binary tree with one level per address bit: the lowest bit of the
address chooses the half, the rest of it the byte there. A write copies one path of the tree.

Main statements: a byte is read as it was last written (`Memory.read_write_self`), a write leaves
every other byte alone (`Memory.read_write_of_ne`).
-/

namespace Accumulator

/-- `2 ^ n` bytes. -/
inductive Cells : Nat → Type where
  | byte (value : Byte) : Cells 0
  /-- The bytes at even and at odd addresses. -/
  | halves {n : Nat} (even odd : Cells n) : Cells (n + 1)

namespace Cells

/-- All bytes zero. -/
def zeros : (n : Nat) → Cells n
  | 0 => byte 0
  | n + 1 => halves (zeros n) (zeros n)

/-- The byte at an address. -/
def read {n : Nat} : Cells n → Nat → Byte
  | byte value, _ => value
  | halves even odd, address =>
    if address % 2 = 0 then even.read (address / 2) else odd.read (address / 2)

/-- Change the byte at an address. -/
def write {n : Nat} : Cells n → Nat → Byte → Cells n
  | byte _, _, value => byte value
  | halves even odd, address, value =>
    if address % 2 = 0 then halves (even.write (address / 2) value) odd
    else halves even (odd.write (address / 2) value)

theorem read_write_self {n : Nat} (cells : Cells n) (address : Nat) (value : Byte) :
    (cells.write address value).read address = value := by
  induction cells generalizing address with
  | byte _ => rfl
  | halves even odd ihEven ihOdd =>
    rw [write]
    split
    next h => rw [read, if_pos h, ihEven]
    next h => rw [read, if_neg h, ihOdd]

theorem read_write_of_ne {n : Nat} (cells : Cells n) {p q : Nat} (value : Byte)
    (hp : p < 1 <<< n) (hq : q < 1 <<< n) (hne : q ≠ p) :
    (cells.write p value).read q = cells.read q := by
  induction cells generalizing p q with
  | byte _ => omega
  | halves even odd ihEven ihOdd =>
    rw [Nat.shiftLeft_succ] at hp hq
    rw [write]
    split
    next h =>
      rw [read, read]
      split
      next h' => exact ihEven (by omega) (by omega) (by omega)
      next => rfl
    next h =>
      rw [read, read]
      split
      next => rfl
      next h' => exact ihOdd (by omega) (by omega) (by omega)

end Cells

/-- The memory of the machine. -/
structure Memory where
  cells : Cells 16 := .zeros 16

namespace Memory

/-- The byte at an address. -/
def read (memory : Memory) (address : Word) : Byte :=
  memory.cells.read address.toNat

/-- Change the byte at an address. -/
def write (memory : Memory) (address : Word) (value : Byte) : Memory :=
  { cells := memory.cells.write address.toNat value }

/-- The word at an address, low byte first. -/
def readWord (memory : Memory) (address : Word) : Word :=
  memory.read (address + 1) ++ memory.read address

/-- Change the word at an address. -/
def writeWord (memory : Memory) (address : Word) (value : Word) : Memory :=
  (memory.write address (value.extractLsb' 0 8)).write (address + 1) (value.extractLsb' 8 8)

theorem read_write_self (memory : Memory) (address : Word) (value : Byte) :
    (memory.write address value).read address = value :=
  Cells.read_write_self _ _ _

theorem read_write_of_ne (memory : Memory) {p q : Word} (value : Byte) (h : q ≠ p) :
    (memory.write p value).read q = memory.read q :=
  Cells.read_write_of_ne _ _ p.isLt q.isLt fun heq => h (BitVec.eq_of_toNat_eq heq)

end Memory

end Accumulator
