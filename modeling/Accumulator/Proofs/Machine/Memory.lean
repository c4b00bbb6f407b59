import Accumulator.Machine.Memory

/-!
# Reading and writing memory

Two memories are the same if all their bytes are. What writes do, one after the other or as a
word, follows from what they do to each byte.
-/

namespace Accumulator

/-- The two bytes of a word make it up. -/
theorem high_append_low (v : Word) : v.extractLsb' 8 8 ++ v.extractLsb' 0 8 = v := by
  ext i hi
  simp only [BitVec.getElem_append, BitVec.getElem_extractLsb']
  split
  · simp [BitVec.getLsbD_eq_getElem hi]
  · simp [show 8 + (i - 8) = i by omega, BitVec.getLsbD_eq_getElem hi]

theorem high_of_append (x y : Byte) : (x ++ y : Word).extractLsb' 8 8 = x := by
  ext i hi
  rw [BitVec.getElem_extractLsb', BitVec.getLsbD_append]
  simp [BitVec.getLsbD_eq_getElem hi]

theorem low_of_append (x y : Byte) : (x ++ y : Word).extractLsb' 0 8 = y := by
  ext i hi
  rw [BitVec.getElem_extractLsb', BitVec.getLsbD_append]
  simp [hi]

/-! ## Bytes -/

/-- Cells that read alike are the same. By induction on the tree: its halves are the cells at even
and at odd addresses. -/
theorem Cells.ext_of_read {n : Nat} {x y : Cells n} (h : ∀ a < 1 <<< n, x.read a = y.read a) :
    x = y := by
  induction x with
  | byte v =>
    cases y with
    | byte w => exact congrArg _ (h 0 (by decide))
  | @halves n even odd ihEven ihOdd =>
    cases y with
    | halves even' odd' =>
      have heven : even = even' := ihEven fun a ha => by
        have := h (2 * a) (by rw [Nat.shiftLeft_succ]; omega)
        simpa [Cells.read] using this
      have hodd : odd = odd' := ihOdd fun a ha => by
        have := h (2 * a + 1) (by rw [Nat.shiftLeft_succ]; omega)
        simpa [Cells.read, show (2 * a + 1) % 2 = 1 by omega, show (2 * a + 1) / 2 = a by omega]
          using this
      rw [heven, hodd]

namespace Memory

/-- Memories that read alike are the same. -/
theorem ext_of_read {x y : Memory} (h : ∀ a, x.read a = y.read a) : x = y := by
  cases x with
  | mk x =>
    cases y with
    | mk y =>
      refine congrArg _ (Cells.ext_of_read fun a ha => ?_)
      have hread := h (BitVec.ofNat 16 a)
      have hmod : a % 2 ^ 16 = a := Nat.mod_eq_of_lt ha
      rwa [read, read, BitVec.toNat_ofNat, hmod] at hread

/-- Write bytes one after the other. -/
def writeAll (memory : Memory) : List (Word × Byte) → Memory
  | [] => memory
  | (address, value) :: rest => (memory.write address value).writeAll rest

/-- A written byte is read back where it was written, and all other bytes are as before. -/
theorem read_write (memory : Memory) (p q : Word) (value : Byte) :
    (memory.write p value).read q = if q = p then value else memory.read q := by
  split
  next h => rw [h, read_write_self]
  next h => exact read_write_of_ne memory value h

/-- Bytes that are not written stay. -/
theorem read_writeAll_of_not_mem {memory : Memory} {stores : List (Word × Byte)} {a : Word}
    (h : a ∉ stores.map Prod.fst) : (memory.writeAll stores).read a = memory.read a := by
  induction stores generalizing memory with
  | nil => rfl
  | cons s rest ih =>
    rw [List.map_cons, List.mem_cons, not_or] at h
    rw [writeAll, ih h.2, read_write_of_ne _ _ h.1]

/-- After the same writes, two memories agree where they did before and where they were written. -/
theorem read_writeAll_congr {x y : Memory} {stores : List (Word × Byte)} {a : Word}
    (h : a ∈ stores.map Prod.fst ∨ x.read a = y.read a) :
    (x.writeAll stores).read a = (y.writeAll stores).read a := by
  induction stores generalizing x y with
  | nil => simpa [writeAll] using h
  | cons s rest ih =>
    refine ih ?_
    rw [read_write, read_write]
    by_cases hs : a = s.1
    · simp [hs]
    · simpa [hs] using h

/-- Writing the byte that is there changes nothing. -/
theorem write_read_self (memory : Memory) (a : Word) : memory.write a (memory.read a) = memory := by
  refine ext_of_read fun b => ?_
  rw [read_write]
  split
  next h => rw [h]
  next => rfl

/-! ## Words -/

theorem readWord_writeWord_self (memory : Memory) (a v : Word) :
    (memory.writeWord a v).readWord a = v := by
  have hne : a ≠ a + 1 := by bv_omega
  rw [readWord, writeWord, read_write_self, read_write_of_ne _ _ hne, read_write_self,
    high_append_low]

theorem writeWord_readWord_self (memory : Memory) (a : Word) :
    memory.writeWord a (memory.readWord a) = memory := by
  rw [writeWord, readWord, low_of_append, high_of_append, write_read_self, write_read_self]

/-- Writing a word leaves all bytes but its two as they are. -/
theorem read_writeWord_of_ne {memory : Memory} {a b v : Word} (hlow : b ≠ a) (hhigh : b ≠ a + 1) :
    (memory.writeWord a v).read b = memory.read b := by
  rw [writeWord, read_write_of_ne _ _ hhigh, read_write_of_ne _ _ hlow]

end Memory

end Accumulator
