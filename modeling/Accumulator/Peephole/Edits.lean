import Accumulator.Peephole.Rule

/-!
# Edits

The changes that peephole rules make at a window, other than deleting the trigger.
-/

namespace Accumulator.Peephole

/-- Removing an instruction of the stream makes it shorter. -/
theorem length_eraseIdx_lt {code : List Instr} {n : Nat} (h : n < code.length) :
    (code.eraseIdx n).length < code.length := by
  rw [List.length_eraseIdx_of_lt h]
  omega

/-- Removing a second instruction does not make it longer. -/
theorem length_eraseIdx_eraseIdx_lt {code : List Instr} {m n : Nat} (h : m < code.length) :
    ((code.eraseIdx m).eraseIdx n).length < code.length :=
  Nat.lt_of_le_of_lt (List.length_eraseIdx_le _ _) (length_eraseIdx_lt h)

/-- Changing an instruction first makes no difference. -/
theorem length_eraseIdx_set_lt {code : List Instr} {m n : Nat} (i : Instr) (h : n < code.length) :
    ((code.set m i).eraseIdx n).length < code.length := by
  have hset : n < (code.set m i).length := by rwa [List.length_set]
  simpa only [List.length_set] using length_eraseIdx_lt hset

theorem lt_length_of_getElem? {code : List Instr} {n : Nat} {i : Instr} (h : code[n]? = some i) :
    n < code.length := by
  obtain ⟨hlt, _⟩ := List.getElem?_eq_some_iff.mp h
  exact hlt

/-- Remove the trigger and the anchor. -/
def removeBoth (code : List Instr) (w : Window) : Option (List Instr) :=
  match w.anchor with
  | none => none
  | some anchor =>
    if w.trigger < code.length then some ((code.eraseIdx w.trigger).eraseIdx anchor) else none

theorem removeBoth_length {code after : List Instr} {w : Window}
    (h : removeBoth code w = some after) : after.length < code.length := by
  unfold removeBoth at h
  split at h
  next => cases h
  next =>
    split at h
    next hlt =>
      cases h
      exact length_eraseIdx_eraseIdx_lt hlt
    next => cases h

/-- `MVI A,c / MOV d,A` and `MOV A,s / MOV d,A` load `d` directly if `a` is dead afterwards. Moving
a register to itself disappears. -/
def fuseMove (code : List Instr) (w : Window) : Option (List Instr) :=
  match w.anchor, code[w.trigger]? with
  | some anchor, some (.mov dst .a) =>
    if isDeadAfter code w.trigger .a then
      match code[anchor]? with
      | some (.mvi .a value) => some ((code.set anchor (.mvi dst value)).eraseIdx w.trigger)
      | some (.mov .a src) =>
        if src = dst then some ((code.eraseIdx w.trigger).eraseIdx anchor)
        else some ((code.set anchor (.mov dst src)).eraseIdx w.trigger)
      | _ => none
    else
      none
  | _, _ => none

theorem fuseMove_length {code after : List Instr} {w : Window}
    (h : fuseMove code w = some after) : after.length < code.length := by
  unfold fuseMove at h
  split at h
  next htrigger =>
    have hlt := lt_length_of_getElem? htrigger
    split at h
    next =>
      split at h
      next =>
        cases h
        exact length_eraseIdx_set_lt _ hlt
      next =>
        split at h
        next =>
          cases h
          exact length_eraseIdx_eraseIdx_lt hlt
        next =>
          cases h
          exact length_eraseIdx_set_lt _ hlt
      next => cases h
    next => cases h
  next => cases h

/-- The other of DE and HL. -/
def exchanged? : Pair → Option Pair
  | .d => some .h
  | .h => some .d
  | _ => none

/-- Both halves of a pair are dead after a position. -/
def isPairDeadAfter (code : List Instr) (pos : Nat) (p : Pair) : Bool :=
  match p.halves? with
  | some (high, low) => isDeadAfter code pos high && isDeadAfter code pos low
  | none => false

/-- `LXI D,c / XCHG` loads HL directly if DE, which then holds the old HL, is dead afterwards; and
the same with HL and DE exchanged. -/
def loadExchanged (code : List Instr) (w : Window) : Option (List Instr) :=
  match w.anchor with
  | none => none
  | some anchor =>
    match code[anchor]? with
    | some (.lxi loaded value) =>
      match exchanged? loaded with
      | none => none
      | some other =>
        if w.trigger < code.length ∧ isPairDeadAfter code w.trigger loaded then
          some ((code.set anchor (.lxi other value)).eraseIdx w.trigger)
        else
          none
    | _ => none

theorem loadExchanged_length {code after : List Instr} {w : Window}
    (h : loadExchanged code w = some after) : after.length < code.length := by
  unfold loadExchanged at h
  split at h
  next => cases h
  next =>
    split at h
    next =>
      split at h
      next => cases h
      next =>
        split at h
        next hlt =>
          cases h
          exact length_eraseIdx_set_lt _ hlt.1
        next => cases h
    next => cases h

/-- `MOV r,A / MOV A,s / OP r` becomes `OP s` if `r` is dead afterwards. -/
def commuteOperand (code : List Instr) (w : Window) : Option (List Instr) :=
  match w.anchor, code[w.trigger]? with
  | some (before + 1), some (.alu op r) =>
    match code[before + 1]? with
    | some (.mov .a s) =>
      if code[before]? = some (.mov r .a) ∧ s ≠ r ∧ ¬(s = .m ∧ (r = .h ∨ r = .l)) ∧
          isDeadAfter code w.trigger r then
        some (((code.set w.trigger (.alu op s)).eraseIdx (before + 1)).eraseIdx before)
      else
        none
    | _ => none
  | _, _ => none

theorem commuteOperand_length {code after : List Instr} {w : Window}
    (h : commuteOperand code w = some after) : after.length < code.length := by
  unfold commuteOperand at h
  split at h
  next =>
    split at h
    next hanchor =>
      split at h
      next =>
        cases h
        exact Nat.lt_of_le_of_lt (List.length_eraseIdx_le _ _)
          (length_eraseIdx_set_lt _ (lt_length_of_getElem? hanchor))
      next => cases h
    next => cases h
  next => cases h

/-- Remove a store that is overwritten before it is read. Reaching the end of the stream is not
enough: memory is what a program leaves behind. -/
def removeStore (code : List Instr) (w : Window) : Option (List Instr) :=
  match w.anchor with
  | none => none
  | some _ => if w.trigger < code.length then some (code.eraseIdx w.trigger) else none

theorem removeStore_length {code after : List Instr} {w : Window}
    (h : removeStore code w = some after) : after.length < code.length := by
  unfold removeStore at h
  split at h
  next => cases h
  next =>
    split at h
    next hlt =>
      cases h
      exact length_eraseIdx_lt hlt
    next => cases h

namespace Edit

/-- Remove the trigger and the anchor. -/
def both : Edit := ⟨removeBoth, removeBoth_length⟩

/-- Move or load without going through the accumulator. -/
def fuse : Edit := ⟨fuseMove, fuseMove_length⟩

/-- Load the pair that is meant. -/
def direct : Edit := ⟨loadExchanged, loadExchanged_length⟩

/-- Take the operands the other way round. -/
def commute : Edit := ⟨commuteOperand, commuteOperand_length⟩

/-- Remove a store that is overwritten. -/
def store : Edit := ⟨removeStore, removeStore_length⟩

end Edit

end Accumulator.Peephole
