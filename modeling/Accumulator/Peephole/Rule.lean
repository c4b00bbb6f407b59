import Accumulator.Peephole.Dead

/-!
# Peephole rules

A rule starts at a trigger and searches for an anchor before or after it, giving up at a barrier
or at an instruction that spoils the match. What it has found is a window; the rule then deletes
the trigger or edits the window. Whatever it does makes the stream shorter, which is why
applying rules ends.
-/

namespace Accumulator.Peephole

/-- Where a rule searches for its anchor. -/
inductive Direction where
  /-- Before the trigger; reaching the start of the stream fails. -/
  | backward
  /-- After the trigger; reaching the end of the stream succeeds without an anchor. -/
  | forward
  deriving DecidableEq

/-- Positions of a match. -/
structure Window where
  trigger : Nat
  anchor : Option Nat
  deriving DecidableEq

/-- A change of the stream at a window, if it applies there. It makes the stream shorter. -/
structure Edit where
  run : List Instr → Window → Option (List Instr)
  shrinks : ∀ {code after : List Instr} {w : Window},
    run code w = some after → after.length < code.length

/-- A peephole rule. -/
structure Rule where
  name : String
  direction : Direction
  isTrigger : Instr → Bool
  /-- The candidate is the anchor of the trigger. -/
  isAnchor : (candidate trigger : Instr) → Bool
  /-- The candidate ends the search for an anchor of the trigger. -/
  spoils : (candidate trigger : Instr) → Bool
  /-- What to do with a window; without it, the trigger is deleted. -/
  edit : Option Edit := none

namespace Rule

/-- Position of the nearest anchor among the first `n` instructions, searched from the last. -/
def anchorBefore? (rule : Rule) (code : List Instr) (trigger : Instr) : (n : Nat) → Option Nat
  | 0 => none
  | n + 1 =>
    match code[n]? with
    | none => none
    | some candidate =>
      if candidate.isComment then rule.anchorBefore? code trigger n
      else if rule.isAnchor candidate trigger then some n
      else if candidate.isBarrier || rule.spoils candidate trigger then none
      else rule.anchorBefore? code trigger n

/-- The nearest anchor among the instructions from a position on: none if the search is spoiled,
no position if it reaches the end. -/
def anchorAfter? (rule : Rule) (trigger : Instr) (pos : Nat) : List Instr → Option (Option Nat)
  | [] => some none
  | candidate :: rest =>
    if candidate.isComment then rule.anchorAfter? trigger (pos + 1) rest
    else if candidate.isBarrier || rule.spoils candidate trigger then none
    else if rule.isAnchor candidate trigger then some (some pos)
    else rule.anchorAfter? trigger (pos + 1) rest

/-- The window around the trigger at a position. -/
def window? (rule : Rule) (code : List Instr) (pos : Nat) (trigger : Instr) : Option Window :=
  match rule.direction with
  | .backward =>
    (rule.anchorBefore? code trigger pos).map fun n => { trigger := pos, anchor := some n }
  | .forward =>
    (rule.anchorAfter? trigger (pos + 1) (code.drop (pos + 1))).map fun anchor =>
      { trigger := pos, anchor }

/-- What the rule makes of a window. -/
def fire? (rule : Rule) (code : List Instr) (w : Window) : Option (List Instr) :=
  match rule.edit with
  | some r => r.run code w
  | none => if w.trigger < code.length then some (code.eraseIdx w.trigger) else none

/-- What the rule makes of the stream at a position. -/
def fireAt? (rule : Rule) (code : List Instr) (pos : Nat) : Option (List Instr) :=
  match code[pos]? with
  | none => none
  | some trigger =>
    if rule.isTrigger trigger then
      (rule.window? code pos trigger).bind (rule.fire? code)
    else
      none

theorem length_of_fire? {rule : Rule} {code after : List Instr} {w : Window}
    (h : rule.fire? code w = some after) : after.length < code.length := by
  unfold fire? at h
  split at h
  next r _ => exact r.shrinks h
  next =>
    split at h
    next hlt =>
      cases h
      rw [List.length_eraseIdx_of_lt hlt]
      omega
    next => cases h

theorem length_of_fireAt? {rule : Rule} {code after : List Instr} {pos : Nat}
    (h : rule.fireAt? code pos = some after) : after.length < code.length := by
  unfold fireAt? at h
  split at h
  next => cases h
  next =>
    split at h
    next =>
      obtain ⟨w, _, hw⟩ := Option.bind_eq_some_iff.mp h
      exact length_of_fire? hw
    next => cases h

-- `h` and `hpos` are used where the recursion is shown to end, which the linter does not see.
set_option linter.unusedVariables false in
/-- Apply the rule from a position on. An edit may remove instructions before the trigger, so
after one the search goes back by two. The answer counts the edits. -/
def applyFrom (rule : Rule) (code : List Instr) (pos : Nat) : Nat × List Instr :=
  if hpos : pos < code.length then
    match h : rule.fireAt? code pos with
    | some after =>
      let (fired, result) := rule.applyFrom after (pos - 2)
      (fired + 1, result)
    | none => rule.applyFrom code (pos + 1)
  else
    (0, code)
termination_by (code.length, code.length - pos)
decreasing_by
  · exact Prod.Lex.left _ _ (length_of_fireAt? h)
  · exact Prod.Lex.right _ (by omega)

/-- Apply the rule to the whole stream. -/
def apply (rule : Rule) (code : List Instr) : Nat × List Instr :=
  rule.applyFrom code 0

end Rule

end Accumulator.Peephole
