import Accumulator.Triple.Basic

/-!
# Merging duplicates

A triple that computes what an earlier triple computed is removed, and later references to it
mean the earlier one, unless an assignment in between may have changed something it reads. One
round removes the first such duplicate; rounds are repeated until there is none, and each one
makes the list shorter.
-/

namespace Accumulator.Triple

/-- What an assignment may have overwritten. -/
inductive Clobber where
  | var (name : String)
  | unknown
  | nothing

/-- What an assignment of the list may have overwritten. -/
def clobber (triples : List Triple) (assignment : Triple) : Clobber :=
  if assignment.throughPointer then
    .unknown
  else
    match assignment.lhs with
    | .var name => .var name
    | .const _ => .nothing
    | .temp id =>
      match find? triples id with
      | some { op := .index, lhs := .var base, .. } => .var base
      | _ => .unknown

/-- An assignment may change the value of a triple. A pointer may point at any variable. -/
def isChangedBy (triples : List Triple) (t assignment : Triple) : Bool :=
  if t.op = .deref then
    true
  else
    let names := t.operands.filterMap Operand.var?
    match clobber triples assignment with
    | .var name => names.contains name
    | .unknown => !names.isEmpty || t.op = .index
    | .nothing => false

/-- An assignment among the triples `between` may change the value of a triple. An address never
changes. -/
def isBlocked (triples between : List Triple) (t : Triple) : Bool :=
  t.op ≠ .address && between.any fun u => u.op = .assign && isChangedBy triples t u

/-- A triple found in a list, with what stands before and after it. -/
structure Split where
  before : List Triple
  found : Triple
  after : List Triple

/-- The first triple of `rest` that computes the same as `t` does after `rest`. `before` holds the
triples already passed over. -/
def findEarlier? (triples : List Triple) (t : Triple) (before : List Triple) :
    (rest : List Triple) → Option Split
  | [] => none
  | first :: after =>
    if first.op ≠ .assign ∧ first.sameExpression t ∧ !isBlocked triples after t then
      some { before, found := first, after }
    else
      findEarlier? triples t (before ++ [first]) after

/-- The triple that stands for itself and a duplicate: an element is used by address only, or left
unsaved, if both are. -/
def absorb (kept duplicate : Triple) : Triple :=
  { kept with
    addressOnly := kept.addressOnly && duplicate.addressOnly
    noSave := kept.noSave && duplicate.noSave }

/-- Remove the first duplicate at or after the start of `rest`. `earlier` holds the triples before
it. -/
def mergeFrom? (triples : List Triple) (earlier : List Triple) :
    (rest : List Triple) → Option (List Triple)
  | [] => none
  | t :: rest =>
    if t.op = .assign then
      mergeFrom? triples (earlier ++ [t]) rest
    else
      match findEarlier? triples t [] earlier with
      | some s =>
        some (s.before ++ s.found.absorb t :: s.after
          ++ rest.map (·.rename t.id (.temp s.found.id)))
      | none => mergeFrom? triples (earlier ++ [t]) rest

/-- One round: remove the first duplicate, if there is one. -/
def merge? (triples : List Triple) : Option (List Triple) :=
  mergeFrom? triples [] triples

theorem findEarlier?_length {triples : List Triple} {t : Triple} {s : Split}
    (before rest : List Triple)
    (h : findEarlier? triples t before rest = some s) :
    s.before.length + s.after.length + 1 = before.length + rest.length := by
  induction rest generalizing before with
  | nil => simp [findEarlier?] at h
  | cons first after ih =>
    rw [findEarlier?] at h
    split at h
    · cases h
      simp only [List.length_cons]
      omega
    · have := ih _ h
      simp only [List.length_append, List.length_cons, List.length_nil] at this ⊢
      omega

theorem mergeFrom?_length {triples merged : List Triple} (earlier rest : List Triple)
    (h : mergeFrom? triples earlier rest = some merged) :
    merged.length + 1 = earlier.length + rest.length := by
  induction rest generalizing earlier with
  | nil => simp [mergeFrom?] at h
  | cons t rest ih =>
    have hstep : mergeFrom? triples (earlier ++ [t]) rest = some merged →
        merged.length + 1 = earlier.length + (t :: rest).length := by
      intro h'
      have := ih _ h'
      simp only [List.length_append, List.length_cons, List.length_nil] at this ⊢
      omega
    rw [mergeFrom?] at h
    split at h
    · exact hstep h
    · split at h
      next s hs =>
        have := findEarlier?_length [] earlier hs
        cases h
        simp only [List.length_append, List.length_cons, List.length_map, List.length_nil] at this ⊢
        omega
      next => exact hstep h

/-- A round makes the list shorter by one. -/
theorem merge?_length {triples merged : List Triple} (h : merge? triples = some merged) :
    merged.length + 1 = triples.length := by
  simpa using mergeFrom?_length [] triples h

-- `h` is used where the recursion is shown to end, which the linter does not see.
set_option linter.unusedVariables false in
/-- The list after each round, until no duplicate is left. -/
def mergeRounds (triples : List Triple) : List (List Triple) :=
  match h : merge? triples with
  | none => []
  | some merged => merged :: mergeRounds merged
termination_by triples.length
decreasing_by
  have := merge?_length h
  omega

-- `h` is used where the recursion is shown to end, which the linter does not see.
set_option linter.unusedVariables false in
/-- Merge duplicates until none is left. -/
def mergeAll (triples : List Triple) : List Triple :=
  match h : merge? triples with
  | none => triples
  | some merged => mergeAll merged
termination_by triples.length
decreasing_by
  have := merge?_length h
  omega

end Accumulator.Triple
