import Accumulator.Proofs.RegisterFile

/-!
# Sequences of changes to a register file

Whatever is recorded and forgotten, in whatever order, the halves of a word stay together
(`halves_afterActions`): a register that holds a half is the register of that side, and the other
one of its pair holds the other half of the same word. So one register tells what its pair holds,
and changing one register of a pair leaves no half behind in the other.
-/

namespace Accumulator

/-- The other half. -/
def Side.opposite (side : Side) : Side :=
  if side = .high then .low else .high

/-- The register of a pair on a side. -/
def Pair.half? (p : Pair) (side : Side) : Option Reg :=
  p.halves?.map fun halves => if side = .high then halves.1 else halves.2

theorem Pair.half?_of_halves? {p : Pair} {high low : Reg} (h : p.halves? = some (high, low)) :
    p.half? .high = some high ∧ p.half? .low = some low := by
  simp [half?, h]

/-- A half of a pair is a register of that pair. -/
theorem Pair.half?_eq_some {p : Pair} {side : Side} {r : Reg} (h : p.half? side = some r) :
    r.pair? = some p ∧ r ≠ .m := by
  cases p <;> cases side <;> cases h <;> decide

theorem Reg.pair?_eq_some {r : Reg} {p : Pair} (h : r.pair? = some p) :
    ∃ high low, p.halves? = some (high, low) ∧ (r = high ∨ r = low) := by
  cases r <;> cases h <;> exact ⟨_, _, rfl, by decide⟩

namespace RegisterFile

variable {rf : RegisterFile} {r q : Reg} {p : Pair} {v : Value} {side : Side}

/-! ## One half tells of the other -/

/-- Only registers of pairs hold halves. -/
theorem Matched.exists_pair (h : rf.Matched) (hr : rf.get r = .half v side) :
    ∃ p, r.pair? = some p := by
  have ha : rf.get .a ≠ .half v side := by
    intro hhalf
    have hnone := h.a
    rw [hhalf] at hnone
    cases hnone
  cases r with
  | a | m => exact absurd hr ha
  | _ => exact ⟨_, rfl⟩

/-- A half is on its side of the pair, and the other half is there as well. -/
theorem Matched.get_opposite (h : rf.Matched) (hr : rf.get r = .half v side) :
    ∃ p other, r.pair? = some p ∧ p.half? side = some r ∧ p.half? side.opposite = some other ∧
      rf.get other = .half v side.opposite := by
  obtain ⟨p, hpair⟩ := h.exists_pair hr
  obtain ⟨high, low, hp, hside⟩ := Reg.pair?_eq_some hpair
  obtain ⟨hhigh, hlow⟩ := Pair.half?_of_halves? hp
  obtain ⟨u, hgetHigh, hgetLow⟩ | ⟨hgetHigh, hgetLow⟩ := h.pair hp
  · obtain rfl | rfl := hside
    · cases hgetHigh.symm.trans hr
      exact ⟨p, low, hpair, hhigh, hlow, hgetLow⟩
    · cases hgetLow.symm.trans hr
      exact ⟨p, high, hpair, hlow, hhigh, hgetHigh⟩
  · obtain rfl | rfl := hside
    · simp [hr, Content.isHalf] at hgetHigh
    · simp [hr, Content.isHalf] at hgetLow

/-- A pair holds a word if one of its registers holds half of it. -/
theorem Matched.pairValue?_eq_some_iff (h : rf.Matched) :
    rf.pairValue? p = some v ↔
      ∃ side r, p.half? side = some r ∧ ∃ side', rf.get r = .half v side' := by
  constructor
  · intro hvalue
    obtain ⟨high, low, hp, hhigh, -⟩ := halves?_of_pairValue? hvalue
    exact ⟨.high, high, (Pair.half?_of_halves? hp).1, .high, hhigh⟩
  · rintro ⟨side, r, hr, side', hget⟩
    obtain ⟨high, low, hp, hside⟩ := Reg.pair?_eq_some (Pair.half?_eq_some hr).1
    rw [pairValue?_eq_some hp]
    obtain ⟨u, hhigh, hlow⟩ | ⟨hhigh, hlow⟩ := h.pair hp
    · obtain rfl | rfl := hside
      · cases hhigh.symm.trans hget
        exact ⟨hhigh, hlow⟩
      · cases hlow.symm.trans hget
        exact ⟨hhigh, hlow⟩
    · obtain rfl | rfl := hside
      · simp [hget, Content.isHalf] at hhigh
      · simp [hget, Content.isHalf] at hlow

/-- A pair of which one register holds no half holds none. -/
theorem Matched.not_isHalf (h : rf.Matched) (hr : r.pair? = some p) (hq : q.pair? = some p)
    (hnone : (rf.get r).isHalf = false) : (rf.get q).isHalf = false := by
  rw [h.isHalf_eq hq hr, hnone]

/-! ## Actions -/

/-- One change of a register file. -/
inductive Action where
  | bind (r : Reg) (v : Value)
  | bindPair (p : Pair) (v : Value)
  | bindExtended (p : Pair) (v : Value)
  | clear (r : Reg)
  | clearPair (p : Pair)
  | clearAll
  | swapPairs (p q : Pair)
  | copyPair (source target : Pair)
  | forget (p : Value → Bool)

/-- The register file after a change. -/
def apply (rf : RegisterFile) : Action → RegisterFile
  | .bind r v => rf.bind r v
  | .bindPair p v => rf.bindPair p v
  | .bindExtended p v => rf.bindExtended p v
  | .clear r => rf.clear r
  | .clearPair p => rf.clearPair p
  | .clearAll => rf.clearAll
  | .swapPairs p q => rf.swapPairs p q
  | .copyPair source target => rf.copyPair source target
  | .forget p => rf.forget p

/-- The register file after changes to one that records nothing. -/
def afterActions (actions : List Action) : RegisterFile :=
  actions.foldl apply {}

/-- Every action keeps halves together. -/
theorem Matched.apply (h : rf.Matched) (action : Action) : (rf.apply action).Matched := by
  cases action with
  | bind r v => exact h.bind
  | bindPair p v => exact h.bindPair
  | bindExtended p v => exact h.bindExtended
  | clear r => exact h.clear
  | clearPair p => exact h.clearPair
  | clearAll => exact matched_empty
  | swapPairs p q => exact h.swapPairs
  | copyPair source target => exact h.copyPair
  | forget p => exact h.forget p

theorem Matched.foldl_apply (h : rf.Matched) (actions : List Action) :
    (actions.foldl RegisterFile.apply rf).Matched := by
  induction actions generalizing rf with
  | nil => exact h
  | cons action rest ih => exact ih (h.apply action)

theorem matched_afterActions (actions : List Action) : (afterActions actions).Matched :=
  matched_empty.foldl_apply actions

/-- The halves of words stay together whatever is recorded and forgotten. The accumulator holds
none. A register that holds one is in a pair with the other half beside it, so that one half tells
of the whole word. Clearing or overwriting either register takes both halves away. -/
theorem halves_afterActions (actions : List Action) :
    let rf := afterActions actions
    (∀ v side, rf.get .a ≠ .half v side) ∧
      (∀ r v side, rf.get r = .half v side →
        ∃ p other, r.pair? = some p ∧ p.half? side = some r ∧ p.half? side.opposite = some other ∧
          rf.get other = .half v side.opposite) ∧
      (∀ p v, rf.pairValue? p = some v ↔
        ∃ side r, p.half? side = some r ∧ ∃ side', rf.get r = .half v side') ∧
      ∀ p side r, p.half? side = some r → ∀ rf', (rf' = rf.clear r ∨ ∃ v, rf' = rf.bind r v) →
        rf'.pairValue? p = none ∧
          ∀ side' q, p.half? side' = some q → (rf'.get q).isHalf = false := by
  intro rf
  have hmatched : rf.Matched := matched_afterActions actions
  refine ⟨fun v side hhalf => ?_, fun r v side hhalf => hmatched.get_opposite hhalf,
    fun p v => hmatched.pairValue?_eq_some_iff, fun p side r hr rf' hrf' => ?_⟩
  · obtain ⟨p, hpair⟩ := hmatched.exists_pair hhalf
    cases hpair
  · obtain ⟨hpair, hne⟩ := Pair.half?_eq_some hr
    -- The register that was changed holds no half, so the other one holds none either.
    obtain ⟨hmatched', hnone⟩ : rf'.Matched ∧ (rf'.get r).isHalf = false := by
      obtain rfl | ⟨v, rfl⟩ := hrf'
      · exact ⟨hmatched.clear, by rw [get_clear_self hne]; rfl⟩
      · exact ⟨hmatched.bind, by rw [get_bind_self hne]; rfl⟩
    have hnoHalf : ∀ side' q, p.half? side' = some q → (rf'.get q).isHalf = false :=
      fun side' q hq => hmatched'.not_isHalf hpair (Pair.half?_eq_some hq).1 hnone
    refine ⟨Option.eq_none_iff_forall_ne_some.mpr fun v hvalue => ?_, hnoHalf⟩
    obtain ⟨side', q, hq, side'', hget⟩ := hmatched'.pairValue?_eq_some_iff.mp hvalue
    simpa [hget, Content.isHalf] using hnoHalf side' q hq

end RegisterFile

end Accumulator
