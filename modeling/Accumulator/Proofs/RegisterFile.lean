import Accumulator.RegisterFile

/-!
# Records of registers

What the operations on a register file leave in each register. A word is recorded by two halves,
and `Matched` says that one is never there without the other: every operation keeps it so. Thus
when a register is forgotten, no other byte is.
-/

namespace Accumulator

/-- The register holds half of a word. -/
def Content.isHalf : Content → Bool
  | half _ _ => true
  | _ => false

/-- What is known of how two registers of a pair belong together: they hold the two halves of one
word, or none of them holds a half. -/
def Content.Matches (high low : Content) : Prop :=
  (∃ v, high = .half v .high ∧ low = .half v .low) ∨ high.isHalf = false ∧ low.isHalf = false

/-- In a pair that matches, both registers hold a half or neither does. -/
theorem Content.Matches.isHalf_eq {high low : Content} (h : high.Matches low) :
    high.isHalf = low.isHalf := by
  obtain ⟨v, rfl, rfl⟩ | ⟨hhigh, hlow⟩ := h
  · rfl
  · rw [hhigh, hlow]

theorem Content.Matches.value?_eq {high low : Content} (h : high.Matches low)
    (hhalf : high.isHalf = true) : high.value? = low.value? := by
  obtain ⟨v, rfl, rfl⟩ | ⟨hhigh, -⟩ := h
  · rfl
  · rw [hhigh] at hhalf
    cases hhalf

/-- The two registers of a pair are different registers, and neither is the accumulator. -/
theorem Pair.halves?_ne {p : Pair} {high low : Reg} (h : p.halves? = some (high, low)) :
    high ≠ .m ∧ low ≠ .m ∧ high ≠ .a ∧ low ≠ .a := by
  cases p <;> cases h <;> decide

/-- High registers are no low registers. -/
theorem Pair.halves?_high_ne_low {p q : Pair} {high low high' low' : Reg}
    (h : p.halves? = some (high, low)) (h' : q.halves? = some (high', low')) : high ≠ low' := by
  cases p <;> cases h <;> cases q <;> cases h' <;> decide

namespace RegisterFile

variable {rf : RegisterFile} {r q high low : Reg} {p : Pair} {v : Value} {c : Content}

/-- What is put into a register is there, and all other registers are as before. -/
theorem get_put (hr : r ≠ .m) (hq : q ≠ .m) :
    (rf.put r c).get q = if q = r then c else rf.get q := by
  split
  next h =>
    rw [h]
    exact Registers.get_set_self _ _ hr
  next h => exact Registers.get_set_of_ne _ _ hr hq h

theorem get_put_self (hr : r ≠ .m) : (rf.put r c).get r = c := by
  rw [get_put hr hr, if_pos rfl]

theorem get_put_of_ne (hr : r ≠ .m) (hq : q ≠ .m) (h : q ≠ r) : (rf.put r c).get q = rf.get q := by
  rw [get_put hr hq, if_neg h]

/-- The registers whose record is lost with that of a register. -/
def lost (rf : RegisterFile) (r : Reg) : List Reg :=
  match rf.get r, r.pair?.bind Pair.halves? with
  | .half _ _, some (high, low) => [high, low]
  | _, _ => [r]

/-- What is lost with a register: itself and, if it holds half of a word, its whole pair. -/
theorem mem_lost_iff :
    q ∈ rf.lost r ↔
      q = r ∨ (rf.get r).isHalf = true ∧ ∃ p, q.pair? = some p ∧ r.pair? = some p := by
  unfold lost
  cases rf.get r <;> cases r <;> cases q <;> simp [Content.isHalf, Reg.pair?, Pair.halves?]

theorem mem_lost_self : r ∈ rf.lost r :=
  mem_lost_iff.mpr (.inl rfl)

/-- Clearing a register empties what is lost with it, and nothing else. -/
theorem get_clear (hr : r ≠ .m) (hq : q ≠ .m) :
    (rf.clear r).get q = if q ∈ rf.lost r then .empty else rf.get q := by
  rw [clear, if_neg hr]
  unfold lost
  split
  next u side high low hcontent hpair =>
    have hne : high ≠ .m ∧ low ≠ .m ∧ (r = high ∨ r = low) := by
      cases r <;> cases hpair <;> decide
    rw [get_put hr hq, get_put hne.2.1 hq, get_put hne.1 hq]
    grind
  next => simp only [get_put hr hq, List.mem_singleton]

theorem get_clear_self (hr : r ≠ .m) : (rf.clear r).get r = .empty := by
  rw [get_clear hr hr, if_pos mem_lost_self]

/-! ## Halves of words -/

/-- The two halves of a word are recorded together. -/
structure Matched (rf : RegisterFile) : Prop where
  a : (rf.get .a).isHalf = false
  pair : ∀ {p high low}, Pair.halves? p = some (high, low) → (rf.get high).Matches (rf.get low)

theorem matched_empty : Matched {} where
  a := rfl
  pair {p high low} h := by
    cases p <;> cases h <;> exact .inr ⟨rfl, rfl⟩

/-- Of two registers of one pair, both or neither hold a half. -/
theorem Matched.isHalf_eq (h : rf.Matched) (hq : q.pair? = some p) (hr : r.pair? = some p) :
    (rf.get q).isHalf = (rf.get r).isHalf := by
  cases hp : p.halves? with
  | none => cases q <;> cases hq <;> cases hp
  | some hl =>
    have heq := (h.pair hp).isHalf_eq
    cases q <;> cases hq <;> cases r <;> cases hr <;> cases hp <;> simp_all

/-- Clearing takes both halves of a word, so none is left alone. -/
theorem Matched.clear (h : rf.Matched) : (rf.clear r).Matched := by
  by_cases hr : r = .m
  · subst hr
    exact h
  constructor
  · rw [get_clear hr (by decide)]
    split
    · rfl
    · exact h.a
  · intro p high low hp
    have hne := Pair.halves?_ne hp
    have hmatches := h.pair hp
    have hpairs : high.pair? = some p ∧ low.pair? = some p := by cases p <;> cases hp <;> decide
    rw [get_clear hr hne.1, get_clear hr hne.2.1]
    -- If only one of the two is forgotten, it holds no half, so neither does the other.
    split
    next hhigh =>
      split
      next => exact .inr ⟨rfl, rfl⟩
      next hlow =>
        rw [mem_lost_iff] at hhigh hlow
        exact .inr ⟨rfl, by grind [hmatches.isHalf_eq]⟩
    next hhigh =>
      split
      next hlow =>
        rw [mem_lost_iff] at hhigh hlow
        exact .inr ⟨by grind [hmatches.isHalf_eq], rfl⟩
      next => exact hmatches

/-- A register whose record is lost with another one holds part of the same value. -/
theorem Matched.value?_eq_of_mem_lost (h : rf.Matched) (hq : q ∈ rf.lost r) :
    (rf.get q).value? = (rf.get r).value? := by
  obtain rfl | ⟨hhalf, p, hqp, hrp⟩ := mem_lost_iff.mp hq
  · rfl
  · cases hp : p.halves? with
    | none => cases q <;> cases hqp <;> cases hp
    | some hl =>
      have hmatches := h.pair hp
      have heq := hmatches.value?_eq
      have hhalves := hmatches.isHalf_eq
      cases q <;> cases hqp <;> cases r <;> cases hrp <;> cases hp <;> simp_all

/-- Recording a byte in a register that is empty keeps the halves together. -/
theorem Matched.put_scalar (h : rf.Matched) (hr : r ≠ .m) (hempty : (rf.get r).isHalf = false) :
    (rf.put r (.scalar v)).Matched := by
  constructor
  · rw [get_put hr (by decide)]
    split
    · rfl
    · exact h.a
  · intro p high low hp
    have hne := Pair.halves?_ne hp
    have hmatches := h.pair hp
    have heq := hmatches.isHalf_eq
    rw [get_put hr hne.1, get_put hr hne.2.1]
    split
    next hhigh =>
      refine .inr ⟨rfl, ?_⟩
      split
      · rfl
      · rw [← heq, hhigh, hempty]
    next =>
      split
      next hlow => exact .inr ⟨by rw [heq, hlow, hempty], rfl⟩
      next => exact hmatches

/-- A byte takes the place of a register after that was cleared. -/
theorem Matched.bind (h : rf.Matched) : (rf.bind r v).Matched := by
  unfold RegisterFile.bind
  split
  next => exact h
  next hr =>
    refine h.clear.put_scalar hr ?_
    rw [get_clear_self hr]
    rfl

/-- Recording both registers of a pair keeps the halves together, if the two contents match. Other
pairs share no register with it. -/
theorem Matched.put_pair {x y : Content} (h : rf.Matched) (hp : p.halves? = some (high, low))
    (hxy : x.Matches y) : ((rf.put high x).put low y).Matched := by
  have hne := Pair.halves?_ne hp
  have hhl := Pair.halves?_high_ne_low hp hp
  constructor
  · rw [get_put_of_ne hne.2.1 (by decide) hne.2.2.2.symm,
      get_put_of_ne hne.1 (by decide) hne.2.2.1.symm]
    exact h.a
  · intro q high' low' hq
    have hne' := Pair.halves?_ne hq
    by_cases hpq : q = p
    · subst hpq
      rw [hp] at hq
      cases hq
      rw [get_put_of_ne hne.2.1 hne.1 hhl, get_put_self hne.1, get_put_self hne.2.1]
      exact hxy
    · have hdistinct : high' ≠ high ∧ high' ≠ low ∧ low' ≠ high ∧ low' ≠ low := by
        cases p <;> cases hp <;> cases q <;> cases hq <;>
          first | decide | exact absurd rfl hpq
      rw [get_put_of_ne hne.2.1 hne'.1 hdistinct.2.1, get_put_of_ne hne.1 hne'.1 hdistinct.1,
        get_put_of_ne hne.2.1 hne'.2.1 hdistinct.2.2.2,
        get_put_of_ne hne.1 hne'.2.1 hdistinct.2.2.1]
      exact h.pair hq

/-- Clearing a pair clears its registers one by one, each with its other half. -/
theorem Matched.clearPair (h : rf.Matched) : (rf.clearPair p).Matched := by
  unfold RegisterFile.clearPair
  split
  · exact h.clear.clear
  · exact h

theorem Matched.bindPair (h : rf.Matched) : (rf.bindPair p v).Matched := by
  unfold RegisterFile.bindPair
  split
  next hp => exact h.clear.clear.put_pair hp (.inl ⟨v, rfl, rfl⟩)
  next => exact h

theorem Matched.bindExtended (h : rf.Matched) : (rf.bindExtended p v).Matched := by
  unfold RegisterFile.bindExtended
  split
  · exact h.bind.bind
  · exact h

theorem Matched.copyPair {source target : Pair} (h : rf.Matched) :
    (rf.copyPair source target).Matched := by
  unfold RegisterFile.copyPair
  split
  next hsource htarget => exact h.put_pair htarget (h.pair hsource)
  next => exact h

theorem put_comm {x y : Content} (hr : r ≠ .m) (hq : q ≠ .m) (h : q ≠ r) :
    (rf.put r x).put q y = (rf.put q y).put r x := by
  cases r <;> cases q <;> first | rfl | contradiction

/-- Exchanging two pairs moves whole words. -/
theorem Matched.swapPairs {q : Pair} (h : rf.Matched) : (rf.swapPairs p q).Matched := by
  unfold RegisterFile.swapPairs
  split
  next hp hq =>
    -- Either pair takes what the other one held, so each is recorded as a whole.
    rw [put_comm (Pair.halves?_ne hq).1 (Pair.halves?_ne hp).2.1
      (Pair.halves?_high_ne_low hq hp).symm]
    exact (h.put_pair hp (h.pair hq)).put_pair hq (h.pair hp)
  next => exact h

/-- Forgetting values forgets both halves of each. -/
theorem Matched.forget (h : rf.Matched) (p : Value → Bool) : (rf.forget p).Matched := by
  unfold RegisterFile.forget
  generalize Reg.all = rs
  induction rs generalizing rf with
  | nil => exact h
  | cons r rs ih =>
    rw [List.foldl_cons]
    refine ih ?_
    split
    · exact h.clear
    · exact h

/-! ## Registers that stay as they are -/

/-- A register outside of what is lost keeps its record. -/
theorem get_clear_of_not_mem (hq : q ≠ .m) (h : q ∉ rf.lost r) : (rf.clear r).get q = rf.get q := by
  by_cases hr : r = .m
  · rw [clear, if_pos hr]
  · rw [get_clear hr hq, if_neg h]

theorem get_bind_self (hr : r ≠ .m) : (rf.bind r v).get r = .scalar v := by
  rw [bind, if_neg hr, get_put_self hr]

/-- A register outside of what is lost keeps its record also when a byte is recorded in the other
one. -/
theorem get_bind_of_not_mem (hq : q ≠ .m) (h : q ∉ rf.lost r) : (rf.bind r v).get q = rf.get q := by
  unfold bind
  split
  next => rfl
  next hr =>
    have hne : q ≠ r := fun heq => h (heq ▸ mem_lost_self)
    rw [get_put_of_ne hr hq hne, get_clear_of_not_mem hq h]

/-- With a register of a pair only that pair can be lost. -/
theorem not_mem_lost (hp : p.halves? = some (high, low)) (hr : r = high ∨ r = low)
    (hhigh : q ≠ high) (hlow : q ≠ low) : q ∉ rf.lost r := by
  intro hq
  have hne : q ≠ r := by
    obtain rfl | rfl := hr
    · exact hhigh
    · exact hlow
  obtain heq | ⟨-, p', hq, hr'⟩ := mem_lost_iff.mp hq
  · exact hne heq
  · cases p <;> cases hp <;> obtain rfl | rfl := hr <;> cases hr' <;> cases q <;> contradiction

theorem get_clearPair_of_ne (hp : p.halves? = some (high, low)) (hq : q ≠ .m) (hhigh : q ≠ high)
    (hlow : q ≠ low) : (rf.clearPair p).get q = rf.get q := by
  simp only [clearPair, hp]
  rw [get_clear_of_not_mem hq (not_mem_lost hp (.inr rfl) hhigh hlow),
    get_clear_of_not_mem hq (not_mem_lost hp (.inl rfl) hhigh hlow)]

theorem get_clearPair (hp : p.halves? = some (high, low)) :
    (rf.clearPair p).get high = .empty ∧ (rf.clearPair p).get low = .empty := by
  have hne := Pair.halves?_ne hp
  simp only [clearPair, hp]
  constructor
  · rw [get_clear hne.2.1 hne.1, get_clear_self hne.1, ite_self]
  · exact get_clear_self hne.2.1

/-- A word that is recorded in a pair is there, half by half. -/
theorem get_bindPair (hp : p.halves? = some (high, low)) :
    (rf.bindPair p v).get high = .half v .high ∧ (rf.bindPair p v).get low = .half v .low := by
  have hne := Pair.halves?_ne hp
  simp only [bindPair, hp]
  constructor
  · rw [get_put_of_ne hne.2.1 hne.1 (Pair.halves?_high_ne_low hp hp), get_put_self hne.1]
  · exact get_put_self hne.2.1

/-- Recording a word in a pair leaves the registers outside of it. -/
theorem get_bindPair_of_ne (hp : p.halves? = some (high, low)) (hq : q ≠ .m) (hhigh : q ≠ high)
    (hlow : q ≠ low) : (rf.bindPair p v).get q = rf.get q := by
  have hne := Pair.halves?_ne hp
  simp only [bindPair, hp]
  rw [get_put_of_ne hne.2.1 hq hlow, get_put_of_ne hne.1 hq hhigh,
    get_clear_of_not_mem hq (not_mem_lost hp (.inr rfl) hhigh hlow),
    get_clear_of_not_mem hq (not_mem_lost hp (.inl rfl) hhigh hlow)]

theorem get_copyPair_of_ne {source : Pair} {sh sl : Reg} (hsource : source.halves? = some (sh, sl))
    (hp : p.halves? = some (high, low)) (hq : q ≠ .m) (hhigh : q ≠ high) (hlow : q ≠ low) :
    (rf.copyPair source p).get q = rf.get q := by
  have hne := Pair.halves?_ne hp
  simp only [copyPair, hsource, hp]
  rw [get_put_of_ne hne.2.1 hq hlow, get_put_of_ne hne.1 hq hhigh]

theorem get_copyPair {source : Pair} {sh sl : Reg} (hsource : source.halves? = some (sh, sl))
    (hp : p.halves? = some (high, low)) :
    (rf.copyPair source p).get high = rf.get sh ∧ (rf.copyPair source p).get low = rf.get sl := by
  have hne := Pair.halves?_ne hp
  simp only [copyPair, hsource, hp]
  constructor
  · rw [get_put_of_ne hne.2.1 hne.1 (Pair.halves?_high_ne_low hp hp), get_put_self hne.1]
  · exact get_put_self hne.2.1

/-! ## What a pair holds -/

/-- A pair holds a word if it holds both halves, each on its side. -/
theorem pairValue?_eq_some (hp : p.halves? = some (high, low)) :
    rf.pairValue? p = some v ↔ rf.get high = .half v .high ∧ rf.get low = .half v .low := by
  simp only [pairValue?, hp]
  split
  next u w hhigh hlow =>
    rw [hhigh, hlow]
    simp only [Option.ite_none_right_eq_some, Option.some.injEq, Content.half.injEq, and_true]
    grind
  next hno =>
    constructor
    · rintro ⟨⟩
    · rintro ⟨hhigh, hlow⟩
      exact absurd hlow (hno v v hhigh)

theorem halves?_of_pairValue? (h : rf.pairValue? p = some v) :
    ∃ high low, p.halves? = some (high, low) ∧ rf.get high = .half v .high ∧
      rf.get low = .half v .low := by
  cases hp : p.halves? with
  | none => simp [pairValue?, hp] at h
  | some hl => exact ⟨hl.1, hl.2, rfl, (pairValue?_eq_some hp).mp h⟩

end RegisterFile

end Accumulator
