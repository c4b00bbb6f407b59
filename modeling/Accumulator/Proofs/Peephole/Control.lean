import Accumulator.Proofs.Peephole.Rewrite
import Accumulator.Routine

/-!
# What the peephole pass leaves alone

Each firing makes the stream shorter, so there are at most as many as instructions removed. No
rewrite touches a jump, a call, a halt or a comment, and none starts at the instruction that a jump
skips: what there is of these stays, in order, and a jump that stood before the clearing of the
accumulator still does.
-/

namespace Accumulator.Peephole

variable {code : List Instr} {front rest old new : List Instr}

/-! ## Firings are paid for by instructions -/

/-- A rule that is applied from a position on removes at least one instruction each time it
fires. -/
theorem Rule.fired_add_length (rule : Rule) (code : List Instr) (pos : Nat) :
    (rule.applyFrom code pos).1 + (rule.applyFrom code pos).2.length ≤ code.length := by
  fun_induction Rule.applyFrom rule code pos with
  | case1 code pos hpos after h fired result heq ih =>
    have hshorter := length_of_fireAt? h
    rw [heq] at ih
    dsimp only at ih ⊢
    omega
  | case2 code pos hpos h ih => exact ih
  | case3 code pos hpos => exact Nat.le_of_eq (Nat.zero_add _)

/-- So do all rules of a table, one after the other. -/
theorem fired_add_length_applyRules (table : List Rule) (code : List Instr) :
    (applyRules code table).1 + (applyRules code table).2.length ≤ code.length := by
  induction table generalizing code with
  | nil => exact Nat.le_of_eq (Nat.zero_add _)
  | cons rule table ih =>
    have happly : (rule.apply code).1 + (rule.apply code).2.length ≤ code.length :=
      rule.fired_add_length code 0
    have hrest := ih (rule.apply code).2
    show (rule.apply code).1 + (applyRules (rule.apply code).2 table).1 +
      (applyRules (rule.apply code).2 table).2.length ≤ code.length
    omega

/-- A pass fires at most as often as it removes instructions, and so do all passes together. -/
theorem fired_add_length_runPasses (passes : Nat) (code : List Instr) :
    (runPasses passes code).1 + (runPasses passes code).2.length ≤ code.length := by
  induction passes generalizing code with
  | zero => exact Nat.le_of_eq (Nat.zero_add _)
  | succ passes ih =>
    have hpass := fired_add_length_applyRules rules code
    rw [runPasses]
    split
    next fired after happly =>
      rw [happly] at hpass
      have hrest := ih after
      dsimp only at hpass
      split
      next => dsimp only; omega
      next => dsimp only; omega

/-! ## Barriers and comments -/

/-- Jumps, calls, halts and comments, which no rewrite touches. -/
def isFixed (i : Instr) : Bool :=
  i.isBarrier || i.isComment

/-- A rewrite takes away and brings in only what is not fixed. -/
theorem Rewrite.filter_isFixed (h : Rewrite rest old new) :
    new.filter isFixed = old.filter isFixed := by
  cases h with
  | reload hanchor | reloadPair hanchor | copy hanchor =>
    rcases hanchor with rfl | rfl <;>
      simp [isFixed, Instr.isBarrier, Instr.effects, Instr.isComment]
  | repeatByte | repeatWord | fuseByte | fuseMove | fuseBack | exchangeFresh | exchangeTwice
  | pushPop | commute => simp [isFixed, Instr.isBarrier, Instr.effects, Instr.isComment]
  | dead hi =>
    rcases hi with ⟨src, rfl⟩ | ⟨value, rfl⟩ <;>
      simp [isFixed, Instr.isBarrier, Instr.effects, Instr.isComment]
  | upDown hij =>
    rcases hij with ⟨rfl, rfl⟩ | ⟨rfl, rfl⟩ <;>
      simp [isFixed, Instr.isBarrier, Instr.effects, Instr.isComment]
  | deadStore hi =>
    rcases hi with rfl | rfl <;> simp [isFixed, Instr.isBarrier, Instr.effects, Instr.isComment]

/-- What is fixed stays, in order. -/
theorem filter_isFixed_optimize (code : List Instr) :
    (optimize code).2.filter isFixed = code.filter isFixed := by
  refine optimize_induction (I := fun after => after.filter isFixed = code.filter isFixed) ?_ rfl
  intro front rest old new hrewrite h
  rw [← h]
  simp only [List.filter_append, hrewrite.filter_isFixed]

/-- A call is among what is fixed. -/
theorem contains_call (code : List Instr) (routine : Routine) :
    code.contains (.call routine) = (code.filter isFixed).contains (.call routine) := by
  rw [Bool.eq_iff_iff, List.contains_iff_mem, List.contains_iff_mem, List.mem_filter]
  exact (and_iff_left rfl).symm

theorem calledBy_optimize (code : List Instr) :
    Routine.calledBy (optimize code).2 = Routine.calledBy code := by
  unfold Routine.calledBy
  congr 1
  funext routine
  rw [contains_call, filter_isFixed_optimize, ← contains_call]

/-! ## Jumps -/

/-- Every jump stands right before the clearing of the accumulator. -/
def ClearsAfterJumps (code : List Instr) : Prop :=
  ∀ (pos : Nat) (cond : Cond) (offset : Int), code[pos]? = some (.jump cond offset) →
    code[pos + 1]? = some (.alu .xor .a)

/-- Put together, two streams keep it if each does. -/
theorem ClearsAfterJumps.append (hfront : ClearsAfterJumps front) (hrest : ClearsAfterJumps rest) :
    ClearsAfterJumps (front ++ rest) := by
  intro pos cond offset hpos
  rcases Nat.lt_or_ge pos front.length with hlt | hge
  · rw [List.getElem?_append_left hlt] at hpos
    have hnext := hfront pos cond offset hpos
    rwa [List.getElem?_append_left (List.getElem?_eq_some_iff.mp hnext).1]
  · rw [List.getElem?_append_right hge] at hpos
    rw [List.getElem?_append_right (by omega), Nat.sub_add_comm hge]
    exact hrest _ cond offset hpos

theorem ClearsAfterJumps.right (h : ClearsAfterJumps (front ++ rest)) : ClearsAfterJumps rest := by
  intro pos cond offset hpos
  have hnext := h (front.length + pos) cond offset (by
    rwa [List.getElem?_append_right (by omega), Nat.add_sub_cancel_left])
  rw [List.getElem?_append_right (by omega)] at hnext
  rwa [show front.length + pos + 1 - front.length = pos + 1 by omega] at hnext

/-- The stream may be cut before anything that is not the clearing of the accumulator. -/
theorem ClearsAfterJumps.left {i : Instr} (hi : i ≠ .alu .xor .a)
    (h : ClearsAfterJumps (front ++ i :: rest)) : ClearsAfterJumps front := by
  intro pos cond offset hpos
  have hlt := (List.getElem?_eq_some_iff.mp hpos).1
  have hnext := h pos cond offset (by rwa [List.getElem?_append_left hlt])
  rcases Nat.lt_or_ge (pos + 1) front.length with hlt' | hge
  · rwa [List.getElem?_append_left hlt'] at hnext
  · -- The jump would be the last of the first part, and clear at `i`.
    rw [List.getElem?_append_right hge, show pos + 1 - front.length = 0 by omega] at hnext
    exact absurd (Option.some.inj hnext) hi

theorem clearsAfterJumps_of_not_barrier (h : ∀ i ∈ code, i.isBarrier = false) :
    ClearsAfterJumps code := by
  intro pos cond offset hpos
  have hbarrier := h _ (List.mem_of_getElem? hpos)
  cases hbarrier

/-- A rewrite keeps it: the window has no jump, and its first instruction is not the one that a jump
in front of it stands before. -/
theorem Rewrite.clearsAfterJumps (h : Rewrite rest old new)
    (hcode : ClearsAfterJumps (front ++ (old ++ rest))) :
    ClearsAfterJumps (front ++ (new ++ rest)) := by
  obtain ⟨i, tail, rfl, hi⟩ := h.exists_head
  have hnew := clearsAfterJumps_of_not_barrier h.not_barrier.2
  exact (hcode.left hi).append (hnew.append hcode.right.right)

/-- The pass removes at least one instruction for each time it fires. Jumps, calls, halts and
comments stay as they are, so the same routines are called; and where each jump stood before the
clearing of the accumulator, each still does. -/
theorem optimize_keeps_control (code : List Instr) :
    (optimize code).1 + (optimize code).2.length ≤ code.length ∧
      (optimize code).2.filter isFixed = code.filter isFixed ∧
      Routine.calledBy (optimize code).2 = Routine.calledBy code ∧
      (ClearsAfterJumps code → ClearsAfterJumps (optimize code).2) :=
  ⟨fired_add_length_runPasses maxPasses code, filter_isFixed_optimize code, calledBy_optimize code,
    optimize_induction fun _ _ _ _ hrewrite hcode => hrewrite.clearsAfterJumps hcode⟩

end Accumulator.Peephole
