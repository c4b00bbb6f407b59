import Accumulator.Peephole.Table

/-!
# What the rules rewrite

A rule speaks of positions: of a trigger, of an anchor, of what lies between them. Here each rule
is brought into the form `front ++ old ++ rest` becomes `front ++ new ++ rest`, where
`Rewrite rest old new` lists the changes that there are. Everything about the pass follows from
that list by induction over firings (`optimize_induction`), and no later proof counts positions.
-/

namespace Accumulator.Peephole

/-! ## Lists with a distinguished element -/

section Lists

variable {α : Type} (xs ys : List α) (y z : α)

theorem eraseIdx_length_append : (xs ++ y :: ys).eraseIdx xs.length = xs ++ ys := by
  induction xs with
  | nil => rfl
  | cons x xs ih => simpa using ih

theorem set_length_append : (xs ++ y :: ys).set xs.length z = xs ++ z :: ys := by
  simp

theorem take_append_cons_drop {n : Nat} {xs : List α} {y : α} (h : xs[n]? = some y) :
    xs = xs.take n ++ y :: xs.drop (n + 1) ∧ (xs.take n).length = n := by
  obtain ⟨hlt, rfl⟩ := List.getElem?_eq_some_iff.mp h
  constructor
  · rw [← List.drop_eq_getElem_cons hlt, List.take_append_drop]
  · exact List.length_take_of_le (Nat.le_of_lt hlt)

end Lists

/-! ## Windows -/

/-- What a search passes over: comments, and instructions that do not end it. -/
def Passed (rule : Rule) (trigger i : Instr) : Prop :=
  i.isComment = true ∨ i.isBarrier = false ∧ rule.spoils i trigger = false

/-- A search before the first `n` instructions end, for an anchor of the trigger, has found one at
`pos`, with `mid` after it. -/
structure FoundBefore (rule : Rule) (trigger : Instr) (code : List Instr) (n pos : Nat)
    (anchor : Instr) (mid : List Instr) : Prop where
  take_eq : code.take n = code.take pos ++ anchor :: mid
  length_take : (code.take pos).length = pos
  isAnchor : rule.isAnchor anchor trigger = true
  passed : ∀ i ∈ mid, Passed rule trigger i

theorem take_succ_of_getElem? {code : List Instr} {n : Nat} {i : Instr} (h : code[n]? = some i) :
    code.take (n + 1) = code.take n ++ [i] := by
  rw [List.take_add_one, h]
  rfl

/-- The search has passed over one more instruction. -/
theorem FoundBefore.succ {rule : Rule} {trigger anchor i : Instr} {code mid : List Instr}
    {n pos : Nat} (h : FoundBefore rule trigger code n pos anchor mid) (hn : code[n]? = some i)
    (hi : Passed rule trigger i) :
    FoundBefore rule trigger code (n + 1) pos anchor (mid ++ [i]) where
  take_eq := by simp [take_succ_of_getElem? hn, h.take_eq]
  length_take := h.length_take
  isAnchor := h.isAnchor
  passed := by
    intro j hj
    rcases List.mem_append.mp hj with hj | hj
    · exact h.passed j hj
    · rwa [List.mem_singleton.mp hj]

/-- A search backward that succeeds has found an anchor, and what it has passed over does not spoil
the rule. By induction on the position. -/
theorem foundBefore_of_anchorBefore? {rule : Rule} {code : List Instr} {trigger : Instr}
    {n pos : Nat} (h : rule.anchorBefore? code trigger n = some pos) :
    ∃ anchor mid, FoundBefore rule trigger code n pos anchor mid := by
  induction n with
  | zero => cases h
  | succ n ih =>
    rw [Rule.anchorBefore?] at h
    cases hn : code[n]? with
    | none => simp [hn] at h
    | some candidate =>
      simp only [hn] at h
      split at h
      -- The search passes over a comment, ends at an anchor, gives up at a barrier or what spoils
      -- the rule, and passes over everything else.
      next hcomment =>
        obtain ⟨anchor, mid, hfound⟩ := ih h
        exact ⟨anchor, _, hfound.succ hn (.inl hcomment)⟩
      next =>
        split at h
        next hanchor =>
          cases h
          exact ⟨candidate, [], take_succ_of_getElem? hn, (take_append_cons_drop hn).2, hanchor,
            nofun⟩
        next =>
          split at h
          next => cases h
          next hpass =>
            obtain ⟨anchor, mid, hfound⟩ := ih h
            exact ⟨anchor, _, hfound.succ hn (.inr (by simpa using hpass))⟩

/-- A search through `rest` for an anchor of the trigger has found one, with `mid` before it, or
has come to the end. -/
inductive FoundAfter (rule : Rule) (trigger : Instr) : List Instr → Option Nat → Prop where
  | atEnd {rest : List Instr} (passed : ∀ i ∈ rest, Passed rule trigger i) :
      FoundAfter rule trigger rest none
  | anchor {mid rest : List Instr} {anchor : Instr} {pos : Nat}
      (isAnchor : rule.isAnchor anchor trigger = true) (unspoiled : Passed rule trigger anchor)
      (passed : ∀ i ∈ mid, Passed rule trigger i) :
      FoundAfter rule trigger (mid ++ anchor :: rest) (some pos)

/-- The search has passed over one more instruction. -/
theorem FoundAfter.cons {rule : Rule} {trigger i : Instr} {rest : List Instr} {pos? : Option Nat}
    (h : FoundAfter rule trigger rest pos?) (hi : Passed rule trigger i) :
    FoundAfter rule trigger (i :: rest) pos? := by
  cases h with
  | atEnd passed => exact .atEnd (List.forall_mem_cons.mpr ⟨hi, passed⟩)
  | @anchor mid rest anchor pos isAnchor unspoiled passed =>
    rw [← List.cons_append]
    exact .anchor isAnchor unspoiled (List.forall_mem_cons.mpr ⟨hi, passed⟩)

/-- A search forward that succeeds has found an anchor, or it has reached the end of the code. -/
theorem foundAfter_of_anchorAfter? {rule : Rule} {trigger : Instr} {pos : Nat} {rest : List Instr}
    {pos? : Option Nat} (h : rule.anchorAfter? trigger pos rest = some pos?) :
    FoundAfter rule trigger rest pos? := by
  induction rest generalizing pos with
  | nil =>
    cases h
    exact .atEnd nofun
  | cons candidate rest ih =>
    rw [Rule.anchorAfter?] at h
    split at h
    next hcomment => exact (ih h).cons (.inl hcomment)
    next =>
      split at h
      next => cases h
      next hpass =>
        have hpassed : Passed rule trigger candidate := .inr (by simpa using hpass)
        split at h
        next hanchor =>
          cases h
          rw [← List.nil_append (candidate :: rest)]
          exact .anchor hanchor hpassed nofun
        next => exact (ih h).cons hpassed

/-! ## The rewrites -/

/-- Comments only. -/
def AllComments (code : List Instr) : Prop := ∀ i ∈ code, i.isComment = true

/-- No control and no change of memory or of some registers. -/
def Keeps (regs : List Reg) (code : List Instr) : Prop :=
  ∀ i ∈ code, i.isBarrier = false ∧ ∀ r ∈ regs, i.writes r = false

/-- The changes that the rules make to a window, given what follows it. -/
inductive Rewrite (rest : List Instr) : List Instr → List Instr → Prop where
  /-- `a` is loaded with the byte that it was just stored to or loaded from. -/
  | reload {address : Imm} {anchor : Instr} {mid : List Instr}
      (hanchor : anchor = .sta address ∨ anchor = .lda address) (hmid : Keeps [.a] mid)
      (hmemory : ∀ i ∈ mid, i.writesMemory = false) :
      Rewrite rest (anchor :: (mid ++ [.lda address])) (anchor :: mid)
  /-- HL is loaded with the word that it was just stored to or loaded from. -/
  | reloadPair {address : Imm} {anchor : Instr} {mid : List Instr}
      (hanchor : anchor = .shld address ∨ anchor = .lhld address) (hmid : Keeps [.h, .l] mid)
      (hmemory : ∀ i ∈ mid, i.writesMemory = false) :
      Rewrite rest (anchor :: (mid ++ [.lhld address])) (anchor :: mid)
  /-- A register is loaded with the byte it has. -/
  | repeatByte {r : Reg} {v : Byte} {mid : List Instr} (hr : r ≠ .m)
      (hmid : Keeps [r] mid) :
      Rewrite rest (.mvi r v :: (mid ++ [.mvi r v])) (.mvi r v :: mid)
  /-- A pair is loaded with the word it has. -/
  | repeatWord {p : Pair} {high low : Reg} {v : Imm} {mid : List Instr}
      (hp : p.halves? = some (high, low)) (hmid : Keeps [high, low] mid) :
      Rewrite rest (.lxi p v :: (mid ++ [.lxi p v])) (.lxi p v :: mid)
  /-- A move between registers that are equal after an earlier move. -/
  | copy {dst src : Reg} {anchor : Instr} {mid : List Instr}
      (hanchor : anchor = .mov src dst ∨ anchor = .mov dst src) (hdst : dst ≠ .m)
      (hsrc : src ≠ .m) (hmid : Keeps [dst, src] mid) :
      Rewrite rest (anchor :: (mid ++ [.mov dst src])) (anchor :: mid)
  /-- A work register that is dead is loaded. -/
  | dead {r : Reg} {i : Instr}
      (hi : (∃ src, i = .mov r src) ∨ ∃ value, i = .mvi r value) (hr : r.isWork = true)
      (hdead : isDead r rest = true) : Rewrite rest [i] []
  /-- An immediate passes through the accumulator. -/
  | fuseByte {dst : Reg} {v : Byte} {mid : List Instr} (hdst : dst ≠ .a)
      (hmid : AllComments mid) (hdead : isDead .a rest = true) :
      Rewrite rest (.mvi .a v :: (mid ++ [.mov dst .a])) (.mvi dst v :: mid)
  /-- A byte passes through the accumulator. -/
  | fuseMove {dst s : Reg} {mid : List Instr} (hdst : dst ≠ .a) (hmid : AllComments mid)
      (hdead : isDead .a rest = true) :
      Rewrite rest (.mov .a s :: (mid ++ [.mov dst .a])) (.mov dst s :: mid)
  /-- A byte passes through the accumulator and comes back. -/
  | fuseBack {s : Reg} {mid : List Instr} (hmid : AllComments mid)
      (hdead : isDead .a rest = true) :
      Rewrite rest (.mov .a s :: (mid ++ [.mov s .a])) mid
  /-- A fresh pair is exchanged, and its old contents are dead. -/
  | exchangeFresh {p q : Pair} {high low : Reg} {v : Imm} {mid : List Instr}
      (hpq : exchanged? p = some q) (hp : p.halves? = some (high, low)) (hmid : AllComments mid)
      (hhigh : isDead high rest = true) (hlow : isDead low rest = true) :
      Rewrite rest (.lxi p v :: (mid ++ [.xchg])) (.lxi q v :: mid)
  /-- Two exchanges. -/
  | exchangeTwice {mid : List Instr} (hmid : AllComments mid) :
      Rewrite rest (.xchg :: (mid ++ [.xchg])) mid
  /-- A pair is pushed and popped. -/
  | pushPop {p : Pair} {mid : List Instr} (hmid : AllComments mid) :
      Rewrite rest (.push p :: (mid ++ [.pop p])) mid
  /-- A pair goes one up and one down, or the other way round. -/
  | upDown {p : Pair} {i j : Instr} {mid : List Instr}
      (hij : i = .dcx p ∧ j = .inx p ∨ i = .inx p ∧ j = .dcx p) (hmid : AllComments mid) :
      Rewrite rest (i :: (mid ++ [j])) mid
  /-- The operands of a commutative operation are exchanged through a register that is dead. -/
  | commute {op : AluOp} {r s : Reg} {mid : List Instr} (hop : op.isCommutative = true)
      (hr : r.isWork = true) (hsa : s ≠ .a) (hsr : s ≠ r) (hmid : AllComments mid)
      (hdead : isDead r rest = true) :
      Rewrite rest (.mov r .a :: .mov .a s :: (mid ++ [.alu op r])) (mid ++ [.alu op s])
  /-- A store is overwritten before it is read. -/
  | deadStore {address : Imm} {i j : Instr} {mid : List Instr}
      (hi : i = .sta address ∨ i = .shld address) (hj : j = i ∨ j = .shld address)
      (hmid : ∀ k ∈ mid, k.isBarrier = false ∧ (k.readsMemory && mayAlias k i) = false) :
      Rewrite rest (i :: (mid ++ [j])) (mid ++ [j])

/-! ## From rules to rewrites -/

/-- The window of a rule that searches backward: an anchor, instructions that the search has passed
over, and the trigger at its end. -/
theorem Rule.exists_of_fireAt?_backward {rule : Rule} {code after : List Instr} {pos : Nat}
    (hdirection : rule.direction = .backward) (h : rule.fireAt? code pos = some after) :
    ∃ front anchor mid trigger rest, code = front ++ anchor :: (mid ++ trigger :: rest) ∧
      rule.isTrigger trigger = true ∧ rule.isAnchor anchor trigger = true ∧
      (∀ i ∈ mid, Passed rule trigger i) ∧
      rule.fire? code { trigger := (front ++ anchor :: mid).length, anchor := some front.length } =
        some after := by
  rw [fireAt?] at h
  cases hpos : code[pos]? with
  | none => simp [hpos] at h
  | some trigger =>
    simp only [hpos] at h
    split at h
    next htrigger =>
      obtain ⟨w, hw, hfire⟩ := Option.bind_eq_some_iff.mp h
      simp only [window?, hdirection] at hw
      obtain ⟨n, hn, rfl⟩ := Option.map_eq_some_iff.mp hw
      obtain ⟨anchor, mid, hfound⟩ := foundBefore_of_anchorBefore? hn
      obtain ⟨hsplit, hlength⟩ := take_append_cons_drop hpos
      refine ⟨code.take n, anchor, mid, trigger, code.drop (pos + 1), ?_, htrigger,
        hfound.isAnchor, hfound.passed, ?_⟩
      · rw [← List.cons_append, ← List.append_assoc, ← hfound.take_eq, ← hsplit]
      · rw [← hfound.take_eq, hlength, hfound.length_take]
        exact hfire
    next => cases h

/-- The window of a rule that searches forward: the trigger, and behind it what the search has
found, which may be the end of the code. -/
theorem Rule.exists_of_fireAt?_forward {rule : Rule} {code after : List Instr} {pos : Nat}
    (hdirection : rule.direction = .forward) (h : rule.fireAt? code pos = some after) :
    ∃ front trigger rest pos?, code = front ++ trigger :: rest ∧ rule.isTrigger trigger = true ∧
      FoundAfter rule trigger rest pos? ∧
      rule.fire? code { trigger := front.length, anchor := pos? } = some after := by
  rw [fireAt?] at h
  cases hpos : code[pos]? with
  | none => simp [hpos] at h
  | some trigger =>
    simp only [hpos] at h
    split at h
    next htrigger =>
      obtain ⟨w, hw, hfire⟩ := Option.bind_eq_some_iff.mp h
      simp only [window?, hdirection] at hw
      obtain ⟨pos?, hn, rfl⟩ := Option.map_eq_some_iff.mp hw
      obtain ⟨hsplit, hlength⟩ := take_append_cons_drop hpos
      refine ⟨code.take pos, trigger, code.drop (pos + 1), pos?, hsplit, htrigger,
        foundAfter_of_anchorAfter? hn, ?_⟩
      rw [hlength]
      exact hfire
    next => cases h

section Edits

variable (front mid rest : List Instr) (anchor trigger : Instr)

/-- Removing the trigger of a window. -/
theorem eraseIdx_trigger :
    (front ++ anchor :: (mid ++ trigger :: rest)).eraseIdx (front ++ anchor :: mid).length =
      front ++ anchor :: (mid ++ rest) := by
  have h := eraseIdx_length_append (front ++ anchor :: mid) rest trigger
  simpa using h

theorem trigger_lt_length :
    (front ++ anchor :: mid).length < (front ++ anchor :: (mid ++ trigger :: rest)).length := by
  simp

theorem getElem?_trigger :
    (front ++ anchor :: (mid ++ trigger :: rest))[(front ++ anchor :: mid).length]? =
      some trigger := by
  have h : (front ++ anchor :: (mid ++ trigger :: rest)) =
      (front ++ anchor :: mid) ++ trigger :: rest := by simp
  rw [h, List.getElem?_append_right (Nat.le_refl _)]
  simp

theorem getElem?_anchor (tail : List Instr) :
    (front ++ anchor :: tail)[front.length]? = some anchor := by
  rw [List.getElem?_append_right (Nat.le_refl _)]
  simp

/-- Deadness after the trigger of a window is deadness in what follows it. -/
theorem isDeadAfter_trigger (r : Reg) :
    isDeadAfter (front ++ anchor :: (mid ++ trigger :: rest)) (front ++ anchor :: mid).length r =
      isDead r rest := by
  have h : (front ++ anchor :: (mid ++ trigger :: rest)) =
      ((front ++ anchor :: mid) ++ [trigger]) ++ rest := by simp
  have hlength : (front ++ anchor :: mid).length + 1 =
      ((front ++ anchor :: mid) ++ [trigger]).length := by
    rw [List.length_append, List.length_append, List.length_append]
    rfl
  rw [isDeadAfter, h, hlength, List.drop_left]

end Edits

/-- The stream is rewritten somewhere. -/
def Fires (code after : List Instr) : Prop :=
  ∃ front rest old new, Rewrite rest old new ∧ code = front ++ (old ++ rest) ∧
    after = front ++ (new ++ rest)

theorem Rewrite.fires {rest old new : List Instr} (h : Rewrite rest old new)
    (front : List Instr) : Fires (front ++ (old ++ rest)) (front ++ (new ++ rest)) :=
  ⟨front, rest, old, new, h, rfl, rfl⟩

/-- What is passed over in a search has a property that comments have, and that what does not end
the search has. -/
theorem forall_of_passed {rule : Rule} {trigger : Instr} {mid : List Instr} {Q : Instr → Prop}
    (hmid : ∀ i ∈ mid, Passed rule trigger i) (hcomment : ∀ text, Q (.comment text))
    (hspoils : ∀ i : Instr, i.isBarrier = false → rule.spoils i trigger = false → Q i) :
    ∀ i ∈ mid, Q i := by
  intro i hi
  rcases hmid i hi with hi | ⟨hbarrier, hi⟩
  · cases i with
    | comment text => exact hcomment text
    | _ => cases hi
  · exact hspoils i hbarrier hi

/-- A rule that asks for adjacent instructions passes over comments only. -/
theorem allComments_of_passed {rule : Rule} {trigger : Instr} {mid : List Instr}
    (hmid : ∀ i ∈ mid, Passed rule trigger i) (hspoils : rule.spoils = adjacent) :
    AllComments mid := by
  intro i hi
  rcases hmid i hi with hcomment | ⟨_, hi⟩
  · exact hcomment
  · rw [hspoils] at hi
    cases hi

/-- A rule without an edit that searches backward deletes its trigger. -/
theorem Rule.exists_of_fireAt?_delete {rule : Rule} {code after : List Instr} {pos : Nat}
    (hdirection : rule.direction = .backward) (hedit : rule.edit = none)
    (h : rule.fireAt? code pos = some after) :
    ∃ front anchor mid trigger rest, code = front ++ anchor :: (mid ++ trigger :: rest) ∧
      after = front ++ anchor :: (mid ++ rest) ∧ rule.isTrigger trigger = true ∧
      rule.isAnchor anchor trigger = true ∧ ∀ i ∈ mid, Passed rule trigger i := by
  obtain ⟨front, anchor, mid, trigger, rest, rfl, htrigger, hanchor, hmid, hfire⟩ :=
    exists_of_fireAt?_backward hdirection h
  simp only [fire?, hedit, trigger_lt_length, if_true, eraseIdx_trigger, Option.some.injEq] at hfire
  exact ⟨front, anchor, mid, trigger, rest, rfl, hfire.symm, htrigger, hanchor, hmid⟩

/-- A rule that removes two instructions has nothing but comments between them. -/
theorem Rule.exists_of_fireAt?_both {rule : Rule} {code after : List Instr} {pos : Nat}
    (hdirection : rule.direction = .backward) (hedit : rule.edit = some .both)
    (hspoils : rule.spoils = adjacent) (h : rule.fireAt? code pos = some after) :
    ∃ front anchor mid trigger rest, code = front ++ anchor :: (mid ++ trigger :: rest) ∧
      after = front ++ (mid ++ rest) ∧ rule.isTrigger trigger = true ∧
      rule.isAnchor anchor trigger = true ∧ AllComments mid := by
  obtain ⟨front, anchor, mid, trigger, rest, rfl, htrigger, hanchor, hmid, hfire⟩ :=
    exists_of_fireAt?_backward hdirection h
  simp only [fire?, hedit, Edit.both, removeBoth, trigger_lt_length, if_true, eraseIdx_trigger,
    eraseIdx_length_append, Option.some.injEq] at hfire
  exact ⟨front, anchor, mid, trigger, rest, rfl, hfire.symm, htrigger, hanchor,
    allComments_of_passed hmid hspoils⟩

variable {code after : List Instr} {pos : Nat}

/-- Here and in what follows, a rule that fires makes one of the rewrites: its trigger and its
anchor have certain forms, and what lies between them was passed over. -/
theorem fires_of_reloadAfterStore (h : reloadAfterStore.fireAt? code pos = some after) :
    Fires code after := by
  obtain ⟨front, anchor, mid, trigger, rest, rfl, rfl, htrigger, hanchor, hmid⟩ :=
    Rule.exists_of_fireAt?_delete rfl rfl h
  cases trigger with
  | lda address =>
    have hrewrite : Rewrite rest (anchor :: (mid ++ [.lda address])) (anchor :: mid) := by
      refine .reload ?_ ?_ ?_
      · cases anchor <;> first | cases hanchor | simpa [reloadAfterStore] using hanchor
      · exact forall_of_passed hmid (by simp [Instr.isBarrier, Instr.writes, Instr.effects])
          (by simp_all [reloadAfterStore])
      · exact forall_of_passed hmid (fun _ => rfl) (by simp_all [reloadAfterStore])
    simpa using hrewrite.fires front
  | _ => cases htrigger

theorem fires_of_pairReloadAfterStore (h : pairReloadAfterStore.fireAt? code pos = some after) :
    Fires code after := by
  obtain ⟨front, anchor, mid, trigger, rest, rfl, rfl, htrigger, hanchor, hmid⟩ :=
    Rule.exists_of_fireAt?_delete rfl rfl h
  cases trigger with
  | lhld address =>
    have hrewrite : Rewrite rest (anchor :: (mid ++ [.lhld address])) (anchor :: mid) := by
      refine .reloadPair ?_ ?_ ?_
      · cases anchor <;> first | cases hanchor | simpa [pairReloadAfterStore] using hanchor
      · exact forall_of_passed hmid (by simp [Instr.isBarrier, Instr.writes, Instr.effects])
          (by simp_all [pairReloadAfterStore])
      · exact forall_of_passed hmid (fun _ => rfl) (by simp_all [pairReloadAfterStore])
    simpa using hrewrite.fires front
  | _ => cases htrigger

theorem fires_of_repeatedImmediate (h : repeatedImmediate.fireAt? code pos = some after) :
    Fires code after := by
  obtain ⟨front, anchor, mid, trigger, rest, rfl, rfl, htrigger, hanchor, hmid⟩ :=
    Rule.exists_of_fireAt?_delete rfl rfl h
  have hanchor : anchor = trigger := by simpa [repeatedImmediate] using hanchor
  subst hanchor
  cases anchor with
  | mvi r value =>
    have hr : r ≠ .m := by simpa [repeatedImmediate] using htrigger
    have hkeeps : Keeps [r] mid :=
      forall_of_passed hmid (by simp [Instr.isBarrier, Instr.writes, Instr.effects])
        (by simp_all [repeatedImmediate, definedRegs])
    simpa using (Rewrite.repeatByte (v := value) hr hkeeps).fires front
  | lxi p value =>
    obtain ⟨⟨high, low⟩, hp⟩ := Option.isSome_iff_exists.mp htrigger
    have hkeeps : Keeps [high, low] mid :=
      forall_of_passed hmid (by simp [Instr.isBarrier, Instr.writes, Instr.effects])
        (by simp_all [repeatedImmediate, definedRegs])
    simpa using (Rewrite.repeatWord (v := value) hp hkeeps).fires front
  | _ => cases htrigger

theorem fires_of_copyBack (h : copyBack.fireAt? code pos = some after) :
    Fires code after := by
  obtain ⟨front, anchor, mid, trigger, rest, rfl, rfl, htrigger, hanchor, hmid⟩ :=
    Rule.exists_of_fireAt?_delete rfl rfl h
  cases trigger with
  | mov dst src =>
    have hregs : (dst ≠ .m ∧ src ≠ .m) ∧ dst ≠ src := by simpa [copyBack] using htrigger
    have hkeeps : Keeps [dst, src] mid :=
      forall_of_passed hmid (by simp [Instr.isBarrier, Instr.writes, Instr.effects])
        (by simp_all [copyBack])
    have hanchor : anchor = .mov src dst ∨ anchor = .mov dst src := by
      cases anchor with
      | mov x y =>
        have hpair : (x = src ∧ y = dst) ∨ (x = dst ∧ y = src) := by
          simpa [copyBack] using hanchor
        rcases hpair with ⟨rfl, rfl⟩ | ⟨rfl, rfl⟩
        · exact .inl rfl
        · exact .inr rfl
      | _ => cases hanchor
    simpa using (Rewrite.copy hanchor hregs.1.1 hregs.1.2 hkeeps).fires front
  | _ => cases htrigger

/-- A register is dead if nothing reads it before something overwrites it, or before the code ends.
This is what the search forward of the rule makes sure of. -/
theorem isDead_of_foundAfter {r : Reg} {trigger : Instr} {rest : List Instr} {pos? : Option Nat}
    (hregs : definedRegs trigger = [r]) (h : FoundAfter deadRegisterMove trigger rest pos?) :
    isDead r rest = true := by
  -- What is passed over is a comment, or it neither reads the register nor leaves the line.
  have hpassed (i : Instr) (hi : Passed deadRegisterMove trigger i) :
      i.isBarrier = false ∧ i.reads r = false := by
    rcases hi with hi | ⟨hbarrier, hi⟩
    · cases i with
      | comment _ => exact ⟨rfl, by simp [Instr.reads, Instr.effects]⟩
      | _ => cases hi
    · exact ⟨hbarrier, by simpa [deadRegisterMove, hregs] using hi⟩
  cases h with
  | atEnd passed =>
    induction rest with
    | nil => rfl
    | cons i rest ih =>
      obtain ⟨hbarrier, hreads⟩ := hpassed i (passed i List.mem_cons_self)
      simp [isDead, hbarrier, hreads, ih fun j hj => passed j (List.mem_cons_of_mem _ hj)]
  | @anchor mid rest anchor pos isAnchor unspoiled passed =>
    induction mid with
    | nil =>
      obtain ⟨hbarrier, hreads⟩ := hpassed anchor unspoiled
      have hwrites : anchor.writes r = true := by
        have := isAnchor
        simp_all [deadRegisterMove, Instr.overwrites]
      simp [isDead, hbarrier, hreads, hwrites]
    | cons i mid ih =>
      obtain ⟨hbarrier, hreads⟩ := hpassed i (passed i List.mem_cons_self)
      simp [isDead, hbarrier, hreads, ih fun j hj => passed j (List.mem_cons_of_mem _ hj)]

theorem fires_of_deadRegisterMove (h : deadRegisterMove.fireAt? code pos = some after) :
    Fires code after := by
  obtain ⟨front, trigger, rest, pos?, rfl, htrigger, hfound, hfire⟩ :=
    Rule.exists_of_fireAt?_forward rfl h
  have hafter : after = front ++ rest := by
    simpa [Rule.fire?, deadRegisterMove, eraseIdx_length_append] using hfire.symm
  subst hafter
  cases trigger with
  | mov r src =>
    have hdead : isDead r rest = true := isDead_of_foundAfter rfl hfound
    simpa using (Rewrite.dead (.inl ⟨src, rfl⟩) htrigger hdead).fires front
  | mvi r value =>
    have hdead : isDead r rest = true := isDead_of_foundAfter rfl hfound
    simpa using (Rewrite.dead (.inr ⟨value, rfl⟩) htrigger hdead).fires front
  | _ => cases htrigger

theorem set_anchor (front mid rest : List Instr) (anchor trigger i : Instr) :
    ((front ++ anchor :: (mid ++ trigger :: rest)).set front.length i).eraseIdx
      (front ++ anchor :: mid).length = front ++ i :: (mid ++ rest) := by
  have hlength : (front ++ anchor :: mid).length = (front ++ i :: mid).length := by simp
  rw [set_length_append, hlength, eraseIdx_trigger]

theorem set_trigger (front mid rest : List Instr) (anchor trigger i : Instr) :
    (front ++ anchor :: (mid ++ trigger :: rest)).set (front ++ anchor :: mid).length i =
      front ++ anchor :: (mid ++ i :: rest) := by
  have h := set_length_append (front ++ anchor :: mid) rest trigger i
  simpa only [List.append_assoc, List.cons_append] using h

theorem getElem?_second (front tail : List Instr) (i j : Instr) :
    (front ++ i :: j :: tail)[front.length + 1]? = some j := by
  rw [List.getElem?_append_right (Nat.le_add_right _ _)]
  simp

theorem eraseIdx_second (front tail : List Instr) (i j : Instr) :
    (front ++ i :: j :: tail).eraseIdx (front.length + 1) = front ++ i :: tail := by
  have h := eraseIdx_length_append (front ++ [i]) tail j
  simpa using h

theorem fires_of_immediateThroughAccumulator
    (h : immediateThroughAccumulator.fireAt? code pos = some after) : Fires code after := by
  obtain ⟨front, anchor, mid, trigger, rest, rfl, htrigger, hanchor, hmid, hfire⟩ :=
    Rule.exists_of_fireAt?_backward rfl h
  have hcomments := allComments_of_passed hmid rfl
  -- The trigger moves the accumulator to some other register.
  obtain ⟨dst, rfl, hdst⟩ : ∃ dst, trigger = .mov dst .a ∧ dst ≠ .a := by
    cases trigger with
    | mov dst src => cases src <;> simp_all [immediateThroughAccumulator]
    | _ => cases htrigger
  simp only [Rule.fire?, immediateThroughAccumulator, Edit.fuse, fuseMove, getElem?_trigger,
    getElem?_anchor, isDeadAfter_trigger, eraseIdx_trigger, eraseIdx_length_append,
    set_anchor] at hfire
  split at hfire
  next hdead =>
    split at hfire
    next value han =>
      cases han
      cases hfire
      simpa using (Rewrite.fuseByte (v := value) hdst hcomments hdead).fires front
    next src han =>
      cases han
      split at hfire
      next heq =>
        cases hfire
        subst heq
        simpa using (Rewrite.fuseBack (s := src) hcomments hdead).fires front
      next =>
        cases hfire
        simpa using (Rewrite.fuseMove (s := src) hdst hcomments hdead).fires front
    next => cases hfire
  next => cases hfire

theorem fires_of_exchangeFreshPair (h : exchangeFreshPair.fireAt? code pos = some after) :
    Fires code after := by
  obtain ⟨front, anchor, mid, trigger, rest, rfl, htrigger, hanchor, hmid, hfire⟩ :=
    Rule.exists_of_fireAt?_backward rfl h
  have hcomments := allComments_of_passed hmid rfl
  have htrigger : trigger = .xchg := by cases trigger <;> first | rfl | cases htrigger
  subst htrigger
  simp only [Rule.fire?, exchangeFreshPair, Edit.direct, loadExchanged, getElem?_anchor,
    trigger_lt_length, true_and, set_anchor] at hfire
  -- The anchor loads a pair that the exchange moves, and both of its halves are dead behind the
  -- exchange.
  split at hfire
  next p value han =>
    cases han
    split at hfire
    next => cases hfire
    next q hq =>
      split at hfire
      next hdead =>
        cases hfire
        rw [isPairDeadAfter] at hdead
        split at hdead
        next high low hp =>
          simp only [isDeadAfter_trigger, Bool.and_eq_true] at hdead
          simpa using
            (Rewrite.exchangeFresh (v := value) hq hp hcomments hdead.1 hdead.2).fires front
        next => cases hdead
      next => cases hfire
  next => cases hfire

theorem fires_of_doubleExchange (h : doubleExchange.fireAt? code pos = some after) :
    Fires code after := by
  obtain ⟨front, anchor, mid, trigger, rest, rfl, rfl, htrigger, hanchor, hmid⟩ :=
    Rule.exists_of_fireAt?_both rfl rfl rfl h
  have htrigger : trigger = .xchg := by cases trigger <;> first | rfl | cases htrigger
  subst htrigger
  have hanchor : anchor = .xchg := by cases anchor <;> first | rfl | cases hanchor
  subst hanchor
  simpa using (Rewrite.exchangeTwice hmid).fires front

theorem fires_of_pushPop (h : pushPop.fireAt? code pos = some after) : Fires code after := by
  obtain ⟨front, anchor, mid, trigger, rest, rfl, rfl, htrigger, hanchor, hmid⟩ :=
    Rule.exists_of_fireAt?_both rfl rfl rfl h
  cases trigger with
  | pop p =>
    have hanchor : anchor = .push p := by
      cases anchor <;> first | cases hanchor | simpa [pushPop] using hanchor
    subst hanchor
    simpa using (Rewrite.pushPop (p := p) hmid).fires front
  | _ => cases htrigger

theorem fires_of_incrementDecrement (h : incrementDecrement.fireAt? code pos = some after) :
    Fires code after := by
  obtain ⟨front, anchor, mid, trigger, rest, rfl, rfl, htrigger, hanchor, hmid⟩ :=
    Rule.exists_of_fireAt?_both rfl rfl rfl h
  cases trigger with
  | inx p =>
    have hanchor : anchor = .dcx p := by
      cases anchor <;> first | cases hanchor | simpa [incrementDecrement] using hanchor
    simpa using (Rewrite.upDown (.inl ⟨hanchor, rfl⟩) hmid).fires front
  | dcx p =>
    have hanchor : anchor = .inx p := by
      cases anchor <;> first | cases hanchor | simpa [incrementDecrement] using hanchor
    simpa using (Rewrite.upDown (.inr ⟨hanchor, rfl⟩) hmid).fires front
  | _ => cases htrigger

theorem fires_of_commuteOperands (h : commuteOperands.fireAt? code pos = some after) :
    Fires code after := by
  obtain ⟨front, anchor, mid, trigger, rest, rfl, htrigger, hanchor, hmid, hfire⟩ :=
    Rule.exists_of_fireAt?_backward rfl h
  have hcomments := allComments_of_passed hmid rfl
  obtain ⟨op, r, rfl, hop, hr⟩ :
      ∃ op r, trigger = .alu op r ∧ op.isCommutative = true ∧ r.isWork = true := by
    cases trigger with
    | alu op r => exact ⟨op, r, rfl, by simpa [commuteOperands] using htrigger⟩
    | _ => cases htrigger
  obtain ⟨s, rfl, hsa⟩ : ∃ s, anchor = .mov .a s ∧ s ≠ .a := by
    cases anchor with
    | mov dst s => cases dst <;> simp_all [commuteOperands]
    | _ => cases hanchor
  -- The copy of the accumulator stands right before the anchor, so there is something before it.
  rcases List.eq_nil_or_concat front with rfl | ⟨front, before, rfl⟩
  · cases hfire
  simp only [Rule.fire?, commuteOperands, Edit.commute, commuteOperand, getElem?_trigger,
    isDeadAfter_trigger, set_trigger] at hfire
  rw [List.concat_eq_append] at hfire ⊢
  simp only [List.append_assoc, List.singleton_append, List.length_append, List.length_singleton,
    getElem?_second, getElem?_anchor, eraseIdx_second, eraseIdx_length_append] at hfire
  split at hfire
  next hcond =>
    cases hfire
    obtain ⟨hbefore, hsr, _, hdead⟩ := hcond
    rw [Option.some.inj hbefore]
    simpa using (Rewrite.commute hop hr hsa hsr hcomments hdead).fires front
  next => cases hfire

theorem fires_of_deadStore (h : deadStore.fireAt? code pos = some after) : Fires code after := by
  obtain ⟨front, trigger, rest, pos?, rfl, htrigger, hfound, hfire⟩ :=
    Rule.exists_of_fireAt?_forward rfl h
  cases hfound with
  | atEnd => cases hfire
  | @anchor mid rest anchor pos isAnchor unspoiled passed =>
    have hafter : after = front ++ (mid ++ anchor :: rest) := by
      simpa [Rule.fire?, deadStore, Edit.store, removeStore, eraseIdx_length_append]
        using hfire.symm
    subst hafter
    have hmid : ∀ k ∈ mid, k.isBarrier = false ∧ (k.readsMemory && mayAlias k trigger) = false :=
      forall_of_passed passed (fun _ => ⟨rfl, rfl⟩) fun k hbarrier hk => ⟨hbarrier, hk⟩
    cases trigger with
    | sta address =>
      have hanchor : anchor = .sta address ∨ anchor = .shld address := by
        cases anchor <;> first | cases isAnchor | simpa [deadStore] using isAnchor
      simpa using (Rewrite.deadStore (.inl rfl) hanchor hmid).fires front
    | shld address =>
      have hanchor : anchor = .shld address := by
        cases anchor <;> first | cases isAnchor | simpa [deadStore] using isAnchor
      simpa using (Rewrite.deadStore (.inr rfl) (.inr hanchor) hmid).fires front
    | _ => cases htrigger

/-- Whatever a rule of the table does is a rewrite. The cases are the twelve rules, in the order of
the table. -/
theorem fires_of_fireAt? {rule : Rule} (hrule : rule ∈ rules)
    (h : rule.fireAt? code pos = some after) : Fires code after := by
  simp only [rules, List.mem_cons, List.not_mem_nil, or_false] at hrule
  rcases hrule with rfl | rfl | rfl | rfl | rfl | rfl | rfl | rfl | rfl | rfl | rfl | rfl
  · exact fires_of_reloadAfterStore h
  · exact fires_of_pairReloadAfterStore h
  · exact fires_of_repeatedImmediate h
  · exact fires_of_deadRegisterMove h
  · exact fires_of_copyBack h
  · exact fires_of_immediateThroughAccumulator h
  · exact fires_of_exchangeFreshPair h
  · exact fires_of_doubleExchange h
  · exact fires_of_pushPop h
  · exact fires_of_incrementDecrement h
  · exact fires_of_commuteOperands h
  · exact fires_of_deadStore h

/-! ## Induction over firings -/

section Induction

variable {I : List Instr → Prop}

/-- What every firing of a rule preserves, applying the rule from a position on preserves. -/
theorem Rule.applyFrom_induction {rule : Rule}
    (hfire : ∀ code after pos, I code → rule.fireAt? code pos = some after → I after)
    (hcode : I code) (pos : Nat) : I (rule.applyFrom code pos).2 := by
  fun_induction Rule.applyFrom rule code pos with
  | case1 code pos hpos after h fired result heq ih =>
    rw [heq] at ih
    exact ih (hfire code after pos hcode h)
  | case2 code pos hpos h ih => exact ih hcode
  | case3 code pos hpos => exact hcode

/-- What every firing of every rule preserves, applying a table of rules preserves. -/
theorem applyRules_induction {table : List Rule}
    (hfire : ∀ rule ∈ table, ∀ code after pos, I code → rule.fireAt? code pos = some after →
      I after)
    (hcode : I code) : I (applyRules code table).2 := by
  induction table generalizing code with
  | nil => exact hcode
  | cons rule rest ih =>
    have happly : I (rule.apply code).2 :=
      Rule.applyFrom_induction (hfire rule List.mem_cons_self) hcode 0
    exact ih (fun r hr => hfire r (List.mem_cons_of_mem _ hr)) happly

/-- What every rewrite preserves, the pass preserves: by induction on the firings of one rule, on
the table of rules, and on the rounds. -/
theorem optimize_induction
    (hfire : ∀ front rest old new, Rewrite rest old new → I (front ++ (old ++ rest)) →
      I (front ++ (new ++ rest)))
    (hcode : I code) : I (optimize code).2 := by
  have hrules {code : List Instr} (hcode : I code) : I (applyRules code rules).2 :=
    applyRules_induction (fun rule hrule code after pos hgood h => by
      obtain ⟨front, rest, old, new, hrewrite, rfl, rfl⟩ := fires_of_fireAt? hrule h
      exact hfire front rest old new hrewrite hgood) hcode
  have hpasses (passes : Nat) {code : List Instr} (hcode : I code) :
      I (runPasses passes code).2 := by
    induction passes generalizing code with
    | zero => exact hcode
    | succ passes ih =>
      have hafter := hrules hcode
      rw [runPasses]
      split
      next fired after happly =>
        rw [happly] at hafter
        split
        · exact hafter
        · exact ih hafter
  exact hpasses maxPasses hcode

end Induction

/-! ## What rewrites leave alone -/

theorem Keeps.not_barrier {regs : List Reg} {code : List Instr} (h : Keeps regs code) :
    ∀ i ∈ code, i.isBarrier = false :=
  fun i hi => (h i hi).1

theorem AllComments.not_barrier {code : List Instr} (h : AllComments code) :
    ∀ i ∈ code, i.isBarrier = false := by
  intro i hi
  have := h i hi
  cases i <;> first | rfl | cases this

variable {rest old new : List Instr}

/-- What holds of both ends of a window and in between holds of all of it. -/
theorem forall_mem_window {P : Instr → Prop} {i j : Instr} {mid : List Instr} (hi : P i)
    (hmid : ∀ k ∈ mid, P k) (hj : P j) : ∀ k ∈ i :: (mid ++ [j]), P k :=
  List.forall_mem_cons.mpr
    ⟨hi, List.forall_mem_append.mpr ⟨hmid, List.forall_mem_singleton.mpr hj⟩⟩

/-- No rewrite touches a jump, a call or a halt, neither in what it takes away nor in what it brings
in. -/
theorem Rewrite.not_barrier (h : Rewrite rest old new) :
    (∀ i ∈ old, i.isBarrier = false) ∧ ∀ i ∈ new, i.isBarrier = false := by
  -- The window has no barrier, since none can be passed over, and the rest is written down by the
  -- rule.
  cases h with
  | reload hanchor hmid | reloadPair hanchor hmid | copy hanchor _ _ hmid =>
    rcases hanchor with rfl | rfl <;>
      exact ⟨forall_mem_window rfl hmid.not_barrier rfl,
        List.forall_mem_cons.mpr ⟨rfl, hmid.not_barrier⟩⟩
  | repeatByte _ hmid | repeatWord _ hmid | fuseByte _ hmid | fuseMove _ hmid
  | exchangeFresh _ _ hmid =>
    exact ⟨forall_mem_window rfl hmid.not_barrier rfl,
      List.forall_mem_cons.mpr ⟨rfl, hmid.not_barrier⟩⟩
  | dead hi =>
    rcases hi with ⟨_, rfl⟩ | ⟨_, rfl⟩ <;>
      exact ⟨List.forall_mem_singleton.mpr rfl, List.forall_mem_nil _⟩
  | fuseBack hmid | exchangeTwice hmid | pushPop hmid =>
    exact ⟨forall_mem_window rfl hmid.not_barrier rfl, hmid.not_barrier⟩
  | upDown hij hmid =>
    rcases hij with ⟨rfl, rfl⟩ | ⟨rfl, rfl⟩ <;>
      exact ⟨forall_mem_window rfl hmid.not_barrier rfl, hmid.not_barrier⟩
  | commute _ _ _ _ hmid =>
    exact ⟨List.forall_mem_cons.mpr ⟨rfl, forall_mem_window rfl hmid.not_barrier rfl⟩,
      List.forall_mem_append.mpr ⟨hmid.not_barrier, List.forall_mem_singleton.mpr rfl⟩⟩
  | deadStore hi hj hmid =>
    have hmid' := fun k hk => (hmid k hk).1
    rcases hi with rfl | rfl <;> rcases hj with rfl | rfl <;>
      exact ⟨forall_mem_window rfl hmid' rfl,
        List.forall_mem_append.mpr ⟨hmid', List.forall_mem_singleton.mpr rfl⟩⟩

/-- What holds of the window of a rewrite holds of what the rewrite makes of it, if it holds of
instructions on registers alone. New are these, and the load of another pair with the immediate that
was loaded before. -/
theorem Rewrite.forall_mem {P : Instr → Prop} (h : Rewrite rest old new) (hold : ∀ i ∈ old, P i)
    (hmvi : ∀ r v, P (.mvi r v)) (hmov : ∀ r s, P (.mov r s)) (halu : ∀ op r, P (.alu op r))
    (hlxi : ∀ p q v, exchanged? p = some q → P (.lxi p v) → P (.lxi q v)) : ∀ i ∈ new, P i := by
  cases h with
  | dead => exact List.forall_mem_nil _
  | fuseByte => exact List.forall_mem_cons.mpr ⟨hmvi _ _, fun i hi => hold i (by simp [hi])⟩
  | fuseMove => exact List.forall_mem_cons.mpr ⟨hmov _ _, fun i hi => hold i (by simp [hi])⟩
  | exchangeFresh hpq =>
    refine List.forall_mem_cons.mpr ⟨?_, fun i hi => hold i (by simp [hi])⟩
    exact hlxi _ _ _ hpq (hold _ List.mem_cons_self)
  | commute =>
    refine List.forall_mem_append.mpr ⟨fun i hi => hold i (by simp [hi]), ?_⟩
    exact List.forall_mem_singleton.mpr (halu _ _)
  -- The other rewrites only leave instructions out.
  | _ =>
    intro i hi
    apply hold
    simp only [List.mem_cons, List.mem_append] at hi ⊢
    grind

/-- No rewrite begins with the clearing of the accumulator, which a jump may skip. -/
theorem Rewrite.exists_head (h : Rewrite rest old new) :
    ∃ i tail, old = i :: tail ∧ i ≠ .alu .xor .a := by
  cases h with
  | reload hanchor | reloadPair hanchor | copy hanchor =>
    rcases hanchor with rfl | rfl <;> exact ⟨_, _, rfl, nofun⟩
  | dead hi => rcases hi with ⟨_, rfl⟩ | ⟨_, rfl⟩ <;> exact ⟨_, _, rfl, nofun⟩
  | upDown hij => rcases hij with ⟨rfl, _⟩ | ⟨rfl, _⟩ <;> exact ⟨_, _, rfl, nofun⟩
  | deadStore hi => rcases hi with rfl | rfl <;> exact ⟨_, _, rfl, nofun⟩
  | _ => exact ⟨_, _, rfl, nofun⟩

end Accumulator.Peephole
