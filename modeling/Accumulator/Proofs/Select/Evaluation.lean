import Mathlib.Tactic.Common
import Accumulator.Proofs.Select.Closed
import Accumulator.Proofs.Select.Sound
import Accumulator.Proofs.Select.Statement

/-!
# Evaluating operators

A program that applies operators to literals and to earlier results, and assigns the last result to
a word variable, leaves the value of that result in the variable. This rests on the operands being
where the record says that they are read, which `placedFrom` computes along the selection.
-/

namespace Accumulator.Select

open Machine

variable {ρ : Valuation} {data : Word → Prop} {m₀ m : Machine} {memory : Memory} {s : State}
  {triples ts : List Triple} {t u : Triple} {pos : Nat} {root : Operand} {symbols : SymbolTable}

/-! ## Operands in their places -/

/-- A check of what a step yields, if it does not fail. -/
def onSuccess {α : Type} (x : Selecting α) (s : State) (check : α → State → Bool) : Bool :=
  match x s with
  | .ok a s' => check a s'
  | .error _ _ => true

/-- A check that was computed on the actual run holds wherever the step ends. -/
theorem after_of_onSuccess {α : Type} {x : Selecting α} {check : α → State → Bool}
    (h : onSuccess x s check = true) : After x s fun a s' => check a s' = true := by
  intro a s' hx
  simpa only [onSuccess, hx] using h

/-- Along the selection of the triples, every operation finds its operands in their places, and HL
holds the root when the last triple stores it. -/
def placedFrom (last : Triple) (root : Value) (pos : Nat) : List Triple → State → Bool
  | [], s =>
    onSuccess (do enter pos last; dropDeadSpill; loadHL root) s fun _ s' => s'.has (.pair .h) root
  | t :: rest, s =>
    onSuccess (do enter pos t; dropDeadSpill; place t) s fun o s' =>
      o.isPlaced s' && onSuccess (o.perform (.temp t.id)) s' fun _ s'' =>
        placedFrom last root (pos + 1) rest s''

/-! ## One operator -/

theorem SameTriple.trans {s₁ s₂ : State} (h : SameTriple s s₁) (h' : SameTriple s₁ s₂) :
    SameTriple s s₂ :=
  ⟨h'.triples.trans h.triples, h'.pinned.trans h.pinned, h'.pos.trans h.pos⟩

/-- Steps of the machine within a frame stay in the middle of the same triple. -/
theorem Frame.sameTriple {s' : State} {m' : Machine} (h : Frame s m s' m') : SameTriple s s' :=
  ⟨h.triples, h.pinned, h.pos⟩

/-- An operator is applied to operands that end up where they are read. The machine follows the
record to the operands, the operation has the value that the triple gives, and its instructions
leave that value where the record says. -/
theorem Arrives.after_operator (h : Arrives ρ data m₀ memory s m)
    (hdata : ∀ a, data a → a ∉ stackArea m₀.sp) (hprovided : ∀ a, Provided ρ s m₀ a → data a)
    (hplaceable : Placeable s t) (hop : isOperator t.op = true) (hinv : t.op = .inv → t.rhs = none)
    (hseparated : Separated t ρ)
    (hresult : ∃ z, t.combine? (t.operands.map fun o => ρ (.of o)) = some z ∧
      ρ (.temp t.id) = z.setWidth 16)
    (hplaced : After (place t) s fun o s' => o.isOffered s' = true) :
    After (selectTriple t) s fun _ s' => (∃ m', Arrives ρ data m₀ memory s' m') ∧
      SameTriple s s' ∧ s'.symbols = s.symbols := by
  -- First the operands: the machine follows, and what is left to do is offered.
  have hfollows := followsTo_place hplaceable s m ⟨rfl, rfl, rfl⟩ h.agrees h.matched
  rw [selectTriple_eq hop, after_bind]
  refine (hfollows.and ((returns_place hinv s).and hplaced)).mono ?_
  rintro o s₁ ⟨hleads, ⟨hvalid, hfits⟩, hoffered⟩
  obtain ⟨m₁, hleads⟩ := hleads hoffered
  have h₁ := h.leads hdata hprovided hleads
  have hprovided₁ : ∀ a, Provided ρ s₁ m₀ a → data a := fun a ha =>
    hprovided a (h.provided_iff.mp (hleads.frame.provided (h₁.provided_iff.mpr ha)))
  -- Then the operation: its result is the value that the triple has.
  have hvalue : ρ (.temp t.id) = o.result ρ := by
    obtain ⟨z, hz, hvalue⟩ := hresult
    obtain ⟨z', hz', heq⟩ := hfits ρ h.agrees.literal hseparated
    cases hz.symm.trans hz'
    rw [hvalue, heq]
  refine (h₁.perform hdata hprovided₁ hvalid hoffered hvalue).mono ?_
  rintro _ s₂ ⟨m₂, h₂, hframe⟩
  exact ⟨⟨m₂, h₂⟩, hleads.frame.sameTriple.trans hframe.sameTriple,
    hframe.symbols.trans hleads.frame.symbols⟩

/-! ## Literals and results -/

/-- A literal, or a result that is kept in registers. -/
def Plain (triples : List Triple) (v : Value) : Prop :=
  ∃ o, v = .of o ∧ o.var? = none ∧ isMemoryOperand triples o = false

/-- A triple applies an operator to literals and to results that are kept in registers, and the
valuation knows its outcome. -/
structure Applies (ρ : Valuation) (triples : List Triple) (t : Triple) : Prop where
  operator : isOperator t.op = true
  unary : t.op = .inv → t.rhs = none
  plainLhs : Plain triples (.of t.lhs)
  plainRhs : ∀ rhs, t.rhs = some rhs → Plain triples (.of rhs)
  separated : Separated t ρ
  result : ∃ z, t.combine? (t.operands.map fun o => ρ (.of o)) = some z ∧
    ρ (.temp t.id) = z.setWidth 16

/-- An operator reads its left operand and its right operand, if it has one. -/
theorem operands_of_isOperator (h : isOperator t.op = true) :
    t.operands = t.lhs :: t.rhs.toList := by
  unfold Triple.operands
  cases hop : t.op <;> rw [hop] at h <;> first | rfl | cases h

/-- An operator uses its operands for their values, never for their addresses. -/
theorem uses_of_isOperator (h : isOperator t.op = true) :
    uses t = t.operands.map fun o => (o, .value) := by
  unfold uses
  cases hop : t.op <;> rw [hop] at h <;> first | rfl | cases h

namespace Applies

variable (h : Applies ρ triples t)

include h

theorem plain_of_mem {o : Operand} (ho : o ∈ t.operands) : Plain triples (.of o) := by
  rw [operands_of_isOperator h.operator] at ho
  obtain rfl | hrhs := List.mem_cons.mp ho
  · exact h.plainLhs
  · exact h.plainRhs o (Option.mem_toList.mp hrhs)

/-- The values that are pinned for the triple are those of its operands; none of them is in
memory. -/
theorem operandValues_eq : operandValues triples t = t.operands.map .of := by
  rw [operandValues, uses_of_isOperator h.operator, List.flatMap_map, List.map_eq_flatMap]
  refine List.flatMap_congr fun o ho => ?_
  obtain ⟨_, ⟨⟩, -, hmemory⟩ := h.plain_of_mem ho
  simp only [hmemory]
  rfl

/-- So everything that is pinned is a literal or a result in registers. -/
theorem plain_of_mem_operandValues {v : Value} (hv : v ∈ operandValues triples t) :
    Plain triples v := by
  rw [h.operandValues_eq] at hv
  obtain ⟨o, ho, rfl⟩ := List.mem_map.mp hv
  exact h.plain_of_mem ho

/-- Operands of this kind name no variable, so every variable that the triple names is declared. -/
theorem names {name : String} (hname : t.Names name) : symbols.contains name = true := by
  rw [Triple.Names, ← operands_of_isOperator h.operator] at hname
  obtain ⟨_, ⟨⟩, hvar, -⟩ := h.plain_of_mem hname
  cases hvar

/-- The operands of the triple are pinned once it is the current one, and so they can be placed. -/
theorem placeable (htriples : s.triples = triples) (hpinned : s.pinned = operandValues triples t) :
    Placeable s t where
  pins o ho hmemory := by
    rw [hpinned] at ho
    obtain ⟨_, ⟨⟩, -, hnot⟩ := h.plain_of_mem_operandValues ho
    rw [State.isMemoryOperand, htriples, hnot] at hmemory
    cases hmemory
  lhs := by
    rw [hpinned, h.operandValues_eq, operands_of_isOperator h.operator]
    exact List.mem_map_of_mem List.mem_cons_self
  rhs rhs hrhs := by
    rw [hpinned, h.operandValues_eq, operands_of_isOperator h.operator]
    exact List.mem_map_of_mem (List.mem_cons_of_mem _ (Option.mem_toList.mpr hrhs))

/-- One round of the selection, for a triple that applies an operator: it becomes the current one, a
push that nothing needs is taken back, and the operator is applied. The check that the operands were
placed is passed on to the triples that follow. -/
theorem after_selectTriple (harrives : Arrives ρ data m₀ memory s m) (hs : Layered symbols s)
    (htriples : s.triples = triples) (hdata : ∀ a, data a → a ∉ stackArea m₀.sp)
    (hvariables : ∀ name a, m₀.addressOf? name = some a → data a ∧ data (a + 1))
    {check : State → Bool}
    (hplaced : onSuccess (do enter pos t; dropDeadSpill; place t) s (fun o s' =>
      o.isPlaced s' && onSuccess (o.perform (.temp t.id)) s' fun _ s'' => check s'') = true) :
    After (do enter pos t; dropDeadSpill; selectTriple t) s fun _ s' =>
      (∃ m', Arrives ρ data m₀ memory s' m') ∧ Layered symbols s' ∧ s'.triples = triples ∧
        check s' = true := by
  have hplaced := after_of_onSuccess hplaced
  have hlays : Lays symbols (selectTriple t) := lays_selectTriple fun _ hname => h.names hname
  simp only [enter, after_bind, after_modify] at hplaced ⊢
  subst htriples
  have hentered := harrives.enter pos (operandValues s.triples t)
    (fun v hv name hname => by
      obtain ⟨o, rfl, hvar, -⟩ := h.plain_of_mem_operandValues hv
      cases hname
      cases hvar)
    (fun v hv hmemory => by
      obtain ⟨o, rfl, -, hnot⟩ := h.plain_of_mem_operandValues hv
      cases hnot.symm.trans hmemory)
  have hs' : Layered symbols { s with pos, pinned := operandValues s.triples t } :=
    hs.congr rfl rfl rfl
  refine (((hentered.after_dropDeadSpill hdata hs').and (lays_dropDeadSpill _ hs')).and
    hplaced).mono ?_
  rintro _ s₁ ⟨⟨⟨⟨m₁, h₁⟩, hsame₁, -⟩, hs₁⟩, hplaced₁⟩
  -- The operands are no memory operands, so only the variables have to be provided.
  have hprovided : ∀ a, Provided ρ s₁ m₀ a → data a := by
    intro a ha
    cases ha with
    | low ha => exact (hvariables _ _ ha).1
    | high ha _ => exact (hvariables _ _ ha).2
    | operand hv hmemory =>
      rw [hsame₁.pinned] at hv
      obtain ⟨o, rfl, -, hnot⟩ := h.plain_of_mem_operandValues hv
      rw [State.isMemoryOperand, hsame₁.triples] at hmemory
      cases hnot.symm.trans hmemory
  have hoffered : After (place t) s₁ fun o s' => o.isOffered s' = true :=
    hplaced₁.mono fun o s' ho => Operation.isOffered_of_isPlaced (Bool.and_eq_true_iff.mp ho).1
  -- The check was run on the placed operation, and this is what the triple selects.
  have hchecked : After (selectTriple t) s₁ fun _ s' => check s' = true := by
    rw [selectTriple_eq h.operator, after_bind]
    exact hplaced₁.mono fun o s' ho => after_of_onSuccess (Bool.and_eq_true_iff.mp ho).2
  refine (((h₁.after_operator hdata hprovided (h.placeable hsame₁.triples hsame₁.pinned) h.operator
    h.unary h.separated h.result hoffered).and (hlays s₁ hs₁)).and hchecked).mono ?_
  rintro _ s₂ ⟨⟨⟨h₂, hsame₂, -⟩, hs₂⟩, hcheck⟩
  exact ⟨h₂, hs₂, hsame₂.triples.trans hsame₁.triples, hcheck⟩

end Applies

/-! ## The whole program -/

section Assign

variable {name : String} {a w : Word}

/-- For the last triple, the address of the variable and the value of the root are pinned. -/
theorem operandValues_moves (hmoves : Moves symbols name root u)
    (hroot : Plain triples (.of root)) :
    operandValues triples u = [.addr (.var name), .of root] := by
  obtain ⟨_, ⟨⟩, -, hmemory⟩ := hroot
  obtain ⟨_, _, _, _, _, _, _, _⟩ := u
  cases hmoves.op
  cases hmoves.lhs
  cases hmoves.rhs
  cases hmoves.direct
  simp only [operandValues, uses, List.flatMap_cons, List.flatMap_nil, Option.toList,
    List.map_cons, List.map_nil, hmemory]
  rfl

/-- The code leaves the word at the address, and the stack as it was. -/
def Leaves (data : Word → Prop) (m₀ : Machine) (a w : Word) (code : List Instr) : Prop :=
  ∃ m, Walks data code m₀ m ∧ m.sp = m₀.sp ∧ m.addresses = m₀.addresses ∧ m.memory.readWord a = w

/-- The code leaves the word at the address, but for the save slot. -/
def Finishes (data : Word → Prop) (m₀ : Machine) (a w : Word) (s : State) : Prop :=
  ∃ m, Walks data s.code m₀ m ∧ s.stackBase m = m₀.sp ∧ m.addresses = m₀.addresses ∧
    m.memory.readWord a = w

variable (ha : m₀.addressOf? name = some a) (hdata : ∀ a, data a → a ∉ stackArea m₀.sp)
  (hvariables : ∀ name a, m₀.addressOf? name = some a → data a ∧ data (a + 1))

include ha hdata hvariables

/-- At the end the save slot is settled. If a push is left in the code it is taken back, and what
the code leaves in memory stays. -/
theorem Finishes.after_settleStack (h : Finishes data m₀ a w s) (hs : Layered symbols s) :
    After settleStack s fun _ s' => Leaves data m₀ a w s'.code := by
  obtain ⟨m, hwalks, hbase, haddresses, hword⟩ := h
  simp only [settleStack, after_bind, after_get]
  split
  next hspill =>
    refine (after_pure _).mpr ⟨m, hwalks, ?_, haddresses, hword⟩
    rw [← hbase, State.stackBase, hspill]
    rfl
  next slot hspill =>
    refine after_ite (fun _ => after_reject _) fun hslot => (after_set _).mpr ?_
    obtain ⟨memory, hwalks', hsp, hlifted⟩ :=
      hs.walks_erase hspill (Bool.eq_false_iff.mpr hslot) hdata hwalks hbase
    refine ⟨m.lift memory, hwalks', hsp, haddresses, ?_⟩
    obtain ⟨hlow, hhigh⟩ := hvariables name a ha
    rw [← hword, Memory.readWord, Memory.readWord]
    exact congrArg₂ (· ++ ·) (hlifted.outside _ (hdata _ hhigh)) (hlifted.outside _ (hdata _ hlow))

omit hdata in
/-- HL holds the outcome and is stored. The word at the address of the variable is then the value of
the root. -/
theorem Arrives.finishes {s' : State} {v : Value} (h : Arrives ρ data m₀ memory s m)
    (hhas : s.has (.pair .h) v = true)
    (hcode : s'.code = s.code ++ [.shld (.ofSymbol name)]) (hspill : s'.spill = s.spill) :
    Finishes data m₀ a (ρ v) s' := by
  have himm : m.imm (.ofSymbol name) = .ok a := by
    simp only [Imm.ofSymbol, imm, addressOf?, h.addresses]
    rw [addressOf?] at ha
    simp [ha]
  have hstep : m.step (.shld (.ofSymbol name)) = .ok (m.storeWord a m.hl) := by
    simp only [step, execute, himm]
    rfl
  obtain ⟨hlow, hhigh⟩ := hvariables name a ha
  refine ⟨m.storeWord a m.hl, hcode ▸ h.walks.append (.single rfl ?_ hstep), ?_, h.addresses, ?_⟩
  · intro _ b hb
    have hcell : b = a ∨ b = a + 1 := by
      simpa [touches, loads, storeCells_shld, immAddress?, himm, Except.toOption,
        wordCells] using hb
    obtain rfl | rfl := hcell
    · exact hlow
    · exact hhigh
  · rw [← h.base, State.stackBase, State.stackBase, hspill]
    rfl
  · rw [← pair_of_has h.agrees hhas]
    exact Memory.readWord_writeWord_self _ _ _

variable (hmoves : Moves symbols name root u) (hword : symbols.widthOf name = .word)
  (hroot : Plain triples (.of root)) (hname : symbols.contains name = true)

include hmoves hword hroot hname

/-- The last triple stores the root. The root is loaded into HL, where the check finds it, and the
whole of HL is stored. -/
theorem after_selectLast (harrives : Arrives ρ data m₀ memory s m) (hs : Layered symbols s)
    (htriples : s.triples = triples) (hplaced : placedFrom u (.of root) pos [] s = true) :
    After (do enter pos u; dropDeadSpill; selectTriple u) s fun _ s' =>
      Finishes data m₀ a (ρ (.of root)) s' ∧ Layered symbols s' := by
  have hplaced := after_of_onSuccess hplaced
  have hsymbols := hs.symbols_eq
  simp only [enter, after_bind, after_modify] at hplaced ⊢
  subst htriples
  have hvalues := operandValues_moves hmoves hroot
  obtain ⟨_, ⟨⟩, hvar, hmemory⟩ := hroot
  -- The only variable that the last triple names is its target.
  have hlays : Lays symbols (selectTriple u) := by
    refine lays_selectTriple fun other hother => ?_
    rw [Triple.Names, hmoves.lhs, hmoves.rhs] at hother
    obtain ⟨⟨⟩⟩ | hother := List.mem_cons.mp hother
    · exact hname
    · cases List.mem_singleton.mp hother
      cases hvar
  have hentered := harrives.enter pos (operandValues s.triples u)
    (fun v hv name' hname' => by
      rw [hvalues] at hv
      obtain rfl | rfl := List.mem_pair.mp hv
      · cases hname'
        exact ⟨a, ha⟩
      · cases hname'
        cases hvar)
    (fun v hv hoperand => by
      rw [hvalues] at hv
      obtain rfl | rfl := List.mem_pair.mp hv
      · cases hoperand
      · rw [State.isMemoryOperand] at hoperand
        cases hmemory.symm.trans hoperand)
  have hs' : Layered symbols { s with pos, pinned := operandValues s.triples u } :=
    hs.congr rfl rfl rfl
  refine (((hentered.after_dropDeadSpill hdata hs').and (lays_dropDeadSpill _ hs')).and
    hplaced).mono ?_
  rintro _ s₁ ⟨⟨⟨⟨m₁, h₁⟩, hsame₁, hsymbols₁⟩, hs₁⟩, hplaced₁⟩
  refine After.and ?_ (hlays s₁ hs₁)
  have hpinned : s₁.pinned = [.addr (.var name), .of root] := hsame₁.pinned.trans hvalues
  have hmemory₁ : s₁.isMemoryOperand root = false := by
    rw [State.isMemoryOperand, hsame₁.triples]
    exact hmemory
  -- The root is not in memory, so there is no address to be pinned.
  have hpins : s₁.PinsAddresses := by
    intro o ho hmemory'
    rw [hpinned] at ho
    obtain hno | ⟨⟨⟩⟩ := List.mem_pair.mp ho
    · cases hno
    · cases hmemory₁.symm.trans hmemory'
  have hprovided : ∀ a, Provided ρ s₁ m₀ a → data a := by
    intro a ha
    cases ha with
    | low ha => exact (hvariables _ _ ha).1
    | high ha _ => exact (hvariables _ _ ha).2
    | operand hv hmemory' =>
      rw [hpinned] at hv
      obtain rfl | rfl := List.mem_pair.mp hv
      · cases hmemory'
      · cases hmemory₁.symm.trans hmemory'
  have hmoves₁ : Moves s₁.symbols name root u := by rwa [hs₁.symbols_eq]
  have hwidth : s₁.symbols.widthOf name = .word := by rwa [hs₁.symbols_eq]
  rw [hmoves₁.selectTriple_eq]
  simp only [storeVariable, after_bind, after_get, hwidth, after_emit]
  have htracks := tracks_loadHL h₁.agrees h₁.matched hpins (v := .of root) (by rw [hpinned]; simp)
  refine (After.and htracks hplaced₁).mono ?_
  rintro _ s₂ ⟨⟨m₂, hleads₂, -⟩, hhas⟩
  have h₂ := h₁.leads hdata hprovided hleads₂
  -- The record is changed after the store, but the code is not.
  simp only [forgetStale, after_bind, after_get, after_record]
  refine after_ite (fun _ => (after_record _).mpr ?_) (fun _ => (after_pure _).mpr ?_)
  · exact h₂.finishes ha hvariables hhas rfl rfl
  · exact h₂.finishes ha hvariables hhas rfl rfl

/-- All triples, by induction: what has arrived before an operator arrives after it. The check runs
along with the selection, and at the end the last triple stores the root. -/
theorem after_selectFrom (hts : ∀ t ∈ ts, Applies ρ triples t)
    (harrives : Arrives ρ data m₀ memory s m) (hs : Layered symbols s)
    (htriples : s.triples = triples)
    (hplaced : placedFrom u (.of root) pos ts s = true) :
    After (selectFrom pos (ts ++ [u])) s fun _ s' =>
      Finishes data m₀ a (ρ (.of root)) s' ∧ Layered symbols s' := by
  induction ts generalizing pos s m with
  | nil =>
    have hlast := after_selectLast ha hdata hvariables hmoves hword hroot hname harrives hs htriples
      hplaced
    simp only [List.nil_append, selectFrom, after_bind, after_modify] at hlast ⊢
    refine hlast.mono fun _ s₁ h₁ => h₁.mono fun _ s₂ h₂ => h₂.mono fun _ s₃ h₃ => ?_
    exact ⟨h₃.1, h₃.2.congr rfl rfl rfl⟩
  | cons t rest ih =>
    obtain ⟨happlies, hrest⟩ := List.forall_mem_cons.mp hts
    have hfirst := happlies.after_selectTriple harrives hs htriples hdata hvariables hplaced
    simp only [List.cons_append, selectFrom, after_bind] at hfirst ⊢
    refine hfirst.mono fun _ s₁ h₁ => h₁.mono fun _ s₂ h₂ => h₂.mono ?_
    rintro _ s₃ ⟨⟨m₃, h₃⟩, hs₃, htriples₃, hplaced₃⟩
    exact ih hrest h₃ hs₃ htriples₃ hplaced₃

end Assign

end Accumulator.Select
