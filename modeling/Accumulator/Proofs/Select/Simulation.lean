import Mathlib.Tactic.Common
import Accumulator.Proofs.Select.Evaluation
import Accumulator.Proofs.Select.Store
import Accumulator.Proofs.Select.Truthful
import Accumulator.Proofs.Select.Valuation
import Accumulator.Proofs.Statement.Scalar

/-!
# Selected code follows the triples

Code is selected triple by triple, and triples are carried out one by one over a store. If the
machine has the data of the store before a triple, and the operands end up where the selected
operation reads them (`isReady`), then it has the data of the store after the triple. By induction
this holds along a program (`after_selectFrom`).
-/

namespace Accumulator

namespace Triple

variable {symbols : SymbolTable} {triples rest : List Triple} {σ σ' final : Store} {t : Triple}
  {scope : List Nat} {widths : Nat → Width} {guard : Store → Triple → Prop}

/-- The results in a store are those in scope. -/
def ResultsIn (scope : List Nat) (σ : Store) : Prop :=
  ∀ j, (∃ r, σ.results j = some r) ↔ j ∈ scope

/-- A step adds the result of its own triple and no other, so results stay those of the triples in
scope. -/
theorem ResultsIn.step (h : ResultsIn scope σ) (hstep : t.step symbols σ = some σ') :
    ResultsIn (nextScope true scope t) σ' := by
  intro j
  rcases step_cases hstep with ⟨hop, _, _, rfl⟩ | ⟨hop, r, _, rfl⟩
  · rw [nextScope, if_pos hop, if_pos rfl]
    exact h j
  · rw [nextScope_of_ne hop, List.mem_cons, ← h j, Store.record]
    dsimp only
    split
    next hj => exact ⟨fun _ => .inl hj, fun _ => ⟨r, rfl⟩⟩
    next hj => exact ⟨.inr, fun hor => hor.resolve_left hj⟩

/-- Results do not change once they are there: every triple has its own number, and each is carried
out once. So a value that an earlier store has is that of the last store. -/
theorem Runs.extends (h : Orderly symbols true scope widths rest) (hresults : ResultsIn scope σ)
    (hruns : Runs symbols guard rest σ final) : σ.Extends final := by
  induction hruns generalizing scope widths with
  | nil σ => exact fun _ _ hr => hr
  | @cons t rest σ σ₁ final _ hstep _ ih =>
    intro j r hr
    refine ih h.tail (hresults.step hstep) j r ?_
    have hne : j ≠ t.id := fun hj =>
      h.fresh t List.mem_cons_self (hj ▸ (hresults j).mp ⟨r, hr⟩)
    rwa [results_of_step hstep hne]

/-- An outcome fits in the width of the result; a truth value fits in a byte whatever the width of
the operands. -/
theorem narrow_combine? {values : List Word} {z : BitVec t.width.bits} (hop : t.op ≠ .address)
    (hz : t.combine? values = some z) : t.resultWidth.narrow (z.setWidth 16) = z.setWidth 16 := by
  by_cases hcomparison : t.op.isComparison = true
  · obtain ⟨b, rfl⟩ : ∃ b, z = truth b := by
      rcases values with _ | ⟨x, _ | ⟨y, _ | _⟩⟩
      · cases hz
      · cases hop' : t.op <;> rw [hop'] at hcomparison <;> cases hcomparison
        all_goals simp [combine?, hop'] at hz
      · cases hop' : t.op <;> rw [hop'] at hcomparison <;> cases hcomparison
        all_goals
          simp only [combine?, hop', Op.evaluate?, Op.onBits?, Option.some.injEq] at hz
          exact ⟨_, hz.symm⟩
      · cases hz
    simp only [resultWidth, hcomparison, if_true]
    cases t.width <;> cases b <;> rfl
  · simp only [resultWidth, hcomparison, hop, if_false]
    exact Width.narrow_extend _ _

end Triple

/-- The values of operands that have one are the same in a store with more results, so the operands
of a triple can be read in the last store. -/
theorem Store.Extends.mapM_value? {symbols : SymbolTable} {σ final : Store} (h : σ.Extends final)
    {os : List Operand} {values : List Word}
    (hvalues : os.mapM (·.value? symbols σ) = some values) :
    os.map (fun o => (σ.onward final).valuation symbols (.of o)) = values := by
  induction os generalizing values with
  | nil => simpa using hvalues
  | cons o rest ih =>
    simp only [List.mapM_cons, Option.bind_eq_bind, Option.bind_eq_some_iff, Option.pure_def,
      Option.some.injEq] at hvalues
    obtain ⟨w, hw, ws, hws, rfl⟩ := hvalues
    rw [List.map_cons, h.value? hw, ih hws]

namespace Select

open Machine

variable {symbols : SymbolTable} {triples rest : List Triple} {σ σ' final : Store} {t : Triple}
  {m₀ m : Machine} {s : State}

/-- What is known of the program, of the results in the end and of the machine at the start. -/
structure Hosted (symbols : SymbolTable) (triples : List Triple) (final : Store) (m₀ : Machine) :
    Prop where
  separate : symbols.Separate
  apart : ∀ a, symbols.IsData a → a ∉ stackArea m₀.sp
  hosts : m₀.Hosts symbols
  known : Triple.Known symbols triples final.results
  widths : ∀ t ∈ triples, ∃ widths, t.width = t.widthIn symbols widths
  names : ∀ t ∈ triples, ∀ name, t.Names name → symbols.contains name = true
  /-- No `>=` compares bytes with a literal on the left. -/
  comparable : ∀ t ∈ triples, t.op = .ge → t.width = .byte → t.lhs.isConst = false

/-- The code so far has brought the data of the store about. -/
abbrev Arrived (symbols : SymbolTable) (final : Store) (m₀ : Machine) (σ : Store) (s : State)
    (m : Machine) : Prop :=
  Arrives ((σ.onward final).valuation symbols) symbols.IsData m₀ σ.memory s m

/-- A triple that is carried out next. -/
structure Next (symbols : SymbolTable) (triples : List Triple) (final σ σ' : Store) (t : Triple) :
    Prop where
  mem : t ∈ triples
  allowed : t.Allowed symbols σ
  step : t.step symbols σ = some σ'
  results : ∀ j ∈ t.refs, ∃ r, σ.results j = some r
  before : σ.Extends final
  after : σ'.Extends final

/-- What the selector pins for a triple are values and addresses of its own operands. -/
theorem mem_of_mem_operandValues {v : Value} (h : v ∈ operandValues triples t) :
    v.operand ∈ t.lhs :: t.rhs.toList := by
  simp only [operandValues, List.mem_flatMap] at h
  obtain ⟨⟨o, role⟩, huse, hv⟩ := h
  have ho : v.operand = o := by
    cases role <;> dsimp only at hv <;> first | (split at hv) | skip
    all_goals
      simp only [List.mem_cons, List.not_mem_nil, or_false] at hv
      rcases hv with rfl | rfl <;> rfl
  rw [ho]
  unfold uses at huse
  cases hop : t.op <;> simp [hop, Triple.operands] at huse ⊢ <;> grind

section Entered

variable (hsetting : Hosted symbols triples final m₀) (hnext : Next symbols triples final σ σ' t)

include hsetting hnext

/-- An operand that stays in memory is part of a variable, and still there. The guard of the run
says that no assignment since has overwritten what the element or the pointer gave. -/
theorem exists_memoryOperand {v : Value} (hv : v ∈ operandValues triples t)
    (hmemory : isMemoryOperand triples v.operand = true) :
    symbols.IsData ((σ.onward final).valuation symbols (.addr v.operand)) ∧
      σ.memory.read ((σ.onward final).valuation symbols (.addr v.operand)) =
        Side.low.part ((σ.onward final).valuation symbols (.of v.operand)) := by
  have hmem := mem_of_mem_operandValues hv
  cases hoperand : v.operand with
  | const | var =>
    rw [hoperand] at hmemory
    cases hmemory
  | temp id =>
    rw [hoperand] at hmem hmemory
    have href : id ∈ t.refs := Triple.mem_refs.mpr (Triple.refersTo_of_mem hmem)
    obtain ⟨r, hr⟩ := hnext.results id href
    -- Only the result of an element or of a pointer stays in memory. Its place is that of the
    -- source, and the guard keeps what is there current.
    simp only [isMemoryOperand] at hmemory
    split at hmemory
    next u hfind =>
      obtain rfl : u.id = id := by simpa using List.find?_some hfind
      have hop : u.op = .index ∨ u.op = .deref := by
        simp only [Bool.or_eq_true, Bool.and_eq_true, decide_eq_true_eq] at hmemory
        tauto
      obtain ⟨p, hp, -, hdata⟩ := hsetting.known.source u (List.mem_of_find?_eq_some hfind) hop r
        (hnext.before _ r hr)
      have hplace : (Operand.temp u.id).place? symbols σ = some p := by
        rw [Operand.place?, hr]
        exact hp
      have hvalue : (Operand.temp u.id).value? symbols σ = some r.value := by
        rw [Operand.value?, hr]
        rfl
      rw [hnext.before.place? hplace, hnext.before.value? hvalue,
        ← hnext.allowed.current u.id href r p hr hp, Place.low_part_read]
      exact ⟨hdata _ (by cases hw : p.width <;> simp [Place.cells, hw]), rfl⟩
    next => cases hmemory

/-- The next triple is entered. Its operands are pinned, and those among them that stay in memory
are found there. -/
theorem Arrives.entered {pos : Nat} (h : Arrived symbols final m₀ σ { s with pinned := [] } m)
    (htriples : s.triples = triples) :
    Arrived symbols final m₀ σ { s with pos, pinned := operandValues s.triples t } m := by
  subst htriples
  refine Arrives.enter h pos (operandValues s.triples t) (fun v hv name hname => ?_)
    fun v hv hmemory => ?_
  · have hnames : t.Names name := by
      rw [Triple.Names, ← hname]
      exact mem_of_mem_operandValues hv
    have hcontains := hsetting.names t hnext.mem name hnames
    obtain ⟨p, hp⟩ := SymbolTable.exists_place? hcontains
    obtain ⟨_, _, haddress, _⟩ := SymbolTable.place?_eq_some hp
    exact ⟨_, (hsetting.hosts.addressOf? name).trans haddress⟩
  · obtain ⟨hdata, hread⟩ := exists_memoryOperand hsetting hnext hv hmemory
    refine ⟨?_, (h.contents _ hdata).trans hread⟩
    rw [h.base]
    exact hsetting.apart _ hdata

/-- The selector reads the data only: the variables by name, and operands in memory at addresses
that belong to variables. -/
theorem isData_of_provided (hsymbols : s.symbols = symbols) (htriples : s.triples = triples)
    (hpinned : s.pinned = operandValues triples t) {a : Word}
    (ha : Provided ((σ.onward final).valuation symbols) s m₀ a) : symbols.IsData a := by
  have hplace {name : String} {a : Word} (ha : m₀.addressOf? name = some a) :
      symbols.place? name = some { address := a, width := symbols.widthOf name } :=
    SymbolTable.place?_of_addressOf? ((hsetting.hosts.addressOf? name).symm.trans ha)
  have hdata {name : String} {p : Place} (hp : symbols.place? name = some p) {a : Word}
      (ha : a ∈ p.cells) : symbols.IsData a :=
    ⟨name, SymbolTable.place?_subset_storage hsetting.separate hp a ha⟩
  cases ha with
  | @low name a ha =>
    exact hdata (hplace ha) (by cases h : symbols.widthOf name <;> simp [Place.cells])
  | @high name a ha hword =>
    have hwidth : symbols.widthOf name = .word := by
      subst hsymbols
      cases hw : s.symbols.widthOf name with
      | byte => exact absurd (decide_eq_true hw) (Bool.eq_false_iff.mp hword)
      | word => rfl
    exact hdata (hplace ha) (by simp [Place.cells, hwidth])
  | operand hv hmemory =>
    rw [hpinned] at hv
    rw [State.isMemoryOperand, htriples] at hmemory
    exact (exists_memoryOperand hsetting hnext hv hmemory).1

end Entered

/-! ## Where operands are read -/

/-- An operand that is used as a value is pinned as one. -/
theorem mem_operandValues_of_value {o : Operand} (h : (o, .value) ∈ uses t) :
    .of o ∈ operandValues triples t := by
  rw [operandValues, List.mem_flatMap]
  refine ⟨_, h, ?_⟩
  dsimp only
  split <;> exact List.mem_cons_self

/-- An operand that is used as an address or a target has its address pinned. -/
theorem mem_operandValues_of_address {o : Operand}
    (h : (o, .address) ∈ uses t ∨ (o, .target) ∈ uses t) : .addr o ∈ operandValues triples t := by
  rw [operandValues, List.mem_flatMap]
  obtain h | h := h
  · exact ⟨_, h, List.mem_singleton_self _⟩
  · exact ⟨_, h, List.mem_singleton_self _⟩

/-- A literal that does not change when it is cut down to a width. Other operands have a width. -/
def fitsLiteral (w : Width) : Operand → Bool
  | .const c => decide (w.narrow (BitVec.ofInt 16 c) = BitVec.ofInt 16 c)
  | _ => true

/-- What is stored is recorded rightly afterwards: a literal that is cut down is in no pair, and a
variable that may have changed is in no register. -/
def Storing.isSafe (t : Triple) (rhs : Operand) (o : Storing) (s : State) : Bool :=
  (t.width = .word || o.width = .byte) &&
    (fitsLiteral o.width rhs ||
      RegisterFile.searchOrder.all fun p => s.regs.pairValue? p ≠ some (.of rhs)) &&
    (rhs.var?.isNone || (!t.throughPointer && t.lhs.var?.isSome) ||
      !isStale s.triples (written? s.triples t) (.of rhs) ||
      (o.width = .byte && s.widthOf (.of rhs) = .byte) ||
      Reg.all.all fun r => (s.regs.get r).value? ≠ some (.of rhs))

/-- The operands of a triple end up where they are read, and what is recorded stays right. -/
def isReady (t : Triple) (s : State) : Bool :=
  if t.op = .assign then
    t.rhs.all fun rhs => onSuccess (placeStore t (.of rhs)) s fun o s' =>
      (o.reads (targetValue t) (.of rhs)).all (fun read => s'.has read.1 read.2) &&
        o.isSafe t rhs (o.apply s')
  else if t.op = .inc ∨ t.op = .dec then
    if t.width = .byte then
      onSuccess (loadForChange (.of t.lhs)) s fun _ s' => s'.has (.reg .a) (.of t.lhs)
    else
      onSuccess (loadHLForChange (.of t.lhs)) s fun _ s' => s'.has (.pair .h) (.of t.lhs)
  else if t.op = .index then
    t.rhs.all fun position => position.isConst ||
      onSuccess (loadHLForChange (.of position)) s fun _ s' => s'.has (.pair .h) (.of position)
  else if t.op = .deref then
    onSuccess (loadHLForChange (.of t.lhs)) s fun _ s' => s'.has (.pair .h) (.of t.lhs)
  else if t.op = .address then
    true
  else
    onSuccess (place t) s fun o s' => o.isOffered s'

/-- Along the selection every triple finds its operands. -/
def readyFrom (pos : Nat) : List Triple → State → Bool
  | [], _ => true
  | t :: rest, s =>
    onSuccess (do enter pos t; dropDeadSpill) s fun _ s' =>
      isReady t s' && onSuccess (selectTriple t) s' fun _ s'' => readyFrom (pos + 1) rest s''

/-! ## Triples with a result -/

/-- A triple that is no assignment has a result, and it is the one that the last store has for
it. -/
theorem Next.exists_result (h : Next symbols triples final σ σ' t) (hop : t.op ≠ .assign) :
    ∃ r, t.result? symbols σ = some r ∧ σ' = σ.record t.id r ∧ final.results t.id = some r := by
  obtain ⟨hassign, -⟩ | ⟨-, r, hr, rfl⟩ := Triple.step_cases h.step
  · exact absurd hassign hop
  · exact ⟨r, hr, rfl, h.after t.id r (if_pos rfl)⟩

/-- The outcome of an operator or a count is the value of the triple. This is what the selected code
has to leave. -/
theorem Next.exists_outcome (h : Next symbols triples final σ σ' t)
    (hop : isOperator t.op = true ∨ t.op = .inc ∨ t.op = .dec) :
    ∃ z, t.combine? (t.operands.map fun o => (σ.onward final).valuation symbols (.of o)) = some z ∧
      (σ.onward final).valuation symbols (.temp t.id) = z.setWidth 16 := by
  have hassign : t.op ≠ .assign := by rintro heq; simp [heq, isOperator] at hop
  have haddress : t.op ≠ .address := by rintro heq; simp [heq, isOperator] at hop
  obtain ⟨r, hr, -, hfinal⟩ := h.exists_result hassign
  have hresult : t.result? symbols σ = (t.operation? symbols σ).map fun value => { value } := by
    unfold Triple.result?
    cases hop' : t.op <;> simp [hop', isOperator] at hop ⊢
  obtain ⟨value, hvalue, rfl⟩ := Option.map_eq_some_iff.mp (hresult.symm.trans hr)
  simp only [Triple.operation?, Option.bind_eq_bind, Option.bind_eq_some_iff, Option.pure_def,
    Option.some.injEq] at hvalue
  obtain ⟨values, hvalues, z, hz, rfl⟩ := hvalue
  rw [h.before.mapM_value? hvalues]
  refine ⟨z, hz, ?_⟩
  rw [← Triple.narrow_combine? haddress hz]
  simp only [Value.temp, Store.valuation, Operand.value?, Store.onward, hfinal, Option.map_some,
    Option.getD_some]

/-- An element or a pointee has a place, and the last store has the address of that place and what
is there now. -/
theorem Next.place (h : Next symbols triples final σ σ' t) (hop : t.op = .index ∨ t.op = .deref) :
    ∃ p, t.source? symbols σ = some p ∧
      (σ.onward final).valuation symbols (.addr (.temp t.id)) = p.address ∧
      (σ.onward final).valuation symbols (.temp t.id) = p.read σ.memory ∧
      final.results t.id = some { value := p.read σ.memory, place := some p } := by
  obtain ⟨r, hr, -, hfinal⟩ := h.exists_result (by rintro heq; simp [heq] at hop)
  obtain ⟨p, hp, rfl⟩ : ∃ p, t.source? symbols σ = some p ∧
      { value := p.read σ.memory, place := some p } = r := by
    rcases hop with hop | hop <;> simpa only [Triple.result?, hop, Option.map_eq_some_iff] using hr
  refine ⟨p, hp, ?_, ?_, hfinal⟩
  · simp only [Store.valuation, Operand.place?, Store.onward, hfinal, Option.bind_some,
      Option.map_some, Option.getD_some]
  · simp only [Value.temp, Store.valuation, Operand.value?, Store.onward, hfinal, Option.map_some,
      Option.getD_some]

/-- Once a triple is done its operands need not be pinned any more. -/
theorem Continues.arrives {ρ : Valuation} {data : Word → Prop} {memory : Memory} {s' : State}
    (h : Continues ρ data m₀ memory s m s') :
    (∃ m', Arrives ρ data m₀ memory { s' with pinned := [] } m') ∧ s'.triples = s.triples := by
  obtain ⟨m', h', hframe⟩ := h
  exact ⟨⟨m', Arrives.enter h' s'.pos [] (List.forall_mem_nil _) (List.forall_mem_nil _)⟩,
    hframe.triples⟩

section Results

variable (hsetting : Hosted symbols triples final m₀) (hnext : Next symbols triples final σ σ' t)
  (h : Arrived symbols final m₀ σ s m) (hpinned : s.pinned = operandValues triples t)
  (hprovided : ∀ a, Provided ((σ.onward final).valuation symbols) s m₀ a → symbols.IsData a)
  (hpins : s.PinsAddresses)

include hsetting hnext h hpinned hprovided hpins

/-- A count up or down is selected. The operand has to be where the counting instruction reads it,
which the check has seen. -/
theorem after_selectCount (hop : t.op = .inc ∨ t.op = .dec) (hready : isReady t s = true) :
    After (selectTriple t) s fun _ s' =>
      Continues ((σ.onward final).valuation symbols) symbols.IsData m₀ σ.memory s m s' := by
  have hassign : t.op ≠ .assign := by rintro heq; simp [heq] at hop
  simp only [isReady, hassign, hop, if_true, if_false] at hready
  have huses : (t.lhs, .value) ∈ uses t := by
    obtain hop | hop := hop <;> simp [uses, Triple.operands, hop]
  have hoperands : t.operands = [t.lhs] := by
    obtain hop | hop := hop <;> simp [Triple.operands, hop]
  have houtcome := hnext.exists_outcome (.inr hop)
  rw [hoperands, List.map_singleton] at houtcome
  refine h.after_counting hsetting.apart hprovided hpins hop
    (hpinned ▸ mem_operandValues_of_value huses) houtcome (fun hbyte => ?_) fun hword => ?_
  · exact after_of_onSuccess (by simpa [hbyte] using hready)
  · exact after_of_onSuccess (by simpa [hword] using hready)

/-- The address of an element is selected. It is the start of the array plus the position times the
size of an element, and both the selector and the store compute it at sixteen bits. -/
theorem after_selectElement (hsymbols : s.symbols = symbols) (hop : t.op = .index)
    (hready : isReady t s = true) :
    After (selectTriple t) s fun _ s' =>
      Continues ((σ.onward final).valuation symbols) symbols.IsData m₀ σ.memory s m s' := by
  simp only [isReady, hop, reduceCtorEq, or_self, if_true, if_false] at hready
  obtain ⟨p, hp, haddress, hvalue, hfinal⟩ := hnext.place (.inl hop)
  obtain ⟨name, position, w, -, hlhs, hrhs, hw, helement⟩ | ⟨_, hderef, _⟩ :=
    Triple.source?_eq_some hp
  swap
  · rw [hop] at hderef
    cases hderef
  -- The array is declared, so its element has a place; the width of the triple is that of the
  -- array.
  obtain ⟨symbol, base, hsymbol, hbase, -, rfl⟩ := SymbolTable.element?_eq_some helement
  obtain ⟨widths, hwidths⟩ := hsetting.widths t hnext.mem
  have hwidth : t.width = symbol.width := by
    rw [hwidths]
    simp only [Triple.widthIn, hop, hlhs, SymbolTable.widthOf, hsymbol]
  have huses : uses t = [(t.lhs, .address), (position, .value)] := by
    simp [uses, hop, hrhs]
  have hfirst : (Operand.var name).place? symbols σ =
      some { address := base, width := symbol.width } := by
    simp [Operand.place?, SymbolTable.place?, hsymbol, hbase]
  -- Four conditions are left: the address of the array is pinned, widths agree, the position is
  -- placed, and an element of two bytes lies within the data.
  refine h.after_index hsetting.apart hprovided hpins hop hlhs ?_ ?_ ?_ ?_
  · rw [hpinned, ← hlhs]
    exact mem_operandValues_of_address (.inl (by simp [huses]))
  · intro symbol' hsymbol'
    rw [hsymbols, hsymbol] at hsymbol'
    cases hsymbol'
    exact hwidth.symm
  · intro position' hposition
    cases hrhs.symm.trans hposition
    refine ⟨hpinned ▸ mem_operandValues_of_value (by simp [huses]), ?_, fun hconst => ?_⟩
    · rw [haddress, hnext.before.place? hfirst, hnext.before.value? hw, hwidth, Nat.mul_comm,
        BitVec.ofNat_mul, BitVec.ofNat_toNat, BitVec.setWidth_eq]
    · exact after_of_onSuccess (by simpa [hrhs, hconst] using hready)
  · intro hword
    obtain ⟨_, ⟨⟩, -, hdata⟩ := hsetting.known.source t hnext.mem (.inl hop) _ hfinal
    rw [haddress, hvalue]
    have hsymbol' : symbol.width = .word := hwidth.symm.trans hword
    refine ⟨hdata _ ?_, hdata _ ?_, ?_⟩
    · simp [Place.cells, hsymbol']
    · simp [Place.cells, hsymbol']
    · simp [Place.read, hsymbol']

/-- What a pointer points at is selected. The pointer is in a pair, and the byte is at its value. -/
theorem after_selectPointee (hop : t.op = .deref) (hready : isReady t s = true) :
    After (selectTriple t) s fun _ s' =>
      Continues ((σ.onward final).valuation symbols) symbols.IsData m₀ σ.memory s m s' := by
  simp only [isReady, hop, reduceCtorEq, or_self, if_true, if_false] at hready
  obtain ⟨p, hp, haddress, -⟩ := hnext.place (.inr hop)
  obtain ⟨_, _, _, hindex, _⟩ | ⟨a, -, ha, rfl⟩ := Triple.source?_eq_some hp
  · rw [hop] at hindex
    cases hindex
  have huses : (t.lhs, .value) ∈ uses t := by simp [uses, Triple.operands, hop]
  exact h.after_deref hsetting.apart hprovided hpins hop
    (hpinned ▸ mem_operandValues_of_value huses)
    (haddress.trans (hnext.before.value? ha).symm) (after_of_onSuccess hready)

/-- The address of an operand is selected. It is a literal for a variable, and for an element it is
what the element left. -/
theorem after_selectAddressOf (hop : t.op = .address) :
    After (selectTriple t) s fun _ s' =>
      Continues ((σ.onward final).valuation symbols) symbols.IsData m₀ σ.memory s m s' := by
  obtain ⟨r, hr, -, hfinal⟩ := hnext.exists_result (by rw [hop]; decide)
  simp only [Triple.result?, hop] at hr
  obtain ⟨p, hp, rfl⟩ := Option.map_eq_some_iff.mp hr
  have huses : (t.lhs, .address) ∈ uses t := by simp [uses, hop]
  refine h.after_address hsetting.apart hprovided hpins hop
    (hpinned ▸ mem_operandValues_of_address (.inl huses)) ?_
  rw [hnext.before.place? hp]
  simp only [Value.temp, Store.valuation, Operand.value?, Store.onward, hfinal, Option.map_some,
    Option.getD_some]

/-- An operator is selected. Its operands are where the chosen instructions read them, by the check,
and what these compute is the outcome of the triple. -/
theorem after_selectOperator (hop : isOperator t.op = true) (hready : isReady t s = true) :
    After (selectTriple t) s fun _ s' =>
      (∃ m', Arrived symbols final m₀ σ s' m') ∧ SameTriple s s' ∧ s'.symbols = s.symbols := by
  have hplaced : onSuccess (place t) s (fun o s' => o.isOffered s') = true := by
    cases hop' : t.op <;> simp_all [isReady, isOperator]
  have houtcome := hnext.exists_outcome (.inl hop)
  have huses (o : Operand) (ho : o ∈ t.lhs :: t.rhs.toList) : .of o ∈ s.pinned := by
    rw [hpinned]
    refine mem_operandValues_of_value ?_
    rw [uses_of_isOperator hop, operands_of_isOperator hop]
    exact List.mem_map_of_mem ho
  -- What remains is that operands are pinned, a complement has one operand, and no byte-wide `>=`
  -- has a literal on the left.
  refine h.after_operator hsetting.apart hprovided ?_ hop ?_ ?_ houtcome
    (after_of_onSuccess hplaced)
  · exact {
      pins := hpins
      lhs := huses _ List.mem_cons_self
      rhs := fun rhs hrhs => huses _ (List.mem_cons_of_mem _ (Option.mem_toList.mpr hrhs)) }
  · intro hinv
    cases hrhs : t.rhs with
    | none => rfl
    | some rhs =>
      obtain ⟨z, hz, -⟩ := houtcome
      simp [operands_of_isOperator hop, hrhs, Triple.combine?, hinv, Op.evaluate?, Op.onBits?] at hz
  · intro hge hbyte hconst
    rw [hsetting.comparable t hnext.mem hge hbyte] at hconst
    cases hconst

/-- A triple that is no assignment is selected: one lemma for each kind of operator, with the same
conclusion. -/
theorem after_selectResult (hsymbols : s.symbols = symbols) (hop : t.op ≠ .assign)
    (hready : isReady t s = true) :
    After (selectTriple t) s fun _ s' =>
      (∃ m', Arrived symbols final m₀ σ' { s' with pinned := [] } m') ∧ s'.triples = s.triples := by
  obtain ⟨r, -, rfl, -⟩ := hnext.exists_result hop
  have hcontinues (hall : After (selectTriple t) s fun _ s' =>
      Continues ((σ.onward final).valuation symbols) symbols.IsData m₀ σ.memory s m s') :
      After (selectTriple t) s fun _ s' =>
        (∃ m', Arrived symbols final m₀ (σ.record t.id r) { s' with pinned := [] } m') ∧
          s'.triples = s.triples :=
    hall.mono fun _ _ hs' => hs'.arrives
  -- A result changes no memory, so the valuation after the triple is the one before it.
  cases hop' : t.op with
  | assign => exact absurd hop' hop
  | inc =>
    exact hcontinues (after_selectCount hsetting hnext h hpinned hprovided hpins (.inl hop') hready)
  | dec =>
    exact hcontinues (after_selectCount hsetting hnext h hpinned hprovided hpins (.inr hop') hready)
  | index =>
    exact hcontinues (after_selectElement hsetting hnext h hpinned hprovided hpins
      hsymbols hop' hready)
  | deref =>
    exact hcontinues (after_selectPointee hsetting hnext h hpinned hprovided hpins hop' hready)
  | address =>
    exact hcontinues (after_selectAddressOf hsetting hnext h hpinned hprovided hpins hop')
  | _ =>
    refine (after_selectOperator hsetting hnext h hpinned hprovided hpins (by rw [hop']; rfl)
      hready).mono ?_
    rintro _ s' ⟨⟨m', h'⟩, hsame, -⟩
    exact ⟨⟨m', Arrives.enter h' s'.pos [] (List.forall_mem_nil _) (List.forall_mem_nil _)⟩,
      hsame.triples⟩

end Results

/-! ## Assignments -/

/-- An assignment that the selector accepts has a target of this width. -/
inductive Targets (symbols : SymbolTable) (triples : List Triple) (t : Triple)
    (w : Width) : Prop where
  | pointer (hthrough : t.throughPointer = true) (hw : w = .byte)
  | named {name : String} (hthrough : t.throughPointer = false) (hlhs : t.lhs = .var name)
      (hw : w = symbols.widthOf name)
  | element {u : Triple} (hthrough : t.throughPointer = false) (hlhs : t.lhs = .temp u.id)
      (hfind : Triple.find? triples u.id = some u) (hop : u.op = .index) (hw : w = u.width)
  | pointee {u : Triple} (hthrough : t.throughPointer = false) (hlhs : t.lhs = .temp u.id)
      (hfind : Triple.find? triples u.id = some u) (hop : u.op = .deref) (hw : w = .byte)

/-- What holds after every continuation holds after the whole, whatever the first step does. -/
theorem after_then {α β : Type} {x : Selecting β} {f : β → Selecting α} {Q : α → State → Prop}
    (h : ∀ b s', After (f b) s' Q) : After (x >>= f) s Q :=
  (after_bind _ _).mpr fun b s' _ => h b s'

/-- A byte that goes through a pair is stored as a byte. -/
theorem after_placeByteIn_width {v : Value} (p : Pair) :
    After (placeByteIn v p) s fun o _ => o.width = .byte := by
  cases p <;> exact after_then fun _ _ => (after_pure _).mpr rfl

/-- Every way of placing a byte ends in a store of one byte. -/
theorem after_placeByteAt_width {address v : Value} :
    After (placeByteAt address v) s fun o _ => o.width = .byte := by
  unfold placeByteAt
  refine after_then fun _ _ => ?_
  split
  · exact after_then fun _ _ => after_then fun p _ => after_placeByteIn_width p
  · exact after_then fun p _ => after_placeByteIn_width p

/-- A word that goes out of HL is stored as a word. -/
theorem after_placeFromHL_width {address v : Value} {p : Pair} :
    After (placeFromHL p address v) s fun o _ => o.width = .word := by
  unfold placeFromHL
  refine after_then fun _ _ => ?_
  split
  · exact after_rejectTooComplex
  · exact after_then fun _ _ => after_then fun _ _ => (after_pure _).mpr rfl

/-- Every way of placing a word ends in a store of two bytes. -/
theorem after_placeWordAt_width {address v : Value} :
    After (placeWordAt address v) s fun o _ => o.width = .word := by
  unfold placeWordAt
  refine after_then fun _ _ => ?_
  split
  · refine after_then fun _ _ => after_ite (fun _ => ?_) fun _ => ?_
    · exact after_then fun _ _ => after_then fun _ _ => (after_pure _).mpr rfl
    · exact after_then fun _ _ => after_placeFromHL_width
  · exact after_placeFromHL_width

/-- The width at which the selector stores is that of what is assigned to: a byte through a pointer,
and the width of the variable or of the element otherwise. -/
theorem after_placeStore_targets {v : Value} :
    After (placeStore t v) s fun o _ => Targets s.symbols s.triples t o.width := by
  -- The cases are those of the selector: through a pointer, to a variable, to an element, to a
  -- pointee. In each, all branches end in stores of one width.
  unfold placeStore
  by_cases hthrough : t.throughPointer = true
  · simp only [hthrough, if_true]
    refine after_then fun _ _ => after_then fun _ _ => ?_
    have hlast {s' : State} : After (do loadHL (.of t.lhs); return Storing.atHL (← fetchByte v)) s'
        fun o _ => Targets s.symbols s.triples t o.width :=
      after_then fun _ _ => after_then fun _ _ => (after_pure _).mpr (.pointer hthrough rfl)
    split
    · refine after_then fun _ _ => ?_
      split <;> first | exact hlast | exact after_then fun _ _ => hlast
    · split
      · exact after_then fun _ _ => hlast
      · exact hlast
  · have hthrough : t.throughPointer = false := Bool.eq_false_iff.mpr hthrough
    simp only [hthrough, Bool.false_eq_true, if_false]
    cases hlhs : t.lhs with
    | const c => exact after_reject _
    | var name =>
      simp only [after_bind, after_get]
      cases hwidth : s.symbols.widthOf name with
      | byte =>
        refine after_ite (fun _ => ?_) fun _ => ?_
        · exact after_then fun _ _ => (after_pure _).mpr (.named hthrough hlhs hwidth.symm)
        · exact after_then fun _ _ => (after_pure _).mpr (.named hthrough hlhs hwidth.symm)
      | word => exact after_then fun _ _ => (after_pure _).mpr (.named hthrough hlhs hwidth.symm)
    | temp id =>
      simp only [after_bind, after_get]
      cases hfind : Triple.find? s.triples id with
      | none => exact after_reject _
      | some u =>
        obtain rfl : u.id = id := by simpa using List.find?_some hfind
        cases hop : u.op with
        | index =>
          cases hwidth : u.width with
          | byte =>
            simp only [hop, hwidth]
            exact after_placeByteAt_width.mono fun o _ ho =>
              .element hthrough hlhs hfind hop (ho.trans hwidth.symm)
          | word =>
            simp only [hop, hwidth]
            exact after_placeWordAt_width.mono fun o _ ho =>
              .element hthrough hlhs hfind hop (ho.trans hwidth.symm)
        | deref =>
          simp only [hop]
          exact after_placeByteAt_width.mono fun o _ ho => .pointee hthrough hlhs hfind hop ho
        | _ =>
          simp only [hop]
          exact after_reject _

/-- A value with nothing above its low byte fits in a byte. -/
theorem narrow_of_high_part {w : Word} (h : Side.high.part w = 0) : Width.byte.narrow w = w := by
  have hlt : w.toNat < 256 := by
    have hzero := congrArg BitVec.toNat h
    simp only [Side.part] at hzero
    simp at hzero
    omega
  apply BitVec.eq_of_toNat_eq
  simp only [Width.narrow, Width.bits]
  simp
  omega

theorem low_part_narrow (width : Width) (w : Word) :
    Side.low.part (width.narrow w) = Side.low.part w := by
  cases width with
  | byte => exact low_part_setWidth (w.setWidth 8)
  | word => rw [Width.narrow_word]

/-- Only variables change when memory does: results are kept, literals and addresses are what they
are. -/
theorem valuation_of_not_var {memory : Memory} {v : Value} (h : ∀ name, v ≠ .var name) :
    (({ σ with memory } : Store).onward final).valuation symbols v =
      (σ.onward final).valuation symbols v := by
  rcases v with (_ | name | _) | _
  · rfl
  · exact absurd rfl (h name)
  · rfl
  · rfl

/-- The value of a variable is what is at its place. -/
theorem valuation_var {name : String} {q : Place} (hq : symbols.place? name = some q) :
    (σ.onward final).valuation symbols (.var name) = q.read σ.memory := by
  simp only [Value.var, Store.valuation, Operand.value?, hq, Store.onward, Option.map_some,
    Option.getD_some]

/-- The place that an assignment goes to has the address and the width that the selector uses, lies
within the data, and within the storage of the variable that the selector takes as written. -/
theorem Next.target {w : Width} (hsetting : Hosted symbols triples final m₀)
    (hnext : Next symbols triples final σ σ' t) (hop : t.op = .assign)
    (htargets : Targets symbols triples t w) {p : Place} (hp : t.target? symbols σ = some p) :
    (σ.onward final).valuation symbols (targetValue t) = p.address ∧ p.width = w ∧
      (∀ a ∈ p.cells, symbols.IsData a) ∧
      ∀ name, written? triples t = some name → ∀ a ∈ p.cells, a ∈ symbols.storage name := by
  have hresult {u : Triple} (hfind : Triple.find? triples u.id = some u)
      (hop : u.op = .index ∨ u.op = .deref)
      (hplace : (Operand.temp u.id).place? symbols σ = some p) :
      ∃ r, final.results u.id = some r ∧ r.place = some p ∧ p.width = u.width ∧
        ∀ a ∈ p.cells, symbols.IsData a := by
    obtain ⟨r, hr, hplace⟩ := Option.bind_eq_some_iff.mp hplace
    have hfinal := hnext.before _ r hr
    obtain ⟨q, hq, hwidth, hdata⟩ :=
      hsetting.known.source u (List.mem_of_find?_eq_some hfind) hop r hfinal
    cases hplace.symm.trans hq
    exact ⟨r, hfinal, hplace, hwidth, hdata⟩
  -- One case for each kind of target. For a variable the place is its storage, for an element or a
  -- pointee it is that of the result, which the last store still has.
  cases htargets with
  | pointer hthrough hw =>
    simp only [Triple.target?, hthrough, if_true] at hp
    obtain ⟨a, ha, rfl⟩ := Option.map_eq_some_iff.mp hp
    simp only [targetValue, written?, hthrough, if_true]
    refine ⟨hnext.before.value? ha, hw.symm, fun b hb => ?_, fun _ hname => by cases hname⟩
    cases List.mem_singleton.mp hb
    exact hnext.allowed.inBounds (by simp [Triple.followsPointer, hop, hthrough]) a ha
  | named hthrough hlhs hw =>
    simp only [Triple.target?, hthrough, hlhs] at hp
    have hplace : symbols.place? _ = some p := hp
    have hcells := SymbolTable.place?_subset_storage hsetting.separate hplace
    simp only [targetValue, written?, hthrough, hlhs]
    refine ⟨hnext.before.place? hp, (SymbolTable.width_of_place? hplace).trans hw.symm,
      fun a ha => ⟨_, hcells a ha⟩, fun _ hname => ?_⟩
    cases hname
    exact hcells
  | @element u hthrough hlhs hfind hindex hw =>
    simp only [Triple.target?, hthrough, hlhs] at hp
    obtain ⟨r, hfinal, hplace, hwidth, hdata⟩ := hresult hfind (.inl hindex) hp
    simp only [targetValue, written?, hthrough, hlhs, hfind, Option.bind_some, hindex, if_true]
    refine ⟨hnext.before.place? hp, hwidth.trans hw.symm, hdata, fun name hname => ?_⟩
    have hvar : u.lhs = .var name := by
      cases hlhs' : u.lhs <;> simp_all [Operand.var?]
    exact hsetting.known.element u (List.mem_of_find?_eq_some hfind)
      hindex name hvar r p hfinal hplace
  | @pointee u hthrough hlhs hfind hderef hw =>
    simp only [Triple.target?, hthrough, hlhs] at hp
    obtain ⟨r, hfinal, hplace, hwidth, hdata⟩ := hresult hfind (.inr hderef) hp
    obtain ⟨widths, hwidths⟩ := hsetting.widths u (List.mem_of_find?_eq_some hfind)
    simp only [targetValue, written?, hthrough, hlhs, hfind, Option.bind_some, hderef]
    refine ⟨hnext.before.place? hp, ?_, hdata, fun name hname => by cases hname⟩
    rw [hwidth, hwidths, hw]
    simp only [Triple.widthIn, hderef]

section Assign

variable {p : Place} {w : Word} {v : Value}

/-- A variable that is not stale keeps its value, because the assignment writes within the storage
of another variable. -/
theorem valuation_of_fresh (hsymbols : symbols.Separate)
    (hp : ∀ name, written? triples t = some name → ∀ a ∈ p.cells, a ∈ symbols.storage name)
    (hfresh : isStale triples (written? triples t) v = false) :
    (({ σ with memory := p.write σ.memory w } : Store).onward final).valuation symbols v =
      (σ.onward final).valuation symbols v := by
  by_cases hvar : ∃ name, v = .var name
  · obtain ⟨name, rfl⟩ := hvar
    cases hq : symbols.place? name with
    | none => simp only [Value.var, Store.valuation, Operand.value?, hq, Option.map_none]
    | some q =>
      rw [valuation_var hq, valuation_var hq]
      cases hwritten : written? triples t with
      | none =>
        rw [hwritten] at hfresh
        cases hfresh
      | some other =>
        rw [hwritten] at hfresh
        have hne : name ≠ other := by
          rintro rfl
          simp [Value.var, isStale] at hfresh
        refine Place.read_write_of_disjoint fun a ha hmem => ?_
        exact hsymbols.disjoint_of_ne hne a
          (SymbolTable.place?_subset_storage hsymbols hq a ha) (hp other hwritten a hmem)
  · exact valuation_of_not_var fun name hname => hvar ⟨name, hname⟩

/-- A variable that is assigned to a variable keeps its value: if both are the same, it is stored
over itself. -/
theorem valuation_of_direct {name : String} (hsymbols : symbols.Separate)
    (hp : symbols.place? name = some p) (hw : w = (σ.onward final).valuation symbols v) :
    (({ σ with memory := p.write σ.memory w } : Store).onward final).valuation symbols v =
      (σ.onward final).valuation symbols v := by
  by_cases hvar : ∃ other, v = .var other
  · obtain ⟨other, rfl⟩ := hvar
    cases hq : symbols.place? other with
    | none => simp only [Value.var, Store.valuation, Operand.value?, hq, Option.map_none]
    | some q =>
      rw [valuation_var hq] at hw
      rw [valuation_var hq, valuation_var hq]
      by_cases hname : other = name
      · subst hname
        cases hp.symm.trans hq
        show p.read (p.write σ.memory w) = _
        rw [hw, Place.write_read]
      · refine Place.read_write_of_disjoint fun a ha hmem => ?_
        exact hsymbols.disjoint_of_ne hname a
          (SymbolTable.place?_subset_storage hsymbols hq a ha)
          (SymbolTable.place?_subset_storage hsymbols hp a hmem)
  · exact valuation_of_not_var fun name hname => hvar ⟨name, hname⟩

/-- A byte that is stored over itself, or over another byte, keeps its value. This covers the case
in which the selector cannot tell which variable is written. -/
theorem valuation_of_byte {name : String} (hp : p.width = .byte)
    (hbyte : symbols.widthOf name = .byte)
    (hw : w = (σ.onward final).valuation symbols (.var name)) :
    (({ σ with memory := p.write σ.memory w } : Store).onward final).valuation symbols (.var name) =
      (σ.onward final).valuation symbols (.var name) := by
  cases hq : symbols.place? name with
  | none => simp only [Value.var, Store.valuation, Operand.value?, hq, Option.map_none]
  | some q =>
    have hwidth : q.width = .byte := (SymbolTable.width_of_place? hq).trans hbyte
    rw [valuation_var hq] at hw
    rw [valuation_var hq, valuation_var hq]
    by_cases haddress : q.address = p.address
    · obtain rfl : q = p := by
        rcases p with ⟨_, _⟩
        rcases q with ⟨_, _⟩
        simp_all
      show q.read (q.write σ.memory w) = _
      rw [hw, Place.write_read]
    · refine Place.read_write_of_disjoint fun a ha hmem => haddress ?_
      simp only [Place.cells, hwidth, hp, List.mem_singleton] at ha hmem
      exact ha.symm.trans hmem

/-- Only the record is brought up to date after a store; code, stack and triples stay as they
are. -/
theorem settled_eq : s.settled t v = { s with regs := (s.settled t v).regs } := by
  cases hname : renamed? (s.forgetting (written? s.triples t) v) t v with
  | none =>
    rw [settled_of_none hname]
    rfl
  | some name =>
    simp only [State.settled, hname]
    rfl

/-- After a store the machine has the data of the store. Values that are reloaded from memory are
right because memory is, and a value on the stack is none of these. -/
theorem Writes.arrives (hsetting : Hosted symbols triples final m₀) {ρ : Valuation}
    (h : Writes ρ symbols.IsData m₀ (p.write σ.memory w) s m) (htriples : s.triples = triples)
    (hlayered : Layered symbols (s.settled t v))
    (hsame : ∀ u, reloadable u = false →
      ρ u = (({ σ with memory := p.write σ.memory w } : Store).onward
      final).valuation symbols u)
    (hregs : (s.settled t v).regs.Describes
      ((({ σ with memory := p.write σ.memory w } : Store).onward final).valuation
        symbols) m.registers)
    (hmatched : (s.settled t v).regs.Matched) :
    Arrived symbols final m₀ { σ with memory := p.write σ.memory w }
      { s.settled t v with pinned := [] } m := by
  have hsettled : s.settled t v = { s with regs := (s.settled t v).regs } := settled_eq
  have hsymbols := hlayered.symbols_eq
  have hbase : (s.settled t v).stackBase m = m₀.sp := by
    rw [hsettled]
    exact h.base
  have hknown : Triple.Known symbols (s.settled t v).triples final.results := by
    rw [hsettled]
    exact htriples ▸ hsetting.known
  have hstack : ∀ a, symbols.IsData a → a ∉ stackArea ((s.settled t v).stackBase m) := by
    rw [hbase]
    exact hsetting.apart
  -- Everything outside the registers is right because memory holds the data of the store.
  have hsurroundings : Surroundings
      ((({ σ with memory := p.write σ.memory w } : Store).onward final).valuation symbols)
      { s.settled t v with pinned := [] } m :=
    surroundings hsetting.separate (h.addresses.trans hsetting.hosts) hsymbols rfl hknown hstack
      h.contents
  refine ⟨⟨?_, ⟨hsurroundings, hregs, ?_⟩, hbase, h.addresses⟩, hmatched, h.contents⟩
  · show Walks symbols.IsData (s.settled t v).code m₀ m
    rw [hsettled]
    exact h.walks
  · intro slot hslot
    have hslot' : (s.settled t v).spill = some slot := hslot
    -- A saved value is never one that could be reloaded, so no write to memory changes it.
    have hvalue : reloadable slot.value = false := by
      cases hlayered with
      | bare _ hspill _ =>
        rw [hspill] at hslot'
        cases hslot'
      | saved _ hspill _ hparts =>
        rw [hspill] at hslot'
        cases hslot'
        exact hparts.value
    rw [hsettled] at hslot'
    rw [h.saved slot hslot', hsame slot.value hvalue]

/-- A check of what is stored keeps the record right. It asks that the stored value does not depend
on what the assignment overwrites, and that a register stands for a variable only if it holds all of
it. -/
theorem Storing.isSafe_settles {o : Storing} {rhs : Operand}
    (hsetting : Hosted symbols triples final m₀)
    (hsymbols : s.symbols = symbols) (htriples : s.triples = triples)
    (hextended : rhs.isConst = false → s.widthOf (.of rhs) = .byte →
      Side.high.part ((σ.onward final).valuation symbols (.of rhs)) = 0)
    (hw : w = (σ.onward final).valuation symbols (.of rhs)) (hp : t.target? symbols σ = some p)
    (hwidth : p.width = o.width)
    (hstorage : ∀ name, written? triples t = some name → ∀ a ∈ p.cells, a ∈ symbols.storage name)
    (hsafe : o.isSafe t rhs s = true)
    (h : Writes ((σ.onward final).valuation symbols) symbols.IsData m₀ (p.write σ.memory w) s m) :
    (s.settled t (.of rhs)).regs.Describes
        ((({ σ with memory := p.write σ.memory w } : Store).onward final).valuation symbols)
        m.registers ∧ (s.settled t (.of rhs)).regs.Matched := by
  subst hsymbols htriples
  have hfresh {u : Value} (hu : isStale s.triples (written? s.triples t) u = false) :
      (({ σ with memory := p.write σ.memory w } : Store).onward final).valuation s.symbols u =
        (σ.onward final).valuation s.symbols u :=
    valuation_of_fresh hsetting.separate hstorage hu
  have hnamed {name : String} (hthrough : t.throughPointer = false)
      (hlhs : t.lhs.var? = some name) :
      s.symbols.place? name = some p := by
    have hvar : t.lhs = .var name := by
      cases hlhs' : t.lhs <;> simp_all [Operand.var?]
    simpa [Triple.target?, hthrough, hvar, Operand.place?] using hp
  simp only [Storing.isSafe, Bool.and_eq_true, Bool.or_eq_true, decide_eq_true_eq,
    Bool.not_eq_true'] at hsafe
  obtain ⟨⟨-, hliteral⟩, hstored⟩ := hsafe
  refine Writes.settles h (fun u hu => hfresh hu) ?_ ?_
  -- The stored value stays in the record even if it is stale, so it must not have changed.
  · rintro ⟨r, hr, hrecorded⟩
    obtain (((hvar | ⟨hthrough, hlhs⟩) | hstale) | ⟨hbyte, hbyte'⟩) | hnone := hstored
    · exact valuation_of_not_var fun name hname => by
        cases hname
        cases hvar
    · obtain ⟨name, hname⟩ := Option.isSome_iff_exists.mp hlhs
      exact valuation_of_direct hsetting.separate (hnamed hthrough hname) hw
    · exact hfresh hstale
    · by_cases hvar : ∃ name, Value.of rhs = .var name
      · obtain ⟨name, hname⟩ := hvar
        rw [hname] at hw ⊢
        rw [hname] at hbyte'
        exact valuation_of_byte (hwidth.trans hbyte) hbyte' hw
      · exact valuation_of_not_var fun name hname => hvar ⟨name, hname⟩
    · have hall : r ∈ Reg.all := by cases r <;> first | decide | exact absurd rfl hr
      exact absurd hrecorded (of_decide_eq_true (List.all_eq_true.mp hnone r hall))
  -- Its registers are named for the variable, which holds as much of it as there is room for.
  · intro name hname
    have hthrough : t.throughPointer = false := by
      cases hthrough : t.throughPointer with
      | false => rfl
      | true => simp [renamed?, hthrough] at hname
    simp only [renamed?, hthrough, Bool.false_eq_true, if_false, Option.filter_eq_some_iff,
      Bool.and_eq_true, decide_eq_true_eq] at hname
    obtain ⟨hlhs, -, hsame⟩ := hname
    have hplace := hnamed hthrough hlhs
    have hkept := valuation_of_direct (v := .of rhs) hsetting.separate hplace hw
    rw [hkept, ← hw, valuation_var hplace]
    show Side.low.part (p.read (p.write σ.memory w)) = _ ∧ (_ → p.read (p.write σ.memory w) = w)
    rw [Place.read_write]
    refine ⟨low_part_narrow _ _, ?_⟩
    rintro ⟨q, hq⟩
    cases hbyte : p.width with
    | word => exact Width.narrow_word w
    | byte =>
      cases rhs with
      | const c =>
        obtain hfits | hnone := hliteral
        · rw [← hbyte, hwidth, hw]
          exact of_decide_eq_true hfits
        · have hmem : q ∈ RegisterFile.searchOrder := by
            obtain ⟨_, _, hhalves, -⟩ := RegisterFile.halves?_of_pairValue? hq
            cases q <;> first | decide | cases hhalves
          exact absurd hq (of_decide_eq_true (List.all_eq_true.mp hnone q hmem))
      | var x | temp id =>
        have hnarrow : s.symbols.widthOf name = .byte :=
          (SymbolTable.width_of_place? hplace).symm.trans hbyte
        rw [hw]
        exact narrow_of_high_part (hextended rfl (hsame.trans hnarrow))

end Assign

/-- An assignment is selected: value and address are placed, the value is stored, and the record is
brought up to date. -/
theorem after_selectStore (hsetting : Hosted symbols triples final m₀)
    (hnext : Next symbols triples final σ σ' t) (h : Arrived symbols final m₀ σ s m)
    (hpinned : s.pinned = operandValues triples t)
    (hprovided : ∀ a, Provided ((σ.onward final).valuation symbols) s m₀ a → symbols.IsData a)
    (hpins : s.PinsAddresses) (hlayered : Layered symbols s) (htriples : s.triples = triples)
    (hop : t.op = .assign) (hready : isReady t s = true) :
    After (selectTriple t) s fun _ s' =>
      (∃ m', Arrived symbols final m₀ σ' { s' with pinned := [] } m') ∧ s'.triples = s.triples := by
  obtain ⟨-, memory, hmemory, rfl⟩ | ⟨hno, -⟩ := Triple.step_cases hnext.step
  swap
  · exact absurd hop hno
  simp only [Triple.assigned?, Option.bind_eq_bind, Option.bind_eq_some_iff, Option.pure_def,
    Option.some.injEq] at hmemory
  obtain ⟨rhs, hrhs, w, hw, p, hp, rfl⟩ := hmemory
  have hsymbols := hlayered.symbols_eq
  have huses : uses t = [(t.lhs, if t.throughPointer then .value else .target), (rhs, .value)] := by
    simp [uses, hop, hrhs]
  have hv : .of rhs ∈ s.pinned := hpinned ▸ mem_operandValues_of_value (by simp [huses])
  have htarget : targetValue t ∈ s.pinned := by
    rw [hpinned, targetValue]
    split
    next hthrough => exact mem_operandValues_of_value (by simp [huses, hthrough])
    next hthrough => exact mem_operandValues_of_address (.inr (by simp [huses, hthrough]))
  have hselect : selectTriple t = selectAssign t := by
    simp only [selectTriple, hop]
  simp only [isReady, hop, if_true, hrhs, Option.all_some] at hready
  have hready := after_of_onSuccess hready
  have hlays := lays_selectTriple (hsetting.names t hnext.mem) s hlayered
  -- The save slot is the one in the end, of which the shape of the code tells.
  suffices hstored : After (selectTriple t) s fun _ s' => Layered symbols s' →
      (∃ m', Arrived symbols final m₀
        { σ with memory := p.write σ.memory (t.width.narrow w) } { s' with pinned := [] } m') ∧
        s'.triples = s.triples from
    (hstored.and hlays).mono fun _ _ hboth => hboth.1 hboth.2
  rw [hselect]
  refine after_selectAssign hrhs ?_
  refine (((tracks_placeStore hpins hv htarget h.agrees h.matched).and hready).and
    after_placeStore_targets).mono ?_
  rintro o s₁ ⟨⟨⟨m₁, hleads, hloaded⟩, hchecked⟩, htargets⟩
  refine ⟨hleads.frame.symbols, hleads.frame.triples, fun hlayered' => ?_⟩
  obtain ⟨hreads, hsafe⟩ := Bool.and_eq_true_iff.mp hchecked
  have h₁ := h.leads hsetting.apart hprovided hleads
  have hholds := hloaded.holds hleads.agrees (hleads.frame.pinned ▸ htarget) hreads
  rw [hsymbols, htriples] at htargets
  obtain ⟨haddress, hwidth, hdata, hstorage⟩ := hnext.target hsetting hop htargets hp
  have hplace : o.place ((σ.onward final).valuation symbols) (targetValue t) = p := by
    rw [Storing.place, haddress, ← hwidth]
  obtain ⟨m₂, hwrites⟩ := h₁.writes hsetting.apart hholds (hplace ▸ hdata)
  have hvalue := hnext.before.value? hw
  rw [hplace, hvalue] at hwrites
  have hnarrow : p.write σ.memory (t.width.narrow w) = p.write σ.memory w := by
    refine Place.write_narrow fun hbyte => ?_
    simp only [Storing.isSafe, Bool.and_eq_true, Bool.or_eq_true, decide_eq_true_eq] at hsafe
    rw [hwidth]
    exact hsafe.1.1.resolve_left (by rw [hbyte]; decide)
  have htriples₁ : (o.apply s₁).triples = triples := hleads.frame.triples.trans htriples
  have hsymbols₁ : (o.apply s₁).symbols = symbols := hleads.frame.symbols.trans hsymbols
  obtain ⟨hregs, hmatched⟩ := Storing.isSafe_settles hsetting hsymbols₁ htriples₁
    (fun hconst hbyte => hleads.agrees.extended rhs hconst (decide_eq_true hbyte))
    hvalue.symm hp hwidth
    hstorage hsafe hwrites
  rw [hnarrow]
  refine ⟨⟨m₂, hwrites.arrives hsetting htriples₁ hlayered' (fun u hu => ?_) hregs hmatched⟩, ?_⟩
  · refine (valuation_of_not_var fun name hname => ?_).symm
    rw [hname] at hu
    cases hu
  · rw [settled_eq]
    exact hleads.frame.triples


/-! ## All triples -/

/-- With the data of the store before the triples, the machine has those of the store after them. By
induction on the triples: each is entered, what was saved for nothing is dropped, and one of the
lemmas above selects it. -/
theorem after_selectFrom_runs {pos : Nat} {scope : List Nat} {widths : Nat → Width}
    (hsetting : Hosted symbols triples final m₀)
    (horderly : Triple.Orderly symbols true scope widths rest) (hresults : Triple.ResultsIn scope σ)
    (hrest : ∀ t ∈ rest, t ∈ triples)
    (hruns : Triple.Runs symbols (Triple.Allowed symbols) rest σ final)
    (h : Arrived symbols final m₀ σ { s with pinned := [] } m) (hlayered : Layered symbols s)
    (htriples : s.triples = triples) (hready : readyFrom pos rest s = true) :
    After (selectFrom pos rest) s fun _ s' =>
      (∃ m', Arrived symbols final m₀ final { s' with pinned := [] } m') ∧ Layered symbols s' := by
  -- On the run of the triples: the store goes along with the state of the selector.
  induction hruns generalizing scope widths pos s m with
  | nil σ =>
    simp only [selectFrom, after_modify]
    exact ⟨⟨m, Arrives.enter h pos [] (List.forall_mem_nil _) (List.forall_mem_nil _)⟩,
      hlayered.congr rfl rfl rfl⟩
  | @cons t rest σ σ' final hallowed hstep hruns ih =>
    obtain ⟨ht, hrest⟩ := List.forall_mem_cons.mp hrest
    have hresults' := hresults.step hstep
    have hnext : Next symbols triples final σ σ' t := {
      mem := ht
      allowed := hallowed
      step := hstep
      results := fun j hj => (hresults j).mpr (horderly.inScope.1 j hj)
      before := (Triple.Runs.cons hallowed hstep hruns).extends horderly hresults
      after := hruns.extends horderly.tail hresults' }
    have hready := after_of_onSuccess hready
    have hentered : Arrived symbols final m₀ σ
        { s with pos, pinned := operandValues s.triples t } m :=
      Arrives.entered hsetting hnext h htriples
    simp only [selectFrom, enter, after_bind, after_modify] at hready ⊢
    have hs : Layered symbols { s with pos, pinned := operandValues s.triples t } :=
      hlayered.congr rfl rfl rfl
    refine (((hentered.after_dropDeadSpill hsetting.apart hs).and (lays_dropDeadSpill _ hs)).and
      hready).mono ?_
    rintro _ s₁ ⟨⟨⟨⟨m₁, h₁⟩, hsame₁, -⟩, hs₁⟩, hready₁⟩
    obtain ⟨hready₁, hlater⟩ := Bool.and_eq_true_iff.mp hready₁
    have htriples₁ : s₁.triples = triples := hsame₁.triples.trans htriples
    have hpinned₁ : s₁.pinned = operandValues triples t := htriples ▸ hsame₁.pinned
    have hprovided : ∀ a, Provided ((σ.onward final).valuation symbols) s₁ m₀ a →
        symbols.IsData a :=
      fun a ha => isData_of_provided hsetting hnext hs₁.symbols_eq htriples₁ hpinned₁ ha
    have hpins : s₁.PinsAddresses := pinsAddresses_of_operandValues (htriples₁ ▸ hpinned₁)
    have hselected : After (selectTriple t) s₁ fun _ s' =>
        (∃ m', Arrived symbols final m₀ σ' { s' with pinned := [] } m') ∧
          s'.triples = s₁.triples := by
      by_cases hop : t.op = .assign
      · exact after_selectStore hsetting hnext h₁ hpinned₁ hprovided hpins hs₁ htriples₁ hop hready₁
      · exact after_selectResult hsetting hnext h₁ hpinned₁ hprovided hpins
          hs₁.symbols_eq hop hready₁
    refine ((hselected.and (lays_selectTriple (hsetting.names t ht) s₁ hs₁)).and
      (after_of_onSuccess hlater)).mono ?_
    rintro _ s₂ ⟨⟨⟨⟨m₂, h₂⟩, htriples₂⟩, hs₂⟩, hready₂⟩
    exact ih hsetting horderly.tail hresults' hrest h₂ hs₂ (htriples₂.trans htriples₁) hready₂

/-- At the end the stack is empty, and the machine still has the data. A value that is still saved
was pushed for nothing, and its push is taken out of the code. -/
theorem after_settleStack_walks (hsetting : Hosted symbols triples final m₀)
    (h : Arrived symbols final m₀ σ { s with pinned := [] } m) (hs : Layered symbols s) :
    After settleStack s fun _ s' => ∃ m', Walks symbols.IsData s'.code m₀ m' ∧ m'.sp = m₀.sp ∧
      ∀ a, symbols.IsData a → m'.memory.read a = σ.memory.read a := by
  simp only [settleStack, after_bind, after_get]
  split
  next hspill =>
    refine (after_pure _).mpr ⟨m, h.walks, ?_, h.contents⟩
    rw [← h.base, State.stackBase, hspill]
    rfl
  next slot hspill =>
    refine after_ite (fun _ => after_reject _) fun hslot => (after_set _).mpr ?_
    have hs' : Layered symbols { s with pinned := [] } := hs.congr rfl rfl rfl
    obtain ⟨m', h'⟩ := h.erase hsetting.apart hs' hspill (Bool.eq_false_iff.mpr hslot)
    exact ⟨m', h'.walks, h'.base, h'.contents⟩

end Select

end Accumulator
