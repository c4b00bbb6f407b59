import Accumulator.Proofs.Statement.Scalar
import Accumulator.Proofs.Select.Element

/-!
# Statements on elements and through pointers

The statements `v = arr[i]`, `arr[i] = e`, `p = &arr[i]`, `v = *p` and `*p = e`. Each of them writes
one place: a variable, an element, or the byte that a pointer points at. Addresses are computed
modulo 2^16, so an element may lie outside its array, even below it.

The selected code makes no calls and leaves the stack alone. Hence nothing is said about where the
variables lie: all of memory is accounted for.
-/

namespace Accumulator

open Select

namespace SymbolTable

/-- The name is that of an array. -/
def isArray (symbols : SymbolTable) (name : String) : Bool :=
  (symbols.get? name).any Symbol.isArray

/-- The name is that of a variable that is no array. -/
def isScalar (symbols : SymbolTable) (name : String) : Bool :=
  (symbols.get? name).any (!·.isArray)

/-- The name is that of a variable that can hold an address. -/
def isPointer (symbols : SymbolTable) (name : String) : Bool :=
  symbols.contains name && symbols.widthOf name = .word

end SymbolTable

namespace Atom

def isScalar (symbols : SymbolTable) : Atom → Bool
  | var name => symbols.isScalar name
  | literal _ => true

/-- Variables are positions, and so are literals that do not overflow when they are scaled. -/
def isPosition (symbols : SymbolTable) (array : String) : Atom → Bool
  | var name => symbols.contains name
  | literal k => InInt32 (k * (symbols.widthOf array).size)

end Atom

/-- A statement on an element or through a pointer. -/
inductive Access where
  /-- `target = array[position]` -/
  | load (target array : String) (position : Atom)
  /-- `array[position] = value` -/
  | store (array : String) (position value : Atom)
  /-- `target = &array[position]` -/
  | address (target array : String) (position : Atom)
  /-- `target = *pointer` -/
  | follow (target pointer : String)
  /-- `*pointer = value`. The pointer is either dereferenced as the target of an assignment or named
  in an assignment that goes through it. -/
  | put (pointer : String) (value : Atom) (throughPointer : Bool)

namespace Access

/-- The events of a statement, in postfix order. -/
def events : Access → List Event
  | load target array position =>
    [.reference target, .reference array, position.event, .index, .assign false]
  | store array position value =>
    [.reference array, position.event, .index, value.event, .assign false]
  | address target array position =>
    [.reference target, .reference array, position.event, .index, .addressOf, .assign false]
  | follow target pointer =>
    [.reference target, .reference pointer, .dereference, .assign false]
  | put pointer value false =>
    [.reference pointer, .dereference, value.event, .assign false]
  | put pointer value true =>
    [.reference pointer, value.event, .assign true]

/-- What is indexed is an array, what is followed is a word, what is assigned is a scalar, and a
byte if it goes through a pointer. -/
def isRegular (symbols : SymbolTable) : Access → Bool
  | load target array position =>
    symbols.isScalar target && symbols.isArray array && position.isPosition symbols array
  | store array position value =>
    symbols.isArray array && position.isPosition symbols array && value.isScalar symbols
  | address target array position =>
    symbols.isPointer target && symbols.isArray array && position.isPosition symbols array
  | follow target pointer => symbols.isScalar target && symbols.isPointer pointer
  | put pointer value _ =>
    symbols.isPointer pointer && value.isScalar symbols && value.width symbols = .byte

/-- The place of an element: the position times the size of an element, behind the start. -/
def element? (symbols : SymbolTable) (memory : Memory) (array : String) (position : Atom) :
    Option Place := do
  let start ← symbols.place? array
  let x ← position.value? symbols memory
  return { start with address := elementAddress start x }

/-- The byte that a pointer points at. -/
def pointee? (symbols : SymbolTable) (memory : Memory) (pointer : String) : Option Place := do
  let place ← symbols.place? pointer
  return { address := place.read memory, width := .byte }

/-- What a statement does: the place it writes, and the value that is cut off or extended to the
width of the place. -/
def effect? (symbols : SymbolTable) (memory : Memory) : Access → Option (Place × Word)
  | load target array position => do
    let element ← element? symbols memory array position
    return (← symbols.place? target, element.read memory)
  | store array position value => do
    let element ← element? symbols memory array position
    return (element, ← value.value? symbols memory)
  | address target array position => do
    let element ← element? symbols memory array position
    return (← symbols.place? target, element.address)
  | follow target pointer => do
    let pointee ← pointee? symbols memory pointer
    return (← symbols.place? target, pointee.read memory)
  | put pointer value _ => do
    let pointee ← pointee? symbols memory pointer
    return (pointee, ← value.value? symbols memory)

end Access

/-! ## The triples of a statement -/

/-- Triples that are neither reduced nor merged stay as they are. -/
theorem Triple.optimize_eq_self {symbols : SymbolTable} {ts : List Triple}
    (hone : ∀ t ∈ ts, t.reduceOne = .same t) (hmerge : merge? ts = none) :
    optimize symbols ts = ts := by
  have hreduce : reduceAll ts = { triples := ts } := by
    clear hmerge
    induction ts with
    | nil => rw [reduceAll]
    | cons t ts ih =>
      rw [List.forall_mem_cons] at hone
      rw [reduceAll, hone.1, ih hone.2]
  rw [optimize, reduce, hreduce]
  show mergeAll ts = ts
  rw [mergeAll]
  split
  · rfl
  next heq =>
    rw [hmerge] at heq
    cases heq

namespace Access

variable {symbols : SymbolTable}

/-- The triple of an element. -/
def element (symbols : SymbolTable) (array : String) (position : Atom) : Triple :=
  .drafted symbols [] 0 (.var array) .index (some position.operand)

/-- The triple of what a pointer points at. -/
def pointee (symbols : SymbolTable) (pointer : String) : Triple :=
  .drafted symbols [] 0 (.var pointer) .deref none

/-- The triples of a statement. The first element of an array needs no triple of its own. -/
def triples (symbols : SymbolTable) : Access → List Triple
  | load target array position =>
    if position = .literal 0 then
      [.drafted symbols [] 0 (.var target) .assign (some (.var array))]
    else
      let t := element symbols array position
      [t, .drafted symbols [t] 1 (.var target) .assign (some (.temp 0))]
  | store array position value =>
    if position = .literal 0 then
      [.drafted symbols [] 0 (.var array) .assign (some value.operand)]
    else
      let t := { element symbols array position with addressOnly := true }
      [t, .drafted symbols [t] 1 (.temp 0) .assign (some value.operand)]
  | address target array position =>
    if position = .literal 0 then
      let t := .drafted symbols [] 0 (.var array) .address none
      [t, .drafted symbols [t] 1 (.var target) .assign (some (.temp 0))]
    else
      let t := { element symbols array position with addressOnly := true, noSave := true }
      let u := .drafted symbols [t] 1 (.temp 0) .address none
      [t, u, .drafted symbols [t, u] 2 (.var target) .assign (some (.temp 1))]
  | follow target pointer =>
    let t := pointee symbols pointer
    [t, .drafted symbols [t] 1 (.var target) .assign (some (.temp 0))]
  | put pointer value false =>
    let t := pointee symbols pointer
    [t, .drafted symbols [t] 1 (.temp 0) .assign (some value.operand)]
  | put pointer value true =>
    [.drafted symbols [] 0 (.var pointer) .assign (some value.operand) true]

variable {array : String} {position : Atom}

theorem contains_of_isArray (h : symbols.isArray array = true) : symbols.contains array = true := by
  obtain ⟨symbol, hsymbol, -⟩ := (Option.any_eq_true _ _).mp h
  exact SymbolTable.contains_iff.mpr ⟨symbol, hsymbol⟩

theorem contains_of_isScalar {name : String} (h : symbols.isScalar name = true) :
    symbols.contains name = true := by
  obtain ⟨symbol, hsymbol, -⟩ := (Option.any_eq_true _ _).mp h
  exact SymbolTable.contains_iff.mpr ⟨symbol, hsymbol⟩

theorem isDeclared_of_isScalar {x : Atom} (h : x.isScalar symbols = true) :
    x.isDeclared symbols = true := by
  cases x with
  | var name => exact contains_of_isScalar h
  | literal => rfl

theorem isDeclared_of_isPosition (h : position.isPosition symbols array = true) :
    position.isDeclared symbols = true := by
  cases position with
  | var => exact h
  | literal => rfl

theorem operand_ne_zero (h : position ≠ .literal 0) : position.operand ≠ .const 0 := by
  cases position with
  | var => nofun
  | literal k =>
    intro hk
    cases hk
    exact h rfl

/-- The operands of an element become the array itself, if the position is the literal zero, or else
a triple. -/
theorem acceptAll_element {stack : List Operand} (harray : symbols.isArray array = true)
    (hposition : position.isPosition symbols array = true) (rest : List Event) :
    Draft.acceptAll (.reference array :: position.event :: .index :: rest) { symbols, stack } =
      Draft.acceptAll rest (if position = .literal 0 then { symbols, stack := .var array :: stack }
        else {
          symbols, triples := [element symbols array position], stack := .temp 0 :: stack
          nextId := 1 }) := by
  obtain ⟨symbol, hsymbol, hsize⟩ := (Option.any_eq_true _ _).mp harray
  have hreference : Draft.accept (.reference array) { symbols, stack } =
      .ok () { symbols, stack := .var array :: stack } :=
    Draft.accept_atom (x := .var array) (contains_of_isArray harray)
  rw [Draft.acceptAll_cons hreference,
    Draft.acceptAll_cons (Draft.accept_atom (isDeclared_of_isPosition hposition))]
  refine Draft.acceptAll_cons ?_
  refine (bind_of_ok (Draft.popOperand_run (d := { symbols }) .index position.operand _)).trans ?_
  refine (bind_of_ok (Draft.popOperand_run (d := { symbols }) .index (.var array) stack)).trans ?_
  show (if !(_ : Bool) then _ else _ : Drafting Unit) _ = _
  simp only [hsymbol, hsize, Bool.not_true, Bool.false_eq_true, if_false]
  by_cases hzero : position = .literal 0
  · subst hzero
    rfl
  · simp only [if_neg hzero, if_neg (operand_ne_zero hzero)]
    rfl

/-- The statement is drafted: every event finds its operands on the stack, and what is left are the
triples of the statement. In the cases with a position, that of the literal zero has one triple
less. -/
theorem acceptAll_events {a : Access} (ha : a.isRegular symbols = true) :
    ∃ nextId, Draft.acceptAll a.events { symbols } =
      .ok () { symbols, triples := a.triples symbols, nextId } := by
  -- A declared name is put on the stack.
  have hreference {name : String} {stack : List Operand} (h : symbols.contains name = true) :
      Draft.accept (.reference name) { symbols, stack } =
        .ok () { symbols, stack := .var name :: stack } :=
    Draft.accept_atom (x := .var name) h
  cases a with
  | load target array position =>
    simp only [isRegular, Bool.and_eq_true] at ha
    obtain ⟨⟨htarget, harray⟩, hposition⟩ := ha
    rw [events, Draft.acceptAll_cons (hreference (contains_of_isScalar htarget)),
      acceptAll_element harray hposition, triples]
    split
    · exact ⟨1, rfl⟩
    · exact ⟨2, rfl⟩
  | store array position value =>
    simp only [isRegular, Bool.and_eq_true] at ha
    obtain ⟨⟨harray, hposition⟩, hvalue⟩ := ha
    have hdeclared := isDeclared_of_isScalar hvalue
    rw [events, acceptAll_element harray hposition, triples]
    split
    · exact ⟨1, Draft.acceptAll_cons (Draft.accept_atom hdeclared)⟩
    · exact ⟨2, Draft.acceptAll_cons (Draft.accept_atom hdeclared)⟩
  | address target array position =>
    simp only [isRegular, SymbolTable.isPointer, Bool.and_eq_true] at ha
    obtain ⟨⟨⟨htarget, -⟩, harray⟩, hposition⟩ := ha
    rw [events, Draft.acceptAll_cons (hreference htarget), acceptAll_element harray hposition,
      triples]
    split
    · exact ⟨2, rfl⟩
    · exact ⟨3, rfl⟩
  | follow target pointer =>
    simp only [isRegular, SymbolTable.isPointer, Bool.and_eq_true] at ha
    obtain ⟨htarget, hpointer, -⟩ := ha
    rw [events, Draft.acceptAll_cons (hreference (contains_of_isScalar htarget)),
      Draft.acceptAll_cons (hreference hpointer)]
    exact ⟨2, rfl⟩
  | put pointer value throughPointer =>
    simp only [isRegular, SymbolTable.isPointer, Bool.and_eq_true] at ha
    obtain ⟨⟨⟨hpointer, -⟩, hvalue⟩, -⟩ := ha
    have hdeclared := isDeclared_of_isScalar hvalue
    cases throughPointer with
    | false =>
      rw [events, Draft.acceptAll_cons (hreference hpointer)]
      exact ⟨2, Draft.acceptAll_cons (Draft.accept_atom hdeclared)⟩
    | true =>
      rw [events, Draft.acceptAll_cons (hreference hpointer)]
      exact ⟨1, Draft.acceptAll_cons (Draft.accept_atom hdeclared)⟩

theorem ne_of_isScalar {name : String} (hname : symbols.isScalar name = true)
    (harray : symbols.isArray array = true) : name ≠ array := by
  rintro rfl
  obtain ⟨symbol, hsymbol, hsize⟩ := (Option.any_eq_true _ _).mp harray
  simp [SymbolTable.isScalar, hsymbol, hsize] at hname

/-- What is assigned is a scalar or a literal, and so it is not the array. -/
theorem operand_ne_array {x : Atom} (hx : x.isScalar symbols = true)
    (harray : symbols.isArray array = true) : x.operand ≠ .var array := by
  cases x with
  | literal => nofun
  | var name =>
    intro hname
    cases hname
    exact ne_of_isScalar hx harray rfl

/-- Nothing is reduced and nothing is merged. The only reduction that could apply takes away an
assignment of a variable to itself, and a scalar is not an array. -/
theorem optimize_triples {a : Access} (ha : a.isRegular symbols = true) :
    Triple.optimize symbols (a.triples symbols) = a.triples symbols := by
  -- An assignment is only reduced if it assigns a variable to itself.
  have hassign {name : String} {o : Operand} (ho : o ≠ .var name) :
      (Triple.drafted symbols [] 0 (.var name) .assign (some o)).reduceOne =
        .same (.drafted symbols [] 0 (.var name) .assign (some o)) := by
    rw [Short.reduceOne_of_moves (Scalar.moves_drafted symbols [] 0 name o), if_neg ho]
  cases a with
  | load target array position =>
    simp only [isRegular, Bool.and_eq_true] at ha
    rw [triples]
    split
    · refine Triple.optimize_eq_self (List.forall_mem_singleton.mpr (hassign ?_)) rfl
      have hne := ne_of_isScalar ha.1.1 ha.1.2
      simpa using hne.symm
    · exact Triple.optimize_eq_self
        (List.forall_mem_cons.mpr ⟨rfl, List.forall_mem_singleton.mpr rfl⟩) rfl
  | store array position value =>
    simp only [isRegular, Bool.and_eq_true] at ha
    rw [triples]
    split
    · exact Triple.optimize_eq_self
        (List.forall_mem_singleton.mpr (hassign (operand_ne_array ha.2 ha.1.1))) rfl
    · exact Triple.optimize_eq_self
        (List.forall_mem_cons.mpr ⟨rfl, List.forall_mem_singleton.mpr rfl⟩) rfl
  | address target array position =>
    rw [triples]
    split
    · exact Triple.optimize_eq_self
        (List.forall_mem_cons.mpr ⟨rfl, List.forall_mem_singleton.mpr rfl⟩) rfl
    · exact Triple.optimize_eq_self (List.forall_mem_cons.mpr ⟨rfl,
        List.forall_mem_cons.mpr ⟨rfl, List.forall_mem_singleton.mpr rfl⟩⟩) rfl
  | follow target pointer =>
    exact Triple.optimize_eq_self
      (List.forall_mem_cons.mpr ⟨rfl, List.forall_mem_singleton.mpr rfl⟩) rfl
  | put pointer value throughPointer =>
    cases throughPointer with
    | false =>
      exact Triple.optimize_eq_self
        (List.forall_mem_cons.mpr ⟨rfl, List.forall_mem_singleton.mpr rfl⟩) rfl
    | true => exact Triple.optimize_eq_self (List.forall_mem_singleton.mpr rfl) rfl

end Access

/-! ## The code of a statement -/

namespace Select

open Machine

variable {data : Word → Prop} {quiet : Bool} {s : State} {m : Machine} {memory : Memory}
  {t u : Triple} {target array pointer : String} {start place : Place} {x w : Word} {o : Operand}

theorem find?_head (htriples : s.triples = [t, u]) : Triple.find? s.triples t.id = some t := by
  simp [htriples, Triple.find?]

/-- The assignment of a result to a variable leaves the start of another one unpinned. -/
theorem not_mem_pinned {id k : Nat} (hu : Moves s.symbols target (.temp id) u)
    (hne : target ≠ array) : .addr (.var array) ∉ (s.entered k u).pinned := by
  have huses : uses u = [(.var target, .target), (.temp id, .value)] := by
    simp [uses, hu.op, hu.lhs, hu.rhs, hu.direct]
  rw [State.entered, operandValues, huses]
  simp only [List.flatMap_cons, List.flatMap_nil, List.append_nil]
  split <;> simp [hne.symm]

/-- A byte that HL points at is assigned to a variable. -/
theorem compiles_moveAimed {address : Word} {regs : RegisterFile} (h : Ready data memory s m)
    (hdata : ∀ a, data a) (htriples : s.triples = [t, u])
    (hkind : t.op = .deref ∨ t.op = .index) (hbyte : t.width = .byte)
    (hu : Moves s.symbols target (.temp t.id) u) (hne : target ≠ array)
    (hplace : s.symbols.place? target = some place)
    (haimed : Aimed s.symbols memory array (.addr (.temp t.id)) address regs m.registers) :
    Compiles data quiet 5 1 [u] s regs m place ((memory.read address).setWidth 16) := by
  have hfind := find?_head htriples
  refine .last h.spill (assigns_move hu h hplace ?_)
  refine delivers_of_aimed (s := s.entered 1 u) ⟨h.spill, h.provides⟩ hdata ?_ ?_
    (not_mem_pinned hu hne) haimed
  · rcases hkind with hop | hop <;> simp [State.entered, isMemoryOperand, hfind, hop, hbyte]
  · have hresult : t.resultWidth = .byte := by
      rcases hkind with hop | hop <;>
        simp [Triple.resultWidth, hop, hbyte, Op.isComparison, Op.relation?]
    simp [State.entered, State.isByte, State.widthOf, Value.temp, Operand.width, hfind, hresult]

/-- An element is assigned to a variable. A byte is left in memory, and the assignment reads it
through HL; a word is loaded into HL by the triple of the element. -/
theorem compiles_load (h : Ready data memory s m) (hdata : ∀ a, data a)
    (htriples : s.triples = [t, u]) (ht : IsElement s.symbols memory t array start x)
    (hwidth : t.width = start.width) (hread : t.addressOnly = false)
    (hu : Moves s.symbols target (.temp t.id) u) (hne : target ≠ array)
    (hplace : s.symbols.place? target = some place) :
    Compiles data quiet 15 0 [t, u] s {} m place
      (Place.read { start with address := elementAddress start x } memory) := by
  have hready : Ready data memory (s.entered 0 t) m := ⟨h.spill, h.provides⟩
  cases hstart : start.width with
  | byte =>
    have hbyte : t.width = .byte := hwidth.trans hstart
    refine .le (.cons (n := 6) (k := 5) h.spill
      (yields_selectIndex_address hready ht (by simp [hbyte])) ?_) (by decide)
    intro regs m' hchanges haimed
    exact compiles_moveAimed (h.of_changes hchanges) hdata htriples (.inr ht.op) hbyte hu hne hplace
      haimed
  | word =>
    have hword : t.width = .word := hwidth.trans hstart
    -- The assignment reads the word itself, so the address in HL may be overwritten by it.
    have hneeds : needs s.triples (.addr (.temp t.id)) u = false := by
      simp [needs, uses, hu.op, hu.lhs, hu.rhs, hu.direct, isMemoryOperand,
        find?_head htriples, ht.op,
        hword]
    have hdead : (s.entered 0 t).isLiveAfter (.addr (.temp t.id)) = false := by
      simp [State.isLiveAfter, State.nextUse?, State.entered, htriples] at hneeds ⊢
      exact hneeds
    refine .cons (n := 10) (k := 5) h.spill
      (yields_selectIndex_word hready hdata ht hword hread hdead) ?_
    intro regs m' hchanges hholds
    refine .last h.spill (assigns_move hu (h.of_changes hchanges) hplace
      (delivers_of_holdsWord ?_ hholds))
    simp [State.entered, isMemoryOperand, find?_head htriples, ht.op, hword]

/-- A variable or a literal is assigned to what HL points at. -/
theorem compiles_storeAimed {address : Word} {regs : RegisterFile} (h : Ready data memory s m)
    (hdata : ∀ a, data a) (htriples : s.triples = [t, u])
    (hkind : t.op = .index ∨ t.op = .deref ∧ t.width = .byte) (hop : u.op = .assign)
    (hlhs : u.lhs = .temp t.id) (hrhs : u.rhs = some o) (hdirect : u.throughPointer = false)
    (hne : o ≠ .var array) (hw : o.value? s.symbols { memory } = some w)
    (haimed : Aimed s.symbols memory array (.addr (.temp t.id)) address regs m.registers) :
    Compiles data quiet 9 1 [u] s regs m { address, width := t.width } w := by
  refine .last h.spill (assigns_element (s := s.entered 1 u) ⟨h.spill, h.provides⟩ hdata ?_ ?_ hop
    hlhs hrhs hdirect (find?_head htriples) hkind haimed hne hw)
  · have huses : uses u = [(.temp t.id, .target), (o, .value)] := by
      simp [uses, hop, hlhs, hrhs, hdirect]
    rw [State.entered, operandValues, huses]
    cases o with
    | temp => cases hw
    | const => simp [isMemoryOperand]
    | var => simp [isMemoryOperand]
  · simp [State.entered, htriples]

/-- A value is assigned to an element, whose address is in HL from the triple before. -/
theorem compiles_store (h : Ready data memory s m) (hdata : ∀ a, data a)
    (htriples : s.triples = [t, u]) (ht : IsElement s.symbols memory t array start x)
    (hwidth : t.width = start.width) (haddress : t.addressOnly = true) (hop : u.op = .assign)
    (hlhs : u.lhs = .temp t.id) (hrhs : u.rhs = some o) (hdirect : u.throughPointer = false)
    (hne : o ≠ .var array) (hw : o.value? s.symbols { memory } = some w) :
    Compiles data quiet 15 0 [t, u] s {} m { start with address := elementAddress start x } w := by
  refine .cons (n := 6) (k := 9) h.spill
    (yields_selectIndex_address (s := s.entered 0 t) ⟨h.spill, h.provides⟩ ht
      (by simp [haddress])) ?_
  intro regs m' hchanges haimed
  rw [← hwidth]
  exact compiles_storeAimed (h.of_changes hchanges) hdata htriples
    (.inl ht.op) hop hlhs hrhs hdirect
    hne hw haimed

/-- The address of an array is assigned, which the assembler knows. -/
theorem compiles_start (h : Ready data memory s m) (htriples : s.triples = [t, u])
    (hop : t.op = .address) (hlhs : t.lhs = .var array)
    (hstart : s.symbols.place? array = some start) (hu : Moves s.symbols target (.temp t.id) u)
    (hplace : s.symbols.place? target = some place) :
    Compiles data quiet 6 0 [t, u] s {} m place start.address := by
  refine .cons (n := 1) (k := 5) h.spill
    (yields_selectAddress_var (s := s.entered 0 t) ⟨h.spill, h.provides⟩ hop hlhs hstart) ?_
  intro regs m' hchanges hholds
  refine .last h.spill (assigns_move hu (h.of_changes hchanges) hplace
    (delivers_of_holdsWord ?_ hholds))
  simp [State.entered, isMemoryOperand, find?_head htriples, hop]

/-- The address of an element is assigned, in three triples. The triple in the middle has no code:
it only takes the address in HL for its result, as neither the element nor its address is used
again. -/
theorem compiles_address {v : Triple} (h : Ready data memory s m)
    (htriples : s.triples = [t, u, v]) (ht : IsElement s.symbols memory t array start x)
    (haddress : t.addressOnly = true) (hid : t.id ≠ u.id) (hop : u.op = .address)
    (hlhs : u.lhs = .temp t.id) (hv : Moves s.symbols target (.temp u.id) v)
    (hplace : s.symbols.place? target = some place) :
    Compiles data quiet 11 0 [t, u, v] s {} m place (elementAddress start x) := by
  have hfind : Triple.find? s.triples t.id = some t := by
    simp [htriples, Triple.find?]
  have hfind' : Triple.find? s.triples u.id = some u := by
    simp [htriples, Triple.find?, hid]
  -- The last triple needs neither the element nor its address.
  have hneeds : needs s.triples (.addr (.temp t.id)) v = false ∧
      needs s.triples (.temp t.id) v = false := by
    simp [needs, uses, hv.op, hv.lhs, hv.rhs, hv.direct, hid, Value.temp]
  have hdead (value : Value) (hvalue : needs s.triples value v = false) :
      (s.entered 1 u).isLiveAfter value = false := by
    simp [State.isLiveAfter, State.nextUse?, State.entered, htriples] at hvalue ⊢
    exact hvalue
  refine .cons (n := 6) (k := 5) h.spill
    (yields_selectIndex_address (s := s.entered 0 t) ⟨h.spill, h.provides⟩ ht
      (by simp [haddress])) ?_
  intro regs m₁ hchanges₁ haimed
  refine .cons (n := 0) (k := 5) h.spill (yields_selectAddress_element (s := s.entered 1 u) hop hlhs
    hfind ht.op (hdead _ hneeds.1) (hdead _ hneeds.2) haimed) ?_
  intro regs' m₂ hchanges₂ hholds
  refine .last h.spill (assigns_move hv ((h.of_changes hchanges₁).of_changes hchanges₂) hplace
    (delivers_of_holdsWord ?_ hholds))
  simp [State.entered, isMemoryOperand, hfind', hop]

theorem exists_ne_var (o : Operand) : ∃ base, o ≠ .var base := by
  cases o with
  | var name =>
    refine ⟨name.push 'x', fun h => ?_⟩
    have hlength := congrArg String.length (Operand.var.inj h)
    simp at hlength
  | _ => exact ⟨"", nofun⟩

/-- The byte that a pointer points at is assigned to a variable. -/
theorem compiles_follow (h : Ready data memory s m) (hdata : ∀ a, data a)
    (htriples : s.triples = [t, u]) (hop : t.op = .deref) (hbyte : t.width = .byte)
    (hlhs : t.lhs = .var pointer) (hstart : s.symbols.place? pointer = some start)
    (hword : start.width = .word) (hu : Moves s.symbols target (.temp t.id) u)
    (hplace : s.symbols.place? target = some place) :
    Compiles data quiet 6 0 [t, u] s {} m place
      ((memory.read (start.read memory)).setWidth 16) := by
  obtain ⟨base, hne⟩ := exists_ne_var (.var target)
  refine .cons (n := 1) (k := 5) h.spill (yields_selectDeref (s := s.entered 0 t)
    ⟨h.spill, h.provides⟩ hop hlhs hstart hword base) ?_
  intro regs m' hchanges haimed
  exact compiles_moveAimed (h.of_changes hchanges) hdata htriples (.inl hop) hbyte hu
    (fun h => hne (congrArg Operand.var h)) hplace haimed

/-- A value is assigned to the byte that a pointer points at. -/
theorem compiles_put (h : Ready data memory s m) (hdata : ∀ a, data a)
    (htriples : s.triples = [t, u]) (ht : t.op = .deref) (hbyte : t.width = .byte)
    (hpointer : t.lhs = .var pointer) (hstart : s.symbols.place? pointer = some start)
    (hword : start.width = .word) (hop : u.op = .assign) (hlhs : u.lhs = .temp t.id)
    (hrhs : u.rhs = some o) (hdirect : u.throughPointer = false)
    (hw : o.value? s.symbols { memory } = some w) :
    Compiles data quiet 10 0 [t, u] s {} m { address := start.read memory, width := .byte } w := by
  obtain ⟨base, hne⟩ := exists_ne_var o
  refine .cons (n := 1) (k := 9) h.spill (yields_selectDeref (s := s.entered 0 t)
    ⟨h.spill, h.provides⟩ ht hpointer hstart hword base) ?_
  intro regs m' hchanges haimed
  rw [← hbyte]
  exact compiles_storeAimed (h.of_changes hchanges) hdata htriples (.inr ⟨ht, hbyte⟩) hop hlhs hrhs
    hdirect hne hw haimed

/-- A value is assigned through a pointer. -/
theorem compiles_throughPointer (h : Ready data memory s m) (hdata : ∀ a, data a)
    (hop : u.op = .assign) (hthrough : u.throughPointer = true) (hlhs : u.lhs = .var pointer)
    (hrhs : u.rhs = some o) (hstart : s.symbols.place? pointer = some start)
    (hword : start.width = .word) (hbyte : s.isByte (.of o) = true)
    (hw : o.value? s.symbols { memory } = some w) :
    Compiles data quiet 3 0 [u] s {} m { address := start.read memory, width := .byte } w :=
  .last h.spill (assigns_throughPointer (s := s.entered 0 u)
    ⟨h.spill, h.provides⟩ hdata hop hthrough
    hlhs hrhs hstart hword hbyte hw)

end Select

/-! ## What a statement does -/

namespace Access

open Machine

variable {symbols : SymbolTable} {memory : Memory} {a : Access} {array pointer : String}
  {position : Atom}

/-- The element has a place, which its triple refers to: the start of the array, and from there as
many elements as the position says. -/
theorem exists_element (harray : symbols.isArray array = true)
    (hposition : position.isPosition symbols array = true) (memory : Memory) :
    ∃ start x, symbols.place? array = some start ∧
      element? symbols memory array position =
        some { start with address := elementAddress start x } ∧
      ∀ t : Triple, t.op = .index → t.lhs = .var array → t.rhs = some position.operand →
        IsElement symbols memory t array start x := by
  obtain ⟨start, hstart⟩ := SymbolTable.exists_place? (contains_of_isArray harray)
  obtain ⟨x, hx⟩ := Scalar.exists_atom_value (isDeclared_of_isPosition hposition) memory
  refine ⟨start, x, hstart, by simp [element?, hstart, hx], fun t hop hlhs hrhs => ?_⟩
  refine ⟨hop, hlhs, (Option.any_eq_true _ _).mp harray, hstart, position.operand, hrhs,
    (Scalar.operand_value? position).trans hx, fun k hk => ?_⟩
  cases position with
  | var => cases hk
  | literal n =>
    cases hk
    rw [SymbolTable.width_of_place? hstart]
    exact of_decide_eq_true hposition

/-- The first element is at the start. -/
theorem element?_zero {start : Place} (hstart : symbols.place? array = some start) :
    element? symbols memory array (.literal 0) = some start := by
  simp [element?, hstart, Atom.value?, elementAddress]

theorem exists_pointer (h : symbols.isPointer pointer = true) :
    ∃ place, symbols.place? pointer = some place ∧ place.width = .word := by
  obtain ⟨hname, hword⟩ := Bool.and_eq_true_iff.mp h
  obtain ⟨place, hplace⟩ := SymbolTable.exists_place? hname
  exact ⟨place, hplace, (SymbolTable.width_of_place? hplace).trans (of_decide_eq_true hword)⟩

/-- The statement has an effect, and code is selected that has it. By cases on the statement, and
for an element on whether its position is the literal zero. -/
theorem exists_compiles {m : Machine} (ha : a.isRegular symbols = true)
    (hm : m.addresses = (Machine.ofSymbols symbols).addresses) :
    ∃ place w, a.effect? symbols m.memory = some (place, w) ∧
      Compiles (fun _ => True) true 15 0 (a.triples symbols)
        { triples := a.triples symbols, symbols } {} m place w := by
  have hready {ts : List Triple} :
      Ready (fun _ => True) m.memory ({ triples := ts, symbols } : State) m :=
    ⟨rfl, hm, fun _ _ _ => trivial, fun _ _ => rfl⟩
  have hdata : ∀ _ : Word, True := fun _ => trivial
  cases a with
  | load target array position =>
    simp only [isRegular, Bool.and_eq_true] at ha
    obtain ⟨⟨htarget, harray⟩, hposition⟩ := ha
    obtain ⟨place, hplace⟩ := SymbolTable.exists_place? (contains_of_isScalar htarget)
    obtain ⟨start, x, hstart, helement, ht⟩ := exists_element harray hposition m.memory
    -- The element at zero is the array itself to the draft, and needs no triple.
    by_cases hzero : position = .literal 0
    · subst hzero
      refine ⟨place, start.read m.memory, ?_, ?_⟩
      · simp [effect?, element?_zero hstart, hplace]
      · refine .le (compiles_move hready (Scalar.moves_drafted ..) hplace ?_) (by decide)
        rw [Operand.value?, hstart]
        rfl
    · refine ⟨place, _, by simp only [effect?, helement, hplace]; rfl, ?_⟩
      rw [triples, if_neg hzero]
      exact compiles_load hready hdata rfl (ht _ rfl rfl rfl)
        (SymbolTable.width_of_place? hstart).symm
        rfl (Scalar.moves_drafted ..) (ne_of_isScalar htarget harray) hplace
  | store array position value =>
    simp only [isRegular, Bool.and_eq_true] at ha
    obtain ⟨⟨harray, hposition⟩, hvalue⟩ := ha
    obtain ⟨w, hw⟩ := Scalar.exists_atom_value (isDeclared_of_isScalar hvalue) m.memory
    obtain ⟨start, x, hstart, helement, ht⟩ := exists_element harray hposition m.memory
    by_cases hzero : position = .literal 0
    · subst hzero
      refine ⟨start, w, by simp [effect?, element?_zero hstart, hw], ?_⟩
      exact .le (compiles_move hready (Scalar.moves_drafted ..) hstart
        ((Scalar.operand_value? value).trans hw)) (by decide)
    · refine ⟨_, w, by simp only [effect?, helement, hw]; rfl, ?_⟩
      rw [triples, if_neg hzero]
      exact compiles_store hready hdata rfl (ht _ rfl rfl rfl)
        (SymbolTable.width_of_place? hstart).symm rfl rfl rfl rfl rfl
        (operand_ne_array hvalue harray) ((Scalar.operand_value? value).trans hw)
  | address target array position =>
    simp only [isRegular, Bool.and_eq_true] at ha
    obtain ⟨⟨htarget, harray⟩, hposition⟩ := ha
    obtain ⟨place, hplace, -⟩ := exists_pointer htarget
    obtain ⟨start, x, hstart, helement, ht⟩ := exists_element harray hposition m.memory
    by_cases hzero : position = .literal 0
    · subst hzero
      refine ⟨place, start.address, by simp [effect?, element?_zero hstart, hplace], ?_⟩
      exact .le (compiles_start hready rfl rfl rfl hstart (Scalar.moves_drafted ..) hplace)
        (by decide)
    · refine ⟨place, elementAddress start x, by simp [effect?, helement, hplace], ?_⟩
      rw [triples, if_neg hzero]
      exact .le (compiles_address hready rfl (ht _ rfl rfl rfl) rfl (by rintro ⟨⟩) rfl rfl
        (Scalar.moves_drafted ..) hplace) (by decide)
  | follow target pointer =>
    simp only [isRegular, Bool.and_eq_true] at ha
    obtain ⟨htarget, hpointer⟩ := ha
    obtain ⟨place, hplace⟩ := SymbolTable.exists_place? (contains_of_isScalar htarget)
    obtain ⟨start, hstart, hword⟩ := exists_pointer hpointer
    refine ⟨place, _, by simp only [effect?, pointee?, hstart, hplace]; rfl, ?_⟩
    exact .le (compiles_follow hready hdata rfl rfl rfl rfl hstart hword (Scalar.moves_drafted ..)
      hplace) (by decide)
  | put pointer value throughPointer =>
    simp only [isRegular, Bool.and_eq_true, decide_eq_true_eq] at ha
    obtain ⟨⟨hpointer, hvalue⟩, hbyte⟩ := ha
    obtain ⟨start, hstart, hword⟩ := exists_pointer hpointer
    obtain ⟨w, hw⟩ := Scalar.exists_atom_value (isDeclared_of_isScalar hvalue) m.memory
    have hoperand := (Scalar.operand_value? value).trans hw
    refine ⟨_, w, by simp only [effect?, pointee?, hstart, hw]; rfl, ?_⟩
    cases throughPointer with
    | false =>
      exact .le (compiles_put hready hdata rfl rfl rfl rfl hstart hword rfl rfl rfl rfl hoperand)
        (by decide)
    | true =>
      refine .le (compiles_throughPointer hready hdata rfl rfl rfl rfl hstart hword
        (decide_eq_true ?_) hoperand) (by decide)
      cases value <;> exact hbyte

/-- A statement on an element or through a pointer compiles, and its code writes the value at the
place that the statement means. The place then holds as much of the value as it has room for, and
all other bytes of memory stay as they are. -/
theorem run_access {declarations : List Event}
    (hdeclarations : Draft.ofEvents declarations = .ok { symbols })
    (ha : a.isRegular symbols = true)
    (peephole : Bool) :
    ∃ c, Compilation.ofEvents (declarations ++ a.events) peephole = .ok c ∧
      ∀ registers zero carry memory,
        let outcome := Machine.run
          { Machine.ofSymbols c.program.symbols with registers, zero, carry, memory } c.code
        ∃ place w, a.effect? symbols memory = some (place, w) ∧ outcome.fault = none ∧
          outcome.machine.memory = place.write memory w ∧
          place.read outcome.machine.memory = place.width.narrow w ∧
          ∀ b, b ∉ place.cells → outcome.machine.memory.read b = memory.read b := by
  obtain ⟨nextId, hdraft⟩ := acceptAll_events ha
  have hevents := Draft.ofEvents_append hdeclarations hdraft
  have hprogram := Program.ofEvents_of_draft hevents rfl
  rw [optimize_triples ha] at hprogram
  obtain ⟨_, _, -, hcompiles⟩ := exists_compiles (m := Machine.ofSymbols symbols) ha rfl
  obtain ⟨code, hcode, hstraight, hlength, -⟩ := hcompiles.exists_instructions
    (p := { triples := a.triples symbols, symbols })
  have hskips := (Compilation.clean_code
    (Compilation.ofEvents_of_instructions hprogram hcode false)).skips
  refine ⟨_, Compilation.ofEvents_of_instructions hprogram hcode peephole, ?_⟩
  intro registers zero carry memory outcome
  -- The code does not depend on memory, but what it does and the place it writes do: they are taken
  -- again for the machine at hand.
  obtain ⟨place, w, heffect, hcompiles⟩ :=
    exists_compiles (m := { Machine.ofSymbols symbols with registers, zero, carry, memory }) ha rfl
  obtain ⟨code', hcode', -, -, m', hwalks, hwritten⟩ := hcompiles.exists_instructions
    (p := { triples := a.triples symbols, symbols })
  obtain rfl := Except.ok.inj (hcode.symm.trans hcode')
  have hrun : outcome.fault = none ∧ outcome.machine.memory = place.write memory w :=
    run_of_written_calm peephole hskips hstraight (Nat.le_trans hlength (by decide)) hwalks
      hwritten rfl
  obtain ⟨hfault, hmemory⟩ := hrun
  refine ⟨place, w, heffect, hfault, hmemory, ?_, fun b hb => ?_⟩
  · rw [hmemory]
    exact Place.read_write
  · rw [hmemory]
    exact Place.read_write_of_not_mem hb

/-- A byte array, a word array, a pointer and a byte. -/
def sampleArrays : SymbolTable where
  toList := [{ name := "b", width := .byte, dimension := some 3 },
    { name := "a", width := .word, dimension := some 4 }, { name := "p", width := .word },
    { name := "i", width := .byte }]
  nodup := by decide

/-- The events that declare them. -/
def sampleDeclarations : List Event :=
  [.declare "b" .byte, .literal 3, .setDimension "b", .declare "a" .word, .literal 4,
    .setDimension "a", .declare "p" .word, .declare "i" .byte]

/-- `a[-2] = p`, where `a` is an array of words that starts at 0x1003: the element lies below the
array, on the last byte before all variables and the first byte of `b`. -/
theorem run_access_below :
    Draft.ofEvents sampleDeclarations = .ok { symbols := sampleArrays } ∧
      (store "a" (.literal (-2)) (.var "p")).isRegular sampleArrays = true ∧
      ∃ c, Compilation.ofEvents
          (sampleDeclarations ++ (store "a" (.literal (-2)) (.var "p")).events) true = .ok c ∧
        ∀ registers zero carry memory,
          let outcome := Machine.run
            { Machine.ofSymbols c.program.symbols with registers, zero, carry, memory } c.code
          ∃ place w,
            (store "a" (.literal (-2)) (.var "p")).effect? sampleArrays memory = some (place, w) ∧
            outcome.fault = none ∧ outcome.machine.memory = place.write memory w ∧
            place.read outcome.machine.memory = place.width.narrow w ∧
            ∀ b, b ∉ place.cells → outcome.machine.memory.read b = memory.read b :=
  ⟨rfl, rfl, run_access rfl rfl true⟩

example (memory : Memory) :
    (store "a" (.literal (-2)) (.var "p")).effect? sampleArrays memory =
      some (⟨0x0fff, .word⟩, memory.readWord 0x100b) := by
  rfl

end Access

end Accumulator
