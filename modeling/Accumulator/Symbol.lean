import Accumulator.Width

/-!
# Symbols

A symbol is a declared variable or array with its optional initial value. A table keeps the
symbols in declaration order, which is also their order in memory, and no name occurs twice.
-/

namespace Accumulator

/-- Initial contents of a variable. -/
inductive InitialValue where
  | scalar (value : Int)
  | array (values : List Int)
  | text (chars : String)
  deriving DecidableEq

/-- Number of elements an aggregate provides: items of an array, UTF-8 bytes of a text. -/
def InitialValue.length? : InitialValue → Option Nat
  | scalar _ => none
  | array values => some values.length
  | text chars => some chars.utf8ByteSize

/-- A declared variable. It is an array when it has a dimension. -/
structure Symbol where
  name : String
  width : Width
  dimension : Option Nat := none
  initial : Option InitialValue := none
  deriving DecidableEq

namespace Symbol

/-- Only symbols with a dimension can be indexed. -/
def isArray (s : Symbol) : Bool :=
  s.dimension.isSome

/-- Number of bytes the symbol occupies. -/
def size (s : Symbol) : Nat :=
  s.width.size * s.dimension.getD 1

/-- Give the symbol an initial value. An aggregate makes it an array that is large enough. -/
def withInitial (s : Symbol) (value : InitialValue) : Symbol :=
  match value.length? with
  | none => { s with initial := some value }
  | some n =>
    { s with
      dimension := some (match s.dimension with
        | none => n
        | some d => max d n)
      initial := some value }

theorem withInitial_name (s : Symbol) (value : InitialValue) :
    (s.withInitial value).name = s.name := by
  unfold withInitial
  split <;> rfl

end Symbol

/-- Symbols in declaration order, no name twice. -/
structure SymbolTable where
  toList : List Symbol := []
  nodup : (toList.map Symbol.name).Nodup := by simp

namespace SymbolTable

/-- The table without symbols. -/
def empty : SymbolTable := {}

/-- The symbol with a name. -/
def get? (table : SymbolTable) (name : String) : Option Symbol :=
  table.toList.find? (·.name = name)

/-- A symbol with this name is declared. -/
def contains (table : SymbolTable) (name : String) : Bool :=
  table.toList.any (·.name = name)

/-- Add a symbol at the end. Fails when the name is taken. -/
def declare? (table : SymbolTable) (s : Symbol) : Option SymbolTable :=
  if h : s.name ∈ table.toList.map Symbol.name then
    none
  else
    some
      { toList := table.toList ++ [s]
        nodup := by
          rw [List.map_append, List.nodup_append]
          refine ⟨table.nodup, by simp, ?_⟩
          intro a ha b hb hab
          simp only [List.map_cons, List.map_nil, List.mem_singleton] at hb
          exact h (hb ▸ hab ▸ ha) }

/-- Declare symbols one after the other; one whose name is taken is left out. -/
def ofList (symbols : List Symbol) : SymbolTable :=
  symbols.foldl (fun table s => (table.declare? s).getD table) empty

/-- Change the symbol with a name. The change keeps the name. -/
def modify (table : SymbolTable) (name : String) (f : Symbol → Symbol)
    (keepsName : ∀ s, (f s).name = s.name) : SymbolTable :=
  { toList := table.toList.map fun s => if s.name = name then f s else s
    nodup := by
      have hnames : (table.toList.map fun s => if s.name = name then f s else s).map Symbol.name
          = table.toList.map Symbol.name := by
        rw [List.map_map]
        apply List.map_congr_left
        intro s _
        simp only [Function.comp_apply]
        split
        · exact keepsName s
        · rfl
      rw [hnames]
      exact table.nodup }

/-- Set or remove the dimension of a symbol. -/
def setDimension (table : SymbolTable) (name : String) (dimension : Option Nat) : SymbolTable :=
  table.modify name (fun s => { s with dimension := dimension }) fun _ => rfl

/-- Set or remove the initial value of a symbol, leaving its dimension alone. -/
def setInitial (table : SymbolTable) (name : String) (initial : Option InitialValue) :
    SymbolTable :=
  table.modify name (fun s => { s with initial := initial }) fun _ => rfl

/-- Give a symbol an initial value; an aggregate also sets its dimension. -/
def withInitial (table : SymbolTable) (name : String) (value : InitialValue) : SymbolTable :=
  table.modify name (·.withInitial value) fun s => s.withInitial_name value

/-- Width of a variable. An unknown name counts as a byte. -/
def widthOf (table : SymbolTable) (name : String) : Width :=
  match table.get? name with
  | some s => s.width
  | none => .byte

end SymbolTable

end Accumulator
