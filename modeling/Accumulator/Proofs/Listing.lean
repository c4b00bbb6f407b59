import Mathlib
import Accumulator.Listing
import Accumulator.Machine.Basic
import Accumulator.Proofs.Storage

/-!
# Data segments

The assembler reads a data line back as the directive it was printed from (`directive?_line`), and
places the next line after as many bytes as the directive fills. Here that reading is compared with
the storage that the machine gives to symbols.
-/

namespace Accumulator

namespace Listing

/-! ## Reading a data line -/

/-- The text before the quote that ends a field. A quote that is written twice stands for one;
`seen` says that a quote came just before, which is the first of two or the last character. -/
def unquote? (seen : Bool) : List Char → Option (List Char)
  | [] => if seen then some [] else none
  | c :: rest =>
    if seen then (if c = '\'' then (unquote? false rest).map (c :: ·) else none)
    else if c = '\'' then unquote? true rest
    else (unquote? false rest).map (c :: ·)

/-- The numbers of a field, which are separated by commas and blanks. -/
def numbers? (field : String) : Option (List Nat) :=
  (field.toList.splitOn ',').mapM fun item => (String.ofList (item.dropWhile (· = ' '))).toNat?

/-- The directive that a data line stands for. -/
def Line.directive? (line : Line) : Option Directive :=
  if line.mnemonic = "DS" then line.operands.toNat?.map .space
  else if line.mnemonic = "DW" then (numbers? line.operands).map (.values .word)
  else if line.mnemonic = "DB" then
    if line.operands.toList.head? = some '\'' then
      (unquote? false line.operands.toList.tail).map fun chars => .text (String.ofList chars)
    else (numbers? line.operands).map (.values .byte)
  else none

/-- A text whose quotes are doubled is read back as it was. -/
theorem unquote?_doubled (chars : List Char) :
    unquote? false (chars.flatMap (fun c => if c = '\'' then ['\'', '\''] else [c]) ++ ['\'']) =
      some chars := by
  induction chars with
  | nil => rfl
  | cons c rest ih =>
    rw [List.flatMap_cons, List.append_assoc]
    by_cases hc : c = '\''
    · simp [hc, unquote?, ih]
    · simp [hc, unquote?, ih]

/-- A comma and a blank separate as a comma does, with the blank in front of the next item. -/
theorem intercalate_comma_blank (first : List Char) (rest : List (List Char)) :
    [',', ' '].intercalate (first :: rest) = [','].intercalate (first :: rest.map (' ' :: ·)) := by
  induction rest generalizing first with
  | nil => rfl
  | cons second rest ih =>
    have hblank : ∀ l : List (List Char), [','].intercalate ((' ' :: second) :: l) =
        ' ' :: [','].intercalate (second :: l) := by
      intro l
      cases l with
      | nil => rfl
      | cons third l => simp only [List.intercalate_cons_cons, List.cons_append]
    rw [List.intercalate_cons_cons, ih, List.map_cons, List.intercalate_cons_cons, hblank]
    simp

/-- A character that is no digit does not occur in a number. -/
theorem not_mem_toDigits {c : Char} (hc : c.isDigit = false) (n : Nat) : c ∉ Nat.toDigits 10 n := by
  intro h
  rw [Nat.isDigit_of_mem_toDigits (by decide) (by decide) h] at hc
  cases hc

/-- A number is read, with a blank before it or without. -/
theorem toNat?_toDigits (n : Nat) :
    (String.ofList ((Nat.toDigits 10 n).dropWhile (· = ' '))).toNat? = some n := by
  have hdigits : (Nat.toDigits 10 n).dropWhile (· = ' ') = Nat.toDigits 10 n := by
    rw [List.dropWhile_eq_self_iff]
    intro hlength hblank
    refine not_mem_toDigits (c := ' ') rfl n ?_
    simp only [decide_eq_true_eq] at hblank
    exact hblank ▸ List.getElem_mem hlength
  rw [hdigits, ← Nat.repr_eq_ofList_toDigits]
  exact Nat.toNat?_repr n

/-- The items of a field of numbers. -/
theorem splitOn_operandField (n : Nat) (rest : List Nat) :
    (operandField ((n :: rest).map toString)).toList.splitOn ',' =
      Nat.toDigits 10 n :: rest.map fun m => ' ' :: Nat.toDigits 10 m := by
  -- With the blanks counted to the items, the items are separated by commas alone.
  have hlist : (operandField ((n :: rest).map toString)).toList =
      [','].intercalate (Nat.toDigits 10 n :: rest.map fun m => ' ' :: Nat.toDigits 10 m) := by
    have hblank := intercalate_comma_blank (Nat.toDigits 10 n) (rest.map (Nat.toDigits 10))
    simpa [operandField, String.toList_intercalate, Function.comp_def] using hblank
  rw [hlist]
  refine List.splitOn_intercalate ',' ?_ (List.cons_ne_nil _ _)
  simp [not_mem_toDigits (c := ',') rfl]

/-- A field of numbers is read back. -/
theorem numbers?_operandField {items : List Nat} (h : items ≠ []) :
    numbers? (operandField (items.map toString)) = some items := by
  cases items with
  | nil => exact absurd rfl h
  | cons n rest =>
    have hrest : (rest.map fun m => ' ' :: Nat.toDigits 10 m).mapM
        (fun item => (String.ofList (item.dropWhile (· = ' '))).toNat?) = some rest := by
      induction rest with
      | nil => rfl
      | cons m rest ih =>
        rw [List.map_cons, List.mapM_cons, ih (by simp), List.dropWhile_cons_of_pos (by simp),
          toNat?_toDigits]
        rfl
    rw [numbers?, splitOn_operandField, List.mapM_cons, toNat?_toDigits, hrest]
    rfl

/-- A field of numbers does not start with a quote, since it is empty or starts with a digit. This
tells numbers and texts apart. -/
theorem head?_operandField (items : List Nat) :
    (operandField (items.map toString)).toList.head? ≠ some '\'' := by
  cases items with
  | nil => simp [operandField]
  | cons n rest =>
    obtain ⟨rest', hfield⟩ : ∃ rest', (operandField ((n :: rest).map toString)).toList =
        Nat.toDigits 10 n ++ rest' := by
      cases rest with
      | nil => exact ⟨[], by simp [operandField]⟩
      | cons m rest => simp [operandField, String.toList_intercalate]
    have hquote := not_mem_toDigits (c := '\'') rfl n
    rw [hfield]
    cases hdigits : Nat.toDigits 10 n with
    | nil => exact absurd hdigits Nat.toDigits_ne_nil
    | cons c digits =>
      rw [hdigits] at hquote
      rintro ⟨⟩
      exact hquote List.mem_cons_self

/-- A data line is read back as the directive it was printed from. -/
theorem directive?_line (label : String) {d : Directive} (h : ∀ width, d ≠ .values width []) :
    (d.line label).directive? = some d := by
  cases d with
  | values width items =>
    have hitems : items ≠ [] := by
      rintro rfl
      exact h width rfl
    have hread := numbers?_operandField hitems
    cases width with
    | byte => simp [Directive.line, Line.directive?, hread, head?_operandField]
    | word => simp [Directive.line, Line.directive?, hread]
  | text chars =>
    have hquote : (quote chars).toList = '\'' ::
        (chars.toList.flatMap (fun c => if c = '\'' then ['\'', '\''] else [c]) ++ ['\'']) := by
      simp [quote]
    simp [Directive.line, Line.directive?, hquote, unquote?_doubled]
  | space bytes => simp [Directive.line, Line.directive?]

/-! ## Placing data lines -/

/-- The addresses of the labels of data lines, the first line at an address and each other line
after the one before it. -/
def assemble? (address : Word) : List Line → Option (List (String × Word))
  | [] => some []
  | line :: rest =>
    line.directive?.bind fun d =>
      (assemble? (address + BitVec.ofNat 16 d.size) rest).map fun labels =>
        if line.label.isEmpty then labels else (line.label, address) :: labels

/-- Number of bytes that data lines reserve. -/
def reserved? (lines : List Line) : Option Nat :=
  (lines.mapM Line.directive?).map fun ds => (ds.map Directive.size).sum

end Listing

namespace Symbol

variable {s : Symbol}

/-- Number of bytes that are missing from the data of a symbol: the characters of a text are stored
as bytes even where an element takes two. -/
def shortage (s : Symbol) : Nat :=
  match s.initial with
  | some (.text chars) => (s.width.size - 1) * chars.utf8ByteSize
  | _ => 0

/-- Texts in bytes leave no shortage. -/
theorem shortage_eq_zero
    (h : ∀ chars, s.initial = some (.text chars) → s.width = .byte ∨ chars = "") :
    s.shortage = 0 := by
  unfold shortage
  split
  next chars hinitial =>
    rcases h chars hinitial with hwidth | rfl
    · simp [hwidth, Width.size]
    · simp
  · rfl

/-- Elements that are provided and padding fill the memory of a symbol. -/
theorem size_padding (s : Symbol) {provided : Nat} (h : provided ≤ s.dimension.getD 1) :
    s.width.size * provided + ((s.padding provided).map Directive.size).sum = s.size := by
  unfold padding Symbol.size
  dsimp only
  split
  next hlt =>
    simp only [List.map_cons, List.map_nil, List.sum_singleton, Directive.size]
    rw [Nat.mul_comm (_ - _), ← Nat.mul_add, Nat.add_sub_of_le h]
  next hnot =>
    obtain rfl : provided = s.dimension.getD 1 := by omega
    simp

/-- Numbers and padding fill the memory of a symbol. -/
theorem size_numbers (s : Symbol) {items : List Int} (h : items.length ≤ s.dimension.getD 1) :
    ((s.numbers items :: s.padding items.length).map Directive.size).sum = s.size := by
  rw [List.map_cons, List.sum_cons, numbers, Directive.size, List.length_map]
  exact s.size_padding h

/-- The directives of a symbol with room fill its memory, but for the shortage. -/
theorem size_directives (h : s.HasRoom) :
    (s.directives.map Directive.size).sum + s.shortage = s.size := by
  have hone := h.one_le_dimension
  have hprovided {value : InitialValue} {k : Nat} (hinitial : s.initial = some value)
      (hk : value.length? = some k) : k ≤ s.dimension.getD 1 :=
    h.provided_le_dimension (by simp [provided?, hinitial, hk])
  cases hinitial : s.initial with
  | none =>
    simp only [directives, shortage, hinitial, Nat.add_zero]
    split
    · exact List.sum_singleton
    · refine s.size_numbers ?_
      exact hone
  | some value =>
    simp only [directives, shortage, hinitial]
    cases value with
    | scalar value =>
      refine s.size_numbers ?_
      exact hone
    | array items =>
      cases items with
      | nil => exact List.sum_singleton
      | cons n rest => exact s.size_numbers (hprovided hinitial rfl)
    | text chars =>
      -- The padding takes every byte of the text for an element.
      have hpadding := s.size_padding (hprovided hinitial rfl)
      simp only [List.map_cons, List.sum_cons, Directive.size]
      cases hwidth : s.width <;> simp only [hwidth, Width.size] at hpadding ⊢ <;> omega

/-- Directives with values have some. An empty list of values would print a line that cannot be
read. -/
theorem ne_values_nil {d : Directive} (h : d ∈ s.directives) (width : Width) :
    d ≠ .values width [] := by
  have hpadding {provided : Nat} (hd : d ∈ s.padding provided) : d ≠ .values width [] := by
    unfold padding at hd
    dsimp only at hd
    split at hd
    · obtain rfl := List.mem_singleton.mp hd
      simp
    · cases hd
  have hnumbers {items : List Int} {provided : Nat} (hitems : items ≠ [])
      (hd : d ∈ s.numbers items :: s.padding provided) : d ≠ .values width [] := by
    rcases List.mem_cons.mp hd with rfl | hd
    · simp [numbers, hitems]
    · exact hpadding hd
  unfold directives at h
  split at h
  · split at h
    · obtain rfl := List.mem_singleton.mp h
      simp
    · exact hnumbers (by simp) h
  · exact hnumbers (by simp) h
  · obtain rfl := List.mem_singleton.mp h
    simp
  next hne _ => exact hnumbers (fun hnil => hne (hnil ▸ rfl)) h
  · rcases List.mem_cons.mp h with rfl | h
    · simp
    · exact hpadding h

/-- The name of a symbol labels the first of its directives. -/
theorem exists_lines (s : Symbol) : ∃ first rest, s.directives = first :: rest ∧
    s.lines = first.line s.name :: rest.map (Directive.line "") ∧
    (∀ width, first ≠ .values width []) ∧ ∀ d ∈ rest, ∀ width, d ≠ .values width [] := by
  have hne : s.directives ≠ [] := by
    unfold directives
    split
    · split <;> simp
    all_goals simp
  obtain ⟨first, rest, hdirectives⟩ := List.exists_cons_of_ne_nil hne
  refine ⟨first, rest, hdirectives, by simp only [lines, hdirectives], ?_⟩
  exact List.forall_mem_cons.mp fun d hd => ne_values_nil (hdirectives ▸ hd)

end Symbol

namespace Listing

/-- The line of a directive has the label it is given. -/
theorem label_line (d : Directive) (label : String) : (d.line label).label = label := by
  cases d with
  | values width items => cases width <;> rfl
  | text | space => rfl

variable {address : Word} {lines : List Line}

/-- A line without a label moves the lines after it. -/
theorem assemble?_unlabelled {ds : List Directive} (h : ∀ d ∈ ds, ∀ width, d ≠ .values width []) :
    assemble? address (ds.map (Directive.line "") ++ lines) =
      assemble? (address + BitVec.ofNat 16 (ds.map Directive.size).sum) lines := by
  induction ds generalizing address with
  | nil => simp
  | cons d ds ih =>
    obtain ⟨hd, hds⟩ := List.forall_mem_cons.mp h
    rw [List.map_cons, List.cons_append, assemble?, directive?_line "" hd, Option.bind_some,
      label_line, ih hds, List.map_cons, List.sum_cons, BitVec.ofNat_add, BitVec.add_assoc]
    exact Option.map_id'

/-- The lines of a symbol define its name and move the lines after them by the bytes they fill. -/
theorem assemble?_symbol (s : Symbol) :
    assemble? address (s.lines ++ lines) =
      (assemble? (address + BitVec.ofNat 16 (s.directives.map Directive.size).sum) lines).map
        fun labels => if s.name.isEmpty then labels else (s.name, address) :: labels := by
  obtain ⟨first, rest, hdirectives, hlines, hfirst, hrest⟩ := s.exists_lines
  rw [hlines, hdirectives, List.cons_append, assemble?, directive?_line _ hfirst, Option.bind_some,
    label_line, assemble?_unlabelled hrest, List.map_cons, List.sum_cons, BitVec.ofNat_add,
    BitVec.add_assoc]

theorem mapM_directive? {ds : List Directive} (h : ∀ d ∈ ds, ∀ width, d ≠ .values width []) :
    (ds.map (Directive.line "")).mapM Line.directive? = some ds := by
  induction ds with
  | nil => rfl
  | cons d ds ih =>
    obtain ⟨hd, hds⟩ := List.forall_mem_cons.mp h
    rw [List.map_cons, List.mapM_cons, directive?_line _ hd, ih hds]
    rfl

/-- The lines of a symbol reserve the bytes that its directives fill. -/
theorem reserved?_symbol (s : Symbol) :
    reserved? s.lines = some (s.directives.map Directive.size).sum := by
  obtain ⟨first, rest, hdirectives, hlines, hfirst, hrest⟩ := s.exists_lines
  rw [reserved?, hlines, List.mapM_cons, directive?_line _ hfirst, mapM_directive? hrest,
    hdirectives]
  rfl

/-- The data lines of symbols that fill their memory define the names of the symbols where they
lie one after the other. -/
theorem assemble?_symbols {list : List Symbol}
    (h : ∀ s ∈ list, (s.directives.map Directive.size).sum = s.size) :
    assemble? address (list.flatMap Symbol.lines) =
      some ((Machine.layout address list).filter fun entry => !entry.1.isEmpty) := by
  induction list generalizing address with
  | nil => rfl
  | cons s rest ih =>
    obtain ⟨hs, hrest⟩ := List.forall_mem_cons.mp h
    rw [List.flatMap_cons, assemble?_symbol, hs, ih hrest, Machine.layout, List.filter_cons,
      Option.map_some]
    cases s.name.isEmpty <;> rfl

theorem map_fst_layout (start : Word) (list : List Symbol) :
    (Machine.layout start list).map Prod.fst = list.map Symbol.name := by
  induction list generalizing start with
  | nil => rfl
  | cons s rest ih => rw [Machine.layout, List.map_cons, List.map_cons, ih]

/-- Symbols of different names have one address each. -/
theorem mem_layout_iff {list : List Symbol} (h : (list.map Symbol.name).Nodup) {name : String}
    {start : Word} : (name, address) ∈ Machine.layout start list ↔
      (Machine.layout start list).lookup name = some address := by
  induction list generalizing start with
  | nil => simp [Machine.layout]
  | cons s rest ih =>
    obtain ⟨hs, hrest⟩ := List.nodup_cons.mp h
    rw [Machine.layout, List.mem_cons, List.lookup_cons]
    by_cases hname : name = s.name
    · have hnot : (s.name, address) ∉ Machine.layout (start + BitVec.ofNat 16 s.size) rest := by
        intro hmem
        rw [← map_fst_layout (start + BitVec.ofNat 16 s.size)] at hs
        exact hs (List.mem_map_of_mem hmem)
      simp [hname, hnot, eq_comm]
    · simp [hname, beq_false_of_ne hname, ih hrest]

/-- A program ends in its data: whatever is printed in front, the origin of the data and its lines
come last. -/
theorem exists_front {code : List Instr} {routines : List Routine} {symbols : SymbolTable}
    {origins : Origins} {text : String} (h : program code routines symbols origins = .ok text) :
    ∃ front, text = front ++ origin origins.data ++
      renderAll (symbols.toList.flatMap Symbol.lines) := by
  unfold program at h
  cases hcode : code.mapM Instr.line with
  | error => rw [hcode] at h; cases h
  | ok codeLines =>
    cases hhalt : Instr.hlt.line with
    | error => rw [hcode, hhalt] at h; cases h
    | ok halt =>
      cases hroutines : routines.mapM Routine.lines with
      | error => rw [hcode, hhalt, hroutines] at h; cases h
      | ok routineLines =>
        rw [hcode, hhalt, hroutines] at h
        exact ⟨_, (Except.ok.inj h).symm⟩

/-- The data of a program whose symbols have room, and texts in bytes only, reserves for every
symbol what the machine gives to it, and labels it with the address it has there. -/
theorem program_places_symbols {symbols : SymbolTable} (hroom : symbols.HasRoom)
    (htext : ∀ s ∈ symbols.toList, ∀ chars, s.initial = some (.text chars) →
      s.width = .byte ∨ chars = "") :
    let lines := symbols.toList.flatMap Symbol.lines
    (∀ s ∈ symbols.toList, reserved? s.lines = some s.size) ∧
      (∃ labels, assemble? Machine.dataBase lines = some labels ∧ ∀ label address,
        (label, address) ∈ labels ↔
          label ≠ "" ∧ (Machine.ofSymbols symbols).addressOf? label = some address) ∧
      ∀ code routines origins text, origins.data = Machine.dataBase →
        program code routines symbols origins = .ok text →
          ∃ front, text = front ++ origin Machine.dataBase ++ renderAll lines := by
  intro lines
  have hsize : ∀ s ∈ symbols.toList, (s.directives.map Directive.size).sum = s.size := by
    intro s hs
    rw [← Symbol.size_directives (hroom s hs), Symbol.shortage_eq_zero (htext s hs), Nat.add_zero]
  refine ⟨fun s hs => ?_, ⟨_, assemble?_symbols hsize, fun label address => ?_⟩, ?_⟩
  · rw [reserved?_symbol, hsize s hs]
  · rw [List.mem_filter, mem_layout_iff symbols.nodup, and_comm]
    simp [Machine.addressOf?, Machine.ofSymbols]
  · intro code routines origins text hdata hprogram
    rw [← hdata]
    exact exists_front hprogram

/-- `word tab[4] := {1, -2, 3}; byte msg[6] := "it's"; word buffer[8]; byte last := 7`. -/
def dataSample : SymbolTable where
  toList := [
    { name := "tab", width := .word, dimension := some 4, initial := some (.array [1, -2, 3]) },
    { name := "msg", width := .byte, dimension := some 6, initial := some (.text "it's") },
    { name := "buffer", width := .word, dimension := some 8 },
    { name := "last", width := .byte, initial := some (.scalar 7) }]
  nodup := by decide

/-- The data lines of the sample as they are printed, with one symbol of each kind, and the label of
the last one where the machine has it. -/
theorem program_places_dataSample :
    renderAll (dataSample.toList.flatMap Symbol.lines) =
        "tab:    DW    1, 65534, 3\n" ++ "        DS    2\n" ++ "msg:    DB    'it''s'\n" ++
        "        DS    2\n" ++ "buffer: DS    16\n" ++ "last:   DB    7\n" ∧
      ∃ labels,
        assemble? Machine.dataBase (dataSample.toList.flatMap Symbol.lines) = some labels ∧
        ("last", 0x101E) ∈ labels := by
  have hroom : dataSample.HasRoom := by
    intro s hs
    fin_cases hs
    all_goals
      constructor
      · simp
      · simp [Symbol.provided?, InitialValue.length?, show "it's".utf8ByteSize = 4 by decide]
  have htext : ∀ s ∈ dataSample.toList, ∀ chars, s.initial = some (.text chars) →
      s.width = .byte ∨ chars = "" := by simp [dataSample]
  obtain ⟨-, ⟨labels, hlabels, hmem⟩, -⟩ := program_places_symbols hroom htext
  refine ⟨?_, labels, hlabels, (hmem _ _).mpr ⟨by decide, by decide⟩⟩
  decide +kernel

/-- The word symbol of a text is two bytes short. -/
example : reserved? (Symbol.lines
    { name := "w", width := .word, dimension := some 2, initial := some (.text "hi") }) =
      some 2 := by
  decide +kernel

end Listing

end Accumulator
