import Accumulator.Proofs.Select.Layered

/-!
# Selection leaves tidy code

The steps that select a triple lay their instructions, if the triple names declared variables only.
So the code of a whole program is tidy (`tidy_instructions`), and whatever the two steps that take
back a push remove is the push that the save slot records (`takesBackPush_dropDeadSpill`,
`takesBackPush_settleStack`).
-/

namespace Accumulator

namespace Select

variable {symbols : SymbolTable} {s s' : State} {v x y : Value} {t : Triple} {α : Type}

/-! ## Access to memory -/

/-- An instruction that addresses memory by a pair, or counts in it. -/
theorem isPlain_of_pair {p : Pair} (hp : p.isGeneral = true) :
    Instr.isPlain symbols (.stax p) = true ∧ Instr.isPlain symbols (.inx p) = true ∧
      Instr.isPlain symbols (.dcx p) = true ∧ Instr.isPlain symbols (.dad p) = true := by
  cases p <;> first | exact ⟨rfl, rfl, rfl, rfl⟩ | cases hp

/-- Adding the start of an array. If no pair is free, DE is pushed and popped within the emitted
code, so the stack is balanced again. -/
theorem lays_addBase {base : String} (hbase : symbols.contains base = true) :
    Lays symbols (addBase base) := by
  have hlxi (p : Pair) (hp : p.isGeneral = true) :
      Instr.isPlain symbols (.lxi p (.ofSymbol base)) = true := isPlain_of_imm? rfl hp hbase
  have hdad (p : Pair) (hp : p.isGeneral = true) : Instr.isPlain symbols (.dad p) = true :=
    (isPlain_of_pair hp).2.2.2
  unfold addBase
  refine .bind .get fun s => ?_
  dsimp only
  split
  next p hloaded =>
    refine .emit (hdad p ?_)
    split at hloaded <;> cases hloaded <;> rfl
  · split
    next p hfind =>
      have hp : p.isGeneral = true := by
        have hmem : p = .d ∨ p = .b := by simpa using List.mem_of_find?_eq_some hfind
        obtain rfl | rfl := hmem <;> rfl
      refine .bind (lays_vacatePair _) fun _ => .bind (.emit (hlxi p hp)) fun _ => ?_
      exact .bind (.record _) fun _ => .emit (hdad p hp)
    · have hsum : Tidy symbols 1 0 [.lxi .d (.ofSymbol base), .dad .d] :=
        .of_plain (by simpa using ⟨hlxi .d rfl, hdad .d rfl⟩)
      have hinner : Tidy symbols 1 1 [.lxi .d (.ofSymbol base), .dad .d] :=
        { hsum with shallow := rfl }
      exact .emitAll (hinner.enclose rfl rfl (by decide))

/-- The address of an element at a constant position names the array, which is declared. -/
theorem lays_addressConstElement {base : String} (offset : Int)
    (hbase : symbols.contains base = true) :
    Lays symbols (addressConstElement base offset) := by
  unfold addressConstElement
  refine .bind .get fun s => .ite (.emitAll (.replicate _ rfl)) ?_
  exact .bind (lays_vacateHL _) fun _ => .emit (isPlain_of_imm? rfl rfl hbase)

/-- The address of an element at a computed position. -/
theorem lays_addressElement {base : String} {position : Operand} (width : Width)
    (hbase : symbols.contains base = true) (hposition : Declared symbols (.of position)) :
    Lays symbols (addressElement base width position) := by
  unfold addressElement
  refine .bind (lays_loadHL hposition) fun _ => .bind lays_preserveHL fun _ => ?_
  dsimp only
  split
  · exact .bind (.emit rfl) fun _ => lays_addBase hbase
  · exact lays_addBase hbase

/-- Reading a word element addresses memory by HL only. -/
theorem lays_loadElement (id : Nat) : Lays symbols (loadElement id) := by
  have hload : Lays symbols (do
      saveAccumulator false
      emitAll [.mov .a .m, .inx .h, .mov .h .m, .mov .l .a]
      record fun rf => (rf.clear .a).bindPair .h (.temp id)) :=
    .bind (lays_saveAccumulator _) fun _ => .bind (.emitAll (.of_plain rfl)) fun _ => .record _
  unfold loadElement
  refine .bind .get fun s => ?_
  dsimp only
  refine .ite (.ite ?_ (.ite ?_ ?_)) hload
  · exact .bind (lays_copyPair _ _) fun _ => hload
  · exact .bind (lays_copyPair _ _) fun _ => hload
  · exact .bind (lays_spillHL _ rfl) fun _ => hload

/-- Looking up the array emits nothing, and may stop the selection. -/
theorem lays_arraySymbol (base : String) : Lays symbols (arraySymbol t base) := by
  unfold arraySymbol
  refine .bind .get fun s => ?_
  split
  · exact .ite (.pure _) (.rejectIllegal _)
  · exact .rejectIllegal _

/-- The operands of a triple that names declared variables only. -/
theorem declared_of_names (hnames : ∀ name, t.Names name → symbols.contains name = true) :
    Declared symbols (.of t.lhs) ∧ ∀ o, t.rhs = some o → Declared symbols (.of o) := by
  constructor
  · intro name hlhs
    exact hnames name (List.mem_cons.mpr (.inl hlhs.symm))
  · intro o ho name hname
    cases hname
    exact hnames name (by simp [Triple.Names, ho])

/-- An element is selected, at a constant or at a computed position. -/
theorem lays_selectIndex (hnames : ∀ name, t.Names name → symbols.contains name = true) :
    Lays symbols (selectIndex t) := by
  obtain ⟨hlhs, hrhs⟩ := declared_of_names hnames
  have hread : Lays symbols (do
      record (·.bindPair .h (.addr (.temp t.id)))
      if t.width = .word ∧ !t.addressOnly then
        loadElement t.id) :=
    .bind (.record _) fun _ => .ite (lays_loadElement _) (.pure _)
  unfold selectIndex
  split
  next base hbase =>
    have hbase := hlhs base hbase
    refine .bind (lays_arraySymbol _) fun symbol => ?_
    dsimp only
    split
    · exact .bind (.rejectIllegal _) fun _ => hread
    · split
      · exact .bind (lays_addressConstElement _ hbase) fun _ => hread
      · exact .bind (.throw _) fun _ => hread
    next position hposition =>
      exact .bind (lays_addressElement _ hbase (hrhs _ hposition)) fun _ => hread
  · exact .rejectIllegal _

/-- What is done with the pair that holds an address. -/
theorem lays_locateAddress {f : Pair → Selecting α} (hv : Declared symbols v)
    (hf : ∀ p, p.isGeneral = true → Lays symbols (f p)) : Lays symbols (locateAddress v >>= f) := by
  intro s hs
  simp only [locateAddress, after_bind, after_get]
  split
  next p hfind =>
    refine (after_pure _).mpr (hf p ?_ s hs)
    have hmem : p ∈ RegisterFile.searchOrder := List.mem_of_find?_eq_some hfind
    cases p <;> first | rfl | simp [RegisterFile.searchOrder] at hmem
  · refine after_ite (fun _ => ?_) fun _ => after_rejectTooComplex
    rw [after_bind]
    exact (lays_loadHL hv s hs).mono fun _ s' hs' => (after_pure _).mpr (hf .h rfl s' hs')

theorem lays_addressOfElement (id : Nat) : Lays symbols (addressOfElement t id) := by
  unfold addressOfElement
  refine lays_locateAddress (.temp id) fun p _ => .bind .get fun s => .ite ?_ (.record _)
  split
  · exact .bind lays_preserveHL fun _ => .record _
  · refine .bind (lays_vacateHL _) fun _ => .bind (.emitAll (.of_plain rfl)) fun _ => ?_
    exact .record _
  · exact .record _

/-- The address of a variable or of an element is selected. -/
theorem lays_selectAddress (hnames : ∀ name, t.Names name → symbols.contains name = true) :
    Lays symbols (selectAddress t) := by
  obtain ⟨hlhs, -⟩ := declared_of_names hnames
  unfold selectAddress
  split
  next name hname =>
    refine .bind (lays_vacateHL _) fun _ => .bind (.emit ?_) fun _ => .record _
    exact isPlain_of_imm? rfl rfl (hlhs name hname)
  · exact .bind .get fun s => .ite (lays_addressOfElement _) (.rejectIllegal _)
  · exact .rejectIllegal _

theorem lays_requirePointer : Lays symbols (requirePointer t) := by
  unfold requirePointer
  split
  · exact .bind .get fun s => .ite (.rejectIllegal _) (.pure _)
  · exact .pure _

/-- What a pointer points at is selected: the pointer is loaded and renamed. -/
theorem lays_selectDeref (hnames : ∀ name, t.Names name → symbols.contains name = true) :
    Lays symbols (selectDeref t) := by
  obtain ⟨hlhs, -⟩ := declared_of_names hnames
  refine .bind lays_requirePointer fun _ => .bind (lays_loadHL hlhs) fun _ => ?_
  exact .bind lays_preserveHL fun _ => .record _

theorem lays_storeAtHL (hv : Declared symbols v) : Lays symbols (storeAtHL v) := by
  unfold storeAtHL
  refine .bind .get fun s => ?_
  split
  · exact .emit rfl
  · exact .emit rfl
  · exact .bind (lays_loadAccumulator hv) fun _ => .emit rfl

/-- A byte is stored at an address, through whichever pair has it. -/
theorem lays_storeByte {address : Value} (haddress : Declared symbols address)
    (hv : Declared symbols v) : Lays symbols (storeByte address v) := by
  unfold storeByte
  refine .bind .get fun s => ?_
  extract_lets store
  have hstore (r : Unit) : Lays symbols (store r) := by
    refine lays_locateAddress haddress fun p hp => ?_
    split
    · exact lays_storeAtHL hv
    · exact .bind (lays_loadAccumulator hv) fun _ => .emit (isPlain_of_pair hp).1
  exact .ite (.bind (lays_loadAccumulator hv) hstore) (hstore ())

theorem lays_storeFromDE (address : Value) : Lays symbols (storeFromDE address) := by
  unfold storeFromDE
  refine .bind .get fun s => ?_
  exact .bind (.emitAll (.of_plain rfl)) fun _ => .ite (.emit rfl) (.record _)

/-- A word in HL is stored through another pair, byte by byte. -/
theorem lays_storeFromHL (p : Pair) (address : Value) (hv : Declared symbols v) :
    Lays symbols (storeFromHL p address v) := by
  unfold storeFromHL
  refine .bind (lays_loadHL hv) fun _ => ?_
  split
  · exact .rejectTooComplex
  next high low hhalves =>
    obtain ⟨hstax, hinx, hdcx, -⟩ := @isPlain_of_pair symbols p (Pair.isGeneral_of_halves? hhalves)
    refine .bind .get fun s => .bind (lays_saveAccumulator _) fun _ =>
      .bind (.emitAll ?_) fun _ => ?_
    · refine .of_plain ?_
      simp only [List.all_cons, hstax, hinx]
      rfl
    · exact .bind (.record _) fun _ => .ite (.emit hdcx) (.record _)

/-- A word is stored at an address. -/
theorem lays_storeWord {address : Value} (haddress : Declared symbols address)
    (hv : Declared symbols v) : Lays symbols (storeWord address v) := by
  unfold storeWord
  refine lays_locateAddress haddress fun p _ => ?_
  split
  · refine .bind .get fun s => .ite ?_ ?_
    · exact .bind (lays_loadPair _ hv) fun _ => lays_storeFromDE _
    · exact .bind lays_exchange fun _ => lays_storeFromHL _ _ hv
  · exact lays_storeFromHL _ _ hv

/-- A variable is stored to by its name, which is declared. -/
theorem lays_storeVariable {name : String} (hname : symbols.contains name = true)
    (hv : Declared symbols v) : Lays symbols (storeVariable name v) := by
  have hforget (width : Width) : Lays symbols (do
      forgetStale (some name) v
      let s ← get
      if !s.isLiveAfter v && s.widthOf v = width then
        retag v (.var name)) :=
    .bind (lays_forgetStale _ _) fun _ => .bind .get fun s => .ite (.record _) (.pure _)
  unfold storeVariable
  refine .get_bind fun s hsymbols => ?_
  dsimp only
  split
  · refine .ite (.bind (lays_storeAtHL hv) fun _ => hforget _) ?_
    refine .bind (lays_loadAccumulator hv) fun _ => .bind (.emit ?_) fun _ => hforget _
    exact isPlain_of_imm? rfl rfl hname
  next hword =>
    refine .bind (lays_loadHL hv) fun _ => .bind (.emit ?_) fun _ => hforget _
    exact isPlain_of_imm? rfl (isRegular_of_word (hsymbols ▸ hword)).2 hname

theorem lays_storeElement (target : Triple) (hv : Declared symbols v) :
    Lays symbols (storeElement target v) := by
  unfold storeElement
  dsimp only
  split
  · exact .bind (lays_storeByte (.temp _) hv) fun _ => lays_forgetStale _ _
  · exact .bind (lays_storeWord (.temp _) hv) fun _ => lays_forgetStale _ _

/-- A byte is stored where a pointer points. It is loaded before the pointer, unless it is a literal
or in a register already. -/
theorem lays_storeThroughPointer (hlhs : Declared symbols (.of t.lhs)) (hv : Declared symbols v) :
    Lays symbols (storeThroughPointer t v) := by
  have hstore : Lays symbols (do
      loadHL (.of t.lhs)
      storeAtHL v
      forgetStale none v) :=
    .bind (lays_loadHL hlhs) fun _ => .bind (lays_storeAtHL hv) fun _ => lays_forgetStale _ _
  unfold storeThroughPointer
  refine .bind lays_requirePointer fun _ => .bind .get fun s => ?_
  dsimp only
  refine .ite (.bind (.rejectIllegal _) fun _ => ?_) ?_
  · exact .ite (.bind (lays_loadAccumulator hv) fun _ => hstore) hstore
  · exact .ite (.bind (lays_loadAccumulator hv) fun _ => hstore) hstore

/-- An assignment is selected, to a variable, an element, a pointee or through a pointer. -/
theorem lays_selectAssign (hnames : ∀ name, t.Names name → symbols.contains name = true) :
    Lays symbols (selectAssign t) := by
  obtain ⟨hlhs, hrhs⟩ := declared_of_names hnames
  unfold selectAssign
  split
  · exact .rejectIllegal _
  next rhs hvalue =>
    have hv := hrhs rhs hvalue
    refine .ite (lays_storeThroughPointer hlhs hv) ?_
    split
    next name hname => exact lays_storeVariable (hlhs name hname) hv
    · exact .rejectIllegal _
    · refine .bind .get fun s => ?_
      split
      · exact .rejectIllegal _
      · split
        · exact lays_storeElement _ hv
        · exact .bind (lays_storeByte (.temp _) hv) fun _ => lays_forgetStale _ _
        · exact .rejectIllegal _

/-! ## Arithmetic -/

/-- A flag becomes a number: the jump over the clearing of the accumulator stays within the three
instructions. -/
theorem lays_emitFlag (cond : Cond) : Lays symbols (emitFlag cond) :=
  .emitAll (.flag cond)

theorem isPlain_source (op : AluOp) (source : Source) :
    (source.instr op).isPlain symbols = true := by
  cases source <;> rfl

/-- The second operand of a byte operation is found or loaded. -/
theorem lays_secondOperand (hv : Declared symbols v) : Lays symbols (secondOperand v) := by
  unfold secondOperand
  refine .bind .get fun s => ?_
  split
  · exact .pure _
  · refine .ite (.pure _) ?_
    split
    · refine .ite (.pure _) (.bind (lays_takeWork _) fun r => ?_)
      exact .bind (.emit rfl) fun _ => .bind (.record _) fun _ => .pure _
    · exact lays_loadImmediate (isPlain_of_imm? rfl rfl (hv _ rfl))
    · exact .rejectTooComplex

theorem lays_prepareSecond (hv : Declared symbols v) : Lays symbols (prepareSecond v) := by
  unfold prepareSecond
  refine .bind .get fun s => .ite (.bind (lays_loadAccumulator hv) fun _ => ?_) (.pure _)
  exact .bind (lays_takeWork _) fun r => .bind (.emit rfl) fun _ => .record _

theorem lays_loadForChange (hv : Declared symbols v) : Lays symbols (loadForChange v) :=
  .bind (lays_loadAccumulator hv) fun _ => lays_saveAccumulator _

/-- A binary operation on bytes is selected. All values that it loads come from the operands of the
triple, or are literals. -/
theorem lays_selectByteBinary (hnames : ∀ name, t.Names name → symbols.contains name = true) :
    Lays symbols (selectByteBinary t) := by
  obtain ⟨hlhs, hrhs⟩ := declared_of_names hnames
  unfold selectByteBinary
  split
  · exact .rejectIllegal _
  next rhs hright =>
    have hv := hrhs rhs hright
    refine .bind .get fun s => ?_
    extract_lets cheap
    split
    next swapped raised _ =>
      -- The operands are in the order that the selector has chosen; both are declared in either
      -- order.
      extract_lets primary secondary flag
      have hprimary : Declared symbols primary := by
        simp only [primary]
        split
        · exact hv
        · exact hlhs
      have hsecondary : Declared symbols secondary := by
        simp only [secondary]
        split
        · exact .of_const _
        · split
          · exact hlhs
          · exact hv
      refine .bind (lays_prepareSecond hsecondary) fun _ => ?_
      refine .bind (lays_loadAccumulator hprimary) fun _ => ?_
      refine .bind (lays_secondOperand hsecondary) fun source => ?_
      refine .bind (lays_saveAccumulator _) fun _ => ?_
      have hflag (r : Unit) : Lays symbols (flag r) := by
        simp only [flag]
        split
        · exact lays_emitFlag _
        · exact .pure _
      split
      · exact .bind (.rejectIllegal _) hflag
      · refine .ite (.bind (.emitAll (.of_plain ?_)) hflag) ?_
        · simp only [List.all_cons, isPlain_source]
          rfl
        · exact .bind (.emit (isPlain_source _ _)) hflag

/-- A shift of a byte is selected, by rotating or by calling a routine. -/
theorem lays_selectByteShift (hnames : ∀ name, t.Names name → symbols.contains name = true) :
    Lays symbols (selectByteShift t) := by
  obtain ⟨hlhs, hrhs⟩ := declared_of_names hnames
  unfold selectByteShift
  dsimp only
  split
  · exact .rejectIllegal _
  · exact lays_loadForChange hlhs
  · refine .bind (lays_loadForChange hlhs) fun _ => .emitAll (.of_plain ?_)
    cases t.op <;> rfl
  next count _ _ hcount =>
    refine .bind (lays_loadReg _ (hrhs _ hcount)) fun _ =>
      .bind (lays_loadForChange hlhs) fun _ => ?_
    exact .bind (lays_keepByte _ _ _ _) fun _ => lays_callRoutine _

/-- Any operation on bytes is selected. -/
theorem lays_selectByte (hnames : ∀ name, t.Names name → symbols.contains name = true) :
    Lays symbols (selectByte t) := by
  obtain ⟨hlhs, -⟩ := declared_of_names hnames
  unfold selectByte
  dsimp only
  split
  · refine .bind (lays_loadForChange hlhs) fun _ => .bind (.emitAll ?_) fun _ => .record _
    exact .replicate _ rfl
  · refine .bind (lays_loadForChange hlhs) fun _ => .bind (.emitAll ?_) fun _ => .record _
    exact .replicate _ rfl
  · exact .bind (lays_loadForChange hlhs) fun _ => .bind (.emit rfl) fun _ => .record _
  · exact .bind (lays_selectByteShift hnames) fun _ => .record _
  · exact .bind (lays_selectByteShift hnames) fun _ => .record _
  · exact .bind (lays_selectByteBinary hnames) fun _ => .record _

theorem lays_loadHLForChange (hv : Declared symbols v) : Lays symbols (loadHLForChange v) :=
  .bind (lays_loadHL hv) fun _ => lays_preserveHL

/-- The operands of a word operation are placed, one in HL and one in another pair. -/
theorem lays_placeOperands (fixed : Option Pair) (hx : Declared symbols x)
    (hy : Declared symbols y) : Lays symbols (placeOperands x y fixed) := by
  unfold placeOperands
  refine .bind .get fun s => ?_
  extract_lets held p done
  have hdone (r : Unit) : Lays symbols (done r) := .pure _
  refine .ite ?_ (.ite ?_ (.ite ?_ ?_))
  · refine .bind (lays_loadHL hx) fun _ => .bind (lays_vacatePair _) fun _ => ?_
    exact .bind (lays_copyPair _ _) hdone
  · refine .bind (lays_loadPair _ hy) fun _ => .bind .get fun s => ?_
    exact .ite (.bind (lays_loadHL hx) hdone) (hdone ())
  · refine .ite ?_ ?_
    · exact .bind lays_exchange fun _ => .bind (lays_loadHL hx) hdone
    · exact .bind (lays_loadPair _ hy) fun _ => .bind (lays_loadHL hx) hdone
  · exact .bind (lays_loadPair _ hy) fun _ => .bind (lays_loadHL hx) hdone

/-- The pair for the second operand is one of BC and DE, never the stack pointer. -/
theorem isGeneral_secondPair : s.secondPair.isGeneral = true := by
  unfold State.secondPair
  split <;> rfl

/-- The second operand is in a pair of registers: the one that held it already, or the one that is
chosen for it. -/
theorem after_placeOperands (x y : Value) :
    After (placeOperands x y none) s fun p _ => p.isGeneral = true := by
  unfold placeOperands
  rw [after_bind, after_get]
  extract_lets held p done
  have hp : p.isGeneral = true := by
    simp only [p]
    split
    next h => cases h
    next q _ hheld =>
      split
      · exact isGeneral_secondPair
      · have hmem : q = .d ∨ q = .b := by simpa using List.mem_of_find?_eq_some hheld
        obtain rfl | rfl := hmem <;> rfl
    · exact isGeneral_secondPair
  have hdone (r : Unit) (s' : State) : After (done r) s' fun q _ => q.isGeneral = true :=
    (after_pure _).mpr hp
  -- Whatever is loaded on the way, the last step gives the pair as the answer.
  have hlast {β : Type} (step : Selecting β) (rest : β → Selecting Pair) (s : State)
      (hrest : ∀ b s', After (rest b) s' fun q _ => q.isGeneral = true) :
      After (step >>= rest) s fun q _ => q.isGeneral = true :=
    (after_bind _ _).mpr fun b s' _ => hrest b s'
  refine after_ite (fun _ => ?_) fun _ => after_ite (fun _ => ?_) fun _ =>
    after_ite (fun _ => after_ite (fun _ => ?_) fun _ => ?_) fun _ => ?_
  · exact hlast _ _ _ fun _ s' => hlast _ _ _ fun _ s' => hlast _ _ _ hdone
  · refine hlast _ _ _ fun _ s' => hlast _ _ _ fun _ s' => ?_
    exact after_ite (fun _ => hlast _ _ _ hdone) fun _ => hdone () s'
  · exact hlast _ _ _ fun _ s' => hlast _ _ _ hdone
  · exact hlast _ _ _ fun _ s' => hlast _ _ _ hdone
  · exact hlast _ _ _ fun _ s' => hlast _ _ _ hdone

/-- A word operation that goes byte by byte through the accumulator. -/
theorem lays_emitBytewise {low high : Instr} (hlow : low.isPlain symbols = true)
    (hhigh : high.isPlain symbols = true) : Lays symbols (emitBytewise low high) := by
  refine .emitAll (.of_plain ?_)
  simp only [List.all_cons, hlow, hhigh]
  rfl

theorem lays_selectWordAdd (hx : Declared symbols x) (hy : Declared symbols y) :
    Lays symbols (selectWordAdd x y) := by
  unfold selectWordAdd
  refine .ite (.bind (lays_loadHLForChange hx) fun _ => .emit rfl) ?_
  intro s hs
  rw [after_bind]
  refine ((lays_placeOperands none hx hy s hs).and (after_placeOperands x y)).mono ?_
  intro p s' hp
  exact Lays.bind lays_preserveHL (fun _ => .emit (isPlain_of_pair hp.2).2.2.2) s' hp.1

theorem lays_selectWordBitwise (op : AluOp) (hx : Declared symbols x) (hy : Declared symbols y) :
    Lays symbols (selectWordBitwise op x y) := by
  unfold selectWordBitwise
  dsimp only
  split
  · refine .bind (lays_loadHLForChange hx) fun _ => .bind (lays_saveAccumulator _) fun _ => ?_
    exact .bind (lays_emitBytewise rfl rfl) fun _ => .record _
  · refine .bind (lays_placeOperands none hx hy) fun p => ?_
    split
    · exact .bind .rejectTooComplex fun _ => .record _
    · refine .bind lays_preserveHL fun _ => .bind (lays_saveAccumulator _) fun _ => ?_
      exact .bind (lays_emitBytewise rfl rfl) fun _ => .record _

/-- The difference of words is a call, with the operands in HL and DE. -/
theorem lays_subtractWords (hx : Declared symbols x) (hy : Declared symbols y) :
    Lays symbols (subtractWords x y) := by
  refine .bind (lays_placeOperands _ hx hy) fun _ => .bind lays_preserveHL fun _ => ?_
  exact .bind (lays_saveAccumulator _) fun _ => lays_callRoutine _

/-- Words are compared by their difference. For equality its halves are joined, so that the zero
flag tells. -/
theorem lays_selectWordCompare (hx : Declared symbols x) (hy : Declared symbols y) :
    Lays symbols (selectWordCompare t x y) := by
  unfold selectWordCompare
  split
  · exact .rejectIllegal _
  next relation _ =>
    have hflag (swapped : Bool) : Lays symbols (do
        emitFlag (relation.condition swapped)
        record (·.bind .a (.temp t.id))) :=
      .bind (lays_emitFlag _) fun _ => .record _
    have hcompare (swapped : Bool) : Lays symbols (do
        if t.op.isCommutative then
          emitAll [.mov .a .h, .alu .or .l]
        emitFlag (relation.condition swapped)
        record (·.bind .a (.temp t.id))) :=
      .ite (.bind (.emitAll (.of_plain rfl)) fun _ => hflag swapped) (hflag swapped)
    refine .bind .get fun s => ?_
    dsimp only
    refine .ite ?_ ?_
    · exact .bind (lays_subtractWords hy hx) fun _ => hcompare _
    · exact .bind (lays_subtractWords hx hy) fun _ => hcompare _

/-- A shift of a word is selected, by doubling or by calling a routine. -/
theorem lays_selectWordShift (hnames : ∀ name, t.Names name → symbols.contains name = true) :
    Lays symbols (selectWordShift t) := by
  obtain ⟨hlhs, hrhs⟩ := declared_of_names hnames
  unfold selectWordShift
  dsimp only
  split
  · exact .rejectIllegal _
  next count hcount =>
    split
    · exact .bind (lays_loadHLForChange hlhs) fun _ => .emitAll (.replicate _ rfl)
    · have hcall (routine : Routine) : Lays symbols (do
          keepByte (.of count) .c [.c] true
          callRoutine routine) :=
        .bind (lays_keepByte _ _ _ _) fun _ => lays_callRoutine _
      refine .bind (lays_loadReg _ (hrhs _ hcount)) fun _ => ?_
      refine .bind (lays_loadHLForChange hlhs) fun _ => ?_
      exact .ite (.bind (lays_saveAccumulator _) fun _ => hcall _) (hcall _)

/-- What is done with the right operand. -/
theorem lays_rightOperand {f : Value → Selecting α}
    (hrhs : ∀ o, t.rhs = some o → Declared symbols (.of o))
    (hf : ∀ y, Declared symbols y → Lays symbols (f y)) : Lays symbols (rightOperand t >>= f) := by
  intro s hs
  rw [after_bind]
  unfold rightOperand
  split
  next o ho => exact (after_pure _).mpr (hf _ (hrhs o ho) s hs)
  · exact after_reject _

/-- What is done with the operands of a commutative operation. -/
theorem lays_commuteOperands {f : Value × Value → Selecting α} (hlhs : Declared symbols (.of t.lhs))
    (hrhs : ∀ o, t.rhs = some o → Declared symbols (.of o))
    (hf : ∀ x y, Declared symbols x → Declared symbols y → Lays symbols (f (x, y))) :
    Lays symbols (commuteOperands t >>= f) := by
  unfold commuteOperands
  rw [bind_assoc]
  refine lays_rightOperand hrhs fun y hy => ?_
  rw [bind_assoc]
  refine .bind .get fun s => ?_
  rw [pure_bind]
  split
  · exact hf _ _ hy hlhs
  · exact hf _ _ hlhs hy

/-- Any operation on words is selected. The cases are those of the operator. -/
theorem lays_selectWord (hnames : ∀ name, t.Names name → symbols.contains name = true) :
    Lays symbols (selectWord t) := by
  obtain ⟨hlhs, hrhs⟩ := declared_of_names hnames
  unfold selectWord
  dsimp only
  -- Counts, the complement, shifts, sums, bitwise operators, differences, and comparisons.
  split
  · refine .bind (lays_loadHLForChange hlhs) fun _ => .bind (.emitAll ?_) fun _ => .record _
    exact .replicate _ rfl
  · refine .bind (lays_loadHLForChange hlhs) fun _ => .bind (.emitAll ?_) fun _ => .record _
    exact .replicate _ rfl
  · refine .bind (lays_loadHLForChange hlhs) fun _ => .bind (lays_saveAccumulator _) fun _ => ?_
    exact .bind (lays_emitBytewise rfl rfl) fun _ => .record _
  · exact .bind (lays_selectWordShift hnames) fun _ => .record _
  · exact .bind (lays_selectWordShift hnames) fun _ => .record _
  · refine lays_commuteOperands hlhs hrhs fun x y hx hy => ?_
    exact .bind (lays_selectWordAdd hx hy) fun _ => .record _
  · refine lays_commuteOperands hlhs hrhs fun x y hx hy => ?_
    exact .bind (lays_selectWordBitwise _ hx hy) fun _ => .record _
  · refine lays_commuteOperands hlhs hrhs fun x y hx hy => ?_
    exact .bind (lays_selectWordBitwise _ hx hy) fun _ => .record _
  · refine lays_commuteOperands hlhs hrhs fun x y hx hy => ?_
    exact .bind (lays_selectWordBitwise _ hx hy) fun _ => .record _
  · refine lays_rightOperand hrhs fun y hy => ?_
    exact .bind (lays_subtractWords hlhs hy) fun _ => .record _
  · refine .ite (lays_rightOperand hrhs fun y hy => ?_) (.rejectIllegal _)
    exact lays_selectWordCompare hlhs hy

/-! ## Whole programs -/

/-- Any triple is selected, if it names declared variables only. -/
theorem lays_selectTriple (hnames : ∀ name, t.Names name → symbols.contains name = true) :
    Lays symbols (selectTriple t) := by
  unfold selectTriple
  split
  · exact lays_selectAssign hnames
  · exact lays_selectIndex hnames
  · exact lays_selectAddress hnames
  · exact lays_selectDeref hnames
  · split
    · exact lays_selectByte hnames
    · exact lays_selectWord hnames

theorem lays_enter (pos : Nat) (t : Triple) : Lays symbols (enter pos t) :=
  fun _ hs => (after_modify _).mpr (hs.congr rfl rfl rfl)

/-- Triples are selected one after the other. Between two of them a save slot that nothing needs any
more is dropped, and its push erased. -/
theorem lays_selectFrom {triples : List Triple} (pos : Nat)
    (hnames : ∀ t ∈ triples, ∀ name, t.Names name → symbols.contains name = true) :
    Lays symbols (selectFrom pos triples) := by
  induction triples generalizing pos with
  | nil => exact fun _ hs => (after_modify _).mpr (hs.congr rfl rfl rfl)
  | cons t rest ih =>
    obtain ⟨ht, hrest⟩ := List.forall_mem_cons.mp hnames
    refine .bind (lays_enter pos t) fun _ => .bind lays_dropDeadSpill fun _ => ?_
    exact .bind (lays_selectTriple ht) fun _ => ih (pos + 1) hrest

/-- The step removes nothing but the push that the save slot records. -/
def TakesBackPush (x : Selecting Unit) (s : State) : Prop :=
  After x s fun _ s' => s'.code = s.code ∨ ∃ slot p before after, s.spill = some slot ∧
    s.code = before ++ .push p :: after ∧ before.length = slot.pushAt ∧
    s'.code = before ++ after ∧ s'.spill = none

/-- The push that the slot records is removed. -/
theorem Layered.exists_erase {slot : Spill} (h : Layered symbols s) (hspill : s.spill = some slot) :
    ∃ slot' p before after, s.spill = some slot' ∧ s.code = before ++ .push p :: after ∧
      before.length = slot'.pushAt ∧ s.code.eraseIdx slot.pushAt = before ++ after := by
  cases h with
  | bare _ hnone hcode => cases hnone.symm.trans hspill
  | saved _ hsome hcode hparts =>
    refine ⟨_, _, _, _, hsome, hcode, hparts.length, ?_⟩
    cases hsome.symm.trans hspill
    rw [hcode, ← hparts.length, Peephole.eraseIdx_length_append]

/-- Dropping a dead save slot removes the push that filled it, and nothing else. -/
theorem takesBackPush_dropDeadSpill (hs : Layered symbols s) : TakesBackPush dropDeadSpill s := by
  simp only [TakesBackPush, dropDeadSpill, after_bind, after_get]
  split
  · exact (after_pure _).mpr (.inl rfl)
  next slot hspill =>
    refine after_ite (fun _ => ?_) fun _ => (after_pure _).mpr (.inl rfl)
    obtain ⟨slot', p, before, after, hslot, hcode, hat, herase⟩ := hs.exists_erase hspill
    exact (after_set _).mpr (.inr ⟨slot', p, before, after, hslot, hcode, hat, herase, rfl⟩)

/-- Settling the stack at the end removes the push that filled the slot, and nothing else. -/
theorem takesBackPush_settleStack (hs : Layered symbols s) : TakesBackPush settleStack s := by
  simp only [TakesBackPush, settleStack, after_bind, after_get]
  split
  · exact (after_pure _).mpr (.inl rfl)
  next slot hspill =>
    refine after_ite (fun _ => after_reject _) fun _ => ?_
    obtain ⟨slot', p, before, after, hslot, hcode, hat, herase⟩ := hs.exists_erase hspill
    exact (after_set _).mpr (.inr ⟨slot', p, before, after, hslot, hcode, hat, herase, rfl⟩)

end Select

namespace Program

open Select

/-- The state in which the selection for a program starts. -/
def entry (p : Program) : State :=
  { triples := p.triples, symbols := p.symbols }

/-- At the start there is no code and nothing is saved. -/
theorem layered_entry (p : Program) : Layered p.symbols p.entry :=
  .bare rfl rfl .nil

/-- The code of a program that names declared variables only is tidy. -/
theorem tidy_instructions {p : Program} {code : List Instr}
    (hnames : ∀ t ∈ p.triples, ∀ name, t.Names name → p.symbols.contains name = true)
    (hcode : p.instructions = .ok code) : Tidy p.symbols 2 0 code := by
  have hall : After selectAll p.entry fun _ s => Tidy p.symbols 2 0 s.code := by
    rw [selectAll, after_bind, after_get, after_bind]
    exact (lays_selectFrom 0 hnames p.entry p.layered_entry).mono fun _ s hs => after_settleStack hs
  unfold instructions at hcode
  split at hcode
  next s hselect =>
    cases hcode
    exact hall _ s hselect
  · cases hcode

end Program

end Accumulator
