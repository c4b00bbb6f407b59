import Mathlib
import Accumulator.Reader

/-!
# Routines are read back

What a routine line prints is what the machine reads: operands come back from the field they are
joined in (`arguments_operandField`), an action from the line it is printed in (`readAction_line`),
and so the lines that the machine runs are those in the listing (`read_lines`).
-/

namespace Accumulator

/-! ## Operands -/

namespace Listing

/-- A field without a comma ends where the next one starts. -/
theorem fields_append {field : List Char} (h : ',' ∉ field) (rest : List Char) :
    fields (field ++ ',' :: ' ' :: rest) = field :: fields rest := by
  induction field with
  | nil => rfl
  | cons c field ih =>
    rw [List.cons_append, fields, ih (List.not_mem_of_not_mem_cons h)]
    · rfl
    · rintro _ rfl
      exact fun _ => h List.mem_cons_self

/-- A text without a comma is one field. -/
theorem fields_of_not_mem {field : List Char} (h : ',' ∉ field) : fields field = [field] := by
  induction field with
  | nil => rfl
  | cons c field ih =>
    rw [fields, ih (List.not_mem_of_not_mem_cons h)]
    · rfl
    · rintro _ rfl
      exact fun _ => h List.mem_cons_self

/-- The fields of operands, of which there is at least one. -/
theorem fields_operandField (first : String) (rest : List String)
    (h : ∀ o ∈ first :: rest, ',' ∉ o.toList) :
    fields (operandField (first :: rest)).toList = (first :: rest).map String.toList := by
  induction rest generalizing first with
  | nil => simpa [operandField] using fields_of_not_mem (h first List.mem_cons_self)
  | cons second rest ih =>
    have hfield : (operandField (first :: second :: rest)).toList =
        first.toList ++ ',' :: ' ' :: (operandField (second :: rest)).toList := by
      simp [operandField, String.toList_intercalate]
    rw [hfield, fields_append (h first List.mem_cons_self),
      ih second fun o ho => h o (List.mem_cons_of_mem _ ho)]
    rfl

/-- Operands are read back from the text they are printed in. -/
theorem arguments_operandField {label mnemonic : String} {operands : List String}
    (hne : ∀ o ∈ operands, o ≠ "") (h : ∀ o ∈ operands, ',' ∉ o.toList) :
    Line.arguments { label, mnemonic, operands := operandField operands } = operands := by
  cases operands with
  | nil => simp [Line.arguments, operandField, fields]
  | cons first rest =>
    have hkept : ((first :: rest).map String.toList).filter (fun field => !field.isEmpty) =
        (first :: rest).map String.toList := by
      rw [List.filter_eq_self]
      intro field hfield
      obtain ⟨o, ho, rfl⟩ := List.mem_map.mp hfield
      simpa using hne o ho
    rw [Line.arguments, fields_operandField first rest h, hkept, List.map_map]
    simp [Function.comp_def]

end Listing

/-! ## Lines -/

namespace Routine

theorem readRegister_name (r : Reg) : readRegister r.name = .ok r := by
  cases r <;> rfl

/-- The operands of an instruction on registers are read back. -/
theorem arguments_names {label mnemonic : String} (rs : List Reg) :
    Listing.Line.arguments { label, mnemonic, operands := Listing.operandField (rs.map Reg.name) } =
      rs.map Reg.name := by
  have hname (r : Reg) : r.name ≠ "" ∧ ',' ∉ r.name.toList := by
    cases r <;> simp [Reg.name]
  refine Listing.arguments_operandField (fun o ho => ?_) fun o ho => ?_
  · obtain ⟨r, -, rfl⟩ := List.mem_map.mp ho
    exact (hname r).1
  · obtain ⟨r, -, rfl⟩ := List.mem_map.mp ho
    exact (hname r).2

/-- The actions that routines are made of. -/
def Action.isReadable : Action → Bool
  | .instr (.mov ..) | .instr (.inr _) | .instr (.dcr _) | .instr .ral | .instr .rar => true
  | .instr (.alu op _) => op = .add || op = .sub || op = .or
  | .instr (.dad p) => p = .b || p = .d || p = .h
  | .instr _ => false
  | .subtractBorrow _ | .ret | .retZero | .goto _ => true

theorem readOperand_zero (mnemonic : String) (r : Reg) (rest : List String) :
    readOperand mnemonic (r.name :: rest) 0 = .ok r :=
  readRegister_name r

theorem readOperand_one (mnemonic first : String) (r : Reg) (rest : List String) :
    readOperand mnemonic (first :: r.name :: rest) 1 = .ok r :=
  readRegister_name r

/-- A readable instruction has registers for operands, and is read from their names. By cases on the
instruction; those that no routine has are not readable. -/
theorem exists_names {i : Instr} (h : (Action.instr i).isReadable = true) :
    ∃ rs : List Reg, i.operands = .ok (rs.map Reg.name) ∧
      readInstr i.mnemonic (rs.map Reg.name) = .ok i := by
  cases i with
  | mov dst src =>
    refine ⟨[dst, src], rfl, ?_⟩
    simp only [readInstr, Instr.mnemonic, List.map_cons, readOperand_zero, readOperand_one]
    rfl
  | inr r | dcr r =>
    refine ⟨[r], rfl, ?_⟩
    simp only [readInstr, Instr.mnemonic, List.map_cons, readOperand_zero]
    rfl
  | alu op r =>
    refine ⟨[r], rfl, ?_⟩
    cases op with
    | add | sub | or =>
      simp only [readInstr, Instr.mnemonic, AluOp.registerMnemonic, List.map_cons,
        readOperand_zero]
      rfl
    | and | xor | cmp => cases h
  | ral | rar => exact ⟨[], rfl, rfl⟩
  | dad p =>
    -- A pair is printed by the name of its high register.
    cases p with
    | b => exact ⟨[.b], rfl, rfl⟩
    | d => exact ⟨[.d], rfl, rfl⟩
    | h => exact ⟨[.h], rfl, rfl⟩
    | sp | psw => cases h
  | _ => cases h

/-- No instruction is printed as one of the actions that only routines have. -/
theorem mnemonic_not_mem (i : Instr) : i.mnemonic ∉ ["RET", "RZ", "JMP", "SBB"] := by
  cases i with
  | alu op _ => cases op <;> simp [Instr.mnemonic, AluOp.registerMnemonic]
  | aluImm op _ => cases op <;> simp [Instr.mnemonic, AluOp.immediateMnemonic]
  | jump cond _ => cases cond <;> simp [Instr.mnemonic, Cond.jumpMnemonic]
  | _ => simp [Instr.mnemonic]

/-- A line that is no return, jump or subtraction with borrow is an instruction. -/
theorem readAction_eq_instr {line : Listing.Line}
    (h : line.mnemonic ∉ ["RET", "RZ", "JMP", "SBB"]) :
    readAction line = (readInstr line.mnemonic line.arguments).map .instr := by
  unfold readAction
  split
  next hret => simp [hret] at h
  next hreturn => simp [hreturn] at h
  next hjump => simp [hjump] at h
  next hborrow => simp [hborrow] at h
  next => cases readInstr line.mnemonic line.arguments <;> rfl

/-- An action is read from the line it is printed in. -/
theorem readAction_line {action : Action} {label : String} {line : Listing.Line}
    (h : action.isReadable = true) (hline : action.line label = .ok line) :
    readAction line = .ok action := by
  cases action with
  | instr i =>
    obtain ⟨rs, hoperands, hread⟩ := exists_names h
    rw [Action.line, hoperands] at hline
    cases hline
    rw [readAction_eq_instr (mnemonic_not_mem i), arguments_names, hread]
    rfl
  | subtractBorrow src =>
    cases hline
    have hfield : Listing.operandField ([src].map Reg.name) = src.name := by
      simp [Listing.operandField]
    have harguments : Listing.Line.arguments { label, mnemonic := "SBB", operands := src.name } =
        [src.name] := by
      rw [← hfield, arguments_names]
      rfl
    simp only [readAction, harguments, List.headD_cons, readRegister_name]
    rfl
  | ret | retZero | goto target =>
    cases hline
    rfl

theorem exists_line {action : Action} (h : action.isReadable = true) (label : String) :
    ∃ line, action.line label = .ok line ∧ line.label = label := by
  cases action with
  | instr i =>
    obtain ⟨rs, hoperands, -⟩ := exists_names h
    rw [Action.line, hoperands]
    exact ⟨_, rfl, rfl⟩
  | subtractBorrow _ | ret | retZero | goto _ => exact ⟨_, rfl, rfl⟩

/-- Lines of readable actions can be printed, and are read back as they were. -/
theorem exists_printed {body : List Line}
    (h : ∀ line ∈ body, line.action.isReadable = true ∧ line.label ≠ some "") :
    ∃ lines, body.mapM (fun line => line.action.line (line.label.getD "")) = .ok lines ∧
      lines.mapM readLine = .ok body := by
  induction body with
  | nil => exact ⟨[], rfl, rfl⟩
  | cons line rest ih =>
    obtain ⟨hread, hlabel⟩ := h line List.mem_cons_self
    obtain ⟨lines, hlines, hrest⟩ := ih fun other ho => h other (List.mem_cons_of_mem _ ho)
    obtain ⟨printed, hprinted, hsame⟩ := exists_line hread (line.label.getD "")
    have hline : readLine printed = .ok line := by
      rcases line with ⟨_ | label, action⟩
      · rw [readLine, readAction_line hread hprinted, hsame]
        rfl
      · rw [readLine, readAction_line hread hprinted, hsame, if_neg]
        · rfl
        · simpa using hlabel
    refine ⟨printed :: lines, ?_, ?_⟩
    · rw [List.mapM_cons, hprinted, hlines]
      rfl
    · rw [List.mapM_cons, hline, hrest]
      rfl

/-- Every line of a routine is printed, and the printed lines are read back into the lines that the
machine runs. -/
theorem read_lines (r : Routine) :
    ∃ lines, r.lines = .ok lines ∧ lines.mapM readLine = .ok r.body :=
  exists_printed (by cases r <;> decide)

end Routine

end Accumulator
