import Accumulator.Proofs.Draft
import Accumulator.Proofs.Machine.Clean
import Accumulator.Proofs.Machine.Walk
import Accumulator.Proofs.Triple.Storage

/-!
# Tidy code keeps to the discipline

Tidy code pushes two words at most, so it stays clear of variables that end below these
(`BelowStack`), and what it loads and stores by name is the variable of that name. Such code may be
optimized: a walk through it is a run that obeys (`Walks.obeys`), and both the code and what the
peephole pass makes of it run to their end and leave the variables the same (`run_of_walks`).
-/

namespace Accumulator

namespace SymbolTable

variable {symbols : SymbolTable} {a : Word} {name : String}

/-- There is room for two words of stack behind the variables. -/
def BelowStack (symbols : SymbolTable) : Prop :=
  symbols.totalSize ≤ 0xDFFC

instance (symbols : SymbolTable) : Decidable symbols.BelowStack :=
  inferInstanceAs (Decidable (symbols.totalSize ≤ 0xDFFC))

/-- Data lies below the words that tidy code may use of the stack. -/
theorem lt_of_isData (hbelow : symbols.BelowStack) (ha : symbols.IsData a) : a < 0xEFFC := by
  obtain ⟨name, ha⟩ := ha
  cases hs : symbols.get? name with
  | none => simp [storage, hs] at ha
  | some s =>
    obtain ⟨hmem, rfl⟩ := mem_of_get? hs
    obtain ⟨k, hk, rfl⟩ := (mem_storage_iff hmem).mp ha
    have hend := offset_add_size_le hmem symbols.nodup
    rw [BelowStack, totalSize] at hbelow
    have hbase : Machine.dataBase = 0x1000 := rfl
    rw [hbase]
    bv_omega

/-- A variable as wide as what is accessed by its name lies in its storage. -/
theorem cells_of_widthOf (hsymbols : symbols.Separate) (hname : symbols.contains name = true)
    (ha : symbols.addressOf? name = some a) :
    a ∈ symbols.storage name ∧
      (symbols.widthOf name = .word → a + 1 ∈ symbols.storage name) := by
  obtain ⟨s, hs⟩ := contains_iff.mp hname
  have hplace : symbols.place? name = some { address := a, width := s.width } := by
    simp [place?, hs, ha]
  have hcells := place?_subset_storage hsymbols hplace
  have hwidth : symbols.widthOf name = s.width := by rw [widthOf, hs]
  rw [hwidth]
  cases hw : s.width with
  | byte => exact ⟨hcells a (by simp [Place.cells, hw]), fun h => by cases h⟩
  | word =>
    exact ⟨hcells a (by simp [Place.cells, hw]),
      fun _ => hcells (a + 1) (by simp [Place.cells, hw])⟩

/-- The stack of tidy code, and the variables. -/
def region (symbols : SymbolTable) : Machine.Region where
  stack a := 0xEFFC ≤ a ∧ a ≤ Machine.stackTop
  convex := fun hx hz hxy hyz => ⟨BitVec.le_trans hx.1 hxy, BitVec.le_trans hyz hz.2⟩
  owned name a := a ∈ symbols.storage name

end SymbolTable

theorem Instr.isGeneral_of_isRegular {symbols : SymbolTable} {i : Instr} {p : Pair}
    (h : i.isRegular symbols = true) (hp : i.pair? = some p) : p.isGeneral = true := by
  cases i with
  | lda _ | sta _ | lhld _ | shld _ => cases hp
  | _ => simpa [isRegular, hp] using h

namespace Machine

open Peephole (targetSymbol? optimize)

variable {symbols : SymbolTable} {code : List Instr} {i : Instr} {m m' : Machine} {d e : Nat}
  {name : String}

/-- The machine has the variables where they belong. -/
def Hosts (m : Machine) (symbols : SymbolTable) : Prop :=
  m.addresses = (ofSymbols symbols).addresses

theorem Hosts.addressOf? (h : m.Hosts symbols) (name : String) :
    m.addressOf? name = symbols.addressOf? name := by
  rw [SymbolTable.addressOf?, Machine.addressOf?, Machine.addressOf?, h]

/-- The address of a name without an offset is that of the variable. -/
theorem addressOf?_of_immAddress? {a : Word} (h : m.immAddress? (.sym name 0) = some a) :
    m.addressOf? name = some a := by
  simp only [immAddress?, imm] at h
  split at h
  next base hbase =>
    simp only [Except.toOption, Option.some.injEq] at h
    rw [hbase, ← h]
    exact congrArg some (BitVec.add_zero _).symm
  next => cases h

/-- What is accessed by name is the variable of that name. The name comes without an offset, and a
word is accessed only where the variable is a word. -/
theorem touches_of_targetSymbol? (hsymbols : symbols.Separate) (hm : m.Hosts symbols)
    (hordinary : i.isOrdinary symbols = true) (hregular : i.isRegular symbols = true)
    (htarget : targetSymbol? i = some name) : ∀ a ∈ m.touches i, a ∈ symbols.storage name := by
  intro b hb
  simp only [Instr.isOrdinary, Bool.and_eq_true] at hordinary
  have hcells {a : Word} (hname : symbols.contains name = true)
      (ha : m.immAddress? (.sym name 0) = some a) :=
    SymbolTable.cells_of_widthOf hsymbols hname (hm.addressOf? name ▸ addressOf?_of_immAddress? ha)
  cases i with
  | lda address | sta address =>
    cases address with
    | num _ => cases htarget
    | sym other offset =>
      cases htarget
      obtain rfl : offset = 0 := of_decide_eq_true hregular
      have hname : symbols.contains name = true := hordinary.2
      have hb' : b ∈ m.immAddress? (.sym name 0) := by
        simpa [touches, loads, storeCells, stores] using hb
      exact (hcells hname hb').1
  -- shld address => | A word has two cells, and both are in the storage of a word variable.
  | lhld address | shld address =>
    cases address with
    | num _ => cases htarget
    | sym other offset =>
      cases htarget
      simp only [Instr.isRegular, Bool.and_eq_true, decide_eq_true_eq] at hregular
      obtain ⟨rfl, hwidth⟩ := hregular
      have hname : symbols.contains name = true := hordinary.2
      have hb' : ∃ a, m.immAddress? (.sym name 0) = some a ∧ (b = a ∨ b = a + 1) := by
        first
        | simpa [touches, loads, storeCells_shld, wordCells] using hb
        | simpa [touches, loads, storeCells, stores, wordCells] using hb
      obtain ⟨a, ha, rfl | rfl⟩ := hb'
      · exact (hcells hname ha).1
      · exact (hcells hname ha).2 hwidth
  | _ => cases htarget

/-- An instruction of tidy code obeys. The stack has two words at most, so its pointer is one of
three addresses, and data lies below them. -/
theorem obeys_of_tidy (hsymbols : symbols.Separate) (hbelow : symbols.BelowStack)
    (hm : m.Hosts symbols) (hordinary : i.isOrdinary symbols = true)
    (hregular : i.isRegular symbols = true) (hwithin : Within symbols.IsData m i)
    (hsp : m.sp + BitVec.ofNat 16 (2 * d) = stackTop) (hd : d ≤ 2) :
    Obeys symbols.region m i := by
  -- The depth decides where the pointer is.
  have hpointer : m.sp = 0xEFFC ∨ m.sp = 0xEFFE ∨ m.sp = 0xF000 := by
    have htop : stackTop = 0xF000 := rfl
    rw [htop] at hsp
    obtain rfl | rfl | rfl : d = 0 ∨ d = 1 ∨ d = 2 := by omega
    · right; right; bv_omega
    · right; left; bv_omega
    · left; bv_omega
  refine ⟨fun p hp => Instr.isGeneral_of_isRegular hregular hp, ?_, ?_, ?_, ?_, ?_, ?_⟩
  · obtain h | h | h := hpointer <;> rw [h] <;> exact ⟨by decide, by decide⟩
  · obtain h | h | h := hpointer <;> rw [h] <;> decide
  · cases i with
    | push _ | pop _ => obtain h | h | h := hpointer <;> simp [wraps, h]
    | _ => rfl
  · intro hstack a ha hregion
    exact absurd hregion.1 (BitVec.not_le.mpr
      (SymbolTable.lt_of_isData hbelow (hwithin hstack a ha)))
  · intro name hname other hne a ha
    exact hsymbols.disjoint_of_ne (Ne.symm hne) a
      (touches_of_targetSymbol? hsymbols hm hordinary hregular hname a (List.mem_append_left _ ha))
  · intro name hname a ha
    exact touches_of_targetSymbol? hsymbols hm hordinary hregular hname a
      (List.mem_append_right _ ha)

/-- A walk through tidy code is a run that obeys, by induction on the walk, with the depth of the
stack that has been reached. -/
theorem Walks.obeys (hsymbols : symbols.Separate) (hbelow : symbols.BelowStack)
    (h : Walks symbols.IsData code m m') (hm : m.Hosts symbols)
    (hordinary : ∀ i ∈ code, i.isOrdinary symbols = true)
    (hregular : ∀ i ∈ code, i.isRegular symbols = true)
    (hdepth : Accumulator.depthIn? 2 code d = some e)
    (hsp : m.sp + BitVec.ofNat 16 (2 * d) = stackTop) (hd : d ≤ 2) :
    ∃ n ≤ code.length, Exec (Obeys symbols.region) code m n m' := by
  induction h generalizing d with
  | nil m => exact ⟨0, Nat.le_refl 0, .done m⟩
  | cons hcontrol hwithin hstep _ ih =>
    obtain ⟨hi, hrest⟩ := List.forall_mem_cons.mp hordinary
    obtain ⟨hi', hrest'⟩ := List.forall_mem_cons.mp hregular
    obtain ⟨d₁, hd₁, hdepth⟩ := Option.bind_eq_some_iff.mp hdepth
    obtain ⟨n, hn, hexec⟩ := ih ((step_addresses hstep).trans hm) hrest hrest' hdepth
      ((sp_of_depth? hi (Instr.depth?_of_depthIn? hd₁) hstep).trans hsp) (Instr.depthIn?_le hd₁ hd)
    have hobeys := obeys_of_tidy hsymbols hbelow hm hi hi' hwithin hsp hd
    exact ⟨n + 1, Nat.succ_le_succ hn, .step hobeys hcontrol hstep hexec⟩
  | @skip cond rest m m' hcond _ ih =>
    obtain ⟨hi, hrest⟩ := List.forall_mem_cons.mp hordinary
    obtain ⟨hi', hrest'⟩ := List.forall_mem_cons.mp hregular
    obtain ⟨n, hn, hexec⟩ := ih hm (List.forall_mem_cons.mp hrest).2
      (List.forall_mem_cons.mp hrest').2
      hdepth hsp hd
    -- A jump to comments at the very end ends the run there, where a walk goes through them.
    obtain ⟨n', hn', hlanding⟩ := Peephole.Refines.exec_landing hexec
    have hobeys := obeys_of_tidy hsymbols hbelow hm hi hi' (within_jump cond 4 m) hsp hd
    refine ⟨n' + 1, ?_, .skip hobeys hcond hlanding⟩
    simp only [List.length_cons]
    omega
  | @pass cond rest m m' hcond _ ih =>
    obtain ⟨hi, hrest⟩ := List.forall_mem_cons.mp hordinary
    obtain ⟨hi', hrest'⟩ := List.forall_mem_cons.mp hregular
    obtain ⟨n, hn, hexec⟩ := ih hm hrest hrest' hdepth hsp hd
    have hobeys := obeys_of_tidy hsymbols hbelow hm hi hi' (within_jump cond 4 m) hsp hd
    exact ⟨n + 1, Nat.succ_le_succ hn, .pass hobeys hcond hexec⟩

/-- Tidy code that is walked through runs to the same end, optimized or not. -/
theorem run_of_walks (hsymbols : symbols.Separate) (hbelow : symbols.BelowStack)
    (hcode : Tidy symbols 2 0 code) (h : Walks symbols.IsData code m m') (hm : m.Hosts symbols)
    (hlength : code.length ≤ maxSteps) (hsp : m.sp = stackTop) (hsp' : m'.sp = stackTop)
    (peephole : Bool) :
    let outcome := m.run (if peephole then (optimize code).2 else code)
    outcome.fault = none ∧
      ∀ a, symbols.IsData a → outcome.machine.memory.read a = m'.memory.read a := by
  obtain ⟨n, hn, hexec⟩ := h.obeys hsymbols hbelow hm hcode.ordinary hcode.regular hcode.shallow
    (hsp ▸ BitVec.add_zero _) (Nat.zero_le 2)
  cases peephole with
  | false =>
    rw [if_neg Bool.false_ne_true, run_of_exec hcode.skips hexec (Nat.le_trans hn hlength) hsp']
    exact ⟨rfl, fun _ _ => rfl⟩
  | true =>
    have hrewrite : _ ∧ Peephole.Refines symbols.region code _ :=
      Peephole.optimize_refines hcode.skips
    obtain ⟨hskips, hrefines⟩ := hrewrite
    obtain ⟨n', hn', m'', hexec', hsp'', hread⟩ := hrefines.exec hexec
    rw [if_pos rfl, run_of_exec hskips hexec' (Nat.le_trans hn' (Nat.le_trans hn hlength))
      (hsp''.trans hsp')]
    refine ⟨rfl, fun a ha => hread a fun hstack => ?_⟩
    exact absurd hstack.1 (BitVec.not_le.mpr (SymbolTable.lt_of_isData hbelow ha))

end Machine

end Accumulator
