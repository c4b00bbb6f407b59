import Mathlib
import Accumulator.Proofs.Select.Loading

/-!
# The record of the registers is truthful

Whatever is asked of the selector while it works on a triple, making room or loading a value that
the triple reads, the code it appends keeps machine and record in agreement: the machine that has
run it is as the new state says. This holds for every state whose register file records words by
both halves, every valuation, and every machine that agrees with the state.
-/

namespace Accumulator.Select

open RegisterFile

/-- What can be asked of the selector while it works on a triple. -/
inductive Request where
  | takeWork (exclude : List Reg)
  | saveAccumulator (afterCurrent : Bool)
  | vacateReg (r : Reg)
  | vacateHL (incoming : Option Value)
  | preserveHL
  | vacatePair (p : Pair)
  | popSpill (p : Pair)
  | loadAccumulator (v : Value)
  | loadCount (v : Value)
  | loadHL (v : Value)
  | loadPair (p : Pair) (v : Value)

namespace Request

/-- A work register is named; whether HL was loaded by exchange is told. -/
abbrev Answer : Request → Type
  | takeWork _ => Reg
  | vacateHL _ => Bool
  | _ => Unit

/-- The step that answers a request. A count is loaded into C. -/
def perform : (q : Request) → Selecting q.Answer
  | takeWork exclude => Select.takeWork exclude
  | saveAccumulator afterCurrent => Select.saveAccumulator afterCurrent
  | vacateReg r => Select.vacateReg r
  | vacateHL incoming => Select.vacateHL incoming
  | preserveHL => Select.preserveHL
  | vacatePair p => Select.vacatePair p
  | popSpill p => Select.popSpill p
  | loadAccumulator v => Select.loadAccumulator v
  | loadCount v => Select.loadReg .c v
  | loadHL v => Select.loadHL v
  | loadPair p v => Select.loadPair p v

/-- What a request may ask for: registers and pairs proper, a slot that holds something, values of
the current triple, DE and BC for words other than in HL. -/
def Admissible (s : State) : Request → Prop
  | vacateReg r => r ≠ .m
  | vacatePair p => p.isGeneral = true
  | popSpill p => p.isGeneral = true ∧ s.spill.isSome = true
  | loadAccumulator v | loadCount v | loadHL v => v ∈ s.pinned
  | loadPair p v => (p = .d ∨ p = .b) ∧ v ∈ s.pinned
  | _ => True

/-- What is granted: the registers asked for are empty, the value that has to be kept is held
elsewhere, or the value is where it was asked for. -/
def Granted (ρ : Valuation) (s s' : State) (m' : Machine) : (q : Request) → q.Answer → Prop
  | takeWork exclude, r =>
    r ∈ [Reg.b, .c, .d, .e] ∧ r ∉ exclude ∧ s'.regs.get r = .empty
  | saveAccumulator afterCurrent, _ =>
    ∀ v, s.regs.get .a = .scalar v → s.mustKeep v [.a] afterCurrent = true →
      s'.isHeld v [.a] = true
  | preserveHL, _ =>
    ∀ v, s.regs.pairValue? .h = some v → s.mustKeep v [.h, .l] true = true →
      s'.isHeld v [.h, .l] = true
  | vacateReg r, _ => s'.regs.get r = .empty
  | vacateHL _, false => s'.regs.get .h = .empty ∧ s'.regs.get .l = .empty
  | vacateHL incoming, true => ∃ v, incoming = some v ∧ m'.pair .h = ρ v
  | vacatePair p, _ =>
    ∀ high low, p.halves? = some (high, low) →
      s'.regs.get high = .empty ∧ s'.regs.get low = .empty
  | popSpill p, _ => ∀ slot ∈ s.spill, m'.pair p = ρ slot.value
  | loadAccumulator v, _ => m'.registers.a = Side.low.part (ρ v)
  | loadCount v, _ => m'.registers.c = Side.low.part (ρ v)
  | loadHL v, _ => m'.registers.l = Side.low.part (ρ v)
  | loadPair p v, _ =>
    ∀ high low, p.halves? = some (high, low) → m'.registers.get low = Side.low.part (ρ v)

end Request

variable {ρ : Valuation} {s s' : State} {m : Machine} {t : Triple}

/-- The operands of a triple are pinned together with the addresses of those that are in memory. -/
theorem pinsAddresses_of_operandValues (h : s.pinned = operandValues s.triples t) :
    s.PinsAddresses := by
  intro o ho hmemory
  rw [h] at ho ⊢
  simp only [operandValues, List.mem_flatMap] at ho ⊢
  obtain ⟨⟨u, role⟩, huse, hmem⟩ := ho
  refine ⟨(u, role), huse, ?_⟩
  cases role with
  | value =>
    have hu : u = o := by
      dsimp only at hmem
      split at hmem <;> simp_all
    subst hu
    have hm : isMemoryOperand s.triples u = true := hmemory
    simp [hm]
  | address | target => simp at hmem

/-- Every request is granted, and the machine follows the record while it is, by cases on the
request. -/
theorem tracks_perform (q : Request) (hmatched : s.regs.Matched) (hpins : s.PinsAddresses)
    (hagrees : Agrees ρ s m) (hq : q.Admissible s) :
    Tracks ρ q.perform s m fun a s' m' => q.Granted ρ s s' m' a := by
  cases q with
  | takeWork exclude =>
    refine after_takeWork.mono ?_
    rintro r s' ⟨⟨hwork, hexclude, -⟩, rfl⟩
    -- A register to work with is taken by clearing its record, without code.
    have hr : r ≠ .m := by rintro rfl; simp at hwork
    exact ⟨m, .of_record hagrees hagrees.registers.clear hmatched.clear, hwork, hexclude,
      get_clear_self hr⟩
  | saveAccumulator afterCurrent =>
    exact tracks_saveAccumulator hagrees hmatched
  | vacateReg r =>
    exact (tracks_vacateReg hagrees hmatched hq).mono fun _ _ _ _ hvacated => hvacated.2
  | vacateHL incoming =>
    refine (tracks_vacateHL incoming hagrees hmatched).mono fun answer s' m' hleads hanswer => ?_
    cases answer with
    | true =>
      obtain ⟨v, hv, hpair⟩ := hanswer
      exact ⟨v, hv, pair_of_pairValue? hleads.agrees.registers hpair⟩
    | false => exact hanswer.2
  | preserveHL => exact tracks_preserveHL hagrees hmatched
  | vacatePair p =>
    obtain ⟨high, low, hp⟩ := Pair.halves?_of_isGeneral hq
    refine (tracks_vacatePair hagrees hmatched hp).mono fun _ _ _ _ hvacated => ?_
    intro high' low' hp'
    rw [hp] at hp'
    cases hp'
    exact hvacated.2
  | popSpill p =>
    obtain ⟨high, low, hp⟩ := Pair.halves?_of_isGeneral hq.1
    obtain ⟨slot, hslot⟩ := Option.isSome_iff_exists.mp hq.2
    refine (tracks_popSpill hagrees hmatched hp hslot).mono fun _ _ _ hleads hpair => ?_
    intro slot' hslot'
    rw [hslot] at hslot'
    cases hslot'
    exact pair_of_pairValue? hleads.agrees.registers hpair
  | loadAccumulator v =>
    exact (tracks_loadAccumulator hagrees hmatched hpins hq).mono fun _ _ _ _ hloaded => hloaded.1
  | loadCount v =>
    exact (tracks_loadReg hagrees hmatched hpins hq).mono fun _ _ _ hleads hscalar =>
      hleads.agrees.registers.byte (r := .c) (by decide) hscalar
  | loadHL v =>
    exact (tracks_loadHL hagrees hmatched hpins hq).mono fun _ _ _ hleads hcarries =>
      hcarries.low (p := .h) rfl hleads.agrees
  | loadPair p v =>
    exact (tracks_loadPair hagrees hmatched hpins hq.2 hq.1).mono fun _ _ _ hleads hcarries =>
      fun high low hp => hcarries.low hp hleads.agrees

/-- The code that is appended for a request takes every machine that agrees with the state to one
that agrees with the new state, and does what was asked. -/
theorem agrees_perform {q : Request} {a : q.Answer}
    (hpinned : s.pinned = operandValues s.triples t) (hmatched : s.regs.Matched)
    (hagrees : Agrees ρ s m) (hq : q.Admissible s) (hperform : q.perform s = .ok a s') :
    ∃ is m', s'.code = s.code ++ is ∧ is.foldlM Machine.step m = .ok m' ∧ Agrees ρ s' m' ∧
      s'.regs.Matched ∧ q.Granted ρ s s' m' a := by
  have hpins := pinsAddresses_of_operandValues hpinned
  obtain ⟨m', hleads, hgranted⟩ := tracks_perform q hmatched hpins hagrees hq a s' hperform
  obtain ⟨is, hcode, hrun⟩ := hleads.code
  exact ⟨is, m', hcode, hrun, hleads.agrees, hleads.matched, hgranted⟩

/-- `(w + 1) + (w + 2) + (w + 3) + (w + 4)`, where the last sum is computed before its operands are
added up: while `w` is loaded for it, the first three are in the three pairs. -/
def crowdedState : State where
  triples :=
    [{ id := 1, lhs := .var "w", op := .add, rhs := some (.const 1), width := .word },
      { id := 2, lhs := .var "w", op := .add, rhs := some (.const 2), width := .word },
      { id := 3, lhs := .var "w", op := .add, rhs := some (.const 3), width := .word },
      { id := 4, lhs := .var "w", op := .add, rhs := some (.const 4), width := .word },
      { id := 5, lhs := .temp 1, op := .add, rhs := some (.temp 2), width := .word },
      { id := 6, lhs := .temp 5, op := .add, rhs := some (.temp 3), width := .word },
      { id := 7, lhs := .temp 6, op := .add, rhs := some (.temp 4), width := .word }]
  symbols := { toList := [{ name := "w", width := .word }] }
  regs := ((({} : RegisterFile).bindPair .h (.temp 1)).bindPair .d (.temp 2)).bindPair .b (.temp 3)
  pos := 3
  pinned := [.var "w", .const 4]

/-- The state after HL is loaded with `w`. -/
def crowdedAfter : State :=
  { crowdedState with
    code := [.push .h, .lhld (.ofSymbol "w")]
    regs := (crowdedState.regs.clearPair .h).bindPair .h (.var "w")
    spill := some { value := .temp 1, pushAt := 0 } }

/-- `w` is 4660, and the sums are what they are. -/
def crowdedValues : Valuation
  | .of (.const c) => BitVec.ofInt 16 c
  | .of (.var name) => if name = "w" then 0x1234 else 0
  | .of (.temp id) => if id ∈ [1, 2, 3] then 0x1234 + BitVec.ofNat 16 id else 0
  | .addr (.var name) => if name = "w" then 0x1000 else 0
  | .addr _ => 0

/-- A machine with these values. -/
def crowdedMachine : Machine where
  registers := { a := 0, b := 0x12, c := 0x37, d := 0x12, e := 0x36, h := 0x12, l := 0x35 }
  memory := ({} : Memory).writeWord 0x1000 0x1234
  addresses := [("w", 0x1000)]

/-- The machine of the example agrees with its record: three results in the pairs, and a variable in
memory. -/
theorem crowdedMachine_agrees : Agrees crowdedValues crowdedState crowdedMachine := by
  -- There is one variable, a word, and its two bytes lie outside of the stack.
  have haddress : ∀ name a, crowdedMachine.addressOf? name = some a → name = "w" ∧ a = 0x1000 := by
    intro name a ha
    simp only [crowdedMachine, Machine.addressOf?, List.lookup_cons] at ha
    split at ha
    next hname => exact ⟨by simpa using hname, (Option.some.inj ha).symm⟩
    next => cases ha
  have hword : crowdedMachine.memory.readWord 0x1000 = 0x1234 :=
    Memory.readWord_writeWord_self _ _ _
  have hbase : crowdedState.stackBase crowdedMachine = 0xF000 := rfl
  refine { literal := fun _ => rfl, extended := ?_, declared := ?_, address := ?_,
           variableLow := ?_, variableHigh := ?_, operand := ?_, registers := ?_, saved := ?_ }
  · intro o ho hbyte
    cases o with
    | const c => cases ho
    | var name =>
      by_cases hname : name = "w"
      · subst hname
        cases hbyte
      · show Side.high.part (if name = "w" then 0x1234 else 0) = 0
        rw [if_neg hname]
        rfl
    | temp id =>
      by_cases hid : id ∈ [1, 2, 3]
      · simp only [List.mem_cons, List.not_mem_nil, or_false] at hid
        obtain rfl | rfl | rfl := hid <;> cases hbyte
      · show Side.high.part (if id ∈ [1, 2, 3] then 0x1234 + BitVec.ofNat 16 id else 0) = 0
        rw [if_neg hid]
        rfl
  · intro v hv name hname
    obtain rfl | rfl : v = .var "w" ∨ v = .const 4 := by simpa [crowdedState] using hv
    · cases hname
      exact ⟨0x1000, rfl⟩
    · cases hname
  · intro name a ha
    obtain ⟨rfl, rfl⟩ := haddress name a ha
    rfl
  · intro name a ha
    obtain ⟨rfl, rfl⟩ := haddress name a ha
    rw [hbase]
    refine ⟨by decide, ?_⟩
    exact (low_of_append _ _).symm.trans (congrArg Side.low.part hword)
  · intro name a ha
    obtain ⟨rfl, rfl⟩ := haddress name a ha
    rw [hbase]
    refine fun _ => ⟨by decide, ?_⟩
    exact (high_of_append _ _).symm.trans (congrArg Side.high.part hword)
  · intro v hv hmemory
    obtain rfl | rfl : v = .var "w" ∨ v = .const 4 := by simpa [crowdedState] using hv
    · cases hmemory
    · cases hmemory
  · intro r hr
    cases r <;> first | exact absurd rfl hr | rfl | trivial
  · intro slot hslot
    cases hslot

/-- A variable is loaded into HL although every pair is taken. The word of HL is pushed for it, and
machine and record agree as before. -/
theorem agrees_perform_crowded :
    Agrees crowdedValues crowdedState crowdedMachine ∧
      (Request.loadHL (.var "w")).perform crowdedState = .ok () crowdedAfter ∧
      ∃ is m', crowdedAfter.code = crowdedState.code ++ is ∧
        is.foldlM Machine.step crowdedMachine = .ok m' ∧ Agrees crowdedValues crowdedAfter m' ∧
        crowdedAfter.regs.Matched ∧ m'.registers.l = 0x34 := by
  have hperform : (Request.loadHL (.var "w")).perform crowdedState = .ok () crowdedAfter := rfl
  have hpinned : crowdedState.pinned =
      operandValues crowdedState.triples
        { id := 4, lhs := .var "w", op := .add, rhs := some (.const 4), width := .word } := rfl
  have hmatched : crowdedState.regs.Matched := by
    show Matched (((({} : RegisterFile).bindPair .h _).bindPair .d _).bindPair .b _)
    exact matched_empty.bindPair.bindPair.bindPair
  exact ⟨crowdedMachine_agrees, hperform,
    agrees_perform hpinned hmatched crowdedMachine_agrees List.mem_cons_self hperform⟩

end Accumulator.Select
