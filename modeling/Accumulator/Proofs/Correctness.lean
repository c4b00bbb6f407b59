import Mathlib.Tactic.Common
import Accumulator.Proofs.Select.Simulation

/-!
# Compiled programs do what their events say

The triples of a draft say what a program does. The code that is compiled from it, with or without
the peephole pass, leaves every variable as the triples do (`memory_run_eq_runWithin`). This holds
of programs that pass a check along the selection (`Select.readyFrom`). The selector does not verify
that what it has loaded is still there when it is read, and it may name a register for a variable
that holds only part of it (`memory_run_ne_of_not_ready`).
-/

namespace Accumulator

open Select Machine

variable {symbols : SymbolTable} {a : Word} {m : Machine}

theorem SymbolTable.not_mem_stackArea (hbelow : symbols.BelowStack) (ha : symbols.IsData a) :
    a ∉ stackArea stackTop := by
  have hlt := lt_of_isData hbelow ha
  intro hmem
  simp only [stackArea, stackTop, List.mem_cons, List.not_mem_nil, or_false] at hmem
  rcases hmem with rfl | rfl | rfl | rfl <;> exact absurd hlt (by decide)

namespace Program

variable {p : Program} {code : List Instr} {final : Store}

/-- At the start nothing is recorded, and memory is as it is. -/
theorem arrived_entry (hsetting : Hosted p.symbols p.triples final m) :
    Arrived p.symbols final m { memory := m.memory } p.entry m := by
  refine .start ⟨?_, fun r _ => ?_, fun slot hslot => by cases hslot⟩
    rfl rfl RegisterFile.matched_empty
  · exact surroundings hsetting.separate hsetting.hosts rfl rfl hsetting.known hsetting.apart
      fun _ _ => rfl
  · cases r <;> trivial

/-- The code takes the machine to one with the data that the triples leave. Each triple is simulated
in turn, from a record that agrees with the machine to the next such record. -/
theorem walks_of_instructions (hsetting : Hosted p.symbols p.triples final m)
    (horderly : Triple.Orderly p.symbols true [] (Triple.widthsOf []) p.triples)
    (hruns : Triple.Runs p.symbols (Triple.Allowed p.symbols) p.triples
      { memory := m.memory } final)
    (hready : readyFrom 0 p.triples p.entry = true) (hcode : p.instructions = .ok code) :
    ∃ m', Walks p.symbols.IsData code m m' ∧ m'.sp = m.sp ∧
      ∀ a, p.symbols.IsData a → m'.memory.read a = final.memory.read a := by
  have hresults : Triple.ResultsIn [] { memory := m.memory } := by
    refine fun j => ⟨?_, fun h => by cases h⟩
    rintro ⟨r, hr⟩
    cases hr
  have hall : After selectAll p.entry fun _ s => ∃ m', Walks p.symbols.IsData s.code m m' ∧
      m'.sp = m.sp ∧ ∀ a, p.symbols.IsData a → m'.memory.read a = final.memory.read a := by
    rw [selectAll, after_bind, after_get, after_bind]
    refine (after_selectFrom_runs hsetting horderly hresults (fun _ ht => ht) hruns
      (arrived_entry hsetting) p.layered_entry rfl hready).mono ?_
    rintro _ s ⟨⟨m', h⟩, hs⟩
    exact after_settleStack_walks hsetting h hs
  unfold instructions at hcode
  split at hcode
  next s hselect =>
    cases hcode
    exact hall _ s hselect
  · cases hcode

end Program

namespace Compilation

variable {events : List Event} {peephole : Bool} {c : Compilation} {d : Draft}

/-- A compilation is that of a draft, with its triples optimized. -/
theorem program_eq (hd : Draft.ofEvents events = .ok d) (h : ofEvents events peephole = .ok c) :
    c.program = { triples := Triple.optimize d.symbols d.triples, symbols := d.symbols } := by
  obtain ⟨hprogram, -⟩ := exists_of_ofEvents h
  rw [Program.ofEvents, hd] at hprogram
  obtain ⟨p, hp, hfinish⟩ := exists_ok_of_bind (show d.finish = .ok c.program from hprogram)
  obtain rfl := Draft.eq_of_program hp
  exact (Except.ok.inj hfinish).symm

/-- If the operands of a program end up where they are read, its code leaves every byte of every
variable as the triples of the draft do. The passes between the draft and the code leave memory
alone one by one: optimizing the triples, selecting instructions, and the last pass. -/
theorem memory_run_eq_runWithin (hd : Draft.ofEvents events = .ok d)
    (hc : ofEvents events peephole = .ok c) (hsymbols : d.symbols.Separate)
    (hbelow : d.symbols.BelowStack)
    (hcomparable : ∀ t ∈ c.program.triples, t.op = .ge → t.width = .byte → t.lhs.isConst = false)
    (hready : readyFrom 0 c.program.triples c.program.entry = true)
    (hlength : ∀ code, c.program.instructions = .ok code → code.length ≤ Machine.maxSteps)
    (m : Machine) (hm : m.Hosts d.symbols) (hsp : m.sp = stackTop) {final : Store}
    (hfinal : Triple.runWithin d.symbols d.triples { memory := m.memory } = some final) :
    (m.run c.code).fault = none ∧
      ∀ a, d.symbols.IsData a → (m.run c.code).machine.memory.read a = final.memory.read a := by
  have hvalid := Draft.valid_ofEvents hd
  have hprogram := program_eq hd hc
  obtain ⟨hevents, code, hcode, hoptimized, -⟩ := exists_of_ofEvents hc
  have hnames := Program.contains_of_names hevents
  -- Results may differ after optimizing, and only memory is the same.
  obtain ⟨optimized, hruns, hmemory⟩ :=
    (Triple.runs_of_runWithin hfinal).optimize hsymbols hvalid.orderly
  have horderly := Triple.orderly_optimize hvalid.orderly
  have hsetting : Hosted c.program.symbols c.program.triples optimized m := by
    rw [hprogram] at hcomparable hnames ⊢
    exact {
      separate := hsymbols
      apart := fun a ha => hsp ▸ SymbolTable.not_mem_stackArea hbelow ha
      hosts := hm
      known := Triple.known_start.runs horderly.nodup horderly.typed (fun _ ht => ht) hruns
      widths := fun t ht => horderly.typed.exists_widths ht
      names := hnames
      comparable := hcomparable }
  -- The code is walked through before the peephole pass, which keeps the end of tidy code.
  have htidy := Program.tidy_instructions hnames hcode
  obtain ⟨m', hwalks, hsp', hdata⟩ := Program.walks_of_instructions hsetting
    (by rw [hprogram]; exact horderly) (by rw [hprogram]; exact hruns) hready hcode
  rw [hprogram] at htidy hwalks hdata
  obtain ⟨hfault, hread⟩ := run_of_walks hsymbols hbelow htidy hwalks hm (hlength code hcode) hsp
    (hsp'.trans hsp) peephole
  rw [hoptimized, fst_finished]
  exact ⟨hfault, fun a ha => (hread a ha).trans ((hdata a ha).trans (hmemory ▸ rfl))⟩

/-- `p := &x; t[x] := x + 2; w := t[x] - w`, with bytes `x` and `t[4]` and words `p` and `w`. -/
def accessEvents : List Event :=
  [.declare "t" .byte, .literal 4, .setDimension "t", .declare "x" .byte, .declare "p" .word,
    .declare "w" .word, .reference "p", .reference "x", .addressOf, .assign false,
    .reference "t", .reference "x", .index, .reference "x", .literal 2, .operator .add,
    .assign false,
    .reference "w", .reference "t", .reference "x", .index, .reference "w", .operator .sub,
    .assign false]

/-- The program passes the check and is short. -/
def isReliable (p : Program) : Bool :=
  p.triples.all (fun t => !(t.op = .ge && t.width = .byte && t.lhs.isConst)) &&
    readyFrom 0 p.triples p.entry &&
    p.instructions.toOption.all fun code => decide (code.length ≤ Machine.maxSteps)

/-- The variables leave room for the stack, no pointer is followed, and the triples can be carried
out. -/
def isSensible (d : Draft) : Bool :=
  decide d.symbols.BelowStack && d.symbols.toList.all (fun s => decide (0 < s.size)) &&
    d.triples.all (fun t => !t.followsPointer) &&
    (Triple.run d.symbols d.triples { memory := {} }).isSome

/-- The theorem applied to a program with elements and pointers in it: all its conditions are
checked by evaluation. -/
theorem memory_run_accessEvents :
    ∃ d c final, Draft.ofEvents accessEvents = .ok d ∧ ofEvents accessEvents true = .ok c ∧
      Triple.runWithin d.symbols d.triples { memory := {} } = some final ∧
      ((ofSymbols d.symbols).run c.code).fault = none ∧
      ∀ a, d.symbols.IsData a →
        ((ofSymbols d.symbols).run c.code).machine.memory.read a = final.memory.read a := by
  -- What has to be evaluated is put into one test for the compilation and one for the draft.
  have hreliable : (ofEvents accessEvents true).toOption.any (isReliable ·.program) = true := by cbv
  have hsensible : (Draft.ofEvents accessEvents).toOption.any isSensible = true := by cbv
  cases hc : ofEvents accessEvents true with
  | error failure =>
    rw [hc] at hreliable
    cases hreliable
  | ok c =>
    cases hd : Draft.ofEvents accessEvents with
    | error reason =>
      rw [hd] at hsensible
      cases hsensible
    | ok d =>
      rw [hc] at hreliable
      rw [hd] at hsensible
      have hreliable : isReliable c.program = true := hreliable
      have hsensible : isSensible d = true := hsensible
      simp only [isReliable, Bool.and_eq_true, List.all_eq_true] at hreliable
      simp only [isSensible, Bool.and_eq_true, List.all_eq_true, decide_eq_true_eq,
        Bool.not_eq_true'] at hsensible
      obtain ⟨⟨hcomparable, hready⟩, hlength⟩ := hreliable
      obtain ⟨⟨⟨hbelow, hsizes⟩, hpointers⟩, hrun⟩ := hsensible
      obtain ⟨final, hfinal⟩ := Option.isSome_iff_exists.mp hrun
      rw [← Triple.runWithin_eq_run hpointers] at hfinal
      have hsymbols : d.symbols.Separate :=
        SymbolTable.separate_of_totalSize hsizes (Nat.le_trans hbelow (by decide))
      refine ⟨d, c, final, rfl, rfl, hfinal,
        memory_run_eq_runWithin hd hc hsymbols hbelow ?_ hready ?_
        (ofSymbols d.symbols) rfl rfl hfinal⟩
      · intro t ht hop hwidth
        simpa [hop, hwidth] using hcomparable t ht
      · intro code hcode
        simpa [hcode, Except.toOption] using hlength

/-- `w := -1; x := -1; y := x`, with words `w` and `y` and a byte `x`. -/
def signEvents : List Event :=
  [.declare "w" .word, .declare "y" .word, .declare "x" .byte, .reference "w", .literal (-1),
    .assign false, .reference "x", .literal (-1), .assign false, .reference "y", .reference "x",
    .assign false]

/-- The check is needed: after `x := -1` the record says that HL, which holds the word `0xFFFF`, is
the byte `x`, and `y` gets all of it. -/
theorem memory_run_ne_of_not_ready :
    ∃ d c final, Draft.ofEvents signEvents = .ok d ∧ ofEvents signEvents false = .ok c ∧
      Triple.run d.symbols d.triples { memory := {} } = some final ∧
      readyFrom 0 c.program.triples c.program.entry = false ∧
      ((ofSymbols d.symbols).run c.code).machine.memory.readWord (dataBase + 2) = 0xFFFF ∧
      final.memory.readWord (dataBase + 2) = 0x00FF := by
  -- The program is compiled once, for both facts about its code.
  have hcompiled : (ofEvents signEvents false).toOption.any (fun c =>
      !readyFrom 0 c.program.triples c.program.entry &&
        decide (((ofSymbols c.program.symbols).run c.code).machine.memory.readWord (dataBase + 2) =
          0xFFFF)) = true := by cbv
  have hmeaning : (Draft.ofEvents signEvents).toOption.any (fun d =>
      (Triple.run d.symbols d.triples { memory := {} }).any fun final =>
        decide (final.memory.readWord (dataBase + 2) = 0x00FF)) = true := by cbv
  cases hc : ofEvents signEvents false with
  | error failure =>
    rw [hc] at hcompiled
    cases hcompiled
  | ok c =>
    cases hd : Draft.ofEvents signEvents with
    | error reason =>
      rw [hd] at hmeaning
      cases hmeaning
    | ok d =>
      rw [hc] at hcompiled
      rw [hd] at hmeaning
      obtain ⟨hready, hrun⟩ := Bool.and_eq_true_iff.mp hcompiled
      rw [program_eq hd hc] at hrun
      have hmeaning : (Triple.run d.symbols d.triples { memory := {} }).any (fun final =>
        decide (final.memory.readWord (dataBase + 2) = 0x00FF)) = true := hmeaning
      cases hfinal : Triple.run d.symbols d.triples { memory := {} } with
      | none =>
        rw [hfinal] at hmeaning
        cases hmeaning
      | some final =>
        rw [hfinal] at hmeaning
        refine ⟨d, c, final, rfl, rfl, hfinal, ?_, of_decide_eq_true hrun,
          of_decide_eq_true hmeaning⟩
        simpa using hready

end Compilation

end Accumulator
