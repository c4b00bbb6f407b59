import Accumulator.Proofs.Compilation
import Accumulator.Proofs.Select.Statement

/-!
# One statement

Declarations and then a single statement. The statement drafts a few triples, and if code is
selected for them that stores a value at a place, then the compiled program stores it there, with
the peephole pass or without.
-/

namespace Accumulator

variable {events rest : List Event} {code : List Instr}

namespace Draft

variable {d d' : Draft}

theorem acceptAll_append (events rest : List Event) :
    acceptAll (events ++ rest) = (do acceptAll events; acceptAll rest) := by
  induction events with
  | nil => rfl
  | cons event events ih =>
    rw [List.cons_append, acceptAll, ih, acceptAll, bind_assoc]

/-- Events that are drafted one list after the other. -/
theorem ofEvents_append (hd : ofEvents events = .ok d) (hrest : acceptAll rest d = .ok () d') :
    ofEvents (events ++ rest) = .ok d' := by
  unfold ofEvents at hd ⊢
  split at hd
  next heq =>
    cases hd
    have hrun : (do acceptAll events; acceptAll rest : Drafting Unit) {} = .ok () d' := by
      show EStateM.bind _ _ _ = _
      rw [EStateM.bind, heq]
      exact hrest
    rw [acceptAll_append, hrun]
  next => cases hd

end Draft

/-- The program of a draft without open operands. -/
theorem Program.ofEvents_of_draft {d : Draft} (hd : Draft.ofEvents events = .ok d)
    (hstack : d.stack = []) :
    Program.ofEvents events =
      .ok { triples := Triple.optimize d.symbols d.triples, symbols := d.symbols } := by
  rw [Program.ofEvents, hd]
  show (do return (← d.program).optimize) = _
  rw [Draft.program, hstack]
  rfl

/-- A program whose instructions can be selected compiles. The code and the routines of the
compilation are those of the finished instructions. -/
theorem Compilation.ofEvents_of_instructions {p : Program} (hp : Program.ofEvents events = .ok p)
    (hcode : p.instructions = .ok code) (peephole : Bool) :
    Compilation.ofEvents events peephole =
      .ok { program := p
            code := if peephole then (Peephole.optimize code).2 else code
            routines := (finished code peephole).2 } := by
  rw [Compilation.ofEvents, hp, ← fst_finished]
  show (do let code ← p.instructions; _) = _
  rw [hcode]
  rfl

/-! ## Places in memory -/

namespace Place

variable {place : Place} {memory memory' : Memory} {w a : Word}

theorem read_congr (h : ∀ a ∈ place.cells, memory'.read a = memory.read a) :
    place.read memory' = place.read memory := by
  unfold Place.cells at h
  unfold Place.read
  split at h
  · rw [h place.address List.mem_cons_self]
  · rw [Memory.readWord, Memory.readWord, h place.address List.mem_cons_self,
      h (place.address + 1) (by simp)]

/-- A place holds what was stored there, as much of it as there is room for. -/
theorem read_write : place.read (place.write memory w) = place.width.narrow w := by
  unfold Place.read Place.write
  split
  next hbyte =>
    rw [Memory.read_write_self, hbyte]
    rfl
  next hword =>
    rw [Memory.readWord_writeWord_self, hword, Width.narrow_word]

/-- Storing at a place leaves all bytes outside its cells as they are. -/
theorem read_write_of_not_mem (h : a ∉ place.cells) :
    (place.write memory w).read a = memory.read a := by
  unfold Place.cells at h
  unfold Place.write
  split at h
  next hbyte => exact Memory.read_write_of_ne _ _ (by simpa using h)
  next hword =>
    simp only [List.mem_cons, List.not_mem_nil, or_false, not_or] at h
    exact Memory.read_writeWord_of_ne h.1 h.2

end Place

/-! ## Runs -/

namespace Select

open Machine

variable {data : Word → Prop} {m m' : Machine} {place : Place} {w : Word}

/-- The top of the stack, as far down as a call reaches. -/
def callArea : Region where
  stack a := stackTop - 2 ≤ a ∧ a ≤ stackTop
  convex hx hz hxy hyz := ⟨BitVec.le_trans hx.1 hxy, BitVec.le_trans hyz hz.2⟩
  owned _ _ := False

/-- A run of code that makes calls leaves the value at the place, and all other memory as it was but
for the top of the stack. -/
theorem run_of_written (peephole : Bool) (hskips : SkipsClear code)
    (hcode : Straight false code) (hlength : code.length ≤ Machine.maxSteps)
    (hwalks : Walks (fun a => ¬callArea.stack a) code m m')
    (hwritten : Written (fun a => ¬callArea.stack a) place w m m') (hsp : m.sp = stackTop) :
    let outcome := m.run (if peephole then (Peephole.optimize code).2 else code)
    outcome.fault = none ∧ ∀ a, ¬callArea.stack a →
      outcome.machine.memory.read a = (place.write m.memory w).read a := by
  obtain ⟨n, hn, hexec⟩ := hwalks.exec
  cases peephole with
  | false =>
    have hrun := run_of_exec hskips hexec (Nat.le_trans hn hlength) (hwritten.sp.trans hsp)
    simp only [Bool.false_eq_true, if_false, hrun]
    exact ⟨trivial, hwritten.memory⟩
  | true =>
    obtain ⟨n', hn', m₁, hexec', hsp', hmemory⟩ :=
      Peephole.exec_optimize callArea hskips hcode.storesOnce hexec
        (by rw [hsp]; exact ⟨by decide, by decide⟩) (by rw [hsp]; decide) fun _ => id
    have hskips' := (Peephole.refines_absolute callArea hskips hcode.storesOnce id).1
    have hrun := run_of_exec hskips' hexec' (Nat.le_trans hn' (Nat.le_trans hn hlength))
      (hsp'.trans (hwritten.sp.trans hsp))
    simp only [if_true, hrun]
    exact ⟨trivial, fun a ha => (hmemory a ha).trans (hwritten.memory a ha)⟩

/-- A run of code without calls leaves the value at the place, and all other memory as it was. -/
theorem run_of_written_calm (peephole : Bool) (hskips : SkipsClear code)
    (hcode : Straight true code) (hlength : code.length ≤ 8000)
    (hwalks : Walks (fun _ => True) code m m') (hwritten : Written (fun _ => True) place w m m')
    (hsp : m.sp = stackTop) :
    let outcome := m.run (if peephole then (Peephole.optimize code).2 else code)
    outcome.fault = none ∧ outcome.machine.memory = place.write m.memory w := by
  obtain ⟨n, hn, hexec⟩ := hwalks.exec
  have hmemory : m'.memory = place.write m.memory w :=
    Memory.ext_of_read fun a => hwritten.memory a trivial
  rw [← hmemory]
  cases peephole with
  | false =>
    have hmax : n ≤ Machine.maxSteps := Nat.le_trans hn (Nat.le_trans hlength (by decide))
    have hrun := run_of_exec hskips hexec hmax (hwritten.sp.trans hsp)
    simp only [Bool.false_eq_true, if_false, hrun]
    exact ⟨trivial, trivial⟩
  | true =>
    simp only [if_true]
    exact Peephole.run_optimize_of_calm hskips hcode.storesOnce (hcode.calm rfl) hexec
      (Nat.le_trans hn hlength) hsp

end Select

end Accumulator
