import Mathlib
import Accumulator.Compilation
import Accumulator.Proofs.Peephole.Refine
import Accumulator.Proofs.Select.Closed
import Accumulator.Proofs.Triple.Coherent

/-!
# What a compilation gives

The code of a compilation is clean: selection leaves clean code, and the peephole pass keeps it
clean. So it runs to its end from every machine, and leaves the stack as it was.
-/

namespace Accumulator

namespace Peephole

variable {symbols : SymbolTable} {rest old new code : List Instr} {d : Nat}

/-- A rewrite does with the stack what the rewritten code does. -/
theorem Rewrite.depth?_eq (h : Rewrite rest old new) : depth? old d = depth? new d := by
  cases h with
  | @pushPop p _ hmid =>
    calc depth? (.push p :: (new ++ [.pop p])) d
        = depth? [.push p, .pop p] d :=
          depth?_congr (by rw [List.filter_cons, List.filter_append, filter_of_comments hmid]; rfl)
      _ = depth? new d := (depth?_of_comments hmid).symm
  | reload hanchor | reloadPair hanchor | copy hanchor =>
    obtain rfl | rfl := hanchor <;> exact depth?_congr (by simp [Instr.movesStack])
  | dead hi => obtain ⟨_, rfl⟩ | ⟨_, rfl⟩ := hi <;> rfl
  | upDown hij =>
    obtain ⟨rfl, rfl⟩ | ⟨rfl, rfl⟩ := hij <;> exact depth?_congr (by simp [Instr.movesStack])
  | deadStore hi => obtain rfl | rfl := hi <;> rfl
  | _ => exact depth?_congr (by simp [Instr.movesStack])

theorem exchanged?_ne_sp {p q : Pair} (h : exchanged? p = some q) : q ≠ .sp := by
  rintro rfl
  cases p <;> cases h

/-- A rewrite names no other symbols, as a load of another pair has the immediate of the old one. -/
theorem Rewrite.ordinary (h : Rewrite rest old new)
    (hold : ∀ i ∈ old, i.isOrdinary symbols = true) :
    ∀ i ∈ new, i.isOrdinary symbols = true := by
  refine h.forall_mem hold (fun _ _ => rfl) (fun _ _ => rfl) (fun _ _ => rfl) ?_
  intro p q v hpq hload
  simp only [Instr.isOrdinary, Bool.and_eq_true] at hload ⊢
  exact ⟨⟨rfl, by simpa [Instr.pair?] using exchanged?_ne_sp hpq⟩, hload.2⟩

/-- The pass keeps code clean. -/
theorem clean_optimize (hcode : Clean symbols code) : Clean symbols (optimize code).2 := by
  refine optimize_induction (I := fun code => Clean symbols code) ?_ hcode
  intro front rest old new hrewrite h
  obtain ⟨hfront, hold, hrest⟩ : (∀ i ∈ front, i.isOrdinary symbols = true) ∧
      (∀ i ∈ old, i.isOrdinary symbols = true) ∧ ∀ i ∈ rest, i.isOrdinary symbols = true := by
    simpa only [List.forall_mem_append] using h.ordinary
  constructor
  · simp only [List.forall_mem_append]
    exact ⟨hfront, hrewrite.ordinary hold, hrest⟩
  · exact (hrewrite.skipsClear h.skips).2
  · have hdepth : depth? (new ++ rest) = depth? (old ++ rest) := by
      funext d
      rw [depth?_append, depth?_append, hrewrite.depth?_eq]
    rw [depth?_append, hdepth, ← depth?_append]
    exact h.closed

end Peephole

namespace Machine

/-- The machine before a program runs has an address for every symbol. -/
theorem knows_of_layout {m : Machine} {symbols : SymbolTable}
    (hm : m.addresses = layout dataBase symbols.toList) : m.Knows symbols := by
  intro name hname
  obtain ⟨s, hs⟩ := SymbolTable.contains_iff.mp hname
  obtain rfl : s.name = name := by simpa using List.find?_some hs
  rw [addressOf?, hm]
  exact ⟨_, SymbolTable.lookup_layout (List.mem_of_find?_eq_some hs)⟩

end Machine

/-- The program of a draft. -/
theorem Draft.eq_of_program {d : Draft} {p : Program} (h : d.program = .ok p) :
    p = { triples := d.triples, symbols := d.symbols } := by
  unfold Draft.program at h
  split at h
  · exact (Except.ok.inj h).symm
  · cases h

namespace Program

/-- The variables that a program names are declared. -/
theorem contains_of_names {events : List Event} {p : Program} (h : ofEvents events = .ok p) :
    ∀ t ∈ p.triples, ∀ name, t.Names name → p.symbols.contains name = true := by
  obtain ⟨d, hd, hfinish⟩ := Machine.exists_ok_of_bind h
  obtain ⟨p', hp', hp⟩ := Machine.exists_ok_of_bind hfinish
  cases hp
  obtain rfl := Draft.eq_of_program hp'
  have hvalid := Draft.valid_ofEvents hd
  have hgrounded : ∀ t ∈ d.triples, t.Grounded d.symbols := by
    refine fun t ht => ⟨hvalid.declared t ht, fun hop => ?_⟩
    obtain ⟨name, hname⟩ := (hvalid.orderly.wellFormed t ht).indexesVar hop
    exact ⟨name, hname, hvalid.arrays t ht hop name hname⟩
  exact fun t ht => (Triple.grounded_optimize hvalid.orderly hgrounded t ht).1

end Program

/-- The routines that are collected from code are those that it calls. -/
theorem Routine.mem_calledBy {r : Routine} {code : List Instr} :
    r ∈ calledBy code ↔ .call r ∈ code := by
  have hall : r ∈ all := by cases r <;> decide
  simp [calledBy, hall]

namespace Compilation

open Select

variable {events : List Event} {peephole : Bool} {c : Compilation}

/-- Only the peephole optimizer stands between selected code and the code of a compilation. -/
theorem fst_finished (code : List Instr) (peephole : Bool) :
    (finished code peephole).1 = if peephole then (Peephole.optimize code).2 else code := by
  cases peephole <;> rfl

/-- The routines are collected after the last pass, from the code that it leaves. -/
theorem snd_finished (code : List Instr) (peephole : Bool) :
    (finished code peephole).2 = Routine.calledBy (finished code peephole).1 := by
  cases peephole <;> rfl

/-- What a compilation is made of: the program that the events draft, its selected code after the
last pass, and the routines that are collected with it. -/
theorem exists_of_ofEvents (h : ofEvents events peephole = .ok c) :
    Program.ofEvents events = .ok c.program ∧ ∃ code, c.program.instructions = .ok code ∧
      c.code = (finished code peephole).1 ∧ c.routines = (finished code peephole).2 := by
  obtain ⟨program, hprogram, h⟩ := Machine.exists_ok_of_bind h
  obtain ⟨code, hcode, h⟩ := Machine.exists_ok_of_bind h
  cases h
  refine ⟨?_, code, hcode, rfl, rfl⟩
  cases hevents : Program.ofEvents events with
  | error reason =>
    rw [hevents] at hprogram
    cases hprogram
  | ok p =>
    rw [hevents] at hprogram
    cases hprogram
    rfl

/-- The code of a compilation is clean, with the last pass or without it: selected code is, and the
pass keeps it so. -/
theorem clean_code (h : ofEvents events peephole = .ok c) : Clean c.program.symbols c.code := by
  obtain ⟨hprogram, code, hcode, hc, -⟩ := exists_of_ofEvents h
  have hclean := (Program.tidy_instructions (Program.contains_of_names hprogram) hcode).toClean
  rw [hc, fst_finished]
  split
  · exact Peephole.clean_optimize hclean
  · exact hclean

/-- A compilation comes with exactly the routines that its code calls. -/
theorem mem_routines_iff (h : ofEvents events peephole = .ok c) {r : Routine} :
    r ∈ c.routines ↔ .call r ∈ c.code := by
  obtain ⟨-, code, -, hc, hroutines⟩ := exists_of_ofEvents h
  rw [hroutines, snd_finished, ← hc, Routine.mem_calledBy]

/-- The code of a compilation runs to its end, and it is closed: no part of it from the start pops
more than it pushes, and all of it pops as much as it pushes. A push is taken back only where the
record says that it stands, and the routines that come along are those that are called. -/
theorem runs_of_ofEvents (h : ofEvents events peephole = .ok c) :
    (c.code.length ≤ Machine.maxSteps → ∀ registers zero carry memory,
      (Machine.run { Machine.ofSymbols c.program.symbols with registers, zero, carry, memory }
        c.code).fault = none) ∧
    (∀ n, (c.code.take n).countP Instr.isPop ≤ (c.code.take n).countP Instr.isPush) ∧
    c.code.countP Instr.isPush = c.code.countP Instr.isPop ∧
    (∀ k t, c.program.triples[k]? = some t →
      After (do selectFrom 0 (c.program.triples.take k); enter k t) c.program.entry fun _ s =>
        TakesBackPush dropDeadSpill s) ∧
    After (selectFrom 0 c.program.triples) c.program.entry
      (fun _ s => TakesBackPush settleStack s) ∧
    ∀ r, r ∈ c.routines ↔ .call r ∈ c.code := by
  have hclean := clean_code h
  have hnames := Program.contains_of_names (exists_of_ofEvents h).1
  refine ⟨fun hlength registers zero carry memory => ?_, fun n => ?_, ?_, fun k t _ => ?_, ?_,
    fun r => mem_routines_iff h⟩
  · exact Machine.run_of_clean hclean hlength (Machine.knows_of_layout rfl) rfl
  · -- The depth of a part is a natural number, so its pops do not exceed its pushes.
    obtain ⟨e, he⟩ := depth?_take hclean.closed n
    have := depth?_count he
    omega
  · simpa using depth?_count hclean.closed
  · -- What is selected before a triple is the selection of the triples before it, and that lays
    -- instructions.
    have htake : ∀ u ∈ c.program.triples.take k, ∀ name, u.Names name →
        c.program.symbols.contains name = true := fun u hu => hnames u (List.mem_of_mem_take hu)
    have hlays := Lays.bind (lays_selectFrom 0 htake) fun _ => lays_enter k t
    exact (hlays _ (Program.layered_entry _)).mono fun _ s hs => takesBackPush_dropDeadSpill hs
  · exact (lays_selectFrom 0 hnames _ (Program.layered_entry _)).mono fun _ s hs =>
      takesBackPush_settleStack hs

/-- `w := (w - v) + (((w - v) - v) + (v - w))` for words: a common difference is used twice, and the
second result is saved while the third is computed. -/
def savingEvents : List Event :=
  [.declare "w" .word, .declare "v" .word, .reference "w",
    .reference "w", .reference "v", .operator .sub,
    .reference "w", .reference "v", .operator .sub, .reference "v", .operator .sub,
    .reference "v", .reference "w", .operator .sub, .operator .add, .operator .add, .assign false]

/-- The code is short, pushes and calls. -/
def isSaving (c : Compilation) : Bool :=
  decide (c.code.length ≤ Machine.maxSteps) && decide (0 < c.code.countP Instr.isPush) &&
    !c.routines.isEmpty

/-- In this example a value has to be saved, so that the code pushes and pops, and it calls a
routine. -/
theorem runs_of_savingEvents :
    ∃ c, ofEvents savingEvents true = .ok c ∧ 0 < c.code.countP Instr.isPush ∧ c.routines ≠ [] ∧
      c.code.countP Instr.isPush = c.code.countP Instr.isPop ∧
      ∀ registers zero carry memory,
        (Machine.run { Machine.ofSymbols c.program.symbols with registers, zero, carry, memory }
          c.code).fault = none := by
  have hcheck : (ofEvents savingEvents true).toOption.any isSaving = true := by cbv
  cases hc : ofEvents savingEvents true with
  | error failure =>
    rw [hc] at hcheck
    cases hcheck
  | ok c =>
    rw [hc] at hcheck
    have hsaving : isSaving c = true := hcheck
    simp only [isSaving, Bool.and_eq_true, decide_eq_true_eq, Bool.not_eq_true',
      List.isEmpty_eq_false_iff] at hsaving
    obtain ⟨⟨hlength, hpush⟩, hcalls⟩ := hsaving
    obtain ⟨hruns, -, hbalance, -⟩ := runs_of_ofEvents hc
    exact ⟨c, rfl, hpush, hcalls, hbalance, hruns hlength⟩

end Compilation

end Accumulator
