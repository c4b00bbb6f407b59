import Mathlib
import Accumulator.Proofs.Draft
import Accumulator.Proofs.Machine.Effects
import Accumulator.Proofs.Triple.Merge
import Accumulator.Proofs.Triple.Reduce

/-!
# Optimizing keeps the meaning

Strength reduction keeps the meaning of triples that are in good order, and leaves them in good
order; merging duplicates does the same, except that references then cross statements. The triples
of a draft are in good order, so its program means the same after it is optimized.
-/

namespace Accumulator

namespace Triple

variable {symbols : SymbolTable} {triples : List Triple}

/-- Optimizing triples in good order leaves the final memory alone. -/
theorem run_optimize {memory : Memory} {s : Store} (hsymbols : symbols.Separate)
    (h : Orderly symbols false [] (widthsOf []) triples)
    (hrun : run symbols triples { memory } = some s) :
    ∃ s', run symbols (optimize symbols triples) { memory } = some s' ∧ s'.memory = s.memory := by
  have hruns : Runs symbols (fun _ _ => True) triples { memory } s :=
    .of_run (fun _ _ => trivial) hrun
  obtain ⟨s₁, hreduced, hmemory₁⟩ := hruns.reduceAll (fun _ _ _ _ _ => trivial)
    (fun _ _ _ _ _ _ _ _ _ _ => trivial) h (List.forall_mem_nil _)
  have hwide : Orderly symbols true [] (widthsOf []) (reduceAll triples).triples :=
    (orderly_reduceAll h).1.widen
  obtain ⟨s₂, hmerged, hmemory₂⟩ := hreduced.mergeAll hsymbols
    (fun _ _ _ _ _ => trivial) (fun _ _ _ _ _ _ _ _ _ _ => trivial) hwide
  refine ⟨s₂, ?_, hmemory₂.trans hmemory₁⟩
  rw [optimize, reduce_eq h]
  exact hmerged.run_eq

end Triple

namespace Program

/-- A program that events describe means the same after it is optimized: from the same memory its
triples run again, and they leave the same memory. Events draft triples that refer only to earlier
ones, which is what strength reduction and merging ask for. -/
theorem meaning?_optimize {events : List Event} {d : Draft} {p : Program} {memory final : Memory}
    (hevents : Draft.ofEvents events = .ok d) (hprogram : d.program = .ok p)
    (hsymbols : p.symbols.Separate) (hmeaning : p.meaning? memory = some final) :
    p.optimize.meaning? memory = some final := by
  have hvalid := Draft.valid_ofEvents hevents
  obtain rfl : p = { triples := d.triples, symbols := d.symbols } := by
    unfold Draft.program at hprogram
    split at hprogram
    · exact (Except.ok.inj hprogram).symm
    · cases hprogram
  obtain ⟨s, hrun, rfl⟩ := Option.map_eq_some_iff.mp hmeaning
  obtain ⟨s', hrun', hmemory⟩ := Triple.run_optimize hsymbols hvalid.orderly hrun
  exact Option.map_eq_some_iff.mpr ⟨s', hrun', hmemory⟩

/-- `x := (y + 0) + 2; t[y] := x ^ y; x := t[y] - (x ^ y)`, where `t` is an array of four bytes: a
zero is added, a small number is counted, and an expression occurs twice. -/
def sampleEvents : List Event :=
  [.declare "x" .byte, .declare "y" .byte, .declare "t" .byte, .literal 4, .setDimension "t",
    .reference "x", .reference "y", .literal 0, .operator .add, .literal 2, .operator .add,
    .assign false,
    .reference "t", .reference "y", .index, .reference "x", .reference "y", .operator .xor,
    .assign false,
    .reference "x", .reference "t", .reference "y", .index, .reference "x", .reference "y",
    .operator .xor, .operator .sub, .assign false]

/-- The symbols share no storage, the optimizer has work to do, and the program has a meaning. -/
def isTelling (p : Program) : Bool :=
  p.symbols.toList.all (0 < ·.size) && p.symbols.totalSize ≤ 65536 &&
    p.optimize.triples.length < p.triples.length && (p.meaning? {}).isSome

/-- The sample means something, some of its triples go when it is optimized, and it means the same
then. -/
theorem meaning?_optimize_sampleEvents :
    ∃ d p final, Draft.ofEvents sampleEvents = .ok d ∧ d.program = .ok p ∧ p.symbols.Separate ∧
      p.optimize.triples.length < p.triples.length ∧ p.meaning? {} = some final ∧
      p.optimize.meaning? {} = some final := by
  have hcheck : (Draft.ofEvents sampleEvents >>= Draft.program).toOption.any isTelling = true := by
    cbv
  cases hprogram : Draft.ofEvents sampleEvents >>= Draft.program with
  | error reason =>
    rw [hprogram] at hcheck
    cases hcheck
  | ok p =>
    rw [hprogram] at hcheck
    have htelling : isTelling p = true := hcheck
    simp only [isTelling, Bool.and_eq_true, decide_eq_true_eq, List.all_eq_true] at htelling
    obtain ⟨⟨⟨hpos, htotal⟩, hshorter⟩, hdefined⟩ := htelling
    have hsymbols := SymbolTable.separate_of_totalSize hpos htotal
    obtain ⟨d, hd, hp⟩ := Machine.exists_ok_of_bind hprogram
    obtain ⟨final, hfinal⟩ := Option.isSome_iff_exists.mp hdefined
    exact ⟨d, p, final, hd, hp, hsymbols, hshorter, hfinal,
      meaning?_optimize hd hp hsymbols hfinal⟩

end Program

end Accumulator
