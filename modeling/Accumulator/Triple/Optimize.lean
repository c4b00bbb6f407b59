import Accumulator.Triple.Merge
import Accumulator.Triple.Reduce

/-!
# Optimizing triples

Strength reduction once, then duplicates are merged until none is left.
-/

namespace Accumulator

/-- Optimize a list of triples. -/
def Triple.optimize (symbols : SymbolTable) (triples : List Triple) : List Triple :=
  mergeAll (reduce symbols triples).1

/-- Optimize the triples of a program. -/
def Program.optimize (p : Program) : Program :=
  { p with triples := Triple.optimize p.symbols p.triples }

end Accumulator
