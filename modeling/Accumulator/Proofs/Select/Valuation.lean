import Accumulator.Proofs.Peephole.Tidy
import Accumulator.Proofs.Select.Performing
import Accumulator.Proofs.Triple.Guarded

/-!
# What values stand for while triples are carried out

Memory changes from triple to triple, and results do not change once they are there. So a valuation
is taken from the memory at hand and from the results at the end of the run (`Store.onward`): what
is known of a result under it stays known, before the triple as after it.

A machine with the variables of a store in its memory provides what the selector relies on
(`surroundings`), and the values of the operands of a triple are those in the store.
-/

namespace Accumulator

/-! ## Bytes of places -/

namespace Place

/-- The low byte of a variable is the byte at its address. -/
theorem low_part_read (p : Place) (memory : Memory) :
    Side.low.part (p.read memory) = memory.read p.address := by
  rcases p with ⟨address, width⟩
  cases width with
  | byte => exact Select.low_part_setWidth _
  | word => exact low_part_readWord memory address

/-- The high byte of a word variable is the byte after it. -/
theorem high_part_read {p : Place} (hword : p.width = .word) (memory : Memory) :
    Side.high.part (p.read memory) = memory.read (p.address + 1) := by
  rcases p with ⟨address, width⟩
  cases hword
  exact high_part_readWord memory address

end Place

/-- A value that fits in a byte has nothing above it. -/
theorem high_part_of_narrow {w : Word} (h : Width.byte.narrow w = w) : Side.high.part w = 0 := by
  rw [← h, Width.narrow, Side.part]
  simp only [Width.bits]
  ext i hi
  simp

namespace Store

/-- The store with the results that there will be in the end. -/
def onward (s final : Store) : Store :=
  { final with memory := s.memory }

/-- The words that values stand for in a store. -/
def valuation (symbols : SymbolTable) (s : Store) : Valuation
  | .of o => (o.value? symbols s).getD 0
  | .addr o => ((o.place? symbols s).map (·.address)).getD 0

/-- The results that there are stay. -/
def Extends (s final : Store) : Prop :=
  ∀ j r, s.results j = some r → final.results j = some r

variable {symbols : SymbolTable} {s final : Store} {o : Operand}

/-- A value that is known now is the value of the operand in the valuation, since results that are
known do not change. -/
theorem Extends.value? (h : s.Extends final) {w : Word} (hw : o.value? symbols s = some w) :
    (s.onward final).valuation symbols (.of o) = w := by
  cases o with
  | const c | var name => exact congrArg (Option.getD · 0) hw
  | temp j =>
    obtain ⟨r, hr, rfl⟩ := Option.map_eq_some_iff.mp hw
    simp only [valuation, Operand.value?, onward, h j r hr, Option.map_some, Option.getD_some]

/-- An address that is known now is the address of the operand in the valuation. -/
theorem Extends.place? (h : s.Extends final) {p : Place} (hp : o.place? symbols s = some p) :
    (s.onward final).valuation symbols (.addr o) = p.address := by
  cases o with
  | const c => cases hp
  | var name => simp only [valuation, Operand.place?, show symbols.place? name = some p from hp,
      Option.map_some, Option.getD_some]
  | temp j =>
    obtain ⟨r, hr, hplace⟩ := Option.bind_eq_some_iff.mp hp
    simp only [valuation, Operand.place?, onward, h j r hr, Option.bind_some, hplace,
      Option.map_some, Option.getD_some]

end Store

namespace Select

open Machine

variable {symbols : SymbolTable} {σ final : Store} {s : State} {m : Machine}

/-- Values that are bytes have nothing above them. For a variable this is its width in memory, and
for a result it is the width of the triple that computed it. -/
theorem high_part_valuation {triples : List Triple} {o : Operand}
    (hknown : Triple.Known symbols triples σ.results) (hconst : o.isConst = false)
    (hbyte : o.width triples symbols = .byte) :
    Side.high.part (σ.valuation symbols (.of o)) = 0 := by
  cases o with
  | const c => cases hconst
  | var name =>
    cases hp : symbols.place? name with
    | none =>
      simp only [Store.valuation, Operand.value?, hp, Option.map_none]
      rfl
    | some p =>
      have hwidth : p.width = .byte := (SymbolTable.width_of_place? hp).trans hbyte
      simp only [Store.valuation, Operand.value?, hp, Option.map_some, Option.getD_some]
      exact high_part_of_narrow (hwidth ▸ p.narrow_read σ.memory)
  -- A result is known only if its triple has been carried out, and then it was cut to its width.
  | temp j =>
    cases hr : σ.results j with
    | none =>
      simp only [Store.valuation, Operand.value?, hr, Option.map_none]
      rfl
    | some r =>
      simp only [Store.valuation, Operand.value?, hr, Option.map_some, Option.getD_some]
      cases hfind : Triple.find? triples j with
      | none =>
        obtain ⟨t, ht, rfl⟩ := hknown.owner j r hr
        simpa using List.find?_eq_none.mp hfind t ht
      | some t =>
        obtain rfl : t.id = j := by simpa using List.find?_some hfind
        simp only [Operand.width, hfind] at hbyte
        exact high_part_of_narrow (hbyte ▸ hknown.fits t (List.mem_of_find?_eq_some hfind) r hr)

/-- Between triples a machine with the data of the store has what the selector relies on: literals
have their values, variables are at their addresses, and nothing of this is on the stack. -/
theorem surroundings (hsymbols : symbols.Separate) (hm : m.Hosts symbols)
    (hs : s.symbols = symbols) (hpinned : s.pinned = [])
    (hknown : Triple.Known symbols s.triples σ.results)
    (hstack : ∀ a, symbols.IsData a → a ∉ stackArea (s.stackBase m))
    (hmemory : ∀ a, symbols.IsData a → m.memory.read a = σ.memory.read a) :
    Surroundings (σ.valuation symbols) s m := by
  subst hs
  have hplace {name : String} {a : Word} (ha : m.addressOf? name = some a) :
      s.symbols.place? name = some { address := a, width := s.symbols.widthOf name } :=
    SymbolTable.place?_of_addressOf? ((hm.addressOf? name).symm.trans ha)
  -- The cells of a variable are within its storage, which is data.
  have hdata {name : String} {p : Place} (hp : s.symbols.place? name = some p) {a : Word}
      (ha : a ∈ p.cells) : s.symbols.IsData a :=
    ⟨name, SymbolTable.place?_subset_storage hsymbols hp a ha⟩
  have hvalue {name : String} {p : Place} (hp : s.symbols.place? name = some p) :
      σ.valuation s.symbols (.var name) = p.read σ.memory := by
    simp only [Value.var, Store.valuation, Operand.value?, hp, Option.map_some, Option.getD_some]
  constructor
  · exact fun _ => rfl
  · intro o hconst hbyte
    exact high_part_valuation hknown hconst (of_decide_eq_true hbyte)
  · intro v hv
    rw [hpinned] at hv
    cases hv
  · intro name a ha
    simp only [Store.valuation, Operand.place?, hplace ha, Option.map_some, Option.getD_some]
  · intro name a ha
    have hcell := hdata (hplace ha) (a := a)
      (by cases h : s.symbols.widthOf name <;> simp [Place.cells])
    refine ⟨hstack a hcell, ?_⟩
    rw [hvalue (hplace ha), Place.low_part_read]
    exact hmemory a hcell
  · intro name a ha hword
    have hwidth : s.symbols.widthOf name = .word := by
      cases hw : s.symbols.widthOf name with
      | byte => exact absurd (decide_eq_true hw) (Bool.eq_false_iff.mp hword)
      | word => rfl
    have hcell := hdata (hplace ha) (a := a + 1) (by simp [Place.cells, hwidth])
    refine ⟨hstack _ hcell, ?_⟩
    rw [hvalue (hplace ha), Place.high_part_read hwidth]
    exact hmemory _ hcell
  · intro v hv
    rw [hpinned] at hv
    cases hv

end Select

end Accumulator
