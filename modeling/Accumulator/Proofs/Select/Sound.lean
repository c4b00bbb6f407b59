import Mathlib.Tactic.Common
import Accumulator.Proofs.Select.Erase
import Accumulator.Proofs.Select.Following

/-!
# Runs of the code selected so far

While a program is selected, the code so far takes the machine at the start to one that agrees with
the record and has certain data in memory (`Arrives`). Every step of the selection keeps it: placing
operands, computing, entering the next triple, and taking a push back.
-/

namespace Accumulator.Select

open Machine

variable {ρ : Valuation} {data : Word → Prop} {m₀ m m' : Machine} {s s' : State} {memory : Memory}
  {symbols : SymbolTable} {v : Value} {o : Operation}

/-- The code so far takes the first machine to one that agrees with the state and has these data. -/
structure Arrives (ρ : Valuation) (data : Word → Prop) (m₀ : Machine) (memory : Memory) (s : State)
    (m : Machine) : Prop extends Reaches ρ data m₀ s.code s m where
  matched : s.regs.Matched
  contents : ∀ a, data a → m.memory.read a = memory.read a

namespace Arrives

/-- At the start there is no code. -/
theorem start (hagrees : Agrees ρ s m) (hcode : s.code = []) (hspill : s.spill = none)
    (hmatched : s.regs.Matched) : Arrives ρ data m m.memory s m where
  walks := hcode ▸ .nil m
  agrees := hagrees
  base := by simp only [State.stackBase, hspill]; rfl
  addresses := rfl
  matched := hmatched
  contents _ _ := rfl

variable (h : Arrives ρ data m₀ memory s m) (hdata : ∀ a, data a → a ∉ stackArea m₀.sp)

include h

/-- The data are not on the stack. -/
theorem read_of_frame (hdata : ∀ a, data a → a ∉ stackArea m₀.sp)
    (hframe : Frame s m s' m') (a : Word)
    (ha : data a) : m'.memory.read a = memory.read a :=
  (hframe.memory a (h.base ▸ hdata a ha)).trans (h.contents a ha)

/-- The addresses of the variables do not change, so the same cells are provided at any time. -/
theorem provided_iff {a : Word} : Provided ρ s m a ↔ Provided ρ s m₀ a := by
  have haddress (name : String) : m.addressOf? name = m₀.addressOf? name := by
    rw [addressOf?, addressOf?, h.addresses]
  constructor
  · intro ha
    cases ha with
    | low ha => exact .low (haddress _ ▸ ha)
    | high ha hword => exact .high (haddress _ ▸ ha) hword
    | operand hv hmemory => exact .operand hv hmemory
  · intro ha
    cases ha with
    | low ha => exact .low ((haddress _).trans ha)
    | high ha hword => exact .high ((haddress _).trans ha) hword
    | operand hv hmemory => exact .operand hv hmemory

include hdata

/-- Code that leads on is appended. It reads only what is provided, and all of that is among the
data. -/
theorem leads (hprovided : ∀ a, Provided ρ s m₀ a → data a) (hleads : Leads ρ s m s' m') :
    Arrives ρ data m₀ memory s' m' := by
  obtain ⟨is, hcode, hstrides⟩ := hleads.path
  exact {
    walks := by
      rw [hcode]
      exact h.walks.append (hstrides.walks.mono fun a ha => hprovided a (h.provided_iff.mp ha))
    agrees := hleads.agrees
    base := hleads.frame.base.trans h.base
    addresses := hleads.frame.addresses.trans h.addresses
    matched := hleads.matched
    contents := h.read_of_frame hdata hleads.frame }

/-- Code that computes is appended, with a record that is right about the registers. -/
theorem computes {read : Word → Prop} {code : List Instr} {rf : RegisterFile}
    (hread : ∀ a, read a → data a) (hmatched : rf.Matched)
    (hcomputes : ∀ data, (∀ a, read a → data a) → Unmarked data m →
      ∃ rs, rf.Describes ρ rs ∧ Computes data code m rs) :
    ∃ m', Arrives ρ data m₀ memory { s with code := s.code ++ code, regs := rf } m' ∧
      Frame s m { s with code := s.code ++ code, regs := rf } m' := by
  have hapart : ∀ a, data a → a ∉ stackArea (s.stackBase m) := fun a ha => h.base ▸ hdata a ha
  obtain ⟨m', hwalks, hframe, hagrees⟩ :=
    agrees_of_computes h.agrees (fun a ha => hapart a (hread a ha)) hcomputes
  refine ⟨m', ⟨⟨?_, hagrees, hframe.base.trans h.base, hframe.addresses.trans h.addresses⟩,
    hmatched, h.read_of_frame hdata hframe⟩, hframe⟩
  exact h.walks.append (hwalks data hread fun a ha => above_of_not_mem (hapart a ha))

/-- An operation is carried out whose operands are in their places. Its result is recorded, and
everything else that was recorded still holds. -/
theorem perform (hprovided : ∀ a, Provided ρ s m₀ a → data a) (hvalid : o.Valid)
    (hplaced : o.isOffered s = true) (hresult : ρ v = o.result ρ) :
    After (o.perform v) s fun _ s' => ∃ m', Arrives ρ data m₀ memory s' m' ∧ Frame s m s' m' := by
  simp only [Operation.perform, after_bind, after_emitAll, after_record]
  refine h.computes hdata (fun a ha => hprovided a (h.provided_iff.mp ha))
    (matched_update h.matched)
    fun data' hsub hunmarked => ?_
  refine Operation.computes h.agrees hvalid (fun place hmem => ?_) hresult hunmarked
  exact (finds_of_offers h.agrees (List.all_eq_true.mp hplaced place hmem)).mono hsub

omit hdata

/-- Another triple is entered. Only the values that are pinned change, and with them what the
machine has to provide. -/
theorem enter (pos : Nat) (pinned : List Value)
    (hdeclared : ∀ v ∈ pinned, ∀ name, v.operand = .var name → ∃ a, m₀.addressOf? name = some a)
    (hoperand : ∀ v ∈ pinned, s.isMemoryOperand v.operand = true →
      Stored (s.stackBase m) m (ρ (.addr v.operand)) (Side.low.part (ρ (.of v.operand)))) :
    Arrives ρ data m₀ memory { s with pos, pinned } m :=
  { h with
    agrees := { h.agrees with
      declared := by
        intro v hv name hname
        rw [addressOf?, h.addresses]
        exact hdeclared v hv name hname
      operand := hoperand } }

include hdata

/-- The push is taken back. -/
theorem erase {slot : Spill} (hs : Layered symbols s) (hspill : s.spill = some slot)
    (hslot : slot.exchanged = false) :
    ∃ m', Arrives ρ data m₀ memory
      { s with spill := none, code := s.code.eraseIdx slot.pushAt } m' := by
  obtain ⟨m', hreaches, hmemory⟩ := h.toReaches.erase hs hspill hslot hdata
  exact ⟨m',
    ⟨hreaches.walks, { hreaches.agrees with }, hreaches.base, hreaches.addresses⟩, h.matched,
    fun a ha => (hmemory a (hdata a ha)).trans (h.contents a ha)⟩

/-- Before a triple is selected, a push for nothing is taken back. The machine is another one then,
with the stack a word higher, but it agrees with the record all the same. -/
theorem after_dropDeadSpill (hs : Layered symbols s) :
    After dropDeadSpill s fun _ s' =>
      (∃ m', Arrives ρ data m₀ memory s' m') ∧ SameTriple s s' ∧ s'.symbols = s.symbols := by
  simp only [dropDeadSpill, after_bind, after_get]
  split
  · exact (after_pure _).mpr ⟨⟨m, h⟩, ⟨rfl, rfl, rfl⟩, rfl⟩
  next slot hspill =>
    refine after_ite (fun hdead => ?_) fun _ => (after_pure _).mpr ⟨⟨m, h⟩, ⟨rfl, rfl, rfl⟩, rfl⟩
    simp only [Bool.and_eq_true, Bool.not_eq_true'] at hdead
    exact (after_set _).mpr ⟨h.erase hdata hs hspill hdead.1, ⟨rfl, rfl, rfl⟩, rfl⟩

end Arrives

end Accumulator.Select
