import Mathlib.Tactic.Common
import Accumulator.Proofs.Select.Layered
import Accumulator.Proofs.Select.Spilling

/-!
# Taking back a push

A saved value that turns out not to be needed was pushed for nothing, and the selector takes the
push back: it removes the instruction from the code. The code behind it then runs with the stack
pointer one word higher. It pushes and pops in step all the same, and the words it meets on the
stack are its own (`Lifted`), so it ends with the same registers and the same memory outside the
stack (`Walks.lifted`), and what the code reached before it reaches without the push
(`Reaches.erase`).
-/

namespace Accumulator

open Select (stackArea)

namespace Machine

variable {data : Word → Prop} {code xs ys : List Instr} {i : Instr} {m m' n : Machine}
  {symbols : SymbolTable} {base : Word} {d e : Nat}

/-! ## Parts of a walk -/

/-- Jumps go over the clearing of the accumulator, so a walk can be cut in front of any other
instruction. -/
theorem Walks.split (hi : i ≠ .alu .xor .a) (h : Walks data (xs ++ i :: ys) m m') :
    ∃ m₁, Walks data xs m m₁ ∧ Walks data (i :: ys) m₁ m' := by
  generalize hcode : xs ++ i :: ys = code at h
  induction h generalizing xs with
  | nil m => cases xs <;> cases hcode
  | cons hcontrol hdata hstep h ih =>
    cases xs with
    | nil =>
      cases hcode
      exact ⟨_, .nil _, .cons hcontrol hdata hstep h⟩
    | cons x xs =>
      cases hcode
      obtain ⟨m₁, hfront, hback⟩ := ih rfl
      exact ⟨m₁, .cons hcontrol hdata hstep hfront, hback⟩
  -- The cut could only fall between a jump and the instruction it goes over, which is the one that
  -- is excluded.
  | skip hcond h ih =>
    obtain _ | ⟨x, _ | ⟨y, xs⟩⟩ := xs
    · cases hcode
      exact ⟨_, .nil _, .skip hcond h⟩
    · cases hcode
      exact absurd rfl hi
    · cases hcode
      obtain ⟨m₁, hfront, hback⟩ := ih rfl
      exact ⟨m₁, .skip hcond hfront, hback⟩
  | pass hcond h ih =>
    obtain _ | ⟨x, _ | ⟨y, xs⟩⟩ := xs
    · cases hcode
      exact ⟨_, .nil _, .pass hcond h⟩
    · cases hcode
      exact absurd rfl hi
    · cases hcode
      obtain ⟨m₁, hfront, hback⟩ := @ih (_ :: xs) rfl
      exact ⟨m₁, .pass hcond hfront, hback⟩

/-- Along a walk the stack pointer moves as the static depth of the code says, by a word for each
push and pop. Jumps do not change the count, since they only go over the clearing of the
accumulator. -/
theorem Walks.sp_of_depth? (h : Walks data code m m')
    (hcode : ∀ i ∈ code, i.isOrdinary symbols = true)
    (hdepth : Accumulator.depth? code d = some e) :
    m'.sp + BitVec.ofNat 16 (2 * e) = m.sp + BitVec.ofNat 16 (2 * d) := by
  induction h generalizing d with
  | nil m =>
    cases hdepth
    rfl
  | cons hcontrol hdata hstep h ih =>
    obtain ⟨hi, hrest⟩ := List.forall_mem_cons.mp hcode
    obtain ⟨d₁, hd₁, hdepth⟩ := Option.bind_eq_some_iff.mp hdepth
    rw [ih hrest hdepth, Machine.sp_of_depth? hi hd₁ hstep]
  | skip hcond h ih =>
    exact ih (fun i hi => hcode i (List.mem_cons_of_mem _ (List.mem_cons_of_mem _ hi))) hdepth
  | pass hcond h ih => exact ih (fun i hi => hcode i (List.mem_cons_of_mem _ hi)) hdepth

theorem Walks.sp_of_closed (h : Walks data code m m') (hcode : Clean symbols code) :
    m'.sp = m.sp := by
  have hsp := h.sp_of_depth? hcode.ordinary hcode.closed
  rwa [Nat.mul_zero, BitVec.add_zero, BitVec.add_zero] at hsp

/-! ## The stack one word higher -/

/-- The machine with the stack one word higher, and with other memory. -/
def lift (m : Machine) (memory : Memory) : Machine :=
  { m with sp := m.sp + 2, memory }

/-- The memory of a machine with the stack one word higher: it has the same data. Of the words on
the stack `d` were pushed since, no more than one; that one is the same. -/
structure Lifted (base : Word) (d : Nat) (m : Machine) (memory : Memory) : Prop where
  depth : d ≤ 1
  sp : m.sp + BitVec.ofNat 16 (2 * d) = base - 2
  outside : ∀ a ∉ stackArea base, memory.read a = m.memory.read a
  top : d = 1 → memory.readWord (m.sp + 2) = m.memory.readWord m.sp

namespace Lifted

variable {memory : Memory}

/-- Right after a push that is left out, the two machines differ by the pushed word and by nothing
else. -/
theorem of_push (m : Machine) (w : Word) : Lifted m.sp 0 (m.push w) m.memory where
  depth := Nat.zero_le 1
  sp := BitVec.add_zero _
  outside a ha := by
    simp only [stackArea, List.mem_cons, List.not_mem_nil, or_false, not_or] at ha
    exact (Memory.read_writeWord_of_ne ha.2.2.1 (by bv_omega)).symm
  top h := by cases h

/-- Taking a pushed word off again, with the memory of before, gives back the machine. -/
theorem lift_push (m : Machine) (w : Word) : (m.push w).lift m.memory = m := by
  simp only [lift, push, BitVec.sub_add_cancel]

/-- Both stacks are in their area, the word on top included. -/
theorem mem_stackArea (h : Lifted base 1 m memory) :
    m.sp ∈ stackArea base ∧ m.sp + 1 ∈ stackArea base ∧
      m.sp + 2 ∈ stackArea base ∧ m.sp + 2 + 1 ∈ stackArea base := by
  have hsp := h.sp
  have h₀ : m.sp = base - 4 := by bv_omega
  have h₁ : m.sp + 1 = base - 3 := by bv_omega
  have h₂ : m.sp + 2 = base - 2 := by bv_omega
  have h₃ : m.sp + 2 + 1 = base - 1 := by bv_omega
  rw [h₁, h₃, h₂, h₀]
  simp [stackArea]

/-- An instruction that leaves the stack alone does the same on both machines. -/
theorem step_of_stackless (h : Lifted base d m memory) (hdata : ∀ a, data a → a ∉ stackArea base)
    (hstack : i.usesStack = false) (hpair : i.pair? ≠ some .sp) (hcontrol : i.isControl = false)
    (hwithin : Within data m i) (hstep : m.step i = .ok m') :
    ∃ memory', (m.lift memory).step i = .ok (m'.lift memory') ∧ Within data (m.lift memory) i ∧
      Lifted base d m' memory' := by
  have hbarrier : i.isBarrier = false := by
    cases i with
    | call _ => cases hstack
    | jump _ _ | hlt => cases hcontrol
    | _ => rfl
  have hcells : ∀ a ∈ m.touches i, a ∉ stackArea base := fun a ha => hdata a (hwithin hstack a ha)
  have hsp : m'.sp = m.sp := by
    rw [step_sp hstep hpair]
    cases i with
    | push _ | pop _ => cases hstack
    | _ => exact BitVec.add_zero _
  have hmemory := step_memory hstep hcontrol
  have hstep' : { m with memory }.execute i =
      .ok { m' with memory := memory.writeAll (m.stores i) } := by
    rw [← step_eq_execute hbarrier]
    exact step_withMemory hstep hcontrol fun a ha =>
      h.outside a (hcells a (List.mem_append_left _ ha))
  refine ⟨memory.writeAll (m.stores i), ?_, ?_, h.depth, ?_, ?_, ?_⟩
  · rw [step_eq_execute hbarrier, lift, lift, hsp]
    exact execute_withSp hstep' hbarrier hpair hstack (m.sp + 2)
  · intro _ a ha
    have htouches : (m.lift memory).touches i = m.touches i := by
      refine (touches_withSp (m := { m with memory }) hstack hpair (m.sp + 2)).trans ?_
      rw [touches, loads_withMemory, storeCells_withMemory, touches]
    exact hwithin hstack a (htouches ▸ ha)
  · rw [hsp]
    exact h.sp
  · intro a ha
    rw [hmemory]
    exact Memory.read_writeAll_congr (.inr (h.outside a ha))
  · rintro rfl
    -- The word on top is no data, so it is not written.
    have hkept : ∀ a ∈ stackArea base, a ∉ (m.stores i).map Prod.fst := fun a ha hstored =>
      hcells a (List.mem_append_right _ hstored) ha
    obtain ⟨h₀, h₁, h₂, h₃⟩ := h.mem_stackArea
    rw [hmemory, hsp, Memory.readWord, Memory.readWord,
      Memory.read_writeAll_of_not_mem (hkept _ h₀), Memory.read_writeAll_of_not_mem (hkept _ h₁),
      Memory.read_writeAll_of_not_mem (hkept _ h₂), Memory.read_writeAll_of_not_mem (hkept _ h₃)]
    exact h.top rfl

/-- So does one that uses it, each on its own words. -/
theorem step_of_stack (h : Lifted base d m memory) (hstack : i.usesStack = true)
    (hpair : i.pair? ≠ some .sp) (hdepth : i.depthIn? 1 d = some e) (hstep : m.step i = .ok m') :
    ∃ memory', (m.lift memory).step i = .ok (m'.lift memory') ∧ Lifted base e m' memory' := by
  have hne {p : Pair} (hp : some p ≠ some Pair.sp) : p ≠ .sp := fun h => hp (h ▸ rfl)
  have hd := h.depth
  have hsp := h.sp
  -- A word that is written to the stack is written below or at the top of it.
  have hwrite {a b w : Word} {x : Memory} (ha : a = base - 4 ∨ a = base - 2)
      (hb : b ∉ stackArea base) :
      (x.writeWord a w).read b = x.read b := by
    simp only [stackArea, List.mem_cons, List.not_mem_nil, or_false, not_or] at hb
    obtain ⟨h₁, h₂, h₃, h₄⟩ := hb
    obtain rfl | rfl := ha
    · exact Memory.read_writeWord_of_ne h₁ (by bv_omega)
    · exact Memory.read_writeWord_of_ne h₃ (by bv_omega)
  cases i with
  | push p =>
    simp only [Instr.depthIn?] at hdepth
    split at hdepth
    next hlt =>
      obtain rfl : d = 0 := by omega
      cases hdepth
      cases hstep
      have hpairs : (m.lift memory).pair p = m.pair p := pair_withSp { m with memory } _ (hne hpair)
      have hm : m.sp = base - 2 := by bv_omega
      refine ⟨memory.writeWord m.sp (m.pair p), ?_, Nat.le_refl 1, ?_, fun a ha => ?_, fun _ => ?_⟩
      · show Except.ok ((m.lift memory).push _) = _
        rw [hpairs]
        simp only [lift, push, BitVec.sub_add_cancel, BitVec.add_sub_cancel]
      · show m.sp - 2 + _ = _
        bv_omega
      · show _ = (m.memory.writeWord (m.sp - 2) (m.pair p)).read a
        rw [hwrite (.inr hm) ha, hwrite (.inl (by bv_omega)) ha]
        exact h.outside a ha
      · show (memory.writeWord m.sp _).readWord (m.sp - 2 + 2) =
          (m.memory.writeWord (m.sp - 2) _).readWord (m.sp - 2)
        rw [BitVec.sub_add_cancel, Memory.readWord_writeWord_self, Memory.readWord_writeWord_self]
    next => cases hdepth
  | call routine =>
    simp only [Instr.depthIn?] at hdepth
    split at hdepth
    next hlt =>
      obtain rfl : d = 0 := by omega
      cases hdepth
      have hm : m.sp = base - 2 := by bv_omega
      have hmsp := call_sp hstep
      have hcall := call_withStack hstep (m.sp + 2) memory
      refine ⟨memory.writeWord (m.sp + 2 - 2) returnMark, ?_, h.depth, ?_, fun a ha => ?_, ?_⟩
      · rw [lift, lift, hmsp]
        exact hcall
      · rw [hmsp]
        exact h.sp
      · rw [step_memory hstep rfl]
        show _ = (m.memory.writeWord (m.sp - 2) returnMark).read a
        rw [hwrite (.inr (by bv_omega)) ha, hwrite (.inl (by bv_omega)) ha]
        exact h.outside a ha
      · intro h
        cases h
    next => cases hdepth
  | pop p =>
    cases d with
    | zero => cases hdepth
    | succ d =>
      obtain rfl : d = 0 := by omega
      cases hdepth
      cases hstep
      have htop := h.top rfl
      have hp := hne hpair
      refine ⟨memory, ?_, Nat.zero_le 1, ?_, fun a ha => ?_, ?_⟩
      · show Except.ok (Machine.setPair { m with sp := m.sp + 2 + 2, memory } p
          (memory.readWord (m.sp + 2))) = _
        rw [htop, lift, sp_setPair hp]
        show Except.ok (Machine.setPair _ p _) =
          Except.ok { (Machine.setPair { m with sp := m.sp + 2 } p _) with
            sp := m.sp + 2 + 2, memory }
        rw [setPair_withSp { m with memory } _ hp, setPair_withSp m _ hp, setPair_withMemory]
      · rw [sp_setPair hp]
        show m.sp + 2 + _ = _
        bv_omega
      · rw [h.outside a ha]
        cases p <;> rfl
      · intro h
        cases h
  | xthl =>
    cases d with
    | zero => cases hdepth
    | succ d =>
      obtain rfl : d = 0 := by omega
      cases hdepth
      cases hstep
      have htop := h.top rfl
      refine ⟨memory.writeWord (m.sp + 2) m.hl, ?_, h.depth, h.sp, fun a ha => ?_, fun _ => ?_⟩
      · show Except.ok (((m.lift memory).storeWord (m.sp + 2) m.hl).setPair .h
          (memory.readWord (m.sp + 2))) = _
        rw [htop]
        rfl
      · show _ = (m.memory.writeWord m.sp m.hl).read a
        rw [hwrite (.inr (by bv_omega)) ha, hwrite (.inl (by bv_omega)) ha]
        exact h.outside a ha
      · show (memory.writeWord (m.sp + 2) m.hl).readWord (m.sp + 2) =
          (m.memory.writeWord m.sp m.hl).readWord m.sp
        rw [Memory.readWord_writeWord_self, Memory.readWord_writeWord_self]
  | _ => cases hstack

/-- One instruction runs on both machines. Whether it uses the stack or not, the machine with the
higher stack stays a word above the other. -/
theorem step (h : Lifted base d m memory) (hdata : ∀ a, data a → a ∉ stackArea base)
    (hpair : i.pair? ≠ some .sp) (hdepth : i.depthIn? 1 d = some e) (hcontrol : i.isControl = false)
    (hwithin : Within data m i) (hstep : m.step i = .ok m') :
    ∃ memory', (m.lift memory).step i = .ok (m'.lift memory') ∧ Within data (m.lift memory) i ∧
      Lifted base e m' memory' := by
  cases hstack : i.usesStack with
  | false =>
    have he : e = d := by
      cases i with
      | push _ | pop _ | xthl | call _ => cases hstack
      | _ =>
        cases hdepth
        rfl
    rw [he]
    exact h.step_of_stackless hdata hstack hpair hcontrol hwithin hstep
  | true =>
    obtain ⟨memory', hstep', hlifted⟩ := h.step_of_stack hstack hpair hdepth hstep
    refine ⟨memory', hstep', fun hnot => ?_, hlifted⟩
    rw [hstack] at hnot
    cases hnot

end Lifted

/-- Code that pushes one word at most runs the same with the stack one word higher, by induction on
the walk. A jump leaves both machines as they are. -/
theorem Walks.lifted {memory : Memory} (h : Walks data code m m')
    (hdata : ∀ a, data a → a ∉ stackArea base) (hlifted : Lifted base d m memory)
    (hcode : ∀ i ∈ code, i.isOrdinary symbols = true)
    (hdepth : Accumulator.depthIn? 1 code d = some e) :
    ∃ memory', Walks data code (m.lift memory) (m'.lift memory') ∧ Lifted base e m' memory' := by
  induction h generalizing d memory with
  | nil m =>
    cases hdepth
    exact ⟨memory, .nil _, hlifted⟩
  | cons hcontrol hwithin hstep h ih =>
    obtain ⟨hi, hrest⟩ := List.forall_mem_cons.mp hcode
    obtain ⟨d₁, hd₁, hdepth⟩ := Option.bind_eq_some_iff.mp hdepth
    simp only [Instr.isOrdinary, Bool.and_eq_true, decide_eq_true_eq] at hi
    obtain ⟨memory₁, hstep', hwithin', hlifted₁⟩ :=
      hlifted.step hdata hi.1.2 hd₁ hcontrol hwithin hstep
    obtain ⟨memory', hwalks, hlifted'⟩ := ih hlifted₁ hrest hdepth
    exact ⟨memory', .cons hcontrol hwithin' hstep' hwalks, hlifted'⟩
  | @skip cond rest m m' hcond h ih =>
    obtain ⟨memory', hwalks, hlifted'⟩ := ih hlifted
      (fun i hi => hcode i (List.mem_cons_of_mem _ (List.mem_cons_of_mem _ hi))) hdepth
    exact ⟨memory', .skip (by cases cond <;> exact hcond) hwalks, hlifted'⟩
  | @pass cond rest m m' hcond h ih =>
    obtain ⟨memory', hwalks, hlifted'⟩ := ih hlifted
      (fun i hi => hcode i (List.mem_cons_of_mem _ hi)) hdepth
    exact ⟨memory', .pass (by cases cond <;> exact hcond) hwalks, hlifted'⟩

end Machine

namespace Select

open Machine

variable {ρ : Valuation} {data : Word → Prop} {m₀ m : Machine} {s : State} {symbols : SymbolTable}

/-! ## The code without the push -/

/-- The state with nothing saved. -/
def State.unsaved (s : State) : State := { s with spill := none }

/-- The code takes the first machine to one that agrees with the state. -/
structure Reaches (ρ : Valuation) (data : Word → Prop) (m₀ : Machine) (code : List Instr)
    (s : State) (m : Machine) : Prop where
  walks : Walks data code m₀ m
  agrees : Agrees ρ s m
  base : s.stackBase m = m₀.sp
  addresses : m.addresses = m₀.addresses

/-- A machine with the stack one word higher agrees with the state that has nothing saved. -/
theorem Agrees.lift {memory : Memory} (h : Agrees ρ s m) (hspill : s.spill.isSome = true)
    (hlifted : Lifted (s.stackBase m) 0 m memory) : Agrees ρ s.unsaved (m.lift memory) := by
  have hframe : Frame s m s.unsaved (m.lift memory) :=
    { triples := rfl
      symbols := rfl
      pos := rfl
      pinned := rfl
      addresses := rfl
      base := by
        simp only [State.stackBase, hspill, State.unsaved]
        rfl
      memory := hlifted.outside }
  exact { h.toSurroundings.of_frame hframe with
    registers := h.registers
    saved := fun _ hslot => by cases hslot }

/-- Without the push that filled the save slot the code runs the same, with the stack one word
higher: the code behind the push has not looked at the slot. The walk is cut at the push, and its
second part is lifted. -/
theorem Layered.walks_erase {slot : Spill} (hs : Layered symbols s) (hspill : s.spill = some slot)
    (hslot : slot.exchanged = false) (hdata : ∀ a, data a → a ∉ stackArea m₀.sp)
    (hwalks : Walks data s.code m₀ m) (hbase : s.stackBase m = m₀.sp) :
    ∃ memory, Walks data (s.code.eraseIdx slot.pushAt) m₀ (m.lift memory) ∧
      (m.lift memory).sp = m₀.sp ∧ Lifted m₀.sp 0 m memory := by
  cases hs with
  | bare _ hnone _ => cases hnone.symm.trans hspill
  | @saved _ p before after _ hsome hcode hparts =>
    cases hsome.symm.trans hspill
    rw [hcode] at hwalks
    obtain ⟨m₁, hfront, hpush⟩ := hwalks.split (fun h => by cases h)
    cases hpush with
    | cons _ _ hstep hback =>
      cases hstep
      have hsp := hfront.sp_of_closed hparts.front.toClean
      have hfresh := hparts.fresh hslot
      obtain ⟨memory, hback', hlifted⟩ := hback.lifted (hsp ▸ hdata)
        (.of_push m₁ (m₁.pair p)) hfresh.ordinary hfresh.shallow
      rw [Lifted.lift_push] at hback'
      rw [hsp] at hlifted
      refine ⟨memory, ?_, ?_, hlifted⟩
      · rw [hcode, ← hparts.length, Peephole.eraseIdx_length_append]
        exact hfront.append hback'
      · rw [← hbase, State.stackBase, hspill]
        rfl

/-- What code reaches it also reaches without the push, with nothing saved. -/
theorem Reaches.erase {slot : Spill} (h : Reaches ρ data m₀ s.code s m) (hs : Layered symbols s)
    (hspill : s.spill = some slot) (hslot : slot.exchanged = false)
    (hdata : ∀ a, data a → a ∉ stackArea m₀.sp) :
    ∃ n, Reaches ρ data m₀ (s.code.eraseIdx slot.pushAt) s.unsaved n ∧
      ∀ a ∉ stackArea m₀.sp, n.memory.read a = m.memory.read a := by
  obtain ⟨memory, hwalks, hsp, hlifted⟩ := hs.walks_erase hspill hslot hdata h.walks h.base
  have hsome : s.spill.isSome = true := by rw [hspill]; rfl
  exact ⟨m.lift memory, ⟨hwalks, h.agrees.lift hsome (h.base.symm ▸ hlifted), hsp, h.addresses⟩,
    hlifted.outside⟩

end Select

end Accumulator
