import Accumulator.Proofs.Select.Spilling

/-!
# Loading keeps machine and record in agreement

A step that loads a value of the current triple leads from a machine that agrees with the state to
another one, in which the value is where it was asked for. The value may be found in a register that
has to be vacated, or be moved while room is made for it; since it is a value of the current triple,
nothing takes its place before it is copied.
-/

namespace Accumulator.Select

open RegisterFile

variable {ρ : Valuation} {s s' : State} {m m' : Machine} {v : Value}

/-! ## Values from memory and immediates -/

/-- A literal is printed modulo 2^16, which is the same word. -/
theorem ofInt_mod_word (c : Int) : BitVec.ofInt 16 (c % 65536) = BitVec.ofInt 16 c := by
  apply BitVec.eq_of_toInt_eq
  simp only [BitVec.toInt_ofInt]
  exact Int.emod_bmod ..

/-- The low byte of a literal is that of the word it denotes. -/
theorem low_ofInt (c : Int) : Side.low.part (BitVec.ofInt 16 c) = lowByte c := by
  apply BitVec.eq_of_toInt_eq
  show ((BitVec.ofInt 16 c).extractLsb' 0 8).toInt = (BitVec.ofInt 8 c).toInt
  rw [← BitVec.setWidth_eq_extractLsb' (by decide),
    ← BitVec.signExtend_eq_setWidth_of_le _ (by decide), BitVec.toInt_signExtend,
    BitVec.toInt_ofInt, BitVec.toInt_ofInt]
  exact Int.bmod_bmod_of_dvd (by decide)

section Surroundings

variable {name : String}

/-- The name of a variable of the current triple is the address that the valuation gives it. -/
theorem Surroundings.imm_ofSymbol (h : Surroundings ρ s m) (hv : v ∈ s.pinned)
    (hname : v.operand = .var name) : m.imm (.ofSymbol name) = .ok (ρ (.addr (.var name))) := by
  obtain ⟨a, ha⟩ := h.declared v hv name hname
  simp only [Imm.ofSymbol, Machine.imm, ha, h.address name a ha]
  simp

/-- The first byte of a variable of the current triple is the low byte of its value. -/
theorem Surroundings.read_variable (h : Surroundings ρ s m) (hv : v ∈ s.pinned)
    (hname : v.operand = .var name) :
    m.memory.read (ρ (.addr (.var name))) = Side.low.part (ρ (.var name)) := by
  obtain ⟨a, ha⟩ := h.declared v hv name hname
  rw [h.address name a ha]
  exact (h.variableLow name a ha).2

theorem Surroundings.readWord_variable (h : Surroundings ρ s m) (hv : v ∈ s.pinned)
    (hname : v.operand = .var name) (hword : s.isByte (.var name) = false) :
    m.memory.readWord (ρ (.addr (.var name))) = ρ (.var name) := by
  obtain ⟨a, ha⟩ := h.declared v hv name hname
  rw [Memory.readWord, h.address name a ha, (h.variableLow name a ha).2,
    (h.variableHigh name a ha hword).2, Side.append_parts]

/-- The first byte of a variable of the current triple may be read. -/
theorem Surroundings.provided_variable (h : Surroundings ρ s m) (hv : v ∈ s.pinned)
    (hname : v.operand = .var name) : Provided ρ s m (ρ (.addr (.var name))) := by
  obtain ⟨a, ha⟩ := h.declared v hv name hname
  rw [h.address name a ha]
  exact .low ha

/-- The second byte of a word variable of the current triple may be read as well. -/
theorem Surroundings.provided_next (h : Surroundings ρ s m) (hv : v ∈ s.pinned)
    (hname : v.operand = .var name) (hword : s.isByte (.var name) = false) :
    Provided ρ s m (ρ (.addr (.var name)) + 1) := by
  obtain ⟨a, ha⟩ := h.declared v hv name hname
  rw [h.address name a ha]
  exact .high ha hword

theorem Surroundings.step_lxi (h : Surroundings ρ s m) (hv : v ∈ s.pinned)
    (hname : v.operand = .var name) (p : Pair) :
    Machine.Steps (Provided ρ s m) (.lxi p (.ofSymbol name)) m
      (m.setPair p (ρ (.addr (.var name)))) := by
  refine .of_registers rfl rfl rfl ?_
  show (m.imm (.ofSymbol name) >>= fun a => pure (m.setPair p a)) = _
  rw [h.imm_ofSymbol hv hname]
  rfl

/-- The low byte of a variable is loaded into the accumulator. -/
theorem Surroundings.step_lda (h : Surroundings ρ s m) (hv : v ∈ s.pinned)
    (hname : v.operand = .var name) :
    Machine.Steps (Provided ρ s m) (.lda (.ofSymbol name)) m
      (m.set .a (Side.low.part (ρ (.var name)))) := by
  have himm := h.imm_ofSymbol hv hname
  refine .of_load rfl ?_ rfl (h.provided_variable hv hname) ?_
  · simp only [Machine.loads, Machine.immAddress?, himm]
    rfl
  · show (m.imm (.ofSymbol name) >>= fun a => pure (m.set .a (m.memory.read a))) = _
    rw [himm, ← h.read_variable hv hname]
    rfl

/-- A word variable is loaded into HL. -/
theorem Surroundings.step_lhld (h : Surroundings ρ s m) (hv : v ∈ s.pinned)
    (hname : v.operand = .var name) (hword : s.isByte (.var name) = false) :
    Machine.Steps (Provided ρ s m) (.lhld (.ofSymbol name)) m
      (m.setPair .h (ρ (.var name))) := by
  have himm := h.imm_ofSymbol hv hname
  refine ⟨rfl, fun _ a ha => ?_, ?_⟩
  · have hcell : a = ρ (.addr (.var name)) ∨ a = ρ (.addr (.var name)) + 1 := by
      simpa [Machine.touches, Machine.loads, Machine.storeCells, Machine.stores,
        Machine.immAddress?, himm, Except.toOption, Machine.wordCells] using ha
    obtain rfl | rfl := hcell
    · exact h.provided_variable hv hname
    · exact h.provided_next hv hname hword
  · show (m.imm (.ofSymbol name) >>= fun a => pure (m.setPair .h (m.memory.readWord a))) = _
    rw [himm, ← h.readWord_variable hv hname hword]
    rfl

theorem Surroundings.step_lxi_num (h : Surroundings ρ s m) (p : Pair) (c : Int) :
    Machine.Steps (Provided ρ s m) (.lxi p (.num (c % 65536))) m
      (m.setPair p (ρ (.const c))) := by
  refine .of_registers rfl rfl rfl ?_
  show (Except.ok (m.setPair p (BitVec.ofInt 16 (c % 65536))) : Except Fault Machine) = _
  rw [ofInt_mod_word, h.literal]

end Surroundings

/-! ## Values in pairs -/

/-- The pair holds the value, or a byte is in its low register. -/
def State.Carries (s : State) (p : Pair) (v : Value) : Prop :=
  s.regs.pairValue? p = some v ∨
    s.isByte v = true ∧ ∃ high low, p.halves? = some (high, low) ∧ s.regs.get low = .scalar v

/-- Whether a pair carries a word or an extended byte, its low register has the low byte of the
value. -/
theorem State.Carries.low {p : Pair} {high low : Reg} (h : s.Carries p v)
    (hp : p.halves? = some (high, low)) (hagrees : Agrees ρ s m) :
    m.registers.get low = Side.low.part (ρ v) := by
  have hne := Pair.halves?_ne hp
  obtain hfull | ⟨-, high', low', hp', hlow⟩ := h
  · exact hagrees.registers.half hne.2.1 ((pairValue?_eq_some hp).mp hfull).2
  · rw [hp] at hp'
    cases hp'
    exact hagrees.registers.byte hne.2.1 hlow

/-- A word is carried by both registers. Of a byte only the low register is known to hold it. -/
theorem State.Carries.full {p : Pair} (h : s.Carries p v) (hword : s.isByte v = false) :
    s.regs.pairValue? p = some v := by
  obtain hfull | ⟨hbyte, -⟩ := h
  · exact hfull
  · rw [hword] at hbyte
    cases hbyte

/-- A value of the current triple stays in a pair while room is made elsewhere, because pinned
values are not evicted and are not overwritten. -/
theorem Keeps.carries {p : Pair} {high low : Reg} {lost kept : List Reg}
    (h : Keeps lost kept s m s' m') (hframe : Frame s m s' m') (hv : v ∈ s.pinned)
    (hp : p.halves? = some (high, low)) (hhigh : high ∉ lost) (hlow : low ∉ lost)
    (hcarries : s.Carries p v) : s'.Carries p v := by
  have hne := Pair.halves?_ne hp
  obtain hfull | ⟨hbyte, high', low', hp', hscalar⟩ := hcarries
  · obtain ⟨hfh, hfl⟩ := (pairValue?_eq_some hp).mp hfull
    refine .inl ((pairValue?_eq_some hp).mpr ⟨?_, ?_⟩)
    · rw [h.record high hne.1 hhigh (.inr ⟨v, hv, by rw [hfh]; rfl⟩), hfh]
    · rw [h.record low hne.2.1 hlow (.inr ⟨v, hv, by rw [hfl]; rfl⟩), hfl]
  · rw [hp] at hp'
    cases hp'
    refine .inr ⟨by rwa [hframe.isByte], high, low, hp, ?_⟩
    rw [h.record low hne.2.1 hlow (.inr ⟨v, hv, by rw [hscalar]; rfl⟩), hscalar]

/-- A pair with the records of another one carries what the other one did. -/
theorem State.Carries.moved {p q : Pair} {ph pl qh ql : Reg} (h : s.Carries p v)
    (hframe : Frame s m s' m') (hp : p.halves? = some (ph, pl)) (hq : q.halves? = some (qh, ql))
    (hmoved : s'.regs.get qh = s.regs.get ph ∧ s'.regs.get ql = s.regs.get pl) :
    s'.Carries q v := by
  obtain hfull | ⟨hbyte, high, low, hp', hlow⟩ := h
  · left
    rw [pairValue?_eq_some hp] at hfull
    rwa [pairValue?_eq_some hq, hmoved.1, hmoved.2]
  · rw [hp] at hp'
    cases hp'
    exact .inr ⟨by rwa [hframe.isByte], qh, ql, hq, hmoved.2.trans hlow⟩

/-- The answer of the search says how the pair that it found holds the value. -/
theorem pairMatch?_of_findWide? {p : Pair} {k : PairMatch} {rf : RegisterFile}
    (h : rf.findWide? v = some (p, k)) : rf.pairMatch? p v = some k := by
  obtain ⟨q, -, hq⟩ := List.exists_of_findSome?_eq_some h
  obtain ⟨k', hk', heq⟩ := Option.map_eq_some_iff.mp hq
  cases heq
  exact hk'

/-- A pair that is found to hold a value holds its low byte in its low register, whether it holds
all of it or a byte with zero above. -/
theorem holds_of_findWide? {p : Pair} {k : PairMatch} {rf : RegisterFile}
    (h : rf.findWide? v = some (p, k)) :
    ∃ high low, p.halves? = some (high, low) ∧
      (rf.pairValue? p = some v ∨ k = .extended ∧ rf.get low = .scalar v) := by
  have hmatch := pairMatch?_of_findWide? h
  unfold RegisterFile.pairMatch? at hmatch
  split at hmatch
  next => cases hmatch
  next high low hp =>
    refine ⟨high, low, hp, ?_⟩
    split at hmatch
    next hfull => exact .inl ((pairValue?_eq_some hp).mpr hfull)
    next =>
      split at hmatch
      next hextended =>
        cases hmatch
        exact .inr ⟨rfl, hextended.2⟩
      next => cases hmatch

/-- A pair that is found to hold a value carries it, if it holds the whole word or the value is a
byte. -/
theorem carries_of_findWide? {p : Pair} {k : PairMatch} (h : s.regs.findWide? v = some (p, k))
    (hk : k = .full ∨ s.isByte v = true) : s.Carries p v := by
  obtain ⟨high, low, hp, hfull | ⟨rfl, hlow⟩⟩ := holds_of_findWide? h
  · exact .inl hfull
  · obtain hk | hbyte := hk
    · cases hk
    · exact .inr ⟨hbyte, high, low, hp, hlow⟩

/-- A value that is said to be saved is the one in the save slot. -/
theorem spill_of_isSaved (h : s.isSaved v = true) :
    ∃ slot, s.spill = some slot ∧ slot.value = v := by
  simpa [State.isSaved, Option.any_eq_true] using h

/-! ## HL -/

/-- What the answer of a step that loads HL means: it is loaded, or nothing was done. -/
def Loads (v : Value) (s : State) (m : Machine) : Bool → State → Machine → Prop
  | true, s', _ => s'.Carries .h v
  | false, s', m' => s' = s ∧ m' = m

/-- A saved value is popped into HL, which is vacated before. If HL cannot be set aside otherwise,
it is exchanged with the save slot, and the value has arrived. -/
theorem tracks_popHL {slot : Spill} (h : Agrees ρ s m) (hmatched : s.regs.Matched)
    (hslot : s.spill = some slot) :
    Tracks ρ (do
      if ← vacateHL (some slot.value) then
        return true
      popSpill .h
      return true) s m (Loads slot.value s m) := by
  refine (tracks_vacateHL _ h hmatched).bind fun answer s₁ m₁ hleads₁ hanswer => ?_
  cases answer with
  | true =>
    obtain ⟨u, hu, hpair⟩ := hanswer
    cases hu
    exact tracks_pure hleads₁.agrees hleads₁.matched (.inl hpair)
  | false =>
    have hslot₁ := hanswer.1.slot slot hslot
    refine (tracks_popSpill hleads₁.agrees hleads₁.matched rfl hslot₁).bind
      fun _ s₂ m₂ hleads₂ hpair => ?_
    exact tracks_pure hleads₂.agrees hleads₂.matched (.inl hpair)

/-- A value that some pair or the stack holds is brought into HL, by an exchange, a copy or a pop.
Otherwise nothing happens. -/
theorem tracks_loadHLHeld (h : Agrees ρ s m) (hmatched : s.regs.Matched) (hv : v ∈ s.pinned) :
    Tracks ρ (loadHLHeld v) s m (Loads v s m) := by
  refine tracks_get ?_
  -- If no pair is used, the value may be in the save slot.
  have hsaved : Tracks ρ (if s.isSaved v = true then do
        if ← vacateHL (some v) then
          return true
        popSpill .h
        return true
      else
        return false) s m (Loads v s m) := by
    refine after_ite (fun hsaved => ?_) (fun _ => tracks_pure h hmatched ⟨rfl, rfl⟩)
    obtain ⟨slot, hslot, rfl⟩ := spill_of_isSaved hsaved
    exact tracks_popHL h hmatched hslot
  dsimp only
  split
  next k hfind =>
    refine after_ite (fun hk => ?_) (fun _ => hsaved)
    exact tracks_pure h hmatched (carries_of_findWide? hfind hk)
  next k hfind =>
    refine after_ite (fun hk => ?_) (fun _ => hsaved)
    refine (tracks_exchange h hmatched).bind fun _ s' m' hleads hmoved => ?_
    refine tracks_pure hleads.agrees hleads.matched ?_
    exact (carries_of_findWide? hfind hk).moved hleads.frame rfl rfl hmoved.2
  next k hfind =>
    refine after_ite (fun hk => ?_) (fun _ => hsaved)
    refine (tracks_vacateHL _ h hmatched).bind fun answer s₁ m₁ hleads₁ hanswer => ?_
    cases answer with
    | true =>
      obtain ⟨u, hu, hpair⟩ := hanswer
      cases hu
      exact tracks_pure hleads₁.agrees hleads₁.matched (.inl hpair)
    | false =>
      have hcarries := hanswer.1.carries hleads₁.frame hv (p := .b) rfl (by decide) (by decide)
        (carries_of_findWide? hfind hk)
      refine (tracks_copyPair hleads₁.agrees hleads₁.matched rfl rfl).bind
        fun _ s₂ m₂ hleads₂ hcopied => ?_
      refine tracks_pure hleads₂.agrees hleads₂.matched ?_
      exact hcarries.moved hleads₂.frame rfl rfl hcopied.2
  next => exact hsaved

/-- HL is vacated and then loaded by an instruction, which may read what memory provides. -/
theorem tracks_fillHL {i : Instr} (h : Agrees ρ s m) (hmatched : s.regs.Matched)
    (hstep : ∀ {s' m'}, Leads ρ s m s' m' →
      Machine.Steps (Provided ρ s' m') i m' (m'.setPair .h (ρ v))) :
    Tracks ρ (do
      let _ ← vacateHL none
      emit i
      record (·.bindPair .h v)
      return true) s m (Loads v s m) := by
  refine (tracks_vacateHL_none h hmatched).bind fun _ s' m' hleads _ => ?_
  unfold Tracks
  simp only [after_bind, after_emit, after_record, after_pure]
  exact ⟨_, leads_setPair hleads.agrees hleads.matched (p := .h) rfl (.single (hstep hleads)),
    .inl ((pairValue?_eq_some rfl).mpr (get_bindPair rfl))⟩

/-- A literal, an address or a word variable is loaded into HL by one instruction. -/
theorem tracks_loadHLDirect (h : Agrees ρ s m) (hmatched : s.regs.Matched) (hv : v ∈ s.pinned) :
    Tracks ρ (loadHLDirect v) s m (Loads v s m) := by
  refine (tracks_loadHLHeld h hmatched hv).bind fun answer s' m' hleads hanswer => ?_
  cases answer with
  | true => exact tracks_pure hleads.agrees hleads.matched hanswer
  | false =>
    obtain ⟨rfl, rfl⟩ := hanswer
    refine tracks_get ?_
    split
    next c =>
      exact tracks_fillHL h hmatched fun hleads' => hleads'.agrees.step_lxi_num .h c
    next name =>
      refine after_ite (fun _ => tracks_pure h hmatched ⟨rfl, rfl⟩) (fun hword => ?_)
      refine tracks_fillHL h hmatched fun hleads' => ?_
      refine hleads'.agrees.step_lhld (by rwa [hleads'.frame.pinned]) rfl ?_
      rw [hleads'.frame.isByte]
      exact (Bool.not_eq_true _).mp hword
    next name =>
      refine tracks_fillHL h hmatched fun hleads' => ?_
      exact hleads'.agrees.step_lxi (by rwa [hleads'.frame.pinned]) rfl .h
    next => exact tracks_pure h hmatched ⟨rfl, rfl⟩

/-! ## The accumulator -/

/-- If the accumulator is forgotten, the code leads to a machine with the value in it. -/
def Fills (ρ : Valuation) (v : Value) (s : State) (m : Machine) (s' : State) : Prop :=
  ∃ m', Leads ρ s m { s' with regs := s'.regs.clear .a } m' ∧
    m'.registers.a = Side.low.part (ρ v)

/-- An instruction that puts the low byte of a value into the accumulator fills it. -/
theorem fills_of_step {i : Instr} (h : Leads ρ s m s' m')
    (hstep : Machine.Steps (Provided ρ s' m') i m' (m'.set .a (Side.low.part (ρ v)))) :
    Fills ρ v s m { s' with code := s'.code ++ [i] } :=
  ⟨_, h.trans (leads_setUnknown h.agrees h.matched (by decide) hstep), rfl⟩

/-- The byte of an operand can be read at its address. -/
structure Reads (ρ : Valuation) (s : State) (m : Machine) (o : Operand) : Prop where
  provided : Provided ρ s m (ρ (.addr o))
  read : m.memory.read (ρ (.addr o)) = Side.low.part (ρ (.of o))

/-- The byte that HL points at is moved to the accumulator. -/
theorem fills_of_pairValue? {o : Operand} (h : Leads ρ s m s' m')
    (hpair : s'.regs.pairValue? .h = some (.addr o)) (hreads : Reads ρ s' m' o) :
    Fills ρ (.of o) s m { s' with code := s'.code ++ [.mov .a .m] } := by
  have hhl : m'.hl = ρ (.addr o) := pair_of_pairValue? (p := .h) h.agrees.registers hpair
  refine fills_of_step h (.of_load rfl rfl rfl (a := m'.hl) ?_ ?_)
  · rw [hhl]
    exact hreads.provided
  · show (Except.ok (m'.set .a (m'.memory.read m'.hl)) : Except Fault Machine) = _
    rw [hhl, hreads.read]

theorem fills_of_get {r : Reg} (h : Leads ρ s m s' m') (hr : r ≠ .m)
    (hbyte : m'.registers.get r = Side.low.part (ρ v)) :
    Fills ρ v s m { s' with code := s'.code ++ [.mov .a r] } := by
  refine fills_of_step h ?_
  rw [← hbyte, ← Machine.get_of_ne hr]
  exact .mov (by decide) hr

/-- A pair that is found for a value holds all of it. -/
theorem pairValue?_of_findPair? {p : Pair} {rf : RegisterFile} (h : rf.findPair? v = some p) :
    rf.pairValue? p = some v := by
  have hmatch := List.find?_some h
  simp only [decide_eq_true_eq] at hmatch
  unfold RegisterFile.pairMatch? at hmatch
  split at hmatch
  next => cases hmatch
  next high low hp =>
    split at hmatch
    next hfull => exact (pairValue?_eq_some hp).mpr hfull
    next =>
      split at hmatch
      · cases hmatch
      · cases hmatch

/-- With a value in memory, its address is a value of the current triple. -/
def State.PinsAddresses (s : State) : Prop :=
  ∀ o, .of o ∈ s.pinned → s.isMemoryOperand o = true → .addr o ∈ s.pinned

/-- An operand in memory is loaded through DE or BC, if one of them has its address, or else through
HL. The address is pinned, so if it is nowhere the selection stops. -/
theorem after_loadFromAddress {o : Operand} (h : Agrees ρ s m) (hmatched : s.regs.Matched)
    (hpins : s.PinsAddresses) (hv : .of o ∈ s.pinned) (ho : s.isMemoryOperand o = true) :
    After (loadFromAddress o) s fun _ s' => Fills ρ (.of o) s m s' := by
  unfold loadFromAddress
  simp only [after_bind, after_get]
  have hread : ∀ {s' m'}, Leads ρ s m s' m' → Reads ρ s' m' o := by
    intro s' m' hleads
    have hpinned : .of o ∈ s'.pinned := by rwa [hleads.frame.pinned]
    have hmemory : s'.isMemoryOperand o = true := by rwa [hleads.frame.isMemoryOperand]
    exact ⟨.operand hpinned hmemory, (hleads.agrees.operand (.of o) hpinned hmemory).2⟩
  -- A byte is loaded through DE or BC if its address is there.
  have hldax : ∀ p, s.regs.pairValue? p = some (.addr o) →
      Fills ρ (.of o) s m { s with code := s.code ++ [.ldax p] } := by
    intro p hpair
    have hreads := hread (.refl h hmatched)
    have haddress : m.pair p = ρ (.addr o) := pair_of_pairValue? h.registers hpair
    refine fills_of_step (.refl h hmatched) (.of_load rfl rfl rfl (a := m.pair p) ?_ ?_)
    · rw [haddress]
      exact hreads.provided
    · show (Except.ok (m.set .a (m.memory.read (m.pair p))) : Except Fault Machine) = _
      rw [haddress, hreads.read]
  split
  next hfind => exact (after_emit _).mpr (hldax .d (pairValue?_of_findPair? hfind))
  next hfind => exact (after_emit _).mpr (hldax .b (pairValue?_of_findPair? hfind))
  next =>
    rw [after_bind]
    refine After.mono (tracks_loadHLDirect h hmatched (hpins o hv ho)) ?_
    rintro answer s' ⟨m', hleads, hanswer⟩
    cases answer with
    | true =>
      refine (after_emit _).mpr (fills_of_pairValue? hleads ?_ (hread hleads))
      exact hanswer.full rfl
    | false => exact after_rejectTooComplex

/-- The low byte of a value in a pair, or of a saved one, is loaded. -/
theorem after_loadLowByte (h : Agrees ρ s m) (hmatched : s.regs.Matched) (hv : v ∈ s.pinned) :
    After (loadLowByte v) s fun _ s' => Fills ρ v s m s' := by
  unfold loadLowByte
  simp only [after_bind, after_get]
  split
  next p k hfind =>
    obtain ⟨high, low, hp, hlow⟩ := holds_of_findWide? hfind
    have hne := Pair.halves?_ne hp
    simp only [hp, after_emit]
    refine fills_of_get (.refl h hmatched) hne.2.1 ?_
    obtain hfull | ⟨-, hscalar⟩ := hlow
    · exact h.registers.half hne.2.1 ((pairValue?_eq_some hp).mp hfull).2
    · exact h.registers.byte hne.2.1 hscalar
  next =>
    refine after_ite (fun _ => ?_) (fun _ => after_rejectTooComplex)
    rw [after_bind]
    refine After.mono (tracks_loadHLDirect h hmatched hv) ?_
    rintro answer s' ⟨m', hleads, hanswer⟩
    cases answer with
    | true =>
      exact (after_emit _).mpr (fills_of_get hleads (by decide) (hanswer.low rfl hleads.agrees))
    | false => exact after_rejectTooComplex

/-- A register that is found for a byte is recorded with it, and it is a real register. -/
theorem get_of_findByte? {r : Reg} {rf : RegisterFile} (h : rf.findByte? v = some r) :
    r ≠ .m ∧ rf.get r = .scalar v := by
  refine ⟨?_, by simpa [RegisterFile.holds] using List.find?_some h⟩
  rintro rfl
  simpa [Reg.all] using List.mem_of_find?_eq_some h

/-- A value that can be read as `m` is where HL points. -/
theorem read_of_isAtM (h : Agrees ρ s m) (hv : v ∈ s.pinned) (hatM : s.isAtM v = true) :
    ∃ o, v = .of o ∧ s.regs.pairValue? .h = some (.addr o) ∧ Reads ρ s m o := by
  cases v with
  | addr o => cases hatM
  | of o =>
    simp only [State.isAtM, Bool.and_eq_true, Bool.or_eq_true, decide_eq_true_eq] at hatM
    refine ⟨o, rfl, pairValue?_of_findPair? hatM.2, ?_⟩
    obtain hvar | hmemory := hatM.1
    · cases o with
      | var name => exact ⟨h.provided_variable hv rfl, h.read_variable hv rfl⟩
      | const _ | temp _ => cases hvar
    · exact ⟨.operand hv hmemory, (h.operand (.of o) hv hmemory).2⟩

/-- The accumulator is filled with the low byte of a value, from wherever that can be had most
cheaply: a register, memory, an immediate, or a pair. -/
theorem after_fillAccumulator (h : Agrees ρ s m) (hmatched : s.regs.Matched)
    (hpins : s.PinsAddresses) (hv : v ∈ s.pinned) :
    After (fillAccumulator v) s fun _ s' => Fills ρ v s m s' := by
  have hrefl := Leads.refl h hmatched
  unfold fillAccumulator
  simp only [after_bind, after_get]
  -- The cases are in the order in which the selector tries them.
  split
  next r hfind =>
    obtain ⟨hr, hscalar⟩ := get_of_findByte? hfind
    exact (after_emit _).mpr (fills_of_get hrefl hr (h.registers.byte hr hscalar))
  next hnone =>
    refine after_ite (fun hatM => ?_) (fun hfar => ?_)
    · obtain ⟨o, rfl, hpair, hreads⟩ := read_of_isAtM h hv hatM
      exact (after_emit _).mpr (fills_of_pairValue? hrefl hpair hreads)
    · split
      next c =>
        have hbyte : Side.low.part (ρ (.of (.const c))) = lowByte c :=
          (congrArg Side.low.part (h.literal c)).trans (low_ofInt c)
        refine (after_emit _).mpr (fills_of_step hrefl ?_)
        rw [hbyte]
        exact .mvi (by decide) _
      next name => exact (after_emit _).mpr (fills_of_step hrefl (h.step_lda hv rfl))
      next o _ _ =>
        refine after_ite (fun ho => ?_) (fun _ => ?_)
        · exact after_loadFromAddress h hmatched hpins hv ho
        · exact after_loadLowByte h hmatched hv
      next => exact after_loadLowByte h hmatched hv

/-- Steps in the middle of a triple pin what was pinned before. -/
theorem Frame.pinsAddresses (h : Frame s m s' m') (hpins : s.PinsAddresses) :
    s'.PinsAddresses := by
  intro o ho hmemory
  rw [h.pinned] at ho ⊢
  rw [h.isMemoryOperand] at hmemory
  exact hpins o ho hmemory

/-- The accumulator is loaded with the low byte of a value, and a byte is recorded there. Of a word
nothing more is claimed, since only part of it is in the accumulator. -/
theorem tracks_loadAccumulator (h : Agrees ρ s m) (hmatched : s.regs.Matched)
    (hpins : s.PinsAddresses) (hv : v ∈ s.pinned) :
    Tracks ρ (loadAccumulator v) s m fun _ s' m' =>
      m'.registers.a = Side.low.part (ρ v) ∧
        (s.isByte v = true → s'.regs.get .a = .scalar v) := by
  refine tracks_get (after_ite (fun hholds => ?_) (fun _ => ?_))
  · have hscalar : s.regs.get .a = .scalar v := by simpa [RegisterFile.holds] using hholds
    exact tracks_pure h hmatched ⟨h.registers.byte (by decide) hscalar, fun _ => hscalar⟩
  · refine (tracks_saveAccumulator h hmatched).bind fun _ s₁ m₁ hleads₁ _ => ?_
    have hfill := after_fillAccumulator hleads₁.agrees hleads₁.matched
      (hleads₁.frame.pinsAddresses hpins) (v := v) (by rwa [hleads₁.frame.pinned])
    refine (after_bind _ _).mpr (hfill.mono ?_)
    rintro _ s₂ ⟨m₂, hleads₂, hbyte⟩
    have hwidth : s₂.isByte v = s.isByte v :=
      (hleads₂.frame.isByte v).trans (hleads₁.frame.isByte v)
    refine (after_bind _ _).mpr (after_get.mpr (after_ite (fun _ => ?_) (fun hnot => ?_)))
    · -- The accumulator holds the byte, so it may be recorded.
      rw [after_record]
      refine ⟨m₂, hleads₂.trans (.of_record hleads₂.agrees ?_ ?_), hbyte, fun _ => ?_⟩
      · exact hleads₂.agrees.registers.put_get (r := .a) (by decide) hbyte
      · exact hleads₂.matched.put_scalar (r := .a) (by decide)
          (by rw [get_clear_self (by decide)]; rfl)
      · exact get_put_self (by decide)
    · rw [after_record]
      refine ⟨m₂, hleads₂, hbyte, fun hb => ?_⟩
      rw [hwidth, hb] at hnot
      simp at hnot

/-- A byte is found in a register other than those to avoid, or it is loaded into the accumulator,
which is none of them. -/
theorem tracks_locateByte {avoid : List Reg} (h : Agrees ρ s m) (hmatched : s.regs.Matched)
    (hpins : s.PinsAddresses) (hv : v ∈ s.pinned) (hbyte : s.isByte v = true)
    (havoid : .a ∉ avoid) :
    Tracks ρ (locateByte v avoid) s m fun r s' _ =>
      r ≠ .m ∧ r ∉ avoid ∧ s'.regs.get r = .scalar v := by
  have hload : Tracks ρ (do loadAccumulator v; return Reg.a) s m fun r s' _ =>
      r ≠ .m ∧ r ∉ avoid ∧ s'.regs.get r = .scalar v :=
    (tracks_loadAccumulator h hmatched hpins hv).bind fun _ s' m' hleads hloaded =>
      tracks_pure hleads.agrees hleads.matched ⟨by decide, havoid, hloaded.2 hbyte⟩
  refine tracks_get ?_
  split
  next r hfind =>
    refine after_ite (fun _ => hload) (fun hnot => ?_)
    obtain ⟨hr, hscalar⟩ := get_of_findByte? hfind
    exact tracks_pure h hmatched ⟨hr, by simpa using hnot, hscalar⟩
  next => exact hload

/-! ## Registers and pairs -/

/-- A byte in some other register, a value of the current triple, is extended into a pair that was
vacated since: a move and a zero above it. -/
theorem tracks_extend {p : Pair} {high low r : Reg} {lost kept : List Reg} {α : Type}
    {x : Selecting α} (hv : v ∈ s.pinned) (hbyte : s.isByte v = true)
    (hp : p.halves? = some (high, low)) (hr : r ≠ .m) (hscalar : s.regs.get r = .scalar v)
    (hlost : r ∉ lost) (hx : Tracks ρ x s m fun _ s' m' => Keeps lost kept s m s' m') :
    Tracks ρ (do
      let _ ← x
      emitAll [.mov low r, .mvi high 0]
      record (·.bindExtended p v)) s m fun _ s' _ => s'.Carries p v := by
  have hne := Pair.halves?_ne hp
  refine hx.bind fun _ s' m' hleads hkeeps => ?_
  have hscalar' : s'.regs.get r = .scalar v := by
    rw [hkeeps.record r hr hlost (.inr ⟨v, hv, by rw [hscalar]; rfl⟩), hscalar]
  unfold Tracks
  simp only [after_bind, after_emitAll, after_record]
  refine ⟨_, leads_extend hleads.agrees hleads.matched hp hr
    (hleads.agrees.registers.byte hr hscalar'), .inr ⟨?_, high, low, hp, ?_⟩⟩
  · exact (hleads.frame.isByte v).trans hbyte
  · show (s'.regs.bindExtended p v).get low = .scalar v
    simp only [RegisterFile.bindExtended, hp]
    exact get_bind_self hne.2.1

/-- Loading a value leaves HL carrying it, if the selection goes on. Held values are tried first,
then single instructions, and a byte is extended. -/
theorem tracks_loadHL (h : Agrees ρ s m) (hmatched : s.regs.Matched) (hpins : s.PinsAddresses)
    (hv : v ∈ s.pinned) : Tracks ρ (loadHL v) s m fun _ s' _ => s'.Carries .h v := by
  refine (tracks_loadHLDirect h hmatched hv).bind fun answer s' m' hleads hanswer => ?_
  cases answer with
  | true => exact tracks_pure hleads.agrees hleads.matched hanswer
  | false =>
    obtain ⟨rfl, rfl⟩ := hanswer
    cases v with
    | addr o => exact after_rejectTooComplex
    | of o =>
      refine tracks_get (after_ite (fun hbyte => ?_) (fun _ => after_rejectTooComplex))
      refine (tracks_locateByte h hmatched hpins hv hbyte (by decide)).bind
        fun r s' m' hleads hlocated => ?_
      refine tracks_extend (by rwa [hleads.frame.pinned])
        ((hleads.frame.isByte _).trans hbyte) (p := .h) rfl hlocated.1 hlocated.2.2 hlocated.2.1
        ((tracks_vacateHL_none hleads.agrees hleads.matched).mono
          fun _ _ _ _ hvacated => hvacated.1)

section LoadPairVariable

variable {name : String}

/-- HL, if nothing is recorded of it, may be changed on the way to DE. -/
theorem leads_fill_exchange {i : Instr} (h : Agrees ρ s m) (hmatched : s.regs.Matched)
    (hempty : s.regs.get .h = .empty ∧ s.regs.get .l = .empty)
    (hstep : Machine.Steps (Provided ρ s m) i m (m.setPair .h (ρ v))) :
    Leads ρ s m { s with code := s.code ++ [i, .xchg], regs := s.regs.bindPair .d v }
      { m with registers := { m.registers with
          d := Side.high.part (ρ v), e := Side.low.part (ρ v)
          h := m.registers.d, l := m.registers.e } } := by
  refine .of_registers h ?_ ?_ hmatched.bindPair
  · exact .cons hstep (.single (.of_registers rfl rfl rfl (Machine.step_xchg _)))
  · -- What is recorded of HL stays empty, so nothing is said about its new contents.
    intro r hr
    have hother : r ≠ .d → r ≠ .e → (s.regs.bindPair .d v).get r = s.regs.get r := fun hd he =>
      get_bindPair_of_ne rfl hr hd he
    have hbound : (s.regs.bindPair .d v).get .d = .half v .high ∧
        (s.regs.bindPair .d v).get .e = .half v .low := get_bindPair rfl
    cases r with
    | m => exact absurd rfl hr
    | d => rw [hbound.1]; rfl
    | e => rw [hbound.2]; rfl
    | h => rw [hother (by decide) (by decide), hempty.1]; trivial
    | l => rw [hother (by decide) (by decide), hempty.2]; trivial
    | a | b | c =>
      rw [hother (by decide) (by decide)]
      exact h.registers _ hr

/-- HL is exchanged with DE, loaded while its value is there, and exchanged back. So DE gets the
word and HL is as before. -/
theorem strides_exchange_fill_exchange {i : Instr} {w : Word} {data : Word → Prop}
    (hstep : Machine.Steps data i m.exchanged (m.exchanged.setPair .h w)) :
    Machine.Strides data [.xchg, i, .xchg] m (m.setPair .d w) := by
  have hback : Machine.Steps data .xchg (m.exchanged.setPair .h w) (m.setPair .d w) :=
    .of_registers rfl rfl rfl (Machine.step_xchg _)
  exact .cons (.of_registers rfl rfl rfl m.step_xchg) (.cons hstep (.single hback))

/-- HL is pushed, loaded, copied to BC, and popped. The two bytes below the stack change, and no
data lies there. -/
theorem leads_push_fill_pop (h : Agrees ρ s m) (hmatched : s.regs.Matched)
    (hv : .var name ∈ s.pinned) (hword : s.isByte (.var name) = false) :
    ∃ m', Leads ρ s m
      { s with
        code := s.code ++
          [.push .h, .lhld (.ofSymbol name), .mov .b .h, .mov .c .l, .pop .h]
        regs := s.regs.bindPair .b (.var name) } m' := by
  have hframe : Frame s m
      { s with
        code := s.code ++
          [.push .h, .lhld (.ofSymbol name), .mov .b .h, .mov .c .l, .pop .h]
        regs := s.regs.bindPair .b (.var name) }
      ({ m with memory := (m.push m.hl).memory }.setPair .b (ρ (.var name))) :=
    ⟨rfl, rfl, rfl, rfl, rfl, rfl, fun a ha => read_push s m _ ha⟩
  have hsurroundings := h.toSurroundings.of_frame hframe
  have himm : (m.push m.hl).imm (.ofSymbol name) = .ok (ρ (.addr (.var name))) :=
    hsurroundings.imm_ofSymbol hv rfl
  have hread : (m.push m.hl).memory.readWord (ρ (.addr (.var name))) = ρ (.var name) :=
    hsurroundings.readWord_variable hv rfl hword
  refine ⟨_, ⟨_, rfl, ?_⟩, hframe, ?_, hmatched.bindPair (p := .b)⟩
  · have hload : Machine.Steps (Provided ρ s m) (.lhld (.ofSymbol name)) (m.push m.hl)
        ((m.push m.hl).setPair .h (ρ (.var name))) := by
      refine ⟨rfl, fun _ a ha => ?_, ?_⟩
      · have hcell : a = ρ (.addr (.var name)) ∨ a = ρ (.addr (.var name)) + 1 := by
          simpa [Machine.touches, Machine.loads, Machine.storeCells, Machine.stores,
            Machine.immAddress?, himm, Except.toOption, Machine.wordCells] using ha
        obtain rfl | rfl := hcell
        · exact h.provided_variable hv rfl
        · exact h.provided_next hv rfl hword
      · show ((m.push m.hl).imm (.ofSymbol name) >>= fun a =>
          pure ((m.push m.hl).setPair .h ((m.push m.hl).memory.readWord a))) = _
        rw [himm, ← hread]
        rfl
    have hpop : (m.push m.hl).memory.readWord (m.sp - 2) = m.hl :=
      Memory.readWord_writeWord_self _ _ _
    have hsp : m.sp - 2 + 2 = m.sp := by bv_omega
    refine .cons (.of_stack rfl rfl) (.cons hload (.cons (.mov (by decide) (by decide))
      (.cons (.mov (by decide) (by decide)) (.single (.of_stack rfl ?_)))))
    show (Except.ok (Machine.setPair
      { ((m.push m.hl).setPair .h (ρ (.var name))).setPair .b (ρ (.var name)) with
        sp := m.sp - 2 + 2 } .h ((m.push m.hl).memory.readWord (m.sp - 2))) :
        Except Fault Machine) = _
    rw [hpop, hsp]
    simp only [Machine.setPair, Machine.hl, high_of_append, low_of_append]
    rfl
  · refine { hsurroundings with registers := h.registers.bindPair (p := .b) rfl, saved := ?_ }
    intro slot hslot
    rw [← h.saved slot hslot]
    -- The word in the save slot is above the one that was pushed.
    show (m.push m.hl).memory.readWord m.sp = m.memory.readWord m.sp
    refine Machine.readWord_congr fun a ha => ?_
    simp only [Machine.wordCells, List.mem_cons, List.not_mem_nil, or_false] at ha
    exact Memory.read_writeWord_of_ne (by obtain rfl | rfl := ha <;> bv_omega)
      (by obtain rfl | rfl := ha <;> bv_omega)

/-- A word variable goes to DE and BC through HL, which is as before afterwards or was not
needed. -/
theorem tracks_loadPairVariable {p : Pair} (h : Agrees ρ s m)
    (hmatched : s.regs.Matched) (hv : .var name ∈ s.pinned) (hword : s.isByte (.var name) = false)
    (hp : p = .d ∨ p = .b) :
    Tracks ρ (loadPairVariable p name) s m fun _ s' _ => s'.Carries p (.var name) := by
  unfold loadPairVariable
  -- rfl := hp | DE can be exchanged with HL, BC cannot, so HL is saved on the stack for BC.
  obtain rfl | rfl := hp
  · rw [if_pos rfl]
    refine tracks_get (after_ite (fun _ => ?_) (fun _ => ?_))
    · refine (tracks_vacateHL_none h hmatched).bind fun _ s' m' hleads hvacated => ?_
      have hstep := hleads.agrees.step_lhld (v := .var name) (by rwa [hleads.frame.pinned]) rfl
        (by rwa [hleads.frame.isByte])
      unfold Tracks
      simp only [after_bind, after_emitAll, after_record]
      exact ⟨_, leads_fill_exchange hleads.agrees hleads.matched hvacated.2 hstep,
        .inl ((pairValue?_eq_some rfl).mpr (get_bindPair rfl))⟩
    · simp only [after_bind, after_emitAll, after_record]
      refine ⟨_, leads_setPair h hmatched (p := .d) rfl ?_,
        .inl ((pairValue?_eq_some rfl).mpr (get_bindPair rfl))⟩
      have hexchanged := leads_exchange h hmatched
      have hstep := hexchanged.agrees.step_lhld (v := .var name) hv rfl hword
      exact strides_exchange_fill_exchange (hstep.mono fun _ ha => hexchanged.frame.provided ha)
  · rw [if_neg (by decide)]
    obtain ⟨m', hleads⟩ := leads_push_fill_pop h hmatched hv hword
    unfold Tracks
    simp only [after_bind, after_emitAll, after_record]
    exact ⟨m', hleads, .inl ((pairValue?_eq_some rfl).mpr (get_bindPair rfl))⟩

end LoadPairVariable

/-- A value that some pair or the stack holds is brought into DE or BC. The answer says whether that
was so; otherwise nothing has changed. -/
theorem tracks_loadPairHeld {p : Pair} {high low : Reg} (h : Agrees ρ s m)
    (hmatched : s.regs.Matched) (hv : v ∈ s.pinned) (hp : p.halves? = some (high, low)) :
    Tracks ρ (loadPairHeld p v) s m fun answer s' m' =>
      if answer then s'.Carries p v else s' = s ∧ m' = m := by
  refine tracks_get ?_
  -- The last resort is the stack. It is reached from two branches of the search.
  have hsaved : Tracks ρ (if s.isSaved v = true then do
        vacatePair p
        popSpill p
        return true
      else
        return false) s m fun answer s' m' =>
      if answer then s'.Carries p v else s' = s ∧ m' = m := by
    refine after_ite (fun hsaved => ?_) (fun _ => tracks_pure h hmatched (by simp))
    obtain ⟨slot, hslot, rfl⟩ := spill_of_isSaved hsaved
    refine (tracks_vacatePair h hmatched hp).bind fun _ s₁ m₁ hleads₁ hvacated => ?_
    refine (tracks_popSpill hleads₁.agrees hleads₁.matched hp (hvacated.1.slot slot hslot)).bind
      fun _ s₂ m₂ hleads₂ hpair => ?_
    exact tracks_pure hleads₂.agrees hleads₂.matched (.inl hpair)
  dsimp only
  split
  next q k hfind =>
    refine after_ite (fun hk => ?_) (fun _ => hsaved)
    have hcarries := carries_of_findWide? hfind hk
    refine after_ite (fun hne => ?_) (fun heq => ?_)
    · obtain ⟨qh, ql, hq, -⟩ := holds_of_findWide? hfind
      -- Pairs do not share registers, so vacating one leaves the other alone.
      have hdistinct : qh ∉ [high, low] ∧ ql ∉ [high, low] := by
        cases p <;> cases hp <;> cases q <;> cases hq <;> first | decide | exact absurd rfl hne
      refine (tracks_vacatePair h hmatched hp).bind fun _ s₁ m₁ hleads₁ hvacated => ?_
      have hcarries₁ := hvacated.1.carries hleads₁.frame hv hq hdistinct.1 hdistinct.2 hcarries
      refine (tracks_copyPair hleads₁.agrees hleads₁.matched hq hp).bind
        fun _ s₂ m₂ hleads₂ hcopied => ?_
      refine tracks_pure hleads₂.agrees hleads₂.matched ?_
      exact hcarries₁.moved hleads₂.frame hq hp hcopied.2
    · obtain rfl : q = p := by simpa using heq
      exact tracks_pure h hmatched hcarries
  next => exact hsaved

/-- A pair is vacated and then loaded by an instruction, as HL is. -/
theorem tracks_fillPair {p : Pair} {high low : Reg} {i : Instr} (h : Agrees ρ s m)
    (hmatched : s.regs.Matched) (hp : p.halves? = some (high, low))
    (hstep : ∀ {s' m'}, Leads ρ s m s' m' →
      Machine.Steps (Provided ρ s' m') i m' (m'.setPair p (ρ v))) :
    Tracks ρ (do
      vacatePair p
      emit i
      record (·.bindPair p v)) s m fun _ s' _ => s'.Carries p v := by
  refine (tracks_vacatePair h hmatched hp).bind fun _ s' m' hleads _ => ?_
  unfold Tracks
  simp only [after_bind, after_emit, after_record]
  exact ⟨_, leads_setPair hleads.agrees hleads.matched hp (.single (hstep hleads)),
    .inl ((pairValue?_eq_some hp).mpr (get_bindPair hp))⟩

/-- Loading a value into DE or BC leaves the pair carrying it, if the selection goes on. -/
theorem tracks_loadPair {p : Pair} (h : Agrees ρ s m) (hmatched : s.regs.Matched)
    (hpins : s.PinsAddresses) (hv : v ∈ s.pinned) (hp : p = .d ∨ p = .b) :
    Tracks ρ (loadPair p v) s m fun _ s' _ => s'.Carries p v := by
  obtain ⟨high, low, hhalves, hacc⟩ : ∃ high low, p.halves? = some (high, low) ∧
      .a ∉ [high, low] := by
    obtain rfl | rfl := hp
    · exact ⟨.d, .e, rfl, by decide⟩
    · exact ⟨.b, .c, rfl, by decide⟩
  unfold loadPair
  simp only [hhalves]
  refine (tracks_loadPairHeld h hmatched hv hhalves).bind fun answer s' m' hleads hanswer => ?_
  cases answer with
  | true => exact tracks_pure hleads.agrees hleads.matched hanswer
  | false =>
    obtain ⟨rfl, rfl⟩ := hanswer
    refine tracks_get ?_
    -- A literal or an address takes one instruction, a byte is extended, and a word variable goes
    -- through HL. Any other word that no pair holds is too complex.
    split
    next c =>
      exact tracks_fillPair h hmatched hhalves fun hleads' => hleads'.agrees.step_lxi_num p c
    next name =>
      refine tracks_fillPair h hmatched hhalves fun hleads' => ?_
      exact hleads'.agrees.step_lxi (by rwa [hleads'.frame.pinned]) rfl p
    next o _ =>
      refine after_ite (fun hbyte => ?_) (fun hword => ?_)
      · refine (tracks_locateByte h hmatched hpins hv hbyte hacc).bind
          fun r s' m' hleads hlocated => ?_
        exact tracks_extend (by rwa [hleads.frame.pinned])
          ((hleads.frame.isByte _).trans hbyte) hhalves hlocated.1 hlocated.2.2 hlocated.2.1
          ((tracks_vacatePair hleads.agrees hleads.matched hhalves).mono
            fun _ _ _ _ hvacated => hvacated.1)
      · split
        next name =>
          refine (tracks_vacatePair h hmatched hhalves).bind fun _ s' m' hleads _ => ?_
          refine tracks_loadPairVariable hleads.agrees hleads.matched ?_ ?_ hp
          · rwa [hleads.frame.pinned]
          · rw [hleads.frame.isByte]
            exact (Bool.not_eq_true _).mp hword
        next => exact after_rejectTooComplex
    next => exact after_rejectTooComplex

/-- HL is searched first, so it is the answer exactly if it holds the value. -/
theorem findPair?_eq_h {rf : RegisterFile} :
    rf.findPair? v = some .h ↔ rf.pairValue? .h = some v := by
  constructor
  · exact pairValue?_of_findPair?
  · intro hpair
    have hmatch : rf.pairMatch? .h v = some .full := by
      simp [RegisterFile.pairMatch?, Pair.halves?, (pairValue?_eq_some rfl).mp hpair]
    simp [RegisterFile.findPair?, RegisterFile.searchOrder, hmatch]

/-- What can be read as `m` depends on HL only. -/
theorem Frame.isAtM (h : Frame s m s' m') (hhigh : s'.regs.get .h = s.regs.get .h)
    (hlow : s'.regs.get .l = s.regs.get .l) (v : Value) : s'.isAtM v = s.isAtM v := by
  cases v with
  | addr o => rfl
  | of o =>
    have hiff : s'.regs.findPair? (.addr o) = some .h ↔ s.regs.findPair? (.addr o) = some .h := by
      rw [findPair?_eq_h, findPair?_eq_h, pairValue?_eq_some rfl, pairValue?_eq_some rfl, hhigh,
        hlow]
    simp only [State.isAtM, h.isMemoryOperand, hiff]

/-- Where a byte can be moved from: a register that holds it, memory under HL, or the accumulator
after loading it. -/
theorem tracks_byteSource (h : Agrees ρ s m) (hmatched : s.regs.Matched)
    (hpins : s.PinsAddresses) (hv : v ∈ s.pinned) :
    Tracks ρ (byteSource v) s m fun r s' m' =>
      (r ≠ .m ∧ s'.regs = s.regs ∧ s.regs.get r = .scalar v) ∨ (r = .m ∧ s'.isAtM v = true) ∨
        (r = .a ∧ m'.registers.a = Side.low.part (ρ v)) := by
  refine tracks_get ?_
  split
  next r hfind =>
    obtain ⟨hr, hscalar⟩ := get_of_findByte? hfind
    exact tracks_pure h hmatched (.inl ⟨hr, rfl, hscalar⟩)
  next =>
    refine after_ite (fun hatM => ?_) (fun _ => ?_)
    · exact tracks_pure h hmatched (.inr (.inl ⟨rfl, hatM⟩))
    · exact (tracks_loadAccumulator h hmatched hpins hv).bind fun _ s' m' hleads hloaded =>
        tracks_pure hleads.agrees hleads.matched (.inr (.inr ⟨rfl, hloaded.1⟩))

/-- The count of a shift is loaded into C, which is recorded with it. -/
theorem tracks_loadReg (h : Agrees ρ s m) (hmatched : s.regs.Matched) (hpins : s.PinsAddresses)
    (hv : v ∈ s.pinned) :
    Tracks ρ (loadReg .c v) s m fun _ s' _ => s'.regs.get .c = .scalar v := by
  -- Once the byte is at hand, it is loaded and recorded.
  have hfill : ∀ {s' m' i}, Leads ρ s m s' m' →
      Machine.Steps (Provided ρ s' m') i m' (m'.set .c (Side.low.part (ρ v))) →
      Tracks ρ (do emit i; record (·.bind .c v)) s' m' fun _ s'' _ =>
        s''.regs.get .c = .scalar v := by
    intro s' m' i hleads hstep
    unfold Tracks
    simp only [after_bind, after_emit, after_record]
    exact ⟨_, leads_setRegister hleads.agrees hleads.matched (by decide) hstep rfl,
      get_bind_self (by decide)⟩
  refine tracks_get (after_ite (fun hholds => ?_) (fun hnot => ?_))
  · exact tracks_pure h hmatched (by simpa [RegisterFile.holds] using hholds)
  · split
    next c =>
      refine (tracks_vacateReg h hmatched (by decide)).bind fun _ s' m' hleads _ => ?_
      have hbyte : Side.low.part (ρ (.of (.const c))) = lowByte c :=
        (congrArg Side.low.part (h.literal c)).trans (low_ofInt c)
      refine hfill hleads ?_
      rw [hbyte]
      exact .mvi (by decide) _
    next =>
      refine (tracks_byteSource h hmatched hpins hv).bind fun r s₁ m₁ hleads₁ hsource => ?_
      refine (tracks_vacateReg hleads₁.agrees hleads₁.matched (by decide)).bind
        fun _ s₂ m₂ hleads₂ hvacated => ?_
      refine hfill (hleads₁.trans hleads₂) ?_
      -- Making room in C has not touched the source, whichever it is.
      obtain ⟨hr, hregs, hscalar⟩ | ⟨rfl, hatM⟩ | ⟨rfl, hbyte⟩ := hsource
      · have hlost : r ∉ s₁.regs.lost .c := by
          rw [hregs, mem_lost_iff]
          rintro (rfl | ⟨hhalf, p, hrp, hcp⟩)
          · exact hnot (by simpa [RegisterFile.holds] using hscalar)
          · rw [← hmatched.isHalf_eq hrp hcp, hscalar] at hhalf
            cases hhalf
        have hkept := hvacated.1.record r hr hlost
          (.inr ⟨v, by rwa [hleads₁.frame.pinned], by rw [hregs, hscalar]; rfl⟩)
        have hget : m₂.get r = Side.low.part (ρ v) := by
          rw [Machine.get_of_ne hr]
          exact hleads₂.agrees.registers.byte hr (by rw [hkept, hregs, hscalar])
        exact hget ▸ .mov (by decide) hr
      · have hkept : ∀ q, q ≠ .m → q ≠ .b → q ≠ .c → q ∈ [Reg.h, .l] →
            s₂.regs.get q = s₁.regs.get q := fun q hq hb hc hkept =>
          hvacated.1.record q hq (not_mem_lost (p := .b) rfl (.inr rfl) hb hc) (.inl hkept)
        rw [← hleads₂.frame.isAtM (hkept .h (by decide) (by decide) (by decide) (by decide))
          (hkept .l (by decide) (by decide) (by decide) (by decide))] at hatM
        obtain ⟨o, rfl, hpair, hreads⟩ := read_of_isAtM hleads₂.agrees
          (by rwa [hleads₂.frame.pinned, hleads₁.frame.pinned]) hatM
        have hhl : m₂.hl = ρ (.addr o) :=
          pair_of_pairValue? (p := .h) hleads₂.agrees.registers hpair
        refine .of_load rfl rfl rfl (a := m₂.hl) ?_ ?_
        · rw [hhl]
          exact hreads.provided
        · show (Except.ok (m₂.set .c (m₂.memory.read m₂.hl)) : Except Fault Machine) = _
          rw [hhl, hreads.read]
      · have hget : m₂.get .a = Side.low.part (ρ v) := hvacated.1.accumulator.trans hbyte
        exact hget ▸ .mov (by decide) (by decide)

end Accumulator.Select
