import Mathlib.Data.List.Nodup
import Mathlib.Data.List.Perm.Subperm
import Mathlib.Tactic.Tauto
import Accumulator.Proofs.Machine.Walk

/-!
# Code with a single store by name

The pass tells variables apart by their names, which is right only if they do not overlap. It makes
use of that to remove a store that a later one overwrites, so code with no two stores by name gives
it no occasion. Such code can be read with addresses in the place of names: what the pass does to it
is the same, and nothing is left that the discipline would say about names.
-/

namespace Accumulator

namespace Instr

/-- Change the address or the word that stands in an instruction. -/
def mapImm (f : Imm → Imm) : Instr → Instr
  | lda address => lda (f address)
  | sta address => sta (f address)
  | lxi p value => lxi p (f value)
  | lhld address => lhld (f address)
  | shld address => shld (f address)
  | i => i

/-- Stores at an absolute address. -/
def isNamedStore : Instr → Bool
  | sta _ | shld _ => true
  | _ => false

/-- Instructions that use the stack for calls only. -/
def isFlat : Instr → Bool
  | push _ | pop _ | xthl => false
  | i => i.pair?.all Pair.isGeneral

/-- Instructions that do not look at the stack at all. -/
def isCalm : Instr → Bool
  | call _ => false
  | i => i.isFlat

variable {f : Imm → Imm} {i : Instr}

/-- Which registers an instruction reads and writes does not depend on its immediate. -/
theorem effects_mapImm (f : Imm → Imm) (i : Instr) : (i.mapImm f).effects = i.effects := by
  cases i <;> rfl

theorem isComment_mapImm (f : Imm → Imm) (i : Instr) : (i.mapImm f).isComment = i.isComment := by
  cases i <;> rfl

theorem isControl_mapImm (f : Imm → Imm) (i : Instr) : (i.mapImm f).isControl = i.isControl := by
  cases i <;> rfl

theorem pair?_mapImm (f : Imm → Imm) (i : Instr) : (i.mapImm f).pair? = i.pair? := by
  cases i <;> rfl

/-- A calm instruction neither uses the stack nor names its pointer. -/
theorem stackless_of_isCalm (h : i.isCalm = true) :
    i.usesStack = false ∧ i.pair? ≠ some .sp := by
  cases i with
  | ldax p | stax p | lxi p _ | inx p | dcx p | dad p =>
    refine ⟨rfl, fun hp => ?_⟩
    cases hp
    cases h
  | push _ | pop _ | xthl | call _ => cases h
  | _ => exact ⟨rfl, fun hp => by cases hp⟩

/-- Code that computes in registers stores nothing by name and leaves the stack alone but for
calls. -/
theorem isFlat_of_isTame {quiet : Bool} (h : i.isTame quiet = true) :
    i.isFlat = true ∧ i.isNamedStore = false := by
  cases i <;> first | exact ⟨h, rfl⟩ | exact ⟨rfl, rfl⟩ | cases h

end Instr

namespace Machine

variable {f : Imm → Imm} {m m₁ m' : Machine} {i : Instr} {data : Word → Prop} {region : Region}
  {code rest : List Instr} {n : Nat}

/-- The number that an immediate stands for. -/
def absolute (m : Machine) (v : Imm) : Imm :=
  match m.imm v with
  | .ok w => .num w.toNat
  | .error _ => v

/-- The number of an immediate has the value of the immediate, on any machine with the same
addresses. -/
theorem imm_absolute (h : m₁.addresses = m.addresses) (v : Imm) :
    m₁.imm (m.absolute v) = m₁.imm v := by
  unfold absolute
  split
  next w hw =>
    rw [imm_of_addresses h, imm_of_addresses h, hw, imm]
    simp
  next => rfl

/-- An immediate that has a value becomes a number, and no name is left. -/
theorem symbol?_absolute {w : Word} (h : m₁.addresses = m.addresses) {v : Imm}
    (hv : m₁.imm v = .ok w) : (m.absolute v).symbol? = none := by
  rw [imm_of_addresses h] at hv
  rw [absolute, hv]
  rfl

/-- A machine makes no difference between an immediate and its number. -/
theorem step_absolute (h : m₁.addresses = m.addresses) (i : Instr) :
    m₁.step (i.mapImm m.absolute) = m₁.step i := by
  cases i <;> simp only [Instr.mapImm, step, execute, imm_absolute h]

theorem touches_absolute (h : m₁.addresses = m.addresses) (i : Instr) :
    m₁.touches (i.mapImm m.absolute) = m₁.touches i := by
  cases i <;> simp only [Instr.mapImm, touches, loads, storeCells, stores, immAddress?,
    imm_absolute h]

/-- An instruction that is executed names no symbol any more. -/
theorem targetSymbol?_absolute (h : m₁.addresses = m.addresses) (hstep : m₁.step i = .ok m') :
    Peephole.targetSymbol? (i.mapImm m.absolute) = none := by
  have hsymbol {v : Imm} {g : Word → Except Fault Machine} (hv : m₁.imm v >>= g = .ok m') :
      (m.absolute v).symbol? = none := by
    obtain ⟨w, hw, -⟩ := exists_ok_of_bind hv
    exact symbol?_absolute h hw
  cases i with
  | lda v | sta v | lhld v | shld v => exact hsymbol hstep
  | _ => rfl

/-- Where a jump lands does not depend on immediates. -/
theorem landing_map (f : Imm → Imm) (code : List Instr) :
    landing (code.map (·.mapImm f)) = (landing code).map (·.mapImm f) := by
  have hall : (code.map (·.mapImm f)).all Instr.isComment = code.all Instr.isComment := by
    rw [List.all_map]
    congr 1
    funext i
    exact i.isComment_mapImm f
  rw [landing, landing, hall]
  split <;> rfl

theorem forall_mem_landing {P : Instr → Prop} (h : ∀ i ∈ rest, P i) : ∀ i ∈ landing rest, P i := by
  rw [landing]
  split
  · exact List.forall_mem_nil _
  · exact h

theorem sp_of_isFlat (hi : i.isFlat = true) (hstep : m.step i = .ok m₁) : m₁.sp = m.sp := by
  have hpair : i.pair? ≠ some .sp := by
    intro hp
    cases i <;> cases hp <;> cases hi
  have hchange : i.spChange = 0 := by
    cases i <;> first | rfl | cases hi
  rw [step_sp hstep hpair, hchange]
  exact BitVec.add_zero _

/-- An instruction that touches data only obeys, once it names no symbol. What is asked of names is
then asked of nothing. -/
theorem obeys_absolute {m₀ : Machine} (hi : i.isFlat = true) (hwithin : Within data m i)
    (hsp : region.stack m.sp) (heven : m.sp.toNat % 2 = 0)
    (hdata : ∀ a, data a → ¬region.stack a) (hm : m.addresses = m₀.addresses)
    (htarget : Peephole.targetSymbol? (i.mapImm m₀.absolute) = none) :
    Obeys region m (i.mapImm m₀.absolute) where
  pair p hp := by
    rw [Instr.pair?_mapImm] at hp
    cases i <;> cases hp <;> first | exact hi | cases hi
  sp := hsp
  even := heven
  noWrap := by cases i <;> first | rfl | cases hi
  outside hstack a ha := by
    rw [touches_absolute hm] at ha
    refine hdata a (hwithin ?_ a ha)
    cases i <;> first | rfl | cases hstack
  apart := by simp [htarget]
  owns := by simp [htarget]

/-- Code whose instructions touch data only keeps to the discipline once names are addresses, if the
stack holds no data. The stack pointer does not move between instructions, so it stays in its
region. -/
theorem exec_absolute {m₀ : Machine} (h : Exec (Within data) code m n m')
    (hcode : ∀ i ∈ code, i.isFlat = true) (hm : m.addresses = m₀.addresses)
    (hsp : region.stack m.sp) (heven : m.sp.toNat % 2 = 0)
    (hdata : ∀ a, data a → ¬region.stack a) :
    Exec (Obeys region) (code.map (·.mapImm m₀.absolute)) m n m' := by
  induction h with
  | done m => exact .done m
  | halt hp => exact .halt (obeys_absolute (i := .hlt) rfl hp hsp heven hdata hm rfl)
  | @skip m m' n cond rest hp hcond _ ih =>
    rw [List.forall_mem_cons, List.forall_mem_cons] at hcode
    refine .skip (obeys_absolute (i := .jump cond 4) rfl hp hsp heven hdata hm rfl) hcond ?_
    rw [landing_map]
    exact ih (forall_mem_landing hcode.2.2) hm hsp heven
  | @pass m m' n cond offset rest hp hcond _ ih =>
    rw [List.forall_mem_cons] at hcode
    exact .pass (obeys_absolute (i := .jump cond offset) rfl hp hsp heven hdata hm rfl) hcond
      (ih hcode.2 hm hsp heven)
  -- The discipline holds at this step; the pointer and the addresses are as they were for the next.
  | @step m m₁ m' n i rest hp hi hstep _ ih =>
    rw [List.forall_mem_cons] at hcode
    obtain ⟨hflat, hrest⟩ := hcode
    have hsp₁ := sp_of_isFlat hflat hstep
    refine .step (obeys_absolute hflat hp hsp heven hdata hm (targetSymbol?_absolute hm hstep)) ?_
      ?_ (ih hrest ?_ ?_ ?_)
    · rw [Instr.isControl_mapImm]
      exact hi
    · rw [step_absolute hm]
      exact hstep
    · rw [step_addresses hstep, hm]
    · rwa [hsp₁]
    · rwa [hsp₁]

/-- The run of code with addresses is a run of the code with names, instruction by instruction. -/
theorem exec_of_absolute {P : Machine → Instr → Prop} {m₀ : Machine} {code' : List Instr}
    (h : Exec P code' m n m') (hcode : code' = code.map (·.mapImm m₀.absolute))
    (hm : m.addresses = m₀.addresses) : Exec (fun _ _ => True) code m n m' := by
  -- On the run with addresses: its code comes from code with names, and so does every rest of it.
  induction h generalizing code with
  | done m =>
    obtain rfl := List.map_eq_nil_iff.mp hcode.symm
    exact .done m
  | halt hp =>
    obtain ⟨i, rest, rfl, hi, -⟩ := List.map_eq_cons_iff.mp hcode.symm
    cases i <;> cases hi
    exact .halt trivial
  | skip hp hcond _ ih =>
    obtain ⟨i, rest, rfl, hi, hrest⟩ := List.map_eq_cons_iff.mp hcode.symm
    obtain ⟨j, rest, rfl, hj, rfl⟩ := List.map_eq_cons_iff.mp hrest
    cases i <;> cases hi
    cases j <;> cases hj
    exact .skip trivial hcond (ih (landing_map _ rest) hm)
  | pass hp hcond _ ih =>
    obtain ⟨i, rest, rfl, hi, rfl⟩ := List.map_eq_cons_iff.mp hcode.symm
    cases i <;> cases hi
    exact .pass trivial hcond (ih rfl hm)
  | step hp hcontrol hstep _ ih =>
    obtain ⟨i, rest, rfl, rfl, rfl⟩ := List.map_eq_cons_iff.mp hcode.symm
    rw [Instr.isControl_mapImm] at hcontrol
    rw [step_absolute hm] at hstep
    exact .step trivial hcontrol hstep (ih rfl ((step_addresses hstep).trans hm))

/-! ## Moving the stack

Code without calls runs alike wherever the stack pointer points. -/

/-- The stack pointer has no part in what a calm instruction does. -/
theorem step_withSp (hi : i.isCalm = true) (hstep : m.step i = .ok m₁) (sp : Word) :
    { m with sp }.step i = .ok { m₁ with sp } := by
  obtain ⟨hstack, hpair⟩ := Instr.stackless_of_isCalm hi
  cases i with
  | jump _ _ | hlt =>
    cases hstep
    rfl
  | call _ => cases hi
  | _ =>
    rw [step_eq_execute rfl] at hstep ⊢
    exact execute_withSp hstep rfl hpair hstack sp

/-- A run of calm code is the same wherever the stack pointer points, and so it may be moved for the
sake of the argument. -/
theorem exec_withSp {P : Machine → Instr → Prop} (h : Exec P code m n m')
    (hcode : ∀ i ∈ code, i.isCalm = true) (sp : Word) {Q : Machine → Instr → Prop}
    (himp : ∀ m i, i ∈ code → P m i → Q { m with sp } i) :
    Exec Q code { m with sp } n { m' with sp } := by
  induction h with
  | done m => exact .done _
  | halt hp => exact .halt (himp _ _ List.mem_cons_self hp)
  | @skip m m' n cond rest hp hcond _ ih =>
    have hrest : ∀ i ∈ landing rest, i ∈ Instr.jump cond 4 :: .alu .xor .a :: rest :=
      forall_mem_landing fun i hi => by simp [hi]
    exact .skip (himp _ _ List.mem_cons_self hp) (by cases cond <;> exact hcond)
      (ih (fun i hi => hcode i (hrest i hi)) fun m i hi => himp m i (hrest i hi))
  | @pass m m' n cond offset rest hp hcond _ ih =>
    exact .pass (himp _ _ List.mem_cons_self hp) (by cases cond <;> exact hcond)
      (ih (fun i hi => hcode i (List.mem_cons_of_mem _ hi)) fun m i hi =>
        himp m i (List.mem_cons_of_mem _ hi))
  | step hp hi hstep _ ih =>
    exact .step (himp _ _ List.mem_cons_self hp) hi
      (step_withSp (hcode _ List.mem_cons_self) hstep sp)
      (ih (fun i hi => hcode i (List.mem_cons_of_mem _ hi)) fun m i hi =>
        himp m i (List.mem_cons_of_mem _ hi))

/-- An instruction touches four bytes at most: `XTHL` reads a word and writes one. -/
theorem length_touches_le (m : Machine) (i : Instr) : (m.touches i).length ≤ 4 := by
  have hcells (r : Reg) : (m.operandCells r).length ≤ 1 := by
    cases r <;> simp [operandCells]
  cases i with
  | mov dst src =>
    have hdst := hcells dst
    have hsrc := hcells src
    simp only [touches, loads, storeCells, stores, List.length_append, List.length_map]
    omega
  | mvi r _ | inr r | dcr r | alu _ r =>
    have hr := hcells r
    simp only [touches, loads, storeCells, stores, List.length_append, List.length_map,
      List.length_nil]
    omega
  | lda v | sta v | lhld v | shld v =>
    simp only [touches, loads, storeCells, stores]
    cases m.immAddress? v <;> simp [wordCells, wordStores]
  | _ => simp [touches, loads, storeCells, stores, wordCells, wordStores]

theorem Exec.mono {P Q : Machine → Instr → Prop} (h : Exec P code m n m')
    (himp : ∀ m i, P m i → Q m i) : Exec Q code m n m' := by
  induction h with
  | done m => exact .done m
  | halt hp => exact .halt (himp _ _ hp)
  | skip hp hcond _ ih => exact .skip (himp _ _ hp) hcond ih
  | pass hp hcond _ ih => exact .pass (himp _ _ hp) hcond ih
  | step hp hi hstep _ ih => exact .step (himp _ _ hp) hi hstep ih

/-- The addresses that a run touches are a list of at most four for each step. It is what the stack
has to keep away from when it is moved. -/
theorem exec_touched {P : Machine → Instr → Prop} (h : Exec P code m n m') :
    ∃ cells : List Word, cells.length ≤ 4 * n ∧ Exec (Within (· ∈ cells)) code m n m' := by
  induction h with
  | done m => exact ⟨[], by simp, .done m⟩
  | halt hp => exact ⟨[], by simp, .halt nofun⟩
  | skip hp hcond _ ih =>
    obtain ⟨cells, hlength, hexec⟩ := ih
    exact ⟨cells, by omega, .skip nofun hcond hexec⟩
  | pass hp hcond _ ih =>
    obtain ⟨cells, hlength, hexec⟩ := ih
    exact ⟨cells, by omega, .pass nofun hcond hexec⟩
  | @step m m₁ m' n i rest hp hi hstep _ ih =>
    obtain ⟨cells, hlength, hexec⟩ := ih
    have := length_touches_le m i
    refine ⟨m.touches i ++ cells, ?_, .step (fun _ a ha => List.mem_append_left _ ha) hi hstep ?_⟩
    · rw [List.length_append]
      omega
    · exact hexec.mono fun m i h hstack a ha => List.mem_append_right _ (h hstack a ha)

/-- There is an even address that is not among a few others. -/
theorem exists_even_not_mem (cells : List Word) (h : cells.length < 32768) :
    ∃ sp : Word, sp.toNat % 2 = 0 ∧ sp ∉ cells := by
  by_contra hall
  have hmem (k : Nat) (hk : k ∈ List.range 32768) : BitVec.ofNat 16 (2 * k) ∈ cells := by
    by_contra hk'
    refine hall ⟨_, ?_, hk'⟩
    rw [BitVec.toNat_ofNat]
    omega
  have hnodup : ((List.range 32768).map fun k => BitVec.ofNat 16 (2 * k)).Nodup := by
    refine List.nodup_range.map_on fun j hj k hk heq => ?_
    have := congrArg BitVec.toNat heq
    rw [List.mem_range] at hj hk
    rw [BitVec.toNat_ofNat, BitVec.toNat_ofNat] at this
    omega
  have hsubset : (List.range 32768).map (fun k => BitVec.ofNat 16 (2 * k)) ⊆ cells := by
    intro w hw
    obtain ⟨k, hk, rfl⟩ := List.mem_map.mp hw
    exact hmem k hk
  have hle := (List.subperm_of_subset hnodup hsubset).length_le
  rw [List.length_map, List.length_range] at hle
  omega

end Machine

/-! ## The pass on such code -/

namespace Peephole

open Machine

variable {f : Imm → Imm} {front rest old new mid code : List Instr} {m m' : Machine} {n : Nat}

theorem isDead_map (f : Imm → Imm) (r : Reg) (code : List Instr) :
    isDead r (code.map (·.mapImm f)) = isDead r code := by
  induction code with
  | nil => rfl
  | cons i rest ih =>
    simp only [List.map_cons, isDead, ih, Instr.isBarrier, Instr.reads, Instr.writes,
      Instr.effects_mapImm]
    rfl

theorem Keeps.map {regs : List Reg} (h : Keeps regs mid) (f : Imm → Imm) :
    Keeps regs (mid.map (·.mapImm f)) := by
  intro i hi
  obtain ⟨j, hj, rfl⟩ := List.mem_map.mp hi
  simpa only [Instr.isBarrier, Instr.writes, Instr.effects_mapImm] using h j hj

theorem AllComments.map (h : AllComments mid) (f : Imm → Imm) :
    AllComments (mid.map (·.mapImm f)) := by
  intro i hi
  obtain ⟨j, hj, rfl⟩ := List.mem_map.mp hi
  rw [Instr.isComment_mapImm]
  exact h j hj

/-- Without two stores by name and without pushes, a rewrite is the same for code with addresses.
The rewrite of a dead store looks at names, and this is why it is excluded. -/
theorem Rewrite.map (h : Rewrite rest old new) (hflat : ∀ i ∈ old, i.isFlat = true)
    (honce : old.countP Instr.isNamedStore ≤ 1) (f : Imm → Imm) :
    Rewrite (rest.map (·.mapImm f)) (old.map (·.mapImm f)) (new.map (·.mapImm f)) := by
  have hdead {r : Reg} (h : isDead r rest = true) : isDead r (rest.map (·.mapImm f)) = true := by
    rwa [isDead_map]
  have hmemory {mid : List Instr} (h : ∀ i ∈ mid, i.writesMemory = false) :
      ∀ i ∈ mid.map (·.mapImm f), i.writesMemory = false := by
    intro i hi
    obtain ⟨j, hj, rfl⟩ := List.mem_map.mp hi
    rw [Instr.writesMemory, Instr.effects_mapImm]
    exact h j hj
  cases h <;> simp only [List.map_cons, List.map_append, List.map_nil]
  case reload hanchor hmid hwrites =>
    refine .reload ?_ (hmid.map f) (hmemory hwrites)
    rcases hanchor with rfl | rfl
    · exact .inl rfl
    · exact .inr rfl
  case reloadPair hanchor hmid hwrites =>
    refine .reloadPair ?_ (hmid.map f) (hmemory hwrites)
    rcases hanchor with rfl | rfl
    · exact .inl rfl
    · exact .inr rfl
  case repeatByte hr hmid => exact .repeatByte hr (hmid.map f)
  case repeatWord hp hmid => exact .repeatWord hp (hmid.map f)
  case copy hanchor hdst hsrc hmid =>
    refine .copy ?_ hdst hsrc (hmid.map f)
    rcases hanchor with rfl | rfl
    · exact .inl rfl
    · exact .inr rfl
  case dead hi hr hd =>
    refine .dead ?_ hr (hdead hd)
    rcases hi with ⟨src, rfl⟩ | ⟨value, rfl⟩
    · exact .inl ⟨src, rfl⟩
    · exact .inr ⟨value, rfl⟩
  case fuseByte hdst hmid hd => exact .fuseByte hdst (hmid.map f) (hdead hd)
  case fuseMove hdst hmid hd => exact .fuseMove hdst (hmid.map f) (hdead hd)
  case fuseBack hd hmid => exact .fuseBack (hmid.map f) (hdead hd)
  case exchangeFresh hpq hp hmid hhigh hlow =>
    exact .exchangeFresh hpq hp (hmid.map f) (hdead hhigh) (hdead hlow)
  case exchangeTwice hmid => exact .exchangeTwice (hmid.map f)
  case pushPop p hmid => cases hflat (.push p) List.mem_cons_self
  case upDown hij hmid =>
    rcases hij with ⟨rfl, rfl⟩ | ⟨rfl, rfl⟩
    · exact .upDown (.inl ⟨rfl, rfl⟩) (hmid.map f)
    · exact .upDown (.inr ⟨rfl, rfl⟩) (hmid.map f)
  case commute hop hr hsa hsr hmid hd => exact .commute hop hr hsa hsr (hmid.map f) (hdead hd)
  -- Two stores by name: there is at most one.
  case deadStore hi hj hmid =>
    rcases hi with rfl | rfl <;> rcases hj with rfl | rfl <;>
      simp [List.countP_cons, List.countP_append, Instr.isNamedStore] at honce

theorem skipsClear_map (h : SkipsClear code) (f : Imm → Imm) :
    SkipsClear (code.map (·.mapImm f)) := by
  intro pos cond offset hpos
  obtain ⟨i, hi, hjump⟩ := Option.map_eq_some_iff.mp (List.getElem?_map ▸ hpos)
  cases i <;> cases hjump
  obtain ⟨hoffset, hnext⟩ := h pos cond offset hi
  exact ⟨hoffset, by rw [List.getElem?_map, hnext]; rfl⟩

/-- A rewrite brings in no stack instruction: what is new in it works on registers. -/
theorem Rewrite.isFlat (h : Rewrite rest old new) (hflat : ∀ i ∈ old, i.isFlat = true) :
    ∀ i ∈ new, i.isFlat = true := by
  refine h.forall_mem hflat (fun _ _ => rfl) (fun _ _ => rfl) (fun _ _ => rfl) ?_
  intro p q v hpq _
  cases p <;> cases hpq <;> rfl

/-- A rewrite brings in no store. -/
theorem Rewrite.countP_le (h : Rewrite rest old new) :
    new.countP Instr.isNamedStore ≤ old.countP Instr.isNamedStore := by
  cases h with
  | dead => exact Nat.zero_le _
  | _ =>
    simp only [List.countP_cons, List.countP_append, List.countP_nil, Instr.isNamedStore,
      Bool.false_eq_true, if_false]
    omega

/-- Code that the pass cannot take for wrong, whatever the names in it stand for. -/
structure StoresOnce (code : List Instr) : Prop where
  flat : ∀ i ∈ code, i.isFlat = true
  once : code.countP Instr.isNamedStore ≤ 1

/-- A rewrite keeps code in this shape, as it brings in neither a stack instruction nor a store. -/
theorem Rewrite.storesOnce (h : Rewrite rest old new)
    (hcode : StoresOnce (front ++ (old ++ rest))) :
    StoresOnce (front ++ (new ++ rest)) := by
  have hflat := hcode.flat
  have honce := hcode.once
  simp only [List.forall_mem_append, List.countP_append] at hflat honce
  have hle := h.countP_le
  constructor
  · simp only [List.forall_mem_append]
    exact ⟨hflat.1, h.isFlat hflat.2.1, hflat.2.2⟩
  · simp only [List.countP_append]
    omega

/-- What the pass does to such code is a refinement of the code with addresses. -/
theorem refines_absolute (region : Region) (hskips : SkipsClear code) (hcode : StoresOnce code)
    (f : Imm → Imm) :
    SkipsClear (optimize code).2 ∧ StoresOnce (optimize code).2 ∧
      Refines region (code.map (·.mapImm f)) ((optimize code).2.map (·.mapImm f)) := by
  refine optimize_induction (I := fun after => SkipsClear after ∧ StoresOnce after ∧
    Refines region (code.map (·.mapImm f)) (after.map (·.mapImm f))) ?_
    ⟨hskips, hcode, .refl region _⟩
  intro front rest old new hrewrite ⟨hskips, hcode, hrefines⟩
  obtain ⟨hfront, hafter⟩ := hrewrite.skipsClear hskips
  refine ⟨hafter, hrewrite.storesOnce hcode, hrefines.trans ?_⟩
  have hflat := hcode.flat
  have honce := hcode.once
  simp only [List.forall_mem_append, List.countP_append] at hflat honce
  simp only [List.map_append]
  exact (hrewrite.map hflat.2.1 (by omega) f).refines.append_left (skipsClear_map hfront f)

/-- The pass preserves runs of such code that touch data only, if the stack holds no data. -/
theorem exec_optimize {data : Word → Prop} (region : Region) (hskips : SkipsClear code)
    (hcode : StoresOnce code) (h : Exec (Within data) code m n m') (hsp : region.stack m.sp)
    (heven : m.sp.toNat % 2 = 0) (hdata : ∀ a, data a → ¬region.stack a) :
    ∃ n' ≤ n, ∃ m'', Exec (fun _ _ => True) (optimize code).2 m n' m'' ∧ m''.sp = m'.sp ∧
      ∀ a, ¬region.stack a → m''.memory.read a = m'.memory.read a := by
  obtain ⟨-, -, hrefines⟩ := refines_absolute region hskips hcode m.absolute
  obtain ⟨n', hn', m'', hexec, hsp', hread⟩ :=
    hrefines.exec (exec_absolute h hcode.flat rfl hsp heven hdata)
  exact ⟨n', hn', m'', exec_of_absolute hexec rfl rfl, hsp', hread⟩

/-- The pass brings in no call, so calm code stays calm. -/
theorem isCalm_optimize (hcalm : ∀ i ∈ code, i.isCalm = true) :
    ∀ i ∈ (optimize code).2, i.isCalm = true := by
  refine optimize_induction (I := fun after => ∀ i ∈ after, i.isCalm = true) ?_ hcalm
  intro front rest old new hrewrite hcalm
  simp only [List.forall_mem_append] at hcalm ⊢
  refine ⟨hcalm.1, fun i hi => ?_, hcalm.2.2⟩
  have hflat : i.isFlat = true := by
    refine hrewrite.isFlat (fun j hj => ?_) i hi
    have := hcalm.2.1 j hj
    cases j <;> first | exact this | cases this
  have hbarrier := hrewrite.not_barrier.2 i hi
  cases i <;> first | exact hflat | cases hbarrier

/-- The pass preserves all of memory in runs of code that makes no calls. The stack pointer plays no
part in such a run, so it may be taken to point where the run touches nothing. -/
theorem run_optimize_of_calm {P : Machine → Instr → Prop} (hskips : SkipsClear code)
    (hcode : StoresOnce code) (hcalm : ∀ i ∈ code, i.isCalm = true) (h : Exec P code m n m')
    (hn : n ≤ 8000) (hsp : m.sp = stackTop) :
    (m.run (optimize code).2).fault = none ∧
      (m.run (optimize code).2).machine.memory = m'.memory := by
  obtain ⟨cells, hlength, htouched⟩ := exec_touched h
  have hafter := isCalm_optimize hcalm
  have hread (a : Word) : ∃ m₁, m.run (optimize code).2 = { machine := m₁ } ∧
      m₁.memory.read a = m'.memory.read a := by
    -- Take the byte that is compared out of the stack as well: a run touches few bytes, so there is
    -- room for a stack of one word elsewhere.
    obtain ⟨sp, heven, hfresh⟩ := exists_even_not_mem (a :: cells) (by rw [List.length_cons]; omega)
    rw [List.mem_cons, not_or] at hfresh
    let region : Region :=
      { stack := fun b => b = sp
        convex := by rintro x y z rfl rfl h h'; bv_omega
        owned := fun _ _ => False }
    have hexec : Exec (Within (· ∈ cells)) code { m with sp } n { m' with sp } :=
      exec_withSp htouched hcalm sp fun m i hi hwithin hstack => by
        rw [touches_withSp hstack (Instr.stackless_of_isCalm (hcalm i hi)).2]
        exact hwithin hstack
    obtain ⟨n', hn', m₁, hexec', -, hmemory⟩ :=
      exec_optimize region hskips hcode hexec rfl heven
        fun b hb hb' => hfresh.2 (hb' ▸ hb)
    have hback : Exec (fun _ _ => True) (optimize code).2 m n' { m₁ with sp := m.sp } :=
      exec_withSp hexec' hafter m.sp fun _ _ _ => id
    refine ⟨_, run_of_exec (refines_absolute region hskips hcode id).1 hback ?_ hsp, ?_⟩
    · exact Nat.le_trans hn' (Nat.le_trans hn (by decide))
    · exact hmemory a fun ha => hfresh.1 ha.symm
  -- The run does not depend on the byte that was chosen, so all bytes agree at once.
  obtain ⟨m₁, hrun, -⟩ := hread 0
  rw [hrun]
  refine ⟨rfl, Memory.ext_of_read fun a => ?_⟩
  obtain ⟨m₂, hrun', hmemory⟩ := hread a
  rw [hrun] at hrun'
  cases hrun'
  exact hmemory

end Peephole

end Accumulator
