import Accumulator.Proofs.Peephole.Refine

/-!
# The peephole pass preserves runs

The pass may change any code of the form that the selection makes (`Optimizable`), as long as the
stack pointer does not wrap around. A pointer that does brings bytes into the stack that no value
of it encloses, and removing a push there shows in memory: the last section has such a stream.
-/

namespace Accumulator.Peephole

open Machine

variable {m : Machine} {code : List Instr}

/-! ## Runs -/

/-- The addresses between the lowest and the highest value of the stack pointer in a run. The last
value is the first one again if the run ends well. -/
def InStack (m : Machine) (code : List Instr) (a : Word) : Prop :=
  ∃ low ∈ m.trace code, ∃ high ∈ m.trace code, low.1.sp ≤ a ∧ a ≤ high.1.sp

instance (m : Machine) (code : List Instr) (a : Word) : Decidable (InStack m code a) :=
  inferInstanceAs
    (Decidable (∃ low ∈ m.trace code, ∃ high ∈ m.trace code, low.1.sp ≤ a ∧ a ≤ high.1.sp))

/-- Code of the form that the pass is for, with a run that ends well and keeps to the
discipline. -/
structure Optimizable (m : Machine) (code : List Instr) : Prop where
  pairs : ∀ i ∈ code, ∀ p, i.pair? = some p → p = .b ∨ p = .d ∨ p = .h
  jumps : SkipsClear code
  start : m.sp = stackTop
  ok : (m.run code).fault = none
  /-- No load by the name of one symbol reads what a store by the name of another one writes. -/
  apart : ∀ load ∈ m.trace code, ∀ store ∈ m.trace code,
    (targetSymbol? load.2).isSome → (targetSymbol? store.2).isSome →
      targetSymbol? load.2 ≠ targetSymbol? store.2 →
        ∀ a ∈ load.1.loads load.2, a ∉ store.1.storeCells store.2
  /-- Only stack instructions touch the stack. -/
  stack : ∀ e ∈ m.trace code, e.2.usesStack = false →
    ∀ a ∈ e.1.touches e.2, ¬InStack m code a

/-- The region of a run. -/
def regionOf (m : Machine) (code : List Instr) : Region where
  stack := InStack m code
  convex := by
    rintro x y z ⟨low, hlow, _, _, hx, _⟩ ⟨_, _, high, hhigh, _, hz⟩ hxy hyz
    exact ⟨low, hlow, high, hhigh, BitVec.le_trans hx hxy, BitVec.le_trans hyz hz⟩
  owned t a := ∃ e ∈ m.trace code, targetSymbol? e.2 = some t ∧ a ∈ e.1.storeCells e.2

/-- The stack pointer stays even. -/
theorem even_sp_of_mem_trace (h : Optimizable m code) :
    ∀ e ∈ m.trace code, e.2 ∈ code ∧ e.1.sp.toNat % 2 = 0 := by
  refine forall_mem_traceFrom (I := fun m => m.sp.toNat % 2 = 0) ?_ (by rw [h.start]; decide)
  intro m m' i hi heven hstep
  have hpair : i.pair? ≠ some .sp := by
    intro hp
    rcases h.pairs i hi .sp hp with hp | hp | hp <;> cases hp
  rw [step_sp hstep hpair]
  cases i <;> simp only [Instr.spChange] <;> bv_omega

/-- A run that the pass may be applied to keeps to the discipline, with the stack as the region
between its lowest and its highest pointer. -/
theorem Optimizable.obeys (h : Optimizable m code)
    (hwrap : ∀ e ∈ m.trace code, e.1.wraps e.2 = false) :
    ∀ e ∈ m.trace code, Obeys (regionOf m code) e.1 e.2 := by
  intro e he
  obtain ⟨hmem, heven⟩ := even_sp_of_mem_trace h e he
  refine ⟨?_, ?_, heven, hwrap e he, h.stack e he, ?_, ?_⟩
  · intro p hp
    rcases h.pairs e.2 hmem p hp with rfl | rfl | rfl <;> rfl
  · exact ⟨e, he, e, he, BitVec.le_refl _, BitVec.le_refl _⟩
  · rintro s hs t hne a ha ⟨store, hstore, ht, hcell⟩
    refine h.apart e he store hstore (by rw [hs]; rfl) (by rw [ht]; rfl) ?_ a ha hcell
    rw [hs, ht]
    exact fun h => hne (Option.some.inj h).symm
  · exact fun s hs a ha => ⟨e, he, hs, ha⟩

/-- The peephole pass preserves runs in which the stack pointer does not wrap around: the code it
makes runs to its end too, and leaves the same memory outside the stack. No rewrite makes a run
longer, so the new run ends within the bound of the old one. -/
theorem optimize_preserves_run (m : Machine) (code : List Instr) (h : Optimizable m code)
    (hwrap : ∀ e ∈ m.trace code, e.1.wraps e.2 = false) :
    (m.run (optimize code).2).fault = none ∧
      ∀ a, ¬InStack m code a →
        (m.run (optimize code).2).machine.memory.read a = (m.run code).machine.memory.read a := by
  -- The run of the code as a chain of steps, each of which obeys the region.
  obtain ⟨hsp, n, hn, hexec⟩ := exec_of_run h.jumps h.ok (h.obeys hwrap)
  obtain ⟨hjumps, hrefines⟩ :
      SkipsClear (optimize code).2 ∧ Refines (regionOf m code) code (optimize code).2 :=
    optimize_refines h.jumps
  obtain ⟨n', hn', m'', hexec', hsp', hread⟩ := hrefines.exec hexec
  have hrun := run_of_exec hjumps hexec' (Nat.le_trans hn' hn) (hsp'.trans hsp)
  rw [hrun]
  exact ⟨rfl, hread⟩

/-- Whether two variables are equal, with a push and a pop of no use. -/
def compareSample : List Instr :=
  [ .lda (.sym "x" 0), .mov .b .a, .push .b, .pop .b, .lda (.sym "y" 0), .alu .cmp .b,
    .mvi .a 1, .jump .z 4, .alu .xor .a, .sta (.sym "x" 0) ]

/-- A machine that knows both variables. -/
def compareMachine : Machine :=
  { addresses := [("x", 0x1000), ("y", 0x1001)] }

-- The two checks below are over `List.all`: the kernel evaluates it at once, unlike the instance
-- for a bounded quantifier.

/-- In the sample, no byte is loaded by one name and stored by another. -/
theorem compareSample_apart :
    (compareMachine.trace compareSample).all (fun load =>
      (compareMachine.trace compareSample).all fun store =>
        targetSymbol? load.2 == targetSymbol? store.2 ||
          (load.1.loads load.2).all fun a => !(store.1.storeCells store.2).contains a) = true := by
  decide +kernel

/-- In the sample, the stack is where nothing else is accessed. -/
theorem compareSample_stack :
    (compareMachine.trace compareSample).all (fun e =>
      decide (0xEFFE ≤ e.1.sp) && (e.2.usesStack ||
        (e.1.touches e.2).all fun a => decide (a < 0xEFFE))) = true := by
  decide +kernel

/-- The sample can be optimized: its conditions are about the machines of its run, and are checked
on the trace. -/
theorem optimizable_compareSample : Optimizable compareMachine compareSample where
  pairs := by simp [compareSample, Instr.pair?]
  jumps := by
    have htail : SkipsClear (compareSample.drop 7) := (SkipsClear.nil.cons rfl).jump
    have hfront : ∀ i ∈ compareSample.take 7, i.isControl = false := by decide
    exact (SkipsClear.append_iff hfront).mpr htail
  start := rfl
  ok := by decide +kernel
  apart := by
    intro load hload store hstore _ _ hne a ha hcell
    have hcheck := List.all_eq_true.mp compareSample_apart load hload
    have hcheck := List.all_eq_true.mp hcheck store hstore
    rcases Bool.or_eq_true_iff.mp hcheck with h | h
    · exact hne (eq_of_beq h)
    · simp_all
  stack := by
    rintro e he hstack a ha ⟨low, hlow, _, _, hle, _⟩
    have hbelow := List.all_eq_true.mp compareSample_stack e he
    have habove := List.all_eq_true.mp compareSample_stack low hlow
    simp only [hstack, Bool.false_or, Bool.and_eq_true, List.all_eq_true, decide_eq_true_eq]
      at hbelow habove
    exact absurd (BitVec.le_trans habove.1 hle) (BitVec.not_le.mpr (hbelow.2 a ha))

/-- The sample accesses variables by name, jumps and uses the stack, and the pass preserves its
run. -/
theorem optimize_preserves_run_compareSample :
    Optimizable compareMachine compareSample ∧
      (∀ e ∈ compareMachine.trace compareSample, e.1.wraps e.2 = false) ∧
      (compareMachine.run (optimize compareSample).2).fault = none ∧
      ∀ a, ¬InStack compareMachine compareSample a →
        (compareMachine.run (optimize compareSample).2).machine.memory.read a =
          (compareMachine.run compareSample).machine.memory.read a :=
  have hcheck : (compareMachine.trace compareSample).all (fun e => !e.1.wraps e.2) = true := by
    decide +kernel
  have hwrap : ∀ e ∈ compareMachine.trace compareSample, e.1.wraps e.2 = false := fun e he =>
    by simpa using List.all_eq_true.mp hcheck e he
  ⟨optimizable_compareSample, hwrap,
    optimize_preserves_run compareMachine compareSample optimizable_compareSample hwrap⟩

/-! ## Wraparound

Pops take the pointer from the start of the stack up through the end of memory and round to the
start again. The one push among them writes at the end of memory, and the pass removes it. -/

theorem mem_of_mem_trace {e : Machine × Instr} (h : e ∈ m.trace code) : e.2 ∈ code :=
  (forall_mem_traceFrom (I := fun _ => True) (fun _ _ _ _ _ _ => trivial) trivial e h).1

/-- Positions where a rule does not fire are passed over. -/
theorem Rule.applyFrom_skip {rule : Rule} {pos n : Nat} (hle : pos ≤ n) (hn : n ≤ code.length)
    (h : ∀ p, pos ≤ p → p < n → rule.fireAt? code p = none) :
    rule.applyFrom code pos = rule.applyFrom code n := by
  induction hle with
  | refl => rfl
  | @step n hle ih =>
    have hlt : n < code.length := hn
    rw [ih (Nat.le_of_lt hn) fun p hpos hp => h p hpos (Nat.lt_succ_of_lt hp), Rule.applyFrom,
      dif_pos hlt]
    split
    next hafter =>
      rw [h n hle (Nat.lt_succ_self n)] at hafter
      cases hafter
    next => rfl

/-- A rule that fires nowhere leaves the code as it is. -/
theorem Rule.applyFrom_of_not_fires {rule : Rule} {pos : Nat} (hpos : pos ≤ code.length)
    (h : ∀ p, rule.fireAt? code p = none) : rule.applyFrom code pos = (0, code) := by
  rw [applyFrom_skip hpos (Nat.le_refl _) fun p _ _ => h p, Rule.applyFrom,
    dif_neg (Nat.lt_irrefl _)]

theorem Rule.apply_of_not_trigger {rule : Rule} (h : ∀ i ∈ code, rule.isTrigger i = false) :
    rule.apply code = (0, code) := by
  refine applyFrom_of_not_fires (Nat.zero_le _) fun p => ?_
  unfold Rule.fireAt?
  split
  next => rfl
  next trigger htrigger => simp [h trigger (List.mem_of_getElem? htrigger)]

/-- There is nothing before the first instruction that a pop could undo. -/
theorem pushPop_fireAt?_zero (code : List Instr) : pushPop.fireAt? code 0 = none := by
  unfold Rule.fireAt?
  split
  · rfl
  · split <;> rfl

theorem pushPop_fireAt?_pop {n : Nat} {p : Pair} (h : code[n]? = some (.pop p)) :
    pushPop.fireAt? code (n + 1) = none := by
  unfold Rule.fireAt?
  split
  · rfl
  · simp [Rule.window?, Rule.anchorBefore?, h, pushPop, adjacent, Instr.isComment]

/-- A pop right behind the push of its pair fires, and both go. -/
theorem pushPop_fireAt?_pair {n : Nat} {p : Pair} (hpush : code[n]? = some (.push p))
    (hpop : code[n + 1]? = some (.pop p)) :
    pushPop.fireAt? code (n + 1) = some ((code.eraseIdx (n + 1)).eraseIdx n) := by
  have hlt : n + 1 < code.length := lt_length_of_getElem? hpop
  have hanchor : pushPop.anchorBefore? code (.pop p) (n + 1) = some n := by
    simp [Rule.anchorBefore?, hpush, pushPop, Instr.isComment]
  have hfire : pushPop.fire? code { trigger := n + 1, anchor := some n } =
      some ((code.eraseIdx (n + 1)).eraseIdx n) := if_pos hlt
  have hwindow : pushPop.window? code (n + 1) (.pop p) =
      some { trigger := n + 1, anchor := some n } := by
    rw [Rule.window?]
    exact congrArg (Option.map _) hanchor
  rw [Rule.fireAt?, hpop]
  simp only [hwindow, Option.bind_some, hfire]
  rfl

/-- Nothing but pushes and pops. -/
def PushesAndPops (code : List Instr) : Prop :=
  ∀ i ∈ code, ∃ p : Pair, (p = .b ∨ p = .d ∨ p = .h) ∧ (i = .push p ∨ i = .pop p)

/-- So many times `POP H`. -/
def pops (n : Nat) : List Instr := List.replicate n (.pop .h)

/-- Pops with a push among them that is popped at once. -/
def popsAround (j k : Nat) : List Instr := pops j ++ .push .b :: .pop .b :: pops k

/-- Among pops the rule does not fire. -/
theorem pushPop_applyFrom_pops {pos n : Nat} (hpos : pos ≤ n) :
    pushPop.applyFrom (pops n) pos = (0, pops n) := by
  refine Rule.applyFrom_of_not_fires (by simpa [pops] using hpos) fun p => ?_
  cases p with
  | zero => exact pushPop_fireAt?_zero _
  | succ p =>
    cases h : (pops n)[p]? with
    | none =>
      have hnext : (pops n)[p + 1]? = none :=
        List.getElem?_eq_none (Nat.le_succ_of_le (List.getElem?_eq_none_iff.mp h))
      rw [Rule.fireAt?, hnext]
    | some i =>
      obtain rfl := List.eq_of_mem_replicate (List.mem_of_getElem? h)
      exact pushPop_fireAt?_pop h

/-- The rule takes the one push and its pop away, and leaves the other pops. -/
theorem pushPop_apply_popsAround (j k : Nat) :
    pushPop.apply (popsAround j k) = (1, pops (j + k)) := by
  have hlen : (pops j).length = j := List.length_replicate
  have hpop {p : Nat} (hp : p < j) : (popsAround j k)[p]? = some (.pop .h) := by
    rw [popsAround, List.getElem?_append_left (by omega)]
    exact List.getElem?_replicate_of_lt hp
  have hpush : (popsAround j k)[j]? = some (.push .b) := by
    simp [popsAround, hlen]
  have hpair : (popsAround j k)[j + 1]? = some (.pop .b) := by
    rw [popsAround, List.getElem?_append_right (by omega)]
    simp [hlen]
  -- Before the pair there are pops only, so nothing fires.
  have hquiet : ∀ p, 0 ≤ p → p < j + 1 → pushPop.fireAt? (popsAround j k) p = none := by
    intro p _ hp
    cases p with
    | zero => exact pushPop_fireAt?_zero _
    | succ p => exact pushPop_fireAt?_pop (hpop (by omega))
  have hafter : ((popsAround j k).eraseIdx (j + 1)).eraseIdx j = pops (j + k) := by
    rw [popsAround, List.eraseIdx_append_of_length_le (by omega),
      List.eraseIdx_append_of_length_le (by omega)]
    simp [pops]
  rw [Rule.apply, Rule.applyFrom_skip (Nat.zero_le _) (Nat.le_of_lt (lt_length_of_getElem? hpair))
    hquiet, Rule.applyFrom, dif_pos (lt_length_of_getElem? hpair)]
  split
  next after hfires =>
    rw [pushPop_fireAt?_pair hpush hpair, hafter] at hfires
    cases hfires
    rw [pushPop_applyFrom_pops (by omega)]
  next hnone =>
    rw [pushPop_fireAt?_pair hpush hpair] at hnone
    cases hnone

theorem applyRules_append {front table : List Rule}
    (h : ∀ rule ∈ front, rule.apply code = (0, code)) :
    applyRules code (front ++ table) = applyRules code table := by
  induction front with
  | nil => rfl
  | cons rule front ih =>
    obtain ⟨hrule, hfront⟩ := List.forall_mem_cons.mp h
    simp only [List.cons_append, applyRules, hrule, ih hfront, Nat.zero_add]

/-- Among pushes and pops no other rule has a trigger. -/
theorem PushesAndPops.apply_eq {rule : Rule} (hcode : PushesAndPops code)
    (hrule : rule ∈ rules.take 8 ∨ rule ∈ rules.drop 9) : rule.apply code = (0, code) := by
  refine Rule.apply_of_not_trigger fun i hi => ?_
  obtain ⟨p, _, rfl | rfl⟩ := hcode i hi <;>
    · simp only [rules, List.take_succ_cons, List.take_zero, List.drop_succ_cons, List.drop_zero,
        List.mem_cons, List.not_mem_nil, or_false] at hrule
      rcases hrule with (rfl | rfl | rfl | rfl | rfl | rfl | rfl | rfl) | (rfl | rfl | rfl) <;> rfl

/-- Among pushes and pops the whole table does what this one rule does. -/
theorem PushesAndPops.applyRules_eq (hcode : PushesAndPops code)
    {n : Nat} {after : List Instr} (happly : pushPop.apply code = (n, after))
    (hafter : PushesAndPops after) :
    applyRules code rules = (n, after) := by
  have hrules : rules = rules.take 8 ++ pushPop :: (rules.drop 9 ++ []) := rfl
  rw [hrules, applyRules_append fun rule hrule => hcode.apply_eq (.inl hrule)]
  simp only [applyRules, happly]
  rw [applyRules_append fun rule hrule => hafter.apply_eq (.inr hrule)]
  rfl

theorem pushesAndPops_pops (n : Nat) : PushesAndPops (pops n) :=
  fun _ hi => ⟨.h, .inr (.inr rfl), .inr (List.eq_of_mem_replicate hi)⟩

theorem pushesAndPops_popsAround (j k : Nat) : PushesAndPops (popsAround j k) := by
  simp only [PushesAndPops, popsAround, List.forall_mem_append, List.forall_mem_cons]
  exact ⟨pushesAndPops_pops j, ⟨.b, .inl rfl, .inl rfl⟩, ⟨.b, .inl rfl, .inr rfl⟩,
    pushesAndPops_pops k⟩

theorem optimize_popsAround (j k : Nat) : optimize (popsAround j k) = (1, pops (j + k)) := by
  have hfirst := (pushesAndPops_popsAround j k).applyRules_eq
    (pushPop_apply_popsAround j k) (pushesAndPops_pops _)
  have hsecond := (pushesAndPops_pops (j + k)).applyRules_eq
    (pushPop_applyFrom_pops (Nat.zero_le _)) (pushesAndPops_pops _)
  simp [optimize, maxPasses, runPasses, hfirst, hsecond]

/-- Pops move the pointer and nothing else that is looked at here. -/
theorem exec_pops {P : Machine → Instr → Prop} (hP : ∀ m i, P m i) (n : Nat) (m : Machine) :
    ∃ m' : Machine, m'.sp = m.sp + BitVec.ofNat 16 (2 * n) ∧ m'.memory = m.memory ∧
      m'.pair .b = m.pair .b ∧ ∀ {rest : List Instr} {k : Nat} {m'' : Machine},
        Exec P rest m' k m'' → Exec P (pops n ++ rest) m (n + k) m'' := by
  induction n generalizing m with
  | zero => exact ⟨m, by simp, rfl, rfl, fun h => by simpa [pops] using h⟩
  | succ n ih =>
    obtain ⟨m', hsp, hmemory, hpair, hexec⟩ := ih (m.pop.2.setPair .h m.pop.1)
    refine ⟨m', ?_, hmemory, hpair, fun {rest k m''} h => ?_⟩
    · rw [hsp]
      change m.sp + 2 + _ = _
      bv_omega
    · rw [Nat.add_right_comm]
      exact .step (hP _ _) rfl rfl (hexec h)

theorem PushesAndPops.skipsClear (h : PushesAndPops code) :
    SkipsClear code := by
  rw [← code.append_nil, SkipsClear.append_iff fun i hi => ?_]
  · exact SkipsClear.nil
  · obtain ⟨p, _, rfl | rfl⟩ := h i hi <;> rfl

theorem run_pops {n : Nat} (hn : n ≤ maxSteps) (hsp : m.sp + BitVec.ofNat 16 (2 * n) = stackTop) :
    (m.run (pops n)).machine.memory = m.memory := by
  obtain ⟨m', hsp', hmemory, _, hexec⟩ := exec_pops (P := fun _ _ => True) (fun _ _ => trivial) n m
  have hrun := hexec (.done m')
  rw [List.append_nil] at hrun
  rw [run_of_exec (pushesAndPops_pops n).skipsClear hrun hn (hsp'.trans hsp)]
  exact hmemory

/-- With the push, the run leaves a word below where the stack pointer stands then, and nothing
else. -/
theorem run_popsAround {j k : Nat} (hsteps : j + (k + 2) ≤ maxSteps)
    (hsp : m.sp + BitVec.ofNat 16 (2 * (j + k)) = stackTop) :
    (m.run (popsAround j k)).fault = none ∧
      (m.run (popsAround j k)).machine.memory =
        m.memory.writeWord (m.sp + BitVec.ofNat 16 (2 * j) - 2) (m.pair .b) := by
  have htrivial (m : Machine) (i : Instr) : (fun _ _ => True : Machine → Instr → Prop) m i :=
    trivial
  obtain ⟨m₁, hsp₁, hmemory₁, hpair₁, hexec₁⟩ := exec_pops htrivial j m
  obtain ⟨m₂, hsp₂, hmemory₂, _, hexec₂⟩ :=
    exec_pops htrivial k ((m₁.push (m₁.pair .b)).pop.2.setPair .b (m₁.push (m₁.pair .b)).pop.1)
  have hrest := hexec₂ (.done m₂)
  rw [List.append_nil] at hrest
  have hrun := hexec₁ (.step (i := .push .b) trivial rfl rfl
    (.step (i := .pop .b) trivial rfl rfl hrest))
  have hend : m₂.sp = stackTop := by
    rw [hsp₂, ← hsp]
    change m₁.sp - 2 + 2 + _ = _
    rw [hsp₁]
    bv_omega
  rw [run_of_exec (pushesAndPops_popsAround j k).skipsClear hrun hsteps hend]
  refine ⟨rfl, ?_⟩
  rw [hmemory₂]
  change m₁.memory.writeWord (m₁.sp - 2) (m₁.pair .b) = _
  rw [hmemory₁, hsp₁, hpair₁]

/-- Code of pushes and pops has nothing but the stack, so the pass may be applied to it if its run
ends well. -/
theorem PushesAndPops.optimizable (hcode : PushesAndPops code) (hstart : m.sp = stackTop)
    (hok : (m.run code).fault = none) : Optimizable m code where
  pairs i hi p hp := by
    obtain ⟨q, hq, rfl | rfl⟩ := hcode i hi <;>
      · cases hp
        exact hq
  jumps := hcode.skipsClear
  start := hstart
  ok := hok
  apart load hload _ _ hsome := by
    obtain ⟨p, _, hp | hp⟩ := hcode _ (mem_of_mem_trace hload) <;>
      · rw [hp] at hsome
        cases hsome
  stack e he hstack := by
    obtain ⟨p, _, hp | hp⟩ := hcode _ (mem_of_mem_trace he) <;>
      · rw [hp] at hstack
        cases hstack

/-- The pass does not preserve every run: here the pointer wraps around, and the last byte of memory
shows it. That byte does not lie between the lowest and the highest pointer of the run, so it does
not count as part of the stack. -/
theorem optimize_changes_wraparound :
    ¬ ∀ (m : Machine) (code : List Instr), Optimizable m code →
      (m.run (optimize code).2).fault = none ∧
        ∀ a, ¬InStack m code a →
          (m.run (optimize code).2).machine.memory.read a =
            (m.run code).machine.memory.read a := by
  intro hpreserves
  obtain ⟨hok, hmemory⟩ : (({} : Machine).run (popsAround 2048 30720)).fault = none ∧ _ :=
    run_popsAround (by decide) (by decide)
  have hoptimizable : Optimizable {} (popsAround 2048 30720) :=
    (pushesAndPops_popsAround _ _).optimizable rfl hok
  -- The pointer is even all along, so it never stands at the last byte.
  have hlast : ¬InStack {} (popsAround 2048 30720) 0xFFFF := by
    rintro ⟨_, _, high, hhigh, _, hle⟩
    have heven := (even_sp_of_mem_trace hoptimizable high hhigh).2
    bv_omega
  have hoptimized : (optimize (popsAround 2048 30720)).2 = pops (2048 + 30720) :=
    congrArg Prod.snd (optimize_popsAround 2048 30720)
  have hplain : (({} : Machine).run (pops (2048 + 30720))).machine.memory = {} :=
    run_pops (by decide) (by decide)
  have hread : ({} : Memory).read 0xFFFF = (({} : Memory).writeWord 0xFFFE 0xA5A5).read 0xFFFF :=
    calc ({} : Memory).read 0xFFFF
      _ = (({} : Machine).run (pops (2048 + 30720))).machine.memory.read 0xFFFF := by rw [hplain]
      _ = (({} : Machine).run (optimize (popsAround 2048 30720)).2).machine.memory.read 0xFFFF := by
        rw [hoptimized]
      _ = (({} : Machine).run (popsAround 2048 30720)).machine.memory.read 0xFFFF :=
        (hpreserves _ _ hoptimizable).2 _ hlast
      _ = _ := by rw [hmemory]; rfl
  revert hread
  decide +kernel

end Accumulator.Peephole
