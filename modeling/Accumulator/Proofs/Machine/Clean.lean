import Mathlib.Tactic.Common
import Accumulator.Proofs.Machine.Call
import Accumulator.Proofs.Machine.Routine

/-!
# Code that runs cleanly

Code is clean if its jumps skip the clearing of the accumulator and nothing else, it names only
symbols that exist, it does not halt or load the stack pointer, and it pops what it has pushed and
nothing else. Clean code runs to its end from any machine (`run_of_clean`), in no more steps than it
has instructions.
-/

namespace Accumulator

namespace Instr

/-- The immediate of an instruction. -/
def imm? : Instr → Option Imm
  | lda a | sta a | lxi _ a | lhld a | shld a => some a
  | _ => none

/-- The instruction cannot fault in a program with these symbols, and moves the stack pointer only
if it is a push or a pop. -/
def isOrdinary (symbols : SymbolTable) (i : Instr) : Bool :=
  i ≠ .hlt && i.pair? ≠ some .sp && (i.imm?.bind Imm.symbol?).all (symbols.contains ·)

/-- The instruction is a push. -/
def isPush : Instr → Bool
  | push _ => true
  | _ => false

/-- The instruction is a pop. -/
def isPop : Instr → Bool
  | pop _ => true
  | _ => false

/-- The instruction is a push or a pop. -/
def movesStack : Instr → Bool
  | push _ | pop _ => true
  | _ => false

/-- The number of words on the stack after an instruction, given the number before. -/
def depth? : Instr → Nat → Option Nat
  | push _, d => some (d + 1)
  | pop _, 0 => none
  | pop _, d + 1 => some d
  | _, d => some d

end Instr

/-- The number of words on the stack after code, given the number before. There is none if the code
pops more than that. -/
def depth? (code : List Instr) (d : Nat) : Option Nat :=
  code.foldlM (fun d i => i.depth? d) d

section Depth

variable {code xs ys : List Instr} {i : Instr} {d e k : Nat}

theorem depth?_cons : depth? (i :: code) d = (i.depth? d).bind (depth? code) := rfl

/-- The depth after two parts of the code is that of the second, starting from that of the first. -/
theorem depth?_append : depth? (xs ++ ys) d = (depth? xs d).bind (depth? ys) :=
  List.foldlM_append

/-- More words below change nothing but the count: an instruction that finds enough words on the
stack finds enough if there are more. -/
theorem Instr.depth?_add (h : i.depth? d = some e) : i.depth? (d + k) = some (e + k) := by
  cases i with
  | push p =>
    cases h
    show some (d + k + 1) = some (d + 1 + k)
    congr 1
    omega
  | pop p =>
    cases d with
    | zero => cases h
    | succ d =>
      cases h
      rw [Nat.add_right_comm]
      rfl
  | _ =>
    cases h
    rfl

/-- Only pushes and pops matter. -/
theorem depth?_filter : depth? (code.filter Instr.movesStack) d = depth? code d := by
  induction code generalizing d with
  | nil => rfl
  | cons i rest ih =>
    cases i with
    | push p | pop p =>
      rw [List.filter_cons_of_pos rfl, depth?_cons, depth?_cons]
      exact congrArg _ (funext fun _ => ih)
    | _ => exact ih

/-- Code with the same pushes and pops reaches the same depth. -/
theorem depth?_congr (h : xs.filter Instr.movesStack = ys.filter Instr.movesStack) :
    depth? xs d = depth? ys d := by
  rw [← depth?_filter, h, depth?_filter]

/-- Words that were there before do not matter. -/
theorem depth?_add (h : depth? code d = some e) : depth? code (d + k) = some (e + k) := by
  induction code generalizing d with
  | nil =>
    cases h
    rfl
  | cons i rest ih =>
    rw [depth?_cons] at h ⊢
    obtain ⟨d', hi, hrest⟩ := Option.bind_eq_some_iff.mp h
    rw [Instr.depth?_add hi]
    exact ih hrest

/-- Code that leaves nothing on an empty stack leaves nothing on any stack. -/
theorem depth?_of_closed (h : depth? code 0 = some 0) (d : Nat) : depth? code d = some d := by
  have := depth?_add (k := d) h
  rwa [Nat.zero_add] at this

/-- The depth tells the pushes from the pops: what is there before and what is pushed is what is
left and what was popped. -/
theorem depth?_count (h : depth? code d = some e) :
    d + code.countP Instr.isPush = e + code.countP Instr.isPop := by
  induction code generalizing d with
  | nil =>
    cases h
    rfl
  | cons i rest ih =>
    rw [depth?_cons] at h
    obtain ⟨d', hi, hrest⟩ := Option.bind_eq_some_iff.mp h
    have := ih hrest
    rw [List.countP_cons, List.countP_cons]
    cases i with
    -- A push and a pop change the depth and one of the two counts; any other instruction changes
    -- neither.
    | push p =>
      cases hi
      simp only [Instr.isPush, Instr.isPop, if_true, Bool.false_eq_true, if_false]
      omega
    | pop p =>
      cases d with
      | zero => cases hi
      | succ d =>
        cases hi
        simp only [Instr.isPush, Instr.isPop, if_true, Bool.false_eq_true, if_false]
        omega
    | _ =>
      cases hi
      simpa [Instr.isPush, Instr.isPop] using this

/-- Comments do not use the stack. -/
theorem filter_of_comments (h : ∀ i ∈ code, i.isComment = true) :
    code.filter Instr.movesStack = [] := by
  refine List.filter_eq_nil_iff.mpr fun i hi => ?_
  have := h i hi
  cases i with
  | comment text => exact Bool.false_ne_true
  | _ => cases this

theorem depth?_of_comments (h : ∀ i ∈ code, i.isComment = true) : depth? code d = some d := by
  rw [← depth?_filter, filter_of_comments h]
  rfl

/-- No part of the code from its start pops more than it pushes. -/
theorem depth?_take (h : depth? code d = some e) (n : Nat) :
    ∃ e', depth? (code.take n) d = some e' := by
  rw [← List.take_append_drop n code, depth?_append] at h
  obtain ⟨e', he', -⟩ := Option.bind_eq_some_iff.mp h
  exact ⟨e', he'⟩

end Depth

/-- Code that can neither fault nor leave anything on the stack. -/
structure Clean (symbols : SymbolTable) (code : List Instr) : Prop where
  ordinary : ∀ i ∈ code, i.isOrdinary symbols = true
  skips : SkipsClear code
  closed : depth? code 0 = some 0

namespace Clean

variable {symbols : SymbolTable} {xs ys : List Instr} {p q : Pair}

theorem nil : Clean symbols [] where
  ordinary := List.forall_mem_nil _
  skips := SkipsClear.nil
  closed := rfl

theorem append (hx : Clean symbols xs) (hy : Clean symbols ys) : Clean symbols (xs ++ ys) where
  ordinary := List.forall_mem_append.mpr ⟨hx.ordinary, hy.ordinary⟩
  skips := hx.skips.append hy.skips
  closed := by
    rw [depth?_append, hx.closed]
    exact hy.closed

/-- Clean code between a push and a pop is clean. The two pairs need not be the same. -/
theorem enclose (hx : Clean symbols xs) (hq : q ≠ .sp) (hp : p ≠ .sp) :
    Clean symbols (.push p :: xs ++ [.pop q]) where
  ordinary := by
    intro i hi
    simp only [List.cons_append, List.mem_cons, List.mem_append, List.not_mem_nil, or_false] at hi
    obtain rfl | hi | rfl := hi
    · simpa [Instr.isOrdinary, Instr.pair?, Instr.imm?] using hp
    · exact hx.ordinary i hi
    · simpa [Instr.isOrdinary, Instr.pair?, Instr.imm?] using hq
  skips := (hx.skips.cons rfl).append (SkipsClear.nil.cons rfl)
  closed := by
    rw [List.cons_append, depth?_cons]
    show depth? (xs ++ [.pop q]) (0 + 1) = some 0
    rw [depth?_append, depth?_of_closed hx.closed]
    rfl

end Clean

/-! ## Tidy code

Selected code is clean, and it needs little of the stack: no more than two words, the return address
of a call included. It stores and loads whole variables by their names. -/

namespace Instr

/-- The number of words on the stack after an instruction that leaves room for no more than `limit`
of them. A call needs room for its return address, and an exchange a word to exchange with. -/
def depthIn? (limit : Nat) : Instr → Nat → Option Nat
  | push _, d => if d < limit then some (d + 1) else none
  | call _, d => if d < limit then some d else none
  | pop _, 0 | xthl, 0 => none
  | pop _, d + 1 => some d
  | _, d => some d

/-- Operands are pairs of registers, and what is loaded and stored by name are variables as wide as
that. -/
def isRegular (symbols : SymbolTable) : Instr → Bool
  | lda (.sym _ offset) | sta (.sym _ offset) => decide (offset = 0)
  | lhld (.sym name offset) | shld (.sym name offset) =>
    decide (offset = 0) && decide (symbols.widthOf name = .word)
  | lda (.num _) | sta (.num _) | lhld (.num _) | shld (.num _) => false
  | i => i.pair?.all Pair.isGeneral

variable {i : Instr} {limit d e : Nat}

/-- With more room an instruction does the same. -/
theorem depthIn?_relax (h : i.depthIn? limit d = some e) : i.depthIn? (limit + 1) d = some e := by
  cases i with
  | push p | call r =>
    simp only [depthIn?] at h ⊢
    split at h
    · rwa [if_pos (by omega)]
    · cases h
  | pop p | xthl => cases d <;> exact h
  | _ => exact h

/-- The bounded depth is the depth, where the bound is kept. -/
theorem depth?_of_depthIn? (h : i.depthIn? limit d = some e) : i.depth? d = some e := by
  cases i with
  | push p | call r =>
    simp only [depthIn?] at h
    split at h
    · exact h
    · cases h
  | pop p => cases d <;> exact h
  | xthl =>
    cases d with
    | zero => cases h
    | succ d => exact h
  | _ => exact h

/-- The bound is kept by every instruction that is possible within it. -/
theorem depthIn?_le (h : i.depthIn? limit d = some e) (hd : d ≤ limit) : e ≤ limit := by
  cases i with
  | push p =>
    simp only [depthIn?] at h
    -- Only a push goes deeper, and it is refused at the bound.
    split at h
    · cases h
      omega
    · cases h
  | call r =>
    simp only [depthIn?] at h
    split at h
    · cases h
      exact hd
    · cases h
  | pop p =>
    cases d with
    | zero => cases h
    | succ d =>
      cases h
      exact Nat.le_of_succ_le hd
  | xthl =>
    cases d with
    | zero => cases h
    | succ d =>
      cases h
      exact hd
  | _ =>
    cases h
    exact hd

/-- One word more below needs one word more of room. -/
theorem depthIn?_raise (h : i.depthIn? limit d = some e) :
    i.depthIn? (limit + 1) (d + 1) = some (e + 1) := by
  cases i with
  | push p | call r =>
    simp only [depthIn?] at h ⊢
    split at h
    · cases h
      exact if_pos (by omega)
    · cases h
  | pop p | xthl =>
    cases d with
    | zero => cases h
    | succ d =>
      cases h
      rfl
  | _ =>
    cases h
    rfl

end Instr

/-- The number of words on the stack after code, which never leaves more than `limit` there. -/
def depthIn? (limit : Nat) (code : List Instr) (d : Nat) : Option Nat :=
  code.foldlM (fun d i => i.depthIn? limit d) d

section DepthIn

variable {code xs ys : List Instr} {i : Instr} {limit d e : Nat}

theorem depthIn?_cons :
    depthIn? limit (i :: code) d = (i.depthIn? limit d).bind (depthIn? limit code) := rfl

theorem depthIn?_append :
    depthIn? limit (xs ++ ys) d = (depthIn? limit xs d).bind (depthIn? limit ys) :=
  List.foldlM_append

/-- With more room the code does the same. -/
theorem depthIn?_relax (h : depthIn? limit code d = some e) :
    depthIn? (limit + 1) code d = some e := by
  induction code generalizing d with
  | nil => exact h
  | cons i rest ih =>
    rw [depthIn?_cons] at h ⊢
    obtain ⟨d', hi, hrest⟩ := Option.bind_eq_some_iff.mp h
    rw [Instr.depthIn?_relax hi]
    exact ih hrest

/-- One word more below needs one word more of room, for code as for an instruction. -/
theorem depthIn?_raise (h : depthIn? limit code d = some e) :
    depthIn? (limit + 1) code (d + 1) = some (e + 1) := by
  induction code generalizing d with
  | nil =>
    cases h
    rfl
  | cons i rest ih =>
    rw [depthIn?_cons] at h ⊢
    obtain ⟨d', hi, hrest⟩ := Option.bind_eq_some_iff.mp h
    rw [Instr.depthIn?_raise hi]
    exact ih hrest

end DepthIn

/-- Clean code that, with so many words on the stack when it starts, leaves room for no more than
`limit`. -/
structure Tidy (symbols : SymbolTable) (limit d : Nat) (code : List Instr) : Prop
    extends Clean symbols code where
  regular : ∀ i ∈ code, i.isRegular symbols = true
  shallow : depthIn? limit code d = some d

namespace Tidy

variable {symbols : SymbolTable} {limit d : Nat} {xs ys : List Instr} {p q : Pair}

theorem nil : Tidy symbols limit d [] where
  toClean := Clean.nil
  regular := List.forall_mem_nil _
  shallow := rfl

theorem append (hx : Tidy symbols limit d xs) (hy : Tidy symbols limit d ys) :
    Tidy symbols limit d (xs ++ ys) where
  toClean := hx.toClean.append hy.toClean
  regular := List.forall_mem_append.mpr ⟨hx.regular, hy.regular⟩
  shallow := by
    rw [depthIn?_append, hx.shallow]
    exact hy.shallow

theorem relax (h : Tidy symbols limit d xs) : Tidy symbols (limit + 1) d xs :=
  { h with shallow := depthIn?_relax h.shallow }

/-- One word more below. -/
theorem raise (h : Tidy symbols limit d xs) : Tidy symbols (limit + 1) (d + 1) xs :=
  { h with shallow := depthIn?_raise h.shallow }

/-- Code between a push and a pop is tidy if it is tidy with one word more below, within the same
bound. -/
theorem enclose (hx : Tidy symbols (limit + 1) (d + 1) xs) (hq : q.isGeneral = true)
    (hp : p.isGeneral = true) (hd : d < limit + 1) :
    Tidy symbols (limit + 1) d (.push p :: xs ++ [.pop q]) where
  toClean := by
    refine hx.toClean.enclose ?_ ?_
    · rintro rfl
      cases hq
    · rintro rfl
      cases hp
  regular := by
    intro i hi
    simp only [List.cons_append, List.mem_cons, List.mem_append, List.not_mem_nil, or_false] at hi
    obtain rfl | hi | rfl := hi
    · exact hp
    · exact hx.regular i hi
    · exact hq
  shallow := by
    rw [List.cons_append, depthIn?_cons]
    simp only [Instr.depthIn?, if_pos hd, Option.bind_some]
    rw [depthIn?_append, hx.shallow]
    rfl

end Tidy

/-- An instruction that does not jump, and neither leaves nor takes anything on the stack. -/
def Instr.isPlain (symbols : SymbolTable) (i : Instr) : Bool :=
  i.isOrdinary symbols && !i.isControl && decide (i.depth? 0 = some 0) &&
    (i.isRegular symbols && decide (i.depthIn? 1 0 = some 0))

/-- Code is tidy if all of its instructions are plain: there are no jumps, and the stack stays as it
is. -/
theorem Tidy.of_plain {symbols : SymbolTable} {code : List Instr}
    (h : code.all (Instr.isPlain symbols) = true) : Tidy symbols 1 0 code := by
  induction code with
  | nil => exact Tidy.nil
  | cons i rest ih =>
    rw [List.all_cons, Bool.and_eq_true] at h
    obtain ⟨hi, hrest⟩ := h
    simp only [Instr.isPlain, Bool.and_eq_true, Bool.not_eq_true', decide_eq_true_eq] at hi
    obtain ⟨⟨⟨hordinary, hcontrol⟩, hdepth⟩, hregular, hshallow⟩ := hi
    have hrest := ih hrest
    refine ⟨⟨List.forall_mem_cons.mpr ⟨hordinary, hrest.ordinary⟩, hrest.skips.cons hcontrol, ?_⟩,
      List.forall_mem_cons.mpr ⟨hregular, hrest.regular⟩, ?_⟩
    · rw [depth?_cons, hdepth]
      exact hrest.closed
    · rw [depthIn?_cons, hshallow]
      exact hrest.shallow

theorem Tidy.replicate {symbols : SymbolTable} {i : Instr} (n : Nat)
    (hi : i.isPlain symbols = true) : Tidy symbols 1 0 (List.replicate n i) :=
  .of_plain (by simp [hi])

/-- A flag turned into a number by a jump. -/
theorem Tidy.flag {symbols : SymbolTable} (cond : Cond) :
    Tidy symbols 1 0 [.mvi .a 1, .jump cond 4, .alu .xor .a] where
  ordinary := by simp [Instr.isOrdinary, Instr.pair?, Instr.imm?]
  skips := (SkipsClear.jump SkipsClear.nil).cons rfl
  closed := rfl
  regular := by simp [Instr.isRegular, Instr.pair?]
  shallow := rfl

/-! ## Runs of clean code -/

namespace Machine

variable {symbols : SymbolTable} {m : Machine} {code : List Instr} {i : Instr}

/-- The machine has an address for every symbol. -/
def Knows (m : Machine) (symbols : SymbolTable) : Prop :=
  ∀ name, symbols.contains name = true → ∃ a, m.addressOf? name = some a

/-- The immediate of an instruction has a value if its symbol has an address. -/
theorem exists_imm {a : Imm} (hm : m.Knows symbols)
    (ha : a.symbol?.all (symbols.contains ·) = true) : ∃ w, m.imm a = .ok w := by
  cases a with
  | num v => exact ⟨_, rfl⟩
  | sym name offset =>
    obtain ⟨base, hbase⟩ := hm name (by simpa [Imm.symbol?] using ha)
    exact ⟨base + BitVec.ofInt 16 offset, by simp only [imm, hbase]⟩

/-- An ordinary instruction does not fault, for its immediates have values and every call
returns. -/
theorem exists_step (hm : m.Knows symbols) (hi : i.isOrdinary symbols = true) :
    ∃ m', m.step i = .ok m' := by
  simp only [Instr.isOrdinary, Bool.and_eq_true] at hi
  cases i with
  | call routine => exact exists_call m routine
  | lda a | sta a | lxi p a | lhld a | shld a =>
    obtain ⟨w, hw⟩ := exists_imm hm (by simpa [Instr.imm?] using hi.2)
    exact ⟨_, by simp only [step, execute, hw]; rfl⟩
  | _ => exact ⟨_, rfl⟩

/-- The stack pointer moves down by two bytes for each word of depth. -/
theorem spChange_of_depth? {d e : Nat} (h : i.depth? d = some e) :
    i.spChange + BitVec.ofNat 16 (2 * e) = BitVec.ofNat 16 (2 * d) := by
  cases i with
  | push p =>
    cases h
    simp only [Instr.spChange]
    bv_omega
  | pop p =>
    cases d with
    | zero => cases h
    | succ d =>
      cases h
      simp only [Instr.spChange]
      bv_omega
  | _ =>
    cases h
    simp only [Instr.spChange]
    bv_omega

/-- The stack pointer follows the depth. -/
theorem sp_of_depth? {m' : Machine} {d e : Nat} (hi : i.isOrdinary symbols = true)
    (hdepth : i.depth? d = some e) (hstep : m.step i = .ok m') :
    m'.sp + BitVec.ofNat 16 (2 * e) = m.sp + BitVec.ofNat 16 (2 * d) := by
  simp only [Instr.isOrdinary, Bool.and_eq_true, decide_eq_true_eq] at hi
  rw [step_sp hstep hi.1.2, ← spChange_of_depth? hdepth, BitVec.add_assoc]

theorem Knows.step {m' : Machine} (hm : m.Knows symbols) (h : m.step i = .ok m') :
    m'.Knows symbols := by
  intro name hname
  rw [addressOf?, step_addresses h]
  exact hm name hname

/-- Clean code is gone through without faults, whatever the flags are: a jump goes over one
instruction that could be carried out as well. -/
theorem exists_exec {d e : Nat} (hm : m.Knows symbols)
    (hordinary : ∀ i ∈ code, i.isOrdinary symbols = true) (hskips : SkipsClear code)
    (hdepth : depth? code d = some e) :
    ∃ n m', n ≤ code.length ∧ Exec (fun _ _ => True) code m n m' ∧
      m'.sp + BitVec.ofNat 16 (2 * e) = m.sp + BitVec.ofNat 16 (2 * d) := by
  -- A jump skips an instruction, so the induction is on the length.
  induction hlength : code.length using Nat.strongRecOn generalizing code m d with
  | ind length ih =>
    subst hlength
    cases code with
    | nil =>
      cases hdepth
      exact ⟨0, m, Nat.le_refl _, .done m, rfl⟩
    | cons i rest =>
      obtain ⟨hi, hrest⟩ := List.forall_mem_cons.mp hordinary
      rw [depth?_cons] at hdepth
      obtain ⟨d', hd', hdepth⟩ := Option.bind_eq_some_iff.mp hdepth
      by_cases hcontrol : i.isControl = false
      · obtain ⟨m₁, hstep⟩ := exists_step hm hi
        obtain ⟨n, m', hn, hexec, hsp⟩ :=
          ih rest.length (Nat.lt_succ_self _) (hm.step hstep) hrest hskips.tail hdepth rfl
        refine ⟨n + 1, m', Nat.succ_le_succ hn, .step trivial hcontrol hstep hexec, ?_⟩
        rw [hsp, sp_of_depth? hi hd' hstep]
      · cases i with
        | hlt => simp [Instr.isOrdinary] at hi
        | jump cond offset =>
          cases hd'
          obtain ⟨rfl, rest', rfl⟩ := hskips.of_jump
          cases hcond : m.holds cond with
          | false =>
            obtain ⟨n, m', hn, hexec, hsp⟩ :=
              ih _ (Nat.lt_succ_self _) hm hrest hskips.tail hdepth rfl
            exact ⟨n + 1, m', Nat.succ_le_succ hn, .pass trivial hcond hexec, hsp⟩
          | true =>
            have hdepth : depth? rest' d = some e := hdepth
            by_cases hcomments : rest'.all Instr.isComment = true
            · rw [depth?_of_comments (List.all_eq_true.mp hcomments)] at hdepth
              cases hdepth
              refine ⟨1, m, Nat.le_add_left 1 _, .skip trivial hcond ?_, rfl⟩
              rw [landing, if_pos hcomments]
              exact .done m
            · have hlt : rest'.length < rest'.length + 1 + 1 := by omega
              obtain ⟨n, m', hn, hexec, hsp⟩ := ih _ hlt hm
                (List.forall_mem_cons.mp hrest).2 hskips.tail.tail hdepth rfl
              refine ⟨n + 1, m', ?_, .skip trivial hcond ?_, hsp⟩
              · show n + 1 ≤ rest'.length + 1 + 1
                omega
              · rwa [landing, if_neg hcomments]
        | _ => exact absurd rfl hcontrol

/-- A run of clean code ends without a fault, if it has enough steps. At its end the stack is where
it was at the start. -/
theorem run_of_clean (h : Clean symbols code) (hlength : code.length ≤ maxSteps)
    (hm : m.Knows symbols) (hsp : m.sp = stackTop) : (m.run code).fault = none := by
  obtain ⟨n, m', hn, hexec, hsp'⟩ := exists_exec hm h.ordinary h.skips h.closed
  rw [run_of_exec h.skips hexec (Nat.le_trans hn hlength)]
  rw [← hsp]
  simpa using hsp'

end Machine

end Accumulator
