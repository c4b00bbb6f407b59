import Accumulator.Machine.Run

/-!
# Runs of code that only skips forward

Generated code has one use for jumps: to skip the instruction that clears the accumulator. For
such code a run needs no positions and no byte counting. It goes through the list once, and
`Exec` says how. The two are the same (`exec_of_run`, `run_of_exec`), with the number of steps
kept, since a run gives up after `maxSteps`.

`Exec` carries a condition on every instruction that is executed, together with the machine that
meets it. On the side of the run the same information is the `trace`.
-/

namespace Accumulator

/-- Jumps and halts, which only the run itself can execute. -/
def Instr.isControl : Instr → Bool
  | jump .. | hlt => true
  | _ => false

/-- Every jump skips exactly the clearing of the accumulator. -/
def SkipsClear (code : List Instr) : Prop :=
  ∀ (pos : Nat) (cond : Cond) (offset : Int), code[pos]? = some (.jump cond offset) →
    offset = 4 ∧ code[pos + 1]? = some (.alu .xor .a)

namespace SkipsClear

theorem nil : SkipsClear [] := nofun

/-- What follows an instruction has jumps of the same kind only. -/
theorem tail {i : Instr} {rest : List Instr} (h : SkipsClear (i :: rest)) : SkipsClear rest :=
  fun pos cond offset hpos => h (pos + 1) cond offset hpos

/-- What follows a jump at the front. -/
theorem of_jump {cond : Cond} {offset : Int} {rest : List Instr}
    (h : SkipsClear (.jump cond offset :: rest)) :
    offset = 4 ∧ ∃ rest', rest = .alu .xor .a :: rest' := by
  obtain ⟨hoffset, hnext⟩ := h 0 cond offset rfl
  cases rest with
  | nil => cases hnext
  | cons i rest' => exact ⟨hoffset, rest', by rw [Option.some.inj hnext]⟩

/-- An instruction that is no jump may be put in front. -/
theorem cons {i : Instr} {rest : List Instr} (hi : i.isControl = false) (h : SkipsClear rest) :
    SkipsClear (i :: rest) := by
  intro pos cond offset hpos
  cases pos with
  | zero =>
    cases Option.some.inj hpos
    cases hi
  | succ pos => exact h pos cond offset hpos

/-- A jump may be put in front of the instruction that it goes over. -/
theorem jump {cond : Cond} {rest : List Instr} (h : SkipsClear rest) :
    SkipsClear (.jump cond 4 :: .alu .xor .a :: rest) := by
  intro pos cond' offset hpos
  cases pos with
  | zero =>
    cases Option.some.inj hpos
    exact ⟨rfl, rfl⟩
  | succ pos => exact h.cons (by rfl) pos cond' offset hpos

/-- Jumps stay within either part. -/
theorem append {front rest : List Instr} (hfront : SkipsClear front) (hrest : SkipsClear rest) :
    SkipsClear (front ++ rest) := by
  intro pos cond offset hpos
  rcases Nat.lt_or_ge pos front.length with hlt | hge
  · rw [List.getElem?_append_left hlt] at hpos
    obtain ⟨hoffset, hnext⟩ := hfront pos cond offset hpos
    have hlt' := (List.getElem?_eq_some_iff.mp hnext).1
    exact ⟨hoffset, by rwa [List.getElem?_append_left hlt']⟩
  · rw [List.getElem?_append_right hge] at hpos
    rw [List.getElem?_append_right (by omega), Nat.sub_add_comm hge]
    exact hrest _ cond offset hpos

/-- Code may be cut where there is nothing that a jump skips. -/
theorem of_append {front rest : List Instr} {i : Instr} (hi : i ≠ .alu .xor .a)
    (h : SkipsClear (front ++ i :: rest)) : SkipsClear front ∧ SkipsClear (i :: rest) := by
  constructor
  · intro pos cond offset hpos
    have hlt := (List.getElem?_eq_some_iff.mp hpos).1
    obtain ⟨hoffset, hnext⟩ := h pos cond offset (by rwa [List.getElem?_append_left hlt])
    refine ⟨hoffset, ?_⟩
    rcases Nat.lt_or_ge (pos + 1) front.length with hlt' | hge
    · rwa [List.getElem?_append_left hlt'] at hnext
    · have hpos' : pos + 1 = front.length := by omega
      rw [hpos', List.getElem?_append_right (Nat.le_refl _), Nat.sub_self] at hnext
      exact absurd (Option.some.inj hnext) hi
  · intro pos cond offset hpos
    have hge : front.length ≤ front.length + pos := Nat.le_add_right _ _
    have hshift (k : Nat) : (front ++ i :: rest)[front.length + k]? = (i :: rest)[k]? := by
      rw [List.getElem?_append_right (Nat.le_add_right _ _), Nat.add_sub_cancel_left]
    obtain ⟨hoffset, hnext⟩ := h (front.length + pos) cond offset (by rwa [hshift])
    rw [Nat.add_assoc, hshift] at hnext
    exact ⟨hoffset, hnext⟩

/-- Instructions that are no jumps do not matter. -/
theorem append_iff {front rest : List Instr} (hfront : ∀ i ∈ front, i.isControl = false) :
    SkipsClear (front ++ rest) ↔ SkipsClear rest := by
  induction front with
  | nil => rfl
  | cons i front ih =>
    obtain ⟨hi, hfront⟩ := List.forall_mem_cons.mp hfront
    rw [← ih hfront]
    exact ⟨tail, cons hi⟩

end SkipsClear

namespace Machine

/-! ## Traces -/

/-- The instructions that a run executes from a position on, each with the machine it meets. -/
def traceFrom (code : List Instr) : (steps pos : Nat) → Machine → List (Machine × Instr)
  | steps, pos, m =>
    match code[pos]?, steps with
    | none, _ | some _, 0 => []
    | some .hlt, _ + 1 => [(m, .hlt)]
    | some (.jump cond offset), steps + 1 =>
      (m, .jump cond offset) ::
        if m.holds cond then
          match jumpTarget code pos offset with
          | .ok next => traceFrom code steps next m
          | .error _ => []
        else
          traceFrom code steps (pos + 1) m
    | some i, steps + 1 =>
      (m, i) ::
        match m.step i with
        | .ok m => traceFrom code steps (pos + 1) m
        | .error _ => []

/-- The instructions that a run executes, each with the machine it meets. -/
def trace (m : Machine) (code : List Instr) : List (Machine × Instr) :=
  traceFrom code maxSteps 0 m

/-! ## Where a jump lands -/

@[simp] theorem byteSize_nil : byteSize [] = 0 := rfl

@[simp] theorem byteSize_cons (i : Instr) (rest : List Instr) :
    byteSize (i :: rest) = i.size + byteSize rest := rfl

@[simp] theorem byteSize_append (xs ys : List Instr) :
    byteSize (xs ++ ys) = byteSize xs + byteSize ys := by
  induction xs with
  | nil => simp
  | cons i xs ih => simp [ih, Nat.add_assoc]

theorem size_eq_zero_iff {i : Instr} : i.size = 0 ↔ i.isComment = true := by
  cases i <;> simp [Instr.size, Instr.isComment]

/-- Code without bytes is comments. -/
theorem byteSize_eq_zero_iff {code : List Instr} :
    byteSize code = 0 ↔ code.all Instr.isComment = true := by
  induction code with
  | nil => simp
  | cons i rest ih => simp [ih, size_eq_zero_iff]

/-- Code that a jump goes to. Comments have no bytes, so comments at the very end are passed. -/
def landing (rest : List Instr) : List Instr :=
  if rest.all Instr.isComment then [] else rest

/-- Bytes of a front part are passed over, instruction by instruction, before the bytes of the rest
are counted. -/
theorem positionAt?_append {front rest : List Instr} {k : Nat} (hk : 0 < k) :
    positionAt? (byteSize front + k) (front ++ rest) =
      (positionAt? k rest).map (· + front.length) := by
  induction front with
  | nil => simp
  | cons i front ih =>
    obtain ⟨n, hn⟩ : ∃ n, byteSize (i :: front) + k = n + 1 :=
      ⟨byteSize (i :: front) + k - 1, by omega⟩
    have hsize : n + 1 - i.size = byteSize front + k := by
      rw [byteSize_cons] at hn
      omega
    have hle : ¬ n + 1 < i.size := by
      rw [byteSize_cons] at hn
      omega
    rw [hn, List.cons_append, positionAt?, if_neg hle, hsize, ih, Option.map_map]
    congr 1

/-- A jump over the clearing of the accumulator goes on right behind it. -/
theorem jumpTarget_skip {code front rest : List Instr} {cond : Cond}
    (hcode : code = front ++ .jump cond 4 :: .alu .xor .a :: rest) :
    ∃ next, jumpTarget code front.length 4 = .ok next ∧ code.drop next = landing rest := by
  have htake : code.take front.length = front := by simp [hcode]
  have hsize : byteSize code = byteSize front + 4 + byteSize rest := by
    simp [hcode, Instr.size]
    omega
  have htarget : ((byteSize front : Int) + 4).toNat = byteSize front + 4 := by omega
  unfold jumpTarget landing
  rw [htake, hsize]
  simp only [htarget, if_neg (show ¬ ((byteSize front : Int) + 4 < 0) by omega)]
  cases hall : rest.all Instr.isComment with
  | true =>
    have hzero := byteSize_eq_zero_iff.mpr hall
    exact ⟨code.length, by simp [hzero], by simp⟩
  | false =>
    have hpos : byteSize rest ≠ 0 := fun h => by simp [byteSize_eq_zero_iff.mp h] at hall
    have hposition : positionAt? (byteSize front + 4) code = some (front.length + 2) := by
      rw [hcode, positionAt?_append (by decide)]
      cases rest with
      | nil => simp at hpos
      | cons i rest => simp [positionAt?, Instr.size, Nat.add_comm]
    refine ⟨front.length + 2, ?_, by simp [hcode]⟩
    rw [hposition, if_neg]
    omega

/-! ## Going through a list once -/

/-- `Exec P code m n m'`: code whose jumps skip forward takes `m` to `m'` in `n` steps, and `P`
holds of every instruction that is executed with the machine it meets. -/
inductive Exec (P : Machine → Instr → Prop) : List Instr → Machine → Nat → Machine → Prop where
  | done (m : Machine) : Exec P [] m 0 m
  | halt {m : Machine} {rest : List Instr} (hp : P m .hlt) : Exec P (.hlt :: rest) m 1 m
  /-- The jump is taken and the next instruction skipped. -/
  | skip {m m' : Machine} {n : Nat} {cond : Cond} {rest : List Instr} (hp : P m (.jump cond 4))
      (hcond : m.holds cond = true) (h : Exec P (landing rest) m n m') :
      Exec P (.jump cond 4 :: .alu .xor .a :: rest) m (n + 1) m'
  /-- The jump is not taken. -/
  | pass {m m' : Machine} {n : Nat} {cond : Cond} {offset : Int} {rest : List Instr}
      (hp : P m (.jump cond offset)) (hcond : m.holds cond = false) (h : Exec P rest m n m') :
      Exec P (.jump cond offset :: rest) m (n + 1) m'
  | step {m m₁ m' : Machine} {n : Nat} {i : Instr} {rest : List Instr} (hp : P m i)
      (hi : i.isControl = false) (hstep : m.step i = .ok m₁) (h : Exec P rest m₁ n m') :
      Exec P (i :: rest) m (n + 1) m'

/-- The first step, if it is no jump and no halt. -/
theorem Exec.of_not_control {P : Machine → Instr → Prop} {i : Instr} {rest : List Instr}
    {m m' : Machine} {n : Nat} (h : Exec P (i :: rest) m n m') (hi : i.isControl = false) :
    ∃ n₁ m₁, n = n₁ + 1 ∧ P m i ∧ m.step i = .ok m₁ ∧ Exec P rest m₁ n₁ m' := by
  cases h with
  | halt _ | skip _ _ _ | pass _ _ _ => cases hi
  | step hp _ hstep h => exact ⟨_, _, rfl, hp, hstep, h⟩

/-! ## One step of a run -/

section Step

variable {code : List Instr} {steps pos : Nat} {m : Machine} {i : Instr} {cond : Cond}
  {offset : Int}

/-- The code from a position on starts with the instruction that is there. -/
theorem drop_of_getElem? (h : code[pos]? = some i) : code.drop pos = i :: code.drop (pos + 1) := by
  obtain ⟨hlt, rfl⟩ := List.getElem?_eq_some_iff.mp h
  exact List.drop_eq_getElem_cons hlt

theorem getElem?_of_drop {rest : List Instr} (h : code.drop pos = i :: rest) :
    code[pos]? = some i ∧ code.drop (pos + 1) = rest := by
  constructor
  · rw [← List.head?_drop, h]
    rfl
  · rw [← List.tail_drop, h]
    rfl

theorem runFrom_end (h : code[pos]? = none) : runFrom code steps pos m = m.finish := by
  unfold runFrom
  rw [h]

theorem runFrom_zero (h : code[pos]? = some i) :
    runFrom code 0 pos m = { machine := m, fault := some .doesNotTerminate } := by
  unfold runFrom
  rw [h]

theorem runFrom_hlt (h : code[pos]? = some .hlt) : runFrom code (steps + 1) pos m = m.finish := by
  unfold runFrom
  rw [h]

theorem runFrom_pass (h : code[pos]? = some (.jump cond offset)) (hcond : m.holds cond = false) :
    runFrom code (steps + 1) pos m = runFrom code steps (pos + 1) m := by
  rw [runFrom.eq_def]
  simp only [h, hcond, Bool.false_eq_true, if_false]

theorem runFrom_skip {next : Nat} (h : code[pos]? = some (.jump cond offset))
    (hcond : m.holds cond = true) (hnext : jumpTarget code pos offset = .ok next) :
    runFrom code (steps + 1) pos m = runFrom code steps next m := by
  rw [runFrom.eq_def]
  simp only [h, hcond, if_true, hnext]

theorem runFrom_step (h : code[pos]? = some i) (hi : i.isControl = false) :
    runFrom code (steps + 1) pos m =
      match m.step i with
      | .ok m => runFrom code steps (pos + 1) m
      | .error fault => { machine := m, fault := some fault } := by
  rw [runFrom.eq_def]
  simp only [h]
  cases i <;> first | rfl | cases hi

theorem traceFrom_hlt (h : code[pos]? = some .hlt) :
    traceFrom code (steps + 1) pos m = [(m, .hlt)] := by
  unfold traceFrom
  rw [h]

theorem traceFrom_pass (h : code[pos]? = some (.jump cond offset)) (hcond : m.holds cond = false) :
    traceFrom code (steps + 1) pos m =
      (m, .jump cond offset) :: traceFrom code steps (pos + 1) m := by
  rw [traceFrom.eq_def]
  simp only [h, hcond, Bool.false_eq_true, if_false]

theorem traceFrom_skip {next : Nat} (h : code[pos]? = some (.jump cond offset))
    (hcond : m.holds cond = true) (hnext : jumpTarget code pos offset = .ok next) :
    traceFrom code (steps + 1) pos m = (m, .jump cond offset) :: traceFrom code steps next m := by
  rw [traceFrom.eq_def]
  simp only [h, hcond, if_true, hnext]

theorem traceFrom_step {m' : Machine} (h : code[pos]? = some i) (hi : i.isControl = false)
    (hstep : m.step i = .ok m') :
    traceFrom code (steps + 1) pos m = (m, i) :: traceFrom code steps (pos + 1) m' := by
  rw [traceFrom.eq_def]
  simp only [h]
  cases i <;> first | contradiction | simp only [hstep]

end Step

/-- A run ends well if the stack is where it started. -/
theorem finish_of_sp {m : Machine} (h : m.sp = stackTop) : m.finish = { machine := m } := by
  rw [finish, if_pos h]

theorem sp_of_finish {m : Machine} (h : m.finish.fault = none) : m.sp = stackTop := by
  rw [finish] at h
  split at h
  next hsp => exact hsp
  next => cases h

variable {P : Machine → Instr → Prop} {code : List Instr}

/-- Where the jump at a position lands, and what is there. -/
theorem jumpTarget_of_skipsClear {pos : Nat} {cond : Cond} {offset : Int} (hcode : SkipsClear code)
    (h : code[pos]? = some (.jump cond offset)) :
    ∃ next rest, offset = 4 ∧ code.drop pos = .jump cond 4 :: .alu .xor .a :: rest ∧
      Machine.jumpTarget code pos offset = .ok next ∧ code.drop next = landing rest := by
  obtain ⟨rfl, hclear⟩ := hcode pos cond offset h
  have hlt := (List.getElem?_eq_some_iff.mp h).1
  have hdrop : code.drop pos = .jump cond 4 :: .alu .xor .a :: code.drop (pos + 2) := by
    rw [drop_of_getElem? h, drop_of_getElem? hclear]
  have hsplit : code = code.take pos ++ .jump cond 4 :: .alu .xor .a :: code.drop (pos + 2) := by
    rw [← hdrop, List.take_append_drop]
  obtain ⟨next, htarget, hnext⟩ := jumpTarget_skip hsplit
  rw [List.length_take_of_le (Nat.le_of_lt hlt)] at htarget
  exact ⟨next, _, rfl, hdrop, htarget, hnext⟩

/-- A run that has reached the end of the code has gone through all of it. -/
theorem exec_of_end {steps pos : Nat} {m : Machine} (hend : code[pos]? = none)
    (hok : (runFrom code steps pos m).fault = none) :
    (runFrom code steps pos m).machine.sp = stackTop ∧
      ∃ n ≤ steps, Exec P (code.drop pos) m n (runFrom code steps pos m).machine := by
  rw [runFrom_end hend] at hok ⊢
  rw [List.drop_eq_nil_of_le (List.getElem?_eq_none_iff.mp hend)]
  exact ⟨sp_of_finish hok, 0, Nat.zero_le _, .done m⟩

/-- A run that ends well goes through the code once. By induction on the steps; a jump lands right
behind the instruction that it goes over, so a run never goes back. -/
theorem exec_of_runFrom (hcode : SkipsClear code) {steps pos : Nat} {m : Machine}
    (hok : (runFrom code steps pos m).fault = none)
    (hp : ∀ e ∈ traceFrom code steps pos m, P e.1 e.2) :
    (runFrom code steps pos m).machine.sp = stackTop ∧
      ∃ n ≤ steps, Exec P (code.drop pos) m n (runFrom code steps pos m).machine := by
  induction steps generalizing pos m with
  | zero =>
    cases hi : code[pos]? with
    | none => exact exec_of_end hi hok
    | some i =>
      rw [runFrom_zero hi] at hok
      cases hok
  | succ steps ih =>
    cases hi : code[pos]? with
    | none => exact exec_of_end hi hok
    | some i =>
      cases hcontrol : i.isControl with
      | true =>
        cases i with
        | hlt =>
          rw [runFrom_hlt hi] at hok ⊢
          rw [traceFrom_hlt hi] at hp
          rw [drop_of_getElem? hi]
          exact ⟨sp_of_finish hok, 1, by omega, .halt (hp _ List.mem_cons_self)⟩
        | jump cond offset =>
          -- The target of a jump is counted in bytes; here it becomes a position in the code.
          obtain ⟨next, rest, rfl, hdrop, htarget, hnext⟩ := jumpTarget_of_skipsClear hcode hi
          cases hcond : m.holds cond with
          | true =>
            rw [runFrom_skip hi hcond htarget] at hok ⊢
            rw [traceFrom_skip hi hcond htarget] at hp
            obtain ⟨hsp, n, hn, hexec⟩ := ih hok fun e he => hp e (List.mem_cons_of_mem _ he)
            refine ⟨hsp, n + 1, Nat.succ_le_succ hn, ?_⟩
            rw [hdrop]
            exact .skip (hp _ List.mem_cons_self) hcond (hnext ▸ hexec)
          | false =>
            rw [runFrom_pass hi hcond] at hok ⊢
            rw [traceFrom_pass hi hcond] at hp
            obtain ⟨hsp, n, hn, hexec⟩ := ih hok fun e he => hp e (List.mem_cons_of_mem _ he)
            refine ⟨hsp, n + 1, Nat.succ_le_succ hn, ?_⟩
            rw [drop_of_getElem? hi]
            exact .pass (hp _ List.mem_cons_self) hcond hexec
        | _ => cases hcontrol
      | false =>
        rw [runFrom_step hi hcontrol] at hok ⊢
        cases hstep : m.step i with
        | error fault =>
          rw [hstep] at hok
          cases hok
        | ok m' =>
          rw [hstep] at hok
          rw [traceFrom_step hi hcontrol hstep] at hp
          obtain ⟨hsp, n, hn, hexec⟩ := ih hok fun e he => hp e (List.mem_cons_of_mem _ he)
          refine ⟨hsp, n + 1, Nat.succ_le_succ hn, ?_⟩
          rw [drop_of_getElem? hi]
          exact .step (hp _ List.mem_cons_self) hcontrol hstep hexec

/-- Going through the code once is what a run does, if it may take that many steps. By induction on
the way through the code, with the position that has been reached. -/
theorem runFrom_of_exec (hcode : SkipsClear code) {steps pos n : Nat} {m m' : Machine}
    (h : Exec P (code.drop pos) m n m') (hn : n ≤ steps) (hsp : m'.sp = stackTop) :
    runFrom code steps pos m = { machine := m' } := by
  generalize hrest : code.drop pos = rest at h
  induction h generalizing steps pos with
  | done m =>
    have hend : code[pos]? = none := by
      rw [List.getElem?_eq_none_iff]
      exact List.drop_eq_nil_iff.mp hrest
    rw [runFrom_end hend, finish_of_sp hsp]
  | @halt m rest _ =>
    obtain ⟨hi, _⟩ := getElem?_of_drop hrest
    obtain ⟨steps, rfl⟩ := Nat.exists_eq_add_of_le' hn
    rw [runFrom_hlt hi, finish_of_sp hsp]
  -- The position behind the instruction that is skipped, counted in bytes by the jump.
  | @skip m m' n cond rest _ hcond _ ih =>
    obtain ⟨hi, _⟩ := getElem?_of_drop hrest
    obtain ⟨next, rest', _, hdrop, htarget, hnext⟩ := jumpTarget_of_skipsClear hcode hi
    obtain ⟨steps, rfl⟩ := Nat.exists_eq_add_of_le' (Nat.le_trans (Nat.le_add_left 1 n) hn)
    rw [runFrom_skip hi hcond htarget]
    have : rest' = rest := by simpa [hdrop] using hrest
    exact ih (by omega) hsp (this ▸ hnext)
  | @pass m m' n cond offset rest _ hcond _ ih =>
    obtain ⟨hi, htail⟩ := getElem?_of_drop hrest
    obtain ⟨steps, rfl⟩ := Nat.exists_eq_add_of_le' (Nat.le_trans (Nat.le_add_left 1 n) hn)
    rw [runFrom_pass hi hcond]
    exact ih (by omega) hsp htail
  | @step m m₁ m' n i rest _ hcontrol hstep _ ih =>
    obtain ⟨hi, htail⟩ := getElem?_of_drop hrest
    obtain ⟨steps, rfl⟩ := Nat.exists_eq_add_of_le' (Nat.le_trans (Nat.le_add_left 1 n) hn)
    rw [runFrom_step hi hcontrol, hstep]
    exact ih (by omega) hsp htail

theorem exec_of_run (hcode : SkipsClear code) {m : Machine} (hok : (m.run code).fault = none)
    (hp : ∀ e ∈ m.trace code, P e.1 e.2) :
    (m.run code).machine.sp = stackTop ∧
      ∃ n ≤ maxSteps, Exec P code m n (m.run code).machine :=
  exec_of_runFrom hcode hok hp

/-- A way through the code that leaves the stack as it was is what the run does. -/
theorem run_of_exec (hcode : SkipsClear code) {n : Nat} {m m' : Machine}
    (h : Exec P code m n m') (hn : n ≤ maxSteps) (hsp : m'.sp = stackTop) :
    m.run code = { machine := m' } :=
  @runFrom_of_exec P code hcode maxSteps 0 n m m' h hn hsp

/-- What instructions of the code preserve holds of every machine in a trace. -/
theorem forall_mem_traceFrom {code : List Instr} {I : Machine → Prop}
    (hstep : ∀ (m m' : Machine) (i : Instr), i ∈ code → I m → m.step i = .ok m' → I m')
    {steps pos : Nat} {m : Machine} (hm : I m) :
    ∀ e ∈ traceFrom code steps pos m, e.2 ∈ code ∧ I e.1 := by
  fun_induction traceFrom code steps pos m with
  | case1 | case2 => exact List.forall_mem_nil _
  | case3 _ _ _ hi => exact List.forall_mem_singleton.mpr ⟨List.mem_of_getElem? hi, hm⟩
  | case4 pos m cond offset steps hi ihSkip ihPass =>
    refine List.forall_mem_cons.mpr ⟨⟨List.mem_of_getElem? hi, hm⟩, ?_⟩
    split
    · split
      · exact ihSkip _ hm
      · exact List.forall_mem_nil _
    · exact ihPass hm
  | case5 pos m i steps _ _ hi ih =>
    have hmem : i ∈ code := List.mem_of_getElem? hi
    refine List.forall_mem_cons.mpr ⟨⟨hmem, hm⟩, ?_⟩
    split
    next m' hm' => exact ih m' (hstep m m' i hmem hm hm')
    next => exact List.forall_mem_nil _

end Machine

end Accumulator
