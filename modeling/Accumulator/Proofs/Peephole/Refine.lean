import Accumulator.Proofs.Peephole.Discipline
import Accumulator.Proofs.Peephole.Rewrite

/-!
# The rewrites are refinements

Each rewrite is a refinement: whatever the old code does to a machine, in a run that keeps to the
discipline, the new code does too, in no more steps, up to bytes of the stack. Refinements compose
and may stand behind any front part, so the whole pass is one.
-/

namespace Accumulator.Peephole

open Machine

variable {region : Region} {m m₁ m' : Machine} {n : Nat} {code front mid rest : List Instr}

/-! ## Refinement -/

/-- The new code leaves the same memory outside the stack and the same stack pointer as the old
code, in no more steps. If the old code is nothing but comments, so is the new one. -/
structure Refines (region : Region) (code after : List Instr) : Prop where
  exec : ∀ {m m' : Machine} {n : Nat}, Exec (Obeys region) code m n m' →
    ∃ n' ≤ n, ∃ m'', Exec (Obeys region) after m n' m'' ∧ m''.sp = m'.sp ∧
      ∀ a, ¬region.stack a → m''.memory.read a = m'.memory.read a
  comments : code.all Instr.isComment = true → after.all Instr.isComment = true

namespace Refines

theorem refl (region : Region) (code : List Instr) : Refines region code code where
  exec h := ⟨_, Nat.le_refl _, _, h, rfl, fun _ _ => rfl⟩
  comments := id

theorem trans {x y z : List Instr} (hxy : Refines region x y) (hyz : Refines region y z) :
    Refines region x z where
  exec h := by
    obtain ⟨n₁, hn₁, m₁, h₁, hsp₁, hread₁⟩ := hxy.exec h
    obtain ⟨n₂, hn₂, m₂, h₂, hsp₂, hread₂⟩ := hyz.exec h₁
    exact ⟨n₂, Nat.le_trans hn₂ hn₁, m₂, h₂, hsp₂.trans hsp₁,
      fun a ha => (hread₂ a ha).trans (hread₁ a ha)⟩
  comments := hyz.comments ∘ hxy.comments

/-- An instruction in front that is no jump. -/
theorem cons {x y : List Instr} {i : Instr} (h : Refines region x y) (hi : i.isControl = false) :
    Refines region (i :: x) (i :: y) where
  exec hexec := by
    obtain ⟨n, m₁, rfl, hp, hstep, hexec⟩ := hexec.of_not_control hi
    obtain ⟨n', hn', m'', hexec', hsp, hread⟩ := h.exec hexec
    exact ⟨n' + 1, Nat.succ_le_succ hn', m'', .step hp hi hstep hexec', hsp, hread⟩
  comments := by
    simp only [List.all_cons, Bool.and_eq_true]
    exact fun ⟨hi, hx⟩ => ⟨hi, h.comments hx⟩

/-- Comments do nothing. -/
theorem eq_of_comments {P : Machine → Instr → Prop} (h : Exec P code m n m')
    (hcode : code.all Instr.isComment = true) : m' = m := by
  induction h with
  | done _ | halt _ => rfl
  | skip _ _ _ | pass _ _ _ => simp [Instr.isComment] at hcode
  | @step m m₁ m' n i rest _ _ hstep _ ih =>
    simp only [List.all_cons, Bool.and_eq_true] at hcode
    cases i with
    | comment _ =>
      cases hstep
      exact ih hcode.2
    | _ => cases hcode.1

/-- Where a jump lands, at most comments at the very end are missing, and these do nothing. -/
theorem exec_landing {P : Machine → Instr → Prop} (h : Exec P code m n m') :
    ∃ n' ≤ n, Exec P (landing code) m n' m' := by
  rw [landing]
  split
  next hcode =>
    obtain rfl := eq_of_comments h hcode
    exact ⟨0, Nat.zero_le n, .done _⟩
  next => exact ⟨n, Nat.le_refl n, h⟩

/-- A jump in front, with the instruction that it skips. If it is taken, what is left of both codes
runs as before; otherwise the skipped instruction comes first. -/
theorem jump {x y : List Instr} {cond : Cond} (h : Refines region x y) :
    Refines region (.jump cond 4 :: .alu .xor .a :: x) (.jump cond 4 :: .alu .xor .a :: y) where
  exec hexec := by
    cases hexec with
    | step _ hi => cases hi
    | pass hp hcond hexec =>
      obtain ⟨n', hn', m'', hexec', hsp, hread⟩ := (h.cons (i := .alu .xor .a) rfl).exec hexec
      exact ⟨n' + 1, Nat.succ_le_succ hn', m'', .pass hp hcond hexec', hsp, hread⟩
    | skip hp hcond hexec =>
      rw [landing] at hexec
      split at hexec
      next hx =>
        -- Nothing is left to run, and nothing is left of the new code either.
        refine ⟨_, Nat.le_refl _, _, .skip hp hcond ?_, rfl, fun _ _ => rfl⟩
        rwa [landing, if_pos (h.comments hx)]
      next =>
        obtain ⟨n₁, hn₁, m₁, hexec₁, hsp, hread⟩ := h.exec hexec
        obtain ⟨n₂, hn₂, hexec₂⟩ := exec_landing hexec₁
        exact ⟨n₂ + 1, Nat.succ_le_succ (Nat.le_trans hn₂ hn₁), m₁, .skip hp hcond hexec₂, hsp,
          hread⟩
  comments := by simp [Instr.isComment]

/-- Behind a halt nothing matters. -/
theorem hlt (region : Region) (x y : List Instr) : Refines region (.hlt :: x) (.hlt :: y) where
  exec hexec := by
    cases hexec with
    | halt hp => exact ⟨1, Nat.le_refl 1, _, .halt hp, rfl, fun _ _ => rfl⟩
    | step _ hi => cases hi
  comments := by simp [Instr.isComment]

/-- Any front part whose jumps stay in it. -/
theorem append_left {x y : List Instr} (h : Refines region x y) :
    ∀ {front : List Instr}, SkipsClear front → Refines region (front ++ x) (front ++ y)
  | [], _ => h
  | i :: front, hfront => by
    cases i with
    | jump cond offset =>
      obtain ⟨rfl, front, rfl⟩ := hfront.of_jump
      exact (append_left h hfront.tail.tail).jump
    | hlt => exact hlt region _ _
    | _ => exact (append_left h hfront.tail).cons rfl
termination_by front => front.length

end Refines

/-! ## Running through a window -/

/-- Comments in front of the code take one step each. -/
theorem exec_comments (hmid : AllComments mid) (h : Exec (Obeys region) (mid ++ rest) m n m') :
    ∃ n', n = mid.length + n' ∧ Exec (Obeys region) rest m n' m' := by
  induction mid generalizing n with
  | nil => exact ⟨n, by simp, h⟩
  | cons i mid ih =>
    have hi := hmid i List.mem_cons_self
    cases i with
    | comment text =>
      obtain ⟨n, m₁, rfl, _, hstep, h⟩ := h.of_not_control rfl
      cases hstep
      obtain ⟨n', rfl, hexec⟩ := ih (fun i hi => hmid i (List.mem_cons_of_mem _ hi)) h
      exact ⟨n', by rw [List.length_cons]; omega, hexec⟩
    | _ => cases hi

/-- Comments in front take steps, and ask for the stack pointer only. -/
theorem exec_comments_append (hmid : AllComments mid) (h : Exec (Obeys region) rest m n m')
    (hsp : region.stack m.sp) (heven : m.sp.toNat % 2 = 0) :
    Exec (Obeys region) (mid ++ rest) m (mid.length + n) m' := by
  induction mid with
  | nil => simpa using h
  | cons i mid ih =>
    have hi := hmid i List.mem_cons_self
    cases i with
    | comment text =>
      have hrest := ih fun i hi => hmid i (List.mem_cons_of_mem _ hi)
      rw [List.length_cons, show mid.length + 1 + n = mid.length + n + 1 by omega]
      exact .step (obeys_of_outside hsp heven nofun rfl rfl nofun) rfl rfl hrest
    | _ => cases hi

/-- An instruction that changes nothing may go, if what makes it do nothing is kept up to it. -/
theorem exec_without_noop {P : Machine → Instr → Prop} {Q : Machine → Prop} {t : Instr}
    (ht : t.isControl = false) (hnoop : ∀ m, Q m → m.step t = .ok m)
    (hmid : ∀ i ∈ mid, i.isBarrier = false ∧
      ∀ m m₁ : Machine, Q m → m.execute i = .ok m₁ → Q m₁)
    (hm : Q m) (h : Exec P (mid ++ t :: rest) m n m') :
    ∃ n' ≤ n, Exec P (mid ++ rest) m n' m' := by
  induction mid generalizing m n with
  | nil =>
    obtain ⟨n, m₁, rfl, _, hstep, h⟩ := h.of_not_control ht
    rw [hnoop m hm] at hstep
    cases hstep
    exact ⟨n, Nat.le_succ n, h⟩
  | cons i mid ih =>
    obtain ⟨hbarrier, hkeep⟩ := hmid i List.mem_cons_self
    have hi := isControl_of_not_barrier hbarrier
    obtain ⟨n, m₁, rfl, hp, hstep, h⟩ := h.of_not_control hi
    have hm₁ : Q m₁ := hkeep m m₁ hm (by rwa [← step_eq_execute hbarrier])
    obtain ⟨n', hn', hexec⟩ := ih (fun i hi => hmid i (List.mem_cons_of_mem _ hi)) hm₁ h
    exact ⟨n' + 1, Nat.succ_le_succ hn', .step hp hi hstep hexec⟩

/-- An instruction behind another one that makes it do nothing may go. -/
theorem refines_of_noop {Q : Machine → Prop} {i t : Instr} (hi : i.isControl = false)
    (ht : t.isControl = false) (hcomment : i.isComment = false)
    (hmakes : ∀ m m₁ : Machine, m.step i = .ok m₁ → Q m₁)
    (hnoop : ∀ m, Q m → m.step t = .ok m)
    (hmid : ∀ i ∈ mid, i.isBarrier = false ∧
      ∀ m m₁ : Machine, Q m → m.execute i = .ok m₁ → Q m₁) :
    Refines region (i :: (mid ++ [t]) ++ rest) (i :: mid ++ rest) where
  exec h := by
    simp only [List.cons_append, List.append_assoc] at h
    obtain ⟨n, m₁, rfl, hp, hstep, h⟩ := h.of_not_control hi
    obtain ⟨n', hn', hexec⟩ := exec_without_noop ht hnoop hmid (hmakes _ m₁ hstep) h
    exact ⟨n' + 1, Nat.succ_le_succ hn', _, .step hp hi hstep hexec, rfl, fun _ _ => rfl⟩
  comments := by simp [hcomment]

/-! ## Instructions that change nothing -/

/-- Instructions that keep some registers keep what depends on these and on the addresses of
variables only. -/
theorem keep_of_keeps {regs : List Reg} {Q : Machine → Prop} (hregs : .m ∉ regs)
    (hmid : Keeps regs mid)
    (hQ : ∀ m m₁ : Machine, (∀ r ∈ regs, m₁.registers.get r = m.registers.get r) →
      m₁.addresses = m.addresses → Q m → Q m₁) :
    ∀ i ∈ mid, i.isBarrier = false ∧
      ∀ m m₁ : Machine, Q m → m.execute i = .ok m₁ → Q m₁ := by
  intro i hi
  obtain ⟨hbarrier, hwrites⟩ := hmid i hi
  refine ⟨hbarrier, fun m m₁ hm hexec => hQ m m₁ (fun r hr => ?_) (execute_addresses hexec) hm⟩
  exact execute_register hexec (fun h => hregs (h ▸ hr)) (hwrites r hr)

/-- The same for what depends on memory too. -/
theorem keep_of_keeps_memory {regs : List Reg} {Q : Machine → Prop} (hregs : .m ∉ regs)
    (hmid : Keeps regs mid) (hmemory : ∀ i ∈ mid, i.writesMemory = false)
    (hQ : ∀ m m₁ : Machine, (∀ r ∈ regs, m₁.registers.get r = m.registers.get r) →
      m₁.addresses = m.addresses → m₁.memory = m.memory → Q m → Q m₁) :
    ∀ i ∈ mid, i.isBarrier = false ∧
      ∀ m m₁ : Machine, Q m → m.execute i = .ok m₁ → Q m₁ := by
  intro i hi
  obtain ⟨hbarrier, hwrites⟩ := hmid i hi
  refine ⟨hbarrier, fun m m₁ hm hexec =>
    hQ m m₁ (fun r hr => ?_) (execute_addresses hexec) ?_ hm⟩
  · exact execute_register hexec (fun h => hregs (h ▸ hr)) (hwrites r hr)
  · rw [execute_memory hexec hbarrier, stores_eq_nil (hmemory i hi) hbarrier]
    rfl

/-- A load of the accumulator from where it was just stored, or loaded from, may go: the accumulator
and memory are kept in between. -/
theorem refines_reload {address : Imm} {anchor : Instr}
    (hanchor : anchor = .sta address ∨ anchor = .lda address) (hmid : Keeps [.a] mid)
    (hmemory : ∀ i ∈ mid, i.writesMemory = false) :
    Refines region (anchor :: (mid ++ [.lda address]) ++ rest) (anchor :: mid ++ rest) := by
  refine refines_of_noop
    (Q := fun m => ∃ x, m.imm address = .ok x ∧ m.registers.a = m.memory.read x) ?_ rfl ?_ ?_ ?_ ?_
  · rcases hanchor with rfl | rfl <;> rfl
  · rcases hanchor with rfl | rfl <;> rfl
  · intro m m₁ hstep
    rcases hanchor with rfl | rfl
    · obtain ⟨x, hx, hstep⟩ := exists_ok_of_bind hstep
      cases hstep
      exact ⟨x, hx, (Memory.read_write_self _ _ _).symm⟩
    · obtain ⟨x, hx, hstep⟩ := exists_ok_of_bind hstep
      cases hstep
      exact ⟨x, hx, rfl⟩
  · intro m ⟨x, hx, ha⟩
    simp only [step, execute, hx, bind, Except.bind, ← ha]
    rfl
  · refine keep_of_keeps_memory (by decide) hmid hmemory fun m m₁ hregs haddresses hmem hm => ?_
    obtain ⟨x, hx, ha⟩ := hm
    have ha₁ : m₁.registers.a = m.registers.a := hregs .a (List.mem_singleton_self _)
    exact ⟨x, by rw [imm_of_addresses haddresses, hx], by rw [ha₁, ha, hmem]⟩

/-- HL depends on its two registers only. -/
theorem hl_of_registers {m m₁ : Machine}
    (h : ∀ r ∈ [Reg.h, Reg.l], m₁.registers.get r = m.registers.get r) : m₁.hl = m.hl := by
  have hh : m₁.registers.h = m.registers.h := h .h (by decide)
  have hl : m₁.registers.l = m.registers.l := h .l (by decide)
  rw [Machine.hl, Machine.hl, hh, hl]

/-- A word that was just stored from HL, or loaded into it, need not be loaded again, if neither HL
nor memory was written since. -/
theorem refines_reloadPair {address : Imm} {anchor : Instr}
    (hanchor : anchor = .shld address ∨ anchor = .lhld address) (hmid : Keeps [.h, .l] mid)
    (hmemory : ∀ i ∈ mid, i.writesMemory = false) :
    Refines region (anchor :: (mid ++ [.lhld address]) ++ rest) (anchor :: mid ++ rest) := by
  refine refines_of_noop
    (Q := fun m => ∃ x, m.imm address = .ok x ∧ m.memory.readWord x = m.hl) ?_ rfl ?_ ?_ ?_ ?_
  · rcases hanchor with rfl | rfl <;> rfl
  · rcases hanchor with rfl | rfl <;> rfl
  · intro m m₁ hstep
    rcases hanchor with rfl | rfl
    · obtain ⟨x, hx, hstep⟩ := exists_ok_of_bind hstep
      cases hstep
      exact ⟨x, hx, Memory.readWord_writeWord_self _ _ _⟩
    · obtain ⟨x, hx, hstep⟩ := exists_ok_of_bind hstep
      cases hstep
      exact ⟨x, hx, (pair_setPair (p := .h) rfl).symm⟩
  · intro m ⟨x, hx, hword⟩
    simp only [step, execute, hx, bind, Except.bind, hword]
    exact congrArg Except.ok (setPair_pair (p := .h) rfl)
  · refine keep_of_keeps_memory (by decide) hmid hmemory fun m m₁ hregs haddresses hmem hm => ?_
    obtain ⟨x, hx, hword⟩ := hm
    exact ⟨x, by rw [imm_of_addresses haddresses, hx], by rw [hmem, hword, hl_of_registers hregs]⟩

/-- Loading a register with the immediate that it holds may go. -/
theorem refines_repeatByte {r : Reg} {v : Byte} (hr : r ≠ .m) (hmid : Keeps [r] mid) :
    Refines region (.mvi r v :: (mid ++ [.mvi r v]) ++ rest) (.mvi r v :: mid ++ rest) := by
  refine refines_of_noop (Q := fun m => m.registers.get r = v) rfl rfl rfl ?_ ?_ ?_
  · intro m m₁ hstep
    cases hstep
    exact registers_get_set hr
  · intro m hm
    rw [← hm]
    exact congrArg Except.ok (set_get_self m hr)
  · refine keep_of_keeps (by simpa using hr.symm) hmid fun m m₁ hregs _ hm => ?_
    rw [hregs r (List.mem_singleton_self _), hm]

/-- The same for a pair, whose immediate may be an address. -/
theorem refines_repeatWord {p : Pair} {high low : Reg} {v : Imm}
    (hp : p.halves? = some (high, low)) (hmid : Keeps [high, low] mid) :
    Refines region (.lxi p v :: (mid ++ [.lxi p v]) ++ rest) (.lxi p v :: mid ++ rest) := by
  have hgeneral := Pair.isGeneral_of_halves? hp
  refine refines_of_noop (Q := fun m => m.imm v = .ok (m.pair p)) rfl rfl rfl ?_ ?_ ?_
  · intro m m₁ hstep
    obtain ⟨x, hx, hstep⟩ := exists_ok_of_bind hstep
    cases hstep
    rw [pair_setPair hgeneral, imm_of_addresses (addresses_setPair m p x), hx]
  · intro m hm
    simp only [step, execute, hm, bind, Except.bind]
    exact congrArg Except.ok (setPair_pair hgeneral)
  · refine keep_of_keeps ?_ hmid fun m m₁ hregs haddresses hm => ?_
    · cases p <;> cases hp <;> decide
    · rw [imm_of_addresses haddresses, hm, pair_of_halves? hp, pair_of_halves? hp,
        hregs high (by simp), hregs low (by simp)]

/-- A move between registers that a move has made equal may go. -/
theorem refines_copy {dst src : Reg} {anchor : Instr}
    (hanchor : anchor = .mov src dst ∨ anchor = .mov dst src) (hdst : dst ≠ .m) (hsrc : src ≠ .m)
    (hmid : Keeps [dst, src] mid) :
    Refines region (anchor :: (mid ++ [.mov dst src]) ++ rest) (anchor :: mid ++ rest) := by
  refine refines_of_noop
    (Q := fun m => m.registers.get dst = m.registers.get src) ?_ rfl ?_ ?_ ?_ ?_
  · rcases hanchor with rfl | rfl <;> rfl
  · rcases hanchor with rfl | rfl <;> rfl
  · intro m m₁ hstep
    rcases hanchor with rfl | rfl
    · cases hstep
      cases dst <;> cases src <;> first | contradiction | rfl
    · cases hstep
      cases dst <;> cases src <;> first | contradiction | rfl
  · intro m hm
    have hget : m.get src = m.registers.get dst := by
      rw [hm]
      cases src <;> first | contradiction | rfl
    simp only [step, execute, hget]
    exact congrArg Except.ok (set_get_self m hdst)
  · refine keep_of_keeps (by simp [hdst.symm, hsrc.symm]) hmid fun m m₁ hregs _ hm => ?_
    rw [hregs dst (by simp), hregs src (by simp), hm]

/-! ## Dead registers -/

theorem ne_m_of_isWork {r : Reg} (h : r.isWork = true) : r ≠ .m := by
  rintro rfl
  cases h

theorem ne_a_of_isWork {r : Reg} (h : r.isWork = true) : r ≠ .a := by
  rintro rfl
  cases h

/-- Two machines that differ in registers that are dead in what follows. -/
inductive SameFor (rest : List Instr) (m : Machine) : Machine → Prop where
  | refl : SameFor rest m m
  | set {m₁ : Machine} {r : Reg} (h : SameFor rest m m₁) (x : Byte) (hr : r ≠ .m)
      (hdead : isDead r rest = true) : SameFor rest m (m₁.set r x)

theorem SameFor.of_eq {m₂ : Machine} (h : SameFor rest m m₁) (heq : m₁ = m₂) :
    SameFor rest m m₂ :=
  heq ▸ h

/-- A machine with another byte in a dead register is as good for what follows. -/
theorem SameFor.of_set (r : Reg) (x : Byte) (h : m.set r x = m₁) (hr : r ≠ .m)
    (hdead : isDead r rest = true) : SameFor rest m m₁ :=
  (SameFor.refl.set x hr hdead).of_eq h

theorem SameFor.sp (h : SameFor rest m m₁) : m₁.sp = m.sp := by
  induction h with
  | refl => rfl
  | set _ x _ _ ih => rw [sp_set, ih]

/-- What follows runs on either machine, to the same memory and the same stack pointer. -/
theorem SameFor.exec (hsame : SameFor rest m m₁) (h : Exec (Obeys region) rest m n m') :
    ∃ m'', Exec (Obeys region) rest m₁ n m'' ∧ m''.memory = m'.memory ∧ m''.sp = m'.sp := by
  induction hsame with
  | refl => exact ⟨m', h, rfl, rfl⟩
  | set _ x hr hdead ih =>
    obtain ⟨m₂, hexec, hmemory, hsp⟩ := ih
    obtain ⟨m₃, hexec', hmemory', hsp'⟩ := exec_set_of_isDead hexec x hr hdead
    exact ⟨m₃, hexec', hmemory'.trans hmemory, hsp'.trans hsp⟩

/-- Loading a dead register may go. -/
theorem refines_dead {r : Reg} {i : Instr}
    (hi : (∃ src, i = .mov r src) ∨ ∃ value, i = .mvi r value) (hr : r.isWork = true)
    (hdead : isDead r rest = true) : Refines region ([i] ++ rest) ([] ++ rest) where
  exec {m m' n} h := by
    have hne := ne_m_of_isWork hr
    obtain ⟨n, m₁, rfl, hp, hstep, h⟩ :=
      h.of_not_control (by rcases hi with ⟨_, rfl⟩ | ⟨_, rfl⟩ <;> rfl)
    obtain ⟨x, rfl⟩ : ∃ x, m₁ = m.set r x := by
      rcases hi with ⟨src, rfl⟩ | ⟨v, rfl⟩ <;> cases hstep <;> exact ⟨_, rfl⟩
    obtain ⟨m'', hexec, hmemory, hsp⟩ := exec_set_of_isDead h (m.registers.get r) hne hdead
    rw [set_set_self hne, set_get_self m hne] at hexec
    exact ⟨n, Nat.le_succ n, m'', hexec, hsp, fun a _ => by rw [hmemory]⟩
  comments := by rcases hi with ⟨_, rfl⟩ | ⟨_, rfl⟩ <;> simp [Instr.isComment]

/-! ## Two instructions with comments between them -/

/-- Two instructions with comments between them are run one after the other. -/
theorem exec_pair {i j : Instr} (hi : i.isControl = false) (hj : j.isControl = false)
    (hmid : AllComments mid)
    (h : Exec (Obeys region) (i :: (mid ++ [j]) ++ rest) m n m') :
    ∃ n₂ m₁ m₂, n = mid.length + n₂ + 2 ∧ Obeys region m i ∧ m.step i = .ok m₁ ∧
      Obeys region m₁ j ∧ m₁.step j = .ok m₂ ∧ Exec (Obeys region) rest m₂ n₂ m' := by
  simp only [List.cons_append, List.append_assoc] at h
  obtain ⟨n₁, m₁, rfl, hp, hstep, hexec₁⟩ := h.of_not_control hi
  obtain ⟨n₂, rfl, hexec₂⟩ := exec_comments hmid hexec₁
  obtain ⟨n₃, m₂, rfl, hp₁, hstep₁, hexec₃⟩ := hexec₂.of_not_control hj
  exact ⟨n₃, m₁, m₂, by omega, hp, hstep, hp₁, hstep₁, hexec₃⟩

/-- They may be replaced by one that leaves the same machine. -/
theorem refines_one {i j k : Instr} (hi : i.isControl = false) (hj : j.isControl = false)
    (hcomment : i.isComment = false) (hk : k.isControl = false) (hmid : AllComments mid)
    (hsame : ∀ m m₁ m₂ : Machine, Obeys region m i → m.step i = .ok m₁ → Obeys region m₁ j →
      m₁.step j = .ok m₂ → Obeys region m k ∧ m₂.sp = m.sp ∧
        ∃ m₃, m.step k = .ok m₃ ∧ SameFor rest m₂ m₃) :
    Refines region (i :: (mid ++ [j]) ++ rest) (k :: mid ++ rest) where
  exec {m m' n} h := by
    obtain ⟨n, m₁, m₂, rfl, hp, hstep, hp₁, hstep₁, hexec⟩ := exec_pair hi hj hmid h
    obtain ⟨hk', hsp₂, m₃, hstepk, hsame⟩ := hsame m m₁ m₂ hp hstep hp₁ hstep₁
    obtain ⟨m'', hexec', hmemory, hsp⟩ := hsame.exec hexec
    have hsp₃ : m₃.sp = m.sp := hsame.sp.trans hsp₂
    have hmid' := exec_comments_append hmid hexec' (hsp₃ ▸ hp.sp) (hsp₃ ▸ hp.even)
    exact ⟨_, by omega, m'', .step hk' hk hstepk hmid', hsp, fun a _ => by rw [hmemory]⟩
  comments := by simp [hcomment]

/-- They may go if they leave the machine as it is. -/
theorem refines_none {i j : Instr} (hi : i.isControl = false) (hj : j.isControl = false)
    (hcomment : i.isComment = false) (hmid : AllComments mid)
    (hsame : ∀ m m₁ m₂ : Machine, Obeys region m i → m.step i = .ok m₁ →
      m₁.step j = .ok m₂ → SameFor rest m₂ m) :
    Refines region (i :: (mid ++ [j]) ++ rest) (mid ++ rest) where
  exec {m m' n} h := by
    obtain ⟨n, m₁, m₂, rfl, hp, hstep, hp₁, hstep₁, hexec⟩ := exec_pair hi hj hmid h
    obtain ⟨m'', hexec', hmemory, hsp⟩ := (hsame m m₁ m₂ hp hstep hstep₁).exec hexec
    have hmid' := exec_comments_append hmid hexec' hp.sp hp.even
    exact ⟨_, by omega, m'', hmid', hsp, fun a _ => by rw [hmemory]⟩
  comments := by simp [hcomment]

/-- An immediate may go to its register directly, if the accumulator is dead behind it. -/
theorem refines_fuseByte {dst : Reg} {v : Byte} (hdst : dst ≠ .a) (hmid : AllComments mid)
    (hdead : isDead .a rest = true) :
    Refines region (.mvi .a v :: (mid ++ [.mov dst .a]) ++ rest) (.mvi dst v :: mid ++ rest) := by
  refine refines_one rfl rfl rfl rfl hmid fun m m₁ m₂ hp hstep hp₁ hstep₁ => ?_
  cases hstep
  cases hstep₁
  refine ⟨obeys_of_outside hp.sp hp.even nofun rfl rfl fun a ha => hp₁.outside rfl a ?_, ?_, _,
    rfl, ?_⟩
  · cases dst <;> exact ha
  · rw [sp_set, sp_set]
  · refine .of_set .a m.registers.a ?_ (by decide) hdead
    cases dst <;> first | contradiction | rfl

/-- A byte may go from register to register directly, if the accumulator is dead behind it. -/
theorem refines_fuseMove {dst s : Reg} (hdst : dst ≠ .a) (hmid : AllComments mid)
    (hdead : isDead .a rest = true) :
    Refines region (.mov .a s :: (mid ++ [.mov dst .a]) ++ rest) (.mov dst s :: mid ++ rest) := by
  refine refines_one rfl rfl rfl rfl hmid fun m m₁ m₂ hp hstep hp₁ hstep₁ => ?_
  cases hstep
  cases hstep₁
  refine ⟨obeys_of_outside hp.sp hp.even nofun rfl rfl fun a ha => ?_, ?_, _, rfl, ?_⟩
  · rcases List.mem_append.mp ha with ha | ha
    · exact hp.outside rfl a (List.mem_append_left _ ha)
    · refine hp₁.outside rfl a (List.mem_append_right _ ?_)
      cases dst <;> exact ha
  · rw [sp_set, sp_set]
  · refine .of_set .a m.registers.a ?_ (by decide) hdead
    cases dst <;> first | contradiction | rfl

/-- A byte that goes to the accumulator and back stays where it was, and both moves may go. -/
theorem refines_fuseBack {s : Reg} (hmid : AllComments mid) (hdead : isDead .a rest = true) :
    Refines region (.mov .a s :: (mid ++ [.mov s .a]) ++ rest) (mid ++ rest) := by
  refine refines_none rfl rfl rfl hmid fun m m₁ m₂ _ hstep hstep₁ => ?_
  cases hstep
  cases hstep₁
  refine .of_set .a m.registers.a ?_ (by decide) hdead
  cases s with
  | m => exact congrArg (fun memory => { m with memory }) (Memory.write_read_self m.memory m.hl)
  | _ => rfl

/-- A pair that is loaded and then exchanged may be loaded where it ends up. The exchange also
brings the old contents of that place to the pair, and these must be dead. -/
theorem refines_exchangeFresh {p q : Pair} {high low : Reg} {v : Imm}
    (hpq : exchanged? p = some q) (hp : p.halves? = some (high, low)) (hmid : AllComments mid)
    (hhigh : isDead high rest = true) (hlow : isDead low rest = true) :
    Refines region (.lxi p v :: (mid ++ [.xchg]) ++ rest) (.lxi q v :: mid ++ rest) := by
  refine refines_one rfl rfl rfl rfl hmid fun m m₁ m₂ hobeys hstep _ hstep₁ => ?_
  obtain ⟨x, hx, hstep⟩ := exists_ok_of_bind hstep
  cases hstep
  cases hstep₁
  refine ⟨obeys_of_outside hobeys.sp hobeys.even ?_ rfl rfl nofun, ?_, m.setPair q x, ?_, ?_⟩
  · intro q' hq'
    cases hq'
    cases p <;> cases hpq <;> rfl
  · rw [sp_setPair (by decide), sp_setPair (by decide), sp_setPair]
    rintro rfl
    cases hp
  · simp only [step, execute, hx, bind, Except.bind]
    rfl
  · -- The exchange leaves the old contents of `q` in `p`; these are the dead registers.
    cases p with
    | d =>
      cases hpq
      cases hp
      have hpair : (m.setPair .d x).pair .d = x := pair_setPair rfl
      rw [hpair]
      exact ((SameFor.refl.set m.registers.d (by decide) hhigh).set m.registers.e (by decide)
        hlow).of_eq rfl
    | h =>
      cases hpq
      cases hp
      have hpair : (m.setPair .h x).pair .h = x := pair_setPair rfl
      rw [hpair]
      refine ((SameFor.refl.set m.registers.h (by decide) hhigh).set m.registers.l (by decide)
        hlow).of_eq rfl
    | b | sp | psw => cases hpq

theorem refines_exchangeTwice (hmid : AllComments mid) :
    Refines region (.xchg :: (mid ++ [.xchg]) ++ rest) (mid ++ rest) := by
  refine refines_none rfl rfl rfl hmid fun m m₁ m₂ _ hstep hstep₁ => ?_
  cases hstep
  cases hstep₁
  refine SameFor.refl.of_eq ?_
  simp only [setPair, pair, hl, high_of_append, low_of_append]

/-- A step up and a step down of a pair undo each other, modulo 2^16. -/
theorem refines_upDown {p : Pair} {i j : Instr}
    (hij : i = .dcx p ∧ j = .inx p ∨ i = .inx p ∧ j = .dcx p) (hmid : AllComments mid) :
    Refines region (i :: (mid ++ [j]) ++ rest) (mid ++ rest) := by
  rcases hij with ⟨rfl, rfl⟩ | ⟨rfl, rfl⟩
  · refine refines_none rfl rfl rfl hmid fun m m₁ m₂ hp hstep hstep₁ => ?_
    cases hstep
    cases hstep₁
    have hgeneral := hp.pair p rfl
    rw [pair_setPair hgeneral, setPair_setPair hgeneral, BitVec.sub_add_cancel,
      setPair_pair hgeneral]
    exact .refl
  · refine refines_none rfl rfl rfl hmid fun m m₁ m₂ hp hstep hstep₁ => ?_
    cases hstep
    cases hstep₁
    have hgeneral := hp.pair p rfl
    rw [pair_setPair hgeneral, setPair_setPair hgeneral, BitVec.add_sub_cancel,
      setPair_pair hgeneral]
    exact .refl

/-- A commutative operation gives the same result and the same flags with its operands exchanged. -/
theorem aluResult_comm {op : AluOp} (h : op.isCommutative = true) (x y : Byte) :
    aluResult op x y = aluResult op y x := by
  cases op with
  | add => simp only [aluResult, BitVec.add_comm x y, BitVec.uaddOverflow, Nat.add_comm x.toNat]
  | and => simp only [aluResult, BitVec.and_comm x y]
  | or => simp only [aluResult, BitVec.or_comm x y]
  | xor => simp only [aluResult, BitVec.xor_comm x y]
  | sub | cmp => cases h

/-- The accumulator and an operand, exchanged. -/
theorem alu_comm {op : AluOp} (m : Machine) (x : Byte) (hop : op.isCommutative = true) :
    (m.set .a x).alu op m.registers.a = m.alu op x := by
  have hcomm : aluResult op (m.set .a x).registers.a m.registers.a =
      aluResult op m.registers.a x := aluResult_comm hop x m.registers.a
  have hcmp : op ≠ .cmp := by
    rintro rfl
    cases hop
  simp only [alu, hcomm, if_neg hcmp]
  rfl

/-- The same through a register, which then holds the old accumulator. -/
theorem alu_exchanged {op : AluOp} {r : Reg} (m : Machine) (x : Byte)
    (hop : op.isCommutative = true) (hr : r.isWork = true) :
    (((m.set r m.registers.a).set .a x).alu op m.registers.a).set r (m.registers.get r) =
      m.alu op x := by
  have hne := ne_m_of_isWork hr
  have hna := ne_a_of_isWork hr
  have hkeeps : (m.alu op x).registers.get r = m.registers.get r := by
    cases r <;> cases op <;> first | contradiction | rfl
  calc (((m.set r m.registers.a).set .a x).alu op m.registers.a).set r (m.registers.get r)
      = (((m.set .a x).set r m.registers.a).alu op m.registers.a).set r (m.registers.get r) := by
        rw [set_set_of_not_target (q := .a) hne List.not_mem_nil,
          if_neg (by simpa [Reg.targetWrites] using hna)]
    _ = ((m.set .a x).alu op m.registers.a).set r (m.registers.get r) := by
        rw [alu_set hne hna, set_set_self hne]
    _ = (m.alu op x).set r ((m.alu op x).registers.get r) := by rw [alu_comm m x hop, hkeeps]
    _ = m.alu op x := set_get_self _ hne

/-- A commutative operation may take its operands the other way round, which saves two moves. The
register that held the old accumulator must be dead. -/
theorem refines_commute {op : AluOp} {r s : Reg} (hop : op.isCommutative = true)
    (hr : r.isWork = true) (hsa : s ≠ .a) (hsr : s ≠ r) (hmid : AllComments mid)
    (hdead : isDead r rest = true) :
    Refines region (.mov r .a :: .mov .a s :: (mid ++ [.alu op r]) ++ rest)
      (mid ++ [.alu op s] ++ rest) where
  exec {m m' n} h := by
    rw [List.cons_append] at h
    obtain ⟨n₁, m₁, rfl, hp, hstep, hexec₁⟩ := h.of_not_control rfl
    obtain ⟨n₂, m₂, m₃, rfl, hp₁, hstep₁, hp₂, hstep₂, hexec₂⟩ := exec_pair rfl rfl hmid hexec₁
    cases hstep
    cases hstep₁
    cases hstep₂
    have hne := ne_m_of_isWork hr
    -- The second operand is not the register that is overwritten, nor behind it.
    have hsource : r ∉ s.sourceReads := by
      cases s <;> cases r <;> first | exact absurd rfl hsr | cases hr; done | decide
    have hread : (m.set r (m.get .a)).get s = m.get s := get_set_of_not_source hne hsource
    have hback : ((m.set r (m.get .a)).set .a (m.get s)).get r = m.registers.a := by
      cases r <;> first | cases hr; done | rfl
    rw [hread, hback] at hexec₂
    -- Both machines have the same result and flags; they differ in the register, which is dead.
    have hsame : SameFor rest (((m.set r (m.get .a)).set .a (m.get s)).alu op m.registers.a)
        (m.alu op (m.get s)) :=
      .of_set r (m.registers.get r) (alu_exchanged m (m.get s) hop hr) hne hdead
    obtain ⟨m'', hexec', hmemory, hsp⟩ := hsame.exec hexec₂
    have hobeys : Obeys region m (.alu op s) := by
      refine obeys_of_outside hp.sp hp.even nofun rfl rfl fun a ha => hp₁.outside rfl a ?_
      cases s <;> cases r <;> first | exact ha | cases hr
    have hmid' := exec_comments_append hmid (.step hobeys rfl rfl hexec') hp.sp hp.even
    rw [List.append_cons] at hmid'
    exact ⟨_, by omega, m'', hmid', hsp, fun a _ => by rw [hmemory]⟩
  comments := by simp [Instr.isComment]

/-! ## The stack -/

/-- A pair that is pushed and popped is as it was, and so is all but memory. -/
theorem pop_push {p : Pair} {m₂ : Machine} (hp : p.isGeneral = true)
    (hpush : m.step (.push p) = .ok m₁) (hpop : m₁.step (.pop p) = .ok m₂) :
    m₂ = { m with memory := m.memory.writeWord (m.sp - 2) (m.pair p) } := by
  cases hpush
  cases hpop
  simp only [push, Memory.readWord_writeWord_self, BitVec.sub_add_cancel, setPair_withMemory,
    setPair_pair hp]

/-- The bytes of a word that was pushed and popped are below the stack pointer. -/
theorem stale_of_pushed {p : Pair} (hp : Obeys region m (.push p))
    (hlow : region.stack (m.sp - 2)) :
    Stale region { m with memory := m.memory.writeWord (m.sp - 2) (m.pair p) } m.memory := by
  intro a
  by_cases ha : a = m.sp - 2 ∨ a = m.sp - 2 + 1
  · have hwrap : m.sp ≠ 0 := of_decide_eq_false hp.noWrap
    have heven := hp.even
    have hlt : m.sp - 2 ≤ a ∧ a < m.sp := by rcases ha with rfl | rfl <;> bv_omega
    exact .inr ⟨region.convex hlow hp.sp hlt.1 (BitVec.le_of_lt hlt.2), hlt.2⟩
  · rw [not_or] at ha
    refine .inl ?_
    simp only [Memory.writeWord, Memory.read_write_of_ne _ _ ha.1, Memory.read_write_of_ne _ _ ha.2]

/-- A push and a pop of the same pair may go. They leave the pushed word below the stack pointer,
where it is stale. -/
theorem refines_pushPop {p : Pair} (hmid : AllComments mid) :
    Refines region (.push p :: (mid ++ [.pop p]) ++ rest) (mid ++ rest) where
  exec {m m' n} h := by
    obtain ⟨n, m₁, m₂, rfl, hp, hstep, hp₁, hstep₁, hexec⟩ := exec_pair rfl rfl hmid h
    obtain rfl := pop_push (hp.pair p rfl) hstep hstep₁
    cases hstep
    obtain ⟨memory', hexec', hstale⟩ := exec_of_stale hexec (stale_of_pushed hp hp₁.sp)
    have hmid' := exec_comments_append hmid hexec' hp.sp hp.even
    refine ⟨_, by omega, _, hmid', rfl, fun a ha => ?_⟩
    rcases hstale a with hread | ⟨hstack, _⟩
    · exact hread
    · exact absurd hstack ha
  comments := by simp [Instr.isComment]

/-! ## Stores that are overwritten -/

/-- What is loaded between the two stores does not lie where they store. -/
theorem not_mem_storeCells {i k : Instr} (hi : Obeys region m i) (hk : Obeys region m₁ k)
    (halias : (k.readsMemory && mayAlias k i) = false) :
    ∀ a ∈ m₁.loads k, a ∉ m.storeCells i := by
  intro a hload hstore
  cases hreads : k.readsMemory with
  | false =>
    rw [loads_eq_nil hreads] at hload
    cases hload
  | true =>
    rw [hreads, Bool.true_and, mayAlias] at halias
    split at halias
    next s t hs ht =>
      have hne : s ≠ t := by simpa using halias
      exact hk.apart t ht s hne a hload (hi.owns s hs a hstore)
    next => cases halias

/-- Where a store by name writes depends on the addresses only. -/
theorem storeCells_of_addresses {address : Imm} {i : Instr} {m m₁ : Machine}
    (hi : i = .sta address ∨ i = .shld address) (h : m₁.addresses = m.addresses) :
    m₁.storeCells i = m.storeCells i := by
  have himm : m₁.immAddress? address = m.immAddress? address := by
    rw [immAddress?, imm_of_addresses h, immAddress?]
  rcases hi with rfl | rfl
  · rw [storeCells_sta, storeCells_sta, himm]
  · rw [storeCells_shld, storeCells_shld, himm]

/-- A store may go if another one overwrites it before it is read. The second may be of a word where
the first is of a byte, but not the other way round. -/
theorem refines_deadStore {address : Imm} {i j : Instr}
    (hi : i = .sta address ∨ i = .shld address) (hj : j = i ∨ j = .shld address)
    (hmid : ∀ k ∈ mid, k.isBarrier = false ∧ (k.readsMemory && mayAlias k i) = false) :
    Refines region (i :: (mid ++ [j]) ++ rest) (mid ++ [j] ++ rest) where
  exec {m m' n} h := by
    have hjs : j = .sta address ∨ j = .shld address := by
      rcases hj with rfl | rfl
      · exact hi
      · exact .inr rfl
    rw [List.cons_append] at h
    obtain ⟨n, m₁, rfl, hp, hstep, hexec⟩ :=
      h.of_not_control (by rcases hi with rfl | rfl <;> rfl)
    have hm₁ : m = { m₁ with memory := m.memory } := by
      rcases hi with rfl | rfl
      · obtain ⟨x, _, hstep⟩ := exists_ok_of_bind hstep
        cases hstep
        rfl
      · obtain ⟨x, _, hstep⟩ := exists_ok_of_bind hstep
        cases hstep
        rfl
    -- The second store covers all that the first one writes.
    have hcover : ∀ a ∈ m.storeCells i, a ∈ m.storeCells j := by
      intro a ha
      rcases hj with rfl | rfl
      · exact ha
      · rcases hi with rfl | rfl
        · rw [storeCells_sta] at ha
          rw [storeCells_shld]
          exact List.mem_flatMap.mpr ⟨a, ha, List.mem_cons_self⟩
        · exact ha
    have hexec' : Exec (Obeys region) (mid ++ j :: rest) { m₁ with memory := m.memory } n m' := by
      refine exec_of_overwritten (D := fun a => a ∈ m.storeCells i) ?_ ?_ ?_ ?_ ?_ ?_
      · simpa using hexec
      · exact fun k hk => ⟨(hmid k hk).1, fun m₂ hp₂ => not_mem_storeCells hp hp₂ (hmid k hk).2⟩
      · rcases hjs with rfl | rfl <;> rfl
      · rcases hjs with rfl | rfl <;> rfl
      · intro m₂ hm₂ a ha
        rw [storeCells_of_addresses hjs (hm₂.trans (step_addresses hstep))]
        exact hcover a ha
      · intro a ha
        rw [step_memory hstep (by rcases hi with rfl | rfl <;> rfl)]
        exact (Memory.read_writeAll_of_not_mem ha).symm
    rw [← hm₁, List.append_cons] at hexec'
    exact ⟨n, Nat.le_succ n, m', hexec', rfl, fun _ _ => rfl⟩
  comments := by rcases hi with rfl | rfl <;> simp [Instr.isComment]

/-! ## The whole pass -/

/-- Every rewrite is a refinement, whatever code comes behind it. There is one lemma for each kind
of rewrite. -/
theorem Rewrite.refines {old new : List Instr} (h : Rewrite rest old new) :
    Refines region (old ++ rest) (new ++ rest) := by
  cases h with
  | reload hanchor hmid hmemory => exact refines_reload hanchor hmid hmemory
  | reloadPair hanchor hmid hmemory => exact refines_reloadPair hanchor hmid hmemory
  | repeatByte hr hmid => exact refines_repeatByte hr hmid
  | repeatWord hp hmid => exact refines_repeatWord hp hmid
  | copy hanchor hdst hsrc hmid => exact refines_copy hanchor hdst hsrc hmid
  | dead hi hr hdead => exact refines_dead hi hr hdead
  | fuseByte hdst hmid hdead => exact refines_fuseByte hdst hmid hdead
  | fuseMove hdst hmid hdead => exact refines_fuseMove hdst hmid hdead
  | fuseBack hmid hdead => exact refines_fuseBack hmid hdead
  | exchangeFresh hpq hp hmid hhigh hlow => exact refines_exchangeFresh hpq hp hmid hhigh hlow
  | exchangeTwice hmid => exact refines_exchangeTwice hmid
  | pushPop hmid => exact refines_pushPop hmid
  | upDown hij hmid => exact refines_upDown hij hmid
  | commute hop hr hsa hsr hmid hdead => exact refines_commute hop hr hsa hsr hmid hdead
  | deadStore hi hj hmid => exact refines_deadStore hi hj hmid

/-- A rewrite leaves jumps and what they skip alone. -/
theorem Rewrite.skipsClear {old new : List Instr} (h : Rewrite rest old new)
    (hcode : SkipsClear (front ++ (old ++ rest))) :
    SkipsClear front ∧ SkipsClear (front ++ (new ++ rest)) := by
  obtain ⟨i, tail, rfl, hi⟩ := h.exists_head
  obtain ⟨hold, hnew⟩ := h.not_barrier
  obtain ⟨hfront, hrest⟩ := SkipsClear.of_append hi hcode
  have hrest : SkipsClear rest :=
    (SkipsClear.append_iff fun j hj => isControl_of_not_barrier (hold j hj)).mp hrest
  refine ⟨hfront, hfront.append ?_⟩
  exact (SkipsClear.append_iff fun j hj => isControl_of_not_barrier (hnew j hj)).mpr hrest

/-- The pass refines code whose jumps skip the clearing of the accumulator. -/
theorem optimize_refines (hcode : SkipsClear code) :
    SkipsClear (optimize code).2 ∧ Refines region code (optimize code).2 := by
  refine optimize_induction (I := fun after => SkipsClear after ∧ Refines region code after)
    ?_ ⟨hcode, .refl region code⟩
  intro front rest old new hrewrite ⟨hskips, hrefines⟩
  obtain ⟨hfront, hafter⟩ := hrewrite.skipsClear hskips
  exact ⟨hafter, hrefines.trans (hrewrite.refines.append_left hfront)⟩

end Accumulator.Peephole
