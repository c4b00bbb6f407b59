import Mathlib
import Accumulator.Proofs.Draft
import Accumulator.Proofs.Triple.Storage

/-!
# Symbols own their storage

A symbol has room (`Symbol.HasRoom`) if its dimension is not zero and not below the number of
elements that its initial value provides. Of the events only two can take the room away: an empty
aggregate for a symbol without a dimension, and a dimension below what the initial value provides
(`hasRoom_next_iff`). Without these, every symbol of a draft has room, however its declaration,
initial values and dimensions follow each other and whatever is rejected in between; symbols that
fit into memory together then have storage of their own, which holds their initial values
(`storage_afterEvents`).
-/

namespace Accumulator

namespace Symbol

variable {s : Symbol}

/-- Number of elements that the initial value provides, if it is an aggregate. -/
def provided? (s : Symbol) : Option Nat :=
  s.initial.bind InitialValue.length?

/-- An array has an element, and elements for all that its initial value provides. -/
structure HasRoom (s : Symbol) : Prop where
  positive : ∀ n, s.dimension = some n → 1 ≤ n
  provided : ∀ k, s.provided? = some k → ∃ n, s.dimension = some n ∧ k ≤ n

/-- A symbol that was only declared has room. -/
theorem hasRoom_declared (name : String) (width : Width) : HasRoom { name, width } := by
  constructor
  · rintro n ⟨⟩
  · rintro k ⟨⟩

/-- An initial value takes the room of a symbol away if the symbol becomes an empty array. An array
that has a dimension already is made longer if need be, and never shorter. -/
theorem HasRoom.withInitial_iff {value : InitialValue} (h : s.HasRoom) :
    (s.withInitial value).HasRoom ↔ (s.dimension = none → value.length? ≠ some 0) := by
  cases hlength : value.length? with
  -- A number leaves the dimension as it is.
  | none =>
    have hnew : s.withInitial value = { s with initial := some value } := by
      simp [withInitial, hlength]
    rw [hnew]
    refine iff_of_true ⟨h.positive, fun k hk => ?_⟩ (by simp)
    simp [provided?, hlength] at hk
  | some n =>
    have hnew : s.withInitial value =
        { s with dimension := some (s.dimension.elim n (max · n)), initial := some value } := by
      simp only [withInitial, hlength]
      cases s.dimension <;> rfl
    rw [hnew]
    cases hdim : s.dimension with
    | none =>
      simp only [Option.elim_none, true_imp_iff, ne_eq, Option.some.injEq]
      constructor
      · intro hroom hzero
        have := hroom.positive n rfl
        omega
      · intro hpos
        refine ⟨fun m hm => ?_, fun k hk => ⟨n, rfl, ?_⟩⟩
        · cases hm
          omega
        · simp only [provided?, Option.bind_some, hlength, Option.some.injEq] at hk
          omega
    | some d =>
      have hd := h.positive d hdim
      refine iff_of_true ⟨fun m hm => ?_, fun k hk => ⟨max d n, rfl, ?_⟩⟩ (by simp)
      · obtain rfl : max d n = m := Option.some.inj hm
        omega
      · simp only [provided?, Option.bind_some, hlength, Option.some.injEq] at hk
        omega

/-- A dimension takes the room of a symbol away if the initial value provides more. -/
theorem hasRoom_dimension_iff {n : Nat} (hn : 1 ≤ n) :
    HasRoom { s with dimension := some n } ↔ ∀ k, s.provided? = some k → k ≤ n := by
  constructor
  · intro h k hk
    obtain ⟨m, hm, hle⟩ := h.provided k hk
    exact Option.some.inj hm ▸ hle
  · intro h
    refine ⟨fun m hm => ?_, fun k hk => ⟨n, rfl, h k hk⟩⟩
    exact Option.some.inj hm ▸ hn

theorem HasRoom.one_le_dimension (h : s.HasRoom) : 1 ≤ s.dimension.getD 1 := by
  cases hdim : s.dimension with
  | none => exact Nat.le_refl 1
  | some n => exact h.positive n hdim

theorem HasRoom.provided_le_dimension (h : s.HasRoom) {k : Nat} (hk : s.provided? = some k) :
    k ≤ s.dimension.getD 1 := by
  obtain ⟨n, hdim, hle⟩ := h.provided k hk
  simpa [hdim] using hle

/-- A symbol with room occupies memory, enough for its initial value. -/
theorem HasRoom.size (h : s.HasRoom) : 0 < s.size ∧ s.width.size * s.provided?.getD 1 ≤ s.size := by
  have hwidth : 0 < s.width.size := by cases s.width <;> decide
  refine ⟨Nat.mul_pos hwidth h.one_le_dimension, Nat.mul_le_mul_left _ ?_⟩
  cases hk : s.provided? with
  | none => exact h.one_le_dimension
  | some k => exact h.provided_le_dimension hk

end Symbol

namespace SymbolTable

variable {symbols : SymbolTable} {name : String} {s : Symbol}

/-- Every symbol has room. -/
def HasRoom (symbols : SymbolTable) : Prop :=
  ∀ s ∈ symbols.toList, s.HasRoom

/-- A new symbol has room for one element, and the others are as they were. -/
theorem hasRoom_declare? {symbols' : SymbolTable} {width : Width} (h : symbols.HasRoom)
    (hdeclare : symbols.declare? { name, width } = some symbols') : symbols'.HasRoom := by
  simp only [declare?] at hdeclare
  split at hdeclare
  next => cases hdeclare
  next =>
    cases hdeclare
    exact List.forall_mem_append.mpr
      ⟨h, List.forall_mem_singleton.mpr (Symbol.hasRoom_declared name width)⟩

theorem HasRoom.of_get? (h : symbols.HasRoom) (hs : symbols.get? name = some s) : s.HasRoom :=
  h s (mem_of_get? hs).1

/-- Changing a symbol keeps the room of all symbols if the changed one has room. -/
theorem HasRoom.modify_iff {f : Symbol → Symbol} (h : symbols.HasRoom)
    (hname : ∀ s, (f s).name = s.name) (hs : symbols.get? name = some s) :
    (symbols.modify name f hname).HasRoom ↔ (f s).HasRoom := by
  obtain ⟨hmem, rfl⟩ := mem_of_get? hs
  constructor
  · intro hall
    refine hall (f s) (List.mem_map.mpr ⟨s, hmem, if_pos rfl⟩)
  · intro hroom t ht
    obtain ⟨u, hu, rfl⟩ := List.mem_map.mp ht
    split
    next heq =>
      obtain rfl : u = s := by
        have hget := get?_of_mem hu
        rw [heq, hs] at hget
        exact (Option.some.inj hget).symm
      exact hroom
    next => exact h u hu

/-- The storage of a symbol has as many bytes as its size says. -/
theorem length_storage (hs : s ∈ symbols.toList) : (symbols.storage s.name).length = s.size := by
  have hbase : symbols.addressOf? s.name =
      some (Machine.dataBase + BitVec.ofNat 16 (offset s.name symbols.toList)) :=
    lookup_layout hs
  simp [storage, get?_of_mem hs, hbase]

end SymbolTable

/-! ## Events -/

namespace Draft

variable {d : Draft} {α β : Type}

/-- The step leaves the symbols alone, also if it fails. -/
def LeavesSymbols (x : Drafting α) : Prop :=
  ∀ d, Ends x d (fun _ d' => d'.symbols = d.symbols) fun d' => d'.symbols = d.symbols

/-- Steps that leave the symbols leave them together. -/
theorem LeavesSymbols.bind {x : Drafting β} {f : β → Drafting α} (hx : LeavesSymbols x)
    (hf : ∀ b, LeavesSymbols (f b)) : LeavesSymbols (x >>= f) := by
  intro d
  rw [ends_bind]
  have hstart := hx d
  unfold Ends at hstart ⊢
  cases hrun : x d with
  | ok b d' =>
    rw [hrun] at hstart
    have hend := hf b d'
    rw [hstart] at hend
    exact hend
  | error reason d' =>
    rw [hrun] at hstart
    exact hstart

theorem LeavesSymbols.map {x : Drafting β} (f : β → α) (hx : LeavesSymbols x) :
    LeavesSymbols (f <$> x) := by
  intro d
  rw [ends_map]
  exact hx d

theorem LeavesSymbols.ite {c : Prop} [Decidable c] {x y : Drafting α} (hx : c → LeavesSymbols x)
    (hy : ¬c → LeavesSymbols y) : LeavesSymbols (if c then x else y) :=
  fun d => ends_ite (fun hc => hx hc d) fun hc => hy hc d

theorem leavesSymbols_pure (a : α) : LeavesSymbols (pure a) :=
  fun _ => rfl

theorem leavesSymbols_throw (reason : Rejection) : LeavesSymbols (throw reason : Drafting α) :=
  fun _ => rfl

theorem leavesSymbols_get : LeavesSymbols (get : Drafting Draft) :=
  fun _ => rfl

theorem leavesSymbols_pushOperand (o : Operand) : LeavesSymbols (pushOperand o) :=
  fun _ => rfl

theorem leavesSymbols_popOperand (construct : Construct) :
    LeavesSymbols (popOperand construct) := by
  refine .bind leavesSymbols_get fun d => ?_
  split
  · exact leavesSymbols_throw _
  · exact fun _ => rfl

theorem leavesSymbols_expectEmpty (construct : Construct) :
    LeavesSymbols (expectEmpty construct) := by
  refine .bind leavesSymbols_get fun d => ?_
  split
  · exact leavesSymbols_pure _
  · exact leavesSymbols_throw _

theorem leavesSymbols_append (lhs : Operand) (op : Op) (rhs : Option Operand)
    (throughPointer : Bool) : LeavesSymbols (append lhs op rhs throughPointer) :=
  fun _ => rfl

theorem leavesSymbols_append_push (lhs : Operand) (op : Op) (rhs : Option Operand) :
    LeavesSymbols (do pushOperand (← append lhs op rhs)) :=
  .bind (leavesSymbols_append lhs op rhs false) fun _ => leavesSymbols_pushOperand _

theorem leavesSymbols_markOperand (o : Operand) (mark : Triple → Triple) :
    LeavesSymbols (markOperand o mark) := by
  unfold markOperand
  split
  · exact fun _ => rfl
  · exact leavesSymbols_pure _

theorem leavesSymbols_operator (op : Op) : LeavesSymbols (operator op) := by
  unfold operator
  split
  · refine .bind (leavesSymbols_pure _) fun _ => .bind (leavesSymbols_popOperand _) fun lhs => ?_
    split
    · exact leavesSymbols_pushOperand _
    · exact leavesSymbols_append_push _ _ _
  · refine .bind (.map _ (leavesSymbols_popOperand _)) fun rhs =>
      .bind (leavesSymbols_popOperand _) fun lhs => ?_
    split
    · exact leavesSymbols_pushOperand _
    · exact leavesSymbols_append_push _ _ _

theorem leavesSymbols_assign (throughPointer : Bool) : LeavesSymbols (assign throughPointer) :=
  .bind (leavesSymbols_popOperand _) fun _ => .bind (leavesSymbols_popOperand _) fun _ =>
    .bind (leavesSymbols_markOperand _ _) fun _ => .bind (leavesSymbols_append _ _ _ _) fun _ =>
      leavesSymbols_expectEmpty _

theorem leavesSymbols_index : LeavesSymbols index := by
  refine .bind (leavesSymbols_popOperand _) fun position =>
    .bind (leavesSymbols_popOperand _) fun base => ?_
  split
  · refine .bind leavesSymbols_get fun d => .ite (fun _ => leavesSymbols_throw _) fun _ => ?_
    exact .ite (fun _ => leavesSymbols_pushOperand _) fun _ => leavesSymbols_append_push _ _ _
  · exact leavesSymbols_throw _

theorem leavesSymbols_addressOf : LeavesSymbols addressOf := by
  refine .bind (leavesSymbols_popOperand _) fun operand => .bind leavesSymbols_get fun d => ?_
  split
  · exact leavesSymbols_pushOperand _
  · exact .bind (leavesSymbols_markOperand _ _) fun _ => leavesSymbols_append_push _ _ _

theorem leavesSymbols_dereference : LeavesSymbols dereference :=
  .bind (leavesSymbols_popOperand _) fun _ => leavesSymbols_append_push _ _ _

theorem leavesSymbols_reference (name : String) : LeavesSymbols (reference name) := by
  refine .bind leavesSymbols_get fun d => ?_
  split
  · exact leavesSymbols_pushOperand _
  · exact leavesSymbols_throw _

/-- The event takes no symbol's room away. -/
def Respects (d : Draft) : Event → Prop
  | .initial name value =>
    ∀ s ∈ d.symbols.get? name, s.dimension = none → value.length? ≠ some 0
  | .setDimension name =>
    ∀ s ∈ d.symbols.get? name, ∀ n ∈ d.stack.head?.bind Operand.const?, 0 < n →
      ∀ k ∈ s.provided?, k ≤ n.toNat
  | .declare _ _ | .reference _ | .literal _ | .operator _ | .assign _ | .index | .addressOf
  | .dereference => True

instance (d : Draft) : DecidablePred d.Respects
  | .initial name value => inferInstanceAs
      (Decidable (∀ s ∈ d.symbols.get? name, s.dimension = none → value.length? ≠ some 0))
  | .setDimension name => inferInstanceAs
      (Decidable (∀ s ∈ d.symbols.get? name, ∀ n ∈ d.stack.head?.bind Operand.const?, 0 < n →
        ∀ k ∈ s.provided?, k ≤ n.toNat))
  | .declare _ _ | .reference _ | .literal _ | .operator _ | .assign _ | .index | .addressOf
  | .dereference => inferInstanceAs (Decidable True)

theorem hasRoom_next_of_leavesSymbols {event : Event} (h : d.symbols.HasRoom)
    (hleaves : LeavesSymbols (accept event)) : (d.next event).2.symbols.HasRoom := by
  rw [next_of_ends (P := fun d' => d'.symbols = d.symbols) (hleaves d)]
  exact h

theorem hasRoom_declare {name : String} {width : Width} (h : d.symbols.HasRoom) :
    (d.next (.declare name width)).2.symbols.HasRoom := by
  refine next_of_ends (P := fun d' => d'.symbols.HasRoom) ?_
  simp only [accept, declare, ends_bind, ends_get]
  split
  next symbols hdeclare => exact SymbolTable.hasRoom_declare? h hdeclare
  next => exact h

/-- An initial value leaves room exactly if it makes no empty array. -/
theorem hasRoom_initial_iff {name : String} {value : InitialValue} (h : d.symbols.HasRoom) :
    (d.next (.initial name value)).2.symbols.HasRoom ↔ d.Respects (.initial name value) := by
  refine next_of_ends (P := fun d' => d'.symbols.HasRoom ↔ _) ?_
  simp only [accept, initial, ends_bind, ends_get, Respects]
  refine ends_ite (fun hname => ?_) fun hname => ?_
  · obtain ⟨s, hs⟩ := SymbolTable.contains_iff.mp hname
    rw [ends_modify, SymbolTable.withInitial, h.modify_iff _ hs, (h.of_get? hs).withInitial_iff]
    simp [hs]
  · refine iff_of_true h fun s hs => absurd (SymbolTable.contains_iff.mpr ⟨s, hs⟩) hname

/-- A dimension leaves room exactly if it is no less than what is provided. -/
theorem hasRoom_setDimension_iff {name : String} (h : d.symbols.HasRoom) :
    (d.next (.setDimension name)).2.symbols.HasRoom ↔ d.Respects (.setDimension name) := by
  refine next_of_ends (P := fun d' => d'.symbols.HasRoom ↔ _) ?_
  simp only [accept, setDimension, popOperand, ends_bind, ends_get, Respects]
  cases hstack : d.stack with
  | nil => exact iff_of_true h (by simp)
  | cons o rest =>
    simp only [ends_bind, ends_modify, ends_pure, List.head?_cons, Option.bind_some]
    cases o with
    | var | temp => exact iff_of_true h (by simp [Operand.const?])
    | const n =>
      simp only [Operand.const?, Option.mem_some_iff, forall_eq']
      refine ends_ite (fun hn => iff_of_true h fun s _ hpos => by omega) fun hn => ?_
      simp only [ends_bind, ends_get]
      refine ends_ite (fun hname => ?_) fun hname => iff_of_true h fun s hs =>
        absurd (SymbolTable.contains_iff.mpr ⟨s, hs⟩) hname
      obtain ⟨s, hs⟩ := SymbolTable.contains_iff.mp hname
      have hpos : 0 < n := Int.lt_of_not_ge hn
      -- The dimension is set before the operands that are left are looked at.
      have hroom : (d.symbols.setDimension name (some n.toNat)).HasRoom ↔
          ∀ t ∈ d.symbols.get? name, 0 < n → ∀ k ∈ t.provided?, k ≤ n.toNat := by
        rw [SymbolTable.setDimension, h.modify_iff _ hs, Symbol.hasRoom_dimension_iff (by omega)]
        simp [hs, hpos]
      simp only [ends_bind, ends_modify, expectEmpty, ends_get]
      split <;> exact hroom

/-- Room is taken away by an empty aggregate or a dimension that is too small only. -/
theorem hasRoom_next_iff (event : Event) (h : d.symbols.HasRoom) :
    (d.next event).2.symbols.HasRoom ↔ d.Respects event := by
  have hleaves (hevent : LeavesSymbols (accept event)) :
      (d.next event).2.symbols.HasRoom ↔ True :=
    iff_of_true (hasRoom_next_of_leavesSymbols h hevent) trivial
  cases event with
  | declare name width => exact iff_of_true (hasRoom_declare h) trivial
  | reference name => exact hleaves (leavesSymbols_reference name)
  | literal value => exact hleaves (leavesSymbols_pushOperand _)
  | initial name value => exact hasRoom_initial_iff h
  | operator op => exact hleaves (leavesSymbols_operator _)
  | assign throughPointer => exact hleaves (leavesSymbols_assign _)
  | index => exact hleaves leavesSymbols_index
  | setDimension name => exact hasRoom_setDimension_iff h
  | addressOf => exact hleaves leavesSymbols_addressOf
  | dereference => exact hleaves leavesSymbols_dereference

/-- No event takes a symbol's room away. -/
def Respected : Draft → List Event → Prop
  | _, [] => True
  | d, event :: rest => d.Respects event ∧ Respected (d.next event).2 rest

instance decidableRespected : (d : Draft) → DecidablePred d.Respected
  | _, [] => inferInstanceAs (Decidable True)
  | d, event :: rest =>
    have := decidableRespected (d.next event).2 rest
    inferInstanceAs (Decidable (d.Respects event ∧ Respected (d.next event).2 rest))

/-- Symbols have room all along if and only if no event takes it away. -/
theorem respected_iff {events : List Event} (h : d.symbols.HasRoom) :
    d.Respected events ↔
      ∀ pre post, events = pre ++ post → (d.afterEvents pre).symbols.HasRoom := by
  induction events generalizing d with
  | nil =>
    refine iff_of_true trivial fun pre post hsplit => ?_
    obtain ⟨rfl, -⟩ := List.append_eq_nil_iff.mp hsplit.symm
    exact h
  | cons event rest ih =>
    rw [Respected, ← hasRoom_next_iff event h]
    constructor
    · rintro ⟨hnext, hrest⟩ pre post hsplit
      cases pre with
      | nil => exact h
      | cons first pre =>
        obtain ⟨rfl, htail⟩ := List.cons.inj hsplit
        exact (ih hnext).mp hrest pre post htail
    · intro hall
      have hnext : (d.next event).2.symbols.HasRoom := hall [event] rest rfl
      refine ⟨hnext, (ih hnext).mpr fun pre post hsplit => ?_⟩
      exact hall (event :: pre) post (congrArg (event :: ·) hsplit)

example : ¬Respected {} [.declare "x" .byte, .initial "x" (.array [])] := by decide +kernel

example : ¬Respected {} [.declare "x" .byte, .initial "x" (.array [1, 2, 3]), .literal 1,
    .setDimension "x"] := by decide +kernel

/-- Unless an event takes it away, every symbol of a draft has room, and symbols that fit into
memory together have storage of their own, which holds their initial values. -/
theorem storage_afterEvents (events : List Event) (h : Respected {} events) :
    let symbols := (afterEvents {} events).symbols
    (∀ s ∈ symbols.toList, s.HasRoom) ∧
      (symbols.totalSize ≤ 65536 → symbols.Separate ∧
        ∀ s ∈ symbols.toList,
          s.width.size * s.provided?.getD 1 ≤ (symbols.storage s.name).length) := by
  intro symbols
  have hstart : SymbolTable.HasRoom ({} : Draft).symbols := List.forall_mem_nil _
  -- There are no symbols at first, and no event takes room away.
  have hroom : symbols.HasRoom := (respected_iff hstart).mp h events [] (List.append_nil _).symm
  refine ⟨hroom, fun htotal => ⟨?_, fun s hs => ?_⟩⟩
  · exact SymbolTable.separate_of_totalSize (fun s hs => (hroom s hs).size.1) htotal
  · rw [SymbolTable.length_storage hs]
    exact (hroom s hs).size.2

/-- `word tab[4] := {1, 2, 3}; byte msg[3] := "hi"`, where `tab` is declared twice and the
dimension of `msg` comes after its initial value. -/
def mixedDeclarations : List Event :=
  [.declare "tab" .word, .literal 4, .setDimension "tab", .initial "tab" (.array [1, 2, 3]),
    .declare "tab" .byte, .declare "msg" .byte, .initial "msg" (.text "hi"), .literal 3,
    .setDimension "msg"]

/-- Four words and three bytes take eleven bytes, and the two arrays have storage of their own. -/
theorem storage_mixedDeclarations :
    Respected {} mixedDeclarations ∧
      (afterEvents {} mixedDeclarations).symbols.totalSize = 11 ∧
      (afterEvents {} mixedDeclarations).symbols.Separate := by
  have hrespected : Respected {} mixedDeclarations := by decide +kernel
  have htotal : (afterEvents {} mixedDeclarations).symbols.totalSize = 11 := by cbv
  refine ⟨hrespected, htotal, ((storage_afterEvents _ hrespected).2 ?_).1⟩
  rw [htotal]
  decide

end Draft

end Accumulator
