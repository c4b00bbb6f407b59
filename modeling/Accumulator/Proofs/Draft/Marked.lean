import Mathlib
import Accumulator.Proofs.Draft
import Accumulator.Proofs.Triple.Marked
import Accumulator.Select.Demand

/-!
# Elements that a draft marks

A draft marks an array element when it is assigned to or its address is taken, and only then. In a
draft each result is used once, but a pointer that was followed comes back when the address of what
it points at is taken (`Linear`, `Brings`). So an element may be marked that is followed as a
pointer (`marksHold_afterEvents`), and its value is read then. There are two ways to that: to assign
through an element, and to assign to an element, or to take its address, after it was followed.
Where events do neither, no value of a marked element is read (`never_read_afterEvents`).
-/

namespace Accumulator

namespace Draft

open Triple (MarksHold RefersLeft)

variable {d : Draft} {triples : List Triple} {hand : List Operand} {t : Triple} {o : Operand}
  {id : Nat}

/-- The results that an operand brings along: the one it refers to and, since the address of what a
pointer points at is the pointer, what the pointer brings along that it was read through. -/
inductive Brings (triples : List Triple) : Operand → Nat → Prop
  | self (id : Nat) : Brings triples (.temp id) id
  | pointer {t : Triple} {id : Nat} (ht : t ∈ triples) (hop : t.op = .deref)
      (h : Brings triples t.lhs id) : Brings triples (.temp t.id) id

/-- The ways in which a draft refers to marked elements: it assigns to them, takes their address, or
follows them as pointers. -/
def TargetOrPointer (op : Op) (_throughPointer : Bool) : Prop :=
  op = .assign ∨ op = .address ∨ op = .deref

/-- A result that may still be used in any way: so far it was followed as a pointer at most, and it
is not marked. -/
def Waits (d : Draft) (id : Nat) : Prop :=
  id < d.nextId ∧ ∀ t ∈ d.triples,
    t.RefersLeft (fun op _ => op = .deref) id ∧ (t.id = id → t.addressOnly = false)

/-- Each result is used once. The operands in hand have been taken off the stack by an event. -/
structure Linear (hand : List Operand) (d : Draft) : Prop where
  /-- No two operands bring along the same result. -/
  apart : (hand ++ d.stack).Pairwise fun x y =>
    ∀ id, Brings d.triples x id → ¬Brings d.triples y id
  waits : ∀ x ∈ hand ++ d.stack, ∀ id, Brings d.triples x id → d.Waits id
  numbered : ∀ t ∈ d.triples, t.id < d.nextId ∧ ∀ id ∈ t.refs, id < d.nextId
  distinct : (d.triples.map Triple.id).Nodup
  marks : MarksHold TargetOrPointer d.triples

theorem linear_empty : Linear [] {} where
  apart := List.Pairwise.nil
  waits := List.forall_mem_nil _
  numbered := List.forall_mem_nil _
  distinct := List.nodup_nil
  marks := List.forall_mem_nil _

/-! ### What operands bring along -/

theorem not_brings (h : o.temp? = none) : ¬Brings triples o id := by
  rintro (_ | _)
  · cases h
  · cases h

/-- An operand that refers to no triple of the list brings nothing else along. -/
theorem Brings.eq_of_fresh {n : Nat} (hfresh : ∀ u ∈ triples, u.id ≠ n)
    (h : Brings triples (.temp n) id) : id = n := by
  cases h with
  | self => rfl
  | pointer hu => exact absurd rfl (hfresh _ hu)

/-- What an operand brings along when there is one more triple. -/
theorem brings_of_snoc (hrefs : ∀ u ∈ triples ++ [t], t.id ∉ u.refs)
    (h : Brings (triples ++ [t]) o id) :
    Brings triples o id ∨ o = .temp t.id ∧ t.op = .deref ∧ Brings triples t.lhs id := by
  -- Nothing refers to the new triple, so only the operand itself can.
  induction h with
  | self => exact .inl (.self _)
  | @pointer u id hu hop _ ih =>
    have hne : u.lhs ≠ .temp t.id := by
      intro hlhs
      exact hrefs u hu (Triple.mem_refs.mpr (by simp [Triple.refersTo, hlhs]))
    have hlhs : Brings triples u.lhs id := ih.resolve_right fun h => hne h.1
    rcases List.mem_append.mp hu with hu | hu
    · exact .inl (.pointer hu hop hlhs)
    · obtain rfl := List.mem_singleton.mp hu
      exact .inr ⟨rfl, hop, hlhs⟩

/-! ### Steps -/

/-- Operands may be taken off the stack into the hand, or thrown away. -/
theorem Linear.of_sublist {hand' stack : List Operand} (h : Linear hand d)
    (hsublist : (hand' ++ stack).Sublist (hand ++ d.stack)) : Linear hand' { d with stack } where
  apart := h.apart.sublist hsublist
  waits x hx := h.waits x (hsublist.subset hx)
  numbered := h.numbered
  distinct := h.distinct
  marks := h.marks

/-- Operands in hand may be thrown away. -/
theorem Linear.drop (h : Linear hand d) : Linear [] d :=
  h.of_sublist (List.sublist_append_right _ _)

/-- Operands in hand may be exchanged for one that brings along no more. -/
theorem Linear.exchange {x : Operand} (h : Linear hand d)
    (hx : ∀ id, Brings d.triples x id → ∃ y ∈ hand, Brings d.triples y id) : Linear [x] d where
  apart := by
    obtain ⟨_, hstack, hcross⟩ := List.pairwise_append.mp h.apart
    refine List.pairwise_cons.mpr ⟨fun z hz id hbrings => ?_, hstack⟩
    obtain ⟨y, hy, hbrings⟩ := hx id hbrings
    exact hcross y hy z hz id hbrings
  waits := by
    refine List.forall_mem_cons.mpr ⟨fun id hbrings => ?_, fun y hy => ?_⟩
    · obtain ⟨y, hy, hbrings⟩ := hx id hbrings
      exact h.waits y (List.mem_append_left _ hy) id hbrings
    · exact h.waits y (List.mem_append_right _ hy)
  numbered := h.numbered
  distinct := h.distinct
  marks := h.marks

/-- A new triple is made of operands in hand. -/
structure MadeOf (hand : List Operand) (d : Draft) (t : Triple) : Prop where
  id : t.id = d.nextId
  unmarked : t.addressOnly = false
  operands : ∀ x ∈ t.lhs :: t.rhs.toList, x ∈ hand
  pointer : t.op = .deref → t.rhs = none

/-- A new triple uses results that wait. -/
theorem MadeOf.waits (ht : MadeOf hand d t) (h : Linear hand d) (hid : id ∈ t.refs) :
    .temp id ∈ hand ∧ d.Waits id := by
  obtain ⟨x, hx, htemp⟩ := List.mem_filterMap.mp hid
  obtain rfl : x = .temp id := by
    cases x with
    | temp j => exact congrArg _ (Option.some.inj htemp)
    | _ => cases htemp
  have hmem := ht.operands _ hx
  exact ⟨hmem, h.waits _ (List.mem_append_left _ hmem) id (.self id)⟩

/-- No triple refers to the new one. -/
theorem MadeOf.not_mem_refs (ht : MadeOf hand d t) (h : Linear hand d) :
    ∀ u ∈ d.triples ++ [t], t.id ∉ u.refs := by
  intro u hu hid
  rw [ht.id] at hid
  rcases List.mem_append.mp hu with hu | hu
  · exact Nat.lt_irrefl _ ((h.numbered u hu).2 _ hid)
  · obtain rfl := List.mem_singleton.mp hu
    exact Nat.lt_irrefl _ (ht.waits h hid).2.1

/-- Operands on the stack bring along what they did before. -/
theorem MadeOf.brings_stack (ht : MadeOf hand d t) (h : Linear hand d) (ho : o ∈ d.stack)
    (hbrings : Brings (d.triples ++ [t]) o id) : Brings d.triples o id := by
  refine (brings_of_snoc (ht.not_mem_refs h) hbrings).resolve_right ?_
  rintro ⟨rfl, -⟩
  have hwaits := h.waits _ (List.mem_append_right _ ho) t.id (.self _)
  exact Nat.lt_irrefl _ (ht.id ▸ hwaits.1)

/-- The new result brings along itself and, if it is read through a pointer, what that does. -/
theorem MadeOf.brings_result (ht : MadeOf hand d t) (h : Linear hand d)
    (hbrings : Brings (d.triples ++ [t]) (.temp t.id) id) :
    id = t.id ∨ t.op = .deref ∧ Brings d.triples t.lhs id := by
  rcases brings_of_snoc (ht.not_mem_refs h) hbrings with hbrings | ⟨_, hop, hbrings⟩
  · refine .inl (hbrings.eq_of_fresh fun u hu => ?_)
    exact Nat.ne_of_lt (ht.id ▸ (h.numbered u hu).1)
  · exact .inr ⟨hop, hbrings⟩

/-- A result goes on to wait if the new triple follows it as a pointer at most. -/
theorem Waits.snoc (hwaits : d.Waits id) (hid : t.id = d.nextId)
    (ht : t.RefersLeft (fun op _ => op = .deref) id) : (d.snoc t).Waits id := by
  refine ⟨Nat.lt_succ_of_lt hwaits.1, fun u hu => ?_⟩
  rcases List.mem_append.mp hu with hu | hu
  · exact hwaits.2 u hu
  · obtain rfl := List.mem_singleton.mp hu
    refine ⟨ht, fun heq => ?_⟩
    have := hwaits.1
    omega

/-- The result of a new triple waits, as nothing refers to it yet. -/
theorem MadeOf.waits_result (ht : MadeOf hand d t) (h : Linear hand d) : (d.snoc t).Waits t.id := by
  refine ⟨ht.id ▸ Nat.lt_succ_self _, fun u hu => ?_⟩
  refine ⟨Triple.refersLeft_of_not_mem (ht.not_mem_refs h u hu), fun heq => ?_⟩
  rcases List.mem_append.mp hu with hu | hu
  · exact absurd heq (Nat.ne_of_lt (ht.id ▸ (h.numbered u hu).1))
  · exact List.mem_singleton.mp hu ▸ ht.unmarked

/-- A new triple refers to no marked element. -/
theorem MadeOf.marks (ht : MadeOf hand d t) (h : Linear hand d) :
    MarksHold TargetOrPointer (d.triples ++ [t]) := by
  intro e he hmarked
  rcases List.mem_append.mp he with hold | hnew
  · obtain ⟨hop, hrefers⟩ := h.marks e hold hmarked
    refine ⟨hop, List.forall_mem_append.mpr ⟨hrefers, List.forall_mem_singleton.mpr ?_⟩⟩
    refine Triple.refersLeft_of_not_mem fun hmem => ?_
    have hunmarked := ((ht.waits h hmem).2.2 e hold).2 rfl
    simp [hmarked] at hunmarked
  · rw [List.mem_singleton.mp hnew, ht.unmarked] at hmarked
    cases hmarked

/-- Operands in hand may become those of a new triple, whose result is then in hand. What the
operands brought along is used up, except for a pointer that was followed. -/
theorem Linear.snoc (h : Linear hand d) (ht : MadeOf hand d t) :
    Linear [.temp t.id] (d.snoc t) := by
  obtain ⟨_, hstack, hcross⟩ := List.pairwise_append.mp h.apart
  have hlhs : t.lhs ∈ hand := ht.operands _ List.mem_cons_self
  have hstackWaits {x : Operand} (hx : x ∈ d.stack) {id : Nat} (hbrings : Brings d.triples x id) :
      d.Waits id := h.waits x (List.mem_append_right _ hx) id hbrings
  refine ⟨?_, ?_, ?_, ?_, ht.marks h⟩
  · refine List.pairwise_cons.mpr ⟨fun y hy id hbrings hbrings' => ?_, ?_⟩
    · -- The stack brings along neither the new result nor what its pointer does.
      have hold := ht.brings_stack h hy hbrings'
      rcases ht.brings_result h hbrings with rfl | ⟨_, hpointer⟩
      · exact Nat.lt_irrefl _ (ht.id ▸ (hstackWaits hy hold).1)
      · exact hcross _ hlhs y hy id hpointer hold
    · refine hstack.imp_of_mem fun {x y} hx hy hxy id hbrings hbrings' => ?_
      exact hxy id (ht.brings_stack h hx hbrings) (ht.brings_stack h hy hbrings')
  · refine List.forall_mem_cons.mpr ⟨fun id hbrings => ?_, fun x hx id hbrings => ?_⟩
    · rcases ht.brings_result h hbrings with rfl | ⟨hop, hpointer⟩
      · exact ht.waits_result h
      · have hwaits := h.waits _ (List.mem_append_left _ hlhs) id hpointer
        exact hwaits.snoc ht.id ⟨by simp [ht.pointer hop], fun _ => hop⟩
    · have hold := ht.brings_stack h hx hbrings
      refine (hstackWaits hx hold).snoc ht.id (Triple.refersLeft_of_not_mem fun hmem => ?_)
      exact hcross _ (ht.waits h hmem).1 x hx id (.self id) hold
  · refine List.forall_mem_append.mpr ⟨fun u hu => ?_, List.forall_mem_singleton.mpr ?_⟩
    · obtain ⟨hid, hrefs⟩ := h.numbered u hu
      exact ⟨Nat.lt_succ_of_lt hid, fun id hmem => Nat.lt_succ_of_lt (hrefs id hmem)⟩
    · refine ⟨ht.id ▸ Nat.lt_succ_self _, fun id hmem => ?_⟩
      exact Nat.lt_succ_of_lt (ht.waits h hmem).2.1
  · change ((d.triples ++ [t]).map Triple.id).Nodup
    rw [List.map_append, List.nodup_append]
    refine ⟨h.distinct, List.nodup_singleton _, fun i hi j hj => ?_⟩
    obtain ⟨u, hu, rfl⟩ := List.mem_map.mp hi
    obtain rfl := List.mem_singleton.mp hj
    exact Nat.ne_of_lt (ht.id ▸ (h.numbered u hu).1)

/-! ### Marking -/

/-- A mark says that only the address is used, and may say that it is not kept. -/
def MarksAddress (mark : Triple → Triple) : Prop :=
  ∀ t, ∃ noSave, mark t = { t with addressOnly := true, noSave }

/-- Where no number occurs twice, all elements with the number are marked. -/
theorem markElement_eq_map {mark : Triple → Triple} (h : (triples.map Triple.id).Nodup) :
    markElement triples id mark =
      triples.map fun u => if u.id = id ∧ u.op = .index then mark u else u := by
  induction triples with
  | nil => rfl
  | cons u rest ih =>
    obtain ⟨hnot, hrest⟩ := List.nodup_cons.mp h
    rw [markElement, List.map_cons]
    split
    next hid =>
      have hothers :
          (rest.map fun v => if v.id = id ∧ v.op = .index then mark v else v) = rest := by
        refine (List.map_congr_left fun v hv => if_neg fun hv' => hnot ?_).trans (List.map_id rest)
        exact (hid.trans hv'.1.symm) ▸ List.mem_map_of_mem hv
      simp only [hid, true_and, hothers]
    next hid => simp only [hid, false_and, if_false, ih hrest]

/-- Marking changes marks only, and those of the element with the number only. -/
theorem exists_of_mem_markElement {mark : Triple → Triple} (hmark : MarksAddress mark)
    (hnodup : (triples.map Triple.id).Nodup) {u' : Triple}
    (h : u' ∈ markElement triples id mark) :
    ∃ u ∈ triples, ∃ addressOnly noSave, u' = { u with addressOnly, noSave } ∧
      (addressOnly = true ↔ u.addressOnly = true ∨ u.id = id ∧ u.op = .index) := by
  rw [markElement_eq_map hnodup] at h
  obtain ⟨u, hu, rfl⟩ := List.mem_map.mp h
  refine ⟨u, hu, ?_⟩
  split
  next hmarked =>
    obtain ⟨noSave, hu'⟩ := hmark u
    exact ⟨true, noSave, hu', by simp [hmarked]⟩
  next hmarked => exact ⟨u.addressOnly, u.noSave, rfl, by simp [hmarked]⟩

theorem markElement_snoc {mark : Triple → Triple} (h : t.id ≠ id) :
    markElement (triples ++ [t]) id mark = markElement triples id mark ++ [t] := by
  induction triples with
  | nil => simp [markElement, h]
  | cons u rest ih =>
    simp only [List.cons_append, markElement, ih]
    split <;> rfl

/-- A result that no operand brings along may be marked, if it is referred to in the ways of marked
elements. -/
theorem Linear.mark {mark : Triple → Triple} (h : Linear hand d) (hmark : MarksAddress mark)
    (hbrings : ∀ x ∈ hand ++ d.stack, ¬Brings d.triples x id)
    (hrefers : ∀ t ∈ d.triples, t.RefersLeft TargetOrPointer id) :
    Linear hand { d with triples := markElement d.triples id mark } := by
  have hfrom {x : Operand} {j : Nat} (hx : Brings (markElement d.triples id mark) x j) :
      Brings d.triples x j := by
    induction hx with
    | self => exact .self _
    | pointer hu' hop _ ih =>
      obtain ⟨u, hu, _, _, rfl, _⟩ := exists_of_mem_markElement hmark h.distinct hu'
      have hpointer : Brings d.triples (.temp u.id) _ := .pointer hu hop ih
      exact hpointer
  -- A property of all triples that does not look at marks.
  have hkept {P : Triple → Prop} (hP : ∀ u ∈ d.triples, P u)
      (hmarks : ∀ u addressOnly noSave, P u → P { u with addressOnly, noSave }) :
      ∀ u' ∈ markElement d.triples id mark, P u' := by
    intro u' hu'
    obtain ⟨u, hu, addressOnly, noSave, rfl, _⟩ := exists_of_mem_markElement hmark h.distinct hu'
    exact hmarks u addressOnly noSave (hP u hu)
  constructor
  · exact h.apart.imp fun hxy j hx hy => hxy j (hfrom hx) (hfrom hy)
  · intro x hx j hj
    have hwaits := h.waits x hx j (hfrom hj)
    refine ⟨hwaits.1, fun u' hu' => ⟨?_, fun heq => ?_⟩⟩
    · exact hkept (fun u hu => (hwaits.2 u hu).1) (fun _ _ _ hu => hu) u' hu'
    · obtain ⟨u, hu, addressOnly, noSave, rfl, hmarked⟩ :=
        exists_of_mem_markElement hmark h.distinct hu'
      refine Bool.eq_false_iff.mpr fun haddress => ?_
      rcases hmarked.mp haddress with hwas | ⟨hid, _⟩
      · simp [(hwaits.2 u hu).2 heq] at hwas
      · exact hbrings x hx ((heq.symm.trans hid) ▸ hfrom hj)
  · exact hkept h.numbered fun _ _ _ hu => hu
  · have hids : (markElement d.triples id mark).map Triple.id = d.triples.map Triple.id := by
      rw [markElement_eq_map h.distinct, List.map_map]
      refine List.map_congr_left fun u _ => ?_
      obtain ⟨noSave, hu⟩ := hmark u
      simp only [Function.comp_apply]
      split <;> simp [hu]
    exact hids ▸ h.distinct
  · intro e' he' hmarked
    obtain ⟨e, he, addressOnly, noSave, rfl, horigin⟩ :=
      exists_of_mem_markElement hmark h.distinct he'
    obtain ⟨hop, hall⟩ : e.op = .index ∧ ∀ u ∈ d.triples, u.RefersLeft TargetOrPointer e.id := by
      rcases horigin.mp hmarked with hwas | ⟨hid, hop⟩
      · exact h.marks e he hwas
      · exact ⟨hop, hid ▸ hrefers⟩
    exact ⟨hop, hkept hall fun _ _ _ hu => hu⟩

/-! ### Which elements are marked -/

/-- A result is assigned to, or its address is taken. -/
def Addressed (triples : List Triple) (id : Nat) : Prop :=
  ∃ t ∈ triples, t.lhs = .temp id ∧ (t.op = .assign ∨ t.op = .address)

/-- A new triple may add one result that is assigned to, or whose address is taken. -/
theorem addressed_snoc : Addressed (triples ++ [t]) id ↔
    Addressed triples id ∨ t.lhs = .temp id ∧ (t.op = .assign ∨ t.op = .address) := by
  simp [Addressed, or_and_right, exists_or]

/-- The elements that are assigned to, or whose address is taken, are marked, and no others. -/
def MarksExact (triples : List Triple) : Prop :=
  ∀ e ∈ triples, e.op = .index → (e.addressOnly = true ↔ Addressed triples e.id)

/-- A new triple that assigns to no result and takes no address leaves the marks as they should
be. -/
theorem MarksExact.snoc (h : MarksExact triples) (hfresh : ∀ u ∈ triples ++ [t], t.id ∉ u.refs)
    (hunmarked : t.addressOnly = false)
    (ht : ∀ id, t.lhs = .temp id → ¬(t.op = .assign ∨ t.op = .address)) :
    MarksExact (triples ++ [t]) := by
  refine List.forall_mem_append.mpr ⟨fun e he hop => ?_, List.forall_mem_singleton.mpr fun _ => ?_⟩
  · rw [addressed_snoc, ← h e he hop]
    exact (or_iff_left fun hnew => ht e.id hnew.1 hnew.2).symm
  · rw [hunmarked]
    refine iff_of_false Bool.false_ne_true ?_
    rintro ⟨u, hu, hlhs, _⟩
    exact hfresh u hu (Triple.mem_refs.mpr (by simp [Triple.refersTo, hlhs]))

/-- Marking changes no reference. -/
theorem addressed_markElement {mark : Triple → Triple} (hmark : MarksAddress mark)
    (hnodup : (triples.map Triple.id).Nodup) {j : Nat} :
    Addressed (markElement triples id mark) j ↔ Addressed triples j := by
  rw [markElement_eq_map hnodup]
  simp only [Addressed, List.mem_map, exists_exists_and_eq_and]
  refine exists_congr fun u => and_congr_right fun _ => ?_
  split
  next =>
    obtain ⟨noSave, hu⟩ := hmark u
    rw [hu]
  next => rfl

/-- Marking the element that a new triple assigns to, or of which it takes the address. -/
theorem MarksExact.snoc_mark {mark : Triple → Triple} (h : MarksExact triples)
    (hmark : MarksAddress mark) (hnodup : ((triples ++ [t]).map Triple.id).Nodup)
    (hlhs : t.lhs = .temp id) (hop : t.op = .assign ∨ t.op = .address) :
    MarksExact (markElement (triples ++ [t]) id mark) := by
  intro e' he' hindex
  obtain ⟨e, he, addressOnly, noSave, rfl, hmarked⟩ := exists_of_mem_markElement hmark hnodup he'
  replace hindex : e.op = .index := hindex
  have hold : e ∈ triples := by
    refine (List.mem_append.mp he).resolve_right fun hnew => ?_
    rw [List.mem_singleton.mp hnew] at hindex
    rcases hop with hop | hop <;> simp [hop] at hindex
  calc addressOnly = true ↔ e.addressOnly = true ∨ e.id = id := by simp [hmarked, hindex]
    _ ↔ Addressed triples e.id ∨ t.lhs = .temp e.id := by simp [h e hold hindex, hlhs, eq_comm]
    _ ↔ Addressed (triples ++ [t]) e.id := by simp [addressed_snoc, hop]
    _ ↔ Addressed (markElement (triples ++ [t]) id mark) e.id :=
      (addressed_markElement hmark hnodup).symm

/-- What holds of a draft between events, and of the operands in hand within one. -/
structure Tidy (hand : List Operand) (d : Draft) : Prop extends Linear hand d where
  exact : MarksExact d.triples

theorem tidy_empty : Tidy [] {} where
  toLinear := linear_empty
  exact := List.forall_mem_nil _

/-- Operands in hand are thrown away when an event is rejected. -/
theorem Tidy.drop (h : Tidy hand d) : Tidy [] d where
  toLinear := h.toLinear.drop
  exact := h.exact

/-- Symbols do not matter. -/
theorem Tidy.of_symbols {symbols : SymbolTable} (h : Tidy hand d) : Tidy hand { d with symbols } :=
  ⟨⟨h.apart, h.waits, h.numbered, h.distinct, h.marks⟩, h.exact⟩

/-! ### Events -/

/-- An operand is taken off the stack into the hand. -/
theorem tidy_popOperand {construct : Construct} (h : Tidy hand d) :
    Ends (popOperand construct) d (fun o d' => Tidy (hand ++ [o]) d') (Tidy []) := by
  simp only [popOperand, ends_bind, ends_get]
  split
  next => exact h.drop
  next o rest hstack =>
    simp only [ends_bind, ends_modify, ends_pure]
    refine ⟨h.of_sublist ?_, h.exact⟩
    simp [hstack]

theorem tidy_pushOperand (h : Tidy [o] d) :
    Ends (pushOperand o) d (fun _ d' => Tidy [] d') (Tidy []) :=
  show Tidy [] { d with stack := o :: d.stack } from ⟨h.of_sublist (List.Sublist.refl _), h.exact⟩

/-- A literal or a variable brings nothing along. -/
theorem tidy_push_plain (h : Tidy hand d) (ho : o.temp? = none) :
    Ends (pushOperand o) d (fun _ d' => Tidy [] d') (Tidy []) :=
  tidy_pushOperand ⟨h.exchange fun _ hbrings => absurd hbrings (not_brings ho), h.exact⟩

/-- The operands in hand become those of a triple, which neither assigns to a result nor takes its
address. -/
theorem tidy_append {lhs : Operand} {op : Op} {rhs : Option Operand} {throughPointer : Bool}
    (h : Tidy (rhs.toList ++ [lhs]) d) (hderef : op = .deref → rhs = none)
    (hop : ∀ id, lhs = .temp id → ¬(op = .assign ∨ op = .address)) :
    Ends (append lhs op rhs throughPointer) d (fun o d' => Tidy [o] d') (Tidy []) := by
  refine ends_append fun t hid _ hlhs htop hrhs hunmarked => ?_
  have ht : MadeOf (rhs.toList ++ [lhs]) d t := by
    refine ⟨hid, hunmarked, fun x hx => ?_, by rwa [htop, hrhs]⟩
    rw [hlhs, hrhs] at hx
    simpa [or_comm] using hx
  refine ⟨h.snoc ht, h.exact.snoc (ht.not_mem_refs h.toLinear) hunmarked ?_⟩
  rwa [hlhs, htop]

theorem tidy_append_push {lhs : Operand} {op : Op} {rhs : Option Operand}
    (h : Tidy (rhs.toList ++ [lhs]) d) (hderef : op = .deref → rhs = none)
    (hop : ¬(op = .assign ∨ op = .address)) :
    Ends (do pushOperand (← append lhs op rhs)) d (fun _ d' => Tidy [] d') (Tidy []) := by
  rw [ends_bind]
  exact (tidy_append h hderef fun _ _ => hop).mono fun _ _ => tidy_pushOperand

/-- The element that is assigned to, or whose address is taken, is in hand: nothing else brings it
along, and so it may be marked. -/
theorem tidy_mark_append {lhs : Operand} {op : Op} {rhs : Option Operand} (throughPointer : Bool)
    {mark : Triple → Triple} (h : Tidy (rhs.toList ++ [lhs]) d) (hmark : MarksAddress mark)
    (hop : op = .assign ∨ op = .address) :
    Ends (markOperand lhs mark) d
      (fun _ d' => Ends (append lhs op rhs throughPointer) d' (fun o d'' => Tidy [o] d'') (Tidy []))
      (Tidy []) := by
  have hderef : op ≠ .deref := by
    rcases hop with rfl | rfl <;> decide
  unfold markOperand
  split
  next id =>
    rw [ends_modify]
    refine ends_append fun t hid _ hlhs htop hrhs hunmarked => ?_
    have ht : MadeOf (rhs.toList ++ [.temp id]) d t := by
      refine ⟨hid, hunmarked, fun x hx => ?_, fun heq => absurd (htop.symm.trans heq) hderef⟩
      rw [hlhs, hrhs] at hx
      simpa [or_comm] using hx
    obtain ⟨hhand, _, hcross⟩ := List.pairwise_append.mp h.apart
    have hwaits : d.Waits id := h.waits (.temp id) (by simp) id (.self id)
    have hne : t.id ≠ id := by
      have hlt := hwaits.1
      have hnext : t.id = d.nextId := hid
      omega
    -- The element may as well be marked after the triple has been appended.
    have hcommutes : snoc { d with triples := markElement d.triples id mark } t =
        { d.snoc t with triples := markElement (d.snoc t).triples id mark } := by
      simp only [snoc, markElement_snoc hne]
    have hlinear := h.snoc ht
    rw [hcommutes]
    refine ⟨hlinear.mark hmark (List.forall_mem_cons.mpr ⟨fun hbrings => ?_, ?_⟩)
      (List.forall_mem_append.mpr
        ⟨fun u hu => ?_, List.forall_mem_singleton.mpr ⟨fun hrhs' => ?_, ?_⟩⟩),
      h.exact.snoc_mark hmark hlinear.distinct hlhs (htop ▸ hop)⟩
    · rcases ht.brings_result h.toLinear hbrings with heq | ⟨heq, _⟩
      · exact hne heq.symm
      · exact hderef (htop.symm.trans heq)
    · intro x hx hbrings
      exact hcross _ (by simp) x hx id (.self id) (ht.brings_stack h.toLinear hx hbrings)
    · exact (hwaits.2 u hu).1.mono fun heq => .inr (.inr heq)
    · -- The right operand brings along the element as little as the stack does.
      have hright : .temp id ∈ rhs.toList := by simp [← hrhs, hrhs']
      exact (List.pairwise_append.mp hhand).2.2 _ hright _ (by simp) id (.self id) (.self id)
    · intro _
      rw [htop]
      exact hop.imp_right .inl
  next hnot =>
    exact tidy_append h (fun heq => absurd heq hderef) fun id hlhs => absurd hlhs (hnot id)

/-- An operator uses each of its operands once. What it leaves is a literal, if it could be folded,
or the result of a new triple. -/
theorem tidy_operator {op : ExprOp} (h : Tidy [] d) :
    Ends (operator op.toOp) d (fun _ d' => Tidy [] d') (Tidy []) := by
  have hderef : op.toOp ≠ .deref := by cases op <;> decide
  have hop : ¬(op.toOp = .assign ∨ op.toOp = .address) := by cases op <;> decide
  -- What can happen once the right operand, if there is one, has been taken.
  have hrest (rhs : Option Operand) {d₁ : Draft} (h₁ : Tidy rhs.toList d₁) :
      Ends (popOperand (.operator op.toOp)) d₁ (fun lhs d₂ =>
        (∀ value, Ends (pushOperand (.const value)) d₂ (fun _ d' => Tidy [] d') (Tidy [])) ∧
        Ends (do pushOperand (← append lhs op.toOp rhs)) d₂ (fun _ d' => Tidy [] d') (Tidy []))
        (Tidy []) := by
    refine (tidy_popOperand h₁).mono fun lhs d₂ h₂ => ⟨fun _ => tidy_push_plain h₂ rfl, ?_⟩
    exact tidy_append_push h₂ (fun heq => absurd heq hderef) hop
  unfold operator
  split
  · simp only [ends_bind, ends_pure]
    refine (hrest none h).mono ?_
    rintro lhs d₂ ⟨hconst, happend⟩
    split
    next value _ => exact hconst value
    next => exact (ends_bind _ _).mpr ((ends_bind _ _).mp happend)
  · simp only [ends_bind, ends_map]
    refine (tidy_popOperand h).mono fun rhs d₁ h₁ => (hrest (some rhs) h₁).mono ?_
    rintro lhs d₂ ⟨hconst, happend⟩
    split
    next value _ => exact hconst value
    next => exact (ends_bind _ _).mpr ((ends_bind _ _).mp happend)

/-- An assignment uses its target and its value, and marks an element that is its target. -/
theorem tidy_assign {throughPointer : Bool} (h : Tidy [] d) :
    Ends (assign throughPointer) d (fun _ d' => Tidy [] d') (Tidy []) := by
  simp only [assign, ends_bind]
  refine (tidy_popOperand h).mono fun rhs d₁ h₁ => (tidy_popOperand h₁).mono fun lhs d₂ h₂ => ?_
  replace h₂ : Tidy ((some rhs).toList ++ [lhs]) d₂ := h₂
  refine (tidy_mark_append throughPointer h₂ (fun t => ⟨_, rfl⟩) (.inl rfl)).mono fun _ d₃ h₃ => ?_
  refine h₃.mono fun _ d₄ h₄ => ?_
  simp only [expectEmpty, ends_bind, ends_get]
  split
  · exact h₄.drop
  · exact h₄.drop

/-- The index uses the position. -/
theorem tidy_index (h : Tidy [] d) : Ends index d (fun _ d' => Tidy [] d') (Tidy []) := by
  simp only [index, ends_bind]
  refine (tidy_popOperand h).mono fun position d₁ h₁ => ?_
  refine (tidy_popOperand h₁).mono fun base d₂ h₂ => ?_
  replace h₂ : Tidy ((some position).toList ++ [base]) d₂ := h₂
  split
  next name =>
    have hpush : Ends (if position = .const 0 then pushOperand (.var name)
        else do pushOperand (← append (.var name) .index (some position))) d₂
        (fun _ d' => Tidy [] d') (Tidy []) :=
      ends_ite (fun _ => tidy_push_plain h₂ rfl) fun _ => tidy_append_push h₂ (by simp) (by simp)
    simp only [ends_bind, ends_get]
    exact ends_ite (fun _ => h₂.drop) fun _ => hpush
  next => exact h₂.drop

/-- A dimension is a literal that is taken off the stack. -/
theorem tidy_setDimension {name : String} (h : Tidy [] d) :
    Ends (setDimension name) d (fun _ d' => Tidy [] d') (Tidy []) := by
  simp only [setDimension, ends_bind]
  refine (tidy_popOperand h).mono fun o d₁ h₁ => ?_
  split
  next value =>
    refine ends_ite (fun _ => h₁.drop) fun _ => ?_
    simp only [ends_bind, ends_get]
    refine ends_ite (fun _ => ?_) fun _ => h₁.drop
    have htidy : Tidy [] { d₁ with symbols := d₁.symbols.setDimension name (some value.toNat) } :=
      h₁.drop.of_symbols
    simp only [ends_bind, ends_modify, expectEmpty, ends_get]
    split
    · exact htidy
    · exact htidy
  next => exact h₁.drop

/-- The pointer that an operand was read through. -/
theorem brings_of_pointer? {pointer : Operand} (h : pointer? triples o = some pointer)
    (hbrings : Brings triples pointer id) : Brings triples o id := by
  unfold pointer? at h
  split at h
  next n =>
    split at h
    next t hfind =>
      split at h
      next hop =>
        cases h
        obtain rfl : t.id = n := by simpa using List.find?_some hfind
        exact .pointer (List.mem_of_find?_eq_some hfind) hop hbrings
      next => cases h
    next => cases h
  next => cases h

/-- The address of an element is taken, and the element is marked. The address of what was followed
is the pointer, which is brought back. -/
theorem tidy_addressOf (h : Tidy [] d) : Ends addressOf d (fun _ d' => Tidy [] d') (Tidy []) := by
  simp only [addressOf, ends_bind]
  refine (tidy_popOperand h).mono fun o d₁ h₁ => ?_
  replace h₁ : Tidy ((none : Option Operand).toList ++ [o]) d₁ := h₁
  simp only [ends_get]
  split
  next pointer hpointer =>
    refine tidy_pushOperand ⟨h₁.exchange fun id hbrings => ?_, h₁.exact⟩
    exact ⟨o, by simp, brings_of_pointer? hpointer hbrings⟩
  next =>
    simp only [ends_bind]
    refine (tidy_mark_append false h₁ (fun t => ⟨_, rfl⟩) (.inr rfl)).mono fun _ d₂ h₂ => ?_
    exact h₂.mono fun _ _ => tidy_pushOperand

/-- A pointer is followed, and may be brought back by taking the address. -/
theorem tidy_dereference (h : Tidy [] d) :
    Ends dereference d (fun _ d' => Tidy [] d') (Tidy []) := by
  simp only [dereference, ends_bind]
  refine (tidy_popOperand h).mono fun o d₁ h₁ => ?_
  replace h₁ : Tidy ((none : Option Operand).toList ++ [o]) d₁ := h₁
  exact (ends_bind _ _).mp (tidy_append_push h₁ (fun _ => rfl) (by simp))

/-- Every event uses each result once, also if it is rejected. -/
theorem tidy_accept (event : Event) (h : Tidy [] d) :
    Ends (accept event) d (fun _ d' => Tidy [] d') (Tidy []) := by
  cases event with
  | declare name width =>
    simp only [accept, declare, ends_bind, ends_get]
    split
    · exact h.of_symbols
    · exact h
  | reference name =>
    simp only [accept, reference, ends_bind, ends_get]
    exact ends_ite (fun _ => tidy_push_plain h rfl) fun _ => h
  | literal value => exact tidy_push_plain h rfl
  | initial name value =>
    simp only [accept, initial, ends_bind, ends_get]
    exact ends_ite (fun _ => h.of_symbols) fun _ => h
  | operator op => exact tidy_operator h
  | assign throughPointer => exact tidy_assign h
  | index => exact tidy_index h
  | setDimension name => exact tidy_setDimension h
  | addressOf => exact tidy_addressOf h
  | dereference => exact tidy_dereference h

/-- In the draft of any events each result is used once. -/
theorem tidy_afterEvents (events : List Event) (h : Tidy [] d) :
    Tidy [] (d.afterEvents events) := by
  induction events generalizing d with
  | nil => exact h
  | cons event rest ih => exact ih (next_of_ends (tidy_accept event h))

/-- The ways in which no value is read: an assignment that is not through a pointer, and taking the
address. -/
def Targets (op : Op) (throughPointer : Bool) : Prop :=
  op = .assign ∧ throughPointer = false ∨ op = .address

/-- The selector does not load a result that is referred to in these ways. By cases on how the
selector uses the operands of a triple. -/
theorem not_needs_of_refersLeft (h : t.RefersLeft Targets id) :
    Select.needs triples (.of (.temp id)) t = false := by
  have hright {role : Select.Role} :
      (.temp id, role) ∉ t.rhs.toList.map fun o => (o, Select.Role.value) := by
    simp [h.1]
  simp only [Select.needs, List.any_eq_false, Bool.and_eq_true, decide_eq_true_eq, not_and]
  rintro ⟨_, role⟩ hmem rfl rfl
  unfold Select.uses at hmem
  dsimp only at hmem
  split at hmem
  -- An assignment reads its left operand only if it goes through a pointer.
  next hop =>
    rcases List.mem_cons.mp hmem with heq | hmem
    · obtain ⟨hlhs, hrole⟩ := Prod.mk.inj heq
      rcases h.2 hlhs.symm with ⟨_, hdirect⟩ | haddress
      · simp [hdirect] at hrole
      · simp [hop] at haddress
    · exact hright hmem
  next => simp at hmem
  next =>
    rcases List.mem_cons.mp hmem with heq | hmem
    · simp at heq
    · exact hright hmem
  next hassign haddress _ =>
    obtain ⟨o, ho, heq⟩ := List.mem_map.mp hmem
    obtain rfl : o = .temp id := congrArg Prod.fst heq
    rcases List.mem_cons.mp (Triple.operands_subset ho) with hlhs | hrhs
    · rcases h.2 hlhs.symm with ⟨hop, _⟩ | hop
      · exact hassign hop
      · exact haddress hop
    · exact h.1 (Option.mem_toList.mp hrhs)

/-- No element is assigned through, and no element that is followed as a pointer is assigned to or
has its address taken as well. Only `&*` brings an element back that was followed. -/
def FollowsNoTarget (triples : List Triple) : Prop :=
  ∀ e ∈ triples, e.op = .index → ∀ t ∈ triples, t.lhs = .temp e.id →
    (t.op = .assign → t.throughPointer = false) ∧ (t.op = .deref → ¬Addressed triples e.id)

instance (triples : List Triple) (id : Nat) : Decidable (Addressed triples id) :=
  inferInstanceAs (Decidable (∃ t ∈ triples, _ ∧ (t.op = .assign ∨ t.op = .address)))

instance : DecidablePred FollowsNoTarget := fun triples =>
  inferInstanceAs (Decidable (∀ e ∈ triples, e.op = .index → ∀ t ∈ triples, t.lhs = .temp e.id →
    (t.op = .assign → t.throughPointer = false) ∧ (t.op = .deref → ¬Addressed triples e.id)))

/-- Whatever the events, the elements that are assigned to, or whose address is taken, are marked,
and no others. Besides, marked elements are followed as pointers at most, before optimizing and
after. -/
theorem marksHold_afterEvents (events : List Event) :
    let d := afterEvents {} events
    MarksExact d.triples ∧ MarksHold TargetOrPointer d.triples ∧
      MarksHold TargetOrPointer (Triple.optimize d.symbols d.triples) := by
  intro d
  have htidy : Tidy [] d := tidy_afterEvents events tidy_empty
  have hvalid : Valid true d := valid_afterEvents events valid_empty
  refine ⟨htidy.exact, htidy.marks, htidy.marks.optimize hvalid.orderly fun t hsum hways => ?_⟩
  rcases hsum with hop | hop | hop | hop <;> simp [TargetOrPointer, hop] at hways

/-- Unless the events assign through an element, or to one that they followed as a pointer, the
value of an element that is marked is never read: every reference to it assigns to it or takes its
address, before optimizing and after. An element that is followed and nothing else is not marked. -/
theorem never_read_afterEvents (events : List Event)
    (h : FollowsNoTarget (afterEvents {} events).triples) :
    let d := afterEvents {} events
    (∀ e ∈ d.triples, e.op = .index → (e.addressOnly = true ↔ ∃ t ∈ d.triples,
      t.lhs = .temp e.id ∧ (t.op = .assign ∨ t.op = .address))) ∧
    ∀ triples ∈ [d.triples, Triple.optimize d.symbols d.triples],
      ∀ e ∈ triples, e.addressOnly = true → e.op = .index ∧ ∀ t ∈ triples,
        (t.refersTo e.id = true → t.lhs = .temp e.id ∧ t.rhs ≠ some (.temp e.id) ∧
          (t.op = .assign ∧ t.throughPointer = false ∨ t.op = .address)) ∧
        Select.needs triples (.of (.temp e.id)) t = false := by
  intro d
  obtain ⟨hexact, hmarks, -⟩ := marksHold_afterEvents events
  have hvalid : Valid true d := valid_afterEvents events valid_empty
  -- In the draft, what follows a marked element as a pointer is excluded by the assumption.
  have htargets : MarksHold Targets d.triples := by
    intro e he hmarked
    obtain ⟨hop, hrefers⟩ := hmarks e he hmarked
    refine ⟨hop, fun t ht => ⟨(hrefers t ht).1, fun hlhs => ?_⟩⟩
    obtain ⟨hdirect, hfollowed⟩ := h e he hop t ht hlhs
    rcases (hrefers t ht).2 hlhs with hassign | haddress | hpointer
    · exact .inl ⟨hassign, hdirect hassign⟩
    · exact .inr haddress
    · -- The mark says that something else assigns to the element or takes its address.
      exact absurd ((hexact e he hop).mp hmarked) (hfollowed hpointer)
  refine ⟨hexact, fun triples htriples e he hmarked => ?_⟩
  -- Optimizing does not refer to marked elements in new ways.
  have hmarks : MarksHold Targets triples := by
    rcases List.mem_pair.mp htriples with rfl | rfl
    · exact htargets
    · refine htargets.optimize hvalid.orderly fun t hsum hways => ?_
      rcases hsum with hop | hop | hop | hop <;> simp [Targets, hop] at hways
  obtain ⟨hop, hrefers⟩ := hmarks e he hmarked
  refine ⟨hop, fun t ht => ⟨fun hrefersTo => ?_, not_needs_of_refersLeft (hrefers t ht)⟩⟩
  obtain ⟨hrhs, hways⟩ := hrefers t ht
  have hlhs : t.lhs = .temp e.id := by simpa [Triple.refersTo, hrhs] using hrefersTo
  exact ⟨hlhs, hrhs, hways hlhs⟩

/-- `word a[4], p, q; p := &a[1]; q := &a[1]; p := &a[2]; q := a[2] + 0; a[3] := 5; q := *a[3]`. -/
def elementAccesses : List Event :=
  [.declare "a" .word, .literal 4, .setDimension "a", .declare "p" .word, .declare "q" .word,
    .reference "p", .reference "a", .literal 1, .index, .addressOf, .assign false,
    .reference "q", .reference "a", .literal 1, .index, .addressOf, .assign false,
    .reference "p", .reference "a", .literal 2, .index, .addressOf, .assign false,
    .reference "q", .reference "a", .literal 2, .index, .literal 0, .operator .add, .assign false,
    .reference "a", .literal 3, .index, .literal 5, .assign false,
    .reference "q", .reference "a", .literal 3, .index, .dereference, .assign false]

/-- Both accesses to the first element are merged, and it stays marked. Those to the second are
merged as well, and it does not. The last element is marked where it is assigned to, and not where
it is followed. -/
theorem never_read_elementAccesses :
    let d := afterEvents {} elementAccesses
    let optimized := Triple.optimize d.symbols d.triples
    (optimized.filter (·.op = .index)).map (fun t => (t.id, t.addressOnly)) =
        [(0, true), (6, false), (12, true), (14, false)] ∧
      ∀ e ∈ optimized, e.addressOnly = true → ∀ t ∈ optimized,
        Select.needs optimized (.of (.temp e.id)) t = false := by
  have hfollows : FollowsNoTarget (afterEvents {} elementAccesses).triples := by decide +kernel
  refine ⟨by cbv, fun e he hmarked t ht => ?_⟩
  have hnever := (never_read_afterEvents elementAccesses hfollows).2 _
    (List.mem_cons_of_mem _ List.mem_cons_self)
  exact ((hnever e he hmarked).2 t ht).2

/-- `word a[4]; *a[1] := 5` marks an element whose value is the pointer. -/
example :
    let triples := (afterEvents {} [.declare "a" .word, .literal 4, .setDimension "a",
      .reference "a", .literal 1, .index, .literal 5, .assign true]).triples
    ∃ e ∈ triples, e.addressOnly = true ∧
      ∃ t ∈ triples, Select.needs triples (.of (.temp e.id)) t = true := by
  decide +kernel

end Draft

end Accumulator
