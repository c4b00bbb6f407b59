import Accumulator.Machine.Basic
import Accumulator.Proofs.Machine.Memory

/-!
# Where values are

A place is a byte or a word in memory. Every variable has one, and so has every element of an
array; they lie in the storage of the variable (`place?_subset_storage`,
`element?_subset_storage`). Variables that share no storage do not see each other's writes, and
symbols that fit into memory share none (`separate_of_totalSize`).
-/

namespace Accumulator

/-- The low part of a word that a width has room for. -/
def Width.narrow (w : Width) (x : Word) : Word :=
  (x.setWidth w.bits).setWidth 16

namespace Width

theorem narrow_narrow (w : Width) (x : Word) : w.narrow (w.narrow x) = w.narrow x := by
  cases w <;> simp [narrow, bits]

@[simp] theorem narrow_word (x : Word) : Width.word.narrow x = x := by
  simp [narrow, bits]

theorem narrow_extend (w : Width) (x : BitVec w.bits) :
    w.narrow (x.setWidth 16) = x.setWidth 16 := by
  have hbits : w.bits ≤ 16 := by cases w <;> decide
  rw [narrow, BitVec.setWidth_setWidth_of_le _ hbits, BitVec.setWidth_eq]

end Width

/-! ## Places -/

/-- A byte or a word in memory. -/
structure Place where
  address : Word
  width : Width
  deriving DecidableEq

namespace Place

/-- The addresses of its bytes. -/
def cells (p : Place) : List Word :=
  match p.width with
  | .byte => [p.address]
  | .word => [p.address, p.address + 1]

/-- What is there. -/
def read (p : Place) (memory : Memory) : Word :=
  match p.width with
  | .byte => (memory.read p.address).setWidth 16
  | .word => memory.readWord p.address

/-- Put a value there, as much of it as there is room for. -/
def write (p : Place) (memory : Memory) (value : Word) : Memory :=
  match p.width with
  | .byte => memory.write p.address (value.setWidth 8)
  | .word => memory.writeWord p.address value

/-- A place holds no more than it has room for. -/
theorem narrow_read (p : Place) (memory : Memory) :
    p.width.narrow (p.read memory) = p.read memory := by
  rcases p with ⟨address, width⟩
  cases width with
  | byte => exact Width.narrow_extend .byte _
  | word => exact Width.narrow_word _

/-- Putting back what is there changes nothing. -/
theorem write_read (p : Place) (memory : Memory) : p.write memory (p.read memory) = memory := by
  rcases p with ⟨address, width⟩
  cases width with
  | byte => simp [read, write, Memory.write_read_self]
  | word => exact Memory.writeWord_readWord_self memory address

/-- A write leaves other places alone, if they have no byte in common with what is written. -/
theorem read_write_of_disjoint {p q : Place} {memory : Memory} {v : Word}
    (h : ∀ a ∈ p.cells, a ∉ q.cells) : p.read (q.write memory v) = p.read memory := by
  have hread {a : Word} (ha : a ∈ p.cells) : (q.write memory v).read a = memory.read a := by
    have hq := h a ha
    rcases q with ⟨address, width⟩
    cases width with
    | byte => exact Memory.read_write_of_ne _ _ (by simpa [cells] using hq)
    | word =>
      simp only [cells, List.mem_cons, List.not_mem_nil, or_false, not_or] at hq
      exact Memory.read_writeWord_of_ne hq.1 hq.2
  rcases p with ⟨address, width⟩
  cases width with
  | byte => simp only [read, hread (a := address) (by simp [cells])]
  | word =>
    simp only [read, Memory.readWord, hread (a := address) (by simp [cells]),
      hread (a := address + 1) (by simp [cells])]

end Place

/-! ## Variables -/

namespace SymbolTable

/-- Where the machine has a variable. -/
def addressOf? (symbols : SymbolTable) (name : String) : Option Word :=
  (Machine.ofSymbols symbols).addressOf? name

/-- The place of a variable; of an array, that of its first element. -/
def place? (symbols : SymbolTable) (name : String) : Option Place := do
  let s ← symbols.get? name
  return { address := ← symbols.addressOf? name, width := s.width }

/-- The place of an element of an array. -/
def element? (symbols : SymbolTable) (name : String) (index : Word) : Option Place := do
  let s ← symbols.get? name
  let base ← symbols.addressOf? name
  if index.toNat < s.dimension.getD 0 then
    some { address := base + BitVec.ofNat 16 (s.width.size * index.toNat), width := s.width }
  else
    none

/-- The addresses that a variable occupies. -/
def storage (symbols : SymbolTable) (name : String) : List Word :=
  match symbols.get? name, symbols.addressOf? name with
  | some s, some base => (List.range s.size).map fun k => base + BitVec.ofNat 16 k
  | _, _ => []

/-- The symbols occupy storage, and no two of them share any. -/
structure Separate (symbols : SymbolTable) : Prop where
  nonempty : ∀ s ∈ symbols.toList, symbols.storage s.name ≠ []
  disjoint : ∀ s ∈ symbols.toList, ∀ t ∈ symbols.toList, s.name ≠ t.name →
    ∀ a ∈ symbols.storage s.name, a ∉ symbols.storage t.name

instance (symbols : SymbolTable) : Decidable symbols.Separate :=
  decidable_of_iff
    ((∀ s ∈ symbols.toList, symbols.storage s.name ≠ []) ∧
      ∀ s ∈ symbols.toList, ∀ t ∈ symbols.toList, s.name ≠ t.name →
        ∀ a ∈ symbols.storage s.name, a ∉ symbols.storage t.name)
    ⟨fun h => ⟨h.1, h.2⟩, fun h => ⟨h.nonempty, h.disjoint⟩⟩

variable {symbols : SymbolTable} {name : String} {p : Place}

/-- The place of a variable is where it was laid out, and as wide as it was declared. -/
theorem place?_eq_some (h : symbols.place? name = some p) :
    ∃ s, symbols.get? name = some s ∧ symbols.addressOf? name = some p.address ∧
      p.width = s.width := by
  simp only [place?, Option.bind_eq_bind, Option.bind_eq_some_iff, Option.pure_def,
    Option.some.injEq] at h
  obtain ⟨s, hs, a, ha, rfl⟩ := h
  exact ⟨s, hs, ha, rfl⟩

/-- The place of an element is at the position times the size of an element, if the position is
within the array. -/
theorem element?_eq_some {index : Word} (h : symbols.element? name index = some p) :
    ∃ s base, symbols.get? name = some s ∧ symbols.addressOf? name = some base ∧
      index.toNat < s.dimension.getD 0 ∧
      p = { address := base + BitVec.ofNat 16 (s.width.size * index.toNat), width := s.width } := by
  simp only [element?, Option.bind_eq_bind, Option.bind_eq_some_iff] at h
  obtain ⟨s, hs, base, hbase, h⟩ := h
  split at h
  next hlt => exact ⟨s, base, hs, hbase, hlt, (Option.some.inj h).symm⟩
  next => cases h

theorem width_of_place? (h : symbols.place? name = some p) : p.width = symbols.widthOf name := by
  obtain ⟨s, hs, _, hwidth⟩ := place?_eq_some h
  rw [widthOf, hs, hwidth]

/-- An element has the width of its array. -/
theorem width_of_element? {index : Word} (h : symbols.element? name index = some p) :
    p.width = symbols.widthOf name := by
  obtain ⟨s, base, hs, _, _, rfl⟩ := element?_eq_some h
  rw [widthOf, hs]

/-- So many bytes from a distance on lie in a variable that is large enough. -/
theorem cells_subset_storage {s : Symbol} {base : Word} {k : Nat} (hs : symbols.get? name = some s)
    (hbase : symbols.addressOf? name = some base) (hk : k + s.width.size ≤ s.size) :
    ∀ a ∈ Place.cells { address := base + BitVec.ofNat 16 k, width := s.width },
      a ∈ symbols.storage name := by
  intro a ha
  simp only [storage, hs, hbase, List.mem_map, List.mem_range]
  cases hwidth : s.width with
  | byte =>
    simp only [Place.cells, hwidth, List.mem_singleton] at ha
    rw [hwidth, Width.size] at hk
    exact ⟨k, by omega, ha.symm⟩
  | word =>
    simp only [Place.cells, hwidth, List.mem_cons, List.not_mem_nil, or_false] at ha
    rw [hwidth, Width.size] at hk
    rcases ha with rfl | rfl
    · exact ⟨k, by omega, rfl⟩
    · exact ⟨k + 1, by omega, by rw [BitVec.ofNat_add, ← BitVec.add_assoc]; rfl⟩

/-- A variable that is looked up is declared under its name. -/
theorem mem_of_get? {s : Symbol} (h : symbols.get? name = some s) :
    s ∈ symbols.toList ∧ s.name = name := by
  rw [get?] at h
  exact ⟨List.mem_of_find?_eq_some h, by simpa using List.find?_some h⟩

/-- The place of a variable lies in its storage. -/
theorem place?_subset_storage (hsymbols : symbols.Separate) (h : symbols.place? name = some p) :
    ∀ a ∈ p.cells, a ∈ symbols.storage name := by
  obtain ⟨s, hs, hbase, hwidth⟩ := place?_eq_some h
  have hnonempty : symbols.storage name ≠ [] := by
    obtain ⟨hmem, rfl⟩ := mem_of_get? hs
    exact hsymbols.nonempty s hmem
  have hsize : 0 + s.width.size ≤ s.size := by
    have hpos : 0 < s.size := by
      refine Nat.pos_of_ne_zero fun hzero => hnonempty ?_
      simp [storage, hs, hbase, hzero]
    rw [Nat.zero_add]
    exact Nat.le_mul_of_pos_right _ (Nat.pos_of_mul_pos_left hpos)
  have := cells_subset_storage hs hbase hsize
  rcases p with ⟨address, width⟩
  simpa [← hwidth] using this

/-- The place of an element lies in the storage of its array. -/
theorem element?_subset_storage {index : Word} (h : symbols.element? name index = some p) :
    ∀ a ∈ p.cells, a ∈ symbols.storage name := by
  obtain ⟨s, base, hs, hbase, hlt, rfl⟩ := element?_eq_some h
  refine cells_subset_storage hs hbase ?_
  cases hdim : s.dimension with
  | none => simp [hdim] at hlt
  | some n =>
    rw [hdim, Option.getD_some] at hlt
    rw [Symbol.size, hdim, Option.getD_some, ← Nat.mul_succ]
    exact Nat.mul_le_mul_left _ hlt

/-- Places in the storage of different variables are disjoint. -/
theorem Separate.disjoint_of_ne (hsymbols : symbols.Separate) {other : String}
    (hne : name ≠ other) :
    ∀ a ∈ symbols.storage name, a ∉ symbols.storage other := by
  intro a ha hother
  have hsymbol {x : String} (hx : a ∈ symbols.storage x) : ∃ s, symbols.get? x = some s := by
    cases hs : symbols.get? x with
    | none => simp [storage, hs] at hx
    | some s => exact ⟨s, rfl⟩
  obtain ⟨s, hs⟩ := hsymbol ha
  obtain ⟨t, ht⟩ := hsymbol hother
  obtain ⟨hsmem, rfl⟩ := mem_of_get? hs
  obtain ⟨htmem, rfl⟩ := mem_of_get? ht
  exact hsymbols.disjoint s hsmem t htmem hne a ha hother

/-- The addresses of variables. -/
def IsData (symbols : SymbolTable) (a : Word) : Prop :=
  ∃ name, a ∈ symbols.storage name

/-- Data is what lies in the storage of some variable. -/
theorem isData_iff {a : Word} :
    symbols.IsData a ↔ ∃ s ∈ symbols.toList, a ∈ symbols.storage s.name := by
  constructor
  · rintro ⟨name, ha⟩
    cases hs : symbols.get? name with
    | none => simp [storage, hs] at ha
    | some s =>
      obtain ⟨hmem, rfl⟩ := mem_of_get? hs
      exact ⟨s, hmem, ha⟩
  · rintro ⟨s, -, ha⟩
    exact ⟨s.name, ha⟩

instance (symbols : SymbolTable) (a : Word) : Decidable (symbols.IsData a) :=
  decidable_of_iff _ isData_iff.symm

/-! ## Symbols that fit into memory -/

/-- Number of bytes before the symbol with a name. -/
def offset (name : String) : List Symbol → Nat
  | [] => 0
  | s :: rest => if s.name = name then 0 else s.size + offset name rest

/-- Number of bytes of symbols together. -/
def sizeOfAll : List Symbol → Nat
  | [] => 0
  | s :: rest => s.size + sizeOfAll rest

/-- Number of bytes of all symbols of a table. -/
def totalSize (symbols : SymbolTable) : Nat :=
  sizeOfAll symbols.toList

/-- A variable is laid out behind the ones that were declared before it. -/
theorem lookup_layout {next : Word} {list : List Symbol} {s : Symbol} (hs : s ∈ list) :
    (Machine.layout next list).lookup s.name =
      some (next + BitVec.ofNat 16 (offset s.name list)) := by
  induction list generalizing next with
  | nil => cases hs
  | cons t rest ih =>
    rw [Machine.layout, List.lookup_cons, offset]
    by_cases hname : t.name = s.name
    · simp [hname]
    · have hmem : s ∈ rest := by
        rcases List.mem_cons.mp hs with rfl | hmem
        · exact absurd rfl hname
        · exact hmem
      have hbeq : (s.name == t.name) = false := beq_false_of_ne fun h => hname h.symm
      rw [hbeq, if_neg hname, ih hmem, BitVec.ofNat_add, BitVec.add_assoc]

/-- Only variables are laid out. -/
theorem exists_of_lookup_layout {next a : Word} {list : List Symbol} {name : String}
    (h : (Machine.layout next list).lookup name = some a) : ∃ s ∈ list, s.name = name := by
  induction list generalizing next with
  | nil => cases h
  | cons t rest ih =>
    by_cases hname : t.name = name
    · exact ⟨t, List.mem_cons_self, hname⟩
    · have hbeq : (name == t.name) = false := beq_false_of_ne (Ne.symm hname)
      rw [Machine.layout, List.lookup_cons, hbeq] at h
      obtain ⟨s, hs, hsame⟩ := ih h
      exact ⟨s, List.mem_cons_of_mem _ hs, hsame⟩

/-- A variable ends within the storage of all of them. -/
theorem offset_add_size_le {list : List Symbol} {s : Symbol} (hs : s ∈ list)
    (hnodup : (list.map Symbol.name).Nodup) :
    offset s.name list + s.size ≤ sizeOfAll list := by
  induction list with
  | nil => cases hs
  | cons t rest ih =>
    rw [List.map_cons, List.nodup_cons] at hnodup
    rw [offset, sizeOfAll]
    rcases List.mem_cons.mp hs with rfl | hmem
    · simp
    · have hne : t.name ≠ s.name := fun h => hnodup.1 (h ▸ List.mem_map_of_mem hmem)
      have := ih hmem hnodup.2
      rw [if_neg hne]
      omega

/-- The symbol declared first ends where the other begins, or before. -/
theorem offset_separate {list : List Symbol} {s t : Symbol} (hs : s ∈ list) (ht : t ∈ list)
    (hnodup : (list.map Symbol.name).Nodup) (hne : s.name ≠ t.name) :
    offset s.name list + s.size ≤ offset t.name list ∨
      offset t.name list + t.size ≤ offset s.name list := by
  induction list with
  | nil => cases hs
  | cons u rest ih =>
    rw [List.map_cons, List.nodup_cons] at hnodup
    have hfirst {v : Symbol} (hv : v ∈ rest) : u.name ≠ v.name := fun h =>
      hnodup.1 (h ▸ List.mem_map_of_mem hv)
    rw [offset, offset]
    rcases List.mem_cons.mp hs with rfl | hs
    · simp [hne]
    · rcases List.mem_cons.mp ht with rfl | ht
      · simp [Ne.symm hne]
      · have := ih hs ht hnodup.2
        rw [if_neg (hfirst hs), if_neg (hfirst ht)]
        omega

/-- A declared variable is found by its name. -/
theorem get?_of_mem {symbols : SymbolTable} {s : Symbol} (hs : s ∈ symbols.toList) :
    symbols.get? s.name = some s := by
  have hnodup := symbols.nodup
  rw [get?]
  generalize symbols.toList = list at hs hnodup
  induction list with
  | nil => cases hs
  | cons t rest ih =>
    rw [List.map_cons, List.nodup_cons] at hnodup
    rw [List.find?_cons]
    rcases List.mem_cons.mp hs with rfl | hmem
    · simp
    · have hne : t.name ≠ s.name := fun h => hnodup.1 (h ▸ List.mem_map_of_mem hmem)
      simp [hne, ih hmem hnodup.2]

/-- What has an address is a variable. -/
theorem place?_of_addressOf? {symbols : SymbolTable} {name : String} {a : Word}
    (h : symbols.addressOf? name = some a) :
    symbols.place? name = some { address := a, width := symbols.widthOf name } := by
  obtain ⟨s, hs, rfl⟩ := exists_of_lookup_layout h
  simp [place?, widthOf, get?_of_mem hs, h]

/-- The storage of a variable, by its distance from the first one. -/
theorem mem_storage_iff {symbols : SymbolTable} {s : Symbol} (hs : s ∈ symbols.toList) {a : Word} :
    a ∈ symbols.storage s.name ↔ ∃ k < s.size,
      a = Machine.dataBase + BitVec.ofNat 16 (offset s.name symbols.toList + k) := by
  have hbase : symbols.addressOf? s.name =
      some (Machine.dataBase + BitVec.ofNat 16 (offset s.name symbols.toList)) :=
    lookup_layout hs
  simp only [storage, get?_of_mem hs, hbase, List.mem_map, List.mem_range]
  constructor
  · rintro ⟨k, hk, rfl⟩
    exact ⟨k, hk, by rw [BitVec.ofNat_add, BitVec.add_assoc]⟩
  · rintro ⟨k, hk, rfl⟩
    exact ⟨k, hk, by rw [BitVec.ofNat_add, BitVec.add_assoc]⟩

/-- Symbols that have a size each and fit into memory together share no storage. -/
theorem separate_of_totalSize {symbols : SymbolTable} (hpos : ∀ s ∈ symbols.toList, 0 < s.size)
    (htotal : symbols.totalSize ≤ 65536) : symbols.Separate := by
  constructor
  · intro s hs hempty
    have hfirst := (mem_storage_iff hs).mpr ⟨0, hpos s hs, rfl⟩
    rw [hempty] at hfirst
    cases hfirst
  · intro s hs t ht hne a ha hb
    obtain ⟨j, hj, hja⟩ := (mem_storage_iff hs).mp ha
    obtain ⟨k, hk, hka⟩ := (mem_storage_iff ht).mp hb
    have hsEnd := offset_add_size_le hs symbols.nodup
    have htEnd := offset_add_size_le ht symbols.nodup
    have hcases := offset_separate hs ht symbols.nodup hne
    rw [totalSize] at htotal
    have hsame : BitVec.ofNat 16 (offset s.name symbols.toList + j) =
        BitVec.ofNat 16 (offset t.name symbols.toList + k) :=
      BitVec.add_right_inj _ |>.mp (hja.symm.trans hka)
    have hnat := congrArg BitVec.toNat hsame
    rw [BitVec.toNat_ofNat, BitVec.toNat_ofNat, Nat.mod_eq_of_lt (by omega),
      Nat.mod_eq_of_lt (by omega)] at hnat
    omega

end SymbolTable

end Accumulator
