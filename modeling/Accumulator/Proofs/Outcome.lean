/-!
# What a step brings about

Drafting and selecting are made of steps on a state, any of which may fail. `After x s Q` says what
holds if `x` does not fail on `s`, and `Ends x s Q E` also what holds of the state in which it stops
if it does. Both are computed along the text of a step: the lemmas below take them apart down to the
named steps it is made of, each of which has a lemma of its own.
-/

namespace Accumulator

/-- If the step succeeds, `Q` holds of its answer and of the state it leaves. -/
def After {ε σ α : Type} (x : EStateM ε σ α) (s : σ) (Q : α → σ → Prop) : Prop :=
  ∀ a s', x s = .ok a s' → Q a s'

variable {ε σ α β : Type} {s : σ} {Q : α → σ → Prop}

theorem After.mono {x : EStateM ε σ α} {P : α → σ → Prop} (h : After x s P)
    (himp : ∀ a s', P a s' → Q a s') : After x s Q :=
  fun a s' hx => himp a s' (h a s' hx)

theorem After.and {x : EStateM ε σ α} {P : α → σ → Prop} (h : After x s P) (h' : After x s Q) :
    After x s fun a s' => P a s' ∧ Q a s' :=
  fun a s' hx => ⟨h a s' hx, h' a s' hx⟩

@[simp] theorem after_pure (a : α) : After (pure a : EStateM ε σ α) s Q ↔ Q a s := by
  constructor
  · intro h
    exact h a s rfl
  · rintro h _ _ ⟨⟩
    exact h

/-- Of two steps, the second starts where the first one ends. -/
@[simp] theorem after_bind (x : EStateM ε σ β) (f : β → EStateM ε σ α) :
    After (x >>= f) s Q ↔ After x s fun b s' => After (f b) s' Q := by
  simp only [After, bind, EStateM.bind]
  cases hx : x s with
  | ok b s' =>
    constructor
    · rintro h _ _ ⟨⟩
      exact h
    · intro h
      exact h b s' rfl
  | error e s' =>
    constructor
    · rintro _ _ _ ⟨⟩
    · rintro _ _ _ ⟨⟩

@[simp] theorem after_get {Q : σ → σ → Prop} : After (get : EStateM ε σ σ) s Q ↔ Q s s := by
  constructor
  · intro h
    exact h s s rfl
  · rintro h _ _ ⟨⟩
    exact h

@[simp] theorem after_set {Q : PUnit → σ → Prop} (s' : σ) :
    After (set s' : EStateM ε σ PUnit) s Q ↔ Q ⟨⟩ s' := by
  constructor
  · intro h
    exact h ⟨⟩ s' rfl
  · rintro h _ _ ⟨⟩
    exact h

@[simp] theorem after_modify {Q : PUnit → σ → Prop} (f : σ → σ) :
    After (modify f : EStateM ε σ PUnit) s Q ↔ Q ⟨⟩ (f s) := by
  constructor
  · intro h
    exact h ⟨⟩ (f s) rfl
  · rintro h _ _ ⟨⟩
    exact h

/-- A step that chooses between two, each of which knows the choice. -/
theorem after_ite {c : Prop} [Decidable c] {x y : EStateM ε σ α} (hx : c → After x s Q)
    (hy : ¬c → After y s Q) : After (if c then x else y) s Q := by
  split
  next hc => exact hx hc
  next hc => exact hy hc

/-- A step that fails does not end, so anything holds afterwards. -/
@[simp] theorem after_throw (e : ε) : After (throw e : EStateM ε σ α) s Q := by
  rintro _ _ ⟨⟩

/-- A step that succeeds hands its answer and its state on. -/
theorem bind_of_ok {x : EStateM ε σ β} {f : β → EStateM ε σ α} {b : β} {s' : σ}
    (h : x s = .ok b s') : (x >>= f) s = f b s' := by
  simp only [bind, EStateM.bind, h]

/-! ## Steps that fail -/

/-- `Q` holds if the step succeeds, and `E` of the state in which it stops if it fails. -/
def Ends {ε σ α : Type} (x : EStateM ε σ α) (s : σ) (Q : α → σ → Prop) (E : σ → Prop) : Prop :=
  match x s with
  | .ok a s' => Q a s'
  | .error _ s' => E s'

variable {E : σ → Prop}

theorem Ends.mono {x : EStateM ε σ α} {P : α → σ → Prop} (h : Ends x s P E)
    (himp : ∀ a s', P a s' → Q a s') : Ends x s Q E := by
  unfold Ends at h ⊢
  cases hx : x s with
  | ok a s' =>
    rw [hx] at h
    exact himp a s' h
  | error e s' =>
    rw [hx] at h
    exact h

/-- What is said of success and failure says something of success. -/
theorem Ends.after {x : EStateM ε σ α} (h : Ends x s Q E) : After x s Q := by
  intro a s' hx
  rwa [Ends, hx] at h

@[simp] theorem ends_pure (a : α) : Ends (pure a : EStateM ε σ α) s Q E ↔ Q a s :=
  Iff.rfl

@[simp] theorem ends_bind (x : EStateM ε σ β) (f : β → EStateM ε σ α) :
    Ends (x >>= f) s Q E ↔ Ends x s (fun b s' => Ends (f b) s' Q E) E := by
  simp only [Ends, bind, EStateM.bind]
  cases x s <;> rfl

@[simp] theorem ends_map (x : EStateM ε σ β) (f : β → α) :
    Ends (f <$> x) s Q E ↔ Ends x s (fun b s' => Q (f b) s') E := by
  simp only [Ends, Functor.map, EStateM.map]
  cases x s <;> rfl

@[simp] theorem ends_get {Q : σ → σ → Prop} : Ends (get : EStateM ε σ σ) s Q E ↔ Q s s :=
  Iff.rfl

@[simp] theorem ends_set {Q : PUnit → σ → Prop} (s' : σ) :
    Ends (set s' : EStateM ε σ PUnit) s Q E ↔ Q ⟨⟩ s' :=
  Iff.rfl

@[simp] theorem ends_modify {Q : PUnit → σ → Prop} (f : σ → σ) :
    Ends (modify f : EStateM ε σ PUnit) s Q E ↔ Q ⟨⟩ (f s) :=
  Iff.rfl

@[simp] theorem ends_throw (e : ε) : Ends (throw e : EStateM ε σ α) s Q E ↔ E s :=
  Iff.rfl

theorem ends_ite {c : Prop} [Decidable c] {x y : EStateM ε σ α} (hx : c → Ends x s Q E)
    (hy : ¬c → Ends y s Q E) : Ends (if c then x else y) s Q E := by
  split
  next hc => exact hx hc
  next hc => exact hy hc

end Accumulator
