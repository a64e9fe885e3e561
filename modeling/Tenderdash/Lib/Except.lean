import Mathlib.Logic.Basic

/-!
# Inverting `Except` computations

A computation in `Except` that returned a value went through every `bind` with
a value.  These are the lemmas that let a proof about a `do` block follow it
statement by statement, peeling one `bind` at a time with `obtain`, instead of
unfolding and splitting the whole block at once.
-/

namespace Except

variable {ε α β : Type}

/-- A `bind` that returned a value ran its continuation on a value. -/
@[simp] theorem bind_eq_ok {x : Except ε α} {f : α → Except ε β} {b : β} :
    x >>= f = .ok b ↔ ∃ a, x = .ok a ∧ f a = .ok b := by
  cases x with
  | error e => simp [bind, Except.bind]
  | ok a => simp [bind, Except.bind]

/-- A `bind` that failed failed before its continuation, or in it. -/
theorem bind_eq_error {x : Except ε α} {f : α → Except ε β} {e : ε} :
    x >>= f = .error e ↔ x = .error e ∨ ∃ a, x = .ok a ∧ f a = .error e := by
  cases x with
  | error e' => simp [bind, Except.bind]
  | ok a => simp [bind, Except.bind]

/-- A computation whose `toBool` is true returned a value. -/
theorem exists_eq_ok_of_toBool {x : Except ε α} (h : x.toBool = true) : ∃ a, x = .ok a := by
  cases x with
  | error e => cases h
  | ok a => exact ⟨a, rfl⟩

/-- A computation whose result, mapped, is some value returned a value that maps to it. -/
theorem exists_eq_ok_of_toOption_map {f : α → β} {x : Except ε α} {b : β}
    (h : x.toOption.map f = some b) : ∃ a, x = .ok a ∧ f a = b := by
  cases x with
  | error e => cases h
  | ok a => exact ⟨a, rfl, Option.some.inj h⟩

/-- A `map` that returned a value mapped a value. -/
@[simp] theorem map_eq_ok {x : Except ε α} {f : α → β} {b : β} :
    f <$> x = .ok b ↔ ∃ a, x = .ok a ∧ f a = b := by
  cases x with
  | error e => simp [Functor.map, Except.map]
  | ok a => simp [Functor.map, Except.map]

/-- A `map` that failed failed before it. -/
theorem map_eq_error {x : Except ε α} {f : α → β} {e : ε} :
    f <$> x = .error e ↔ x = .error e := by
  cases x with
  | error e' => simp [Functor.map, Except.map]
  | ok a => simp [Functor.map, Except.map]

/-- `Except.map` is `<$>`. -/
@[simp] theorem map_eq_fmap {f : α → β} {x : Except ε α} : x.map f = f <$> x := rfl

@[simp] theorem pure_eq_ok {a b : α} : (pure a : Except ε α) = .ok b ↔ a = b :=
  ⟨fun h => Except.ok.inj h, fun h => h ▸ rfl⟩

@[simp] theorem throw_ne_ok {e : ε} {b : α} : (throw e : Except ε α) ≠ .ok b := by
  simp [throw, throwThe, MonadExceptOf.throw]

/-- A value runs the rest of the computation on it. -/
@[simp] theorem ok_bind {a : α} {f : α → Except ε β} : (Except.ok a >>= f) = f a := rfl

/-- An error skips the rest of the computation. -/
@[simp] theorem error_bind {e : ε} {f : α → Except ε β} : (Except.error e >>= f) = .error e := rfl

/-- A `throw` skips the rest of the computation. -/
@[simp] theorem throw_bind {e : ε} {f : α → Except ε β} :
    (throw e >>= f : Except ε β) = throw e := rfl

/-- A guard that returns an error when its condition holds. -/
@[simp] theorem ite_error_eq_ok {c : Prop} [Decidable c] {e : ε} {x : Except ε α} {b : α} :
    (if c then Except.error e else x) = .ok b ↔ ¬ c ∧ x = .ok b := by
  by_cases h : c <;> simp [h]

/-- A branch that returns an error when its condition fails. -/
@[simp] theorem ite_eq_ok_error {c : Prop} [Decidable c] {e : ε} {x : Except ε α} {b : α} :
    (if c then x else Except.error e) = .ok b ↔ c ∧ x = .ok b := by
  by_cases h : c <;> simp [h]

/-- A guard `if c then throw e` that the computation passed did not hold. -/
@[simp] theorem ite_throw_eq_ok {c : Prop} [Decidable c] {e : ε} {x : Except ε α} {b : α} :
    (if c then throw e else x) = .ok b ↔ ¬ c ∧ x = .ok b := by
  by_cases h : c <;> simp [h]

/-- A guard `if c then throw e` of a `do` block that the computation passed did not hold. -/
@[simp] theorem ite_throw_bind_eq_ok {γ : Type} {c : Prop} [Decidable c] {e : ε}
    {f : γ → Except ε α} {x : Except ε α} {b : α} :
    (if c then throw e >>= f else x) = .ok b ↔ ¬ c ∧ x = .ok b := by
  by_cases h : c
  · simp only [h, if_true, not_true_eq_false, false_and, iff_false]
    exact fun h' ↦ throw_ne_ok h'
  · simp [h]

/-- A check that returns nothing returned it. -/
@[simp] theorem exists_eq_ok_unit {x : Except ε Unit} : (∃ u, x = .ok u) ↔ x = .ok () :=
  ⟨fun ⟨_, h⟩ => h, fun h => ⟨(), h⟩⟩

@[simp] theorem mapError_ok {ε' : Type} (f : ε → ε') (a : α) :
    (Except.ok a : Except ε α).mapError f = .ok a := rfl

@[simp] theorem mapError_error {ε' : Type} (f : ε → ε') (e : ε) :
    (Except.error e : Except ε α).mapError f = .error (f e) := rfl

/-- Rewording an error does not change a value. -/
@[simp] theorem mapError_eq_ok {ε' : Type} {f : ε → ε'} {x : Except ε α} {b : α} :
    x.mapError f = .ok b ↔ x = .ok b := by
  cases x <;> simp

/-- The value of a computation as a list of at most one element. -/
@[simp] theorem mem_toOption_toList {x : Except ε α} {a : α} : a ∈ x.toOption.toList ↔ x = .ok a := by
  cases x <;> simp [Except.toOption, eq_comm]

/-- Two continuations that agree on every value the first computation returns make the same
computation. -/
theorem bind_congr_ok {x : Except ε α} {f g : α → Except ε β} (h : ∀ a, x = .ok a → f a = g a) :
    x >>= f = x >>= g := by
  cases x with
  | error e => rfl
  | ok a => exact h a rfl

/-- A fold whose every step, from an accumulator of the invariant `I`, returns `g` of its
arguments, and keeps `I`, computed `List.foldl g`. -/
theorem foldlM_eq_ok_foldl {f : β → α → Except ε β} (g : β → α → β) (I : β → Prop) {l : List α}
    {init r : β} (h : l.foldlM f init = .ok r) (hinit : I init)
    (hstep : ∀ b a b', a ∈ l → I b → f b a = .ok b' → I b' ∧ b' = g b a) :
    I r ∧ r = l.foldl g init := by
  induction l generalizing init with
  | nil =>
    have : init = r := Except.ok.inj h
    exact ⟨this ▸ hinit, this.symm⟩
  | cons a l ih =>
    rw [List.foldlM_cons, bind_eq_ok] at h
    obtain ⟨b, hb, hrest⟩ := h
    obtain ⟨hIb, rfl⟩ := hstep init a b List.mem_cons_self hinit hb
    exact ih hrest hIb fun b a b' ha ↦ hstep b a b' (List.mem_cons_of_mem _ ha)

/-- A fold whose `i`-th step, from an accumulator of the invariant `I i`, returns one of
`I (i + 1)`, returns the value `I l.length` names. -/
theorem foldlM_eq_ok_of_indexed {f : β → α → Except ε β} (I : Nat → β → Prop) {l : List α}
    {init r : β} (hinit : I 0 init)
    (hstep : ∀ i (hi : i < l.length) b, I i b → ∃ b', f b (l.get ⟨i, hi⟩) = .ok b' ∧ I (i + 1) b')
    (hfin : ∀ b, I l.length b → b = r) : l.foldlM f init = .ok r := by
  induction l generalizing I init with
  | nil => exact congrArg Except.ok (hfin init hinit)
  | cons a l ih =>
    obtain ⟨b, hb, hIb⟩ := hstep 0 (Nat.succ_pos _) init hinit
    have hb' : f init a = .ok b := hb
    rw [List.foldlM_cons, hb', ok_bind]
    exact ih (fun i b ↦ I (i + 1) b) hIb (fun i hi b hI ↦ hstep (i + 1) (Nat.succ_lt_succ hi) b hI)
      hfin

/-- A fold that returned a value ran every step with a value. -/
theorem forall_of_foldlM_eq_ok {f : β → α → Except ε β} (P : α → Prop) {l : List α} {init r : β}
    (h : l.foldlM f init = .ok r) (hstep : ∀ b a b', f b a = .ok b' → P a) : ∀ a ∈ l, P a := by
  induction l generalizing init with
  | nil => simp
  | cons a l ih =>
    rw [List.foldlM_cons, bind_eq_ok] at h
    obtain ⟨b, hb, hrest⟩ := h
    exact List.forall_mem_cons.mpr ⟨hstep init a b hb, ih hrest⟩

end Except
