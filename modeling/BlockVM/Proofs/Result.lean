/-!
# Results and their first failure

A computation that may fail is a chain of binds. `bind_eq_ok` takes a chain that gives a value
apart, `bind_eq_error` one that fails. `bind_translate` and `ensure_translate` compare two chains,
step by step, whose failures are of different kinds.
-/

namespace BlockVM

variable {ε α β : Type}

theorem ok_bind {a : α} {f : α → Except ε β} : (Except.ok a >>= f) = f a := rfl

theorem bind_eq_ok {x : Except ε α} {f : α → Except ε β} {b : β} :
    (x >>= f) = .ok b ↔ ∃ a, x = .ok a ∧ f a = .ok b := by
  cases x with
  | error e => simp only [bind, Except.bind, reduceCtorEq, false_and, exists_false]
  | ok a => simp only [bind, Except.bind, Except.ok.injEq, exists_eq_left']

/-- It fails where the first part fails or, after it, the second. -/
theorem bind_eq_error {x : Except ε α} {f : α → Except ε β} {e : ε} :
    (x >>= f) = .error e ↔ x = .error e ∨ ∃ a, x = .ok a ∧ f a = .error e := by
  cases x with
  | error e' =>
    simp only [bind, Except.bind, Except.error.injEq, reduceCtorEq, false_and, exists_false,
      or_false]
  | ok a => simp only [bind, Except.bind, reduceCtorEq, Except.ok.injEq, exists_eq_left', false_or]

/-- A check that was passed, in front of the rest. -/
theorem ensure_eq_ok {P : Prop} [Decidable P] {e : ε} {f : Unit → Except ε α} {a : α} :
    (if P then (throw e : Except ε Unit) >>= f else f ()) = .ok a ↔ ¬ P ∧ f () = .ok a := by
  split
  next h => exact ⟨nofun, fun h' => absurd h h'.1⟩
  next h => exact ⟨fun h' => ⟨h, h'⟩, fun h' => h'.2⟩

theorem mapError_eq_ok {x : Except ε α} {f : ε → β} {a : α} :
    x.mapError f = .ok a ↔ x = .ok a := by
  cases x with
  | error e => exact ⟨nofun, nofun⟩
  | ok b =>
    constructor <;> intro h
    · cases h
      rfl
    · cases h
      rfl

theorem mapError_eq_error {x : Except ε α} {f : ε → β} {e : β} :
    x.mapError f = .error e ↔ ∃ e', x = .error e' ∧ e = f e' := by
  cases x with
  | error e' =>
    constructor
    · intro h
      cases h
      exact ⟨e', rfl, rfl⟩
    · rintro ⟨_, h, rfl⟩
      cases h
      rfl
  | ok a =>
    constructor
    · nofun
    · rintro ⟨_, h, -⟩
      cases h

/-- A value that passes a test. -/
theorem exists_of_any {x : Except ε α} {f : α → Bool} (h : x.toOption.any f = true) :
    ∃ a, x = .ok a ∧ f a = true := by
  cases x with
  | error e => cases h
  | ok a => exact ⟨a, rfl, h⟩

/-! ## Failures of another kind -/

section Translate

variable {γ : Type} {g : ε → γ} {f : α → Except γ β} {f' : α → Except ε β}

/-- Two chains fail in the same way if their steps do. -/
theorem bind_translate {x : Except γ α} {x' : Except ε α} (hx : x = x'.mapError g)
    (h : ∀ a, f a = (f' a).mapError g) : (x >>= f) = (x' >>= f').mapError g := by
  subst hx
  cases x' with
  | error e => rfl
  | ok a => exact h a

/-- A check may be translated before or after what follows it. -/
theorem ensure_translate {P : Prop} {inst : Decidable P} {e : ε} {f : Unit → Except γ β}
    {f' : Unit → Except ε β} (h : ¬ P → f () = (f' ()).mapError g) :
    (if P then (throw (g e) : Except γ Unit) >>= f else f ()) =
      (if P then (throw e : Except ε Unit) >>= f' else f' ()).mapError g := by
  by_cases hP : P
  · rw [if_pos hP, if_pos hP]
    rfl
  · rw [if_neg hP, if_neg hP, h hP]

end Translate

/-- What every element of a list gives, one after the other. -/
theorem mapM_eq_ok {f : α → Except ε β} {g : α → β} {xs : List α} (h : ∀ x ∈ xs, f x = .ok (g x)) :
    xs.mapM f = .ok (xs.map g) := by
  induction xs with
  | nil => rfl
  | cons x xs ih =>
    obtain ⟨hx, hxs⟩ := List.forall_mem_cons.mp h
    rw [List.mapM_cons, hx, ih hxs]
    rfl

end BlockVM
