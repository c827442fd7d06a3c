import BlockVM.Machine.Dispatch

/-!
# How runs end

`Advances` makes a number of dispatches and `Ends` a whole run, without the bound on dispatches and
without the looks at the context that the loop has. Dispatches are functions, so a run that ends has
made every dispatch that it can make (`Ends.split`). `ends_of_dispatchFor` and `dispatchFor_of_ends`
join the relation and the loop, for cores that are never told to give up.
-/

namespace BlockVM

namespace Machine

variable {exec : Executor} {m m₁ m₂ m' : Machine} {n k : Nat} {o : Outcome}

/-- A number of dispatches that all succeed. -/
inductive Advances (exec : Executor) : Nat → Machine → Machine → Prop
  | refl (m : Machine) : Advances exec 0 m m
  | step {n : Nat} {m m₁ m₂ : Machine} (running : 0 ≤ m.core.pc)
      (done : m.dispatchWith exec = (m₁, none)) (rest : Advances exec n m₁ m₂) :
      Advances exec (n + 1) m m₂

/-- A run to its end, with the number of dispatches that succeeded. -/
inductive Ends (exec : Executor) : Nat → Machine → Machine → Outcome → Prop
  | halted {m : Machine} (halted : m.core.pc < 0) : Ends exec 0 m m .halted
  | stopped {m m' : Machine} {e : Stop} (running : 0 ≤ m.core.pc)
      (failed : m.dispatchWith exec = (m', some e)) : Ends exec 0 m m' (.stopped e)
  | step {n : Nat} {m m₁ m' : Machine} {o : Outcome} (running : 0 ≤ m.core.pc)
      (done : m.dispatchWith exec = (m₁, none)) (rest : Ends exec n m₁ m' o) :
      Ends exec (n + 1) m m' o

theorem Advances.single (running : 0 ≤ m.core.pc) (done : m.dispatchWith exec = (m', none)) :
    Advances exec 1 m m' :=
  .step running done (.refl m')

theorem Advances.trans (h : Advances exec n m m₁) (h' : Advances exec k m₁ m₂) :
    Advances exec (n + k) m m₂ := by
  induction h with
  | refl =>
    rw [Nat.zero_add]
    exact h'
  | step running done _ ih =>
    rw [Nat.add_right_comm]
    exact .step running done (ih h')

/-- An advance before an end is part of the run that ends. -/
theorem Advances.ends (h : Advances exec n m m₁) (h' : Ends exec k m₁ m' o) :
    Ends exec (n + k) m m' o := by
  induction h with
  | refl =>
    rw [Nat.zero_add]
    exact h'
  | step running done _ ih =>
    rw [Nat.add_right_comm]
    exact .step running done (ih h')

/-- A run that ends makes every dispatch that succeeds. -/
theorem Ends.split (h : Ends exec n m m' o) (h' : Advances exec k m m₁) :
    ∃ r, n = k + r ∧ Ends exec r m₁ m' o := by
  induction h' generalizing n with
  | refl => exact ⟨n, (Nat.zero_add n).symm, h⟩
  | @step k m m₁ m₂ running done _ ih =>
    cases h with
    | halted halted => exact absurd running (Int64.not_le.mpr halted)
    | stopped _ failed =>
      rw [done] at failed
      cases failed
    | @step n _ m₁' _ _ _ done' rest =>
      rw [done] at done'
      cases done'
      obtain ⟨r, rfl, hr⟩ := ih rest
      exact ⟨r, by omega, hr⟩

/-- A run has one end: its length, its last state and its outcome are determined. -/
theorem Ends.unique {x y : Machine} {o' : Outcome} (h : Ends exec n m x o)
    (h' : Ends exec k m y o') : n = k ∧ x = y ∧ o = o' := by
  -- A dispatch is a function of the machine, so two runs cannot part.
  induction h generalizing k with
  | halted halted =>
    cases h' with
    | halted => exact ⟨rfl, rfl, rfl⟩
    | stopped running _ => exact absurd running (Int64.not_le.mpr halted)
    | step running _ _ => exact absurd running (Int64.not_le.mpr halted)
  | stopped running failed =>
    cases h' with
    | halted halted => exact absurd running (Int64.not_le.mpr halted)
    | stopped _ failed' =>
      rw [failed] at failed'
      cases failed'
      exact ⟨rfl, rfl, rfl⟩
    | step _ done _ =>
      rw [failed] at done
      cases done
  | step running done _ ih =>
    cases h' with
    | halted halted => exact absurd running (Int64.not_le.mpr halted)
    | stopped _ failed =>
      rw [done] at failed
      cases failed
    | step _ done' rest =>
      rw [done] at done'
      cases done'
      obtain ⟨rfl, rfl, rfl⟩ := ih rest
      exact ⟨rfl, rfl, rfl⟩

theorem Advances.unique {x y : Machine} (h : Advances exec n m x) (h' : Advances exec n m y) :
    x = y := by
  induction h with
  | refl =>
    cases h' with
    | refl => rfl
  | step _ done _ ih =>
    cases h' with
    | step _ done' rest =>
      rw [done] at done'
      cases done'
      exact ih rest

/-- The first dispatches of many, and the others. -/
theorem Advances.take (h : Advances exec (n + k) m m') :
    ∃ x, Advances exec n m x ∧ Advances exec k x m' := by
  induction n generalizing m with
  | zero => exact ⟨m, .refl m, by rwa [Nat.zero_add] at h⟩
  | succ n ih =>
    rw [Nat.add_right_comm] at h
    cases h with
    | step running done rest =>
      obtain ⟨x, first, others⟩ := ih rest
      exact ⟨x, .step running done first, others⟩

/-- The first dispatches of a run, and the rest of it. -/
theorem Ends.take (h : Ends exec (n + k) m m' o) :
    ∃ x, Advances exec n m x ∧ Ends exec k x m' o := by
  induction n generalizing m with
  | zero => exact ⟨m, .refl m, by rwa [Nat.zero_add] at h⟩
  | succ n ih =>
    rw [Nat.add_right_comm] at h
    cases h with
    | step running done rest =>
      obtain ⟨x, first, others⟩ := ih rest
      exact ⟨x, .step running done first, others⟩

/-- A run makes a number of dispatches or ends before. -/
theorem advances_or_ends (exec : Executor) (n : Nat) (m : Machine) :
    (∃ x, Advances exec n m x) ∨ ∃ i x o, i < n ∧ Ends exec i m x o := by
  induction n generalizing m with
  | zero => exact .inl ⟨m, .refl m⟩
  | succ n ih =>
    by_cases halted : m.core.pc < 0
    · exact .inr ⟨0, m, .halted, Nat.zero_lt_succ n, .halted halted⟩
    have running := Int64.not_lt.mp halted
    cases dispatched : m.dispatchWith exec with
    | mk m₁ e =>
      cases e with
      | some e => exact .inr ⟨0, m₁, .stopped e, Nat.zero_lt_succ n, .stopped running dispatched⟩
      | none =>
        rcases ih m₁ with ⟨x, rest⟩ | ⟨i, x, o, hi, rest⟩
        · exact .inl ⟨x, .step running dispatched rest⟩
        · exact .inr ⟨i + 1, x, o, Nat.succ_lt_succ hi, .step running dispatched rest⟩

/-! ## The loop -/

/-- The core after a run, with its statistics and its observer up to date. -/
def concluded (o : Outcome) (m : Machine) : Machine :=
  match o with
  | .halted => m.finish none
  | .stopped e => m.finish (some e)
  | .unfinished => m

theorem runFor_eq (exec : Executor) (fuel : Nat) (m : Machine) :
    m.runFor exec fuel
      = ((dispatchFor exec fuel 0 m.begin).1.concluded (dispatchFor exec fuel 0 m.begin).2,
        (dispatchFor exec fuel 0 m.begin).2) := by
  unfold runFor
  cases dispatchFor exec fuel 0 m.begin with
  | mk m' o => cases o <;> rfl

section

variable {P : Machine → Prop} (calm : ∀ m, P m → m.proc.canceled = false)
  (keep : ∀ m m', P m → 0 ≤ m.core.pc → m.dispatchWith exec = (m', none) → P m')
include calm keep

theorem ends_of_dispatchFor {fuel : Nat} (hm : P m) (h : dispatchFor exec fuel n m = (m', o))
    (ho : o ≠ .unfinished) : ∃ k, Ends exec k m m' o := by
  induction fuel generalizing n m with
  | zero =>
    cases h
    exact absurd rfl ho
  | succ fuel ih =>
    unfold dispatchFor at h
    -- A calm machine never finds its context done.
    rw [if_neg (by simp [calm m hm])] at h
    split at h
    next halted =>
      cases h
      exact ⟨0, .halted halted⟩
    next running =>
      split at h
      next failed =>
        cases h
        exact ⟨0, .stopped (Int64.not_lt.mp running) failed⟩
      next m₁ done =>
        have running := Int64.not_lt.mp running
        obtain ⟨k, hk⟩ := ih (keep m m₁ hm running done) h
        exact ⟨k + 1, .step running done hk⟩

/-- A run that ends needs one dispatch of fuel more than its length. -/
theorem dispatchFor_of_ends (hm : P m) (h : Ends exec k m m' o) (n : Nat) :
    dispatchFor exec (k + 1) n m = (m', o) := by
  induction h generalizing n with
  | halted halted =>
    unfold dispatchFor
    rw [if_neg (by simp [calm _ hm]), if_pos halted]
  | stopped running failed =>
    unfold dispatchFor
    rw [if_neg (by simp [calm _ hm]), if_neg (Int64.not_lt.mpr running), failed]
  | step running done _ ih =>
    unfold dispatchFor
    rw [if_neg (by simp [calm _ hm]), if_neg (Int64.not_lt.mpr running), done]
    exact ih (keep _ _ hm running done) (n + 1)

/-- The ends of a run with a bound are the ends of the run. -/
theorem runFor_iff_ends (hm : P m.begin) (ho : o ≠ .unfinished) :
    (∃ fuel, m.runFor exec fuel = (m', o)) ↔
      ∃ k x, Ends exec k m.begin x o ∧ m' = x.concluded o := by
  constructor
  · rintro ⟨fuel, h⟩
    rw [runFor_eq] at h
    obtain ⟨rfl, rfl⟩ := Prod.mk.inj h
    obtain ⟨k, hk⟩ := ends_of_dispatchFor calm keep hm rfl ho
    exact ⟨k, _, hk, rfl⟩
  · rintro ⟨k, x, hk, rfl⟩
    refine ⟨k + 1, ?_⟩
    rw [runFor_eq, dispatchFor_of_ends calm keep hm hk 0]

end

end Machine

end BlockVM
