/-!
# Computations that may fail

When a computation on `Except` succeeds, and when two of them come to the same although their faults differ.
-/

namespace TestMeasures

variable {ε ε' α β : Type}

/-- A computation that goes on with the result of another succeeds when both do. -/
theorem except_bind_ok {x : Except ε α} {f : α → Except ε β} {b : β} :
    x >>= f = .ok b ↔ ∃ a, x = .ok a ∧ f a = .ok b := by
  cases x <;> simp [bind, Except.bind]

/-- A computation that changes the result of another succeeds with what it makes of that. -/
theorem map_eq_ok_iff {x : Except ε α} {f : α → β} {b : β} :
    x.map f = .ok b ↔ ∃ a, x = .ok a ∧ f a = b := by
  cases x <;> simp [Except.map]

/-- What a computation comes to, its fault left out, is what it succeeds with. -/
theorem to_option_eq_some_iff {x : Except ε α} {a : α} : x.toOption = some a ↔ x = .ok a := by
  cases x <;> simp [Except.toOption]

/-- A computation succeeds when it has a result. -/
theorem is_ok_iff {x : Except ε α} : x.isOk = true ↔ ∃ a, x = .ok a := by
  cases x with
  | error error => simp [Except.isOk, Except.toBool]
  | ok a => exact ⟨fun _ => ⟨a, rfl⟩, fun _ => rfl⟩

/-- Changing its result does not tell whether a computation succeeds. -/
theorem is_ok_map (x : Except ε α) (f : α → β) : (x.map f).isOk = x.isOk := by
  cases x <;> rfl

/-- Two computations that come to the same both fail or succeed with one value. -/
theorem alike_cases {x : Except ε α} {y : Except ε' α} (h : x.toOption = y.toOption) :
    (∃ error error', x = .error error ∧ y = .error error') ∨ ∃ value, x = .ok value ∧ y = .ok value := by
  cases x with
  | error error =>
      cases y with
      | error error' => exact .inl ⟨error, error', rfl, rfl⟩
      | ok value => cases h
  | ok value =>
      cases y with
      | error error' => cases h
      | ok value' =>
          obtain rfl : value = value' := Option.some.inj h
          exact .inr ⟨value, rfl, rfl⟩

/-- What is made of two computations that come to the same comes to the same. -/
theorem alike_map {x : Except ε α} {y : Except ε' α} (h : x.toOption = y.toOption) (f : α → β) :
    (x.map f).toOption = (y.map f).toOption := by
  rcases alike_cases h with ⟨error, error', rfl, rfl⟩ | ⟨value, rfl, rfl⟩ <;> rfl

/-- Of two computations that come to the same, both succeed or neither. -/
theorem is_ok_of_alike {x : Except ε α} {y : Except ε' α} (h : x.toOption = y.toOption) : x.isOk = y.isOk := by
  rcases alike_cases h with ⟨error, error', rfl, rfl⟩ | ⟨value, rfl, rfl⟩ <;> rfl

end TestMeasures
