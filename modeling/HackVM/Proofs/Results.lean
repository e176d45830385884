/-!
# Results in a row

Equations that run computations which may fail one after the other, and what is known of the
parts when the whole has succeeded.
-/

namespace HackVM

variable {ε α β γ : Type}

theorem bind_def (x : Except ε α) (f : α → Except ε β) : x >>= f = x.bind f := rfl

theorem map_def (f : α → β) (x : Except ε α) : f <$> x = x.map f := rfl

theorem pure_def (x : α) : (pure x : Except ε α) = .ok x := rfl

theorem ok_bind (x : α) (f : α → Except ε β) : (Except.ok x).bind f = f x := rfl

theorem error_bind (x : ε) (f : α → Except ε β) : (Except.error x).bind f = .error x := rfl

theorem bind_bind (x : Except ε α) (f : α → Except ε β) (g : β → Except ε γ) :
    (x.bind f).bind g = x.bind fun a => (f a).bind g := by
  cases x <;> rfl

theorem map_eq_bind (f : α → β) (x : Except ε α) :
    x.map f = x.bind fun a => .ok (f a) := by
  cases x <;> rfl

theorem exists_of_isOk {x : Except ε α} (h : x.isOk = true) : ∃ a, x = .ok a := by
  cases x with
  | error e => cases h
  | ok a => exact ⟨a, rfl⟩

theorem exists_of_bind_eq_ok {x : Except ε α} {f : α → Except ε β} {b : β}
    (h : x.bind f = .ok b) : ∃ a, x = .ok a ∧ f a = .ok b := by
  cases x with
  | error e => cases h
  | ok a => exact ⟨a, rfl, h⟩

end HackVM
