/-!
# Computations that succeed

A computation that may fail succeeds exactly when each of its steps does.
-/

namespace RuleTrace

theorem bind_eq_ok {ε α β : Type} {x : Except ε α} {f : α → Except ε β} {b : β} :
    (x >>= f) = .ok b ↔ ∃ a, x = .ok a ∧ f a = .ok b := by
  cases x <;> simp [bind, Except.bind]

theorem map_eq_ok {ε α β : Type} {x : Except ε α} {f : α → β} {b : β} :
    x.map f = .ok b ↔ ∃ a, x = .ok a ∧ f a = b := by
  cases x <;> simp [Except.map]

theorem mapError_eq_ok {ε ε' α : Type} {x : Except ε α} {f : ε → ε'} {a : α} :
    x.mapError f = .ok a ↔ x = .ok a := by
  cases x with
  | error e => exact ⟨nofun, nofun⟩
  | ok b =>
    have hinj : ∀ {δ : Type}, (.ok b : Except δ α) = .ok a ↔ b = a :=
      ⟨Except.ok.inj, congrArg Except.ok⟩
    exact hinj.trans hinj.symm

end RuleTrace
