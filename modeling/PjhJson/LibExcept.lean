import Mathlib

/-! Computations that end with a value or with an error. `Upholds` states both ends at once: the value
has a property, or the error is one of those that are allowed. There is one rule for each way of
composing computations. -/

namespace Except

variable {ε α β : Type} {allowed : ε → Prop} {done : α → Prop} {then_ : β → Prop}

/-- The value satisfies `done`, or the error is an allowed one. -/
def Upholds (allowed : ε → Prop) (done : α → Prop) : Except ε α → Prop
  | .ok a => done a
  | .error e => allowed e

@[simp] theorem ok_bind (a : α) (next : α → Except ε β) : ((.ok a : Except ε α) >>= next) = next a :=
  rfl

@[simp] theorem error_bind (e : ε) (next : α → Except ε β) :
    ((.error e : Except ε α) >>= next) = .error e := rfl

@[simp] theorem pure_eq_ok (a : α) : (pure a : Except ε α) = .ok a := rfl

theorem bind_eq_ok {run : Except ε α} {next : α → Except ε β} {b : β} :
    (run >>= next) = .ok b ↔ ∃ a, run = .ok a ∧ next a = .ok b := by
  constructor
  · intro h
    cases run with
    | ok a => exact ⟨a, rfl, h⟩
    | error e => cases h
  · rintro ⟨a, rfl, h⟩
    exact h

theorem upholds_pure {a : α} (h : done a) : Upholds allowed done (pure a : Except ε α) := h

theorem upholds_ok {a : α} (h : done a) : Upholds allowed done (.ok a) := h

theorem upholds_error {e : ε} (h : allowed e) : Upholds allowed done (.error e) := h

theorem Upholds.bind {run : Except ε α} {next : α → Except ε β} (h : Upholds allowed done run)
    (hnext : ∀ a, done a → Upholds allowed then_ (next a)) :
    Upholds allowed then_ (run >>= next) := by
  cases run with
  | ok a => exact hnext a h
  | error e => exact h

/-- An `if` that stops with an error, or goes on. -/
theorem upholds_guard {c : Prop} [Decidable c] {e : ε} {run : Except ε α} (he : allowed e)
    (h : ¬c → Upholds allowed done run) :
    Upholds allowed done (if c then .error e else run) := by
  split
  · exact he
  · exact h ‹_›

theorem upholds_ite {c : Prop} [Decidable c] {run other : Except ε α}
    (h : c → Upholds allowed done run) (hother : ¬c → Upholds allowed done other) :
    Upholds allowed done (if c then run else other) := by
  split
  · exact h ‹_›
  · exact hother ‹_›

end Except
