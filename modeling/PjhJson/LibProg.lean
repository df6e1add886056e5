import Mathlib

/-! Programs over a mutable state that may fail or get stuck. A run ends with a value and a state,
or it fails and leaves a state behind (a function that returns `false`), or it is stuck: it read or
wrote outside its memory, or it used up the fuel that bounds a loop. `Simulates` relates a run to
the run of a model over other states, with one rule for each way of composing programs: what the
model does, the program does. -/

/-- The outcome of a computation: a value, a failure, or no outcome at all. -/
inductive Res (ε α : Type) where
  | ok (value : α)
  | error (failure : ε)
  | stuck
  deriving DecidableEq, Repr

namespace Res

variable {ε α β : Type}

def bind (result : Res ε α) (next : α → Res ε β) : Res ε β :=
  match result with
  | ok value => next value
  | error failure => error failure
  | stuck => stuck

instance : Monad (Res ε) where
  pure := ok
  bind := bind

@[simp] theorem pure_eq (value : α) : (pure value : Res ε α) = ok value := rfl

@[simp] theorem ok_bind (value : α) (next : α → Res ε β) : (ok value >>= next) = next value := rfl

@[simp] theorem error_bind (failure : ε) (next : α → Res ε β) :
    ((error failure : Res ε α) >>= next) = error failure := rfl

@[simp] theorem stuck_bind (next : α → Res ε β) : ((stuck : Res ε α) >>= next) = stuck := rfl

theorem bind_eq_ok {result : Res ε α} {next : α → Res ε β} {final : β} :
    (result >>= next) = ok final ↔ ∃ value, result = ok value ∧ next value = ok final := by
  cases result <;> simp

theorem bind_eq_error {result : Res ε α} {next : α → Res ε β} {failure : ε} :
    (result >>= next) = error failure ↔
      result = error failure ∨ ∃ value, result = ok value ∧ next value = error failure := by
  cases result <;> simp

theorem bind_eq_stuck {result : Res ε α} {next : α → Res ε β} :
    (result >>= next) = stuck ↔
      result = stuck ∨ ∃ value, result = ok value ∧ next value = stuck := by
  cases result <;> simp

end Res

/-- A program over states `σ` with results `α`; a failure keeps the state it stopped in. -/
def Prog (σ α : Type) := σ → Res σ (α × σ)

namespace Prog

variable {σ τ ε α β γ : Type}

instance : Monad (Prog σ) where
  pure value := fun state => .ok (value, state)
  bind program next := fun state => (program state).bind fun pair => next pair.1 pair.2

/-- The running program stops and reports failure. -/
def halt : Prog σ α := fun state => .error state

/-- Undefined behaviour, or a loop that ran out of fuel. -/
def stuck : Prog σ α := fun _ => .stuck

def get : Prog σ σ := fun state => .ok (state, state)

def modify (f : σ → σ) : Prog σ Unit := fun state => .ok ((), f state)

@[simp] theorem pure_apply (value : α) (state : σ) :
    (pure value : Prog σ α) state = .ok (value, state) := rfl

theorem bind_apply (program : Prog σ α) (next : α → Prog σ β) (state : σ) :
    (program >>= next) state = (program state >>= fun pair => next pair.1 pair.2) := rfl

@[simp] theorem halt_apply (state : σ) : (halt : Prog σ α) state = .error state := rfl

@[simp] theorem stuck_apply (state : σ) : (stuck : Prog σ α) state = .stuck := rfl

@[simp] theorem get_apply (state : σ) : (get : Prog σ σ) state = .ok (state, state) := rfl

@[simp] theorem modify_apply (f : σ → σ) (state : σ) :
    modify f state = .ok ((), f state) := rfl

theorem bind_get (next : σ → Prog σ α) (state : σ) : (get >>= next) state = next state state := rfl

theorem bind_modify (f : σ → σ) (next : Unit → Prog σ α) (state : σ) :
    (modify f >>= next) state = next () (f state) := rfl

theorem bind_assoc (program : Prog σ α) (next : α → Prog σ β) (last : β → Prog σ γ) :
    program >>= next >>= last = program >>= fun a => next a >>= last := by
  funext state
  rw [bind_apply, bind_apply, bind_apply]
  cases program state <;> rfl

theorem bind_of_ok {program : Prog σ α} {state : σ} {value : α} {next : σ}
    (h : program state = .ok (value, next)) (rest : α → Prog σ β) :
    (program >>= rest) state = rest value next := by
  rw [bind_apply, h, Res.ok_bind]

theorem bind_of_error {program : Prog σ α} {state next : σ}
    (h : program state = .error next) (rest : α → Prog σ β) :
    (program >>= rest) state = .error next := by
  rw [bind_apply, h, Res.error_bind]

/-- A program that starts in the same way goes on in the same way. -/
theorem bind_congr {program : Prog σ α} {state state' : σ} (h : program state = program state')
    (rest : α → Prog σ β) : (program >>= rest) state = (program >>= rest) state' := by
  rw [bind_apply, bind_apply, h]

/-! ### Partial correctness -/

/-- If the run ends with a value, the value and the state satisfy `done`. -/
def Yields (run : Res σ (α × σ)) (done : α → σ → Prop) : Prop :=
  ∀ a s, run = .ok (a, s) → done a s

section Yields

variable {done : α → σ → Prop}

theorem yields_ok {a : α} {s : σ} (h : done a s) : Yields (.ok (a, s)) done := by
  intro a' s' heq
  obtain ⟨rfl, rfl⟩ := Prod.mk.inj (Res.ok.inj heq)
  exact h

theorem yields_error (s : σ) : Yields (.error s) done := fun _ _ h => by cases h

theorem yields_stuck : Yields (.stuck) done := fun _ _ h => by cases h

theorem yields_bind {program : Prog σ α} {next : α → Prog σ β} {s : σ} {final : β → σ → Prop}
    (h : Yields (program s) done)
    (hnext : ∀ a s', done a s' → Yields (next a s') final) :
    Yields ((program >>= next) s) final := by
  rw [bind_apply]
  cases hrun : program s with
  | ok pair => exact hnext pair.1 pair.2 (h _ _ hrun)
  | error s' => exact yields_error s'
  | stuck => exact yields_stuck

theorem yields_mono {run : Res σ (α × σ)} {final : α → σ → Prop} (h : Yields run done)
    (hdone : ∀ a s, done a s → final a s) : Yields run final :=
  fun a s hrun => hdone a s (h a s hrun)

end Yields

/-! ### Total correctness -/

/-- The run ends: with a value and a state that satisfy `done`, or it fails in a state that satisfies
`failed`. -/
def Ends (run : Res σ (α × σ)) (done : α → σ → Prop) (failed : σ → Prop) : Prop :=
  match run with
  | .ok (a, s) => done a s
  | .error s => failed s
  | .stuck => False

section Ends

variable {done : α → σ → Prop} {failed : σ → Prop} {run : Res σ (α × σ)}

theorem ends_bind {program : Prog σ α} {next : α → Prog σ β} {s : σ} {final : β → σ → Prop}
    (h : Ends (program s) done failed)
    (hnext : ∀ a s', program s = .ok (a, s') → done a s' → Ends (next a s') final failed) :
    Ends ((program >>= next) s) final failed := by
  rw [bind_apply]
  cases hrun : program s with
  | ok pair => rw [hrun] at h; exact hnext pair.1 pair.2 hrun h
  | error s' => rw [hrun] at h; exact h
  | stuck => rw [hrun] at h; exact h

theorem ends_mono {final : α → σ → Prop} (h : Ends run done failed)
    (hdone : ∀ a s, done a s → final a s) : Ends run final failed := by
  cases run with
  | ok pair => exact hdone _ _ h
  | error s => exact h
  | stuck => exact h

theorem Ends.ok {a : α} {s : σ} (h : Ends run done failed) (hrun : run = .ok (a, s)) : done a s := by
  rw [hrun] at h
  exact h

theorem Ends.error {s : σ} (h : Ends run done failed) (hrun : run = .error s) : failed s := by
  rw [hrun] at h
  exact h

theorem Ends.ne_stuck (h : Ends run done failed) : run ≠ .stuck := by
  rintro rfl
  exact h

end Ends

/-! ### Simulation -/

/-- `run` does what the run of its model does: where the model ends, it ends in related values and
states, and where the model fails, it fails in a related state, unless that failure is excused. -/
def Simulates (run : Res σ (α × σ)) (model : Res τ (β × τ)) (done : α → σ → β → τ → Prop)
    (failed : σ → τ → Prop) (excused : τ → Prop) : Prop :=
  match model with
  | .ok (b, t) => ∃ a s, run = .ok (a, s) ∧ done a s b t
  | .error t => excused t ∨ ∃ s, run = .error s ∧ failed s t
  | .stuck => True

section Simulates

variable {failed : σ → τ → Prop} {excused : τ → Prop}

theorem simulates_ok {a : α} {s : σ} {b : β} {t : τ} {done : α → σ → β → τ → Prop}
    (h : done a s b t) : Simulates (.ok (a, s)) (.ok (b, t)) done failed excused :=
  ⟨a, s, rfl, h⟩

theorem simulates_error {s : σ} {t : τ} {done : α → σ → β → τ → Prop} (h : failed s t) :
    Simulates (.error s) (.error t) done failed excused :=
  .inr ⟨s, rfl, h⟩

theorem simulates_bind {program : Prog σ α} {model : Prog τ β} {s : σ} {t : τ} {α' β' : Type}
    {mid : α → σ → β → τ → Prop} {done : α' → σ → β' → τ → Prop}
    {next : α → Prog σ α'} {next' : β → Prog τ β'}
    (h : Simulates (program s) (model t) mid failed excused)
    (hnext : ∀ a s' b t', mid a s' b t' →
      Simulates (next a s') (next' b t') done failed excused) :
    Simulates ((program >>= next) s) ((model >>= next') t) done failed excused := by
  rw [bind_apply, bind_apply]
  cases hmodel : model t with
  | ok pair =>
      rw [hmodel] at h
      obtain ⟨a, s', hrun, hmid⟩ := h
      rw [hrun, Res.ok_bind, Res.ok_bind]
      exact hnext a s' pair.1 pair.2 hmid
  | error t' =>
      rw [hmodel] at h
      rcases h with h | ⟨s', hrun, hfailed⟩
      · exact .inl h
      · rw [hrun]
        exact simulates_error hfailed
  | stuck => trivial

/-- What follows a program does not matter where its model fails. -/
theorem simulates_of_failure {program : Prog σ α} {next : α → Prog σ γ} {s : σ} {model : Res τ (β × τ)}
    {done : γ → σ → β → τ → Prop}
    (h : Simulates (program s) model (fun _ _ _ _ => False) failed excused) :
    Simulates ((program >>= next) s) model done failed excused := by
  rw [bind_apply]
  cases model with
  | ok pair =>
      obtain ⟨_, _, _, hfalse⟩ := h
      exact hfalse.elim
  | error t =>
      rcases h with h | ⟨s', hrun, hfailed⟩
      · exact .inl h
      · rw [hrun]
        exact simulates_error hfailed
  | stuck => trivial

theorem simulates_mono {run : Res σ (α × σ)} {model : Res τ (β × τ)}
    {mid done : α → σ → β → τ → Prop} (h : Simulates run model mid failed excused)
    (hdone : ∀ a s b t, mid a s b t → done a s b t) :
    Simulates run model done failed excused := by
  cases model with
  | ok pair =>
      obtain ⟨a, s, hrun, hmid⟩ := h
      exact ⟨a, s, hrun, hdone a s _ _ hmid⟩
  | error t => exact h
  | stuck => trivial

/-- The program may wrap its result. -/
theorem simulates_left {program : Prog σ α} {run : Res τ (β × τ)} {s : σ} {f : α → γ}
    {mid : α → σ → β → τ → Prop} {done : γ → σ → β → τ → Prop}
    (h : Simulates (program s) run mid failed excused)
    (hdone : ∀ a s b t, mid a s b t → done (f a) s b t) :
    Simulates ((program >>= fun a => pure (f a)) s) run done failed excused := by
  rw [bind_apply]
  cases run with
  | ok pair =>
      obtain ⟨a, s', hrun, hmid⟩ := h
      exact ⟨f a, s', by rw [hrun]; rfl, hdone a s' _ _ hmid⟩
  | error t =>
      rcases h with h | ⟨s', hrun, hfailed⟩
      · exact .inl h
      · exact .inr ⟨s', by rw [hrun]; rfl, hfailed⟩
  | stuck => trivial

/-- The model may wrap its result. -/
theorem simulates_wrap {γ : Type} {run : Res σ (α × σ)} {model : Prog τ β} {t : τ} {f : β → γ}
    {done : α → σ → γ → τ → Prop}
    (h : Simulates run (model t) (fun a s b t => done a s (f b) t) failed excused) :
    Simulates run ((model >>= fun b => pure (f b)) t) done failed excused := by
  rw [bind_apply]
  cases hmodel : model t with
  | ok pair => rw [hmodel] at h; exact h
  | error t' => rw [hmodel] at h; exact h
  | stuck => trivial

end Simulates

end Prog
