import PjhJson.LibProg

/-! What a program leaves alone. A part of the state, the value of `part`, is kept by every run, or by
the runs that fail; or what holds at the end of a run held at its start. There is one rule for each
way of composing programs. -/

namespace Prog

variable {σ α β γ : Type} {part : σ → γ}

/-- The run ends in a state with this value of the part, however it ends. -/
def Leaves (part : σ → γ) (value : γ) : Res σ (α × σ) → Prop
  | .ok pair => part pair.2 = value
  | .error s => part s = value
  | .stuck => True

/-- If the run fails, the part has this value. -/
def Restores (part : σ → γ) (value : γ) : Res σ (α × σ) → Prop
  | .error s => part s = value
  | _ => True

/-- No run of the program touches the part. -/
def Keeps (part : σ → γ) (program : Prog σ α) : Prop := ∀ s, Leaves part (part s) (program s)

/-- No failed run of the program touches the part. -/
def KeepsOnFailure (part : σ → γ) (program : Prog σ α) : Prop :=
  ∀ s, Restores part (part s) (program s)

theorem Leaves.restores {value : γ} {run : Res σ (α × σ)} (h : Leaves part value run) :
    Restores part value run := by
  cases run with
  | ok pair => trivial
  | error s => exact h
  | stuck => trivial

theorem Keeps.onFailure {program : Prog σ α} (h : Keeps part program) :
    KeepsOnFailure part program := fun s => (h s).restores

theorem keeps_pure (a : α) : Keeps part (pure a : Prog σ α) := fun _ => rfl

theorem keeps_halt : Keeps part (halt : Prog σ α) := fun _ => rfl

theorem keeps_stuck : Keeps part (stuck : Prog σ α) := fun _ => trivial

theorem keeps_get : Keeps part (get : Prog σ σ) := fun _ => rfl

theorem keeps_modify {f : σ → σ} (h : ∀ s, part (f s) = part s) : Keeps part (modify f) := h

theorem keeps_bind {program : Prog σ α} {next : α → Prog σ β} (h : Keeps part program)
    (hnext : ∀ a, Keeps part (next a)) : Keeps part (program >>= next) := by
  intro s
  have hrun := h s
  rw [bind_apply]
  cases hprogram : program s with
  | ok pair =>
      rw [hprogram] at hrun
      have hrest := hnext pair.1 pair.2
      rwa [show part pair.2 = part s from hrun] at hrest
  | error s' =>
      rw [hprogram] at hrun
      exact hrun
  | stuck => trivial

theorem keeps_ite {c : Prop} [Decidable c] {program other : Prog σ α} (h : Keeps part program)
    (hother : Keeps part other) : Keeps part (if c then program else other) := by
  split
  · exact h
  · exact hother

/-- What comes first does not touch the part at all. -/
theorem keepsOnFailure_bind {program : Prog σ α} {next : α → Prog σ β} (h : Keeps part program)
    (hnext : ∀ a, KeepsOnFailure part (next a)) : KeepsOnFailure part (program >>= next) := by
  intro s
  have hrun := h s
  rw [bind_apply]
  cases hprogram : program s with
  | ok pair =>
      rw [hprogram] at hrun
      have hrest := hnext pair.1 pair.2
      rwa [show part pair.2 = part s from hrun] at hrest
  | error s' =>
      rw [hprogram] at hrun
      exact hrun
  | stuck => trivial

theorem keepsOnFailure_ite {c : Prop} [Decidable c] {program other : Prog σ α}
    (h : KeepsOnFailure part program) (hother : KeepsOnFailure part other) :
    KeepsOnFailure part (if c then program else other) := by
  split
  · exact h
  · exact hother

/-- An update cannot fail. -/
theorem keepsOnFailure_modify (f : σ → σ) : KeepsOnFailure part (modify f) := fun _ => trivial

/-- What follows does not touch the part. -/
theorem leaves_bind {program : Prog σ α} {next : α → Prog σ β} {s : σ} {value : γ}
    (h : Leaves part value (program s)) (hnext : ∀ a, Keeps part (next a)) :
    Leaves part value ((program >>= next) s) := by
  rw [bind_apply]
  cases hprogram : program s with
  | ok pair =>
      rw [hprogram] at h
      have hrest := hnext pair.1 pair.2
      rwa [show part pair.2 = value from h] at hrest
  | error s' =>
      rw [hprogram] at h
      exact h
  | stuck => trivial

theorem Keeps.ok {program : Prog σ α} (h : Keeps part program) {s s' : σ} {a : α}
    (hrun : program s = .ok (a, s')) : part s' = part s := by
  have hleaves := h s
  rw [hrun] at hleaves
  exact hleaves

theorem Keeps.error {program : Prog σ α} (h : Keeps part program) {s s' : σ}
    (hrun : program s = .error s') : part s' = part s := by
  have hleaves := h s
  rw [hrun] at hleaves
  exact hleaves

theorem KeepsOnFailure.error {program : Prog σ α} (h : KeepsOnFailure part program) {s s' : σ}
    (hrun : program s = .error s') : part s' = part s := by
  have hrestores := h s
  rw [hrun] at hrestores
  exact hrestores

/-! ### What the last part alone decides -/

theorem yields_of_next {program : Prog σ α} {next : α → Prog σ β} {s : σ} {done : β → σ → Prop}
    (h : ∀ a s', Yields (next a s') done) : Yields ((program >>= next) s) done :=
  yields_bind (fun _ _ _ => trivial) fun a s' (_ : True) => h a s'

theorem yields_ite {c : Prop} [Decidable c] {program other : Prog σ α} {s : σ}
    {done : α → σ → Prop} (h : Yields (program s) done) (hother : Yields (other s) done) :
    Yields ((if c then program else other) s) done := by
  split
  · exact h
  · exact hother

/-! ### What held at the start -/

/-- What holds at the end of a run that succeeds held at its start. -/
def Reflects (clear : σ → Prop) (program : Prog σ α) : Prop :=
  ∀ s a s', program s = .ok (a, s') → clear s' → clear s

variable {clear : σ → Prop}

theorem reflects_pure (a : α) : Reflects clear (pure a : Prog σ α) := by
  intro s a' s' h hclear
  obtain ⟨rfl, rfl⟩ := Prod.mk.inj (Res.ok.inj h)
  exact hclear

theorem reflects_halt : Reflects clear (halt : Prog σ α) := fun _ _ _ h => by cases h

theorem reflects_stuck : Reflects clear (stuck : Prog σ α) := fun _ _ _ h => by cases h

theorem reflects_get : Reflects clear (get : Prog σ σ) := by
  intro s a s' h hclear
  obtain ⟨rfl, rfl⟩ := Prod.mk.inj (Res.ok.inj h)
  exact hclear

theorem reflects_bind {program : Prog σ α} {next : α → Prog σ β} (h : Reflects clear program)
    (hnext : ∀ a, Reflects clear (next a)) : Reflects clear (program >>= next) := by
  intro s b s'' hrun hclear
  rw [bind_apply, Res.bind_eq_ok] at hrun
  obtain ⟨⟨a, s'⟩, hprogram, hrest⟩ := hrun
  exact h s a s' hprogram (hnext a s' b s'' hrest hclear)

theorem reflects_ite {c : Prop} [Decidable c] {program other : Prog σ α}
    (h : Reflects clear program) (hother : Reflects clear other) :
    Reflects clear (if c then program else other) := by
  split
  · exact h
  · exact hother

end Prog
