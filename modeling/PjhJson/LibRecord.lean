import PjhJson.LibFrame

/-! Programs that record a failure. The mark, a part of the state, is what was recorded first: a run
never changes it again. A program may go on behind a record; the program that stops there instead
says which record came first. -/

namespace Prog

variable {σ α β γ : Type} {mark : σ → Option γ}

/-- What has been recorded stays, however the run ends. -/
def Stays (mark : σ → Option γ) (program : Prog σ α) : Prop :=
  ∀ s value, mark s = some value → Leaves mark (some value) (program s)

/-- How a run compares with the run that stops at the first record: without a record they are the
same, and otherwise the record is there when the run ends. -/
def Halted (mark : σ → Option γ) (first run : Res σ (α × σ)) : Prop :=
  match first with
  | .ok (a, s) => mark s = none ∧ run = .ok (a, s)
  | .error s => ∃ value, mark s = some value ∧ Leaves mark (some value) run
  | .stuck => run = .stuck

/-- `first` is `program`, made to stop at the first failure that it records. -/
structure StopsAtFirst (mark : σ → Option γ) (first program : Prog σ α) : Prop where
  stays : Stays mark program
  halted : ∀ s, mark s = none → Halted mark (first s) (program s)

/-- The program records a failure where it fails and nowhere else. -/
def Settles (mark : σ → Option γ) (program : Prog σ α) : Prop := StopsAtFirst mark program program

theorem Stays.reflects {program : Prog σ α} (h : Stays mark program) :
    Reflects (fun s => mark s = none) program := by
  intro s a s' hrun hnone
  cases hmark : mark s with
  | none => rfl
  | some value =>
      have hleaves := h s value hmark
      rw [hrun] at hleaves
      exact absurd (hnone.symm.trans hleaves) (by simp)

theorem stays_bind {program : Prog σ α} {next : α → Prog σ β} (h : Stays mark program)
    (hnext : ∀ a, Stays mark (next a)) : Stays mark (program >>= next) := by
  intro s value hmark
  have hleaves := h s value hmark
  rw [bind_apply]
  cases hrun : program s with
  | ok pair =>
      rw [hrun] at hleaves
      exact hnext pair.1 pair.2 value hleaves
  | error s' =>
      rw [hrun] at hleaves
      exact hleaves
  | stuck => trivial

theorem stopsAtFirst_bind {first program : Prog σ α} {next next' : α → Prog σ β}
    (h : StopsAtFirst mark first program) (hnext : ∀ a, StopsAtFirst mark (next a) (next' a)) :
    StopsAtFirst mark (first >>= next) (program >>= next') := by
  refine ⟨stays_bind h.stays fun a => (hnext a).stays, fun s hnone => ?_⟩
  have hhalted := h.halted s hnone
  rw [bind_apply, bind_apply]
  cases hfirst : first s with
  | ok pair =>
      rw [hfirst] at hhalted
      obtain ⟨hclear, hrun⟩ := hhalted
      rw [hrun]
      exact (hnext pair.1).halted pair.2 hclear
  | error s' =>
      rw [hfirst] at hhalted
      obtain ⟨value, hmark, hleaves⟩ := hhalted
      refine ⟨value, hmark, ?_⟩
      -- the program may have gone on: what follows keeps the record
      cases hrun : program s with
      | ok pair =>
          rw [hrun] at hleaves
          exact (hnext pair.1).stays pair.2 value hleaves
      | error s'' =>
          rw [hrun] at hleaves
          exact hleaves
      | stuck => trivial
  | stuck =>
      rw [hfirst] at hhalted
      rw [show program s = .stuck from hhalted]
      rfl

theorem stopsAtFirst_ite {c : Prop} [Decidable c] {first first' program program' : Prog σ α}
    (h : StopsAtFirst mark first program) (h' : StopsAtFirst mark first' program') :
    StopsAtFirst mark (if c then first else first') (if c then program else program') := by
  split
  · exact h
  · exact h'

theorem Settles.reflects {program : Prog σ α} (h : Settles mark program) :
    Reflects (fun s => mark s = none) program := StopsAtFirst.stays h |>.reflects

theorem settles_bind {program : Prog σ α} {next : α → Prog σ β} (h : Settles mark program)
    (hnext : ∀ a, Settles mark (next a)) : Settles mark (program >>= next) :=
  stopsAtFirst_bind h hnext

theorem settles_ite {c : Prop} [Decidable c] {program other : Prog σ α}
    (h : Settles mark program) (hother : Settles mark other) :
    Settles mark (if c then program else other) := stopsAtFirst_ite h hother

theorem settles_pure (a : α) : Settles mark (pure a : Prog σ α) :=
  ⟨fun _ _ hmark => hmark, fun _ hnone => ⟨hnone, rfl⟩⟩

theorem settles_stuck : Settles mark (stuck : Prog σ α) := ⟨fun _ _ _ => trivial, fun _ _ => rfl⟩

theorem settles_get : Settles mark (get : Prog σ σ) :=
  ⟨fun _ _ hmark => hmark, fun _ hnone => ⟨hnone, rfl⟩⟩

theorem settles_modify {f : σ → σ} (h : ∀ s, mark (f s) = mark s) : Settles mark (modify f) :=
  ⟨fun s _ hmark => (h s).trans hmark, fun s hnone => ⟨(h s).trans hnone, rfl⟩⟩

/-- Stop when something has been recorded. -/
def stopIfRecorded (mark : σ → Option γ) : Prog σ Unit := do
  let s ← get
  if (mark s).isSome then halt

theorem stopIfRecorded_none {s : σ} (h : mark s = none) : stopIfRecorded mark s = .ok ((), s) := by
  rw [stopIfRecorded, bind_get, h]
  rfl

theorem stopIfRecorded_some {s : σ} {value : γ} (h : mark s = some value) :
    stopIfRecorded mark s = .error s := by
  rw [stopIfRecorded, bind_get, h]
  rfl

theorem settles_stopIfRecorded : Settles mark (stopIfRecorded mark) := by
  refine ⟨fun s value hmark => ?_, fun s hnone => ?_⟩
  · rw [stopIfRecorded_some hmark]
    exact hmark
  · rw [stopIfRecorded_none hnone]
    exact ⟨hnone, rfl⟩

/-- A program that cannot fail may record and go on: it is checked behind each run. -/
theorem stopsAtFirst_check {program : Prog σ Unit} (hstays : Stays mark program)
    (hgoes : ∀ s s', program s ≠ .error s') :
    StopsAtFirst mark (program >>= fun _ => stopIfRecorded mark) program := by
  refine ⟨hstays, fun s hnone => ?_⟩
  rw [bind_apply]
  cases hrun : program s with
  | ok pair =>
      rw [Res.ok_bind]
      cases hmark : mark pair.2 with
      | none =>
          rw [stopIfRecorded_none hmark]
          exact ⟨hmark, rfl⟩
      | some value =>
          rw [stopIfRecorded_some hmark]
          exact ⟨value, hmark, hmark⟩
  | error s' => exact absurd hrun (hgoes s s')
  | stuck => rfl

end Prog
