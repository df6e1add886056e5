import Mathlib

/-! Checks that report where they fail. A check is given a buffer that says how its subject was reached. To
look at a part of the subject it marks the buffer, extends it by a step, and rewinds it to the mark before it
returns. What a check reports is a fault: the steps down to the failing part, and what is wrong there,
neither of which depends on the buffer. -/

namespace Trail

variable {σ β μ δ ε α : Type}

/-- How a step extends a buffer, along with the mark it leaves, and how a buffer is rewound to a mark. -/
structure Steps (σ β μ : Type) where
  enter : σ → β → μ × β
  rewind : μ → β → β
  rewind_enter : ∀ s b, rewind (enter s b).1 (enter s b).2 = b

/-- A check has no result, or a verdict and the buffer that it leaves. -/
def Check (β ε : Type) : Type := β → Option (Except ε Unit × β)

namespace Check

def ok : Check β ε := fun b => some (.ok (), b)

def fail (error : β → ε) : Check β ε := fun b => some (.error (error b), b)

/-- The second check runs if the first one succeeds. -/
def andThen (first next : Check β ε) : Check β ε := fun b => do
  let (verdict, b) ← first b
  match verdict with
  | .ok _ => next b
  | .error error => some (.error error, b)

/-- A fold over a list that the first failure ends. -/
def forEach (check : α → Check β ε) : List α → Check β ε
  | [] => ok
  | x :: xs => andThen (check x) (forEach check xs)

/-- A check of the part that the step `s` leads to. -/
def under (steps : Steps σ β μ) (s : σ) (check : Check β ε) : Check β ε := fun b => do
  let (mark, b) := steps.enter s b
  let (verdict, b) ← check b
  some (verdict, steps.rewind mark b)

/-- A check that needs a value which there may be none of. -/
def needs (value : Option α) (check : α → Check β ε) : Check β ε := fun b => do
  let value ← value
  check value b

end Check

open Check

/-! ### Faults -/

/-- The steps down to the failing part, and what is wrong there. -/
structure Fault (σ δ : Type) where
  hops : List σ
  detail : δ
  deriving DecidableEq

/-- The fault as it is seen from one step above. -/
def Fault.above (s : σ) (fault : Fault σ δ) : Fault σ δ := { fault with hops := s :: fault.hops }

/-- A buffer after some steps. -/
def Steps.follow (steps : Steps σ β μ) (b : β) (hops : List σ) : β :=
  hops.foldl (fun b s => (steps.enter s b).2) b

section Meaning

variable (steps : Steps σ β μ) (report : δ → β → ε)

/-- The error of a fault: its detail, and the buffer that its steps lead to. -/
def Fault.error (fault : Fault σ δ) (b : β) : ε := report fault.detail (steps.follow b fault.hops)

/-- From any buffer the check comes to the verdict, and leaves the buffer as it was. -/
def Runs (check : Check β ε) (verdict : Except (Fault σ δ) Unit) : Prop :=
  ∀ b, check b = some (verdict.mapError (·.error steps report b), b)

/-- The check succeeds if `holds`, and else with a fault that `blames` describes. -/
def Judges (holds : Prop) (blames : Fault σ δ → Prop) : Except (Fault σ δ) Unit → Prop
  | .ok _ => holds
  | .error fault => ¬holds ∧ blames fault

def Decides (check : Check β ε) (holds : Prop) (blames : Fault σ δ → Prop) : Prop :=
  ∃ verdict, Runs steps report check verdict ∧ Judges holds blames verdict

end Meaning

section Rules

variable {steps : Steps σ β μ} {report : δ → β → ε} {check next : Check β ε} {holds holds' : Prop}
  {blames blames' : Fault σ δ → Prop}

theorem Judges.congr {verdict : Except (Fault σ δ) Unit} (h : Judges holds blames verdict)
    (hiff : holds ↔ holds') (hblames : ∀ fault, blames fault → blames' fault) :
    Judges holds' blames' verdict := by
  cases verdict with
  | ok _ => exact hiff.mp h
  | error fault => exact ⟨fun hholds => h.1 (hiff.mpr hholds), hblames fault h.2⟩

theorem Decides.congr (h : Decides steps report check holds blames) (hiff : holds ↔ holds')
    (hblames : ∀ fault, blames fault → blames' fault) : Decides steps report check holds' blames' := by
  obtain ⟨verdict, hruns, hjudges⟩ := h
  exact ⟨verdict, hruns, hjudges.congr hiff hblames⟩

theorem decides_ok (h : holds) : Decides steps report ok holds blames := ⟨.ok (), fun _ => rfl, h⟩

theorem decides_fail {detail : δ} (h : ¬holds) (hblames : blames ⟨[], detail⟩) :
    Decides steps report (fail (report detail)) holds blames :=
  ⟨.error ⟨[], detail⟩, fun _ => rfl, h, hblames⟩

theorem decides_andThen (h : Decides steps report check holds blames)
    (hnext : Decides steps report next holds' blames) :
    Decides steps report (andThen check next) (holds ∧ holds') blames := by
  obtain ⟨verdict, hruns, hjudges⟩ := h
  cases verdict with
  | ok _ =>
      obtain ⟨verdict', hruns', hjudges'⟩ := hnext
      refine ⟨verdict', fun b => ?_, hjudges'.congr (and_iff_right hjudges).symm fun _ => id⟩
      rw [andThen, hruns b]
      exact hruns' b
  | error fault =>
      refine ⟨.error fault, fun b => ?_, fun hboth => hjudges.1 hboth.1, hjudges.2⟩
      rw [andThen, hruns b]
      rfl

theorem decides_forEach {f : α → Check β ε} {each : α → Prop} {xs : List α}
    (h : ∀ x ∈ xs, Decides steps report (f x) (each x) blames) :
    Decides steps report (forEach f xs) (∀ x ∈ xs, each x) blames := by
  induction xs with
  | nil => exact decides_ok fun _ hmem => absurd hmem List.not_mem_nil
  | cons x xs ih =>
      obtain ⟨hx, hxs⟩ := List.forall_mem_cons.mp h
      exact (decides_andThen hx (ih hxs)).congr List.forall_mem_cons.symm fun _ => id

/-- A fault below is reported with the step in front. -/
theorem decides_under {s : σ}
    (h : Decides steps report check holds fun fault => blames (fault.above s)) :
    Decides steps report (under steps s check) holds blames := by
  obtain ⟨verdict, hruns, hjudges⟩ := h
  refine ⟨verdict.mapError (Fault.above s), fun b => ?_, ?_⟩
  · rw [under]
    dsimp only
    rw [hruns, Option.bind_eq_bind, Option.bind_some, steps.rewind_enter]
    cases verdict <;> rfl
  · cases verdict with
    | ok _ => exact hjudges
    | error fault => exact hjudges

theorem decides_needs {value : Option α} {x : α} {f : α → Check β ε} (hvalue : value = some x)
    (h : Decides steps report (f x) holds blames) :
    Decides steps report (needs value f) holds blames := by
  rw [hvalue]
  exact h

end Rules

theorem forEach_congr {f f' : α → Check β ε} {xs : List α} (h : ∀ x ∈ xs, f x = f' x) :
    forEach f xs = forEach f' xs := by
  induction xs with
  | nil => rfl
  | cons x xs ih =>
      obtain ⟨hx, hxs⟩ := List.forall_mem_cons.mp h
      rw [forEach, forEach, hx, ih hxs]

end Trail
