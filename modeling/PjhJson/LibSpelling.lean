import Mathlib

/-! Spellings that can be told apart in front of what follows. `Unambiguous` is the property of one
value: no text of it, in front of a continuation, begins like the text of a value that is not the same.
It passes from values to lists of values behind separators. -/

namespace Spelling

variable {α γ : Type}

/-- A text of `a`, in front of a continuation in `ends`, is the text of no value but the same. -/
def Unambiguous (spells : α → List γ → Prop) (ends : List γ → Prop) (same : α → α → Prop) (a : α) :
    Prop :=
  ∀ b x y s t, spells a x → spells b y → ends s → ends t → x ++ s = y ++ t → same a b ∧ s = t

section Separated

variable {spells : α → List γ → Prop} {ends : List γ → Prop} {same : α → α → Prop}
  {sep close : List γ}

/-- The texts, each behind the separator. -/
def separated (sep : List γ) (texts : List (List γ)) : List γ := texts.flatMap fun text => sep ++ text

/-- What follows a value in a list may follow it. -/
theorem ends_separated (hsep : ∀ z, ends (sep ++ z)) (hclose : ∀ z, ends (close ++ z))
    (texts : List (List γ)) (s : List γ) : ends (separated sep texts ++ (close ++ s)) := by
  cases texts with
  | nil => exact hclose s
  | cons text texts =>
      rw [separated, List.flatMap_cons, List.append_assoc, List.append_assoc]
      exact hsep _

/-- Lists that are closed by something no separator begins like. -/
theorem unambiguous_separated (hsep : ∀ z, ends (sep ++ z)) (hclose : ∀ z, ends (close ++ z))
    (hne : ∀ u v, sep ++ u ≠ close ++ v) {as bs : List α} {xs ys : List (List γ)} {s t : List γ}
    (has : ∀ a ∈ as, Unambiguous spells ends same a) (hxs : List.Forall₂ spells as xs)
    (hys : List.Forall₂ spells bs ys)
    (h : separated sep xs ++ (close ++ s) = separated sep ys ++ (close ++ t)) :
    List.Forall₂ same as bs ∧ s = t := by
  induction hxs generalizing bs ys with
  | nil =>
      cases hys with
      | nil => exact ⟨.nil, List.append_cancel_left h⟩
      | cons _ _ =>
          rw [separated, separated, List.flatMap_cons, List.append_assoc, List.append_assoc] at h
          exact absurd h.symm (hne _ _)
  | @cons a x as xs hx hxs ih =>
      cases hys with
      | nil =>
          rw [separated, separated, List.flatMap_cons, List.append_assoc, List.append_assoc] at h
          exact absurd h (hne _ _)
      | @cons b y bs ys hy hys =>
          rw [separated, separated, List.flatMap_cons, List.flatMap_cons, List.append_assoc,
            List.append_assoc, List.append_assoc, List.append_assoc] at h
          obtain ⟨ha, hrest⟩ := List.forall_mem_cons.mp has
          obtain ⟨hsame, hnext⟩ := ha b x y _ _ hx hy (ends_separated hsep hclose xs s)
            (ends_separated hsep hclose ys t) (List.append_cancel_left h)
          obtain ⟨hall, hst⟩ := ih hrest hys hnext
          exact ⟨.cons hsame hall, hst⟩

end Separated

/-- Texts over the symbols of a class, in front of what begins with none of them. -/
theorem append_inj_of_class {p : γ → Bool} {x y s t : List γ} (hx : ∀ c ∈ x, p c = true)
    (hy : ∀ c ∈ y, p c = true) (hs : ∀ c ∈ s.head?, p c = false) (ht : ∀ c ∈ t.head?, p c = false)
    (h : x ++ s = y ++ t) : x = y ∧ s = t := by
  have htake : ∀ z r : List γ, (∀ c ∈ z, p c = true) → (∀ c ∈ r.head?, p c = false) →
      (z ++ r).takeWhile p = z := by
    intro z r hz hr
    rw [List.takeWhile_append_of_pos hz]
    cases r with
    | nil => rw [List.takeWhile_nil, List.append_nil]
    | cons c r => rw [List.takeWhile_cons_of_neg (by simpa using hr c rfl), List.append_nil]
  have hxy : x = y := by rw [← htake x s hx hs, h, htake y t hy ht]
  subst hxy
  exact ⟨rfl, List.append_cancel_left h⟩

end Spelling
