import Mathlib.Algebra.Order.Ring.Int
import Mathlib.Data.List.Basic

/-! Texts under a scanner that keeps a level. A text is nested where the scanner comes back to its state
and never sinks below its level on the way; some bytes are marks, at which it has to be calm. Poised texts
may follow each other, and a nested text may be enclosed. -/

namespace Nesting

variable {σ α : Type} {step : σ → α → σ} {level : σ → Int} {calm : σ → Prop} {mark : α → Prop}

/-- The scanner passes the text from `s` to `s`, at no lower level, and is calm in front of every mark. -/
structure Poised (step : σ → α → σ) (level : σ → Int) (calm : σ → Prop) (mark : α → Prop) (s : σ)
    (text : List α) : Prop where
  back : text.foldl step s = s
  above : ∀ front, front <+: text → level s ≤ level (front.foldl step s)
  calm : ∀ front c, front ++ [c] <+: text → mark c → calm (front.foldl step s)

variable {s t : σ} {text more : List α}

theorem poised_nil : Poised step level calm mark s [] where
  back := rfl
  above front h := by
    rw [List.prefix_nil.mp h]
    exact le_refl _
  calm front c h := absurd (List.prefix_nil.mp h) (by simp)

/-- A prefix of two texts is one of the first, or the first with a prefix of the second. -/
theorem prefix_append_cases {front : List α} (h : front <+: text ++ more) :
    front <+: text ∨ ∃ back, front = text ++ back ∧ back <+: more := by
  obtain ⟨rest, hrest⟩ := h
  rcases List.append_eq_append_iff.mp hrest with ⟨middle, htext, -⟩ | ⟨middle, hfront, hmore⟩
  · exact .inl ⟨middle, htext.symm⟩
  · exact .inr ⟨middle, hfront, rest, hmore.symm⟩

theorem Poised.append (h : Poised step level calm mark s text) (hmore : Poised step level calm mark s more) :
    Poised step level calm mark s (text ++ more) where
  back := by rw [List.foldl_append, h.back, hmore.back]
  above front hfront := by
    rcases prefix_append_cases hfront with hfront | ⟨back, rfl, hback⟩
    · exact h.above front hfront
    · rw [List.foldl_append, h.back]
      exact hmore.above back hback
  calm front c hfront hmark := by
    rcases prefix_append_cases hfront with hfront | ⟨back, hboth, hback⟩
    · exact h.calm front c hfront hmark
    · rcases List.eq_nil_or_concat back with rfl | ⟨front', d, rfl⟩
      · rw [List.append_nil] at hboth
        exact h.calm front c (hboth ▸ List.prefix_refl _) hmark
      · rw [List.concat_eq_append, ← List.append_assoc] at hboth
        obtain ⟨rfl, hc⟩ := List.append_inj' hboth rfl
        obtain rfl := List.singleton_inj.mp hc
        rw [List.foldl_append, h.back]
        rw [List.concat_eq_append] at hback
        exact hmore.calm front' c hback hmark

/-- A text in brackets: behind the first bracket the scanner is at `t`, and the second one leads back. -/
theorem Poised.enclosed {first last : α} (h : Poised step level calm mark t text) (hfirst : step s first = t)
    (hlast : step t last = s) (hlevel : level s ≤ level t) (hmarks : ¬mark first ∧ ¬mark last) :
    Poised step level calm mark s (first :: (text ++ [last])) where
  back := by rw [List.foldl_cons, hfirst, List.foldl_append, h.back, List.foldl_cons, hlast, List.foldl_nil]
  above front hfront := by
    cases front with
    | nil => exact le_refl _
    | cons c front =>
        obtain ⟨rfl, hinner⟩ := List.cons_prefix_cons.mp hfront
        rw [List.foldl_cons, hfirst]
        rcases prefix_append_cases hinner with hinner | ⟨back, rfl, hback⟩
        · exact hlevel.trans (h.above front hinner)
        · rw [List.foldl_append, h.back]
          rcases List.prefix_cons_iff.mp hback with rfl | ⟨rest, rfl, hrest⟩
          · exact hlevel
          · rw [List.prefix_nil.mp hrest, List.foldl_cons, hlast, List.foldl_nil]
  calm front c hfront hmark := by
    cases front with
    | nil =>
        obtain ⟨rfl, -⟩ := List.cons_prefix_cons.mp hfront
        exact absurd hmark hmarks.1
    | cons d front =>
        rw [List.cons_append] at hfront
        obtain ⟨rfl, hinner⟩ := List.cons_prefix_cons.mp hfront
        rw [List.foldl_cons, hfirst]
        rcases prefix_append_cases hinner with hinner | ⟨back, hboth, hback⟩
        · exact h.calm front c hinner hmark
        · rcases List.prefix_cons_iff.mp hback with rfl | ⟨rest, rfl, hrest⟩
          · rw [List.append_nil] at hboth
            exact h.calm front c (hboth ▸ List.prefix_refl _) hmark
          · rw [List.prefix_nil.mp hrest] at hboth
            obtain ⟨-, hc⟩ := List.append_inj' hboth rfl
            obtain rfl := List.singleton_inj.mp hc
            exact absurd hmark hmarks.2

/-- Inside its brackets an enclosed text is at the level behind the first bracket, or above. -/
theorem Poised.inside {first last : α} (h : Poised step level calm mark t text) (hfirst : step s first = t)
    {front rest : List α} (hsplit : first :: (text ++ [last]) = front ++ rest) (hfront : front ≠ [])
    (hrest : rest ≠ []) : level t ≤ level (front.foldl step s) := by
  cases front with
  | nil => exact absurd rfl hfront
  | cons c front =>
      rw [List.cons_append] at hsplit
      obtain ⟨rfl, hinner⟩ := List.cons.inj hsplit
      rw [List.foldl_cons, hfirst]
      rcases List.eq_nil_or_concat rest with rfl | ⟨rest', d, rfl⟩
      · exact absurd rfl hrest
      · rw [List.concat_eq_append, ← List.append_assoc] at hinner
        obtain ⟨rfl, -⟩ := List.append_inj' hinner rfl
        exact h.above front ⟨rest', rfl⟩

/-- A text over symbols at which the scanner stands still. -/
theorem poised_still (h : ∀ c ∈ text, step s c = s) (hcalm : ∀ c ∈ text, mark c → calm s) :
    Poised step level calm mark s text := by
  have hback : ∀ front, front <+: text → front.foldl step s = s := by
    intro front hfront
    have hmem : ∀ c ∈ front, step s c = s := fun c hmem => h c (hfront.subset hmem)
    clear hfront
    induction front with
    | nil => rfl
    | cons c front ih =>
        rw [List.forall_mem_cons] at hmem
        rw [List.foldl_cons, hmem.1, ih hmem.2]
  exact
    { back := hback text (List.prefix_refl text)
      above := fun front hfront => (congrArg level (hback front hfront)).ge
      calm := fun front c hfront hmark => by
        rw [hback front ((List.prefix_append front [c]).trans hfront)]
        exact hcalm c (hfront.subset (List.mem_append_right front (List.mem_singleton_self c))) hmark }

end Nesting
