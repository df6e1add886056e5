import Mathlib

/-! Comparison functions that agree with the lexicographic order of codes. A code is a list of
integers; the codes in play are prefix codes, so that comparing two codes gives the same answer
whatever is appended to them. A comparison that agrees with such codes is a strict weak ordering. -/

namespace Order

variable {α : Type}

/-- A strict weak ordering on the values that satisfy `P`. -/
structure StrictWeak (lt : α → α → Bool) (P : α → Prop) : Prop where
  irrefl : ∀ a, P a → lt a a = false
  trans : ∀ a b c, P a → P b → P c → lt a b = true → lt b c = true → lt a c = true
  incomparable : ∀ a b c, P a → P b → P c → lt a b = false → lt b a = false →
    lt b c = false → lt c b = false → lt a c = false ∧ lt c a = false

/-- What two comparisons, one in each direction, say about the codes of the values compared. -/
inductive Verdict : Bool → Bool → List ℤ → List ℤ → Prop where
  | less {s t : List ℤ} (h : ∀ x y, s ++ x < t ++ y) : Verdict true false s t
  | same (s : List ℤ) : Verdict false false s s
  | greater {s t : List ℤ} (h : ∀ x y, t ++ y < s ++ x) : Verdict false true s t

/-- Compare element by element; a proper prefix is less. -/
def lexLess (lt : α → α → Bool) : List α → List α → Bool
  | x :: xs, y :: ys => if lt x y then true else if lt y x then false else lexLess lt xs ys
  | [], _ :: _ => true
  | _, [] => false

/-- The code of a list: every element is announced, so that an end sorts first. -/
def codeList (code : α → List ℤ) : List α → List ℤ
  | [] => [0]
  | x :: xs => 1 :: (code x ++ codeList code xs)

namespace Verdict

variable {lt gt : Bool} {s t : List ℤ}

theorem symm (h : Verdict lt gt s t) : Verdict gt lt t s := by
  cases h with
  | less h => exact .greater fun x y => h y x
  | same => exact .same s
  | greater h => exact .less fun x y => h y x

theorem lt_iff (h : Verdict lt gt s t) : lt = true ↔ s < t := by
  cases h with
  | less h =>
      have hlt := h [] []
      rw [List.append_nil, List.append_nil] at hlt
      exact iff_of_true rfl hlt
  | same => exact iff_of_false Bool.false_ne_true (lt_irrefl s)
  | greater h =>
      have hlt := h [] []
      rw [List.append_nil, List.append_nil] at hlt
      exact iff_of_false Bool.false_ne_true (lt_asymm hlt)

theorem eq_iff (h : Verdict lt gt s t) : lt = false ∧ gt = false ↔ s = t := by
  have hlt := h.lt_iff
  have hgt := h.symm.lt_iff
  rw [← Bool.not_eq_true, ← Bool.not_eq_true, hlt, hgt, not_lt, not_lt]
  exact ⟨fun hle => le_antisymm hle.2 hle.1, fun heq => ⟨heq.ge, heq.le⟩⟩

/-- Different codes are one way round or the other. -/
theorem eq_not (h : Verdict lt gt s t) (hne : s ≠ t) : gt = !lt := by
  cases h with
  | less h => rfl
  | same => exact absurd rfl hne
  | greater h => rfl

/-- Neither code is a proper prefix of the other. -/
theorem append_inj (h : Verdict lt gt s t) {x y : List ℤ} (heq : s ++ x = t ++ y) :
    s = t ∧ x = y := by
  cases h with
  | less h => exact absurd heq (h x y).ne
  | same => exact ⟨rfl, List.append_cancel_left heq⟩
  | greater h => exact absurd heq (h x y).ne'

theorem cons (h : Verdict lt gt s t) (n : ℤ) : Verdict lt gt (n :: s) (n :: t) := by
  cases h with
  | less h => exact .less fun x y => List.cons_lt_cons_iff.mpr (.inr ⟨rfl, h x y⟩)
  | same => exact .same _
  | greater h => exact .greater fun x y => List.cons_lt_cons_iff.mpr (.inr ⟨rfl, h x y⟩)

theorem of_lt {n m : ℤ} (h : n < m) (s t : List ℤ) : Verdict true false (n :: s) (m :: t) :=
  .less fun _ _ => List.cons_lt_cons_iff.mpr (.inl h)

theorem of_gt {n m : ℤ} (h : m < n) (s t : List ℤ) : Verdict false true (n :: s) (m :: t) :=
  (of_lt h t s).symm

theorem int (n m : ℤ) : Verdict (decide (n < m)) (decide (m < n)) [n] [m] := by
  rcases lt_trichotomy n m with h | rfl | h
  · rw [decide_eq_true h, decide_eq_false (lt_asymm h)]
    exact of_lt h [] []
  · rw [decide_eq_false (lt_irrefl n)]
    exact .same _
  · rw [decide_eq_true h, decide_eq_false (lt_asymm h)]
    exact of_gt h [] []

/-- The first comparison decides, unless it finds no difference. -/
theorem append {lt' gt' : Bool} {s' t' : List ℤ} (h : Verdict lt gt s t)
    (h' : Verdict lt' gt' s' t') :
    Verdict (if lt then true else if gt then false else lt')
      (if gt then true else if lt then false else gt') (s ++ s') (t ++ t') := by
  cases h with
  | less h =>
      refine .less fun x y => ?_
      rw [List.append_assoc, List.append_assoc]
      exact h _ _
  | same =>
      simp only [Bool.false_eq_true, if_false]
      cases h' with
      | less h' =>
          refine .less fun x y => ?_
          rw [List.append_assoc, List.append_assoc]
          exact List.append_left_lt (h' x y)
      | same => exact .same _
      | greater h' =>
          refine .greater fun x y => ?_
          rw [List.append_assoc, List.append_assoc]
          exact List.append_left_lt (h' x y)
  | greater h =>
      refine .greater fun x y => ?_
      rw [List.append_assoc, List.append_assoc]
      exact h _ _

/-- Lists compare as their codes if their elements do. -/
theorem list {lt : α → α → Bool} {code : α → List ℤ} {xs ys : List α}
    (h : ∀ x ∈ xs, ∀ y ∈ ys, Verdict (lt x y) (lt y x) (code x) (code y)) :
    Verdict (lexLess lt xs ys) (lexLess lt ys xs) (codeList code xs) (codeList code ys) := by
  induction xs generalizing ys with
  | nil =>
      cases ys with
      | nil => exact .same _
      | cons y ys => exact of_lt (by decide) _ _
  | cons x xs ih =>
      cases ys with
      | nil => exact of_gt (by decide) _ _
      | cons y ys =>
          rw [lexLess, lexLess, codeList, codeList]
          refine cons (append (h x List.mem_cons_self y List.mem_cons_self) (ih ?_)) 1
          exact fun a ha b hb => h a (List.mem_cons_of_mem _ ha) b (List.mem_cons_of_mem _ hb)

end Verdict

/-- Lists with the same code have elements with the same codes. -/
theorem codeList_inj {code : α → List ℤ} {xs ys : List α}
    (hinj : ∀ x ∈ xs, ∀ y ∈ ys, ∀ s t, code x ++ s = code y ++ t → code x = code y ∧ s = t) :
    codeList code xs = codeList code ys ↔ xs.map code = ys.map code := by
  induction xs generalizing ys with
  | nil => cases ys <;> simp [codeList]
  | cons x xs ih =>
      cases ys with
      | nil => simp [codeList]
      | cons y ys =>
          have hrest := ih fun a ha b hb =>
            hinj a (List.mem_cons_of_mem _ ha) b (List.mem_cons_of_mem _ hb)
          rw [codeList, codeList, List.map_cons, List.map_cons, List.cons.injEq, List.cons.injEq,
            ← hrest]
          refine ⟨fun h => hinj x List.mem_cons_self y List.mem_cons_self _ _ h.2, fun h => ?_⟩
          exact ⟨rfl, by rw [h.1, h.2]⟩

/-- A prefix code that tells the elements apart tells the lists apart. -/
theorem codeList_injective {code : α → List ℤ} {xs ys : List α}
    (hinj : ∀ x ∈ xs, ∀ y ∈ ys, ∀ s t, code x ++ s = code y ++ t → x = y ∧ s = t)
    (h : codeList code xs = codeList code ys) : xs = ys := by
  induction xs generalizing ys with
  | nil => cases ys with
    | nil => rfl
    | cons y ys => simp [codeList] at h
  | cons x xs ih =>
      cases ys with
      | nil => simp [codeList] at h
      | cons y ys =>
          rw [codeList, codeList, List.cons.injEq] at h
          obtain ⟨rfl, hrest⟩ := hinj x List.mem_cons_self y List.mem_cons_self _ _ h.2
          rw [ih (fun a ha b hb => hinj a (List.mem_cons_of_mem _ ha) b (List.mem_cons_of_mem _ hb))
            hrest]

theorem codeList_congr {β : Type} {code : α → List ℤ} {f : α → β} {code' : β → List ℤ} {xs : List α}
    (h : ∀ x ∈ xs, code' (f x) = code x) :
    codeList (fun x => code' (f x)) xs = codeList code xs := by
  induction xs with
  | nil => rfl
  | cons x xs ih =>
      rw [codeList, codeList, h x List.mem_cons_self,
        ih fun a ha => h a (List.mem_cons_of_mem _ ha)]

/-- A comparison that agrees with an order of codes is a strict weak ordering. -/
theorem strictWeak_of_code {lt : α → α → Bool} {P : α → Prop} {code : α → List ℤ}
    (h : ∀ a b, P a → P b → (lt a b = true ↔ code a < code b)) : StrictWeak lt P where
  irrefl a ha := by
    rw [← Bool.not_eq_true, h a a ha ha]
    exact lt_irrefl _
  trans a b c ha hb hc hab hbc :=
    (h a c ha hc).mpr (lt_trans ((h a b ha hb).mp hab) ((h b c hb hc).mp hbc))
  incomparable a b c ha hb hc hab hba hbc hcb := by
    rw [← Bool.not_eq_true, h a b ha hb, not_lt] at hab
    rw [← Bool.not_eq_true, h b a hb ha, not_lt] at hba
    rw [← Bool.not_eq_true, h b c hb hc, not_lt] at hbc
    rw [← Bool.not_eq_true, h c b hc hb, not_lt] at hcb
    rw [← Bool.not_eq_true, ← Bool.not_eq_true, h a c ha hc, h c a hc ha, not_lt, not_lt]
    exact ⟨hbc.trans hab, hba.trans hcb⟩

end Order
