import Mathlib

/-! Scanners: functions that split a list into a token and the rest. `Stops` says where a maximal
run of a class ends, and a scanner is `Local` when the token alone decides its result: what follows
the token may be cut off anywhere. -/

namespace Scanner

variable {β ε α γ : Type}

/-- `rest` does not go on with an element of the class. -/
def Stops (p : β → Bool) (rest : List β) : Prop := ∀ c, rest.head? = some c → p c = false

theorem stops_nil (p : β → Bool) : Stops p [] := fun _ h => by simp at h

theorem stops_cons {p : β → Bool} {c : β} {rest : List β} : Stops p (c :: rest) ↔ p c = false := by
  simp [Stops]

theorem stops_dropWhile (p : β → Bool) (l : List β) : Stops p (l.dropWhile p) := by
  induction l with
  | nil => exact stops_nil p
  | cons c l ih =>
      rw [List.dropWhile_cons]
      split
      · exact ih
      · rename_i h
        exact stops_cons.mpr (by simpa using h)

theorem Stops.shorten {p : β → Bool} {rest suffix : List β} (h : Stops p rest)
    (hpre : suffix <+: rest) : Stops p suffix := by
  obtain ⟨more, rfl⟩ := hpre
  cases suffix with
  | nil => exact stops_nil p
  | cons c suffix => exact stops_cons.mpr (stops_cons.mp h)

/-- Maximal munch. -/
theorem takeWhile_run {p : β → Bool} {run rest : List β} (hrun : ∀ c ∈ run, p c = true)
    (hrest : Stops p rest) : (run ++ rest).takeWhile p = run := by
  rw [List.takeWhile_append_of_pos hrun]
  cases rest with
  | nil => simp
  | cons c rest => simp [stops_cons.mp hrest]

theorem dropWhile_run {p : β → Bool} {run rest : List β} (hrun : ∀ c ∈ run, p c = true)
    (hrest : Stops p rest) : (run ++ rest).dropWhile p = rest := by
  rw [List.dropWhile_append_of_pos hrun]
  cases rest with
  | nil => rfl
  | cons c rest => simp [stops_cons.mp hrest]

/-- Every list is a run of the class and a rest that stops it. -/
theorem exists_run (p : β → Bool) (l : List β) :
    ∃ run rest, l = run ++ rest ∧ (∀ c ∈ run, p c = true) ∧ Stops p rest :=
  ⟨l.takeWhile p, l.dropWhile p, List.takeWhile_append_dropWhile.symm,
    fun _ h => List.mem_takeWhile_imp h, stops_dropWhile p l⟩

/-- A success of the scanner is decided by its token. -/
def Local (scan : List β → Except ε (α × List β)) : Prop :=
  ∀ l a rest, scan l = .ok (a, rest) →
    ∃ token, l = token ++ rest ∧ ∀ suffix, suffix <+: rest → scan (token ++ suffix) = .ok (a, suffix)

theorem Local.bind {scan : List β → Except ε (α × List β)}
    {next : α → List β → Except ε (γ × List β)} (hscan : Local scan) (hnext : ∀ a, Local (next a)) :
    Local fun l => scan l >>= fun result => next result.1 result.2 := by
  intro l c rest h
  beta_reduce at h ⊢
  cases hfirst : scan l with
  | error e => rw [hfirst] at h; cases h
  | ok result =>
      rw [hfirst] at h
      obtain ⟨first, rfl, hlocal⟩ := hscan l result.1 result.2 hfirst
      obtain ⟨second, hrest, hlocal'⟩ := hnext result.1 result.2 c rest h
      refine ⟨first ++ second, by rw [hrest, List.append_assoc], ?_⟩
      intro suffix hsuffix
      have hpre : second ++ suffix <+: result.2 := by
        rw [hrest]
        exact (List.prefix_append_right_inj second).mpr hsuffix
      rw [List.append_assoc, hlocal _ hpre]
      exact hlocal' suffix hsuffix

end Scanner
