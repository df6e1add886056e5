import PjhJson.LibProg

/-! A program that is called again and again, each call yielding an item or failing; the caller may go on
after a failure. Invariants of the calls and simulations between programs carry over to the log of any
number of calls. -/

namespace Prog

variable {σ τ ε : Type}

/-- The log of `count` calls, with the item of each that succeeds, and the state they leave. -/
def calls (program : Prog σ Unit) (item : σ → ε) (start : σ) : Nat → Option (List (Option ε) × σ)
  | 0 => some ([], start)
  | count + 1 =>
    match calls program item start count with
    | none => none
    | some (log, s) =>
      match program s with
      | .ok (_, s) => some (log ++ [some (item s)], s)
      | .error s => some (log ++ [none], s)
      | .stuck => none

variable {program : Prog σ Unit} {item : σ → ε} {start : σ}

/-- What holds at the start and is kept by every call holds behind any number of calls. Where a failing
call leaves a final state, in which every call fails and changes nothing, the log is the items and then
failures only. -/
theorem calls_spec (start : σ) {inv : List ε → σ → Prop} {final : σ → Prop}
    (hfinal : ∀ s, final s → program s = .error s) (hstart : inv [] start)
    (hstep : ∀ items s, inv items s →
      Ends (program s) (fun _ s' => inv (items ++ [item s']) s') (fun s' => inv items s' ∧ final s'))
    (count : Nat) :
    ∃ (items : List ε) (failures : Nat) (s : σ),
      calls program item start count = some (items.map some ++ List.replicate failures none, s) ∧
        inv items s ∧ (0 < failures → final s) := by
  induction count with
  | zero => exact ⟨[], 0, start, rfl, hstart, fun h => absurd h (Nat.lt_irrefl 0)⟩
  | succ count ih =>
      obtain ⟨items, failures, s, hcalls, hinv, hlast⟩ := ih
      have hends := hstep items s hinv
      rw [calls, hcalls]
      simp only
      cases hrun : program s with
      | ok result =>
          have hnone : failures = 0 := by
            by_contra hne
            rw [hfinal s (hlast (Nat.pos_of_ne_zero hne))] at hrun
            cases hrun
          subst hnone
          rw [hrun] at hends
          exact ⟨items ++ [item result.2], 0, result.2, by simp, hends, fun h => absurd h (Nat.lt_irrefl 0)⟩
      | error s' =>
          rw [hrun] at hends
          refine ⟨items, failures + 1, s', ?_, hends.1, fun _ => hends.2⟩
          simp only
          rw [List.replicate_succ', List.append_assoc]
      | stuck => exact absurd hrun hends.ne_stuck

/-- A program does in every call what its model does. -/
theorem calls_simulates {model : Prog τ Unit} {item' : τ → ε} {start' : τ} {related : σ → τ → Prop}
    (hstep : ∀ s t, related s t →
      Simulates (program s) (model t) (fun _ s' _ t' => related s' t') related fun _ => False)
    (hitem : ∀ s t, related s t → item s = item' t) (hstart : related start start') {count : Nat}
    {log : List (Option ε)} {t : τ} (h : calls model item' start' count = some (log, t)) :
    ∃ s, calls program item start count = some (log, s) ∧ related s t := by
  induction count generalizing log t with
  | zero =>
      obtain ⟨rfl, rfl⟩ := Prod.mk.inj (Option.some.inj h)
      exact ⟨start, rfl, hstart⟩
  | succ count ih =>
      rw [calls] at h
      cases hcalls : calls model item' start' count with
      | none => rw [hcalls] at h; cases h
      | some result =>
          obtain ⟨log', t'⟩ := result
          obtain ⟨s', hcalls', hrelated⟩ := ih hcalls
          have hsimulates := hstep s' t' hrelated
          rw [hcalls] at h
          simp only at h
          rw [calls, hcalls']
          simp only
          cases hrun : model t' with
          | ok result =>
              rw [hrun] at h hsimulates
              obtain ⟨_, s, hrun', hdone⟩ := hsimulates
              obtain ⟨rfl, rfl⟩ := Prod.mk.inj (Option.some.inj h)
              rw [hrun']
              refine ⟨s, ?_, hdone⟩
              simp only
              rw [hitem s _ hdone]
          | error t =>
              rw [hrun] at h hsimulates
              obtain hfalse | ⟨s, hrun', hfailed⟩ := hsimulates
              · exact hfalse.elim
              · obtain ⟨rfl, rfl⟩ := Prod.mk.inj (Option.some.inj h)
                rw [hrun']
                exact ⟨s, rfl, hfailed⟩
          | stuck => rw [hrun] at h; cases h

/-! ### Successive calls -/

/-- From the outcome of a call to the outcome of a later one: all calls before that succeed and yield the
items. -/
inductive LeadsTo (program : Prog σ Unit) (item : σ → ε) :
    Res σ (Unit × σ) → List ε → Res σ (Unit × σ) → Prop
  | refl (run : Res σ (Unit × σ)) : LeadsTo program item run [] run
  | step {s : σ} {items : List ε} {last : Res σ (Unit × σ)} (h : LeadsTo program item (program s) items last) :
      LeadsTo program item (.ok ((), s)) (item s :: items) last

namespace LeadsTo

variable {run mid last : Res σ (Unit × σ)} {items more : List ε}

theorem trans (h : LeadsTo program item run items mid) (h' : LeadsTo program item mid more last) :
    LeadsTo program item run (items ++ more) last := by
  induction h with
  | refl run => exact h'
  | step _ ih => exact .step (ih h')

theorem one (s : σ) : LeadsTo program item (.ok ((), s)) [item s] (program s) := .step (.refl _)

end LeadsTo

/-- A call that fails and changes nothing is repeated by every later call. -/
theorem calls_stopped {count : Nat} {log : List (Option ε)} {s : σ}
    (h : calls program item start count = some (log, s)) (hstop : program s = .error s) (failures : Nat) :
    calls program item start (count + failures) = some (log ++ List.replicate failures none, s) := by
  induction failures with
  | zero => rw [Nat.add_zero, List.replicate_zero, List.append_nil, h]
  | succ failures ih =>
      rw [← Nat.add_assoc, calls, ih]
      simp only [hstop]
      rw [List.replicate_succ', List.append_assoc]

/-- What successive calls lead to is what they log. -/
theorem calls_leadsTo {run last : Res σ (Unit × σ)} {items : List ε}
    (h : LeadsTo program item run items last) {count : Nat} {log : List (Option ε)} {s : σ}
    (hcalls : calls program item start count = some (log, s)) (hrun : program s = run) :
    ∃ s', calls program item start (count + items.length) = some (log ++ items.map some, s') ∧
      program s' = last := by
  induction h generalizing count log s with
  | refl run => exact ⟨s, by simpa using hcalls, hrun⟩
  | step h ih =>
      rename_i s' items last
      have hnext : calls program item start (count + 1) = some (log ++ [some (item s')], s') := by
        rw [calls, hcalls]
        simp only [hrun]
      obtain ⟨s'', hcalls', hlast⟩ := ih hnext rfl
      refine ⟨s'', ?_, hlast⟩
      rw [List.length_cons, Nat.add_comm items.length, ← Nat.add_assoc, hcalls', List.map_cons,
        List.append_assoc, List.singleton_append]

/-- Calls that lead to a failure log it behind the items. -/
theorem calls_ends {items : List ε} {s : σ} (h : LeadsTo program item (program start) items (.error s)) :
    calls program item start (items.length + 1) = some (items.map some ++ [none], s) := by
  have hstart : calls program item start 0 = some ([], start) := rfl
  obtain ⟨s', hcalls, hlast⟩ := calls_leadsTo h hstart rfl
  rw [Nat.zero_add] at hcalls
  rw [calls, hcalls]
  simp only [hlast]
  rfl

theorem calls_succ {count : Nat} {log : List (Option ε)} {s : σ}
    (h : calls program item start (count + 1) = some (log, s)) :
    ∃ log' s', calls program item start count = some (log', s') ∧
      ((program s' = .ok ((), s) ∧ log = log' ++ [some (item s)]) ∨
        (program s' = .error s ∧ log = log' ++ [none])) := by
  rw [calls] at h
  cases hcalls : calls program item start count with
  | none =>
      rw [hcalls] at h
      cases h
  | some result =>
      obtain ⟨log', s'⟩ := result
      rw [hcalls] at h
      simp only at h
      refine ⟨log', s', rfl, ?_⟩
      cases hrun : program s' with
      | ok result =>
          rw [hrun] at h
          obtain ⟨rfl, rfl⟩ := Prod.mk.inj (Option.some.inj h)
          exact .inl ⟨rfl, rfl⟩
      | error s'' =>
          rw [hrun] at h
          obtain ⟨rfl, rfl⟩ := Prod.mk.inj (Option.some.inj h)
          exact .inr ⟨rfl, rfl⟩
      | stuck =>
          rw [hrun] at h
          cases h

/-- A log of items only: its calls lead to the next one. -/
theorem leadsTo_of_calls {count : Nat} {items : List ε} {s : σ}
    (h : calls program item start count = some (items.map some, s)) :
    LeadsTo program item (program start) items (program s) := by
  induction count generalizing items s with
  | zero =>
      obtain ⟨hitems, rfl⟩ := Prod.mk.inj (Option.some.inj h)
      obtain rfl : items = [] := List.map_eq_nil_iff.mp hitems.symm
      exact .refl _
  | succ count ih =>
      obtain ⟨log', s', hcalls, ⟨hrun, hlog⟩ | ⟨-, hlog⟩⟩ := calls_succ h
      · obtain ⟨before, last, rfl, rfl, hlast⟩ := List.map_eq_append_iff.mp hlog
        obtain ⟨e, rfl, he⟩ := List.map_eq_singleton_iff.mp hlast
        obtain rfl := Option.some.inj he
        have hleads := ih hcalls
        rw [hrun] at hleads
        exact hleads.trans (.one s)
      · obtain ⟨before, last, -, -, hlast⟩ := List.map_eq_append_iff.mp hlog
        obtain ⟨e, -, he⟩ := List.map_eq_singleton_iff.mp hlast
        cases he

/-- A log that ends with failures: its calls lead to the first of them. -/
theorem leadsTo_failure {count failures : Nat} {items : List ε} {s : σ}
    (h : calls program item start count = some (items.map some ++ List.replicate (failures + 1) none, s)) :
    ∃ s', LeadsTo program item (program start) items (.error s') := by
  induction failures generalizing count s with
  | zero =>
      cases count with
      | zero =>
          obtain ⟨hlog, -⟩ := Prod.mk.inj (Option.some.inj h)
          exact absurd hlog.symm (by simp)
      | succ count =>
          obtain ⟨log', s', hcalls, ⟨-, hlog⟩ | ⟨hrun, hlog⟩⟩ := calls_succ h
          · have hlast := (List.append_inj' hlog rfl).2
            cases hlast
          · obtain ⟨rfl, -⟩ := List.append_inj' hlog rfl
            have hleads := leadsTo_of_calls hcalls
            rw [hrun] at hleads
            exact ⟨s, hleads⟩
  | succ failures ih =>
      cases count with
      | zero =>
          obtain ⟨hlog, -⟩ := Prod.mk.inj (Option.some.inj h)
          exact absurd hlog.symm (by simp)
      | succ count =>
          obtain ⟨log', s', hcalls, hlog⟩ := calls_succ h
          have hbefore : log' = items.map some ++ List.replicate (failures + 1) none := by
            rw [List.replicate_succ', ← List.append_assoc] at hlog
            rcases hlog with ⟨-, hlog⟩ | ⟨-, hlog⟩
            · exact (List.append_inj' hlog rfl).1.symm
            · exact (List.append_inj' hlog rfl).1.symm
          rw [hbefore] at hcalls
          exact ih hcalls

end Prog
