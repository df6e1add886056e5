import PjhJson.StreamChunks
import PjhJson.StreamHistory

/-! Runs of the stream reader: any number of pulls over any bytes, in chunks of any size, well-formed or
not. -/

namespace PjhJson

/-- The log of `count` pulls of a new reader of the bytes, and the reader behind them. -/
def StreamReader.pulls (platform : Platform) (cfg : Config) (mode : StreamMode) (input : Bytes)
    (chunkSize count : Nat) : Option (List (Option JsonEvent) × StreamReader) :=
  Prog.calls (StreamReader.next platform) StreamReader.out
    (StreamReader.create cfg mode chunkSize { rest := input }) count

def Pull.pulls (platform : Platform) (cfg : Config) (mode : StreamMode) (input : Bytes) (count : Nat) :
    Option (List (Option JsonEvent) × Pull) :=
  Prog.calls (Pull.next platform cfg mode) Pull.out { rest := input } count

variable (platform : Platform) (cfg : Config) (mode : StreamMode) (input : Bytes)

theorem Told.restarted {h : History} {p : Pull} (ht : Told cfg mode h p) :
    Told cfg mode h { p with started := true } :=
  ⟨ht.nested, ht.root, ht.single, ht.depth, ht.finished, ht.out, rfl⟩

/-- The pulls of the machine: first the events of a history, then failures only. -/
theorem Pull.pulls_tell (count : Nat) : ∃ (h : History) (failures : Nat) (p : Pull),
    Pull.pulls platform cfg mode input count = some (h.events.map some ++ List.replicate failures none, p) ∧
      Told cfg mode h { p with started := true } ∧
      (0 < failures → p.halted = true ∧ p.started = true) := by
  have hstep : ∀ items p, (∃ h, Told cfg mode h { p with started := true } ∧ items = h.events) →
      Prog.Ends (Pull.next platform cfg mode p)
        (fun _ p' => ∃ h, Told cfg mode h { p' with started := true } ∧ items ++ [p'.out] = h.events)
        (fun p' => (∃ h, Told cfg mode h { p' with started := true } ∧ items = h.events) ∧
          p'.halted = true ∧ p'.started = true) := by
    rintro items p ⟨h, ht, rfl⟩
    have htells : Tells cfg mode h (Pull.next platform cfg mode p) := tells_next ht
    cases hrun : Pull.next platform cfg mode p with
    | ok result =>
        rw [hrun] at htells
        obtain ⟨h', ht', hevents⟩ := htells
        exact ⟨h', ht'.restarted, hevents.symm⟩
    | error p' =>
        rw [hrun] at htells
        exact ⟨⟨h, htells.1.restarted, rfl⟩, htells.2, htells.1.begun⟩
    | stuck =>
        rw [hrun] at htells
        exact htells.elim
  obtain ⟨items, failures, p, hcalls, ⟨h, ht, rfl⟩, hlast⟩ :=
    Prog.calls_spec { rest := input } (fun p hp => next_halted hp.1 hp.2) ⟨{}, told_start cfg mode input, rfl⟩
      hstep count
  exact ⟨h, failures, p, hcalls, ht, hlast⟩

/-- The reader follows the machine through any number of pulls. -/
theorem pulls_synced (chunkSize count : Nat) : ∃ log s p,
    StreamReader.pulls platform cfg mode input chunkSize count = some (log, s) ∧
      Pull.pulls platform cfg mode input count = some (log, p) ∧ Synced ⟨cfg, mode, input⟩ s p := by
  obtain ⟨h, failures, p, hpulls, -, -⟩ := Pull.pulls_tell platform cfg mode input count
  have hnext : ∀ s p, Synced ⟨cfg, mode, input⟩ s p →
      Mirrors ⟨cfg, mode, input⟩ (StreamReader.next platform s) (Pull.next platform cfg mode p)
        fun _ s' _ p' => Synced ⟨cfg, mode, input⟩ s' p' := fun _ _ hsynced => hsynced.next
  have hout : ∀ s p, Synced ⟨cfg, mode, input⟩ s p → s.out = p.out := fun _ _ hsynced => hsynced.out
  obtain ⟨s, hcalls, hsynced⟩ :=
    Prog.calls_simulates hnext hout (synced_create ⟨cfg, mode, input⟩ chunkSize) hpulls
  exact ⟨_, s, p, hcalls, hpulls, hsynced⟩

/-- How the stream is cut into chunks is not observable: not in the events, nor in the error and its
offset, nor in where the reader stands. -/
theorem pulls_chunkSize (chunkSize chunkSize' count : Nat) : ∃ log s s',
    StreamReader.pulls platform cfg mode input chunkSize count = some (log, s) ∧
      StreamReader.pulls platform cfg mode input chunkSize' count = some (log, s') ∧
      s.mError = s'.mError ∧ s.mFinished = s'.mFinished ∧ s.mStack = s'.mStack ∧ s.abs = s'.abs := by
  obtain ⟨log, s, p, hrun, hmodel, h⟩ := pulls_synced platform cfg mode input chunkSize count
  obtain ⟨log', s', p', hrun', hmodel', h'⟩ := pulls_synced platform cfg mode input chunkSize' count
  obtain ⟨rfl, rfl⟩ := Prod.mk.inj (Option.some.inj (hmodel.symm.trans hmodel'))
  refine ⟨log, s, s', hrun, hrun', h.error.trans h'.error.symm, h.finished.trans h'.finished.symm,
    h.stack.trans h'.stack.symm, ?_⟩
  have hoffset := h.offset
  have hoffset' := h'.offset
  omega

/-- A reader that has stopped does nothing. -/
theorem Synced.next_halted {setup : StreamSetup} {s : StreamReader} {p : Pull} (h : Synced setup s p)
    (hhalted : p.halted = true) (hstarted : p.started = true) :
    StreamReader.next platform s = .error s := by
  have hstop : (s.hasError || s.mFinished) = true := by
    rw [StreamReader.hasError, h.error, Option.isSome_map, h.finished]
    exact hhalted
  have hbegun : s.mStartChecked = true := h.started.trans hstarted
  rw [StreamReader.next, StreamReader.skipStartBom, Prog.bind_apply, Prog.bind_get, if_pos hbegun,
    Prog.pure_apply, Res.ok_bind, StreamReader.nextLoop, Prog.bind_get, if_pos hstop, Prog.halt_apply]

/-- Whatever the bytes are, the events pulled are the beginning of the events of a list of values, of all
of them at a clean end; the open containers are those of the stack, which the depth limit bounds. After
the first `false` there are only more, and the reader and the caller's event stay as they are. -/
theorem pulls_events (chunkSize count : Nat) :
    ∃ (events : List JsonEvent) (failures : Nat) (s : StreamReader) (values : List (Json Bytes)),
      StreamReader.pulls platform cfg mode input chunkSize count =
          some (events.map some ++ List.replicate failures none, s) ∧
        events <+: values.flatMap Json.events ∧
        (mode = .singleRoot → values.length ≤ 1) ∧
        (s.mFinished = true → s.mError = none ∧ events = values.flatMap Json.events ∧
          (mode = .singleRoot → values.length = 1)) ∧
        events.countP JsonEvent.opens = events.countP JsonEvent.closes + s.mStack.length ∧
        (cfg.maxDepth ≠ 0 → s.mStack.length ≤ cfg.maxDepth) ∧
        s.out = events.getLastD {} ∧
        (0 < failures → StreamReader.next platform s = .error s) := by
  obtain ⟨log, s, p, hrun, hmodel, hsynced⟩ := pulls_synced platform cfg mode input chunkSize count
  obtain ⟨h, failures, p', hmodel', ht, hlast⟩ := Pull.pulls_tell platform cfg mode input count
  obtain ⟨rfl, rfl⟩ := Prod.mk.inj (Option.some.inj (hmodel.symm.trans hmodel'))
  obtain ⟨values, hbegins, hlength, hclosed⟩ :=
    History.events_prefix h.roots h.opens ht.nested.takes_tail
  have hstack : s.mStack.length = h.opens.length := hsynced.stack ▸ ht.nested.length_eq
  have hroots : p.stack = [] → h.opens = [] := fun hnil =>
    List.eq_nil_of_length_eq_zero (by rw [← hstack, hsynced.stack, hnil, List.length_nil])
  refine ⟨h.events, failures, s, values, hrun, hbegins, fun hmode => ?_, fun hfinished => ?_, ?_, ?_, ?_, ?_⟩
  · have hsingle := ht.single hmode
    cases hroot : p.rootDone with
    | true =>
        rw [show ({ p with started := true } : Pull).rootDone = true from hroot, if_pos rfl] at hsingle
        rw [hclosed (hroots (ht.root hroot)), hsingle]
    | false =>
        rw [show ({ p with started := true } : Pull).rootDone = false from hroot,
          if_neg Bool.false_ne_true] at hsingle
        omega
  · obtain ⟨hfailure, hnil, hroot⟩ := ht.finished (hsynced.finished.symm.trans hfinished)
    have hopens := hroots hnil
    rw [hclosed hopens, hsynced.error, show p.failure = none from hfailure]
    refine ⟨rfl, ?_, fun hmode => ?_⟩
    · rw [History.events, hopens, List.reverse_nil, List.flatMap_nil, List.append_nil]
    · have hsingle := ht.single hmode
      rwa [hroot hmode, if_pos rfl] at hsingle
  · rw [hstack]
    exact h.count_events
  · rw [hsynced.stack]
    exact ht.depth
  · rw [hsynced.out]
    exact ht.out
  · exact fun hfailed => hsynced.next_halted platform (hlast hfailed).1 (hlast hfailed).2

end PjhJson
