import PjhJson.LibCalls
import PjhJson.ReadingTotal
import PjhJson.StreamPull

/-! What the events of a run have told. They are the events of the values that are complete and, for
every container that is still open, of what is complete of it: the stack of the machine and the history
of its events have the same shape, whatever the input is. -/

namespace PjhJson

def keyEvent (key : Bytes) : JsonEvent := { type := .mapKey, text := key }

namespace Json

mutual

/-- The events of a value, in the order of its text. -/
def events : Json Bytes → List JsonEvent
  | null => [{ type := .null }]
  | boolean value => [{ type := .boolean, boolean := value }]
  | integer value => [{ type := .integer, integer := value }]
  | double value => [{ type := .double, number := value }]
  | string value => [{ type := .string, text := value }]
  | array elements => { type := .beginArray } :: (eventsElements elements ++ [{ type := .endArray }])
  | object entries => { type := .beginObject } :: (eventsEntries entries ++ [{ type := .endObject }])

def eventsElements : List (Json Bytes) → List JsonEvent
  | [] => []
  | value :: rest => value.events ++ eventsElements rest

def eventsEntries : List (Bytes × Json Bytes) → List JsonEvent
  | [] => []
  | (key, value) :: rest => keyEvent key :: value.events ++ eventsEntries rest

end

/-- The events of a member: its key, and its value. -/
def entryEvents (entry : Bytes × Json Bytes) : List JsonEvent := keyEvent entry.1 :: entry.2.events

theorem eventsElements_eq (elements : List (Json Bytes)) :
    eventsElements elements = elements.flatMap events := by
  induction elements with
  | nil => rfl
  | cons value rest ih => rw [eventsElements, ih, List.flatMap_cons]

theorem eventsEntries_eq (entries : List (Bytes × Json Bytes)) :
    eventsEntries entries = entries.flatMap entryEvents := by
  induction entries with
  | nil => rfl
  | cons entry rest ih => rw [eventsEntries, ih, List.flatMap_cons, entryEvents]

theorem events_array (elements : List (Json Bytes)) : (array elements).events =
    { type := .beginArray } :: (elements.flatMap events ++ [{ type := .endArray }]) := by
  rw [events, eventsElements_eq]

theorem events_object (entries : List (Bytes × Json Bytes)) : (object entries).events =
    { type := .beginObject } :: (entries.flatMap entryEvents ++ [{ type := .endObject }]) := by
  rw [events, eventsEntries_eq]

end Json

/-- Whether the event opens or closes a container. -/
def JsonEvent.opens (event : JsonEvent) : Bool :=
  event.type == .beginObject || event.type == .beginArray

def JsonEvent.closes (event : JsonEvent) : Bool :=
  event.type == .endObject || event.type == .endArray

/-- As many containers are closed as opened. -/
def Balanced (events : List JsonEvent) : Prop :=
  events.countP JsonEvent.opens = events.countP JsonEvent.closes

theorem Balanced.append {events more : List JsonEvent} (h : Balanced events) (hmore : Balanced more) :
    Balanced (events ++ more) := by
  rw [Balanced, List.countP_append, List.countP_append, h, hmore]

theorem balanced_flatMap {α : Type} {items : List α} {f : α → List JsonEvent}
    (h : ∀ item ∈ items, Balanced (f item)) : Balanced (items.flatMap f) := by
  induction items with
  | nil => rfl
  | cons item rest ih =>
      rw [List.forall_mem_cons] at h
      exact h.1.append (ih h.2)

theorem Balanced.enclosed {events : List JsonEvent} (h : Balanced events) {first last : JsonEvent}
    (hfirst : first.opens = true ∧ first.closes = false) (hlast : last.opens = false ∧ last.closes = true) :
    Balanced (first :: (events ++ [last])) := by
  rw [Balanced] at h ⊢
  rw [List.countP_cons, List.countP_cons, List.countP_append, List.countP_append,
    List.countP_singleton, List.countP_singleton, hfirst.1, hfirst.2, hlast.1, hlast.2, h]
  rfl

theorem balanced_events (value : Json Bytes) : Balanced value.events := by
  induction value using Json.induct with
  | null => rfl
  | boolean value => rfl
  | integer value => rfl
  | double value => rfl
  | string value => rfl
  | array elements ih =>
      rw [Json.events_array]
      exact (balanced_flatMap ih).enclosed ⟨rfl, rfl⟩ ⟨rfl, rfl⟩
  | object entries ih =>
      rw [Json.events_object]
      refine (balanced_flatMap fun entry hmem => ?_).enclosed ⟨rfl, rfl⟩ ⟨rfl, rfl⟩
      exact (show Balanced [keyEvent entry.1] from rfl).append (ih entry hmem)

/-! ### Containers that have begun -/

/-- An open container as its events tell it: what is complete of it and, in an object, the key whose
value has not come yet. -/
inductive Begun where
  | array (elements : List (Json Bytes))
  | object (entries : List (Bytes × Json Bytes)) (key : Option Bytes)

namespace Begun

def opened : Frame.Kind → Begun
  | .object => object [] none
  | .array => array []

def kind : Begun → Frame.Kind
  | array _ => .array
  | object _ _ => .object

/-- Whether a value may come next. -/
def takes : Begun → Bool
  | array _ => true
  | object _ key => key.isSome

def put (value : Json Bytes) : Begun → Begun
  | array elements => array (elements ++ [value])
  | object entries key => object (entries ++ (key.map fun key => (key, value)).toList) none

/-- The container, if it ends here. -/
def whole : Begun → Json Bytes
  | array elements => .array elements
  | object entries _ => .object entries

def closing : Begun → JsonEvent
  | array _ => { type := .endArray }
  | object _ _ => { type := .endObject }

def events : Begun → List JsonEvent
  | array elements => { type := .beginArray } :: elements.flatMap Json.events
  | object entries key =>
    { type := .beginObject } :: (entries.flatMap Json.entryEvents ++ (key.map keyEvent).toList)

theorem events_put {c : Begun} (h : c.takes = true) (value : Json Bytes) :
    (c.put value).events = c.events ++ value.events := by
  cases c with
  | array elements => simp [put, events]
  | object entries key =>
      obtain ⟨key, rfl⟩ := Option.isSome_iff_exists.mp h
      simp [put, events, Json.entryEvents]

theorem events_whole {c : Begun} (h : ∀ entries key, c = object entries key → key = none) :
    c.whole.events = c.events ++ [c.closing] := by
  cases c with
  | array elements =>
      rw [whole, Json.events_array, events, closing, List.cons_append]
  | object entries key =>
      obtain rfl := h entries key rfl
      rw [whole, Json.events_object, events, closing, Option.map_none, Option.toList_none, List.append_nil,
        List.cons_append]

theorem events_prefix (c : Begun) : ∃ value : Json Bytes, c.events <+: value.events := by
  cases c with
  | array elements =>
      exact ⟨.array elements, [{ type := .endArray }], by rw [Json.events_array, events, List.cons_append]⟩
  | object entries key =>
      cases key with
      | none =>
          refine ⟨.object entries, [{ type := .endObject }], ?_⟩
          rw [Json.events_object, events, List.cons_append]
          simp
      | some key =>
          refine ⟨.object (entries ++ [(key, .null)]), [{ type := .null }, { type := .endObject }], ?_⟩
          rw [Json.events_object, events]
          simp [Json.entryEvents, Json.events]

/-- Its events open one container more than they close. -/
theorem count_events (c : Begun) :
    c.events.countP JsonEvent.opens = c.events.countP JsonEvent.closes + 1 := by
  cases c with
  | array elements =>
      have hbalanced : Balanced (elements.flatMap Json.events) :=
        balanced_flatMap fun value _ => balanced_events value
      rw [events, List.countP_cons, List.countP_cons, hbalanced]
      rfl
  | object entries key =>
      have hbalanced : Balanced (entries.flatMap Json.entryEvents) :=
        balanced_flatMap fun entry _ =>
          (show Balanced [keyEvent entry.1] from rfl).append (balanced_events entry.2)
      have hkey : Balanced ((key.map keyEvent).toList) := by cases key <;> rfl
      rw [events, List.countP_cons, List.countP_cons, hbalanced.append hkey]
      rfl

end Begun

/-- The values that are complete, and the open containers, innermost first. -/
structure History where
  roots : List (Json Bytes) := []
  opens : List Begun := []

namespace History

def events (h : History) : List JsonEvent :=
  h.roots.flatMap Json.events ++ h.opens.reverse.flatMap Begun.events

/-- A complete value goes to the innermost open container. -/
def put (value : Json Bytes) (h : History) : History :=
  match h.opens with
  | [] => { h with roots := h.roots ++ [value] }
  | c :: outer => { h with opens := c.put value :: outer }

def enter (c : Begun) (h : History) : History := { h with opens := c :: h.opens }

theorem events_enter (c : Begun) (h : History) : (h.enter c).events = h.events ++ c.events := by
  simp [events, enter]

theorem events_put {h : History} (htakes : ∀ c ∈ h.opens, c.takes = true) (value : Json Bytes) :
    (h.put value).events = h.events ++ value.events := by
  obtain ⟨roots, opens⟩ := h
  cases opens with
  | nil => simp [events, put]
  | cons c outer =>
      have hput := Begun.events_put (htakes c List.mem_cons_self) value
      simp [events, put, hput]

/-- The number of open containers is what the events have opened and not closed. -/
theorem count_events (h : History) :
    h.events.countP JsonEvent.opens = h.events.countP JsonEvent.closes + h.opens.length := by
  obtain ⟨roots, opens⟩ := h
  have hroots : Balanced (roots.flatMap Json.events) := balanced_flatMap fun value _ => balanced_events value
  induction opens with
  | nil =>
      rw [events, List.reverse_nil, List.flatMap_nil, List.append_nil]
      exact hroots
  | cons c outer ih =>
      have henter := events_enter c { roots, opens := outer }
      have hcount := c.count_events
      rw [enter] at henter
      rw [henter, List.countP_append, List.countP_append, List.length_cons, ih]
      simp only
      omega

/-- The history is the beginning of the events of a list of values: every open container may end now, in
an object behind a value. -/
theorem events_prefix (roots : List (Json Bytes)) (opens : List Begun)
    (htakes : ∀ c ∈ opens.tail, c.takes = true) :
    ∃ values : List (Json Bytes), (History.mk roots opens).events <+: values.flatMap Json.events ∧
      values.length ≤ roots.length + 1 ∧ (opens = [] → values = roots) := by
  induction hlength : opens.length generalizing roots opens with
  | zero =>
      obtain rfl := List.eq_nil_of_length_eq_zero hlength
      exact ⟨roots, by simp [events], Nat.le_succ _, fun _ => rfl⟩
  | succ n ih =>
      obtain ⟨c, outer, rfl⟩ := List.exists_cons_of_length_eq_add_one hlength
      obtain ⟨value, hvalue⟩ := c.events_prefix
      rw [List.tail_cons] at htakes
      have henter := events_enter c { roots, opens := outer }
      have hput := events_put (h := { roots, opens := outer }) htakes value
      have hstep : (History.mk roots (c :: outer)).events <+:
          (History.put value { roots, opens := outer }).events := by
        rw [show History.mk roots (c :: outer) = enter c { roots, opens := outer } from rfl, henter, hput]
        exact (List.prefix_append_right_inj _).mpr hvalue
      cases outer with
      | nil =>
          refine ⟨roots ++ [value], ?_, by simp, fun h => absurd h (List.cons_ne_nil _ _)⟩
          simpa [events, put] using hstep
      | cons c' outer =>
          have hlength' : (c'.put value :: outer).length = n := by simpa using hlength
          obtain ⟨values, hbegins, hle, -⟩ := ih roots (c'.put value :: outer)
            (fun c hmem => htakes c (List.mem_cons_of_mem _ hmem)) hlength'
          exact ⟨values, hstep.trans hbegins, hle, fun h => absurd h (List.cons_ne_nil _ _)⟩

end History
end PjhJson
