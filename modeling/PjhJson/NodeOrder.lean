import PjhJson.LibOrder
import PjhJson.Node

/-! `Json::operator<`, and the codes it orders the trees by: `less` compares two trees as the
lexicographic order compares their codes, which makes it a strict weak ordering. -/

namespace PjhJson

namespace Double

/-- The bits without the sign. -/
def magnitude (d : Double) : Nat := d.bits.toNat % 2 ^ 63

/-- The bits as a signed magnitude, which orders the doubles that are no NaN. -/
def order (d : Double) : ℤ := if d.bits.toNat < 2 ^ 63 then d.magnitude else -d.magnitude

/-- `<` on doubles: a comparison with a NaN is false. -/
def lt (a b : Double) : Bool := !a.isNaN && !b.isNaN && decide (a.order < b.order)

end Double

/-- `<` on `std::string_view`: bytewise, as unsigned numbers, a proper prefix first. -/
def bytesLess : Bytes → Bytes → Bool := Order.lexLess fun a b => decide (a.toNat < b.toNat)

/-- `float_less`. -/
def floatLess (a b : Double) : Bool :=
  if a.isNaN then false else if b.isNaN then true else a.lt b

/-- Sort entries by their keys; the keys are compared by content. -/
def sortByKey {ν : Type} (entries : List (Bytes × ν)) : List (Bytes × ν) :=
  entries.mergeSort fun x y => !bytesLess y.1 x.1

namespace Node

/-- `rank`. -/
def rank : Node → Nat
  | null => 0
  | boolean _ => 1
  | integer _ => 2
  | floating _ => 3
  | stringView _ => 4
  | stringOwned _ => 4
  | array _ => 5
  | object _ => 6

theorem sizeOf_perm {ν : Type} [SizeOf ν] {xs ys : List ν} (h : xs.Perm ys) :
    sizeOf xs = sizeOf ys := by
  induction h with
  | nil => rfl
  | cons x _ ih => simp [ih]
  | swap x y l => simp only [List.cons.sizeOf_spec]; omega
  | trans _ _ ih ih' => exact ih.trans ih'

theorem sizeOf_sortByKey {ν : Type} [SizeOf ν] (entries : List (Bytes × ν)) :
    sizeOf (sortByKey entries) = sizeOf entries := sizeOf_perm (List.mergeSort_perm _ _)

mutual

/-- `operator<`. -/
def less (a b : Node) : Bool :=
  match a, b with
  | stringView s, stringView t => bytesLess s t
  | stringView s, stringOwned t => bytesLess s t
  | stringOwned s, stringView t => bytesLess s t
  | stringOwned s, stringOwned t => bytesLess s t
  | null, null => false
  | boolean x, boolean y => !x && y
  | integer x, integer y => x < y
  | floating x, floating y => floatLess x y
  | array xs, array ys => arrayLess xs ys
  | object { data := ps, .. }, object { data := qs, .. } =>
    objectLess (sortByKey ps) (sortByKey qs)
  | _, _ => a.rank < b.rank
termination_by sizeOf a + sizeOf b
decreasing_by
  · simp; omega
  · simp [sizeOf_sortByKey]; omega

/-- The loop of `array_less`. -/
def arrayLess (xs ys : List Node) : Bool :=
  match xs, ys with
  | x :: xs, y :: ys => if less x y then true else if less y x then false else arrayLess xs ys
  | [], _ :: _ => true
  | _, [] => false
termination_by sizeOf xs + sizeOf ys
decreasing_by all_goals simp; omega

/-- The loop of `object_less`, over the sorted entries. -/
def objectLess (ps qs : List (Bytes × Node)) : Bool :=
  match ps, qs with
  | (key, value) :: ps, (key', value') :: qs =>
    if key ≠ key' then bytesLess key key'
    else if less value value' then true
    else if less value' value then false
    else objectLess ps qs
  | [], _ :: _ => true
  | _, [] => false
termination_by sizeOf ps + sizeOf qs
decreasing_by all_goals simp; omega

end

/-! ### Codes -/

/-- The code of a string: its bytes. -/
def codeBytes (text : Bytes) : List ℤ := Order.codeList (fun c => [(c.toNat : ℤ)]) text

/-- The code of an entry: its key, then the code of its value. -/
def codeEntry (entry : Bytes × List ℤ) : List ℤ := codeBytes entry.1 ++ entry.2

mutual

/-- The code of a tree: its rank, then the codes of its parts. A NaN sorts behind every other
double, and the entries of an object are sorted by key. -/
def code : Node → List ℤ
  | null => [0]
  | boolean value => [1, if value then 1 else 0]
  | integer value => [2, value.toInt]
  | floating value => if value.isNaN then [3, 1] else [3, 0, value.order]
  | stringView text => 4 :: codeBytes text
  | stringOwned text => 4 :: codeBytes text
  | array elements => 5 :: Order.codeList id (codeElements elements)
  | object { data, .. } => 6 :: Order.codeList codeEntry (sortByKey (codeEntries data))

def codeElements : List Node → List (List ℤ)
  | [] => []
  | value :: rest => value.code :: codeElements rest

def codeEntries : List (Bytes × Node) → List (Bytes × List ℤ)
  | [] => []
  | (key, value) :: rest => (key, value.code) :: codeEntries rest

end

theorem codeElements_eq (elements : List Node) : codeElements elements = elements.map code := by
  induction elements with
  | nil => rfl
  | cons value rest ih => rw [codeElements, ih, List.map_cons]

theorem codeEntries_eq (entries : List (Bytes × Node)) :
    codeEntries entries = entries.map fun entry => (entry.1, entry.2.code) := by
  induction entries with
  | nil => rfl
  | cons entry rest ih => rw [codeEntries, ih, List.map_cons]

theorem sortByKey_map {ν μ : Type} (f : ν → μ) (entries : List (Bytes × ν)) :
    sortByKey (entries.map fun entry => (entry.1, f entry.2)) =
      (sortByKey entries).map fun entry => (entry.1, f entry.2) := by
  rw [sortByKey, sortByKey]
  refine (@List.map_mergeSort _ _ _ _ (fun entry : Bytes × ν => (entry.1, f entry.2)) _ ?_).symm
  exact fun _ _ _ _ => rfl

theorem codeList_map {α β : Type} (f : α → β) (code : β → List ℤ) (xs : List α) :
    Order.codeList code (xs.map f) = Order.codeList (fun x => code (f x)) xs := by
  induction xs with
  | nil => rfl
  | cons x xs ih => rw [List.map_cons, Order.codeList, Order.codeList, ih]

@[simp] theorem code_array (elements : List Node) :
    (array elements).code = 5 :: Order.codeList code elements := by
  rw [code, codeElements_eq, codeList_map]
  rfl

@[simp] theorem code_object (self : Object Node) : (object self).code =
    6 :: Order.codeList (fun entry => codeBytes entry.1 ++ entry.2.code) (sortByKey self.data) := by
  obtain ⟨data, index, resource⟩ := self
  rw [code, codeEntries_eq, sortByKey_map, codeList_map]
  rfl

/-! ### The order of trees is the order of their codes -/

theorem verdict_bytes (s t : Bytes) :
    Order.Verdict (bytesLess s t) (bytesLess t s) (codeBytes s) (codeBytes t) := by
  refine Order.Verdict.list fun a _ b _ => ?_
  have h := Order.Verdict.int a.toNat b.toNat
  simpa using h

/-- Strings with the same code are the same. -/
theorem codeBytes_inj {s t : Bytes} : codeBytes s = codeBytes t ↔ s = t := by
  refine ⟨Order.codeList_injective fun a _ b _ x y hxy => ?_, congrArg codeBytes⟩
  simpa [UInt8.toNat_inj] using hxy

theorem bytesLess_irrefl (s : Bytes) : bytesLess s s = false :=
  ((verdict_bytes s s).eq_iff.mpr rfl).1

theorem bytesLess_total {s t : Bytes} (h : s ≠ t) : bytesLess t s = !bytesLess s t :=
  (verdict_bytes s t).eq_not fun heq => h (codeBytes_inj.mp heq)

theorem verdict_float (a b : Double) : Order.Verdict (floatLess a b) (floatLess b a)
    (code (floating a)) (code (floating b)) := by
  rw [floatLess, floatLess, code, code]
  by_cases ha : a.isNaN = true <;> by_cases hb : b.isNaN = true
  · rw [if_pos ha, if_pos hb, if_pos ha, if_pos hb]
    exact .same _
  · rw [if_pos ha, if_neg hb, if_pos ha, if_pos ha, if_neg hb]
    exact (Order.Verdict.of_gt (n := 1) (m := 0) (by decide) [] [b.order]).cons 3
  · rw [if_neg ha, if_pos hb, if_pos hb, if_neg ha, if_pos hb]
    exact (Order.Verdict.of_lt (n := 0) (m := 1) (by decide) [a.order] []).cons 3
  · rw [if_neg ha, if_neg hb, if_neg hb, if_neg ha, if_neg ha, if_neg hb]
    rw [Bool.not_eq_true] at ha hb
    rw [Double.lt, Double.lt, ha, hb]
    exact ((Order.Verdict.int a.order b.order).cons 0).cons 3

theorem arrayLess_eq (xs ys : List Node) : arrayLess xs ys = Order.lexLess less xs ys := by
  induction xs generalizing ys with
  | nil => cases ys <;> rw [arrayLess, Order.lexLess]
  | cons x xs ih => cases ys with
    | nil => rw [arrayLess, Order.lexLess]
    | cons y ys => rw [arrayLess, Order.lexLess, ih]

/-- One step of `object_less` compares the keys, then the values. -/
def entryLess (p q : Bytes × Node) : Bool :=
  if bytesLess p.1 q.1 then true else if bytesLess q.1 p.1 then false else less p.2 q.2

theorem objectLess_eq (ps qs : List (Bytes × Node)) :
    objectLess ps qs = Order.lexLess entryLess ps qs := by
  induction ps generalizing qs with
  | nil => cases qs <;> rw [objectLess, Order.lexLess]
  | cons p ps ih =>
      cases qs with
      | nil => rw [objectLess, Order.lexLess]
      | cons q qs =>
          rw [objectLess, Order.lexLess, ih]
          by_cases hkey : p.1 = q.1
          · simp only [entryLess, hkey, ne_eq, not_true, if_false, bytesLess_irrefl,
              Bool.false_eq_true]
          · simp only [entryLess, if_pos hkey, ne_eq, bytesLess_total hkey]
            cases bytesLess p.1 q.1 <;> simp

theorem mem_sortByKey {ν : Type} {entries : List (Bytes × ν)} {entry : Bytes × ν} :
    entry ∈ sortByKey entries ↔ entry ∈ entries := List.mem_mergeSort

/-- The rank heads the code. -/
theorem code_rank (node : Node) : ∃ rest, node.code = (node.rank : ℤ) :: rest := by
  cases node <;> try exact ⟨_, rfl⟩
  rename_i value
  rw [code]
  split <;> exact ⟨_, rfl⟩

/-- Trees of different ranks compare as their ranks, which head their codes. -/
theorem verdict_rank {a b : Node} (h : a.rank ≠ b.rank) :
    Order.Verdict (less a b) (less b a) a.code b.code := by
  have hless : less a b = decide (a.rank < b.rank) ∧ less b a = decide (b.rank < a.rank) := by
    cases a <;> cases b <;> first | exact absurd rfl h | (constructor <;> rw [less] <;> simp)
  obtain ⟨rest, hrest⟩ := code_rank a
  obtain ⟨rest', hrest'⟩ := code_rank b
  rw [hless.1, hless.2, hrest, hrest']
  rcases Nat.lt_or_gt_of_ne h with hlt | hgt
  · rw [decide_eq_true hlt, decide_eq_false (Nat.lt_asymm hlt)]
    exact .of_lt (Int.ofNat_lt.mpr hlt) _ _
  · rw [decide_eq_true hgt, decide_eq_false (Nat.lt_asymm hgt)]
    exact .of_gt (Int.ofNat_lt.mpr hgt) _ _

/-- `operator<` compares two trees as the lexicographic order compares their codes. -/
theorem verdict (a b : Node) : Order.Verdict (less a b) (less b a) a.code b.code := by
  induction a using Node.induct generalizing b with
  | null =>
      cases b with
      | null => rw [less]; exact .same _
      | _ => exact verdict_rank (by simp [rank])
  | boolean x =>
      cases b with
      | boolean y =>
          rw [less, less, code, code]
          cases x <;> cases y
          · exact .same _
          · exact (Order.Verdict.of_lt (by decide) _ _).cons 1
          · exact (Order.Verdict.of_gt (by decide) _ _).cons 1
          · exact .same _
      | _ => exact verdict_rank (by simp [rank])
  | integer x =>
      cases b with
      | integer y =>
          rw [less, less, code, code]
          simp only [Int64.lt_iff_toInt_lt]
          exact (Order.Verdict.int x.toInt y.toInt).cons 2
      | _ => exact verdict_rank (by simp [rank])
  | floating x =>
      cases b with
      | floating y =>
          rw [less, less]
          exact verdict_float x y
      | _ => exact verdict_rank (by simp [rank])
  | stringView s =>
      cases b with
      | stringView t => rw [less, less, code, code]; exact (verdict_bytes s t).cons 4
      | stringOwned t => rw [less, less, code, code]; exact (verdict_bytes s t).cons 4
      | _ => exact verdict_rank (by simp [rank])
  | stringOwned s =>
      cases b with
      | stringView t => rw [less, less, code, code]; exact (verdict_bytes s t).cons 4
      | stringOwned t => rw [less, less, code, code]; exact (verdict_bytes s t).cons 4
      | _ => exact verdict_rank (by simp [rank])
  | array xs ih =>
      cases b with
      | array ys =>
          rw [less, less, arrayLess_eq, arrayLess_eq, code_array, code_array]
          exact (Order.Verdict.list fun x hx y _ => ih x hx y).cons 5
      | _ => exact verdict_rank (by simp [rank])
  | object self ih =>
      cases b with
      | object other =>
          obtain ⟨ps, index, resource⟩ := self
          obtain ⟨qs, index', resource'⟩ := other
          rw [less, less, objectLess_eq, objectLess_eq, code_object, code_object]
          refine (Order.Verdict.list fun p hp q _ => ?_).cons 6
          exact (verdict_bytes p.1 q.1).append (ih p (mem_sortByKey.mp hp) q.2)
      | _ => exact verdict_rank (by simp [rank])

theorem less_iff (a b : Node) : less a b = true ↔ a.code < b.code := (verdict a b).lt_iff

end Node
end PjhJson
