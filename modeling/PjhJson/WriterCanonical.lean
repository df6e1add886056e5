import PjhJson.NodeLaws
import PjhJson.WriterText

/-! The sorted text of a tree as its canonical form: among trees of finite doubles without repeated
keys, two have the same text exactly when they are equal. The text is read from the left, in front of
whatever may follow a value in a container. -/

namespace PjhJson

open Grammar Spelling

namespace Double

def negativeZero : Double := neg ⟨0⟩

end Double

namespace Writer

/-- A byte of a number. -/
def isNumberByte (c : UInt8) : Bool :=
  isDigit c || c == ascii '-' || c == ascii '+' || c == ascii '.' || c == ascii 'e'

/-- `std::to_chars`, of a finite double: it writes digits, signs, a point and an exponent, different
texts for different doubles, and as the shortest text no `.0` at its end. -/
structure ToCharsCorrect (platform : Platform) : Prop where
  injective : ∀ d d' text, d.isFinite = true → d'.isFinite = true →
    platform.toChars d = some text → platform.toChars d' = some text → d = d'
  spelled : ∀ d text, d.isFinite = true → platform.toChars d = some text →
    text ≠ [] ∧ ∀ c ∈ text, isNumberByte c = true
  shortest : ∀ d text, d.isFinite = true → platform.toChars d = some text →
    ¬asciiBytes ".0" <:+ text

/-! ### Numbers -/

/-- A number token, with or without a point or an exponent. -/
structure NumberText (point : Bool) (text : Bytes) : Prop where
  ne_nil : text ≠ []
  bytes : ∀ c ∈ text, isNumberByte c = true
  hasPoint : hasPoint text = point

theorem mem_toString {i : Int} {c : Char} (h : c ∈ (toString i).toList) :
    c.isDigit = true ∨ c = '-' := by
  cases i with
  | ofNat n =>
      have hmem : c ∈ Nat.toDigits 10 n := by simpa [Int.toString_eq_repr, Int.repr] using h
      exact .inl (Nat.isDigit_of_mem_toDigits (by decide) (le_refl 10) hmem)
  | negSucc n =>
      have hmem : c = '-' ∨ c ∈ Nat.toDigits 10 (n + 1) := by
        simpa [Int.toString_eq_repr, Int.repr] using h
      rcases hmem with rfl | hmem
      · exact .inr rfl
      · exact .inl (Nat.isDigit_of_mem_toDigits (by decide) (le_refl 10) hmem)

/-- The bytes of an integer: each is a number byte, and none a point or an exponent. -/
theorem mem_intText {i : Int} {b : UInt8} (h : b ∈ asciiBytes (toString i)) :
    isNumberByte b = true ∧ (b == ascii '.' || b == ascii 'e' || b == ascii 'E') = false := by
  obtain ⟨c, hc, rfl⟩ := List.mem_map.mp h
  rcases mem_toString hc with hdigit | rfl
  · have hbounds : 48 ≤ c.toNat ∧ c.toNat ≤ 57 := by
      simpa [Char.isDigit, UInt32.le_iff_toNat_le] using hdigit
    obtain ⟨n, hn⟩ : ∃ n, n = c.toNat := ⟨_, rfl⟩
    rw [ascii, ← hn]
    rw [← hn] at hbounds
    obtain ⟨hle, hle'⟩ := hbounds
    interval_cases n <;> decide
  · decide

theorem intText_inj {i j : Int} (h : asciiBytes (toString i) = asciiBytes (toString j)) : i = j := by
  have hchars : ∀ k : Int, ((asciiBytes (toString k)).map fun b => Char.ofNat b.toNat) =
      (toString k).toList := by
    intro k
    rw [asciiBytes, List.map_map]
    refine (List.map_congr_left fun c hc => ?_).trans (List.map_id _)
    have hlt : c.toNat < 256 := by
      rcases mem_toString hc with hdigit | rfl
      · have hbounds : 48 ≤ c.toNat ∧ c.toNat ≤ 57 := by
          simpa [Char.isDigit, UInt32.le_iff_toNat_le] using hdigit
        omega
      · decide
    rw [Function.comp_apply, ascii, Unicode.toNat_toUInt8 hlt, Char.ofNat_toNat]
    rfl
  have htoString : toString i = toString j := by
    rw [← String.toList_inj, ← hchars, ← hchars, h]
  exact Int.repr_inj.mp htoString

theorem int64Text_number (i : Int64) : NumberText false (int64Text i) := by
  refine ⟨fun hnil => ?_, fun b hb => (mem_intText hb).1, ?_⟩
  · have hempty : (toString i.toInt).toList = [] := List.map_eq_nil_iff.mp hnil
    cases hvalue : i.toInt <;> simp [hvalue, Int.toString_eq_repr, Int.repr] at hempty
  · rw [PjhJson.Writer.hasPoint, List.any_eq_false]
    exact fun b hb => by rw [(mem_intText hb).2]; decide

theorem int64Text_inj {i j : Int64} (h : int64Text i = int64Text j) : i = j :=
  Int64.toInt_inj.mp (intText_inj h)

section Doubles

variable {platform : Platform} (h : ToCharsCorrect platform) {d d' : Double} {buf buf' : Bytes}
include h

theorem doubleText_number (hd : d.isFinite = true) (hbuf : platform.toChars d = some buf) :
    NumberText true (doubleText buf) := by
  obtain ⟨hne, hbytes⟩ := h.spelled d buf hd hbuf
  unfold doubleText
  cases hpoint : PjhJson.Writer.hasPoint buf with
  | true => exact ⟨hne, hbytes, hpoint⟩
  | false =>
      refine ⟨fun hnil => hne (List.append_eq_nil_iff.mp hnil).1, fun b hb => ?_, ?_⟩
      · have hzero : ∀ b ∈ asciiBytes ".0", isNumberByte b = true := by decide +kernel
        rcases List.mem_append.mp hb with hb | hb
        · exact hbytes b hb
        · exact hzero b hb
      · rw [if_neg (by decide), PjhJson.Writer.hasPoint, List.any_append]
        exact Bool.or_eq_true_iff.mpr (.inr rfl)

/-- The point that is added is not one that `to_chars` writes. -/
theorem doubleText_inj (hd : d.isFinite = true) (hd' : d'.isFinite = true)
    (hbuf : platform.toChars d = some buf) (hbuf' : platform.toChars d' = some buf')
    (heq : doubleText buf = doubleText buf') : d = d' := by
  have hsame : buf = buf' := by
    unfold doubleText at heq
    split at heq <;> split at heq
    · exact heq
    · exact absurd ⟨buf', heq.symm⟩ (h.shortest d buf hd hbuf)
    · exact absurd ⟨buf, heq⟩ (h.shortest d' buf' hd' hbuf')
    · exact List.append_cancel_right heq
  exact h.injective d d' buf hd hd' hbuf (hsame ▸ hbuf')

end Doubles

/-! ### What the first byte tells -/

/-- The kind of value that a byte begins. -/
def opensWith (c : UInt8) : Nat :=
  if c = ascii 'n' then 0
  else if c = ascii 't' ∨ c = ascii 'f' then 1
  else if c = ascii '"' then 4
  else if c = ascii '[' then 5
  else if c = ascii '\x7b' then 6
  else if isNumberByte c then 2
  else 7

/-- The kind of a value: its rank, but the numbers are of one kind. -/
def kind (value : Node) : Nat := if value.rank = 3 then 2 else value.rank

theorem kind_lt (value : Node) : kind value < 7 := by
  cases value <;> simp [kind, Node.rank]

theorem NumberText.opens {point : Bool} {text : Bytes} (h : NumberText point text) :
    ∃ c rest, text = c :: rest ∧ opensWith c = 2 := by
  have hbyte : ∀ c, isNumberByte c = true → opensWith c = 2 := by decide +kernel
  cases text with
  | nil => exact absurd rfl h.ne_nil
  | cons c rest => exact ⟨c, rest, rfl, hbyte c (h.bytes c List.mem_cons_self)⟩

section Values

variable {platform : Platform} {opts : DumpOptions} {maxDepth : Nat}

theorem ContainerForm.opens {depth : Nat} {opening closing : UInt8}
    {items : List (Prog Writer Unit)} {text : Bytes}
    (h : ContainerForm opts depth opening closing items text) : ∃ rest, text = opening :: rest := by
  rcases h with ⟨-, rfl⟩ | ⟨_, _, _, _, -, -, -, rfl⟩
  · exact ⟨_, rfl⟩
  · exact ⟨_, rfl⟩

theorem ValueForm.opens (hchars : ToCharsCorrect platform) {depth : Nat} {value : Node}
    {text : Bytes} (h : ValueForm platform opts maxDepth depth value text) :
    ∃ c rest, text = c :: rest ∧ opensWith c = kind value := by
  have hstring : ∀ s, Rfc.StringToken text s → ∃ c rest, text = c :: rest ∧ opensWith c = 4 := by
    rintro s ⟨content, _, -⟩
    exact ⟨_, _, rfl, by decide⟩
  cases value with
  | null => exact ⟨_, _, h, by decide⟩
  | boolean b =>
      cases b with
      | false => exact ⟨_, _, h, by decide⟩
      | true => exact ⟨_, _, h, by decide⟩
  | integer i => exact h ▸ (int64Text_number i).opens
  | floating d =>
      obtain ⟨hfinite, buf, hbuf, rfl⟩ := h
      exact (doubleText_number hchars hfinite hbuf).opens
  | stringView s => exact hstring s h
  | stringOwned s => exact hstring s h
  | array arr =>
      obtain ⟨rest, rfl⟩ := ContainerForm.opens h
      exact ⟨_, rest, rfl, rfl⟩
  | object self =>
      obtain ⟨rest, rfl⟩ := ContainerForm.opens h
      exact ⟨_, rest, rfl, rfl⟩

/-- Values of different kinds begin with different bytes. -/
theorem kind_of_append_eq (hchars : ToCharsCorrect platform) {depth depth' : Nat} {a b : Node}
    {x y s t : Bytes} (hx : ValueForm platform opts maxDepth depth a x)
    (hy : ValueForm platform opts maxDepth depth' b y) (h : x ++ s = y ++ t) : kind a = kind b := by
  obtain ⟨c, rest, rfl, hc⟩ := hx.opens hchars
  obtain ⟨c', rest', rfl, hc'⟩ := hy.opens hchars
  rw [List.cons_append, List.cons_append] at h
  rw [← hc, ← hc', (List.cons.inj h).1]

end Values

/-! ### Reading a text from the left -/

/-- What may follow a value: nothing, or a byte of no number. -/
def Ends (s : Bytes) : Prop := ∀ c ∈ s.head?, isNumberByte c = false

theorem ends_cons {c : UInt8} (h : isNumberByte c = false) (s : Bytes) : Ends (c :: s) := by
  intro c' hc'
  rwa [← Option.some.inj hc']

section Containers

variable {opts : DumpOptions} {depth : Nat} {closing : UInt8}

theorem lineBreak_cases (opts : DumpOptions) (depth : Nat) :
    (opts.pretty = false ∧ lineBreak opts depth = []) ∨ ∃ rest, lineBreak opts depth = 0x0A :: rest := by
  unfold lineBreak
  cases opts.pretty with
  | false => exact .inl ⟨rfl, rfl⟩
  | true => exact .inr ⟨_, rfl⟩

/-- What closes a container begins with a byte other than the comma and those of numbers. -/
theorem close_cons (hclosing : closing ≠ ascii ',' ∧ isNumberByte closing = false) (z : Bytes) :
    ∃ c rest, lineBreak opts depth ++ [closing] ++ z = c :: rest ∧ c ≠ ascii ',' ∧
      isNumberByte c = false := by
  rcases lineBreak_cases opts depth with ⟨-, hnil⟩ | ⟨rest, hrest⟩
  · exact ⟨closing, z, by rw [hnil]; rfl, hclosing⟩
  · exact ⟨0x0A, _, by rw [hrest]; rfl, by decide, by decide⟩

variable {α : Type} {program : α → Prog Writer Unit} {good : α → Prop} {same : α → α → Prop}

/-- Containers whose items can be told apart, and begin with another byte than the closing one. -/
theorem containerForm_inj (hclosing : closing ≠ ascii ',' ∧ isNumberByte closing = false)
    (hnewline : closing ≠ 0x0A) {opening : UInt8} {as bs : List α} {x y s t : Bytes}
    (hopens : ∀ a text, Writes (program a) text → ∃ c rest, text = c :: rest ∧ c ≠ closing)
    (has : ∀ a ∈ as, Unambiguous (fun n text => good n ∧ Writes (program n) text) Ends same a)
    (hgood : ∀ a ∈ as, good a) (hgood' : ∀ b ∈ bs, good b)
    (hx : ContainerForm opts depth opening closing (as.map program) x)
    (hy : ContainerForm opts depth opening closing (bs.map program) y) (h : x ++ s = y ++ t) :
    List.Forall₂ same as bs ∧ s = t := by
  have hitem : ∀ (a : α) text z, Writes (program a) text →
      ∃ c rest, lineBreak opts (depth + 1) ++ (text ++ z) = c :: rest ∧ c ≠ closing := by
    intro a text z htext
    rcases lineBreak_cases opts (depth + 1) with ⟨-, hnil⟩ | ⟨rest, hrest⟩
    · obtain ⟨c, rest, rfl, hc⟩ := hopens a text htext
      exact ⟨c, _, by rw [hnil]; rfl, hc⟩
    · exact ⟨0x0A, _, by rw [hrest]; rfl, hnewline.symm⟩
  have hsep : ∀ z, Ends (separator opts depth ++ z) := fun z => ends_cons (by decide) _
  have hclose : ∀ z, Ends (lineBreak opts depth ++ [closing] ++ z) := fun z => by
    obtain ⟨c, rest, heq, -, hc⟩ := @close_cons opts depth closing hclosing z
    exact heq ▸ ends_cons hc rest
  have hne : ∀ u v, separator opts depth ++ u ≠ lineBreak opts depth ++ [closing] ++ v := fun u v heq => by
    obtain ⟨c, rest, hcons, hc, -⟩ := @close_cons opts depth closing hclosing v
    rw [hcons] at heq
    exact hc (List.cons.inj heq).1.symm
  rcases hx with ⟨hnil, rfl⟩ | ⟨item, items, first, texts, hcons, hfirst, htexts, rfl⟩
  · obtain rfl := List.map_eq_nil_iff.mp hnil
    rcases hy with ⟨hnil', rfl⟩ | ⟨item', items', first', texts', hcons', hfirst', -, rfl⟩
    · obtain rfl := List.map_eq_nil_iff.mp hnil'
      exact ⟨.nil, List.append_cancel_left h⟩
    · obtain ⟨b, bs, rfl, rfl, rfl⟩ := List.map_eq_cons_iff.mp hcons'
      obtain ⟨c, rest, heq, hc⟩ := hitem b first' (separated (separator opts depth) texts' ++
        (lineBreak opts depth ++ [closing]) ++ t) hfirst'
      simp only [List.append_assoc, List.cons_append, List.nil_append, List.cons.injEq, true_and] at h heq
      rw [heq] at h
      exact absurd (List.cons.inj h).1.symm hc
  · obtain ⟨a, as, rfl, rfl, rfl⟩ := List.map_eq_cons_iff.mp hcons
    rcases hy with ⟨hnil', rfl⟩ | ⟨item', items', first', texts', hcons', hfirst', htexts', rfl⟩
    · obtain rfl := List.map_eq_nil_iff.mp hnil'
      obtain ⟨c, rest, heq, hc⟩ := hitem a first (separated (separator opts depth) texts ++
        (lineBreak opts depth ++ [closing]) ++ s) hfirst
      simp only [List.append_assoc, List.cons_append, List.nil_append, List.cons.injEq, true_and] at h heq
      rw [heq] at h
      exact absurd (List.cons.inj h).1 hc
    · obtain ⟨b, bs, rfl, rfl, rfl⟩ := List.map_eq_cons_iff.mp hcons'
      obtain ⟨ha, has⟩ := List.forall_mem_cons.mp has
      obtain ⟨hgooda, hgood⟩ := List.forall_mem_cons.mp hgood
      obtain ⟨hgoodb, hgood'⟩ := List.forall_mem_cons.mp hgood'
      have hrest : first ++ (separated (separator opts depth) texts ++
          (lineBreak opts depth ++ [closing] ++ s)) = first' ++
          (separated (separator opts depth) texts' ++ (lineBreak opts depth ++ [closing] ++ t)) := by
        simp only [List.append_assoc, List.cons_append, List.cons.injEq, true_and] at h
        simpa only [List.append_assoc, List.cons_append, List.nil_append] using List.append_cancel_left h
      obtain ⟨hsame, hnext⟩ := ha b first first' _ _ ⟨hgooda, hfirst⟩ ⟨hgoodb, hfirst'⟩
        (ends_separated hsep hclose texts s) (ends_separated hsep hclose texts' t) hrest
      obtain ⟨hall, hst⟩ := unambiguous_separated hsep hclose hne has
        ((List.forall₂_and_left _ _).mpr ⟨hgood, List.forall₂_map_left_iff.mp htexts⟩)
        ((List.forall₂_and_left _ _).mpr ⟨hgood', List.forall₂_map_left_iff.mp htexts'⟩) hnext
      exact ⟨.cons hsame hall, hst⟩

end Containers

end Writer

/-- Every double is finite, and none is a negative zero. -/
def Node.FiniteNumbers (node : Node) : Prop := node.All fun
  | .floating value => value.isFinite = true ∧ value ≠ Double.negativeZero
  | _ => True

namespace Node

theorem finiteNumbers_array {elements : List Node} :
    (array elements).FiniteNumbers ↔ ∀ value ∈ elements, value.FiniteNumbers := by
  rw [FiniteNumbers, all_array]
  exact ⟨fun h => h.2, fun h => ⟨trivial, h⟩⟩

theorem finiteNumbers_object {self : Object Node} :
    (object self).FiniteNumbers ↔ ∀ entry ∈ self.data, entry.2.FiniteNumbers := by
  rw [FiniteNumbers, all_object]
  exact ⟨fun h => h.2, fun h => ⟨trivial, h⟩⟩

theorem FiniteNumbers.noNaN {node : Node} (h : node.FiniteNumbers) : node.NoNaN := by
  induction node using Node.induct with
  | floating value => exact Double.isNaN_of_isFinite h.1
  | array elements ih =>
      exact all_array.mpr ⟨trivial, fun value hmem => ih value hmem (finiteNumbers_array.mp h value hmem)⟩
  | object self ih =>
      exact all_object.mpr ⟨trivial, fun entry hmem => ih entry hmem (finiteNumbers_object.mp h entry hmem)⟩
  | _ => trivial

/-- Objects whose sorted entries have the same keys and codes have the same code. -/
theorem code_of_sorted {self other : Object Node}
    (h : List.Forall₂ (fun p q => p.1 = q.1 ∧ p.2.code = q.2.code) (sortByKey self.data)
      (sortByKey other.data)) : (object self).code = (object other).code := by
  have hcodes : ∀ {ps qs : List (Bytes × Node)},
      List.Forall₂ (fun p q => p.1 = q.1 ∧ p.2.code = q.2.code) ps qs →
      Order.codeList (fun entry => codeBytes entry.1 ++ entry.2.code) ps =
        Order.codeList (fun entry => codeBytes entry.1 ++ entry.2.code) qs := by
    intro ps qs h
    induction h with
    | nil => rfl
    | cons hpq _ ih => rw [Order.codeList, Order.codeList, hpq.1, hpq.2, ih]
  rw [code_object, code_object, hcodes h]

end Node

namespace Writer

section Canonical

variable {platform : Platform} {opts : DumpOptions} {maxDepth : Nat}

theorem NumberText.append_inj {point point' : Bool} {x y s t : Bytes} (hx : NumberText point x)
    (hy : NumberText point' y) (hs : Ends s) (ht : Ends t) (h : x ++ s = y ++ t) :
    x = y ∧ point = point' ∧ s = t := by
  obtain ⟨rfl, hst⟩ := append_inj_of_class hx.bytes hy.bytes hs ht h
  exact ⟨rfl, hx.hasPoint.symm.trans hy.hasPoint, hst⟩

/-- A value with this text at this depth. -/
def Reads (platform : Platform) (opts : DumpOptions) (maxDepth depth : Nat) (n : Node) (text : Bytes) :
    Prop := n.FiniteNumbers ∧ Writes (writeValue platform opts maxDepth depth n) text

theorem Reads.form {depth : Nat} {n : Node} {text : Bytes} (h : Reads platform opts maxDepth depth n text) :
    ValueForm platform opts maxDepth depth n text := (writeValue_spells n depth).2 text h.2

/-- The entries of an object can be told apart when their values can. -/
theorem unambiguous_entry {depth : Nat} {entry : Bytes × Node}
    (h : Unambiguous (Reads platform opts maxDepth depth) Ends (fun n m => n.code = m.code) entry.2) :
    Unambiguous (fun p text => p.2.FiniteNumbers ∧ Writes (writeEntry platform opts
        (p.1, writeValue platform opts maxDepth depth p.2)) text)
      Ends (fun p q => p.1 = q.1 ∧ p.2.code = q.2.code) entry := by
  rintro other x y s t ⟨hfinite, hx⟩ ⟨hfinite', hy⟩ hs ht heq
  obtain ⟨token, value, htoken, hvalue, rfl⟩ :=
    (writeEntry_spells entry.1 (writeValue_spells entry.2 depth).1).2 x hx
  obtain ⟨token', value', htoken', hvalue', rfl⟩ :=
    (writeEntry_spells other.1 (writeValue_spells other.2 depth).1).2 y hy
  simp only [List.append_assoc] at heq
  obtain ⟨hkey, hrest⟩ := stringToken_inj htoken htoken' heq
  obtain ⟨hcode, hst⟩ := h other.2 value value' s t ⟨hfinite, hvalue⟩ ⟨hfinite', hvalue'⟩ hs ht
    (List.append_cancel_left hrest)
  exact ⟨⟨hkey, hcode⟩, hst⟩

/-- The text of a value is the text of no value with another code, whatever follows it. -/
theorem unambiguous_value (hchars : ToCharsCorrect platform) (hsort : opts.sortKeys = true) (a : Node)
    (depth : Nat) :
    Unambiguous (Reads platform opts maxDepth depth) Ends (fun n m => n.code = m.code) a := by
  induction a using Node.induct generalizing depth with
  | null =>
      intro b x y s t hx hy hs ht h
      have hkind := kind_of_append_eq hchars hx.form hy.form h
      cases b with
      | null =>
          rw [show x = _ from hx.form, show y = _ from hy.form] at h
          exact ⟨rfl, List.append_cancel_left h⟩
      | _ => exact absurd hkind (by simp [kind, Node.rank])
  | boolean p =>
      intro b x y s t hx hy hs ht h
      have hkind := kind_of_append_eq hchars hx.form hy.form h
      cases b with
      | boolean q =>
          rw [show x = _ from hx.form, show y = _ from hy.form] at h
          cases p <;> cases q
          · exact ⟨rfl, List.append_cancel_left h⟩
          · exact absurd (List.cons.inj h).1 (by decide)
          · exact absurd (List.cons.inj h).1 (by decide)
          · exact ⟨rfl, List.append_cancel_left h⟩
      | _ => exact absurd hkind (by simp [kind, Node.rank])
  | integer i =>
      intro b x y s t hx hy hs ht h
      have hkind := kind_of_append_eq hchars hx.form hy.form h
      have hnumber : NumberText false x := hx.form ▸ int64Text_number i
      cases b with
      | integer j =>
          have hnumber' : NumberText false y := hy.form ▸ int64Text_number j
          obtain ⟨hxy, -, hst⟩ := hnumber.append_inj hnumber' hs ht h
          rw [show x = _ from hx.form, show y = _ from hy.form] at hxy
          exact ⟨by rw [int64Text_inj hxy], hst⟩
      | floating d =>
          obtain ⟨hfinite, buf, hbuf, hy'⟩ := hy.form
          have hnumber' : NumberText true y := hy' ▸ doubleText_number hchars hfinite hbuf
          exact absurd (hnumber.append_inj hnumber' hs ht h).2.1 (by decide)
      | _ => exact absurd hkind (by simp [kind, Node.rank])
  | floating d =>
      intro b x y s t hx hy hs ht h
      have hkind := kind_of_append_eq hchars hx.form hy.form h
      obtain ⟨hfinite, buf, hbuf, hx'⟩ := hx.form
      have hnumber : NumberText true x := hx' ▸ doubleText_number hchars hfinite hbuf
      cases b with
      | integer j =>
          have hnumber' : NumberText false y := hy.form ▸ int64Text_number j
          exact absurd (hnumber.append_inj hnumber' hs ht h).2.1 (by decide)
      | floating e =>
          obtain ⟨hfinite', buf', hbuf', hy'⟩ := hy.form
          have hnumber' : NumberText true y := hy' ▸ doubleText_number hchars hfinite' hbuf'
          obtain ⟨hxy, -, hst⟩ := hnumber.append_inj hnumber' hs ht h
          rw [hx', hy'] at hxy
          exact ⟨by rw [doubleText_inj hchars hfinite hfinite' hbuf hbuf' hxy], hst⟩
      | _ => exact absurd hkind (by simp [kind, Node.rank])
  | stringView u =>
      intro b x y s t hx hy hs ht h
      have hkind := kind_of_append_eq hchars hx.form hy.form h
      cases b with
      | stringView v =>
          obtain ⟨rfl, hst⟩ := stringToken_inj hx.form hy.form h
          exact ⟨rfl, hst⟩
      | stringOwned v =>
          obtain ⟨rfl, hst⟩ := stringToken_inj hx.form hy.form h
          exact ⟨rfl, hst⟩
      | _ => exact absurd hkind (by simp [kind, Node.rank])
  | stringOwned u =>
      intro b x y s t hx hy hs ht h
      have hkind := kind_of_append_eq hchars hx.form hy.form h
      cases b with
      | stringView v =>
          obtain ⟨rfl, hst⟩ := stringToken_inj hx.form hy.form h
          exact ⟨rfl, hst⟩
      | stringOwned v =>
          obtain ⟨rfl, hst⟩ := stringToken_inj hx.form hy.form h
          exact ⟨rfl, hst⟩
      | _ => exact absurd hkind (by simp [kind, Node.rank])
  | array arr ih =>
      intro b x y s t hx hy hs ht h
      have hkind := kind_of_append_eq hchars hx.form hy.form h
      cases b with
      | array arr' =>
          have hopens : ∀ n text, Writes (writeValue platform opts maxDepth (depth + 1) n) text →
              ∃ c rest, text = c :: rest ∧ c ≠ ascii ']' := by
            intro n text htext
            obtain ⟨c, rest, rfl, hc⟩ := ((writeValue_spells n (depth + 1)).2 text htext).opens hchars
            refine ⟨c, rest, rfl, ?_⟩
            rintro rfl
            exact absurd (kind_lt n) (hc ▸ by decide)
          obtain ⟨hall, hst⟩ := containerForm_inj (by decide) (by decide) hopens
            (fun value hmem => ih value hmem (depth + 1)) (Node.finiteNumbers_array.mp hx.1)
            (Node.finiteNumbers_array.mp hy.1) hx.form hy.form h
          refine ⟨Node.code_array_iff.mpr ?_, hst⟩
          exact Node.map_eq_of_forall₂ hall fun _ _ _ _ hcode => hcode
      | _ => exact absurd hkind (by simp [kind, Node.rank])
  | object self ih =>
      intro b x y s t hx hy hs ht h
      have hkind := kind_of_append_eq hchars hx.form hy.form h
      cases b with
      | object other =>
          have hopens : ∀ (entry : Bytes × Node) text, Writes (writeEntry platform opts
              (entry.1, writeValue platform opts maxDepth (depth + 1) entry.2)) text →
              ∃ c rest, text = c :: rest ∧ c ≠ ascii '\x7d' := by
            intro entry text htext
            obtain ⟨token, value, ⟨content, _, -⟩, -, rfl⟩ :=
              (writeEntry_spells entry.1 (writeValue_spells entry.2 (depth + 1)).1).2 text htext
            exact ⟨_, _, rfl, by decide⟩
          have hfinite : ∀ {o : Object Node}, (Node.object o).FiniteNumbers →
              ∀ entry ∈ orderEntries opts o.data, entry.2.FiniteNumbers := fun ho entry hmem =>
            Node.finiteNumbers_object.mp ho entry (mem_orderEntries.mp hmem)
          obtain ⟨hall, hst⟩ := containerForm_inj (by decide) (by decide) hopens
            (fun entry hmem => unambiguous_entry (ih entry (mem_orderEntries.mp hmem) (depth + 1)))
            (hfinite hx.1) (hfinite hy.1) hx.form hy.form h
          rw [orderEntries, orderEntries, if_pos hsort, if_pos hsort] at hall
          exact ⟨Node.code_of_sorted hall, hst⟩
      | _ => exact absurd hkind (by simp [kind, Node.rank])

/-! ### Equal trees are written alike -/

theorem double_of_code {d e : Double} (hd : d.isFinite = true ∧ d ≠ Double.negativeZero)
    (he : e.isFinite = true ∧ e ≠ Double.negativeZero)
    (h : (Node.floating d).code = (Node.floating e).code) : d = e := by
  have hzero : ∀ z : Double, z ≠ Double.negativeZero → z.isZero = true → z = ⟨0⟩ := by
    intro z hne hz
    obtain ⟨bits⟩ := z
    have hlt := bits.isLt
    simp only [Double.isZero, Double.exponentField, Double.fractionField, Nat.shiftRight_eq_div_pow,
      Bool.and_eq_true, beq_iff_eq] at hz
    have hbits : bits.toNat = 0 ∨ bits.toNat = 2 ^ 63 := by omega
    rcases hbits with hbits | hbits
    · exact congrArg Double.mk (BitVec.eq_of_toNat_eq (by simpa using hbits))
    · exact absurd (congrArg Double.mk (BitVec.eq_of_toNat_eq (hbits.trans (by decide)))) hne
  have heq := (Node.floating_code_iff (Double.isNaN_of_isFinite hd.1)
    (Double.isNaN_of_isFinite he.1)).mp h
  simp only [Double.eq, Bool.and_eq_true, Bool.or_eq_true, beq_iff_eq] at heq
  rcases heq.2 with hbits | ⟨hd', he'⟩
  · exact congrArg Double.mk hbits
  · rw [hzero d hd.2 hd', hzero e he.2 he']

/-- The program that writes a tree depends only on its code. -/
theorem writeValue_congr (hsort : opts.sortKeys = true) {a b : Node} (ha : a.FiniteNumbers)
    (hb : b.FiniteNumbers) (h : a.code = b.code) (depth : Nat) :
    writeValue platform opts maxDepth depth a = writeValue platform opts maxDepth depth b := by
  induction a using Node.induct generalizing b depth with
  | null => cases b with
    | null => rfl
    | _ => exact absurd (Node.rank_of_code h) (by simp [Node.rank])
  | boolean p => cases b with
    | boolean q => cases p <;> cases q <;> simp_all [Node.code]
    | _ => exact absurd (Node.rank_of_code h) (by simp [Node.rank])
  | integer i => cases b with
    | integer j =>
        have hij : i = j := Int64.toInt_inj.mp (by simpa [Node.code] using h)
        rw [hij]
    | _ => exact absurd (Node.rank_of_code h) (by simp [Node.rank])
  | floating d => cases b with
    | floating e => rw [double_of_code ha hb h]
    | _ => exact absurd (Node.rank_of_code h) (by simp [Node.rank])
  | stringView s => cases b with
    | stringView t => rw [Node.codeBytes_inj.mp (List.cons.inj h).2]
    | stringOwned t =>
        rw [Node.codeBytes_inj.mp (List.cons.inj h).2]
        rfl
    | _ => exact absurd (Node.rank_of_code h) (by simp [Node.rank])
  | stringOwned s => cases b with
    | stringView t =>
        rw [Node.codeBytes_inj.mp (List.cons.inj h).2]
        rfl
    | stringOwned t => rw [Node.codeBytes_inj.mp (List.cons.inj h).2]
    | _ => exact absurd (Node.rank_of_code h) (by simp [Node.rank])
  | array arr ih => cases b with
    | array arr' =>
        have hall := Node.forall₂_of_map_eq (Node.code_array_iff.mp h)
        rw [writeValue_array, writeValue_array]
        refine congrArg (fun items => checkDepth maxDepth depth (writeContainer opts depth _ _ items)) ?_
        exact Node.map_eq_of_forall₂ hall fun x hx y hy hcode =>
          ih x hx (Node.finiteNumbers_array.mp ha x hx) (Node.finiteNumbers_array.mp hb y hy) hcode _
    | _ => exact absurd (Node.rank_of_code h) (by simp [Node.rank])
  | object self ih => cases b with
    | object other =>
        rw [writeValue_object, writeValue_object, orderEntries, orderEntries, if_pos hsort, if_pos hsort]
        refine congrArg (fun items => checkDepth maxDepth depth (writeContainer opts depth _ _ items)) ?_
        refine Node.map_eq_of_forall₂ (Node.sorted_of_code h) fun p hp q hq hpq => ?_
        have hp' := Node.mem_sortByKey.mp hp
        rw [hpq.1, ih p hp' (Node.finiteNumbers_object.mp ha p hp')
          (Node.finiteNumbers_object.mp hb q (Node.mem_sortByKey.mp hq)) hpq.2]
    | _ => exact absurd (Node.rank_of_code h) (by simp [Node.rank])

/-- What `dump` returns is the text of the value. -/
theorem writes_of_dump {value : Node} {text : Bytes} (h : dump platform opts maxDepth value = .ok text) :
    Writes (writeValue platform opts maxDepth 0 value) text := by
  have hspells : Spells (dumpValueTo platform opts maxDepth value)
      (Writes (writeValue platform opts maxDepth 0 value)) :=
    spells_ite (spells_fail _) (writeValue_spells value 0).1.spells
  rw [dump] at h
  cases hrun : dumpValueTo platform opts maxDepth value {} with
  | stuck => rw [hrun] at h; cases h
  | error w => rw [hrun] at h; cases h
  | ok pair =>
      rw [hrun] at h
      obtain ⟨text', htext', hsink⟩ := hspells.1.writes hrun
      have heq : text = text' := by
        rw [← Res.ok.inj h, hsink]
        rfl
      exact heq ▸ hspells.2 text' htext'

/-- The sorted texts of two trees are the same exactly when their codes are. -/
theorem dump_eq_iff (hchars : ToCharsCorrect platform) (hsort : opts.sortKeys = true) {a b : Node}
    {x y : Bytes} (ha : a.FiniteNumbers) (hb : b.FiniteNumbers)
    (hx : dump platform opts maxDepth a = .ok x) (hy : dump platform opts maxDepth b = .ok y) :
    x = y ↔ a.code = b.code := by
  have hx' := writes_of_dump hx
  have hy' := writes_of_dump hy
  constructor
  · rintro rfl
    have hnil : Ends [] := fun c hc => by cases hc
    exact (unambiguous_value hchars hsort a 0 b x x [] [] ⟨ha, hx'⟩ ⟨hb, hy'⟩ hnil hnil rfl).1
  · intro h
    rw [writeValue_congr hsort ha hb h 0] at hx'
    exact hx'.unique hy'

end Canonical

end Writer

namespace Writer

open Node

/-- `operator==` returns on the two trees, and finds them equal exactly when they have the same text. -/
def CanonicalText (platform : Platform) (opts : DumpOptions) (maxDepth : Nat) (a b : Node) : Prop :=
  ∀ x y, dump platform opts maxDepth a = .ok x → dump platform opts maxDepth b = .ok y →
    equal a b = some (decide (x = y))

/-- The sorted text of a tree is canonical, unless comparing the two trees comes to two objects of one
size too large for the index that `operator==` builds. -/
theorem canonicalText_iff {platform : Platform} (hchars : ToCharsCorrect platform)
    {opts : DumpOptions} (hsort : opts.sortKeys = true) {maxDepth : Nat} {a b : Node} {x y : Bytes}
    (hsound : a.Sound) (hsound' : b.Sound) (ha : a.NoDuplicates) (hb : b.NoDuplicates)
    (hfinite : a.FiniteNumbers) (hfinite' : b.FiniteNumbers)
    (hx : dump platform opts maxDepth a = .ok x) (hy : dump platform opts maxDepth b = .ok y) :
    CanonicalText platform opts maxDepth a b ↔ ¬Overruns a b := by
  have htext : CanonicalText platform opts maxDepth a b ↔ equal a b = some (decide (x = y)) := by
    constructor
    · intro h
      exact h x y hx hy
    · intro h x' y' hx' hy'
      cases hx.symm.trans hx'
      cases hy.symm.trans hy'
      exact h
  rw [htext, decide_eq_decide.mpr (dump_eq_iff hchars hsort hfinite hfinite' hx hy)]
  exact equal_iff_not_overruns hsound hsound' ⟨ha, hfinite.noNaN⟩ ⟨hb, hfinite'.noNaN⟩

/-! ### Texts that are written -/

section Written

variable {platform : Platform} {opts : DumpOptions}

theorem exists_writes_items {items : List (Prog Writer Unit)} (depth : Nat) (first : Bool)
    (h : ∀ item ∈ items, ∃ text, Writes item text) :
    ∃ text, Writes (writeItems opts depth first items) text := by
  induction items generalizing first with
  | nil => exact ⟨[], writes_pure⟩
  | cons item items ih =>
      obtain ⟨⟨text, htext⟩, hitems⟩ := List.forall_mem_cons.mp h
      obtain ⟨rest, hrest⟩ := ih false hitems
      have hcomma : ∃ comma, Writes (writeComma first) comma := by
        cases first with
        | true => exact ⟨[], writes_pure⟩
        | false => exact ⟨_, writes_append _⟩
      obtain ⟨comma, hcomma⟩ := hcomma
      exact ⟨_, hcomma.seq ((writes_breakLine (depth + 1)).seq (htext.seq hrest))⟩

/-- Without a depth limit and the ASCII form, an object is written if its values are. -/
theorem exists_writes_object (hascii : opts.ascii = false) {self : Object Node} {depth : Nat}
    (h : ∀ entry ∈ self.data, ∃ text, Writes (writeValue platform opts 0 (depth + 1) entry.2) text) :
    ∃ text, Writes (writeValue platform opts 0 depth (object self)) text := by
  rw [writeValue_object, checkDepth, if_neg (by simp), writeContainer]
  split
  · exact ⟨_, writes_append _⟩
  · have hitems : ∀ item ∈ (orderEntries opts self.data).map fun entry => writeEntry platform opts
        (entry.1, writeValue platform opts 0 (depth + 1) entry.2), ∃ text, Writes item text := by
      refine List.forall_mem_map.mpr fun entry hmem => ?_
      obtain ⟨text, htext⟩ := h entry (mem_orderEntries.mp hmem)
      obtain ⟨key, hkey⟩ : ∃ key, Writes (writeEscapedImpl platform entry.1 opts.ascii) key := by
        rw [hascii]
        exact ⟨_, writeEscapedImpl_eq platform entry.1⟩
      exact ⟨_, hkey.seq ((writes_append _).seq htext)⟩
    obtain ⟨text, htext⟩ := exists_writes_items depth true hitems
    exact ⟨_, (writes_append _).seq (htext.seq ((writes_breakLine depth).seq (writes_append _)))⟩

theorem exists_dump (hcompact : opts.pretty = false) {value : Node}
    (h : ∃ text, Writes (writeValue platform opts 0 0 value) text) :
    ∃ text, dump platform opts 0 value = .ok text := by
  obtain ⟨text, htext⟩ := h
  refine ⟨text, ?_⟩
  rw [dump, dumpValueTo, if_neg (by simp [hcompact]), htext]
  rfl

end Written

theorem pointBatch_pos : 0 < 16 := by decide

theorem pointBatch_le : 16 ≤ 64 := by decide

/-- A platform that writes 0.5 as `0.5`. -/
def pointPlatform : Platform where
  batch := 16
  batch_pos := pointBatch_pos
  batch_le := pointBatch_le
  keyHash key := key.length
  fromChars token := { ptr := token.length, ec := .none, value := ⟨0x3FE0000000000000⟩ }
  fromCharsHex token := { ptr := token.length, ec := .none, value := ⟨0x3FE0000000000000⟩ }
  toChars d :=
    if d = ⟨0x3FE0000000000000⟩ then some (asciiBytes "0.5")
    else some (ascii 'e' :: asciiBytes (toString (Int.ofNat d.bits.toNat)))

theorem toChars_point {d : Double} {text : Bytes} (h : pointPlatform.toChars d = some text) :
    (d = ⟨0x3FE0000000000000⟩ ∧ text = asciiBytes "0.5") ∨
      text = ascii 'e' :: asciiBytes (toString (Int.ofNat d.bits.toNat)) := by
  by_cases hd : d = ⟨0x3FE0000000000000⟩
  · exact .inl ⟨hd, (Option.some.inj ((if_pos hd).symm.trans h)).symm⟩
  · exact .inr (Option.some.inj ((if_neg hd).symm.trans h)).symm

theorem pointPlatform_correct : ToCharsCorrect pointPlatform where
  injective d d' text _ _ h h' := by
    rcases toChars_point h with ⟨rfl, rfl⟩ | rfl
    · rcases toChars_point h' with ⟨rfl, -⟩ | heq
      · rfl
      · exact absurd (List.cons.inj heq).1 (by decide)
    · rcases toChars_point h' with ⟨rfl, heq⟩ | heq
      · exact absurd (List.cons.inj heq).1 (by decide)
      · have hnat := Int.ofNat.inj (intText_inj (List.cons.inj heq).2)
        exact congrArg Double.mk (BitVec.eq_of_toNat_eq hnat)
  spelled d text _ h := by
    rcases toChars_point h with ⟨-, rfl⟩ | rfl
    · exact ⟨by decide, by decide +kernel⟩
    · refine ⟨List.cons_ne_nil _ _, List.forall_mem_cons.mpr ⟨by decide, fun c hc => ?_⟩⟩
      exact (mem_intText hc).1
  shortest d text _ h hsuffix := by
    have hmem : ascii '.' ∈ text := hsuffix.subset (by decide)
    rcases toChars_point h with ⟨-, rfl⟩ | rfl
    · exact absurd hsuffix (by decide)
    · rcases List.mem_cons.mp hmem with heq | hmem
      · exact absurd heq (by decide)
      · exact absurd (mem_intText hmem).2 (by decide)

def sortedOptions : DumpOptions := { sortKeys := true }

/-- Two entries, in either order. -/
def halfAndNull : Object Node :=
  { data := [(asciiBytes "b", floating ⟨0x3FE0000000000000⟩), (asciiBytes "a", null)] }

def nullAndHalf : Object Node :=
  { data := [(asciiBytes "a", null), (asciiBytes "b", floating ⟨0x3FE0000000000000⟩)] }

theorem writes_half (depth : Nat) : ∃ text,
    Writes (writeValue pointPlatform sortedOptions 0 depth (floating ⟨0x3FE0000000000000⟩)) text := by
  refine ⟨asciiBytes "0.5" ++ [], ?_⟩
  exact (writes_append (asciiBytes "0.5")).seq writes_pure

theorem dump_halfAndNull :
    (∃ text, dump pointPlatform sortedOptions 0 (object halfAndNull) = .ok text) ∧
      ∃ text, dump pointPlatform sortedOptions 0 (object nullAndHalf) = .ok text := by
  have hnull : ∃ text, Writes (writeValue pointPlatform sortedOptions 0 1 null) text :=
    ⟨_, writes_append _⟩
  constructor
  · refine exists_dump rfl (exists_writes_object rfl ?_)
    exact List.forall_mem_cons.mpr ⟨writes_half 1, List.forall_mem_singleton.mpr hnull⟩
  · refine exists_dump rfl (exists_writes_object rfl ?_)
    exact List.forall_mem_cons.mpr ⟨hnull, List.forall_mem_singleton.mpr (writes_half 1)⟩

theorem canonicalText_permuted :
    CanonicalText pointPlatform sortedOptions 0 (object halfAndNull) (object nullAndHalf) := by
  obtain ⟨⟨x, hx⟩, y, hy⟩ := dump_halfAndNull
  have hhalf : (floating ⟨0x3FE0000000000000⟩).FiniteNumbers := ⟨by decide, by decide⟩
  have hvalues : ∀ {P : Node → Prop}, P (floating ⟨0x3FE0000000000000⟩) → P null →
      (∀ entry ∈ halfAndNull.data, P entry.2) ∧ ∀ entry ∈ nullAndHalf.data, P entry.2 :=
    fun h h' => ⟨List.forall_mem_cons.mpr ⟨h, List.forall_mem_singleton.mpr h'⟩,
      List.forall_mem_cons.mpr ⟨h', List.forall_mem_singleton.mpr h⟩⟩
  obtain ⟨hfinite, hfinite'⟩ := hvalues hhalf trivial
  obtain ⟨hnodup, hnodup'⟩ := @hvalues NoDuplicates trivial trivial
  obtain ⟨hsound, hsound'⟩ := @hvalues Sound trivial trivial
  refine (canonicalText_iff pointPlatform_correct rfl
    (sound_object.mpr ⟨Index.cacheHolds_none _, hsound⟩)
    (sound_object.mpr ⟨Index.cacheHolds_none _, hsound'⟩) (noDuplicates_object.mpr ⟨by decide, hnodup⟩)
    (noDuplicates_object.mpr ⟨by decide, hnodup'⟩) (finiteNumbers_object.mpr hfinite)
    (finiteNumbers_object.mpr hfinite') hx hy).mpr fun h => ?_
  exact h.large.1 (indexable_object.mpr ⟨by decide, (hvalues trivial trivial).1⟩)

/-- An object with more entries than an index can be built for is not even equal to itself. -/
theorem not_canonicalText_huge : hugeNode.Sound ∧ hugeNode.NoDuplicates ∧ hugeNode.FiniteNumbers ∧
    (∃ text, dump pointPlatform sortedOptions 0 hugeNode = .ok text) ∧
    ¬CanonicalText pointPlatform sortedOptions 0 hugeNode hugeNode := by
  have hvalues : ∀ {P : Node → Prop}, P null → ∀ entry ∈ (wideObject (Index.kMaxIndexed + 1)).data,
      P entry.2 := fun h entry hmem => by rwa [wideObject_values entry hmem]
  have hdump : ∃ text, dump pointPlatform sortedOptions 0 hugeNode = .ok text :=
    exists_dump rfl (exists_writes_object rfl (@hvalues (fun value =>
      ∃ text, Writes (writeValue pointPlatform sortedOptions 0 1 value) text) ⟨_, writes_append _⟩))
  have hfinite : hugeNode.FiniteNumbers := finiteNumbers_object.mpr (hvalues trivial)
  refine ⟨wideObject_sound, hugeNode_plain.1, hfinite, hdump, fun h => ?_⟩
  obtain ⟨text, htext⟩ := hdump
  have hequal := h text text htext htext
  rw [equal_hugeNode] at hequal
  cases hequal

end Writer

end PjhJson
