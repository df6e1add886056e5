import PjhJson.ContractCopy
import PjhJson.NodeTree
import PjhJson.WriterLimits
import PjhJson.WriterNumber

/-! What `dump` writes, `parse_copy` reads back as the same tree. The text of a value is a value of RFC 8259
that denotes what was written; the parser is not looked at before the whole text is. -/

namespace PjhJson

open Grammar Spelling

/-! ### The tree that is written -/

namespace Writer

variable {opts : DumpOptions}

theorem perm_orderEntries {ν : Type} (entries : List (Bytes × ν)) :
    (orderEntries opts entries).Perm entries := by
  unfold orderEntries
  split
  · exact List.mergeSort_perm _ _
  · exact List.Perm.refl _

end Writer

namespace Node

section Written

variable (opts : DumpOptions)

mutual

/-- The tree that the text of a node denotes: the entries of an object in the order they are written in. -/
def written : Node → Json Bytes
  | null => .null
  | boolean value => .boolean value
  | integer value => .integer value
  | floating value => .double value
  | stringView text => .string text
  | stringOwned text => .string text
  | array elements => .array (writtenElements elements)
  | object { data, .. } => .object (Writer.orderEntries opts (writtenEntries data))

def writtenElements : List Node → List (Json Bytes)
  | [] => []
  | value :: rest => value.written :: writtenElements rest

def writtenEntries : List (Bytes × Node) → List (Bytes × Json Bytes)
  | [] => []
  | (key, value) :: rest => (key, value.written) :: writtenEntries rest

end

variable {opts}

@[simp] theorem written_array (elements : List Node) :
    (array elements).written opts = .array (elements.map (written opts)) := by
  rw [written]
  congr 1
  induction elements with
  | nil => rfl
  | cons value rest ih => rw [writtenElements, ih, List.map_cons]

@[simp] theorem written_object (self : Object Node) : (object self).written opts =
    .object ((Writer.orderEntries opts self.data).map fun entry => (entry.1, entry.2.written opts)) := by
  obtain ⟨data, index, resource⟩ := self
  have hentries : writtenEntries opts data = data.map fun entry => (entry.1, entry.2.written opts) := by
    induction data with
    | nil => rfl
    | cons entry rest ih => rw [writtenEntries, ih, List.map_cons]
  rw [written, hentries, Writer.orderEntries_map]

theorem written_unsorted (hsort : opts.sortKeys = false) (value : Node) :
    value.written opts = value.tree := by
  induction value using Node.induct with
  | array elements ih =>
      rw [written_array, tree_array]
      exact congrArg _ (List.map_congr_left ih)
  | object self ih =>
      have horder : Writer.orderEntries opts self.data = self.data := by
        rw [Writer.orderEntries, hsort, if_neg Bool.false_ne_true]
      rw [written_object, tree_object, horder, Members.mapValues]
      apply congrArg
      apply List.map_congr_left
      intro entry hmem
      rw [ih entry hmem]
  | _ => rfl

/-- A node with the tree that is written has the code of the node it was written from. -/
theorem code_of_written {value root : Node} (hvalue : value.NoDuplicates)
    (h : root.tree = value.written opts) : root.code = value.code ∧ root.NoDuplicates := by
  induction value using Node.induct generalizing root with
  | array elements ih =>
      rw [written_array] at h
      cases root with
      | array others =>
          rw [tree_array, Json.array.injEq] at h
          have hall := forall₂_of_map_eq h
          have hsame : ∀ x ∈ others, ∀ y ∈ elements, x.tree = y.written opts →
              x.code = y.code ∧ x.NoDuplicates := fun x _ y hy hxy =>
            ih y hy (noDuplicates_array.mp hvalue y hy) hxy
          constructor
          · rw [code_array_iff]
            exact map_eq_of_forall₂ hall fun x hx y hy hxy => (hsame x hx y hy hxy).1
          · rw [noDuplicates_array]
            intro x hx
            obtain ⟨y, hy, hxy⟩ := exists_of_forall₂ hall.flip x hx
            exact (hsame x hx y hy hxy).2
      | _ => cases h
  | object self ih =>
      rw [written_object] at h
      cases root with
      | object other =>
          rw [tree_object, Json.object.injEq, Members.mapValues] at h
          obtain ⟨hkeys, hvalues⟩ := noDuplicates_object.mp hvalue
          have hall := forall₂_of_map_eq h
          have hsame : ∀ p ∈ other.data, ∀ q ∈ Writer.orderEntries opts self.data,
              (p.1, p.2.tree) = (q.1, q.2.written opts) →
              p.1 = q.1 ∧ p.2.code = q.2.code ∧ p.2.NoDuplicates := by
            intro p _ q hq hpq
            have hself := Writer.mem_orderEntries.mp hq
            obtain ⟨hkey, htree⟩ := Prod.mk.inj hpq
            exact ⟨hkey, ih q hself (hvalues q hself) htree⟩
          have hcodes : codes other = Writer.orderEntries opts (codes self) :=
            calc codes other
                = (Writer.orderEntries opts self.data).map (fun entry => (entry.1, entry.2.code)) :=
                  map_eq_of_forall₂ hall fun p hp q hq hpq => by
                    obtain ⟨hkey, hcode, -⟩ := hsame p hp q hq hpq
                    rw [hkey, hcode]
              _ = Writer.orderEntries opts (codes self) := (Writer.orderEntries_map code self.data).symm
          have hperm : (codes other).Perm (codes self) := hcodes ▸ Writer.perm_orderEntries (codes self)
          have hnodup : other.keys.Nodup := by
            rw [← keys_codes] at hkeys ⊢
            exact (hperm.map (·.1)).nodup_iff.mpr hkeys
          constructor
          · rw [code_object_iff]
            refine sortByKey_perm ?_ hperm
            rwa [keys_codes]
          · refine noDuplicates_object.mpr ⟨hnodup, fun p hp => ?_⟩
            obtain ⟨q, hq, hpq⟩ := exists_of_forall₂ hall.flip p hp
            exact (hsame p hp q hq hpq).2.2
      | _ => cases h
  | null | boolean _ | integer _ | floating _ | stringView _ | stringOwned _ =>
      cases root with
      | array _ => rw [tree_array] at h; cases h
      | object _ => rw [tree_object] at h; cases h
      | _ => cases h <;> exact ⟨rfl, trivial⟩

end Written

theorem Representable.noNaN {ascii : Bool} {node : Node} (h : node.Representable ascii) : node.NoNaN := by
  induction node using Node.induct with
  | floating value => exact Double.isNaN_of_isFinite h
  | array elements ih =>
      exact all_array.mpr ⟨trivial, fun value hmem => ih value hmem (representable_array.mp h value hmem)⟩
  | object self ih =>
      exact all_object.mpr
        ⟨trivial, fun entry hmem => ih entry hmem (representable_object.mp h entry hmem).2⟩
  | _ => trivial

end Node

/-! ### The text of a value -/

namespace Writer

variable {platform : Platform} {opts : DumpOptions} {maxDepth limit : Nat}

theorem whitespace_lineBreak (hindent : IndentFits opts) (depth : Nat) : Rfc.Whitespace (lineBreak opts depth) := by
  unfold lineBreak
  split
  · rename_i hpretty
    refine List.forall_mem_cons.mpr ⟨.inr (.inr (.inl rfl)), fun c hmem => ?_⟩
    rw [List.eq_of_mem_replicate hmem]
    exact (hindent hpretty).imp id .inl
  · exact fun _ hmem => absurd hmem List.not_mem_nil

theorem whitespace_nil : Rfc.Whitespace [] := fun _ hmem => absurd hmem List.not_mem_nil

/-- Values behind separators are the elements of an array. -/
theorem elements_separated (hindent : IndentFits opts) (depth : Nat) {before first : Bytes} {value : Ast}
    {texts : List Bytes} {values : List Ast} (hbefore : Rfc.Whitespace before) (hfirst : Rfc.Value first value)
    (h : List.Forall₂ Rfc.Value texts values) :
    Rfc.Elements (before ++ (first ++ (separated (separator opts depth) texts ++ lineBreak opts depth)))
      (value :: values) := by
  induction h generalizing before first value with
  | nil => exact .one before first _ value hbefore hfirst (whitespace_lineBreak hindent depth)
  | @cons text value' texts values htext _ ih =>
      have hrest := ih (whitespace_lineBreak hindent (depth + 1)) htext
      have hmore := Rfc.Elements.more before first [] _ value _ hbefore hfirst whitespace_nil hrest
      rw [separated, List.flatMap_cons, separator, List.append_assoc, List.append_assoc]
      exact hmore

/-- The text of a member: its key, the colon and its value. -/
def MemberText (text : Bytes) (member : Bytes × Ast) : Prop :=
  ∃ token before value, Rfc.StringToken token member.1 ∧ Rfc.Whitespace before ∧ Rfc.Value value member.2 ∧
    text = token ++ (ascii ':' :: (before ++ value))

theorem members_separated (hindent : IndentFits opts) (depth : Nat) {before first : Bytes} {member : Bytes × Ast}
    {texts : List Bytes} {members : List (Bytes × Ast)} (hbefore : Rfc.Whitespace before)
    (hfirst : MemberText first member) (h : List.Forall₂ MemberText texts members) :
    Rfc.Members (before ++ (first ++ (separated (separator opts depth) texts ++ lineBreak opts depth)))
      (member :: members) := by
  induction h generalizing before first member with
  | nil =>
      obtain ⟨token, gap, text, htoken, hgap, htext, rfl⟩ := hfirst
      have hone := Rfc.Members.one before token [] gap text _ member.1 member.2 hbefore htoken whitespace_nil hgap
        htext (whitespace_lineBreak hindent depth)
      simpa [separated] using hone
  | @cons text' member' texts members htext' _ ih =>
      obtain ⟨token, gap, text, htoken, hgap, htext, rfl⟩ := hfirst
      have hrest := ih (whitespace_lineBreak hindent (depth + 1)) htext'
      have hmore := Rfc.Members.more before token [] gap text [] _ member.1 member.2 _ hbefore htoken
        whitespace_nil hgap htext whitespace_nil hrest
      simpa [separated, separator] using hmore

/-- A syntax tree that denotes what was written, and that the parser takes below `depth` open containers. -/
structure Restores (platform : Platform) (opts : DumpOptions) (limit depth : Nat) (value : Node) (ast : Ast) :
    Prop where
  tree : ast.toJson (tokenNumber platform { maxDepth := limit }) = value.written opts
  fits : Reading.Fits platform { maxDepth := limit } depth ast

section Restores

variable {depth : Nat} {value : Node}

theorem restores_number (hcorrect : FromCharsCorrect platform) (hdepth : limit = 0 ∨ depth ≤ limit)
    {text : Bytes} {number : Number} (hnumber : Rfc.NumberValue platform text number)
    (hlength : text.length < 2 ^ 32) (hwritten : value.written opts = number.toJson) :
    Rfc.Value text (.number text) ∧ Restores platform opts limit depth value (.number text) := by
  have hscan : scanAndClassify platform text = .ok (number, []) := by
    refine (scanAndClassify_iff hcorrect fun parts hparts => Nat.lt_of_le_of_lt ?_ hlength).mpr hnumber
    have hinfix : parts.integer <:+: parts.text := infix_append_left _ (infix_append_right (List.infix_refl _) _)
    exact hparts ▸ hinfix.length_le
  have htoken : Rfc.Number text := by
    cases hnumber with
    | integer parts _ => exact ⟨parts, rfl⟩
    | double parts _ _ _ _ => exact ⟨parts, rfl⟩
  refine ⟨.number text htoken, ?_, hdepth, List.forall_mem_singleton.mpr ⟨number, hscan⟩⟩
  rw [Ast.toJson, tokenNumber_of_scan hscan, hwritten]

/-- A value without numbers and containers. -/
theorem restores_plain (hdepth : limit = 0 ∨ depth ≤ limit) {ast : Ast} (hnesting : ast.nesting = 0)
    (hnumbers : ast.numbers = [])
    (hwritten : ast.toJson (tokenNumber platform { maxDepth := limit }) = value.written opts) :
    Restores platform opts limit depth value ast := by
  refine ⟨hwritten, ?_, fun token hmem => ?_⟩
  · rwa [Reading.DepthFits, hnesting, Nat.add_zero]
  · rw [hnumbers] at hmem
    exact absurd hmem List.not_mem_nil

theorem restores_array (hinner : limit = 0 ∨ depth + 1 ≤ limit) {arr : List Node} {asts : List Ast}
    (h : List.Forall₂ (Restores platform opts limit (depth + 1)) arr asts) :
    Restores platform opts limit depth (.array arr) (.array asts) := by
  constructor
  · rw [Ast.toJson_array, Node.written_array]
    apply congrArg
    exact (Node.map_eq_of_forall₂ h fun _ _ _ _ hrestores => hrestores.tree.symm).symm
  · refine Reading.fits_array.mpr ⟨hinner, fun ast hmem => ?_⟩
    obtain ⟨_, -, hrestores⟩ := Node.exists_of_forall₂ h ast hmem
    exact hrestores.fits

theorem restores_object (hinner : limit = 0 ∨ depth + 1 ≤ limit) {self : Object Node}
    (hkeys : self.keys.Nodup) {members : List (Bytes × Ast)}
    (h : List.Forall₂ (fun entry member => entry.1 = member.1 ∧
      Restores platform opts limit (depth + 1) entry.2 member.2) (orderEntries opts self.data) members) :
    Restores platform opts limit depth (.object self) (.object members) := by
  constructor
  · have hentries := Node.map_eq_of_forall₂ h (f := fun entry => (entry.1, entry.2.written opts))
      (g := fun member => (member.1, member.2.toJson (tokenNumber platform { maxDepth := limit })))
      fun _ _ _ _ hrestores => Prod.ext hrestores.1 hrestores.2.tree.symm
    have hnodup : (((orderEntries opts self.data).map fun entry =>
        (entry.1, entry.2.written opts)).map (·.1)).Nodup := by
      have hperm : ((orderEntries opts self.data).map (·.1)).Perm self.keys := (perm_orderEntries _).map _
      rw [List.map_map]
      exact hperm.nodup_iff.mpr hkeys
    rw [Ast.toJson_object, Node.written_object, ← hentries, lastWins_of_nodup hnodup]
  · refine Reading.fits_object.mpr ⟨hinner, fun member hmem => ?_⟩
    obtain ⟨_, -, hrestores⟩ := Node.exists_of_forall₂ h member hmem
    exact hrestores.2.fits

end Restores

theorem length_int64Text (v : Int64) : (int64Text v).length ≤ 20 := by
  have hlow := Int64.le_toInt v
  have hhigh := Int64.toInt_lt v
  have hdigits : (Rfc.naturalText v.toInt.natAbs).length ≤ 19 := Rfc.length_naturalText (by decide) (by omega)
  have hminus : (if v.toInt < 0 then [ascii '-'] else []).length ≤ 1 := by split <;> decide
  rw [← Rfc.text_integerParts, Rfc.NumberParts.text, List.length_append, List.length_append]
  exact Nat.add_le_add hminus hdigits

section Containers

variable {α β : Type} {spelled : Bytes → β → Prop} {R : α → β → Prop} {program : α → Prog Writer Unit}
  {items : List α}

theorem exists_denoted {texts : List Bytes} (h : List.Forall₂ Writes (items.map program) texts)
    (hitem : ∀ a ∈ items, ∀ text, Writes (program a) text → ∃ b, spelled text b ∧ R a b) :
    ∃ bs, List.Forall₂ spelled texts bs ∧ List.Forall₂ R items bs := by
  induction items generalizing texts with
  | nil =>
      cases h
      exact ⟨[], .nil, .nil⟩
  | cons a items ih =>
      obtain ⟨text, texts, htext, htexts, rfl⟩ := List.forall₂_cons_left_iff.mp h
      obtain ⟨hfirst, hrest⟩ := List.forall_mem_cons.mp hitem
      obtain ⟨b, hspelled, hrelated⟩ := hfirst text htext
      obtain ⟨bs, hspelled', hrelated'⟩ := ih htexts hrest
      exact ⟨b :: bs, .cons hspelled hspelled', .cons hrelated hrelated'⟩

/-- The text of a container, by what its items denote. -/
theorem container_denoted {depth : Nat} {opening closing : UInt8} {text : Bytes}
    (h : ContainerForm opts depth opening closing (items.map program) text)
    (hitem : ∀ a ∈ items, ∀ text, Writes (program a) text → ∃ b, spelled text b ∧ R a b) :
    (items = [] ∧ text = [opening, closing]) ∨ ∃ first texts b bs, spelled first b ∧
      List.Forall₂ spelled texts bs ∧ List.Forall₂ R items (b :: bs) ∧
      text = opening :: (lineBreak opts (depth + 1) ++ (first ++ (separated (separator opts depth) texts ++
        lineBreak opts depth)) ++ [closing]) := by
  rcases h with ⟨hnil, rfl⟩ | ⟨item, rest, first, texts, hcons, hfirst, htexts, rfl⟩
  · exact .inl ⟨List.map_eq_nil_iff.mp hnil, rfl⟩
  · have hall : List.Forall₂ Writes (items.map program) (first :: texts) := by
      rw [hcons]
      exact .cons hfirst htexts
    obtain ⟨bs, hspelled, hrelated⟩ := exists_denoted hall hitem
    obtain ⟨b, bs, hb, hbs, rfl⟩ := List.forall₂_cons_left_iff.mp hspelled
    refine .inr ⟨first, texts, b, bs, hb, hbs, hrelated, ?_⟩
    simp only [List.append_assoc]

end Containers

/-- The text of a value is a value of the grammar that denotes it. -/
theorem restores_of_writes (hnumbers : NumbersReturn platform) (hindent : IndentFits opts) {value : Node}
    (hvalue : value.NoDuplicates) {depth depth' : Nat} (hlimit : value.NestsWithin limit depth)
    (hdepth : limit = 0 ∨ depth ≤ limit) {text : Bytes}
    (h : Writes (writeValue platform opts maxDepth depth' value) text) :
    ∃ ast, Rfc.Value text ast ∧ Restores platform opts limit depth value ast := by
  have hform := (writeValue_spells value depth').2 text h
  induction value using Node.induct generalizing depth depth' text with
  | null => exact ⟨.null, hform ▸ .null, restores_plain hdepth rfl rfl rfl⟩
  | boolean b =>
      refine ⟨.boolean b, ?_, restores_plain hdepth rfl rfl rfl⟩
      cases b with
      | false => exact hform ▸ .boolFalse
      | true => exact hform ▸ .boolTrue
  | integer i =>
      have hnumber := Rfc.numberValue_int64 platform i
      have hlength := Nat.lt_of_le_of_lt (length_int64Text i) (by decide : 20 < 2 ^ 32)
      rw [show text = _ from hform]
      exact ⟨_, restores_number hnumbers.toFromCharsCorrect hdepth hnumber hlength rfl⟩
  | floating d =>
      obtain ⟨hfinite, buf, hbuf, rfl⟩ := hform
      obtain ⟨hnumber, hlength⟩ := numberValue_double hnumbers hfinite hbuf
      have hshort := Nat.lt_of_le_of_lt hlength (by decide : 34 < 2 ^ 32)
      exact ⟨_, restores_number hnumbers.toFromCharsCorrect hdepth hnumber hshort rfl⟩
  | stringView s => exact ⟨.string s, .string text s hform, restores_plain hdepth rfl rfl rfl⟩
  | stringOwned s => exact ⟨.string s, .string text s hform, restores_plain hdepth rfl rfl rfl⟩
  | array arr ih =>
      obtain ⟨hinner, hnests⟩ := Node.nestsWithin_array.mp hlimit
      have hnodup := Node.noDuplicates_array.mp hvalue
      have hitem : ∀ el ∈ arr, ∀ text, Writes (writeValue platform opts maxDepth (depth' + 1) el) text →
          ∃ ast, Rfc.Value text ast ∧ Restores platform opts limit (depth + 1) el ast :=
        fun el hmem text hwrites => ih el hmem (hnodup el hmem) (hnests el hmem) hinner hwrites
          ((writeValue_spells el (depth' + 1)).2 text hwrites)
      obtain ⟨rfl, rfl⟩ | ⟨first, texts, ast, asts, hfirst, htexts, hall, rfl⟩ := container_denoted hform hitem
      · exact ⟨.array [], .emptyArray [] whitespace_nil, restores_array hinner .nil⟩
      · refine ⟨.array (ast :: asts), .array _ _ ?_, restores_array hinner hall⟩
        exact elements_separated hindent depth' (whitespace_lineBreak hindent _) hfirst htexts
  | object self ih =>
      obtain ⟨hinner, hnests⟩ := Node.nestsWithin_object.mp hlimit
      obtain ⟨hkeys, hnodup⟩ := Node.noDuplicates_object.mp hvalue
      have hitem : ∀ entry ∈ orderEntries opts self.data, ∀ text, Writes (writeEntry platform opts
          (entry.1, writeValue platform opts maxDepth (depth' + 1) entry.2)) text →
          ∃ member, MemberText text member ∧
            (entry.1 = member.1 ∧ Restores platform opts limit (depth + 1) entry.2 member.2) := by
        intro entry hmem text hwrites
        have hself := mem_orderEntries.mp hmem
        obtain ⟨token, shown, htoken, hshown, rfl⟩ :=
          (writeEntry_spells entry.1 (writeValue_spells entry.2 (depth' + 1)).1).2 text hwrites
        obtain ⟨ast, hast, hrestores⟩ := ih entry hself (hnodup entry hself) (hnests entry hself) hinner hshown
          ((writeValue_spells entry.2 (depth' + 1)).2 shown hshown)
        refine ⟨(entry.1, ast), ?_, rfl, hrestores⟩
        cases opts.pretty with
        | true => exact ⟨token, [0x20], shown, htoken, List.forall_mem_singleton.mpr (.inl rfl), hast, rfl⟩
        | false => exact ⟨token, [], shown, htoken, whitespace_nil, hast, rfl⟩
      obtain ⟨hnil, rfl⟩ | ⟨first, texts, member, members, hfirst, htexts, hall, rfl⟩ :=
        container_denoted hform hitem
      · exact ⟨.object [], .emptyObject [] whitespace_nil, restores_object hinner hkeys (hnil ▸ .nil)⟩
      · refine ⟨.object (member :: members), .object _ _ ?_, restores_object hinner hkeys hall⟩
        exact members_separated hindent depth' (whitespace_lineBreak hindent _) hfirst htexts

/-- `parse_copy` on a text that `dump` returned, within a depth limit of its own. -/
theorem parseCopy_of_dump (hnumbers : NumbersReturn platform) {value : Node} (hvalue : value.NoDuplicates)
    {text : Bytes} (hdump : dump platform opts maxDepth value = .ok text) (hfits : paddedFits text.length = true)
    (hlimit : limit = 0 ∨ value.nesting ≤ limit) :
    ∃ document, parseCopy platform { maxDepth := limit } text = .ok document ∧
      document.tree = value.written opts := by
  obtain ⟨hindent, hwrites⟩ := dump_eq_ok.mp hdump
  have hnests : value.NestsWithin limit 0 := by rwa [Node.NestsWithin, Nat.zero_add]
  obtain ⟨ast, hast, hrestores⟩ :=
    restores_of_writes hnumbers hindent hvalue hnests (.inr (Nat.zero_le _)) hwrites
  have htext : Rfc.Text text ast := by
    have hmk := Rfc.Text.mk [] text [] ast whitespace_nil hast whitespace_nil
    rwa [List.nil_append, List.append_nil] at hmk
  obtain ⟨r, hread⟩ := (Reading.readText_iff (plain_default limit)).mpr ⟨htext, hrestores.fits⟩
  exact (parseCopy_eq_ok hfits).mpr ⟨ast, r, hread, hrestores.tree⟩

/-- `dump` and `parse_copy` on trees without repeated keys: which of them are written, and that `parse_copy`
reads what is written back as the same tree, or as one with sorted entries that `operator==` finds equal. -/
theorem dump_parseCopy (hnumbers : NumbersReturn platform) (opts : DumpOptions) (maxDepth : Nat) {value : Node}
    (hvalue : value.NoDuplicates) :
    ((∃ text, dump platform opts maxDepth value = .ok text) ↔ IndentFits opts ∧
      (maxDepth = 0 ∨ value.nesting ≤ maxDepth) ∧ value.Representable opts.ascii) ∧
    ∀ text, dump platform opts maxDepth value = .ok text → paddedFits text.length = true →
      ∀ limit, limit = 0 ∨ value.nesting ≤ limit →
        ∃ document, parseCopy platform { maxDepth := limit } text = .ok document ∧
          document.tree = value.written opts ∧ (opts.sortKeys = false → document.tree = value.tree) ∧
          ∀ root : Node, root.tree = document.tree → root.Sound → value.Sound → value.Indexable →
            Node.equal root value = some true := by
  have hsucceeds := @dump_succeeds_iff platform opts maxDepth hnumbers.written value
  refine ⟨hsucceeds, fun text hdump hfits limit hlimit => ?_⟩
  obtain ⟨document, hparse, htree⟩ := parseCopy_of_dump hnumbers hvalue hdump hfits hlimit
  refine ⟨document, hparse, htree, fun hsort => htree.trans (Node.written_unsorted hsort value), ?_⟩
  intro root hroot hsound hsound' hindexable
  have hnoNaN : value.NoNaN := (hsucceeds.mp ⟨text, hdump⟩).2.2.noNaN
  obtain ⟨hcode, hnodup⟩ := Node.code_of_written hvalue (hroot.trans htree)
  have hplain : root.Plain := ⟨hnodup, Node.noNaN_of_code hcode.symm hnoNaN⟩
  rw [Node.equal_eq hsound hsound' hplain ⟨hvalue, hnoNaN⟩ (.inr hindexable), decide_eq_true hcode]

/-- A platform that writes a double other than `0.5` as its bits, and reads it back. -/
def bitsPlatform : Platform :=
  { halfPlatform with
    fromChars := fun token =>
      let value : Double := if token = asciiBytes "0.5" then ⟨0x3FE0000000000000⟩
        else ⟨BitVec.ofNat 64 (Rfc.decimal (token.takeWhile (· != ascii '.')))⟩
      ⟨token.length, if value.isFinite then .none else .resultOutOfRange, value⟩
    toChars := fun value =>
      some (if value = ⟨0x3FE0000000000000⟩ then asciiBytes "0.5" else Rfc.naturalText value.bits.toNat) }

theorem number_half : Rfc.Number (asciiBytes "0.5") := by
  have hdigit : ∀ c ∈ asciiBytes "5", Rfc.Digit c := List.forall_mem_singleton.mpr ⟨by decide, by decide⟩
  have hzero : ∀ c ∈ asciiBytes "0", Rfc.Digit c := List.forall_mem_singleton.mpr ⟨by decide, by decide⟩
  exact ⟨⟨[], asciiBytes "0", asciiBytes ".5", [], .inl rfl, ⟨⟨by decide, hzero⟩, fun _ => rfl⟩,
    .some _ ⟨by decide, hdigit⟩, .none⟩, rfl⟩

theorem number_naturalText (n : Nat) : Rfc.Number (Rfc.naturalText n) :=
  ⟨⟨[], Rfc.naturalText n, [], [], .inl rfl, Rfc.integer_naturalText n, .none, .none⟩, List.append_nil _⟩

/-- Digits are taken for the bits, and a point behind them is passed over. -/
theorem fromChars_bits {digits : Bytes} (h : ∀ c ∈ digits, c ≠ ascii '.') {more : Bytes}
    (hmore : more = [] ∨ more = asciiBytes ".0") :
    let value : Double := ⟨BitVec.ofNat 64 (Rfc.decimal digits)⟩
    bitsPlatform.fromChars (digits ++ more) =
      ⟨(digits ++ more).length, if value.isFinite then .none else .resultOutOfRange, value⟩ := by
  have htake : (digits ++ more).takeWhile (· != ascii '.') = digits := by
    rw [List.takeWhile_append_of_pos fun c hc => bne_iff_ne.mpr (h c hc)]
    rcases hmore with rfl | rfl
    · exact List.append_nil digits
    · exact List.append_nil digits
  have hne : digits ++ more ≠ asciiBytes "0.5" := by
    intro heq
    rcases hmore with rfl | rfl
    · rw [List.append_nil] at heq
      exact h (ascii '.') (heq ▸ by decide) rfl
    · have hlast := congrArg List.getLast? heq
      rw [List.getLast?_append_of_ne_nil _ (by decide)] at hlast
      cases hlast
  intro value
  have hvalue : (if digits ++ more = asciiBytes "0.5" then (⟨0x3FE0000000000000⟩ : Double)
      else ⟨BitVec.ofNat 64 (Rfc.decimal ((digits ++ more).takeWhile (· != ascii '.')))⟩) = value := by
    rw [if_neg hne, htake]
  calc bitsPlatform.fromChars (digits ++ more)
      = (let shown : Double := if digits ++ more = asciiBytes "0.5" then ⟨0x3FE0000000000000⟩
          else ⟨BitVec.ofNat 64 (Rfc.decimal ((digits ++ more).takeWhile (· != ascii '.')))⟩
        ⟨(digits ++ more).length, if shown.isFinite then .none else .resultOutOfRange, shown⟩) := rfl
    _ = _ := by rw [hvalue]

theorem bitsPlatform_returns : NumbersReturn bitsPlatform where
  matched _ := rfl
  finite parts hok := by
    by_contra hnot
    have hec : (bitsPlatform.fromChars parts.text).ec =
        if (bitsPlatform.fromChars parts.text).value.isFinite then .none else .resultOutOfRange := rfl
    rw [if_neg hnot] at hec
    cases hec.symm.trans hok
  written _ _ := ⟨_, rfl⟩
  returned d buf hd hbuf := by
    obtain rfl := Option.some.inj hbuf
    by_cases hhalf : d = ⟨0x3FE0000000000000⟩
    · rw [if_pos hhalf, hhalf]
      exact ⟨number_half, by decide, by decide⟩
    · rw [if_neg hhalf]
      have hlt : d.bits.toNat < 10 ^ 20 := Nat.lt_of_lt_of_le d.bits.isLt (by decide)
      have hpoint : ∀ c ∈ Rfc.naturalText d.bits.toNat, c ≠ ascii '.' := fun c hc heq =>
        absurd (heq ▸ (Rfc.digits_naturalText _).2 c hc) (fun hdigit => absurd hdigit.1 (by decide))
      have hread := fromChars_bits hpoint (.inl rfl)
      have hback : (⟨BitVec.ofNat 64 (Rfc.decimal (Rfc.naturalText d.bits.toNat))⟩ : Double) = d := by
        rw [Rfc.decimal_naturalText, BitVec.ofNat_toNat, BitVec.setWidth_eq]
      refine ⟨number_naturalText _, (Rfc.length_naturalText (by decide) hlt).trans (by decide), ?_⟩
      rw [List.append_nil] at hread
      rw [hread]
      simp only [hback, hd, if_true]
  pointed digits _ hpoint := by
    have hne : ∀ c ∈ digits, c ≠ ascii '.' := by
      rintro c hc rfl
      exact List.any_eq_false.mp hpoint _ hc rfl
    have hread := fromChars_bits hne (.inl rfl)
    rw [List.append_nil] at hread
    rw [fromChars_bits hne (.inr rfl), hread]

/-- `[0.5,12,{…}]`, around these members. -/
def mixed (data : List (Bytes × Node)) : Node := .array [.floating ⟨0x3FE0000000000000⟩, .integer 12, .object { data }]

theorem mixed_noDuplicates {data : List (Bytes × Node)} (hnodup : (data.map (·.1)).Nodup)
    (hdata : ∀ entry ∈ data, entry.2.NoDuplicates) : (mixed data).NoDuplicates := by
  refine Node.all_array.mpr ⟨trivial, fun value hmem => ?_⟩
  simp only [List.mem_cons, List.not_mem_nil, or_false] at hmem
  rcases hmem with rfl | rfl | rfl
  · trivial
  · trivial
  · exact Node.all_object.mpr ⟨hnodup, hdata⟩

/-- `{"b":null,"a":"x"}` in it, written with sorted keys: the tree that is read back has them in the other order, and
`operator==` answers `true`. -/
theorem dump_parseCopy_sorted : ∃ document, parseCopy bitsPlatform { maxDepth := 2 }
      (asciiBytes "[0.5,12,\x7b\"a\":\"x\",\"b\":null\x7d]") = .ok document ∧
    document.tree = .array [.double ⟨0x3FE0000000000000⟩, .integer 12,
      .object [(asciiBytes "a", .string (asciiBytes "x")), (asciiBytes "b", .null)]] ∧
    Node.equal (mixed [(asciiBytes "a", .stringOwned (asciiBytes "x")), (asciiBytes "b", .null)])
      (mixed [(asciiBytes "b", .null), (asciiBytes "a", .stringOwned (asciiBytes "x"))]) = some true := by
  have horder : ∀ {ν : Type} (x y : ν), orderEntries { sortKeys := true } [(asciiBytes "b", x), (asciiBytes "a", y)] =
      [(asciiBytes "a", y), (asciiBytes "b", x)] := by
    intro ν x y
    have hless : bytesLess (asciiBytes "a") (asciiBytes "b") = true := by decide
    simp [orderEntries, sortByKey, List.mergeSort, hless]
  have hdump : dump bitsPlatform { sortKeys := true } 2
      (mixed [(asciiBytes "b", .null), (asciiBytes "a", .stringOwned (asciiBytes "x"))]) =
      .ok (asciiBytes "[0.5,12,\x7b\"a\":\"x\",\"b\":null\x7d]") := by
    simp only [dump, dumpValueTo, mixed, writeValue_array, List.map, writeValue_object, horder]
    rfl
  have hvalue : Node.NoDuplicates
      (mixed [(asciiBytes "b", .null), (asciiBytes "a", .stringOwned (asciiBytes "x"))]) := by
    refine mixed_noDuplicates (by decide) fun entry hmem => ?_
    simp only [List.mem_cons, List.not_mem_nil, or_false] at hmem
    rcases hmem with rfl | rfl <;> trivial
  obtain ⟨document, hparse, htree, -, hequal⟩ :=
    (dump_parseCopy bitsPlatform_returns { sortKeys := true } 2 hvalue).2 _ hdump (by decide) 2 (.inr (by decide))
  have hwritten : Node.written { sortKeys := true }
      (mixed [(asciiBytes "b", .null), (asciiBytes "a", .stringOwned (asciiBytes "x"))]) =
      .array [.double ⟨0x3FE0000000000000⟩, .integer 12,
        .object [(asciiBytes "a", .string (asciiBytes "x")), (asciiBytes "b", .null)]] := by
    simp only [mixed, Node.written_array, List.map, Node.written, Node.writtenEntries, horder]
  rw [hwritten] at htree
  have hsorted := Node.sound_bare (mixed [(asciiBytes "a", .stringOwned (asciiBytes "x")), (asciiBytes "b", .null)])
  have hsound := Node.sound_bare (mixed [(asciiBytes "b", .null), (asciiBytes "a", .stringOwned (asciiBytes "x"))])
  refine ⟨document, hparse, htree, hequal _ htree.symm hsorted hsound ?_⟩
  simp [mixed, Node.Indexable, Node.All, Node.AllEntries, Object.keys, Index.kMaxIndexed]

end Writer

end PjhJson
