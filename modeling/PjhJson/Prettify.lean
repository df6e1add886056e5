import PjhJson.Json5Document
import PjhJson.MergePatchLaws
import PjhJson.OutFrame
import PjhJson.WriterRoundTrip

/-! `prettify` of `writer/dump.cpp`: a text is parsed under the flags of the configuration and written again. What
is written is plain JSON that says what the text said, and writing it once more changes nothing. -/

namespace PjhJson

open Grammar Prog

/-! ### Trees that were parsed -/

namespace Reading

variable {platform : Platform} {cfg : Config}

theorem yields_nests (hjson5 : cfg.json5 = false) (json : Bytes) :
    Yields (readText skipWhitespace platform cfg 0 { rest := json }) fun value _ => Nests cfg 0 value := by
  rw [readText_whole]
  refine yields_bind (yields_readValue hjson5) ?_
  rintro value r₁ ⟨before, text, -, -, -, hfits⟩
  refine yields_failIfRecorded (yields_bind (yields_skipWhitespace hjson5) ?_)
  rintro _ r₂ -
  refine yields_failIfRecorded ?_
  rw [Prog.bind_get]
  split
  · exact yields_ok hfits.nesting
  · exact yields_failHere _

/-- Whatever is read nests within the limit. -/
theorem nests_readText {json : Bytes} {value : Ast} {r : Reading}
    (h : readText skipWhitespace platform cfg 0 { rest := json } = .ok (value, r)) : Nests cfg 0 value := by
  cases hjson5 : cfg.json5 with
  | true => exact (Json5.document_of_readText hjson5 h).1
  | false => exact yields_nests hjson5 json value r h

end Reading

namespace Ast

variable (numberOf : Bytes → Number)

/-- The tree that a syntax tree denotes has no repeated keys, and does not nest deeper. -/
theorem ofTree_toJson (value : Ast) : (Node.ofTree (value.toJson numberOf)).NoDuplicates ∧
    (Node.ofTree (value.toJson numberOf)).nesting ≤ value.nesting := by
  induction value using Ast.induct with
  | null => exact ⟨trivial, Nat.le_refl 0⟩
  | boolean value => exact ⟨trivial, Nat.le_refl 0⟩
  | number token =>
      rw [toJson]
      cases numberOf token with
      | integer _ => exact ⟨trivial, Nat.le_refl 0⟩
      | double _ => exact ⟨trivial, Nat.le_refl 0⟩
  | string value => exact ⟨trivial, Nat.le_refl 0⟩
  | array elements ih =>
      rw [toJson_array, Node.ofTree_array, Node.noDuplicates_array, List.map_map, List.forall_mem_map]
      refine ⟨fun value hmem => (ih value hmem).1, Nat.succ_le_succ ?_⟩
      rw [Node.nestingElements_le, List.forall_mem_map]
      intro value hmem
      exact (ih value hmem).2.trans (nestingElements_le.mp (Nat.le_refl _) value hmem)
  | object members ih =>
      have hentry : ∀ entry ∈ lastWins (members.map fun member => (member.1, member.2.toJson numberOf)),
          (Node.ofTree entry.2).NoDuplicates ∧ (Node.ofTree entry.2).nesting ≤ nestingMembers members := by
        intro entry hmem
        obtain ⟨member, hmember, rfl⟩ := List.mem_map.mp (mem_lastWins hmem)
        refine ⟨(ih member hmember).1, (ih member hmember).2.trans ?_⟩
        rw [nestingMembers_eq]
        exact nestingElements_le.mp (Nat.le_refl _) member.2 (List.mem_map_of_mem hmember)
      rw [toJson_object, Node.ofTree_object]
      constructor
      · refine Node.noDuplicates_object.mpr ⟨?_, List.forall_mem_map.mpr fun entry hmem => (hentry entry hmem).1⟩
        rw [Object.keys, Members.mapValues, List.map_map]
        exact nodup_lastWins _
      · refine Nat.succ_le_succ (Node.nestingEntries_le.mpr ?_)
        exact List.forall_mem_map.mpr fun entry hmem => (hentry entry hmem).2

end Ast

/-- `doc.root()`. How its strings are stored, and which indexes are cached, does not matter to the writer. -/
def Document.node (document : Document) : Node := Node.ofTree document.tree

theorem Document.node_spec {platform : Platform} {cfg : Config} {json : Bytes} {document : Document}
    (h : parseCopy platform cfg json = .ok document) :
    document.node.NoDuplicates ∧ (cfg.maxDepth = 0 ∨ document.node.nesting ≤ cfg.maxDepth) := by
  obtain ⟨-, value, r, hread, htree⟩ := parses_iff.mp ⟨document, h, rfl⟩
  have hnests := Reading.nests_readText hread
  rw [Reading.Nests, Reading.DepthFits, Nat.zero_add] at hnests
  obtain ⟨hnodup, hnesting⟩ := Ast.ofTree_toJson (tokenNumber platform cfg) value
  rw [Document.node, ← htree]
  exact ⟨hnodup, hnests.imp id hnesting.trans⟩

theorem Node.tree_ofTree (tree : Json Bytes) : (ofTree tree).tree = tree := by
  induction tree using Json.induct with
  | array elements ih =>
      rw [ofTree_array, tree_array, List.map_map]
      apply congrArg
      calc elements.map (Node.tree ∘ ofTree) = elements.map id := List.map_congr_left ih
        _ = elements := List.map_id elements
  | object entries ih =>
      rw [ofTree_object, tree_object, Members.mapValues, Members.mapValues, List.map_map]
      apply congrArg
      calc entries.map ((fun entry => (entry.1, entry.2.tree)) ∘ fun entry => (entry.1, ofTree entry.2))
          = entries.map id := List.map_congr_left fun entry hmem => Prod.ext rfl (ih entry hmem)
        _ = entries := List.map_id entries
  | _ => rfl

/-! ### Writing what was written -/

namespace Writer

section Again

variable {platform : Platform} {opts : DumpOptions} {maxDepth : Nat}

/-- Entries that are in order stay as they are. -/
theorem orderEntries_idempotent {ν : Type} {entries : List (Bytes × ν)} (h : (entries.map (·.1)).Nodup) :
    orderEntries opts (orderEntries opts entries) = orderEntries opts entries := by
  have hperm := @perm_orderEntries opts ν entries
  unfold orderEntries at hperm ⊢
  split
  · rename_i hsort
    rw [if_pos hsort] at hperm
    exact Node.sortByKey_perm ((hperm.map (·.1)).nodup_iff.mpr h) hperm
  · rfl

/-- A tree in the order it was written in is written in the same way. -/
theorem writeValue_written {value : Node} (hvalue : value.NoDuplicates) (depth : Nat) :
    writeValue platform opts maxDepth depth (Node.ofTree (value.written opts)) =
      writeValue platform opts maxDepth depth value := by
  induction value using Node.induct generalizing depth with
  | array arr ih =>
      rw [Node.written_array, Node.ofTree_array, writeValue_array, writeValue_array, List.map_map, List.map_map]
      apply congrArg
      apply congrArg
      apply List.map_congr_left
      intro el hmem
      exact ih el hmem (Node.noDuplicates_array.mp hvalue el hmem) (depth + 1)
  | object self ih =>
      obtain ⟨hkeys, hvalues⟩ := Node.noDuplicates_object.mp hvalue
      have hentries : orderEntries opts (Members.mapValues Node.ofTree ((orderEntries opts self.data).map fun entry =>
          (entry.1, entry.2.written opts))) = (orderEntries opts self.data).map fun entry =>
            (entry.1, Node.ofTree (entry.2.written opts)) := by
        rw [Members.mapValues, List.map_map]
        have hmap := @orderEntries_map opts _ _ (fun value : Node => Node.ofTree (value.written opts))
          (orderEntries opts self.data)
        rw [orderEntries_idempotent hkeys] at hmap
        exact hmap
      rw [Node.written_object, Node.ofTree_object, writeValue_object, writeValue_object, hentries, List.map_map]
      apply congrArg
      apply congrArg
      apply List.map_congr_left
      intro entry hmem
      have hself := mem_orderEntries.mp hmem
      rw [Function.comp_apply, ih entry hself (hvalues entry hself) (depth + 1)]
  | _ => rfl

theorem dump_written {value : Node} (hvalue : value.NoDuplicates) :
    dump platform opts maxDepth (Node.ofTree (value.written opts)) = dump platform opts maxDepth value := by
  rw [dump, dump, dumpValueTo, dumpValueTo, writeValue_written hvalue]

end Again

/-- `prettify`: `max_depth` bounds the parse and the dump. -/
def prettify (platform : Platform) (cfg : Config) (opts : DumpOptions) (json : Bytes) : Res Error Bytes :=
  match parseCopy platform cfg json with
  | .ok document => dump platform opts cfg.maxDepth document.node
  | .error error => .error error
  | .stuck => .stuck

theorem prettify_of_parseCopy {platform : Platform} {cfg : Config} {opts : DumpOptions} {json : Bytes}
    {document : Document} (h : parseCopy platform cfg json = .ok document) :
    prettify platform cfg opts json = dump platform opts cfg.maxDepth document.node := by
  rw [prettify, h]

/-- `prettify` on a text that is parsed under the flags of any configuration: when it succeeds, and that the text it
returns is plain JSON for the same tree. With the extensions off it leaves that text as it is; under the flags it was
given it may refuse it, as with `json5` and `strict_utf8` for the text of one string, spelled `\xFF`. -/
theorem prettify_preserves {platform : Platform} (hnumbers : NumbersReturn platform) (cfg : Config)
    (opts : DumpOptions) {json : Bytes} {document : Document} (hparse : parseCopy platform cfg json = .ok document) :
    ((∃ text, prettify platform cfg opts json = .ok text) ↔
      IndentFits opts ∧ document.node.Representable opts.ascii) ∧
    ∀ text, prettify platform cfg opts json = .ok text → paddedFits text.length = true →
      (∃ ast, Rfc.Text text ast) ∧
      (∃ again, parseCopy platform { maxDepth := cfg.maxDepth } text = .ok again ∧
        again.tree = document.node.written opts ∧ (opts.sortKeys = false → again.tree = document.tree)) ∧
      prettify platform { maxDepth := cfg.maxDepth } opts text = .ok text := by
  obtain ⟨hnodup, hnesting⟩ := Document.node_spec hparse
  rw [prettify_of_parseCopy hparse]
  constructor
  · rw [dump_succeeds_iff hnumbers.written, and_iff_right hnesting]
  · intro text hdump hfits
    obtain ⟨again, hagain, htree⟩ := parseCopy_of_dump hnumbers hnodup hdump hfits hnesting
    have htext : ∃ ast, Rfc.Text text ast := by
      obtain ⟨-, value, r, hread, -⟩ := parses_iff.mp ⟨again, hagain, rfl⟩
      exact ⟨value, ((Reading.readText_iff (plain_default cfg.maxDepth)).mp ⟨r, hread⟩).1⟩
    refine ⟨htext, ⟨again, hagain, htree, fun hsort => ?_⟩, ?_⟩
    · rw [htree, Node.written_unsorted hsort, Document.node, Node.tree_ofTree]
    · have hnode : again.node = Node.ofTree (document.node.written opts) := by rw [Document.node, htree]
      rw [prettify_of_parseCopy hagain]
      calc dump platform opts cfg.maxDepth again.node
          = dump platform opts cfg.maxDepth document.node := by rw [hnode, dump_written hnodup]
        _ = .ok text := hdump

/-- The JSON5 text `[true,]`. -/
theorem prettify_preserves_trailing : (∃ ast, Rfc.Text (asciiBytes "[\n  true\n]") ast) ∧
    prettify bitsPlatform {} { pretty := true } (asciiBytes "[\n  true\n]") = .ok (asciiBytes "[\n  true\n]") := by
  have hread : Reading.readText Reading.skipWhitespace bitsPlatform { json5 := true } 0
      { rest := asciiBytes "[true,]" } =
      .ok (.array [.boolean true], _) := rfl
  obtain ⟨document, hparse, htree⟩ := (parseCopy_eq_ok (by decide)).mpr ⟨_, _, hread, rfl⟩
  have hnode : document.node = .array [.boolean true] := congrArg Node.ofTree htree
  have hprettify : prettify bitsPlatform { json5 := true } { pretty := true } (asciiBytes "[true,]") =
      .ok (asciiBytes "[\n  true\n]") := by
    rw [prettify_of_parseCopy hparse, hnode]
    rfl
  obtain ⟨htext, -, hagain⟩ := (prettify_preserves bitsPlatform_returns _ _ hparse).2 _ hprettify (by decide)
  exact ⟨htext, hagain⟩

end Writer

end PjhJson
