import PjhJson.PathSyntax

/-! The JSON Pointer prefix of `StreamReader::items`, decoded by `stream.cpp` into one buffer of key
bytes and a list of tokens. -/

namespace PjhJson

open Grammar

/-- The loop of `parse_decimal_index`: its guard knows the digit that it lets through. -/
def parseDecimalIndexLoop (value : Nat) : Bytes → Option Nat
  | [] => some value
  | c :: s =>
    if !isDigit c then none
    else if (kSizeMax - digitOf c) / 10 < value then none
    else parseDecimalIndexLoop ((value * 10 + digitOf c) % (kSizeMax + 1)) s

/-- `parse_decimal_index`. -/
def parseDecimalIndex (s : Bytes) : Option Nat := if s = [] then none else parseDecimalIndexLoop 0 s

/-- The `std::invalid_argument` that `parse_prefix` throws. -/
inductive PrefixError where
  | noSlash
  | invalidEscape
  deriving DecidableEq, Repr

/-- `what()`. -/
def PrefixError.what : PrefixError → String
  | noSlash =>
    "StreamReader::items: prefix must be empty or a JSON Pointer beginning with '/'"
  | invalidEscape => "StreamReader::items: invalid JSON Pointer escape"

inductive PrefixToken.Kind where
  | key
  | index
  | any
  deriving DecidableEq, Repr

/-- `PrefixToken`: a key is a range of the buffer. -/
structure PrefixToken where
  kind : PrefixToken.Kind := .key
  index : Nat := 0
  keyOffset : Nat := 0
  keyLen : Nat := 0
  deriving DecidableEq, Repr

/-- The members of `StreamItems` that `parse_prefix` fills: `m_prefix_raw` and `m_prefix`. -/
structure StreamItems where
  prefixRaw : Bytes := []
  tokens : List PrefixToken := []
  deriving DecidableEq, Repr

namespace StreamItems

/-- `token_key`. -/
def tokenKey (items : StreamItems) (token : PrefixToken) : Bytes :=
  (items.prefixRaw.drop token.keyOffset).take token.keyLen

/-- The loop over the bytes of one token, which appends what they decode to. -/
def decodeSegment (raw : Bytes) : Bytes → Except PrefixError Bytes
  | [] => .ok raw
  | c :: segment =>
    if c = ascii '~' then
      match segment with
      | [] => .error .invalidEscape
      | escaped :: segment =>
        if escaped = ascii '0' then decodeSegment (raw ++ [ascii '~']) segment
        else if escaped = ascii '1' then decodeSegment (raw ++ [ascii '/']) segment
        else .error .invalidEscape
    else decodeSegment (raw ++ [c]) segment

/-- What kind of token the bytes decoded from `keyOffset` on are. -/
def classify (keyOffset : Nat) (decoded : Bytes) : PrefixToken :=
  if decoded = asciiBytes "*" then { kind := .any }
  else
    match parseDecimalIndex decoded with
    | some index => { kind := .index, index }
    | none => { kind := .key, keyOffset, keyLen := decoded.length }

/-- One round of the loop over the tokens. -/
def parseToken (items : StreamItems) (segment : Bytes) : Except PrefixError StreamItems := do
  let keyOffset := items.prefixRaw.length
  let raw ← decodeSegment items.prefixRaw segment
  pure {
    prefixRaw := raw
    tokens := items.tokens ++ [classify keyOffset (raw.drop keyOffset)] }

/-- `parse_prefix`: a token ends at the next slash. -/
def parsePrefix (text : Bytes) : Except PrefixError StreamItems :=
  match text with
  | [] => .ok {}
  | c :: rest =>
    if c ≠ ascii '/' then .error .noSlash else (rest.splitOn (ascii '/')).foldlM parseToken {}

end StreamItems

end PjhJson
