import PjhJson.Unicode
import PjhJson.Grammar

/-! JSON5 trivia: the whitespace and comments that `Parser::skip_json5_trivia` skips, on the bytes up
to `m_end`, which bound every loop of the scan. -/

namespace PjhJson

open Grammar

/-- One multi-byte whitespace character; a malformed sequence is not trivia. -/
def skipUnicodeWhitespace (p : Bytes) : Option Bytes :=
  match p with
  | [] => none
  | c :: _ =>
    if c < 0x80 then none
    else
      match Unicode.decodeUtf8 p with
      | some (cp, length) => if isJson5Whitespace cp then some (p.drop length) else none
      | none => none

/-- A line comment runs up to a line terminator, U+2028 and U+2029 included. -/
def skipLineComment : Bytes → Bytes
  | [] => []
  | c :: rest =>
    if c = 0x0A ∨ c = 0x0D then c :: rest
    else if c = 0xE2 ∧ (rest.take 2 = [0x80, 0xA8] ∨ rest.take 2 = [0x80, 0xA9]) then c :: rest
    else skipLineComment rest

/-- A block comment runs to the first `*/`; an unterminated one leaves the cursor at its end. -/
def skipBlockComment : Bytes → Except Bytes Bytes
  | a :: b :: rest =>
    if a = ascii '*' ∧ b = ascii '/' then .ok rest else skipBlockComment (b :: rest)
  | p => .error p

/-- The loop of `skip_json5_trivia`: the bytes left and whether a comment was unterminated. -/
def skipTriviaLoop : Nat → Bytes → Option (Bytes × Bool)
  | 0, _ => none
  | fuel + 1, p =>
    let p := p.dropWhile isJson5WhitespaceAscii
    match skipUnicodeWhitespace p with
    | some rest => skipTriviaLoop fuel rest
    | none =>
      if p.take 2 = asciiBytes "//" then skipTriviaLoop fuel (skipLineComment (p.drop 2))
      else if p.take 2 = asciiBytes "/*" then
        match skipBlockComment (p.drop 2) with
        | .ok rest => skipTriviaLoop fuel rest
        | .error rest => some (rest, true)
      else some (p, false)

/-- Every round but the last skips a byte, so the length of the text bounds the loop. -/
def skipTrivia (p : Bytes) : Option (Bytes × Bool) := skipTriviaLoop (p.length + 1) p

end PjhJson
