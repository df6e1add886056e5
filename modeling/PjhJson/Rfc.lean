import PjhJson.Ast
import PjhJson.Grammar

/-! The grammar of RFC 8259 as relations between byte strings and what they denote: tokens, string
contents with their unescaped UTF-8 bytes, and texts with their syntax trees. A string byte from 0x20
on stands for itself whether or not it is part of well-formed UTF-8. -/

namespace PjhJson.Rfc

/-- `ws`: spaces, tabs, line feeds and carriage returns. -/
def Whitespace (text : Bytes) : Prop := ∀ c ∈ text, c = 0x20 ∨ c = 0x09 ∨ c = 0x0A ∨ c = 0x0D

def Digit (c : UInt8) : Prop := 0x30 ≤ c ∧ c ≤ 0x39

def Digits (text : Bytes) : Prop := text ≠ [] ∧ ∀ c ∈ text, Digit c

/-! ### Numbers -/

/-- `int`: a single zero, or digits that do not start with one. -/
def Integer (text : Bytes) : Prop := Digits text ∧ (text.head? = some (ascii '0') → text.length = 1)

/-- `[ frac ]` -/
inductive Fraction : Bytes → Prop where
  | none : Fraction []
  | some (digits : Bytes) : Digits digits → Fraction (ascii '.' :: digits)

/-- `[ minus / plus ]` -/
def ExponentSign (text : Bytes) : Prop := text = [] ∨ text = [ascii '+'] ∨ text = [ascii '-']

/-- `[ exp ]` -/
inductive Exponent : Bytes → Prop where
  | none : Exponent []
  | some (e : UInt8) (sign digits : Bytes) : e = ascii 'e' ∨ e = ascii 'E' → ExponentSign sign →
      Digits digits → Exponent (e :: (sign ++ digits))

/-- `[ minus ] int [ frac ] [ exp ]`: the four parts of a number. -/
structure NumberParts where
  minus : Bytes
  integer : Bytes
  fraction : Bytes
  exponent : Bytes
  minus_or : minus = [] ∨ minus = [ascii '-']
  isInteger : Integer integer
  isFraction : Fraction fraction
  isExponent : Exponent exponent

def NumberParts.text (parts : NumberParts) : Bytes :=
  parts.minus ++ (parts.integer ++ (parts.fraction ++ parts.exponent))

def Number (text : Bytes) : Prop := ∃ parts : NumberParts, parts.text = text

/-! ### Strings -/

/-- `HEXDIG` and its value. -/
inductive HexDigit : UInt8 → Nat → Prop where
  | digit (c : UInt8) : 0x30 ≤ c → c ≤ 0x39 → HexDigit c (c.toNat - 0x30)
  | upper (c : UInt8) : 0x41 ≤ c → c ≤ 0x46 → HexDigit c (c.toNat - 0x41 + 10)
  | lower (c : UInt8) : 0x61 ≤ c → c ≤ 0x66 → HexDigit c (c.toNat - 0x61 + 10)

/-- `4HEXDIG` and its value. -/
inductive CodeUnit : Bytes → Nat → Prop where
  | mk (a b c d : UInt8) (va vb vc vd : Nat) : HexDigit a va → HexDigit b vb → HexDigit c vc →
      HexDigit d vd → CodeUnit [a, b, c, d] (((va * 16 + vb) * 16 + vc) * 16 + vd)

/-- The escapes of two characters. -/
inductive ShortEscape : UInt8 → UInt8 → Prop where
  | quote : ShortEscape (ascii '"') 0x22
  | backslash : ShortEscape (ascii '\\') 0x5C
  | slash : ShortEscape (ascii '/') 0x2F
  | backspace : ShortEscape (ascii 'b') 0x08
  | formFeed : ShortEscape (ascii 'f') 0x0C
  | lineFeed : ShortEscape (ascii 'n') 0x0A
  | carriageReturn : ShortEscape (ascii 'r') 0x0D
  | tab : ShortEscape (ascii 't') 0x09

/-- `char`, and the bytes it denotes. A code point outside the basic plane is escaped as a pair of
surrogates, and no surrogate is escaped alone: it is not a `Char`. -/
inductive Character : Bytes → Bytes → Prop where
  | unescaped (c : UInt8) : 0x20 ≤ c → c ≠ ascii '"' → c ≠ ascii '\\' → Character [c] [c]
  | short (c value : UInt8) : ShortEscape c value → Character [ascii '\\', c] [value]
  | unicode (digits : Bytes) (value : Char) : CodeUnit digits value.toNat →
      Character (ascii '\\' :: ascii 'u' :: digits) (String.utf8EncodeChar value)
  | pair (digits digits' : Bytes) (high low : Nat) (value : Char) : CodeUnit digits high →
      CodeUnit digits' low → 0xD800 ≤ high → high ≤ 0xDBFF → 0xDC00 ≤ low → low ≤ 0xDFFF →
      value.toNat = 0x10000 + (high - 0xD800) * 0x400 + (low - 0xDC00) →
      Character (ascii '\\' :: ascii 'u' :: (digits ++ ascii '\\' :: ascii 'u' :: digits'))
        (String.utf8EncodeChar value)

/-- `*char`: the content of a string and the bytes it denotes. -/
inductive Characters : Bytes → Bytes → Prop where
  | nil : Characters [] []
  | cons (spelling value rest values : Bytes) : Character spelling value → Characters rest values →
      Characters (spelling ++ rest) (value ++ values)

/-- `string` -/
inductive StringToken : Bytes → Bytes → Prop where
  | mk (content value : Bytes) : Characters content value →
      StringToken (ascii '"' :: (content ++ [ascii '"'])) value

/-! ### Values -/

mutual

/-- `value`, with the whitespace of its structural characters but none around it. -/
inductive Value : Bytes → Ast → Prop where
  | null : Value (asciiBytes "null") .null
  | boolTrue : Value (asciiBytes "true") (.boolean true)
  | boolFalse : Value (asciiBytes "false") (.boolean false)
  | number (token : Bytes) : Number token → Value token (.number token)
  | string (token value : Bytes) : StringToken token value → Value token (.string value)
  | emptyArray (ws : Bytes) : Whitespace ws → Value (ascii '[' :: (ws ++ [ascii ']'])) (.array [])
  | array (text : Bytes) (elements : List Ast) : Elements text elements →
      Value (ascii '[' :: (text ++ [ascii ']'])) (.array elements)
  | emptyObject (ws : Bytes) : Whitespace ws → Value (ascii '{' :: (ws ++ [ascii '}'])) (.object [])
  | object (text : Bytes) (members : List (Bytes × Ast)) : Members text members →
      Value (ascii '{' :: (text ++ [ascii '}'])) (.object members)

/-- `value *( value-separator value )` with the whitespace around each value. -/
inductive Elements : Bytes → List Ast → Prop where
  | one (before text after : Bytes) (value : Ast) : Whitespace before → Value text value →
      Whitespace after → Elements (before ++ (text ++ after)) [value]
  | more (before text after rest : Bytes) (value : Ast) (values : List Ast) : Whitespace before →
      Value text value → Whitespace after → Elements rest values →
      Elements (before ++ (text ++ (after ++ ascii ',' :: rest))) (value :: values)

/-- `member *( value-separator member )` with the whitespace around each key and value. -/
inductive Members : Bytes → List (Bytes × Ast) → Prop where
  | one (first token second before text after key : Bytes) (value : Ast) : Whitespace first →
      StringToken token key → Whitespace second → Whitespace before → Value text value →
      Whitespace after →
      Members (first ++ (token ++ (second ++ ascii ':' :: (before ++ (text ++ after)))))
        [(key, value)]
  | more (first token second before text after rest key : Bytes) (value : Ast)
      (members : List (Bytes × Ast)) : Whitespace first → StringToken token key →
      Whitespace second → Whitespace before → Value text value → Whitespace after →
      Members rest members →
      Members (first ++ (token ++ (second ++ ascii ':' :: (before ++ (text ++
        (after ++ ascii ',' :: rest)))))) ((key, value) :: members)

end

/-- `JSON-text = ws value ws` -/
inductive Text : Bytes → Ast → Prop where
  | mk (before text after : Bytes) (value : Ast) : Whitespace before → Value text value →
      Whitespace after → Text (before ++ (text ++ after)) value

end PjhJson.Rfc
