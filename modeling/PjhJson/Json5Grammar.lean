import PjhJson.Number
import PjhJson.Rfc
import PjhJson.Unicode
import PjhJson.Utf8

/-! The grammar of JSON5 in its two levels. The lexical level says how tokens are spelled and what may
stand between them; the syntactic level is over lists of tokens and knows no trivia. As in the RFC
grammar a text is a byte string and a byte of a string from 0x80 on stands for itself. `\xHH` denotes
the byte `HH`, as the decoder documents. -/

namespace PjhJson.Json5

/-! ### White space and comments -/

/-- The code points of `WhiteSpace` and `LineTerminator`. -/
def WhiteSpace (cp : Nat) : Prop :=
  cp ∈ [0x09, 0x0A, 0x0B, 0x0C, 0x0D, 0x20, 0xA0, 0x1680, 0x2028, 0x2029, 0x202F, 0x205F, 0x3000,
    0xFEFF] ∨ (0x2000 ≤ cp ∧ cp ≤ 0x200A)

/-- U+2028 or U+2029. -/
def Separator (text : Bytes) : Prop := text = [0xE2, 0x80, 0xA8] ∨ text = [0xE2, 0x80, 0xA9]

def LineTerminator (text : Bytes) : Prop := text = [0x0A] ∨ text = [0x0D] ∨ Separator text

/-- The content of a line comment. -/
def SingleLine (body : Bytes) : Prop := ∀ terminator, LineTerminator terminator → ¬terminator <:+: body

/-- A white space character or a comment. A line comment has the line terminator that ends it. -/
inductive Trivium : Bytes → Prop where
  | whiteSpace (c : Char) : WhiteSpace c.toNat → Trivium (String.utf8EncodeChar c)
  | lineComment (body terminator : Bytes) : SingleLine body → LineTerminator terminator →
      Trivium (ascii '/' :: ascii '/' :: (body ++ terminator))
  | blockComment (body : Bytes) : ¬[ascii '*', ascii '/'] <:+: body →
      Trivium (ascii '/' :: ascii '*' :: (body ++ [ascii '*', ascii '/']))

/-- What may stand in front of a token. -/
inductive Trivia : Bytes → Prop where
  | nil : Trivia []
  | cons (first rest : Bytes) : Trivium first → Trivia rest → Trivia (first ++ rest)

/-- What may stand behind the last token: the end of the text ends a line comment, too. -/
inductive LastTrivia : Bytes → Prop where
  | closed (ws : Bytes) : Trivia ws → LastTrivia ws
  | comment (ws body : Bytes) : Trivia ws → SingleLine body →
      LastTrivia (ws ++ ascii '/' :: ascii '/' :: body)

/-! ### Strings -/

/-- The characters that an escape of two characters replaces. -/
inductive SingleEscape : UInt8 → UInt8 → Prop where
  | rfc (c value : UInt8) : Rfc.ShortEscape c value → SingleEscape c value
  | quote : SingleEscape (ascii '\'') (ascii '\'')
  | verticalTab : SingleEscape (ascii 'v') 0x0B

/-- A code point as `\uXXXX`, or as a pair of surrogates. -/
inductive UnicodeEscape : Bytes → Char → Prop where
  | unit (digits : Bytes) (value : Char) : Rfc.CodeUnit digits value.toNat →
      UnicodeEscape (ascii '\\' :: ascii 'u' :: digits) value
  | pair (digits digits' : Bytes) (high low : Nat) (value : Char) : Rfc.CodeUnit digits high →
      Rfc.CodeUnit digits' low → 0xD800 ≤ high → high ≤ 0xDBFF → 0xDC00 ≤ low → low ≤ 0xDFFF →
      value.toNat = 0x10000 + (high - 0xD800) * 0x400 + (low - 0xDC00) →
      UnicodeEscape (ascii '\\' :: ascii 'u' :: (digits ++ ascii '\\' :: ascii 'u' :: digits')) value

/-- The escape that stands in front of `rest`, and the bytes it denotes. A line continuation denotes
none. -/
inductive Escape (rest : Bytes) : Bytes → Bytes → Prop where
  | lineFeed : Escape rest [ascii '\\', 0x0A] []
  | carriageReturn : rest.head? ≠ some 0x0A → Escape rest [ascii '\\', 0x0D] []
  | bothReturns : Escape rest [ascii '\\', 0x0D, 0x0A] []
  | separator (text : Bytes) : Separator text → Escape rest (ascii '\\' :: text) []
  | hexByte (hi lo : UInt8) (h l : Nat) : Rfc.HexDigit hi h → Rfc.HexDigit lo l →
      Escape rest [ascii '\\', ascii 'x', hi, lo] [(h * 16 + l).toUInt8]
  | nul : (∀ c, rest.head? = some c → ¬Rfc.Digit c) → Escape rest [ascii '\\', ascii '0'] [0]
  | unicode (spelling : Bytes) (value : Char) : UnicodeEscape spelling value →
      Escape rest spelling (String.utf8EncodeChar value)
  | single (c value : UInt8) : SingleEscape c value → Escape rest [ascii '\\', c] [value]
  | identity (c : UInt8) : (∀ value, ¬SingleEscape c value) → ¬Rfc.Digit c → c ≠ ascii 'x' →
      c ≠ ascii 'u' → c ≠ 0x0A → c ≠ 0x0D → (∀ text, Separator text → ¬text <+: c :: rest) →
      Escape rest [ascii '\\', c] [c]

/-- The content of a string in front of its closing quote, the bytes it denotes, and its bytes that
stand for themselves with a backslash for each escape. -/
inductive Characters (quote : UInt8) : Bytes → Bytes → Bytes → Prop where
  | nil : Characters quote [] [] []
  | plain (c : UInt8) (content value marks : Bytes) : c ≠ quote → c ≠ ascii '\\' → c ≠ 0x0A →
      c ≠ 0x0D → Characters quote content value marks →
      Characters quote (c :: content) (c :: value) (c :: marks)
  | escape (spelling written content value marks : Bytes) :
      Escape (content ++ [quote]) spelling written → Characters quote content value marks →
      Characters quote (spelling ++ content) (written ++ value) (ascii '\\' :: marks)

/-- The strict UTF-8 gate, when it is on, has no objection. -/
def Passes (cfg : Config) (marks : Bytes) : Prop :=
  cfg.strictUtf8 = true → (checkUtf8Strict marks).failed = false

/-- The content of a string token and the bytes it denotes. -/
def StringToken (cfg : Config) (quote : UInt8) (content value : Bytes) : Prop :=
  (quote = ascii '"' ∨ quote = ascii '\'') ∧
    ∃ marks, Characters quote content value marks ∧ Passes cfg marks

/-! ### Identifiers and numbers -/

/-- A character of an identifier, and its spelling. -/
inductive IdentifierUnit : Bytes → Char → Prop where
  | raw (c : Char) : IdentifierUnit (String.utf8EncodeChar c) c
  | escaped (spelling : Bytes) (c : Char) : UnicodeEscape spelling c → IdentifierUnit spelling c

/-- `IdentifierPart*` -/
inductive IdentifierParts : Bytes → List Char → Prop where
  | nil : IdentifierParts [] []
  | cons (spelling rest : Bytes) (c : Char) (chars : List Char) : IdentifierUnit spelling c →
      Unicode.isIdentifierContinue c.toNat = true → IdentifierParts rest chars →
      IdentifierParts (spelling ++ rest) (c :: chars)

/-- `IdentifierName`: one `IdentifierStart` and any number of `IdentifierPart`s. -/
inductive IdentifierName : Bytes → List Char → Prop where
  | mk (spelling rest : Bytes) (c : Char) (chars : List Char) : IdentifierUnit spelling c →
      Unicode.isIdentifierStart c.toNat = true → IdentifierParts rest chars →
      IdentifierName (spelling ++ rest) (c :: chars)

/-- The UTF-8 bytes of some characters. -/
def utf8Bytes (chars : List Char) : Bytes := chars.flatMap String.utf8EncodeChar

/-- A number that the scanner takes as a whole and that is in range. -/
def NumberToken (platform : Platform) (token : Bytes) : Prop :=
  ∃ number, parseNumberJson5 platform token = .ok (number, [])

/-! ### Tokens -/

/-- A `word` is a literal, and a `name` a key without quotes. -/
inductive Token where
  | punctuator (c : UInt8)
  | word (spelling : Bytes)
  | name (spelling : Bytes)
  | number (spelling : Bytes)
  | string (quote : UInt8) (content : Bytes)
  deriving DecidableEq, Repr

def Token.text : Token → Bytes
  | .punctuator c => [c]
  | .word spelling => spelling
  | .name spelling => spelling
  | .number spelling => spelling
  | .string quote content => quote :: (content ++ [quote])

/-- The text begins with these tokens, each behind trivia of its own, and goes on with `rest`. -/
inductive Lays : List Token → Bytes → Bytes → Prop where
  | nil (rest : Bytes) : Lays [] rest rest
  | cons (token : Token) (tokens : List Token) (ws text rest : Bytes) : Trivia ws →
      Lays tokens text rest → Lays (token :: tokens) (ws ++ (token.text ++ text)) rest

/-- The tokens of a whole text. -/
def Document (tokens : List Token) (text : Bytes) : Prop :=
  ∃ last, Lays tokens text last ∧ LastTrivia last

/-! ### Values -/

/-- The comma that may close the elements or members of a container. -/
def TrailingComma (tokens : List Token) : Prop := tokens = [] ∨ tokens = [.punctuator (ascii ',')]

/-- `JSON5MemberName` -/
inductive MemberName (cfg : Config) : Token → Bytes → Prop where
  | name (spelling : Bytes) (chars : List Char) : IdentifierName spelling chars →
      MemberName cfg (.name spelling) (utf8Bytes chars)
  | string (quote : UInt8) (content value : Bytes) : StringToken cfg quote content value →
      MemberName cfg (.string quote content) value

mutual

/-- `JSON5Value` -/
inductive Value (platform : Platform) (cfg : Config) : List Token → Ast → Prop where
  | null : Value platform cfg [.word (asciiBytes "null")] .null
  | boolTrue : Value platform cfg [.word (asciiBytes "true")] (.boolean true)
  | boolFalse : Value platform cfg [.word (asciiBytes "false")] (.boolean false)
  | number (token : Bytes) : NumberToken platform token →
      Value platform cfg [.number token] (.number token)
  | string (quote : UInt8) (content value : Bytes) : StringToken cfg quote content value →
      Value platform cfg [.string quote content] (.string value)
  | emptyArray : Value platform cfg [.punctuator (ascii '['), .punctuator (ascii ']')] (.array [])
  | array (tokens : List Token) (elements : List Ast) : Elements platform cfg tokens elements →
      Value platform cfg (.punctuator (ascii '[') :: (tokens ++ [.punctuator (ascii ']')]))
        (.array elements)
  | emptyObject : Value platform cfg [.punctuator (ascii '{'), .punctuator (ascii '}')] (.object [])
  | object (tokens : List Token) (members : List (Bytes × Ast)) :
      Members platform cfg tokens members →
      Value platform cfg (.punctuator (ascii '{') :: (tokens ++ [.punctuator (ascii '}')]))
        (.object members)

/-- `JSON5ElementList` with the comma that may follow it. -/
inductive Elements (platform : Platform) (cfg : Config) : List Token → List Ast → Prop where
  | last (tokens comma : List Token) (value : Ast) : Value platform cfg tokens value →
      TrailingComma comma → Elements platform cfg (tokens ++ comma) [value]
  | more (tokens rest : List Token) (value : Ast) (values : List Ast) :
      Value platform cfg tokens value → Elements platform cfg rest values →
      Elements platform cfg (tokens ++ .punctuator (ascii ',') :: rest) (value :: values)

/-- `JSON5MemberList` with the comma that may follow it. -/
inductive Members (platform : Platform) (cfg : Config) :
    List Token → List (Bytes × Ast) → Prop where
  | last (name : Token) (tokens comma : List Token) (key : Bytes) (value : Ast) :
      MemberName cfg name key → Value platform cfg tokens value → TrailingComma comma →
      Members platform cfg (name :: .punctuator (ascii ':') :: (tokens ++ comma)) [(key, value)]
  | more (name : Token) (tokens rest : List Token) (key : Bytes) (value : Ast)
      (members : List (Bytes × Ast)) : MemberName cfg name key → Value platform cfg tokens value →
      Members platform cfg rest members →
      Members platform cfg
        (name :: .punctuator (ascii ':') :: (tokens ++ .punctuator (ascii ',') :: rest))
        ((key, value) :: members)

end

end PjhJson.Json5
