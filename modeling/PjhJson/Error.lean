import PjhJson.Grammar

/-! The kernel error vocabulary of `error.hpp`: one code for each failure site and the fixed-size
slot that a kernel records its first failure in. -/

namespace PjhJson

/-- The class of the exception a failure is materialised as; the parser and the writer use these. -/
inductive Category where
  | parse
  | json
  deriving DecidableEq, Repr

/-- The codes of the parser, of the UTF-8 gate and of the writer. -/
inductive ErrorCode where
  | none
  | extraCharactersAfterValue
  | maxDepthExceeded
  | expectedCommaOrBracket
  | invalidLiteral
  | invalidLiteralTrailing
  | numberNoIntDigits
  | numberLeadingZero
  | numberNoFracDigits
  | numberNoExpDigits
  | numberOutOfRange
  | numberInvalidFormat
  | expectedStringKey
  | expectedColon
  | unexpectedEndOfObject
  | expectedCommaOrBrace
  | expectedQuote
  | unterminatedString
  | unescapedControl
  | invalidHexDigit
  | invalidEscapeChar
  | invalidSurrogatePair
  | expectedLowSurrogate
  | loneLowSurrogate
  | unexpectedCharacter
  | unexpectedEndOfInput
  | unexpectedValueCharacter
  | utf8Overlong
  | utf8InvalidLead
  | utf8InvalidContinuation
  | utf8Surrogate
  | utf8ExceedsMax
  | utf8Truncated
  | inputTooLarge
  | parserRequiresPadding
  | duplicateKey
  | invalidCodepoint
  | nonFiniteDouble
  | formatDoubleFailed
  | formatIntFailed
  | dumpMaxDepthExceeded
  | invalidIndentChar
  deriving DecidableEq, Repr

/-- `Error`: the offset is meaningful only where `positioned` is set; `detail` is the borrowed text
of a context-free failure. -/
structure Error where
  code : ErrorCode
  category : Category := .parse
  position : Nat := 0
  positioned : Bool := false
  detail : Bytes := []
  deriving DecidableEq, Repr

/-- The code that `Parser::parse_number` and `number_error_code` report for a scanner failure. -/
def numberErrorCode : Grammar.NumberError → ErrorCode
  | .noIntDigits => .numberNoIntDigits
  | .leadingZero => .numberLeadingZero
  | .noFracDigits => .numberNoFracDigits
  | .noExpDigits => .numberNoExpDigits

end PjhJson
