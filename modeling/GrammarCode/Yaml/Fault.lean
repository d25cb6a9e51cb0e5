import GrammarCode.Text.Bytes

/-!
# Why a text is not a YAML document

A text can fail at four levels: its bytes are not characters, its characters are not tokens,
its tokens do not form a document, or an alias has no anchor. The message names the line where
the fault was noticed, unless that is the first line or the bytes themselves are at fault.
-/

namespace GrammarCode.Yaml

/-- A place among the characters of a text, all counted from zero. -/
structure Mark where
  index : Nat := 0
  line : Nat := 0
  column : Nat := 0
  deriving DecidableEq, Repr, Inhabited

/-- What is wrong with the bytes. -/
inductive ReadProblem where
  | leadingOctet
  | incompleteOctets
  | trailingOctet
  | sequenceLength
  | notUnicode
  | incompleteUnit
  | strayLowSurrogate
  | incompletePair
  | missingLowSurrogate
  | controlCharacter
  deriving DecidableEq, Repr

/-- The text of a problem with the bytes. -/
def ReadProblem.text : ReadProblem → String
  | .leadingOctet => "invalid leading UTF-8 octet"
  | .incompleteOctets => "incomplete UTF-8 octet sequence"
  | .trailingOctet => "invalid trailing UTF-8 octet"
  | .sequenceLength => "invalid length of a UTF-8 sequence"
  | .notUnicode => "invalid Unicode character"
  | .incompleteUnit => "incomplete UTF-16 character"
  | .strayLowSurrogate => "unexpected low surrogate area"
  | .incompletePair => "incomplete UTF-16 surrogate pair"
  | .missingLowSurrogate => "expected low surrogate area"
  | .controlCharacter => "control characters are not allowed"

/-- What is wrong with the characters. -/
inductive TokenProblem where
  | keyWithoutValue
  | tooDeep
  | misplacedEntry
  | misplacedKey
  | misplacedValue
  | strayCharacter
  | directiveName
  | directiveCharacter
  | unknownDirective
  | commentOrBreak
  | versionDot
  | versionLength
  | versionNumber
  | whitespace
  | whitespaceOrBreak
  | anchorName
  | tagBracket
  | tagMark
  | tagUri
  | uriEscape
  | uriLeadingOctet
  | uriTrailingOctet
  | zeroIndentation
  | tabIndentation
  | documentIndicator
  | endOfStream
  | unknownEscape
  | hexadecimal
  | escapeCode
  | tabInPlain
  deriving DecidableEq, Repr

/-- The deepest nesting of flow collections and of block collections. -/
def maxNesting : Nat := 10000

/-- The text of a problem with the characters. -/
def TokenProblem.text : TokenProblem → Bytes
  | .keyWithoutValue => "could not find expected ':'"
  | .tooDeep => Bytes.cat ["exceeded max depth of ", Bytes.decimalNat maxNesting]
  | .misplacedEntry => "block sequence entries are not allowed in this context"
  | .misplacedKey => "mapping keys are not allowed in this context"
  | .misplacedValue => "mapping values are not allowed in this context"
  | .strayCharacter => "found character that cannot start any token"
  | .directiveName => "could not find expected directive name"
  | .directiveCharacter => "found unexpected non-alphabetical character"
  | .unknownDirective => "found unknown directive name"
  | .commentOrBreak => "did not find expected comment or line break"
  | .versionDot => "did not find expected digit or '.' character"
  | .versionLength => "found extremely long version number"
  | .versionNumber => "did not find expected version number"
  | .whitespace => "did not find expected whitespace"
  | .whitespaceOrBreak => "did not find expected whitespace or line break"
  | .anchorName => "did not find expected alphabetic or numeric character"
  | .tagBracket => "did not find the expected '>'"
  | .tagMark => "did not find expected '!'"
  | .tagUri => "did not find expected tag URI"
  | .uriEscape => "did not find URI escaped octet"
  | .uriLeadingOctet => "found an incorrect leading UTF-8 octet"
  | .uriTrailingOctet => "found an incorrect trailing UTF-8 octet"
  | .zeroIndentation => "found an indentation indicator equal to 0"
  | .tabIndentation => "found a tab character where an indentation space is expected"
  | .documentIndicator => "found unexpected document indicator"
  | .endOfStream => "found unexpected end of stream"
  | .unknownEscape => "found unknown escape character"
  | .hexadecimal => "did not find expected hexdecimal number"
  | .escapeCode => "found invalid Unicode character escape code"
  | .tabInPlain => "found a tab character that violates indentation"

/-- What is wrong with the order of the tokens. -/
inductive OrderProblem where
  | streamStart
  | documentStart
  | repeatedVersion
  | unsupportedVersion
  | repeatedHandle
  | undefinedHandle
  | nodeContent
  | blockEntry
  | blockKey
  | flowSequenceEnd
  | flowMappingEnd
  deriving DecidableEq, Repr

/-- The text of a problem with the order of the tokens. -/
def OrderProblem.text : OrderProblem → String
  | .streamStart => "did not find expected <stream-start>"
  | .documentStart => "did not find expected <document start>"
  | .repeatedVersion => "found duplicate %YAML directive"
  | .unsupportedVersion => "found incompatible YAML document"
  | .repeatedHandle => "found duplicate %TAG directive"
  | .undefinedHandle => "found undefined tag handle"
  | .nodeContent => "did not find expected node content"
  | .blockEntry => "did not find expected '-' indicator"
  | .blockKey => "did not find expected key"
  | .flowSequenceEnd => "did not find expected ',' or ']'"
  | .flowMappingEnd => "did not find expected ',' or '\x7d'"

/-- Why a text is not a document: `context` is where the construct at fault starts, `place`
where the fault was noticed. -/
inductive Fault where
  | bytes (problem : ReadProblem)
  | token (problem : TokenProblem) (context place : Mark)
  | order (problem : OrderProblem) (context place : Mark)
  | unknownAnchor (name : Bytes)
  deriving DecidableEq, Repr

namespace Fault

/-- The first of two lines that is not the first line of the text. -/
def namedLine (context place : Mark) : Nat :=
  if context.line = 0 then place.line else context.line

/-- `line N: `, unless `line` is zero. -/
def linePart (line shown : Nat) : Bytes :=
  if line = 0 then [] else Bytes.cat ["line ", Bytes.decimalNat shown, ": "]

/-- The message of a fault. Lines are counted from one in faults of tokens and from zero in
faults of their order. -/
def message : Fault → Bytes
  | .bytes p => Bytes.cat ["yaml: ", p.text]
  | .token p context place =>
    let line := namedLine context place
    Bytes.cat ["yaml: ", linePart line (line + 1), p.text]
  | .order p context place =>
    let line := namedLine context place
    Bytes.cat ["yaml: ", linePart line line, p.text]
  | .unknownAnchor name => Bytes.cat ["yaml: unknown anchor '", name, "' referenced"]

end Fault

end GrammarCode.Yaml
