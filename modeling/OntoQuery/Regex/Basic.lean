/-!
# The shape of regular expressions

Filters may hold regular expressions, which are accepted or refused by their syntax alone. Of an
accepted one only its nesting is kept: what a leaf matches plays no part.

`Regex.depth` counts the nested constructs on the longest way down. `Regex.Refusal` lists the
reasons to refuse an expression.
-/

namespace OntoQuery

/-- The items of a bracketed character class. -/
inductive CharSet where
  /-- Nothing, a character, a range or a named class. -/
  | leaf
  | union (items : List CharSet)
  | bracketed (inner : CharSet)
  /-- An intersection or a difference. -/
  | binary (left right : CharSet)
  deriving Repr

namespace CharSet

/-- The items taken together; a single item stands for itself. -/
def ofItems : List CharSet → CharSet
  | [] => leaf
  | [item] => item
  | items => union items

mutual

def depth : CharSet → Nat
  | leaf => 0
  | union items => maxDepth items + 1
  | bracketed inner => inner.depth + 1
  | binary left right => max left.depth right.depth + 1

def maxDepth : List CharSet → Nat
  | [] => 0
  | s :: ss => max s.depth (maxDepth ss)

end

end CharSet

/-- The nesting of a regular expression. -/
inductive Regex where
  /-- A character, an assertion or a class escape, or nothing. -/
  | leaf
  /-- A change of flags, such as `(?i)`. -/
  | flags
  | bracketed (set : CharSet)
  | repeated (inner : Regex)
  | group (inner : Regex)
  | either (branches : List Regex)
  | sequence (items : List Regex)
  deriving Repr

namespace Regex

/-- The items one after the other; a single item stands for itself. -/
def ofItems : List Regex → Regex
  | [] => leaf
  | [item] => item
  | items => sequence items

/-- Whether a repetition can apply to it. -/
def isRepeatable : Regex → Bool
  | flags => false
  | _ => true

mutual

/-- How many constructs are nested in one another. -/
def depth : Regex → Nat
  | leaf | flags => 0
  | bracketed set => set.depth + 1
  | repeated inner => inner.depth + 1
  | group inner => inner.depth + 1
  | either branches => maxDepth branches + 1
  | sequence items => maxDepth items + 1

def maxDepth : List Regex → Nat
  | [] => 0
  | r :: rs => max r.depth (maxDepth rs)

end

/-- An expression may be nested this deep. -/
def depthLimit : Nat := 250

/-- Why an expression is refused. -/
inductive Refusal where
  | empty
  | backreference
  | lookAround
  | repetitionMissing
  | repetitionUnclosed
  | repetitionDecimalEmpty
  | repetitionRange
  | decimalInvalid
  | groupUnclosed
  | groupUnopened
  | nameUnclosed
  | nameCharacter
  | nameEmpty
  | nameDuplicate
  | flagUnrecognized
  | flagNegationRepeated
  | flagDuplicate
  | flagEnd
  | flagNegationDangling
  | escapeEnd
  | escapeUnrecognized
  | hexDigit
  | hexEmpty
  | hexScalar
  | unicodeClass
  | boundaryEnd
  | boundaryUnclosed
  | boundaryUnrecognized
  | classUnclosed
  | classRangeLiteral
  | classRange
  | classEscape
  | depth
  deriving DecidableEq, Repr

namespace Refusal

/-- What is wrong with the syntax. -/
def syntaxText : Refusal → String
  | empty => "empty regular expression"
  | backreference => "backreferences are not supported"
  | lookAround => "lookahead and lookbehind are not supported"
  | repetitionMissing => "repetition operator missing expression"
  | repetitionUnclosed => "unclosed counted repetition"
  | repetitionDecimalEmpty => "repetition quantifier expects a valid decimal"
  | repetitionRange => "invalid repetition count range, the start must be <= the end"
  | decimalInvalid => "decimal literal invalid"
  | groupUnclosed => "unclosed group"
  | groupUnopened => "unopened group"
  | nameUnclosed => "unclosed capture group name"
  | nameCharacter => "invalid capture group character"
  | nameEmpty => "empty capture group name"
  | nameDuplicate => "duplicate capture group name"
  | flagUnrecognized => "unrecognized flag"
  | flagNegationRepeated => "flag negation operator repeated"
  | flagDuplicate => "duplicate flag"
  | flagEnd => "expected flag but got end of regex"
  | flagNegationDangling => "dangling flag negation operator"
  | escapeEnd => "incomplete escape sequence, reached end of pattern prematurely"
  | escapeUnrecognized => "unrecognized escape sequence"
  | hexDigit => "invalid hexadecimal digit"
  | hexEmpty => "hexadecimal literal empty"
  | hexScalar => "hexadecimal literal is not a Unicode scalar value"
  | unicodeClass => "invalid Unicode character class"
  | boundaryEnd =>
    "found either the beginning of a special word boundary or a bounded repetition on a \\b with "
      ++ "an opening brace, but no closing brace"
  | boundaryUnclosed =>
    "special word boundary assertion is either unclosed or contains an invalid character"
  | boundaryUnrecognized =>
    "unrecognized special word boundary assertion, valid choices are: start, end, start-half or "
      ++ "end-half"
  | classUnclosed => "unclosed character class"
  | classRangeLiteral => "invalid range boundary, must be a literal"
  | classRange => "invalid character class range, the start must be <= the end"
  | classEscape => "invalid escape sequence found in character class"
  | depth =>
    "exceed the maximum number of nested parentheses/brackets (" ++ toString depthLimit ++ ")"

/-- Whether the expression is well formed in itself and only asks for more than is supported. -/
def isUnsupported : Refusal → Bool
  | empty | backreference | lookAround => true
  | _ => false

def message (f : Refusal) : String :=
  if f.isUnsupported then f.syntaxText else "invalid regular expression: " ++ f.syntaxText

end Refusal

end Regex

end OntoQuery
