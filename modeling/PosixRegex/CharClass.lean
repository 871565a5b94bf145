import PosixRegex.ByteSet

/-!
# Character classes and collating symbols

The names that a bracket expression can use: the twelve character classes of `[:name:]`, and the
names of single characters of `[.name.]`. Both are ASCII only, so a class never holds a byte from
128 on.
-/

namespace PosixRegex

/-- The named character classes. -/
inductive CharClass where
  | alnum
  | alpha
  | blank
  | cntrl
  | digit
  | graph
  | lower
  | print
  | punct
  | space
  | upper
  | xdigit
deriving DecidableEq, Repr, Inhabited

namespace CharClass

/-- The classes in the order of their names. -/
def all : List CharClass :=
  [alnum, alpha, blank, cntrl, digit, graph, lower, print, punct, space, upper, xdigit]

/-- The name of a class inside `[:` and `:]`. -/
def name : CharClass → String
  | alnum => "alnum"
  | alpha => "alpha"
  | blank => "blank"
  | cntrl => "cntrl"
  | digit => "digit"
  | graph => "graph"
  | lower => "lower"
  | print => "print"
  | punct => "punct"
  | space => "space"
  | upper => "upper"
  | xdigit => "xdigit"

/-- The class with a given name; capitals count. -/
def ofName? (name : List UInt8) : Option CharClass :=
  all.find? fun c => c.name.toUTF8.toList == name

/-- Whether a byte belongs to a class. -/
def contains : CharClass → UInt8 → Bool
  | alnum => Byte.isAlnum
  | alpha => Byte.isAlpha
  | blank => Byte.isBlank
  | cntrl => Byte.isCntrl
  | digit => Byte.isDigit
  | graph => Byte.isGraph
  | lower => Byte.isLower
  | print => Byte.isPrint
  | punct => Byte.isPunct
  | space => Byte.isSpace
  | upper => Byte.isUpper
  | xdigit => Byte.isXdigit

/-- The set of the bytes of a class. -/
def toSet : CharClass → ByteSet
  | alnum => .ofPredicate Byte.isAlnum
  | alpha => .ofPredicate Byte.isAlpha
  | blank => .ofPredicate Byte.isBlank
  | cntrl => .ofPredicate Byte.isCntrl
  | digit => .ofPredicate Byte.isDigit
  | graph => .ofPredicate Byte.isGraph
  | lower => .ofPredicate Byte.isLower
  | print => .ofPredicate Byte.isPrint
  | punct => .ofPredicate Byte.isPunct
  | space => .ofPredicate Byte.isSpace
  | upper => .ofPredicate Byte.isUpper
  | xdigit => .ofPredicate Byte.isXdigit

/-- The set of a class holds the bytes that belong to the class. -/
@[simp]
theorem contains_toSet (c : CharClass) (b : UInt8) : c.toSet.contains b = c.contains b := by
  cases c <;> simp [toSet, contains]

end CharClass

/-- The names of single characters that take more than one byte to write. -/
def collatingSymbols : List (String × Char) := [
  ("NUL", '\x00'), ("tab", '\t'), ("newline", '\n'), ("vertical-tab", '\x0b'),
  ("form-feed", '\x0c'), ("carriage-return", '\r'), ("space", ' '), ("exclamation-mark", '!'),
  ("quotation-mark", '"'), ("number-sign", '#'), ("dollar-sign", '$'), ("percent-sign", '%'),
  ("ampersand", '&'), ("apostrophe", '\''), ("left-parenthesis", '('), ("right-parenthesis", ')'),
  ("asterisk", '*'), ("plus-sign", '+'), ("comma", ','), ("hyphen", '-'), ("hyphen-minus", '-'),
  ("period", '.'), ("full-stop", '.'), ("slash", '/'), ("solidus", '/'), ("colon", ':'),
  ("semicolon", ';'), ("less-than-sign", '<'), ("equals-sign", '='), ("greater-than-sign", '>'),
  ("question-mark", '?'), ("commercial-at", '@'), ("left-square-bracket", '['),
  ("backslash", '\\'), ("reverse-solidus", '\\'), ("right-square-bracket", ']'),
  ("circumflex", '^'), ("circumflex-accent", '^'), ("underscore", '_'), ("low-line", '_'),
  ("grave-accent", '\x60'), ("left-brace", '\x7b'), ("left-curly-bracket", '\x7b'),
  ("vertical-line", '|'), ("right-brace", '\x7d'), ("right-curly-bracket", '\x7d'), ("tilde", '~')]

/-- The byte that the name in a collating symbol stands for. A single byte stands for itself, and a
longer name is looked up among the names of the portable character set. -/
def collatingByte? : List UInt8 → Option UInt8
  | [b] => some b
  | name => (collatingSymbols.find? fun entry => entry.1.toUTF8.toList == name).map (·.2.toUInt8)

end PosixRegex
