import PosixRegex.Error
import PosixRegex.Expr.Basic

/-!
# Reading a pattern

A pattern is read from left to right in one pass. The state of the reader is what is left of the
pattern, the number of groups that are open, the number of the next group, and which groups are
closed; it outlives an error, so that reading can be taken up again where it stopped.

Groups nest at most `maxDepth` deep, and the recursion of the grammar follows the levels that are
left. Within a level a reader is repeated once for each item of a sequence (`many`), which can
happen at most once for each byte that is left.
-/

namespace PosixRegex

/-- The part that a byte plays outside bracket expressions. -/
inductive Role where
  | bar
  | open
  | close
  | star
  | plus
  | question
  | brace
  | bracket
  | backslash
  | dot
  | caret
  | dollar
  | ordinary
deriving DecidableEq, Repr

/-- The part that a given byte plays. -/
def Role.ofByte (b : UInt8) : Role :=
  match Char.ofUInt8 b with
  | '|' => bar
  | '(' => .open
  | ')' => close
  | '*' => star
  | '+' => plus
  | '?' => question
  | '\x7b' => brace
  | '[' => bracket
  | '\\' => backslash
  | '.' => dot
  | '^' => caret
  | '$' => dollar
  | _ => ordinary

/-- Whether a byte starts a repetition. -/
def Role.isQuantifier : Role → Bool
  | star | plus | question | brace => true
  | _ => false

/-- The bytes that a backslash makes ordinary. -/
def escapable : List UInt8 := ".[]()*+?\x7b\x7d|^$\\".toUTF8.toList

/-- The greatest count in an interval. -/
def maxCount : Nat := 255

/-- The greatest depth of nested groups. -/
def maxDepth : Nat := 250

/-- The state of a reader between two steps. -/
structure Parser where
  /-- The part of the pattern that is not read yet. -/
  rest : List UInt8
  /-- The number of groups that are open. -/
  depth : Nat := 0
  /-- The number that the next group gets. -/
  nextGroup : Nat := 1
  /-- For each number below `nextGroup`, whether that group is closed; number 0 never is. -/
  closed : Array Bool := #[false]
deriving Repr, Inhabited

namespace Parser

/-- A reader for one construct: it may fail, and leaves a state in either case. -/
abbrev Reader := EStateM Error Parser

/-- The next byte, which stays unread. -/
def peek? : Reader (Option UInt8) := fun s => .ok s.rest.head? s

/-- The next byte, which is read. -/
def advance? : Reader (Option UInt8) := fun s =>
  match s.rest with
  | [] => .ok none s
  | b :: rest => .ok (some b) { s with rest }

/-- Reads the next byte if it is the given one, and tells whether it was. -/
def accept (c : Char) : Reader Bool := fun s =>
  match s.rest with
  | [] => .ok false s
  | b :: rest => if b = c.toUInt8 then .ok true { s with rest } else .ok false s

/-- Reads the next byte if it is the given one, and fails otherwise. -/
def demand (c : Char) (error : Error) : Reader Unit := do
  unless ← accept c do throw error

/-- Repeats a reader as long as the next byte has a property, at most once for each byte of
`allowance`. A reader that always consumes a byte is never cut short by an allowance of all the
bytes that are left. -/
def many {α : Type} (continues : UInt8 → Bool) (item : Reader α) : List UInt8 → Reader (List α)
  | [] => return []
  | _ :: allowance => do
    match ← peek? with
    | none => return []
    | some b =>
      if continues b then
        let a ← item
        let others ← many continues item allowance
        return a :: others
      else
        return []

/-- Repeats a reader as long as the next byte has a property. -/
def manyWhile {α : Type} (continues : UInt8 → Bool) (item : Reader α) : Reader (List α) :=
  fun s => many continues item s.rest s

/-! ### Repetitions -/

/-- Reads the decimal digits at the front of a text: the count they give, `none` without a digit,
and the text after them. Reading fails after the digit with which the count passes `maxCount`. -/
def countPrefix (count : Option Nat) : List UInt8 → Except Error (Option Nat) × List UInt8
  | [] => (.ok count, [])
  | b :: rest =>
    if Byte.isDigit b then
      let next := count.getD 0 * 10 + (b - '0'.toUInt8).toNat
      if next > maxCount then (.error .repetition, rest) else countPrefix (some next) rest
    else
      (.ok count, b :: rest)

/-- Reads an optional count. -/
def count? : Reader (Option Nat) := fun s =>
  match countPrefix none s.rest with
  | (.ok count, rest) => .ok count { s with rest }
  | (.error e, rest) => .error e { s with rest }

/-- Reads the bounds of an interval after its opening brace: `m`, `m,`, `m,n`, `,n` or a lone comma,
and the closing brace. A missing lower bound is zero. -/
def interval : Reader (Nat × Option Nat) := do
  -- Any later brace will do here; what stands before it is looked at below.
  unless (← get).rest.contains '\x7d'.toUInt8 do throw .braceBalance
  let low ← count?
  let max ←
    if ← accept ',' then count?
    else match low with
      | some m => pure (some m)
      | none => throw .repetition
  demand '\x7d' .repetition
  let min := low.getD 0
  if max.any (· < min) then throw .repetition
  return (min, max)

/-- Reads the bounds of a repetition if one follows. -/
def quantifier? : Reader (Option (Nat × Option Nat)) := do
  match (← peek?).map Role.ofByte with
  | some .star => let _ ← advance?; return some (0, none)
  | some .plus => let _ ← advance?; return some (1, none)
  | some .question => let _ ← advance?; return some (0, some 1)
  | some .brace => let _ ← advance?; return some (← interval)
  | _ => return none

/-! ### Bracket expressions -/

/-- One element of a bracket expression. -/
inductive BracketElement where
  | byte (b : UInt8)
  | named (cls : CharClass)
deriving DecidableEq, Repr

/-- One element of a bracket expression, or two bytes as the ends of a range. -/
inductive BracketEntry where
  | byte (b : UInt8)
  | range (lo hi : UInt8)
  | named (cls : CharClass)
deriving DecidableEq, Repr

/-- The bytes of an entry. -/
def BracketEntry.toSet : BracketEntry → ByteSet
  | byte b => .single b
  | range lo hi => .range lo hi
  | named cls => cls.toSet

/-- The node of a bracket expression. A class that stands alone stays a class. -/
def BracketEntry.toExpr (negated : Bool) : List BracketEntry → Expr
  | [named cls] => .named cls negated
  | entries => .set (entries.foldl (fun s e => s.union e.toSet) ∅) negated

/-- Splits a text at the first place where a delimiter is followed by `]`: what stands before the
delimiter, and what comes after the bracket. -/
def splitAtClose (delimiter : UInt8) : List UInt8 → Option (List UInt8 × List UInt8)
  | a :: b :: rest =>
    if a = delimiter ∧ b = ']'.toUInt8 then some ([], rest)
    else (splitAtClose delimiter (b :: rest)).map fun (name, rest) => (a :: name, rest)
  | _ => none

/-- Reads the name in a delimited element, up to its delimiter and the bracket. -/
def delimited (delimiter : UInt8) : Reader (List UInt8) := fun s =>
  match splitAtClose delimiter s.rest with
  | some (name, rest) => .ok name { s with rest }
  | none => .error .bracketBalance s

/-- Reads an element of a bracket expression: a class, a collating symbol, an equivalence class, or
a byte. -/
def bracketElement : Reader BracketElement := do
  let some b ← advance? | throw .bracketBalance
  if b ≠ '['.toUInt8 then return .byte b
  if ← accept ':' then
    match CharClass.ofName? (← delimited ':'.toUInt8) with
    | some cls => return .named cls
    | none => throw .characterClass
  else if ← accept '.' then
    match collatingByte? (← delimited '.'.toUInt8) with
    | some b => return .byte b
    | none => throw .collation
  else if ← accept '=' then
    match ← delimited '='.toUInt8 with
    | [b] => return .byte b
    | _ => throw .collation
  else
    return .byte b

/-- Reads the hyphen of a range if one follows: a hyphen that is neither last in the pattern nor
last in the bracket expression. -/
def rangeHyphen : Reader Bool := fun s =>
  match s.rest with
  | a :: b :: rest =>
    if a = '-'.toUInt8 ∧ b ≠ ']'.toUInt8 then .ok true { s with rest := b :: rest } else .ok false s
  | _ => .ok false s

/-- Reads an entry of a bracket expression. -/
def bracketEntry : Reader BracketEntry := do
  let low ← bracketElement
  if ← rangeHyphen then
    -- The second end is read before the first is found wanting.
    match low, ← bracketElement with
    | .byte lo, .byte hi => if lo ≤ hi then return .range lo hi else throw .range
    | _, _ => throw .range
  else
    match low with
    | .byte b => return .byte b
    | .named cls => return .named cls

/-- Reads a bracket expression after its opening bracket. A closing bracket in first place is an
element. -/
def bracket : Reader Expr := do
  let negated ← accept '^'
  let first ← bracketEntry
  let others ← manyWhile (· ≠ ']'.toUInt8) bracketEntry
  demand ']' .bracketBalance
  return BracketEntry.toExpr negated (first :: others)

/-! ### Atoms, pieces and branches -/

/-- Reads the byte after a backslash: the number of a closed group, or a byte to be taken as it
is. -/
def escaped : Reader Expr := do
  let some b ← advance? | throw .escape
  if Byte.between '1' '9' b then
    let index := (b - '0'.toUInt8).toNat
    if (← get).closed.getD index false then return .backref index else throw .subexpression
  else if escapable.contains b then
    return .literal b
  else
    throw .escape

/-- Gives out the next group number and opens that group. -/
def openGroup : Reader Nat := fun s =>
  .ok s.nextGroup
    { s with depth := s.depth + 1, nextGroup := s.nextGroup + 1, closed := s.closed.push false }

/-- Closes the group with a given number. -/
def closeGroup (index : Nat) : Reader Unit := fun s =>
  .ok () { s with depth := s.depth - 1, closed := s.closed.setIfInBounds index true }

/-- Reads a group after its opening parenthesis, given a reader for its body. -/
def group (body : Reader Expr) : Reader Expr := do
  let index ← openGroup
  let t ← body
  demand ')' .parenthesesBalance
  closeGroup index
  return .group index t

/-- Reads an atom, given a reader for groups. -/
def atom (group : Reader Expr) : Reader Expr := do
  let some b ← advance? | return .empty
  match Role.ofByte b with
  | .open => group
  | .star | .plus | .question | .brace => throw .repetition
  | .bracket => bracket
  | .backslash => escaped
  | .dot => return .any
  | .caret => return .anchor .lineStart
  | .dollar => return .anchor .lineEnd
  | _ => return .literal b

/-- Reads an atom and the repetition that may follow it; two repetitions in a row are refused. -/
def piece (group : Reader Expr) : Reader Expr := do
  let t ← atom group
  match ← quantifier? with
  | none => return t
  | some (min, max) =>
    if ((← peek?).map Role.ofByte).any Role.isQuantifier then throw .repetition
    return .loop t min max

/-- Reads a branch: the pieces up to a bar, a closing parenthesis or the end. A closing parenthesis
is refused where no group is open. -/
def branch (group : Reader Expr) : Reader Expr := do
  let items ← manyWhile (fun b => Role.ofByte b ≠ .bar ∧ Role.ofByte b ≠ .close) (piece group)
  if (← get).depth = 0 ∧ (← peek?).map Role.ofByte = some .close then throw .parenthesesBalance
  return .ofItems items

/-- Reads branches with bars between them. -/
def branches (group : Reader Expr) : Reader Expr := do
  let first ← branch group
  let others ← manyWhile (Role.ofByte · = .bar) do
    let _ ← advance?
    branch group
  return .ofBranches (first :: others)

/-- Reads an expression inside which groups may nest as many levels deep as given. -/
def expression : Nat → Reader Expr
  | 0 => branches (throw .tooComplex)
  | levels + 1 => branches (group (expression levels))

/-- Reads what is left of the pattern as one expression. -/
def parse : Reader Expr := do
  let t ← expression (maxDepth - (← get).depth)
  unless (← peek?).isNone do throw .parenthesesBalance
  return t

/-- The reader of a pattern before its first step. -/
def ofPattern (pattern : List UInt8) : Parser := { rest := pattern }

end Parser

/-- The tree of a pattern, or the first error in it. -/
def Expr.parse (pattern : List UInt8) : Except Error Expr :=
  match Parser.parse (Parser.ofPattern pattern) with
  | .ok t _ => .ok t
  | .error e _ => .error e

end PosixRegex
