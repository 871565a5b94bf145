import PosixRegex.Automaton.Assembly

/-!
# What a search runs

An expression without back-references is run as an automaton. An expression with back-references
describes no regular language and is run as it stands.
-/

namespace PosixRegex

/-- The form in which an expression is searched for. -/
inductive Engine where
  /-- An automaton, run in lockstep over the text. -/
  | automaton (a : Automaton)
  /-- An expression, run by listing all ways in which it matches. -/
  | enumeration (t : Expr)
deriving Repr, Inhabited

namespace Engine

/-- The number of groups. -/
def groupCount : Engine → Nat
  | automaton a => a.groupCount
  | enumeration t => t.groupCount

/-- The form in which an expression is searched for. An expression is refused when its automaton
comes to have too many states. -/
def ofExpr (o : Options) (t : Expr) : Except Error Engine :=
  if t.hasBackref then .ok (.enumeration t) else (Automaton.assemble o t).map .automaton

end Engine

end PosixRegex
