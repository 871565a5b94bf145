import PosixRegex.Automaton.Basic
import PosixRegex.Text.Quoted

/-!
# Automata as text

The written form of an automaton: a line with its start, its accepting state and its number of
groups, and a line for each state. A listing goes with the states that `reachable` leaves unmarked.
-/

namespace PosixRegex.Automaton

/-- The name of an anchor. -/
def anchorText : Anchor → String
  | .lineStart => "Start"
  | .lineEnd => "End"

/-- A number in at least six digits. -/
def sixDigits (n : Nat) : String :=
  let digits := toString n
  "".pushn '0' (6 - digits.length) ++ digits

/-- The written form of a state. -/
def State.text : State → String
  | byte b next => s!"{Text.quoted (Byte.escaped b)} => {next}"
  | set s next => s!"{s.text} => {next}"
  | branch targets => "union [" ++ ", ".intercalate (targets.map toString) ++ "]"
  | enterGroup group lastNested next => s!"start({group}..={lastNested}) => {next}"
  | leaveGroup group next => s!"end({group}) => {next}"
  | assertion anchor next => s!"{anchorText anchor} => {next}"
  | skip next => s!"empty => {next}"
  | accept => "MATCH"

/-- The line of a state with its number. -/
def stateLine (state : State) (id : Nat) : String := sixDigits id ++ ": " ++ state.text

/-- The lines of an automaton. -/
def lines (a : Automaton) : List String :=
  s!"Nfa(start: {a.start}, accept: {a.accept}, captures: {a.groupCount})" ::
    a.states.toList.mapIdx fun id state => stateLine state id

/-- The numbers that are listed beside the lines, of the states that `reachable` leaves unmarked. -/
def unreachable (a : Automaton) : List Nat :=
  let reached := a.reachable
  (List.range a.states.size).filter fun id => !reached.getD id false

end PosixRegex.Automaton
