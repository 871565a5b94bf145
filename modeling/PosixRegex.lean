import PosixRegex.Automaton.Assembly
import PosixRegex.Automaton.Basic
import PosixRegex.Automaton.Exploration
import PosixRegex.Automaton.OfExpr
import PosixRegex.Automaton.Search
import PosixRegex.Automaton.Text
import PosixRegex.Automaton.ThreadSet
import PosixRegex.Byte
import PosixRegex.ByteSet
import PosixRegex.CharClass
import PosixRegex.Engine
import PosixRegex.Error
import PosixRegex.Expr.Basic
import PosixRegex.Expr.Candidates
import PosixRegex.Expr.Leaf
import PosixRegex.Expr.Parser
import PosixRegex.Grep.Lines
import PosixRegex.Grep.Report
import PosixRegex.Grep.Run
import PosixRegex.Grep.Selection
import PosixRegex.Main
import PosixRegex.Match
import PosixRegex.Options
import PosixRegex.Proofs.Admission
import PosixRegex.Proofs.Agreement
import PosixRegex.Proofs.Allowance
import PosixRegex.Proofs.Assembly
import PosixRegex.Proofs.Brackets
import PosixRegex.Proofs.ByteRuns
import PosixRegex.Proofs.Calls
import PosixRegex.Proofs.CaseFolding
import PosixRegex.Proofs.Closure
import PosixRegex.Proofs.Compilation
import PosixRegex.Proofs.Derivation
import PosixRegex.Proofs.Enclosing
import PosixRegex.Proofs.Enumeration
import PosixRegex.Proofs.Finality
import PosixRegex.Proofs.Grammar
import PosixRegex.Proofs.Juxtaposition
import PosixRegex.Proofs.Layout
import PosixRegex.Proofs.Lexemes
import PosixRegex.Proofs.LineByLine
import PosixRegex.Proofs.Lines
import PosixRegex.Proofs.Lockstep
import PosixRegex.Proofs.Mandatory
import PosixRegex.Proofs.Offset
import PosixRegex.Proofs.Orderly
import PosixRegex.Proofs.Origin
import PosixRegex.Proofs.Parallel
import PosixRegex.Proofs.Parentheses
import PosixRegex.Proofs.Quiescence
import PosixRegex.Proofs.Raising
import PosixRegex.Proofs.Ranking
import PosixRegex.Proofs.Reading
import PosixRegex.Proofs.Recognition
import PosixRegex.Proofs.Rendering
import PosixRegex.Proofs.Resumption
import PosixRegex.Proofs.Rivals
import PosixRegex.Proofs.Rounds
import PosixRegex.Proofs.Run
import PosixRegex.Proofs.Scope
import PosixRegex.Proofs.Sealing
import PosixRegex.Proofs.Selection
import PosixRegex.Proofs.Session
import PosixRegex.Proofs.Shift
import PosixRegex.Proofs.Slots
import PosixRegex.Proofs.Succession
import PosixRegex.Proofs.Termination
import PosixRegex.Proofs.ThreadSets
import PosixRegex.Proofs.Traces
import PosixRegex.Proofs.Transfer
import PosixRegex.Proofs.Unwinding
import PosixRegex.Proofs.View
import PosixRegex.Proofs.WellFormed
import PosixRegex.Proofs.Window
import PosixRegex.Proofs.WindowSearch
import PosixRegex.Proofs.Wiring
import PosixRegex.Proofs.Worklist
import PosixRegex.Regex.Basic
import PosixRegex.Regex.Scan
import PosixRegex.Slots
import PosixRegex.Subject
import PosixRegex.Text.Quoted
import PosixRegex.Text.Shown
import PosixRegex.Text.Utf8
