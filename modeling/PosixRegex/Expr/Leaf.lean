import PosixRegex.Options
import PosixRegex.Expr.Basic

/-!
# Single bytes

The set of bytes that a leaf of a tree matches. Case folding comes first, then negation, and last
the rule that under the newline option neither `.` nor a negated bracket expression matches a line
feed.
-/

namespace PosixRegex

namespace Options

/-- A set as the options read it: with both cases of its letters when case does not count. -/
def fold (o : Options) (s : ByteSet) : ByteSet := if o.caseInsensitive then s.foldCase else s

/-- A set without the line feed when line feeds separate lines. -/
def withinLine (o : Options) (s : ByteSet) : ByteSet :=
  if o.newline then s.erase '\n'.toUInt8 else s

/-- The bytes of a bracket expression with a given set. -/
def bracketSet (o : Options) (s : ByteSet) (negated : Bool) : ByteSet :=
  if negated then o.withinLine (o.fold s).compl else o.fold s

end Options

/-- The bytes that a leaf matches; `none` for a tree that is no leaf. -/
def Expr.byteSet? (o : Options) : Expr → Option ByteSet
  | literal b => some (o.fold (.single b))
  | any => some (o.withinLine .full)
  | set s negated => some (o.bracketSet s negated)
  | named cls negated => some (o.bracketSet cls.toSet negated)
  | _ => none

/-- Just the leaves have a set. -/
theorem Expr.isSome_byteSet? (o : Options) (t : Expr) : (t.byteSet? o).isSome = t.isLeaf := by
  cases t <;> rfl

end PosixRegex
