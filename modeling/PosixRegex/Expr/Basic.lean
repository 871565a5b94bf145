import PosixRegex.CharClass

/-!
# Syntax trees

The tree of a POSIX extended regular expression over bytes. A sequence and an alternation hold any
number of parts, a bracket expression keeps its negation apart from its set, and a capturing group
carries its number.
-/

namespace PosixRegex

/-- The two assertions about a position. -/
inductive Anchor where
  /-- The position is the start of a line. -/
  | lineStart
  /-- The position is the end of a line. -/
  | lineEnd
deriving DecidableEq, Repr, Inhabited

/-- An extended regular expression. -/
inductive Expr where
  /-- The empty string. -/
  | empty
  /-- One given byte. -/
  | literal (byte : UInt8)
  /-- Any one byte. -/
  | any
  /-- One byte of a set, or one outside it when `negated`. Case folding and the rule for line feeds
  apply to the stored set before and after the negation, so the set is kept as written. -/
  | set (bytes : ByteSet) (negated : Bool)
  /-- One byte of a named class, or one outside it when `negated`. -/
  | named (cls : CharClass) (negated : Bool)
  /-- Parts one after the other. -/
  | concat (items : List Expr)
  /-- One of several branches. -/
  | alternation (branches : List Expr)
  /-- A body taken at least `min` times, and at most `max` times unless `max` is `none`. -/
  | loop (body : Expr) (min : Nat) (max : Option Nat)
  /-- A body whose span is recorded under a number. Groups are numbered from 1 in the order of their
  opening parentheses. -/
  | group (index : Nat) (body : Expr)
  /-- The empty string at a position where the anchor holds. -/
  | anchor (kind : Anchor)
  /-- The bytes that a group has matched. -/
  | backref (index : Nat)
deriving Repr, Inhabited

namespace Expr

mutual

/-- Whether two trees are equal. Trees with the same constructor are compared part by part. -/
def decEq (t u : Expr) : Decidable (t = u) :=
  if h : t.ctorIdx = u.ctorIdx then
    match t, u, h with
    | empty, empty, _ => isTrue rfl
    | literal b, literal c, _ => decidable_of_iff (b = c) (by rw [literal.injEq])
    | any, any, _ => isTrue rfl
    | set s n, set s' n', _ => decidable_of_iff (s = s' ∧ n = n') (by rw [set.injEq])
    | named c n, named c' n', _ => decidable_of_iff (c = c' ∧ n = n') (by rw [named.injEq])
    | concat ts, concat us, _ =>
      have := decEqAll ts us
      decidable_of_iff (ts = us) (by rw [concat.injEq])
    | alternation ts, alternation us, _ =>
      have := decEqAll ts us
      decidable_of_iff (ts = us) (by rw [alternation.injEq])
    | loop t m n, loop u m' n', _ =>
      have := decEq t u
      decidable_of_iff (t = u ∧ m = m' ∧ n = n') (by rw [loop.injEq])
    | group i t, group j u, _ =>
      have := decEq t u
      decidable_of_iff (i = j ∧ t = u) (by rw [group.injEq])
    | anchor k, anchor k', _ => decidable_of_iff (k = k') (by rw [anchor.injEq])
    | backref i, backref j, _ => decidable_of_iff (i = j) (by rw [backref.injEq])
  else isFalse fun heq => h (congrArg _ heq)
termination_by structural t

/-- `decEq` for the items of a list. -/
def decEqAll : (ts us : List Expr) → Decidable (ts = us)
  | [], [] => isTrue rfl
  | [], _ :: _ => isFalse nofun
  | _ :: _, [] => isFalse nofun
  | t :: ts, u :: us =>
    have := decEq t u
    have := decEqAll ts us
    decidable_of_iff (t = u ∧ ts = us) (by rw [List.cons.injEq])
termination_by structural ts => ts

end

instance : DecidableEq Expr := decEq

mutual

/-- The number of groups in a tree. -/
def groupCount : Expr → Nat
  | group _ body => 1 + body.groupCount
  | concat items => groupCountAll items
  | alternation branches => groupCountAll branches
  | loop body _ _ => body.groupCount
  | _ => 0
termination_by structural t => t

/-- The number of groups in several trees. -/
def groupCountAll : List Expr → Nat
  | [] => 0
  | t :: ts => t.groupCount + groupCountAll ts
termination_by structural ts => ts

end

mutual

/-- Whether a back-reference occurs in a tree. -/
def hasBackref : Expr → Bool
  | backref _ => true
  | group _ body => body.hasBackref
  | loop body _ _ => body.hasBackref
  | concat items => hasBackrefAny items
  | alternation branches => hasBackrefAny branches
  | _ => false
termination_by structural t => t

/-- Whether a back-reference occurs in one of several trees. -/
def hasBackrefAny : List Expr → Bool
  | [] => false
  | t :: ts => t.hasBackref || hasBackrefAny ts
termination_by structural ts => ts

end

/-- Whether a tree matches exactly one byte by its form alone. -/
def isLeaf : Expr → Bool
  | literal _ | any | set _ _ | named _ _ => true
  | _ => false

/-- A sequence of parts: none is the empty string, and one stands for itself. -/
def ofItems : List Expr → Expr
  | [] => empty
  | [t] => t
  | ts => concat ts

/-- A choice between branches: one branch stands for itself. -/
def ofBranches : List Expr → Expr
  | [t] => t
  | ts => alternation ts

/-- The groups of several trees are those of the first part and those of the rest. -/
theorem groupCountAll_append (ts us : List Expr) :
    groupCountAll (ts ++ us) = groupCountAll ts + groupCountAll us := by
  induction ts with
  | nil => exact (Nat.zero_add _).symm
  | cons t ts ih => rw [List.cons_append, groupCountAll, groupCountAll, ih, Nat.add_assoc]

/-- A back-reference occurs in several trees when it occurs in one of them. -/
theorem hasBackrefAny_eq_any (ts : List Expr) : hasBackrefAny ts = ts.any hasBackref := by
  induction ts with
  | nil => rfl
  | cons t ts ih => rw [hasBackrefAny, ih, List.any_cons]

end Expr

end PosixRegex
