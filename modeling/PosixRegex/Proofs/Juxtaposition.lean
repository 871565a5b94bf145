import PosixRegex.Proofs.Raising
import PosixRegex.Proofs.WellFormed

/-!
# Patterns made of patterns

A pattern can be put behind another one, with a bar between the two or with nothing, or in
parentheses. What is read of each of them is the tree that it is read as by itself, except that the
groups of the second one have the numbers behind those of the first: no construct of the first
pattern looks into the text of the second. The second pattern must have no back-references, which
name the groups by their numbers and would not name its own any more.

- `Expr.branches`, `Expr.pieces`: what a tree contributes to an alternation and to a sequence.
- `Grammar.Branches.append`, `Grammar.Pieces.append`: texts one behind the other.
- `Expr.parse_juxtaposed`: trees of patterns that are made of two patterns, or of one.
-/

namespace PosixRegex

open Grammar

namespace Expr

/-- The branches of a tree: a tree that is no alternation is one branch. -/
def branches : Expr → List Expr
  | alternation ts => ts
  | t => [t]

/-- The pieces of a branch: the empty tree has none, and a tree that is no sequence is one piece. -/
def pieces : Expr → List Expr
  | empty => []
  | concat ts => ts
  | t => [t]

variable {t : Expr} {ts us : List Expr} {next levels : Nat} {closed : Set Nat}

/-! ### Views of a tree -/

theorem branches_of_isBranch (h : t.isBranch = true) : t.branches = [t] := by
  cases t with
  | alternation => exact absurd h Bool.false_ne_true
  | _ => rfl

theorem pieces_of_isPiece (h : t.isPiece = true) : t.pieces = [t] := by
  cases t with
  | empty | concat | alternation => exact absurd h Bool.false_ne_true
  | _ => rfl

theorem branches_ofBranches (h : ∀ t ∈ ts, t.isBranch = true) : (ofBranches ts).branches = ts := by
  match ts with
  | [] => rfl
  | [t] => exact branches_of_isBranch (h t List.mem_cons_self)
  | _ :: _ :: _ => rfl

theorem pieces_ofItems (h : ∀ t ∈ ts, t.isPiece = true) : (ofItems ts).pieces = ts := by
  match ts with
  | [] => rfl
  | [t] => exact pieces_of_isPiece (h t List.mem_cons_self)
  | _ :: _ :: _ => rfl

/-- Two branches or more are an alternation. -/
theorem ofBranches_append (hts : ts ≠ []) (hus : us ≠ []) :
    ofBranches (ts ++ us) = alternation (ts ++ us) := by
  match ts, us with
  | [_], _ :: _ => rfl
  | _ :: _ :: _, _ => rfl

/-- The branches of a tree fit where the tree does. -/
theorem fits_branches_iff :
    (concat t.branches).Fits next levels closed ↔ t.Fits next levels closed := by
  cases t with
  | alternation ts => exact Fits.alternation_iff.symm
  | _ => exact ⟨fun h => (Fits.cons_iff.1 h).1, fun h => Fits.cons_iff.2 ⟨h, .nil⟩⟩

/-- The pieces of a tree fit where the tree does. -/
theorem fits_pieces_iff :
    (concat t.pieces).Fits next levels closed ↔ t.Fits next levels closed := by
  cases t with
  | empty => exact ⟨fun _ => ⟨rfl, Nat.zero_le _, trivial⟩, fun _ => .nil⟩
  | concat ts => exact Iff.rfl
  | _ => exact ⟨fun h => (Fits.cons_iff.1 h).1, fun h => Fits.cons_iff.2 ⟨h, .nil⟩⟩

theorem groupCountAll_branches (t : Expr) : groupCountAll t.branches = t.groupCount := by
  cases t <;> simp [branches, groupCountAll, groupCount]

theorem groupCountAll_pieces (t : Expr) : groupCountAll t.pieces = t.groupCount := by
  cases t <;> simp [pieces, groupCountAll, groupCount]

theorem hasBackrefAny_branches (t : Expr) : hasBackrefAny t.branches = t.hasBackref := by
  cases t <;> simp [branches, hasBackrefAny, hasBackref]

theorem hasBackrefAny_pieces (t : Expr) : hasBackrefAny t.pieces = t.hasBackref := by
  cases t <;> simp [pieces, hasBackrefAny, hasBackref]

namespace Fits

/-- Trees without back-references fit behind others when their numbers are raised by the number of
groups of the others. -/
theorem append_raiseAll (hts : (concat ts).Fits 1 levels ∅) (hus : (concat us).Fits 1 levels ∅)
    (hback : hasBackrefAny us = false) :
    (concat (ts ++ raiseAll (groupCountAll ts) us)).Fits 1 levels ∅ :=
  append_iff.2 ⟨hts, hus.raise hback _ levels hus.nesting_le _⟩

end Fits

end Expr

/-! ### Texts -/

namespace Grammar

variable {p : List UInt8} {t : Expr}

theorem Branches.append {p q : List UInt8} {ts us : List Expr} :
    Branches p ts → Branches q us → Branches (p ++ '|'.toUInt8 :: q) (ts ++ us)
  | .last h, hus => .bar h hus
  | .bar h hs, hus => by
    rw [List.append_assoc]
    exact .bar h (hs.append hus)

theorem Pieces.append {p q : List UInt8} {ts us : List Expr} :
    Pieces p ts → Pieces q us → Pieces (p ++ q) (ts ++ us)
  | .nil, hus => hus
  | .cons h hs, hus => by
    rw [List.append_assoc]
    exact .cons h (hs.append hus)

/-- An expression is written as the branches of its tree. -/
theorem Expression.branches (h : Expression p t) : Branches p t.branches := by
  cases h with
  | ofBranches h =>
    rwa [Expr.branches_ofBranches fun t ht => (h.shaped.2 t ht).1]

/-- A branch is written as the pieces of its tree. -/
theorem Expression.pieces (h : Expression p t) (ht : t.isBranch = true) : Pieces p t.pieces := by
  have hbranches := h.branches
  rw [Expr.branches_of_isBranch ht] at hbranches
  -- There is one branch, and it is what its pieces stand for.
  generalize hts : [t] = ts at hbranches
  cases hbranches with
  | last hpieces =>
    obtain rfl := List.singleton_inj.1 hts
    rwa [Expr.pieces_ofItems fun t ht => (hpieces.shaped t ht).1]
  | bar _ hothers =>
    obtain ⟨-, rfl⟩ := List.cons.inj hts
    exact absurd rfl hothers.shaped.1

end Grammar

namespace Expr

variable {p q : List UInt8} {t u : Expr}

/-- A pattern behind another one and a bar. -/
theorem parse_bar (hp : parse p = .ok t) (hq : parse q = .ok u) (hback : u.hasBackref = false) :
    parse (p ++ '|'.toUInt8 :: q) =
      .ok (.alternation (t.branches ++ raiseAll t.groupCount u.branches)) := by
  obtain ⟨hexpr, hfits⟩ := parse_eq_ok_iff.1 hp
  obtain ⟨hexpr', hfits'⟩ := parse_eq_ok_iff.1 hq
  have hraised := hexpr'.branches.raise t.groupCount
  have hbehind := Fits.append_raiseAll (fits_branches_iff.2 hfits) (fits_branches_iff.2 hfits')
    ((hasBackrefAny_branches u).trans hback)
  rw [groupCountAll_branches] at hbehind
  -- Both sides of the bar have a branch, so no branch stands for the whole.
  rw [← ofBranches_append hexpr.branches.shaped.1 hraised.shaped.1, parse_eq_ok_iff]
  exact ⟨.ofBranches (hexpr.branches.append hraised), Fits.ofBranches_iff.2 hbehind⟩

/-- A pattern right behind another one, each of them without a bar outside parentheses. -/
theorem parse_append (hp : parse p = .ok t) (hq : parse q = .ok u) (hback : u.hasBackref = false)
    (ht : t.isBranch = true) (hu : u.isBranch = true) :
    parse (p ++ q) = .ok (.ofItems (t.pieces ++ raiseAll t.groupCount u.pieces)) := by
  obtain ⟨hexpr, hfits⟩ := parse_eq_ok_iff.1 hp
  obtain ⟨hexpr', hfits'⟩ := parse_eq_ok_iff.1 hq
  have hpieces := (hexpr.pieces ht).append ((hexpr'.pieces hu).raise t.groupCount)
  have hbehind := Fits.append_raiseAll (fits_pieces_iff.2 hfits) (fits_pieces_iff.2 hfits')
    ((hasBackrefAny_pieces u).trans hback)
  rw [groupCountAll_pieces] at hbehind
  rw [parse_eq_ok_iff]
  exact ⟨.ofBranches (.last hpieces), Fits.ofItems_iff.2 hbehind⟩

/-- What is read of the patterns `p` and `q` put together is made of what is read of each of them,
`t` and `u`. With a bar between them they are the `branches` of both. With nothing between them, and
no bar outside parentheses in either, they are the `pieces` of both. A pattern in parentheses is a
group around its tree. The groups of the tree that comes second are raised to the numbers behind
those of the first, and those in the parentheses to the numbers behind theirs. -/
theorem parse_juxtaposed (hp : parse p = .ok t) (hq : parse q = .ok u)
    (hback : u.hasBackref = false) :
    parse (p ++ '|'.toUInt8 :: q) =
        .ok (.alternation (t.branches ++ raiseAll t.groupCount u.branches)) ∧
      (t.isBranch = true → u.isBranch = true →
        parse (p ++ q) = .ok (.ofItems (t.pieces ++ raiseAll t.groupCount u.pieces))) ∧
      (u.nesting ≤ 249 →
        parse ('('.toUInt8 :: (q ++ [')'.toUInt8])) = .ok (.group 1 (u.raise 1))) :=
  ⟨parse_bar hp hq hback, parse_append hp hq hback, parse_parenthesized hq hback⟩

/-- The tree of `(b)*c` behind `(a)\1`, and inside parentheses. -/
theorem parse_juxtaposed_backref :
    let t : Expr := .concat [.group 1 (.literal 97), .backref 1]
    let u : Expr := .concat [.loop (.group 1 (.literal 98)) 0 none, .literal 99]
    let v : Expr := .concat [.loop (.group 2 (.literal 98)) 0 none, .literal 99]
    let p : List UInt8 := [40, 97, 41, 92, 49]
    let q : List UInt8 := [40, 98, 41, 42, 99]
    parse p = .ok t ∧ parse q = .ok u ∧ u.hasBackref = false ∧ t.isBranch = true ∧
      u.isBranch = true ∧ u.nesting ≤ 249 ∧ parse (p ++ 124 :: q) = .ok (.alternation [t, v]) ∧
      parse (p ++ q) = .ok (.concat [.group 1 (.literal 97), .backref 1,
        .loop (.group 2 (.literal 98)) 0 none, .literal 99]) ∧
      parse (40 :: (q ++ [41])) = .ok (.group 1 v) := by
  intro t u v p q
  have hp : parse p = .ok t := rfl
  have hq : parse q = .ok u := rfl
  have hnesting : u.nesting ≤ 249 := by decide
  obtain ⟨hbar, happend, hgroup⟩ := parse_juxtaposed hp hq rfl
  exact ⟨hp, hq, rfl, rfl, rfl, hnesting, hbar, happend rfl rfl, hgroup hnesting⟩

end Expr

end PosixRegex
