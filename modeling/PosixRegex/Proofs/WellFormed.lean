import PosixRegex.Proofs.Recognition

/-!
# Well-formed trees

A well-formed tree is one that a pattern can stand for. Its groups have the numbers from 1 without
gap or repetition and do not nest too deep, each back-reference names a group that lies before it,
and each node of it has children and values that a pattern can give it (`Expr.Proper`). Every
pattern that is read as a tree is read as a well-formed one (`Expr.wellFormed_of_parse`).
-/

namespace PosixRegex

open Grammar

namespace Expr

variable {t u : Expr} {ts : List Expr}

/-- A tree that can be an item of a sequence: an atom, repeated or not. -/
def isPiece : Expr → Bool
  | empty | concat _ | alternation _ => false
  | _ => true

/-- A tree that can be a branch of an alternation. -/
def isBranch : Expr → Bool
  | alternation _ => false
  | _ => true

/-- A node whose children are of the right kind and number and whose values are in their ranges. -/
def Proper : Expr → Prop
  | set bytes _ => ∃ b, bytes.contains b = true
  | concat items => 2 ≤ items.length ∧ ∀ t ∈ items, t.isPiece = true
  | alternation branches => 2 ≤ branches.length ∧ ∀ t ∈ branches, t.isBranch = true
  | loop body min max => body.isAtom = true ∧ min ≤ 255 ∧ ∀ n ∈ max, min ≤ n ∧ n ≤ 255
  | backref index => 1 ≤ index ∧ index ≤ 9
  | _ => True

/-- A tree all of whose nodes are proper. -/
def Shaped (t : Expr) : Prop := ∀ u : Expr, u.IsPart t → u.Proper

/-- A tree that a pattern can stand for. -/
structure WellFormed (t : Expr) : Prop where
  /-- The numbers of the groups, in the order of their opening parentheses, start at 1 and leave out
  and repeat none. -/
  numbered : t.groupIndices = List.range' 1 t.groupCount
  /-- At most 250 groups are inside each other. -/
  nesting_le : t.nesting ≤ 250
  /-- All nodes are proper. -/
  shaped : t.Shaped
  /-- The group that a back-reference names lies as a whole before the reference. -/
  refersBack : t.RefersBack ∅

theorem wellFormed_iff : t.WellFormed ↔ t.Shaped ∧ t.Fits 1 250 ∅ :=
  ⟨fun h => ⟨h.shaped, h.numbered, h.nesting_le, h.refersBack⟩,
    fun h => ⟨h.2.numbered, h.2.nesting_le, h.1, h.2.refersBack⟩⟩

namespace Shaped

theorem proper (h : t.Shaped) : t.Proper := h t (.refl t)

theorem group_iff {index : Nat} : (group index t).Shaped ↔ t.Shaped := by
  refine ⟨fun h u hu => h u (.inside hu), fun h u hu => ?_⟩
  cases hu with
  | refl => exact trivial
  | inside hu => exact h u hu

theorem loop_iff {min : Nat} {max : Option Nat} :
    (loop t min max).Shaped ↔ (loop t min max).Proper ∧ t.Shaped := by
  refine ⟨fun h => ⟨h.proper, fun u hu => h u (.body hu)⟩, fun h u hu => ?_⟩
  cases hu with
  | refl => exact h.1
  | body hu => exact h.2 u hu

theorem concat_iff : (concat ts).Shaped ↔ (concat ts).Proper ∧ ∀ t ∈ ts, t.Shaped := by
  refine ⟨fun h => ⟨h.proper, fun t ht u hu => h u (.item ht hu)⟩, fun h u hu => ?_⟩
  cases hu with
  | refl => exact h.1
  | item ht hu => exact h.2 _ ht u hu

theorem alternation_iff :
    (alternation ts).Shaped ↔ (alternation ts).Proper ∧ ∀ t ∈ ts, t.Shaped := by
  refine ⟨fun h => ⟨h.proper, fun t ht u hu => h u (.branch ht hu)⟩, fun h u hu => ?_⟩
  cases hu with
  | refl => exact h.1
  | branch ht hu => exact h.2 _ ht u hu

/-- A tree without children is shaped when it is proper. -/
theorem of_isLeaf (h : t.isLeaf = true) (hproper : t.Proper) : t.Shaped := by
  intro u hu
  cases hu with
  | refl => exact hproper
  | _ => exact absurd h Bool.false_ne_true

theorem empty : empty.Shaped := by
  rintro u ⟨⟩
  exact trivial

theorem anchor (kind : Anchor) : (anchor kind).Shaped := by
  rintro u ⟨⟩
  exact trivial

theorem backref_iff {index : Nat} : (backref index).Shaped ↔ 1 ≤ index ∧ index ≤ 9 := by
  refine ⟨fun h => h.proper, ?_⟩
  rintro h u ⟨⟩
  exact h

end Shaped

theorem isPiece_of_isAtom (h : t.isAtom = true) : t.isPiece = true := by
  cases t with
  | empty | concat | alternation | loop => exact absurd h Bool.false_ne_true
  | _ => rfl

theorem isBranch_of_isPiece (h : t.isPiece = true) : t.isBranch = true := by
  cases t with
  | alternation => exact absurd h Bool.false_ne_true
  | _ => rfl

/-- Pieces in sequence are a branch. -/
theorem shaped_ofItems (h : ∀ t ∈ ts, t.isPiece = true ∧ t.Shaped) :
    (ofItems ts).isBranch = true ∧ (ofItems ts).Shaped := by
  match ts with
  | [] => exact ⟨rfl, .empty⟩
  | [t] =>
    obtain ⟨hpiece, hshaped⟩ := h t (List.mem_singleton_self t)
    exact ⟨isBranch_of_isPiece hpiece, hshaped⟩
  | t :: u :: ts =>
    refine ⟨rfl, Shaped.concat_iff.2 ⟨⟨?_, fun t ht => (h t ht).1⟩, fun t ht => (h t ht).2⟩⟩
    exact Nat.le_add_left 2 ts.length

/-- One branch or more are an expression. -/
theorem shaped_ofBranches (hne : ts ≠ []) (h : ∀ t ∈ ts, t.isBranch = true ∧ t.Shaped) :
    (ofBranches ts).Shaped := by
  match ts with
  | [] => exact absurd rfl hne
  | [t] => exact (h t (List.mem_singleton_self t)).2
  | t :: u :: ts =>
    refine Shaped.alternation_iff.2 ⟨⟨?_, fun t ht => (h t ht).1⟩, fun t ht => (h t ht).2⟩
    exact Nat.le_add_left 2 ts.length

/-! ### Parts of a tree that fits -/

/-- Each of several trees that fit one after the other fits behind those before it. -/
theorem Fits.of_mem {next levels : Nat} {closed : Set Nat}
    (h : (concat ts).Fits next levels closed) (ht : t ∈ ts) :
    ∃ next closed, t.Fits next levels closed := by
  induction ts generalizing next closed with
  | nil => cases ht
  | cons u ts ih =>
    obtain ⟨hu, hts⟩ := Fits.cons_iff.1 h
    rcases List.mem_cons.1 ht with rfl | ht
    · exact ⟨_, _, hu⟩
    · exact ih hts ht

/-- The parts of a tree that fits have the numbers that follow those of the groups before them. -/
theorem IsPart.fits (hu : u.IsPart t) {next levels : Nat} {closed : Set Nat}
    (h : t.Fits next levels closed) : ∃ next levels closed, u.Fits next levels closed := by
  induction hu generalizing next levels closed with
  | refl => exact ⟨next, levels, closed, h⟩
  | item ht _ ih =>
    obtain ⟨_, _, ht⟩ := h.of_mem ht
    exact ih ht
  | branch ht _ ih =>
    obtain ⟨_, _, ht⟩ := (Fits.alternation_iff.1 h).of_mem ht
    exact ih ht
  | body _ ih => exact ih (Fits.loop_iff.1 h)
  | inside _ ih =>
    -- A group uses up one level, so there is one for it.
    cases levels with
    | zero => exact absurd h Fits.not_group
    | succ levels => exact ih (Fits.group_iff.1 h).2

/-- The groups inside a group have the numbers that follow its own. -/
theorem WellFormed.groupIndices_inside (h : t.WellFormed) {index : Nat}
    (hgroup : (group index u).IsPart t) :
    u.groupIndices = List.range' (index + 1) u.groupCount := by
  obtain ⟨next, levels, closed, hfits⟩ := hgroup.fits (wellFormed_iff.1 h).2
  cases levels with
  | zero => exact absurd hfits Fits.not_group
  | succ levels =>
    obtain ⟨rfl, hinside⟩ := Fits.group_iff.1 hfits
    exact hinside.numbered

end Expr

/-! ### What the grammar derives -/

namespace Parser

theorem exists_contains_class (cls : CharClass) : ∃ b, cls.contains b = true := by
  have hall : ∃ b ∈ Byte.all, cls.contains b = true := by cases cls <;> decide +kernel
  obtain ⟨b, -, hb⟩ := hall
  exact ⟨b, hb⟩

/-- Each entry of a bracket expression has a byte: a range is refused unless its ends are in
order. -/
theorem exists_contains_of_bracketEntry {s s' : Parser} {entry : BracketEntry}
    (h : bracketEntry s = .ok entry s') : ∃ b, entry.toSet.contains b = true := by
  obtain ⟨low, s₁, -, h⟩ := bind_eq_ok_iff.1 h
  obtain ⟨hyphen, s₂, -, h⟩ := bind_eq_ok_iff.1 h
  split at h
  · obtain ⟨high, s₃, -, h⟩ := bind_eq_ok_iff.1 h
    split at h
    · rename_i lo hi _
      split at h
      · rename_i hle
        obtain ⟨rfl, -⟩ := pure_eq_ok_iff.1 h
        exact ⟨lo, by simpa [BracketEntry.toSet] using hle⟩
      · exact absurd h throw_ne_ok
    · exact absurd h throw_ne_ok
  · cases low with
    | byte b =>
      obtain ⟨rfl, -⟩ := pure_eq_ok_iff.1 h
      exact ⟨b, by simp [BracketEntry.toSet]⟩
    | named cls =>
      obtain ⟨rfl, -⟩ := pure_eq_ok_iff.1 h
      obtain ⟨b, hb⟩ := exists_contains_class cls
      exact ⟨b, by simpa [BracketEntry.toSet] using hb⟩

/-- The set of a bracket expression has the bytes of its entries. -/
theorem contains_foldl_union (entries : List BracketEntry) (s : ByteSet) (b : UInt8) :
    (entries.foldl (fun s e => s.union e.toSet) s).contains b =
      (s.contains b || entries.any (·.toSet.contains b)) := by
  induction entries generalizing s with
  | nil => simp
  | cons entry entries ih =>
    rw [List.foldl_cons, ih, ByteSet.contains_union, List.any_cons, Bool.or_assoc]

end Parser

namespace Grammar

variable {w : List UInt8} {t : Expr} {ts : List Expr} {min : Nat} {max : Option Nat}

/-- The set of a bracket expression has a byte: that of its first entry. -/
theorem Bracket.shaped (h : Bracket w t) : t.isAtom = true ∧ t.Shaped := by
  obtain ⟨negated, _, first, _, others, _, -, hfirst, -, -, -, rfl⟩ :=
    Parser.bracket_eq_ok_iff_entries.1 h
  obtain ⟨b, hb⟩ := Parser.exists_contains_of_bracketEntry hfirst
  have hleaf := Parser.isLeaf_toExpr negated (first :: others)
  refine ⟨Expr.isAtom_of_isLeaf hleaf, .of_isLeaf hleaf ?_⟩
  unfold Parser.BracketEntry.toExpr
  split
  · exact trivial
  · refine ⟨b, ?_⟩
    rw [Parser.contains_foldl_union, List.any_cons, hb, Bool.true_or, Bool.or_true]

theorem Bound.le {count : Option Nat} (h : Bound w count) : ∀ n ∈ count, n ≤ 255 := by
  cases h with
  | missing => exact nofun
  | given h =>
    rintro n ⟨⟩
    exact h.le

theorem Quantifier.bounds (h : Quantifier w min max) :
    min ≤ 255 ∧ ∀ n ∈ max, min ≤ n ∧ n ≤ 255 := by
  cases h with
  | star => exact ⟨Nat.zero_le _, nofun⟩
  | plus => exact ⟨by decide, nofun⟩
  | question =>
    refine ⟨Nat.zero_le _, ?_⟩
    rintro n ⟨⟩
    exact ⟨Nat.zero_le _, by decide⟩
  | interval h =>
    cases h with
    | exactly h =>
      refine ⟨h.le, ?_⟩
      rintro n ⟨⟩
      exact ⟨Nat.le_refl _, h.le⟩
    | @range u v low _ hlow hmax hle =>
      -- A lower bound that is missing is zero.
      refine ⟨?_, fun n hn => ⟨hle n hn, hmax.le n hn⟩⟩
      cases low with
      | none => exact Nat.zero_le _
      | some n => exact hlow.le n rfl

mutual

theorem Expression.shaped {w : List UInt8} {t : Expr} : Expression w t → t.Shaped
  | .ofBranches h => Expr.shaped_ofBranches h.shaped.1 h.shaped.2

theorem Branches.shaped {w : List UInt8} {ts : List Expr} :
    Branches w ts → ts ≠ [] ∧ ∀ t ∈ ts, t.isBranch = true ∧ t.Shaped
  | .last h => by
    refine ⟨nofun, fun t ht => ?_⟩
    obtain rfl := List.mem_singleton.1 ht
    exact Expr.shaped_ofItems h.shaped
  | .bar hitems h =>
    ⟨nofun, List.forall_mem_cons.2 ⟨Expr.shaped_ofItems hitems.shaped, h.shaped.2⟩⟩

theorem Pieces.shaped {w : List UInt8} {ts : List Expr} :
    Pieces w ts → ∀ t ∈ ts, t.isPiece = true ∧ t.Shaped
  | .nil => nofun
  | .cons ht hts => List.forall_mem_cons.2 ⟨ht.shaped, hts.shaped⟩

theorem Piece.shaped {w : List UInt8} {t : Expr} : Piece w t → t.isPiece = true ∧ t.Shaped
  | .once h => ⟨Expr.isPiece_of_isAtom h.shaped.1, h.shaped.2⟩
  | .repeated h hbounds =>
    ⟨rfl, Expr.Shaped.loop_iff.2 ⟨⟨h.shaped.1, hbounds.bounds⟩, h.shaped.2⟩⟩

theorem Atom.shaped {w : List UInt8} {t : Expr} : Atom w t → t.isAtom = true ∧ t.Shaped
  | .group _ h => ⟨rfl, Expr.Shaped.group_iff.2 h.shaped⟩
  | .bracket h => h.shaped
  | .escape (.literal _) => ⟨rfl, .of_isLeaf rfl trivial⟩
  | .escape (.backref h₁ h₉) => ⟨rfl, Expr.Shaped.backref_iff.2 ⟨h₁, h₉⟩⟩
  | .any => ⟨rfl, .of_isLeaf rfl trivial⟩
  | .lineStart => ⟨rfl, .anchor _⟩
  | .lineEnd => ⟨rfl, .anchor _⟩
  | .literal _ => ⟨rfl, .of_isLeaf rfl trivial⟩

end

end Grammar

/-- A pattern is read as a well-formed tree. -/
theorem Expr.wellFormed_of_parse {pattern : List UInt8} {t : Expr}
    (h : Expr.parse pattern = .ok t) : t.WellFormed := by
  obtain ⟨hexpression, hfits⟩ := Expr.parse_eq_ok_iff.1 h
  exact Expr.wellFormed_iff.2 ⟨hexpression.shaped, hfits⟩

namespace Expr

mutual

/-- A shaped tree that fits behind a number of groups is orderly after them. -/
theorem Fits.orderly (t : Expr) {before levels : Nat} {closed : Set Nat} (hshaped : t.Shaped)
    (h : t.Fits (before + 1) levels closed) : t.Orderly before := by
  cases t with
  | concat items => exact Fits.orderlyAll items (Shaped.concat_iff.1 hshaped).2 h
  | alternation branches =>
    exact Fits.orderlyAll branches (Shaped.alternation_iff.1 hshaped).2 (alternation_iff.1 h)
  | loop body min max =>
    obtain ⟨⟨hatom, -, hmax⟩, hbody⟩ := Shaped.loop_iff.1 hshaped
    exact ⟨hatom, fun m hm => (hmax m hm).1, Fits.orderly body hbody (loop_iff.1 h)⟩
  | group index body =>
    cases levels with
    | zero => exact absurd h not_group
    | succ levels =>
      obtain ⟨hindex, hbody⟩ := group_iff.1 h
      exact ⟨hindex, Fits.orderly body (Shaped.group_iff.1 hshaped) hbody⟩
  | _ => exact trivial
termination_by structural t

theorem Fits.orderlyAll (ts : List Expr) {before levels : Nat} {closed : Set Nat}
    (hshaped : ∀ t ∈ ts, t.Shaped) (h : (concat ts).Fits (before + 1) levels closed) :
    OrderlyAll ts before := by
  cases ts with
  | nil => exact trivial
  | cons t ts =>
    obtain ⟨ht, hts⟩ := cons_iff.1 h
    rw [Nat.add_right_comm] at hts
    rw [List.forall_mem_cons] at hshaped
    exact ⟨Fits.orderly t hshaped.1 ht, Fits.orderlyAll ts hshaped.2 hts⟩
termination_by structural ts

end

/-- A well-formed tree is orderly. -/
theorem WellFormed.orderly {t : Expr} (h : t.WellFormed) : t.Orderly 0 := by
  obtain ⟨hshaped, hfits⟩ := wellFormed_iff.1 h
  exact hfits.orderly t hshaped

/-- Every pattern is read as an orderly tree. -/
theorem orderly_of_parse {pattern : List UInt8} {t : Expr} (h : Expr.parse pattern = .ok t) :
    t.Orderly 0 :=
  (wellFormed_of_parse h).orderly

end Expr

end PosixRegex
