import PosixRegex.Proofs.CaseFolding
import PosixRegex.Proofs.Rendering

/-!
# What bracket expressions mean

The entries of a bracket expression may be written in any order, and each byte in them in any of its
spellings. What is read has the bytes that the entries stand for, all of them together. The options
then add the other case of each letter, take the bytes that are left out where the expression is
negated, and last take out the line feed.

- `Options.contains_bracketSet`: the bytes of a bracket expression under given options.
- `Expr.parse_bracketItems`: entries are read as what they stand for.
-/

namespace PosixRegex

open Grammar

namespace Options

variable (o : Options) (s : ByteSet) (b : UInt8)

theorem contains_fold : (o.fold s).contains b = true ↔
    s.contains b = true ∨ o.caseInsensitive = true ∧ s.contains (Byte.swapCase b) = true := by
  rw [fold]
  split
  · rename_i hcase
    rw [ByteSet.contains_foldCase, Bool.or_eq_true, and_iff_right hcase]
  · rename_i hcase
    rw [or_iff_left fun h => hcase h.1]

theorem contains_withinLine : (o.withinLine s).contains b = true ↔
    s.contains b = true ∧ ¬(o.newline = true ∧ b = '\n'.toUInt8) := by
  rw [withinLine]
  split
  · rename_i hline
    rw [ByteSet.contains_erase, Bool.and_eq_true, bne_iff_ne, ne_comm, and_iff_right hline]
  · rename_i hline
    rw [and_iff_left fun h => hline h.1]

/-- Letters have both cases before the set is negated, and the line feed is taken out after it. -/
theorem contains_bracketSet (negated : Bool) : (o.bracketSet s negated).contains b = true ↔
    ((s.contains b = true ∨ o.caseInsensitive = true ∧ s.contains (Byte.swapCase b) = true) ↔
        negated = false) ∧
      ¬(o.newline = true ∧ negated = true ∧ b = '\n'.toUInt8) := by
  rw [← contains_fold]
  cases negated with
  | false => simp [bracketSet]
  | true =>
    -- The line feed is taken out of the other bytes, so it is missing even when the set lacks it.
    simp [bracketSet, contains_withinLine]

end Options

namespace Parser.BracketEntry

/-- The bytes that an entry stands for. -/
def Holds : BracketEntry → UInt8 → Prop
  | byte a, b => b = a
  | range lo hi, b => lo ≤ b ∧ b ≤ hi
  | named cls, b => cls.contains b = true

instance (entry : BracketEntry) (b : UInt8) : Decidable (entry.Holds b) :=
  match entry with
  | byte a => inferInstanceAs (Decidable (b = a))
  | range lo hi => inferInstanceAs (Decidable (lo ≤ b ∧ b ≤ hi))
  | named cls => inferInstanceAs (Decidable (cls.contains b = true))

theorem contains_toSet_iff (entry : BracketEntry) (b : UInt8) :
    entry.toSet.contains b = true ↔ entry.Holds b := by
  cases entry with
  | byte a => rw [toSet, ByteSet.contains_single, beq_iff_eq, Holds, eq_comm]
  | range lo hi =>
    rw [toSet, ByteSet.contains_range, Bool.and_eq_true, decide_eq_true_eq, decide_eq_true_eq,
      Holds]
  | named cls => rw [toSet, CharClass.contains_toSet, Holds]

variable {entries : List BracketEntry} {negated : Bool}

/-- The bytes of several entries. -/
theorem contains_union_iff (b : UInt8) :
    (entries.foldl (fun s e => s.union e.toSet) (∅ : ByteSet)).contains b = true ↔
      ∃ e ∈ entries, e.Holds b := by
  rw [contains_foldl_union, ByteSet.contains_emptyCollection, Bool.false_or, List.any_eq_true]
  simp only [contains_toSet_iff]

/-- Entries other than one named class are a set. -/
theorem toExpr_eq_set (h : ∀ cls, entries ≠ [.named cls]) :
    toExpr negated entries = .set (entries.foldl (fun s e => s.union e.toSet) ∅) negated := by
  unfold toExpr
  split
  · exact absurd rfl (h _)
  · rfl

/-- The node of a bracket expression has the bytes of its entries, be it a class or a set. -/
theorem exists_byteSet?_toExpr (entries : List BracketEntry) (negated : Bool) :
    ∃ bytes : ByteSet, (∀ b, bytes.contains b = true ↔ ∃ e ∈ entries, e.Holds b) ∧
      ∀ o, (toExpr negated entries).byteSet? o = some (o.bracketSet bytes negated) := by
  by_cases hset : ∀ cls, entries ≠ [.named cls]
  · exact ⟨_, contains_union_iff, fun o => by rw [toExpr_eq_set hset]; rfl⟩
  · obtain ⟨cls, rfl⟩ : ∃ cls, entries = [.named cls] := by simpa using hset
    refine ⟨cls.toSet, fun b => ?_, fun o => rfl⟩
    rw [CharClass.contains_toSet]
    simp [Holds]

end Parser.BracketEntry

namespace Expr

/-- A bracket expression stands for its node, as a pattern of its own. -/
theorem parse_bracket {w : List UInt8} {entries : List Parser.BracketEntry} {negated : Bool}
    (h : Bracket w (Parser.BracketEntry.toExpr negated entries)) :
    Expr.parse ('['.toUInt8 :: w) = .ok (Parser.BracketEntry.toExpr negated entries) :=
  parse_eq_ok_iff.2 ⟨(Written.of_atom (.bracket h)).expression,
    .of_isLeaf (Parser.isLeaf_toExpr negated entries)⟩

/-- The `entries` in brackets are read as what they stand for, in whatever order and spelling `w`.
One named class stays a class, and other entries are a set of their `bytes`. Under any options `o`
the node matches the bytes for which one of the entries `Holds`, in both cases where case does not
count; where it is `negated` it matches the other bytes, but not a line feed that separates
lines. -/
theorem parse_bracketItems {w : List UInt8} {entries : List Parser.BracketEntry}
    (h : BracketItems w entries) (hne : entries ≠ []) (negated : Bool) :
    ∃ t, Expr.parse ('['.toUInt8 :: bracketText negated w) = .ok t ∧
      (∀ cls, entries = [.named cls] → t = .named cls negated) ∧
      ((∀ cls, entries ≠ [.named cls]) → ∃ bytes, t = .set bytes negated ∧
        ∀ b, bytes.contains b = true ↔ ∃ e ∈ entries, e.Holds b) ∧
      ∀ o, ∃ s, t.byteSet? o = some s ∧ ∀ b, s.contains b = true ↔
        (((∃ e ∈ entries, e.Holds b) ∨
            o.caseInsensitive = true ∧ ∃ e ∈ entries, e.Holds (Byte.swapCase b)) ↔
          negated = false) ∧
        ¬(o.newline = true ∧ negated = true ∧ b = '\n'.toUInt8) := by
  refine ⟨Parser.BracketEntry.toExpr negated entries,
    parse_bracket (bracket_items h hne negated), ?_, ?_, ?_⟩
  · rintro cls rfl
    rfl
  · exact fun hset =>
      ⟨_, Parser.BracketEntry.toExpr_eq_set hset, Parser.BracketEntry.contains_union_iff⟩
  · intro o
    obtain ⟨bytes, hbytes, hnode⟩ :=
      Parser.BracketEntry.exists_byteSet?_toExpr entries negated
    refine ⟨_, hnode o, fun b => ?_⟩
    rw [Options.contains_bracketSet, hbytes, hbytes]

/-- The expression `[^[.].][.-.]-[===][:lower:]]` leaves out a closing bracket, the bytes from the
hyphen to the equals sign and the small letters. Where case does not count and line feeds separate
lines, it leaves out the capital letters and the line feed as well. -/
theorem parse_bracketItems_negated :
    let entries : List Parser.BracketEntry := [.byte 93, .range 45 61, .named .lower]
    let w :=
      symbolText 93 ++ ((symbolText 45 ++ 45 :: equivalenceText 61) ++ (classText .lower ++ []))
    BracketItems w entries ∧ entries ≠ [] ∧
      ∃ t s, Expr.parse (91 :: bracketText true w) = .ok t ∧
        t.byteSet? { caseInsensitive := true, newline := true } = some s ∧
        s.contains 126 = true ∧ ∀ b ∈ [93, 46, 97, 65, 10], ¬s.contains b = true := by
  intro entries w
  have hitems : BracketItems w entries :=
    .cons (.byte (.symbol 93)) (.cons (.range (.symbol 45) (.equivalence 61) (by decide))
      (.cons (.named .lower) .nil))
  obtain ⟨t, ht, -, -, hset⟩ := parse_bracketItems hitems (List.cons_ne_nil _ _) true
  obtain ⟨s, hs, hcontains⟩ := hset { caseInsensitive := true, newline := true }
  refine ⟨hitems, List.cons_ne_nil _ _, t, s, ht, hs, (hcontains 126).2 (by decide), ?_⟩
  simp only [hcontains]
  decide +kernel

end Expr

end PosixRegex
