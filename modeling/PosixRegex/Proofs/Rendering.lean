import PosixRegex.Proofs.WellFormed

/-!
# Writing trees as patterns

Each well-formed tree is written as a pattern that is read as the tree. A byte that would not stand
for itself is escaped, a set is written as one equivalence class for each of its bytes, and a loop
has both bounds in three digits. What `Expr.render` writes for a tree is derived by the grammar at
each level at which the tree may stand (`Grammar.Written`), by recursion on the tree.

- `Grammar.bracket_items`: entries of a bracket expression, each byte in any of its spellings.
- `Expr.exists_parse_eq_ok_iff_wellFormed`: patterns stand for the well-formed trees.
-/

namespace PosixRegex

open Grammar

namespace Expr

/-- A digit. -/
def digit (k : Nat) : UInt8 := '0'.toUInt8 + UInt8.ofNat k

/-- A number below one thousand in three digits. -/
def numeral (n : Nat) : List UInt8 := [digit (n / 100), digit (n / 10 % 10), digit (n % 10)]

/-- A quantifier with both bounds. -/
def quantifierText (min : Nat) (max : Option Nat) : List UInt8 :=
  '\x7b'.toUInt8 :: (numeral min ++ ','.toUInt8 :: (max.elim [] numeral ++ ['\x7d'.toUInt8]))

/-- What stands behind the opening bracket of a bracket expression, from its entries. -/
def bracketText (negated : Bool) (entries : List UInt8) : List UInt8 :=
  (if negated then ['^'.toUInt8] else []) ++ (entries ++ [']'.toUInt8])

/-- The equivalence class of a byte. -/
def equivalenceText (b : UInt8) : List UInt8 :=
  ['['.toUInt8, '='.toUInt8, b, '='.toUInt8, ']'.toUInt8]

/-- The collating symbol of a byte. -/
def symbolText (b : UInt8) : List UInt8 :=
  ['['.toUInt8, '.'.toUInt8, b, '.'.toUInt8, ']'.toUInt8]

/-- A named class. -/
def classText (cls : CharClass) : List UInt8 :=
  '['.toUInt8 :: ':'.toUInt8 :: (cls.name.toUTF8.toList ++ [':'.toUInt8, ']'.toUInt8])

mutual

/-- A tree as a pattern. -/
def render : Expr → List UInt8
  | empty => []
  | literal b => if b ∈ special then ['\\'.toUInt8, b] else [b]
  | any => ['.'.toUInt8]
  | set bytes negated => '['.toUInt8 :: bracketText negated (bytes.toList.flatMap equivalenceText)
  | named cls negated => '['.toUInt8 :: bracketText negated (classText cls)
  | concat items => renderItems items
  | alternation branches => renderBranches branches
  | loop body min max => body.render ++ quantifierText min max
  | group _ body => '('.toUInt8 :: (body.render ++ [')'.toUInt8])
  | anchor .lineStart => ['^'.toUInt8]
  | anchor .lineEnd => ['$'.toUInt8]
  | backref index => ['\\'.toUInt8, digit index]
termination_by structural t => t

/-- Trees one after the other. -/
def renderItems : List Expr → List UInt8
  | [] => []
  | t :: ts => t.render ++ renderItems ts
termination_by structural ts => ts

/-- Trees with bars between them. -/
def renderBranches : List Expr → List UInt8
  | [] => []
  | [t] => t.render
  | t :: ts => t.render ++ '|'.toUInt8 :: renderBranches ts
termination_by structural ts => ts

end

end Expr

/-! ### Bracket expressions -/

namespace Grammar

/-- The bytes that play a part inside bracket expressions. -/
def bracketSpecial : List UInt8 := [']', '[', '-', '^'].map Char.toUInt8

/-- A byte in a bracket expression: inside a collating symbol or an equivalence class, whatever byte
it is, or as it stands where it plays no part of its own. -/
inductive BracketByte : List UInt8 → UInt8 → Prop
  | symbol (b : UInt8) : BracketByte (Expr.symbolText b) b
  | equivalence (b : UInt8) : BracketByte (Expr.equivalenceText b) b
  | plain {b : UInt8} : b ∉ bracketSpecial → BracketByte [b] b

/-- An entry of a bracket expression: a byte, two bytes in order as the ends of a range, or a named
class. -/
inductive BracketItem : List UInt8 → Parser.BracketEntry → Prop
  | byte {w : List UInt8} {b : UInt8} : BracketByte w b → BracketItem w (.byte b)
  | range {u v : List UInt8} {lo hi : UInt8} : BracketByte u lo → BracketByte v hi → lo ≤ hi →
      BracketItem (u ++ '-'.toUInt8 :: v) (.range lo hi)
  | named (cls : CharClass) : BracketItem (Expr.classText cls) (.named cls)

/-- Entries one after the other. -/
inductive BracketItems : List UInt8 → List Parser.BracketEntry → Prop
  | nil : BracketItems [] []
  | cons {u v : List UInt8} {entry : Parser.BracketEntry} {entries : List Parser.BracketEntry} :
      BracketItem u entry → BracketItems v entries → BracketItems (u ++ v) (entry :: entries)

theorem ne_of_not_mem_bracketSpecial {b : UInt8} (h : b ∉ bracketSpecial) :
    b ≠ ']'.toUInt8 ∧ b ≠ '['.toUInt8 ∧ b ≠ '-'.toUInt8 ∧ b ≠ '^'.toUInt8 := by
  simpa [bracketSpecial] using h

/-- A byte does not start like the end of a bracket expression, a range or a negation. -/
theorem BracketByte.exists_head {w : List UInt8} {b : UInt8} (h : BracketByte w b) :
    ∃ a v, w = a :: v ∧ a ≠ ']'.toUInt8 ∧ a ≠ '-'.toUInt8 ∧ a ≠ '^'.toUInt8 := by
  cases h with
  | symbol | equivalence => exact ⟨_, _, rfl, by decide⟩
  | plain hb =>
    obtain ⟨hclose, -, hhyphen, hcaret⟩ := ne_of_not_mem_bracketSpecial hb
    exact ⟨b, [], rfl, hclose, hhyphen, hcaret⟩

theorem BracketItem.exists_head {w : List UInt8} {entry : Parser.BracketEntry}
    (h : BracketItem w entry) :
    ∃ a v, w = a :: v ∧ a ≠ ']'.toUInt8 ∧ a ≠ '-'.toUInt8 ∧ a ≠ '^'.toUInt8 := by
  cases h with
  | byte h => exact h.exists_head
  | range hlo _ _ =>
    obtain ⟨a, v, rfl, ha⟩ := hlo.exists_head
    exact ⟨a, _, rfl, ha⟩
  | named cls => exact ⟨_, _, rfl, by decide⟩

/-- Equivalence classes spell the bytes inside them. -/
theorem bracketItems_equivalence (bytes : List UInt8) :
    BracketItems (bytes.flatMap Expr.equivalenceText) (bytes.map .byte) := by
  induction bytes with
  | nil => exact .nil
  | cons b bytes ih => exact .cons (.byte (.equivalence b)) ih

end Grammar

namespace Parser

variable {s : Parser}

theorem splitAtClose_cons_of_ne {delimiter a : UInt8} (h : a ≠ delimiter) (text : List UInt8) :
    splitAtClose delimiter (a :: text) =
      (splitAtClose delimiter text).map fun (name, rest) => (a :: name, rest) := by
  cases text with
  | nil => rfl
  | cons b text => exact if_neg fun hab => h hab.1

/-- A name is read up to where its text is split. -/
theorem delimited_of_split {delimiter : UInt8} {text name rest : List UInt8}
    (h : splitAtClose delimiter text = some (name, rest)) :
    delimited delimiter (s.withRest text) = .ok name (s.withRest rest) := by
  simp only [delimited, rest_withRest, h]
  rfl

/-- A name without delimiters is read up to the first one. -/
theorem delimited_name {delimiter : UInt8} {name : List UInt8} (h : delimiter ∉ name)
    (rest : List UInt8) :
    delimited delimiter (s.withRest (name ++ delimiter :: ']'.toUInt8 :: rest)) =
      .ok name (s.withRest rest) := by
  apply delimited_of_split
  induction name with
  | nil => exact if_pos ⟨rfl, rfl⟩
  | cons a name ih =>
    rw [List.mem_cons, not_or] at h
    rw [List.cons_append, splitAtClose_cons_of_ne (Ne.symm h.1), ih h.2]
    rfl

/-- A name of one byte ends at the delimiter behind it, also when the byte is a delimiter itself. -/
theorem delimited_byte {delimiter : UInt8} (h : delimiter ≠ ']'.toUInt8) (b : UInt8)
    (rest : List UInt8) :
    delimited delimiter (s.withRest (b :: delimiter :: ']'.toUInt8 :: rest)) =
      .ok [b] (s.withRest rest) := by
  apply delimited_of_split
  -- The byte does not end the name: there is no bracket behind it.
  rw [splitAtClose, if_neg fun hclose => h hclose.2, splitAtClose, if_pos ⟨rfl, rfl⟩]
  rfl

/-- A byte is read as what it is written for. -/
theorem bracketElement_byte {w : List UInt8} {b : UInt8} (h : BracketByte w b)
    (rest : List UInt8) :
    bracketElement (s.withRest (w ++ rest)) = .ok (.byte b) (s.withRest rest) := by
  cases h with
  | symbol =>
    refine bind_eq_ok_iff.2 ⟨some '['.toUInt8, _, rfl, ?_⟩
    refine bind_eq_ok_iff.2 ⟨false, _, rfl, ?_⟩
    refine bind_eq_ok_iff.2 ⟨true, _, rfl, ?_⟩
    exact bind_eq_ok_iff.2 ⟨[b], _, delimited_byte (by decide) b rest, rfl⟩
  | equivalence =>
    refine bind_eq_ok_iff.2 ⟨some '['.toUInt8, _, rfl, ?_⟩
    refine bind_eq_ok_iff.2 ⟨false, _, rfl, ?_⟩
    refine bind_eq_ok_iff.2 ⟨false, _, rfl, ?_⟩
    refine bind_eq_ok_iff.2 ⟨true, _, rfl, ?_⟩
    exact bind_eq_ok_iff.2 ⟨[b], _, delimited_byte (by decide) b rest, rfl⟩
  | plain hplain =>
    refine bind_eq_ok_iff.2 ⟨some b, _, rfl, ?_⟩
    dsimp only
    rw [if_pos (ne_of_not_mem_bracketSpecial hplain).2.1]
    rfl

/-- A named class is read by its name. -/
theorem bracketElement_class (cls : CharClass) (rest : List UInt8) :
    bracketElement (s.withRest (Expr.classText cls ++ rest)) =
      .ok (.named cls) (s.withRest rest) := by
  have hall : ∀ cls ∈ CharClass.all, CharClass.ofName? cls.name.toUTF8.toList = some cls ∧
      ':'.toUInt8 ∉ cls.name.toUTF8.toList := by decide +kernel
  obtain ⟨hlookup, hname⟩ := hall cls (by cases cls <;> decide)
  refine bind_eq_ok_iff.2 ⟨some '['.toUInt8, _, rfl, ?_⟩
  refine bind_eq_ok_iff.2 ⟨true, _, rfl, ?_⟩
  refine bind_eq_ok_iff.2 ⟨cls.name.toUTF8.toList, s.withRest rest, ?_, ?_⟩
  · have htext : (cls.name.toUTF8.toList ++ [':'.toUInt8, ']'.toUInt8]) ++ rest =
        cls.name.toUTF8.toList ++ ':'.toUInt8 :: ']'.toUInt8 :: rest := List.append_assoc _ _ _
    exact (congrArg (fun text => delimited ':'.toUInt8 (s.withRest text)) htext).trans
      (delimited_name hname rest)
  · rw [hlookup]
    rfl

/-- No range begins where no hyphen follows. -/
theorem rangeHyphen_eq_false (h : s.rest.head? ≠ some '-'.toUInt8) :
    rangeHyphen s = .ok false s := by
  unfold rangeHyphen
  split
  · rename_i hrest
    refine if_neg fun hdash => h ?_
    rw [hrest, hdash.1]
    rfl
  · rfl

/-- An entry is read as what it is written for, in front of anything but a hyphen. -/
theorem bracketEntry_item {w rest : List UInt8} {entry : BracketEntry} (h : BracketItem w entry)
    (hrest : rest.head? ≠ some '-'.toUInt8) :
    bracketEntry (s.withRest (w ++ rest)) = .ok entry (s.withRest rest) := by
  have hno : rangeHyphen (s.withRest rest) = .ok false (s.withRest rest) :=
    rangeHyphen_eq_false hrest
  cases h with
  | byte hb =>
    exact bind_eq_ok_iff.2 ⟨_, _, bracketElement_byte hb rest, bind_eq_ok_iff.2 ⟨_, _, hno, rfl⟩⟩
  | named cls =>
    exact bind_eq_ok_iff.2
      ⟨_, _, bracketElement_class cls rest, bind_eq_ok_iff.2 ⟨_, _, hno, rfl⟩⟩
  | @range u v lo hi hlo hhi hle =>
    -- What stands behind the hyphen does not start with a closing bracket, so it is a range.
    have hhyphen : rangeHyphen (s.withRest ('-'.toUInt8 :: (v ++ rest))) =
        .ok true (s.withRest (v ++ rest)) := by
      obtain ⟨a, v, rfl, hclose, -⟩ := hhi.exists_head
      exact if_pos ⟨rfl, hclose⟩
    rw [List.append_assoc, List.cons_append]
    refine bind_eq_ok_iff.2 ⟨_, _, bracketElement_byte hlo _, ?_⟩
    refine bind_eq_ok_iff.2 ⟨_, _, hhyphen, ?_⟩
    refine bind_eq_ok_iff.2 ⟨_, _, bracketElement_byte hhi rest, ?_⟩
    dsimp only
    rw [if_pos hle]
    rfl

/-- Entries are read one after the other. -/
theorem repeats_bracketItems {w : List UInt8} {entries : List BracketEntry}
    (h : BracketItems w entries) (rest : List UInt8) :
    Repeats (· ≠ ']'.toUInt8) bracketEntry entries
      (s.withRest (w ++ ']'.toUInt8 :: rest)) (s.withRest (']'.toUInt8 :: rest)) := by
  induction h with
  | nil =>
    refine ⟨?_, rfl⟩
    rintro b ⟨⟩
    rfl
  | @cons u v entry entries hentry hentries ih =>
    have hbehind : (v ++ ']'.toUInt8 :: rest).head? ≠ some '-'.toUInt8 := by
      cases hentries with
      | nil => exact nofun
      | cons hnext _ =>
        obtain ⟨a, _, rfl, -, hhyphen, -⟩ := hnext.exists_head
        exact fun hhead => hhyphen (Option.some.inj hhead)
    have hread := bracketEntry_item (s := s) hentry hbehind
    obtain ⟨a, u, rfl, hclose, -⟩ := hentry.exists_head
    rw [List.append_assoc]
    exact ⟨⟨a, rfl, decide_eq_true hclose⟩, _, hread, ih⟩

end Parser

namespace Grammar

/-- One entry or more are a bracket expression, negated or not. -/
theorem bracket_items {w : List UInt8} {entries : List Parser.BracketEntry}
    (h : BracketItems w entries) (hne : entries ≠ []) (negated : Bool) :
    Bracket (Expr.bracketText negated w) (Parser.BracketEntry.toExpr negated entries) := by
  cases h with
  | nil => exact absurd rfl hne
  | @cons u v first others hentry hentries =>
    obtain ⟨-, s₂, hfirst, hothers⟩ :=
      Parser.repeats_bracketItems (s := Parser.ofPattern []) (.cons hentry hentries) []
    refine Parser.bracket_eq_ok_iff_entries.2
      ⟨negated, _, first, s₂, others, _, ?_, hfirst, hothers, rfl, rfl, rfl⟩
    rw [Parser.accept_eq]
    -- A circumflex that is written is read, and none is read where none is written.
    cases negated with
    | true => rfl
    | false =>
      obtain ⟨a, u, rfl, -, -, hcaret⟩ := hentry.exists_head
      exact if_neg fun hhead => hcaret (Option.some.inj hhead)

/-- A set is written as the equivalence classes of its bytes. -/
theorem bracket_set {bytes : ByteSet} (h : ∃ b, bytes.contains b = true) (negated : Bool) :
    Bracket (Expr.bracketText negated (bytes.toList.flatMap Expr.equivalenceText))
      (.set bytes negated) := by
  obtain ⟨b, others, hlist⟩ : ∃ b others, bytes.toList = b :: others := by
    obtain ⟨b, hb⟩ := h
    exact List.exists_cons_of_ne_nil (List.ne_nil_of_mem (ByteSet.mem_toList.2 hb))
  have htree : Parser.BracketEntry.toExpr negated (.byte b :: others.map .byte) =
      .set bytes negated := by
    have hset : ((b :: others).map Parser.BracketEntry.byte).foldl
        (fun s e => s.union e.toSet) ∅ = bytes := by
      ext c
      rw [Parser.contains_foldl_union, ← hlist, List.any_map, Bool.eq_iff_iff]
      simp [Parser.BracketEntry.toSet]
    -- One byte alone is no class, so it stays a set as well.
    cases others <;> exact congrArg (Expr.set · negated) hset
  rw [← htree, hlist]
  exact bracket_items (bracketItems_equivalence (b :: others)) (List.cons_ne_nil _ _) negated

/-- A named class is written by its name. -/
theorem bracket_named (cls : CharClass) (negated : Bool) :
    Bracket (Expr.bracketText negated (Expr.classText cls)) (.named cls negated) := by
  have h := bracket_items (.cons (.named cls) .nil) (List.cons_ne_nil _ _) negated
  rwa [List.append_nil] at h

variable {w : List UInt8} {t : Expr} {ts : List Expr}

/-- A text is written for a tree at each level of the grammar at which the tree may stand. -/
structure Written (w : List UInt8) (t : Expr) : Prop where
  /-- A tree that may be repeated is written as an atom. -/
  atom : t.isAtom = true → Atom w t
  /-- An item of a sequence is written as a piece. -/
  piece : t.isPiece = true → Piece w t
  /-- A branch is written as its pieces. -/
  branch : t.isBranch = true → ∃ ts, Pieces w ts ∧ t = .ofItems ts
  /-- Any tree is written as an expression. -/
  expression : Expression w t

namespace Written

theorem of_branches (h : Branches w ts) (ht : (Expr.ofBranches ts).isBranch = false) :
    Written w (.ofBranches ts) where
  atom hatom := by
    rw [Expr.isBranch_of_isPiece (Expr.isPiece_of_isAtom hatom)] at ht
    cases ht
  piece hpiece := by
    rw [Expr.isBranch_of_isPiece hpiece] at ht
    cases ht
  branch hbranch := by
    rw [hbranch] at ht
    cases ht
  expression := .ofBranches h

theorem of_pieces (h : Pieces w ts) (ht : (Expr.ofItems ts).isPiece = false) :
    Written w (.ofItems ts) where
  atom hatom := by
    rw [Expr.isPiece_of_isAtom hatom] at ht
    cases ht
  piece hpiece := by
    rw [hpiece] at ht
    cases ht
  branch _ := ⟨ts, h, rfl⟩
  expression := .ofBranches (.last h)

/-- One piece is a sequence. -/
theorem pieces_singleton (h : Piece w t) : Pieces w [t] := by
  have := Pieces.cons h .nil
  rwa [List.append_nil] at this

theorem of_piece (h : Piece w t) (ht : t.isAtom = false) : Written w t where
  atom hatom := by
    rw [hatom] at ht
    cases ht
  piece _ := h
  branch _ := ⟨[t], pieces_singleton h, rfl⟩
  expression := .ofBranches (.last (pieces_singleton h))

theorem of_atom (h : Atom w t) : Written w t where
  atom _ := h
  piece _ := .once h
  branch _ := ⟨[t], pieces_singleton (.once h), rfl⟩
  expression := .ofBranches (.last (pieces_singleton (.once h)))

end Written

/-! ### Numbers -/

/-- Three digits spell a count. -/
theorem count_numeral {n : Nat} (h : n ≤ 255) : Count (Expr.numeral n) n where
  ne_nil := nofun
  isDigit := by
    have hdigit {k : Nat} (hk : k ≤ 9) : Byte.isDigit (Expr.digit k) = true := by
      interval_cases k <;> rfl
    simp only [Expr.numeral, List.forall_mem_cons]
    exact ⟨hdigit (by omega), hdigit (by omega), hdigit (by omega), nofun⟩
  decimal_eq := by
    have hdigit {k : Nat} (hk : k ≤ 9) : (Expr.digit k - '0'.toUInt8).toNat = k :=
      Parser.digit_sub hk
    simp only [decimal, Expr.numeral, List.foldl_cons, List.foldl_nil]
    rw [hdigit (by omega), hdigit (by omega), hdigit (by omega)]
    omega
  le := h

theorem quantifier_text {min : Nat} {max : Option Nat} (hmin : min ≤ 255)
    (hmax : ∀ n ∈ max, min ≤ n ∧ n ≤ 255) : Quantifier (Expr.quantifierText min max) min max := by
  have hlow : Bound (Expr.numeral min) (some min) := .given (count_numeral hmin)
  have hhigh : Bound (max.elim [] Expr.numeral) max := by
    cases max with
    | none => exact .missing
    | some n => exact .given (count_numeral (hmax n rfl).2)
  exact .interval (.range hlow hhigh fun n hn => (hmax n hn).1)

/-! ### Trees -/

/-- A byte that does not stand for itself can be made ordinary. -/
theorem escapable_of_special {b : UInt8} (h : b ∈ special) : b ∈ escapable := by
  have hall : special.all escapable.contains = true := by decide +kernel
  exact List.contains_iff_mem.1 (List.all_eq_true.1 hall b h)

/-- A branch alone, by the tree that it stands for. -/
theorem Branches.singleton (h : ∃ ts, Pieces w ts ∧ t = .ofItems ts) : Branches w [t] := by
  obtain ⟨ts, hts, rfl⟩ := h
  exact .last hts

/-- A branch in front of others, by the tree that it stands for. -/
theorem Branches.cons {v : List UInt8} (h : ∃ ts, Pieces w ts ∧ t = .ofItems ts)
    (hts : Branches v ts) : Branches (w ++ '|'.toUInt8 :: v) (t :: ts) := by
  obtain ⟨items, hitems, rfl⟩ := h
  exact .bar hitems hts

mutual

/-- What is written for a shaped tree is derived by the grammar. -/
theorem written_render (t : Expr) (h : t.Shaped) : Written t.render t := by
  cases t with
  | empty => exact .of_pieces .nil rfl
  | literal b =>
    refine .of_atom ?_
    rw [Expr.render]
    split
    · rename_i hb
      exact .escape (.literal (escapable_of_special hb))
    · rename_i hb
      exact .literal hb
  | any => exact .of_atom .any
  | set bytes negated => exact .of_atom (.bracket (bracket_set h.proper negated))
  | named cls negated => exact .of_atom (.bracket (bracket_named cls negated))
  | concat items =>
    obtain ⟨⟨hlength, hpiece⟩, hitems⟩ := Expr.Shaped.concat_iff.1 h
    -- Two items or more are a sequence, which is what keeps it from being one of its items.
    have hpieces := pieces_renderItems items hpiece hitems
    match items, hlength with
    | _ :: _ :: _, _ => exact .of_pieces hpieces rfl
  | alternation branches =>
    obtain ⟨⟨hlength, hbranch⟩, hbranches⟩ := Expr.Shaped.alternation_iff.1 h
    have hne : branches ≠ [] := List.ne_nil_of_length_pos (Nat.lt_of_lt_of_le Nat.two_pos hlength)
    have hbranches := branches_renderBranches branches hne hbranch hbranches
    match branches, hlength with
    | _ :: _ :: _, _ => exact .of_branches hbranches rfl
  | loop body min max =>
    obtain ⟨⟨hatom, hmin, hmax⟩, hbody⟩ := Expr.Shaped.loop_iff.1 h
    exact .of_piece (.repeated ((written_render body hbody).atom hatom)
      (quantifier_text hmin hmax)) rfl
  | group index body =>
    exact .of_atom (.group index (written_render body (Expr.Shaped.group_iff.1 h)).expression)
  | anchor kind =>
    cases kind with
    | lineStart => exact .of_atom .lineStart
    | lineEnd => exact .of_atom .lineEnd
  | backref index => exact .of_atom (.escape (.backref h.proper.1 h.proper.2))
termination_by structural t

theorem pieces_renderItems (ts : List Expr) (hpiece : ∀ t ∈ ts, t.isPiece = true)
    (h : ∀ t ∈ ts, t.Shaped) : Pieces (Expr.renderItems ts) ts := by
  cases ts with
  | nil => exact .nil
  | cons t ts =>
    rw [List.forall_mem_cons] at hpiece h
    exact .cons ((written_render t h.1).piece hpiece.1) (pieces_renderItems ts hpiece.2 h.2)
termination_by structural ts

theorem branches_renderBranches (ts : List Expr) (hne : ts ≠ [])
    (hbranch : ∀ t ∈ ts, t.isBranch = true) (h : ∀ t ∈ ts, t.Shaped) :
    Branches (Expr.renderBranches ts) ts := by
  cases ts with
  | nil => exact absurd rfl hne
  | cons t ts =>
    rw [List.forall_mem_cons] at hbranch h
    have ht := (written_render t h.1).branch hbranch.1
    have hts := branches_renderBranches ts
    cases ts with
    | nil => exact .singleton ht
    | cons u ts => exact .cons ht (hts nofun hbranch.2 h.2)
termination_by structural ts

end

end Grammar

/-- A tree that fits is read from the text that is written for it. -/
theorem Expr.parse_render {t : Expr} (h : t.WellFormed) : Expr.parse t.render = .ok t := by
  obtain ⟨hshaped, hfits⟩ := Expr.wellFormed_iff.1 h
  exact Expr.parse_eq_ok_iff.2 ⟨(Grammar.written_render t hshaped).expression, hfits⟩

/-- The trees that patterns stand for are the `WellFormed` ones. In such a tree the groups inside
the group `index` have just the numbers that follow `index`. -/
theorem Expr.exists_parse_eq_ok_iff_wellFormed (t : Expr) :
    ((∃ pattern, Expr.parse pattern = .ok t) ↔ t.WellFormed) ∧
      ∀ index body, t.WellFormed → (group index body).IsPart t →
        body.groupIndices = List.range' (index + 1) body.groupCount := by
  refine ⟨⟨?_, fun h => ⟨t.render, Expr.parse_render h⟩⟩, fun _ _ h => h.groupIndices_inside⟩
  rintro ⟨pattern, h⟩
  exact Expr.wellFormed_of_parse h

/-- The tree of `((a)b)\2` is well-formed, so a pattern stands for it, and the group inside its
first one has the second number. -/
theorem Expr.exists_parse_eq_ok_backref :
    let inner : Expr := .concat [.group 2 (.literal 97), .literal 98]
    let t : Expr := .concat [.group 1 inner, .backref 2]
    t.WellFormed ∧ (Expr.group 1 inner).IsPart t ∧ (∃ pattern, Expr.parse pattern = .ok t) ∧
      inner.groupIndices = List.range' 2 1 := by
  intro inner t
  have hinner : inner.Shaped := by
    refine Expr.Shaped.concat_iff.2 ⟨⟨Nat.le_refl 2, by simp [Expr.isPiece]⟩, ?_⟩
    simp only [List.forall_mem_cons]
    exact ⟨Expr.Shaped.group_iff.2 (.of_isLeaf rfl trivial), .of_isLeaf rfl trivial, nofun⟩
  have hshaped : t.Shaped := by
    refine Expr.Shaped.concat_iff.2 ⟨⟨Nat.le_refl 2, by simp [Expr.isPiece]⟩, ?_⟩
    simp only [List.forall_mem_cons]
    exact ⟨Expr.Shaped.group_iff.2 hinner, Expr.Shaped.backref_iff.2 (by decide), nofun⟩
  have hwell : t.WellFormed :=
    ⟨rfl, by decide, hshaped, ⟨⟨trivial, trivial, trivial⟩, .inr (by decide), trivial⟩⟩
  have hpart : (Expr.group 1 inner).IsPart t := .item List.mem_cons_self (.refl _)
  obtain ⟨himage, hinside⟩ := Expr.exists_parse_eq_ok_iff_wellFormed t
  exact ⟨hwell, hpart, himage.2 hwell, hinside 1 inner hwell hpart⟩

end PosixRegex
