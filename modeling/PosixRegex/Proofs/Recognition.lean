import Mathlib.Tactic.IntervalCases
import PosixRegex.Proofs.Lexemes

/-!
# The reader recognises the grammar

What is read is what the grammar derives. A reader is in the middle of a pattern: groups before it
have numbers and may be closed, and there is text behind what it reads. `Parser.Accepts` says of a
reader which texts it reads as which trees, in front of what, and in which state it is then. One
lemma for each construct says that it accepts the texts of this construct when the readers of its
parts do, and the levels of nesting follow by induction.

Main statement: `Expr.parse_eq_ok_iff_derives`.
-/

namespace PosixRegex

open Grammar

namespace Parser

variable {s s' s₁ : Parser} {t : Expr} {ts us : List Expr} {levels : Nat}

/-! ### The state behind a tree -/

/-- The groups that back-references may name. -/
def closedGroups (s : Parser) : Set Nat := {index | s.closed.getD index false = true}

/-- The state behind a tree with so many groups: all of them are closed. -/
def past (s : Parser) (groups : Nat) (rest : List UInt8) : Parser where
  rest := rest
  depth := s.depth
  nextGroup := s.nextGroup + groups
  closed := s.closed ++ Array.replicate groups true

@[simp]
theorem rest_past (s : Parser) (n : Nat) (rest : List UInt8) : (s.past n rest).rest = rest := rfl

@[simp]
theorem past_withRest (s : Parser) (n : Nat) (rest rest' : List UInt8) :
    (s.withRest rest).past n rest' = s.past n rest' := rfl

theorem past_zero (s : Parser) (rest : List UInt8) : s.past 0 rest = s.withRest rest := by
  simp [past, withRest]

theorem past_past (s : Parser) (m n : Nat) (rest rest' : List UInt8) :
    (s.past m rest).past n rest' = s.past (m + n) rest' := by
  simp [past, Nat.add_assoc, Array.append_assoc, Array.replicate_append_replicate]

theorem size_past (h : s.closed.size = s.nextGroup) (n : Nat) (rest : List UInt8) :
    (s.past n rest).closed.size = (s.past n rest).nextGroup := by
  simp [past, h]

/-- Before the first step no group may be named. -/
theorem closedGroups_ofPattern (pattern : List UInt8) : (ofPattern pattern).closedGroups = ∅ := by
  ext index
  simp only [closedGroups, ofPattern, Set.mem_ofPred_eq, Set.mem_empty_iff_false]
  cases index <;> simp

/-- The groups of a tree that has been read may be named from then on. -/
theorem closedGroups_past (h : s.closed.size = s.nextGroup) {closed : Set Nat}
    (ht : t.Fits s.nextGroup levels closed) (rest : List UInt8) :
    (s.past t.groupCount rest).closedGroups =
      s.closedGroups ∪ {index | index ∈ t.groupIndices} := by
  ext index
  rw [ht.numbered]
  simp only [closedGroups, past, Set.mem_union, Set.mem_ofPred_eq, List.mem_range'_1, ← h,
    Array.getD_eq_getD_getElem?, Array.getElem?_append, Array.getElem?_replicate]
  -- A number given out before the tree keeps its entry; the tree's own are closed.
  by_cases hlt : index < s.closed.size
  · have hout : ¬ s.closed.size ≤ index := Nat.not_le_of_lt hlt
    simp [hlt, hout]
  · have hin : s.closed.size ≤ index := Nat.le_of_not_lt hlt
    have hsub : index - s.closed.size < t.groupCount ↔
        index < s.closed.size + t.groupCount := by omega
    have hnone : s.closed[index]? = none := Array.getElem?_eq_none hin
    simp only [hlt, if_false, hin, hsub, hnone, true_and]
    split <;> rename_i hindex <;> simp [hindex]

/-- Trees fit one after the other when each fits the state behind the one before. -/
theorem fits_cons_iff (h : s.closed.size = s.nextGroup) (rest : List UInt8) :
    (Expr.concat (t :: ts)).Fits s.nextGroup levels s.closedGroups ↔
      t.Fits s.nextGroup levels s.closedGroups ∧
        (Expr.concat ts).Fits (s.past t.groupCount rest).nextGroup levels
          (s.past t.groupCount rest).closedGroups := by
  rw [Expr.Fits.cons_iff]
  refine and_congr_right fun ht => ?_
  rw [closedGroups_past h ht]
  rfl

/-- A group that has just been opened may not be named. -/
theorem closedGroups_opened (s : Parser) : s.opened.closedGroups = s.closedGroups := by
  ext index
  simp only [closedGroups, opened, Set.mem_ofPred_eq, Array.getD_eq_getD_getElem?,
    Array.getElem?_push]
  split
  · rename_i hsize
    simp [hsize]
  · exact Iff.rfl

/-- A group is closed behind its body. -/
theorem closing_past (h : s.closed.size = s.nextGroup) (n : Nat) (rest rest' : List UInt8) :
    ((s.opened.past n rest).withRest rest').closing s.nextGroup = s.past (1 + n) rest' := by
  have hclosed : ((s.closed.push false) ++ Array.replicate n true).setIfInBounds s.nextGroup true =
      s.closed ++ Array.replicate (1 + n) true := by
    rw [← h, ← Array.replicate_append_replicate, ← Array.append_assoc]
    apply Array.ext'
    simp
  simp only [closing, opened, past, withRest, hclosed, Nat.add_sub_cancel, Nat.add_assoc]

/-- Where a reader may start, it reads the texts of a construct as the trees they stand for, when
such a text is followed by one that the reader may stop at. The tree fits the state, and the state
behind it has no other groups than before and those of the tree. -/
def Accepts (Starts Stops : Parser → Prop) (levels : Nat) (Text : List UInt8 → Expr → Prop)
    (x : Reader Expr) : Prop :=
  ∀ s s' t, Starts s → s.closed.size = s.nextGroup → (x s = .ok t s' ↔
    ∃ w, s.rest = w ++ s'.rest ∧ Text w t ∧ Stops s' ∧ t.Fits s.nextGroup levels s.closedGroups ∧
      s' = s.past t.groupCount s'.rest)

/-- A reader without a condition on where it starts and stops. -/
def Anywhere (_ : Parser) : Prop := True

/-- Something is left, and it starts with a byte that can start a piece. -/
def AtPiece (s : Parser) : Prop :=
  ∃ b ∈ s.rest.head?, Role.ofByte b ≠ .bar ∧ Role.ofByte b ≠ .close

/-- No quantifier follows. -/
def NoQuantifier (s : Parser) : Prop :=
  (s.rest.head?.map Role.ofByte).any Role.isQuantifier = false

/-- A branch ends here: at a bar, at the end of the pattern, or at a parenthesis that closes a
group. -/
def AtBranchEnd (s : Parser) : Prop :=
  ∀ b ∈ s.rest.head?, Role.ofByte b = .bar ∨ Role.ofByte b = .close ∧ s.depth ≠ 0

/-- An expression ends here: at the end of the pattern, or at a parenthesis that closes a group. -/
def AtEnd (s : Parser) : Prop :=
  ∀ b ∈ s.rest.head?, Role.ofByte b = .close ∧ s.depth ≠ 0

/-! ### Atoms -/

/-- Behind a tree without groups only the text has changed. -/
theorem past_of_isLeaf (h : t.isLeaf = true) (s : Parser) (rest : List UInt8) :
    s.past t.groupCount rest = s.withRest rest := by
  cases t with
  | literal | any | set | named => exact past_zero s rest
  | _ => exact absurd h Bool.false_ne_true

theorem isLeaf_of_bracket {w : List UInt8} (h : Bracket w t) : t.isLeaf = true := by
  obtain ⟨_, _, _, _, _, _, _, _, _, _, _, rfl⟩ := bracket_eq_ok_iff_entries.1 h
  exact isLeaf_toExpr _ _

theorem accepts_bracket : Accepts Anywhere Anywhere levels Bracket bracket := by
  intro s s' t _ _
  rw [bracket_eq_ok_iff]
  constructor
  · rintro ⟨w, hw, ht, hs'⟩
    have hleaf := isLeaf_of_bracket ht
    exact ⟨w, hw, ht, trivial, .of_isLeaf hleaf, hs'.trans (past_of_isLeaf hleaf _ _).symm⟩
  · rintro ⟨w, hw, ht, -, -, hs'⟩
    exact ⟨w, hw, ht, hs'.trans (past_of_isLeaf (isLeaf_of_bracket ht) _ _)⟩

/-- The digits from 1 to 9 are those of the numbers. -/
theorem between_iff {b : UInt8} : Byte.between '1' '9' b = true ↔
    ∃ k, 1 ≤ k ∧ k ≤ 9 ∧ b = '0'.toUInt8 + UInt8.ofNat k := by
  constructor
  · intro h
    have hlo : '1'.toUInt8.toNat = 49 := rfl
    have hhi : '9'.toUInt8.toNat = 57 := rfl
    have hzero : '0'.toUInt8.toNat = 48 := rfl
    simp only [Byte.between, Bool.and_eq_true, decide_eq_true_eq, UInt8.le_iff_toNat_le, hlo,
      hhi] at h
    refine ⟨b.toNat - 48, by omega, by omega, UInt8.toNat_inj.1 ?_⟩
    rw [UInt8.toNat_add, UInt8.toNat_ofNat', hzero]
    omega
  · rintro ⟨k, h₁, h₉, rfl⟩
    interval_cases k <;> rfl

theorem digit_sub {k : Nat} (h : k ≤ 9) :
    ('0'.toUInt8 + UInt8.ofNat k - '0'.toUInt8).toNat = k := by
  interval_cases k <;> rfl

theorem not_between_of_escapable {b : UInt8} (h : b ∈ escapable) :
    ¬ Byte.between '1' '9' b = true := by
  have hall : escapable.all (¬ Byte.between '1' '9' ·) = true := by decide +kernel
  exact of_decide_eq_true (List.all_eq_true.1 hall b h)

theorem escaped_eq_ok_iff : escaped s = .ok t s' ↔
    ∃ w, s.rest = w ++ s'.rest ∧ Escape w t ∧ t.RefersBack s.closedGroups ∧
      s' = s.withRest s'.rest := by
  rw [escaped, advance?_bind_apply]
  constructor
  · intro h
    cases hrest : s.rest with
    | nil =>
      rw [hrest] at h
      exact absurd h throw_ne_ok
    | cons b rest =>
      rw [hrest] at h
      dsimp only [List.head?_cons, List.tail_cons] at h
      split at h
      · rename_i hdigit
        obtain ⟨k, h₁, h₉, rfl⟩ := between_iff.1 hdigit
        rw [get_bind_apply, digit_sub h₉] at h
        split at h
        · rename_i hclosed
          obtain ⟨rfl, rfl⟩ := pure_eq_ok_iff.1 h
          exact ⟨_, rfl, .backref h₁ h₉, hclosed, rfl⟩
        · exact absurd h throw_ne_ok
      · split at h
        · rename_i hescapable
          obtain ⟨rfl, rfl⟩ := pure_eq_ok_iff.1 h
          exact ⟨_, rfl, .literal (List.contains_iff_mem.1 hescapable), trivial, rfl⟩
        · exact absurd h throw_ne_ok
  · rintro ⟨w, hw, hescape, hclosed, hs'⟩
    rw [hw]
    -- The two kinds of escape start with different bytes, so the reader tells them apart.
    cases hescape with
    | @literal b hb =>
      dsimp only [List.cons_append, List.head?_cons, List.tail_cons, List.nil_append]
      rw [if_neg (not_between_of_escapable hb), if_pos (List.contains_iff_mem.2 hb), ← hs']
      rfl
    | @backref k h₁ h₉ =>
      dsimp only [List.cons_append, List.head?_cons, List.tail_cons, List.nil_append]
      have hclosed : (s.withRest s'.rest).closed.getD k false = true := hclosed
      rw [if_pos (between_iff.2 ⟨k, h₁, h₉, rfl⟩), get_bind_apply, digit_sub h₉, if_pos hclosed,
        ← hs']
      rfl

theorem accepts_escaped : Accepts Anywhere Anywhere levels Escape escaped := by
  intro s s' t _ _
  rw [escaped_eq_ok_iff]
  have hgroups {w : List UInt8} (h : Escape w t) : t.groupCount = 0 := by cases h <;> rfl
  constructor
  · rintro ⟨w, hw, ht, hrefers, hs'⟩
    refine ⟨w, hw, ht, trivial, ?_, ?_⟩
    · cases ht with
      | literal => exact .of_isLeaf rfl
      | backref => exact ⟨rfl, Nat.zero_le _, hrefers⟩
    · rw [hgroups ht, past_zero]
      exact hs'
  · rintro ⟨w, hw, ht, -, hfits, hs'⟩
    rw [hgroups ht, past_zero] at hs'
    exact ⟨w, hw, ht, hfits.refersBack, hs'⟩

/-- A group behind its opening parenthesis. -/
inductive GroupText : List UInt8 → Expr → Prop
  | intro {w : List UInt8} {t : Expr} (index : Nat) : Expression w t →
      GroupText (w ++ [')'.toUInt8]) (.group index t)

/-- A group is read when its body is read one level below. -/
theorem accepts_group {body : Reader Expr}
    (h : Accepts Anywhere AtEnd levels Expression body) :
    Accepts Anywhere Anywhere (levels + 1) GroupText (group body) := by
  intro s s' t _ hsize
  have hsize' : s.opened.closed.size = s.opened.nextGroup := by
    rw [opened, Array.size_push, hsize]
  have hbody (u : Expr) (s₁ : Parser) := h s.opened s₁ u trivial hsize'
  rw [group_eq_ok_iff]
  simp only [hbody, closedGroups_opened]
  constructor
  · rintro ⟨u, s₁, ⟨w, hw, hu, hend, hfits, hs₁⟩, rest, hrest, rfl, rfl⟩
    refine ⟨w ++ [')'.toUInt8], ?_, .intro _ hu, trivial, Expr.Fits.group_iff.2 ⟨rfl, hfits⟩, ?_⟩
    · rw [hrest] at hw
      rw [List.append_assoc]
      exact hw
    · rw [hs₁, closing_past hsize]
      rfl
  · rintro ⟨w, hw, hgroup, -, hfits, hs'⟩
    cases hgroup with
    | @intro w u index hu =>
      -- The text does not give the number of the group; that it fits does.
      obtain ⟨rfl, hinside⟩ := Expr.Fits.group_iff.1 hfits
      rw [List.append_assoc, List.singleton_append] at hw
      refine ⟨u, s.opened.past u.groupCount (')'.toUInt8 :: s'.rest),
        ⟨w, hw, hu, ?_, hinside, rfl⟩, s'.rest, rfl, rfl, ?_⟩
      · rintro b ⟨⟩
        exact ⟨rfl, Nat.succ_ne_zero _⟩
      · rw [closing_past hsize]
        exact hs'

/-- No group is read where none may be opened any more. -/
theorem accepts_throw (e : Error) :
    Accepts Anywhere Anywhere 0 GroupText (throw e : Reader Expr) := by
  intro s s' t _ _
  refine ⟨fun h => absurd h throw_ne_ok, ?_⟩
  rintro ⟨w, -, hgroup, -, hfits, -⟩
  cases hgroup
  exact absurd hfits Expr.Fits.not_group

/-- The first byte tells what kind of atom is read. -/
theorem atom_eq (group : Reader Expr) {b : UInt8} {rest : List UInt8} (h : s.rest = b :: rest) :
    atom group s = match Role.ofByte b with
      | .open => group (s.withRest rest)
      | .star | .plus | .question | .brace => .error .repetition (s.withRest rest)
      | .bracket => bracket (s.withRest rest)
      | .backslash => escaped (s.withRest rest)
      | .dot => .ok .any (s.withRest rest)
      | .caret => .ok (.anchor .lineStart) (s.withRest rest)
      | .dollar => .ok (.anchor .lineEnd) (s.withRest rest)
      | _ => .ok (.literal b) (s.withRest rest) := by
  rw [atom, advance?_bind_apply, h, List.head?_cons, List.tail_cons]
  dsimp only
  cases Role.ofByte b <;> rfl

/-- A piece is an atom in front of something other than a quantifier, or an atom with a quantifier
in front of something other than a second one. -/
theorem piece_eq_ok_iff (group : Reader Expr) : piece group s = .ok t s' ↔
    (atom group s = .ok t s' ∧ NoQuantifier s') ∨
      ∃ u s₁ min max, atom group s = .ok u s₁ ∧ quantifier? s₁ = .ok (some (min, max)) s' ∧
        NoQuantifier s' ∧ t = .loop u min max := by
  rw [piece, bind_eq_ok_iff]
  constructor
  · rintro ⟨u, s₁, hatom, h⟩
    obtain ⟨bounds, s₂, hquantifier, h⟩ := bind_eq_ok_iff.1 h
    split at h
    -- Without a quantifier the piece is the atom itself.
    · obtain ⟨rfl, rfl⟩ := pure_eq_ok_iff.1 h
      obtain ⟨hno, rfl⟩ := quantifier?_eq_none_iff.1 hquantifier
      exact .inl ⟨hatom, hno⟩
    · rename_i min max
      rw [peek?_bind_apply] at h
      dsimp only at h
      split at h
      · exact absurd h throw_ne_ok
      · rename_i hno
        obtain ⟨rfl, rfl⟩ := pure_eq_ok_iff.1 h
        exact .inr ⟨u, s₁, min, max, hatom, hquantifier, Bool.eq_false_iff.2 hno, rfl⟩
  · rintro (⟨hatom, hno⟩ | ⟨u, s₁, min, max, hatom, hquantifier, hno, rfl⟩)
    · exact ⟨t, s', hatom, bind_eq_ok_iff.2 ⟨none, s', quantifier?_eq_none_iff.2 ⟨hno, rfl⟩, rfl⟩⟩
    · refine ⟨u, s₁, hatom, bind_eq_ok_iff.2 ⟨_, s', hquantifier, ?_⟩⟩
      dsimp only
      rw [peek?_bind_apply, if_neg (Bool.eq_false_iff.1 hno)]
      rfl

section Atoms

variable {group : Reader Expr} (hgroup : Accepts Anywhere Anywhere levels GroupText group)

include hgroup

/-- What is read as an atom is one. -/
theorem exists_atom_of_eq_ok (hsize : s.closed.size = s.nextGroup) {b : UInt8}
    {rest : List UInt8} (hrest : s.rest = b :: rest) (hbar : Role.ofByte b ≠ .bar)
    (hclose : Role.ofByte b ≠ .close) (h : atom group s = .ok t s') :
    ∃ w, s.rest = w ++ s'.rest ∧ Atom w t ∧ t.Fits s.nextGroup levels s.closedGroups ∧
      s' = s.past t.groupCount s'.rest := by
  rw [atom_eq group hrest] at h
  -- An atom of several bytes is read by a reader of its own behind the first one.
  have hseveral {x : Reader Expr} {Text : List UInt8 → Expr → Prop}
      (hx : Accepts Anywhere Anywhere levels Text x) (h : x (s.withRest rest) = .ok t s')
      (hatom : ∀ {w}, Text w t → Atom (b :: w) t) :
      ∃ w, s.rest = w ++ s'.rest ∧ Atom w t ∧ t.Fits s.nextGroup levels s.closedGroups ∧
        s' = s.past t.groupCount s'.rest := by
    obtain ⟨w, hw, ht, -, hfits, hs'⟩ := (hx (s.withRest rest) s' t trivial hsize).1 h
    exact ⟨b :: w, hrest.trans (congrArg (b :: ·) hw), hatom ht, hfits, hs'⟩
  -- An atom of one byte opens no group, so nothing but the byte is taken.
  have hone {u : Expr} (hu : u.Fits s.nextGroup levels s.closedGroups ∧ u.groupCount = 0)
      (h : (pure u : Reader Expr) (s.withRest rest) = .ok t s') (hatom : Atom [b] u) :
      ∃ w, s.rest = w ++ s'.rest ∧ Atom w t ∧ t.Fits s.nextGroup levels s.closedGroups ∧
        s' = s.past t.groupCount s'.rest := by
    obtain ⟨rfl, rfl⟩ := EStateM.Result.ok.inj h
    exact ⟨[b], hrest, hatom, hu.1, by rw [hu.2, past_zero]; rfl⟩
  cases hrole : Role.ofByte b with
  | bar => exact absurd hrole hbar
  | close => exact absurd hrole hclose
  | «open» =>
    obtain rfl := Role.eq_of_ofByte hrole rfl
    exact hseveral hgroup h fun ht => by
      cases ht with
      | intro index hu => exact .group index hu
  | bracket =>
    obtain rfl := Role.eq_of_ofByte hrole rfl
    exact hseveral accepts_bracket h .bracket
  | backslash =>
    obtain rfl := Role.eq_of_ofByte hrole rfl
    exact hseveral accepts_escaped h .escape
  | dot =>
    obtain rfl := Role.eq_of_ofByte hrole rfl
    exact hone ⟨.of_isLeaf rfl, rfl⟩ h .any
  | caret =>
    obtain rfl := Role.eq_of_ofByte hrole rfl
    exact hone ⟨.of_anchor _, rfl⟩ h .lineStart
  | dollar =>
    obtain rfl := Role.eq_of_ofByte hrole rfl
    exact hone ⟨.of_anchor _, rfl⟩ h .lineEnd
  | ordinary =>
    rw [hrole] at h
    exact hone ⟨.of_isLeaf rfl, rfl⟩ h (.literal (Role.ofByte_eq_ordinary_iff.1 hrole))
  -- A quantifier in front of which no atom stands is refused.
  | star | plus | question | brace =>
    rw [hrole] at h
    cases h

/-- An atom is read whatever stands behind it. -/
theorem atom_eq_ok (hsize : s.closed.size = s.nextGroup) {b : UInt8} {rest w : List UInt8}
    (hrest : s.rest = b :: rest) (hw : s.rest = w ++ s'.rest) (hatom : Atom w t)
    (hfits : t.Fits s.nextGroup levels s.closedGroups)
    (hs' : s' = s.past t.groupCount s'.rest) : atom group s = .ok t s' := by
  rw [atom_eq group hrest]
  rw [hrest] at hw
  -- The kind of atom fixes the first byte, and this byte the reader.
  cases hatom with
  | group index hu =>
    obtain ⟨rfl, hbehind⟩ := List.cons.inj hw
    exact (hgroup (s.withRest rest) s' _ trivial hsize).2
      ⟨_, hbehind, .intro index hu, trivial, hfits, hs'⟩
  | bracket ht =>
    obtain ⟨rfl, hbehind⟩ := List.cons.inj hw
    exact (accepts_bracket (s.withRest rest) s' _ trivial hsize).2
      ⟨_, hbehind, ht, trivial, hfits, hs'⟩
  | escape ht =>
    obtain ⟨rfl, hbehind⟩ := List.cons.inj hw
    exact (accepts_escaped (s.withRest rest) s' _ trivial hsize).2
      ⟨_, hbehind, ht, trivial, hfits, hs'⟩
  | any | lineStart | lineEnd =>
    obtain ⟨rfl, rfl⟩ := List.cons.inj hw
    rw [hs']
    exact congrArg (EStateM.Result.ok _) (past_zero s _).symm
  | literal hb =>
    obtain ⟨rfl, rfl⟩ := List.cons.inj hw
    rw [Role.ofByte_eq_ordinary_iff.2 hb, hs']
    exact congrArg (EStateM.Result.ok _) (past_zero s _).symm

theorem accepts_atom : Accepts AtPiece Anywhere levels Atom (atom group) := by
  intro s s' t hstart hsize
  obtain ⟨b, hb, hbar, hclose⟩ := hstart
  have hrest := (List.cons_head?_tail hb).symm
  constructor
  · intro h
    obtain ⟨w, hw, ht, hfits, hs'⟩ := exists_atom_of_eq_ok hgroup hsize hrest hbar hclose h
    exact ⟨w, hw, ht, trivial, hfits, hs'⟩
  · rintro ⟨w, hw, ht, -, hfits, hs'⟩
    exact atom_eq_ok hgroup hsize hrest hw ht hfits hs'

theorem accepts_piece : Accepts AtPiece NoQuantifier levels Piece (piece group) := by
  intro s s' t hstart hsize
  -- The atom itself may stop anywhere; what follows it decides between the two kinds of pieces.
  have hatom (u : Expr) (s₁ : Parser) := accepts_atom hgroup s s₁ u hstart hsize
  rw [piece_eq_ok_iff]
  simp only [hatom]
  constructor
  · rintro (⟨⟨w, hw, ht, -, hfits, hs'⟩, hno⟩ |
      ⟨u, s₁, min, max, ⟨w, hw, hu, -, hfits, hs₁⟩, hquantifier, hno, rfl⟩)
    · exact ⟨w, hw, .once ht, hno, hfits, hs'⟩
    · obtain ⟨v, hv, hbounds, hs'⟩ := quantifier?_eq_some_iff.1 hquantifier
      refine ⟨w ++ v, ?_, .repeated hu hbounds, hno, Expr.Fits.loop_iff.2 hfits, ?_⟩
      · rw [hw, hv, List.append_assoc]
      · rw [hs', hs₁]
        rfl
  · rintro ⟨w, hw, hpiece, hno, hfits, hs'⟩
    cases hpiece with
    | once ht => exact .inl ⟨⟨w, hw, ht, trivial, hfits, hs'⟩, hno⟩
    | @repeated w v u min max hu hbounds =>
      rw [List.append_assoc] at hw
      refine .inr ⟨u, s.past u.groupCount (v ++ s'.rest), min, max,
        ⟨w, hw, hu, trivial, Expr.Fits.loop_iff.1 hfits, rfl⟩, ?_, hno, rfl⟩
      exact quantifier?_eq_some_iff.2 ⟨v, rfl, hbounds, hs'⟩

end Atoms

/-! ### Branches and expressions -/

/-- No piece starts with a byte that ends a branch, nor with a quantifier. -/
theorem exists_head_of_piece {w : List UInt8} (h : Piece w t) : ∃ b v, w = b :: v ∧
    Role.ofByte b ≠ .bar ∧ Role.ofByte b ≠ .close ∧ (Role.ofByte b).isQuantifier = false := by
  have hatom {w : List UInt8} {t : Expr} (h : Atom w t) : ∃ b v, w = b :: v ∧
      Role.ofByte b ≠ .bar ∧ Role.ofByte b ≠ .close ∧ (Role.ofByte b).isQuantifier = false := by
    cases h with
    | literal hb =>
      rw [← Role.ofByte_eq_ordinary_iff] at hb
      exact ⟨_, _, rfl, by rw [hb]; decide⟩
    | _ => exact ⟨_, _, rfl, by decide⟩
  cases h with
  | once h => exact hatom h
  | repeated h _ =>
    obtain ⟨b, v, rfl, hb⟩ := hatom h
    exact ⟨b, _, rfl, hb⟩

/-- What stands behind a branch is no quantifier. -/
theorem AtBranchEnd.noQuantifier (h : AtBranchEnd s) : NoQuantifier s := by
  unfold NoQuantifier
  cases hrest : s.rest.head? with
  | none => rfl
  | some b =>
    rw [Option.map_some, Option.any_some]
    rcases h b hrest with hb | ⟨hb, -⟩ <;> rw [hb] <;> rfl

/-- The pieces of a branch are read up to where a branch may end. -/
theorem branch_eq_ok_iff {group : Reader Expr} (hmoves : Proceeds levels group) :
    branch group s = .ok t s' ↔ ∃ ts,
      (Repeats (fun b => Role.ofByte b ≠ .bar ∧ Role.ofByte b ≠ .close) (piece group) ts s s' ∧
        AtBranchEnd s') ∧ t = .ofItems ts := by
  rw [branch, bind_eq_ok_iff]
  simp only [manyWhile_eq_ok_iff (moves_piece hmoves).2]
  constructor
  · rintro ⟨ts, s₁, hitems, h⟩
    rw [get_bind_apply, peek?_bind_apply] at h
    split at h
    · exact absurd h throw_ne_ok
    · rename_i hopen
      obtain ⟨rfl, rfl⟩ := pure_eq_ok_iff.1 h
      refine ⟨ts, ⟨hitems, fun b hb => ?_⟩, rfl⟩
      -- The pieces end at a bar or a parenthesis, and a parenthesis is let through inside a group.
      have hstop := of_decide_eq_false (hitems.stop b hb)
      by_cases hbar : Role.ofByte b = .bar
      · exact .inl hbar
      · have hclose : Role.ofByte b = .close := not_not.1 fun hclose => hstop ⟨hbar, hclose⟩
        refine .inr ⟨hclose, fun hdepth => hopen ⟨hdepth, ?_⟩⟩
        rw [hb, Option.map_some, hclose]
  · rintro ⟨ts, ⟨hitems, hend⟩, rfl⟩
    refine ⟨ts, s', hitems, ?_⟩
    rw [get_bind_apply, peek?_bind_apply]
    have hno : ¬ (s'.depth = 0 ∧ s'.rest.head?.map Role.ofByte = some .close) := by
      rintro ⟨hdepth, hclose⟩
      obtain ⟨b, hb, hrole⟩ := Option.map_eq_some_iff.1 hclose
      rcases hend b hb with hbar | ⟨-, hne⟩
      · rw [hrole] at hbar
        cases hbar
      · exact hne hdepth
    rw [if_neg hno]
    rfl

section Branches

variable {group : Reader Expr} (hgroup : Accepts Anywhere Anywhere levels GroupText group)

include hgroup

/-- The pieces of a branch follow each other. -/
theorem repeats_piece_iff (hsize : s.closed.size = s.nextGroup) :
    Repeats (fun b => Role.ofByte b ≠ .bar ∧ Role.ofByte b ≠ .close) (piece group) ts s s' ∧
        AtBranchEnd s' ↔
      ∃ w, s.rest = w ++ s'.rest ∧ Pieces w ts ∧ AtBranchEnd s' ∧
        (Expr.concat ts).Fits s.nextGroup levels s.closedGroups ∧
        s' = s.past (Expr.groupCountAll ts) s'.rest := by
  -- Over the pieces; the reader that is left behind one is where the next one is read.
  induction ts generalizing s with
  | nil =>
    constructor
    · rintro ⟨⟨hstop, rfl⟩, hend⟩
      exact ⟨[], rfl, .nil, hend, .nil, (past_zero _ _).symm⟩
    · rintro ⟨w, hw, hpieces, hend, -, hs'⟩
      cases hpieces
      obtain rfl : s' = s := by
        rw [List.nil_append] at hw
        rw [hs', ← hw]
        exact past_zero s s.rest
      refine ⟨⟨fun b hb => ?_, rfl⟩, hend⟩
      rcases hend b hb with hb | ⟨hb, -⟩ <;> simp [hb]
  | cons t ts ih =>
    constructor
    · rintro ⟨⟨⟨b, hb, hcontinues⟩, s₁, hpiece, hrest⟩, hend⟩
      obtain ⟨w, hw, ht, -, hfits, hs₁⟩ :=
        (accepts_piece hgroup s s₁ t ⟨b, hb, of_decide_eq_true hcontinues⟩ hsize).1 hpiece
      have hsize₁ : s₁.closed.size = s₁.nextGroup := by
        rw [hs₁]
        exact size_past hsize _ _
      obtain ⟨v, hv, hts, -, hfits', hs'⟩ := (ih hsize₁).1 ⟨hrest, hend⟩
      refine ⟨w ++ v, by rw [hw, hv, List.append_assoc], .cons ht hts, hend, ?_, ?_⟩
      · rw [fits_cons_iff hsize s₁.rest, ← hs₁]
        exact ⟨hfits, hfits'⟩
      · rw [hs', hs₁, past_past]
        rfl
    · rintro ⟨w, hw, hpieces, hend, hfits, hs'⟩
      cases hpieces with
      | @cons u v _ _ ht hts =>
        rw [List.append_assoc] at hw
        obtain ⟨hfits, hfits'⟩ := (fits_cons_iff hsize (v ++ s'.rest)).1 hfits
        have hrest := (ih (size_past hsize _ _)).2
          ⟨v, rfl, hts, hend, hfits', by rw [past_past]; exact hs'⟩
        -- What stands behind the first piece is another one or the end of the branch.
        have hno : NoQuantifier (s.past t.groupCount (v ++ s'.rest)) := by
          cases hts with
          | nil => exact hend.noQuantifier
          | cons hnext =>
            obtain ⟨b, _, rfl, -, -, hb⟩ := exists_head_of_piece hnext
            exact hb
        obtain ⟨b, u', rfl, hb⟩ := exists_head_of_piece ht
        have hhead : b ∈ s.rest.head? := by
          rw [hw]
          rfl
        refine ⟨⟨⟨b, hhead, decide_eq_true ⟨hb.1, hb.2.1⟩⟩, _, ?_, hrest.1⟩, hend⟩
        exact (accepts_piece hgroup s _ t ⟨b, hhead, hb.1, hb.2.1⟩ hsize).2
          ⟨_, hw, ht, hno, hfits, rfl⟩

variable (hmoves : Proceeds levels group)

include hmoves

theorem accepts_branch :
    Accepts Anywhere AtBranchEnd levels (fun w t => ∃ ts, Pieces w ts ∧ t = .ofItems ts)
      (branch group) := by
  intro s s' t _ hsize
  rw [branch_eq_ok_iff hmoves]
  simp only [repeats_piece_iff hgroup hsize]
  constructor
  · rintro ⟨ts, ⟨w, hw, hts, hend, hfits, hs'⟩, rfl⟩
    refine ⟨w, hw, ⟨ts, hts, rfl⟩, hend, Expr.Fits.ofItems_iff.2 hfits, ?_⟩
    rw [Expr.groupCount_ofItems]
    exact hs'
  · rintro ⟨w, hw, ⟨ts, hts, rfl⟩, hend, hfits, hs'⟩
    rw [Expr.groupCount_ofItems] at hs'
    exact ⟨ts, ⟨w, hw, hts, hend, Expr.Fits.ofItems_iff.1 hfits, hs'⟩, rfl⟩

/-- Branches follow each other with bars between them. -/
theorem repeats_barBranch_iff (hsize : s.closed.size = s.nextGroup) :
    (∃ s₁, branch group s = .ok t s₁ ∧
        Repeats (Role.ofByte · = .bar) (do let _ ← advance?; branch group) us s₁ s') ↔
      ∃ w, s.rest = w ++ s'.rest ∧ Branches w (t :: us) ∧ AtEnd s' ∧
        (Expr.concat (t :: us)).Fits s.nextGroup levels s.closedGroups ∧
        s' = s.past (Expr.groupCountAll (t :: us)) s'.rest := by
  -- Over the branches behind the first one, which is why that one is kept apart.
  induction us generalizing s t with
  | nil =>
    constructor
    · rintro ⟨s₁, hbranch, ⟨hstop, rfl⟩⟩
      obtain ⟨w, hw, ⟨ts, hts, rfl⟩, hend, hfits, hs'⟩ :=
        (accepts_branch hgroup hmoves s s' t trivial hsize).1 hbranch
      refine ⟨w, hw, .last hts, fun b hb => ?_, Expr.Fits.cons_iff.2 ⟨hfits, .nil⟩, hs'⟩
      exact (hend b hb).resolve_left (of_decide_eq_false (hstop b hb))
    · rintro ⟨w, hw, hbranches, hend, hfits, hs'⟩
      have hbranch : ∃ ts, Pieces w ts ∧ t = .ofItems ts := by
        cases hbranches with
        | last hts => exact ⟨_, hts, rfl⟩
        | bar _ h => cases h
      refine ⟨s', ?_, fun b hb => ?_, rfl⟩
      · exact (accepts_branch hgroup hmoves s s' t trivial hsize).2 ⟨w, hw, hbranch,
          fun b hb => .inr (hend b hb), (Expr.Fits.cons_iff.1 hfits).1, hs'⟩
      -- No bar is left where the branches end.
      · simp [(hend b hb).1]
  | cons u us ih =>
    have hbehind (s₁ s₂ : Parser) : (do let _ ← advance?; branch group) s₁ = .ok u s₂ ↔
        branch group (s₁.withRest s₁.rest.tail) = .ok u s₂ := by rw [advance?_bind_apply]
    constructor
    · rintro ⟨s₁, hbranch, ⟨b, hhead, hbar⟩, s₂, hnext, hothers⟩
      obtain ⟨w, hw, ⟨ts, hts, rfl⟩, -, hfits, hs₁⟩ :=
        (accepts_branch hgroup hmoves s s₁ t trivial hsize).1 hbranch
      have hsize₁ : s₁.closed.size = s₁.nextGroup := by
        rw [hs₁]
        exact size_past hsize _ _
      -- The bar stands between the two readers, so the others start behind it.
      obtain ⟨v, hv, hbranches, hend, hfits', hs'⟩ :=
        (ih (s := s₁.withRest s₁.rest.tail) hsize₁).1 ⟨s₂, (hbehind s₁ s₂).1 hnext, hothers⟩
      obtain rfl := Role.eq_of_ofByte (of_decide_eq_true hbar) rfl
      refine ⟨w ++ '|'.toUInt8 :: v, ?_, .bar hts hbranches, hend, ?_, ?_⟩
      · rw [hw, ← List.cons_head?_tail hhead, List.append_assoc]
        exact congrArg (w ++ '|'.toUInt8 :: ·) hv
      · rw [fits_cons_iff hsize s₁.rest, ← hs₁]
        exact ⟨hfits, hfits'⟩
      · rw [hs', hs₁, past_withRest, past_past]
        rfl
    · rintro ⟨w, hw, hbranches, hend, hfits, hs'⟩
      cases hbranches with
      | @bar x v ts _ hts hbranches =>
        rw [List.append_assoc, List.cons_append] at hw
        obtain ⟨hfits, hfits'⟩ := (fits_cons_iff hsize ('|'.toUInt8 :: (v ++ s'.rest))).1 hfits
        refine ⟨s.past (Expr.ofItems ts).groupCount ('|'.toUInt8 :: (v ++ s'.rest)), ?_, ?_⟩
        · refine (accepts_branch hgroup hmoves s _ _ trivial hsize).2
            ⟨x, hw, ⟨ts, hts, rfl⟩, ?_, hfits, rfl⟩
          rintro b ⟨⟩
          exact .inl rfl
        · obtain ⟨s₂, hnext, hothers⟩ :=
            (ih (s := s.past (Expr.ofItems ts).groupCount (v ++ s'.rest)) (size_past hsize _ _)).2
              ⟨v, rfl, hbranches, hend, hfits', by rw [past_past]; exact hs'⟩
          exact ⟨⟨'|'.toUInt8, rfl, rfl⟩, s₂, (hbehind _ s₂).2 hnext, hothers⟩

theorem accepts_branches : Accepts Anywhere AtEnd levels Expression (branches group) := by
  intro s s' t _ hsize
  simp only [branches, bind_eq_ok_iff, manyWhile_eq_ok_iff (moves_barBranch hmoves).2,
    pure_eq_ok_iff]
  constructor
  · rintro ⟨u, s₁, hfirst, us, s₂, hothers, rfl, rfl⟩
    obtain ⟨w, hw, hbranches, hend, hfits, hs'⟩ :=
      (repeats_barBranch_iff hgroup hmoves hsize).1 ⟨s₁, hfirst, hothers⟩
    refine ⟨w, hw, .ofBranches hbranches, hend, Expr.Fits.ofBranches_iff.2 hfits, ?_⟩
    rw [Expr.groupCount_ofBranches]
    exact hs'
  · rintro ⟨w, hw, hexpression, hend, hfits, hs'⟩
    cases hexpression with
    | @ofBranches _ ts hbranches =>
      obtain ⟨u, us, rfl⟩ : ∃ u us, ts = u :: us := by cases hbranches <;> exact ⟨_, _, rfl⟩
      rw [Expr.groupCount_ofBranches] at hs'
      obtain ⟨s₁, hfirst, hothers⟩ := (repeats_barBranch_iff hgroup hmoves hsize).2
        ⟨w, hw, hbranches, hend, Expr.Fits.ofBranches_iff.1 hfits, hs'⟩
      exact ⟨u, s₁, hfirst, us, s', hothers, rfl, rfl⟩

end Branches

/-- Whatever depth is allowed, an expression is read as the grammar derives it. -/
theorem accepts_expression (levels : Nat) :
    Accepts Anywhere AtEnd levels Expression (expression levels) := by
  induction levels with
  | zero => exact accepts_branches (accepts_throw _) (.throw _)
  | succ levels ih =>
    exact accepts_branches (accepts_group ih) (moves_group (moves_expression levels))

/-- What is left of a pattern is read as one expression, wherever reading is taken up. -/
theorem parse_eq_ok_iff (hsize : s.closed.size = s.nextGroup) : parse s = .ok t s' ↔
    Expression s.rest t ∧ t.Fits s.nextGroup (maxDepth - s.depth) s.closedGroups ∧
      s' = s.past t.groupCount [] := by
  rw [parse, get_bind_apply, bind_eq_ok_iff]
  constructor
  · rintro ⟨u, s₁, hexpression, h⟩
    rw [peek?_bind_apply] at h
    obtain ⟨w, hw, hu, -, hfits, hs₁⟩ := (accepts_expression _ s s₁ u trivial hsize).1 hexpression
    split at h
    · rename_i hnone
      obtain ⟨rfl, rfl⟩ := pure_eq_ok_iff.1 h
      -- Nothing may be left behind the expression, so its text is all there was.
      have hrest : s₁.rest = [] := List.head?_eq_none_iff.1 (Option.isNone_iff_eq_none.1 hnone)
      rw [hrest, List.append_nil] at hw
      rw [hrest] at hs₁
      exact ⟨hw ▸ hu, hfits, hs₁⟩
    · exact absurd h throw_ne_ok
  · rintro ⟨hexpression, hfits, rfl⟩
    refine ⟨t, s.past t.groupCount [], ?_, rfl⟩
    refine (accepts_expression _ s _ t trivial hsize).2
      ⟨s.rest, (List.append_nil _).symm, hexpression, nofun, hfits, rfl⟩

end Parser

/-- A pattern is read as the trees that the grammar derives from it and that fit where no group has
been opened yet. -/
theorem Expr.parse_eq_ok_iff {pattern : List UInt8} {t : Expr} :
    Expr.parse pattern = .ok t ↔ Grammar.Expression pattern t ∧ t.Fits 1 250 ∅ := by
  have hparse {s' : Parser} : Parser.parse (.ofPattern pattern) = .ok t s' ↔
      Grammar.Expression pattern t ∧ t.Fits 1 250 ∅ ∧
        s' = (Parser.ofPattern pattern).past t.groupCount [] := by
    rw [Parser.parse_eq_ok_iff rfl, Parser.closedGroups_ofPattern]
    rfl
  unfold Expr.parse
  constructor
  · intro h
    split at h <;> cases h
    rename_i hok
    obtain ⟨hexpression, hfits, -⟩ := hparse.1 hok
    exact ⟨hexpression, hfits⟩
  · rintro ⟨hexpression, hfits⟩
    rw [hparse.2 ⟨hexpression, hfits, rfl⟩]

/-- A `pattern` is read as a tree `t` if and only if the grammar derives it as an `Expression` for
`t`, the groups have the numbers from 1 in the order of their opening parentheses, they nest at most
250 deep, and `t.RefersBack`: each back-reference names a group that is closed where it stands. -/
theorem Expr.parse_eq_ok_iff_derives (pattern : List UInt8) (t : Expr) :
    Expr.parse pattern = .ok t ↔
      Grammar.Expression pattern t ∧ t.groupIndices = List.range' 1 t.groupCount ∧
        t.nesting ≤ 250 ∧ t.RefersBack ∅ := by
  rw [Expr.parse_eq_ok_iff]
  constructor
  · rintro ⟨hexpression, hfits⟩
    exact ⟨hexpression, hfits.numbered, hfits.nesting_le, hfits.refersBack⟩
  · rintro ⟨hexpression, hnumbered, hnesting, hrefers⟩
    exact ⟨hexpression, hnumbered, hnesting, hrefers⟩

end PosixRegex
