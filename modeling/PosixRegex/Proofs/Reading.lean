import Mathlib.Data.List.Basic
import PosixRegex.Expr.Parser

/-!
# How readers move

A reader leaves a state whether it succeeds or fails, and what holds between this state and the one
it started from differs in the two cases. `Parser.Moves` names a relation for each of them; a reader
moves as its parts do.

- `Parser.Ahead`: only text has been read. The readers below groups move like this, also where they
  fail (`Parser.moves_bracket`, `Parser.moves_quantifier?`, `Parser.moves_escaped`).
- `Parser.Onward`: groups may have been opened and closed as well. What is read as an expression
  closes all groups that it opens, and what is refused leaves no more of them open than may nest
  (`Parser.moves_expression`).
- `Parser.Beyond`: a byte has been read.
-/

namespace PosixRegex.Parser

variable {α β : Type} {x : Reader α} {f : α → Reader β} {s s' s₁ s₂ : Parser}

/-! ### Readers in sequence -/

theorem bind_eq_ok_iff {b : β} :
    (x >>= f) s = .ok b s' ↔ ∃ a s₁, x s = .ok a s₁ ∧ f a s₁ = .ok b s' := by
  simp only [Bind.bind, EStateM.bind]
  cases x s <;> simp

theorem bind_apply_of_ok {a : α} (h : x s = .ok a s₁) : (x >>= f) s = f a s₁ := by
  simp only [Bind.bind, EStateM.bind, h]

theorem bind_eq_error_iff {e : Error} :
    (x >>= f) s = .error e s' ↔
      x s = .error e s' ∨ ∃ a s₁, x s = .ok a s₁ ∧ f a s₁ = .error e s' := by
  simp only [Bind.bind, EStateM.bind]
  cases x s <;> simp

theorem pure_eq_ok_iff {a b : α} : (Pure.pure a : Reader α) s = .ok b s' ↔ a = b ∧ s = s' := by
  simp [Pure.pure, EStateM.pure]

theorem throw_ne_ok {e : Error} {a : α} : (MonadExcept.throw e : Reader α) s ≠ .ok a s' := nofun

/-- A property of readers that holds of those that read nothing, and of a sequence when it holds of
what is in sequence. -/
structure Compositional (P : ∀ {α : Type}, Reader α → Prop) : Prop where
  pure : ∀ {α : Type} (a : α), P (Pure.pure a : Reader α)
  throw : ∀ {α : Type} (e : Error), P (MonadExcept.throw e : Reader α)
  bind : ∀ {α β : Type} {x : Reader α} {f : α → Reader β}, P x → (∀ a, P (f a)) → P (x >>= f)

namespace Compositional

variable {P : ∀ {α : Type}, Reader α → Prop} (hP : Compositional P)

include hP

/-- An element of a bracket expression is told by its first byte, by the kind of its delimiter and
by the name inside. -/
theorem bracketElement (haccept : ∀ c, P (accept c))
    (hdelimited : ∀ delimiter, P (delimited delimiter)) :
    ∃ f, Parser.bracketElement = advance? >>= f ∧ ∀ b, P (f b) := by
  -- The cases are those of the reader: a class, a symbol, an equivalence class, or a byte.
  refine ⟨_, rfl, fun b => ?_⟩
  split
  · split
    · exact hP.pure _
    · refine hP.bind (haccept _) fun _ => ?_
      split
      · refine hP.bind (hdelimited _) fun name => ?_
        split
        · exact hP.pure _
        · exact hP.throw _
      · refine hP.bind (haccept _) fun _ => ?_
        split
        · refine hP.bind (hdelimited _) fun name => ?_
          split
          · exact hP.pure _
          · exact hP.throw _
        · refine hP.bind (haccept _) fun _ => ?_
          split
          · refine hP.bind (hdelimited _) fun name => ?_
            split
            · exact hP.pure _
            · exact hP.throw _
          · exact hP.pure _
  · exact hP.throw _

/-- An entry of a bracket expression is one element, or two with a hyphen between them. -/
theorem bracketEntry (helement : P Parser.bracketElement) (hhyphen : P rangeHyphen) :
    ∃ f, Parser.bracketEntry = Parser.bracketElement >>= f ∧ ∀ a, P (f a) := by
  refine ⟨_, rfl, fun low => hP.bind hhyphen fun hyphen => ?_⟩
  split
  · refine hP.bind helement fun high => ?_
    split
    · split
      · exact hP.pure _
      · exact hP.throw _
    · exact hP.throw _
  · split <;> exact hP.pure _

end Compositional

/-! ### Relations between states -/

/-- A reader leads to states that one relation admits where it succeeds, and to states that another
one admits where it fails. -/
structure Moves (R E : Parser → Parser → Prop) (x : Reader α) : Prop where
  /-- Where the reader succeeds. -/
  of_ok : ∀ {s s' a}, x s = .ok a s' → R s s'
  /-- Where the reader fails. -/
  of_error : ∀ {s s' e}, x s = .error e s' → E s s'

/-- Two relations that hold between the ends of a chain of readers when they hold at its links: one
where all of them succeed, the other where the last one fails. -/
class Motion (R E : Parser → Parser → Prop) : Prop where
  /-- A success that changes nothing. -/
  refl : ∀ s, R s s
  /-- A failure that changes nothing. -/
  fail : ∀ s, E s s
  /-- One success after the other. -/
  trans : ∀ {s s₁ s₂}, R s s₁ → R s₁ s₂ → R s s₂
  /-- A failure after a success. -/
  trans_fail : ∀ {s s₁ s₂}, R s s₁ → E s₁ s₂ → E s s₂
  /-- A success leaves text that was left before. -/
  suffix : ∀ {s s'}, R s s' → s'.rest <:+ s.rest
  /-- So does a failure. -/
  suffix_fail : ∀ {s s'}, E s s' → s'.rest <:+ s.rest

/-- A byte has been read, if there was one. -/
def Beyond (s s' : Parser) : Prop := s'.rest <:+ s.rest.tail

theorem Beyond.length_lt (h : Beyond s s') (hs : s.rest ≠ []) :
    s'.rest.length < s.rest.length := by
  have hle := h.length_le
  rw [List.length_tail] at hle
  have := List.length_pos_iff.2 hs
  omega

/-- A reader that reads a byte first of all. -/
abbrev Consumes (x : Reader α) : Prop := Moves Beyond Beyond x

namespace Moves

variable {R E R₁ E₁ R₂ E₂ : Parser → Parser → Prop}

/-- Readers in sequence move as the relations of the two compose. -/
theorem seq (hx : Moves R₁ E₁ x) (hf : ∀ a, Moves R₂ E₂ (f a))
    (hok : ∀ {s s₁ s₂}, R₁ s s₁ → R₂ s₁ s₂ → R s s₂) (hfail : ∀ {s s₁}, E₁ s s₁ → E s s₁)
    (hlate : ∀ {s s₁ s₂}, R₁ s s₁ → E₂ s₁ s₂ → E s s₂) : Moves R E (x >>= f) where
  of_ok h := by
    obtain ⟨a, s₁, ha, hb⟩ := bind_eq_ok_iff.1 h
    exact hok (hx.of_ok ha) ((hf a).of_ok hb)
  of_error h := by
    -- Either the first reader fails, or it succeeds and the second one fails.
    rcases bind_eq_error_iff.1 h with ha | ⟨a, s₁, ha, hb⟩
    · exact hfail (hx.of_error ha)
    · exact hlate (hx.of_ok ha) ((hf a).of_error hb)

theorem mono (h : Moves R₁ E₁ x) (hR : ∀ {s s'}, R₁ s s' → R s s')
    (hE : ∀ {s s'}, E₁ s s' → E s s') : Moves R E x where
  of_ok hx := hR (h.of_ok hx)
  of_error hx := hE (h.of_error hx)

variable [Motion R E]

theorem pure (a : α) : Moves R E (Pure.pure a : Reader α) where
  of_ok h := by
    obtain ⟨-, rfl⟩ := pure_eq_ok_iff.1 h
    exact Motion.refl E _
  of_error h := nomatch h

theorem throw (e : Error) : Moves R E (MonadExcept.throw e : Reader α) where
  of_ok h := absurd h throw_ne_ok
  of_error h := by
    cases h
    exact Motion.fail R _

/-- Nothing follows a failure. -/
theorem throw_bind (e : Error) (f : α → Reader β) : Moves R E (MonadExcept.throw e >>= f) where
  of_ok h := by
    obtain ⟨a, s₁, ha, -⟩ := bind_eq_ok_iff.1 h
    exact absurd ha throw_ne_ok
  of_error h := by
    cases h
    exact Motion.fail R _

theorem get : Moves R E (MonadState.get : Reader Parser) where
  of_ok h := by
    cases h
    exact Motion.refl E _
  of_error h := nomatch h

theorem peek? : Moves R E Parser.peek? where
  of_ok h := by
    cases h
    exact Motion.refl E _
  of_error h := nomatch h

theorem bind (hx : Moves R E x) (hf : ∀ a, Moves R E (f a)) : Moves R E (x >>= f) :=
  seq hx hf (Motion.trans E) id Motion.trans_fail

theorem compositional : Compositional (Moves R E) := ⟨pure, throw, bind⟩

/-- What comes after the first byte does not give the byte back. -/
theorem after (hx : Moves R E x) (hc : Consumes x) (hf : ∀ a, Moves R E (f a)) :
    Moves R E (x >>= f) ∧ Consumes (x >>= f) := by
  refine ⟨bind hx hf, seq hc hf (fun h h' => ?_) id fun h h' => ?_⟩
  · exact (Motion.suffix E h').trans h
  · exact (Motion.suffix_fail R h').trans h

/-- A reader that is repeated moves as it does once. -/
theorem many (h : Moves R E x) (continues : UInt8 → Bool) (allowance : List UInt8) :
    Moves R E (Parser.many continues x allowance) := by
  induction allowance with
  | nil => exact pure []
  | cons _ allowance ih =>
    refine bind peek? fun b => ?_
    split
    · exact pure []
    · split
      · exact bind h fun a => bind ih fun others => pure (a :: others)
      · exact pure []

theorem manyWhile (h : Moves R E x) (continues : UInt8 → Bool) :
    Moves R E (Parser.manyWhile continues x) where
  of_ok hx := (many h continues _).of_ok hx
  of_error hx := (many h continues _).of_error hx

end Moves

/-! ### Reading text -/

/-- A state with another text left to read. -/
def withRest (s : Parser) (rest : List UInt8) : Parser := { s with rest }

@[simp]
theorem withRest_self (s : Parser) : s.withRest s.rest = s := rfl

@[simp]
theorem rest_withRest (s : Parser) (rest : List UInt8) : (s.withRest rest).rest = rest := rfl

@[simp]
theorem withRest_withRest (s : Parser) (rest rest' : List UInt8) :
    (s.withRest rest).withRest rest' = s.withRest rest' := rfl

/-- Only text has been read. -/
def Ahead (s s' : Parser) : Prop := s'.rest <:+ s.rest ∧ s' = s.withRest s'.rest

theorem Ahead.refl (s : Parser) : Ahead s s := ⟨List.suffix_refl _, rfl⟩

theorem Ahead.trans (h : Ahead s s₁) (h' : Ahead s₁ s₂) : Ahead s s₂ :=
  ⟨h'.1.trans h.1, by rw [h'.2, h.2]; rfl⟩

theorem Ahead.of_cons {b : UInt8} {rest : List UInt8} (h : s.rest = b :: rest) :
    Ahead s (s.withRest rest) := by
  refine ⟨?_, rfl⟩
  rw [h]
  exact List.suffix_cons b rest

instance : Motion Ahead Ahead :=
  ⟨Ahead.refl, Ahead.refl, Ahead.trans, Ahead.trans, And.left, And.left⟩

/-- A reader that only reads text, also where it fails. -/
abbrev ReadsOn (x : Reader α) : Prop := Moves Ahead Ahead x

/-- Text has been read, and groups may have been opened: at most as many as may nest are open beyond
those that were open before. Each number that was given out has its entry. -/
structure Onward (levels : Nat) (s s' : Parser) : Prop where
  /-- The text that is left was left before. -/
  suffix : s'.rest <:+ s.rest
  /-- Numbers are only given out. -/
  nextGroup_le : s.nextGroup ≤ s'.nextGroup
  /-- Just the numbers that were given out have entries. -/
  size_closed : s.closed.size = s.nextGroup → s'.closed.size = s'.nextGroup
  /-- What was open stays open. -/
  depth_le : s.depth ≤ s'.depth
  /-- No more groups are open than may nest. -/
  depth_le_add : s'.depth ≤ s.depth + levels

namespace Onward

variable {m n : Nat}

theorem refl (n : Nat) (s : Parser) : Onward n s s :=
  ⟨List.suffix_refl _, Nat.le_refl _, id, Nat.le_refl _, Nat.le_add_right _ _⟩

theorem trans (h : Onward m s s₁) (h' : Onward n s₁ s₂) : Onward (m + n) s s₂ where
  suffix := h'.suffix.trans h.suffix
  nextGroup_le := Nat.le_trans h.nextGroup_le h'.nextGroup_le
  size_closed hs := h'.size_closed (h.size_closed hs)
  depth_le := Nat.le_trans h.depth_le h'.depth_le
  depth_le_add := by
    have := h.depth_le_add
    have := h'.depth_le_add
    omega

theorem mono (h : Onward m s s') (hle : m ≤ n) : Onward n s s' :=
  { h with depth_le_add := Nat.le_trans h.depth_le_add (Nat.add_le_add_left hle _) }

theorem of_ahead (h : Ahead s s') (n : Nat) : Onward n s s' := by
  obtain ⟨hsuffix, hs'⟩ := h
  rw [hs']
  exact ⟨hsuffix, Nat.le_refl _, id, Nat.le_refl _, Nat.le_add_right _ _⟩

theorem depth_eq (h : Onward 0 s s') : s'.depth = s.depth :=
  Nat.le_antisymm h.depth_le_add h.depth_le

end Onward

instance (levels : Nat) : Motion (Onward 0) (Onward levels) where
  refl := Onward.refl 0
  fail := Onward.refl levels
  trans h h' := h.trans h'
  trans_fail h h' := (h.trans h').mono (Nat.le_of_eq (Nat.zero_add _))
  suffix := Onward.suffix
  suffix_fail := Onward.suffix

/-- A reader that closes the groups it opens, and that fails with no more groups open than may
nest. -/
abbrev Proceeds (levels : Nat) (x : Reader α) : Prop := Moves (Onward 0) (Onward levels) x

theorem ReadsOn.proceeds (h : ReadsOn x) (levels : Nat) : Proceeds levels x :=
  h.mono (.of_ahead · 0) (.of_ahead · levels)

variable {levels : Nat}

/-! ### Repeating a reader -/

/-- Items are read one after the other as long as the next byte has a property. -/
def Repeats (continues : UInt8 → Bool) (x : Reader α) : List α → Parser → Parser → Prop
  | [], s, s' => (∀ b ∈ s.rest.head?, continues b = false) ∧ s' = s
  | a :: as, s, s' => (∃ b ∈ s.rest.head?, continues b = true) ∧
      ∃ s₁, x s = .ok a s₁ ∧ Repeats continues x as s₁ s'

/-- Nothing is read where the next byte lacks the property. -/
theorem repeats_of_stop {continues : UInt8 → Bool} (h : ∀ b ∈ s.rest.head?, continues b = false)
    {as : List α} : Repeats continues x as s s' ↔ [] = as ∧ s = s' := by
  cases as with
  | nil => exact ⟨fun hr => ⟨rfl, hr.2.symm⟩, fun hr => ⟨h, hr.2.symm⟩⟩
  | cons a as =>
    refine ⟨fun hr => ?_, nofun⟩
    obtain ⟨⟨b, hb, hcontinues⟩, -⟩ := hr
    rw [h b hb] at hcontinues
    cases hcontinues

/-- Repetition ends where the next byte lacks the property. -/
theorem Repeats.stop {continues : UInt8 → Bool} {as : List α} (h : Repeats continues x as s s') :
    ∀ b ∈ s'.rest.head?, continues b = false := by
  induction as generalizing s with
  | nil =>
    obtain ⟨hstop, rfl⟩ := h
    exact hstop
  | cons a as ih =>
    obtain ⟨-, s₁, -, hrest⟩ := h
    exact ih hrest

/-- Where each item takes a byte, an allowance for all bytes that are left cuts nothing short. -/
theorem many_eq_ok_iff (hx : Consumes x) {continues : UInt8 → Bool} {allowance : List UInt8}
    (hle : s.rest.length ≤ allowance.length) {as : List α} :
    many continues x allowance s = .ok as s' ↔ Repeats continues x as s s' := by
  induction allowance generalizing s as with
  | nil =>
    have hnil : s.rest = [] := List.eq_nil_of_length_eq_zero (Nat.le_zero.1 hle)
    rw [many, pure_eq_ok_iff, repeats_of_stop (by rw [hnil]; exact nofun)]
  | cons c allowance ih =>
    have hpeek {f : Option UInt8 → Reader (List α)} :
        (Parser.peek? >>= f) s = f s.rest.head? s := rfl
    rw [many, hpeek]
    cases hhead : s.rest.head? with
    | none => rw [pure_eq_ok_iff, repeats_of_stop (by rw [hhead]; exact nofun)]
    | some b =>
      dsimp only
      split
      · rename_i hb
        -- An item takes a byte, so the allowance that is left is large enough for the others.
        have hothers {a : α} {s₁ : Parser} (h : x s = .ok a s₁) :
            s₁.rest.length ≤ allowance.length := by
          have hlt := (hx.of_ok h).length_lt (List.ne_nil_of_mem (List.mem_of_mem_head? hhead))
          rw [List.length_cons] at hle
          omega
        simp only [bind_eq_ok_iff, pure_eq_ok_iff]
        constructor
        · rintro ⟨a, s₁, ha, others, s₂, hrest, rfl, rfl⟩
          exact ⟨⟨b, hhead, hb⟩, s₁, ha, (ih (hothers ha)).1 hrest⟩
        · intro h
          cases as with
          | nil =>
            rw [h.1 b hhead] at hb
            cases hb
          | cons a as =>
            obtain ⟨-, s₁, ha, hrest⟩ := h
            exact ⟨a, s₁, ha, as, s', (ih (hothers ha)).2 hrest, rfl, rfl⟩
      · rename_i hb
        have hstop : ∀ c ∈ s.rest.head?, continues c = false := by
          intro c hc
          obtain rfl : b = c := Option.some.inj (hhead.symm.trans hc)
          exact Bool.eq_false_iff.2 hb
        rw [pure_eq_ok_iff, repeats_of_stop hstop]

theorem manyWhile_eq_ok_iff (hx : Consumes x) {continues : UInt8 → Bool} {as : List α} :
    manyWhile continues x s = .ok as s' ↔ Repeats continues x as s s' :=
  many_eq_ok_iff hx (Nat.le_refl _)

/-! ### Single bytes -/

theorem advance?_eq (s : Parser) : advance? s = .ok s.rest.head? (s.withRest s.rest.tail) := by
  unfold advance?
  split
  · rename_i hrest
    rw [hrest, List.head?_nil, List.tail_nil, ← hrest, withRest_self]
  · rename_i hrest
    rw [hrest]
    rfl

theorem accept_eq (c : Char) (s : Parser) :
    accept c s = if s.rest.head? = some c.toUInt8 then .ok true (s.withRest s.rest.tail)
      else .ok false s := by
  unfold accept
  cases hrest : s.rest with
  | nil => rfl
  | cons b rest =>
    simp only [List.head?_cons, Option.some.injEq, List.tail_cons]
    rfl

theorem demand_eq (c : Char) (e : Error) (s : Parser) :
    demand c e s = if s.rest.head? = some c.toUInt8 then .ok () (s.withRest s.rest.tail)
      else .error e s := by
  simp only [demand, Bind.bind, EStateM.bind, accept_eq]
  by_cases h : s.rest.head? = some c.toUInt8 <;> simp only [h, if_true, if_false] <;> rfl

/-- A byte that is demanded is read. -/
theorem demand_eq_ok_iff {c : Char} {e : Error} {u : Unit} :
    demand c e s = .ok u s' ↔ s.rest = c.toUInt8 :: s'.rest ∧ s' = s.withRest s'.rest := by
  rw [demand_eq]
  constructor
  · intro h
    split at h
    · rename_i hhead
      cases h
      exact ⟨(List.cons_head?_tail hhead).symm, rfl⟩
    · cases h
  · rintro ⟨hrest, hs'⟩
    rw [hrest, List.head?_cons, if_pos rfl, List.tail_cons, ← hs']

theorem Ahead.tail (s : Parser) : Ahead s (s.withRest s.rest.tail) :=
  ⟨List.tail_suffix s.rest, rfl⟩

theorem moves_advance? : ReadsOn advance? where
  of_ok h := by
    rw [advance?_eq] at h
    cases h
    exact .tail _
  of_error h := by
    rw [advance?_eq] at h
    cases h

theorem moves_accept (c : Char) : ReadsOn (accept c) where
  of_ok h := by
    rw [accept_eq] at h
    split at h <;> cases h
    · exact .tail _
    · exact .refl _
  of_error h := by
    rw [accept_eq] at h
    split at h <;> cases h

theorem moves_demand (c : Char) (e : Error) : ReadsOn (demand c e) := by
  refine .bind (moves_accept c) fun found => ?_
  split
  · exact .pure ()
  · exact .throw e

theorem consumes_advance? : Consumes advance? where
  of_ok h := by
    rw [advance?_eq] at h
    cases h
    exact List.suffix_refl _
  of_error h := by
    rw [advance?_eq] at h
    cases h

/-! ### Repetitions and bracket expressions -/

/-- Digits are read from the front of a text. -/
theorem countPrefix_suffix (count : Option Nat) (text : List UInt8) :
    (countPrefix count text).2 <:+ text := by
  induction text generalizing count with
  | nil => exact List.suffix_refl _
  | cons b text ih =>
    unfold countPrefix
    split
    · dsimp only
      split
      · exact List.suffix_cons b text
      · exact (ih _).trans (List.suffix_cons b text)
    · exact List.suffix_refl _

theorem moves_count? : ReadsOn count? where
  of_ok {s s' a} h := by
    have hsuffix := countPrefix_suffix none s.rest
    unfold count? at h
    split at h <;> cases h
    rename_i heq
    rw [heq] at hsuffix
    exact ⟨hsuffix, rfl⟩
  of_error {s s' e} h := by
    have hsuffix := countPrefix_suffix none s.rest
    unfold count? at h
    split at h <;> cases h
    rename_i heq
    rw [heq] at hsuffix
    exact ⟨hsuffix, rfl⟩

theorem moves_interval : ReadsOn interval := by
  -- However the upper bound is found, the bounds are compared after the closing brace.
  have hclose (low max : Option Nat) : ReadsOn (do
      demand '\x7d' .repetition
      let min := low.getD 0
      if max.any (· < min) then throw .repetition
      return (min, max)) := by
    refine .bind (moves_demand _ _) fun _ => ?_
    dsimp only
    split
    · exact .throw_bind _ _
    · exact .pure _
  refine .bind .get fun _ => ?_
  dsimp only
  split
  · refine .bind moves_count? fun low => .bind (moves_accept _) fun comma => ?_
    split
    · exact .bind moves_count? fun max => hclose low max
    · split
      · exact .bind (.pure _) fun max => hclose _ max
      · exact .throw_bind _ _
  · exact .throw_bind _ _

theorem moves_quantifier? : ReadsOn quantifier? := by
  refine .bind .peek? fun b => ?_
  split
  · exact .bind moves_advance? fun _ => .pure _
  · exact .bind moves_advance? fun _ => .pure _
  · exact .bind moves_advance? fun _ => .pure _
  · exact .bind moves_advance? fun _ => .bind moves_interval fun bounds => .pure _
  · exact .pure _

/-- The name in a delimited element and its end are read from the front of a text. -/
theorem splitAtClose_suffix {delimiter : UInt8} {text name rest : List UInt8}
    (h : splitAtClose delimiter text = some (name, rest)) : rest <:+ text := by
  fun_induction splitAtClose delimiter text generalizing name with
  | case1 a b text hab =>
    cases h
    exact ⟨[a, b], rfl⟩
  | case2 a b text hab ih =>
    obtain ⟨⟨name', rest'⟩, hsplit, heq⟩ := Option.map_eq_some_iff.1 h
    cases heq
    exact (ih hsplit).trans (List.suffix_cons a _)
  | case3 text hshort => cases h

theorem moves_delimited (delimiter : UInt8) : ReadsOn (delimited delimiter) where
  of_ok h := by
    unfold delimited at h
    split at h <;> cases h
    rename_i hsplit
    exact ⟨splitAtClose_suffix hsplit, rfl⟩
  of_error h := by
    unfold delimited at h
    split at h <;> cases h
    exact .refl _

/-- An element of a bracket expression takes a byte at least. -/
theorem moves_bracketElement : ReadsOn bracketElement ∧ Consumes bracketElement := by
  obtain ⟨f, heq, hf⟩ :=
    (Moves.compositional (R := Ahead) (E := Ahead)).bracketElement moves_accept moves_delimited
  rw [heq]
  exact Moves.after moves_advance? consumes_advance? hf

theorem moves_rangeHyphen : ReadsOn rangeHyphen where
  of_ok h := by
    unfold rangeHyphen at h
    split at h
    · rename_i hrest
      split at h <;> cases h
      · exact .of_cons hrest
      · exact .refl _
    · cases h
      exact .refl _
  of_error h := by
    unfold rangeHyphen at h
    split at h
    · split at h <;> cases h
    · cases h

theorem moves_bracketEntry : ReadsOn bracketEntry ∧ Consumes bracketEntry := by
  obtain ⟨f, heq, hf⟩ :=
    (Moves.compositional (R := Ahead) (E := Ahead)).bracketEntry moves_bracketElement.1
      moves_rangeHyphen
  rw [heq]
  exact Moves.after moves_bracketElement.1 moves_bracketElement.2 hf

theorem moves_bracket : ReadsOn bracket := by
  refine .bind (moves_accept _) fun negated => .bind moves_bracketEntry.1 fun first => ?_
  refine .bind (.manyWhile moves_bracketEntry.1 _) fun others => ?_
  exact .bind (moves_demand _ _) fun _ => .pure _

theorem moves_escaped : ReadsOn escaped := by
  refine .bind moves_advance? fun b => ?_
  split
  · split
    · refine .bind .get fun _ => ?_
      split
      · exact .pure _
      · exact .throw _
    · split
      · exact .pure _
      · exact .throw _
  · exact .throw _

/-! ### Groups and expressions -/

/-- A state after the next group has been opened. -/
def opened (s : Parser) : Parser :=
  { s with depth := s.depth + 1, nextGroup := s.nextGroup + 1, closed := s.closed.push false }

/-- A state after a group has been closed. -/
def closing (s : Parser) (index : Nat) : Parser :=
  { s with depth := s.depth - 1, closed := s.closed.setIfInBounds index true }

theorem onward_opened (s : Parser) : Onward 1 s s.opened where
  suffix := List.suffix_refl _
  nextGroup_le := Nat.le_succ _
  size_closed hs := by rw [opened, Array.size_push, hs]
  depth_le := Nat.le_succ _
  depth_le_add := Nat.le_refl _

/-- What a group does to a state, if it is read: its number is given out, its body is read with one
more group open, and the group is closed behind it. -/
theorem group_eq_ok_iff {body : Reader Expr} {t : Expr} :
    group body s = .ok t s' ↔ ∃ u s₁, body s.opened = .ok u s₁ ∧
      ∃ rest, s₁.rest = ')'.toUInt8 :: rest ∧ t = .group s.nextGroup u ∧
        s' = (s₁.withRest rest).closing s.nextGroup := by
  constructor
  · intro h
    obtain ⟨index, s₀, hopen, h⟩ := bind_eq_ok_iff.1 h
    obtain ⟨rfl, rfl⟩ : s.nextGroup = index ∧ s.opened = s₀ := EStateM.Result.ok.inj hopen
    obtain ⟨u, s₁, hbody, h⟩ := bind_eq_ok_iff.1 h
    obtain ⟨_, s₂, hdemand, h⟩ := bind_eq_ok_iff.1 h
    obtain ⟨hrest, hs₂⟩ := demand_eq_ok_iff.1 hdemand
    obtain ⟨rfl, rfl⟩ := EStateM.Result.ok.inj h
    exact ⟨u, s₁, hbody, s₂.rest, hrest, rfl, congrArg (closing · s.nextGroup) hs₂⟩
  · rintro ⟨u, s₁, hbody, rest, hrest, rfl, rfl⟩
    refine bind_eq_ok_iff.2 ⟨s.nextGroup, s.opened, rfl, ?_⟩
    refine bind_eq_ok_iff.2 ⟨u, s₁, hbody, ?_⟩
    exact bind_eq_ok_iff.2 ⟨(), s₁.withRest rest, demand_eq_ok_iff.2 ⟨hrest, rfl⟩, rfl⟩

/-- A group that is refused is refused in its body or behind it. -/
theorem exists_body_of_group {body : Reader Expr} {e : Error} (h : group body s = .error e s') :
    body s.opened = .error e s' ∨ ∃ u, body s.opened = .ok u s' := by
  rcases bind_eq_error_iff.1 h with hopen | ⟨index, s₀, hopen, h⟩
  · cases hopen
  obtain ⟨rfl, rfl⟩ : s.nextGroup = index ∧ s.opened = s₀ := EStateM.Result.ok.inj hopen
  rcases bind_eq_error_iff.1 h with hbody | ⟨u, s₁, hbody, h⟩
  · exact .inl hbody
  rcases bind_eq_error_iff.1 h with hdemand | ⟨_, s₂, -, h⟩
  · rw [demand_eq] at hdemand
    split at hdemand <;> cases hdemand
    exact .inr ⟨u, hbody⟩
  · cases h

/-- A group may nest one level deeper than its body. -/
theorem moves_group {body : Reader Expr} (h : Proceeds levels body) :
    Proceeds (levels + 1) (group body) where
  of_ok {s s' t} ht := by
    obtain ⟨u, s₁, hbody, rest, hrest, -, rfl⟩ := group_eq_ok_iff.1 ht
    -- The body leaves as many groups open as it found, one more than are open around the group.
    have hinside := (h.of_ok hbody).trans (.of_ahead (.of_cons hrest) 0)
    have hdepth : (s₁.withRest rest).depth = s.depth + 1 := hinside.depth_eq
    have hmoved := (onward_opened s).trans hinside
    refine ⟨hmoved.suffix, hmoved.nextGroup_le, fun hs => ?_, ?_, ?_⟩
    · rw [closing, Array.size_setIfInBounds]
      exact hmoved.size_closed hs
    · rw [closing, hdepth]
      exact Nat.le_refl _
    · rw [closing, hdepth]
      exact Nat.le_refl _
  of_error {s s' e} he := by
    -- The group itself stays open, whether its body or its end is refused.
    rcases exists_body_of_group he with hbody | ⟨u, hbody⟩
    · exact ((onward_opened s).trans (h.of_error hbody)).mono (Nat.le_of_eq (Nat.add_comm _ _))
    · exact ((onward_opened s).trans (h.of_ok hbody)).mono (Nat.le_add_left _ _)

section Expressions

variable {group : Reader Expr} (h : Proceeds levels group)

include h

theorem moves_atom : Proceeds levels (atom group) ∧ Consumes (atom group) := by
  refine Moves.after (moves_advance?.proceeds levels) consumes_advance? fun b => ?_
  split
  · split
    · exact h
    · exact .throw _
    · exact .throw _
    · exact .throw _
    · exact .throw _
    · exact moves_bracket.proceeds levels
    · exact moves_escaped.proceeds levels
    all_goals exact .pure _
  · exact .pure _

theorem moves_piece : Proceeds levels (piece group) ∧ Consumes (piece group) := by
  refine Moves.after (moves_atom h).1 (moves_atom h).2 fun t => ?_
  refine .bind (moves_quantifier?.proceeds levels) fun bounds => ?_
  split
  · exact .pure _
  · refine .bind .peek? fun b => ?_
    dsimp only
    split
    · exact .throw_bind _ _
    · exact .pure _

theorem moves_branch : Proceeds levels (branch group) := by
  refine .bind (.manyWhile (moves_piece h).1 _) fun items => .bind .get fun _ => ?_
  refine .bind .peek? fun b => ?_
  dsimp only
  split
  · exact .throw_bind _ _
  · exact .pure _

/-- A further branch is read together with the bar in front of it. -/
theorem moves_barBranch : Proceeds levels (do let _ ← advance?; branch group) ∧
    Consumes (do let _ ← advance?; branch group) :=
  Moves.after (moves_advance?.proceeds levels) consumes_advance? fun _ => moves_branch h

theorem moves_branches : Proceeds levels (branches group) :=
  .bind (moves_branch h) fun _ => .bind (.manyWhile (moves_barBranch h).1 _) fun _ => .pure _

end Expressions

/-- Whatever depth is allowed, no more groups than that are left open. -/
theorem moves_expression (levels : Nat) : Proceeds levels (expression levels) := by
  induction levels with
  | zero => exact moves_branches (.throw _)
  | succ levels ih => exact moves_branches (moves_group ih)

end PosixRegex.Parser
