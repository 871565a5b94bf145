import PosixRegex.Proofs.Grammar
import PosixRegex.Proofs.Reading

/-!
# What is read below groups

Counts, quantifiers and bracket expressions are read just as the grammar derives them, from any
state and whatever text is behind them. A count ends where no digit follows; a bracket expression
looks at no byte behind its closing bracket.

- `Parser.quantifier?_eq_some_iff`, `Parser.quantifier?_eq_none_iff`: quantifiers.
- `Parser.bracket_eq_ok_iff`: bracket expressions.
-/

namespace PosixRegex

open Grammar

namespace Grammar

/-- More digits make a number no smaller. -/
theorem le_decimal (n : Nat) (digits : List UInt8) : n ≤ decimal n digits := by
  induction digits generalizing n with
  | nil => exact Nat.le_refl n
  | cons b digits ih =>
    refine Nat.le_trans ?_ (ih _)
    dsimp only
    omega

end Grammar

namespace Role

/-- The byte that plays a part alone. -/
def char? : Role → Option Char
  | .bar => some '|'
  | .open => some '('
  | .close => some ')'
  | .star => some '*'
  | .plus => some '+'
  | .question => some '?'
  | .brace => some '\x7b'
  | .bracket => some '['
  | .backslash => some '\\'
  | .dot => some '.'
  | .caret => some '^'
  | .dollar => some '$'
  | .ordinary => none

theorem toUInt8_ofUInt8 (b : UInt8) : (Char.ofUInt8 b).toUInt8 = b := by
  show b.toUInt32.toUInt8 = b
  simp

/-- A byte that plays such a part is that byte. -/
theorem eq_of_ofByte {b : UInt8} {role : Role} {c : Char} (h : ofByte b = role)
    (hc : role.char? = some c) : b = c.toUInt8 := by
  subst h
  unfold ofByte at hc
  split at hc <;> rename_i hb <;> cases hc <;> rw [← hb, toUInt8_ofUInt8]

/-- The ordinary bytes stand for themselves. -/
theorem ofByte_eq_ordinary_iff {b : UInt8} : ofByte b = .ordinary ↔ b ∉ special := by
  constructor
  · intro h hb
    have hall : special.all (ofByte · ≠ .ordinary) = true := by decide +kernel
    exact of_decide_eq_true (List.all_eq_true.1 hall b hb) h
  · intro h
    cases hrole : ofByte b with
    | ordinary => rfl
    | _ =>
      rw [eq_of_ofByte hrole rfl] at h
      exact absurd (by decide) h

end Role

namespace Parser

variable {s s' : Parser}

/-! ### Counts and quantifiers -/

/-- A text falls into digits and a rest that starts with none. -/
structure DigitsThen (text w rest : List UInt8) : Prop where
  /-- The text is made of the two. -/
  text_eq : text = w ++ rest
  /-- The first part has digits only. -/
  isDigit : ∀ b ∈ w, Byte.isDigit b = true
  /-- The digits do not go on. -/
  stop : ∀ b ∈ rest.head?, Byte.isDigit b = false

/-- The count that digits make of one that is read already: without digits it stays, and with digits
it must not grow too large. -/
def Counts (count : Option Nat) (w : List UInt8) (c : Option Nat) : Prop :=
  w = [] ∧ c = count ∨
    w ≠ [] ∧ decimal (count.getD 0) w ≤ 255 ∧ c = some (decimal (count.getD 0) w)

/-- Where no digit is next there are no digits. -/
theorem digitsThen_iff_of_stop {text w rest : List UInt8}
    (h : ∀ b ∈ text.head?, Byte.isDigit b = false) :
    DigitsThen text w rest ↔ w = [] ∧ text = rest := by
  constructor
  · rintro ⟨rfl, hdigits, -⟩
    cases w with
    | nil => exact ⟨rfl, rfl⟩
    | cons b w =>
      have hb := hdigits b List.mem_cons_self
      rw [h b rfl] at hb
      cases hb
  · rintro ⟨rfl, rfl⟩
    exact ⟨rfl, nofun, h⟩

/-- A digit is one of the digits. -/
theorem digitsThen_cons_iff {b : UInt8} (hb : Byte.isDigit b = true) {text w rest : List UInt8} :
    DigitsThen (b :: text) w rest ↔ ∃ v, w = b :: v ∧ DigitsThen text v rest := by
  constructor
  · rintro ⟨htext, hdigits, hstop⟩
    cases w with
    | nil =>
      rw [List.nil_append] at htext
      rw [hstop b (by rw [← htext]; rfl)] at hb
      cases hb
    | cons a v =>
      obtain ⟨rfl, hv⟩ := List.cons.inj htext
      exact ⟨v, rfl, hv, (List.forall_mem_cons.1 hdigits).2, hstop⟩
  · rintro ⟨v, rfl, htext, hdigits, hstop⟩
    exact ⟨congrArg (b :: ·) htext, List.forall_mem_cons.2 ⟨hb, hdigits⟩, hstop⟩

/-- A further digit makes a count that may still grow. -/
theorem counts_cons_iff {count c : Option Nat} {b : UInt8} {v : List UInt8} :
    Counts count (b :: v) c ↔
      count.getD 0 * 10 + (b - '0'.toUInt8).toNat ≤ 255 ∧
        Counts (some (count.getD 0 * 10 + (b - '0'.toUInt8).toNat)) v c := by
  constructor
  · intro h
    obtain ⟨-, hle, rfl⟩ := h.resolve_left fun h => nomatch h.1
    -- The digits that follow make the number no smaller.
    refine ⟨Nat.le_trans (le_decimal _ v) hle, ?_⟩
    cases v with
    | nil => exact .inl ⟨rfl, rfl⟩
    | cons a v => exact .inr ⟨nofun, hle, rfl⟩
  · rintro ⟨hle, ⟨rfl, rfl⟩ | ⟨-, hle', rfl⟩⟩
    · exact .inr ⟨nofun, hle, rfl⟩
    · exact .inr ⟨nofun, hle', rfl⟩

/-- Digits are read up to the first byte that is none, onto the number that is read already. -/
theorem countPrefix_eq_ok_iff {count c : Option Nat} {text rest : List UInt8} :
    countPrefix count text = (.ok c, rest) ↔ ∃ w, DigitsThen text w rest ∧ Counts count w c := by
  -- Without a digit the count is left as it is.
  have hstop {count : Option Nat} {text : List UInt8}
      (h : ∀ b ∈ text.head?, Byte.isDigit b = false) :
      (Except.ok count, text) = ((Except.ok c : Except Error (Option Nat)), rest) ↔
        ∃ w, DigitsThen text w rest ∧ Counts count w c := by
    constructor
    · rintro ⟨⟩
      exact ⟨[], (digitsThen_iff_of_stop h).2 ⟨rfl, rfl⟩, .inl ⟨rfl, rfl⟩⟩
    · rintro ⟨w, hdigits, hcounts⟩
      obtain ⟨rfl, rfl⟩ := (digitsThen_iff_of_stop h).1 hdigits
      obtain ⟨-, rfl⟩ := hcounts.resolve_right fun h => h.1 rfl
      rfl
  induction text generalizing count with
  | nil => exact hstop nofun
  | cons b text ih =>
    rw [countPrefix]
    by_cases hb : Byte.isDigit b = true
    · rw [if_pos hb]
      dsimp only
      split
      · -- The count has grown too large, and no digits behind make it smaller.
        rename_i hlarge
        refine ⟨nofun, ?_⟩
        rintro ⟨w, hdigits, hcounts⟩
        obtain ⟨v, rfl, -⟩ := (digitsThen_cons_iff hb).1 hdigits
        exact absurd (counts_cons_iff.1 hcounts).1 (Nat.not_le_of_lt hlarge)
      · rename_i hsmall
        refine ih.trans ?_
        constructor
        · rintro ⟨v, hdigits, hcounts⟩
          exact ⟨b :: v, (digitsThen_cons_iff hb).2 ⟨v, rfl, hdigits⟩,
            counts_cons_iff.2 ⟨Nat.le_of_not_lt hsmall, hcounts⟩⟩
        · rintro ⟨w, hdigits, hcounts⟩
          obtain ⟨v, rfl, hothers⟩ := (digitsThen_cons_iff hb).1 hdigits
          exact ⟨v, hothers, (counts_cons_iff.1 hcounts).2⟩
    · rw [if_neg hb]
      refine hstop ?_
      rintro c ⟨⟩
      exact Bool.eq_false_iff.2 hb

/-- What counts from nothing is a count that may be missing. -/
theorem counts_none_iff {w : List UInt8} {c : Option Nat}
    (hdigits : ∀ b ∈ w, Byte.isDigit b = true) : Counts none w c ↔ Bound w c := by
  constructor
  · rintro (⟨rfl, rfl⟩ | ⟨hne, hle, rfl⟩)
    · exact .missing
    · exact .given ⟨hne, hdigits, rfl, hle⟩
  · intro h
    cases h with
    | missing => exact .inl ⟨rfl, rfl⟩
    | given h =>
      obtain ⟨hne, -, rfl, hle⟩ := h
      exact .inr ⟨hne, hle, rfl⟩

theorem isDigit_of_bound {w : List UInt8} {c : Option Nat} (h : Bound w c) :
    ∀ b ∈ w, Byte.isDigit b = true := by
  cases h with
  | missing => exact nofun
  | given h => exact h.isDigit

/-- A count is read up to the first byte that is no digit. -/
theorem count?_eq_ok_iff {c : Option Nat} :
    count? s = .ok c s' ↔ ∃ w, s.rest = w ++ s'.rest ∧ Bound w c ∧
      (∀ b ∈ s'.rest.head?, Byte.isDigit b = false) ∧ s' = s.withRest s'.rest := by
  constructor
  · intro h
    unfold count? at h
    split at h <;> cases h
    rename_i hcount
    obtain ⟨w, ⟨htext, hdigits, hend⟩, hcounts⟩ := countPrefix_eq_ok_iff.1 hcount
    exact ⟨w, htext, (counts_none_iff hdigits).1 hcounts, hend, rfl⟩
  · rintro ⟨w, htext, hbound, hend, hs'⟩
    have hdigits := isDigit_of_bound hbound
    have hcount : countPrefix none s.rest = (.ok c, s'.rest) :=
      countPrefix_eq_ok_iff.2 ⟨w, ⟨htext, hdigits, hend⟩, (counts_none_iff hdigits).2 hbound⟩
    rw [hs']
    simp only [count?, hcount]
    rfl

theorem get_bind_apply {α : Type} (f : Parser → Reader α) (s : Parser) :
    (get >>= f) s = f s s := rfl

theorem peek?_bind_apply {α : Type} (f : Option UInt8 → Reader α) (s : Parser) :
    (peek? >>= f) s = f s.rest.head? s := rfl

theorem advance?_bind_apply {α : Type} (f : Option UInt8 → Reader α) (s : Parser) :
    (advance? >>= f) s = f s.rest.head? (s.withRest s.rest.tail) := by
  simp only [Bind.bind, EStateM.bind, advance?_eq]

theorem map_eq_ok_iff {α β : Type} {x : Reader α} {f : α → β} {b : β} :
    (f <$> x) s = .ok b s' ↔ ∃ a, x s = .ok a s' ∧ f a = b := by
  simp only [Functor.map, EStateM.map]
  cases x s <;> simp [and_comm]

/-- How an interval ends, once its bounds are read. -/
theorem intervalEnd_eq_ok_iff {low max max' : Option Nat} {min : Nat} :
    (do
      demand '\x7d' .repetition
      let min := low.getD 0
      if max.any (· < min) then throw .repetition
      return (min, max) : Reader (Nat × Option Nat)) s = .ok (min, max') s' ↔
    s.rest = '\x7d'.toUInt8 :: s'.rest ∧ s' = s.withRest s'.rest ∧
      (∀ n ∈ max, low.getD 0 ≤ n) ∧ low.getD 0 = min ∧ max = max' := by
  have hany : max.any (· < low.getD 0) = true ↔ ¬ ∀ n ∈ max, low.getD 0 ≤ n := by
    cases max <;> simp
  simp only [bind_eq_ok_iff, demand_eq_ok_iff]
  constructor
  · rintro ⟨_, s₁, ⟨hrest, hs₁⟩, h⟩
    split at h
    · exact absurd h throw_ne_ok
    · rename_i hle
      obtain ⟨heq, rfl⟩ := pure_eq_ok_iff.1 h
      obtain ⟨hmin, hmax⟩ := Prod.mk.inj heq
      exact ⟨hrest, hs₁, not_not.1 fun hlt => hle (hany.2 hlt), hmin, hmax⟩
  · rintro ⟨hrest, hs', hle, rfl, rfl⟩
    refine ⟨(), s', ⟨hrest, hs'⟩, ?_⟩
    rw [if_neg fun hlt => hany.1 hlt hle]
    rfl

/-- What is read as an interval ends with its closing brace. -/
theorem exists_interval_of_eq_ok {min : Nat} {max : Option Nat}
    (h : interval s = .ok (min, max) s') :
    ∃ w, s.rest = w ++ s'.rest ∧ Interval w min max ∧ s' = s.withRest s'.rest := by
  rw [interval, get_bind_apply] at h
  dsimp only at h
  split at h
  · obtain ⟨low, s₁, hlow, h⟩ := bind_eq_ok_iff.1 h
    obtain ⟨u, hu, hbound, -, hs₁⟩ := count?_eq_ok_iff.1 hlow
    obtain ⟨comma, s₂, hcomma, h⟩ := bind_eq_ok_iff.1 h
    rw [accept_eq] at hcomma
    -- Behind a comma there may be a second count; without one the first count stands for both.
    split at hcomma
    · rename_i hhead
      cases hcomma
      have hrest₁ := (List.cons_head?_tail hhead).symm
      obtain ⟨max', s₂, hmax, h⟩ := bind_eq_ok_iff.1 h
      obtain ⟨v, hv, hbound', -, hs₂⟩ := count?_eq_ok_iff.1 hmax
      obtain ⟨hrest, hs', hle, rfl, rfl⟩ := intervalEnd_eq_ok_iff.1 h
      rw [rest_withRest] at hv
      refine ⟨u ++ ','.toUInt8 :: (v ++ ['\x7d'.toUInt8]), ?_, .range hbound hbound' hle, ?_⟩
      · rw [hu, hrest₁, hv, hrest]
        simp only [List.append_assoc, List.cons_append, List.nil_append]
      · rw [hs', hs₂, hs₁]
        rfl
    · cases hcomma
      simp only [Bool.false_eq_true, if_false] at h
      split at h
      · rename_i n
        obtain ⟨max', s₂, hmax, h⟩ := bind_eq_ok_iff.1 h
        obtain ⟨rfl, rfl⟩ := pure_eq_ok_iff.1 hmax
        obtain ⟨hrest, hs', hle, rfl, rfl⟩ := intervalEnd_eq_ok_iff.1 h
        cases hbound with
        | given hcount =>
          refine ⟨u ++ ['\x7d'.toUInt8], ?_, .exactly hcount, ?_⟩
          · rw [hu, hrest, List.append_assoc, List.singleton_append]
          · rw [hs', hs₁]
            rfl
      · obtain ⟨_, _, hthrow, -⟩ := bind_eq_ok_iff.1 h
        exact absurd hthrow throw_ne_ok
  · obtain ⟨_, _, hthrow, -⟩ := bind_eq_ok_iff.1 h
    exact absurd hthrow throw_ne_ok

/-- An interval is read whatever stands behind its closing brace. -/
theorem interval_eq_ok {w : List UInt8} {min : Nat} {max : Option Nat}
    (hw : s.rest = w ++ s'.rest) (hinterval : Interval w min max) (hs' : s' = s.withRest s'.rest) :
    interval s = .ok (min, max) s' := by
  rw [interval, get_bind_apply]
  dsimp only
  -- The brace that is looked for first is the one that ends the interval.
  have hbrace : s.rest.contains '\x7d'.toUInt8 = true := by
    rw [hw]
    cases hinterval <;> simp
  rw [if_pos hbrace]
  cases hinterval with
  | @exactly w _ hcount =>
    rw [List.append_assoc, List.singleton_append] at hw
    refine bind_eq_ok_iff.2 ⟨some min, s.withRest ('\x7d'.toUInt8 :: s'.rest),
      count?_eq_ok_iff.2 ⟨w, hw, .given hcount, ?_, rfl⟩, ?_⟩
    · rintro b ⟨⟩
      rfl
    · refine bind_eq_ok_iff.2 ⟨false, _, accept_eq _ _, ?_⟩
      refine bind_eq_ok_iff.2 ⟨some min, _, rfl, ?_⟩
      refine intervalEnd_eq_ok_iff.2 ⟨rfl, hs', ?_, rfl, rfl⟩
      rintro m ⟨⟩
      exact Nat.le_refl min
  | @range u v low max hlow hmax hle =>
    simp only [List.append_assoc, List.cons_append] at hw
    refine bind_eq_ok_iff.2 ⟨low, s.withRest (','.toUInt8 :: (v ++ '\x7d'.toUInt8 :: s'.rest)),
      count?_eq_ok_iff.2 ⟨u, hw, hlow, ?_, rfl⟩, ?_⟩
    · rintro b ⟨⟩
      rfl
    · refine bind_eq_ok_iff.2 ⟨true, _, accept_eq _ _, ?_⟩
      refine bind_eq_ok_iff.2 ⟨max, s.withRest ('\x7d'.toUInt8 :: s'.rest),
        count?_eq_ok_iff.2 ⟨v, rfl, hmax, ?_, rfl⟩, ?_⟩
      · rintro b ⟨⟩
        rfl
      · exact intervalEnd_eq_ok_iff.2 ⟨rfl, hs', hle, rfl, rfl⟩

/-- An interval is read up to its closing brace. -/
theorem interval_eq_ok_iff {min : Nat} {max : Option Nat} :
    interval s = .ok (min, max) s' ↔
      ∃ w, s.rest = w ++ s'.rest ∧ Interval w min max ∧ s' = s.withRest s'.rest :=
  ⟨exists_interval_of_eq_ok, fun ⟨_, hw, hinterval, hs'⟩ => interval_eq_ok hw hinterval hs'⟩

/-- The first byte tells whether there is a quantifier. -/
theorem quantifier?_eq (s : Parser) :
    quantifier? s = match s.rest with
      | [] => .ok none s
      | b :: rest => match Role.ofByte b with
        | .star => .ok (some (0, none)) (s.withRest rest)
        | .plus => .ok (some (1, none)) (s.withRest rest)
        | .question => .ok (some (0, some 1)) (s.withRest rest)
        | .brace => (some <$> interval) (s.withRest rest)
        | _ => .ok none s := by
  rw [quantifier?, peek?_bind_apply]
  cases hrest : s.rest with
  | nil => rfl
  | cons b rest =>
    rw [List.head?_cons, Option.map_some]
    have hadvance {α : Type} (x : Reader α) :
        (advance? >>= fun _ => x) s = x (s.withRest rest) := by
      rw [advance?_bind_apply, hrest, List.tail_cons]
    dsimp only
    cases Role.ofByte b
    case star | plus | question | brace => exact hadvance _
    all_goals rfl

/-- A quantifier is read as the grammar has it. -/
theorem quantifier?_eq_some_iff {min : Nat} {max : Option Nat} :
    quantifier? s = .ok (some (min, max)) s' ↔
      ∃ w, s.rest = w ++ s'.rest ∧ Quantifier w min max ∧ s' = s.withRest s'.rest := by
  have hinterval {s : Parser} : (some <$> interval) s = .ok (some (min, max)) s' ↔
      interval s = .ok (min, max) s' := by
    simp only [map_eq_ok_iff, Option.some.injEq, exists_eq_right]
  rw [quantifier?_eq]
  constructor
  · intro h
    cases hrest : s.rest with
    | nil =>
      rw [hrest] at h
      cases h
    | cons b rest =>
      rw [hrest] at h
      dsimp only at h
      split at h
      · rename_i hrole
        obtain rfl := Role.eq_of_ofByte hrole rfl
        cases h
        exact ⟨_, rfl, .star, rfl⟩
      · rename_i hrole
        obtain rfl := Role.eq_of_ofByte hrole rfl
        cases h
        exact ⟨_, rfl, .plus, rfl⟩
      · rename_i hrole
        obtain rfl := Role.eq_of_ofByte hrole rfl
        cases h
        exact ⟨_, rfl, .question, rfl⟩
      · rename_i hrole
        obtain rfl := Role.eq_of_ofByte hrole rfl
        obtain ⟨w, hw, hinterval, hs'⟩ := interval_eq_ok_iff.1 (hinterval.1 h)
        refine ⟨'\x7b'.toUInt8 :: w, ?_, .interval hinterval, hs'⟩
        rw [← rest_withRest s rest, hw]
        rfl
      · cases h
  · rintro ⟨w, hw, hquantifier, hs'⟩
    -- Only what is left to read differs between the two readers.
    obtain ⟨rest, rfl⟩ : ∃ rest, s' = s.withRest rest := ⟨_, hs'⟩
    rw [hw]
    cases hquantifier with
    | star | plus | question => rfl
    | interval h => exact hinterval.2 (interval_eq_ok_iff.2 ⟨_, rfl, h, rfl⟩)

/-- No quantifier is read where none starts. -/
theorem quantifier?_eq_none_iff : quantifier? s = .ok none s' ↔
    (s.rest.head?.map Role.ofByte).any Role.isQuantifier = false ∧ s' = s := by
  rw [quantifier?_eq]
  cases hrest : s.rest with
  | nil => simp [eq_comm]
  | cons b rest =>
    rw [List.head?_cons, Option.map_some, Option.any_some]
    dsimp only
    cases Role.ofByte b
    case brace =>
      refine ⟨fun h => ?_, nofun⟩
      obtain ⟨_, -, hbounds⟩ := map_eq_ok_iff.1 h
      cases hbounds
    all_goals simp [Role.isQuantifier, eq_comm]

/-! ### Bracket expressions -/

/-- Which byte is next does not depend on what is behind a closing bracket. -/
theorem head?_append_of_mem {b : UInt8} {v : List UInt8} (h : b ∈ v) (r r₂ : List UInt8) :
    (v ++ r).head? = (v ++ r₂).head? := by
  cases v with
  | nil => cases h
  | cons a v => rfl

/-- A reader that takes its text from the front and looks no further than the next closing bracket
behind it. -/
def Steady {α : Type} (x : Reader α) : Prop :=
  ∀ s s' a, x s = .ok a s' → ∃ u, s.rest = u ++ s'.rest ∧ s' = s.withRest s'.rest ∧
    ∀ v r, s'.rest = v ++ r → ']'.toUInt8 ∈ v →
      ∀ s₂ r₂, x (withRest s₂ (u ++ (v ++ r₂))) = .ok a (s₂.withRest (v ++ r₂))

namespace Steady

variable {α β : Type} {x : Reader α} {f : α → Reader β}

theorem pure (a : α) : Steady (Pure.pure a : Reader α) := by
  intro s s' b h
  obtain ⟨rfl, rfl⟩ := pure_eq_ok_iff.1 h
  exact ⟨[], rfl, rfl, fun v r _ _ s₂ r₂ => rfl⟩

theorem throw (e : Error) : Steady (MonadExcept.throw e : Reader α) :=
  fun _ _ _ h => absurd h throw_ne_ok

theorem bind (hx : Steady x) (hf : ∀ a, Steady (f a)) : Steady (x >>= f) := by
  intro s s' b h
  obtain ⟨a, s₁, ha, hb⟩ := bind_eq_ok_iff.1 h
  obtain ⟨u₁, hu₁, hs₁, hrest₁⟩ := hx s s₁ a ha
  obtain ⟨u₂, hu₂, hs', hrest'⟩ := hf a s₁ s' b hb
  refine ⟨u₁ ++ u₂, by rw [hu₁, hu₂, List.append_assoc], by rw [hs', hs₁]; rfl, ?_⟩
  intro v r hv hclose s₂ r₂
  refine bind_eq_ok_iff.2 ⟨a, s₂.withRest (u₂ ++ (v ++ r₂)), ?_, hrest' v r hv hclose s₂ r₂⟩
  -- For the first reader, what the second one reads stands in front of the closing bracket.
  have := hrest₁ (u₂ ++ v) r (by rw [hu₂, hv, List.append_assoc])
    (List.mem_append_right u₂ hclose) s₂ r₂
  rwa [List.append_assoc u₂, ← List.append_assoc u₁] at this

theorem compositional : Compositional Steady := ⟨pure, throw, bind⟩

/-- What is repeated up to a closing bracket does not look behind it either. -/
theorem of_repeats (hx : Steady x) {continues : UInt8 → Bool} {as : List α}
    (h : Repeats continues x as s s') : ∃ u, s.rest = u ++ s'.rest ∧ s' = s.withRest s'.rest ∧
      ∀ v r, s'.rest = v ++ r → ']'.toUInt8 ∈ v → ∀ s₂ r₂,
        Repeats continues x as (withRest s₂ (u ++ (v ++ r₂))) (s₂.withRest (v ++ r₂)) := by
  -- Over the values; what is read later stands in front of the bracket for those before it.
  induction as generalizing s with
  | nil =>
    obtain ⟨hstop, rfl⟩ := h
    refine ⟨[], rfl, rfl, fun v r hv hclose s₂ r₂ => ⟨?_, rfl⟩⟩
    rw [hv, head?_append_of_mem hclose r r₂] at hstop
    exact hstop
  | cons a as ih =>
    obtain ⟨⟨b, hb, hcontinues⟩, s₁, ha, hrest⟩ := h
    obtain ⟨u₁, hu₁, hs₁, hagain₁⟩ := hx s s₁ a ha
    obtain ⟨u₂, hu₂, hs', hagain₂⟩ := ih hrest
    refine ⟨u₁ ++ u₂, by rw [hu₁, hu₂, List.append_assoc], by rw [hs', hs₁]; rfl, ?_⟩
    intro v r hv hclose s₂ r₂
    have hclose₂ := List.mem_append_right u₂ hclose
    rw [List.append_assoc, ← List.append_assoc u₂]
    refine ⟨⟨b, ?_, hcontinues⟩, s₂.withRest ((u₂ ++ v) ++ r₂), ?_, ?_⟩
    · rw [hu₁, hu₂, hv, ← List.append_assoc u₂, ← List.append_assoc u₁,
        head?_append_of_mem (List.mem_append_right u₁ hclose₂) r r₂, List.append_assoc] at hb
      exact hb
    · exact hagain₁ (u₂ ++ v) r (by rw [hu₂, hv, List.append_assoc]) hclose₂ s₂ r₂
    · rw [List.append_assoc]
      exact hagain₂ v r hv hclose s₂ r₂

end Steady

theorem steady_advance? : Steady advance? := by
  intro s s' a h
  rw [advance?_eq] at h
  cases h
  -- At the end of the text there is no closing bracket ahead.
  cases hrest : s.rest with
  | nil => exact ⟨[], rfl, rfl, fun v r hv hclose => by
      obtain ⟨rfl, -⟩ := List.append_eq_nil_iff.1 hv.symm
      cases hclose⟩
  | cons b rest => exact ⟨[b], rfl, rfl, fun v r _ _ s₂ r₂ => rfl⟩

theorem steady_accept (c : Char) : Steady (accept c) := by
  intro s s' a h
  rw [accept_eq] at h
  split at h <;> cases h
  · rename_i hhead
    refine ⟨[c.toUInt8], (List.cons_head?_tail hhead).symm, rfl, fun v r _ _ s₂ r₂ => ?_⟩
    exact (accept_eq c _).trans (if_pos rfl)
  · rename_i hhead
    refine ⟨[], rfl, rfl, fun v r hv hclose s₂ r₂ => ?_⟩
    rw [hv, head?_append_of_mem hclose r r₂] at hhead
    exact (accept_eq c _).trans (if_neg hhead)

/-- The end of a delimited element is looked for from the front. -/
theorem splitAtClose_eq_some {delimiter : UInt8} {text name rest : List UInt8}
    (h : splitAtClose delimiter text = some (name, rest)) :
    text = name ++ delimiter :: ']'.toUInt8 :: rest ∧ ∀ rest₂,
      splitAtClose delimiter (name ++ delimiter :: ']'.toUInt8 :: rest₂) = some (name, rest₂) := by
  fun_induction splitAtClose delimiter text generalizing name with
  | case1 a b text hab =>
    obtain ⟨rfl, rfl⟩ := hab
    cases h
    refine ⟨rfl, fun rest₂ => ?_⟩
    rw [List.nil_append, splitAtClose, if_pos ⟨rfl, rfl⟩]
  | case2 a b text hab ih =>
    obtain ⟨⟨name', rest'⟩, hsplit, heq⟩ := Option.map_eq_some_iff.1 h
    cases heq
    obtain ⟨htext, hrest⟩ := ih hsplit
    refine ⟨congrArg (a :: ·) htext, fun rest₂ => ?_⟩
    -- The byte behind `a` is the same whatever comes after the bracket.
    obtain ⟨text₂, htext₂⟩ :
        ∃ text₂, name' ++ delimiter :: ']'.toUInt8 :: rest₂ = b :: text₂ := by
      cases name' with
      | nil =>
        obtain ⟨rfl, -⟩ := List.cons.inj htext
        exact ⟨_, rfl⟩
      | cons c name' =>
        obtain ⟨rfl, -⟩ := List.cons.inj htext
        exact ⟨_, rfl⟩
    have hrest₂ := hrest rest₂
    rw [htext₂] at hrest₂
    rw [List.cons_append, htext₂, splitAtClose, if_neg hab, hrest₂]
    rfl
  | case3 text hshort => cases h

theorem steady_delimited (delimiter : UInt8) : Steady (delimited delimiter) := by
  intro s s' name h
  unfold delimited at h
  split at h <;> cases h
  rename_i rest hsplit
  obtain ⟨hrest, hagain⟩ := splitAtClose_eq_some hsplit
  refine ⟨name ++ [delimiter, ']'.toUInt8], ?_, rfl, fun v r _ _ s₂ r₂ => ?_⟩
  · rw [hrest, List.append_assoc]
    rfl
  · have := hagain (v ++ r₂)
    simp only [delimited, rest_withRest, List.append_assoc, List.cons_append, List.nil_append, this]
    rfl

theorem steady_rangeHyphen : Steady rangeHyphen := by
  intro s s' a h
  -- A byte in front of the closing bracket is followed by one that does not lie behind it.
  have hstay (hsame : s' = s) (hfalse : a = false) : ∃ u, s.rest = u ++ s'.rest ∧
      s' = s.withRest s'.rest ∧ ∀ v r, s'.rest = v ++ r → ']'.toUInt8 ∈ v → ∀ s₂ r₂,
        rangeHyphen (withRest s₂ (u ++ (v ++ r₂))) = .ok a (s₂.withRest (v ++ r₂)) := by
    subst hsame hfalse
    refine ⟨[], rfl, rfl, fun v r hv hclose s₂ r₂ => ?_⟩
    match v, hclose with
    | [c], hclose =>
      obtain rfl := List.mem_singleton.1 hclose
      cases r₂ <;> rfl
    | c :: d :: v, _ =>
      rw [rangeHyphen, hv] at h
      refine if_neg fun hhyphen => ?_
      rw [List.cons_append, List.cons_append] at h
      dsimp only at h
      rw [if_pos hhyphen] at h
      cases h
  unfold rangeHyphen at h
  split at h
  · rename_i c d rest hrest
    split at h <;> cases h
    · rename_i hhyphen
      refine ⟨[c], hrest, rfl, fun v r hv hclose s₂ r₂ => ?_⟩
      cases v with
      | nil => cases hclose
      | cons d' v =>
        obtain ⟨rfl, -⟩ := List.cons.inj hv
        exact if_pos hhyphen
    · exact hstay rfl rfl
  · cases h
    exact hstay rfl rfl

theorem steady_bracketElement : Steady bracketElement := by
  obtain ⟨f, heq, hf⟩ := Steady.compositional.bracketElement steady_accept steady_delimited
  rw [heq]
  exact .bind steady_advance? hf

theorem steady_bracketEntry : Steady bracketEntry := by
  obtain ⟨f, heq, hf⟩ :=
    Steady.compositional.bracketEntry steady_bracketElement steady_rangeHyphen
  rw [heq]
  exact .bind steady_bracketElement hf

/-- A bracket expression stands for a leaf. -/
theorem isLeaf_toExpr (negated : Bool) (entries : List BracketEntry) :
    (BracketEntry.toExpr negated entries).isLeaf = true := by
  unfold BracketEntry.toExpr
  split <;> rfl

/-- A bracket expression is an optional circumflex, entries and a closing bracket. -/
theorem bracket_eq_ok_iff_entries {t : Expr} :
    bracket s = .ok t s' ↔ ∃ negated s₁ first s₂ others s₃, accept '^' s = .ok negated s₁ ∧
      bracketEntry s₁ = .ok first s₂ ∧ Repeats (· ≠ ']'.toUInt8) bracketEntry others s₂ s₃ ∧
      s₃.rest = ']'.toUInt8 :: s'.rest ∧ s' = s₃.withRest s'.rest ∧
      t = BracketEntry.toExpr negated (first :: others) := by
  simp only [bracket, bind_eq_ok_iff, demand_eq_ok_iff, pure_eq_ok_iff,
    manyWhile_eq_ok_iff moves_bracketEntry.2]
  constructor
  · rintro ⟨negated, s₁, h₁, first, s₂, h₂, others, s₃, h₃, _, s₄, ⟨hrest, hs₄⟩, rfl, rfl⟩
    exact ⟨negated, s₁, first, s₂, others, s₃, h₁, h₂, h₃, hrest, hs₄, rfl⟩
  · rintro ⟨negated, s₁, first, s₂, others, s₃, h₁, h₂, h₃, hrest, hs', rfl⟩
    exact ⟨negated, s₁, h₁, first, s₂, h₂, others, s₃, h₃, (), s', ⟨hrest, hs'⟩, rfl, rfl⟩

/-- What is read as a bracket expression is read as the same one in front of any other text. -/
theorem exists_front_of_bracket {t : Expr} (h : bracket s = .ok t s') :
    ∃ w, s.rest = w ++ s'.rest ∧ s' = s.withRest s'.rest ∧
      ∀ s₂ r₂, bracket (withRest s₂ (w ++ r₂)) = .ok t (s₂.withRest r₂) := by
  obtain ⟨negated, s₁, first, s₂, others, s₃, hcaret, hfirst, hothers, hrest, hs', rfl⟩ :=
    bracket_eq_ok_iff_entries.1 h
  obtain ⟨u₁, hu₁, hs₁, hagain₁⟩ := steady_accept '^' s s₁ negated hcaret
  obtain ⟨u₂, hu₂, hs₂, hagain₂⟩ := steady_bracketEntry s₁ s₂ first hfirst
  obtain ⟨u₃, hu₃, hs₃, hagain₃⟩ := Steady.of_repeats steady_bracketEntry hothers
  -- The closing bracket stands behind each of the three parts, so none of them looks further.
  have hclose₃ : ']'.toUInt8 ∈ [']'.toUInt8] := List.mem_singleton_self _
  have hclose₂ := List.mem_append_right u₃ hclose₃
  have hclose₁ := List.mem_append_right u₂ hclose₂
  refine ⟨u₁ ++ (u₂ ++ (u₃ ++ [']'.toUInt8])), ?_, ?_, fun s₀ r₀ => ?_⟩
  · rw [hu₁, hu₂, hu₃, hrest]
    simp only [List.append_assoc, List.singleton_append]
  · rw [hs', hs₃, hs₂, hs₁]
    rfl
  · have hrest₂ : s₂.rest = (u₃ ++ [']'.toUInt8]) ++ s'.rest := by
      rw [hu₃, hrest, List.append_assoc, List.singleton_append]
    have hrest₁ : s₁.rest = (u₂ ++ (u₃ ++ [']'.toUInt8])) ++ s'.rest := by
      rw [hu₂, hrest₂, List.append_assoc u₂]
    have h₁ := hagain₁ _ _ hrest₁ hclose₁ s₀ r₀
    have h₂ := hagain₂ _ _ hrest₂ hclose₂ s₀ r₀
    have h₃ := hagain₃ _ _ hrest hclose₃ s₀ r₀
    rw [← List.append_assoc] at h₂ h₃
    rw [List.append_assoc]
    exact bracket_eq_ok_iff_entries.2
      ⟨negated, _, first, _, others, _, h₁, h₂, h₃, rfl, rfl, rfl⟩

/-- A bracket expression is read just as it is read alone. -/
theorem bracket_eq_ok_iff {t : Expr} : bracket s = .ok t s' ↔
    ∃ w, s.rest = w ++ s'.rest ∧ Bracket w t ∧ s' = s.withRest s'.rest := by
  constructor
  · intro h
    obtain ⟨w, hw, hs', hagain⟩ := exists_front_of_bracket h
    refine ⟨w, hw, ?_, hs'⟩
    have := hagain (ofPattern []) []
    rwa [List.append_nil] at this
  · rintro ⟨w, hw, hbracket, hs'⟩
    obtain ⟨w', hw', -, hagain⟩ := exists_front_of_bracket hbracket
    obtain rfl : w = w' := hw'.trans (List.append_nil w')
    rw [hs', ← hagain s s'.rest, ← hw]
    rfl

end Parser

end PosixRegex
