import PosixRegex.Proofs.Lexemes

/-!
# Errors that no further text removes

Some errors blame a construct for what has been read of it, others for what is still missing. An
error of the first kind stays whatever is appended to the pattern, although readers look ahead: for
a brace anywhere behind, for the end of a delimited element, or at the byte behind a hyphen.

Wherever a reader starts, it comes to one of two ends (`Parser.Settles`). Either every decision
rests on text that is there, and the reader does the same with any text appended (`Parser.Stands`),
or it has seen the end of the text (`Parser.RunsOut`). In the second case nothing is left but
perhaps a hyphen that was looked at as the last byte (`Parser.Spent`), and readers that go on from
there fail, if they do, for want of text alone.

- `Parser.robust_parse`: what is said above, of the reader of whole patterns.
- `Expr.parse_append_of_isFinal`: errors of the first kind are final.
-/

namespace PosixRegex

/-- The errors that blame what has been read, and not what is missing behind it. A bad range is not
among them: a `[` that ends a range may turn into a delimited element. -/
def Error.isFinal : Error → Bool
  | .repetition | .subexpression | .characterClass | .collation | .tooComplex => true
  | _ => false

namespace Parser

variable {α β : Type} {B : α → Prop} {C : β → Prop} {x y : Reader α} {f : α → Reader β}
  {s s' : Parser}

/-- A state with more text behind what is left. -/
def followedBy (s : Parser) (more : List UInt8) : Parser := s.withRest (s.rest ++ more)

@[simp]
theorem followedBy_nil (s : Parser) : s.followedBy [] = s := by
  rw [followedBy, List.append_nil, withRest_self]

/-- Only the text can tell that some was appended. -/
@[simp]
theorem rest_followedBy (s : Parser) (more : List UInt8) :
    (s.followedBy more).rest = s.rest ++ more := rfl

/-- The text is read, but for a hyphen that may have been looked at as its last byte. -/
def Spent (s : Parser) : Prop := s.rest = [] ∨ s.rest = ['-'.toUInt8]

theorem Spent.head? (h : Spent s) : s.rest.head? = none ∨ s.rest.head? = some '-'.toUInt8 := by
  rcases h with h | h
  · exact .inl (by rw [h, List.head?_nil])
  · exact .inr (by rw [h, List.head?_cons])

theorem Spent.tail (h : Spent s) : s.rest.tail = [] := by
  rcases h with h | h <;> rw [h] <;> rfl

/-- What a reader does from a state it does there whatever text is appended. -/
structure Stands (x : Reader α) (s : Parser) : Prop where
  /-- A success gives the same value, and leaves the text that was appended. -/
  of_ok : ∀ {a s'}, x s = .ok a s' → ∀ more, x (s.followedBy more) = .ok a (s'.followedBy more)
  /-- A failure is the same failure. -/
  of_error : ∀ {e s'}, x s = .error e s' →
    ∀ more, x (s.followedBy more) = .error e (s'.followedBy more)

/-- A reader sees the end of the text. The values it can give there are limited, and it finds
nothing wrong with what it has read. -/
structure RunsOut (B : α → Prop) (x : Reader α) (s : Parser) : Prop where
  /-- A success leaves nothing to be read by another reader but a hyphen. -/
  of_ok : ∀ {a s'}, x s = .ok a s' → B a ∧ Spent s'
  /-- A failure may be due to the text that is missing. -/
  of_error : ∀ {e s'}, x s = .error e s' → e.isFinal = false

/-- A reader either decides by text that is there or sees the end of the text. -/
def Settles (B : α → Prop) (x : Reader α) (s : Parser) : Prop := Stands x s ∨ RunsOut B x s

/-- A reader that settles wherever it starts. -/
def Firm (B : α → Prop) (x : Reader α) : Prop := ∀ s, Settles B x s

/-- A reader that is started with no text left sees the end of it. -/
def Idles (B : α → Prop) (x : Reader α) : Prop := ∀ s, Spent s → RunsOut B x s

/-- A reader that settles wherever it starts, and that adds no final error where the text has
ended. -/
structure Robust (B : α → Prop) (x : Reader α) : Prop where
  /-- It settles everywhere. -/
  firm : Firm B x
  /-- Behind the text it sees the end. -/
  idles : Idles B x

/-! ### Readers in sequence -/

/-- Readers that agree on all longer texts stand together. -/
theorem Stands.congr (hx : Stands x s)
    (h : ∀ more, y (s.followedBy more) = x (s.followedBy more)) : Stands y s := by
  have hself : y s = x s := by simpa only [followedBy_nil] using h []
  refine ⟨fun hy more => ?_, fun hy more => ?_⟩
  · rw [h]
    exact hx.of_ok (hself.symm.trans hy) more
  · rw [h]
    exact hx.of_error (hself.symm.trans hy) more

theorem Stands.bind (hx : Stands x s) (hf : ∀ a s₁, x s = .ok a s₁ → Stands (f a) s₁) :
    Stands (x >>= f) s where
  of_ok h more := by
    obtain ⟨a, s₁, ha, hb⟩ := bind_eq_ok_iff.1 h
    exact bind_eq_ok_iff.2 ⟨a, _, hx.of_ok ha more, (hf a s₁ ha).of_ok hb more⟩
  of_error h more := by
    rcases bind_eq_error_iff.1 h with ha | ⟨a, s₁, ha, hb⟩
    · exact bind_eq_error_iff.2 (.inl (hx.of_error ha more))
    · exact bind_eq_error_iff.2 (.inr ⟨a, _, hx.of_ok ha more, (hf a s₁ ha).of_error hb more⟩)

/-- A reader that starts where another one has seen the end runs out as well. -/
theorem RunsOut.bind (hx : RunsOut B x s)
    (hf : ∀ a s₁, x s = .ok a s₁ → B a → Spent s₁ → RunsOut C (f a) s₁) :
    RunsOut C (x >>= f) s where
  of_ok h := by
    obtain ⟨a, s₁, ha, hb⟩ := bind_eq_ok_iff.1 h
    obtain ⟨hvalue, hspent⟩ := hx.of_ok ha
    exact (hf a s₁ ha hvalue hspent).of_ok hb
  of_error h := by
    rcases bind_eq_error_iff.1 h with ha | ⟨a, s₁, ha, hb⟩
    · exact hx.of_error ha
    · obtain ⟨hvalue, hspent⟩ := hx.of_ok ha
      exact (hf a s₁ ha hvalue hspent).of_error hb

theorem RunsOut.congr (hx : RunsOut B x s) (h : y s = x s) : RunsOut B y s :=
  ⟨fun hy => hx.of_ok (h.symm.trans hy), fun hy => hx.of_error (h.symm.trans hy)⟩

/-- The second reader settles where the first one leaves the text, or sees the end as the first one
did. -/
theorem Settles.bind (hx : Settles B x s) (hf : ∀ a s₁, x s = .ok a s₁ → Settles C (f a) s₁)
    (hidle : ∀ a, B a → Idles C (f a)) : Settles C (x >>= f) s := by
  rcases hx with hstands | hout
  · cases hread : x s with
    | error e s₁ =>
      refine .inl (hstands.bind fun a s₂ ha => ?_)
      rw [hread] at ha
      cases ha
    | ok a s₁ =>
      have hunique {a' : α} {s₂ : Parser} (ha : x s = .ok a' s₂) : a = a' ∧ s₁ = s₂ := by
        rw [hread] at ha
        exact EStateM.Result.ok.inj ha
      -- The first reader stands, so the two of them do what the second one does.
      rcases hf a s₁ hread with hsecond | hsecond
      · refine .inl (hstands.bind fun a' s₂ ha => ?_)
        obtain ⟨rfl, rfl⟩ := hunique ha
        exact hsecond
      · exact .inr ⟨fun h => hsecond.of_ok ((bind_apply_of_ok hread).symm.trans h),
          fun h => hsecond.of_error ((bind_apply_of_ok hread).symm.trans h)⟩
  · exact .inr (hout.bind fun a s₁ _ hvalue => hidle a hvalue s₁)

theorem Stands.pure (a : α) : Stands (Pure.pure a : Reader α) s := by
  refine ⟨fun h more => ?_, nofun⟩
  obtain ⟨rfl, rfl⟩ := pure_eq_ok_iff.1 h
  rfl

theorem Stands.throw (e : Error) : Stands (MonadExcept.throw e : Reader α) s := by
  refine ⟨fun h => absurd h throw_ne_ok, fun h more => ?_⟩
  cases h
  rfl

theorem Firm.pure (a : α) : Firm B (Pure.pure a : Reader α) := fun _ => .inl (.pure a)

theorem Firm.throw (e : Error) : Firm B (MonadExcept.throw e : Reader α) := fun _ => .inl (.throw e)

/-- A reader that looks at nothing in the state that more text changes. -/
theorem Stands.get_bind {f : Parser → Reader α} (hf : Stands (f s) s)
    (hsame : ∀ more, f (s.followedBy more) = f s) : Stands (get >>= f) s := by
  refine hf.congr fun more => ?_
  rw [get_bind_apply, hsame]

theorem Firm.get_bind {f : Parser → Reader α} (hf : ∀ s, Firm B (f s))
    (hsame : ∀ s rest, f (s.withRest rest) = f s) : Firm B (get >>= f) := by
  refine fun s => (hf s s).imp (fun hstands => ?_) fun hout => ⟨hout.of_ok, hout.of_error⟩
  exact hstands.get_bind fun more => hsame s _

theorem Idles.pure {a : α} (h : B a) : Idles B (Pure.pure a : Reader α) := by
  refine fun s hs => ⟨fun heq => ?_, nofun⟩
  obtain ⟨rfl, rfl⟩ := pure_eq_ok_iff.1 heq
  exact ⟨h, hs⟩

theorem Idles.throw {e : Error} (h : e.isFinal = false) :
    Idles B (MonadExcept.throw e : Reader α) := by
  refine fun s hs => ⟨fun heq => absurd heq throw_ne_ok, fun heq => ?_⟩
  cases heq
  exact h

theorem Idles.bind (hx : Idles B x) (hf : ∀ a, B a → Idles C (f a)) : Idles C (x >>= f) :=
  fun s hs => (hx s hs).bind fun a s₁ _ hvalue => hf a hvalue s₁

theorem Idles.get_bind {f : Parser → Reader α} (hf : ∀ s, Idles B (f s)) : Idles B (get >>= f) :=
  fun s hs => ⟨(hf s s hs).of_ok, (hf s s hs).of_error⟩

namespace Robust

theorem pure {a : α} (h : B a) : Robust B (Pure.pure a : Reader α) := ⟨.pure a, .pure h⟩

theorem throw {e : Error} (h : e.isFinal = false) : Robust B (MonadExcept.throw e : Reader α) :=
  ⟨.throw e, .throw h⟩

/-- Behind the text, the second reader is started with few values only. -/
theorem bind (hx : Robust B x) (hf : ∀ a, Firm C (f a)) (hidle : ∀ a, B a → Idles C (f a)) :
    Robust C (x >>= f) :=
  ⟨fun s => (hx.firm s).bind (fun a s₁ _ => hf a s₁) hidle, hx.idles.bind hidle⟩

theorem seq (hx : Robust B x) (hf : ∀ a, Robust C (f a)) : Robust C (x >>= f) :=
  hx.bind (fun a => (hf a).firm) fun a _ => (hf a).idles

theorem get_bind {f : Parser → Reader α} (hf : ∀ s, Robust B (f s))
    (hsame : ∀ s rest, f (s.withRest rest) = f s) : Robust B (get >>= f) :=
  ⟨.get_bind (fun s => (hf s).firm) hsame, .get_bind fun s => (hf s).idles⟩

end Robust

/-! ### Single bytes -/

/-- What a reader of the next byte gives behind the text. -/
def IsLast (b : Option UInt8) : Prop := b = none ∨ b = some '-'.toUInt8

theorem robust_peek? : Robust IsLast peek? := by
  constructor
  · intro s
    by_cases hrest : s.rest = []
    · right
      refine ⟨?_, nofun⟩
      rintro _ _ ⟨⟩
      exact ⟨.inl (by rw [hrest, List.head?_nil]), .inl hrest⟩
    · left
      refine ⟨?_, nofun⟩
      rintro _ _ ⟨⟩ more
      exact congrArg (EStateM.Result.ok · _) (List.head?_append_of_ne_nil _ hrest)
  · refine fun s hs => ⟨?_, nofun⟩
    rintro _ _ ⟨⟩
    exact ⟨hs.head?, hs⟩

theorem robust_advance? : Robust IsLast advance? := by
  have heq : advance? = fun s => .ok s.rest.head? (s.withRest s.rest.tail) := funext advance?_eq
  rw [heq]
  constructor
  · intro s
    by_cases hrest : s.rest = []
    · right
      refine ⟨?_, nofun⟩
      rintro _ _ ⟨⟩
      rw [hrest]
      exact ⟨.inl rfl, .inl rfl⟩
    · left
      refine ⟨?_, nofun⟩
      rintro _ _ ⟨⟩ more
      dsimp only [rest_followedBy]
      rw [List.head?_append_of_ne_nil _ hrest, List.tail_append_of_ne_nil hrest]
      rfl
  · refine fun s hs => ⟨?_, nofun⟩
    rintro _ _ ⟨⟩
    exact ⟨hs.head?, .inl hs.tail⟩

/-- Whether the next byte is the given one is decided where there is one. -/
theorem stands_accept (c : Char) (hrest : s.rest ≠ []) : Stands (accept c) s := by
  have hmore (more : List UInt8) : accept c (s.followedBy more) =
      if s.rest.head? = some c.toUInt8 then .ok true ((s.withRest s.rest.tail).followedBy more)
      else .ok false (s.followedBy more) := by
    rw [accept_eq, rest_followedBy, List.head?_append_of_ne_nil _ hrest,
      List.tail_append_of_ne_nil hrest]
    rfl
  refine ⟨fun h more => ?_, fun h => ?_⟩ <;> rw [accept_eq] at h
  · rw [hmore]
    split at h <;> cases h
    · rename_i hhead
      rw [if_pos hhead]
    · rename_i hhead
      rw [if_neg hhead]
  · split at h <;> cases h

theorem robust_accept {c : Char} (hc : c.toUInt8 ≠ '-'.toUInt8) :
    Robust (· = false) (accept c) := by
  -- Behind the text there is no byte to accept, and a hyphen is not the one that is asked for.
  have hidles : Idles (· = false) (accept c) := by
    intro s hs
    have hhead : s.rest.head? ≠ some c.toUInt8 := by
      rcases hs.head? with h | h <;> rw [h]
      · exact nofun
      · exact fun heq => hc (Option.some.inj heq).symm
    have hread : accept c s = .ok false s := by rw [accept_eq, if_neg hhead]
    refine ⟨fun h => ?_, fun h => ?_⟩ <;> rw [hread] at h <;> cases h
    exact ⟨rfl, hs⟩
  refine ⟨fun s => ?_, hidles⟩
  by_cases hrest : s.rest = []
  · exact .inr (hidles s (.inl hrest))
  · exact .inl (stands_accept c hrest)

/-- A byte that is demanded is there or is missing. -/
theorem robust_demand {c : Char} {e : Error} (hc : c.toUInt8 ≠ '-'.toUInt8)
    (he : e.isFinal = false) : Robust (fun _ => False) (demand c e) := by
  refine (robust_accept hc).bind (fun found => ?_) fun found hfound => ?_
  · split
    · exact .pure ()
    · exact .throw e
  · rw [hfound]
    exact .throw he

/-! ### Repeating a reader -/

/-- Allowances that are large enough make no difference. -/
theorem many_eq_many (hx : Consumes x) {continues : UInt8 → Bool} {m n : List UInt8}
    (hm : s.rest.length ≤ m.length) (hn : s.rest.length ≤ n.length) :
    many continues x m s = many continues x n s := by
  induction m generalizing n s with
  | nil =>
    have hrest : s.rest = [] := List.eq_nil_of_length_eq_zero (Nat.le_zero.1 hm)
    cases n with
    | nil => rfl
    | cons c n =>
      rw [many, many, peek?_bind_apply, hrest]
      rfl
  | cons c m ih =>
    cases n with
    | nil =>
      have hrest : s.rest = [] := List.eq_nil_of_length_eq_zero (Nat.le_zero.1 hn)
      rw [many, many, peek?_bind_apply, hrest]
      rfl
    | cons d n =>
      rw [many, many, peek?_bind_apply, peek?_bind_apply]
      cases hhead : s.rest.head? with
      | none => rfl
      | some b =>
        dsimp only
        split
        · -- An item takes a byte, so both allowances stay large enough for the others.
          simp only [Bind.bind, EStateM.bind]
          cases hread : x s with
          | error e s₁ => rfl
          | ok a s₁ =>
            have hne := List.ne_nil_of_mem (List.mem_of_mem_head? hhead)
            have hlt := (hx.of_ok hread).length_lt hne
            rw [List.length_cons] at hm hn
            dsimp only
            rw [ih (s := s₁) (n := n) (by omega) (by omega)]
        · rfl

/-- A reader and its repetition in sequence. -/
def oneMore (continues : UInt8 → Bool) (x : Reader α) : Reader (List α) := do
  let a ← x
  let others ← manyWhile continues x
  return a :: others

theorem manyWhile_of_stop {continues : UInt8 → Bool}
    (h : ∀ b ∈ s.rest.head?, continues b = false) : manyWhile continues x s = .ok [] s := by
  rw [manyWhile]
  cases hrest : s.rest with
  | nil => rfl
  | cons b rest =>
    have hb : continues b = false := h b (by rw [hrest]; rfl)
    rw [many, peek?_bind_apply, hrest, List.head?_cons]
    simp only [hb, Bool.false_eq_true, if_false]
    rfl

/-- One more item is read where the next byte has the property. -/
theorem manyWhile_of_continues (hx : Consumes x) {continues : UInt8 → Bool} {b : UInt8}
    (hhead : s.rest.head? = some b) (hb : continues b = true) :
    manyWhile continues x s = oneMore continues x s := by
  rw [manyWhile]
  obtain ⟨rest, hrest⟩ : ∃ rest, s.rest = b :: rest :=
    ⟨s.rest.tail, (List.cons_head?_tail hhead).symm⟩
  rw [hrest, many, peek?_bind_apply, hrest, List.head?_cons]
  simp only [hb, if_true, oneMore, Bind.bind, EStateM.bind]
  cases hread : x s with
  | error e s₁ => rfl
  | ok a s₁ =>
    have hlt := (hx.of_ok hread).length_lt (by rw [hrest]; exact List.cons_ne_nil _ _)
    rw [hrest, List.length_cons] at hlt
    dsimp only
    rw [many_eq_many hx (n := s₁.rest) (by omega) (Nat.le_refl _)]
    rfl

/-- A repetition settles as the reader that is repeated does. -/
theorem robust_manyWhile (hx : Robust (fun _ => True) x) (hc : Consumes x)
    (continues : UInt8 → Bool) : Robust (fun _ => True) (manyWhile continues x) := by
  have hend {s : Parser} (hrest : s.rest = []) :
      RunsOut (fun _ => True) (manyWhile continues x) s := by
    have hread : manyWhile continues x s = .ok [] s :=
      manyWhile_of_stop (by rw [hrest]; exact nofun)
    refine ⟨fun h => ?_, fun h => ?_⟩ <;> rw [hread] at h <;> cases h
    exact ⟨trivial, .inl hrest⟩
  -- A hyphen that is left is read by one item, and nothing is left for the others.
  have hidles : Idles (fun _ => True) (manyWhile continues x) := by
    intro s hs
    rcases hs with hrest | hrest
    · exact hend hrest
    · have hhead : s.rest.head? = some '-'.toUInt8 := by rw [hrest, List.head?_cons]
      cases hcontinues : continues '-'.toUInt8 with
      | false =>
        have hread : manyWhile continues x s = .ok [] s := by
          refine manyWhile_of_stop fun b hb => ?_
          obtain rfl := Option.some.inj (hhead.symm.trans hb)
          exact hcontinues
        refine ⟨fun h => ?_, fun h => ?_⟩ <;> rw [hread] at h <;> cases h
        exact ⟨trivial, .inr hrest⟩
      | true =>
        refine .congr ?_ (manyWhile_of_continues hc hhead hcontinues)
        refine (hx.idles s (.inr hrest)).bind fun a s₁ ha _ _ => ?_
        have hrest₁ : s₁.rest = [] := by
          have hsuffix : s₁.rest <:+ s.rest.tail := hc.of_ok ha
          rw [hrest] at hsuffix
          exact List.suffix_nil.1 hsuffix
        exact (hend hrest₁).bind fun others s₂ _ _ => Idles.pure trivial s₂
  refine ⟨fun s => ?_, hidles⟩
  -- By induction on the text that is left, as an item takes a byte.
  induction hn : s.rest.length using Nat.strong_induction_on generalizing s with
  | h n ih =>
    cases hrest : s.rest with
    | nil => exact .inr (hend hrest)
    | cons b rest =>
      have hhead (more : List UInt8) : (s.followedBy more).rest.head? = some b := by
        rw [rest_followedBy, hrest]
        rfl
      cases hcontinues : continues b with
      | false =>
        have hread (more : List UInt8) :
            manyWhile continues x (s.followedBy more) = .ok [] (s.followedBy more) := by
          refine manyWhile_of_stop fun c hc => ?_
          obtain rfl := Option.some.inj ((hhead more).symm.trans hc)
          exact hcontinues
        exact .inl ((Stands.pure []).congr hread)
      | true =>
        have hitems : Settles (fun _ => True) (oneMore continues x) s := by
          refine (hx.firm s).bind (fun a s₁ ha => ?_) fun a _ => ?_
          · have hlt := (hc.of_ok ha).length_lt (by rw [hrest]; exact List.cons_ne_nil _ _)
            refine (ih _ (hn ▸ hlt) s₁ rfl).bind (fun others s₂ _ => ?_) fun others _ => ?_
            · exact Firm.pure _ s₂
            · exact .pure trivial
          · exact hidles.bind fun others _ => .pure trivial
        refine hitems.imp (fun hstands => ?_) fun hout => ?_
        · exact hstands.congr fun more => manyWhile_of_continues hc (hhead more) hcontinues
        · exact hout.congr (manyWhile_of_continues hc (by rw [hrest]; rfl) hcontinues)

/-! ### Repetitions -/

/-- Digits end at a byte that is none, whatever is behind it. -/
theorem countPrefix_append {text : List UInt8} {b : UInt8} (hmem : b ∈ text)
    (hb : Byte.isDigit b = false) (count : Option Nat) (more : List UInt8) :
    countPrefix count (text ++ more) =
      ((countPrefix count text).1, (countPrefix count text).2 ++ more) := by
  induction text generalizing count with
  | nil => cases hmem
  | cons a text ih =>
    rw [List.cons_append, countPrefix, countPrefix]
    by_cases ha : Byte.isDigit a = true
    · have hmem' : b ∈ text := by
        refine (List.mem_cons.1 hmem).resolve_left fun heq => ?_
        rw [heq, ha] at hb
        cases hb
      simp only [ha, if_true]
      split
      · rfl
      · exact ih hmem' _
    · simp only [ha, if_false, Bool.false_eq_true]
      rfl

/-- The closing brace that an interval waits for is in the text. -/
def Braced (s : Parser) : Prop := '\x7d'.toUInt8 ∈ s.rest

theorem Braced.ne_nil (h : Braced s) : s.rest ≠ [] := List.ne_nil_of_mem h

/-- Neither digits nor a comma are the brace that is waited for. -/
theorem Braced.of_count? {count : Option Nat} (h : Braced s) (hread : count? s = .ok count s') :
    Braced s' := by
  obtain ⟨w, hw, hbound, -, -⟩ := count?_eq_ok_iff.1 hread
  rw [Braced, hw] at h
  refine (List.mem_append.1 h).resolve_left fun hmem => ?_
  exact absurd (isDigit_of_bound hbound _ hmem) (by decide)

theorem Braced.of_accept {found : Bool} (h : Braced s) (hread : accept ',' s = .ok found s') :
    Braced s' := by
  rw [accept_eq] at hread
  split at hread <;> cases hread
  · rename_i hhead
    rw [Braced, ← List.cons_head?_tail hhead] at h
    exact (List.mem_cons.1 h).resolve_left (by decide)
  · exact h

theorem Braced.stands_count? (h : Braced s) : Stands count? s := by
  have hmore (more : List UInt8) : countPrefix none (s.followedBy more).rest =
      ((countPrefix none s.rest).1, (countPrefix none s.rest).2 ++ more) :=
    countPrefix_append h (by decide) none more
  refine ⟨fun hread more => ?_, fun hread more => ?_⟩ <;> unfold count? at hread ⊢ <;>
    split at hread <;> cases hread <;> rename_i hcount <;> rw [hmore, hcount] <;> rfl

theorem stands_demand (c : Char) (e : Error) (hrest : s.rest ≠ []) : Stands (demand c e) s := by
  refine (stands_accept c hrest).bind fun found s₁ _ => ?_
  split
  · exact .pure ()
  · exact .throw e

/-- An interval looks at its closing brace first, and then at nothing behind it. -/
theorem Braced.stands_interval (h : Braced s) : Stands interval s := by
  -- However the upper bound is found, the bounds are compared after the closing brace.
  have hclose {s : Parser} (h : Braced s) (low max : Option Nat) : Stands (do
      demand '\x7d' .repetition
      let min := low.getD 0
      if max.any (· < min) then throw .repetition
      return (min, max)) s := by
    refine (stands_demand _ _ h.ne_nil).bind fun _ s₁ _ => ?_
    dsimp only
    split
    · exact .throw .repetition
    · exact .pure _
  refine .get_bind ?_ fun more => ?_
  · simp only [List.contains_iff_mem.2 h, if_true]
    refine h.stands_count?.bind fun low s₁ hlow => ?_
    have h₁ := h.of_count? hlow
    refine (stands_accept ',' h₁.ne_nil).bind fun comma s₂ hcomma => ?_
    have h₂ := h₁.of_accept hcomma
    split
    · exact h₂.stands_count?.bind fun max s₃ hmax => hclose (h₂.of_count? hmax) low max
    · split
      · exact hclose h₂ _ _
      · exact .throw .repetition
  · have hmore : (s.followedBy more).rest.contains '\x7d'.toUInt8 = true :=
      List.contains_iff_mem.2 (List.mem_append_left more h)
    simp only [hmore, List.contains_iff_mem.2 h]

/-- Without a closing brace an interval is not looked at. -/
theorem runsOut_interval (h : ¬ Braced s) : RunsOut (fun _ => False) interval s := by
  have hread : interval s = .error .braceBalance s := by
    have hcontains : ¬ s.rest.contains '\x7d'.toUInt8 = true := fun hc =>
      h (List.contains_iff_mem.1 hc)
    rw [interval, get_bind_apply]
    simp only [hcontains]
    rfl
  refine ⟨fun h => ?_, fun h => ?_⟩ <;> rw [hread] at h <;> cases h
  rfl

theorem robust_interval : Robust (fun _ => False) interval := by
  constructor
  · intro s
    by_cases h : Braced s
    · exact .inl h.stands_interval
    · exact .inr (runsOut_interval h)
  · intro s hs
    refine runsOut_interval fun h => ?_
    rcases hs with hrest | hrest <;> rw [Braced, hrest] at h
    · cases h
    · exact absurd (List.mem_singleton.1 h) (by decide)

theorem robust_quantifier? : Robust (fun _ => True) quantifier? := by
  refine robust_peek?.seq fun b => ?_
  split
  · exact robust_advance?.seq fun _ => .pure trivial
  · exact robust_advance?.seq fun _ => .pure trivial
  · exact robust_advance?.seq fun _ => .pure trivial
  · exact robust_advance?.seq fun _ => robust_interval.seq fun bounds => .pure trivial
  · exact .pure trivial

/-! ### Bracket expressions -/

/-- The first place where a delimiter is followed by `]` stays the first. -/
theorem splitAtClose_append {delimiter : UInt8} {text name rest : List UInt8}
    (h : splitAtClose delimiter text = some (name, rest)) (more : List UInt8) :
    splitAtClose delimiter (text ++ more) = some (name, rest ++ more) := by
  obtain ⟨htext, hagain⟩ := splitAtClose_eq_some h
  rw [htext, List.append_assoc]
  exact hagain (rest ++ more)

theorem robust_delimited (delimiter : UInt8) : Robust (fun _ => False) (delimited delimiter) := by
  -- An element that is not closed may be closed by text that is appended.
  have hopen {s : Parser} (h : splitAtClose delimiter s.rest = none) :
      RunsOut (fun _ => False) (delimited delimiter) s := by
    have hread : delimited delimiter s = .error .bracketBalance s := by
      simp only [delimited, h]
    refine ⟨fun h => ?_, fun h => ?_⟩ <;> rw [hread] at h <;> cases h
    rfl
  constructor
  · intro s
    cases hsplit : splitAtClose delimiter s.rest with
    | none => exact .inr (hopen hsplit)
    | some parts =>
      left
      have hread {s : Parser} {name rest : List UInt8}
          (h : splitAtClose delimiter s.rest = some (name, rest)) :
          delimited delimiter s = .ok name (s.withRest rest) := by
        simp only [delimited, h]
        rfl
      refine ⟨fun h more => ?_, fun h => ?_⟩ <;> rw [hread hsplit] at h <;> cases h
      exact hread (splitAtClose_append hsplit more)
  · intro s hs
    refine hopen ?_
    rcases hs with hrest | hrest <;> rw [hrest] <;> rfl

/-- A delimited element is refused for its name only where its end is in the text. -/
theorem robust_bracketElement : Robust (fun _ => True) bracketElement := by
  have hname {f : List UInt8 → Reader BracketElement} (delimiter : UInt8)
      (hf : ∀ name, Firm (fun _ => True) (f name)) :
      Robust (fun _ => True) (delimited delimiter >>= f) :=
    (robust_delimited delimiter).bind hf fun _ => False.elim
  -- The cases are those of the reader: a class, a symbol, an equivalence class, or a byte.
  refine robust_advance?.seq fun b => ?_
  split
  · split
    · exact .pure trivial
    · refine (robust_accept (by decide)).seq fun isClass => ?_
      split
      · refine hname _ fun name => ?_
        split
        · exact .pure _
        · exact .throw _
      · refine (robust_accept (by decide)).seq fun isSymbol => ?_
        split
        · refine hname _ fun name => ?_
          split
          · exact .pure _
          · exact .throw _
        · refine (robust_accept (by decide)).seq fun isEquivalence => ?_
          split
          · refine hname _ fun name => ?_
            split
            · exact .pure _
            · exact .throw _
          · exact .pure trivial
  · exact .throw rfl

/-- Another byte than a hyphen is no hyphen of a range, whatever comes behind it. -/
theorem rangeHyphen_of_ne {b : UInt8} {rest : List UInt8} (hrest : s.rest = b :: rest)
    (hb : b ≠ '-'.toUInt8) : rangeHyphen s = .ok false s := by
  unfold rangeHyphen
  rw [hrest]
  cases rest with
  | nil => rfl
  | cons c rest => exact if_neg fun h => hb h.1

/-- A hyphen that is the last byte may yet become the hyphen of a range. -/
theorem robust_rangeHyphen : Robust (· = false) rangeHyphen := by
  have hidles : Idles (· = false) rangeHyphen := by
    intro s hs
    have hread : rangeHyphen s = .ok false s := by
      rcases hs with hrest | hrest <;> rw [rangeHyphen, hrest]
    refine ⟨fun h => ?_, fun h => ?_⟩ <;> rw [hread] at h <;> cases h
    exact ⟨rfl, hs⟩
  refine ⟨fun s => ?_, hidles⟩
  cases hrest : s.rest with
  | nil => exact .inr (hidles s (.inl hrest))
  | cons b rest =>
    cases rest with
    | nil =>
      by_cases hb : b = '-'.toUInt8
      · exact .inr (hidles s (.inr (by rw [hrest, hb])))
      · left
        have hsingle (more : List UInt8) : (s.followedBy more).rest = b :: more := by
          rw [rest_followedBy, hrest]
          rfl
        have hread (more : List UInt8) :
            rangeHyphen (s.followedBy more) = .ok false (s.followedBy more) :=
          rangeHyphen_of_ne (hsingle more) hb
        exact (Stands.pure false).congr hread
    | cons c rest =>
      left
      -- Two bytes are enough to decide.
      have hread (more : List UInt8) : rangeHyphen (s.followedBy more) =
          if b = '-'.toUInt8 ∧ c ≠ ']'.toUInt8 then
            .ok true ((s.withRest (c :: rest)).followedBy more)
          else .ok false (s.followedBy more) := by
        rw [rangeHyphen, rest_followedBy, hrest]
        rfl
      have hself := hread []
      simp only [followedBy_nil] at hself
      refine ⟨fun h more => ?_, fun h => ?_⟩ <;> rw [hself] at h
      · rw [hread]
        split at h <;> cases h
        · rename_i hhyphen
          rw [if_pos hhyphen]
        · rename_i hhyphen
          rw [if_neg hhyphen]
      · split at h <;> cases h

/-- Of what is wrong with an entry only its range may be due to text that is missing. -/
theorem robust_bracketEntry : Robust (fun _ => True) bracketEntry := by
  refine robust_bracketElement.seq fun low => robust_rangeHyphen.seq fun hyphen => ?_
  split
  · refine robust_bracketElement.seq fun high => ?_
    split
    · split
      · exact .pure trivial
      · exact .throw rfl
    · exact .throw rfl
  · split <;> exact .pure trivial

theorem robust_bracket : Robust (fun _ => True) bracket := by
  refine (robust_accept (by decide)).seq fun negated => robust_bracketEntry.seq fun first => ?_
  refine (robust_manyWhile robust_bracketEntry moves_bracketEntry.2 _).seq fun others => ?_
  exact (robust_demand (by decide) rfl).seq fun _ => .pure trivial

/-! ### Atoms and expressions -/

/-- A backslash that ends the text is not blamed on a group. -/
theorem robust_escaped : Robust (fun _ => True) escaped := by
  refine robust_advance?.bind (fun b => ?_) fun b hb => ?_
  · split
    · split
      · refine .get_bind (fun s => ?_) fun s rest => rfl
        split
        · exact .pure _
        · exact .throw _
      · split
        · exact .pure _
        · exact .throw _
    · exact .throw _
  · rcases hb with rfl | rfl
    · exact .throw rfl
    · -- A hyphen is neither the number of a group nor made ordinary by the backslash.
      have hnumber : Byte.between '1' '9' '-'.toUInt8 = false := by decide
      have hescapable : escapable.contains '-'.toUInt8 = false := by decide +kernel
      simp only [hnumber, hescapable, Bool.false_eq_true, if_false]
      exact .throw rfl

theorem robust_group {body : Reader Expr} (h : Robust (fun _ => True) body) :
    Robust (fun _ => True) (group body) := by
  have hopen : Robust (fun _ => True) openGroup :=
    ⟨fun s => .inl ⟨by rintro _ _ ⟨⟩ more; rfl, nofun⟩,
      fun s hs => ⟨by rintro _ _ ⟨⟩; exact ⟨trivial, hs⟩, nofun⟩⟩
  have hclose (index : Nat) : Robust (fun _ => True) (closeGroup index) :=
    ⟨fun s => .inl ⟨by rintro _ _ ⟨⟩ more; rfl, nofun⟩,
      fun s hs => ⟨by rintro _ _ ⟨⟩; exact ⟨trivial, hs⟩, nofun⟩⟩
  refine hopen.seq fun index => h.seq fun t => ?_
  exact (robust_demand (by decide) rfl).seq fun _ => (hclose index).seq fun _ => .pure trivial

section Expressions

variable {group : Reader Expr} (hfirm : Firm (fun _ => True) group)

include hfirm

/-- No atom starts behind the text, so groups need not be looked at there. -/
theorem robust_atom : Robust (fun _ => True) (atom group) := by
  refine robust_advance?.bind (fun b => ?_) fun b hb => ?_
  · split
    · split
      · exact hfirm
      · exact .throw _
      · exact .throw _
      · exact .throw _
      · exact .throw _
      · exact robust_bracket.firm
      · exact robust_escaped.firm
      all_goals exact .pure _
    · exact .pure _
  · rcases hb with rfl | rfl
    · exact .pure trivial
    · exact .pure trivial

/-- A second repetition is refused where it starts, and none starts behind the text. -/
theorem robust_piece : Robust (fun _ => True) (piece group) := by
  refine (robust_atom hfirm).seq fun t => robust_quantifier?.seq fun bounds => ?_
  split
  · exact .pure trivial
  · refine robust_peek?.bind (fun b => ?_) fun b hb => ?_
    · dsimp only
      split
      · exact .throw _
      · exact .pure _
    · rcases hb with rfl | rfl
      · exact .pure trivial
      · exact .pure trivial

variable {levels : Nat} (hmoves : Proceeds levels group)

include hmoves

theorem robust_branch : Robust (fun _ => True) (branch group) := by
  refine (robust_manyWhile (robust_piece hfirm) (moves_piece hmoves).2 _).seq fun items => ?_
  refine .get_bind (fun s => robust_peek?.seq fun b => ?_) fun s rest => rfl
  dsimp only
  split
  · exact .throw rfl
  · exact .pure trivial

theorem robust_branches : Robust (fun _ => True) (branches group) := by
  have hbranch := robust_branch hfirm hmoves
  have hothers := robust_manyWhile (robust_advance?.seq fun _ => hbranch)
    (moves_barBranch hmoves).2 (Role.ofByte · = .bar)
  exact hbranch.seq fun first => hothers.seq fun others => .pure trivial

end Expressions

/-- Groups that nest too deep are refused at their opening parenthesis. -/
theorem robust_expression (levels : Nat) : Robust (fun _ => True) (expression levels) := by
  induction levels with
  | zero =>
    have hmoves : Proceeds 0 (throw .tooComplex : Reader Expr) := .throw _
    exact robust_branches (.throw _) hmoves
  | succ levels ih =>
    exact robust_branches (robust_group ih).firm (moves_group (moves_expression levels))

theorem robust_parse : Robust (fun _ => True) parse := by
  refine .get_bind (fun s => (robust_expression _).seq fun t => ?_) fun s rest => rfl
  refine robust_peek?.seq fun b => ?_
  dsimp only
  split
  · exact .pure trivial
  · exact .throw rfl

/-- A final error is met again, at the same place, whatever text is appended. -/
theorem parse_followedBy_of_isFinal {e : Error} (h : parse s = .error e s')
    (he : e.isFinal = true) (more : List UInt8) :
    parse (s.followedBy more) = .error e (s'.followedBy more) := by
  rcases robust_parse.firm s with hstands | hout
  · exact hstands.of_error h more
  · rw [hout.of_error h] at he
    cases he

end Parser

namespace Expr

/-- When `p` is refused with an error `e` that `isFinal`, nothing that is appended to it turns this
error into a success or into another error. -/
theorem parse_append_of_isFinal {p : List UInt8} {e : Error} (h : parse p = .error e)
    (he : e.isFinal = true) (q : List UInt8) : parse (p ++ q) = .error e := by
  unfold parse at h ⊢
  split at h <;> cases h
  rename_i s' hparse
  have hmore : (Parser.ofPattern p).followedBy q = Parser.ofPattern (p ++ q) := rfl
  rw [← hmore, Parser.parse_followedBy_of_isFinal hparse he q]

/-- The group of `(a{2,1}` is still open when its interval is refused; to close it is of no use. -/
theorem parse_append_of_isFinal_interval :
    let p : List UInt8 := [40, 97, 123, 50, 44, 49, 125]
    parse p = .error .repetition ∧ Error.repetition.isFinal = true ∧
      parse (p ++ [41]) = .error .repetition := by
  intro p
  have hp : parse p = .error .repetition := rfl
  exact ⟨hp, rfl, parse_append_of_isFinal hp rfl [41]⟩

/-- The range of `[b-[` descends, and that of `[b-[.c.]]` does not. -/
example : parse [91, 98, 45, 91] = .error .range ∧
    parse ([91, 98, 45, 91] ++ [46, 99, 46, 93, 93]) = .ok (.set (.range 98 99) false) := by
  constructor <;> rfl

end Expr

end PosixRegex
