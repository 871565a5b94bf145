import PosixRegex.Byte

/-!
# Sets of bytes

A set of bytes is kept in four words of 64 bits each. The two high bits of a byte choose the word
(`ByteSet.place`) and its six low bits the bit in that word (`ByteSet.mask`), which is set when the
byte belongs to the set. `ByteSet.contains` reads that bit, and is the view through which all
operations are described; two sets with the same bytes have the same words (`ByteSet.ext`).

`ByteSet.runs` is the canonical form of a set: its maximal runs in ascending order.
-/

namespace PosixRegex

/-- A set of bytes. -/
structure ByteSet where
  /-- Bit `b % 64` of word `b / 64` is set when byte `b` belongs to the set. -/
  words : Vector UInt64 4
deriving DecidableEq, Repr, Inhabited

namespace ByteSet

theorem toNat_shiftRight_6 (b : UInt8) : (b >>> 6).toNat = b.toNat / 64 := by
  rw [UInt8.toNat_shiftRight, Nat.shiftRight_eq_div_pow]
  rfl

/-- The number of the word that tells of a byte. -/
def place (b : UInt8) : Fin 4 :=
  ⟨(b >>> 6).toNat, by
    have hb := b.toNat_lt
    rw [toNat_shiftRight_6]
    omega⟩

/-- The bit that tells of a byte, in its word. -/
def mask (b : UInt8) : UInt64 := 1 <<< (b &&& 63).toUInt64

/-- The word that tells of a byte. -/
def word (s : ByteSet) (b : UInt8) : UInt64 := s.words[(place b).val]

/-- Whether a byte belongs to a set. -/
def contains (s : ByteSet) (b : UInt8) : Bool := s.word b &&& mask b != 0

/-- A set with the word changed that tells of a byte. -/
def modify (s : ByteSet) (b : UInt8) (f : UInt64 → UInt64) : ByteSet :=
  ⟨s.words.set (place b) (f (s.word b))⟩

/-- The set without bytes. -/
def empty : ByteSet := ⟨.replicate 4 0⟩

instance : EmptyCollection ByteSet := ⟨empty⟩

/-- The set of all bytes. -/
def full : ByteSet := ⟨.replicate 4 (-1)⟩

/-- A set with one byte added. -/
def insert (s : ByteSet) (b : UInt8) : ByteSet := s.modify b (· ||| mask b)

/-- A set with one byte taken out. -/
def erase (s : ByteSet) (b : UInt8) : ByteSet := s.modify b (· &&& ~~~mask b)

/-- The set of one byte. -/
def single (b : UInt8) : ByteSet := empty.insert b

/-- A set with the bytes from `lo` to `hi` added, both included; the set itself when `lo` is the
greater. -/
def insertRange (s : ByteSet) (lo hi : UInt8) : ByteSet := (Byte.interval lo hi).foldl insert s

/-- The bytes from `lo` to `hi`, both included; none when `lo` is the greater. -/
def range (lo hi : UInt8) : ByteSet := empty.insertRange lo hi

/-- The bytes of either set. -/
def union (s t : ByteSet) : ByteSet := ⟨.ofFn fun i => s.words[i] ||| t.words[i]⟩

/-- The bytes that a set lacks. -/
def compl (s : ByteSet) : ByteSet := ⟨.ofFn fun i => ~~~s.words[i]⟩

/-- The bytes of a set in ascending order. -/
def toList (s : ByteSet) : List UInt8 := Byte.all.filter s.contains

/-- A set with both cases of one byte added. -/
def insertCases (s : ByteSet) (b : UInt8) : ByteSet :=
  (s.insert (Byte.toLower b)).insert (Byte.toUpper b)

/-- A set with the other case of each of its letters added. -/
def foldCase (s : ByteSet) : ByteSet := (s.toList.filter Byte.isAlpha).foldl insertCases s

/-- The set of the bytes with a property. -/
def ofPredicate (p : UInt8 → Bool) : ByteSet := (Byte.all.filter p).foldl insert ∅

/-- Whether a set has no bytes. -/
def isEmpty (s : ByteSet) : Bool := s.words == .replicate 4 0

/-- The number of bytes in a set: the number of bits that are set in its words. -/
def size (s : ByteSet) : Nat :=
  s.words.toList.foldl (fun n word => n + word.toBitVec.cpop.toNat) 0

/-- Runs with a byte put behind them: it extends the last run when it is the one right behind it,
and is a run of its own otherwise. -/
def pushRun (runs : List (UInt8 × UInt8)) (b : UInt8) : List (UInt8 × UInt8) :=
  match runs.getLast? with
  | some (lo, hi) =>
    if Byte.succ? hi = some b then runs.dropLast ++ [(lo, b)] else runs ++ [(b, b)]
  | none => [(b, b)]

/-- The maximal runs of consecutive bytes of a set, in ascending order, both ends included. -/
def runs (s : ByteSet) : List (UInt8 × UInt8) := s.toList.foldl pushRun []

/-- The one byte of a set that has just one. -/
def single? (s : ByteSet) : Option UInt8 :=
  match s.runs with
  | [(lo, hi)] => if lo = hi then some lo else none
  | _ => none

/-- The written form of a run: one byte, or its ends with a hyphen between them. -/
def runText : UInt8 × UInt8 → String
  | (lo, hi) => if lo = hi then Byte.escaped lo else Byte.escaped lo ++ "-" ++ Byte.escaped hi

/-- The written form of a set: its runs in brackets, with nothing between them. -/
def text (s : ByteSet) : String := "[" ++ String.join (s.runs.map runText) ++ "]"

/-! ### Words and bits -/

theorem place_val (b : UInt8) : (place b).val = b.toNat / 64 := toNat_shiftRight_6 b

theorem toNat_and_63 (b : UInt8) : (b &&& 63).toNat = b.toNat % 64 := by
  rw [UInt8.toNat_and]
  exact Nat.and_two_pow_sub_one_eq_mod b.toNat 6

/-- A byte is told by its word and by the bit in it. -/
theorem place_eq_and_mod_eq_iff {a b : UInt8} :
    place a = place b ∧ a.toNat % 64 = b.toNat % 64 ↔ a = b := by
  rw [← UInt8.toNat_inj, Fin.ext_iff, place_val, place_val]
  omega

/-- The mask of a byte has one bit. -/
theorem toBitVec_mask (b : UInt8) : (mask b).toBitVec = BitVec.twoPow 64 (b.toNat % 64) := by
  have hshift : ((b &&& 63).toUInt64.toBitVec % 64).toNat = b.toNat % 64 := by
    rw [BitVec.toNat_umod, UInt64.toNat_toBitVec, UInt8.toNat_toUInt64, toNat_and_63]
    exact Nat.mod_mod _ _
  rw [mask, UInt64.toBitVec_shiftLeft, BitVec.shiftLeft_eq', hshift]
  rfl

/-- A word meets the mask of a byte when it has the bit of that byte. -/
theorem and_mask_ne_zero (word : UInt64) (b : UInt8) :
    (word &&& mask b != 0) = word.toBitVec.getLsbD (b.toNat % 64) := by
  have hlt : b.toNat % 64 < 64 := Nat.mod_lt _ (by decide)
  have hpow : BitVec.twoPow 64 (b.toNat % 64) ≠ 0#64 := fun h => by
    have hbit := congrArg (·.getLsbD (b.toNat % 64)) h
    simp [hlt] at hbit
  rw [Bool.eq_iff_iff, bne_iff_ne, Ne, ← UInt64.toBitVec_inj, UInt64.toBitVec_and, toBitVec_mask,
    BitVec.and_twoPow]
  cases word.toBitVec.getLsbD (b.toNat % 64) with
  | false => simp
  | true => simpa using hpow

theorem contains_eq_getLsbD (s : ByteSet) (b : UInt8) :
    s.contains b = (s.word b).toBitVec.getLsbD (b.toNat % 64) :=
  and_mask_ne_zero _ b

/-- A change to one word leaves the others. -/
theorem word_modify (s : ByteSet) (a b : UInt8) (f : UInt64 → UInt64) :
    (s.modify a f).word b = if place a = place b then f (s.word b) else s.word b := by
  simp only [word, modify, Vector.getElem_set, Fin.ext_iff]
  split
  · rename_i h
    simp only [h]
  · rfl

/-- Each bit of a word tells of a byte. -/
theorem contains_ofNat (s : ByteSet) {i j : Nat} (hi : i < 4) (hj : j < 64) :
    s.contains (UInt8.ofNat (64 * i + j)) = s.words[i].toBitVec.getLsbD j := by
  have hbyte : (UInt8.ofNat (64 * i + j)).toNat = 64 * i + j := by
    rw [UInt8.toNat_ofNat', Nat.mod_eq_of_lt]
    omega
  have hdiv : (64 * i + j) / 64 = i := by omega
  have hmod : (64 * i + j) % 64 = j := by omega
  simp only [contains_eq_getLsbD, word, place_val, hbyte, hdiv, hmod]

/-- Two sets with the same bytes are one. -/
@[ext]
theorem ext {s t : ByteSet} (h : ∀ b, s.contains b = t.contains b) : s = t := by
  have hwords : s.words = t.words := by
    refine Vector.ext fun i hi => ?_
    rw [← UInt64.toBitVec_inj]
    refine BitVec.eq_of_getLsbD_eq fun j hj => ?_
    rw [← s.contains_ofNat hi hj, ← t.contains_ofNat hi hj, h]
  obtain ⟨s⟩ := s
  obtain ⟨t⟩ := t
  exact congrArg mk hwords

/-! ### Membership -/

@[simp]
theorem contains_empty (b : UInt8) : empty.contains b = false := by
  simp [contains_eq_getLsbD, word, empty]

@[simp]
theorem contains_emptyCollection (b : UInt8) : (∅ : ByteSet).contains b = false :=
  contains_empty b

@[simp]
theorem contains_full (b : UInt8) : full.contains b = true := by
  have hlt : b.toNat % 64 < 64 := Nat.mod_lt _ (by decide)
  rw [contains_eq_getLsbD, word, full, Vector.getElem_replicate,
    show (-1 : UInt64).toBitVec = BitVec.allOnes 64 from rfl, BitVec.getLsbD_allOnes,
    decide_eq_true hlt]

@[simp]
theorem contains_insert (s : ByteSet) (a b : UInt8) :
    (s.insert a).contains b = (s.contains b || a == b) := by
  have hlt : b.toNat % 64 < 64 := Nat.mod_lt _ (by decide)
  rw [contains_eq_getLsbD, contains_eq_getLsbD, insert, word_modify, Bool.eq_iff_iff]
  simp only [Bool.or_eq_true, beq_iff_eq, ← place_eq_and_mod_eq_iff]
  split
  · rename_i h
    simp [toBitVec_mask, h, hlt, eq_comm (a := a.toNat % 64)]
  · rename_i h
    simp [h]

@[simp]
theorem contains_erase (s : ByteSet) (a b : UInt8) :
    (s.erase a).contains b = (s.contains b && a != b) := by
  have hlt : b.toNat % 64 < 64 := Nat.mod_lt _ (by decide)
  rw [contains_eq_getLsbD, contains_eq_getLsbD, erase, word_modify, Bool.eq_iff_iff]
  simp only [Bool.and_eq_true, bne_iff_ne, Ne, ← place_eq_and_mod_eq_iff]
  split
  · rename_i h
    simp [toBitVec_mask, h, hlt, eq_comm (a := a.toNat % 64)]
  · rename_i h
    simp [h]

@[simp]
theorem contains_single (a b : UInt8) : (single a).contains b = (a == b) := by
  rw [single, contains_insert, contains_empty, Bool.false_or]

/-- Inserting a list of bytes one by one adds the bytes of the list. -/
theorem contains_foldl_insert (bytes : List UInt8) (s : ByteSet) (b : UInt8) :
    (bytes.foldl insert s).contains b = (s.contains b || bytes.contains b) := by
  induction bytes generalizing s with
  | nil => simp
  | cons a bytes ih =>
    rw [List.foldl_cons, ih, contains_insert, List.contains_cons, Bool.or_assoc, Bool.beq_comm]

@[simp]
theorem contains_insertRange (s : ByteSet) (lo hi b : UInt8) :
    (s.insertRange lo hi).contains b = (s.contains b || decide (lo ≤ b) && decide (b ≤ hi)) := by
  rw [insertRange, contains_foldl_insert, Bool.eq_iff_iff]
  simp

@[simp]
theorem contains_range (lo hi b : UInt8) :
    (range lo hi).contains b = (decide (lo ≤ b) && decide (b ≤ hi)) := by
  rw [range, contains_insertRange, contains_empty, Bool.false_or]

@[simp]
theorem contains_union (s t : ByteSet) (b : UInt8) :
    (s.union t).contains b = (s.contains b || t.contains b) := by
  simp [contains_eq_getLsbD, word, union]

@[simp]
theorem contains_compl (s : ByteSet) (b : UInt8) : s.compl.contains b = !s.contains b := by
  have hlt : b.toNat % 64 < 64 := Nat.mod_lt _ (by decide)
  simp [contains_eq_getLsbD, word, compl, hlt]

@[simp]
theorem contains_ofPredicate (p : UInt8 → Bool) (b : UInt8) : (ofPredicate p).contains b = p b := by
  rw [Bool.eq_iff_iff]
  simp [ofPredicate, contains_foldl_insert]

@[simp]
theorem mem_toList {s : ByteSet} {b : UInt8} : b ∈ s.toList ↔ s.contains b = true := by
  simp [toList]

/-- Inserting both cases of letters adds each letter and that of the other case. -/
theorem contains_foldl_insertCases {letters : List UInt8}
    (h : ∀ a ∈ letters, Byte.isAlpha a = true) (s : ByteSet) (b : UInt8) :
    (letters.foldl insertCases s).contains b = true ↔
      s.contains b = true ∨ b ∈ letters ∨ Byte.swapCase b ∈ letters := by
  induction letters generalizing s with
  | nil => simp
  | cons a letters ih =>
    have hcases := Byte.toLower_or_toUpper_eq_iff (b := b) (h a List.mem_cons_self)
    rw [List.foldl_cons, ih fun a ha => h a (List.mem_cons_of_mem _ ha), insertCases,
      contains_insert, contains_insert]
    simp only [Bool.or_eq_true, beq_iff_eq, List.mem_cons]
    grind

/-- A set with both cases of its letters holds a byte when the set itself holds one of the cases. -/
theorem contains_foldCase (s : ByteSet) (b : UInt8) :
    s.foldCase.contains b = (s.contains b || s.contains (Byte.swapCase b)) := by
  rw [Bool.eq_iff_iff, foldCase, contains_foldl_insertCases fun a ha => (List.mem_filter.1 ha).2]
  simp only [List.mem_filter, mem_toList, Bool.or_eq_true, Byte.isAlpha_swapCase]
  cases hletter : Byte.isAlpha b with
  | false =>
    rw [Byte.swapCase_of_not_isAlpha hletter]
    simp
  | true => grind

/-- A set with both cases of its letters does not tell cases apart. -/
theorem contains_foldCase_swapCase (s : ByteSet) (b : UInt8) :
    s.foldCase.contains (Byte.swapCase b) = s.foldCase.contains b := by
  rw [contains_foldCase, contains_foldCase, Byte.swapCase_swapCase, Bool.or_comm]

end ByteSet

end PosixRegex
