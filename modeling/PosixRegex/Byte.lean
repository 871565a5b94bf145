/-!
# Bytes as ASCII characters

Patterns and haystacks are byte strings. A byte below 128 is read as an ASCII character; a byte from
128 on belongs to no class and has no case. The module holds the classes, the two case maps, and the
written form of a byte in which every byte shows as printable ASCII.
-/

namespace PosixRegex.Byte

/-- Whether a byte lies between two characters, ends included. -/
def between (lo hi : Char) (b : UInt8) : Bool :=
  lo.toUInt8 ≤ b && b ≤ hi.toUInt8

/-- A capital letter. -/
def isUpper (b : UInt8) : Bool := between 'A' 'Z' b

/-- A small letter. -/
def isLower (b : UInt8) : Bool := between 'a' 'z' b

/-- A letter of either case. -/
def isAlpha (b : UInt8) : Bool := isUpper b || isLower b

/-- A decimal digit. -/
def isDigit (b : UInt8) : Bool := between '0' '9' b

/-- A letter or a decimal digit. -/
def isAlnum (b : UInt8) : Bool := isAlpha b || isDigit b

/-- A blank that stays on its line: space or tab. -/
def isBlank (b : UInt8) : Bool := b == ' '.toUInt8 || b == '\t'.toUInt8

/-- A control character. -/
def isCntrl (b : UInt8) : Bool := b < 0x20 || b == 0x7f

/-- A visible character. -/
def isGraph (b : UInt8) : Bool := between '!' '~' b

/-- A visible character or the space. -/
def isPrint (b : UInt8) : Bool := between ' ' '~' b

/-- A visible character that is neither letter nor digit. -/
def isPunct (b : UInt8) : Bool := isGraph b && !isAlnum b

/-- White space: the space, and the controls from tab to carriage return. -/
def isSpace (b : UInt8) : Bool := b == ' '.toUInt8 || between '\t' '\r' b

/-- A hexadecimal digit of either case. -/
def isXdigit (b : UInt8) : Bool := isDigit b || between 'A' 'F' b || between 'a' 'f' b

/-- The small letter for a capital one; any other byte as it is. -/
def toLower (b : UInt8) : UInt8 := if isUpper b then b + 32 else b

/-- The capital letter for a small one; any other byte as it is. -/
def toUpper (b : UInt8) : UInt8 := if isLower b then b - 32 else b

/-- The letter of the other case; a byte that is no letter as it is. -/
def swapCase (b : UInt8) : UInt8 :=
  if isUpper b then b + 32 else if isLower b then b - 32 else b

/-- Equality of bytes up to the case of a letter. -/
def eqIgnoreCase (a b : UInt8) : Bool := toLower a == toLower b

/-- One digit in base sixteen, small letters above nine. -/
def hexDigit (n : Nat) : Char := Nat.digitChar n

/-- A byte as printable ASCII. Quotes and the backslash are marked by a backslash, tab, line feed
and carriage return have a letter, and every other byte outside the printable range is written in
two hexadecimal digits. -/
def escaped (b : UInt8) : String :=
  if b == '\t'.toUInt8 then "\\t"
  else if b == '\n'.toUInt8 then "\\n"
  else if b == '\r'.toUInt8 then "\\r"
  else if b == '\''.toUInt8 then "\\'"
  else if b == '"'.toUInt8 then "\\\""
  else if b == '\\'.toUInt8 then "\\\\"
  else if isPrint b then String.singleton (Char.ofUInt8 b)
  else String.ofList ['\\', 'x', hexDigit (b.toNat / 16), hexDigit (b.toNat % 16)]

/-- All bytes in ascending order. -/
def all : List UInt8 := (List.range 256).map UInt8.ofNat

/-- The bytes from `lo` to `hi`, both included, in ascending order; none when `lo` is the
greater. -/
def interval (lo hi : UInt8) : List UInt8 :=
  (List.range' lo.toNat (hi.toNat + 1 - lo.toNat)).map UInt8.ofNat

/-- The next byte; there is none behind the last one. -/
def succ? (b : UInt8) : Option UInt8 := if b = 255 then none else some (b + 1)

/-- Every byte is listed. -/
@[simp]
theorem mem_all (b : UInt8) : b ∈ all := by
  simp only [all, List.mem_map, List.mem_range]
  exact ⟨b.toNat, b.toNat_lt, UInt8.ofNat_toNat⟩

@[simp]
theorem mem_interval {lo hi b : UInt8} : b ∈ interval lo hi ↔ lo ≤ b ∧ b ≤ hi := by
  have hhi := hi.toNat_lt
  simp only [interval, List.mem_map, List.mem_range'_1, UInt8.le_iff_toNat_le]
  constructor
  · rintro ⟨n, hn, rfl⟩
    rw [UInt8.toNat_ofNat', Nat.mod_eq_of_lt (by omega)]
    omega
  · rintro ⟨hlo, hle⟩
    exact ⟨b.toNat, by omega, UInt8.ofNat_toNat⟩

theorem succ?_eq_some_iff {a b : UInt8} : succ? a = some b ↔ a.toNat + 1 = b.toNat := by
  have ha := a.toNat_lt
  have hb := b.toNat_lt
  rw [succ?]
  split
  · rename_i hlast
    subst hlast
    exact iff_of_false nofun (by simp; omega)
  · rename_i hnot
    rw [← UInt8.toNat_inj] at hnot
    rw [Option.some.injEq, ← UInt8.toNat_inj, UInt8.toNat_add, Nat.mod_eq_of_lt]
    · rfl
    · simp at hnot ⊢
      omega

/-! ### Letters -/

/-- Where the letters stand: capitals from 65 to 90, small letters from 97 to 122. -/
theorem toNat_letters : 'A'.toUInt8.toNat = 65 ∧ 'Z'.toUInt8.toNat = 90 ∧
    'a'.toUInt8.toNat = 97 ∧ 'z'.toUInt8.toNat = 122 := by
  decide

theorem between_iff (lo hi : Char) (b : UInt8) :
    between lo hi b = true ↔ lo.toUInt8.toNat ≤ b.toNat ∧ b.toNat ≤ hi.toUInt8.toNat := by
  rw [between, Bool.and_eq_true, decide_eq_true_eq, decide_eq_true_eq, UInt8.le_iff_toNat_le,
    UInt8.le_iff_toNat_le]

theorem isUpper_iff (b : UInt8) : isUpper b = true ↔ 65 ≤ b.toNat ∧ b.toNat ≤ 90 := by
  rw [isUpper, between_iff, toNat_letters.1, toNat_letters.2.1]

theorem isLower_iff (b : UInt8) : isLower b = true ↔ 97 ≤ b.toNat ∧ b.toNat ≤ 122 := by
  rw [isLower, between_iff, toNat_letters.2.2.1, toNat_letters.2.2.2]

theorem isAlpha_iff (b : UInt8) : isAlpha b = true ↔
    65 ≤ b.toNat ∧ b.toNat ≤ 90 ∨ 97 ≤ b.toNat ∧ b.toNat ≤ 122 := by
  rw [isAlpha, Bool.or_eq_true, isUpper_iff, isLower_iff]

theorem toNat_add_32 {b : UInt8} (h : b.toNat ≤ 90) : (b + 32).toNat = b.toNat + 32 := by
  rw [UInt8.toNat_add]
  exact Nat.mod_eq_of_lt (by simp; omega)

theorem toNat_sub_32 {b : UInt8} (h : 97 ≤ b.toNat) : (b - 32).toNat = b.toNat - 32 := by
  rw [UInt8.toNat_sub_of_le _ _ (UInt8.le_iff_toNat_le.2 (by simp; omega))]
  rfl

theorem toNat_toLower (b : UInt8) : (toLower b).toNat =
    if 65 ≤ b.toNat ∧ b.toNat ≤ 90 then b.toNat + 32 else b.toNat := by
  rw [toLower, apply_ite UInt8.toNat]
  simp only [isUpper_iff]
  split
  · rename_i h
    exact toNat_add_32 h.2
  · rfl

theorem toNat_toUpper (b : UInt8) : (toUpper b).toNat =
    if 97 ≤ b.toNat ∧ b.toNat ≤ 122 then b.toNat - 32 else b.toNat := by
  rw [toUpper, apply_ite UInt8.toNat]
  simp only [isLower_iff]
  split
  · rename_i h
    exact toNat_sub_32 h.1
  · rfl

theorem toNat_swapCase (b : UInt8) : (swapCase b).toNat =
    if 65 ≤ b.toNat ∧ b.toNat ≤ 90 then b.toNat + 32
    else if 97 ≤ b.toNat ∧ b.toNat ≤ 122 then b.toNat - 32
    else b.toNat := by
  simp only [swapCase, apply_ite UInt8.toNat, isUpper_iff, isLower_iff]
  split
  · rename_i h
    exact toNat_add_32 h.2
  · split
    · rename_i h
      exact toNat_sub_32 h.1
    · rfl

/-- Both cases of a letter have the same small letter. -/
@[simp]
theorem toLower_swapCase (b : UInt8) : toLower (swapCase b) = toLower b := by
  rw [← UInt8.toNat_inj, toNat_toLower, toNat_swapCase, toNat_toLower]
  grind

@[simp]
theorem swapCase_swapCase (b : UInt8) : swapCase (swapCase b) = b := by
  rw [← UInt8.toNat_inj, toNat_swapCase, toNat_swapCase]
  grind

/-- The two cases of a letter are the letter and that of the other case. -/
theorem toLower_or_toUpper_eq_iff {a b : UInt8} (ha : isAlpha a = true) :
    toLower a = b ∨ toUpper a = b ↔ b = a ∨ swapCase b = a := by
  rw [isAlpha_iff] at ha
  simp only [← UInt8.toNat_inj, toNat_toLower, toNat_toUpper, toNat_swapCase]
  grind

/-- A byte that is no letter has no other case. -/
theorem swapCase_of_not_isAlpha {b : UInt8} (h : isAlpha b = false) : swapCase b = b := by
  rw [← Bool.not_eq_true, isAlpha_iff] at h
  rw [← UInt8.toNat_inj, toNat_swapCase]
  grind

/-- The other case of a letter is a letter. -/
theorem isAlpha_swapCase (b : UInt8) : isAlpha (swapCase b) = isAlpha b := by
  rw [Bool.eq_iff_iff, isAlpha_iff, isAlpha_iff, toNat_swapCase]
  grind

end PosixRegex.Byte
