import PosixRegex.Grep.Report

/-!
# Printed bytes

The numbers of lines and their count are printed in decimal digits, and a colon sets them and the
name of a text off from what follows. Here the output is spelled out in bytes, with decimal digits
defined by division and nothing of how numbers are turned into text.

- `decimal`: the digits of a number, and `readDecimal_decimal`: the number is read back from them.
- `toList_toUTF8_toString`: the text of a number has these digits.
- `linePrefix_eq`, `countReport_eq`: what precedes a line, and the line for the count.
-/

namespace PosixRegex.Grep

/-! ### Numbers in decimal digits -/

/-- The byte of a decimal digit. -/
def digit (d : Nat) : UInt8 := '0'.toUInt8 + d.toUInt8

/-- The decimal digits of `n`, the highest one first. -/
def decimal (n : Nat) : List UInt8 :=
  if n < 10 then [digit n] else decimal (n / 10) ++ [digit (n % 10)]

theorem decimal_of_lt {n : Nat} (h : n < 10) : decimal n = [digit n] := by
  rw [decimal, if_pos h]

theorem decimal_of_le {n : Nat} (h : 10 ≤ n) :
    decimal n = decimal (n / 10) ++ [digit (n % 10)] := by
  rw [decimal, if_neg (Nat.not_lt.2 h)]

/-- The number whose decimal `digits` are given. -/
def readDecimal (digits : List UInt8) : Nat :=
  digits.foldl (fun n b => 10 * n + (b.toNat - '0'.toNat)) 0

theorem toNat_digit {d : Nat} (h : d < 10) : (digit d).toNat - '0'.toNat = d := by
  have hall : ∀ d < 10, (digit d).toNat - '0'.toNat = d := by decide
  exact hall d h

/-- A number is read back from its digits. -/
theorem readDecimal_decimal (n : Nat) : readDecimal (decimal n) = n := by
  induction n using decimal.induct with
  | case1 n hlt =>
    rw [decimal_of_lt hlt, readDecimal, List.foldl_cons, List.foldl_nil, toNat_digit hlt,
      Nat.mul_zero, Nat.zero_add]
  | case2 n hlt ih =>
    have hlast : n % 10 < 10 := Nat.mod_lt n (by decide)
    rw [decimal_of_le (Nat.le_of_not_lt hlt), readDecimal, List.foldl_append, ← readDecimal, ih,
      List.foldl_cons, List.foldl_nil, toNat_digit hlast]
    exact Nat.div_add_mod n 10

/-! ### The bytes of texts -/

/-- The bytes of an array, listed from a place on. -/
theorem byteArray_toList_loop (bytes : ByteArray) (i : Nat) (found : List UInt8) :
    ByteArray.toList.loop bytes i found = found.reverse ++ bytes.data.toList.drop i := by
  fun_induction ByteArray.toList.loop bytes i found with
  | case1 i found hlt ih =>
    have hlen : i < bytes.data.toList.length := hlt
    rw [ih, List.drop_eq_getElem_cons hlen, List.reverse_cons, List.append_assoc]
    refine congrArg (fun b => found.reverse ++ b :: bytes.data.toList.drop (i + 1)) ?_
    exact getElem!_pos bytes.data i hlt
  | case2 i found hle =>
    rw [List.drop_eq_nil_of_le (Nat.le_of_not_lt hle), List.append_nil]

theorem byteArray_toList (bytes : ByteArray) : bytes.toList = bytes.data.toList := by
  rw [ByteArray.toList, byteArray_toList_loop]
  rfl

/-- The bytes of two texts, one behind the other. -/
theorem toList_toUTF8_append (s t : String) :
    (s ++ t).toUTF8.toList = s.toUTF8.toList ++ t.toUTF8.toList := by
  simp only [byteArray_toList, String.toUTF8, String.toByteArray_append,
    ByteArray.toList_data_append]

theorem toList_toUTF8_ofList (cs : List Char) :
    (String.ofList cs).toUTF8.toList = cs.flatMap String.utf8EncodeChar := by
  rw [byteArray_toList, String.toUTF8, String.toByteArray_ofList, List.utf8Encode,
    List.toList_data_toByteArray]

theorem utf8EncodeChar_digitChar {d : Nat} (h : d < 10) :
    String.utf8EncodeChar d.digitChar = [digit d] := by
  have hall : ∀ d < 10, String.utf8EncodeChar (Nat.digitChar d) = [digit d] := by decide
  exact hall d h

/-- A number is printed in its decimal digits. -/
theorem toList_toUTF8_toString (n : Nat) : (toString n).toUTF8.toList = decimal n := by
  rw [Nat.toString_eq_ofList_toDigits, toList_toUTF8_ofList]
  induction n using decimal.induct with
  | case1 n hlt =>
    rw [Nat.toDigits_of_lt_base hlt, decimal_of_lt hlt, List.flatMap_singleton,
      utf8EncodeChar_digitChar hlt]
  | case2 n hlt ih =>
    have hlast : n % 10 < 10 := Nat.mod_lt n (by decide)
    rw [Nat.toDigits_of_base_le (by decide) (Nat.le_of_not_lt hlt), List.flatMap_append, ih,
      List.flatMap_singleton, utf8EncodeChar_digitChar hlast, decimal_of_le (Nat.le_of_not_lt hlt)]

/-! ### What precedes a line -/

/-- The `name` of a text and a colon, if the name is shown. -/
def heading : Option String → List UInt8
  | none => []
  | some name => name.toUTF8.toList ++ [':'.toUInt8]

theorem label_eq (content : String) : label content = content.toUTF8.toList ++ [':'.toUInt8] := by
  rw [label, toList_toUTF8_append]
  refine congrArg (content.toUTF8.toList ++ ·) ?_
  exact toList_toUTF8_ofList [':']

theorem heading_eq (name : Option String) : (name.map label).getD [] = heading name := by
  cases name with
  | none => rfl
  | some name => exact label_eq name

/-- A line of output begins with the name of the text, if it is shown, and the number of the line in
decimal digits, if it is asked for, each followed by a colon. -/
theorem linePrefix_eq (s : Settings) (name : Option String) (number : Nat) :
    linePrefix s name number =
      heading name ++ if s.numbered then decimal number ++ [':'.toUInt8] else [] := by
  rw [linePrefix, heading_eq, label_eq, toList_toUTF8_toString]

/-- The count is printed in decimal digits on a line of its own. -/
theorem countReport_eq (name : Option String) (selected : Nat) :
    countReport name selected = heading name ++ (decimal selected ++ [lineFeed]) := by
  rw [countReport, heading_eq, terminated, toList_toUTF8_toString]

end PosixRegex.Grep
