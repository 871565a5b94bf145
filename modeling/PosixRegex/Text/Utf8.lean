/-!
# Bytes as UTF-8 text

Two readings of a byte string as text. `Text.ofBytes?` reads valid UTF-8 only. `Text.ofBytesLossy`
reads any bytes: each maximal piece that starts a character but does not finish it, and each byte
that starts none, becomes one replacement character.
-/

namespace PosixRegex.Text

/-- The text with a given UTF-8 encoding. -/
def ofBytes? (bytes : List UInt8) : Option String :=
  String.fromUTF8? ⟨bytes.toArray⟩

/-- The character that stands for bytes which are no text. -/
def replacement : Char := '\ufffd'

/-- The number of bytes of the character that a byte starts, and the limits on the byte after it;
`none` for a byte that starts no character of more than one byte. The limits keep out overlong
forms, surrogates and code points beyond the last plane. -/
def leadByte? (b : UInt8) : Option (Nat × UInt8 × UInt8) :=
  if 0xc2 ≤ b ∧ b ≤ 0xdf then some (2, 0x80, 0xbf)
  else if b = 0xe0 then some (3, 0xa0, 0xbf)
  else if b = 0xed then some (3, 0x80, 0x9f)
  else if 0xe1 ≤ b ∧ b ≤ 0xef then some (3, 0x80, 0xbf)
  else if b = 0xf0 then some (4, 0x90, 0xbf)
  else if 0xf1 ≤ b ∧ b ≤ 0xf3 then some (4, 0x80, 0xbf)
  else if b = 0xf4 then some (4, 0x80, 0x8f)
  else none

/-- The longest run of continuation bytes at the front of a text, at most `n` of them, of which the
first lies between `lo` and `hi`. -/
def continuation (lo hi : UInt8) : Nat → List UInt8 → List UInt8
  | 0, _ => []
  | _ + 1, [] => []
  | n + 1, b :: rest => if lo ≤ b ∧ b ≤ hi then b :: continuation 0x80 0xbf n rest else []

/-- The code point of a character's bytes: the low bits of the first byte, then six bits of each
byte that follows. -/
def codePointOf (lead : UInt8) (tail : List UInt8) : Nat :=
  tail.foldl (fun n b => n * 64 + b.toNat % 64) (lead.toNat % (64 >>> tail.length))

/-- Reads bytes as text with replacements, at most one character for each byte of `allowance`. -/
def lossyChars : (allowance : List UInt8) → List UInt8 → List Char
  | [], _ | _ :: _, [] => []
  | _ :: allowance, b :: rest =>
    if b < 0x80 then
      Char.ofUInt8 b :: lossyChars allowance rest
    else
      match leadByte? b with
      | none => replacement :: lossyChars allowance rest
      | some (size, lo, hi) =>
        let tail := continuation lo hi (size - 1) rest
        let c := if tail.length + 1 = size then Char.ofNat (codePointOf b tail) else replacement
        c :: lossyChars allowance (rest.drop tail.length)

/-- The text of any bytes, with a replacement character for each piece that is no UTF-8. -/
def ofBytesLossy (bytes : List UInt8) : String :=
  String.ofList (lossyChars bytes bytes)

end PosixRegex.Text
