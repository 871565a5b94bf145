/-!
# Lines

The lines of a text are the pieces between its line feeds. A line feed ends a line, so that one at
the end of the text begins no further line, and what follows the last line feed is a line only if it
is not empty.
-/

namespace PosixRegex.Grep

/-- The byte that ends a line. -/
def lineFeed : UInt8 := '\n'.toUInt8

/-- The lines of a text that goes on from the beginning of a line, given last byte first. -/
def linesFrom (begun : List UInt8) : List UInt8 → List (List UInt8)
  | [] => if begun.isEmpty then [] else [begun.reverse]
  | b :: rest =>
    if b = lineFeed then begun.reverse :: linesFrom [] rest else linesFrom (b :: begun) rest

/-- The lines of a text, without the line feeds that end them. -/
def lines (text : List UInt8) : List (List UInt8) := linesFrom [] text

/-- A line with its line feed. -/
def terminated (line : List UInt8) : List UInt8 := line ++ [lineFeed]

end PosixRegex.Grep
