import PosixRegex.Grep.Run

/-!
# The command line

Prints the lines of files, or of standard input, that match an extended regular expression.
-/

namespace PosixRegex.Grep

/-- What the arguments ask for. -/
structure Request where
  /-- What to look for and what to print. -/
  settings : Settings := {}
  /-- The pattern and the names of files, last one first. -/
  operands : List String := []

/-- Takes a flag into account. -/
def Request.withFlag? (q : Request) : String → Option Request
  | "E" => some q
  | "i" | "ignore-case" => some { q with settings.ignoreCase := true }
  | "v" | "invert-match" => some { q with settings.invert := true }
  | "c" | "count" => some { q with settings.countOnly := true }
  | "o" | "only-matching" => some { q with settings.matchesOnly := true }
  | "n" | "line-number" => some { q with settings.numbered := true }
  | "x" | "line-regexp" => some { q with settings.wholeLine := true }
  | _ => none

/-- Takes an argument into account: a long flag, several short ones, a pattern or a name. -/
def Request.withArgument? (q : Request) (argument : String) : Option Request :=
  match argument.toList with
  | '-' :: '-' :: name => q.withFlag? (String.ofList name)
  | '-' :: c :: flags => (c :: flags).foldlM (fun q c => q.withFlag? (String.singleton c)) q
  | _ => some { q with operands := argument :: q.operands }

/-- Reads the arguments. After two hyphens, every argument is an operand. -/
def Request.ofArguments? (q : Request) : List String → Option Request
  | [] => some q
  | "--" :: rest => some { q with operands := rest.reverse ++ q.operands }
  | argument :: rest => (q.withArgument? argument).bind (·.ofArguments? rest)

/-- Reads a file. -/
def readFile (name : String) : IO File := do
  try
    let content ← IO.FS.readBinFile name
    return ⟨name, .ok content.toList⟩
  catch
    | .noFileOrDirectory .. => return ⟨name, .error .notFound⟩
    | e => return ⟨name, .error (.other (toString e))⟩

/-- Reads what is left of a stream, after what has been read already. -/
partial def readRest (stream : IO.FS.Stream) (read : ByteArray) : IO ByteArray := do
  let more ← stream.read 65536
  if more.isEmpty then return read
  readRest stream (read ++ more)

/-- Runs a search and prints what comes of it. -/
def execute (settings : Settings) (pattern : String) (names : List String) : IO UInt32 := do
  let files ← names.mapM readFile
  let input ← if files.isEmpty then readRest (← IO.getStdin) .empty else pure .empty
  let result := run settings pattern input.toList files
  let stdout ← IO.getStdout
  stdout.write ⟨result.output.toArray⟩
  stdout.flush
  IO.eprint result.complaint
  return UInt32.ofNat result.status

/-- The command: flags, a pattern, and the names of files. -/
def command (arguments : List String) : IO UInt32 := do
  match (Request.ofArguments? {} arguments).map fun q => (q.settings, q.operands.reverse) with
  | some (settings, pattern :: names) => execute settings pattern names
  | _ =>
    IO.eprintln "usage: ere [-E] [-ivconx] [--] PATTERN [FILE]..."
    return 2

end PosixRegex.Grep

/-- Runs the command with the arguments given to the program. -/
def main (arguments : List String) : IO UInt32 := PosixRegex.Grep.command arguments
