import PosixRegex.Grep.Report

/-!
# A whole run

A run compiles the pattern, then searches the given files in order, or standard input when there are
none. It stops at the first failure, and what was printed before stays printed.
-/

namespace PosixRegex.Grep

/-- Why a file cannot be read. -/
inductive ReadError where
  /-- There is no such file. -/
  | notFound
  /-- Another reason, in words. -/
  | other (reason : String)
deriving DecidableEq, Repr, Inhabited

/-- The text shown for a file that cannot be read. -/
def ReadError.message : ReadError → String
  | notFound => "No such file or directory (os error 2)"
  | other reason => reason

/-- A file that is to be searched. -/
structure File where
  /-- The name under which it was given. -/
  name : String
  /-- What is in it. -/
  content : Except ReadError (List UInt8)
deriving Inhabited

/-- Why a run is given up. -/
inductive Failure where
  /-- The pattern cannot be compiled. -/
  | badPattern (pattern : String) (cause : Error)
  /-- A file cannot be read. -/
  | unreadable (name : String) (cause : ReadError)
  /-- A search was given up. -/
  | search (cause : Error)
deriving DecidableEq, Repr, Inhabited

/-- The text shown for a failure. -/
def Failure.message : Failure → String
  | badPattern pattern cause => "invalid pattern " ++ Text.quoted pattern ++ ": " ++ cause.message
  | unreadable name cause => "failed to read " ++ name ++ ": " ++ cause.message
  | search cause => cause.message

/-- What a run leaves behind. -/
structure Result where
  /-- The bytes printed on standard output. -/
  output : List UInt8 := []
  /-- Whether a line was selected, or why the run was given up. -/
  verdict : Except Failure Bool
deriving Inhabited

namespace Result

/-- The exit status: 0 when a line was selected, 1 when none was, 2 after a failure. -/
def status (r : Result) : Nat :=
  match r.verdict with
  | .ok true => 0
  | .ok false => 1
  | .error _ => 2

/-- The text printed on standard error. -/
def complaint (r : Result) : String :=
  match r.verdict with
  | .ok _ => ""
  | .error failure => "ere: " ++ failure.message ++ "\n"

/-- The result of a part of a run, put in front of the result of what comes after it. What comes
after a failure does not count. -/
def andThen (first rest : Result) : Result :=
  match first.verdict with
  | .error _ => first
  | .ok selected => ⟨first.output ++ rest.output, rest.verdict.map (selected || ·)⟩

end Result

/-- The result of searching one text. -/
def Outcome.toResult (o : Outcome) : Result where
  output := o.output
  verdict :=
    match o.failure with
    | some e => .error (.search e)
    | none => .ok o.selected

/-- Searches a file. -/
def searchFile (s : Settings) (r : Regex) (labelled : Bool) (file : File) : Result :=
  match file.content with
  | .error e => ⟨[], .error (.unreadable file.name e)⟩
  | .ok text => (searchText s r (if labelled then some file.name else none) text).toResult

/-- Searches files one after the other. -/
def searchFiles (s : Settings) (r : Regex) (labelled : Bool) : List File → Result
  | [] => ⟨[], .ok false⟩
  | file :: files => (searchFile s r labelled file).andThen (searchFiles s r labelled files)

/-- Runs a search for a pattern. The names of files are shown when there are several. -/
def run (s : Settings) (pattern : String) (input : List UInt8) (files : List File) : Result :=
  match Regex.compile pattern.toUTF8.toList s.options with
  | .error e => ⟨[], .error (.badPattern pattern e)⟩
  | .ok r =>
    if files.isEmpty then (searchText s r none input).toResult
    else searchFiles s r (1 < files.length) files

end PosixRegex.Grep
