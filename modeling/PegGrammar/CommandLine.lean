import PegGrammar.CommandLine.Command
import PegGrammar.Json.Render
import PegGrammar.Json.Write
import PegGrammar.Parser
import PegGrammar.Printer

namespace PegGrammar.CommandLine

def isLineBreak (c : Char) : Bool :=
  c ∈ ['\n', '\r', '\x0b', '\x0c', '\u0085', '\u2028', '\u2029']

/-- Whether a character ends a line when `s` comes after it. The two characters of a line break
stay together, and nothing starts after the end of the text. -/
def endsLine (c : Char) (s : Text) : Bool :=
  isLineBreak c && !s.isEmpty && !(c == '\r' && s.head? == some '\n')

def moveTo (target : Nat) : Position → Text → Position
  | p, [] => p
  | p, c :: s =>
    if target ≤ p.offset then p
    else if endsLine c s then moveTo target ⟨p.offset + c.utf8Size, p.line + 1, 1⟩ s
    else moveTo target ⟨p.offset + c.utf8Size, p.line, p.column + 1⟩ s

/-- The line above an excerpt from a file, which names the file and the position. -/
def excerptHeading (file : String) (source : Text) (offset : Nat) : String :=
  let p := moveTo offset {} source
  let margin := String.ofList (List.replicate ((toString p.line).length + 2) ' ')
  margin ++ "╭─[" ++ file ++ ":" ++ p.display ++ "]\n"

inductive ReadFailure where
  | missing
  | notDirectory
  | directory
  | nameTooLong
  | notUtf8
  | other (reason : String)
  deriving DecidableEq, Repr

def ReadFailure.message : ReadFailure → String
  | .missing => "No such file or directory (os error 2)"
  | .notDirectory => "Not a directory (os error 20)"
  | .directory => "Is a directory (os error 21)"
  | .nameTooLong => "File name too long (os error 36)"
  | .notUtf8 => "stream did not contain valid UTF-8"
  | .other reason => reason

/-- What a command leaves behind: an exit code, and what it has written on the two outputs. -/
structure Report where
  exitCode : Nat := 0
  output : String := ""
  errors : String := ""
  deriving DecidableEq, Repr

namespace Report

def usageError : Report := { exitCode := 2 }

def failure (errors : String) : Report := { exitCode := 1, errors }

def append (r t : Report) : Report where
  exitCode := max r.exitCode t.exitCode
  output := r.output ++ t.output
  errors := r.errors ++ t.errors

end Report

def describeReadFailure (file : String) (e : ReadFailure) : String :=
  "Error reading " ++ file ++ ": " ++ e.message ++ "\n"

def describeParseError (file source : String) (e : ParseError Span) : String :=
  let heading := e.location?.elim "" fun l => excerptHeading file source.toList l.start.offset
  "Error: " ++ e.message ++ "\n" ++ heading

/-- What is logged about parsing a file, which does not start from an unknown rule. -/
def parseLog (options : ParseOptions) (source : String) (result : Parsed) : String :=
  let start := "DEBUG parsing grammar source=" ++ options.source.display ++
    " len=" ++ toString source.utf8ByteSize ++ "\n"
  match result with
  | .error (.unknownStartRule _) => ""
  | .error e => start ++ "DEBUG grammar failed to parse error=" ++ e.message ++ "\n"
  | .ok g => start ++ "DEBUG parsed grammar rules=" ++ toString g.rules.length ++ "\n"

def summary (file : String) (g : Grammar Span) : String :=
  let named := (g.rules.filter (·.displayName.isSome)).length
  "✓ " ++ file ++ " - " ++ toString g.rules.length ++ " rules (" ++ toString named ++ " named)\n"

def whenVerbose (verbose : Bool) (log : String) : String := if verbose then log else ""

variable {m : Type → Type} [Monad m]

def withGrammar (readFile : String → m (Except ReadFailure String)) (verbose : Bool)
    (options : ParseOptions) (file : String) (write : Grammar Span → String) : m Report := do
  match ← readFile file with
  | .error e => return .failure (describeReadFailure file e)
  | .ok source =>
    let result := parseWith options source
    let log := whenVerbose verbose (parseLog options source result)
    match result with
    | .error e => return .failure (log ++ describeParseError file source e)
    | .ok g => return { output := write g, errors := log }

def checkAll (readFile : String → m (Except ReadFailure String)) (verbose : Bool) :
    List String → m Report
  | [] => return {}
  | file :: files => do
    let report ← withGrammar readFile verbose { source := some file } file (summary file)
    return report.append (← checkAll readFile verbose files)

def Command.run (readFile : String → m (Except ReadFailure String)) (verbose : Bool) :
    Command → m Report
  | .parse file pretty strip source startRule =>
    withGrammar readFile verbose ⟨some (source.getD file), startRule⟩ file fun g =>
      let j := (if strip then g.strip else g).toJson
      (if pretty then j.pretty else j.compact) ++ "\n"
  | .check files => do
    let report ← checkAll readFile verbose files
    let log := "DEBUG check finished files=" ++ toString files.length ++
      " all_ok=" ++ toString (report.exitCode == 0) ++ "\n"
    return report.append { errors := whenVerbose verbose log }
  | .format file => withGrammar readFile verbose { source := some file } file (·.print)

/-- Runs the command that the arguments give. -/
def run (readFile : String → m (Except ReadFailure String)) (args : List String) : m Report :=
  match Invocation.ofArguments? {} args with
  | some i => i.command.run readFile i.verbose
  | none => return .usageError

end PegGrammar.CommandLine
