namespace PegGrammar.CommandLine

inductive Command where
  /-- Write the tree of a file as JSON. -/
  | parse (file : String) (pretty strip : Bool) (source startRule : Option String)
  /-- Tell whether files can be read. -/
  | check (files : List String)
  /-- Write a file in canonical form. -/
  | format (file : String)
  deriving DecidableEq, Repr

inductive Argument where
  | plain (value : String)
  | long (name : String) (value : Option String)
  | short (names : List Char)
  /-- `--`, after which all arguments are plain. -/
  | separator
  deriving DecidableEq, Repr

def Argument.ofLong (cs : List Char) : Argument :=
  let name := cs.takeWhile (· != '=')
  match cs.dropWhile (· != '=') with
  | _ :: value => .long (String.ofList name) (some (String.ofList value))
  | [] => .long (String.ofList name) none

def Argument.ofString (arg : String) : Argument :=
  match arg.toList with
  | ['-', '-'] => .separator
  | '-' :: '-' :: cs => .ofLong cs
  | '-' :: c :: cs => .short (c :: cs)
  | _ => .plain arg

structure Arguments where
  verbose : Bool := false
  files : List String := []
  pretty : Bool := false
  strip : Bool := false
  source : Option String := none
  startRule : Option String := none
  deriving DecidableEq, Repr

namespace Arguments

def setVerbose (a : Arguments) : Option Arguments := some { a with verbose := true }

def setPretty (a : Arguments) : Option Arguments :=
  if a.pretty then none else some { a with pretty := true }

def setStrip (a : Arguments) : Option Arguments :=
  if a.strip then none else some { a with strip := true }

def setSource (a : Arguments) (value : String) : Option Arguments :=
  if a.source.isSome then none else some { a with source := some value }

def setStartRule (a : Arguments) (value : String) : Option Arguments :=
  if a.startRule.isSome then none else some { a with startRule := some value }

def addFile (a : Arguments) (file : String) : Option Arguments :=
  if file.isEmpty then none else some { a with files := a.files ++ [file] }

end Arguments

/-- The options that a command takes and what they set: switches by their long names and their
letters, and options with a value. -/
structure Options where
  switches : List (String × (Arguments → Option Arguments)) := []
  letters : List (Char × (Arguments → Option Arguments)) := []
  values : List (String × (Arguments → String → Option Arguments)) := []

namespace Options

/-- The switch for more detail in the log, which every command takes any number of times. -/
def verbose : Options where
  switches := [("verbose", Arguments.setVerbose)]
  letters := [('v', Arguments.setVerbose)]

def parse : Options where
  switches := verbose.switches ++
    [("pretty", Arguments.setPretty), ("strip-locations", Arguments.setStrip)]
  letters := verbose.letters ++ [('p', Arguments.setPretty)]
  values := [("source", Arguments.setSource), ("start-rule", Arguments.setStartRule)]

def applyLetters (o : Options) (a : Arguments) (names : List Char) : Option Arguments :=
  names.foldlM (fun a c => (o.letters.lookup c).bind (· a)) a

/-- Reads arguments from left to right; an option that is unknown, repeated or without its value
makes them all invalid. -/
def read (o : Options) : List String → Arguments → Option Arguments
  | [], a => some a
  | arg :: args, a =>
    match Argument.ofString arg with
    | .plain file => (a.addFile file).bind (o.read args)
    | .separator => args.foldlM Arguments.addFile a
    | .short names => (o.applyLetters a names).bind (o.read args)
    | .long name (some value) => do
      let set ← o.values.lookup name
      (set a value).bind (o.read args)
    | .long name none =>
      match o.switches.lookup name with
      | some set => (set a).bind (o.read args)
      | none => do
        let set ← o.values.lookup name
        match args with
        | value :: args =>
          match Argument.ofString value with
          | .plain value => (set a value).bind (o.read args)
          | _ => none
        | [] => none

end Options

structure Invocation where
  command : Command
  verbose : Bool
  deriving DecidableEq, Repr

namespace Invocation

/-- The command of a name, with its arguments; `a` has been read before the name. -/
def ofNamed? (a : Arguments) (name : String) (args : List String) : Option Invocation :=
  match name with
  | "parse" => do
    let a ← Options.parse.read args a
    let [file] := a.files | none
    return ⟨.parse file a.pretty a.strip a.source a.startRule, a.verbose⟩
  | "check" => do
    let a ← Options.verbose.read args a
    return ⟨.check a.files, a.verbose⟩
  | "fmt" => do
    let a ← Options.verbose.read args a
    let [file] := a.files | none
    return ⟨.format file, a.verbose⟩
  | _ => none

def ofArguments? (a : Arguments) : List String → Option Invocation
  | [] => none
  | arg :: args =>
    match Argument.ofString arg with
    | .plain name => ofNamed? a name args
    | .short names => (Options.verbose.applyLetters a names).bind fun a => ofArguments? a args
    | .long name none => do
      let set ← Options.verbose.switches.lookup name
      (set a).bind fun a => ofArguments? a args
    | _ => none

end Invocation

end PegGrammar.CommandLine
