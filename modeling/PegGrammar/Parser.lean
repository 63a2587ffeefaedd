import PegGrammar.Grammar.Map
import PegGrammar.Locator
import PegGrammar.Reader.Document

namespace PegGrammar

structure ParseOptions where
  /-- The tag of all locations in the result. -/
  source : SourceTag := none
  /-- The rule to start from, if one is asked for. -/
  startRule : Option String := none
  deriving DecidableEq, Repr

namespace ParseOptions

def onlyStartRule : String := "Grammar"

def startRuleName (o : ParseOptions) : String := o.startRule.getD onlyStartRule

def withSource (o : ParseOptions) (source : String) : ParseOptions :=
  { o with source := some source }

def withStartRule (o : ParseOptions) (rule : String) : ParseOptions :=
  { o with startRule := some rule }

end ParseOptions

abbrev Parsed := Except (ParseError Span) (Grammar Span)

/-- A document being read, possibly several times in a row. -/
structure Parser where
  source : Text
  tag : SourceTag
  locator : Locator
  state : State

namespace Parser

def ofString (source : String) (tag : SourceTag) : Parser where
  source := source.toList
  tag := tag
  locator := .ofText source.toList
  state := { rest := source.toList }

def locate (tag : SourceTag) :
    Except (ParseError ByteRange) (Grammar ByteRange) → OptionT (StateM Locator) Parsed
  | .ok g => return .ok (← g.mapM (Locator.span? tag))
  | .error e => return .error (← e.mapM (Locator.span? tag))

/-- Reads a document from where the parser stands. The parser keeps its place and its failures
for the next one. -/
def next (p : Parser) : Parsed × Parser :=
  let (result, state) := p.state.readDocument p.source
  let (located, locator) := (locate p.tag result).run p.locator
  (located.getD (.error .misplaced), { p with locator, state })

end Parser

def parseWith (options : ParseOptions) (source : String) : Parsed :=
  if options.startRuleName = ParseOptions.onlyStartRule then
    ((Parser.ofString source options.source).next).1
  else .error (.unknownStartRule options.startRuleName)

def parse (source : String) : Parsed := parseWith {} source

end PegGrammar
