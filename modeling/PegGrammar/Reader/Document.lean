import PegGrammar.Grammar
import PegGrammar.Reader.Expression

namespace PegGrammar

namespace Reader

def topLevelInitializer : Reader (Initializer ByteRange) := located do
  symbol '{'
  let code ← codeBlock
  symbol '}'
  statementEnd
  return (⟨code.value, code.range, ·⟩)

def initializer : Reader (Initializer ByteRange) := located do
  let code ← codeBlock
  statementEnd
  return (⟨code.value, code.range, ·⟩)

def displayName : Reader (String × Bool) := do
  let display ← lexeme "string" StringLiteral.stringLiteral
  trivia
  let verbose ← succeeds do
    symbol '~'
    trivia
  return (display.value, verbose)

def header : Reader (Token String × Option (String × Bool)) := do
  let name ← name
  trivia
  let display ← optional displayName
  symbol '='
  return (name, display)

def rule : Reader (Rule ByteRange) := located do
  let (name, display) ← header
  let body ← afterTrivia expression
  statementEnd
  match display with
  | some (display, verbose) =>
    return fun range => ⟨name.value, name.range, .named display verbose body range, range⟩
  | none => return (⟨name.value, name.range, body, ·⟩)

def thenTrivia {α : Type} (p : Reader α) : Reader α := do
  let a ← p
  trivia
  return a

def document : Reader (Grammar ByteRange) := located do
  trivia
  let topLevel ← optional (thenTrivia topLevelInitializer)
  let perParse ← optional (thenTrivia initializer)
  match ← many (thenTrivia rule) with
  | [] => nothing
  | rules => return (⟨topLevel, perParse, rules, ·⟩)

end Reader

def Failures.error (source : Text) (f : Failures) : ParseError ByteRange :=
  let found := (source.dropBytes? f.deepest).bind List.head?
  .unexpected f.expected found ⟨f.deepest, f.deepest + found.elim 0 Char.utf8Size⟩

/-- Reads a document that ends where the text ends. -/
def State.readDocument (source : Text) (st : State) :
    Except (ParseError ByteRange) (Grammar ByteRange) × State :=
  match Reader.document st with
  | .matched g st' =>
    if st'.rest.isEmpty then (.ok g, st')
    else
      let st' := st'.record .endOfInput
      (.error (st'.failures.error source), st')
  | .unmatched failures => (.error (failures.error source), { st with failures })
  | .disordered text range st' => (.error (.disorderedRange text range), st')

end PegGrammar
