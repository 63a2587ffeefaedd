import PegGrammar.Proofs.Offsets.Reading

namespace PegGrammar.Offsets

/-- Where a comment is missed that has been opened in front of `body`: at the end of its line. -/
def missedAt (source : Text) (body : Nat) : Except Fault Nat := do
  let rest ← sliceFrom source body
  return ((findLineEnd? rest).map (body + ·)).getD source.byteSize

def skipTilde (source : Text) (pos : Nat) : Except Fault Nat :=
  match literalAt? source pos ['~'] with
  | some stop => skip source stop
  | none => .ok pos

/-- Whether a name that ends here is the name of a rule that is being defined. -/
def startsRule (source : Text) (pos : Nat) : Except Fault Bool := do
  let pos ← skip source pos
  let pos ←
    match ← (stringLiteral source pos).run with
    | some (_, stop) => do skipTilde source (← skip source stop)
    | none => .ok pos
  return (literalAt? source pos ['=']).isSome

abbrev Node := Expr Span

namespace Reader

def trivia : Reader Unit := do
  let stop ← look skip
  moveTo stop
  expect (.named "whitespace")
  expect (.named "end of line")
  expect (.named "comment")

def missInlineComment : Reader Unit := do
  match ← look fun source pos => .ok (literalAt? source pos ['/', '*']) with
  | some body =>
    let stop ← look fun source _ => missedAt source body
    let atEnd ← look fun source _ => .ok (stop == source.byteSize)
    if atEnd then expectAt stop .any
    expectAt stop (.literal "*/")
  | none => expect (.literal "/*")

def inlineTrivia : Reader Unit := do
  let stop ← look skipInline
  moveTo stop
  expect (.named "whitespace")
  missInlineComment

def lineComment : Reader Unit := do
  match ← look fun source pos => (Offsets.lineComment source pos).run with
  | some stop => moveTo stop
  | none => expect (.literal "//")

def lineEnd : Reader Unit := do
  match ← look fun source pos => (Offsets.lineEnd source pos).run with
  | some stop => moveTo stop
  | none => fail (.named "end of line")

def endOfInput : Reader Unit := do
  if ← look fun source pos => .ok (decide (source.byteSize ≤ pos)) then return ()
  else fail .endOfInput

def statementEnd : Reader Unit :=
  restoring (do trivia; symbol ';') <|>
  restoring (do inlineTrivia; lineComment; lineEnd) <|>
  restoring (do trivia; endOfInput)

/-- An empty sequence goes back to where it was looked for. -/
def giveBack (before : Nat) : Node → Reader Node
  | .sequence [] _ => do
    moveTo before
    let location ← span ⟨before, before⟩
    return .sequence [] location
  | e => return e

def afterTrivia (p : Reader Node) : Reader Node := do
  let before ← here
  let e ← (do trivia; backTo before p : Reader Node)
  giveBack before e

def literal : Reader Node := do
  let start ← here
  let text ← lexeme "literal" stringLiteral
  let ignoreCase ← accepts 'i'
  let location ← spanFrom start
  return .literal text.value ignoreCase location

def charClass : Reader Node := do
  let start ← here
  let body ← classBody
  let ignoreCase ← accepts 'i'
  let location ← spanFrom start
  return .charClass body.parts body.inverted ignoreCase location

def any : Reader Node := do
  let start ← here
  symbol '.'
  let location ← spanFrom start
  return .any location

def ruleRef : Reader Node := do
  let start ← here
  let target ← name
  if ← look startsRule then backTo start nothing
  else
    let location ← spanFrom start
    return .ruleRef target.value location

def predicate : Reader Node := do
  let start ← here
  let polarity ← operator Polarity.symbol Polarity.all
  trivia
  let code ← backTo start codeBlock
  let codeLocation ← span code.range
  let location ← spanFrom start
  return .predicate polarity code.value codeLocation location

def group (inner : Reader Node) : Reader Node := do
  let start ← here
  symbol '('
  let body ← backTo start (afterTrivia inner)
  trivia
  backTo start (symbol ')')
  if body.hasLabels then
    let location ← spanFrom start
    return .group body location
  else return body

def primary (inner : Reader Node) : Reader Node :=
  literal <|> charClass <|> any <|> ruleRef <|> predicate <|> group inner

def suffixed (inner : Reader Node) : Reader Node := do
  let start ← here
  let body ← primary inner
  match ← optional (restoring (do trivia; operator SuffixOp.symbol SuffixOp.all)) with
  | some op =>
    let location ← spanFrom start
    return .suffixed op body location
  | none => return body

def operated (inner : Reader Node) : Reader Node := do
  let start ← here
  let op ← operator PrefixOp.symbol PrefixOp.all
  trivia
  let body ← backTo start (suffixed inner)
  let location ← spanFrom start
  return .prefixed op body location

def prefixed (inner : Reader Node) : Reader Node := operated inner <|> suffixed inner

def label : Reader (Token String) := do
  let start ← here
  let label ← name
  trivia
  backTo start (symbol ':')
  return label

def pick (inner : Reader Node) : Reader Node := do
  let start ← here
  symbol '@'
  let mark ← spanFrom start
  trivia
  let label ← optional label
  trivia
  let body ← backTo start (prefixed inner)
  match label with
  | some label =>
    let labelLocation ← span label.range
    let location ← spanFrom start
    return .labeled (some label.value) labelLocation true body location
  | none =>
    let location ← spanFrom start
    return .labeled none mark true body location

def withLabel (inner : Reader Node) : Reader Node := do
  let start ← here
  let label ← label
  trivia
  let body ← backTo start (prefixed inner)
  let labelLocation ← span label.range
  let location ← spanFrom start
  return .labeled (some label.value) labelLocation false body location

def labeled (inner : Reader Node) : Reader Node :=
  pick inner <|> withLabel inner <|> prefixed inner

def elements (inner : Reader Node) : Reader (List Node) := do
  match ← optional (labeled inner) with
  | some first => return first :: (← many (restoring (do trivia; labeled inner)))
  | none => return []

def sequence (inner : Reader Node) : Reader Node := do
  let start ← here
  match ← elements inner with
  | [e] =>
    if e.isPick then
      let location ← spanFrom start
      return .sequence [e] location
    else return e
  | es =>
    let location ← spanFrom start
    return .sequence es location

def action (inner : Reader Node) : Reader Node := do
  let start ← here
  let body ← sequence inner
  match ← optional (restoring (do trivia; codeBlock)) with
  | some code =>
    let codeLocation ← span code.range
    let location ← spanFrom start
    return .action body code.value codeLocation location
  | none => return body

def choice (inner : Reader Node) : Reader Node := do
  let start ← here
  let first ← action inner
  match ← many (restoring (do trivia; symbol '/'; afterTrivia (action inner))) with
  | [] => return first
  | others =>
    let location ← spanFrom start
    return .choice (first :: others) location

def expression (d : Document) (c : Cursor) : Except Fault (Outcome Node) :=
  choice (fun _ c' =>
    if d.source.byteSize - c'.pos < d.source.byteSize - c.pos then expression d c'
    else nothing d c') d c
termination_by d.source.byteSize - c.pos

def topLevelInitializer : Reader (Initializer Span) := do
  let start ← here
  symbol '{'
  let code ← backTo start codeBlock
  backTo start (symbol '}')
  backTo start statementEnd
  let codeLocation ← span code.range
  let location ← spanFrom start
  return ⟨code.value, codeLocation, location⟩

def initializer : Reader (Initializer Span) := do
  let start ← here
  let code ← codeBlock
  backTo start statementEnd
  let codeLocation ← span code.range
  let location ← spanFrom start
  return ⟨code.value, codeLocation, location⟩

def displayName : Reader (String × Bool) := do
  let display ← lexeme "string" stringLiteral
  trivia
  let verbose ← succeeds do
    symbol '~'
    trivia
  return (display.value, verbose)

def header : Reader (Token String × Option (String × Bool)) := do
  let start ← here
  let name ← name
  trivia
  let display ← optional displayName
  backTo start (symbol '=')
  return (name, display)

def rule : Reader (Rule Span) := do
  let start ← here
  let (name, display) ← header
  let body ← backTo start (afterTrivia expression)
  backTo start statementEnd
  let location ← spanFrom start
  let nameLocation ← span name.range
  match display with
  | some (display, verbose) =>
    return ⟨name.value, nameLocation, .named display verbose body location, location⟩
  | none => return ⟨name.value, nameLocation, body, location⟩

def thenTrivia {α : Type} (p : Reader α) : Reader α := do
  let a ← p
  trivia
  return a

def document : Reader (Grammar Span) := do
  let start ← here
  trivia
  let topLevel ← optional (thenTrivia topLevelInitializer)
  let perParse ← optional (thenTrivia initializer)
  match ← many (thenTrivia rule) with
  | [] => backTo start nothing
  | rules =>
    let location ← spanFrom start
    return ⟨topLevel, perParse, rules, location⟩

end Reader

end PegGrammar.Offsets
