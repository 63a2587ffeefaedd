import PegGrammar.Expr
import PegGrammar.Reader

namespace PegGrammar

abbrev Node := Expr ByteRange

/-- Parentheses around labeled elements and sequences keep their labels apart from those outside;
around other expressions they only group. -/
def Expr.hasLabels {σ : Type} : Expr σ → Bool
  | .labeled .. => true
  | .sequence .. => true
  | _ => false

namespace Reader

def skipTrivia (s : Text) : Text := s.drop (Trivia.skip s)

/-- Whether a name followed by this text is the name of a rule that is being defined: after it
come an optional display name and an equals sign. -/
def startsRule (s : Text) : Bool :=
  let s := skipTrivia s
  let s :=
    match StringLiteral.stringLiteral s with
    | some display =>
      match skipTrivia (s.drop display.length) with
      | '~' :: t => skipTrivia t
      | t => t
    | none => s
  s.head? = some '='

/-- Trivia, then an expression. An empty sequence leaves the trivia to whatever follows. -/
def afterTrivia (p : Reader Node) : Reader Node := fun st =>
  match (do trivia; p : Reader Node) st with
  | .matched (.sequence [] _) st' =>
    .matched (.sequence [] ⟨st.offset, st.offset⟩) { st with failures := st'.failures }
  | r => r

def literal : Reader Node := located do
  let text ← lexeme "literal" StringLiteral.stringLiteral
  let ignoreCase ← accepts 'i'
  return .literal text.value ignoreCase

def charClass : Reader Node := located do
  let body ← classBody
  let ignoreCase ← accepts 'i'
  return .charClass body.parts body.inverted ignoreCase

def any : Reader Node := located do
  symbol '.'
  return .any

def ruleRef : Reader Node := located do
  let target ← name
  if startsRule (← ahead) then nothing else return .ruleRef target.value

def predicate : Reader Node := located do
  let polarity ← operator Polarity.symbol Polarity.all
  trivia
  let code ← codeBlock
  return .predicate polarity code.value code.range

def group (inner : Reader Node) : Reader Node := located do
  symbol '('
  let body ← afterTrivia inner
  trivia
  symbol ')'
  return fun range => if body.hasLabels then .group body range else body

def primary (inner : Reader Node) : Reader Node :=
  literal <|> charClass <|> any <|> ruleRef <|> predicate <|> group inner

def suffixed (inner : Reader Node) : Reader Node := located do
  let body ← primary inner
  match ← optional (do trivia; operator SuffixOp.symbol SuffixOp.all) with
  | some op => return .suffixed op body
  | none => return fun _ => body

def prefixed (inner : Reader Node) : Reader Node :=
  (located do
    let op ← operator PrefixOp.symbol PrefixOp.all
    trivia
    let body ← suffixed inner
    return .prefixed op body) <|>
  suffixed inner

def label : Reader (Token String) := do
  let label ← name
  trivia
  symbol ':'
  return label

/-- An element whose value is picked. Without a label, the mark stands in for one. -/
def pick (inner : Reader Node) : Reader Node := located do
  let mark ← located do
    symbol '@'
    return id
  trivia
  let label ← optional label
  trivia
  let body ← prefixed inner
  match label with
  | some label => return .labeled (some label.value) label.range true body
  | none => return .labeled none mark true body

def labeled (inner : Reader Node) : Reader Node :=
  pick inner <|>
  (located do
    let label ← label
    trivia
    let body ← prefixed inner
    return .labeled (some label.value) label.range false body) <|>
  prefixed inner

def elements (inner : Reader Node) : Reader (List Node) := do
  match ← optional (labeled inner) with
  | some first => return first :: (← many (do trivia; labeled inner))
  | none => return []

/-- Elements in a row. One alone is no sequence, unless it is a pick. -/
def sequence (inner : Reader Node) : Reader Node := located do
  match ← elements inner with
  | [e] => return fun range => if e.isPick then .sequence [e] range else e
  | es => return .sequence es

def action (inner : Reader Node) : Reader Node := located do
  let body ← sequence inner
  match ← optional (do trivia; codeBlock) with
  | some code => return .action body code.value code.range
  | none => return fun _ => body

def choice (inner : Reader Node) : Reader Node := located do
  let first ← action inner
  match ← many (do trivia; symbol '/'; afterTrivia (action inner)) with
  | [] => return fun _ => first
  | others => return .choice (first :: others)

/-- An expression. An inner expression is read from what is left after its parenthesis. -/
def expression (st : State) : Result Node :=
  choice (fun st' =>
    if st'.remaining < st.remaining then expression st' else nothing st') st
termination_by st.remaining

end Reader

end PegGrammar
