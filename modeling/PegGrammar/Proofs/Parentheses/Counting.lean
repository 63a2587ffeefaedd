import Mathlib.Algebra.GroupWithZero.Nat
import PegGrammar.Reader.Document

namespace PegGrammar

/-- Something that was read, with the number of its groups. -/
structure Counted (α : Type) where
  value : α
  groups : Nat
  deriving DecidableEq, Repr

def Counted.sum {α : Type} (as : List (Counted α)) : Nat := (as.map groups).sum

namespace Reader.Counting

def plain {α : Type} (p : Reader α) : Reader (Counted α) := do return ⟨← p, 0⟩

def afterTrivia (p : Reader (Counted Node)) : Reader (Counted Node) := fun st =>
  match (do trivia; p : Reader (Counted Node)) st with
  | .matched ⟨.sequence [] _, n⟩ st' =>
    .matched ⟨.sequence [] ⟨st.offset, st.offset⟩, n⟩ { st with failures := st'.failures }
  | r => r

/-- An expression in parentheses: one group more than between them. -/
def group (inner : Reader (Counted Node)) : Reader (Counted Node) := located do
  symbol '('
  let body ← afterTrivia inner
  trivia
  symbol ')'
  return fun range =>
    ⟨if body.value.hasLabels then .group body.value range else body.value, body.groups + 1⟩

def primary (inner : Reader (Counted Node)) : Reader (Counted Node) :=
  plain literal <|> plain charClass <|> plain any <|> plain ruleRef <|> plain predicate <|>
    group inner

def suffixed (inner : Reader (Counted Node)) : Reader (Counted Node) := located do
  let body ← primary inner
  match ← optional (do trivia; operator SuffixOp.symbol SuffixOp.all) with
  | some op => return fun range => ⟨.suffixed op body.value range, body.groups⟩
  | none => return fun _ => body

def prefixed (inner : Reader (Counted Node)) : Reader (Counted Node) :=
  (located do
    let op ← operator PrefixOp.symbol PrefixOp.all
    trivia
    let body ← suffixed inner
    return fun range => ⟨.prefixed op body.value range, body.groups⟩) <|>
  suffixed inner

def pick (inner : Reader (Counted Node)) : Reader (Counted Node) := located do
  let mark ← located do
    symbol '@'
    return id
  trivia
  let label ← optional label
  trivia
  let body ← prefixed inner
  match label with
  | some label => return fun range =>
      ⟨.labeled (some label.value) label.range true body.value range, body.groups⟩
  | none => return fun range => ⟨.labeled none mark true body.value range, body.groups⟩

def labeled (inner : Reader (Counted Node)) : Reader (Counted Node) :=
  pick inner <|>
  (located do
    let label ← label
    trivia
    let body ← prefixed inner
    return fun range =>
      ⟨.labeled (some label.value) label.range false body.value range, body.groups⟩) <|>
  prefixed inner

def elements (inner : Reader (Counted Node)) : Reader (List (Counted Node)) := do
  match ← optional (labeled inner) with
  | some first => return first :: (← many (do trivia; labeled inner))
  | none => return []

def sequence (inner : Reader (Counted Node)) : Reader (Counted Node) := located do
  match ← elements inner with
  | [e] => return fun range =>
      ⟨if e.value.isPick then .sequence [e.value] range else e.value, e.groups⟩
  | es => return fun range => ⟨.sequence (es.map Counted.value) range, Counted.sum es⟩

def action (inner : Reader (Counted Node)) : Reader (Counted Node) := located do
  let body ← sequence inner
  match ← optional (do trivia; codeBlock) with
  | some code => return fun range =>
      ⟨.action body.value code.value code.range range, body.groups⟩
  | none => return fun _ => body

def choice (inner : Reader (Counted Node)) : Reader (Counted Node) := located do
  let first ← action inner
  match ← many (do trivia; symbol '/'; afterTrivia (action inner)) with
  | [] => return fun _ => first
  | others => return fun range =>
      ⟨.choice ((first :: others).map Counted.value) range, Counted.sum (first :: others)⟩

def expression (st : State) : Result (Counted Node) :=
  choice (fun st' =>
    if st'.remaining < st.remaining then expression st' else nothing st') st
termination_by st.remaining

def rule : Reader (Counted (Rule ByteRange)) := located do
  let (name, display) ← header
  let body ← afterTrivia expression
  statementEnd
  match display with
  | some (display, verbose) => return fun range =>
      ⟨⟨name.value, name.range, .named display verbose body.value range, range⟩, body.groups⟩
  | none => return fun range => ⟨⟨name.value, name.range, body.value, range⟩, body.groups⟩

def document : Reader (Counted (Grammar ByteRange)) := located do
  trivia
  let topLevel ← optional (thenTrivia topLevelInitializer)
  let perParse ← optional (thenTrivia initializer)
  match ← many (thenTrivia rule) with
  | [] => nothing
  | rules => return fun range =>
      ⟨⟨topLevel, perParse, rules.map Counted.value, range⟩, Counted.sum rules⟩

end Reader.Counting

end PegGrammar
