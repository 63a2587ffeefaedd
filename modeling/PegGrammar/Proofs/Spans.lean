import PegGrammar.Proofs.Boundary
import PegGrammar.Proofs.Shape

namespace PegGrammar

variable {σ : Type}

namespace ByteRange

structure Proper (source : Text) (r : ByteRange) : Prop where
  inside : Inside source r
  start_le : r.start ≤ r.stop
  stop_le : r.stop ≤ source.byteSize

def Within (r whole : ByteRange) : Prop := whole.start ≤ r.start ∧ r.stop ≤ whole.stop

def Before (r s : ByteRange) : Prop := r.stop ≤ s.start

/-- The ranges lie inside another one, each before those that follow. -/
structure Row (whole : ByteRange) (rs : List ByteRange) : Prop where
  within : ∀ r ∈ rs, r.Within whole
  ordered : rs.Pairwise Before

theorem row_nil {whole : ByteRange} : whole.Row [] := ⟨nofun, .nil⟩

end ByteRange

def Text.Decodes {α : Type} (source : Text) (recognize : Text → Option (Lexeme α)) (value : α)
    (range : ByteRange) : Prop :=
  ∃ length rest, source.recognizeAt recognize range.start = some (⟨value, length⟩, rest) ∧
    rest.rangeAt range.start length = range

def Text.DecodesFlagged {α : Type} (source : Text) (recognize : Text → Option (Lexeme α)) (value : α)
    (ignoreCase : Bool) (range : ByteRange) : Prop :=
  ∃ mid, source.Decodes recognize value ⟨range.start, mid⟩ ∧
    source.slice? mid range.stop = some (if ignoreCase then ['i'] else []) ∧
    (ignoreCase = false → (source.dropBytes? range.stop).bind List.head? ≠ some 'i')

def ClassBody.ordered? (s : Text) : Option (Lexeme ClassBody) :=
  match classBody s with
  | .ok o => o
  | .error _ => none

namespace Expr

/-- The locations directly inside a node, in the order of the text. -/
def innerLocations : Expr σ → List σ
  | .named _ _ e _ => [e.location]
  | .choice es _ => es.map location
  | .action e _ k _ => [e.location, k]
  | .sequence es _ => es.map location
  | .labeled _ k _ e _ => [k, e.location]
  | .prefixed _ e _ => [e.location]
  | .suffixed _ e _ => [e.location]
  | .group e _ => [e.location]
  | .predicate _ _ k _ => [k]
  | .ruleRef .. => []
  | .literal .. => []
  | .charClass .. => []
  | .any _ => []

/-- What a node says stands in its document is what stands there. -/
def Pinned (source : Text) : Expr ByteRange → Prop
  | .action _ code k _ => source.slice? k.start k.stop = some code.toList
  | .labeled (some n) k _ _ _ => source.Decodes Name.name n k
  | .labeled none k _ _ _ => source.slice? k.start k.stop = some ['@']
  | .predicate _ code k _ => source.slice? k.start k.stop = some code.toList
  | .ruleRef n l => source.Decodes Name.name n l
  | .literal v i l => source.DecodesFlagged StringLiteral.stringLiteral v i l
  | .charClass ps v i l => source.DecodesFlagged ClassBody.ordered? ⟨ps, v⟩ i l
  | .any l => source.slice? l.start l.stop = some ['.']
  | _ => True

structure Arranged (source : Text) (e : Expr ByteRange) : Prop where
  row : e.location.Row e.innerLocations
  pinned : e.Pinned source

mutual

def Every (P : Expr σ → Prop) : Expr σ → Prop
  | e@(.named _ _ body _) => P e ∧ body.Every P
  | e@(.choice es _) => P e ∧ EveryList P es
  | e@(.action body _ _ _) => P e ∧ body.Every P
  | e@(.sequence es _) => P e ∧ EveryList P es
  | e@(.labeled _ _ _ body _) => P e ∧ body.Every P
  | e@(.prefixed _ body _) => P e ∧ body.Every P
  | e@(.suffixed _ body _) => P e ∧ body.Every P
  | e@(.group body _) => P e ∧ body.Every P
  | e@(.predicate ..) => P e
  | e@(.ruleRef ..) => P e
  | e@(.literal ..) => P e
  | e@(.charClass ..) => P e
  | e@(.any _) => P e

def EveryList (P : Expr σ → Prop) : List (Expr σ) → Prop
  | [] => True
  | e :: es => e.Every P ∧ EveryList P es

end

theorem Located.location {L : σ → Prop} {e : Expr σ} (h : e.Located L) : L e.location := by
  cases e with
  | named | choice | sequence | prefixed | suffixed | group | predicate => exact h.2
  | action | labeled => exact h.2.2
  | ruleRef | literal | charClass | any => exact h

end Expr

structure Initializer.Arranged (source : Text) (i : Initializer ByteRange) : Prop where
  within : i.codeLocation.Within i.location
  code : source.slice? i.codeLocation.start i.codeLocation.stop = some i.code.toList

structure Rule.Arranged (source : Text) (r : Rule ByteRange) : Prop where
  row : r.location.Row [r.nameLocation, r.body.location]
  name : source.Decodes Name.name r.name r.nameLocation
  named : ∀ n v e l, r.expression = .named n v e l → l = r.location
  expression : r.expression.Every (Expr.Arranged source)

/-- The statements of a document stand in it one after another, with all that is in them. -/
structure Grammar.Arranged (source : Text) (g : Grammar ByteRange) : Prop where
  proper : g.Located (ByteRange.Proper source)
  whole : g.location = ⟨0, source.byteSize⟩
  row : g.location.Row ((g.topLevel.toList ++ g.perParse.toList).map Initializer.location ++
    g.rules.map Rule.location)
  initializers : ∀ i ∈ g.topLevel.toList ++ g.perParse.toList, i.Arranged source
  rules : ∀ r ∈ g.rules, r.Arranged source

end PegGrammar
