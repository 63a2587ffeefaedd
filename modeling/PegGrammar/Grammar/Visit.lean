import PegGrammar.Grammar
import PegGrammar.Span

namespace PegGrammar

variable {σ : Type}

inductive Visit (σ : Type) where
  | grammar
  | rule (name : String)
  | expr (kind : String) (pick : Bool)
  | location (l : σ)
  deriving DecidableEq, Repr

def Visit.display : Visit Span → String
  | .grammar => "grammar"
  | .rule name => "rule " ++ name
  | .expr kind pick => "expr " ++ kind ++ if pick then " pick" else ""
  | .location l => "span " ++ l.display

namespace Expr

mutual

def visits : Expr σ → List (Visit σ)
  | e@(.named _ _ body l) => .expr e.kind e.isPick :: (body.visits ++ [.location l])
  | e@(.choice es l) => .expr e.kind e.isPick :: (listVisits es ++ [.location l])
  | e@(.action body _ k l) => .expr e.kind e.isPick :: (body.visits ++ [.location k, .location l])
  | e@(.sequence es l) => .expr e.kind e.isPick :: (listVisits es ++ [.location l])
  | e@(.labeled _ k _ body l) =>
    .expr e.kind e.isPick :: .location k :: (body.visits ++ [.location l])
  | e@(.prefixed _ body l) => .expr e.kind e.isPick :: (body.visits ++ [.location l])
  | e@(.suffixed _ body l) => .expr e.kind e.isPick :: (body.visits ++ [.location l])
  | e@(.group body l) => .expr e.kind e.isPick :: (body.visits ++ [.location l])
  | e@(.predicate _ _ k l) => [.expr e.kind e.isPick, .location k, .location l]
  | e@(.ruleRef _ l) => [.expr e.kind e.isPick, .location l]
  | e@(.literal _ _ l) => [.expr e.kind e.isPick, .location l]
  | e@(.charClass _ _ _ l) => [.expr e.kind e.isPick, .location l]
  | e@(.any l) => [.expr e.kind e.isPick, .location l]

def listVisits : List (Expr σ) → List (Visit σ)
  | [] => []
  | e :: es => e.visits ++ listVisits es

end

end Expr

def Initializer.visits (i : Initializer σ) : List (Visit σ) :=
  [.location i.codeLocation, .location i.location]

def Rule.visits (r : Rule σ) : List (Visit σ) :=
  .rule r.name :: .location r.nameLocation :: (r.expression.visits ++ [.location r.location])

def Grammar.visits (g : Grammar σ) : List (Visit σ) :=
  .grammar :: (g.topLevel.elim [] (·.visits) ++ g.perParse.elim [] (·.visits) ++
    g.rules.flatMap (·.visits) ++ [.location g.location])

end PegGrammar
