import PegGrammar.Grammar

namespace PegGrammar

variable {σ : Type}

def replaceName (old new name : String) : String := if name = old then new else name

namespace Expr

mutual

def rename (old new : String) : Expr σ → Expr σ
  | .named n v e l => .named n v (e.rename old new) l
  | .choice es l => .choice (renameList old new es) l
  | .action e c k l => .action (e.rename old new) c k l
  | .sequence es l => .sequence (renameList old new es) l
  | .labeled n k p e l => .labeled (n.map (replaceName old new)) k p (e.rename old new) l
  | .prefixed op e l => .prefixed op (e.rename old new) l
  | .suffixed op e l => .suffixed op (e.rename old new) l
  | .group e l => .group (e.rename old new) l
  | .ruleRef n l => .ruleRef (replaceName old new n) l
  | .predicate p c k l => .predicate p c k l
  | .literal v i l => .literal v i l
  | .charClass ps v i l => .charClass ps v i l
  | .any l => .any l

def renameList (old new : String) : List (Expr σ) → List (Expr σ)
  | [] => []
  | e :: es => e.rename old new :: renameList old new es

end

end Expr

def Rule.rename (old new : String) (r : Rule σ) : Rule σ :=
  { r with name := replaceName old new r.name, expression := r.expression.rename old new }

def Grammar.rename (old new : String) (g : Grammar σ) : Grammar σ :=
  { g with rules := g.rules.map (·.rename old new) }

end PegGrammar
