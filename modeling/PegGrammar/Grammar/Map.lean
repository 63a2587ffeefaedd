import PegGrammar.Grammar
import PegGrammar.Span

namespace PegGrammar

variable {σ τ : Type} {m : Type → Type}

namespace Expr

mutual

/-- The order of a walk is the order of the fields: what is inside a node comes first, its own location
last. -/
def map (f : σ → τ) : Expr σ → Expr τ
  | .named n v e l => .named n v (e.map f) (f l)
  | .choice es l => .choice (mapList f es) (f l)
  | .action e c k l => .action (e.map f) c (f k) (f l)
  | .sequence es l => .sequence (mapList f es) (f l)
  | .labeled n k p e l => .labeled n (f k) p (e.map f) (f l)
  | .prefixed op e l => .prefixed op (e.map f) (f l)
  | .suffixed op e l => .suffixed op (e.map f) (f l)
  | .group e l => .group (e.map f) (f l)
  | .predicate p c k l => .predicate p c (f k) (f l)
  | .ruleRef n l => .ruleRef n (f l)
  | .literal v i l => .literal v i (f l)
  | .charClass ps v i l => .charClass ps v i (f l)
  | .any l => .any (f l)

def mapList (f : σ → τ) : List (Expr σ) → List (Expr τ)
  | [] => []
  | e :: es => e.map f :: mapList f es

end

mutual

def mapM [Monad m] (f : σ → m τ) : Expr σ → m (Expr τ)
  | .named n v e l => return .named n v (← e.mapM f) (← f l)
  | .choice es l => return .choice (← mapListM f es) (← f l)
  | .action e c k l => return .action (← e.mapM f) c (← f k) (← f l)
  | .sequence es l => return .sequence (← mapListM f es) (← f l)
  | .labeled n k p e l => return .labeled n (← f k) p (← e.mapM f) (← f l)
  | .prefixed op e l => return .prefixed op (← e.mapM f) (← f l)
  | .suffixed op e l => return .suffixed op (← e.mapM f) (← f l)
  | .group e l => return .group (← e.mapM f) (← f l)
  | .predicate p c k l => return .predicate p c (← f k) (← f l)
  | .ruleRef n l => return .ruleRef n (← f l)
  | .literal v i l => return .literal v i (← f l)
  | .charClass ps v i l => return .charClass ps v i (← f l)
  | .any l => return .any (← f l)

def mapListM [Monad m] (f : σ → m τ) : List (Expr σ) → m (List (Expr τ))
  | [] => return []
  | e :: es => return (← e.mapM f) :: (← mapListM f es)

end

def strip (e : Expr Span) : Expr Span := e.map fun _ => {}

end Expr

namespace Initializer

def map (f : σ → τ) (i : Initializer σ) : Initializer τ :=
  ⟨i.code, f i.codeLocation, f i.location⟩

def mapM [Monad m] (f : σ → m τ) (i : Initializer σ) : m (Initializer τ) :=
  return ⟨i.code, ← f i.codeLocation, ← f i.location⟩

end Initializer

namespace Rule

def map (f : σ → τ) (r : Rule σ) : Rule τ :=
  ⟨r.name, f r.nameLocation, r.expression.map f, f r.location⟩

def mapM [Monad m] (f : σ → m τ) (r : Rule σ) : m (Rule τ) :=
  return ⟨r.name, ← f r.nameLocation, ← r.expression.mapM f, ← f r.location⟩

end Rule

namespace Grammar

def map (f : σ → τ) (g : Grammar σ) : Grammar τ :=
  ⟨g.topLevel.map (·.map f), g.perParse.map (·.map f), g.rules.map (·.map f), f g.location⟩

def mapM [Monad m] (f : σ → m τ) (g : Grammar σ) : m (Grammar τ) :=
  return ⟨← g.topLevel.mapM (·.mapM f), ← g.perParse.mapM (·.mapM f), ← g.rules.mapM (·.mapM f),
    ← f g.location⟩

def strip (g : Grammar Span) : Grammar Span := g.map fun _ => {}

def retag (tag : SourceTag) (g : Grammar Span) : Grammar Span :=
  g.map fun s => { s with source := tag }

end Grammar

/-- Forgets the locations in the expression of a rule, keeping the rule's own. -/
def Rule.stripExpression (r : Rule Span) : Rule Span :=
  { r with expression := r.expression.strip }

def Grammar.stripRule (g : Grammar Span) (i : Nat) : Grammar Span :=
  { g with rules := g.rules.modify i Rule.stripExpression }

end PegGrammar
