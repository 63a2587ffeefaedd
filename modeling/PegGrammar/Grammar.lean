import PegGrammar.Expr

namespace PegGrammar

/-- Code that runs before parsing; the code's own location leaves out the braces. -/
structure Initializer (σ : Type) where
  code : String
  codeLocation : σ
  location : σ
  deriving DecidableEq, Repr

structure Rule (σ : Type) where
  name : String
  nameLocation : σ
  expression : Expr σ
  location : σ
  deriving DecidableEq, Repr

structure Grammar (σ : Type) where
  /-- Code in double braces, run once for the generated module. -/
  topLevel : Option (Initializer σ)
  /-- Code in single braces, run before every parse. -/
  perParse : Option (Initializer σ)
  rules : List (Rule σ)
  location : σ
  deriving DecidableEq, Repr

def Rule.displayName {σ : Type} (r : Rule σ) : Option String :=
  match r.expression with
  | .named name .. => some name
  | _ => none

namespace Grammar

variable {σ : Type}

def rule? (g : Grammar σ) (name : String) : Option (Rule σ) :=
  g.rules.find? (·.name == name)

def ruleNames (g : Grammar σ) : List String := g.rules.map (·.name)

def displayNames (g : Grammar σ) : List (Option String) := g.rules.map (·.displayName)

def removeRule (g : Grammar σ) (i : Nat) : Grammar σ := { g with rules := g.rules.eraseIdx i }

end Grammar

end PegGrammar
