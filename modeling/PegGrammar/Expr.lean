import PegGrammar.ClassBody

namespace PegGrammar

inductive PrefixOp where
  | text
  | and
  | not
  deriving DecidableEq, Repr

inductive SuffixOp where
  | optional
  | zeroOrMore
  | oneOrMore
  deriving DecidableEq, Repr

/-- Whether a code predicate, `&` or `!` before code, asks for success or for failure. -/
inductive Polarity where
  | positive
  | negative
  deriving DecidableEq, Repr

inductive Expr (σ : Type) where
  /-- The display name of a rule, on top of its expression; `verbose` is a `~` after the name. -/
  | named (name : String) (verbose : Bool) (body : Expr σ) (location : σ)
  | choice (alternatives : List (Expr σ)) (location : σ)
  | action (body : Expr σ) (code : String) (codeLocation location : σ)
  /-- Several elements in a row, none at all, or a single pick. -/
  | sequence (elements : List (Expr σ)) (location : σ)
  /-- A labeled element, `label:e`, or a pick, `@e` or `@label:e`. -/
  | labeled (label : Option String) (labelLocation : σ) (pick : Bool) (body : Expr σ)
    (location : σ)
  | prefixed (op : PrefixOp) (body : Expr σ) (location : σ)
  | suffixed (op : SuffixOp) (body : Expr σ) (location : σ)
  /-- Parentheses that keep labels to themselves. -/
  | group (body : Expr σ) (location : σ)
  | predicate (polarity : Polarity) (code : String) (codeLocation location : σ)
  | ruleRef (name : String) (location : σ)
  | literal (value : String) (ignoreCase : Bool) (location : σ)
  | charClass (parts : List ClassPart) (inverted ignoreCase : Bool) (location : σ)
  | any (location : σ)
  deriving Repr

namespace PrefixOp

def kind : PrefixOp → String
  | .text => "text"
  | .and => "simple_and"
  | .not => "simple_not"

def symbol : PrefixOp → Char
  | .text => '$'
  | .and => '&'
  | .not => '!'

def all : List PrefixOp := [.text, .and, .not]

end PrefixOp

namespace SuffixOp

def kind : SuffixOp → String
  | .optional => "optional"
  | .zeroOrMore => "zero_or_more"
  | .oneOrMore => "one_or_more"

def symbol : SuffixOp → Char
  | .optional => '?'
  | .zeroOrMore => '*'
  | .oneOrMore => '+'

def all : List SuffixOp := [.optional, .zeroOrMore, .oneOrMore]

end SuffixOp

namespace Polarity

def kind : Polarity → String
  | .positive => "semantic_and"
  | .negative => "semantic_not"

def symbol : Polarity → Char
  | .positive => '&'
  | .negative => '!'

def all : List Polarity := [.positive, .negative]

end Polarity

namespace Expr

variable {σ : Type}

def kind : Expr σ → String
  | .named .. => "named"
  | .choice .. => "choice"
  | .action .. => "action"
  | .sequence .. => "sequence"
  | .labeled .. => "labeled"
  | .prefixed op .. => op.kind
  | .suffixed op .. => op.kind
  | .group .. => "group"
  | .predicate polarity .. => polarity.kind
  | .ruleRef .. => "rule_ref"
  | .literal .. => "literal"
  | .charClass .. => "class"
  | .any .. => "any"

def isPick : Expr σ → Bool
  | .labeled _ _ pick _ _ => pick
  | _ => false

def location : Expr σ → σ
  | .named _ _ _ l => l
  | .choice _ l => l
  | .action _ _ _ l => l
  | .sequence _ l => l
  | .labeled _ _ _ _ l => l
  | .prefixed _ _ l => l
  | .suffixed _ _ l => l
  | .group _ l => l
  | .predicate _ _ _ l => l
  | .ruleRef _ l => l
  | .literal _ _ l => l
  | .charClass _ _ _ l => l
  | .any l => l

variable {σ : Type} [DecidableEq σ]

mutual

def same : Expr σ → Expr σ → Bool
  | .named n v e l, .named n' v' e' l' => n = n' && v = v' && same e e' && l = l'
  | .choice es l, .choice es' l' => sameList es es' && l = l'
  | .action e c k l, .action e' c' k' l' => same e e' && c = c' && k = k' && l = l'
  | .sequence es l, .sequence es' l' => sameList es es' && l = l'
  | .labeled n k p e l, .labeled n' k' p' e' l' =>
    n = n' && k = k' && p = p' && same e e' && l = l'
  | .prefixed op e l, .prefixed op' e' l' => op = op' && same e e' && l = l'
  | .suffixed op e l, .suffixed op' e' l' => op = op' && same e e' && l = l'
  | .group e l, .group e' l' => same e e' && l = l'
  | .predicate p c k l, .predicate p' c' k' l' => p = p' && c = c' && k = k' && l = l'
  | .ruleRef n l, .ruleRef n' l' => n = n' && l = l'
  | .literal v i l, .literal v' i' l' => v = v' && i = i' && l = l'
  | .charClass ps v i l, .charClass ps' v' i' l' => ps = ps' && v = v' && i = i' && l = l'
  | .any l, .any l' => l = l'
  | _, _ => false

def sameList : List (Expr σ) → List (Expr σ) → Bool
  | [], [] => true
  | e :: es, e' :: es' => same e e' && sameList es es'
  | _, _ => false

end

mutual

theorem same_iff : (a b : Expr σ) → (same a b = true ↔ a = b)
  | .named _ _ e _, b => by cases b <;> simp [same, same_iff e, and_assoc]
  | .choice es _, b => by cases b <;> simp [same, sameList_iff es]
  | .action e _ _ _, b => by cases b <;> simp [same, same_iff e, and_assoc]
  | .sequence es _, b => by cases b <;> simp [same, sameList_iff es]
  | .labeled _ _ _ e _, b => by cases b <;> simp [same, same_iff e, and_assoc]
  | .prefixed _ e _, b => by cases b <;> simp [same, same_iff e, and_assoc]
  | .suffixed _ e _, b => by cases b <;> simp [same, same_iff e, and_assoc]
  | .group e _, b => by cases b <;> simp [same, same_iff e]
  | .predicate .., b => by cases b <;> simp [same, and_assoc]
  | .ruleRef .., b => by cases b <;> simp [same]
  | .literal .., b => by cases b <;> simp [same, and_assoc]
  | .charClass .., b => by cases b <;> simp [same, and_assoc]
  | .any _, b => by cases b <;> simp [same]

theorem sameList_iff : (as bs : List (Expr σ)) → (sameList as bs = true ↔ as = bs)
  | [], bs => by cases bs <;> simp [sameList]
  | a :: as, bs => by cases bs <;> simp [sameList, same_iff a, sameList_iff as]

end

instance : DecidableEq (Expr σ) := fun a b => decidable_of_iff _ (same_iff a b)

end Expr

end PegGrammar
