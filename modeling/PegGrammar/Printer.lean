import PegGrammar.Grammar

namespace PegGrammar

namespace Printer

/-- A character of a string or a class; what would end the line or not be seen is escaped. -/
def escapeChar (c : Char) : Text :=
  match c with
  | '\\' => ['\\', '\\']
  | '\x08' => ['\\', 'b']
  | '\x0c' => ['\\', 'f']
  | '\n' => ['\\', 'n']
  | '\r' => ['\\', 'r']
  | '\t' => ['\\', 't']
  | '\x0b' => ['\\', 'v']
  | c =>
    if c = '\u2028' ∨ c = '\u2029' then '\\' :: 'u' :: Hex.upper 4 c.toNat
    else if c.toNat < 0x20 ∨ c.toNat = 0x7F then '\\' :: 'x' :: Hex.upper 2 c.toNat
    else [c]

def stringChar (c : Char) : Text := if c = '"' then ['\\', '"'] else escapeChar c

def quote (s : Text) : Text := '"' :: (s.flatMap stringChar ++ ['"'])

def quoteString (s : String) : String := String.ofList (quote s.toList)

def classChar (c : Char) : Text :=
  if c = ']' ∨ c = '^' ∨ c = '-' then ['\\', c] else escapeChar c

def classPart : ClassPart → Text
  | .char c => classChar c
  | .range first last => classChar first ++ '-' :: classChar last

def classBody (parts : List ClassPart) (inverted : Bool) : Text :=
  '[' :: ((if inverted then ['^'] else []) ++ parts.flatMap classPart ++ [']'])

/-- A character of a name, escaped where it could not stand plainly. Four digits cannot write a
character beyond U+FFFF, so that one stays as it is. -/
def nameChar (plain : Char → Bool) (c : Char) : Text :=
  if plain c ∨ 0xFFFF < c.toNat then [c] else '\\' :: 'u' :: Hex.upper 4 c.toNat

def nameText : Text → Text
  | [] => []
  | c :: s => nameChar isNameStart c ++ s.flatMap (nameChar isNamePart)

end Printer

open Printer

variable {σ : Type}

inductive Precedence where
  | choice
  | action
  | sequence
  | labeled
  | prefixed
  | suffixed
  | primary
  deriving DecidableEq, Repr

def Precedence.level : Precedence → Nat
  | .choice => 0
  | .action => 1
  | .sequence => 2
  | .labeled => 3
  | .prefixed => 4
  | .suffixed => 5
  | .primary => 6

namespace Expr

/-- A sequence of one element and a display name add nothing to what they contain. -/
def precedence : Expr σ → Precedence
  | .named _ _ e _ => e.precedence
  | .choice .. => .choice
  | .action .. => .action
  | .sequence [e] _ => e.precedence
  | .sequence .. => .sequence
  | .labeled .. => .labeled
  | .prefixed .. => .prefixed
  | .suffixed .. => .suffixed
  | _ => .primary

/-- Whether an expression needs parentheses where one of precedence `p` is wanted. -/
def looserThan (e : Expr σ) (p : Precedence) : Bool := e.precedence.level < p.level

end Expr

namespace Printer

def block (code : String) : Text := '{' :: (code.toList ++ ['}'])

def parens (needed : Bool) (s : Text) : Text := if needed then '(' :: (s ++ [')']) else s

def caseFlag (ignoreCase : Bool) : Text := if ignoreCase then ['i'] else []

end Printer

namespace Expr

mutual

def text : Expr σ → Text
  | .named _ _ e _ => e.text
  | .choice es _ => List.intercalate [' ', '/', ' '] (texts .action es)
  | .action e code _ _ =>
    let body := parens (e.looserThan .sequence) e.text
    if body.isEmpty then block code else body ++ ' ' :: block code
  | .sequence es _ => List.intercalate [' '] (texts .labeled es)
  | .labeled label _ pick e _ =>
    (if pick then ['@'] else []) ++ label.elim [] (fun n => nameText n.toList ++ [':']) ++
      parens (e.looserThan .prefixed) e.text
  | .prefixed op e _ => op.symbol :: parens (e.looserThan .suffixed) e.text
  | .suffixed op e _ => parens (e.looserThan .primary) e.text ++ [op.symbol]
  | .group e _ => parens true e.text
  | .predicate p code _ _ => p.symbol :: block code
  | .ruleRef n _ => nameText n.toList
  | .literal v i _ => quote v.toList ++ caseFlag i
  | .charClass ps v i _ => classBody ps v ++ caseFlag i
  | .any _ => ['.']

/-- The texts of several expressions, each of which has to bind at least as strongly as `p`. -/
def texts (p : Precedence) : List (Expr σ) → List Text
  | [] => []
  | e :: es => parens (e.looserThan p) e.text :: texts p es

end

def print (e : Expr σ) : String := String.ofList e.text

end Expr

namespace Initializer

def text (i : Initializer σ) : Text := block i.code

def topLevelText (i : Initializer σ) : Text := '{' :: (block i.code ++ ['}'])

end Initializer

namespace Rule

def header (r : Rule σ) : Text × Expr σ :=
  match r.expression with
  | .named display verbose e _ =>
    (nameText r.name.toList ++ ' ' :: quote display.toList ++ (if verbose then ['~'] else []), e)
  | e => (nameText r.name.toList, e)

def text (r : Rule σ) : Text := r.header.1 ++ [' ', '=', ' '] ++ r.header.2.text

def print (r : Rule σ) : String := String.ofList r.text

end Rule

namespace Grammar

def statements (g : Grammar σ) : List Text :=
  g.topLevel.toList.map (·.topLevelText) ++ g.perParse.toList.map (·.text) ++
    g.rules.map (·.text)

def text (g : Grammar σ) : Text := List.intercalate ['\n', '\n'] g.statements ++ ['\n']

def print (g : Grammar σ) : String := String.ofList g.text

end Grammar

end PegGrammar
