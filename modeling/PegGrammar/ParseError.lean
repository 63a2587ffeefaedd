import PegGrammar.Escape

namespace PegGrammar

inductive Expectation where
  /-- Exactly this text. -/
  | literal (text : String)
  /-- A construct with a name of its own. -/
  | named (name : String)
  | any
  | endOfInput
  deriving DecidableEq, Repr

namespace Expectation

def isControl (c : Char) : Bool := c.toNat < 0x20 || (0x7F ≤ c.toNat && c.toNat < 0xA0)

def escapeChar (c : Char) : List Char :=
  match c with
  | '\\' => ['\\', '\\']
  | '"' => ['\\', '"']
  | '\x00' => ['\\', '0']
  | '\t' => ['\\', 't']
  | '\n' => ['\\', 'n']
  | '\r' => ['\\', 'r']
  | c => if isControl c then '\\' :: 'x' :: Hex.upper 2 c.toNat else [c]

def quoted (text : List Char) : String :=
  String.ofList ('"' :: (text.flatMap escapeChar ++ ['"']))

def describe : Expectation → String
  | .literal text => quoted text.toList
  | .named name => name
  | .any => "any character"
  | .endOfInput => "end of input"

/-- The descriptions as an enumeration: `a`, `a or b`, `a, b, or c`. -/
def enumerate : List String → String
  | [] => "nothing"
  | [a] => a
  | [a, b] => a ++ " or " ++ b
  | l => ", ".intercalate l.dropLast ++ ", or " ++ l.getLastD ""

def describeFound : Option Char → String
  | some c => quoted [c]
  | none => "end of input"

/-- The message for a place where none of `expected` stands but `found` does. -/
def message (expected : List Expectation) (found : Option Char) : String :=
  "Expected " ++ enumerate (expected.map describe) ++ " but " ++ describeFound found ++ " found."

end Expectation

structure Failures where
  deepest : Nat := 0
  /-- What was expected there, each thing once, the latest in front. -/
  recorded : List Expectation := []
  deriving DecidableEq, Repr

namespace Failures

/-- Failures before the deepest one are forgotten. -/
def record (f : Failures) (offset : Nat) (e : Expectation) : Failures :=
  if offset < f.deepest then f
  else if f.deepest < offset then ⟨offset, [e]⟩
  else if e ∈ f.recorded then f
  else ⟨f.deepest, e :: f.recorded⟩

/-- What was expected at the deepest offset, in the order of the descriptions. -/
def expected (f : Failures) : List Expectation :=
  f.recorded.mergeSort fun a b => a.describe ≤ b.describe

end Failures

/-- The causes of failure, with a location of type `σ` where there is one. -/
inductive ParseError (σ : Type) where
  /-- None of the expectations at the deepest failure was met. -/
  | unexpected (expected : List Expectation) (found : Option Char) (location : σ)
  /-- A class range whose first character comes after its last, as written. -/
  | disorderedRange (text : String) (location : σ)
  /-- Reading cannot start from a rule of this name. -/
  | unknownStartRule (rule : String)
  /-- A location has a bound inside a character. -/
  | misplaced
  deriving DecidableEq, Repr

namespace ParseError

variable {σ τ : Type}

def message : ParseError σ → String
  | .unexpected expected found _ => Expectation.message expected found
  | .disorderedRange text _ => "Invalid character range: " ++ text ++ "."
  | .unknownStartRule rule => "Can't start parsing from rule \"" ++ rule ++ "\"."
  | .misplaced => "A location lies inside a character."

def location? : ParseError σ → Option σ
  | .unexpected _ _ l => some l
  | .disorderedRange _ l => some l
  | .unknownStartRule _ => none
  | .misplaced => none

def isUnexpected : ParseError σ → Bool
  | .unexpected .. => true
  | _ => false

def mapM {m : Type → Type} [Monad m] (f : σ → m τ) : ParseError σ → m (ParseError τ)
  | .unexpected expected found l => return .unexpected expected found (← f l)
  | .disorderedRange text l => return .disorderedRange text (← f l)
  | .unknownStartRule rule => return .unknownStartRule rule
  | .misplaced => return .misplaced

end ParseError

end PegGrammar
