import PegGrammar.Grammar
import PegGrammar.Json
import PegGrammar.ParseError
import PegGrammar.Parser

namespace PegGrammar

def Position.ofJson? (j : Json) : Option Position := do
  return ⟨← (← j.field? "offset").nat?, ← (← j.field? "line").nat?, ← (← j.field? "column").nat?⟩

def SourceTag.ofJson? (j : Json) : Option SourceTag := j.nullable? Json.string?

def Span.ofJson? (j : Json) : Option Span := do
  return ⟨← SourceTag.ofJson? (← j.fieldOrNull? "source"),
    ← Position.ofJson? (← j.field? "start"), ← Position.ofJson? (← j.field? "end")⟩

def ClassPart.ofJson? : Json → Option ClassPart
  | .array [first, last] => return .range (← first.char?) (← last.char?)
  | j => j.char?.map .char

def Json.spanField? (key : String) (j : Json) : Option Span :=
  (j.field? key).bind Span.ofJson?

def Json.stringField? (key : String) (j : Json) : Option String :=
  (j.field? key).bind Json.string?

def Json.boolField? (key : String) (j : Json) : Option Bool :=
  (j.field? key).bind Json.bool?

namespace Expr

mutual

/-- Fields that nothing asks for are ignored, and fields that may be null may be left out. -/
def ofJson? (j : Json) : Option (Expr Span) := do
  let body : Unit → Option (Expr Span) := fun _ =>
    match _ : j.field? "expression" with
    | some e => ofJson? e
    | none => none
  let location ← j.spanField? "location"
  match ← j.stringField? "type" with
  | "named" =>
    return .named (← j.stringField? "name") (← j.boolField? "verbose") (← body ()) location
  | "choice" => return .choice (← childrenOfJson? "alternatives" j) location
  | "action" =>
    return .action (← body ()) (← j.stringField? "code") (← j.spanField? "code_location") location
  | "sequence" => return .sequence (← childrenOfJson? "elements" j) location
  | "labeled" =>
    return .labeled (← (← j.fieldOrNull? "label").nullable? Json.string?)
      (← j.spanField? "label_location") (← j.boolField? "pick") (← body ()) location
  | "text" => return .prefixed .text (← body ()) location
  | "simple_and" => return .prefixed .and (← body ()) location
  | "simple_not" => return .prefixed .not (← body ()) location
  | "optional" => return .suffixed .optional (← body ()) location
  | "zero_or_more" => return .suffixed .zeroOrMore (← body ()) location
  | "one_or_more" => return .suffixed .oneOrMore (← body ()) location
  | "group" => return .group (← body ()) location
  | "semantic_and" =>
    return .predicate .positive (← j.stringField? "code") (← j.spanField? "code_location") location
  | "semantic_not" =>
    return .predicate .negative (← j.stringField? "code") (← j.spanField? "code_location") location
  | "rule_ref" => return .ruleRef (← j.stringField? "name") location
  | "literal" =>
    return .literal (← j.stringField? "value") (← j.boolField? "ignore_case") location
  | "class" =>
    let parts ← (← (← j.field? "parts").array?).mapM ClassPart.ofJson?
    return .charClass parts (← j.boolField? "inverted") (← j.boolField? "ignore_case") location
  | "any" => return .any location
  | _ => none
termination_by (sizeOf j, 1)
decreasing_by
  all_goals first
    | exact Prod.Lex.left _ _ (Json.sizeOf_field? ‹_›)
    | exact Prod.Lex.right _ (by decide)

def childrenOfJson? (key : String) (j : Json) : Option (List (Expr Span)) :=
  match _ : j.field? key with
  | some (.array items) => listOfJson? items
  | _ => none
termination_by (sizeOf j, 0)
decreasing_by
  have := Json.sizeOf_field? ‹j.field? key = _›
  simp at this
  exact Prod.Lex.left _ _ (by omega)

def listOfJson? (items : List Json) : Option (List (Expr Span)) :=
  match items with
  | [] => some []
  | j :: items => return (← ofJson? j) :: (← listOfJson? items)
termination_by (sizeOf items, 0)

end

end Expr

def Initializer.ofJson? (j : Json) : Option (Initializer Span) := do
  return ⟨← j.stringField? "code", ← j.spanField? "code_location", ← j.spanField? "location"⟩

def Rule.ofJson? (j : Json) : Option (Rule Span) := do
  return ⟨← j.stringField? "name", ← j.spanField? "name_location",
    ← Expr.ofJson? (← j.field? "expression"), ← j.spanField? "location"⟩

def Grammar.ofJson? (j : Json) : Option (Grammar Span) := do
  return ⟨← (← j.fieldOrNull? "top_level_initializer").nullable? Initializer.ofJson?,
    ← (← j.fieldOrNull? "initializer").nullable? Initializer.ofJson?,
    ← (← (← j.field? "rules").array?).mapM Rule.ofJson?, ← j.spanField? "location"⟩

def Expectation.ofJson? (j : Json) : Option Expectation := do
  match ← j.stringField? "type" with
  | "literal" => return .literal (← j.stringField? "text")
  | "named" => return .named (← j.stringField? "text")
  | "any" =>
    let .null ← j.fieldOrNull? "text" | none
    return .any
  | "end" =>
    let .null ← j.fieldOrNull? "text" | none
    return .endOfInput
  | _ => none

def ParseOptions.ofJson? (j : Json) : Option ParseOptions := do
  return ⟨← SourceTag.ofJson? (← j.fieldOrNull? "source"),
    ← (← j.fieldOrNull? "start_rule").nullable? Json.string?⟩

end PegGrammar
