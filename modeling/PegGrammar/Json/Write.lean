import PegGrammar.Grammar
import PegGrammar.Json
import PegGrammar.ParseError
import PegGrammar.Parser

namespace PegGrammar

def Position.toJson (p : Position) : Json :=
  .object [("offset", .nat p.offset), ("line", .nat p.line), ("column", .nat p.column)]

def SourceTag.toJson (tag : SourceTag) : Json := .ofOption .string tag

def Span.toJson (s : Span) : Json :=
  .object [("source", s.source.toJson), ("start", s.start.toJson), ("end", s.stop.toJson)]

def ClassPart.toJson : ClassPart → Json
  | .char c => .ofChar c
  | .range first last => .array [.ofChar first, .ofChar last]

namespace Expr

/-- A node with its kind in front of its fields and its location after them. -/
def node (e : Expr Span) (fields : List (String × Json)) : Json :=
  .object (("type", .string e.kind) :: (fields ++ [("location", e.location.toJson)]))

mutual

def toJson : Expr Span → Json
  | e@(.named n v body _) =>
    e.node [("name", .string n), ("verbose", .bool v), ("expression", body.toJson)]
  | e@(.choice es _) => e.node [("alternatives", .array (listToJson es))]
  | e@(.action body c k _) =>
    e.node [("expression", body.toJson), ("code", .string c), ("code_location", k.toJson)]
  | e@(.sequence es _) => e.node [("elements", .array (listToJson es))]
  | e@(.labeled n k p body _) =>
    e.node [("label", .ofOption .string n), ("label_location", k.toJson), ("pick", .bool p),
      ("expression", body.toJson)]
  | e@(.prefixed _ body _) => e.node [("expression", body.toJson)]
  | e@(.suffixed _ body _) => e.node [("expression", body.toJson)]
  | e@(.group body _) => e.node [("expression", body.toJson)]
  | e@(.predicate _ c k _) => e.node [("code", .string c), ("code_location", k.toJson)]
  | e@(.ruleRef n _) => e.node [("name", .string n)]
  | e@(.literal v i _) => e.node [("value", .string v), ("ignore_case", .bool i)]
  | e@(.charClass ps v i _) =>
    e.node [("parts", .array (ps.map ClassPart.toJson)), ("inverted", .bool v),
      ("ignore_case", .bool i)]
  | e@(.any _) => e.node []

def listToJson : List (Expr Span) → List Json
  | [] => []
  | e :: es => e.toJson :: listToJson es

end

end Expr

def Initializer.toJson (kind : String) (i : Initializer Span) : Json :=
  .object [("type", .string kind), ("code", .string i.code),
    ("code_location", i.codeLocation.toJson), ("location", i.location.toJson)]

namespace Grammar

def topLevelToJson : Initializer Span → Json := Initializer.toJson "top_level_initializer"

def perParseToJson : Initializer Span → Json := Initializer.toJson "initializer"

end Grammar

def Rule.toJson (r : Rule Span) : Json :=
  .object [("type", .string "rule"), ("name", .string r.name),
    ("name_location", r.nameLocation.toJson), ("expression", r.expression.toJson),
    ("location", r.location.toJson)]

def Grammar.toJson (g : Grammar Span) : Json :=
  .object [("type", .string "grammar"),
    ("top_level_initializer", .ofOption topLevelToJson g.topLevel),
    ("initializer", .ofOption perParseToJson g.perParse),
    ("rules", .array (g.rules.map Rule.toJson)), ("location", g.location.toJson)]

def Expectation.toJson : Expectation → Json
  | .literal text => .object [("type", .string "literal"), ("text", .string text)]
  | .named name => .object [("type", .string "named"), ("text", .string name)]
  | .any => .object [("type", .string "any")]
  | .endOfInput => .object [("type", .string "end")]

def ParseOptions.toJson (o : ParseOptions) : Json :=
  .object [("source", o.source.toJson), ("start_rule", .ofOption .string o.startRule)]

end PegGrammar
