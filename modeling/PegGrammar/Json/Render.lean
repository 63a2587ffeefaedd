import PegGrammar.Escape
import PegGrammar.Json

namespace PegGrammar.Json

def escapeChar (c : Char) : List Char :=
  match c with
  | '"' => ['\\', '"']
  | '\\' => ['\\', '\\']
  | '\x08' => ['\\', 'b']
  | '\x0c' => ['\\', 'f']
  | '\n' => ['\\', 'n']
  | '\r' => ['\\', 'r']
  | '\t' => ['\\', 't']
  | c => if c.toNat < 0x20 then '\\' :: 'u' :: Hex.lower 4 c.toNat else [c]

def renderString (s : String) : String :=
  String.ofList ('"' :: (s.toList.flatMap escapeChar ++ ['"']))

mutual

def compact : Json → String
  | .null => "null"
  | .bool b => if b then "true" else "false"
  | .nat n => toString n
  | .number text => text
  | .string s => renderString s
  | .array items => "[" ++ ",".intercalate (compactItems items) ++ "]"
  | .object fields => "\x7b" ++ ",".intercalate (compactFields fields) ++ "\x7d"

def compactItems : List Json → List String
  | [] => []
  | j :: items => j.compact :: compactItems items

def compactFields : List (String × Json) → List String
  | [] => []
  | (key, j) :: fields => (renderString key ++ ":" ++ j.compact) :: compactFields fields

end

def newline (depth : Nat) : String := "\n" ++ String.ofList (List.replicate (2 * depth) ' ')

/-- Entries between brackets, one a line; without entries nothing stands between them. -/
def enclose (depth : Nat) (opening closing : String) (entries : List String) : String :=
  if entries.isEmpty then opening ++ closing
  else
    opening ++ newline (depth + 1) ++ ("," ++ newline (depth + 1)).intercalate entries ++
      newline depth ++ closing

mutual

/-- Indented, in a place that is itself indented by `depth`. -/
def prettyAt (depth : Nat) : Json → String
  | .array items => enclose depth "[" "]" (prettyItems (depth + 1) items)
  | .object fields => enclose depth "\x7b" "\x7d" (prettyFields (depth + 1) fields)
  | j => j.compact

def prettyItems (depth : Nat) : List Json → List String
  | [] => []
  | j :: items => j.prettyAt depth :: prettyItems depth items

def prettyFields (depth : Nat) : List (String × Json) → List String
  | [] => []
  | (key, j) :: fields =>
    (renderString key ++ ": " ++ j.prettyAt depth) :: prettyFields depth fields

end

def pretty (j : Json) : String := j.prettyAt 0

end PegGrammar.Json
