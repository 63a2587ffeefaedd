import PegGrammar.Escape

namespace PegGrammar

namespace Name

/-- One character of a name, written plainly if `plain` allows it, or else as its escape. -/
def nameChar (plain : Char → Bool) : Text → Option (Lexeme Char)
  | [] => none
  | c :: s =>
    if plain c then some ⟨c, 1⟩
    else if c = '\\' then (Escape.unicodeEscape s).map fun e => ⟨e.value, e.length + 1⟩
    else none

def nameParts : Text → Lexeme Text
  | [] => ⟨[], 0⟩
  | c :: s =>
    match nameChar isNamePart (c :: s) with
    | some u =>
      let t := nameParts (s.drop (u.length - 1))
      ⟨u.value :: t.value, u.length + t.length⟩
    | none => ⟨[], 0⟩
termination_by s => s.length

def name (s : Text) : Option (Lexeme String) :=
  (nameChar isNameStart s).map fun u =>
    let t := nameParts (s.drop u.length)
    ⟨String.ofList (u.value :: t.value), u.length + t.length⟩

end Name

namespace StringLiteral

/-- The decoded characters up to the closing quote, which is counted in the length. -/
def quotedChars (quote : Char) : Text → Option (Lexeme Text)
  | [] => none
  | c :: s =>
    if c = quote then some ⟨[], 1⟩
    else if c = '\\' then
      match Escape.escaped s with
      | some e =>
        (quotedChars quote (s.drop e.length)).map fun t =>
          ⟨e.value.toList ++ t.value, 1 + e.length + t.length⟩
      | none => none
    else if isLineTerminator c then none
    else (quotedChars quote s).map fun t => ⟨c :: t.value, 1 + t.length⟩
termination_by s => s.length

def isQuote (c : Char) : Bool := c == '"' || c == '\x27'

def stringLiteral : Text → Option (Lexeme String)
  | [] => none
  | c :: s =>
    if isQuote c then
      (quotedChars c s).map fun t => ⟨String.ofList t.value, t.length + 1⟩
    else none

end StringLiteral

namespace CodeBlock

/-- The code up to the first closing brace that closes none of the `depth` open ones and none
opened on the way. -/
def codeUpTo : Nat → Text → Option Text
  | _, [] => none
  | depth, c :: s =>
    if c = '{' then (codeUpTo (depth + 1) s).map (c :: ·)
    else if c = '}' then
      match depth with
      | 0 => some []
      | depth + 1 => (codeUpTo depth s).map (c :: ·)
    else (codeUpTo depth s).map (c :: ·)

def codeBlock : Text → Option Text
  | c :: s => if c = '{' then codeUpTo 0 s else none
  | [] => none

end CodeBlock

end PegGrammar
