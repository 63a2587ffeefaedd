import PegGrammar.Escape

namespace PegGrammar

inductive ClassPart where
  | char (c : Char)
  | range (first last : Char)
  deriving DecidableEq, Repr

def ClassPart.isOrdered : ClassPart → Bool
  | .char _ => true
  | .range first last => first ≤ last

structure ClassBody where
  parts : List ClassPart
  inverted : Bool
  deriving DecidableEq, Repr

/-- A range with its ends in the wrong order, and the text of the class in front of it. It is an
error as soon as it is read, whether or not the class is closed after it. -/
structure DisorderedRange where
  before : Text
  text : Text
  deriving DecidableEq, Repr

namespace ClassBody

/-- One character of a class; a backslash before a line end stands for nothing. -/
def classChar : Text → Option (Lexeme (Option Char))
  | [] => none
  | c :: s =>
    if c = ']' then none
    else if c = '\\' then (Escape.escaped s).map fun e => ⟨e.value, e.length + 1⟩
    else if isLineTerminator c then none
    else some ⟨some c, 1⟩

def classRange (s : Text) : Option (Lexeme (Char × Char)) :=
  match classChar s with
  | some ⟨some first, n⟩ =>
    match s.drop n with
    | '-' :: t =>
      match classChar t with
      | some ⟨some last, m⟩ => some ⟨(first, last), n + 1 + m⟩
      | _ => none
    | _ => none
  | _ => none

/-- A range where one can be read, else a single character. -/
def classPart (s : Text) : Option (Lexeme (Option ClassPart)) :=
  match classRange s with
  | some r => some ⟨some (.range r.value.1 r.value.2), r.length⟩
  | none => (classChar s).map fun u => ⟨u.value.map .char, u.length⟩

def classParts : Text → Except DisorderedRange (Lexeme (List ClassPart))
  | [] => .ok ⟨[], 0⟩
  | c :: s =>
    match classPart (c :: s) with
    | none => .ok ⟨[], 0⟩
    | some u =>
      if u.value.all ClassPart.isOrdered then
        match classParts (s.drop (u.length - 1)) with
        | .ok t => .ok ⟨u.value.toList ++ t.value, u.length + t.length⟩
        | .error e => .error ⟨(c :: s).take u.length ++ e.before, e.text⟩
      else .error ⟨[], (c :: s).take u.length⟩
termination_by s => s.length

/-- The parts and the closing bracket, after the text `opening` that opened the class. -/
def closedParts (opening : Text) (inverted : Bool) (s : Text) :
    Except DisorderedRange (Option (Lexeme ClassBody)) :=
  match classParts s with
  | .error e => .error ⟨opening ++ e.before, e.text⟩
  | .ok t =>
    match s.drop t.length with
    | ']' :: _ => .ok (some ⟨⟨t.value, inverted⟩, opening.length + t.length + 1⟩)
    | _ => .ok none

def classBody : Text → Except DisorderedRange (Option (Lexeme ClassBody))
  | '[' :: '^' :: s => closedParts ['[', '^'] true s
  | '[' :: s => closedParts ['['] false s
  | _ => .ok none

end ClassBody

end PegGrammar
