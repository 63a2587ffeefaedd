import PegGrammar.CharClass
import PegGrammar.Text

namespace PegGrammar.Trivia

def space : Text → Option Nat
  | c :: _ => if isSpace c then some 1 else none
  | [] => none

/-- One line end; a carriage return and the line feed after it are one. -/
def lineEnd : Text → Option Nat
  | '\r' :: '\n' :: _ => some 2
  | c :: _ => if isLineTerminator c then some 1 else none
  | [] => none

def throughClose : Text → Option Nat
  | '*' :: '/' :: _ => some 2
  | _ :: s => (throughClose s).map (· + 1)
  | [] => none

def blockComment : Text → Option Nat
  | '/' :: '*' :: s => (throughClose s).map (· + 2)
  | _ => none

/-- Up to and including the first `*/`, if it stands on this line. -/
def throughCloseInline : Text → Option Nat
  | '*' :: '/' :: _ => some 2
  | c :: s => if isLineTerminator c then none else (throughCloseInline s).map (· + 1)
  | [] => none

def inlineComment : Text → Option Nat
  | '/' :: '*' :: s => (throughCloseInline s).map (· + 2)
  | _ => none

def restOfLine (s : Text) : Text := s.takeWhile (!isLineTerminator ·)

/-- A comment from `//` up to the line end, which is not part of it. -/
def lineComment : Text → Option Nat
  | '/' :: '/' :: s => some ((restOfLine s).length + 2)
  | _ => none

def comment (s : Text) : Option Nat := blockComment s <|> lineComment s

def unit (s : Text) : Option Nat := space s <|> lineEnd s <|> comment s

def inlineUnit (s : Text) : Option Nat := space s <|> inlineComment s

/-- The length of the longest run of units at the front of a text. -/
def run (unit : Text → Option Nat) : Text → Nat
  | [] => 0
  | c :: s =>
    match unit (c :: s) with
    | some (n + 1) => n + 1 + run unit (s.drop n)
    | _ => 0
termination_by s => s.length

/-- The length of the spaces, line ends and comments at the front of a text. -/
def skip : Text → Nat := run unit

/-- The length of the spaces and one-line comments at the front of a text. -/
def skipInline : Text → Nat := run inlineUnit

end PegGrammar.Trivia
