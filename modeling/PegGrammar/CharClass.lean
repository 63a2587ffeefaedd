import PegGrammar.Unicode.Letter
import PegGrammar.Unicode.NameMark

namespace PegGrammar

open Unicode

def isLineTerminator (c : Char) : Bool :=
  c == '\n' || c == '\r' || c == '\u2028' || c == '\u2029'

def spaces : List CodeRange :=
  [⟨0x9, 0x9⟩, ⟨0xB, 0xC⟩, ⟨0x20, 0x20⟩, ⟨0xA0, 0xA0⟩, ⟨0x1680, 0x1680⟩, ⟨0x2000, 0x200A⟩,
   ⟨0x202F, 0x202F⟩, ⟨0x205F, 0x205F⟩, ⟨0x3000, 0x3000⟩, ⟨0xFEFF, 0xFEFF⟩]

theorem ascending_spaces : ascending 0 spaces = true := by decide +kernel

/-- Space within a line: the space separators, tab, vertical tab, form feed and byte order mark. -/
def isSpace (c : Char) : Bool := covers spaces c.toNat

def isLetter (c : Char) : Bool := covers letters c.toNat

@[inline]
def isNameStart (c : Char) : Bool := c == '$' || c == '_' || isLetter c

@[inline]
def isNamePart (c : Char) : Bool := isNameStart c || covers nameMarks c.toNat

def isDecimalDigit (c : Char) : Bool := '0' ≤ c && c ≤ '9'

def hexValue? (c : Char) : Option Nat :=
  if isDecimalDigit c then some (c.toNat - '0'.toNat)
  else if 'a' ≤ c && c ≤ 'f' then some (c.toNat - 'a'.toNat + 10)
  else if 'A' ≤ c && c ≤ 'F' then some (c.toNat - 'A'.toNat + 10)
  else none

def isHexDigit (c : Char) : Bool := (hexValue? c).isSome

end PegGrammar
