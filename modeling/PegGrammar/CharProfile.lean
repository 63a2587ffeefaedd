import PegGrammar.CharClass
import PegGrammar.Escape

namespace PegGrammar

structure CharProfile where
  lineTerminator : Bool
  space : Bool
  letter : Bool
  nameStart : Bool
  namePart : Bool
  decimalDigit : Bool
  hexDigit : Bool
  deriving DecidableEq, Repr

namespace CharProfile

def ofChar (c : Char) : CharProfile where
  lineTerminator := isLineTerminator c
  space := isSpace c
  letter := isLetter c
  nameStart := isNameStart c
  namePart := isNamePart c
  decimalDigit := isDecimalDigit c
  hexDigit := isHexDigit c

structure Run where
  first : Nat
  last : Nat
  profile : CharProfile
  deriving DecidableEq, Repr

/-- Puts a code point in front of runs, joining it to the first one where it can. -/
def addRun (n : Nat) (p : CharProfile) : List Run → List Run
  | [] => [⟨n, n, p⟩]
  | r :: rs =>
    if r.first = n + 1 ∧ r.profile = p then { r with first := n } :: rs else ⟨n, n, p⟩ :: r :: rs

/-- The longest runs between two code points. Surrogates are not characters and break runs. -/
def runs (start stop : Nat) : List Run :=
  let codes := List.range' start (min stop 0x10FFFF + 1 - start)
  codes.foldr (fun n rs => (Escape.scalar? n).elim rs fun c => addRun n (ofChar c) rs) []

end CharProfile

end PegGrammar
