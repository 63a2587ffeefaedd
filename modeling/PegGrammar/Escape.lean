import PegGrammar.Span
import PegGrammar.Trivia

namespace PegGrammar

/-- A value read from the first `length` characters of a text. A recogniser answers with it, and knows
no offsets: `Text.recognizeAt` applies it at one. -/
structure Lexeme (α : Type) where
  value : α
  length : Nat
  deriving DecidableEq, Repr

namespace Text

/-- The bytes that the first `n` characters of `s` take when `s` stands at offset `pos`. -/
def rangeAt (s : Text) (pos n : Nat) : ByteRange := ⟨pos, pos + byteSize (s.take n)⟩

/-- Applies a recogniser at a byte offset; inside a character and beyond the end there is
nothing to recognise. -/
def recognizeAt {α : Type} (source : Text) (recognize : Text → Option α) (pos : Nat) :
    Option (α × Text) :=
  (source.dropBytes? pos).bind fun s => (recognize s).map (·, s)

end Text

namespace Hex

def upperDigit (n : Nat) : Char :=
  if n < 10 then Char.ofNat ('0'.toNat + n) else Char.ofNat ('A'.toNat + (n - 10))

def lowerDigit (n : Nat) : Char :=
  if n < 10 then Char.ofNat ('0'.toNat + n) else Char.ofNat ('a'.toNat + (n - 10))

def digits (digit : Nat → Char) : Nat → Nat → List Char
  | 0, _ => []
  | width + 1, n => digits digit width (n / 16) ++ [digit (n % 16)]

def upper (width n : Nat) : List Char := digits upperDigit width n

def lower (width n : Nat) : List Char := digits lowerDigit width n

end Hex

namespace Escape

/-- The number written by the next `n` hexadecimal digits after those worth `value`. -/
def hexNumber? : Nat → Nat → Text → Option Nat
  | 0, value, _ => some value
  | _ + 1, _, [] => none
  | n + 1, value, c :: s => (hexValue? c).bind fun d => hexNumber? n (16 * value + d) s

/-- The character with a code point; surrogates are none. -/
def scalar? (n : Nat) : Option Char :=
  if n.isValidChar then some (Char.ofNat n) else none

def hexChar? (n : Nat) (s : Text) : Option Char := (hexNumber? n 0 s).bind scalar?

def unicodeEscape : Text → Option (Lexeme Char)
  | 'u' :: s => (hexChar? 4 s).map (⟨·, 5⟩)
  | _ => none

def byteEscape : Text → Option (Lexeme Char)
  | 'x' :: s => (hexChar? 2 s).map (⟨·, 3⟩)
  | _ => none

def simple? : Char → Option Char
  | '\x27' => some '\x27'
  | '"' => some '"'
  | '\\' => some '\\'
  | 'b' => some '\x08'
  | 'f' => some '\x0c'
  | 'n' => some '\n'
  | 'r' => some '\r'
  | 't' => some '\t'
  | 'v' => some '\x0b'
  | _ => none

def startsWithDigit (s : Text) : Bool := s.head?.any isDecimalDigit

/-- The part of an escape after its backslash. Of the digits only a `0` that no digit follows
has a meaning; other characters stand for themselves, line ends for nothing. -/
def escapeSequence : Text → Option (Lexeme Char)
  | [] => none
  | c :: s =>
    match simple? c with
    | some d => some ⟨d, 1⟩
    | none =>
      if c = 'x' then byteEscape (c :: s)
      else if c = 'u' then unicodeEscape (c :: s)
      else if c = '0' ∧ startsWithDigit s = false then some ⟨'\x00', 1⟩
      else if isDecimalDigit c || isLineTerminator c then none
      else some ⟨c, 1⟩

def lineContinuation : Text → Option Nat
  | '\\' :: s => (Trivia.lineEnd s).map (· + 1)
  | _ => none

/-- What follows a backslash: the escape of a character, or a line end that stands for nothing. -/
def escaped (s : Text) : Option (Lexeme (Option Char)) :=
  match escapeSequence s with
  | some e => some ⟨some e.value, e.length⟩
  | none => (Trivia.lineEnd s).map (⟨none, ·⟩)

end Escape

end PegGrammar
