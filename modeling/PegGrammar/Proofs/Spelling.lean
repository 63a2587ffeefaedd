import PegGrammar.ClassBody
import PegGrammar.Token

namespace PegGrammar

/-- Pieces in a row that `rest` follows. Each piece may depend on what follows it. -/
inductive Pieces (P : Text → Text → Prop) (rest : Text) : Text → Prop
  | nil : Pieces P rest []
  | cons {t u : Text} (h : P (u ++ rest) t) (hs : Pieces P rest u) : Pieces P rest (t ++ u)

inductive LineEndText : Text → Prop
  | crlf : LineEndText ['\r', '\n']
  | single {c : Char} (h : isLineTerminator c = true) : LineEndText [c]

theorem LineEndText.exists_cons {e : Text} (h : LineEndText e) (s : Text) :
    ∃ c t, e ++ s = c :: t ∧ isLineTerminator c = true := by
  cases h with
  | crlf => exact ⟨_, _, rfl, by decide⟩
  | single h => exact ⟨_, _, rfl, h⟩

inductive BlockText : Text → Prop
  | mk {body : Text} (h : ¬ ['*', '/'] <:+: body ++ ['*']) :
      BlockText ('/' :: '*' :: (body ++ ['*', '/']))

/-- A comment up to the end of its line: `rest`, which follows it, begins with a line terminator unless
the document ends there. -/
inductive LineCommentText (rest : Text) : Text → Prop
  | mk {body : Text} (h : ∀ c ∈ body, isLineTerminator c = false)
      (hend : ∀ c ∈ rest.head?, isLineTerminator c = true) : LineCommentText rest ('/' :: '/' :: body)

inductive TriviaPiece (rest : Text) : Text → Prop
  | space {c : Char} (h : isSpace c = true) : TriviaPiece rest [c]
  | lineEnd {t : Text} (h : LineEndText t) : TriviaPiece rest t
  | block {t : Text} (h : BlockText t) : TriviaPiece rest t
  | line {t : Text} (h : LineCommentText rest t) : TriviaPiece rest t

inductive InlinePiece (rest : Text) : Text → Prop
  | space {c : Char} (h : isSpace c = true) : InlinePiece rest [c]
  | block {t : Text} (h : BlockText t) (hline : ∀ c ∈ t, isLineTerminator c = false) :
      InlinePiece rest t

abbrev TriviaText : Text → Text → Prop := Pieces TriviaPiece

abbrev InlineText : Text → Text → Prop := Pieces InlinePiece

/-- Neither a space nor a line end nor a comment begins the text. -/
def NoTrivia (s : Text) : Prop := ∀ t rest, TriviaPiece rest t → s ≠ t ++ rest

/-- The end of a statement that `rest` follows: a semicolon, the end of the line, or the end of the
document. -/
inductive StatementEndText (rest : Text) : Text → Prop
  | semicolon {t : Text} (h : TriviaText (';' :: rest) t) : StatementEndText rest (t ++ [';'])
  | line {t c l : Text} (h : InlineText (c ++ (l ++ rest)) t)
      (hc : c = [] ∨ LineCommentText (l ++ rest) c) (hl : LineEndText l) :
      StatementEndText rest (t ++ c ++ l)
  | input {t : Text} (h : TriviaText rest t) (hrest : rest = []) : StatementEndText rest t

/-- Hexadecimal digits, as many as `n`, that write the code point of `c`. -/
def HexText (n : Nat) (t : Text) (c : Char) : Prop :=
  ∃ ds : List Nat, ds.length = n ∧ t.map hexValue? = ds.map some ∧
    ds.foldl (fun value d => 16 * value + d) 0 = c.toNat

inductive NameCharText (plain : Char → Bool) : Text → Char → Prop
  | plain {c : Char} (h : plain c = true) : NameCharText plain [c] c
  | escape {t : Text} {c : Char} (h : HexText 4 t c) : NameCharText plain ('\\' :: 'u' :: t) c

inductive NamePartsText : Text → Text → Prop
  | nil : NamePartsText [] []
  | cons {t u s : Text} {c : Char} (h : NameCharText isNamePart t c) (hs : NamePartsText u s) :
      NamePartsText (t ++ u) (c :: s)

inductive NameSpelling : Text → String → Prop
  | mk {t u s : Text} {c : Char} (h : NameCharText isNameStart t c) (hs : NamePartsText u s) :
      NameSpelling (t ++ u) (String.ofList (c :: s))

/-- What stands for a character after a backslash, when `next` is the character that follows. -/
inductive EscapeText (next : Option Char) : Text → Char → Prop
  | simple {c d : Char} (h : Escape.simple? c = some d) : EscapeText next [c] d
  | byte {t : Text} {c : Char} (h : HexText 2 t c) : EscapeText next ('x' :: t) c
  | unicode {t : Text} {c : Char} (h : HexText 4 t c) : EscapeText next ('u' :: t) c
  | zero (h : next.any isDecimalDigit = false) : EscapeText next ['0'] '\x00'
  | self {c : Char} (h : Escape.simple? c = none) (hx : c ≠ 'x') (hu : c ≠ 'u')
      (hdigit : isDecimalDigit c = false) (hline : isLineTerminator c = false) :
      EscapeText next [c] c

inductive QuotedText (quote : Char) : Text → Text → Prop
  | nil : QuotedText quote [] []
  | plain {c : Char} {t s : Text} (hquote : c ≠ quote) (hslash : c ≠ '\\')
      (hline : isLineTerminator c = false) (hs : QuotedText quote t s) :
      QuotedText quote (c :: t) (c :: s)
  | escape {t u s : Text} {c : Char} (hslash : '\\' ≠ quote)
      (h : EscapeText (u ++ [quote]).head? t c) (hs : QuotedText quote u s) :
      QuotedText quote ('\\' :: (t ++ u)) (c :: s)
  | continued {t u s : Text} (hslash : '\\' ≠ quote) (h : LineEndText t)
      (hs : QuotedText quote u s) : QuotedText quote ('\\' :: (t ++ u)) s

inductive StringSpelling : Text → String → Prop
  | mk {quote : Char} {t s : Text} (hquote : StringLiteral.isQuote quote = true)
      (h : QuotedText quote t s) : StringSpelling (quote :: (t ++ [quote])) (String.ofList s)

def verboseMark (verbose : Bool) (r : Text) : Text := if verbose then '~' :: r else []

/-- What stands between the name of a rule and its equals sign, in front of `rest`. -/
def HeaderText (rest t : Text) : Option (String × Bool) → Prop
  | none => TriviaText rest t
  | some (display, verbose) => ∃ k s l r, t = k ++ (s ++ (l ++ verboseMark verbose r)) ∧
      TriviaText (s ++ (l ++ (verboseMark verbose r ++ rest))) k ∧ StringSpelling s display ∧
      TriviaText (verboseMark verbose r ++ rest) l ∧ TriviaText rest r

inductive ClassCharText (next : Option Char) : Text → Option Char → Prop
  | plain {c : Char} (hclose : c ≠ ']') (hslash : c ≠ '\\') (hline : isLineTerminator c = false) :
      ClassCharText next [c] (some c)
  | escape {t : Text} {c : Char} (h : EscapeText next t c) : ClassCharText next ('\\' :: t) (some c)
  | continued {t : Text} (h : LineEndText t) : ClassCharText next ('\\' :: t) none

inductive ClassPartsText : Text → List ClassPart → Prop
  | nil : ClassPartsText [] []
  | char {t u : Text} {c : Char} {parts : List ClassPart}
      (h : ClassCharText (u ++ [']']).head? t (some c)) (hs : ClassPartsText u parts) :
      ClassPartsText (t ++ u) (.char c :: parts)
  | range {t u v : Text} {c d : Char} {parts : List ClassPart}
      (h : ClassCharText (some '-') t (some c)) (h' : ClassCharText (v ++ [']']).head? u (some d))
      (hle : c ≤ d) (hs : ClassPartsText v parts) :
      ClassPartsText (t ++ '-' :: (u ++ v)) (.range c d :: parts)
  | continued {t u : Text} {parts : List ClassPart}
      (h : ClassCharText (u ++ [']']).head? t none) (hs : ClassPartsText u parts) :
      ClassPartsText (t ++ u) parts

inductive ClassSpelling : Text → ClassBody → Prop
  | plain {t : Text} {parts : List ClassPart} (h : ClassPartsText t parts) :
      ClassSpelling ('[' :: (t ++ [']'])) ⟨parts, false⟩
  | inverted {t : Text} {parts : List ClassPart} (h : ClassPartsText t parts) :
      ClassSpelling ('[' :: '^' :: (t ++ [']'])) ⟨parts, true⟩

/-- Every opening brace has its closing one, counting `depth` closing braces at the end that
close nothing here. -/
def BalancedAt (depth : Nat) (code : Text) : Prop :=
  code.count '}' = depth + code.count '{' ∧
    ∀ t, t <+: code → t.count '}' ≤ depth + t.count '{'

/-- As many closing braces as opening ones, and nowhere more of them so far. -/
def Balanced (code : Text) : Prop :=
  code.count '{' = code.count '}' ∧ ∀ t, t <+: code → t.count '}' ≤ t.count '{'

theorem balancedAt_zero_iff {code : Text} : BalancedAt 0 code ↔ Balanced code := by
  simp [BalancedAt, Balanced, eq_comm]

end PegGrammar
