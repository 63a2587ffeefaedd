namespace PegGrammar

/-- The bytes from `start` up to, not including, `stop`. -/
structure ByteRange where
  start : Nat
  stop : Nat
  deriving DecidableEq, Repr, Inhabited

/-- A byte offset with its line and column, both counted from one; columns count characters. -/
structure Position where
  offset : Nat := 0
  line : Nat := 1
  column : Nat := 1
  deriving DecidableEq, Repr, Inhabited

def Position.display (p : Position) : String :=
  toString p.line ++ ":" ++ toString p.column

/-- The name of a document, if it has one. Nothing looks inside it. -/
abbrev SourceTag := Option String

def SourceTag.display (tag : SourceTag) : String := tag.getD "<input>"

/-- A range of a document; `stop` is the position just past it. -/
structure Span where
  source : SourceTag := none
  start : Position := {}
  stop : Position := {}
  deriving DecidableEq, Repr, Inhabited

namespace Span

def range (s : Span) : ByteRange := ⟨s.start.offset, s.stop.offset⟩

def display (s : Span) : String :=
  s.source.display ++ ":" ++ s.start.display ++ "-" ++ s.stop.display

end Span

end PegGrammar
