import PegGrammar.Span
import PegGrammar.Trivia

namespace PegGrammar

structure Mark where
  position : Position := {}
  rest : Text

/-- A way through a text: where it has come to, the marks it has left, the last one in front, and
the text still ahead. -/
structure Scan where
  position : Position := {}
  marks : List Mark
  rest : Text

namespace Scan

def stride : Nat := 128

/-- Goes on until `target` is reached or the text ends. -/
def upTo (target : Nat) : Scan → Scan
  | ⟨p, marks, []⟩ => ⟨p, marks, []⟩
  | ⟨p, marks, c :: s⟩ =>
    if target ≤ p.offset then ⟨p, marks, c :: s⟩
    else
      match Trivia.lineEnd (c :: s) with
      | some n =>
        let next : Position := ⟨p.offset + Text.byteSize ((c :: s).take n), p.line + 1, 1⟩
        let rest := s.drop (n - 1)
        upTo target ⟨next, ⟨next, rest⟩ :: marks, rest⟩
      | none =>
        let next : Position := ⟨p.offset + c.utf8Size, p.line, p.column + 1⟩
        upTo target ⟨next, if next.column % stride = 0 then ⟨next, s⟩ :: marks else marks, s⟩
termination_by scan => scan.rest.length
decreasing_by
  · exact Nat.lt_succ_of_le (List.length_drop ▸ Nat.sub_le ..)
  · exact Nat.lt_succ_self _

end Scan

/-- A locator goes through its text only up to the largest offset asked for so far; a position is
counted on from the last mark before it. -/
structure Locator where
  size : Nat
  scan : Scan

namespace Locator

def ofText (source : Text) : Locator where
  size := source.byteSize
  scan := { marks := [{ rest := source }], rest := source }

/-- The position of an offset that the scan has reached. There is none inside a character. -/
def locate (l : Locator) (offset : Nat) : Option Position := do
  let known ← l.scan.marks.find? (·.position.offset ≤ offset)
  let (between, _) ← known.rest.splitAtByte? (offset - known.position.offset)
  return ⟨offset, known.position.line, known.position.column + between.length⟩

/-- The position of an offset, and what the locator knows afterwards. An offset beyond the end
stands for the end. -/
def lookup (l : Locator) (offset : Nat) : Option Position × Locator :=
  let offset := min offset l.size
  let l := { l with scan := l.scan.upTo offset }
  (l.locate offset, l)

def position? (offset : Nat) : OptionT (StateM Locator) Position :=
  OptionT.mk fun l => l.lookup offset

def span? (tag : SourceTag) (range : ByteRange) : OptionT (StateM Locator) Span := do
  let start ← position? range.start
  let stop ← position? range.stop
  return ⟨tag, start, stop⟩

end Locator

end PegGrammar
