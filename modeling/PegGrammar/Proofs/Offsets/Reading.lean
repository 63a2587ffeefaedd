import PegGrammar.Proofs.Offsets.LineTable
import PegGrammar.Proofs.Offsets.Literals
import PegGrammar.Proofs.Offsets.Names
import PegGrammar.Proofs.Reuse

namespace PegGrammar

namespace Offsets

structure Document where
  source : Text
  tag : SourceTag := none

def Document.spanOf (d : Document) (r : ByteRange) : Span := (d.source.spanAt d.tag r).getD {}

/-- Looks for the span of a range. To go beyond the end is a fault here, although the table takes that
for the end. -/
def Document.lookUp (d : Document) (lines : LineTable) (r : ByteRange) :
    Except Fault (Span × LineTable) :=
  if r.start ≤ d.source.byteSize ∧ r.stop ≤ d.source.byteSize then lines.span d.source d.tag r
  else .error (.slice r)

/-- Where reading stands: the offset, the failures so far, and what is known about the lines. -/
structure Cursor where
  pos : Nat := 0
  failures : Failures := {}
  lines : LineTable := {}

inductive Outcome (α : Type) where
  | matched (value : α) (cursor : Cursor)
  /-- Nothing was found. The offset is wherever this became clear. -/
  | unmatched (cursor : Cursor)
  /-- A class range in the wrong order, as written. -/
  | disordered (text : String) (location : Span) (cursor : Cursor)

def Reader (α : Type) : Type := Document → Cursor → Except Fault (Outcome α)

namespace Reader

variable {α β : Type}

protected def pure (a : α) : Reader α := fun _ c => .ok (.matched a c)

protected def bind (p : Reader α) (f : α → Reader β) : Reader β := fun d c =>
  match p d c with
  | .ok (.matched a c') => f a d c'
  | .ok (.unmatched c') => .ok (.unmatched c')
  | .ok (.disordered text location c') => .ok (.disordered text location c')
  | .error fault => .error fault

instance : Monad Reader where
  pure := Reader.pure
  bind := Reader.bind

def nothing : Reader α := fun _ c => .ok (.unmatched c)

def fail (e : Expectation) : Reader α := fun _ c =>
  .ok (.unmatched { c with failures := c.failures.record c.pos e })

def here : Reader Nat := fun _ c => .ok (.matched c.pos c)

def moveTo (pos : Nat) : Reader Unit := fun _ c => .ok (.matched () { c with pos })

def expectAt (pos : Nat) (e : Expectation) : Reader Unit := fun _ c =>
  .ok (.matched () { c with failures := c.failures.record pos e })

def expect (e : Expectation) : Reader Unit := fun d c => expectAt c.pos e d c

def look (recognize : Text → Nat → Except Fault α) : Reader α := fun d c =>
  match recognize d.source c.pos with
  | .ok a => .ok (.matched a c)
  | .error fault => .error fault

/-- Goes back to an offset if nothing is found. -/
def backTo (pos : Nat) (p : Reader α) : Reader α := fun d c =>
  match p d c with
  | .ok (.unmatched c') => .ok (.unmatched { c' with pos })
  | r => r

/-- Goes back to where it began if nothing is found. -/
def restoring (p : Reader α) : Reader α := do
  let start ← here
  backTo start p

/-- Ordered choice. The second reader begins where the first one has left the offset. -/
def orElse (p : Reader α) (q : Unit → Reader α) : Reader α := fun d c =>
  match p d c with
  | .ok (.unmatched c') => q () d c'
  | r => r

instance : OrElse (Reader α) := ⟨orElse⟩

def optional (p : Reader α) : Reader (Option α) :=
  (do return some (← p)) <|> return none

def succeeds (p : Reader Unit) : Reader Bool :=
  (do p; return true) <|> return false

def many (p : Reader α) (d : Document) (c : Cursor) : Except Fault (Outcome (List α)) :=
  match p d c with
  | .ok (.matched a c') =>
    if d.source.byteSize - c'.pos < d.source.byteSize - c.pos then
      match many p d c' with
      | .ok (.matched as c'') => .ok (.matched (a :: as) c'')
      | r => r
    else .ok (.matched [a] c')
  | .ok (.unmatched c') => .ok (.matched [] c')
  | .ok (.disordered text location c') => .ok (.disordered text location c')
  | .error fault => .error fault
termination_by d.source.byteSize - c.pos

def span (range : ByteRange) : Reader Span := fun d c =>
  match d.lookUp c.lines range with
  | .ok (s, lines) => .ok (.matched s { c with lines })
  | .error fault => .error fault

def spanFrom (start : Nat) : Reader Span := do
  let stop ← here
  span ⟨start, stop⟩

def symbol (c : Char) : Reader Unit := do
  match ← look fun source pos => .ok (literalAt? source pos [c]) with
  | some stop => moveTo stop
  | none => fail (.literal (String.singleton c))

def accepts (c : Char) : Reader Bool := do
  match ← look fun source pos => .ok (literalAt? source pos [c]) with
  | some stop =>
    moveTo stop
    return true
  | none => return false

def operator (symbolOf : α → Char) : List α → Reader α
  | [] => nothing
  | a :: as => (do symbol (symbolOf a); return a) <|> operator symbolOf as

def lexeme (description : String) (recognize : Text → Nat → Checked (α × Nat)) :
    Reader (Token α) := do
  let start ← here
  match ← look fun source pos => (recognize source pos).run with
  | some (a, stop) =>
    moveTo stop
    return ⟨a, ⟨start, stop⟩⟩
  | none => fail (.named description)

def name : Reader (Token String) := lexeme "identifier" Offsets.name

def codeBlock : Reader (Token String) := do
  match ← look fun source pos => (Offsets.codeBlock source pos).run with
  | some (code, range) =>
    moveTo (range.stop + 1)
    return ⟨String.ofList code, range⟩
  | none => fail (.named "code block")

def classBody : Reader ClassBody := do
  match ← look Offsets.classBody with
  | .ok (some (body, stop)) =>
    moveTo stop
    return body
  | .ok none => fail (.named "character class")
  | .error e =>
    let location ← span e.range
    fun _ c => .ok (.disordered e.text location c)

end Reader

end Offsets

end PegGrammar
